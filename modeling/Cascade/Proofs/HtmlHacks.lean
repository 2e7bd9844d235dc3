import Cascade.Proofs.MatchedBoxes
import Cascade.Proofs.Shape
import Cascade.Proofs.SpeltNames

/-! Which selectors are taken for the hack that only old versions of one browser match. -/
namespace Cascade
open List

def GoesOn (rest : Bytes) : Prop := rest = [] ∨ ∃ c more, rest = 32 :: c :: more ∧ c ≠ 10

theorem startsHackIff {s} : startsHtmlHack s ↔ ∃ rest, s = ascii "* html" ++ rest ∧ GoesOn rest := by
  rw [startsHtmlHack,Bool.and_eq_true, isPrefixOf_iff_prefix]
  constructor
  · rintro ⟨⟨rest,rfl⟩,goes⟩
    refine ⟨rest,rfl,?_⟩
    rw [drop_left] at goes
    split at goes
    · exact .inl rfl
    · rename_i b c more
      rw [Bool.and_eq_true,beq_iff_eq,bne_iff_ne] at goes
      exact .inr ⟨c,more,by rw [goes.1],goes.2⟩
    · cases goes
  · rintro ⟨rest,rfl,goes⟩
    refine ⟨⟨rest,rfl⟩,?_⟩
    rcases goes with rfl | ⟨c,more,rfl,line⟩
    · rfl
    · simp [line]

def hackWithin (behind : Bytes) : Bytes → Bool
  | [] => false
  | b :: s => startsHtmlHack (b :: s ++ behind) || hackWithin behind s

theorem hackAppend (s behind) : isHtmlHack (s ++ behind) = (hackWithin behind s || isHtmlHack behind) := by
  induction s with
  | nil => rfl
  | cons b s ih => rw [cons_append,isHtmlHack,ih,hackWithin,Bool.or_assoc,cons_append]

theorem hackAlone (s) : isHtmlHack s = hackWithin [] s := by
  have whole := hackAppend s []
  rw [append_nil,isHtmlHack,Bool.or_false] at whole
  exact whole

theorem hackWithinAppend (behind s t) :
    hackWithin behind (s ++ t) = (hackWithin (t ++ behind) s || hackWithin behind t) := by
  induction s with
  | nil => rfl
  | cons b s ih =>
    rw [cons_append,hackWithin,ih,hackWithin,Bool.or_assoc,cons_append,cons_append,append_assoc]

theorem hackWithinIff {behind s} : hackWithin behind s ↔
    ∃ front back, s = front ++ back ∧ back ≠ [] ∧ startsHtmlHack (back ++ behind) := by
  induction s with
  | nil => simp [hackWithin]
  | cons b s ih =>
    rw [hackWithin,Bool.or_eq_true,ih]
    constructor
    · rintro (here | ⟨front,back,rfl,full,starts⟩)
      · exact ⟨[],b :: s,rfl,cons_ne_nil _ _,here⟩
      · exact ⟨b :: front,back,rfl,full,starts⟩
    · rintro ⟨front,back,split,full,starts⟩
      cases front with
      | nil =>
        rw [nil_append] at split
        rw [← split] at starts
        exact .inl starts
      | cons _ front =>
        cases split
        exact .inr ⟨front,back,rfl,full,starts⟩

theorem hackStarts {b} {s : Bytes} (starts : startsHtmlHack (b :: s)) : b = 42 ∧ s.head? = some 32 := by
  obtain ⟨rest,same,_⟩ := startsHackIff.mp starts
  cases same
  exact ⟨rfl,rfl⟩

/- Whether blanks stand only behind hexadecimal digits and backslashes, given whether one may come first. -/
def tightFrom : Bool → Bytes → Bool
  | _,[] => true
  | may,b :: s => (may || !isBlankByte b) && tightFrom (isHexDigit b || b == 92) s

def isTight (s : Bytes) : Bool := tightFrom false s

section
variable {b : UInt8} {s t : Bytes} {may : Bool}

theorem tightEver (tight : isTight s) (may) : tightFrom may s := by
  cases s with
  | nil => rfl
  | cons b s =>
    simp only [isTight,tightFrom,Bool.false_or,Bool.and_eq_true] at tight ⊢
    exact ⟨by rw [tight.1,Bool.or_true],tight.2⟩

theorem tightAppend (left : tightFrom may s) (right : isTight t) : tightFrom may (s ++ t) := by
  induction s generalizing may with
  | nil => exact tightEver right may
  | cons b s ih =>
    rw [tightFrom,Bool.and_eq_true] at left
    rw [cons_append,tightFrom,left.1,ih left.2]
    rfl

theorem tightCons (solid : isBlankByte b = false) (tight : isTight s) : tightFrom may (b :: s) := by
  rw [tightFrom,solid,tightEver tight,Bool.not_false,Bool.or_true]
  rfl

theorem tightBlank {front rest : Bytes} {h} (tight : tightFrom may (front ++ h :: b :: rest))
    (blank : isBlankByte b) : isHexDigit h ∨ h = 92 := by
  induction front generalizing may with
  | nil =>
    simp only [nil_append,tightFrom,blank,Bool.and_eq_true] at tight
    simpa using tight.2.1
  | cons c front ih =>
    rw [cons_append,tightFrom,Bool.and_eq_true] at tight
    exact ih tight.2

theorem tightHead (tight : isTight s) : ∀ b ∈ s.head?, isBlankByte b = false := by
  intro b head
  obtain ⟨rest,rfl⟩ := head?_eq_some_iff.mp head
  rw [isTight,tightFrom,Bool.false_or,Bool.and_eq_true,Bool.not_eq_true'] at tight
  exact tight.1

theorem nameByteSolid (name : isNameByte b) : isBlankByte b = false := by
  by_contra blank
  simp only [isBlankByte,Bool.not_eq_false,Bool.or_eq_true,beq_iff_eq] at blank
  rcases blank with (((rfl | rfl) | rfl) | rfl) | rfl <;> cases name

theorem hexTight {ds} (digits : ∀ d ∈ ds, isHexDigit d) (rest : tightFrom true s) : tightFrom true (ds ++ s) := by
  induction ds with
  | nil => exact rest
  | cons d ds ih =>
    obtain ⟨here,others⟩ := forall_mem_cons.mp digits
    rw [cons_append,tightFrom,here,Bool.true_or,Bool.true_or,ih others]
    rfl

theorem escapeTight {e} (code : IsEscape e) (rest : isTight s) : tightFrom true (e ++ s) := by
  cases code with
  | code first digits ends =>
    rw [append_assoc]
    refine hexTight (forall_mem_cons.mpr ⟨first,digits⟩) ?_
    rcases ends with rfl | ⟨b,_,rfl⟩
    · exact tightEver rest true
    · rw [singleton_append,tightFrom,tightEver rest]
      rfl
  | @character b hs _ high =>
    have others : isTight (hs ++ s) := by
      refine tightAppend ?_ rest
      induction hs with
      | nil => rfl
      | cons h hs ih =>
        obtain ⟨here,others⟩ := forall_mem_cons.mp high
        exact tightCons (nameByteSolid (by simp [isNameByte,isNameStart,here])) (ih others)
    rw [cons_append,tightFrom,tightEver others]
    rfl

theorem speltTight (spelt : Spelt s) : isTight s := by
  induction spelt with
  | nil => rfl
  | byte name _ ih => exact tightCons (nameByteSolid name) ih
  | escape code _ ih => exact escapeTight code ih

theorem tightHack (tight : isTight s) {behind} :
    hackWithin behind s ↔ s.getLast? = some 42 ∧ startsHtmlHack (42 :: behind) := by
  rw [hackWithinIff,getLast?_eq_some_iff]
  constructor
  · rintro ⟨front,back,rfl,full,starts⟩
    cases back with
    | nil => exact absurd rfl full
    | cons b back =>
      obtain ⟨rfl,next⟩ := hackStarts starts
      cases back with
      | nil => exact ⟨⟨front,rfl⟩,starts⟩
      | cons c back =>
        cases next
        rcases tightBlank tight rfl with hex | slash
        · cases hex
        · cases slash
  · rintro ⟨⟨front,rfl⟩,starts⟩
    exact ⟨front,[42],rfl,cons_ne_nil _ _,starts⟩

end

inductive Solid : Bytes → Prop where
  | tight {s : Bytes} (full : s ≠ []) (each : isTight s = true) : Solid s
  | boxed {b e : UInt8} {s : Bytes} (opens : b = 58 ∨ b = 91) (closes : e = 41 ∨ e = 93) : Solid (b :: s ++ [e])

section
variable {s behind : Bytes}

theorem hackClosed {e} (other : e ∉ ascii "* html") {w v : Bytes}
    (starts : startsHtmlHack (s ++ e :: w)) (line : e ≠ 32) (next : e ≠ 10) : startsHtmlHack (s ++ e :: v) := by
  obtain ⟨rest,same,goes⟩ := startsHackIff.mp starts
  have inside : ∃ more, s = ascii "* html" ++ more ∧ rest = more ++ e :: w := by
    rcases append_eq_append_iff.mp same with ⟨more,whole,there⟩ | ⟨more,is,there⟩
    · cases more with
      | nil => exact ⟨[],by rw [append_nil,whole,append_nil],there.symm⟩
      | cons c more =>
        cases there
        exact absurd (by rw [whole]; simp) other
    · exact ⟨more,is,there⟩
  obtain ⟨more,rfl,rfl⟩ := inside
  refine startsHackIff.mpr ⟨more ++ e :: v,by rw [append_assoc],?_⟩
  rcases goes with bare | ⟨c,behind,is,solid⟩
  · simp at bare
  cases more with
  | nil =>
    cases is
    exact absurd rfl line
  | cons b more =>
    cases more with
    | nil =>
      cases is
      exact .inr ⟨e,v,rfl,next⟩
    | cons d more =>
      cases is
      exact .inr ⟨c,more ++ e :: v,rfl,solid⟩

theorem boxedHack {b e : UInt8} (closes : e = 41 ∨ e = 93) :
    hackWithin behind (b :: s ++ [e]) ↔ isHtmlHack (b :: s ++ [e]) := by
  have move : ∀ v w : Bytes, hackWithin v (b :: s ++ [e]) → hackWithin w (b :: s ++ [e]) := by
    intro v w within
    obtain ⟨front,back,split,full,starts⟩ := hackWithinIff.mp within
    obtain ⟨more,rfl⟩ : ∃ more, back = more ++ [e] := by
      obtain ⟨more,last,rfl⟩ := (eq_nil_or_concat back).resolve_left full
      rw [concat_eq_append,← append_assoc] at split
      cases (append_inj' split rfl).2
      exact ⟨more,concat_eq_append⟩
    refine hackWithinIff.mpr ⟨front,more ++ [e],split,full,?_⟩
    rw [append_assoc] at starts ⊢
    rcases closes with rfl | rfl
    · exact hackClosed (by decide) starts (by decide) (by decide)
    · exact hackClosed (by decide) starts (by decide) (by decide)
  rw [hackAlone]
  exact ⟨move _ _,move _ _⟩

theorem solidHack (solid : Solid s) : hackWithin behind s ↔
    isHtmlHack s ∨ (s.getLast? = some 42 ∧ startsHtmlHack (42 :: behind)) := by
  cases solid with
  | tight _ each =>
    have alone : ¬ isHtmlHack s := by
      rw [hackAlone,tightHack each]
      rintro ⟨_,starts⟩
      cases starts
    rw [tightHack each,or_iff_right alone]
  | @boxed b e s _ closes =>
    have last : ¬ (b :: s ++ [e]).getLast? = some 42 := by
      rw [getLast?_concat]
      rcases closes with rfl | rfl <;> decide
    rw [boxedHack closes,or_iff_left fun star => last star.1]

theorem solidHead (solid : Solid s) : ∃ b rest, s = b :: rest ∧ isBlankByte b = false := by
  cases solid with
  | tight full each =>
    obtain ⟨b,rest,rfl⟩ := exists_cons_of_ne_nil full
    exact ⟨b,rest,rfl,tightHead each b rfl⟩
  | @boxed b e s opens _ => exact ⟨b,s ++ [e],rfl,by rcases opens with rfl | rfl <;> rfl⟩

theorem solidBlank {p rest : Bytes} (solid : Solid s) (plain : ∀ b ∈ p, b ≠ 58 ∧ b ≠ 91)
    (ends : ∀ b ∈ p.getLast?, isHexDigit b = false ∧ b ≠ 92) : s ≠ p ++ 32 :: rest := by
  intro whole
  cases p with
  | nil =>
    obtain ⟨b,rest,same,blank⟩ := solidHead solid
    rw [whole] at same
    cases same
    cases blank
  | cons b p =>
    cases solid with
    | tight _ each =>
      obtain ⟨f,h,last⟩ := (eq_nil_or_concat (b :: p)).resolve_left (cons_ne_nil b p)
      rw [concat_eq_append] at last
      rw [whole,last,append_assoc] at each
      have allowed := ends h (by rw [last,getLast?_concat]; rfl)
      rcases tightBlank each rfl with hex | slash
      · exact absurd hex (by simp [allowed.1])
      · exact allowed.2 slash
    | boxed opens _ =>
      obtain ⟨colon,bracket⟩ := plain b mem_cons_self
      rw [(List.cons.inj whole).1] at opens
      exact opens.elim colon bracket

variable {ts : List Bytes} (solid : ∀ t ∈ ts, Solid t)
include solid

theorem flattenHead (full : ts ≠ []) : ∃ b rest, ts.flatten = b :: rest ∧ isBlankByte b = false := by
  obtain ⟨t,more,rfl⟩ := exists_cons_of_ne_nil full
  obtain ⟨b,rest,rfl,head⟩ := solidHead (solid t mem_cons_self)
  exact ⟨b,rest ++ more.flatten,rfl,head⟩

theorem flattenHack (full : ts ≠ []) : hackWithin behind ts.flatten ↔
    (∃ t ∈ ts, isHtmlHack t) ∨ (ts.flatten.getLast? = some 42 ∧ startsHtmlHack (42 :: behind)) := by
  induction ts with
  | nil => exact absurd rfl full
  | cons t ts ih =>
    obtain ⟨first,others⟩ := forall_mem_cons.mp solid
    rw [flatten_cons]
    cases ts with
    | nil => simp [solidHack first]
    | cons u ts =>
      obtain ⟨b,rest,head,solidByte⟩ := flattenHead others (cons_ne_nil u ts)
      have across : ¬ startsHtmlHack (42 :: ((u :: ts).flatten ++ behind)) := by
        intro starts
        rw [head] at starts
        cases (hackStarts starts).2
        cases solidByte
      have last : (t ++ (u :: ts).flatten).getLast? = (u :: ts).flatten.getLast? := by
        rw [head,getLast?_append]
        rfl
      rw [hackWithinAppend,Bool.or_eq_true,solidHack first,ih others (cons_ne_nil u ts),last]
      simp only [across,Bool.false_eq_true,and_false,or_false,exists_mem_cons_iff,or_assoc]

theorem flattenBlank {p rest : Bytes} (plain : ∀ b ∈ p, b ≠ 58 ∧ b ≠ 91)
    (ends : ∀ b ∈ p.getLast?, isHexDigit b = false ∧ b ≠ 92) : ts.flatten ≠ p ++ 32 :: rest := by
  induction ts generalizing p with
  | nil => simp
  | cons t ts ih =>
    obtain ⟨first,others⟩ := forall_mem_cons.mp solid
    intro split
    rcases append_eq_append_iff.mp split with ⟨more,rfl,there⟩ | ⟨more,same,there⟩
    · refine ih others (fun b mem => plain b (mem_append_right _ mem)) ?_ there
      intro b last
      exact ends b (by rw [getLast?_append,Option.mem_def.mp last]; rfl)
    cases more with
    | nil => exact ih others (p := []) (forall_mem_nil _) nofun there.symm
    | cons c more =>
      rw [← (List.cons.inj there).1] at same
      exact solidBlank first plain ends same

end

def Component.chain : Component → List (UInt8 × Component)
  | .complex kind left right => left.chain ++ [(kind,right)]
  | s => [(0,s)]

/- Whether a compound that is the type selector html comes next, and no other combinator than a blank behind it. -/
def StartsHtml : List (UInt8 × Component) → Prop
  | [] => False
  | y :: rest => y.1 = 32 ∧ y.2.text = ascii "html" ∧ ∀ z ∈ rest.head?, z.1 = 32

/- Where a selector holds the hack: in one of its conditions, or from a star that ends a compound on. -/
def HoldsHack : List (UInt8 × Component) → Prop
  | [] => False
  | x :: rest => (∃ c ∈ x.2.conjuncts, isHtmlHack c.text = true) ∨
      (x.2.text.getLast? = some 42 ∧ StartsHtml rest) ∨ HoldsHack rest

def Component.IsSolid (x : Component) : Prop := ∃ cs, x = .compound cs ∧ cs ≠ [] ∧ ∀ c ∈ cs, Solid c.text

structure Links (xs : List (UInt8 × Component)) : Prop where
  kinds : ∀ x ∈ xs, x.1 ∈ combinatorBytes
  solid : ∀ x ∈ xs, x.2.IsSolid

def linksText (xs : List (UInt8 × Component)) : Bytes := xs.flatMap fun x => x.1 :: x.2.text

section
variable {x : Component} {xs : List (UInt8 × Component)}

theorem compoundTexts {cs} : (Component.compound cs).text = (cs.map Component.text).flatten := by
  rw [Component.text,textsMap]

theorem linkHack (solid : x.IsSolid) (behind) : hackWithin behind x.text ↔
    (∃ c ∈ x.conjuncts, isHtmlHack c.text) ∨
      (x.text.getLast? = some 42 ∧ startsHtmlHack (42 :: behind)) := by
  obtain ⟨cs,rfl,full,each⟩ := solid
  rw [compoundTexts,flattenHack (forall_mem_map.mpr each) (by simpa using full)]
  simp only [mem_map,exists_exists_and_eq_and,Component.conjuncts]

theorem linksTextCons (y) : linksText (y :: xs) = y.1 :: (y.2.text ++ linksText xs) := rfl

theorem linksTailOf {y} (links : Links (y :: xs)) : Links xs :=
  ⟨fun x mem => links.kinds x (mem_cons_of_mem y mem),fun x mem => links.solid x (mem_cons_of_mem y mem)⟩

theorem linksStart (links : Links xs) : linksText xs = [] ∨
    ∃ k c more, linksText xs = k :: c :: more ∧ k ∈ combinatorBytes ∧ isBlankByte c = false := by
  cases xs with
  | nil => exact .inl rfl
  | cons y ys =>
    obtain ⟨cs,same,full,each⟩ := links.solid y mem_cons_self
    obtain ⟨c,more,head,solid⟩ := flattenHead (forall_mem_map.mpr each) (by simpa using full)
    refine .inr ⟨y.1,c,more ++ linksText ys,?_,links.kinds y mem_cons_self,solid⟩
    rw [linksTextCons,same,compoundTexts,head]
    rfl

theorem htmlPlain : (∀ b ∈ ascii "html", b ≠ 58 ∧ b ≠ 91) ∧
    ∀ b ∈ (ascii "html").getLast?, isHexDigit b = false ∧ b ≠ 92 := by
  decide +kernel

theorem htmlParted {ts : List Bytes} (solid : ∀ t ∈ ts, Solid t) {w rest : Bytes}
    (tail : ∀ k ∈ w.head?, k ∈ combinatorBytes) (goes : GoesOn rest) (same : ts.flatten ++ w = ascii "html" ++ rest) :
    ts.flatten = ascii "html" ∧ w = rest := by
  rcases append_eq_append_iff.mp same with ⟨more,short,there⟩ | ⟨more,long,there⟩
  · cases more with
    | nil => exact ⟨by rw [short,append_nil],there⟩
    | cons k more =>
      have apart : ((ascii "html").all fun k => !combinatorBytes.contains k) := rfl
      have letter : k ∈ ascii "html" := by
        rw [short]
        simp
      rw [there] at tail
      exact absurd (tail k rfl) (by simpa using all_eq_true.mp apart k letter)
  · cases more with
    | nil => exact ⟨by rw [long,append_nil],there.symm⟩
    | cons b more =>
      rcases goes with bare | ⟨c,behind,is,_⟩
      · rw [bare] at there
        cases there
      · rw [is] at there
        rw [← (List.cons.inj there).1] at long
        exact absurd long (flattenBlank solid htmlPlain.1 htmlPlain.2)

theorem htmlAhead {ts : List Bytes} (solid : ∀ t ∈ ts, Solid t) {w : Bytes} (tail : w = [] ∨
    ∃ k c more, w = k :: c :: more ∧ k ∈ combinatorBytes ∧ isBlankByte c = false) :
    (∃ rest, ts.flatten ++ w = ascii "html" ++ rest ∧ GoesOn rest) ↔
      ts.flatten = ascii "html" ∧ ∀ k ∈ w.head?, k = 32 := by
  have combinators : ∀ k ∈ w.head?, k ∈ combinatorBytes := by
    rcases tail with rfl | ⟨_,_,_,rfl,combinator,_⟩
    · rintro _ ⟨⟩
    · rintro _ ⟨⟩
      exact combinator
  constructor
  · rintro ⟨rest,same,goes⟩
    obtain ⟨html,rfl⟩ := htmlParted solid combinators goes same
    refine ⟨html,?_⟩
    rintro k head
    rcases goes with rfl | ⟨c,more,rfl,_⟩
    · cases head
    · cases head
      rfl
  · rintro ⟨html,blank⟩
    refine ⟨w,by rw [html],?_⟩
    rcases tail with rfl | ⟨k,c,more,rfl,_,solid⟩
    · exact .inl rfl
    · refine .inr ⟨c,more,by rw [blank k rfl],?_⟩
      rintro rfl
      cases solid

theorem linksHtml (links : Links xs) : startsHtmlHack (42 :: linksText xs) ↔ StartsHtml xs := by
  cases xs with
  | nil => exact iff_of_false nofun nofun
  | cons y ys =>
    obtain ⟨cs,same,_,each⟩ := links.solid y mem_cons_self
    have ahead := htmlAhead (forall_mem_map.mpr each) (linksStart (linksTailOf links))
    have heads : (∀ k ∈ (linksText ys).head?, k = 32) ↔ ∀ z ∈ ys.head?, z.1 = 32 := by
      cases ys with
      | nil => exact iff_of_true nofun nofun
      | cons z zs => simp [linksTextCons]
    rw [startsHackIff,StartsHtml,linksTextCons,same,compoundTexts,← heads,← ahead]
    constructor
    · rintro ⟨rest,whole,goes⟩
      obtain ⟨blank,html⟩ := List.cons.inj (List.cons.inj whole).2
      exact ⟨blank,rest,html,goes⟩
    · rintro ⟨blank,rest,html,goes⟩
      exact ⟨rest,by rw [blank,html]; rfl,goes⟩

theorem holdsCons (y) : HoldsHack (y :: xs) ↔ (∃ c ∈ y.2.conjuncts, isHtmlHack c.text) ∨
    (y.2.text.getLast? = some 42 ∧ StartsHtml xs) ∨ HoldsHack xs := Iff.rfl

theorem holdsAhead {y} (solid : y.2.IsSolid) (links : Links xs) (later : isHtmlHack (linksText xs) ↔ HoldsHack xs) :
    isHtmlHack (y.2.text ++ linksText xs) ↔ HoldsHack (y :: xs) := by
  rw [hackAppend,Bool.or_eq_true,linkHack solid,linksHtml links,later,holdsCons,or_assoc]

theorem linksHack (links : Links xs) : isHtmlHack (linksText xs) ↔ HoldsHack xs := by
  induction xs with
  | nil => exact iff_of_false nofun nofun
  | cons y ys ih =>
    have apart : ¬ startsHtmlHack (y.1 :: (y.2.text ++ linksText ys)) := by
      intro starts
      have known := links.kinds y mem_cons_self
      rw [(hackStarts starts).1] at known
      exact absurd known (by decide)
    have behind := linksTailOf links
    rw [linksTextCons,isHtmlHack,Bool.or_eq_true,or_iff_right apart]
    exact holdsAhead (links.solid y mem_cons_self) behind (ih behind)

end

structure Component.IsChain (s x : Component) (xs : List (UInt8 × Component)) : Prop where
  chain : s.chain = (0,x) :: xs
  first : x.IsSolid
  links : Links xs
  text : s.text = x.text ++ linksText xs
  single : s.isList = false

theorem chainHack {s x : Component} {xs} (chain : s.IsChain x xs) : isHtmlHack s.text ↔ HoldsHack s.chain := by
  rw [chain.text,chain.chain]
  exact @holdsAhead xs (0,x) chain.first chain.links (linksHack chain.links)

theorem nameTight {name} (named : IsName name) : isTight name := speltTight named.spelt

theorem typeTight {t : Token} (type : t.IsType) (spelt : t.IsSpelt) : t.text ≠ [] ∧ isTight t.text := by
  rcases type with ident | sign
  · have named := spelt.ident ident
    exact ⟨named.full,nameTight named⟩
  rw [Token.isOneOf,Bool.and_eq_true,decide_eq_true_eq] at sign
  obtain ⟨b,text⟩ := spelt.delim sign.1
  rw [text] at sign ⊢
  refine ⟨cons_ne_nil _ _,?_⟩
  rcases mem_pair.mp (contains_iff_mem.mp sign.2) with rfl | rfl <;> rfl

theorem callSolid (name inner : Bytes) : Solid (58 :: name ++ parenthesized inner) := by
  have text : 58 :: name ++ parenthesized inner = 58 :: (name ++ 40 :: inner) ++ [41] := by simp [parenthesized]
  rw [text]
  exact .boxed (.inl rfl) (.inl rfl)

theorem hackShape : ShapeRule Token.IsSpelt (fun c => Solid c.text) fun s => ∃ x xs, s.IsChain x xs where
  className ident spelt := .tight (cons_ne_nil _ _) (tightCons rfl (nameTight (spelt.ident ident)))
  element := by
    intro t ns hasNs type spelt space
    obtain ⟨filled,tight⟩ := typeTight type spelt
    rw [Component.text]
    split
    · refine .tight (by simp) (tightAppend ?_ (tightCons rfl tight))
      rcases space with rfl | ⟨u,other,known,rfl⟩
      · rfl
      · exact (typeTight other known).2
    · exact .tight filled tight
  id := by
    intro t hash spelt
    obtain ⟨name,text,named⟩ := spelt.hash hash
    rw [text]
    exact .tight (cons_ne_nil _ _) (tightCons rfl (nameTight named))
  attr name comparison value flag := by
    cases value with
    | none => exact .boxed (.inr rfl) (.inr rfl)
    | some value => exact .boxed (.inr rfl) (.inr rfl)
  pseudoElement ident spelt :=
    .tight (cons_ne_nil _ _) (tightCons rfl (tightCons rfl (nameTight (spelt.ident ident))))
  pseudoElementCall _ _ := Solid.boxed (s := 58 :: (_ ++ 40 :: _)) (.inl rfl) (.inl rfl)
  pseudoClass ident spelt := .tight (cons_ne_nil _ _) (tightCons rfl (nameTight (spelt.ident ident)))
  plain _ _ := callSolid _ _
  nth _ _ _ _ := callSolid _ _
  negation _ _ := callSolid (ascii "not") _
  selectorCall _ _ _ _ := callSolid _ _
  compound full each :=
    ⟨_,[],rfl,⟨_,rfl,full,each⟩,⟨forall_mem_nil _,forall_mem_nil _⟩,(append_nil _).symm,rfl⟩
  complex := by
    rintro kind s cs known ⟨x,xs,chain⟩ full each
    refine ⟨x,xs ++ [(kind,.compound cs)],?_,chain.first,⟨?_,?_⟩,?_,rfl⟩
    · rw [Component.chain,chain.chain]
      rfl
    · exact forall_mem_append.mpr ⟨chain.links.kinds,forall_mem_singleton.mpr known⟩
    · exact forall_mem_append.mpr ⟨chain.links.solid,forall_mem_singleton.mpr ⟨cs,rfl,full,each⟩⟩
    · have last : linksText (xs ++ [(kind,.compound cs)]) = linksText xs ++ kind :: (Component.compound cs).text := by
        simp [linksText]
      rw [Component.text,chain.text,last,append_assoc,append_assoc]
      rfl

theorem lexedChain {s : Component} (lexed : s.IsLexed) : ∃ x xs, s.IsChain x xs := by
  obtain ⟨ts,all,read⟩ := lexed
  exact readSelectorAs hackShape ts (fun t mem => lexedSpelt (all t mem)) s read

theorem chainSolid {s x : Component} {xs} (chain : s.IsChain x xs) : ∀ y ∈ s.chain, y.2.IsSolid := by
  rw [chain.chain]
  exact forall_mem_cons.mpr ⟨chain.first,chain.links.solid⟩

theorem solidBoxed {s} (solid : Solid s) (hack : isHtmlHack s) :
    ∃ b inner e, s = b :: inner ++ [e] ∧ (b = 58 ∨ b = 91) ∧ (e = 41 ∨ e = 93) := by
  cases solid with
  | boxed opens closes => exact ⟨_,_,_,rfl,opens,closes⟩
  | tight _ each =>
    rw [hackAlone,tightHack each] at hack
    cases hack.2

section
variable {name : Bytes} (letters : lowerAscii name = ascii "html")
include letters

theorem htmlUnhacked : ¬ isHtmlHack name := by
  intro hack
  rw [hackAlone] at hack
  obtain ⟨front,back,rfl,_,starts⟩ := hackWithinIff.mp hack
  rw [append_nil] at starts
  obtain ⟨rest,rfl,_⟩ := startsHackIff.mp starts
  have short : (front ++ (ascii "* html" ++ rest)).length = 4 := by
    rw [← lowerAsciiLength,letters]
    rfl
  have long : (ascii "* html").length = 6 := rfl
  rw [length_append,length_append] at short
  omega

theorem htmlLast : name.getLast? ≠ some 42 := by
  intro star
  have last := congrArg List.getLast? letters
  rw [lowerAscii,getLast?_map,star] at last
  exact absurd last (by decide)

theorem lettersHold (rest) :
    HoldsHack ((0,typeOnly universal) :: (32,typeOnly name) :: rest) ↔
      (name = ascii "html" ∧ ∀ z ∈ rest.head?, z.1 = 32) ∨ HoldsHack rest := by
  have text : (typeOnly name).text = name := append_nil name
  have star : ¬ ∃ c ∈ (typeOnly universal).conjuncts, isHtmlHack c.text := by
    rintro ⟨c,mem,hack⟩
    rw [mem_singleton.mp mem] at hack
    cases hack
  have type : ¬ ∃ c ∈ (typeOnly name).conjuncts, isHtmlHack c.text := by
    rintro ⟨c,mem,hack⟩
    rw [mem_singleton.mp mem] at hack
    exact htmlUnhacked letters hack
  have last : (typeOnly universal).text.getLast? = some 42 := rfl
  rw [holdsCons,holdsCons,or_iff_right star,or_iff_right type,last]
  simp only [htmlLast letters,false_and,false_or,true_and,StartsHtml,text]

end

/- A ruleset with one selector is taken for a hack, and goes with a note, exactly if the text of the hack stands
somewhere in the selector: within an attribute or a function, or from a star at the end of any compound on. In
front the letters of the type have to be small ones. -/
theorem hackedSelectorGoes (ctx : Context) (drops : ctx.keepHacks = false) {s : Component} (lexed : s.IsLexed)
    (ds : List Declaration) (left : (optimizeDeclarations ctx ds).value ≠ []) :
    (HoldsHack s.chain → Ruleset.optimize ctx ⟨s,ds⟩ = ⟨none,[.hackedSelector s.text]⟩) ∧
    (¬ HoldsHack s.chain → (Ruleset.optimize ctx ⟨s,ds⟩).value =
      if (s.optimize ctx).value.kept then some (.ruleset (s.again ctx) (optimizeDeclarations ctx ds).value) else none) ∧
    (∀ x ∈ s.chain, ∀ c ∈ x.2.conjuncts, isHtmlHack c.text = true →
      ∃ b inner e, c.text = b :: inner ++ [e] ∧ (b = 58 ∨ b = 91) ∧ (e = 41 ∨ e = 93)) ∧
    ∀ name rest, s.chain = (0,typeOnly universal) :: (32,typeOnly name) :: rest → lowerAscii name = ascii "html" →
      (HoldsHack s.chain ↔ (name = ascii "html" ∧ ∀ z ∈ rest.head?, z.1 = 32) ∨ HoldsHack rest) := by
  obtain ⟨x,xs,chain⟩ := lexedChain lexed
  have decision : isHackedSelector ctx s = true ↔ HoldsHack s.chain := by
    rw [isHackedSelector,chain.single,drops]
    exact chainHack chain
  refine ⟨?_,?_,?_,?_⟩
  · intro holds
    rw [Ruleset.optimize,if_pos (decision.mpr holds)]
    rfl
  · intro free
    rw [Ruleset.optimize,if_neg (fun hacked => free (decision.mp hacked)),Noted.valueBind]
    split
    · rw [Noted.valueBind,Noted.valuePure,keepContent,if_neg (by simpa using left)]
      rfl
    · rfl
  · intro y mem c there hack
    obtain ⟨cs,same,_,each⟩ := chainSolid chain y mem
    rw [same] at there
    exact solidBoxed (each c there) hack
  · intro name rest same letters
    rw [same]
    exact lettersHold letters rest

def negatedHack : Component := .compound [.negation (hackSelector "html")]

theorem capitalHackLexed : (hackSelector "HTML").IsLexed := lexedAs "* HTML b" rfl (by with_unfolding_all rfl)

theorem negatedHackLexed : negatedHack.IsLexed := lexedAs ":not(* html b)" rfl (by with_unfolding_all rfl)

theorem sideBeforeColorLeft : (optimizeDeclarations {} sideBeforeColor).value ≠ [] := by
  rw [optimizeDeclarations,Noted.valueBind,sideBeforeColorValue]
  exact arrangeSome (cons_ne_nil _ _)

theorem capitalHackAgain : (hackSelector "HTML").Lasts {} ∧ (hackSelector "HTML").again {} = hackSelector "html" := by
  have star : (typeOnly universal).Lasts {} := rfl
  have type : (typeOnly (ascii "HTML")).Lasts {} := rfl
  have front : (Component.complex 32 (typeOnly universal) (typeOnly (ascii "HTML"))).Lasts {} :=
    complexLasts.mpr ⟨star,type⟩
  refine ⟨complexLasts.mpr ⟨front,rfl⟩,?_⟩
  rfl

theorem capitalHackStays : (hackSelector "HTML").IsLexed ∧ negatedHack.IsLexed ∧
    (optimizeDeclarations {} sideBeforeColor).value ≠ [] ∧
    (Ruleset.optimize {} ⟨hackSelector "HTML",sideBeforeColor⟩).value =
      some (.ruleset (hackSelector "html") (optimizeDeclarations {} sideBeforeColor).value) ∧
    (Ruleset.optimize {} ⟨negatedHack,sideBeforeColor⟩).value = none := by
  obtain ⟨_,stays,_,letters⟩ := hackedSelectorGoes {} rfl capitalHackLexed sideBeforeColor sideBeforeColorLeft
  obtain ⟨goes,_⟩ := hackedSelectorGoes {} rfl negatedHackLexed sideBeforeColor sideBeforeColorLeft
  have free : ¬ HoldsHack (hackSelector "HTML").chain := by
    rw [letters (ascii "HTML") [(32,typeOnly (ascii "b"))] rfl rfl]
    rintro (⟨small,_⟩ | ⟨c,mem,hack⟩ | ⟨_,bare⟩ | bare)
    · exact absurd small (by decide)
    · rw [mem_singleton.mp mem] at hack
      cases hack
    · exact bare
    · exact bare
  have holds : HoldsHack negatedHack.chain := Or.inl ⟨_,mem_singleton_self _,rfl⟩
  refine ⟨capitalHackLexed,negatedHackLexed,sideBeforeColorLeft,?_,?_⟩
  · rw [stays free,capitalHackAgain.1,capitalHackAgain.2,if_pos rfl]
  · rw [goes holds]

end Cascade
