import Cascade.Selector.Reader

/-! What holds of every selector that is read. The reader puts conditions together to compounds, compounds to
selectors and selectors to the arguments of conditions, so a property that each of these steps
keeps holds of all that it makes of tokens. -/
namespace Cascade
open List

section
variable {ts : List Token} {t : Token}

theorem trimmedMem (mem : t ∈ trimTokens ts) : t ∈ ts := by
  have inner := (dropWhile_sublist _).subset (mem_reverse.mp mem)
  exact (dropWhile_sublist _).subset (mem_reverse.mp inner)

theorem insideMem {level} (mem : t ∈ (untilClose level ts).1) : t ∈ ts := by
  rw [← untilCloseAppend level ts]
  exact mem_append_left _ mem

theorem behindMem {level} (mem : t ∈ (untilClose level ts).2.drop 1) : t ∈ ts := by
  rw [← untilCloseAppend level ts]
  exact mem_append_right _ (mem_of_mem_drop mem)

theorem consPartMem {u parts part} (there : part ∈ consPart u parts) (mem : t ∈ part) : t = u ∨ ∃ p ∈ parts, t ∈ p := by
  cases parts with
  | nil =>
    rw [consPart,mem_singleton] at there
    subst there
    exact .inl (mem_singleton.mp mem)
  | cons p ps =>
    rw [consPart,mem_cons] at there
    rcases there with rfl | later
    · rcases mem_cons.mp mem with same | old
      · exact .inl same
      · exact .inr ⟨p,mem_cons_self,old⟩
    · exact .inr ⟨part,mem_cons_of_mem p later,mem⟩

theorem splitMem {sep level part} (there : part ∈ splitTokens sep level ts) (mem : t ∈ part) : t ∈ ts := by
  induction ts generalizing level part with
  | nil => cases there
  | cons u ts ih =>
    have first : ∀ {level}, part ∈ consPart u (splitTokens sep level ts) → t ∈ u :: ts := by
      intro level there
      rcases consPartMem there mem with rfl | ⟨p,inside,old⟩
      · exact mem_cons_self
      · exact mem_cons_of_mem u (ih inside old)
    rw [splitTokens] at there
    split at there
    · exact first there
    split at there
    · rcases mem_cons.mp there with rfl | later
      · cases mem
      · exact mem_cons_of_mem u (ih later mem)
    · exact first there

theorem elementMem {u rest} (mem : t ∈ (readElement u rest).2) : t ∈ rest := by
  rw [readElement.eq_def] at mem
  split at mem
  · exact mem
  split at mem
  · exact mem_cons_of_mem _ mem
  split at mem
  · exact mem
  · split at mem
    · exact mem_cons_of_mem _ (mem_cons_of_mem _ mem)
    · exact mem

theorem attrMade {c} (read : readAttr ts = some c) :
    ∃ name comparison value flag, c = .attr name comparison value flag := by
  rw [readAttr.eq_def] at read
  split at read
  · split at read
    · cases read
      exact ⟨_,_,_,_,rfl⟩
    split at read
    · cases read
    split at read
    · cases read
    simp only [bind,Option.bind_eq_some_iff] at read
    obtain ⟨_,_,_,_,made⟩ := read
    cases made
    exact ⟨_,_,_,_,rfl⟩
  · cases read

def Token.IsType (t : Token) : Prop := t.kind = .ident ∨ t.isOneOf [42,124] = true

theorem elementNameType (named : t.isElementName) : t.IsType := by
  rw [Token.isElementName,Bool.or_eq_true,decide_eq_true_eq] at named
  refine named.imp id fun star => ?_
  rw [Token.isDelim,Bool.and_eq_true,beq_iff_eq] at star
  obtain ⟨more,text⟩ := head?_eq_some_iff.mp star.2
  rw [Token.isOneOf,star.1,text]
  rfl

theorem elementMade (type : t.IsType) (rest) :
    ∃ u ∈ t :: rest, ∃ ns hasNs, (readElement t rest).1 = .element u.text ns hasNs ∧ u.IsType ∧
      (ns = [] ∨ ns = t.text) := by
  rw [readElement.eq_def]
  split
  · exact ⟨t,mem_cons_self,_,_,rfl,type,.inl rfl⟩
  split
  · rename_i found
    exact ⟨_,by simp,_,_,rfl,elementNameType (Bool.and_eq_true_iff.mp found).2,.inl rfl⟩
  split
  · exact ⟨t,mem_cons_self,_,_,rfl,type,.inl rfl⟩
  split
  · rename_i found
    exact ⟨_,by simp,_,_,rfl,elementNameType (Bool.and_eq_true_iff.mp found).2,.inr rfl⟩
  · exact ⟨t,mem_cons_self,_,_,rfl,type,.inl rfl⟩

end

/- Properties of tokens, conditions and selectors that go together as the reader puts them together. -/
structure ShapeRule (token : Token → Prop) (condition selector : Component → Prop) : Prop where
  className : ∀ {t : Token}, t.kind = .ident → token t → condition (.className t.text)
  element : ∀ {t : Token} {ns hasNs}, t.IsType → token t → (ns = [] ∨ ∃ u : Token, u.IsType ∧ token u ∧ ns = u.text) →
    condition (.element t.text ns hasNs)
  id : ∀ {t : Token}, t.kind = .hash → token t → condition (.id (t.text.drop 1))
  attr : ∀ name comparison value flag, condition (.attr name comparison value flag)
  pseudoElement : ∀ {t : Token}, t.kind = .ident → token t → condition (.pseudoElement t.text)
  pseudoElementCall : ∀ {t : Token} {args : List Token}, t.kind = .function → token t →
    condition (.pseudoElement (t.text.dropLast ++ 40 :: tokensText args ++ [41]))
  pseudoClass : ∀ {t : Token}, t.kind = .ident → token t → condition (.pseudoClass t.text)
  plain : ∀ {t : Token} {args : List Token}, t.kind = .function → token t → condition (plainPseudo t.text.dropLast args)
  nth : ∀ {t : Token} {args formula}, t.kind = .function → token t → lower t.text.dropLast ∈ nthFunctions →
    readNth args = some formula → condition (.nth t.text.dropLast formula)
  negation : ∀ {ss}, ss ≠ [] → (∀ s ∈ ss, selector s) → condition (.negation (.ofSelectors ss))
  selectorCall : ∀ {t : Token} {ss}, t.kind = .function → token t → ss ≠ [] → (∀ s ∈ ss, selector s) →
    condition (.selectorCall t.text.dropLast (.ofSelectors ss))
  compound : ∀ {cs}, cs ≠ [] → (∀ c ∈ cs, condition c) → selector (.compound cs)
  complex : ∀ {kind s cs}, kind ∈ [32,62,43,126] → selector s → cs ≠ [] → (∀ c ∈ cs, condition c) →
    selector (.complex kind s (.compound cs))

theorem combinatorKind {t : Token} (combinator : t.isOneOf [62,43,126]) : t.text.headD 0 ∈ [32,62,43,126] := by
  rw [Token.isOneOf,Bool.and_eq_true] at combinator
  cases text : t.text with
  | nil =>
    rw [text] at combinator
    cases combinator.2
  | cons b more =>
    rw [text] at combinator
    exact mem_cons_of_mem _ (contains_iff_mem.mp combinator.2)

section
variable {token : Token → Prop} {condition selector : Component → Prop}

structure Partial.Made (condition selector : Component → Prop) (p : Partial) : Prop where
  left : ∀ s ∈ p.sel, selector s
  kind : p.sel.isSome = true → p.kind ∈ [32,62,43,126]
  conditions : ∀ c ∈ p.conditions, condition c

theorem addMade {p : Partial} (made : p.Made condition selector) {c} (new : condition c) :
    (p.add c).Made condition selector := by
  exact ⟨made.left,made.kind,forall_mem_append.mpr ⟨made.conditions,forall_mem_singleton.mpr new⟩⟩

theorem completeMade (rule : ShapeRule token condition selector) {p : Partial} (made : p.Made condition selector)
    (full : p.conditions ≠ []) : selector p.complete := by
  rw [Partial.complete]
  split
  · exact rule.compound full made.conditions
  · rename_i s left
    exact rule.complex (made.kind (by rw [left]; rfl)) (made.left s left) full made.conditions

theorem joinMade (rule : ShapeRule token condition selector) {p : Partial} (made : p.Made condition selector)
    {kind} (known : kind ∈ [32,62,43,126]) : (p.join kind).Made condition selector := by
  rw [Partial.join]
  split
  · exact ⟨made.left,fun _ => known,made.conditions⟩
  rename_i full
  refine ⟨?_,fun _ => known,forall_mem_nil _⟩
  rintro s ⟨⟩
  exact completeMade rule made (by simpa using full)

mutual

theorem readSelectorAs (rule : ShapeRule token condition selector) (ts) (all : ∀ t ∈ ts, token t) :
    ∀ s ∈ (readSelector ts).value, selector s := by
  rw [readSelector]
  exact readFromAs rule ts {} ts all ⟨nofun,nofun,nofun⟩
termination_by 2 * ts.length + 1

theorem readFromAs (rule : ShapeRule token condition selector) (whole p ts)
    (all : ∀ t ∈ ts, token t) (made : p.Made condition selector) :
    ∀ s ∈ (readSelectorFrom whole p ts).value, selector s := by
  have invalid : ∀ s ∈ (invalidSelector whole).value, selector s := nofun
  match ts with
  | [] =>
    rw [readSelectorFrom]
    split
    · exact invalid
    · rename_i full
      rintro s ⟨⟩
      exact completeMade rule made (by simpa using full)
  | t :: rest =>
    have others : ∀ u ∈ rest, token u := fun u mem => all u (mem_cons_of_mem t mem)
    have behind := behindLength 0 rest
    have element := readElementLength t rest
    rw [readSelectorFrom.eq_def]
    dsimp only
    by_cases blank : t.isBlank
    · rw [if_pos blank]
      refine readFromAs rule whole _ rest others ?_
      split
      · exact made
      · exact joinMade rule made (by decide)
    rw [if_neg blank]
    by_cases combinator : t.isOneOf [62,43,126]
    · rw [if_pos combinator]
      split
      · exact invalid
      · exact readFromAs rule whole _ rest others (joinMade rule made (combinatorKind combinator))
    rw [if_neg combinator]
    by_cases point : t.isDelim 46
    · rw [if_pos point]
      split
      · exact readFromAs rule whole _ _ (fun u mem => others u (mem_cons_of_mem _ mem))
          (addMade made (rule.className (t := ⟨.ident,_⟩) rfl (others _ mem_cons_self)))
      · exact invalid
    rw [if_neg point]
    by_cases type : t.kind = .ident ∨ t.isOneOf [42,124]
    · obtain ⟨u,mem,ns,hasNs,named,name,space⟩ := elementMade type rest
      rw [if_pos type,named]
      refine readFromAs rule whole _ _ (fun u mem => others u (elementMem mem)) (addMade made ?_)
      exact rule.element name (all u mem) (space.imp id fun same => ⟨t,type,all t mem_cons_self,same⟩)
    rw [if_neg type]
    by_cases hash : t.kind = .hash
    · rw [if_pos hash]
      exact readFromAs rule whole _ _ others (addMade made (rule.id hash (all t mem_cons_self)))
    rw [if_neg hash]
    by_cases bracket : t.kind = .leftBracket
    · rw [if_pos bracket]
      split
      · rename_i a read
        obtain ⟨name,comparison,value,flag,rfl⟩ := attrMade read
        exact readFromAs rule whole _ _ (fun u mem => others u (behindMem mem))
          (addMade made (rule.attr name comparison value flag))
      · exact invalid
    rw [if_neg bracket]
    by_cases colon : t.kind = .colon
    · rw [if_pos colon]
      generalize same : rest = next at others
      split
      · rename_i more
        exact readFromAs rule whole _ _ (fun u mem => others u (by simp [mem]))
          (addMade made (rule.pseudoElement (t := ⟨.ident,_⟩) rfl (others _ (by simp))))
      · rename_i more
        have short := behindLength 0 more
        exact readFromAs rule whole _ _ (fun u mem => others u (by simp [behindMem mem]))
          (addMade made (rule.pseudoElementCall (t := ⟨.function,_⟩) rfl (others _ (by simp))))
      · exact readFromAs rule whole _ _ (fun u mem => others u (mem_cons_of_mem _ mem))
          (addMade made (rule.pseudoClass (t := ⟨.ident,_⟩) rfl (others _ mem_cons_self)))
      · rename_i text more
        have short := behindLength 0 more
        have inside := insideLength 0 more
        have trimmed := trimTokensLength (untilClose 0 more).1
        have inner := readPseudoAs rule (t := ⟨.function,text⟩) rfl (others _ mem_cons_self)
          (trimTokens (untilClose 0 more).1) fun u mem =>
            others u (mem_cons_of_mem _ (insideMem (trimmedMem mem)))
        rw [Noted.valueBind]
        split
        · rename_i c read
          exact readFromAs rule whole _ _ (fun u mem => others u (mem_cons_of_mem _ (behindMem mem)))
            (addMade made (inner c read))
        · exact invalid
      · exact invalid
    rw [if_neg colon]
    exact invalid
termination_by 2 * ts.length
decreasing_by
  all_goals
    subst_vars
    simp only [length_cons]
    omega

theorem readPseudoAs (rule : ShapeRule token condition selector) {t} (call : t.kind = .function) (named : token t)
    (args) (all : ∀ t ∈ args, token t) : ∀ c ∈ (readPseudoCall t.text.dropLast args).value, condition c := by
  have plain := @ShapeRule.plain _ _ _ rule t args call named
  rw [readPseudoCall]
  split
  · split
    · split
      · exact nofun
      · rintro c ⟨⟩
        exact plain
    have each := readSelectorsAs rule (commaParts args) fun part there t mem => all t (splitMem there mem)
    rw [Noted.valueBind]
    split
    · exact nofun
    · exact nofun
    · rename_i ss full read
      split
      · rintro c ⟨⟩
        exact rule.negation full (each ss read)
      · rintro c ⟨⟩
        exact rule.selectorCall call named full (each ss read)
  · split
    · rename_i counts
      split
      · rename_i formula read
        rintro c ⟨⟩
        exact rule.nth call named counts read
      · rintro c ⟨⟩
        exact plain
    · rintro c ⟨⟩
      exact plain
termination_by 2 * args.length + 3
decreasing_by
  have := splitTokensWeight .comma 0 args
  simp only [commaParts]
  omega

theorem readSelectorsAs (rule : ShapeRule token condition selector) (parts)
    (all : ∀ part ∈ parts, ∀ t ∈ part, token t) : ∀ ss ∈ (readSelectors parts).value, ∀ s ∈ ss, selector s := by
  match parts with
  | [] =>
    rw [readSelectors]
    rintro ss ⟨⟩
    exact nofun
  | part :: more =>
    have first := readSelectorAs rule (trimTokens part) fun t mem => all part mem_cons_self t (trimmedMem mem)
    have rest := readSelectorsAs rule more fun p mem => all p (mem_cons_of_mem part mem)
    rw [readSelectors,Noted.valueBind]
    split
    · exact nofun
    rename_i s read
    rw [Noted.valueBind]
    split
    · exact nofun
    · rename_i ss others
      rintro _ ⟨⟩
      exact forall_mem_cons.mpr ⟨first s read,rest ss others⟩
termination_by 2 * partsWeight parts
decreasing_by
  · have := trimTokensLength part
    simp only [partsWeight]
    omega
  · simp only [partsWeight]
    omega

end

end

end Cascade
