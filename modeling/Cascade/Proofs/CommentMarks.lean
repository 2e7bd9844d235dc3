import Cascade.Proofs.CompactNumbers
import Cascade.Proofs.PrintedValues
import Mathlib.Data.List.Chain

/-! Comment marks in printed values. Where no token holds one, it comes about between two chunks only. -/
namespace Cascade
open List Chunk
open Chunk (text)

def MarkInside (cs : List Chunk) (front : Bytes) (c : Chunk) : Prop :=
  ∃ before behind a b, cs = before ++ c :: behind ∧ front = before.flatMap Chunk.text ++ a ∧ c.text = a ++ 47 :: 42 :: b

def Chunk.crosses (c d : Chunk) : Prop := c.text.getLast? = some 47 ∧ d.text.head? = some 42

section
variable {cs : List Chunk}

theorem crossingTexts {c d : Chunk} (crosses : c.crosses d) : ∃ a b, c.text = a ++ [47] ∧ d.text = 42 :: b := by
  obtain ⟨a,ends⟩ := getLast?_eq_some_iff.mp crosses.1
  obtain ⟨b,starts⟩ := head?_eq_some_iff.mp crosses.2
  exact ⟨a,b,ends,starts⟩

theorem markPlace (full : ∀ c ∈ cs, c.text ≠ []) {front back : Bytes}
    (there : cs.flatMap Chunk.text = front ++ 47 :: 42 :: back) :
    (∃ c, MarkInside cs front c) ∨ ∃ before c d behind, cs = before ++ c :: d :: behind ∧ c.crosses d := by
  induction cs generalizing front with
  | nil =>
    exact absurd there (by simp)
  | cons c cs ih =>
    obtain ⟨filled,others⟩ := forall_mem_cons.mp full
    rw [flatMap_cons] at there
    -- The mark starts behind the first chunk, or in it with both bytes or the slash alone.
    have later : ∀ rest, front = c.text ++ rest → cs.flatMap Chunk.text = rest ++ 47 :: 42 :: back →
        (∃ d, MarkInside (c :: cs) front d) ∨
          ∃ before d e behind, c :: cs = before ++ d :: e :: behind ∧ d.crosses e := by
      rintro rest rfl beyond
      rcases ih others beyond with ⟨d,before,behind,a,b,rfl,rfl,text⟩ | ⟨before,d,e,behind,rfl,crosses⟩
      · exact .inl ⟨d,c :: before,behind,a,b,rfl,by simp,text⟩
      · exact .inr ⟨c :: before,d,e,behind,rfl,crosses⟩
    rcases append_eq_append_iff.mp there with ⟨rest,first,beyond⟩ | ⟨rest,first,beyond⟩
    · exact later rest first beyond
    cases rest with
    | nil => exact later [] (by simpa using first.symm) (by simpa using beyond.symm)
    | cons b rest =>
      obtain ⟨rfl,tail⟩ := List.cons.inj beyond
      cases rest with
      | nil =>
        cases cs with
        | nil => cases tail
        | cons d cs =>
          refine .inr ⟨[],c,d,cs,rfl,by rw [first]; simp,?_⟩
          obtain ⟨e,text,same⟩ := exists_cons_of_ne_nil (others d mem_cons_self)
          replace tail : 42 :: back = d.text ++ cs.flatMap Chunk.text := tail
          rw [same] at tail ⊢
          rw [head?_cons,(List.cons.inj tail).1]
      | cons e rest =>
        obtain ⟨rfl,_⟩ := List.cons.inj tail
        exact .inl ⟨c,[],cs,front,rest,rfl,rfl,first⟩

theorem startLength {ds} (starts : ds <+: cs) : (ds.flatMap text).length ≤ (cs.flatMap text).length := by
  obtain ⟨more,rfl⟩ := starts
  rw [flatMap_append,length_append]
  exact Nat.le_add_right _ _

theorem crossingOutside {before behind} {c d : Chunk} {a} (whole : cs = before ++ c :: d :: behind)
    (ends : c.text = a ++ [47]) : ¬∃ e, MarkInside cs (before.flatMap text ++ a) e := by
  rintro ⟨e,before',behind',a',b',other,front,text⟩
  have place := congrArg List.length front
  rw [length_append,length_append] at place
  have slash : before ++ [c] <+: cs := ⟨d :: behind,by simp [whole]⟩
  have mark : before' ++ [e] <+: cs := ⟨behind',by simp [other]⟩
  -- The chunks up to the slash end before the chunk with the mark, or that one ends before them.
  rcases Nat.lt_or_ge before'.length (before ++ [c]).length with longer | shorter
  · have within : before' ++ [e] <+: before ++ [c] := by
      refine prefix_of_prefix_length_le mark slash ?_
      rw [length_append]
      exact longer
    have size := startLength within
    simp only [flatMap_append,flatMap_singleton,length_append,ends,text,length_cons,length_nil] at size
    omega
  · have within : before ++ [c] <+: before' :=
      prefix_of_prefix_length_le slash ((prefix_append before' [e]).trans mark) shorter
    have size := startLength within
    simp only [flatMap_append,flatMap_singleton,length_append,ends,length_singleton] at size
    omega

/- All marks are inside of chunks if and only if none is written across two of them. -/
theorem marksInside (full : ∀ c ∈ cs, c.text ≠ []) :
    (∀ front back, cs.flatMap text = front ++ 47 :: 42 :: back → ∃ c, MarkInside cs front c) ↔
      ∀ before c d behind, cs = before ++ c :: d :: behind → ¬c.crosses d := by
  refine ⟨fun inside before c d behind whole crosses => ?_,fun apart front back there => ?_⟩
  · obtain ⟨a,b,ends,starts⟩ := crossingTexts crosses
    refine crossingOutside whole ends (inside _ (b ++ behind.flatMap text) ?_)
    rw [whole]
    simp [ends,starts]
  · rcases markPlace full there with inside | ⟨before,c,d,behind,whole,crosses⟩
    · exact inside
    · exact absurd crosses (apart before c d behind whole)

end

def Chunk.sources : Chunk → List Token
  | .blank | .group | .closing => []
  | .separator t | .sign t | .value t | .opening t | .kept t | .shut t => [t]
  | .link function location => [function,location]

def Chunk.isQuoted : Chunk → Bool
  | .value t => t.kind = .string || t.kind = .url
  | .link .. => true
  | _ => false

section
variable {c : Chunk} {s t : Bytes}

theorem closingOne (t) : ∃ b, closingText t = [b] ∧ b ≠ 47 ∧ b ≠ 42 := by
  rw [closingText]
  split
  · exact ⟨93,rfl,by decide,by decide⟩
  · split
    · exact ⟨125,rfl,by decide,by decide⟩
    · exact ⟨41,rfl,by decide,by decide⟩

theorem urlParenthesis (location) : ∃ s, urlText location = 117 :: s ++ [41] := by
  rw [urlText]
  split
  · exact ⟨114 :: 108 :: 40 :: location,rfl⟩
  · exact ⟨114 :: 108 :: 40 :: quoteText location,rfl⟩

theorem keptCases (t) : t.kind = .comment ∨ (kept t).text = [32] ∨ (kept t).text = t.text := by
  by_cases comment : t.kind = .comment
  · exact .inl comment
  by_cases blank : t.kind = .whitespace
  · exact .inr (.inl (by simp [text,tokensText,blank]))
  · exact .inr (.inr (by simp [text,tokensText,blank,comment]))

theorem quoteFilled (s) : quoteText s ≠ [] := by
  rw [quoteText]
  split <;> exact cons_ne_nil _ _

theorem markBehind (bare : ∀ b ∈ s, b ≠ 47) (mark : [47,42] <:+: s ++ t) : [47,42] <:+: t := by
  obtain ⟨front,back,whole⟩ := mark
  rw [append_assoc] at whole
  rcases append_eq_append_iff.mp whole with ⟨more,rfl,rest⟩ | ⟨more,rfl,rest⟩
  · cases more with
    | nil => exact ⟨[],back,by simpa using rest⟩
    | cons b more =>
      obtain ⟨rfl,_⟩ := List.cons.inj rest
      exact absurd rfl (bare 47 (by simp))
  · exact ⟨more,back,by rw [append_assoc]; exact rest.symm⟩

theorem tokenMark {t} (mark : [47,42] <:+: (tokenValue t).text) :
    t.kind = .string ∨ t.kind = .url ∨ [47,42] <:+: t.text := by
  have digits : ∀ f, ∀ b ∈ compactNumber f, b ≠ 47 := by
    rintro f _ mem rfl
    have numeric := (numberNumeric f).2 47 mem
    cases numeric
  rw [tokenValue] at mark
  split at mark
  · obtain ⟨front,back,whole⟩ := mark
    exact absurd rfl (digits _ 47 (by rw [← show _ = compactNumber _ from whole]; simp))
  · exact absurd (markBehind (digits _) mark).length_le (by simp)
  · exact .inr (.inr ((markBehind (digits _) mark).trans (drop_suffix _ _).isInfix))
  · split at mark <;> exact .inr (.inr mark)
  · rename_i kind
    exact .inl kind
  · rename_i kind
    exact .inr (.inl kind)
  · exact .inr (.inr mark)

theorem chunkMark (mark : [47,42] <:+: c.text) : c.isQuoted ∨ ∃ t ∈ c.sources, [47,42] <:+: t.text := by
  have short : ∀ b : UInt8, ¬[47,42] <:+: [b] := fun b mark => absurd mark.length_le (by simp)
  cases c with
  | blank | group | closing => exact absurd mark (short _)
  | separator t | sign t => exact absurd mark (short _)
  | shut t =>
    obtain ⟨b,text,_⟩ := closingOne t
    rw [Chunk.text,text] at mark
    exact absurd mark (short b)
  | value t =>
    rcases tokenMark mark with kind | kind | held
    · exact .inl (by simp [isQuoted,kind])
    · exact .inl (by simp [isQuoted,kind])
    · exact .inr ⟨t,mem_singleton_self t,held⟩
  | link => exact .inl rfl
  | opening t =>
    have name : [47,42] <:+: t.functionName := by
      rcases infix_concat_iff.mp mark with last | inside
      · rcases suffix_concat_iff.mp last with bare | ⟨rest,same,_⟩
        · cases bare
        · have byte := congrArg List.getLast? same
          simp at byte
      · exact inside
    exact .inr ⟨t,mem_singleton_self t,name.trans ( dropLast_prefix _).isInfix⟩
  | kept t =>
    rcases keptCases t with comment | blank | same
    · exact absurd mark.length_le (by simp [Chunk.text,tokensText,comment])
    · rw [blank] at mark
      exact absurd mark (short 32)
    · rw [same] at mark
      exact .inr ⟨t,mem_singleton_self t,mark⟩

theorem tokenFilled {t : Token} (full : t.text ≠ []) : (tokenValue t).text ≠ [] := by
  rw [tokenValue]
  split
  · exact (numberNumeric _).1
  · exact append_ne_nil_of_left_ne_nil (numberNumeric _).1 _
  · exact append_ne_nil_of_left_ne_nil (numberNumeric _).1 _
  · split <;> exact full
  · exact quoteFilled _
  · obtain ⟨s,text⟩ := urlParenthesis (locationOf t.text)
    rw [Component.text,text]
    exact cons_ne_nil _ _
  · exact full

theorem chunkFilled (full : ∀ t ∈ c.sources, t.kind ≠ .comment ∧ t.text ≠ []) : c.text ≠ [] := by
  cases c with
  | blank | group | closing => exact cons_ne_nil _ _
  | separator t | sign t => exact cons_ne_nil _ _
  | shut t =>
    obtain ⟨b,text,_⟩ := closingOne t
    rw [Chunk.text,text]
    exact cons_ne_nil _ _
  | value t => exact tokenFilled (full t (mem_singleton_self t)).2
  | link function location =>
    obtain ⟨s,text⟩ := urlParenthesis (unquote location.text)
    rw [Chunk.text,text]
    exact cons_ne_nil _ _
  | opening t => exact append_ne_nil_of_right_ne_nil _ (cons_ne_nil _ _)
  | kept t =>
    obtain ⟨plain,filled⟩ := full t (mem_singleton_self t)
    rcases keptCases t with comment | blank | same
    · exact absurd comment plain
    · rw [blank]
      exact cons_ne_nil _ _
    · rw [same]
      exact filled

end

section

/- Where a slash and a star can meet: behind a separator, in a block that is kept, and before a times sign. -/
def Chunk.canMeet : Chunk → Chunk → Bool
  | .separator _,_ | .kept _,.kept _ | .value _,.sign _ => true
  | _,_ => false

def Beside (c d : Chunk) : Prop := c.crosses d → c.canMeet d = true

def Chunk.isTame (c : Chunk) : Prop := (∃ t, c = .value t) ∨ c.text.getLast? ≠ some 47

structure Sequenced (all : List Token) (cs : List Chunk) : Prop where
  chain : cs.IsChain Beside
  sources : ∀ c ∈ cs, ∀ t ∈ c.sources, t ∈ all

structure OperandSequence (all : List Token) (cs : List Chunk) : Prop extends Sequenced all cs where
  full : cs ≠ []
  tame : ∀ c ∈ cs.getLast?, c.isTame

variable {all : List Token} {cs ds : List Chunk} {c d : Chunk}

theorem besideEnd (other : c.text.getLast? ≠ some 47) : Beside c d := fun crosses => absurd crosses.1 other

theorem besideStart (other : d.text.head? ≠ some 42) : Beside c d := fun crosses => absurd crosses.2 other

theorem Sequenced.append (first : Sequenced all cs) (second : Sequenced all ds)
    (joint : ∀ c ∈ cs.getLast?, ∀ d ∈ ds.head?, Beside c d) : Sequenced all (cs ++ ds) :=
  ⟨first.chain.append second.chain joint,forall_mem_append.mpr ⟨first.sources,second.sources⟩⟩

theorem sequencedNil : Sequenced all [] := ⟨.nil,forall_mem_nil _⟩

theorem sequencedOne (sources : ∀ t ∈ c.sources, t ∈ all) : Sequenced all [c] :=
  ⟨.singleton c,forall_mem_singleton.mpr sources⟩

theorem Sequenced.enclose (inner : Sequenced all cs) (sources : ∀ t ∈ c.sources, t ∈ all) (opens : c.text.getLast? ≠ some 47) :
    OperandSequence all (c :: cs ++ [.closing]) := by
  have start : Sequenced all (c :: cs) := (sequencedOne sources).append inner fun _ first _ _ => by
    cases first
    exact besideEnd opens
  have stop : Sequenced all [.closing] := sequencedOne (forall_mem_nil _)
  refine ⟨start.append stop fun _ _ _ last => ?_,by simp,fun d last => ?_⟩
  · cases last
    exact besideStart (by decide)
  · rw [getLast?_concat,Option.mem_some_iff] at last
    subst last
    exact .inr (by decide)

theorem glueByteCases (s) : (glue s).text.head? ≠ some 42 ∧ ∀ d, Beside (glue s) d := by
  cases s with
  | none => exact ⟨by decide,fun _ => besideEnd (by decide)⟩
  | some s =>
    refine ⟨?_,fun _ _ => rfl⟩
    rcases separatorCases s.2 with ⟨_,byte⟩ | ⟨_,byte⟩ | ⟨_,byte⟩ <;> simp [glue,text,byte]

def Row.Comes (all : List Token) (row : Row) : Prop :=
  ∀ r ∈ row, (∀ s ∈ r.1, s.1 ∈ all) ∧ Sequenced all r.2.chunks

theorem rowBehindSequenced {row : Row} (comes : row.Comes all) :
    Sequenced all row.behind ∧ ∀ d ∈ row.behind.head?, d.text.head? ≠ some 42 := by
  induction row with
  | nil => exact ⟨sequencedNil,fun _ bare => by cases bare⟩
  | cons r row ih =>
    obtain ⟨⟨separator,value⟩,others⟩ := forall_mem_cons.mp comes
    obtain ⟨later,starts⟩ := ih others
    obtain ⟨other,beside⟩ := glueByteCases r.1
    have first : Sequenced all [glue r.1] := by
      refine sequencedOne ?_
      cases same : r.1 with
      | none => exact forall_mem_nil _
      | some s => exact forall_mem_singleton.mpr (separator s (by simp [same]))
    have term : Sequenced all (glue r.1 :: r.2.chunks) := first.append value fun _ last d _ => by
      cases last
      exact beside d
    refine ⟨term.append later fun _ _ d head => besideStart (starts d head),fun d head => ?_⟩
    cases head
    exact other

theorem rowSequenced {row : Row} (comes : row.Comes all) : Sequenced all row.chunks := by
  cases row with
  | nil => exact sequencedNil
  | cons r row =>
    obtain ⟨⟨_,value⟩,others⟩ := forall_mem_cons.mp comes
    obtain ⟨later,starts⟩ := rowBehindSequenced others
    exact value.append later fun _ _ d head => besideStart (starts d head)

def Operands.Comes (all : List Token) (rest : Operands) : Prop := ∀ r ∈ rest, r.1 ∈ all ∧ OperandSequence all r.2.chunks

theorem bracketedSequence (group) (operand : OperandSequence all cs) : OperandSequence all (bracketed group cs) := by
  cases group with
  | false => exact operand
  | true => exact operand.toSequenced.enclose (forall_mem_nil _) (by decide)

theorem operatorSequenced {t} (mem : t ∈ all) : Sequenced all (operatorChunks t) ∧
    (∀ c, c.isTame → ∀ d ∈ (operatorChunks t).head?, Beside c d) ∧ ∀ c ∈ (operatorChunks t).getLast?, ∀ d, Beside c d := by
  have sign : ∀ u ∈ (sign t).sources, u ∈ all := forall_mem_singleton.mpr mem
  rw [operatorChunks]
  split
  · rename_i byte
    refine ⟨sequencedOne (forall_mem_singleton.mpr mem),fun c _ d head => ?_,fun c last d _ => ?_⟩
    · cases head
      refine besideStart ?_
      rcases Bool.or_eq_true_iff.mp byte with byte | byte <;> simp [text,eq_of_beq byte]
    · cases last
      rfl
  · split
    · rename_i byte
      refine ⟨sequencedOne sign,fun c tame d head => ?_,fun c last d => ?_⟩
      · cases head
        rcases tame with ⟨u,rfl⟩ | other
        · exact fun _ => rfl
        · exact besideEnd other
      · cases last
        exact besideEnd (by simp [text,eq_of_beq byte])
    · refine ⟨⟨?_,?_⟩,fun c _ d head => ?_,fun c last d => ?_⟩
      · refine .cons_cons (besideEnd (by decide)) (.cons_cons (besideStart (by decide)) (.singleton _))
      · simp [Chunk.sources,mem]
      · cases head
        exact besideStart (by decide)
      · cases last
        exact @besideEnd .blank d (by decide)

theorem operatorFilled (t) : operatorChunks t ≠ [] := by
  rw [operatorChunks]
  split
  · exact cons_ne_nil _ _
  · split <;> exact cons_ne_nil _ _

theorem operandsBehind {rest : Operands} (comes : rest.Comes all) (before : OperandSequence all cs) :
    OperandSequence all (cs ++ rest.behind) := by
  induction rest generalizing cs with
  | nil => rwa [Operands.behind,append_nil]
  | cons r rest ih =>
    obtain ⟨⟨mem,value⟩,others⟩ := forall_mem_cons.mp comes
    obtain ⟨operator,starts,ends⟩ := operatorSequenced mem
    have operand := bracketedSequence (needsGroup (some r.1.operator) r.2.component (Operands.next rest)) value
    have sign : Sequenced all (cs ++ operatorChunks r.1) :=
      before.toSequenced.append operator fun c last => starts c (before.tame c last)
    have next := sign.append operand.toSequenced fun c last d _ => ends c
      (by rwa [getLast?_append_of_ne_nil _ (operatorFilled r.1)] at last) d
    have whole := ih others ⟨next,append_ne_nil_of_right_ne_nil _ operand.full,fun c last => operand.tame c
      (by rwa [getLast?_append_of_ne_nil _ operand.full] at last)⟩
    rwa [append_assoc,append_assoc,← append_assoc (operatorChunks r.1)] at whole

theorem operandsSequenced {first} {rest : Operands} (value : OperandSequence all first.chunks) (comes : rest.Comes all) :
    OperandSequence all (rest.chunks first) :=
  operandsBehind comes (bracketedSequence _ value)

theorem wordSequence {t} (mem : t ∈ all) : OperandSequence all (Layout.word t).chunks := by
  refine ⟨sequencedOne (forall_mem_singleton.mpr mem),cons_ne_nil _ _,fun c last => ?_⟩
  cases last
  exact .inl ⟨t,rfl⟩

theorem keptSequenced {ts} (within : ts ⊆ all) : Sequenced all (ts.map .kept) := by
  induction ts with
  | nil => exact sequencedNil
  | cons t ts ih =>
    obtain ⟨here,others⟩ := cons_subset.mp within
    have first : Sequenced all [.kept t] := sequencedOne (forall_mem_singleton.mpr here)
    refine first.append (ih others) fun c last d head => ?_
    cases last
    cases ts with
    | nil => cases head
    | cons u ts =>
      cases head
      exact fun _ => rfl

theorem untilCloseSubset (level ts) : (untilClose level ts).1 ⊆ ts ∧ (untilClose level ts).2 ⊆ ts := by
  have whole := untilCloseAppend level ts
  exact ⟨fun t mem => whole ▸ mem_append_left _ mem,fun t mem => whole ▸ mem_append_right _ mem⟩

theorem insideSubset (ts) : blockInside ts ⊆ (untilClose 0 ts).1 := by
  rw [blockInside]
  split
  · rename_i cut
    rw [cut]
    exact List.IsPrefix.subset ( rdropWhile_prefix _ _)
  · rename_i cut
    rw [cut]
    exact List.Subset.refl _

theorem blockSequenced {t rest} (mem : t ∈ all) (within : rest ⊆ all) : Sequenced all (Layout.block t rest).chunks := by
  obtain ⟨inside,behind⟩ := untilCloseSubset 0 rest
  have start : Sequenced all ((t :: (untilClose 0 rest).1).map .kept) :=
    keptSequenced (cons_subset.mpr ⟨mem,List.Subset.trans inside within⟩)
  simp only [Layout.block,Layout.blockChunks]
  split
  · refine start.append (sequencedOne (forall_mem_singleton.mpr mem)) fun c _ d head => ?_
    cases head
    obtain ⟨b,text,_,other⟩ := closingOne t
    exact besideStart (by simpa [Chunk.text,text] using other)
  rename_i closing _ same
  have last : closing ∈ all := within (behind (same ▸ mem_cons_self))
  refine start.append (sequencedOne (forall_mem_singleton.mpr last)) fun c ends d head => ?_
  cases head
  obtain ⟨u,_,rfl⟩ := mem_map.mp (mem_of_getLast? ends)
  exact fun _ => rfl

end

section
variable {all : List Token}

mutual

theorem layTermsComes (s ts) (separator : ∀ x ∈ s, x.1 ∈ all) : ts ⊆ all → (layTerms s ts).Comes all := by
  cases ts with
  | nil =>
    intro _
    rw [layTerms]
    exact forall_mem_nil _
  | cons t rest =>
    intro within
    obtain ⟨mem,others⟩ := cons_subset.mp within
    obtain ⟨inside,behind⟩ := untilCloseSubset 0 rest
    have later : (untilClose 0 rest).2.drop 1 ⊆ all := List.Subset.trans (drop_subset 1 _) (List.Subset.trans behind others)
    have shorter := insideLength 0 rest
    have size := behindLength 0 rest
    rw [layTerms]
    repeat' split
    · exact layTermsComes s rest separator others
    · exact layTermsComes _ rest (fun x here => by cases here; exact mem) others
    · refine forall_mem_cons.mpr ⟨⟨separator,?_⟩,layTermsComes none _ (fun _ bare => by cases bare) later⟩
      exact (layCallSequence t _ mem (List.Subset.trans inside others)).toSequenced
    · exact forall_mem_cons.mpr ⟨⟨separator,blockSequenced mem others⟩,
        layTermsComes none _ (fun _ bare => by cases bare) later⟩
    · exact forall_mem_cons.mpr ⟨⟨separator,(wordSequence mem).toSequenced⟩,
        layTermsComes none rest (fun _ bare => by cases bare) others⟩
termination_by 2 * ts.length
decreasing_by
  all_goals
    simp only [length_cons]
    omega

theorem layCallSequence (function args) (mem : function ∈ all) (within : args ⊆ all) :
    OperandSequence all (layCall function args).chunks := by
  have start : (opening function).text.getLast? ≠ some 47 := by simp [text]
  have sources : ∀ t ∈ (opening function).sources, t ∈ all := forall_mem_singleton.mpr mem
  rcases callShape function.functionName args with ⟨url,s,one⟩ | empty | ⟨other,filled⟩
  · rw [layCallLocation url one]
    obtain ⟨blanks,rest,rfl,_⟩ := trimTokensFirst one
    have location : ⟨.string,s⟩ ∈ all := within (by simp)
    refine ⟨sequencedOne (by simp [Chunk.sources,mem,location]),cons_ne_nil _ _,fun c last => ?_⟩
    cases last
    refine .inr (show (urlText (unquote s)).getLast? ≠ some 47 from ?_)
    obtain ⟨text,ends⟩ := urlParenthesis (unquote s)
    rw [ends,getLast?_concat]
    decide
  · rw [layCallEmpty empty]
    exact sequencedNil.enclose sources start
  · have terms := (rowSequenced (layTermsComes none args (fun _ bare => by cases bare) within)).enclose sources start
    rw [layCallFilled other filled,layArguments]
    cases isMath function.functionName with
    | false => exact terms
    | true =>
      cases found : layOperand .edge args with
      | none => exact terms
      | some r =>
        obtain ⟨value,others⟩ := layOperandSequence .edge args within r found
        exact (operandsSequenced value others).toSequenced.enclose sources start
termination_by 2 * args.length + 1

theorem layOperandSequence (place ts) : ts ⊆ all → ∀ r, layOperand place ts = some r →
    OperandSequence all r.1.chunks ∧ r.2.Comes all := by
  cases ts with
  | nil =>
    intro _ r found
    rw [layOperand] at found
    cases found
  | cons t rest =>
    intro within r found
    obtain ⟨mem,others⟩ := cons_subset.mp within
    obtain ⟨inside,behind⟩ := untilCloseSubset 0 rest
    have inner := List.Subset.trans (insideSubset rest) (List.Subset.trans inside others)
    have later : (untilClose 0 rest).2.drop 1 ⊆ all := List.Subset.trans (drop_subset 1 _) (List.Subset.trans behind others)
    have shorter := blockInsideLength rest
    have size := behindLength 0 rest
    rw [layOperand] at found
    split at found
    · exact layOperandSequence place rest others r found
    split at found
    · obtain ⟨l,grouped,ops,operators,rfl⟩ : ∃ l, ((layOperand .parens (blockInside rest)).bind fun r => r.2.whole r.1) = some l ∧
          ∃ ops, layOperators place.inner ((untilClose 0 rest).2.drop 1) = some ops ∧ (l,ops) = r := by
        simpa [Option.bind_eq_some_iff] using found
      obtain ⟨r,reads,joined⟩ := Option.bind_eq_some_iff.mp grouped
      obtain ⟨value,more⟩ := layOperandSequence .parens _ inner r reads
      refine ⟨?_,layOperatorsComes place.inner _ later ops operators⟩
      rw [(wholeCases joined).1]
      exact operandsSequenced value more
    split at found
    · obtain ⟨ops,operators,rfl⟩ := Option.map_eq_some_iff.mp found
      exact ⟨layCallSequence t _ mem inner,layOperatorsComes place.inner _ later ops operators⟩
    split at found
    · obtain ⟨ops,operators,rfl⟩ := Option.map_eq_some_iff.mp found
      exact ⟨wordSequence mem,layOperatorsComes place.inner rest others ops operators⟩
    · cases found
termination_by 2 * ts.length
decreasing_by
  all_goals
    simp only [length_cons]
    omega

theorem layOperatorsComes (place ts) : ts ⊆ all → ∀ r, layOperators place ts = some r → r.Comes all := by
  cases ts with
  | nil =>
    intro _ r found
    rw [layOperators] at found
    cases found
    exact forall_mem_nil _
  | cons t rest =>
    intro within r found
    obtain ⟨mem,others⟩ := cons_subset.mp within
    have next : ∀ place, (layOperand place rest).map (fun r => (t,r.1) :: r.2) = some r → r.Comes all := by
      intro place found
      obtain ⟨operand,reads,rfl⟩ := Option.map_eq_some_iff.mp found
      obtain ⟨value,more⟩ := layOperandSequence place rest others operand reads
      exact forall_mem_cons.mpr ⟨⟨mem,value⟩,more⟩
    rw [layOperators] at found
    split at found
    · exact layOperatorsComes place rest others r found
    split at found
    · exact layOperatorsComes .edge rest others r found
    split at found
    · exact next place found
    split at found
    · split at found
      · cases found
        exact forall_mem_nil _
      · exact next .edge found
    · cases found
termination_by 2 * ts.length

end

end

def Chunk.opensComment (c d : Chunk) : Bool := c.canMeet d && c.text.getLast? == some 47 && d.text.head? == some 42

def MarksHeld (ts : List Token) : Prop :=
  ∀ front back, Term.textOf (readValue ts) = front ++ 47 :: 42 :: back → ∃ c, MarkInside (printed ts) front c ∧
    (c.isQuoted = true ∨ ∃ t ∈ ts, t ∈ c.sources ∧ [47,42] <:+: t.text)

/- Printing a value opens no comment if and only if no slash before a value meets a star, nor the end of a token in a
kept block the start of the next, nor the end of an operand its times sign. -/
theorem commentsOpened (ts : List Token) (plain : ∀ t ∈ ts, t.kind ≠ .comment ∧ t.text ≠ []) :
    MarksHeld ts ↔ ∀ before c d behind, printed ts = before ++ c :: d :: behind → c.opensComment d = false := by
  have sequenced : Sequenced ts (printed ts) :=
    rowSequenced (layTermsComes none ts (fun _ bare => by cases bare) (List.Subset.refl ts))
  have full : ∀ c ∈ printed ts, c.text ≠ [] :=
    fun c mem => chunkFilled fun t source => plain t (sequenced.sources c mem t source)
  have meets : ∀ before c d behind, printed ts = before ++ c :: d :: behind → (c.opensComment d = false ↔ ¬c.crosses d) := by
    intro before c d behind whole
    have beside : Beside c d := isChain_iff_forall_rel_of_append_cons_cons.mp sequenced.chain whole
    rw [← Bool.not_eq_true]
    refine not_congr ⟨fun opens => ?_,fun crosses => ?_⟩
    · simp only [opensComment,Bool.and_eq_true,beq_iff_eq] at opens
      exact ⟨opens.1.2,opens.2⟩
    · simp [opensComment,beside crosses,crosses.1,crosses.2]
  have inside : MarksHeld ts ↔ ∀ front back, (printed ts).flatMap Chunk.text = front ++ 47 :: 42 :: back →
      ∃ c, MarkInside (printed ts) front c := by
    rw [MarksHeld,← printedText]
    refine ⟨fun held front back there => ?_,fun inside front back there => ?_⟩
    · obtain ⟨c,inside,_⟩ := held front back there
      exact ⟨c,inside⟩
    · obtain ⟨c,before,behind,a,b,whole,rfl,text⟩ := inside front back there
      refine ⟨c,⟨before,behind,a,b,whole,rfl,text⟩,(chunkMark ⟨a,b,by simp [text]⟩).imp_right ?_⟩
      rintro ⟨t,source,held⟩
      exact ⟨t,sequenced.sources c (by rw [whole]; simp) t source,source,held⟩
  rw [inside,marksInside full]
  exact forall_congr' fun before => forall_congr' fun c => forall_congr' fun d => forall_congr' fun behind =>
    forall_congr' fun whole => (meets before c d behind whole).symm

theorem starBehindSlash :
    let opened : List Token := [⟨.ident,[98]⟩,⟨.delim,[47]⟩,⟨.whitespace,[32]⟩,⟨.delim,[42]⟩,⟨.ident,[99]⟩]
    let closed : List Token := [⟨.ident,[98]⟩,⟨.delim,[42]⟩,⟨.delim,[47]⟩,⟨.ident,[99]⟩]
    Term.textOf (readValue opened) = ascii "b/* c" ∧ ¬MarksHeld opened ∧
      Term.textOf (readValue closed) = ascii "b */c" ∧ MarksHeld closed := by
  intro opened closed
  have first : printed opened = [.value ⟨.ident,[98]⟩] ++ .separator ⟨.delim,[47]⟩ :: .value ⟨.delim,[42]⟩ ::
      [.blank,.value ⟨.ident,[99]⟩] := by
    decide +kernel
  have second : printed closed = [.value ⟨.ident,[98]⟩,.blank,.value ⟨.delim,[42]⟩,.separator ⟨.delim,[47]⟩,
      .value ⟨.ident,[99]⟩] := by
    decide +kernel
  refine ⟨by decide +kernel,?_,by decide +kernel,?_⟩
  · intro held
    have apart := (commentsOpened opened (by decide)).mp held _ _ _ _ first
    exact absurd apart (by decide)
  · have apart : (printed closed).IsChain fun c d => c.opensComment d = false := by
      rw [second]
      decide
    exact (commentsOpened closed (by decide)).mpr fun before c d behind whole =>
      isChain_iff_forall_rel_of_append_cons_cons.mp apart whole

end Cascade
