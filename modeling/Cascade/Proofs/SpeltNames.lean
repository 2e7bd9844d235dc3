import Cascade.Proofs.DeclaredNames
import Cascade.Proofs.SelectorShape

/-! How the names in a selector are spelled. In a text of whole characters a name is a run of name bytes and
escapes, so that a blank in it ends an escape or is itself escaped. -/
namespace Cascade
open List

def trailing (lead : UInt8) : Nat := if lead < 0xC0 then 0 else if lead < 0xE0 then 1 else if lead < 0xF0 then 2 else 3

/- Behind the first byte of a character come the others that belong to it. -/
def Whole (s : Bytes) : Prop := ∀ front lead rest, s = front ++ lead :: rest → ∀ b ∈ rest.take (trailing lead), 0x80 ≤ b

section
variable {lead : UInt8} {s : Bytes}

theorem wholeDrop (whole : Whole s) (n) : Whole (s.drop n) := by
  intro front lead rest split
  refine whole (s.take n ++ front) lead rest ?_
  rw [append_assoc,← split,take_append_drop]

theorem wholeCons (first : ∀ b ∈ s.take (trailing lead), 0x80 ≤ b) (whole : Whole s) : Whole (lead :: s) := by
  intro front byte rest split
  cases front with
  | nil =>
    cases split
    exact first
  | cons _ front =>
    cases split
    exact whole front byte rest rfl

theorem continuationNeed {low high need} (known : continuation lead = some (need,low,high)) :
    trailing lead = need ∧ high ≤ 0xBF := by
  unfold continuation at known
  unfold trailing
  repeat' split at known
  all_goals grind

theorem sequenceTrailing {n} (found : sequence lead s = (n,true)) :
    trailing lead ≤ n ∧ ∀ b ∈ s.take n, 0x80 ≤ b ∧ b < 0xC0 := by
  have high := sequenceHigh found
  rw [sequence] at found
  split at found
  · cases found
  rename_i need low high known
  obtain ⟨same,limit⟩ := continuationNeed known
  rw [Prod.mk.injEq,beq_iff_eq] at found
  obtain ⟨rfl,all⟩ := found
  have below : ∀ {b c : UInt8}, c ≤ 0xBF → b ≤ c → b < 0xC0 := fun limit most =>
    UInt8.lt_of_le_of_lt (UInt8.le_trans most limit) (by decide)
  exact ⟨by rw [same,all],fun b mem => ⟨high b mem,
    continuedEach (fun _ _ => below (by decide)) need (fun _ _ => below limit) s b mem⟩⟩

theorem textWhole (skip) (text : isText.go skip s) (skipped : ∀ b ∈ s.take skip, b < 0xC0) : Whole s := by
  fun_induction isText.go skip s with
  | case1 =>
    intro front lead rest split
    simp at split
  | case2 skip lead s ih =>
    obtain ⟨here,others⟩ := forall_mem_cons.mp (take_succ_cons ▸ skipped)
    refine wholeCons ?_ (ih text others)
    rw [trailing,if_pos here]
    exact forall_mem_nil _
  | case3 lead s n found ih =>
    obtain ⟨enough,within⟩ := sequenceTrailing found
    refine wholeCons ?_ (ih text fun b mem => (within b mem).2)
    exact fun b mem => (within b (take_subset_take_left _ enough mem)).1
  | case4 => cases text

end

inductive IsEscape : Bytes → Prop where
  | code {d : UInt8} {ds blank : Bytes} (first : isHexDigit d = true) (digits : ∀ b ∈ ds, isHexDigit b = true)
      (ends : blank = [] ∨ ∃ b, isBlankByte b = true ∧ blank = [b]) : IsEscape (d :: ds ++ blank)
  | character {b : UInt8} {hs : Bytes} (line : isNewline b = false) (high : ∀ h ∈ hs, 0x80 ≤ h) : IsEscape (b :: hs)

inductive Spelt : Bytes → Prop where
  | nil : Spelt []
  | byte {b : UInt8} {s : Bytes} (name : isNameByte b = true) (rest : Spelt s) : Spelt (b :: s)
  | escape {e s : Bytes} (code : IsEscape e) (rest : Spelt s) : Spelt (92 :: (e ++ s))

structure IsName (s : Bytes) : Prop where
  full : s ≠ []
  spelt : Spelt s

section
variable {b : UInt8} {s : Bytes} {n : Nat}

theorem characterLengthTrailing (b s) : characterLength b s = min (s.length + 1) (trailing b + 1) := by
  unfold characterLength trailing
  split
  · rfl
  · split
    · rfl
    · split <;> rfl

theorem escapeSpelt (whole : Whole s) (found : escapeLength s = some n) : n ≤ s.length ∧ IsEscape (s.take n) := by
  cases s with
  | nil => cases found
  | cons b s =>
    rw [escapeLength] at found
    split at found
    · cases found
    rename_i line
    split at found
    · rename_i hex
      obtain ⟨rest,parted⟩ := ( takeWhile_prefix isHexDigit).trans ( take_prefix 5 s)
      have digits : ∀ d ∈ (s.take 5).takeWhile isHexDigit, isHexDigit d :=
        fun d mem => mem_takeWhile_imp mem
      generalize (s.take 5).takeWhile isHexDigit = ds at *
      subst parted
      have taken : ∀ k, (b :: (ds ++ rest)).take (1 + ds.length + k) = b :: ds ++ rest.take k := by
        intro k
        rw [Nat.add_assoc,Nat.add_comm 1,take_succ_cons,take_length_add_append]
        rfl
      dsimp only at found
      rw [drop_left] at found
      split at found
      · rename_i c more
        split at found
        · rename_i blank
          cases found
          rw [taken]
          exact ⟨by simp; omega,.code hex digits (.inr ⟨c,blank,rfl⟩)⟩
        · cases found
          rw [taken]
          exact ⟨by simp; omega,.code hex digits (.inl rfl)⟩
      · cases found
        rw [taken]
        exact ⟨by simp; omega,.code hex digits (.inl rfl)⟩
    · cases found
      have others : ∀ h ∈ s.take (trailing b), 0x80 ≤ h := whole [] b s rfl
      have taken : (b :: s).take (min (s.length + 1) (trailing b + 1)) = b :: s.take (trailing b) := by
        rw [Nat.min_comm,← length_cons (a := b),← take_eq_take_min,take_succ_cons]
      rw [characterLengthTrailing,taken]
      exact ⟨Nat.min_le_left _ _,.character (Bool.eq_false_iff.mpr line) others⟩

theorem nameRunSkip {skip} (inside : skip ≤ s.length) : nameRun skip s = skip + nameRun 0 (s.drop skip) := by
  induction s generalizing skip with
  | nil =>
    cases Nat.le_zero.mp inside
    rfl
  | cons b s ih =>
    cases skip with
    | zero => rw [Nat.zero_add,drop_zero]
    | succ skip =>
      rw [nameRun,ih (Nat.le_of_succ_le_succ inside),drop_succ_cons]
      omega

theorem escapedRun (whole : Whole s) (found : escapeLength s = some n)
    (rest : Spelt ((s.drop n).take (nameRun 0 (s.drop n)))) : Spelt (92 :: s.take (nameRun n s)) := by
  obtain ⟨inside,code⟩ := escapeSpelt whole found
  have taken : s.take (nameRun n s) = s.take n ++ (s.drop n).take (nameRun 0 (s.drop n)) := by
    rw [nameRunSkip inside,take_add]
  rw [taken]
  exact .escape code rest

theorem nameRunSpelt (s) (whole : Whole s) : Spelt (s.take (nameRun 0 s)) := by
  match s with
  | [] => exact .nil
  | b :: s =>
    have behind : Whole s := wholeDrop whole 1
    rw [nameRun]
    split
    · rename_i name
      exact .byte name (nameRunSpelt s behind)
    split
    · rename_i slash
      cases found : escapeLength s with
      | none => exact .nil
      | some n =>
        rw [beq_iff_eq.mp slash]
        exact escapedRun behind found (nameRunSpelt (s.drop n) (wholeDrop behind n))
    · exact .nil
termination_by s.length

theorem plainIdentSpelt (whole : Whole s) : Spelt (s.take (plainIdentLength s)) := by
  cases s with
  | nil => exact .nil
  | cons b s =>
    rw [plainIdentName]
    split
    · exact nameRunSpelt (b :: s) whole
    · exact .nil

theorem identSpelt (whole : Whole s) : Spelt (s.take (identLength s)) := by
  unfold identLength
  split
  · split
    · exact .nil
    rename_i n length
    have rest := plainIdentSpelt (wholeDrop whole 1)
    rw [drop_one,tail_cons,length] at rest
    exact .byte rfl rest
  · exact plainIdentSpelt whole

end

section
variable {b : UInt8} {s : Bytes}

structure Token.IsSpelt (t : Token) : Prop where
  ident : t.kind = .ident → IsName t.text
  function : t.kind = .function → IsName t.text.dropLast
  hash : t.kind = .hash → ∃ name, t.text = 35 :: name ∧ IsName name
  delim : t.kind = .delim → ∃ b, t.text = [b]

def speltKinds : List TokenKind := [.ident,.function,.hash,.delim]

theorem otherSpelt {t : Token} (other : t.kind ∉ speltKinds) : t.IsSpelt := by
  refine ⟨?_,?_,?_,?_⟩ <;> (intro kind; rw [kind] at other; exact absurd other (by decide))

theorem takeName {s : Bytes} {n} (spelt : Spelt (s.take (n + 1))) (full : s ≠ []) : IsName (s.take (n + 1)) := by
  refine ⟨?_,spelt⟩
  cases s with
  | nil => exact absurd rfl full
  | cons b s => exact cons_ne_nil _ _

theorem startSpelt {r} (whole : Whole (b :: s)) (start : Start b s r) : (tokenAt b s r).IsSpelt := by
  cases start with
  | sign => refine ⟨?_,?_,?_,fun _ => ⟨b,rfl⟩⟩ <;> (intro other; cases other)
  | number found => exact otherSpelt ((by decide : ∀ k ∈ numberKinds, k ∉ speltKinds) _ (numericKinds found).1)
  | string =>
    refine otherSpelt ?_
    dsimp only [tokenAt]
    split <;> decide
  | other other => exact otherSpelt fun spelt => other ((by decide : ∀ k ∈ speltKinds, k ∈ startKinds) _ spelt)
  | @hash n is run =>
    have spelt := nameRunSpelt s (wholeDrop whole 1)
    have full : s ≠ [] := by
      rintro rfl
      cases run
    rw [run] at spelt
    have named : ∃ name, (tokenAt b s (.hash,n + 2)).text = 35 :: name ∧ IsName name := by
      refine ⟨s.take (n + 1),?_,takeName spelt full⟩
      rw [is]
      rfl
    refine ⟨?_,?_,fun _ => named,?_⟩ <;> (intro other; cases other)
  | word found =>
    have spelt := identSpelt whole
    unfold identLike at found
    split at found
    · cases found
    rename_i k length
    rw [length] at spelt
    have name := takeName spelt (cons_ne_nil b s)
    dsimp only at found
    split at found
    · rename_i rest next
      split at found
      · cases found
        refine otherSpelt ?_
        rcases urlRunKind rest with kind | kind <;> simp [tokenAt,kind,speltKinds]
      cases found
      have taken : (tokenAt b s (.function,k + 1 + 1)).text = (b :: s).take (k + 1) ++ [40] := by
        have whole : (tokenAt b s (.function,k + 1 + 1)).text = (b :: s).take (k + 1 + 1) := rfl
        rw [whole,take_add,next]
        rfl
      have called : IsName (tokenAt b s (.function,k + 1 + 1)).text.dropLast := by rwa [taken,dropLast_concat]
      refine ⟨?_,fun _ => called,?_,?_⟩ <;> (intro other; cases other)
    · cases found
      refine ⟨fun _ => name,?_,?_,?_⟩ <;> (intro other; cases other)
  | _ => exact otherSpelt (by simp [tokenAt,speltKinds])

def Token.IsLexed (t : Token) : Prop := ∃ text, isText text = true ∧ t ∈ tokens text

theorem tokensSpelt (s) (whole : Whole s) : ∀ t ∈ tokens s, t.IsSpelt := by
  match s with
  | [] => exact forall_mem_nil _
  | b :: s =>
    rw [tokens,tokensFrom,tokensFromSkip]
    exact forall_mem_cons.mpr ⟨startSpelt whole (firstTokenStart b s),
      tokensSpelt _ (wholeDrop (wholeDrop whole 1) _)⟩
termination_by s.length

theorem lexedSpelt {t : Token} (lexed : t.IsLexed) : t.IsSpelt := by
  obtain ⟨text,isText,mem⟩ := lexed
  exact tokensSpelt text (textWhole 0 isText (by simp)) t mem

def Component.IsLexed (s : Component) : Prop := ∃ ts, (∀ t ∈ ts, t.IsLexed) ∧ (readSelector ts).value = some s

theorem lexedAs {s} (text) (whole : isText (ascii text)) (read : (readSelector (tokens (ascii text))).value = some s) :
    s.IsLexed := ⟨_,fun _ mem => ⟨ascii text,whole,mem⟩,read⟩

end

end Cascade
