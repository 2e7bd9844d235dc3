import Cascade.Proofs.SelectorPieces

/-! Separators outside of blocks. Tokens are split by counting brackets from the first token on, and a block is read by
looking for its end from its opening token on; both find the same separators to be outside. -/
namespace Cascade
open List

inductive Joins (sep : TokenKind) : List (List Token) → List Token → Prop
  | none : Joins sep [] []
  | last (p : List Token) : Joins sep [p] p
  | more {q ps ts} (p : List Token) (t : Token) (kind : t.kind = sep) (tail : Joins sep (q :: ps) ts) :
      Joins sep (p :: q :: ps) (p ++ t :: ts)

def endsOutside (sep : TokenKind) (level : Int) (ts : List Token) : Bool :=
  ts.getLast?.any (·.kind = sep) && level + netDepth ts = 0

/- Where the parts end, counted from the first token; one token separates a part from the next. -/
def partEnds : List (List Token) → List Nat
  | [] => []
  | p :: ps => p.length :: (partEnds ps).map (p.length + 1 + ·)

/- Where the block ends that the token at `i` opens: at its closing token, or behind the last token. -/
def closingPlace (ts : List Token) (i : Nat) : Nat := i + 1 + (untilClose 0 (ts.drop (i + 1))).1.length

section
variable {sep : TokenKind} {ts : List Token} {parts : List (List Token)}

theorem joinsCons (t) (joins : Joins sep parts ts) : Joins sep (consPart t parts) (t :: ts) := by
  cases joins with
  | none => exact .last [t]
  | last => exact .last (t :: ts)
  | more p u kind tail => exact .more (t :: p) u kind tail

theorem startNotEnd (t parts) : 0 ∉ partEnds (consPart t parts) := by
  cases parts <;> simp [consPart,partEnds]

theorem laterEnd (t) (filled : parts ≠ []) (k) : k + 1 ∈ partEnds (consPart t parts) ↔ k ∈ partEnds parts := by
  obtain ⟨p,ps,rfl⟩ := exists_cons_of_ne_nil filled
  simp only [consPart,partEnds,length_cons,mem_cons,mem_map,Nat.add_right_cancel_iff]
  refine or_congr_right (exists_congr fun n => and_congr_right fun _ => ?_)
  omega

variable (plain : ∀ t : Token, t.kind = sep → t.opens = false ∧ t.closes = false)
include plain

theorem splitStep (level t ts) : splitTokens sep level (t :: ts) =
    if t.kind = sep ∧ level = 0 then [] :: splitTokens sep (level + t.depth) ts
    else consPart t (splitTokens sep (level + t.depth) ts) := by
  rw [splitTokens]
  split
  · rename_i bracket
    rw [if_neg fun both => by simp [plain t both.1] at bracket]
  · rename_i other
    simp only [Bool.or_eq_true,not_or] at other
    rw [Token.depth,if_neg other.1,if_neg other.2,Int.add_zero]

theorem splitJoins (level ts) :
    Joins sep (splitTokens sep level ts) (if endsOutside sep level ts then ts.dropLast else ts) := by
  induction ts generalizing level with
  | nil => exact .none
  | cons t ts ih =>
    have rest := ih (level + t.depth)
    rw [splitStep plain]
    cases ts with
    | nil =>
      have ends : endsOutside sep level [t] ↔ t.kind = sep ∧ level = 0 := by
        simp only [endsOutside,getLast?_singleton,Option.any_some,Bool.and_eq_true,decide_eq_true_eq,netDepth]
        refine and_congr_right fun kind => ?_
        simp [Token.depth,plain t kind]
      simp only [ends]
      split
      · exact .last []
      · exact .last [t]
    | cons u us =>
      have same : endsOutside sep level (t :: u :: us) = endsOutside sep (level + t.depth) (u :: us) := by
        rw [endsOutside,endsOutside,getLast?_cons_cons,netDepth,Int.add_assoc]
      rw [same]
      have kept : (if endsOutside sep (level + t.depth) (u :: us) then (t :: u :: us).dropLast else t :: u :: us) =
          t :: if endsOutside sep (level + t.depth) (u :: us) then (u :: us).dropLast else u :: us := by split <;> rfl
      rw [kept]
      split
      · rename_i splits
        obtain ⟨q,ps,parts⟩ := exists_cons_of_ne_nil (splitFilled sep (level + t.depth) (cons_ne_nil u us))
        rw [parts] at rest ⊢
        exact .more [] t splits.1 rest
      · exact joinsCons t rest

theorem endsWhereOutside (level) {k t} (there : ts[k]? = some t) :
    k ∈ partEnds (splitTokens sep level ts) ↔ t.kind = sep ∧ level + netDepth (ts.take k) = 0 := by
  induction ts generalizing level k with
  | nil => cases there
  | cons u ts ih =>
    rw [splitStep plain]
    cases k with
    | zero =>
      cases there
      rw [take_zero,netDepth,Int.add_zero]
      split
      · rename_i splits
        exact ⟨fun _ => splits,fun _ => mem_cons_self⟩
      · rename_i stays
        exact ⟨fun mem => absurd mem (startNotEnd _ _),fun both => absurd both stays⟩
    | succ k =>
      rw [getElem?_cons_succ] at there
      have filled : ts ≠ [] := by
        rintro rfl
        cases there
      rw [take_succ_cons,netDepth,← Int.add_assoc,← ih _ there]
      split
      · simp [partEnds,Nat.add_comm 1]
      · exact laterEnd u (splitFilled _ _ filled) k

end

section
variable {ts : List Token} {i k : Nat} {t : Token}

theorem insideReaches (level ts) (n : Nat) : n ≤ (untilClose level ts).1.length ↔
    n ≤ ts.length ∧ ∀ m ≤ n, 0 ≤ (level : Int) + netDepth (ts.take m) := by
  induction ts generalizing level n with
  | nil => simp [untilClose,netDepth]
  | cons t ts ih =>
    cases n with
    | zero => simp [netDepth]
    | succ n =>
      have shift : (∀ m ≤ n + 1, 0 ≤ (level : Int) + netDepth ((t :: ts).take m)) ↔
          ∀ m ≤ n, 0 ≤ level + t.depth + netDepth (ts.take m) := by
        constructor
        · intro each m most
          rw [Int.add_assoc]
          exact each (m + 1) (Nat.succ_le_succ most)
        · intro each m most
          cases m with
          | zero => exact Int.natCast_nonneg level
          | succ m =>
            rw [take_succ_cons,netDepth,← Int.add_assoc]
            exact each m (Nat.le_of_succ_le_succ most)
      rw [shift,untilClose]
      by_cases closes : t.closes
      · have flat : t.opens = false := Bool.eq_false_iff.mpr fun opens => by simp [Token.notClosesOfOpens opens] at closes
        cases level with
        | zero =>
          have falls : t.depth = -1 := by simp [Token.depth,flat,closes]
          rw [if_pos ⟨closes,rfl⟩]
          refine iff_of_false (Nat.not_succ_le_zero n) fun both => ?_
          have first := both.2 0 (Nat.zero_le n)
          rw [falls,take_zero,netDepth] at first
          omega
        | succ level =>
          have falls : ((level + 1 : Nat) : Int) + t.depth = level := by
            simp only [Token.depth,flat,closes,if_true,Bool.false_eq_true,if_false]
            omega
          simp only [falls,closes,flat,Nat.add_one_ne_zero,and_false,if_false,Bool.false_eq_true,if_true,length_cons,
            Nat.add_le_add_iff_right,Nat.add_sub_cancel,ih]
      · have stays : ((if t.opens then level + 1 else level : Nat) : Int) = level + t.depth := by
          rw [Token.depth,if_neg closes]
          split <;> simp
        rw [if_neg fun both => closes both.1,if_neg closes,← stays]
        simp only [length_cons,Nat.add_le_add_iff_right,ih]

theorem depthStep (there : ts[i]? = some t) : netDepth (ts.take (i + 1)) = netDepth (ts.take i) + t.depth := by
  rw [take_add_one,there,netDepthAppend]
  simp [netDepth]

theorem placeInside (later : i < k) (there : k < ts.length) : k < closingPlace ts i ↔
    ∀ j, i < j → j ≤ k + 1 → netDepth (ts.take (i + 1)) ≤ netDepth (ts.take j) := by
  have level (m) : netDepth (ts.take (i + 1 + m)) = netDepth (ts.take (i + 1)) + netDepth ((ts.drop (i + 1)).take m) := by
    rw [take_add,netDepthAppend]
  have reaches := insideReaches 0 (ts.drop (i + 1)) (k - i)
  rw [length_drop] at reaches
  have place : k < closingPlace ts i ↔ k - i ≤ (untilClose 0 (ts.drop (i + 1))).1.length := by
    rw [closingPlace]
    omega
  rw [place,reaches]
  constructor
  · rintro ⟨_,each⟩ j behind most
    have deep := each (j - (i + 1)) (by omega)
    have same := level (j - (i + 1))
    rw [Nat.add_sub_cancel' behind] at same
    omega
  · intro each
    refine ⟨by omega,fun m most => ?_⟩
    have deep := each (i + 1 + m) (by omega) (by omega)
    have same := level m
    omega

theorem lastOutside (nested : ∀ p, p <+: ts → 0 ≤ netDepth p) (inside : netDepth (ts.take k) ≠ 0) :
    ∃ i < k, netDepth (ts.take i) = 0 ∧ ∀ j, i < j → j ≤ k → 0 < netDepth (ts.take j) := by
  induction k with
  | zero => exact absurd rfl inside
  | succ k ih =>
    have deep := nested (ts.take (k + 1)) ( take_prefix _ _)
    by_cases outside : netDepth (ts.take k) = 0
    · refine ⟨k,Nat.lt_succ_self k,outside,fun j behind most => ?_⟩
      have last : j = k + 1 := by omega
      rw [last]
      omega
    obtain ⟨i,before,found,each⟩ := ih outside
    refine ⟨i,Nat.lt_succ_of_lt before,found,fun j behind most => ?_⟩
    rcases Nat.lt_or_eq_of_le most with less | last
    · exact each j behind (Nat.le_of_lt_succ less)
    · rw [last]
      omega

theorem outsideIff (nested : ∀ p, p <+: ts → 0 ≤ netDepth p) (there : ts[k]? = some t) (flat : t.depth = 0) :
    netDepth (ts.take k) = 0 ↔ ∀ i u, i < k → ts[i]? = some u → u.opens → ¬ k < closingPlace ts i := by
  obtain ⟨size,_⟩ := List.getElem?_eq_some_iff.mp there
  constructor
  · intro outside i u before here opens inside
    have level := (placeInside before size).mp inside k before (Nat.le_succ k)
    have first := nested (ts.take i) ( take_prefix _ _)
    have step := depthStep here
    rw [Token.depth,if_pos opens] at step
    omega
  · intro bare
    refine Decidable.byContradiction fun inside => ?_
    obtain ⟨i,before,outside,each⟩ := lastOutside nested inside
    obtain ⟨u,here⟩ : ∃ u, ts[i]? = some u := ⟨_,getElem?_eq_getElem (Nat.lt_trans before size)⟩
    have first := each (i + 1) (Nat.lt_succ_self i) before
    have step := depthStep here
    have opens : u.opens := by
      refine Decidable.byContradiction fun other => ?_
      rw [Token.depth,if_neg other] at step
      split at step <;> omega
    refine bare i u before here opens ((placeInside before size).mpr fun j behind most => ?_)
    rw [Token.depth,if_pos opens] at step
    rcases Nat.lt_or_eq_of_le most with less | last
    · have deep := each j behind (Nat.le_of_lt_succ less)
      omega
    have deep := each k before (Nat.le_refl k)
    have next := depthStep there
    rw [last]
    omega

end

/- Splitting leaves out the separators outside of blocks, and these are the ones that no block holds. -/
theorem splitAtOuterSeparators (sep : TokenKind) (plain : ∀ t : Token, t.kind = sep → t.opens = false ∧ t.closes = false)
    (ts : List Token) (nested : ∀ p, p <+: ts → 0 ≤ netDepth p) :
    Joins sep (splitTokens sep 0 ts) (if endsOutside sep 0 ts then ts.dropLast else ts) ∧
    (∀ k t, ts[k]? = some t → t.kind = sep → (k ∈ partEnds (splitTokens sep 0 ts) ↔
      ∀ i u, i < k → ts[i]? = some u → u.opens → ¬ k < closingPlace ts i)) ∧
    ∀ i t, ts[i]? = some t → t.opens → i < closingPlace ts i ∧ closingPlace ts i ≤ ts.length := by
  refine ⟨splitJoins plain 0 ts,fun k t there kind => ?_,fun i t there _ => ?_⟩
  · have flat : t.depth = 0 := by simp [Token.depth,plain t kind]
    rw [endsWhereOutside plain 0 there,Int.zero_add,← outsideIff nested there flat]
    exact and_iff_right kind
  · obtain ⟨size,_⟩ := List.getElem?_eq_some_iff.mp there
    have inside := insideLength 0 (ts.drop (i + 1))
    rw [length_drop] at inside
    rw [closingPlace]
    omega

def openBlock : List Token :=
  [⟨.ident,[97]⟩,Token.comma,⟨.leftParen,[40]⟩,⟨.ident,[98]⟩,Token.comma]

/- A block that is never closed holds every separator behind its opening token. -/
theorem openBlockHoldsComma : Joins .comma (splitTokens .comma 0 openBlock) openBlock ∧
    1 ∈ partEnds (splitTokens .comma 0 openBlock) ∧ 4 ∉ partEnds (splitTokens .comma 0 openBlock) ∧
    closingPlace openBlock 2 = 5 := by
  have plain : ∀ t : Token, t.kind = .comma → t.opens = false ∧ t.closes = false := fun t kind => by
    simp [Token.opens,Token.closes,kind]
  have nested : ∀ p ∈ openBlock.inits, 0 ≤ netDepth p := by decide
  obtain ⟨joins,outer,_⟩ := splitAtOuterSeparators .comma plain openBlock fun p before => nested p ((mem_inits p _).mpr before)
  refine ⟨joins,(outer 1 _ rfl rfl).mpr fun i u before here opens => ?_,fun mem => ?_,rfl⟩
  · cases Nat.lt_one_iff.mp before
    cases here
    cases opens
  · exact (outer 4 _ rfl rfl).mp mem 2 _ (by decide) rfl rfl (by decide)

end Cascade
