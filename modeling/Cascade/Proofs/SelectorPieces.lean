import Cascade.Proofs.ItemWalk
import Cascade.Proofs.Separators
import Mathlib.Data.List.Infix

/-! The list of selectors of a rule, cut at every comma and put together again while a bracket is open. -/
namespace Cascade
open List Token
open Token (comma)

variable {pieces : List (List Token)}

/- The items that hand over the pieces of a list of selectors; the last one opens the block. -/
def pieceItems : List (List Token) → List Item
  | [] => []
  | [last] => [.openRule last]
  | piece :: pieces => .selectorPart piece :: pieceItems pieces

/- The pieces put together behind `pending`; the last selector ends where its block opens, whatever is open in it. -/
def regrouped (pending : List Token) : List (List Token) → List (List Token)
  | [] => []
  | [last] => [pending ++ last]
  | piece :: pieces =>
    match joinPiece pending piece with
    | (all,true) => all :: regrouped [] pieces
    | (all,false) => regrouped all pieces

def ahead (ts : List Token) : List (List Token) → List (List Token)
  | [] => [ts]
  | p :: ps => (ts ++ p) :: ps

section
variable (pending : List Token)

theorem aheadCons (t parts) : ahead pending (consPart t parts) = ahead (pending ++ [t]) parts := by
  cases parts with
  | nil => rfl
  | cons p ps => simp [ahead,consPart]

theorem aheadNone {parts} (filled : parts ≠ []) : ahead [] parts = parts := by
  obtain ⟨p,ps,rfl⟩ := exists_cons_of_ne_nil filled
  rfl

theorem splitFilled (sep level) {ts} (filled : ts ≠ []) : splitTokens sep level ts ≠ [] := by
  have full (t : Token) (parts : List (List Token)) : consPart t parts ≠ [] := by cases parts <;> simp [consPart]
  obtain ⟨t,us,rfl⟩ := exists_cons_of_ne_nil filled
  rw [splitTokens]
  split
  · exact full _ _
  · split
    · exact cons_ne_nil _ _
    · exact full _ _

theorem regroupedMore (piece) (filled : pieces ≠ []) :
    regrouped pending (piece :: pieces) =
      if isUnclosed (pending ++ piece) then regrouped (pending ++ piece ++ [comma]) pieces
      else (pending ++ piece) :: regrouped [] pieces := by
  obtain ⟨p,ps,rfl⟩ := exists_cons_of_ne_nil filled
  rw [regrouped.eq_3 _ _ _ (cons_ne_nil p ps),joinPiece]
  cases isUnclosed (pending ++ piece) <;> rfl

theorem regroupedFilled (filled : pieces ≠ []) : regrouped pending pieces ≠ [] := by
  induction pieces generalizing pending with
  | nil => exact absurd rfl filled
  | cons piece pieces ih =>
    cases pieces with
    | nil => exact cons_ne_nil _ _
    | cons next rest =>
      rw [regroupedMore _ _ (cons_ne_nil next rest)]
      split
      · exact ih _ (cons_ne_nil next rest)
      · exact cons_ne_nil _ _

theorem regroupedHead (t) (filled : pieces ≠ []) :
    regrouped pending (pieces.modifyHead (t :: ·)) = regrouped (pending ++ [t]) pieces := by
  obtain ⟨piece,rest,rfl⟩ := exists_cons_of_ne_nil filled
  cases rest with
  | nil => simp [regrouped]
  | cons p ps =>
    rw [modifyHead_cons,regroupedMore _ _ (cons_ne_nil p ps),regroupedMore _ _ (cons_ne_nil p ps)]
    simp only [append_assoc,singleton_append]

theorem regroupedParts {ts} (commas : ∀ t ∈ ts, t.kind = .comma → t = comma)
    (nested : ∀ p, p <+: ts → 0 ≤ netDepth (pending ++ p))
    (ends : ∀ front, ts = front ++ [comma] → netDepth (pending ++ front) ≠ 0) :
    regrouped pending (ts.splitOn comma) = ahead pending (splitTokens .comma (netDepth pending) ts) := by
  induction ts generalizing pending with
  | nil => simp [regrouped,splitTokens,ahead]
  | cons t ts ih =>
    obtain ⟨first,others⟩ := forall_mem_cons.mp commas
    have level : 0 ≤ netDepth pending := by simpa using nested [] nil_prefix
    have filled := splitOn_ne_nil comma ts
    -- a token that stays is pending before the others
    have stays := ih (pending ++ [t]) others
      (fun p before => by simpa using nested (t :: p) (cons_prefix_cons.mpr ⟨rfl,before⟩))
      (fun front last => by simpa using ends (t :: front) (by rw [last,cons_append]))
    have depth : netDepth (pending ++ [t]) = netDepth pending + t.depth := by simp [netDepthAppend,netDepth]
    rw [splitOn_cons_eq_if_modifyHead,splitTokens]
    by_cases comma : t = comma
    · subst comma
      have flat : Token.comma.depth = 0 := rfl
      rw [depth,flat,Int.add_zero] at stays
      have plain : ¬(Token.comma.opens || Token.comma.closes) := by decide
      rw [if_pos (beq_self_eq_true _),regroupedMore _ _ filled,append_nil,if_neg plain]
      by_cases outside : netDepth pending = 0
      · have full : ts ≠ [] := by
          rintro rfl
          exact ends [] rfl (by rw [append_nil,outside])
        have rest := ih [] others
          (fun p before => by
            have := nested (comma :: p) (cons_prefix_cons.mpr ⟨rfl,before⟩)
            simpa [netDepthAppend,netDepth,outside,flat] using this)
          (fun front last => by
            have := ends (comma :: front) (by rw [last,cons_append])
            simpa [netDepthAppend,netDepth,outside,flat] using this)
        have closed : isUnclosed pending = false := by simp [isUnclosed,outside]
        rw [if_neg (by rw [closed]; exact Bool.false_ne_true),if_pos ⟨rfl,outside⟩,rest,outside]
        show pending :: ahead [] (splitTokens .comma 0 ts) = (pending ++ []) :: splitTokens .comma 0 ts
        rw [aheadNone (splitFilled _ _ full),append_nil]
      · have opened : isUnclosed pending := by
          simp only [isUnclosed,decide_eq_true_eq]
          omega
        rw [if_pos opened,if_neg (fun both => outside both.2),stays,aheadCons]
    · have other : ¬(t.kind = .comma ∧ netDepth pending = 0) := fun both => comma (first both.1)
      rw [if_neg (by simpa using comma),regroupedHead _ _ filled,stays,depth]
      split
      · rw [aheadCons]
      rename_i plain
      have flat : t.depth = 0 := by
        simp only [Bool.or_eq_true,not_or] at plain
        rw [Token.depth,if_neg plain.1,if_neg plain.2]
      rw [aheadCons,flat,Int.add_zero]

end

section
variable (f : Frame)

theorem selectorPending (ts pending) : ({ f with pending := pending } : Frame).addSelector ts = f.addSelector ts := rfl

theorem selectorDone (ts) : (f.addSelector ts).value.pending = [] := by
  rw [Frame.addSelector]
  split
  · rfl
  · rw [Noted.valueBind]
    split <;> rfl

theorem assemblePieces (reread stack items)
    (filled : pieces ≠ []) : assemble reread f stack (pieceItems pieces ++ items) =
      (regrouped f.pending pieces).foldlM Frame.addSelector f >>= fun g =>
        assemble reread { opening := .rule } (g :: stack) items := by
  induction pieces generalizing f with
  | nil => exact absurd rfl filled
  | cons piece pieces ih =>
    cases pieces with
    | nil => simp [pieceItems,assemble,regrouped]
    | cons next rest =>
      have full := cons_ne_nil next rest
      have step : assemble reread f stack (pieceItems (piece :: next :: rest) ++ items) =
          f.addPiece piece >>= fun g => assemble reread g stack (pieceItems (next :: rest) ++ items) := rfl
      rw [step,regroupedMore _ _ full,Frame.addPiece,joinPiece]
      cases isUnclosed (f.pending ++ piece) with
      | true =>
        show (pure _ >>= _) = _
        rw [pure_bind,ih _ full]
        simp only [if_true]
        -- what is pending is not looked at once the pieces are put together
        obtain ⟨p,ps,groups⟩ := exists_cons_of_ne_nil (regroupedFilled (f.pending ++ piece ++ [comma]) full)
        rw [groups,foldlM_cons,foldlM_cons,selectorPending]
      | false =>
        show (f.addSelector _ >>= _) = _
        simp only [Bool.false_eq_true,if_false,foldlM_cons,bind_assoc]
        refine bindSame ?_
        rw [ih _ full,selectorDone]

end

def Item.IsUncut : Item → Prop
  | .selectorPart piece => comma ∉ piece
  | .openRule piece => comma ∉ piece
  | _ => True

def Stage.IsUncut : Stage → Prop
  | .rule _ _ gathered => comma ∉ gathered
  | _ => True

theorem uncutPush {gathered t} (uncut : comma ∉ gathered) (other : ¬t.spells [44])
    (spaced) : comma ∉ push gathered spaced t := by
  have apart : comma ≠ t := by
    rintro rfl
    exact other rfl
  have blank : comma ≠ space := by decide
  rw [push,mem_append,not_or]
  refine ⟨uncut,?_⟩
  split
  · simp [apart,blank]
  · simp [apart]

theorem uncutLasts : Lasts (fun _ => True) Stage.IsUncut Item.IsUncut where
  starred _ := trivial
  star := trivial
  rule := not_mem_nil
  custom _ _ := trivial
  text _ := trivial
  close := trivial
  moves _ uncut moves := by
    cases moves with
    | enterRule | endPart => exact ⟨trivial,forall_mem_singleton.mpr uncut⟩
    | moreRule _ apart => exact ⟨uncutPush uncut apart _,forall_mem_nil _⟩
    | enterAtRule | endAtRule | endValue | endCustom | fault | leave =>
      exact ⟨trivial,forall_mem_singleton.mpr trivial⟩
    | _ => exact ⟨trivial,forall_mem_nil _⟩

theorem uncutLast (r stop) : ∀ i ∈ lastItem r stop, i.IsUncut := by
  rw [lastItem]
  split <;> simp [Item.IsUncut]

theorem pieceUncut (uncut : ∀ i ∈ pieceItems pieces, i.IsUncut) : ∀ p ∈ pieces, comma ∉ p := by
  induction pieces with
  | nil => exact forall_mem_nil _
  | cons piece pieces ih =>
    cases pieces with
    | nil => exact forall_mem_singleton.mpr (uncut (.openRule piece) mem_cons_self)
    | cons next rest =>
      obtain ⟨first,others⟩ := forall_mem_cons.mp uncut
      exact forall_mem_cons.mpr ⟨first,ih others⟩

theorem commaToken (source) : ∀ t ∈ tokens source, t.kind = .comma → t = comma := by
  intro t mem kind
  have text := commaText 0 source t mem kind
  cases t
  cases kind
  cases text
  rfl

/- The list of selectors of a rule is read part by part as it is between the commas outside of brackets; what the
reader of items hands over for it is a list cut at every comma. -/
theorem selectorsAtOuterCommas (ts : List Token) (filled : ts ≠ []) (commas : ∀ t ∈ ts, t.kind = .comma → t = comma)
    (nested : ∀ p, p <+: ts → 0 ≤ netDepth p) (ends : ∀ front, ts = front ++ [comma] → netDepth front ≠ 0) :
    regrouped [] (ts.splitOn comma) = splitTokens .comma 0 ts ∧
    (∀ (reread : Bytes → Noted Contents) (f : Frame) (stack : List Frame) (rest : List Item), f.pending = [] →
      assemble reread f stack (pieceItems (ts.splitOn comma) ++ rest) =
        (splitTokens .comma 0 ts).foldlM Frame.addSelector f >>= fun g =>
          assemble reread { opening := .rule } (g :: stack) rest) ∧
    ∀ (mode : Mode) (source : Bytes) (pieces : List (List Token)), pieces ≠ [] → pieceItems pieces <:+: items mode source →
      ([comma].intercalate pieces).splitOn comma = pieces := by
  have parts : regrouped [] (ts.splitOn comma) = splitTokens .comma 0 ts :=
    (regroupedParts [] commas nested ends).trans (aheadNone (splitFilled _ _ filled))
  refine ⟨parts,fun reread f stack rest fresh => ?_,fun mode source pieces full handed => ?_⟩
  · rw [assemblePieces f reread stack rest (splitOn_ne_nil _ _),fresh,parts]
  · have uncut : ∀ i ∈ items mode source, i.IsUncut :=
      readLasts uncutLasts 0 (fun _ _ => trivial) trivial trivial fun r stop _ => uncutLast r stop
    exact splitOn_intercalate _ (pieceUncut fun i mem => uncut i (handed.subset mem)) full

def nestedSelectors : List Token :=
  [⟨.ident,[97]⟩,⟨.colon,[58]⟩,⟨.function,ascii "is("⟩,⟨.ident,[98]⟩,⟨.colon,[58]⟩,⟨.function,ascii "not("⟩,⟨.delim,[46]⟩,
    ⟨.ident,[99]⟩,comma,⟨.delim,[46]⟩,⟨.ident,[100]⟩,⟨.rightParen,[41]⟩,comma,⟨.ident,[101]⟩,
    ⟨.rightParen,[41]⟩,comma,⟨.ident,[102]⟩]

theorem nestedSelectorsApart : tokens (ascii "a:is(b:not(.c,.d),e),f") = nestedSelectors ∧
    (nestedSelectors.splitOn comma).map List.length = [8,3,2,1] ∧
    regrouped [] (nestedSelectors.splitOn comma) = splitTokens .comma 0 nestedSelectors ∧
    splitTokens .comma 0 nestedSelectors = [nestedSelectors.take 15,[⟨.ident,[102]⟩]] := by
  have lexed : tokens (ascii "a:is(b:not(.c,.d),e),f") = nestedSelectors := rfl
  have commas : ∀ t ∈ nestedSelectors, t.kind = .comma → t = comma := lexed ▸ commaToken _
  have nested : ∀ p ∈ nestedSelectors.inits, 0 ≤ netDepth p := by decide
  refine ⟨lexed,rfl,(selectorsAtOuterCommas _ (cons_ne_nil _ _) commas ?_ ?_).1,rfl⟩
  · exact fun p before => nested p ((mem_inits p _).mpr before)
  · intro front last
    have same := congrArg List.getLast? last
    rw [getLast?_concat] at same
    cases same

end Cascade
