import Cascade.Proofs.Routes

/-! Ways from one clean path to another. A way climbs by parents and goes down by names. It does not climb at all if and
only if its target is reached from its start by names, and then these names are the way. -/
namespace Cascade
open List

section
variable {a b c : List Bytes}

theorem afterCommonSame (c a b) : afterCommon (c ++ a) (c ++ b) = afterCommon a b := by
  induction c with
  | nil => rfl
  | cons p c ih => rw [cons_append,cons_append,afterCommon,beq_self_eq_true,if_pos rfl,ih]

theorem afterCommonNil (b) : afterCommon [] b = ([],b) := by
  cases b <;> rfl

theorem afterCommonSplit (a b) : ∃ c, a = c ++ (afterCommon a b).1 ∧ b = c ++ (afterCommon a b).2 ∧
    ∀ p ∈ (afterCommon a b).1.head?, (afterCommon a b).2.head? ≠ some p := by
  fun_induction afterCommon a b with
  | case1 p a q b same ih =>
    obtain ⟨c,left,right,apart⟩ := ih
    exact ⟨p :: c,congrArg (p :: ·) left,(eq_of_beq same).symm ▸ congrArg (p :: ·) right,apart⟩
  | case2 p a q b other =>
    refine ⟨[],rfl,rfl,fun x here there => other ?_⟩
    rw [Option.mem_def.mp here |> Option.some.inj,Option.some.inj there,beq_self_eq_true]
  | case3 a b bare =>
    refine ⟨[],rfl,rfl,fun x here there => ?_⟩
    obtain ⟨a,rfl⟩ := head?_eq_some_iff.mp here
    obtain ⟨b,rfl⟩ := head?_eq_some_iff.mp there
    exact bare x a x b rfl rfl

end

section
variable {absolute : Bool} {gone : List Bytes}

theorem tidyClimbs (tidy : Tidy absolute gone) :
    ∃ names count, Names names ∧ gone = names.reverse ++ replicate count dotDot := by
  induction tidy with
  | start => exact ⟨[],0,forall_mem_nil _,rfl⟩
  | @push gone part before free stays ih =>
    obtain ⟨full,moves,_⟩ := tidyParts (before.push free stays) part mem_cons_self
    obtain ⟨names,count,named,rfl⟩ := ih
    by_cases up : part = dotDot
    · -- a parent stays only at the start or behind another one
      rcases eq_nil_or_concat names with rfl | ⟨names,last,rfl⟩
      · exact ⟨[],count + 1,named,by rw [up]; rfl⟩
      · have below := (isNameIff.mp (named last (by simp))).2.2.1
        rw [up,concat_eq_append,reverse_append,reverse_singleton,singleton_append,cons_append,pushUpPast below] at stays
        exact absurd (congrArg length stays) (by simp; omega)
    · refine ⟨names ++ [part],count,forall_mem_append.mpr ⟨named,forall_mem_singleton.mpr (isNameIff.mpr ⟨full,moves,up,free⟩)⟩,?_⟩
      rw [reverse_append]
      rfl

theorem pushUps (count more) :
    (replicate count dotDot).foldl (pushPart false) (replicate more dotDot) = replicate (more + count) dotDot := by
  induction count generalizing more with
  | zero => rfl
  | succ count ih =>
    have step : pushPart false (replicate more dotDot) dotDot = replicate (more + 1) dotDot := by
      cases more <;> rfl
    rw [replicate_succ,foldl_cons,step,ih,Nat.add_assoc,Nat.add_comm 1]

theorem climbNames (named : Names gone) (count) : (replicate count dotDot).foldl (pushPart false) gone =
    gone.drop count ++ replicate (count - gone.length) dotDot := by
  induction gone generalizing count with
  | nil => simpa using pushUps count 0
  | cons n gone ih =>
    obtain ⟨name,others⟩ := forall_mem_cons.mp named
    cases count with
    | zero => simp
    | succ count =>
      rw [replicate_succ,foldl_cons,pushUpPast (isNameIff.mp name).2.2.1,ih others,drop_succ_cons,length_cons,Nat.add_sub_add_right]

end

/- A way that leaves a place by its last names comes back through the same ones. -/
def ComesBack (place way : List Bytes) : Prop :=
  ∃ kept lost rest, place = kept ++ lost ∧ way = replicate lost.length dotDot ++ (lost ++ rest) ∧ dotDot ∉ rest

namespace Route
variable {r s : Route} {way : List Bytes}

theorem climbs (r : Route) : ∃ count names, Names names ∧ r.parts = replicate count dotDot ++ names := by
  obtain ⟨names,count,named,whole⟩ := tidyClimbs r.tidy
  refine ⟨count,names,named,?_⟩
  rw [parts,whole,reverse_append,reverse_reverse,reverse_replicate]

theorem namesBehind {front part rest} (whole : r.parts = front ++ part :: rest) (name : part ≠ dotDot) : Names (part :: rest) := by
  obtain ⟨count,names,named,climbs⟩ := r.climbs
  rcases append_eq_append_iff.mp (whole.symm.trans climbs) with ⟨ups,full,behind⟩ | ⟨more,_,rest⟩
  · cases ups with
    | nil => exact behind ▸ named
    | cons up ups =>
      have among : part ∈ replicate count dotDot := by rw [full,(cons.inj behind).1]; simp
      exact absurd (eq_of_mem_replicate among) name
  · exact fun n mem => named n (rest ▸ mem_append_right _ mem)

theorem textInj : r.text = s.text ↔ r = s :=
  ⟨fun same => by rw [← ofText r,same,ofText],congrArg text⟩

theorem partsInj (same : r.absolute = s.absolute) (parts : r.parts = s.parts) : r = s :=
  Route.ext same (reverse_inj.mp parts)

theorem intoInj {way'} (named : Names way) (named' : Names way') : (r.into way named).text = (r.into way' named').text ↔ way = way' := by
  rw [textInj]
  constructor
  · intro same
    have parts := congrArg parts same
    rw [intoParts,intoParts] at parts
    exact append_cancel_left parts
  · rintro rfl
    rfl

theorem noParts {path} (bare : (ofPath path).parts = []) (is : r.text = path) : r.parts = [] := by
  rw [← ofText r,is]
  exact bare

theorem bodyFields (full : r.parts ≠ []) : fields 47 (if isAbsolute r.text then r.text.tail else r.text) = r.parts := by
  have apart := fieldsJoin full fun p mem => (r.partsFree p mem).2.2
  rw [textAbsolute,text,joinParts]
  cases r.absolute with
  | true => exact apart
  | false => simpa [full] using apart

theorem startText (r : Route) : startParts r.text = r.parts := by
  rw [startParts]
  by_cases bare : r.parts = []
  · rw [text,bare]
    cases r.absolute <;> rfl
  have moved : ¬ (r.text == dot || r.text == [47]) := by
    simp only [Bool.or_eq_true,beq_iff_eq]
    exact fun either => bare (either.elim (noParts rfl) (noParts rfl))
  rw [if_neg moved,bodyFields bare]

theorem targetText (r : Route) : targetParts r.text = if r.parts = [] ∧ r.absolute = false then [dot] else r.parts := by
  rw [targetParts]
  by_cases bare : r.parts = []
  · rw [text,bare]
    cases r.absolute <;> rfl
  · have moved : ¬ (r.text == [47]) := fun same => bare (noParts rfl (eq_of_beq same))
    rw [if_neg moved,bodyFields bare,if_neg fun both => bare both.1]

theorem cleanAgain (r : Route) : cleanPath r.text = r.text := by
  rw [cleanText,ofText]

theorem relativeTexts (other : r ≠ s) (same : r.absolute = s.absolute) : relativePath r.text s.text =
    match afterCommon r.parts (targetParts s.text) with
    | (up,[]) => some ([47].intercalate (up.map fun _ => dotDot))
    | ([],down) => some ([47].intercalate down)
    | (up,down) => if up.head? == some dotDot then none else some ([47].intercalate ((up.map fun _ => dotDot) ++ down)) := by
  have apart : ¬ (r.text == s.text) := fun alike => other (textInj.mp (eq_of_beq alike))
  rw [relativePath,cleanAgain,cleanAgain,startText,textAbsolute,textAbsolute,same,bne_self_eq_false]
  exact (if_neg apart).trans (if_neg Bool.false_ne_true)

theorem relativeSelf (r : Route) : relativePath r.text r.text = some dot := by
  rw [relativePath,cleanAgain]
  exact if_pos (beq_self_eq_true _)

theorem relativeInto (named : Names way) : relativePath r.text (r.into way named).text = some (joinParts false way) := by
  by_cases bare : way = []
  · subst bare
    exact relativeSelf r
  have beyond : (r.into way named).parts ≠ [] := by simp [intoParts,bare]
  have other : r ≠ r.into way named := by
    intro same
    have parts := congrArg Route.parts same
    rw [intoParts] at parts
    exact bare (self_eq_append_right.mp parts)
  rw [relativeTexts other rfl,targetText,if_neg fun both => beyond both.1,intoParts]
  have split := afterCommonSame r.parts [] way
  rw [append_nil,afterCommonNil] at split
  rw [split]
  obtain ⟨n,way,rfl⟩ := exists_cons_of_ne_nil bare
  rfl

theorem leadsOutUp (more) : leadsOut ([47].intercalate (dotDot :: more)) = true := by
  cases more with
  | nil => rfl
  | cons p more =>
    rw [intercalate_cons_cons]
    exact Bool.or_eq_true_iff.mpr (.inr rfl)

theorem leadsOutFields {w} (out : leadsOut w = true) : ∃ rest, fields 47 w = dotDot :: rest := by
  rcases Bool.or_eq_true_iff.mp out with alone | first
  · exact ⟨[],by rw [eq_of_beq alone]; rfl⟩
  · obtain ⟨rest,rfl⟩ := isPrefixOf_iff_prefix.mp first
    exact ⟨fields 47 rest,fieldsAppend (x := dotDot) (by decide) rest⟩

theorem leadsOutNames (named : Names way) : leadsOut (joinParts false way) = false := by
  refine Bool.eq_false_iff.mpr fun out => ?_
  cases way with
  | nil => cases out
  | cons n way =>
    obtain ⟨rest,whole⟩ := leadsOutFields out
    have apart : fields 47 (joinParts false (n :: way)) = n :: way := fieldsJoin (cons_ne_nil n way) (namesFree named)
    exact (isNameIff.mp (named n mem_cons_self)).2.2.1 (cons.inj (apart.symm.trans whole)).1

theorem relativeApart (sides : r.absolute ≠ s.absolute) : relativePath r.text s.text = none := by
  have other : ¬ (r.text == s.text) := fun same => sides (congrArg absolute (textInj.mp (eq_of_beq same)))
  rw [relativePath,cleanAgain,cleanAgain,textAbsolute,textAbsolute]
  simp only [if_neg other]
  exact if_pos (bne_iff_ne.mpr sides)

/- A way that does not begin with a parent is one of names. -/
theorem relativeCases {w} (found : relativePath r.text s.text = some w) :
    leadsOut w = true ∨ ∃ way named, s = r.into way named ∧ w = joinParts false way := by
  by_cases sides : r.absolute = s.absolute
  case neg => cases (relativeApart sides).symm.trans found
  by_cases same : r = s
  · subst same
    cases (relativeSelf r).symm.trans found
    exact .inr ⟨[],forall_mem_nil _,rfl,rfl⟩
  rw [relativeTexts same sides] at found
  obtain ⟨c,left,right,_⟩ := afterCommonSplit r.parts (targetParts s.text)
  generalize afterCommon r.parts (targetParts s.text) = split at found left right
  obtain ⟨up,down⟩ := split
  cases up with
  | cons p up =>
    cases down with
    | nil =>
      cases found
      exact .inl (leadsOutUp _)
    | cons n down =>
      dsimp only at found
      split at found
      · cases found
      · cases found
        exact .inl (leadsOutUp _)
  | nil =>
    rw [append_nil] at left
    rw [targetText,← left] at right
    split at right
    · rename_i start
      cases parts : r.parts with
      | nil => exact absurd (partsInj sides (parts.trans start.1.symm)) same
      | cons p ps =>
        rw [parts] at right
        exact absurd (cons.inj right).1.symm (r.partsFree p (parts ▸ mem_cons_self)).2.1
    · cases down with
      | nil => exact absurd (partsInj sides (by simpa using right.symm)) same
      | cons n down =>
        cases found
        by_cases climbs : n = dotDot
        · exact .inl (climbs ▸ leadsOutUp _)
        · have named := namesBehind right climbs
          exact .inr ⟨n :: down,named,partsInj sides.symm (right.trans (intoParts named).symm),rfl⟩

/- There is a way unless it would have to come back from a parent that the target does not share. -/
theorem relativeSome (sides : r.absolute = s.absolute) (shared : ∀ c, c ++ [dotDot] <+: r.parts → c ++ [dotDot] <+: s.parts) :
    ∃ w, relativePath r.text s.text = some w := by
  by_cases same : r = s
  · exact ⟨dot,same ▸ relativeSelf r⟩
  rw [relativeTexts same sides]
  obtain ⟨c,left,right,apart⟩ := afterCommonSplit r.parts (targetParts s.text)
  generalize afterCommon r.parts (targetParts s.text) = split at left right apart ⊢
  obtain ⟨up,down⟩ := split
  cases down with
  | nil => exact ⟨_,rfl⟩
  | cons n down =>
    cases up with
    | nil => exact ⟨_,rfl⟩
    | cons p up =>
      have name : p ≠ dotDot := by
        rintro rfl
        obtain ⟨rest,whole⟩ := shared c ⟨up,by rw [left,append_assoc]; rfl⟩
        have beyond : s.parts ≠ [] := by simp [← whole]
        rw [targetText,if_neg fun both => beyond both.1,← whole,append_assoc] at right
        exact apart dotDot rfl (congrArg head? (append_cancel_left right)).symm
      exact ⟨_,if_neg (by simpa using name)⟩

theorem relativeClean (a b) : relativePath a b = relativePath (ofPath a).text (ofPath b).text := by
  rw [relativePath,relativePath,cleanAgain,cleanAgain,cleanText,cleanText]

theorem withinIff : isWithin r.text s.text = true ↔ ∃ way named, s = r.into way named := by
  rw [isWithin]
  constructor
  · intro inside
    split at inside
    · rename_i w found
      rcases relativeCases found with out | ⟨way,named,into,_⟩
      · simp [out] at inside
      · exact ⟨way,named,into⟩
    · cases inside
  · rintro ⟨way,named,rfl⟩
    rw [relativeInto named]
    simp [leadsOutNames named]

theorem ofClean {path} (clean : cleanPath path = path) : ∃ r : Route, path = r.text := ⟨ofPath path,clean.symm⟩

theorem relativeStays {w} (found : relativePath r.text s.text = some w) : isAbsolute w = false := by
  rcases relativeCases found with out | ⟨way,named,_,rfl⟩
  · obtain ⟨rest,whole⟩ := leadsOutFields out
    refine Bool.eq_false_iff.mpr fun absolute => ?_
    obtain ⟨w,rfl⟩ := head?_eq_some_iff.mp (eq_of_beq absolute)
    cases whole
  · exact joinedStays named

theorem cleanedNames (named : Names way) : cleanParts false (fields 47 (joinParts false way)) = way := by
  rw [← relativeParts (joinedStays named),← startInto named,ofText,startIntoParts]

theorem joinedInj {way'} (named : Names way) (named' : Names way') : joinParts false way = joinParts false way' ↔ way = way' := by
  rw [← startInto named,← startInto named',intoInj]

theorem slashed (r : Route) : ofPath (r.text ++ [47]) = r := by
  obtain ⟨c,rest,whole⟩ := exists_cons_of_ne_nil r.textSome
  have sides : isAbsolute (r.text ++ [47]) = isAbsolute r.text := by rw [whole]; rfl
  refine (Route.ext sides ?_).trans (ofText r)
  show (fields 47 (r.text ++ [47])).foldl (pushPart (isAbsolute (r.text ++ [47]))) [] = _
  rw [fieldsBoth,foldl_append,sides]
  rfl

section
variable {out : List Bytes} (named : Names out)

theorem alongClimb {w : Route} {count names} (others : Names names) (whole : w.parts = replicate count dotDot ++ names) :
    ((start.into out named).along w).parts = replicate (count - out.length) dotDot ++ (out.take (out.length - count) ++ names) := by
  have above : Names out.reverse := fun n mem => named n (mem_reverse.mp mem)
  have gone : (start.into out named).gone = out.reverse := append_nil _
  rw [parts,alongGone,whole,gone,foldl_append]
  show (names.foldl (pushPart false) ((replicate count dotDot).foldl (pushPart false) out.reverse)).reverse = _
  rw [climbNames above,pushNames others,reverse_append,reverse_append,reverse_reverse,reverse_replicate,
    length_reverse,drop_reverse,reverse_reverse,append_assoc]

theorem alongWithin (w : Route) :
    isWithin (start.into out named).text ((start.into out named).along w).text = true ↔ ComesBack out w.parts := by
  rw [withinIff]
  constructor
  · rintro ⟨rest,more,reached⟩
    obtain ⟨count,names,others,whole⟩ := w.climbs
    have parts := (alongClimb named others whole).symm.trans (congrArg Route.parts reached)
    rw [intoParts,startIntoParts] at parts
    have low : count ≤ out.length := by
      refine Nat.le_of_not_lt fun high => ?_
      have climbs : dotDot ∈ out ++ rest := by
        rw [← parts]
        exact mem_append_left _ (mem_replicate.mpr ⟨by omega,rfl⟩)
      exact namesBelow (forall_mem_append.mpr ⟨named,more⟩) climbs
    rw [Nat.sub_eq_zero_of_le low,replicate_zero,nil_append] at parts
    refine ⟨out.take (out.length - count),out.drop (out.length - count),rest,(take_append_drop _ _).symm,?_,namesBelow more⟩
    have back : out.take (out.length - count) ++ names = out.take (out.length - count) ++ (out.drop (out.length - count) ++ rest) := by
      rw [parts,← append_assoc,take_append_drop]
    rw [whole,append_cancel_left back,length_drop,Nat.sub_sub_self low]
  · rintro ⟨kept,lost,rest,rfl,whole,free⟩
    have others : Names (lost ++ rest) := by
      refine forall_mem_append.mpr ⟨fun n mem => named n (mem_append_right _ mem),fun n mem => ?_⟩
      obtain ⟨full,moves,slash⟩ := w.partsFree n (by simp [whole,mem])
      exact isNameIff.mpr ⟨full,moves,fun up => free (up ▸ mem),slash⟩
    refine ⟨rest,fun n mem => others n (mem_append_right _ mem),partsInj rfl ?_⟩
    rw [alongClimb named others whole,intoParts,startIntoParts]
    simp

end

end Route

end Cascade
