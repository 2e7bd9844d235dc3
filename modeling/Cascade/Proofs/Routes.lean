import Cascade.Path.Basic
import Cascade.Proofs.Joined

/-! Clean paths. Every path cleans to a route, the parts gone through on it, and a route is told by its text. Joining
and parting paths are read off the routes. -/
namespace Cascade
open List

def isName (part : Bytes) : Bool := !part.isEmpty && part != dot && part != dotDot && !part.contains 47

abbrev Names (way : List Bytes) : Prop := ∀ n ∈ way, isName n = true

theorem isNameIff {part} : isName part ↔ part ≠ [] ∧ part ≠ dot ∧ part ≠ dotDot ∧ 47 ∉ part := by
  simp [isName,and_assoc]

theorem namesBelow {way} (named : Names way) : dotDot ∉ way := fun up => (isNameIff.mp (named _ up)).2.2.1 rfl

theorem namesFree {way} (named : Names way) : ∀ n ∈ way, 47 ∉ n := fun n mem => (isNameIff.mp (named n mem)).2.2.2

theorem fieldsBoth {sep} (a b) : fields sep (a ++ sep :: b) = fields sep a ++ fields sep b := by
  induction a with
  | nil => exact fieldsAppend not_mem_nil b
  | cons c a ih =>
    rw [cons_append,fields,fields,ih]
    split
    · rfl
    · obtain ⟨f,fs,parts⟩ := exists_cons_of_ne_nil (fieldsNotEmpty sep a)
      rw [parts]
      rfl

/- The parts a path has gone through, the last one in front, each of which stays when it comes to those before it. -/
inductive Tidy (absolute : Bool) : List Bytes → Prop where
  | start : Tidy absolute []
  | push {gone part} (before : Tidy absolute gone) (free : 47 ∉ part) (stays : pushPart absolute gone part = part :: gone) :
      Tidy absolute (part :: gone)

section
variable {absolute : Bool} {gone : List Bytes}

theorem pushTidy {part} (tidy : Tidy absolute gone) (free : 47 ∉ part) : Tidy absolute (pushPart absolute gone part) := by
  fun_cases pushPart absolute gone part with
  | case1 => exact tidy
  | case2 => exact .start
  | case3 => exact .push .start (by decide) (by simp_all [pushPart])
  | case4 => exact tidy.push (by decide) (by simp_all [pushPart])
  | case5 =>
    cases tidy with
    | push before => exact before
  | case6 => exact tidy.push free (by simp_all [pushPart])

theorem foldTidy {parts : List Bytes} (free : ∀ p ∈ parts, 47 ∉ p) (tidy : Tidy absolute gone) :
    Tidy absolute (parts.foldl (pushPart absolute) gone) := by
  induction parts generalizing gone with
  | nil => exact tidy
  | cons part parts ih =>
    obtain ⟨here,others⟩ := forall_mem_cons.mp free
    exact ih others (pushTidy tidy here)

theorem tidyFold (tidy : Tidy absolute gone) : gone.reverse.foldl (pushPart absolute) [] = gone := by
  induction tidy with
  | start => rfl
  | push before free stays ih => rw [reverse_cons,foldl_append,ih,foldl_cons,stays,foldl_nil]

theorem tidyParts (tidy : Tidy absolute gone) : ∀ p ∈ gone, p ≠ [] ∧ p ≠ dot ∧ 47 ∉ p := by
  induction tidy with
  | start => exact forall_mem_nil _
  | push before free stays ih =>
    refine forall_mem_cons.mpr ⟨⟨?_,?_,free⟩,ih⟩
    · rintro rfl
      simp [pushPart] at stays
    · rintro rfl
      simp [pushPart] at stays

theorem pushNames {way} (named : Names way) (gone) : way.foldl (pushPart absolute) gone = way.reverse ++ gone := by
  induction way generalizing gone with
  | nil => rfl
  | cons n way ih =>
    obtain ⟨name,others⟩ := forall_mem_cons.mp named
    obtain ⟨full,moves,below,_⟩ := isNameIff.mp name
    rw [foldl_cons,ih others,reverse_cons,append_assoc]
    simp [pushPart,full,moves,below]

theorem pushUpPast {last} (other : last ≠ dotDot) : pushPart absolute (last :: gone) dotDot = gone :=
  show (if last == dotDot then _ else gone) = gone from if_neg (by simpa using other)

theorem pushOn {part} (moves : ¬ (part.isEmpty || part == dot)) (other : part ≠ dotDot) : pushPart absolute gone part = part :: gone := by
  rw [pushPart.eq_def,if_neg moves,if_neg (by simpa using other)]

theorem pushPushed {before} (tidy : Tidy false before) (part) : pushPart absolute (before.reverse.foldl (pushPart absolute) gone) part =
    (pushPart false before part).reverse.foldl (pushPart absolute) gone := by
  rw [foldl_reverse,foldl_reverse]
  by_cases stays : (part.isEmpty || part == dot)
  · rw [pushPart.eq_def,if_pos stays,pushPart.eq_def,if_pos stays]
  by_cases up : part = dotDot
  case neg => rw [@pushOn false _ _ stays up,foldr_cons]
  subst up
  cases before with
  | nil => rfl
  | cons last before =>
    by_cases above : last = dotDot
    · rw [above]
      rfl
    · obtain ⟨full,moves,_⟩ := tidyParts tidy last mem_cons_self
      rw [pushUpPast above,foldr_cons,pushOn (by simp [full,moves]) above,pushUpPast above]

/- Going a way is going what is left of it when it is cleaned. -/
theorem pushCleaned {before parts : List Bytes} (tidy : Tidy false before) (free : ∀ p ∈ parts, 47 ∉ p) :
    parts.foldl (pushPart absolute) (before.reverse.foldl (pushPart absolute) gone) =
    (parts.foldl (pushPart false) before).reverse.foldl (pushPart absolute) gone := by
  induction parts generalizing before with
  | nil => rfl
  | cons part parts ih =>
    obtain ⟨here,others⟩ := forall_mem_cons.mp free
    rw [foldl_cons,foldl_cons,pushPushed tidy,ih (pushTidy tidy here) others]

end

/-- A clean path by the parts gone through on it. -/
@[ext] structure Route where
  absolute : Bool
  gone : List Bytes
  tidy : Tidy absolute gone

namespace Route

def parts (r : Route) : List Bytes := r.gone.reverse

def text (r : Route) : Bytes := joinParts r.absolute r.parts

def ofPath (path : Bytes) : Route :=
  ⟨isAbsolute path,(fields 47 path).foldl (pushPart (isAbsolute path)) [],foldTidy (fieldsFreeOf path) .start⟩

def into (r : Route) (way : List Bytes) (named : Names way) : Route :=
  ⟨r.absolute,way.reverse ++ r.gone,pushNames named r.gone ▸ foldTidy (namesFree named) r.tidy⟩

section
variable {r s : Route} {way : List Bytes}

theorem cleanText (path) : cleanPath path = (ofPath path).text := rfl

theorem intoInto {more} (named : Names way) (others) : (r.into way named).into more others =
    r.into (way ++ more) (forall_mem_append.mpr ⟨named,others⟩) := Route.ext rfl (by simp [into])

theorem intoParts (named) : (r.into way named).parts = r.parts ++ way := by simp [parts,into]

theorem partsFree (r : Route) : ∀ p ∈ r.parts, p ≠ [] ∧ p ≠ dot ∧ 47 ∉ p := fun p mem => tidyParts r.tidy p (mem_reverse.mp mem)

theorem textAbsolute (r : Route) : isAbsolute r.text = r.absolute := by
  have free := r.partsFree
  rw [text,joinParts]
  cases r.absolute with
  | true => rfl
  | false =>
    rw [if_neg Bool.false_ne_true]
    split
    · rfl
    cases given : r.parts with
    | nil => simp_all
    | cons p ps =>
      obtain ⟨full,_,slash⟩ := free p (by simp [given])
      obtain ⟨b,p,rfl⟩ := exists_cons_of_ne_nil full
      have other : b ≠ 47 := fun same => slash (by simp [same])
      cases ps <;> simp [isAbsolute,intercalate_cons_cons,other]

/- The fields of a clean text are its parts, but for the empty ones of an absolute path and the dot of an empty one. -/
theorem fieldsText (r : Route) : fields 47 r.text =
    if r.parts = [] then if r.absolute then [[],[]] else [dot] else if r.absolute then [] :: r.parts else r.parts := by
  have free := fun p mem => (r.partsFree p mem).2.2
  rw [text,joinParts]
  by_cases bare : r.parts = []
  · rw [bare]
    cases r.absolute <;> rfl
  rw [if_neg bare]
  cases r.absolute with
  | true => exact (fieldsAppend (x := []) not_mem_nil _).trans (by rw [fieldsJoin bare free]; rfl)
  | false => simp [bare,fieldsJoin bare free]

theorem ofText (r : Route) : ofPath r.text = r := by
  have whole : r.parts.foldl (pushPart r.absolute) [] = r.gone := tidyFold r.tidy
  refine Route.ext (textAbsolute r) ?_
  show (fields 47 r.text).foldl (pushPart (isAbsolute r.text)) [] = _
  rw [fieldsText,textAbsolute,← whole]
  by_cases bare : r.parts = []
  · rw [if_pos bare,bare]
    cases r.absolute <;> rfl
  · rw [if_neg bare]
    cases r.absolute <;> rfl

theorem textSome (r : Route) : r.text ≠ [] := by
  intro bare
  have same := ofText r
  rw [bare] at same
  rw [← same] at bare
  cases bare

theorem slashRoot (ended : endsInSlash r.text) : r.text = [47] := by
  obtain ⟨front,whole⟩ := getLast?_eq_some_iff.mp (eq_of_beq ended)
  have last : [] ∈ (fields 47 r.text).getLast? := by
    rw [whole,fieldsBoth]
    exact getLast?_concat
  rw [fieldsText] at last
  by_cases bare : r.parts = []
  · cases abs : r.absolute with
    | true => rw [text,abs,bare]; rfl
    | false => simp [bare,abs,dot] at last
  obtain ⟨p,ps,given⟩ := exists_cons_of_ne_nil bare
  have inside : (p :: ps).getLast? = some [] := by
    rw [if_neg bare,given] at last
    cases abs : r.absolute <;> (rw [abs] at last; exact last)
  exact absurd rfl (r.partsFree [] (given ▸ mem_of_getLast? inside)).1

end

section
variable {r : Route} {way : List Bytes} (named : Names way)

def start : Route := ⟨false,[],.start⟩

theorem startIntoParts : (start.into way named).parts = way := intoParts named

theorem startInto : (start.into way named).text = joinParts false way :=
  congrArg (joinParts false) (startIntoParts named)

theorem joinedStays (named : Names way) : isAbsolute (joinParts false way) = false := by
  rw [← startInto named,textAbsolute]
  rfl

theorem relativeParts {w} (relative : isAbsolute w = false) : (ofPath w).parts = cleanParts false (fields 47 w) := by
  rw [← relative]
  rfl

/-- The route that goes another one, from where this one ends. -/
def along (r w : Route) : Route :=
  ⟨r.absolute,w.parts.foldl (pushPart r.absolute) r.gone,foldTidy (fun p mem => (w.partsFree p mem).2.2) r.tidy⟩

theorem alongGone (r w : Route) : (r.along w).gone = w.parts.foldl (pushPart r.absolute) r.gone := rfl

theorem joinAlong {a w} (full : a ≠ []) (relative : isAbsolute w = false) :
    joinPaths a w = ((ofPath a).along (ofPath w)).text := by
  obtain ⟨c,a,rfl⟩ := exists_cons_of_ne_nil full
  have whole : ofPath (c :: a ++ 47 :: w) = (ofPath (c :: a)).along (ofPath w) := by
    refine Route.ext rfl ?_
    show (fields 47 (c :: a ++ 47 :: w)).foldl (pushPart (isAbsolute (c :: a))) [] = _
    rw [fieldsBoth,foldl_append]
    rw [alongGone,relativeParts relative]
    exact pushCleaned .start (fieldsFreeOf w)
  exact congrArg text whole

theorem alongInto : r.along (start.into way named) = r.into way named :=
  Route.ext rfl (by rw [alongGone,intoParts]; exact pushNames named r.gone)

theorem joinInto {a} (full : a ≠ []) (named : Names way) : joinPaths a (joinParts false way) = ((ofPath a).into way named).text := by
  rw [joinAlong full (joinedStays named),← startInto named,ofText,alongInto]

theorem joinName {n} (name : isName n) : joinPaths r.text n = (r.into [n] (forall_mem_singleton.mpr name)).text := by
  have joined := joinInto r.textSome (forall_mem_singleton.mpr name)
  rwa [ofText,joinParts,if_neg Bool.false_ne_true,if_neg (by simp),intercalate_singleton] at joined

theorem joinNames : way.foldl joinPaths r.text = (r.into way named).text := by
  induction way generalizing r with
  | nil => rfl
  | cons n way ih =>
    obtain ⟨name,others⟩ := forall_mem_cons.mp named
    rw [foldl_cons,joinName name,ih others,intoInto]
    rfl

end

end Route

def LeadsTo (place path : Bytes) : Prop := ∃ way, Names way ∧ way.foldl joinPaths place = path

end Cascade
