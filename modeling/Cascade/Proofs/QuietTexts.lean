import Cascade.Proofs.Identifiers
import Cascade.Proofs.CompactNumbers

/-! Texts that show the mark of a vendor, a colon with a hyphen behind it, and texts that show none. Names show none
and leave no quotes open, in whatever case they are, and neither do numbers and counting formulas. -/
namespace Cascade
open List

/- Where one stands in a text: behind a backslash, behind a colon, or between quotes of either kind. -/
inductive Spot where
  | plain
  | colon
  | escape
  | quoted (double : Bool)
  | quotedEscape (double : Bool)
  deriving DecidableEq

def Spot.next : Spot → UInt8 → Spot
  | .plain,b | .colon,b =>
    if b = 92 then .escape else if b = 34 then .quoted true else if b = 39 then .quoted false
    else if b = 58 then .colon else .plain
  | .escape,_ => .plain
  | .quoted double,b =>
    if b = 92 then .quotedEscape double else if b = (if double then 34 else 39) then .plain else .quoted double
  | .quotedEscape double,_ => .quoted double

def Spot.after (p : Spot) (s : Bytes) : Spot := s.foldl Spot.next p

def marksFrom : Spot → Bytes → Bool
  | _,[] => false
  | p,b :: s => (p == .colon && b == 45) || marksFrom (p.next b) s

def showsMark (s : Bytes) : Bool := marksFrom .plain s

structure Shows (s : Bytes) (mark : Bool) : Prop where
  ends : Spot.plain.after s = .plain
  marks : showsMark s = mark

section

theorem afterAppend (p : Spot) (s t) : p.after (s ++ t) = (p.after s).after t := foldl_append

theorem marksAppend (p s t) : marksFrom p (s ++ t) = (marksFrom p s || marksFrom (p.after s) t) := by
  induction s generalizing p with
  | nil => rfl
  | cons b s ih => rw [cons_append,marksFrom,marksFrom,ih,Bool.or_assoc,Spot.after,Spot.after,foldl_cons]

variable {s t : Bytes} {a b : Bool}

theorem showsNil : Shows [] false := ⟨rfl,rfl⟩

theorem Shows.append (first : Shows s a) (second : Shows t b) : Shows (s ++ t) (a || b) := by
  refine ⟨?_,?_⟩
  · rw [afterAppend,first.ends,second.ends]
  · rw [← first.marks,← second.marks,showsMark,marksAppend,first.ends]
    rfl

def isSign (b : UInt8) : Bool := b == 34 || b == 39 || b == 58 || b == 92

def Calm (s : Bytes) : Prop := ∀ b ∈ s, isSign b = false

theorem signFree {b} (calm : isSign b = false) : b ≠ 34 ∧ b ≠ 39 ∧ b ≠ 58 ∧ b ≠ 92 := by
  simpa [isSign,and_assoc] using calm

theorem calmShows (calm : Calm s) : Shows s false := by
  induction s with
  | nil => exact showsNil
  | cons b s ih =>
    obtain ⟨here,rest⟩ := forall_mem_cons.mp calm
    obtain ⟨double,single,colon,slash⟩ := signFree here
    have stays : Spot.plain.next b = .plain := by simp [Spot.next,double,single,colon,slash]
    refine ⟨?_,?_⟩
    · rw [Spot.after,foldl_cons,stays]
      exact (ih rest).ends
    · rw [showsMark,marksFrom,stays]
      exact (ih rest).marks

theorem allCalm (all : (s.all fun b => !isSign b)) : Calm s := by
  simpa [Calm] using all

theorem calmAppend (first : Calm s) (second : Calm t) : Calm (s ++ t) :=
  fun b mem => (mem_append.mp mem).elim (first b) (second b)

theorem parenShows (inner : Shows s a) : Shows (parenthesized s) a := by
  have opens : Shows [40] false := ⟨rfl,rfl⟩
  have closes : Shows [41] false := ⟨rfl,rfl⟩
  simpa [parenthesized] using (opens.append inner).append closes

theorem colonShows (full : s ≠ []) (name : Shows s a) : Shows (58 :: s) (s.head? == some 45 || a) := by
  cases s with
  | nil => exact absurd rfl full
  | cons b s =>
    have first : showsMark (b :: s) = marksFrom (Spot.plain.next b) s := rfl
    have whole : showsMark (58 :: b :: s) = (b == 45 || marksFrom (Spot.plain.next b) s) := rfl
    refine ⟨name.ends,?_⟩
    rw [whole,← name.marks,first,head?_cons]
    simp

theorem pairShows (full : s ≠ []) (name : Shows s a) : Shows (58 :: 58 :: s) (s.head? == some 45 || a) :=
  ⟨(colonShows full name).ends,(colonShows full name).marks⟩

end

structure QuietName (s : Bytes) : Prop where
  full : s ≠ []
  shows : Shows s false

section
variable {s : Bytes}

theorem nameByteCalm {b} (name : isNameByte b) : isSign b = false := by
  unfold isNameByte isNameStart isLetter isLowerLetter isUpperLetter isDigit at name
  unfold isSign
  grind

theorem hexCalm {b} (hex : isHexDigit b) : isSign b = false := by
  refine nameByteCalm ?_
  unfold isHexDigit at hex
  unfold isNameByte isNameStart isLetter isLowerLetter isUpperLetter
  grind

theorem blankCalm {b} (blank : isBlankByte b) : isSign b = false := by
  unfold isBlankByte at blank
  unfold isSign
  grind

theorem escapedShows (b) (calm : Calm s) : Shows (92 :: b :: s) false :=
  ⟨(calmShows calm).ends,(calmShows calm).marks⟩

theorem escapeShows {e} (code : IsEscape e) : Shows (92 :: e) false := by
  cases code with
  | @code d ds blank _ digits ends =>
    refine escapedShows d (calmAppend (fun b mem => hexCalm (digits b mem)) ?_)
    rcases ends with rfl | ⟨b,space,rfl⟩
    · exact forall_mem_nil _
    · exact forall_mem_singleton.mpr (blankCalm space)
  | character _ high => exact escapedShows _ fun b mem => nameByteCalm (by simp [isNameByte,isNameStart,high b mem])

theorem speltShows (spelt : Spelt s) : Shows s false := by
  induction spelt with
  | nil => exact showsNil
  | byte name _ ih => exact (calmShows (forall_mem_singleton.mpr (nameByteCalm name))).append ih
  | escape code _ ih => exact (escapeShows code).append ih

theorem nameQuiet (name : IsName s) : QuietName s := ⟨name.full,speltShows name.spelt⟩

end

structure Inert (s : Bytes) : Prop where
  full : s ≠ []
  calm : Calm s
  even : 45 ∉ s

/- A text and its lower case, byte by byte where the bytes are plain and by runs of others elsewhere. -/
inductive Recast : Bytes → Bytes → Prop where
  | nil : Recast [] []
  | byte {b : UInt8} {s t : Bytes} (rest : Recast s t) : Recast (b :: s) (lowerByte b :: t)
  | run {p q s t : Bytes} (left : Inert p) (right : Inert q) (rest : Recast s t) : Recast (p ++ s) (q ++ t)

section
variable {s t : Bytes}

def Spot.settle : Spot → Spot
  | .plain | .colon | .escape => .plain
  | .quoted double | .quotedEscape double => .quoted double

theorem settleNext {b} (calm : isSign b = false) (p : Spot) : p.next b = p.settle := by
  obtain ⟨double,single,colon,slash⟩ := signFree calm
  cases p with
  | quoted kind => cases kind <;> simp [Spot.next,Spot.settle,double,single,slash]
  | _ => simp [Spot.next,Spot.settle,double,single,colon,slash]

theorem settleTwice (p : Spot) : p.settle.settle = p.settle := by
  cases p <;> rfl

theorem inertHead {b} {q : Bytes} (inert : Inert (b :: q)) : isSign b = false ∧ (b == 45) = false := by
  refine ⟨inert.calm b mem_cons_self,beq_eq_false_iff_ne.mpr ?_⟩
  rintro rfl
  exact inert.even mem_cons_self

theorem inertScan {q} (inert : Inert q) (p) : p.after q = p.settle ∧ marksFrom p q = false := by
  induction q generalizing p with
  | nil => exact absurd rfl inert.full
  | cons b q ih =>
    obtain ⟨calm,other⟩ := inertHead inert
    rw [Spot.after,foldl_cons,marksFrom,settleNext calm,other,Bool.and_false,Bool.false_or]
    cases q with
    | nil => exact ⟨rfl,rfl⟩
    | cons c q =>
      have rest : Inert (c :: q) := ⟨cons_ne_nil c q,fun d mem => inert.calm d (mem_cons_of_mem b mem),
        fun mem => inert.even (mem_cons_of_mem b mem)⟩
      have more := ih rest p.settle
      rwa [settleTwice] at more

theorem lowerByteSign (b) : isSign (lowerByte b) = isSign b ∧ (lowerByte b == 45) = (b == 45) ∧
    (isSign b → lowerByte b = b) := by
  unfold lowerByte isUpperLetter isSign
  split
  · grind
  · exact ⟨rfl,rfl,fun _ => rfl⟩

theorem lowerByteNext (p : Spot) (b) : p.next (lowerByte b) = p.next b := by
  obtain ⟨same,_,fixed⟩ := lowerByteSign b
  cases sign : isSign b with
  | true => rw [fixed sign]
  | false => rw [settleNext sign,settleNext (same.trans sign)]

theorem recastScan (recast : Recast s t) (p) : p.after t = p.after s ∧ marksFrom p t = marksFrom p s := by
  induction recast generalizing p with
  | nil => exact ⟨rfl,rfl⟩
  | @byte b s t _ ih =>
    obtain ⟨ends,marks⟩ := ih (p.next b)
    rw [Spot.after,foldl_cons,marksFrom,lowerByteNext,(lowerByteSign b).2.1,marks]
    exact ⟨ends,rfl⟩
  | @run u v s t left right _ ih =>
    obtain ⟨endsU,noneU⟩ := inertScan left p
    obtain ⟨endsV,noneV⟩ := inertScan right p
    obtain ⟨ends,marks⟩ := ih p.settle
    rw [afterAppend,afterAppend,marksAppend,marksAppend,endsU,endsV,noneU,noneV,marks]
    exact ⟨ends,rfl⟩

theorem inertNoHyphen {q} (inert : Inert q) (s) : ((q ++ s).head? == some 45) = false := by
  cases q with
  | nil => exact absurd rfl inert.full
  | cons b q => exact (inertHead inert).2

theorem recastHead (recast : Recast s t) : (t.head? == some 45) = (s.head? == some 45) ∧ (t = [] → s = []) := by
  cases recast with
  | nil => exact ⟨rfl,fun _ => rfl⟩
  | @byte b _ _ _ => exact ⟨(lowerByteSign b).2.1,nofun⟩
  | run left right _ =>
    refine ⟨?_,fun bare => absurd (append_eq_nil_iff.mp bare).1 right.full⟩
    rw [inertNoHyphen left,inertNoHyphen right]

theorem recastCalm (recast : Recast s t) (calm : Calm s) : Calm t := by
  induction recast with
  | nil => exact calm
  | @byte b _ _ _ ih =>
    obtain ⟨here,rest⟩ := forall_mem_cons.mp calm
    exact forall_mem_cons.mpr ⟨(lowerByteSign b).1.trans here,ih rest⟩
  | run _ right _ ih => exact calmAppend right.calm (ih (forall_mem_append.mp calm).2)

theorem inertLetters (full : s ≠ []) (letters : ∀ b ∈ s, isNameStart b) : Inert s :=
  ⟨full,fun b mem => nameByteCalm (letterName (letters b mem)),fun mem => by cases letters 45 mem⟩

theorem loweredRecast (lowered : Lowered s t) : Recast s t := by
  induction lowered with
  | nil => exact .nil
  | byte _ _ ih => exact .byte ih
  | run left right _ ih =>
    have first := inertLetters (cons_ne_nil _ _) fun b mem => (nameStartHigh (UInt8.le_iff_toNat_le.mp (left b mem))).1
    have other := inertLetters (cons_ne_nil _ _) fun b mem => (right b mem).1
    exact .run first other ih

theorem lowerRecast (s) : Recast s (lower s) := loweredRecast (lowerLowered s)

theorem lowerQuiet (name : QuietName s) : QuietName (lower s) := by
  obtain ⟨ends,marks⟩ := recastScan (lowerRecast s) .plain
  refine ⟨fun bare => name.full ((recastHead (lowerRecast s)).2 bare),?_⟩
  exact ⟨ends.trans name.shows.ends,marks.trans name.shows.marks⟩

end

theorem numberCalm (f) : Calm (compactNumber f) := by
  intro b mem
  have numeric := (numberNumeric f).2 b mem
  simp only [isNumeric,Bool.or_eq_true,beq_iff_eq] at numeric
  rcases numeric with (digit | rfl) | rfl
  · exact nameByteCalm (by simp [isNameByte,digit])
  · rfl
  · rfl

theorem stepCalm (step) : Calm (stepText step) := by
  unfold stepText
  split
  · exact allCalm rfl
  split
  · exact allCalm rfl
  · split
    · exact allCalm rfl
    · exact calmAppend (numberCalm step) (allCalm rfl)

theorem linearCalm (step offset) : Calm (linearText [] step offset) := by
  unfold linearText
  rw [append_nil,append_nil]
  refine calmAppend (calmAppend (stepCalm step) ?_) (numberCalm _)
  split <;> exact allCalm rfl

structure Counts (formula : Component) : Prop where
  is : formula.isFormula = true
  calm : Calm formula.text

theorem countsLowered (ctx) {f} (counts : Counts f) : Counts (finishFormula (f.again ctx)) := by
  obtain ⟨is,calm⟩ := counts
  cases f with
  | ident name => exact ⟨rfl,recastCalm (lowerRecast name) calm⟩
  | number value => exact ⟨rfl,calm⟩
  | multiple step => exact ⟨rfl,calm⟩
  | linear step offset =>
    have once : (Component.linear step offset).again ctx =
        if offset == 0.0 then .multiple step else .linear step offset := rfl
    rw [once]
    split
    · exact ⟨rfl,stepCalm step⟩
    rw [finishFormula]
    split
    · exact ⟨rfl,allCalm rfl⟩
    · exact ⟨rfl,calm⟩
  | _ => cases is

theorem nthCounts {s f} (read : nthOfText s = some f) : Counts f := by
  unfold nthOfText at read
  split at read
  · rename_i word
    cases read
    refine ⟨rfl,?_⟩
    rcases word with rfl | rfl
    · exact allCalm rfl
    · exact allCalm rfl
  · split at read
    · split at read
      · cases read
        exact ⟨rfl,numberCalm _⟩
      · cases read
    split at read
    · cases read
    split at read
    · cases read
      exact ⟨rfl,stepCalm _⟩
    split at read
    · cases read
      exact ⟨rfl,linearCalm _ _⟩
    · cases read

end Cascade
