import Cascade.Value.Reader

/-! Numbers as they are written, and where they end. A number is read up to the unit behind it, unless the unit goes
on with it. -/
namespace Cascade
open List

def IsDigits (s : Bytes) : Prop := s ≠ [] ∧ ∀ b ∈ s, isDigit b

def IsSign (s : Bytes) : Prop := s = [] ∨ s = [43] ∨ s = [45]

def IsFraction (s : Bytes) : Prop := ∃ digits, IsDigits digits ∧ s = 46 :: digits

def IsExponent (s : Bytes) : Prop :=
  ∃ mark sign digits, (mark = 101 ∨ mark = 69) ∧ IsSign sign ∧ IsDigits digits ∧ s = mark :: (sign ++ digits)

/- A number by its parts. Only the digits on one side of the point can be missing. -/
structure NumberText where
  sign : Bytes
  whole : Bytes
  fraction : Bytes
  exponent : Bytes
  signed : IsSign sign
  digits : ∀ b ∈ whole, isDigit b
  pointed : fraction = [] ∨ IsFraction fraction
  filled : whole ≠ [] ∨ fraction ≠ []
  raised : exponent = [] ∨ IsExponent exponent

def NumberText.text (n : NumberText) : Bytes := n.sign ++ (n.whole ++ (n.fraction ++ n.exponent))

/- A unit that does not go on with the number before it. -/
structure NumberText.EndsBefore (n : NumberText) (unit : Bytes) : Prop where
  digit : ∀ b ∈ unit.head?, isDigit b = false
  point : n.fraction = [] → n.exponent = [] → ∀ d rest, unit = 46 :: d :: rest → isDigit d = false
  power : n.exponent = [] → ∀ e rest, IsExponent e → unit ≠ e ++ rest

variable {s rest : Bytes}

theorem signRun (signed : IsSign s) (plain : ∀ b ∈ rest.head?, b ≠ 43 ∧ b ≠ 45) : signLength (s ++ rest) = s.length := by
  rcases signed with rfl | rfl | rfl
  · cases rest with
    | nil => rfl
    | cons b rest => simp [signLength,plain b rfl]
  · rfl
  · rfl

theorem digitsRun (digits : ∀ b ∈ s, isDigit b) (ends : ∀ b ∈ rest.head?, isDigit b = false) :
    digitRun (s ++ rest) = s.length := by
  have bare : rest.takeWhile isDigit = [] := by
    cases rest with
    | nil => rfl
    | cons b rest => rw [takeWhile_cons,if_neg (by simp [ends b rfl])]
  rw [digitRun,takeWhile_append_of_pos digits,bare,append_nil]

theorem digitUnsigned {b} (digit : isDigit b) : b ≠ 43 ∧ b ≠ 45 :=
  ⟨(by rintro rfl; cases digit),(by rintro rfl; cases digit)⟩

theorem fractionRun (pointed : IsFraction s) (ends : ∀ b ∈ rest.head?, isDigit b = false) :
    fractionLength (s ++ rest) = s.length := by
  obtain ⟨digits,⟨filled,each⟩,rfl⟩ := pointed
  obtain ⟨d,u,rfl⟩ := exists_cons_of_ne_nil filled
  show (if isDigit d then digitRun (d :: u ++ rest) + 1 else 0) = _
  rw [if_pos (each d mem_cons_self),digitsRun each ends]
  rfl

theorem fractionNone (ends : ∀ d u, rest = 46 :: d :: u → isDigit d = false) : fractionLength rest = 0 := by
  unfold fractionLength
  split
  · exact if_neg (by simp [ends _ _ rfl])
  · rfl

theorem exponentRun (raised : IsExponent s) (ends : ∀ b ∈ rest.head?, isDigit b = false) :
    exponentLength (s ++ rest) = s.length := by
  obtain ⟨mark,sign,digits,marks,signed,⟨filled,each⟩,rfl⟩ := raised
  obtain ⟨d,u,rfl⟩ := exists_cons_of_ne_nil filled
  have first : signLength (sign ++ (d :: u ++ rest)) = sign.length :=
    signRun signed fun b head => Option.some.inj head ▸ digitUnsigned (each d mem_cons_self)
  rw [cons_append,exponentLength,if_pos (by simpa using marks),append_assoc,first]
  simp only [drop_left,digitsRun each ends,length_cons,length_append,Nat.add_one_ne_zero,if_false]
  omega

theorem exponentNone (ends : ∀ e u, IsExponent e → rest ≠ e ++ u) : exponentLength rest = 0 := by
  cases rest with
  | nil => rfl
  | cons b rest =>
    rw [exponentLength]
    by_cases mark : b == 101 || b == 69
    · rw [if_pos mark]
      refine if_pos (Decidable.byContradiction fun full => ?_)
      have signed : IsSign (rest.take (signLength rest)) := by
        unfold signLength IsSign
        split <;> simp
      refine ends (b :: (rest.take (signLength rest) ++ (rest.drop (signLength rest)).takeWhile isDigit))
        ((rest.drop (signLength rest)).dropWhile isDigit)
        ⟨b,_,_,by simpa using mark,signed,⟨length_pos_iff.mp (Nat.pos_of_ne_zero full),all_eq_true.mp all_takeWhile⟩,rfl⟩ ?_
      rw [cons_append,append_assoc,takeWhile_append_dropWhile,take_append_drop]
    · exact if_neg mark

theorem NumberText.first (n : NumberText) (rest) : ∀ b ∈ (n.whole ++ (n.fraction ++ rest)).head?, b ≠ 43 ∧ b ≠ 45 := by
  intro b head
  cases whole : n.whole with
  | cons c u =>
    rw [whole] at head
    exact Option.some.inj head ▸ digitUnsigned (n.digits c (whole ▸ mem_cons_self))
  | nil =>
    obtain ⟨digits,_,fraction⟩ := n.pointed.resolve_left (n.filled.resolve_left (· whole))
    rw [whole,fraction] at head
    cases head
    decide

theorem NumberText.length (n : NumberText) {unit} (ends : n.EndsBefore unit) : numberLength (n.text ++ unit) = n.text.length := by
  have exponent : exponentLength (n.exponent ++ unit) = n.exponent.length := by
    rcases n.raised with bare | raised
    · rw [bare]
      exact exponentNone (ends.power bare)
    · exact exponentRun raised ends.digit
  -- what follows the digits of the number starts with no digit, and behind no fraction not with one either
  have power : ∀ b ∈ (n.exponent ++ unit).head?, isDigit b = false := by
    rcases n.raised with bare | ⟨mark,_,_,rfl | rfl,_,_,form⟩
    · rw [bare]
      exact ends.digit
    all_goals
      rw [form]
      rintro _ ⟨⟩
      rfl
  have fraction : fractionLength (n.fraction ++ (n.exponent ++ unit)) = n.fraction.length := by
    rcases n.pointed with bare | pointed
    · rw [bare]
      refine fractionNone fun d rest start => ?_
      rcases n.raised with empty | ⟨mark,_,_,rfl | rfl,_,_,form⟩
      · rw [empty] at start
        exact ends.point bare empty d rest start
      all_goals
        rw [form] at start
        cases start
    · exact fractionRun pointed power
  have whole : digitRun (n.whole ++ (n.fraction ++ (n.exponent ++ unit))) = n.whole.length := by
    refine digitsRun n.digits ?_
    rcases n.pointed with bare | ⟨_,_,form⟩
    · rw [bare]
      exact power
    · rw [form]
      rintro _ ⟨⟩
      rfl
  have parts : n.text ++ unit = n.sign ++ (n.whole ++ (n.fraction ++ (n.exponent ++ unit))) := by
    simp only [text,append_assoc]
  rw [numberLength,parts,signRun n.signed (n.first _),drop_left,whole]
  simp only [← drop_drop,drop_left,fraction,exponent,text,length_append]
  omega

theorem NumberText.alone (n : NumberText) : numberLength n.text = n.text.length := by
  have ends : n.EndsBefore [] := by
    refine ⟨fun b bare => (by cases bare),fun _ _ d u bare => (by cases bare),fun _ e u raised bare => ?_⟩
    obtain ⟨mark,sign,digits,_,_,_,rfl⟩ := raised
    cases bare
  have length := n.length ends
  rwa [append_nil] at length

/- The number of a dimension is what is written before its unit. -/
theorem numberBeforeUnit (n : NumberText) (unit : Bytes) (ends : n.EndsBefore unit) :
    numberLength (n.text ++ unit) = n.text.length ∧
    tokenValue ⟨.dimension,n.text ++ unit⟩ = .dimension (numberOf n.text) unit := by
  have length := n.length ends
  refine ⟨length,?_⟩
  rw [tokenValue]
  simp only [length,take_left,drop_left]

/- A unit can start as an exponent does. -/
theorem ruleBeforeUnit : numberLength (ascii "-.5e-x2") = 3 ∧
    tokenValue ⟨.dimension,ascii "-.5e-x2"⟩ = .dimension (numberOf (ascii "-.5")) (ascii "e-x2") := by
  have fraction : IsFraction (ascii ".5") := ⟨[53],⟨cons_ne_nil _ _,forall_mem_singleton.mpr rfl⟩,rfl⟩
  let n : NumberText := ⟨[45],[],ascii ".5",[],.inr (.inr rfl),forall_mem_nil _,.inr fraction,.inr (cons_ne_nil _ _),.inl rfl⟩
  refine numberBeforeUnit n (ascii "e-x2") ⟨?_,fun bare => absurd bare (cons_ne_nil _ _),fun _ e rest => ?_⟩
  · rintro _ ⟨⟩
    rfl
  · rintro ⟨mark,sign,digits,_,signed,⟨filled,each⟩,rfl⟩ same
    obtain ⟨d,u,rfl⟩ := exists_cons_of_ne_nil filled
    have digit := each d mem_cons_self
    change [101,45,120,50] = _ at same
    rcases signed with rfl | rfl | rfl
    · obtain ⟨_,rfl,_⟩ : 101 = mark ∧ 45 = d ∧ _ := by simpa using same
      cases digit
    · simp at same
    · obtain ⟨_,rfl,_⟩ : 101 = mark ∧ 120 = d ∧ _ := by simpa using same
      cases digit

end Cascade
