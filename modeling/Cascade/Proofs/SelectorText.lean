import Cascade.Proofs.SelectorLanguage

/-! Selectors cut into the tokens they are spelled with. -/
namespace Cascade
open List
open Component (text spell texts spellAll)

def followBytes : Bytes := combinatorBytes ++ [35,41,44,46,58]

def Follows (after : Bytes) : Prop := ∀ b ∈ after.head?, b ∈ followBytes

structure Leads (s : Bytes) : Prop where
  solid : ∀ b ∈ s.head?, isBlankByte b = false
  plain : ∀ b ∈ s.head?, b ≠ 61
  wordy : startsNumber (43 :: s) = false

section
variable {after s : Bytes}

theorem followsNot (follows : Follows after) {b} (other : b ∉ followBytes) :
    after.head? ≠ some b := fun here => other (follows b here)

theorem followsBreaks (follows : Follows after) : ∀ b ∈ after.head?, breaksName b := by
  have breaks : followBytes.all breaksName := rfl
  exact fun b here => all_eq_true.mp breaks b (follows b here)

theorem followsCons {b} (follows : b ∈ followBytes) : Follows (b :: s) := by
  intro c mem
  rwa [← Option.some.inj mem]

theorem wordStart {x} (word : identLength (x :: s) ≠ 0) :
    isBlankByte x = false ∧ isDigit x = false ∧ x ≠ 46 ∧ x ≠ 61 ∧ x ≠ 124 ∧ x ≠ 42 := by
  by_cases hyphen : x = 45
  · subst hyphen
    decide
  rw [identLengthPlain hyphen] at word
  have start := plainIdentStart word
  have digit := (startNoDigit start).1
  by_cases escape : x = 92
  · subst escape
    decide
  · have other := startOther (show isNameStart x by simpa [escape] using start)
    simp only [otherStarts,forall_mem_cons] at other
    simp [isBlankByte,digit,other]

theorem leadsByte {x} (solid : isBlankByte x = false) (plain : x ≠ 61) (digit : isDigit x = false)
    (point : x ≠ 46) : Leads (x :: s) := by
  refine ⟨?_,?_,?_⟩
  · intro b mem
    rwa [← Option.some.inj mem]
  · intro b mem
    rwa [← Option.some.inj mem]
  · simp [startsNumber,signLength,digit,point]

theorem wordCons {name} (ends : EndsName name after) : ∃ x u, name = x :: u ∧ identLength (x :: (u ++ after)) ≠ 0 := by
  have word := endsNameSome ends
  cases name with
  | nil => exact absurd rfl ends.1
  | cons x u => exact ⟨x,u,rfl,word⟩

theorem dotToken {name} (ends : EndsName name after) :
    tokens (46 :: (name ++ after)) = ⟨.delim,[46]⟩ :: tokens (name ++ after) := by
  obtain ⟨x,u,rfl,word⟩ := wordCons ends
  obtain ⟨_,digit,_⟩ := wordStart word
  have number : numeric (46 :: x :: (u ++ after)) = none := by simp [numeric,startsNumber,signLength,digit]
  have first : firstToken 46 (x :: u ++ after) = (.delim,1) := by simp [firstToken,isBlankByte,number,orDelim]
  rw [tokensCons,first]
  rfl

theorem barToken (plain : s.head? ≠ some 61) (single : s.head? ≠ some 124) :
    tokens (124 :: s) = ⟨.delim,[124]⟩ :: tokens s := by
  have first : firstToken 124 s = (.delim,1) := by simp [firstToken,isBlankByte,plain,single]
  rw [tokensCons,first]
  rfl

theorem starToken (plain : s.head? ≠ some 61) : tokens (42 :: s) = ⟨.delim,universal⟩ :: tokens s := by
  have first : firstToken 42 s = (.delim,1) := by simp [firstToken,isBlankByte,plain]
  rw [tokensCons,first]
  rfl

theorem combinatorTokens {kind} (joins : kind ∈ combinatorBytes) (leads : Leads s) :
    tokens (kind :: s) = combinatorToken kind :: tokens s := by
  have plain : s.head? ≠ some 61 := fun here => leads.plain 61 here rfl
  have number : numeric (43 :: s) = none := by simp [numeric,leads.wordy]
  simp only [combinatorBytes,mem_cons,not_mem_nil,or_false] at joins
  rcases joins with rfl | rfl | rfl | rfl
  · exact tokensSpace leads.solid
  · have first : firstToken 62 s = (.delim,1) := by
      have word : identLike (62 :: s) = none := identLikeNone rfl
      simp [firstToken,isBlankByte,numeric,startsNumber,signLength,isDigit,word,orDelim]
    rw [tokensCons,first]
    rfl
  · have first : firstToken 43 s = (.delim,1) := by simp [firstToken,isBlankByte,number,orDelim]
    rw [tokensCons,first]
    rfl
  · have first : firstToken 126 s = (.delim,1) := by simp [firstToken,isBlankByte,plain]
    rw [tokensCons,first]
    rfl

end

theorem lowerByteSmall {b} (small : lowerByte b < 0x80) : b < 0x80 := by
  rw [lowerByte] at small
  split at small
  · rename_i upper
    simp only [isUpperLetter,Bool.and_eq_true,decide_eq_true_eq] at upper
    grind
  · exact small

theorem selectorFunctionName {name} (takes : lower name ∈ selectorFunctions) : isUrlName name = false := by
  cases url : isUrlName name with
  | false => rfl
  | true =>
    rw [isUrlName,beq_iff_eq] at url
    have letters : ∀ b ∈ name, b = 92 ∨ lowerByte b ∈ ascii "url" := by
      intro b mem
      by_cases escape : b = 92
      · exact .inl escape
      · rw [← url]
        exact .inr (mem_map_of_mem (mem_filter.mpr ⟨mem,by simpa using escape⟩))
    have small : ∀ b ∈ lowerAscii name, b ∈ ascii "\\url" := by
      refine forall_mem_map.mpr fun c there => ?_
      rcases letters c there with rfl | letter
      · decide
      · exact mem_cons_of_mem _ letter
    have plain : name.all (· < 0x80) := by
      refine all_eq_true.mpr fun b mem => decide_eq_true ?_
      rcases letters b mem with rfl | letter
      · decide
      · have small : (ascii "url").all (· < 0x80) := rfl
        exact lowerByteSmall (of_decide_eq_true (all_eq_true.mp small _ letter))
    rw [lowerOfAscii plain] at takes
    obtain ⟨b,mem,other⟩ := (by decide : ∀ f ∈ selectorFunctions, ∃ b ∈ f, b ∉ ascii "\\url") _ takes
    exact absurd (small b mem) other

section
variable {after name ns : Bytes}

theorem typeStart (type : TypeName endedName name after) :
    ∃ x u, name = x :: u ∧ isBlankByte x = false ∧ isDigit x = false ∧ x ≠ 46 ∧ x ≠ 61 ∧ x ≠ 124 := by
  rcases type with rfl | ⟨ends,_⟩
  · exact ⟨42,[],rfl,by decide⟩
  · obtain ⟨x,u,rfl,word⟩ := wordCons ends
    obtain ⟨solid,digit,point,equals,bar,_⟩ := wordStart word
    exact ⟨x,u,rfl,solid,digit,point,equals,bar⟩

theorem typeTokens (type : TypeName endedName name after) (word : after.head? ≠ some 40)
    (plain : after.head? ≠ some 61) : tokens (name ++ after) = typeToken name :: tokens after := by
  rcases type with rfl | ⟨ends,range⟩
  · exact starToken plain
  have other : name ≠ universal := by
    rintro rfl
    obtain ⟨x,u,same,begins⟩ := wordCons ends
    obtain ⟨rfl,_⟩ := List.cons.inj same
    exact (wordStart begins).2.2.2.2.2 rfl
  rw [typeToken,if_neg other]
  exact wordToken ends word range

theorem elementTokens {hasNs} (type : TypeIn endedName after name ns hasNs) (follows : Follows after) :
    tokens ((Component.element name ns hasNs).text ++ after) =
      (Component.element name ns hasNs).spell ++ tokens after := by
  have word : after.head? ≠ some 40 := followsNot follows (by decide)
  have plain : after.head? ≠ some 61 := followsNot follows (by decide)
  rw [text,spell]
  cases hasNs with
  | false => exact typeTokens type.2 word plain
  | true =>
    obtain ⟨space,type⟩ := type
    have last := typeTokens type word plain
    have bar : tokens (124 :: (name ++ after)) = ⟨.delim,[124]⟩ :: typeToken name :: tokens after := by
      obtain ⟨x,u,rfl,_,_,_,equals,bar⟩ := typeStart type
      rw [barToken (by simpa using equals) (by simpa using bar),last]
    rw [if_pos rfl,if_pos rfl,append_assoc]
    split
    · rename_i bare
      rw [bare]
      exact bar
    · rename_i full
      have first := typeTokens (space.resolve_left full) (by simp) (by simp)
      rw [cons_append,first,bar]
      rfl

theorem elementLeads {hasNs} (type : TypeIn endedName after name ns hasNs) :
    Leads ((Component.element name ns hasNs).text ++ after) := by
  have typeLeads : ∀ {name after : Bytes}, TypeName endedName name after → Leads (name ++ after) := by
    intro name after type
    obtain ⟨x,u,rfl,solid,digit,point,equals,_⟩ := typeStart type
    exact leadsByte solid equals digit point
  rw [text]
  cases hasNs with
  | false => exact typeLeads type.2
  | true =>
    rw [if_pos rfl,append_assoc]
    rcases type.1 with rfl | space
    · exact leadsByte rfl (by decide) rfl (by decide)
    · exact typeLeads space

end

section
variable {after : Bytes}

theorem conditionStart {rule c} (condition : ConditionIn rule after c) : ∃ b u, c.text = b :: u ∧ b ∈ [35,46,58] := by
  cases condition <;> rw [text] <;> exact ⟨_,_,rfl,by decide⟩

theorem conditionsFollow {rule cs} (conditions : ConditionsIn rule after cs)
    (follows : Follows after) : Follows (conditionsText cs ++ after) := by
  cases conditions with
  | nil => exact follows
  | cons first rest =>
    obtain ⟨b,u,spelled,sign⟩ := conditionStart first
    rw [conditionsText,texts,flatten_cons,spelled]
    have signs : ([35,46,58] : Bytes).all followBytes.contains := rfl
    exact followsCons (contains_iff_mem.mp (all_eq_true.mp signs b sign))

theorem conditionLeads {c} (condition : ConditionIn endedName after c) : Leads (c.text ++ after) := by
  cases condition with
  | className fits =>
    obtain ⟨x,u,rfl,word⟩ := wordCons fits.1
    obtain ⟨_,digit,_⟩ := wordStart word
    refine ⟨?_,?_,?_⟩
    · rintro b ⟨⟩
      rfl
    · rintro b ⟨⟩
      decide
    · simp [text,startsNumber,signLength,digit]
  | id | pseudoClass | pseudoElement | negation | selectorCall =>
    rw [text]
    exact leadsByte rfl (by decide) rfl (by decide)

theorem compoundLeads {cs} (compound : CompoundIn endedName after cs) : Leads (conditionsText cs ++ after) := by
  cases compound with
  | conditions first rest =>
    rw [conditionsText,texts,flatten_cons,append_assoc]
    exact conditionLeads first
  | element type rest =>
    rw [conditionsText,texts,flatten_cons,append_assoc]
    exact elementLeads type

end

theorem pseudoTokens {name after : Bytes} {s : Component} (fits : EndsName name (40 :: (s.text ++ 41 :: after)))
    (call : isUrlName name = false) (inner : tokens (s.text ++ 41 :: after) = s.spell ++ tokens (41 :: after)) :
    tokens (58 :: (name ++ parenthesized s.text ++ after)) =
      Token.colon :: ⟨.function,name ++ [40]⟩ :: (s.spell ++ [rightParen]) ++ tokens after := by
  have opens : EndsName name [40] := fits
  simp only [parenthesized,append_assoc,cons_append,nil_append]
  rw [tokensColon,functionToken opens call,inner,tokensShut]

mutual

theorem conditionTokens : ∀ {after : Bytes} {c : Component}, ConditionIn endedName after c → Follows after →
    tokens (c.text ++ after) = c.spell ++ tokens after
  | _,_,.className fits,follows => by
    rw [text,spell,cons_append,dotToken fits.1,
      wordToken fits.1 (followsNot follows (by decide)) fits.2]
    rfl
  | _,_,.id fits,follows => by
    rw [text,spell,cons_append]
    exact hashToken fits.1 (followsBreaks follows) fits.2
  | _,_,.pseudoClass fits,follows => by
    rw [text,spell,cons_append,tokensColon,
      wordToken fits.1 (followsNot follows (by decide)) fits.2]
    rfl
  | _,_,.pseudoElement fits,follows => by
    rw [text,spell,cons_append,tokensColon,cons_append,tokensColon,
      wordToken fits.1 (followsNot follows (by decide)) fits.2]
    rfl
  | after,_,.negation inner,_ => by
    rw [text,spell]
    have ends : EndsName (ascii "not") [40] := by decide
    exact pseudoTokens ends rfl (argumentTokens inner (followsCons (by decide)))
  | _,_,.selectorCall fits takes inner,_ => by
    rw [text,spell]
    exact pseudoTokens fits.1 (selectorFunctionName takes) (argumentTokens inner (followsCons (by decide)))

theorem conditionsTokens : ∀ {after : Bytes} {cs : List Component}, ConditionsIn endedName after cs → Follows after →
    tokens (conditionsText cs ++ after) = (spellAll cs).flatten ++ tokens after
  | _,_,.nil,_ => rfl
  | _,_,.cons first rest,follows => by
    rw [conditionsText,texts,flatten_cons,append_assoc,spellAll,flatten_cons,
      append_assoc,← conditionsTokens rest follows]
    exact conditionTokens first (conditionsFollow rest follows)

theorem compoundTokens : ∀ {after : Bytes} {cs : List Component}, CompoundIn endedName after cs → Follows after →
    tokens (conditionsText cs ++ after) = (spellAll cs).flatten ++ tokens after
  | _,_,.conditions first rest,follows => conditionsTokens (.cons first rest) follows
  | _,_,.element type rest,follows => by
    rw [conditionsText,texts,flatten_cons,append_assoc,spellAll,flatten_cons,
      append_assoc,← conditionsTokens rest follows]
    exact elementTokens type (conditionsFollow rest follows)

theorem chainTokens : ∀ {after : Bytes} {s : Component}, ChainIn endedName after s → Follows after →
    tokens (s.text ++ after) = s.spell ++ tokens after
  | _,_,.compound last,follows => by
    rw [text,spell]
    exact compoundTokens last follows
  | after,_,@ChainIn.complex _ _ kind s cs joins left last,follows => by
    have joint : Follows (kind :: (conditionsText cs ++ after)) :=
      followsCons (mem_append_left _ joins)
    have first := chainTokens left joint
    rw [combinatorTokens joins (compoundLeads last),compoundTokens last follows] at first
    simp only [text,spell,append_assoc,cons_append,nil_append]
    exact first

theorem selectorsTokens : ∀ {after : Bytes} {ss : List Component}, SelectorsIn endedName after ss → Follows after →
    tokens (selectorsText ss ++ after) = [Token.comma].intercalate (spellAll ss) ++ tokens after
  | _,_,.last only,follows => by
    simpa [selectorsText,texts,spellAll] using chainTokens only follows
  | after,_,@SelectorsIn.cons _ _ s t ss first rest,follows => by
    have text : selectorsText (s :: t :: ss) ++ after = s.text ++ 44 :: (selectorsText (t :: ss) ++ after) := by
      simp [selectorsText,texts]
    have comma : ∀ u, tokens (44 :: u) = Token.comma :: tokens u := fun _ => rfl
    rw [text,chainTokens first (followsCons (by decide)),comma,selectorsTokens rest follows]
    simp [spellAll]

theorem argumentTokens : ∀ {after : Bytes} {s : Component}, ArgumentIn endedName after s → Follows after →
    tokens (s.text ++ after) = s.spell ++ tokens after
  | _,_,.single only,follows => chainTokens only follows
  | _,_,.list several,follows => by
    rw [text,spell]
    exact selectorsTokens several follows

end

end Cascade
