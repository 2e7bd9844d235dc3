import Cascade.Proofs.NameEnds

/-! Where a token ends. The first token of a text that ends before a stop byte is the same
whatever stands behind the byte. -/
namespace Cascade
open List

variable {s : Bytes}

theorem signBound (s) : signLength s ≤ s.length := by
  rw [signLength.eq_def]
  split <;> simp

theorem digitBound (s) : digitRun s ≤ s.length := (takeWhile_sublist _).length_le

theorem fractionBound (s) : fractionLength s ≤ s.length := by
  rw [fractionLength.eq_def]
  split
  · rename_i d s
    have run := digitBound (d :: s)
    split
    · simpa using run
    · simp
  · simp

theorem exponentBound (s) : exponentLength s ≤ s.length := by
  cases s with
  | nil => exact Nat.le_refl 0
  | cons b s =>
    have run := digitBound (s.drop (signLength s))
    simp only [exponentLength,length_cons,length_drop] at run ⊢
    split
    · split <;> omega
    · omega

theorem numberBound (s) : numberLength s ≤ s.length := by
  have sign := signBound s
  have whole := digitBound (s.drop (signLength s))
  have fraction := fractionBound (s.drop (signLength s + digitRun (s.drop (signLength s))))
  have exponent := exponentBound (s.drop (signLength s + digitRun (s.drop (signLength s)) +
    fractionLength (s.drop (signLength s + digitRun (s.drop (signLength s))))))
  simp only [length_drop] at whole fraction exponent
  rw [numberLength]
  omega

theorem numericPlain (starts : startsNumber s) (plain : ∀ u, s.drop (numberLength s) ≠ 37 :: u) :
    numeric s = match identLength (s.drop (numberLength s)) with
      | 0 => some (.number,numberLength s)
      | k + 1 => some (.dimension,numberLength s + k + 1) := by
  rw [numeric,if_pos starts]
  dsimp only
  split
  · rename_i percent
    exact absurd percent (plain _)
  · rfl

theorem commentRunCons {b} (goes : ¬(b = 42 ∧ s.head? = some 47)) : commentRun (b :: s) = commentRun s + 1 := by
  rw [commentRun.eq_def]
  split
  · rename_i bare
    cases bare
  · rename_i closes
    cases closes
    exact absurd ⟨rfl,rfl⟩ goes
  · rename_i same
    cases same
    rfl

theorem blankRunStop {b} (s rest : Bytes) (short : blankRun (s ++ [b]) ≤ s.length) :
    blankRun (s ++ b :: rest) = blankRun (s ++ [b]) := by
  cases blank : isBlankByte b with
  | false => simp only [blankRun,takeWhileStop blank]
  | true =>
    induction s with
    | nil => simp [blankRun,blank] at short
    | cons c s ih =>
      simp only [blankRun,cons_append,takeWhile_cons] at short ih ⊢
      split
      · rename_i first
        simp only [first,if_true,length_cons,Nat.add_le_add_iff_right] at short
        rw [length_cons,length_cons,ih short]
      · rfl

theorem brokenUrlFrom (taken s) : taken ≤ (brokenUrl taken s).2 := Nat.le_add_right _ _

theorem urlEndFrom (taken s) : taken + blankRun (s.drop taken) ≤ (urlEnd taken s).2 := by
  rw [urlEnd]
  split
  · exact Nat.le_refl _
  · exact Nat.le_succ _
  · exact brokenUrlFrom _ s

theorem urlEndCons {taken c} {u : Bytes} (head : s.drop (taken + blankRun (s.drop taken)) = c :: u) :
    urlEnd taken s = if c = 41 then (.url,taken + blankRun (s.drop taken) + 1)
      else brokenUrl (taken + blankRun (s.drop taken)) s := by
  rw [urlEnd,head]
  split
  · rename_i bare
    cases bare
  · rename_i closes
    cases closes
    rfl
  · rename_i other
    rw [if_neg fun same => other u (by rw [same])]

theorem headStop (s : Bytes) (b : UInt8) : ∃ c, ∀ rest, ∃ u, s ++ b :: rest = c :: u := by
  cases s with
  | nil => exact ⟨b,fun rest => ⟨rest,rfl⟩⟩
  | cons c s => exact ⟨c,fun rest => ⟨s ++ b :: rest,rfl⟩⟩

def unquotedUrl (blanks : Nat) (run : Nat × Bool) (s : Bytes) : TokenKind × Nat :=
  if run.2 then urlEnd (blanks + run.1) s
  else match s.drop (blanks + run.1) with
    | c :: _ => if isBlankByte c then urlEnd (blanks + run.1 + 1) s else brokenUrl (blanks + run.1) s
    | [] => brokenUrl (blanks + run.1) s

theorem unquotedUrlFrom (blanks run s) : blanks + run.1 ≤ (unquotedUrl blanks run s).2 := by
  have here := urlEndFrom (blanks + run.1) s
  have next := urlEndFrom (blanks + run.1 + 1) s
  have broken := brokenUrlFrom (blanks + run.1) s
  rw [unquotedUrl]
  split
  · omega
  · split
    · split <;> omega
    · omega

theorem urlRunCons {c} {more : Bytes} (head : s.drop (blankRun s) = c :: more) :
    urlRun s =
      if c == 34 || c == 39 then
        if (stringRun c 0 more).2 then brokenUrl (blankRun s + 1 + (stringRun c 0 more).1) s
        else urlEnd (blankRun s + 1 + (stringRun c 0 more).1) s
      else unquotedUrl (blankRun s) (locationRun 0 (c :: more)) s := by
  rw [urlRun,head]
  rfl

theorem urlRunFrom (s) : blankRun s ≤ (urlRun s).2 := by
  cases head : s.drop (blankRun s) with
  | nil =>
    refine Nat.le_of_eq ?_
    rw [urlRun,head]
  | cons c more =>
    rw [urlRunCons head]
    split
    · split
      · exact Nat.le_trans (by omega) (brokenUrlFrom _ s)
      · exact Nat.le_trans (by omega) (urlEndFrom _ s)
    · exact Nat.le_trans (Nat.le_add_right _ _) (unquotedUrlFrom _ _ s)

theorem identLikeNone (absent : identLength s = 0) : identLike s = none := by
  rw [identLike,absent]

theorem identLikeWord (word : identLength s ≠ 0) (plain : (s.drop (identLength s)).head? ≠ some 40) :
    identLike s = some (.ident,identLength s) := by
  obtain ⟨k,size⟩ := Nat.exists_eq_succ_of_ne_zero word
  rw [identLike,size]
  rw [size] at plain
  dsimp only
  split
  · rename_i opens
    simp [opens] at plain
  · rfl

def callToken (name u : Bytes) : TokenKind × Nat :=
  if isUrlName name then ((urlRun u).1,name.length + 1 + (urlRun u).2) else (.function,name.length + 1)

theorem identLikeCall {u : Bytes} (word : identLength s ≠ 0) (opens : s.drop (identLength s) = 40 :: u) :
    identLike s = some (callToken (s.take (identLength s)) u) := by
  have inside : identLength s ≤ s.length := by
    have size := congrArg List.length opens
    simp only [length_drop,length_cons] at size
    omega
  obtain ⟨k,size⟩ := Nat.exists_eq_succ_of_ne_zero word
  rw [identLike,callToken,length_take,Nat.min_eq_left inside,size]
  rw [size] at opens
  simp only [opens]
  split <;> rfl

theorem identLikeAbsent (absent : identLike s = none) : identLength s = 0 := by
  rw [identLike.eq_def] at absent
  split at absent
  · assumption
  dsimp only at absent
  split at absent
  · split at absent <;> cases absent
  · cases absent

theorem identLikeFrom {r} (found : identLike s = some r) : identLength s ≤ r.2 := by
  rw [identLike.eq_def] at found
  split at found
  · cases found
  rename_i k size
  rw [size]
  dsimp only at found
  split at found
  · split at found <;> cases found
    · omega
    · exact Nat.le_succ _
  · cases found
    exact Nat.le_refl _

theorem iteStop {c} [Decidable c] {n} {near near' far far' : TokenKind × Nat}
    (short : (if c then near else near').2 ≤ n) (yes : c → near.2 ≤ n → far = near)
    (no : ¬c → near'.2 ≤ n → far' = near') : (if c then far else far') = if c then near else near' := by
  split
  · rename_i h
    rw [if_pos h] at short
    exact yes h short
  · rename_i h
    rw [if_neg h] at short
    exact no h short

theorem getDStop {near far} {near' far' : TokenKind × Nat} {n}
    (short : (near.getD near').2 ≤ n) (same : (∀ r, near = some r → r.2 ≤ n) → far = near)
    (other : near'.2 ≤ n → far' = near') : far.getD far' = near.getD near' := by
  have taken : ∀ r, near = some r → r.2 ≤ n := by
    rintro r rfl
    exact short
  rw [same taken]
  cases near with
  | none => exact other short
  | some r => rfl

theorem optionStop {near far : Option (TokenKind × Nat)} {n} (same : (∀ r, near = some r → r.2 ≤ n) → far = near) :
    (near = none → far = none) ∧ ∀ t, near = some t → t.2 ≤ n → far = some t := by
  constructor
  · rintro rfl
    exact same fun r found => by cases found
  · rintro t rfl short
    exact same fun r found => Option.some.inj found ▸ short

theorem prefixStop {b} {p : Bytes} (other : b ∉ p) (s rest : Bytes) :
    p.isPrefixOf (s ++ b :: rest) = p.isPrefixOf (s ++ [b]) := by
  induction s generalizing p with
  | nil =>
    cases p with
    | nil => rfl
    | cons c p =>
      have differs : (c == b) = false := by
        simp only [mem_cons,not_or] at other
        simp [Ne.symm other.1]
      simp [List.isPrefixOf,differs]
  | cons d s ih =>
    cases p with
    | nil => rfl
    | cons c p =>
      simp only [cons_append,List.isPrefixOf]
      rw [ih fun mem => other (mem_cons_of_mem c mem)]

variable {b : UInt8} (stop : isStop b = true) (s rest : Bytes)
include stop

theorem newlineStop : newlineLength (s ++ b :: rest) = newlineLength (s ++ [b]) := by
  have first := stopNot stop (c := 13) rfl
  have second := stopNot stop (c := 10) rfl
  match s with
  | [] => simp [newlineLength,first]
  | [c] => simp [newlineLength,second]
  | c :: d :: s =>
    have two : ∀ t, newlineLength (c :: d :: t) = newlineLength [c,d] := by
      intro t
      by_cases pair : c = 13 ∧ d = 10
      · rw [pair.1,pair.2]
        rfl
      unfold newlineLength
      split
      · simp_all
      · split <;> simp_all
      · simp_all
    exact (two _).trans (two _).symm

theorem stringRunStop (quote skip) (s rest : Bytes) (short : (stringRun quote skip (s ++ [b])).1 ≤ s.length) :
    stringRun quote skip (s ++ b :: rest) = stringRun quote skip (s ++ [b]) := by
  have inside : ∀ c s, Alike s (stringStep quote c (s ++ [b])) (stringStep quote c (s ++ b :: rest)) := by
    intro c s
    rw [stringStep,stringStep]
    split
    · exact .inl rfl
    split
    · exact .inl rfl
    · split
      · exact escapeMoveStop (stopBreaks stop) s rest (congrArg Move.pass (newlineStop stop s rest))
      · exact .inl rfl
  have last : ∀ taken done, stringStep quote b [] = .halt taken done → stringStep quote b rest = .halt taken done := by
    intro taken done h
    rw [stringStep,breaksEscape (stopBreaks stop)] at h ⊢
    exact h
  simp only [stringRunScan] at short ⊢
  exact scanStop inside last skip s short

theorem signStop : signLength (s ++ b :: rest) = signLength s := by
  cases s with
  | nil => simp [signLength,stopNot stop (c := 43) rfl,stopNot stop (c := 45) rfl]
  | cons c s => rw [signLength.eq_def,signLength.eq_def]; grind

theorem digitRunStop : digitRun (s ++ b :: rest) = digitRun s := by
  rw [digitRun,takeWhileStop (breaksDigit (stopBreaks stop)),digitRun]

theorem fractionStop : fractionLength (s ++ b :: rest) = fractionLength s := by
  have digit := breaksDigit (stopBreaks stop)
  match s with
  | [] => simp [fractionLength,stopNot stop (c := 46) rfl]
  | [c] =>
    by_cases point : c = 46
    · simp [fractionLength,point,digit]
    · simp [fractionLength,point]
  | c :: d :: s =>
    by_cases point : c = 46
    · have run := digitRunStop stop (d :: s) rest
      rw [cons_append] at run
      simp [fractionLength,point,run]
    · simp [fractionLength,point]

theorem exponentStop : exponentLength (s ++ b :: rest) = exponentLength s := by
  have mark : (b == 101 || b == 69) = false := by
    simp [stopNot stop (c := 101) rfl,stopNot stop (c := 69) rfl]
  cases s with
  | nil => simp [exponentLength,mark]
  | cons c s =>
    simp only [cons_append,exponentLength,signStop stop,dropBefore (signBound s),digitRunStop stop]

theorem numberStop : numberLength (s ++ b :: rest) = numberLength s := by
  have whole := digitBound (s.drop (signLength s))
  have fraction := fractionBound (s.drop (signLength s + digitRun (s.drop (signLength s))))
  have sign := signBound s
  simp only [length_drop] at whole fraction
  simp only [numberLength,signStop stop,dropBefore sign,digitRunStop stop]
  rw [dropBefore (by omega),fractionStop stop,dropBefore (by omega),exponentStop stop]

theorem startsNumberStop : startsNumber (s ++ b :: rest) = startsNumber s := by
  have digit := breaksDigit (stopBreaks stop)
  rw [startsNumber,signStop stop,dropBefore (signBound s),startsNumber]
  match s.drop (signLength s) with
  | [] => simp [stopNot stop (c := 46) rfl,digit]
  | [c] =>
    by_cases point : c = 46
    · simp [point,digit]
      rfl
    · simp [point]
  | c :: d :: s =>
    by_cases point : c = 46
    · simp [point]
    · simp [point]

theorem percentCases (s : Bytes) : (∃ u, s = 37 :: u) ∨ ∀ rest u, s ++ b :: rest ≠ 37 :: u := by
  cases s with
  | nil => exact .inr fun rest u same => stopNot stop (c := 37) rfl (List.cons.inj same).1
  | cons c s =>
    by_cases sign : c = 37
    · exact .inl ⟨s,by rw [sign]⟩
    · exact .inr fun rest u same => sign (List.cons.inj same).1

theorem numericStop (short : ∀ r, numeric (s ++ [b]) = some r → r.2 ≤ s.length) :
    numeric (s ++ b :: rest) = numeric (s ++ [b]) := by
  have cut : ∀ rest, (s ++ b :: rest).drop (numberLength (s ++ b :: rest)) =
      s.drop (numberLength s) ++ b :: rest := fun rest => by rw [numberStop stop,dropBefore (numberBound s)]
  cases starts : startsNumber s with
  | false => simp only [numeric,startsNumberStop stop,starts,Bool.false_eq_true,if_false]
  | true =>
    rcases percentCases stop (s.drop (numberLength s)) with ⟨u,percent⟩ | other
    · simp [numeric,startsNumberStop stop,numberStop stop,dropBefore (numberBound s),percent]
    have plain : ∀ rest, numeric (s ++ b :: rest) =
        match identLength (s.drop (numberLength s) ++ b :: rest) with
        | 0 => some (.number,numberLength s)
        | k + 1 => some (.dimension,numberLength s + k + 1) := fun rest => by
      have starts' : startsNumber (s ++ b :: rest) := by rw [startsNumberStop stop,starts]
      rw [numericPlain starts' (by rw [cut]; exact other rest),cut,numberStop stop]
    have unit : identLength (s.drop (numberLength s) ++ [b]) ≤ (s.drop (numberLength s)).length := by
      cases full : identLength (s.drop (numberLength s) ++ [b]) with
      | zero => exact Nat.zero_le _
      | succ k =>
        have taken := short (.dimension,numberLength s + k + 1) (by rw [plain,full])
        simp only [length_drop] at taken ⊢
        omega
    rw [plain,plain,identLengthStop (stopBreaks stop) _ rest unit]

theorem unicodeRangeStop : unicodeRange (s ++ b :: rest) = unicodeRange s := by
  have hex : ∀ s rest, hexRun (s ++ b :: rest) = hexRun s := fun s rest => by
    rw [hexRun,takeWhileStop (breaksHex (stopBreaks stop)),hexRun]
  have question : ∀ s rest, questionRun (s ++ b :: rest) = questionRun s := fun s rest => by
    rw [questionRun,takeWhileStop (by simp [stopNot stop (c := 63) rfl]),questionRun]
  have bound : hexRun s ≤ s.length := (takeWhile_sublist _).length_le
  simp only [unicodeRange,hex,dropBefore bound]
  cases s.drop (hexRun s) with
  | nil =>
    have bare := question [] rest
    rw [nil_append] at bare
    simp [stopNot stop (c := 45) rfl,bare]
  | cons c t =>
    have more := question (c :: t) rest
    rw [cons_append] at more
    by_cases hyphen : c = 45
    · simp [hyphen,hex]
    · simp [hyphen,more]

theorem commentRunStop (short : commentRun (s ++ [b]) ≤ s.length) :
    commentRun (s ++ b :: rest) = commentRun (s ++ [b]) := by
  induction s with
  | nil => simp [commentRun] at short
  | cons c s ih =>
    by_cases closes : c = 42 ∧ (s ++ [b]).head? = some 47
    · cases s with
      | nil =>
        obtain ⟨rfl,head⟩ := closes
        cases Option.some.inj head
        simp [commentRun] at short
      | cons d s =>
        obtain ⟨rfl,head⟩ := closes
        cases Option.some.inj head
        rfl
    · have far : ¬(c = 42 ∧ (s ++ b :: rest).head? = some 47) := by
        cases s <;> exact closes
      rw [cons_append,commentRunCons closes] at short
      rw [cons_append,cons_append,commentRunCons closes,commentRunCons far,
        ih (Nat.le_of_succ_le_succ short)]

theorem brokenUrlStop {taken} (inside : taken ≤ s.length)
    (short : (brokenUrl taken (s ++ [b])).2 ≤ s.length) :
    brokenUrl taken (s ++ b :: rest) = brokenUrl taken (s ++ [b]) := by
  simp only [brokenUrl,dropBefore inside] at short ⊢
  rw [brokenRunStop (stopBreaks stop) 0 (s.drop taken) rest (by rw [length_drop]; omega)]

theorem urlEndStop {taken} (inside : taken ≤ s.length)
    (short : (urlEnd taken (s ++ [b])).2 ≤ s.length) : urlEnd taken (s ++ b :: rest) = urlEnd taken (s ++ [b]) := by
  have reach := urlEndFrom taken (s ++ [b])
  have blanks : ∀ rest, blankRun ((s ++ b :: rest).drop taken) = blankRun ((s ++ [b]).drop taken) := by
    intro rest
    rw [dropBefore inside] at reach
    rw [dropBefore inside,dropBefore inside]
    refine blankRunStop _ rest ?_
    rw [length_drop]
    omega
  have within : taken + blankRun ((s ++ [b]).drop taken) ≤ s.length := by omega
  obtain ⟨c,head⟩ := headStop (s.drop (taken + blankRun ((s ++ [b]).drop taken))) b
  have cut : ∀ rest, ∃ u, (s ++ b :: rest).drop (taken + blankRun ((s ++ b :: rest).drop taken)) = c :: u := by
    intro rest
    rw [blanks,dropBefore within]
    exact head rest
  obtain ⟨u,near⟩ := cut []
  obtain ⟨v,far⟩ := cut rest
  rw [urlEndCons near] at short ⊢
  rw [urlEndCons far,blanks]
  split
  · rfl
  · rename_i other
    rw [if_neg other] at short
    exact brokenUrlStop stop s rest within short

theorem unquotedUrlStop {blanks run} (short : (unquotedUrl blanks run (s ++ [b])).2 ≤ s.length) :
    unquotedUrl blanks run (s ++ b :: rest) = unquotedUrl blanks run (s ++ [b]) := by
  have inside : blanks + run.1 ≤ s.length := Nat.le_trans (unquotedUrlFrom _ _ _) short
  obtain ⟨c,head⟩ := headStop (s.drop (blanks + run.1)) b
  obtain ⟨u,near⟩ := head []
  obtain ⟨v,far⟩ := head rest
  simp only [unquotedUrl,dropBefore inside,near,far] at short ⊢
  split
  · rename_i done
    rw [if_pos done] at short
    exact urlEndStop stop s rest inside short
  rename_i undone
  rw [if_neg undone] at short
  split
  · rename_i blank
    rw [if_pos blank] at short
    have reach := urlEndFrom (blanks + run.1 + 1) (s ++ [b])
    exact urlEndStop stop s rest (by omega) short
  · rename_i solid
    rw [if_neg solid] at short
    exact brokenUrlStop stop s rest inside short

theorem urlRunStop (short : (urlRun (s ++ [b])).2 ≤ s.length) :
    urlRun (s ++ b :: rest) = urlRun (s ++ [b]) := by
  have within : blankRun (s ++ [b]) ≤ s.length := Nat.le_trans (urlRunFrom _) short
  have blanks := blankRunStop s rest within
  have near : (s ++ [b]).drop (blankRun (s ++ [b])) = s.drop (blankRun (s ++ [b])) ++ [b] :=
    dropBefore within [b]
  have far : (s ++ b :: rest).drop (blankRun (s ++ b :: rest)) = s.drop (blankRun (s ++ [b])) ++ b :: rest := by
    rw [blanks,dropBefore within]
  have size := length_drop (i := blankRun (s ++ [b])) (l := s)
  have unquoted : unquotedUrl (blankRun (s ++ [b])) (locationRun 0 (s.drop (blankRun (s ++ [b])) ++ [b]))
        (s ++ [b]) = urlRun (s ++ [b]) →
      unquotedUrl (blankRun (s ++ [b])) (locationRun 0 (s.drop (blankRun (s ++ [b])) ++ b :: rest))
        (s ++ b :: rest) = urlRun (s ++ [b]) := by
    intro same
    rw [← same] at short ⊢
    have taken := unquotedUrlFrom (blankRun (s ++ [b])) (locationRun 0 (s.drop (blankRun (s ++ [b])) ++ [b]))
      (s ++ [b])
    rw [locationRunStop (stopBreaks stop) 0 _ rest (by omega)]
    exact unquotedUrlStop stop s rest short
  cases cut : s.drop (blankRun (s ++ [b])) with
  | nil =>
    have plain : (b == 34 || b == 39) = false := by
      simp [stopNot stop (c := 34) rfl,stopNot stop (c := 39) rfl]
    rw [cut] at near far unquoted
    rw [urlRunCons far,plain,blanks]
    refine unquoted ?_
    rw [urlRunCons near,plain]
    rfl
  | cons c t =>
    rw [cut,cons_append] at near far unquoted
    rw [urlRunCons far,blanks]
    cases quoted : c == 34 || c == 39 with
    | false =>
      refine unquoted ?_
      rw [urlRunCons near,quoted]
      rfl
    | true =>
      rw [urlRunCons near,quoted,if_pos rfl] at short ⊢
      rw [cut,length_cons] at size
      have broken := brokenUrlFrom (blankRun (s ++ [b]) + 1 + (stringRun c 0 (t ++ [b])).1) (s ++ [b])
      have closed := urlEndFrom (blankRun (s ++ [b]) + 1 + (stringRun c 0 (t ++ [b])).1) (s ++ [b])
      have string : (stringRun c 0 (t ++ [b])).1 ≤ t.length := by
        split at short <;> omega
      rw [if_pos rfl,stringRunStop stop c 0 t rest string]
      split
      · rename_i bad
        rw [if_pos bad] at short
        exact brokenUrlStop stop s rest (by omega) short
      · rename_i good
        rw [if_neg good] at short
        exact urlEndStop stop s rest (by omega) short

theorem identLikeStop (short : ∀ r, identLike (s ++ [b]) = some r → r.2 ≤ s.length) :
    identLike (s ++ b :: rest) = identLike (s ++ [b]) := by
  cases found : identLike (s ++ [b]) with
  | none =>
    have absent := identLikeAbsent found
    exact identLikeNone ((identLengthStop (stopBreaks stop) s rest (by omega)).trans absent)
  | some r =>
    have taken := short r found
    have inside := Nat.le_trans (identLikeFrom found) taken
    have word := identLengthStop (stopBreaks stop) s rest inside
    have full : identLength (s ++ [b]) ≠ 0 := by
      intro absent
      rw [identLikeNone absent] at found
      cases found
    have size := length_drop (i := identLength (s ++ [b])) (l := s)
    rw [← found]
    cases cut : s.drop (identLength (s ++ [b])) with
    | nil =>
      have plain : ∀ rest, ((s ++ b :: rest).drop (identLength (s ++ [b]))).head? ≠ some 40 := by
        simp [dropBefore inside,cut,stopNot stop (c := 40) rfl]
      rw [identLikeWord full (plain []),identLikeWord (by rw [word]; exact full) (by rw [word]; exact plain rest),
        word]
    | cons c u =>
      by_cases opens : c = 40
      · have near : (s ++ [b]).drop (identLength (s ++ [b])) = 40 :: (u ++ [b]) := by
          rw [dropBefore inside,cut,opens,cons_append]
        have far : (s ++ b :: rest).drop (identLength (s ++ b :: rest)) = 40 :: (u ++ b :: rest) := by
          rw [word,dropBefore inside,cut,opens,cons_append]
        rw [identLikeCall full near] at found ⊢
        rw [identLikeCall (by rw [word]; exact full) far,word,take_append_of_le_length inside,
          take_append_of_le_length inside,callToken,callToken]
        split
        · rename_i url
          rw [← Option.some.inj found,callToken,take_append_of_le_length inside,if_pos url,length_take] at taken
          rw [cut,length_cons] at size
          rw [urlRunStop stop u rest (by omega)]
        · rfl
      · have plain : ∀ rest, ((s ++ b :: rest).drop (identLength (s ++ [b]))).head? ≠ some 40 := by
          simp [dropBefore inside,cut,opens]
        rw [identLikeWord full (plain []),
          identLikeWord (by rw [word]; exact full) (by rw [word]; exact plain rest),word]

omit stop in
theorem firstHyphen (s : Bytes) : firstToken 45 s = (numeric (45 :: s)).getD ((identLike (45 :: s)).getD
    (if (ascii "->").isPrefixOf s then (.cdc,3)
    else if s.head? == some 45 && identLength s ≠ 0 then (.customName,identLength s + 1) else (.delim,1))) := by
  cases number : numeric (45 :: s) <;> cases word : identLike (45 :: s) <;> simp [firstToken,isBlankByte,number,word]

theorem hyphenStop (short : (firstToken 45 (s ++ [b])).2 ≤ s.length + 1) :
    firstToken 45 (s ++ b :: rest) = firstToken 45 (s ++ [b]) := by
  have arrow : (ascii "->").isPrefixOf (s ++ b :: rest) = (ascii "->").isPrefixOf (s ++ [b]) :=
    prefixStop (by simp [ascii,stopNot stop (c := 45) rfl,stopNot stop (c := 62) rfl]) s rest
  have head : (s ++ b :: rest).head? = (s ++ [b]).head? := by cases s <;> rfl
  rw [firstHyphen] at short
  rw [firstHyphen,firstHyphen,arrow,head]
  refine getDStop short (numericStop stop (45 :: s) rest) fun short =>
    getDStop short (identLikeStop stop (45 :: s) rest) fun short => iteStop short (fun _ _ => rfl) fun _ short => ?_
  cases custom : (s ++ [b]).head? == some 45 with
  | false => rfl
  | true =>
    rw [custom] at short
    have inside : identLength (s ++ [b]) ≤ s.length := by
      split at short
      · simpa using short
      · rename_i bare
        simp only [Bool.true_and,decide_eq_true_eq] at bare
        omega
    rw [identLengthStop (stopBreaks stop) s rest inside]

theorem rangeStop {x} (letter : x = 117 ∨ x = 85) (s rest : Bytes) (short : (firstToken x (s ++ [b])).2 ≤ s.length + 1) :
    firstToken x (s ++ b :: rest) = firstToken x (s ++ [b]) := by
  have word : (∀ r, identLike (x :: (s ++ [b])) = some r → r.2 ≤ s.length + 1) →
      identLike (x :: (s ++ b :: rest)) = identLike (x :: (s ++ [b])) := identLikeStop stop (x :: s) rest
  have plain {t : Bytes} (other : t.head? ≠ some 43) : firstToken x t = orDelim (identLike (x :: t)) := by
    rcases letter with rfl | rfl <;> cases t <;> simp_all [firstToken,isBlankByte]
  by_cases plus : (s ++ [b]).head? = some 43
  · cases s with
    | nil => exact absurd (Option.some.inj plus) (stopNot stop rfl)
    | cons c s =>
      cases Option.some.inj plus
      have range (t) : firstToken x (43 :: t) = ((unicodeRange t).map fun n => (TokenKind.unicodeRange,n + 2)).getD
          (orDelim (identLike (x :: 43 :: t))) := by
        rcases letter with rfl | rfl <;> cases h : unicodeRange t <;> simp [firstToken,isBlankByte,h]
      rw [cons_append,range,unicodeRangeStop stop] at short
      rw [cons_append,cons_append,range,range,unicodeRangeStop stop,unicodeRangeStop stop]
      exact getDStop short (fun _ => rfl) fun short => getDStop short word fun _ => rfl
  · have far : (s ++ b :: rest).head? ≠ some 43 := by cases s <;> exact plus
    rw [plain plus] at short
    rw [plain plus,plain far]
    exact getDStop short word fun _ => rfl

theorem firstTokenStop (x) (s rest : Bytes) (short : (firstToken x (s ++ [b])).2 ≤ s.length + 1) :
    firstToken x (s ++ b :: rest) = firstToken x (s ++ [b]) := by
  by_cases hyphen : x = 45
  · exact hyphen ▸ hyphenStop stop s rest (hyphen ▸ short)
  by_cases letter : x = 117 ∨ x = 85
  · exact rangeStop stop letter s rest short
  have number : (∀ r, numeric (x :: (s ++ [b])) = some r → r.2 ≤ s.length + 1) →
      numeric (x :: (s ++ b :: rest)) = numeric (x :: (s ++ [b])) := numericStop stop (x :: s) rest
  have word : (∀ r, identLike (x :: (s ++ [b])) = some r → r.2 ≤ s.length + 1) →
      identLike (x :: (s ++ b :: rest)) = identLike (x :: (s ++ [b])) := identLikeStop stop (x :: s) rest
  have head : (s ++ b :: rest).head? = (s ++ [b]).head? := by cases s <;> rfl
  unfold firstToken at short ⊢
  rw [head]
  refine iteStop short (fun _ short => ?blanks) fun _ short => iteStop short (fun _ _ => rfl) fun _ short =>
    iteStop short (fun _ _ => rfl) fun _ short => iteStop short (fun _ _ => rfl) fun _ short =>
    iteStop short (fun _ _ => rfl) fun _ short => iteStop short (fun _ _ => rfl) fun _ short =>
    iteStop short (fun _ _ => rfl) fun _ short => iteStop short (fun _ _ => rfl) fun _ short =>
    iteStop short (fun _ _ => rfl) fun _ short => iteStop short (fun _ _ => rfl) fun _ short =>
    iteStop short (fun _ short => ?hash) fun _ short => iteStop short (fun _ short => ?string) fun _ short =>
    iteStop short (fun _ short => getDStop short number fun _ => rfl) fun _ short =>
    iteStop short (fun is _ => absurd (eq_of_beq is) hyphen) fun _ short =>
    iteStop short (fun _ short => ?keyword) fun _ short => iteStop short (fun _ _ => rfl) fun _ short =>
    iteStop short (fun _ _ => rfl) fun _ short => iteStop short (fun _ _ => rfl) fun _ short =>
    iteStop short (fun _ short => ?comment) fun _ short =>
    iteStop short (fun _ short => ?opening) fun _ short =>
    iteStop short (fun _ short => getDStop short word fun _ => rfl) fun _ short => iteStop short (fun _ _ => rfl) fun _ short =>
    iteStop short (fun is _ => absurd (by simpa using is) letter) fun _ short => ?other
  case blanks => rw [blankRunStop s rest (by simpa using short)]
  case hash =>
    rw [nameRunStop (stopBreaks stop) 0 s rest (by split at short <;> simp_all)]
  case string => rw [stringRunStop stop x 0 s rest (by simpa using short)]
  case keyword =>
    rw [identLengthStop (stopBreaks stop) s rest (by split at short <;> simp_all)]
  case comment =>
    cases s with
    | nil =>
      have star : b ≠ 42 := by
        rintro rfl
        simp at short
      simp [star]
    | cons c s =>
      by_cases star : c = 42
      · subst star
        simp only [cons_append] at short ⊢
        rw [commentRunStop stop s rest (by simpa using short)]
      · simp [star]
  case opening =>
    rw [prefixStop (by simp [ascii,stopNot stop (c := 33) rfl,stopNot stop (c := 45) rfl]) s rest]
  case other =>
    obtain ⟨noNumber,aNumber⟩ := optionStop number
    split at short
    · rename_i t found
      simp only [aNumber t found short]
    · rename_i absent
      simp only [noNumber absent]
      exact getDStop short word fun _ => rfl

end Cascade
