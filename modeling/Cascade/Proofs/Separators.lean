import Cascade.Proofs.PrintedValues

/-! Separators in printed values. -/
namespace Cascade
open List Token
open Token (opens closes isBlank isDelim operator isSeparator depth)

variable {closing t : Token} {rest : List Token} {kept : Prop}

def Token.isBracket (t : Token) : Bool := (t.opens || t.closes) && t.kind ≠ .function

def Token.isSolid (t : Token) : Bool := !t.isBlank && !t.isBracket

def stand (level : Int) (t : Token) : List (Token × Option Int) :=
  if t.isSolid then [(t,if t.isSeparator then some level else none)] else []

/- Tokens in their order without blanks and brackets, each separator with its level. -/
def placed : Int → List Token → List (Token × Option Int)
  | _,[] => []
  | level,t :: ts => stand level t ++ placed (level + t.depth) ts

theorem netDepthAppend (ts us) : netDepth (ts ++ us) = netDepth ts + netDepth us := by
  induction ts with
  | nil => simp [netDepth]
  | cons t ts ih =>
    rw [cons_append,netDepth,netDepth]
    omega

theorem placedAppend (level ts us) : placed level (ts ++ us) = placed level ts ++ placed (level + netDepth ts) us := by
  induction ts generalizing level with
  | nil => simp [placed,netDepth]
  | cons t ts ih => rw [cons_append,placed,placed,ih,netDepth,append_assoc,Int.add_assoc]

theorem placedTokens (level ts) : (placed level ts).map (·.1) = ts.filter isSolid := by
  induction ts generalizing level with
  | nil => rfl
  | cons t ts ih =>
    rw [placed,map_append,ih,stand,filter_cons]
    split <;> rfl

theorem placedLength (level ts) : (placed level ts).length = (ts.filter isSolid).length := by
  rw [← placedTokens level,length_map]

/- Tokens that are written for others that were read. None is moved, only separators are lost, blocks are left only
outwards, and all of them are in their places on the condition given. -/
structure Retains (ws ss : List Token) (kept : Prop) : Prop where
  net : netDepth ws = netDepth ss
  fewer : (ws.filter isSolid).Sublist (ss.filter isSolid)
  words : (ws.filter isSolid).filter (!·.isSeparator) = (ss.filter isSolid).filter (!·.isSeparator)
  same : ∀ n m, n ≤ m → (placed n ws = placed m ss ↔ kept ∧ (n = m ∨ ∀ t ∈ ss, t.isSeparator = false))

section
variable {ws ws' ss ss' : List Token} {kept kept' : Prop} {t : Token}

theorem Retains.congr (retains : Retains ws ss kept) (same : kept ↔ kept') : Retains ws ss kept' :=
  ⟨retains.net,retains.fewer,retains.words,by rw [← same]; exact retains.same⟩

theorem Retains.append (first : Retains ws ss kept) (second : Retains ws' ss' kept') :
    Retains (ws ++ ws') (ss ++ ss') (kept ∧ kept') := by
  refine ⟨?_,?_,?_,fun n m low => ?_⟩
  · rw [netDepthAppend,netDepthAppend,first.net,second.net]
  · rw [filter_append,filter_append]
    exact first.fewer.append second.fewer
  · rw [filter_append,filter_append,filter_append,filter_append,first.words,second.words]
  · rw [placedAppend,placedAppend,first.net]
    have here := first.same n m low
    have there := second.same (n + netDepth ss) (m + netDepth ss) (by omega)
    have split : placed n ws ++ placed (n + netDepth ss) ws' = placed m ss ++ placed (m + netDepth ss) ss' ↔
        placed n ws = placed m ss ∧ placed (n + netDepth ss) ws' = placed (m + netDepth ss) ss' := by
      refine ⟨fun joined => append_inj joined ?_,fun both => by rw [both.1,both.2]⟩
      have total := congrArg List.length joined
      have := first.fewer.length_le
      have := second.fewer.length_le
      simp only [length_append,placedLength] at total ⊢
      omega
    rw [split,here,there]
    have level : n + netDepth ss = m + netDepth ss ↔ n = m := by omega
    rw [level,forall_mem_append,or_and_left]
    exact and_and_and_comm

theorem retainsNil : Retains [] [] True := ⟨rfl,List.Sublist.refl _,rfl,fun _ _ _ => by simp [placed]⟩

theorem separatorPlain (separates : t.isSeparator) : t.isSolid ∧ t.depth = 0 := by
  rcases separatorCases separates with ⟨kind,_⟩ | ⟨delim,_⟩ | ⟨delim,_⟩
  · simp [isSolid,isBlank,isBracket,depth,opens,closes,kind]
  all_goals
    have kind : t.kind = .delim := of_decide_eq_true (Bool.and_eq_true_iff.mp delim).1
    simp [isSolid,isBlank,isBracket,depth,opens,closes,kind]

theorem retainsToken (t) : Retains [t] [t] True := by
  refine ⟨rfl,List.Sublist.refl _,rfl,fun n m _ => ?_⟩
  simp only [placed,stand,mem_singleton,forall_eq]
  cases separates : t.isSeparator with
  | true => simp [(separatorPlain separates).1]
  | false => simp

theorem hiddenPlain (hidden : t.isSolid = false) : t.isSeparator = false := by
  cases separates : t.isSeparator with
  | false => rfl
  | true => exact absurd (hidden.symm.trans (separatorPlain separates).1) Bool.false_ne_true

theorem hiddenPlaced (hidden : ∀ t ∈ ws, t.isSolid = false) (level) :
    ws.filter isSolid = [] ∧ placed level ws = [] := by
  have bare : ws.filter isSolid = [] := filter_eq_nil_iff.mpr fun t mem => by simp [hidden t mem]
  exact ⟨bare,eq_nil_of_length_eq_zero (by rw [placedLength,bare,length_nil])⟩

theorem retainsHidden (written : ∀ t ∈ ws, t.isSolid = false) (read : ∀ t ∈ ss, t.isSolid = false)
    (net : netDepth ws = netDepth ss) : Retains ws ss True := by
  refine ⟨net,?_,?_,fun n m _ => ?_⟩
  · rw [(hiddenPlaced written 0).1]
    exact nil_sublist _
  · rw [(hiddenPlaced written 0).1,(hiddenPlaced read 0).1]
  · rw [(hiddenPlaced written n).2,(hiddenPlaced read m).2]
    exact iff_of_true rfl ⟨trivial,.inr fun t mem => hiddenPlain (read t mem)⟩

theorem retainsLost (separates : t.isSeparator) : Retains [] [t] False := by
  obtain ⟨solid,depth⟩ := separatorPlain separates
  refine ⟨?_,?_,?_,fun n m _ => ?_⟩
  · simp [netDepth,depth]
  · exact nil_sublist _
  · simp [separates]
  · simp [placed,stand,solid]

theorem Retains.blank (blank : t.isBlank) (retains : Retains ws (ss ++ ss') kept) : Retains ws (ss ++ t :: ss') kept := by
  have hidden : t.isSolid = false := by simp [isSolid,blank]
  have flat : t.depth = 0 := by
    simp only [isBlank,Bool.or_eq_true,decide_eq_true_eq] at blank
    rcases blank with kind | kind <;> simp [depth,opens,closes,kind]
  have filtered : (ss ++ t :: ss').filter isSolid = (ss ++ ss').filter isSolid := by simp [hidden]
  refine ⟨?_,?_,?_,fun n m low => ?_⟩
  · rw [retains.net,netDepthAppend,netDepthAppend,netDepth,flat,Int.zero_add]
  · rw [filtered]
    exact retains.fewer
  · rw [filtered]
    exact retains.words
  · have plain : (∀ u ∈ ss ++ t :: ss', u.isSeparator = false) ↔ ∀ u ∈ ss ++ ss', u.isSeparator = false := by
      simp [hiddenPlain hidden,or_imp,forall_and]
    rw [plain,← retains.same n m low,placedAppend,placedAppend,placed,stand,hidden,flat]
    simp

theorem closingHidden (closes : t.closes) : t.isSolid = false ∧ t.depth = -1 := by
  have kinds := closes
  simp only [Token.closes,Bool.or_eq_true,decide_eq_true_eq] at kinds
  rcases kinds with (kind | kind) | kind <;>
    simp [isSolid,isBracket,depth,opens,Token.closes,kind]

theorem groupHidden (kind : t.kind = .leftParen) : t.isSolid = false ∧ t.depth = 1 := by
  simp [isSolid,isBracket,depth,opens,kind]

theorem retainsClosing (closes : closing.closes) : Retains [⟨.rightParen,[41]⟩] [closing] True := by
  refine retainsHidden (forall_mem_singleton.mpr rfl) (forall_mem_singleton.mpr (closingHidden closes).1) ?_
  simp only [netDepth,(closingHidden closes).2]
  rfl

theorem Retains.group (retains : Retains ws ss kept) (kind : t.kind = .leftParen) (closes : closing.closes) :
    Retains (⟨.leftParen,[40]⟩ :: (ws ++ [⟨.rightParen,[41]⟩])) (t :: (ss ++ [closing])) kept := by
  have start : Retains [⟨.leftParen,[40]⟩] [t] True := by
    refine retainsHidden (forall_mem_singleton.mpr rfl) (forall_mem_singleton.mpr (groupHidden kind).1) ?_
    simp only [netDepth,(groupHidden kind).2]
    rfl
  exact (start.append (retains.append (retainsClosing closes))).congr (by simp)

theorem Retains.ungroup (retains : Retains ws ss kept) (kind : t.kind = .leftParen) (closes : closing.closes) :
    Retains ws (t :: (ss ++ [closing])) (kept ∧ ∀ t ∈ ss, t.isSeparator = false) := by
  obtain ⟨start,down⟩ := groupHidden kind
  obtain ⟨stop,up⟩ := closingHidden closes
  refine ⟨?_,?_,?_,fun n m low => ?_⟩
  · simp only [netDepth,netDepthAppend,retains.net]
    omega
  · simpa [start,stop] using retains.fewer
  · simpa [start,stop] using retains.words
  · have outer := retains.same n (m + 1) (by omega)
    have apart : n ≠ m + 1 := by omega
    have plain : (∀ u ∈ t :: (ss ++ [closing]), u.isSeparator = false) ↔ ∀ u ∈ ss, u.isSeparator = false := by
      simp [hiddenPlain start,hiddenPlain stop,or_imp,forall_and]
    simp only [placed,placedAppend,stand,start,stop,down,Bool.false_eq_true,if_false,nil_append,append_nil,outer,
      apart,false_or]
    tauto

end

def nextSolid (ts : List Token) : Option Token := ts.find? (!·.isBlank)

def groupStays (before : Option Token) (opening : Token) (inside : List Token) (after : Option Token) : Bool :=
  (blockOperand opening inside).any fun c => needsGroup (before.map operator) c (after.map operator)

/- Whether all separators stand between two values, and those inside of parentheses in a calculation inside of
parentheses that are written again. The blocks that are no calculations are kept with all that is in them. -/
def keepsSeparators (math : Bool) (before : Option Token) (ts : List Token) : Bool :=
  match ts with
  | [] => true
  | t :: rest =>
    if t.isBlank then keepsSeparators math before rest
    else if t.isSeparator then
      before.any (!·.isSeparator) && (nextSolid rest).any (!·.isSeparator) && keepsSeparators math (some t) rest
    else if t.kind = .function then
      keepsSeparators (isMath t.functionName && (readOperand .edge (untilClose 0 rest).1).isSome) none (untilClose 0 rest).1 &&
        keepsSeparators math (some t) ((untilClose 0 rest).2.drop 1)
    else if t.kind = .leftParen ∧ math then
      ((untilClose 0 rest).1.all (!·.isSeparator) ||
          groupStays before t (untilClose 0 rest).1 (nextSolid ((untilClose 0 rest).2.drop 1))) &&
        keepsSeparators true none (untilClose 0 rest).1 && keepsSeparators math (some t) ((untilClose 0 rest).2.drop 1)
    else if t.kind = .leftParen ∨ t.kind = .leftBracket then keepsSeparators math (some t) ((untilClose 0 rest).2.drop 1)
    else keepsSeparators math (some t) rest
termination_by ts.length
decreasing_by
  all_goals
    have inside := insideLength 0 rest
    have behind := behindLength 0 rest
    simp only [length_cons]
    omega

def Row.printed (started : Bool) (row : Row) : List Chunk := if started then row.behind else row.chunks

abbrev spelled (chunks : List Chunk) : List Token := chunks.flatMap Chunk.tokens

theorem retainsSame (ts) : Retains ts ts True := by
  induction ts with
  | nil => exact retainsNil
  | cons t ts ih => exact ((retainsToken t).append ih).congr (by simp)

theorem retainsGlue (started : Bool) (s) :
    Retains (if started then (glue s).tokens else []) (s.toList.map (·.1)) (s ≠ none → started) := by
  cases s with
  | none =>
    have bare : (if started then (glue none).tokens else []) = [] := by cases started <;> rfl
    rw [bare]
    exact retainsNil.congr (by simp)
  | some s =>
    cases started with
    | true => exact (retainsToken s.1).congr (by simp)
    | false => exact (retainsLost s.2).congr (by simp)

theorem retainsTerm {l ss kept'} {row : Row} (started s)
    (value : Retains (spelled l.chunks) ss kept) (others : Retains (spelled row.behind) rest kept') :
    Retains (spelled (Row.printed started ((s,l) :: row))) (s.toList.map (·.1) ++ (ss ++ rest))
      ((s ≠ none → started) ∧ kept ∧ kept') := by
  have chunks : spelled (Row.printed started ((s,l) :: row)) =
      (if started then (glue s).tokens else []) ++ (spelled l.chunks ++ spelled row.behind) := by
    cases started <;> simp [Row.printed,Row.behind,Row.chunks]
  rw [chunks]
  exact (retainsGlue started s).append (value.append others)

theorem blockRest {n} (opens : t.opens) (level : levelOver (fun _ => false) n (t :: rest) = some 0) :
    ∃ inside closing behind,
      t :: rest = t :: (inside ++ [closing]) ++ behind ∧ inside.length + behind.length < rest.length ∧
      untilClose 0 rest = (inside,closing :: behind) ∧ closing.closes ∧
      levelOver (fun _ => false) 0 inside = some 0 ∧ levelOver (fun _ => false) n behind = some 0 := by
  have deeper : levelOver (fun _ => false) (0 + 1 + n) rest = some 0 := by
    simpa [levelOver,opens,Nat.add_comm 1 n] using level
  obtain ⟨inside,closing,behind,rfl,inner,closes,outer⟩ := blockSplit deeper (Nat.zero_le n)
  refine ⟨inside,closing,behind,by simp,?_,untilCloseBalanced inner closes behind,closes,inner,outer⟩
  rw [length_append,length_cons]
  omega

theorem levelTail {n} (level : levelOver (fun _ => false) n (t :: rest) = some 0) :
    ∃ m, levelOver (fun _ => false) m rest = some 0 := by
  rcases levelCases level with ⟨_,_,deeper⟩ | ⟨_,_,k,_,back⟩ | ⟨_,_,_,stays⟩
  · exact ⟨_,deeper⟩
  · exact ⟨_,back⟩
  · exact ⟨_,stays⟩

theorem retainsBlock (t) {inside behind} (cut : untilClose 0 rest = (inside,closing :: behind)) :
    Retains (spelled (Layout.block t rest).chunks) (t :: (inside ++ [closing])) True := by
  have chunks : spelled (Layout.block t rest).chunks = t :: (inside ++ [closing]) := by
    have each : ∀ ts : List Token, spelled (ts.map .kept) = ts := by
      intro ts
      induction ts with
      | nil => rfl
      | cons t ts ih => exact congrArg (t :: ·) ih
    simp only [Layout.block,Layout.blockChunks,cut,spelled,flatMap_append] at each ⊢
    rw [each]
    rfl
  rw [chunks]
  exact retainsSame _

theorem retainsParentheses {function ws args} (inner : Retains ws args kept) (closes : closing.closes) :
    Retains (function :: (ws ++ [⟨.rightParen,[41]⟩])) (function :: (args ++ [closing])) kept :=
  ((retainsToken function).append (inner.append (retainsClosing closes))).congr (by simp)

theorem retainsCall {function} {chunks : List Chunk} {terms args}
    (same) (inner : Retains (spelled chunks) args kept) (closes : closing.closes) :
    Retains (spelled (Layout.call function chunks terms same).chunks) (function :: (args ++ [closing])) kept := by
  have chunks : spelled (Layout.call function chunks terms same).chunks =
      function :: (spelled chunks ++ [⟨.rightParen,[41]⟩]) := by simp [Layout.call,Chunk.tokens]
  rw [chunks]
  exact retainsParentheses inner closes

def operandChunks (before : Option Token) (first : Layout) (rest : Operands) : List Chunk :=
  bracketed (needsGroup (before.map operator) first.component rest.next) first.chunks ++ rest.behind

theorem retainsOperator (t) : Retains (spelled (operatorChunks t)) [t] True := by
  have one : spelled (operatorChunks t) = [t] := by
    rw [operatorChunks]
    split
    · rfl
    · split <;> rfl
  rw [one]
  exact retainsToken t

theorem retainsOperand {before first rest ss others}
    {kept'} (single : first.component.isSingle) (value : Retains (spelled first.chunks) ss kept)
    (behind : Retains (spelled rest.behind) others kept') :
    Retains (spelled (operandChunks before first rest)) (ss ++ others) (kept ∧ kept') := by
  have chunks : spelled (operandChunks before first rest) = spelled first.chunks ++ spelled rest.behind := by
    simp only [Component.isSingle,Bool.and_eq_true,Bool.not_eq_true'] at single
    simp [operandChunks,needsGroup,single,bracketed]
  rw [chunks]
  exact value.append behind

theorem blankNext (blank : t.isBlank) (rest) : nextSolid (t :: rest) = nextSolid rest := by
  simp [nextSolid,blank]

theorem solidNext (solid : ¬t.isBlank) (rest) : nextSolid (t :: rest) = some t := by
  simp [nextSolid,solid]

theorem layTermsSkip {blanks} (each : Blanks blanks) (s ts) : layTerms s (blanks ++ ts) = layTerms s ts := by
  induction blanks with
  | nil => rfl
  | cons t blanks ih =>
    obtain ⟨blank,others⟩ := forall_mem_cons.mp each
    rw [cons_append,layTerms,if_pos blank]
    exact ih others

theorem layTermsBlanks {blanks} (s) (each : Blanks blanks) : layTerms s blanks = [] := by
  have skipped := layTermsSkip each s []
  rwa [append_nil,layTerms] at skipped

theorem operandBlanks {blanks} (each : Blanks blanks) : readOperand .edge blanks = none := by
  induction blanks with
  | nil => rw [readOperand]
  | cons t blanks ih =>
    obtain ⟨blank,others⟩ := forall_mem_cons.mp each
    rw [readOperand,if_pos (by simpa [isBlank] using blank)]
    exact ih others

theorem layTermsOne {ts} (plain : t.isSeparator = false) (opens : t.opens = false)
    (one : trimTokens ts = [t]) : layTerms none ts = [(none,.word t)] := by
  obtain ⟨blanks,rest,rfl,before,solid,tail⟩ := trimTokensFirst one
  have behind : Blanks rest := rdropWhile_eq_nil_iff.mp tail.symm
  simp only [Token.opens,Bool.or_eq_false_iff,decide_eq_false_iff_not] at opens
  rw [layTermsSkip before,layTerms,if_neg (Bool.eq_false_iff.mp solid),dif_neg (Bool.eq_false_iff.mp plain),if_neg opens.2,
    if_neg (not_or.mpr opens.1.1),layTermsBlanks none behind]

theorem retainsSign {first rest ss} (others : Retains (spelled (operandChunks (some t) first rest)) ss kept) :
    Retains (spelled (Operands.behind ((t,first) :: rest))) (t :: ss) kept := by
  have chunks : spelled (Operands.behind ((t,first) :: rest)) =
      spelled (operatorChunks t) ++ spelled (operandChunks (some t) first rest) := by
    simp [Operands.behind,operandChunks]
  rw [chunks]
  exact ((retainsOperator t).append others).congr (by simp)

section
variable {place : MathPlace}

theorem operandBlank {r} (blank : t.isBlank) (found : layOperand place (t :: rest) = some r) :
    layOperand place rest = some r := by
  simp only [isBlank,Bool.or_eq_true,decide_eq_true_eq] at blank
  rw [layOperand] at found
  split at found
  · exact found
  · rename_i stays
    rcases blank with kind | kind
    · exact absurd (.inl kind) stays
    · simp [kind] at found

theorem operatorsBlank {r} (blank : t.isBlank) (found : layOperators place (t :: rest) = some r) :
    ∃ place', layOperators place' rest = some r := by
  simp only [isBlank,Bool.or_eq_true,decide_eq_true_eq] at blank
  rw [layOperators] at found
  split at found
  · exact ⟨place,found⟩
  rename_i space
  split at found
  · exact ⟨.edge,found⟩
  · simp [isOneOf,blank.resolve_left space] at found

theorem solidKind (solid : ¬t.isBlank) : t.kind ≠ .whitespace ∧ t.kind ≠ .comment := by
  simpa [isBlank] using solid

theorem operandNext {ts r} (found : layOperand place ts = some r) : (nextSolid ts).any (!·.isSeparator) := by
  induction ts with
  | nil =>
    rw [layOperand] at found
    cases found
  | cons t rest ih =>
    by_cases blank : t.isBlank
    · rw [blankNext blank]
      exact ih (operandBlank blank found)
    rw [solidNext blank]
    by_contra separates
    have kinds : t.kind = .comma ∨ t.kind = .delim := by
      simp only [Option.any_some,Bool.not_eq_true',Bool.not_eq_false,isSeparator,isDelim,Bool.or_eq_true,
        Bool.and_eq_true,decide_eq_true_eq] at separates
      tauto
    rw [layOperand] at found
    rcases kinds with kind | kind <;> simp [kind] at found

end

mutual
theorem layTermsKept (s ts started before)
    (fits : s = none → before.any (!·.isSeparator) = started) : ∀ n, levelOver (fun _ => false) n ts = some 0 →
    Retains (spelled ((layTerms s ts).printed started)) (s.toList.map (·.1) ++ ts)
      ((s ≠ none → started ∧ (nextSolid ts).any (!·.isSeparator)) ∧ keepsSeparators false before ts) := by
  cases ts with
  | nil =>
    intro _ _
    have bare : spelled ((layTerms s []).printed started) = [] := by
      rw [layTerms]
      cases started <;> rfl
    rw [bare,keepsSeparators]
    cases s with
    | none => exact retainsNil.congr (by simp)
    | some s => exact (retainsLost s.2).congr (by simp [nextSolid])
  | cons t rest =>
    intro n level
    obtain ⟨m,tail⟩ := levelTail level
    rw [layTerms,keepsSeparators]
    split
    · rename_i blank
      rw [blankNext blank]
      exact (layTermsKept s rest started before fits m tail).blank blank
    rename_i solid
    rw [solidNext solid]
    split
    · rename_i separates
      have others := layTermsKept (some ⟨t,separates⟩) rest started (some t) (fun bare => by cases bare) m tail
      cases s with
      | none => exact others.congr (by simp [fits rfl])
      | some s => exact ((retainsLost s.2).append others).congr (by simp [separates])
    rename_i plain
    have word : (!t.isSeparator) := by simp [plain]
    split
    · rename_i function
      obtain ⟨inside,closing,behind,whole,size,cut,closes,inner,outer⟩ := blockRest (by simp [opens,function]) level
      rw [cut,whole]
      have call := layCallKept t inside closing closes inner
      have others := layTermsKept none behind true (some t) (fun _ => word) n outer
      exact (retainsTerm started s call others).congr (by simp [plain])
    split
    · rename_i kind
      have opens : t.opens := by rcases kind with kind | kind <;> simp [opens,kind]
      obtain ⟨inside,closing,behind,whole,size,cut,closes,inner,outer⟩ := blockRest opens level
      rw [cut,whole]
      have block := retainsBlock t cut
      have others := layTermsKept none behind true (some t) (fun _ => word) n outer
      exact (retainsTerm started s block others).congr (by simp [plain])
    · have value : Retains (spelled (Layout.word t).chunks) [t] True := retainsToken t
      have others := layTermsKept none rest true (some t) (fun _ => word) m tail
      exact (retainsTerm started s value others).congr (by simp [plain])
termination_by 2 * ts.length
theorem layCallKept (function args closing) (closes : closing.closes)
    (level : levelOver (fun _ => false) 0 args = some 0) :
    Retains (spelled (layCall function args).chunks) (function :: (args ++ [closing]))
      (keepsSeparators (isMath function.functionName && (readOperand .edge args).isSome) none args) := by
  have terms : Retains (spelled (layTerms none args).chunks) args (keepsSeparators false none args) :=
    (layTermsKept none args false none (fun _ => rfl) 0 level).congr (by simp)
  rcases callShape function.functionName args with ⟨url,string,one⟩ | empty | ⟨other,filled⟩
  · have plain : isMath function.functionName = false := by
      rw [isMath,eq_of_beq url]
      decide
    rw [layCallLocation url one,plain]
    rw [layTermsOne rfl rfl one] at terms
    exact retainsParentheses terms closes
  · have bare := trimTokensNone empty
    rw [layCallEmpty empty,operandBlanks bare,Option.isSome_none,Bool.and_false]
    rw [layTermsBlanks none bare] at terms
    exact retainsParentheses terms closes
  · rw [layCallFilled other filled,layArguments]
    cases math : isMath function.functionName with
    | false => exact retainsCall (rowText _) terms closes
    | true =>
      rw [← layOperandRead .edge args]
      cases found : layOperand .edge args with
      | none => exact retainsCall (rowText _) terms closes
      | some r => exact retainsCall (operandsText r.1 r.2) (layOperandKept .edge args none 0 level r found) closes
termination_by 2 * args.length + 1
theorem layOperandKept (place ts before) :
    ∀ n, levelOver (fun _ => false) n ts = some 0 → ∀ r, layOperand place ts = some r →
      Retains (spelled (operandChunks before r.1 r.2)) ts (keepsSeparators true before ts) := by
  cases ts with
  | nil =>
    intro _ _ r found
    rw [layOperand] at found
    cases found
  | cons t rest =>
    intro n level r found
    obtain ⟨m,tail⟩ := levelTail level
    rw [keepsSeparators]
    by_cases blank : t.isBlank
    · rw [if_pos blank]
      exact @Retains.blank _ [] rest _ t blank (layOperandKept place rest before m tail r (operandBlank blank found))
    rw [layOperand,if_neg (by simp [solidKind blank])] at found
    rw [if_neg blank]
    split at found
    · rename_i kind
      obtain ⟨inside,closing,behind,whole,size,cut,closes,inner,outer⟩ := blockRest (by simp [opens,kind]) level
      rw [insideClosed cut,cut] at found
      rw [cut]
      obtain ⟨l,grouped,ops,others,rfl⟩ : ∃ l, ((layOperand .parens inside).bind fun r => r.2.whole r.1) = some l ∧
          ∃ ops, layOperators place.inner behind = some ops ∧ (l,ops) = r := by simpa [Option.bind_eq_some_iff] using found
      obtain ⟨r,reads,joined⟩ := Option.bind_eq_some_iff.mp grouped
      have plain := hiddenPlain (groupHidden kind).1
      obtain ⟨chunks,arranged⟩ := wholeCases joined
      have value : blockOperand t inside = some l.component := by
        simp [blockOperand,kind,← layOperandRead .parens inside,reads,arranged]
      have group := layOperandKept .parens inside none 0 inner r reads
      obtain ⟨later,next⟩ := layOperatorsKept place.inner behind t plain n outer ops others
      have stays : groupStays before t inside (nextSolid behind) =
          needsGroup (before.map operator) l.component ops.next := by
        simp [groupStays,value,next]
      rw [if_neg (Bool.eq_false_iff.mp plain),if_neg (by simp [kind]),if_pos ⟨kind,rfl⟩,drop_one,tail_cons,stays,whole,
        operandChunks]
      rw [← show l.chunks = operandChunks none r.1 r.2 from chunks] at group
      cases needsGroup (before.map operator) l.component ops.next with
      | true =>
        have shape : spelled (bracketed true l.chunks ++ ops.behind) =
            ⟨.leftParen,[40]⟩ :: (spelled l.chunks ++ [⟨.rightParen,[41]⟩]) ++ spelled ops.behind := by
          simp [bracketed,Chunk.tokens]
        rw [shape]
        exact ((group.group kind closes).append later).congr (by simp)
      | false =>
        have shape : spelled (bracketed false l.chunks ++ ops.behind) = spelled l.chunks ++ spelled ops.behind := by
          simp [bracketed]
        rw [shape]
        exact ((group.ungroup kind closes).append later).congr (by simp; tauto)
    split at found
    · rename_i paren function
      obtain ⟨inside,closing,behind,whole,size,cut,closes,inner,outer⟩ := blockRest (by simp [opens,function]) level
      rw [insideClosed cut,cut] at found
      rw [cut]
      obtain ⟨ops,others,rfl⟩ := Option.map_eq_some_iff.mp found
      have plain : t.isSeparator = false := by simp [isSeparator,isDelim,function]
      have call := layCallKept t inside closing closes inner
      have later := (layOperatorsKept place.inner behind t plain n outer ops others).1
      rw [if_neg (Bool.eq_false_iff.mp plain),if_pos function,whole]
      exact (retainsOperand (layCallSingle t inside) call later).congr (by simp)
    split at found
    · rename_i paren call kind
      obtain ⟨ops,others,rfl⟩ := Option.map_eq_some_iff.mp found
      have plain : t.isSeparator = false := by
        rcases kind with kind | kind | kind | kind <;> simp [isSeparator,isDelim,kind]
      have value : Retains (spelled (Layout.word t).chunks) [t] True := retainsToken t
      have later := (layOperatorsKept place.inner rest t plain m tail ops others).1
      rw [if_neg (Bool.eq_false_iff.mp plain),if_neg call,if_neg (by simp [paren]),
        if_neg (by rcases kind with kind | kind | kind | kind <;> simp [kind])]
      exact (retainsOperand (tokenSingle t) value later).congr (by simp)
    · cases found
termination_by 2 * ts.length
decreasing_by
  all_goals
    simp only [length_cons]
    omega
theorem layOperatorsKept (place ts before) (value : before.isSeparator = false) :
    ∀ n, levelOver (fun _ => false) n ts = some 0 → ∀ r, layOperators place ts = some r →
      Retains (spelled r.behind) ts (keepsSeparators true (some before) ts) ∧
        ∀ b c, needsGroup b c r.next = needsGroup b c ((nextSolid ts).map operator) := by
  cases ts with
  | nil =>
    intro _ _ r found
    rw [layOperators] at found
    cases found
    rw [keepsSeparators]
    exact ⟨retainsNil.congr (by simp),fun _ _ => rfl⟩
  | cons t rest =>
    intro n level r found
    obtain ⟨m,tail⟩ := levelTail level
    rw [keepsSeparators]
    by_cases blank : t.isBlank
    · obtain ⟨place',skipped⟩ := operatorsBlank blank found
      obtain ⟨retains,next⟩ := layOperatorsKept place' rest before value m tail r skipped
      rw [if_pos blank,blankNext blank]
      exact ⟨@Retains.blank _ [] rest _ t blank retains,next⟩
    rw [layOperators,if_neg (solidKind blank).1,if_neg (by simp [solidKind blank])] at found
    rw [if_neg blank,solidNext blank]
    split at found
    · rename_i sign
      obtain ⟨operand,others,rfl⟩ := Option.map_eq_some_iff.mp found
      have later := layOperandKept place rest (some t) m tail operand others
      refine ⟨(retainsSign later).congr ?_,fun _ _ => rfl⟩
      have kind : t.kind = .delim := of_decide_eq_true (Bool.and_eq_true_iff.mp sign.1).1
      by_cases separates : t.isSeparator
      · simp [separates,value,operandNext others]
      · simp [separates,kind]
    split at found
    · rename_i comma
      have separates : t.isSeparator := by simp [isSeparator,comma.1]
      rw [if_pos separates]
      split at found
      · rename_i empty
        cases found
        rw [List.isEmpty_iff.mp empty]
        exact ⟨(retainsLost separates).congr (by simp [nextSolid]),
          fun b c => by simp [needsGroup,Operands.next,operator,comma.1,isFactor]⟩
      · obtain ⟨operand,others,rfl⟩ := Option.map_eq_some_iff.mp found
        have later := layOperandKept .edge rest (some t) m tail operand others
        exact ⟨(retainsSign later).congr (by simp [value,operandNext others]),fun _ _ => rfl⟩
    · cases found
termination_by 2 * ts.length
end

/- The separators of a value are printed in their order and at their levels if and only if each of them stands between
two values and in parentheses that stay. -/
theorem separatorsPrinted (ts : List Token) (balanced : Balanced ts) :
    (printed ts).flatMap Chunk.text = Term.textOf (readValue ts) ∧
    ((spelled (printed ts)).filter isSolid).Sublist (ts.filter isSolid) ∧
    ((spelled (printed ts)).filter isSolid).filter (!·.isSeparator) =
      (ts.filter isSolid).filter (!·.isSeparator) ∧
    (placed 0 (spelled (printed ts)) = placed 0 ts ↔ keepsSeparators false none ts = true) := by
  have retains := layTermsKept none ts false none (fun _ => rfl) 0 balanced
  refine ⟨printedText ts,retains.fewer,retains.words,?_⟩
  exact (retains.same 0 0 (Int.le_refl 0)).trans (by simp)

theorem separatorsKeptAndLost :
    let kept : List Token := [⟨.function,ascii "rgb("⟩,⟨.ident,ascii "a"⟩,⟨.comma,[44]⟩,⟨.ident,ascii "b"⟩,⟨.rightParen,[41]⟩]
    let lost : List Token := [⟨.function,ascii "var("⟩,⟨.ident,ascii "--x"⟩,⟨.comma,[44]⟩,⟨.rightParen,[41]⟩]
    let moved : List Token := [⟨.function,ascii "calc("⟩,⟨.leftParen,[40]⟩,⟨.ident,ascii "a"⟩,⟨.delim,[47]⟩,⟨.ident,ascii "b"⟩,
      ⟨.rightParen,[41]⟩,⟨.delim,[42]⟩,⟨.ident,ascii "c"⟩,⟨.rightParen,[41]⟩]
    placed 0 (spelled (printed kept)) = placed 0 kept ∧
    Term.textOf (readValue lost) = ascii "var(--x)" ∧ placed 0 (spelled (printed lost)) ≠ placed 0 lost ∧
    Term.textOf (readValue moved) = ascii "calc(a/b*c)" ∧ placed 0 (spelled (printed moved)) ≠ placed 0 moved := by
  intro kept lost moved
  exact ⟨(separatorsPrinted kept rfl).2.2.2.mpr (by decide +kernel),by decide +kernel⟩

end Cascade
