import Cascade.Proofs.FullSelector

/-! Selectors and lists of them. Once optimized they are as short as they get: optimizing them
again changes nothing, whatever the optimization has to heed. -/
namespace Cascade
open List Component
open Component (text again optimize optimizeAll)
open Noted (valueBind)

def Component.isWord : Component → Bool
  | .ident _ => true
  | _ => false

def Component.isFormula : Component → Bool
  | .linear .. | .multiple _ | .number _ | .ident _ => true
  | _ => false

mutual

def Component.isProper : Component → Bool
  | .id _ | .className _ | .element .. | .attr .. | .pseudoElement _ | .pseudoClass _ => true
  | .pseudoCall _ args => args.all fun t => t.value.isWord
  | .nth _ formula => formula.isFormula
  | .negation s | .selectorCall _ s => s.isProper
  | .compound cs => areProper cs
  | .complex _ left right => left.isProper && right.isProper
  | .list ss => areProper ss && ss.all fun s => !s.isList
  | _ => false

def Component.areProper : List Component → Bool
  | [] => true
  | c :: cs => c.isProper && areProper cs

end

theorem properMem {cs} (h : areProper cs) : ∀ c ∈ cs, c.isProper := by
  induction cs with
  | nil => exact forall_mem_nil _
  | cons c cs ih =>
    rw [areProper,Bool.and_eq_true] at h
    exact forall_mem_cons.mpr ⟨h.1,ih h.2⟩

theorem optimizedSingle {ctx} {c : Component} (proper : c.isProper)
    (single : c.isList = false) : (c.again ctx).isList = false := by
  cases c with
  | list => cases single
  | attr name comparison value flag =>
    cases value with
    | none => rfl
    | some value => cases value <;> rfl
  | complex kind left right =>
    rw [again,optimize,valueBind]
    split <;> rfl
  | id | className | element | pseudoElement | pseudoClass | pseudoCall | nth | negation | selectorCall
  | compound => rfl
  | _ => cases proper

theorem wordsTwice {ctx ts} (words : (ts.all fun t => t.value.isWord)) : (Term.optimize ctx ts).value = ts := by
  induction ts with
  | nil => rfl
  | cons t ts ih =>
    obtain ⟨op,value⟩ := t
    rw [all_cons,Bool.and_eq_true] at words
    cases value with
    | ident name => rw [Term.optimize,valueBind,valueBind,Noted.valuePure,ih words.2]; rfl
    | _ => cases words.1

theorem formulaTwice (ctx) {f : Component} (formula : f.isFormula) :
    finishFormula ((finishFormula (f.again ctx)).again ctx) = finishFormula (f.again ctx) := by
  have word : ∀ name, finishFormula ((ident name).again ctx) = .ident (lower name) := fun _ => rfl
  cases f with
  | linear step offset =>
    have once : (linear step offset).again ctx =
        if offset == 0.0 then .multiple step else .linear step offset := rfl
    rw [once]
    cases zero : offset == 0.0 with
    | true => rfl
    | false =>
      rw [if_neg Bool.false_ne_true,finishFormula]
      split
      · rw [word]
        rfl
      · rename_i other
        rw [once,zero,if_neg Bool.false_ne_true,finishFormula,if_neg other]
  | ident name => rw [word,word,lowerTwice]
  | multiple | number => rfl
  | _ => cases formula

def Component.bare : Component → Component
  | .quoted value => if isIdent value then .ident value else .quoted value
  | c => c

theorem bareTwice (c : Component) : c.bare.bare = c.bare := by
  cases c with
  | quoted value =>
    rw [bare]
    split
    · rfl
    · rename_i quotes
      rw [bare,if_neg quotes]
  | _ => rfl

theorem againAttr (ctx name comparison value flag) :
    (attr name comparison value flag).again ctx =
      .attr (lower name) comparison (value.map bare) (lower flag) := by
  cases value with
  | none => rfl
  | some value => cases value <;> rfl

section
variable {ctx : Context}

theorem arrangeTwice (aggressive ss) :
    arrangeSelectors aggressive (arrangeSelectors aggressive ss) = arrangeSelectors aggressive ss := by
  have sorted := (pairwise_mergeSort (textsTrans text) (textsTotal text) ss).sublist
    (@distinctFromSublist _ text [] _)
  have still : distinctBy text (sortSelectors (distinctBy text (sortSelectors ss))) =
      distinctBy text (sortSelectors ss) :=
    (congrArg _ (mergeSort_of_pairwise sorted)).trans (distinctTwice _)
  cases aggressive with
  | false => exact still
  | true =>
    have once : arrangeSelectors true ss = absorbUniversal (distinctBy text (sortSelectors ss)) := rfl
    rw [once]
    rcases absorbCases (distinctBy text (sortSelectors ss)) with same | ⟨s,_,single⟩
    · rw [same]
      exact (congrArg absorbUniversal still).trans same
    · rw [single]
      simp [arrangeSelectors,sortSelectors,distinctBy,distinctFrom,absorbUniversal]

theorem leftTwice (ctx ss) : leftSelectors ctx (leftSelectors ctx ss) = leftSelectors ctx ss := by
  unfold leftSelectors
  split
  · exact arrangeTwice _ _
  · -- No hack is left to go.
    rw [filter_eq_self.mpr fun s mem => (mem_filter.mp (arrangeMem mem)).2,arrangeTwice]

theorem leftMem {ss s} (mem : s ∈ leftSelectors ctx ss) : s ∈ ss := by
  have kept := arrangeMem mem
  split at kept
  · exact kept
  · exact mem_of_mem_filter kept

theorem selectorsRest {ss} (full : ss ≠ []) (rest : ∀ s ∈ ss, s.Rests ctx)
    (same : leftSelectors ctx ss = ss) : (ofSelectors ss).Rests ctx := by
  have kept : ((list ss).optimize ctx).value = ⟨.ofSelectors ss,true⟩ := by
    rw [listOutcome,survivorsRest rest,same]
    split
    · exact absurd rfl full
    · rfl
  cases ss with
  | nil => exact absurd rfl full
  | cons s ss =>
    cases ss with
    | nil => exact rest s mem_cons_self
    | cons => exact kept

theorem listRests {ss} (rest : ∀ s ∈ ss, s.Lasts ctx → (s.again ctx).Rests ctx)
    (lasts : (list ss).Lasts ctx) : ((list ss).again ctx).Rests ctx := by
  rw [Component.Lasts,listOutcome] at lasts
  rw [again,listOutcome]
  split at lasts
  · cases lasts
  rename_i full
  refine selectorsRest full (fun s mem => ?_) (leftTwice ctx _)
  obtain ⟨c,there,stays,rfl⟩ := survivorsFrom (leftMem mem)
  exact rest c there stays

theorem compoundOutcome (ctx cs) : ((compound cs).optimize ctx).value =
    ⟨.compound (compoundConditions ctx (Outcome.survivors (optimizeAll ctx cs).value)),
      !(compoundConditions ctx (Outcome.survivors (optimizeAll ctx cs).value)).isEmpty⟩ := rfl

theorem conditionsTwice (ctx cs) : compoundConditions ctx (compoundConditions ctx cs) = compoundConditions ctx cs := by
  have narrow : ∀ ds : List Component, (∀ c ∈ ds, (c.text != universal)) → distinctBy text ds = ds →
      compoundConditions ctx ds = ds := by
    intro ds others distinct
    rw [compoundConditions,distinct]
    split
    · exact filter_eq_self.mpr others
    · rfl
  by_cases several : (ctx.aggressive && 1 < (distinctBy text cs).length)
  · have once : compoundConditions ctx cs = (distinctBy text cs).filter fun c => c.text != universal :=
      if_pos several
    rw [once]
    refine narrow _ (fun c mem => (mem_filter.mp mem).2) (distinctFromSelf ?_ fun _ _ => not_mem_nil)
    exact (distinctFromNodup [] cs).sublist (filter_sublist.map _)
  · have once : compoundConditions ctx cs = distinctBy text cs := if_neg several
    rw [once,compoundConditions,distinctTwice,if_neg several]

theorem compoundRests {cs} (rest : ∀ c ∈ cs, c.Lasts ctx → (c.again ctx).Rests ctx)
    (lasts : (compound cs).Lasts ctx) : ((compound cs).again ctx).Rests ctx := by
  rw [Component.Lasts,compoundOutcome] at lasts
  rw [again,compoundOutcome]
  generalize left : compoundConditions ctx (Outcome.survivors (optimizeAll ctx cs).value) = conditions at lasts ⊢
  have members : ∀ c ∈ conditions, c.Rests ctx := by
    intro c mem
    obtain ⟨d,there,stays,rfl⟩ := survivorsFrom (conditionsMem (left ▸ mem))
    exact rest d there stays
  have still : compoundConditions ctx conditions = conditions := by rw [← left,conditionsTwice]
  rw [Component.Rests,compoundOutcome,survivorsRest members,still]
  exact congrArg _ lasts

end

section
variable {ctx : Context} {kind : UInt8} {left right : Component}

theorem complexLasts : (complex kind left right).Lasts ctx ↔ left.Lasts ctx ∧ right.Lasts ctx := by
  unfold Component.Lasts
  rw [optimize,valueBind]
  split
  · rename_i kept
    rw [valueBind,Noted.valuePure]
    simp [kept]
  · rename_i lost
    simp [lost]

theorem complexAgain (lasts : left.Lasts ctx) :
    (complex kind left right).again ctx = .complex kind (left.again ctx) (right.again ctx) := by
  unfold Component.Lasts at lasts
  rw [again,optimize,valueBind,if_pos lasts]
  rfl

theorem complexRests (first : left.Rests ctx) (second : right.Rests ctx) : (complex kind left right).Rests ctx := by
  obtain ⟨leftLasts,leftSame⟩ := restsIff.mp first
  obtain ⟨rightLasts,rightSame⟩ := restsIff.mp second
  rw [restsIff,complexLasts,complexAgain leftLasts,leftSame,rightSame]
  exact ⟨⟨leftLasts,rightLasts⟩,rfl⟩

end

mutual

theorem properRests {ctx} : ∀ c : Component, c.isProper → c.Lasts ctx → (c.again ctx).Rests ctx
  | .id _,_,_ | .className _,_,_ => rfl
  | .element name ns hasNs,_,_ => restsIff.mpr
    ⟨rfl,congrArg₂ (fun name ns => element name ns hasNs) (lowerTwice name) (lowerTwice ns)⟩
  | .attr name comparison value flag,_,_ => by
    rw [restsIff,againAttr,againAttr,lowerTwice,lowerTwice,Option.map_map]
    refine ⟨steadyLasts ctx rfl,?_⟩
    congr 2
    exact funext bareTwice
  | .pseudoElement name,_,_ => restsIff.mpr ⟨rfl,congrArg pseudoElement (lowerTwice name)⟩
  | .pseudoClass name,_,_ => restsIff.mpr ⟨rfl,congrArg pseudoClass (lowerTwice name)⟩
  | .pseudoCall name args,words,_ => by
    have once : ∀ name, (pseudoCall name args).again ctx = .pseudoCall (lower name) args := by
      intro name
      rw [again,optimize,valueBind,Noted.valuePure,wordsTwice words]
    rw [restsIff,once,once,lowerTwice]
    exact ⟨rfl,rfl⟩
  | .nth name formula,proper,_ => restsIff.mpr
    ⟨rfl,congrArg₂ nth (lowerTwice name) (formulaTwice ctx proper)⟩
  | .negation s,proper,lasts => by
    obtain ⟨stays,same⟩ := restsIff.mp (properRests s proper lasts)
    exact restsIff.mpr ⟨stays,congrArg negation same⟩
  | .selectorCall name s,proper,lasts => by
    obtain ⟨stays,same⟩ := restsIff.mp (properRests s proper lasts)
    exact restsIff.mpr ⟨stays,congrArg₂ selectorCall (lowerTwice name) same⟩
  | .compound cs,proper,lasts => compoundRests (membersRest cs proper) lasts
  | .complex kind left right,proper,lasts => by
    rw [isProper,Bool.and_eq_true] at proper
    obtain ⟨first,second⟩ := complexLasts.mp lasts
    rw [complexAgain first]
    exact complexRests (properRests left proper.1 first) (properRests right proper.2 second)
  | .list ss,proper,lasts => by
    rw [isProper,Bool.and_eq_true] at proper
    exact listRests (membersRest ss proper.1) lasts

theorem membersRest {ctx} : ∀ cs : List Component, areProper cs →
    ∀ c ∈ cs, c.Lasts ctx → (c.again ctx).Rests ctx
  | [],_ => forall_mem_nil _
  | c :: cs,proper => by
    rw [areProper,Bool.and_eq_true] at proper
    exact forall_mem_cons.mpr ⟨properRests c proper.1,membersRest cs proper.2⟩

end

theorem properSettled {ctx} (mild : ctx.Mild) {c : Component} (proper : c.isProper)
    (lasts : c.Lasts ctx) : ∀ s ∈ (c.again ctx).selectors, Settled ctx s := by
  have narrow : ∀ s : Component, ctx.aggressive → s.text ≠ universal := by
    intro s thorough
    cases mild.cautious.symm.trans thorough
  have whole : (c.again ctx).Rests ctx := properRests c proper lasts
  cases single : c.isList with
  | false =>
    have still := @optimizedSingle ctx c proper single
    rw [selectorsSingle still]
    intro s mem
    rw [mem_singleton.mp mem]
    exact ⟨still,whole,narrow _⟩
  | true =>
    cases c with
    | list ss =>
      rw [isProper,Bool.and_eq_true] at proper
      have each : ∀ s ∈ remaining ctx ss, Settled ctx s := by
        intro s mem
        obtain ⟨t,there,stays,rfl⟩ := remainingFrom mem
        have alone : t.isList = false := by simpa using all_eq_true.mp proper.2 t there
        exact ⟨optimizedSingle (properMem proper.1 t there) alone,
          membersRest ss proper.1 t there stays,narrow _⟩
      rw [listAgain mild lasts,selectorsOfSelectors fun s mem => (each s mem).single]
      exact each
    | _ => cases single

end Cascade
