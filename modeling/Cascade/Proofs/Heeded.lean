import Cascade.Proofs.Claimants
import Cascade.Proofs.DeclarationBlock
import Cascade.Proofs.Joined
import Mathlib.Logic.Relation

/-! Two rulesets made one, by joining their selectors or their blocks. A browser may ignore declarations it does not
understand; the winner is the one before, but for having been optimized again or being written alike. -/
namespace Cascade
open List
open Declaration (optimizeAll again isCustomName)
open Claimant (weight Like)

/- A property that no shorthand sets, as a browser sees it that need not understand every
declaration. -/
def heeds (p : Bytes) (understands : Declaration → Bool) (d : Declaration) : Bool :=
  d.key == p && understands d

section
variable {p : Bytes} {understands : Declaration → Bool}

theorem prunedHeeds (single : shorthandsOf p = []) (ds) :
    (withoutOverridden ds).1.filter (heeds p understands) = ds.filter (heeds p understands) := by
  induction ds with
  | nil => rfl
  | cons d ds ih =>
    rcases prunedStep d ds with stays | ⟨hidden,goes⟩
    · rw [stays,filter_cons,filter_cons,ih]
    -- Whatever goes has a shorthand, so it is another property.
    cases heeded : heeds p understands d with
    | false => rw [goes,ih,filter_cons_of_neg (by simp [heeded])]
    | true =>
      have name : d.key = p := by
        rw [heeds,Bool.and_eq_true] at heeded
        exact beq_iff_eq.mp heeded.1
      rw [isOverridden,name,single] at hidden
      cases hidden

theorem sortedHeeds (ds) : (sortDeclarations ds).filter (heeds p understands) = ds.filter (heeds p understands) := by
  have split : ∀ es : List Declaration, es.filter (heeds p understands) =
      (es.filter fun d => d.key == p).filter understands := by
    intro es
    rw [filter_filter]
    exact filter_congr fun d _ => Bool.and_comm _ _
  rw [split,split,sortDeclarations,nameAtMostWeigh,sortedKey]

theorem arrangedHeeds (single : shorthandsOf p = []) {ds}
    (alike : ∀ d ∈ ds, ∀ e ∈ ds, d.text = e.text →
      heeds p understands d = heeds p understands e ∧ d.isImportant = e.isImportant) :
    Thinned Declaration.isImportant (ds.filter (heeds p understands))
      ((arrangeDeclarations ds).filter (heeds p understands)) := by
  rw [arrangeDeclarations,sortedHeeds,← prunedHeeds single ds]
  apply lastByThinned
  intro d hd e he
  have sub := (withoutOverriddenSublist ds).subset
  exact alike d (sub hd) e (sub he)

theorem arrangedMem {ds d} (mem : d ∈ arrangeDeclarations ds) : d ∈ ds := by
  rw [arrangeDeclarations,sortDeclarations,mem_mergeSort] at mem
  exact (withoutOverriddenSublist ds).subset ((lastBySublist _).subset mem)

end

def Rerun (ctx : Context) : Declaration → Declaration → Prop :=
  Relation.ReflTransGen fun d e => e = d.again ctx ∨ d.text = e.text

/- Selectors and declarations that can be told apart, and a browser that takes what is
written alike and what is optimized again for the same. -/
structure Reading (ctx : Context) (pool : Component → Prop) (known : Declaration → Prop)
    (understands : Declaration → Bool) : Prop where
  mild : ctx.Mild
  settled : ∀ s, pool s → Settled ctx s
  lists : Separable 44 Component.text Component.text pool
  blocks : Separable 59 Declaration.text Declaration.face known
  again : ∀ d, known d → known (d.again ctx)
  lasting : ∀ d, known d → d.Lasting ctx
  plain : ∀ d, d.overridesFallbacks = true → understands d = true
  alike : ∀ d e, known d → known e → d.text = e.text → understands d = understands e
  steadfast : ∀ d, known d → understands (d.again ctx) = understands d

theorem Reading.spared {ctx pool known}
    {understands} (reading : Reading ctx pool known understands) (s)
    (_ : pool s) : Spared ctx s := Or.inl reading.mild.keeps

theorem extendContent {ctx} {a b : Ruleset} : (a.extend ctx b).value.content =
    arrangeDeclarations (optimizeAll ctx (a.content ++ b.content)).value := rfl

section
variable {ctx : Context} {pool : Component → Prop} {known : Declaration → Prop}
  {understands : Declaration → Bool} (reading : Reading ctx pool known understands) (p : Bytes)
include reading

theorem heedsAgain {d} (h : known d) : heeds p understands (d.again ctx) = heeds p understands d := by
  rw [heeds,heeds,(reading.lasting d h).name,reading.steadfast d h]

theorem rerunHeeds {ds : List Declaration} (all : ∀ d ∈ ds, known d) :
    List.Forall₂ (fun d e => d.isImportant = e.isImportant ∧ Rerun ctx d e)
      (ds.filter (heeds p understands))
      ((ds.map (again ctx)).filter (heeds p understands)) := by
  induction ds with
  | nil => exact .nil
  | cons d ds ih =>
    have tail := ih fun e mem => all e (mem_cons_of_mem _ mem)
    have here := heedsAgain reading p (all d mem_cons_self)
    rw [map_cons]
    cases heeded : heeds p understands d with
    | false =>
      rw [filter_cons_of_neg (by simp [heeded]),filter_cons_of_neg (by simp [here,heeded])]
      exact tail
    | true =>
      rw [filter_cons_of_pos heeded,filter_cons_of_pos (here.trans heeded)]
      exact .cons ⟨(againImportant d).symm,.single (.inl rfl)⟩ tail

theorem textHeeds {d e} (hd : known d) (he : known e) (text : d.text = e.text) :
    heeds p understands d = heeds p understands e ∧ d.isImportant = e.isImportant := by
  have faces := reading.blocks [d] [e] (by simpa using hd) (by simpa using he) (by simpa using text)
  obtain ⟨key,important,_⟩ := faceParts (head_eq_of_cons_eq faces)
  refine ⟨?_,important⟩
  rw [heeds,heeds,key,reading.alike d e hd he text]

end

section
variable {σ : Type} [LinearOrder σ] {ctx : Context} {pool : Component → Prop}
  {known : Declaration → Prop} {understands : Declaration → Bool} {p : Bytes} {v : Sight σ}
  (reading : Reading ctx pool known understands) (admits : v.admits = heeds p understands)
  {a b : Ruleset}
include reading admits

theorem unionKeeps (left : Made pool (∀ d ∈ ·, known d) a) (right : Made pool (∀ d ∈ ·, known d) b)
    (same : a.body = b.body) :
    Option.Rel (Like (Rerun ctx))
      (strongest weight (v.claimants a ++ v.claimants b))
      (strongest weight (v.claimants (a.union ctx b).value)) := by
  have faces := reading.blocks b.content a.content right.content left.content same.symm
  refine claimantsUnion reading.spared reading.settled left right (fun _ => .refl) v
    (faceForall faces ?_)
  intro d hd e he face
  obtain ⟨key,important,text⟩ := faceParts face
  have understood := reading.alike d e (right.content d hd) (left.content e he) text
  exact ⟨important,by rw [admits,heeds,heeds,key,understood],.single (.inr text)⟩

theorem extendKeeps (single : shorthandsOf p = []) (left : Made pool (∀ d ∈ ·, known d) a)
    (right : Made pool (∀ d ∈ ·, known d) b) (same : a.selector.text = b.selector.text) :
    Option.Rel (Like (Rerun ctx))
      (strongest weight (v.claimants a ++ v.claimants b))
      (strongest weight (v.claimants (a.extend ctx b).value)) := by
  have texts : a.texts = b.texts := by
    rw [textOfTexts,textOfTexts] at same
    exact reading.lists a.selectors b.selectors left.selectors right.selectors same
  have all : ∀ d ∈ a.content ++ b.content, known d := by
    intro d mem
    exact (mem_append.mp mem).elim (left.content d) (right.content d)
  have content : (a.extend ctx b).value.content = arrangeDeclarations ((a.content ++ b.content).map (again ctx)) := by
    rw [extendContent,optimizeAllLasting fun d mem => reading.lasting d (all d mem)]
  have extended : v.claimants (a.extend ctx b).value = claims (v.highest a.texts)
      ((arrangeDeclarations ((a.content ++ b.content).map (again ctx))).filter
        (heeds p understands)) := by
    rw [Sight.claimants,content,admits]
    rfl
  have joined : v.claimants a ++ v.claimants b =
      claims (v.highest a.texts) ((a.content ++ b.content).filter (heeds p understands)) := by
    rw [Sight.claimants,Sight.claimants,← texts,← claimsAppend,admits,filter_append]
  rw [joined,extended]
  refine relTrans (likeTrans fun _ _ _ => .trans)
    (strongestRel likeEven (claimsLike (rerunHeeds reading p all))) ?_
  rw [thinnedStrongest (claimsThinned _ (arrangedHeeds single ?_))]
  · exact relRefl (likeRefl fun _ => .refl) _
  · intro d hd e he text
    obtain ⟨d',from',rfl⟩ := mem_map.mp hd
    obtain ⟨e',from'',rfl⟩ := mem_map.mp he
    exact textHeeds reading p (reading.again d' (all d' from')) (reading.again e' (all e' from'')) text

end

theorem madeExtend {ctx pool} {known : Declaration → Prop} {a b}
    (again : ∀ d, known d → known (d.again ctx)) (lasting : ∀ d, known d → d.Lasting ctx)
    (left : Made pool (∀ d ∈ ·, known d) a) (right : Made pool (∀ d ∈ ·, known d) b) :
    Made pool (∀ d ∈ ·, known d) (a.extend ctx b).value := by
  have all : ∀ d ∈ a.content ++ b.content, known d := by
    intro d mem
    exact (mem_append.mp mem).elim (left.content d) (right.content d)
  refine ⟨left.selectors,?_⟩
  intro d mem
  rw [extendContent] at mem
  have old := arrangedMem mem
  rw [optimizeAllLasting fun d mem => lasting d (all d mem)] at old
  obtain ⟨e,there,rfl⟩ := mem_map.mp old
  exact again e (all e there)

def cautious : Context := { keepHacks := true }

theorem cautiousMild : cautious.Mild := ⟨rfl,rfl⟩

section
variable {d d' e e' : Declaration}

theorem optimizeOne (h : (d.optimize cautious).value = (d',true)) : (optimizeAll cautious [d]).value = [d'] := by
  simp only [optimizeAll,Noted.valueBind,Noted.valuePure,h,if_true]

theorem optimizeBoth (first : (d.optimize cautious).value = (d',true))
    (second : (e.optimize cautious).value = (e',true)) : (optimizeAll cautious [d,e]).value = [d',e'] := by
  simp only [optimizeAll,Noted.valueBind,Noted.valuePure,first,second,if_true]

end

theorem valueRests {name value important slashNine} (same : propertyName name = name)
    (written : finishedValue cautious name value = value) (full : value ≠ []) :
    ((Declaration.property name value important slashNine).optimize cautious).value =
      (.property name value important slashNine,true) := by
  have needed : cautious.minimums.needsDeclaration name := needsDeclarationFree _
  rw [optimizeProperty cautiousMild.keeps,same,written,if_pos needed,isEmpty_eq_false_iff.mpr full]
  rfl

theorem customRests {name value} (custom : isCustomName name)
    (full : value ≠ []) : ((Declaration.property name value false false).optimize cautious).value =
      (.property name value false false,true) := by
  refine valueRests (if_pos custom) ?_ full
  rw [finishedValue,finishValue,if_pos custom,Noted.valuePure]

theorem wordRests (name word) (custom : isCustomName (ascii name)) :
    ((wordDeclaration name word).optimize cautious).value = (wordDeclaration name word,true) :=
  customRests custom (cons_ne_nil _ _)

end Cascade
