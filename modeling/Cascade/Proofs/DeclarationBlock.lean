import Cascade.Proofs.NameOrder
import Cascade.Proofs.Repeated

/-! What a block of declarations applies to a property. Dropping overridden longhands and repeated declarations never
changes it; sorting by name does when a competitor of the winner sorts behind it. -/
namespace Cascade
open List Declaration
open Declaration (isImportant optimizeAll text)

def hasSay (p : Bytes) (d : Declaration) : Bool := d.key == p || (shorthandsOf p).contains d.key

def rivals (p : Bytes) (ds : List Declaration) : List Declaration := ds.filter (hasSay p)

def applied (p : Bytes) (ds : List Declaration) : Option Declaration :=
  ((rivals p ds).filter isImportant).getLast?.or (rivals p ds).getLast?

/- Blocks in which a text stands for one name and one importance. -/
def Distinct (ds : List Declaration) : Prop :=
  ∀ d ∈ ds, ∀ e ∈ ds, d.text = e.text → d.key = e.key ∧ d.isImportant = e.isImportant

theorem lastImportant (ds) :
    (ds.filter isImportant).getLast?.or ds.getLast? =
      strongest isImportant ds := by
  cases hs : strongest isImportant ds with
  | none => rw [strongestEqNone.mp hs]; rfl
  | some w =>
    cases hw : w.isImportant with
    | true =>
      have even : strongest isImportant (ds.filter isImportant) = (ds.filter isImportant).getLast? := by
        apply strongestEven
        intro a ha b hb
        rw [(mem_filter.mp ha).2,(mem_filter.mp hb).2]
      rw [← even,strongestFilter hs hw]
      rfl
    | false =>
      have plain : ∀ a ∈ ds, a.isImportant = false := by
        intro a ha
        have top := strongestMax hs a ha
        rw [hw] at top
        exact Bool.eq_false_of_le_false top
      have empty : ds.filter isImportant = [] :=
        filter_eq_nil_iff.mpr fun a ha => by simp [plain a ha]
      rw [empty,← hs]
      exact (strongestEven fun a ha b hb => by rw [plain a ha,plain b hb]).symm

theorem appliedStrongest (p ds) : applied p ds = strongest isImportant (rivals p ds) := lastImportant _

theorem shorthandsTable : ∀ row ∈ longhands, ∀ q ∈ row.2, ∀ s ∈ shorthandsOf q, s ∈ row.2 := by
  decide +kernel

theorem shorthandsTrans {p q s} (hq : q ∈ shorthandsOf p) (hs : s ∈ shorthandsOf q) : s ∈ shorthandsOf p := by
  unfold shorthandsOf at hq ⊢
  cases found : longhands.lookup p with
  | none => rw [found] at hq; cases hq
  | some list =>
    rw [found] at hq
    obtain ⟨_,_,split,_⟩ := lookup_eq_some_iff.mp found
    exact shorthandsTable (p,list) (by rw [split]; simp) q hq s hs

theorem hasSayOfShorthand {p d e} (say : hasSay p d) (short : e.key ∈ shorthandsOf d.key) : hasSay p e := by
  simp only [hasSay,Bool.or_eq_true,beq_iff_eq,contains_iff_mem] at say ⊢
  rcases say with same | hidden
  · rw [same] at short
    exact .inr short
  · exact .inr (shorthandsTrans hidden short)

theorem prunedStep (d ds) : (withoutOverridden (d :: ds)).1 = d :: (withoutOverridden ds).1 ∨
    isOverridden (withoutOverridden ds).2 d ∧ (withoutOverridden (d :: ds)).1 = (withoutOverridden ds).1 := by
  rw [withoutOverridden]
  split
  · exact .inl rfl
  split
  · rename_i hidden
    exact .inr ⟨hidden,rfl⟩
  · exact .inl rfl

theorem withoutOverriddenSublist (ds) : (withoutOverridden ds).1.Sublist ds := by
  induction ds with
  | nil => exact List.Sublist.refl _
  | cons d ds ih =>
    rcases prunedStep d ds with stays | ⟨_,goes⟩
    · exact stays ▸ ih.cons_cons d
    · exact goes ▸ ih.cons d

theorem declaredStays {ds name important} (h : (withoutOverridden ds).2.lookup name = some important) :
    ∃ d ∈ (withoutOverridden ds).1, d.key = name ∧ d.isImportant = important := by
  induction ds with
  | nil => cases h
  | cons d ds ih =>
    rw [withoutOverridden] at h ⊢
    split at h
    · rename_i seen
      rw [if_pos seen]
      obtain ⟨e,mem,found⟩ := ih h
      exact ⟨e,mem_cons_of_mem _ mem,found⟩
    rename_i fresh
    rw [if_neg fresh]
    split at h
    · rename_i hidden
      rw [if_pos hidden]
      exact ih h
    rename_i stays
    rw [if_neg stays]
    rw [lookup_cons] at h
    split at h
    · rename_i same
      cases h
      exact ⟨d,mem_cons_self,(beq_iff_eq.mp same).symm,rfl⟩
    · obtain ⟨e,mem,found⟩ := ih h
      exact ⟨e,mem_cons_of_mem _ mem,found⟩

theorem overriddenLater {ds d} (h : isOverridden (withoutOverridden ds).2 d) :
    ∃ e ∈ (withoutOverridden ds).1, e.key ∈ shorthandsOf d.key ∧ d.isImportant ≤ e.isImportant := by
  obtain ⟨short,mem,hidden⟩ := any_eq_true.mp h
  cases found : (withoutOverridden ds).2.lookup short with
  | none => rw [found] at hidden; cases hidden
  | some important =>
    rw [found] at hidden
    obtain ⟨e,stays,same,imp⟩ := declaredStays found
    refine ⟨e,stays,by rw [same]; exact mem,?_⟩
    rw [imp]
    cases important with
    | true => exact Bool.le_true _
    | false =>
      have plain : d.isImportant = false := by simpa using hidden
      rw [plain]

theorem rivalsPruned (p ds) : Thinned isImportant (rivals p ds) (rivals p (withoutOverridden ds).1) := by
  induction ds with
  | nil => exact .nil
  | cons d ds ih =>
    rcases prunedStep d ds with stays | ⟨hidden,goes⟩
    · rw [stays]
      cases say : hasSay p d with
      | true =>
        rw [rivals,rivals,filter_cons_of_pos say,filter_cons_of_pos say]
        exact .keep ih
      | false =>
        rw [rivals,rivals,filter_cons_of_neg (by simp [say]),
          filter_cons_of_neg (by simp [say])]
        exact ih
    · rw [goes]
      cases say : hasSay p d with
      | true =>
        obtain ⟨e,mem,short,le⟩ := overriddenLater hidden
        rw [rivals,filter_cons_of_pos say]
        exact .drop ⟨e,mem_filter.mpr ⟨mem,hasSayOfShorthand say short⟩,le⟩ ih
      | false =>
        rw [rivals,filter_cons_of_neg (by simp [say])]
        exact ih

theorem appliedPruned (p ds) : applied p (withoutOverridden ds).1 = applied p ds := by
  rw [appliedStrongest,appliedStrongest,thinnedStrongest (rivalsPruned p ds)]

theorem hasSayOfKey {p d e} (h : d.key = e.key) : hasSay p d = hasSay p e := by
  rw [hasSay,hasSay,h]

theorem appliedUnrepeated (p) {ds} (distinct : Distinct ds) : applied p (lastBy text ds) = applied p ds := by
  rw [appliedStrongest,appliedStrongest]
  refine (thinnedStrongest (lastByThinned ?_)).symm
  intro d hd e he same
  obtain ⟨name,important⟩ := distinct d hd e he same
  exact ⟨hasSayOfKey name,important⟩

section
variable {c : Bytes → Bytes → Ordering} [Std.TransCmp c]

/- Sorting puts the last of the names behind all others, so the winner stays in front of
none of its competitors exactly if its own name is that last one. -/
theorem appliedSorted (p) (ds : List Declaration) :
    applied p (ds.mergeSort (inOrder c)) = applied p ds ↔
      ∀ w, applied p ds = some w → ∀ d ∈ ds, hasSay p d → d.isImportant = w.isImportant →
        inOrder c d w := by
  have sorted : (rivals p (ds.mergeSort (inOrder c))).Pairwise (fun a b => inOrder c a b) :=
    (pairwise_mergeSort inOrderTrans inOrderTotal ds).filter _
  have member : ∀ d, d ∈ rivals p (ds.mergeSort (inOrder c)) ↔ d ∈ rivals p ds := by
    intro d
    simp only [rivals,mem_filter,mem_mergeSort]
  -- In the sorted block every competitor of the winner stands before it.
  have ahead : ∀ w, strongest isImportant (rivals p (ds.mergeSort (inOrder c))) = some w →
      ∀ d ∈ rivals p ds, d.isImportant = w.isImportant → inOrder c d w := by
    intro w hw d mem same
    obtain ⟨ls,rs,split,_,behind⟩ := strongestSplit hw
    have there := (member d).mpr mem
    rw [split] at there sorted
    rcases mem_append.mp there with front | back
    · exact (pairwise_append.mp sorted).2.2 d front w mem_cons_self
    · rcases mem_cons.mp back with rfl | back
      · exact inOrderSame rfl
      · exact absurd same (behind d back).ne
  rw [appliedStrongest,appliedStrongest]
  constructor
  · intro kept w hw d mem say same
    exact ahead w (kept.trans hw) d (mem_filter.mpr ⟨mem,say⟩) same
  · intro last
    cases hw : strongest isImportant (rivals p ds) with
    | none =>
      rw [strongestEqNone] at hw ⊢
      exact eq_nil_iff_forall_not_mem.mpr fun d mem => by simpa [hw] using (member d).mp mem
    | some w =>
      obtain ⟨v,hv,most⟩ := strongestOfMem isImportant ((member w).mpr (strongestMem hw))
      have there := (member v).mp (strongestMem hv)
      have same : v.isImportant = w.isImportant := le_antisymm (strongestMax hw v there) most
      have forth := last w hw v (mem_filter.mp there).1 (mem_filter.mp there).2 same
      have back := ahead v hv w (strongestMem hw) same.symm
      have name := inOrderBoth forth back
      -- Both win among the declarations of one name, and sorting leaves these in order.
      have one : strongest isImportant ((rivals p ds).filter fun d => d.key == w.key) =
          some w := strongestFilter hw (by simp)
      have two : strongest isImportant ((rivals p (ds.mergeSort (inOrder c))).filter fun d => d.key == w.key) = some v :=
        strongestFilter hv (by simp [name])
      have order : (rivals p (ds.mergeSort (inOrder c))).filter (fun d => d.key == w.key) =
          (rivals p ds).filter fun d => d.key == w.key := by
        rw [rivals,rivals,filter_comm,sortedKey,filter_comm]
      rw [hv,← two,order,one]

theorem arrangedApplies (p) {ds} (distinct : Distinct ds) :
    applied p (arrangedBy c ds) = applied p ds ↔
      ∀ w, applied p ds = some w → ∀ d ∈ (withoutOverridden ds).1, hasSay p d → d.isImportant = w.isImportant →
        inOrder c d w := by
  have fewer : Distinct (withoutOverridden ds).1 := by
    intro d hd e he
    have sub := (withoutOverriddenSublist ds).subset
    exact distinct d (sub hd) e (sub he)
  have before : applied p (lastBy text (withoutOverridden ds).1) = applied p ds :=
    (appliedUnrepeated p fewer).trans (appliedPruned p ds)
  have sorting := appliedSorted (c := c) p (lastBy text (withoutOverridden ds).1)
  rw [before] at sorting
  rw [arrangedBy,sorting]
  constructor
  · intro last w hw d mem say same
    obtain ⟨e,stays,text⟩ := lastByCovers text mem
    obtain ⟨name,important⟩ := fewer e ((lastBySublist _).subset stays) d mem text
    have behind := last w hw e stays (hasSayOfKey name ▸ say) (important.trans same)
    exact inOrderTrans d e w (inOrderSame name.symm) behind
  · intro last w hw d mem say same
    exact last w hw d ((lastBySublist _).subset mem) say same

end

/- The winner of an optimized block is that of its optimized declarations exactly if none of those that stay, have a say
and are as important as the winner sorts behind it, whatever order the names are in. -/
theorem optimizedBlockApplies (ctx : Context) (block : List Declaration) (p : Bytes)
    (distinct : Distinct (optimizeAll ctx block).value) :
    (applied p (optimizeDeclarations ctx block).value =
        applied p (optimizeAll ctx block).value ↔
      ∀ w, applied p (optimizeAll ctx block).value = some w →
        ∀ d ∈ (withoutOverridden (optimizeAll ctx block).value).1,
          hasSay p d = true → d.isImportant = w.isImportant → nameAtMost d w = true) ∧
    ∀ c : Bytes → Bytes → Ordering, Std.TransCmp c →
      (applied p (arrangedBy c (optimizeAll ctx block).value) =
          applied p (optimizeAll ctx block).value ↔
        ∀ w, applied p (optimizeAll ctx block).value = some w →
          ∀ d ∈ (withoutOverridden (optimizeAll ctx block).value).1,
            hasSay p d = true → d.isImportant = w.isImportant → inOrder c d w = true) := by
  refine ⟨?_,fun c _ => arrangedApplies p distinct⟩
  rw [optimizeDeclarations,Noted.valueBind,Noted.valuePure,arrangedWeigh,nameAtMostWeigh]
  exact arrangedApplies p distinct

theorem arrangeSingle (d) : arrangeDeclarations [d] = [d] := by
  have free : isOverridden [] d = false := by simp [isOverridden]
  simp [arrangeDeclarations,withoutOverridden,free,lastBy,sortDeclarations]

theorem needsDeclarationFree (name) : ({} : Minimums).needsDeclaration name := by
  have free : ∀ cutoffs, ({} : Minimums).outgrows cutoffs = false := by
    intro cutoffs
    rw [Minimums.outgrows,any_eq_false]
    rintro ⟨browser,version⟩ _
    cases browser <;> exact Bool.false_ne_true
  have above : ({} : Minimums).isAbove .ie 6 = false := rfl
  rw [Minimums.needsDeclaration,above,Bool.and_false,if_neg Bool.false_ne_true]
  split
  · rw [free]; rfl
  · rfl

def wordDeclaration (name word : String) : Declaration :=
  .property (ascii name) [⟨0,.ident (ascii word)⟩] false false

def sideBeforeColor : List Declaration :=
  [wordDeclaration "border-top" "aqua",wordDeclaration "border-color" "blue"]

theorem sideBeforeColorValue : (optimizeAll {} sideBeforeColor).value = sideBeforeColor := by
  simp only [sideBeforeColor,wordDeclaration,optimizeAll,optimize,
    needsDeclarationFree]
  rfl

theorem sideBeforeColorDistinct : Distinct sideBeforeColor := by
  intro d hd e he
  simp only [sideBeforeColor,mem_cons,not_mem_nil,or_false] at hd he
  rcases hd with rfl | rfl <;> rcases he with rfl | rfl <;> decide

theorem sideBeforeColorMisapplied :
    Distinct (optimizeAll {} sideBeforeColor).value ∧
    applied (ascii "border-top-color") (optimizeAll {} sideBeforeColor).value =
      some (wordDeclaration "border-color" "blue") ∧
    applied (ascii "border-top-color") (optimizeDeclarations {} sideBeforeColor).value ≠
      applied (ascii "border-top-color") (optimizeAll {} sideBeforeColor).value := by
  have same := optimizedBlockApplies {} sideBeforeColor (ascii "border-top-color")
  rw [sideBeforeColorValue] at same ⊢
  have decides : applied (ascii "border-top-color") sideBeforeColor =
      some (wordDeclaration "border-color" "blue") := rfl
  refine ⟨sideBeforeColorDistinct,decides,?_⟩
  intro kept
  have order := (same sideBeforeColorDistinct).1.mp kept (wordDeclaration "border-color" "blue") decides
    (wordDeclaration "border-top" "aqua") mem_cons_self (by decide) rfl
  exact absurd order (by decide +kernel)

end Cascade
