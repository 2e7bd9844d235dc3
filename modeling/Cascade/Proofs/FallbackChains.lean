import Cascade.Proofs.DeclaredNames
import Cascade.Proofs.OutdoneLonghands

/-! The declarations of one name in a block, fallbacks before what is to apply. -/
namespace Cascade
open List Declaration
open Declaration (text key optimizeAll)

variable {d : Declaration} {ds : List Declaration}

def chain (p : Bytes) (ds : List Declaration) : List Declaration := ds.filter fun d => d.key == p

/- The declarations of a name, but for those that count as written again behind them. -/
def lastUnless (again : Bytes → List Declaration → Bool) (p : Bytes) : List Declaration → List Declaration
  | [] => []
  | d :: ds => if d.key == p && !again d.text ds then d :: lastUnless again p ds else lastUnless again p ds

def lastWritten : Bytes → List Declaration → List Declaration :=
  lastUnless fun t ds => (ds.map text).contains t

section
variable {p : Bytes}

theorem chainCons (d ds) : chain p (d :: ds) = if d.key = p then d :: chain p ds else chain p ds := by
  simp only [chain,filter_cons,beq_iff_eq]

theorem chainMem : d ∈ chain p ds ↔ d ∈ ds ∧ d.key = p := by
  rw [chain,mem_filter,beq_iff_eq]

theorem lastWrittenOther (other : d.key ≠ p) (ds) : lastWritten p (d :: ds) = lastWritten p ds := by
  rw [lastWritten,lastUnless,if_neg (by simp [other])]

theorem lastWrittenOwn (name : d.key = p) (ds) :
    lastWritten p (d :: ds) =
      if d.text ∈ ds.map text then lastWritten p ds else d :: lastWritten p ds := by
  rw [lastWritten,lastUnless]
  by_cases again : d.text ∈ ds.map text <;> simp [name,again]

theorem lastWrittenCongr (d) {xs ys} (rest : lastWritten p xs = lastWritten p ys)
    (texts : d.key = p → (d.text ∈ xs.map text ↔ d.text ∈ ys.map text)) :
    lastWritten p (d :: xs) = lastWritten p (d :: ys) := by
  by_cases name : d.key = p
  · rw [lastWrittenOwn name,lastWrittenOwn name,rest]
    exact if_congr (texts name) rfl rfl
  · rw [lastWrittenOther name,lastWrittenOther name,rest]

theorem chainUnrepeated (ds) : chain p (lastBy text ds) = lastWritten p ds := by
  induction ds with
  | nil => rfl
  | cons d ds ih =>
    rw [lastBy,lastWritten,lastUnless,← lastWritten,← ih]
    cases again : (ds.map text).contains d.text with
    | true => rw [if_pos rfl,if_neg (by simp)]
    | false =>
      rw [if_neg Bool.false_ne_true,chainCons]
      simp

section
variable {again fewer : Bytes → List Declaration → Bool}

theorem lastUnlessCons (d ds) : lastUnless again p (d :: ds) =
    if d.key = p ∧ again d.text ds = false then d :: lastUnless again p ds else lastUnless again p ds := by
  rw [lastUnless]
  simp

theorem lastUnlessSame (fewest : ∀ t ds, fewer t ds → again t ds) (ds) :
    (lastUnless again p ds).Sublist (lastUnless fewer p ds) ∧
    (lastUnless again p ds = lastUnless fewer p ds ↔
      ∀ d after, d :: after <:+ ds → d.key = p → again d.text after → fewer d.text after) := by
  induction ds with
  | nil => exact ⟨List.Sublist.refl _,by simp [lastUnless]⟩
  | cons d ds ih =>
    obtain ⟨shorter,same⟩ := ih
    have tail : ∀ q : Declaration → List Declaration → Prop,
        (∀ e after, e :: after <:+ d :: ds → q e after) ↔ q d ds ∧ ∀ e after, e :: after <:+ ds → q e after := by
      intro q
      simp only [suffix_cons_iff,cons.injEq,or_imp,forall_and]
      exact and_congr_left fun _ => ⟨fun whole => whole d ds ⟨rfl,rfl⟩,by rintro whole _ _ ⟨rfl,rfl⟩; exact whole⟩
    rw [lastUnlessCons,lastUnlessCons,tail fun e after => e.key = p → again e.text after → fewer e.text after]
    by_cases name : d.key = p
    · cases left : again d.text ds with
      | false =>
        have right : fewer d.text ds = false := by
          rw [Bool.eq_false_iff]
          exact fun less => absurd (fewest _ _ less) (Bool.eq_false_iff.mp left)
        simpa [name,right,same] using shorter
      | true =>
        cases right : fewer d.text ds with
        | true => simpa [name,same] using shorter
        | false =>
          have apart : lastUnless again p ds ≠ d :: lastUnless fewer p ds := by
            intro longer
            have size := shorter.length_le
            rw [longer,length_cons] at size
            omega
          simpa [name,apart] using shorter.cons d
    · simpa [name,same] using shorter

end

end

section
variable {p : Bytes}

theorem chainPruned (single : shorthandsOf p = []) (ds) : chain p (withoutOverridden ds).1 = chain p ds := by
  have heeded : ∀ es : List Declaration, chain p es = es.filter (heeds p fun _ => true) := by
    intro es
    exact filter_congr fun d _ => (Bool.and_true _).symm
  rw [heeded,heeded,prunedHeeds single]

theorem singleRemains (single : shorthandsOf d.key = []) : ¬Goes d ds := by
  rw [goesIff]
  rintro ⟨_,e,outdoes⟩
  simpa [single] using outdoes.short

theorem singleStays (mem : d ∈ ds) (single : shorthandsOf d.key = []) : d ∈ (withoutOverridden ds).1 := by
  have here : d ∈ chain d.key (withoutOverridden ds).1 := by
    rw [chainPruned single]
    exact chainMem.mpr ⟨mem,rfl⟩
  exact (chainMem.mp here).1

end

/- Whether each declaration of a name has a shorthand of it declared behind it. -/
def lapses (p : Bytes) : List Declaration → Bool
  | [] => true
  | d :: ds => (d.key != p || ds.any fun e => (shorthandsOf p).contains e.key) && lapses p ds

/- Whether a shorthand takes the place of a declaration before it. That of an important one is taken by an important one
only, and not if a lesser one of the same name stays behind it. -/
def isCovered (d : Declaration) : List Declaration → Bool
  | [] => false
  | e :: ds =>
    (shorthandsOf d.key).contains e.key && (!d.isImportant || e.isImportant && lapses e.key ds) || isCovered d ds

def areCovered (p : Bytes) : List Declaration → Bool
  | [] => true
  | d :: ds => (d.key != p || isCovered d ds) && areCovered p ds

section
variable {p : Bytes} {e : Declaration} {after : List Declaration}

theorem lastKept (front) (last : lastOf p (withoutOverridden after).1 = some e) :
    lastOf p (withoutOverridden (front ++ after)).1 = some e := by
  obtain ⟨kept,same⟩ := prunedSuffix front after
  rw [same,lastOfAppend,last]
  rfl

theorem standsFor (front e behind) : ∃ f, lastOf f.key (withoutOverridden (front ++ e :: behind)).1 = some f ∧
    (∀ {q}, e.key ∈ shorthandsOf q → f.key ∈ shorthandsOf q) ∧
    (e.isImportant ≤ f.isImportant ∨ lastOf e.key (withoutOverridden behind).1 = some f) := by
  by_cases goes : Goes e behind
  · obtain ⟨f,outdoes⟩ := (goesIff.mp goes).2
    exact ⟨f,lastKept front (by rw [prunedGoes goes]; exact outdoes.last),(shorthandsTrans · outdoes.short),
      .inl outdoes.strong⟩
  · have last := lastOfCons (p := e.key) e (withoutOverridden behind).1
    rw [← prunedStays goes,if_pos (beq_self_eq_true _)] at last
    cases found : lastOf e.key (withoutOverridden behind).1 with
    | none =>
      rw [found] at last
      exact ⟨e,lastKept front last,id,.inl (Bool.le_refl _)⟩
    | some f =>
      rw [found] at last
      have key := (lastOfKey found).2
      exact ⟨f,by rw [key]; exact lastKept front last,fun short => by rwa [key],.inr rfl⟩

theorem outdoneShort (mem : e ∈ after) (short : e.key ∈ shorthandsOf d.key) (plain : d.isImportant = false) :
    ∃ f, Outdoes f d after := by
  obtain ⟨front,behind,rfl⟩ := append_of_mem mem
  obtain ⟨f,last,further,_⟩ := standsFor front e behind
  exact ⟨f,last,further short,by rw [plain]; exact Bool.false_le _⟩

theorem lapsesNone (bare : ∀ e ∈ (withoutOverridden ds).1, e.key ≠ p) : lapses p ds := by
  induction ds with
  | nil => rfl
  | cons d ds ih =>
    rw [lapses,Bool.and_eq_true,Bool.or_eq_true,bne_iff_ne]
    by_cases goes : Goes d ds
    · rw [prunedGoes goes] at bare
      refine ⟨Classical.or_iff_not_imp_left.mpr fun name => ?_,ih bare⟩
      obtain ⟨e,outdoes⟩ := (goesIff.mp goes).2
      have mem := (withoutOverriddenSublist ds).subset (lastOfKey outdoes.last).1
      rw [← not_ne_iff.mp name]
      exact any_eq_true.mpr ⟨e,mem,contains_iff_mem.mpr outdoes.short⟩
    · rw [prunedStays goes] at bare
      obtain ⟨here,others⟩ := forall_mem_cons.mp bare
      exact ⟨.inl here,ih others⟩

theorem lapsesLast (lapse : lapses p ds) (last : lastOf p (withoutOverridden ds).1 = some e) : e.isImportant := by
  induction ds with
  | nil => cases last
  | cons d ds ih =>
    rw [lapses,Bool.and_eq_true,Bool.or_eq_true,bne_iff_ne] at lapse
    by_cases goes : Goes d ds
    · rw [prunedGoes goes] at last
      exact ih lapse.2 last
    rw [prunedStays goes,lastOfCons] at last
    cases found : lastOf p (withoutOverridden ds).1 with
    | some f =>
      rw [found] at last
      exact ih lapse.2 (found.trans last)
    | none =>
      rw [found] at last
      obtain ⟨rfl,rfl⟩ : d.key = p ∧ d = e := by
        cases name : d.key == p <;> simp_all
      obtain ⟨f,mem,short⟩ := any_eq_true.mp (lapse.1.resolve_left (· rfl))
      by_contra plain
      have outdone := outdoneShort mem (contains_iff_mem.mp short) (Bool.eq_false_iff.mpr plain)
      exact goes (goesIff.mpr ⟨lastOfNone.mp found,outdone⟩)

theorem coveredOutdone (covered : isCovered d after) : ∃ e, Outdoes e d after := by
  suffices found : ∀ front ds, after = front ++ ds → isCovered d ds → ∃ e, Outdoes e d after from found [] after rfl covered
  clear covered
  intro front ds split covered
  induction ds generalizing front with
  | nil => cases covered
  | cons e ds ih =>
    rw [isCovered,Bool.or_eq_true,Bool.and_eq_true,contains_iff_mem] at covered
    rcases covered with ⟨short,strong⟩ | later
    · cases important : d.isImportant with
      | false => exact outdoneShort (by simp [split]) short important
      | true =>
        obtain ⟨most,lapse⟩ : e.isImportant ∧ lapses e.key ds := by simpa [important] using strong
        obtain ⟨f,last,further,least⟩ := standsFor front e ds
        refine ⟨f,by rw [split]; exact last,further short,?_⟩
        rw [important]
        rcases least with least | found
        · rwa [most] at least
        · rw [lapsesLast lapse found]
    · exact ih (front ++ [e]) (by simp [split]) later

theorem outdoneCovered (outdoes : Outdoes e d after) : isCovered d after := by
  obtain ⟨last,short,strong⟩ := outdoes
  induction after with
  | nil => cases last
  | cons x ds ih =>
    rw [isCovered,Bool.or_eq_true,Bool.and_eq_true,contains_iff_mem]
    by_cases goes : Goes x ds
    · rw [prunedGoes goes] at last
      exact .inr (ih last)
    rw [prunedStays goes,lastOfCons] at last
    cases found : lastOf e.key (withoutOverridden ds).1 with
    | some f =>
      rw [found] at last
      exact .inr (ih (found.trans last))
    | none =>
      rw [found] at last
      obtain rfl : x = e := by
        cases name : x.key == e.key <;> simp_all
      refine .inl ⟨short,?_⟩
      cases important : d.isImportant with
      | false => rfl
      | true =>
        rw [important] at strong
        simp [Bool.eq_true_of_true_le strong,lapsesNone (lastOfNone.mp found)]

theorem noneCovered (p ds) : (∀ e ∈ (withoutOverridden ds).1, e.key ≠ p) ↔ areCovered p ds := by
  induction ds with
  | nil => simp [withoutOverridden,areCovered]
  | cons d ds ih =>
    rw [areCovered,Bool.and_eq_true,Bool.or_eq_true,bne_iff_ne,← ih]
    by_cases goes : Goes d ds
    · obtain ⟨_,e,outdoes⟩ := goesIff.mp goes
      rw [prunedGoes goes]
      exact ⟨fun bare => ⟨.inr (outdoneCovered outdoes),bare⟩,fun both => both.2⟩
    · rw [prunedStays goes,forall_mem_cons]
      refine and_congr_left fun bare => ⟨.inl,fun free => ?_⟩
      rintro rfl
      exact goes (goesIff.mpr ⟨bare,coveredOutdone (free.resolve_left (· rfl))⟩)

/- A declaration goes exactly if a shorthand takes its place and that of each declaration of its name behind it. -/
theorem goesCovered : Goes d after ↔ areCovered d.key (d :: after) := by
  rw [goesIff,noneCovered,areCovered,Bool.and_eq_true,bne_self_eq_false,Bool.false_or,and_comm]
  exact and_congr_left fun _ => ⟨fun ⟨_,outdoes⟩ => outdoneCovered outdoes,coveredOutdone⟩

end

/- Whether a text is written by a declaration that does not go. -/
def isWritten (t : Bytes) : List Declaration → Bool
  | [] => false
  | d :: ds => d.text == t && !areCovered d.key (d :: ds) || isWritten t ds

theorem writtenPruned (t ds) : isWritten t ds ↔ t ∈ (withoutOverridden ds).1.map text := by
  induction ds with
  | nil => simp [isWritten,withoutOverridden]
  | cons d ds ih =>
    rw [isWritten,Bool.or_eq_true,Bool.and_eq_true,Bool.not_eq_true',beq_iff_eq,ih,← Bool.not_eq_true,← goesCovered]
    by_cases goes : Goes d ds
    · simp [prunedGoes goes,goes]
    · simp [prunedStays goes,goes,eq_comm]

section
variable {p : Bytes} (single : shorthandsOf p = [])
include single

theorem lastWrittenPruned (ds) : lastWritten p (withoutOverridden ds).1 = lastUnless isWritten p ds := by
  induction ds with
  | nil => rfl
  | cons d ds ih =>
    rw [lastUnlessCons,← ih]
    by_cases goes : Goes d ds
    · have other : d.key ≠ p := by
        rintro rfl
        exact singleRemains single goes
      rw [prunedGoes goes,if_neg fun both => other both.1]
    · rw [prunedStays goes]
      by_cases name : d.key = p
      · have again := writtenPruned d.text ds
        rw [lastWrittenOwn name]
        cases written : isWritten d.text ds <;> simp_all
      · rw [lastWrittenOther name,if_neg fun both => name both.1]

omit single in
theorem lastWrittenChain (ds) :
    lastWritten p (chain p ds) = lastUnless (fun t ds => ((chain p ds).map text).contains t) p ds := by
  induction ds with
  | nil => rfl
  | cons d ds ih =>
    rw [lastUnlessCons,← ih,chainCons]
    by_cases name : d.key = p
    · rw [if_pos name,lastWrittenOwn name]
      by_cases again : d.text ∈ (chain p ds).map text <;> simp [name,again]
    · simp [name]

end

/- A declaration that is named as a declaration can be, which in the case of a filter is no longhand. -/
def Declaration.IsNamed : Declaration → Prop
  | .property name .. => Unparted name
  | .filter name _ => Unparted name ∧ shorthandsOf (lower name) = []

theorem longhandsTable : ∀ row ∈ longhands, lower row.1 = row.1 ∧ (∀ s ∈ row.2, lower s = s) ∧
    row.1.all (fun b => b != 58 && b != 92) := by
  decide +kernel

theorem longhandRow {p s} (short : s ∈ shorthandsOf p) : lower p = p ∧ lower s = s ∧ ∀ b ∈ p, b ≠ 58 ∧ b ≠ 92 := by
  rw [shorthandsOf] at short
  cases found : longhands.lookup p with
  | none => simp [found] at short
  | some row =>
    rw [found] at short
    obtain ⟨_,_,split,_⟩ := lookup_eq_some_iff.mp found
    obtain ⟨name,shorts,plain⟩ := longhandsTable (p,row) (by simp [split])
    exact ⟨name,shorts s short,by simpa using plain⟩

theorem plainParted {name} (plain : ∀ b ∈ name, b ≠ 58 ∧ b ≠ 92) (s : Bytes) : ¬Unparted (name ++ 58 :: s) := by
  induction name with
  | nil => exact fun one => one rfl
  | cons b name ih =>
    obtain ⟨here,others⟩ := forall_mem_cons.mp plain
    rw [cons_append,unpartedCons (by simp [isMark,here])]
    exact ih others

/- What is written like a longhand is one, since the name ends at the first colon. -/
theorem longhandText {e : Declaration} (left : d.IsNamed) (right : e.IsNamed) (text : d.text = e.text)
    (single : shorthandsOf d.key = []) : shorthandsOf e.key = [] := by
  cases e with
  | filter name value => exact right.2
  | property q value important slashNine =>
    rw [eq_nil_iff_forall_not_mem]
    intro s short
    obtain ⟨lowered,_,plain⟩ := longhandRow (p := q) short
    have named : Unparted d.rawName := by
      cases d with
      | property => exact left
      | filter => exact left.1
    obtain ⟨x,hx⟩ := textName d
    obtain ⟨y,hy⟩ := textName (.property q value important slashNine)
    rw [hx,hy,rawName] at text
    -- The one name is the other, or goes on behind it with a colon.
    have same : d.rawName = q := by
      rcases append_eq_append_iff.mp text with ⟨back,longer,rest⟩ | ⟨back,longer,rest⟩
      · cases back with
        | nil => rw [longer,append_nil]
        | cons b back => exact absurd (List.cons.inj rest).1.symm (plain b (by simp [longer])).1
      cases back with
      | nil => rw [longer,append_nil]
      | cons b back =>
        rw [longer,← (List.cons.inj rest).1] at named
        exact absurd named (plainParted plain back)
    have key : d.key = q := by
      cases d with
      | property => exact same
      | filter name _ => rw [Declaration.key,show name = q from same,lowered]
    rw [key] at single
    rw [Declaration.key,single] at short
    cases short

section
variable {c : Bytes → Bytes → Ordering} [Std.TransCmp c]

theorem arrangedOrdered (ds) : (arrangedBy c ds).Pairwise fun a b => inOrder c a b :=
  pairwise_mergeSort inOrderTrans inOrderTotal _

theorem chainArranged (p ds) : chain p (arrangedBy c ds) = lastWritten p (withoutOverridden ds).1 := by
  rw [arrangedBy,chain,sortedKey]
  exact chainUnrepeated _

end

section
variable {ctx : Context}

theorem isReadNamed (read : d.IsRead) : d.IsNamed := by
  have one := isReadUnparted read
  cases d with
  | property => exact one
  | filter name text =>
    refine ⟨one,?_⟩
    obtain ⟨mode,source,i,mem,made⟩ := read
    cases i with
    | declaration name' value =>
      rw [Item.declared,readDeclaration] at made
      dsimp only at made
      split at made
      · rename_i old
        cases made
        rw [isOldFilter,Bool.and_eq_true] at old
        rcases mem_pair.mp (contains_iff_mem.mp old.1) with plain | vendored
        · rw [plain]
          rfl
        · rw [vendored]
          rfl
      · cases made
    | custom => cases made
    | _ => cases made

theorem againNamed (named : d.IsNamed) : (d.again ctx).IsNamed := by
  cases d with
  | filter name value => rwa [againFilter]
  | property written value important slashNine =>
    obtain ⟨value',becomes⟩ := againProperty written value important slashNine
    rw [becomes]
    show Unparted (propertyName written)
    rw [propertyName]
    split
    · exact named
    · rwa [Unparted,lowerMark]

end

def Declaration.alone (ctx : Context) (d : Declaration) : Option Declaration :=
  if (d.optimize ctx).value.2 then some (d.again ctx) else none

theorem restingAlone {ctx} (rests : (d.optimize ctx).value = (d,true)) : d.alone ctx = some d := by
  rw [alone,again,rests]
  rfl

theorem optimizeAllAlone (ctx ds) : (optimizeAll ctx ds).value = ds.filterMap (alone ctx) := by
  induction ds with
  | nil => rfl
  | cons d ds ih =>
    rw [optimizeAll,filterMap_cons,← ih,alone]
    simp only [Noted.valueBind,Noted.valuePure]
    cases (d.optimize ctx).value.2 <;> rfl

theorem optimizedArranged (ctx block) :
    (optimizeDeclarations ctx block).value = arrangedBy weigh (block.filterMap (alone ctx)) := by
  rw [← arrangedWeigh,← optimizeAllAlone]
  rfl

/- What is left of a name: all but what a declaration that stays writes again. That is all but what is written again in
the block unless a declaration that goes writes it last, and all but what is written again for the name itself unless
one of another name writes it. -/
structure ChainKept (c : Bytes → Bytes → Ordering) (p : Bytes) (kept result : List Declaration) : Prop where
  rest : chain p result = lastUnless isWritten p kept
  block : chain p result = lastWritten p kept ↔ ∀ d after, d :: after <:+ kept → d.key = p →
    d.text ∈ after.map text → isWritten d.text after = true
  own : chain p result = lastWritten p (chain p kept) ↔ ∀ d after, d :: after <:+ kept → d.key = p →
    isWritten d.text after = true → ∃ e ∈ after, e.key = p ∧ e.text = d.text
  order : result.Pairwise fun a b => nameOrder c a.key b.key ≠ .gt

theorem arrangedChain {c} [Std.TransCmp c] {p} (single : shorthandsOf p = [])
    (kept) : ChainKept c p kept (arrangedBy c kept) := by
  have rest : chain p (arrangedBy c kept) = lastUnless isWritten p kept := by
    rw [chainArranged,lastWrittenPruned single]
  refine ⟨rest,?_,?_,(arrangedOrdered kept).imp fun ordered => bne_iff_ne.mp ordered⟩
  · have fewest : ∀ t ds, isWritten t ds → (ds.map text).contains t := fun t ds written =>
      contains_iff_mem.mpr (((withoutOverriddenSublist ds).map text).subset ((writtenPruned t ds).mp written))
    rw [rest,eq_comm,lastWritten,(lastUnlessSame fewest kept).2]
    simp only [contains_iff_mem]
  · have fewest : ∀ t ds, ((chain p ds).map text).contains t → isWritten t ds := by
      intro t ds there
      obtain ⟨e,mem,rfl⟩ := mem_map.mp (contains_iff_mem.mp there)
      obtain ⟨named,rfl⟩ := chainMem.mp mem
      exact (writtenPruned _ ds).mpr (mem_map_of_mem (singleStays named single))
    rw [rest,lastWrittenChain,(lastUnlessSame fewest kept).2]
    simp only [contains_iff_mem,mem_map,chainMem,and_assoc]

theorem aloneNamed {ctx} {block : List Declaration} (read : ∀ d ∈ block, d.IsRead) :
    ∀ d ∈ block.filterMap (alone ctx), d.IsNamed := by
  intro d mem
  obtain ⟨e,there,left⟩ := mem_filterMap.mp mem
  rw [alone] at left
  split at left
  · cases left
    exact againNamed (isReadNamed (read e there))
  · cases left

theorem readChain {c} [Std.TransCmp c] {p ctx} {block : List Declaration} (single : shorthandsOf p = [])
    (read : ∀ d ∈ block, d.IsRead) : chain p (arrangedBy c (block.filterMap (alone ctx))) =
      lastWritten p (block.filterMap (alone ctx)) := by
  have named : ∀ d ∈ block.filterMap (alone ctx), d.IsNamed := aloneNamed read
  refine (arrangedChain single _).block.mpr fun d after behind name again => ?_
  obtain ⟨e,mem,text⟩ := mem_map.mp again
  have all := cons_subset.mp behind.subset
  have free := longhandText (named d all.1) (named e (all.2 mem)) text.symm (by rw [name,single])
  rw [writtenPruned,← text]
  exact mem_map_of_mem (singleStays mem free)

/- Of a property that no shorthand sets the declarations are left as they stand, but for those that declarations behind
them write again and do not go, and the block as a whole is in the order of its names. -/
theorem fallbackChainKept (ctx : Context) (block : List Declaration) {p : Bytes} (single : shorthandsOf p = []) :
    ChainKept weigh p (block.filterMap (alone ctx)) (optimizeDeclarations ctx block).value ∧
      ((∀ d ∈ block, d.IsRead) →
        chain p (optimizeDeclarations ctx block).value = lastWritten p (block.filterMap (alone ctx))) ∧
      ∀ c : Bytes → Bytes → Ordering, Std.TransCmp c →
        ChainKept c p (block.filterMap (alone ctx)) (arrangedBy c (block.filterMap (alone ctx))) := by
  rw [optimizedArranged]
  exact ⟨arrangedChain single _,readChain single,fun c _ => arrangedChain single _⟩

def animatedTwice : List Declaration :=
  [wordDeclaration "animation" "spin",wordDeclaration "--x" "y",wordDeclaration "animation" "fade",
    wordDeclaration "animation" "spin"]

def animatedText : Bytes := ascii "animation:spin;--x:y;animation:fade;animation:spin"

theorem animatedTwiceRead : ∀ d ∈ animatedTwice, d.IsRead := by
  have whole : (items .inline animatedText).filterMap Item.declared = animatedTwice := by with_unfolding_all rfl
  rw [← whole]
  exact fun d mem => ⟨.inline,animatedText,mem_filterMap.mp mem⟩

theorem animatedTwiceAlone : animatedTwice.filterMap (alone cautious) = animatedTwice := by
  have animation : ∀ word, (wordDeclaration "animation" word).alone cautious = some (wordDeclaration "animation" word) :=
    fun word => restingAlone (animationRests (ascii word) (ascii "animation") (by simp))
  have custom : (wordDeclaration "--x" "y").alone cautious = some (wordDeclaration "--x" "y") :=
    restingAlone (wordRests "--x" "y" rfl)
  rw [animatedTwice,filterMap_cons_some (animation _),filterMap_cons_some custom,
    filterMap_cons_some (animation _),filterMap_cons_some (animation _),filterMap_nil]

theorem animatedTwiceKept : shorthandsOf (ascii "animation") = [] ∧ (∀ d ∈ animatedTwice, d.IsRead) ∧
    chain (ascii "animation") (optimizeDeclarations cautious animatedTwice).value =
      [wordDeclaration "animation" "fade",wordDeclaration "animation" "spin"] ∧
    (optimizeDeclarations cautious animatedTwice).value.Pairwise fun a b => nameOrder weigh a.key b.key ≠ .gt := by
  have single : shorthandsOf (ascii "animation") = [] := by decide +kernel
  have last : lastWritten (ascii "animation") animatedTwice =
      [wordDeclaration "animation" "fade",wordDeclaration "animation" "spin"] := by
    have fresh : (wordDeclaration "animation" "fade").text ≠ (wordDeclaration "animation" "spin").text := by decide
    have other : (wordDeclaration "--x" "y").key ≠ ascii "animation" := by decide
    have own : ∀ word, (wordDeclaration "animation" word).key = ascii "animation" := fun _ => rfl
    rw [animatedTwice,lastWrittenOwn (own "spin"),if_pos (by simp),lastWrittenOther other,lastWrittenOwn (own "fade"),
      if_neg (by simpa using fresh),lastWrittenOwn (own "spin"),if_neg (by simp),lastWritten,lastUnless]
  obtain ⟨kept,read,_⟩ := fallbackChainKept cautious animatedTwice single
  rw [animatedTwiceAlone] at read
  exact ⟨single,animatedTwiceRead,(read animatedTwiceRead).trans last,kept.order⟩

/- A name that ends in a colon and is written like a longhand that goes. -/
def doubledColon : List Declaration :=
  [.property (ascii "animation-name:") [⟨0,.quoted (ascii "x")⟩] false false,wordDeclaration "animation-name" ":\"x\"",
    wordDeclaration "animation" "x"]

theorem doubledColonAlone : doubledColon.filterMap (alone cautious) = doubledColon := by
  have stays : ∀ name ∈ ["animation-name","animation"], ∀ word,
      (wordDeclaration name word).alone cautious = some (wordDeclaration name word) :=
    fun name mem word => restingAlone (animationRests (ascii word) (ascii name) (mem_map_of_mem mem))
  rw [doubledColon,filterMap_cons_some (restingAlone (valueRests rfl rfl (cons_ne_nil _ _))),
    filterMap_cons_some (stays _ (by simp) _),filterMap_cons_some (stays _ (by simp) _),filterMap_nil]

/- A backslash alone and an escaped colon as names, with values that make up for the difference, and
an escaped comma that sorts between them. -/
def bareBackslash : Declaration := .property [92] [⟨0,.ident [58]⟩] false true

def escapedColon : Declaration := .property [92,58] [⟨0,.ident (ascii "\\9")⟩] false false

def escapedComma : Declaration := .property [92,44] [⟨0,.ident (ascii "\\9")⟩] false false

def escapes : List Declaration := [bareBackslash,escapedColon,escapedComma]

theorem escapesCases (mem : d ∈ escapes) : d = bareBackslash ∨ d = escapedColon ∨ d = escapedComma := by
  simpa [escapes] using mem

theorem escapesAlone (mem : d ∈ escapes) : d.alone cautious = some d := by
  rcases escapesCases mem with rfl | rfl | rfl <;> exact restingAlone (valueRests rfl rfl (cons_ne_nil _ _))

def escapesText : Bytes := 92 :: 10 :: ascii "::\\9;\\::\\9,"

theorem escapesRead : ∀ d ∈ [bareBackslash,escapedColon], d.IsRead := by
  have whole : (items .inline escapesText).filterMap Item.declared = [bareBackslash,escapedColon] := by
    with_unfolding_all rfl
  rw [← whole]
  exact fun d mem => ⟨.inline,escapesText,mem_filterMap.mp mem⟩

theorem chainsMiscounted :
    (shorthandsOf (ascii "animation-name:") = [] ∧ chain (ascii "animation-name:") (optimizeDeclarations cautious doubledColon).value ≠
      lastWritten (ascii "animation-name:") (doubledColon.filterMap (alone cautious))) ∧
    shorthandsOf [92] = [] ∧ (∀ d ∈ [bareBackslash,escapedColon], d.IsRead) ∧
      chain [92] (optimizeDeclarations cautious [bareBackslash,escapedColon]).value ≠
        lastWritten [92] (chain [92] ([bareBackslash,escapedColon].filterMap (alone cautious))) := by
  have colon : shorthandsOf (ascii "animation-name:") = [] := by decide +kernel
  have single : shorthandsOf [92] = [] := by decide +kernel
  refine ⟨⟨colon,?_⟩,single,escapesRead,?_⟩
  · rw [optimizedArranged,Ne,(arrangedChain colon _).block,doubledColonAlone]
    intro again
    exact absurd (again _ _ (suffix_refl _) rfl (by decide +kernel)) (by decide +kernel)
  · have alone := fun d (mem : d ∈ escapes) => escapesAlone mem
    rw [optimizedArranged,filterMap_cons_some (alone _ (by simp [escapes])),
      filterMap_cons_some (alone _ (by simp [escapes])),filterMap_nil,Ne,(arrangedChain single _).own]
    intro own
    obtain ⟨e,mem,name,_⟩ := own _ _ (suffix_refl _) rfl (by decide +kernel)
    rw [mem_singleton.mp mem] at name
    cases name

end Cascade
