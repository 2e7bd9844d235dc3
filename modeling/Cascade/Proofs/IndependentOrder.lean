import Cascade.Proofs.FallbackChains
import Cascade.Proofs.ShownColors
import Mathlib.Data.List.Nodup

/-! Declarations that have nothing to do with each other, in one order or the other. Where they are written alike the
later one is taken for a repetition of the earlier. -/
namespace Cascade
open List
open Declaration (text alone key)

variable {d e : Declaration}

structure Independent (d e : Declaration) : Prop where
  names : lower d.key ≠ lower e.key
  left : lower e.key ∉ shorthandsOf (lower d.key)
  right : lower d.key ∉ shorthandsOf (lower e.key)

structure Unrelated (d e : Declaration) : Prop where
  names : d.key ≠ e.key
  left : e.key ∉ shorthandsOf d.key
  right : d.key ∉ shorthandsOf e.key

theorem Unrelated.symm (apart : Unrelated d e) : Unrelated e d :=
  ⟨apart.names.symm,apart.right,apart.left⟩

section
variable (ctx : Context)

theorem lowerPropertyName (name) : lower (propertyName name) = lower name := by
  rw [propertyName]
  split
  · rfl
  · exact lowerTwice name

theorem againLowerKey (d : Declaration) : lower (d.again ctx).key = lower d.key := by
  cases d with
  | filter name value => rw [againFilter]
  | property written value important slashNine =>
    obtain ⟨value',becomes⟩ := againProperty written value important slashNine
    rw [becomes]
    exact lowerPropertyName written

variable {ctx}

theorem shorthandLower {p s} (short : s ∈ shorthandsOf p) : lower s ∈ shorthandsOf (lower p) := by
  obtain ⟨name,lowered,_⟩ := longhandRow short
  rwa [name,lowered]

theorem againUnrelated (apart : Independent d e) : Unrelated (d.again ctx) (e.again ctx) where
  names same := apart.names (by rw [← againLowerKey ctx d,← againLowerKey ctx e,same])
  left short := apart.left (by simpa only [againLowerKey] using shorthandLower short)
  right short := apart.right (by simpa only [againLowerKey] using shorthandLower short)

end

section
variable {d e : Declaration} {back : List Declaration}

theorem goesByLast {back other}
    (own : lastOf d.key (withoutOverridden back).1 = lastOf d.key (withoutOverridden other).1)
    (shorts : ∀ s ∈ shorthandsOf d.key, lastOf s (withoutOverridden back).1 = lastOf s (withoutOverridden other).1) :
    Goes d back ↔ Goes d other := by
  rw [goesIff,goesIff,← lastOfNone,← lastOfNone,own]
  refine and_congr_right fun _ => exists_congr fun e => ?_
  constructor
  · exact fun outdoes => ⟨(shorts _ outdoes.short).symm.trans outdoes.last,outdoes.short,outdoes.strong⟩
  · exact fun outdoes => ⟨(shorts _ outdoes.short).trans outdoes.last,outdoes.short,outdoes.strong⟩

theorem lastBeside {p} (other : e.key ≠ p) :
    lastOf p (withoutOverridden (e :: back)).1 = lastOf p (withoutOverridden back).1 := by
  by_cases goes : Goes e back
  · rw [prunedGoes goes]
  · rw [prunedStays goes,lastOfCons,beq_eq_false_iff_ne.mpr other]
    simp

theorem goesBeside (apart : Unrelated d e) : Goes d (e :: back) ↔ Goes d back := by
  refine goesByLast (lastBeside apart.names.symm) fun s short => lastBeside ?_
  rintro rfl
  exact apart.left short

structure Exchanged (d e : Declaration) (after : List Declaration) (xs ys : List Declaration) : Prop where
  left : ¬Goes d after
  right : ¬Goes e after
  places : ∃ front, xs = front ++ d :: e :: (withoutOverridden after).1 ∧ ys = front ++ e :: d :: (withoutOverridden after).1

theorem lastExchanged (apart : Unrelated d e) {xs ys} (exchanged : Exchanged d e back xs ys)
    (p) : lastOf p xs = lastOf p ys := by
  obtain ⟨front,rfl,rfl⟩ := exchanged.places
  have heads : lastOf p (d :: e :: (withoutOverridden back).1) = lastOf p (e :: d :: (withoutOverridden back).1) := by
    simp only [lastOfCons]
    cases lastOf p (withoutOverridden back).1 with
    | some => rfl
    | none =>
      by_cases name : d.key = p
      · have other : e.key ≠ p := fun same => apart.names (name.trans same.symm)
        simp [other]
      · simp [name]
  rw [lastOfAppend,lastOfAppend,heads]

theorem prunedExchange (apart : Unrelated d e) (front back) :
    Exchanged d e back (withoutOverridden (front ++ d :: e :: back)).1 (withoutOverridden (front ++ e :: d :: back)).1 ∨
      (Goes d back ∨ Goes e back) ∧
        (withoutOverridden (front ++ d :: e :: back)).1 = (withoutOverridden (front ++ e :: d :: back)).1 := by
  induction front with
  | nil =>
    have beside : Goes d (e :: back) ↔ Goes d back := goesBeside apart
    have aside : Goes e (d :: back) ↔ Goes e back := goesBeside apart.symm
    simp only [nil_append]
    by_cases first : Goes d back
    · refine .inr ⟨.inl first,?_⟩
      rw [prunedGoes (beside.mpr first)]
      by_cases second : Goes e back
      · rw [prunedGoes second,prunedGoes (aside.mpr second),prunedGoes first]
      · rw [prunedStays second,prunedStays (mt aside.mp second),prunedGoes first]
    rw [prunedStays (mt beside.mp first)]
    by_cases second : Goes e back
    · refine .inr ⟨.inr second,?_⟩
      rw [prunedGoes second,prunedGoes (aside.mpr second),prunedStays first]
    refine .inl ⟨first,second,[],?_,?_⟩
    · rw [prunedStays second]
      rfl
    · rw [prunedStays (mt aside.mp second),prunedStays first]
      rfl
  | cons x front ih =>
    have last : ∀ p, lastOf p (withoutOverridden (front ++ d :: e :: back)).1 =
        lastOf p (withoutOverridden (front ++ e :: d :: back)).1 := by
      intro p
      rcases ih with exchanged | same
      · exact lastExchanged apart exchanged p
      · rw [same.2]
    have alike := goesByLast (d := x) (last x.key) fun s _ => last s
    simp only [cons_append]
    by_cases goes : Goes x (front ++ d :: e :: back)
    · rw [prunedGoes goes,prunedGoes (alike.mp goes)]
      exact ih
    rw [prunedStays goes,prunedStays (mt alike.mpr goes)]
    rcases ih with ⟨left,right,between,hx,hy⟩ | same
    · exact .inl ⟨left,right,x :: between,by rw [hx]; rfl,by rw [hy]; rfl⟩
    · exact .inr ⟨same.1,by rw [same.2]⟩

end

section
variable {c : Bytes → Bytes → Ordering} [Std.TransCmp c]

theorem orderedByChains {xs ys} (left : xs.Pairwise fun a b => inOrder c a b)
    (right : ys.Pairwise fun a b => inOrder c a b) (same : ∀ p, chain p xs = chain p ys) : xs = ys := by
  have member : ∀ {xs ys : List Declaration}, (∀ p, chain p xs = chain p ys) → ∀ d ∈ xs, d ∈ ys := by
    intro xs ys same d mem
    have here : d ∈ chain d.key ys := same d.key ▸ chainMem.mpr ⟨mem,rfl⟩
    exact (chainMem.mp here).1
  induction xs generalizing ys with
  | nil =>
    cases ys with
    | nil => rfl
    | cons y ys => cases member (fun p => (same p).symm) y mem_cons_self
  | cons x xs ih =>
    cases ys with
    | nil => cases member same x mem_cons_self
    | cons y ys =>
      rw [pairwise_cons] at left right
      -- Each head is at most the other, so both are the first of one name.
      have least : ∀ {x y : Declaration} {xs}, (∀ z ∈ xs, inOrder c x z) → y ∈ x :: xs → inOrder c x y := by
        intro x y xs first mem
        rcases mem_cons.mp mem with head | later
        · exact inOrderSame (congrArg key head.symm)
        · exact first y later
      have forth : inOrder c x y := least left.1 (member (fun p => (same p).symm) y mem_cons_self)
      have back : inOrder c y x := least right.1 (member same x mem_cons_self)
      have heads := same x.key
      rw [chainCons,chainCons,if_pos rfl,if_pos (inOrderBoth back forth)] at heads
      obtain ⟨rfl,_⟩ := List.cons.inj heads
      refine congrArg (x :: ·) (ih left.2 right.2 fun p => ?_)
      have whole := same p
      rw [chainCons,chainCons] at whole
      split at whole
      · exact (List.cons.inj whole).2
      · exact whole

theorem arrangedByChains {xs ys}
    (same : ∀ p, lastWritten p (withoutOverridden xs).1 = lastWritten p (withoutOverridden ys).1) :
    arrangedBy c xs = arrangedBy c ys := by
  refine orderedByChains (c := c) (arrangedOrdered xs) (arrangedOrdered ys) fun p => ?_
  rw [chainArranged,chainArranged,same]

end

section
variable {d e : Declaration}

theorem lastWrittenExchange (names : d.key ≠ e.key) {back}
    (texts : d.text = e.text → d.text ∈ back.map text) (p front) :
    lastWritten p (front ++ d :: e :: back) = lastWritten p (front ++ e :: d :: back) := by
  induction front with
  | nil =>
    simp only [nil_append]
    by_cases name : d.key = p
    · have other : e.key ≠ p := fun same => names (name.trans same.symm)
      rw [lastWrittenOther other,lastWrittenOwn name,lastWrittenOther other,lastWrittenOwn name]
      refine if_congr ?_ rfl rfl
      rw [map_cons,mem_cons]
      exact or_iff_right_of_imp texts
    · rw [lastWrittenOther name]
      by_cases own : e.key = p
      · rw [lastWrittenOwn own,lastWrittenOwn own,lastWrittenOther name]
        refine if_congr ?_ rfl rfl
        rw [map_cons,mem_cons]
        exact (or_iff_right_of_imp fun same => same ▸ texts same.symm).symm
      · rw [lastWrittenOther own,lastWrittenOther own,lastWrittenOther name]
  | cons x front ih =>
    rw [cons_append,cons_append]
    refine lastWrittenCongr x ih fun _ => ?_
    simp only [map_append,map_cons,mem_append,mem_cons]
    tauto

theorem arrangedAlike {c ds} (left : d ∈ arrangedBy c ds)
    (right : e ∈ arrangedBy c ds) (text : d.text = e.text) : d = e := by
  rw [arrangedBy,mem_mergeSort] at left right
  exact inj_on_of_nodup_map (lastByNodup Declaration.text _) left right text

end

structure Clash (ctx : Context) (d e : Declaration) (back : List Declaration) : Prop where
  first : d.alone ctx = some (d.again ctx)
  second : e.alone ctx = some (e.again ctx)
  alike : (d.again ctx).text = (e.again ctx).text
  left : ¬Goes (d.again ctx) (back.filterMap (Declaration.alone ctx))
  right : ¬Goes (e.again ctx) (back.filterMap (Declaration.alone ctx))
  last : (d.again ctx).text ∉ (withoutOverridden (back.filterMap (Declaration.alone ctx))).1.map Declaration.text

section
variable {c : Bytes → Bytes → Ordering} [Std.TransCmp c] {d e : Declaration} {back : List Declaration}

theorem exchangedSame (apart : Unrelated d e) (front)
    (free : d.text = e.text → ¬Goes d back → ¬Goes e back → d.text ∈ (withoutOverridden back).1.map text) :
    arrangedBy c (front ++ d :: e :: back) = arrangedBy c (front ++ e :: d :: back) := by
  rcases prunedExchange apart front back with ⟨left,right,between,hx,hy⟩ | ⟨_,same⟩
  · refine arrangedByChains fun p => ?_
    rw [hx,hy]
    exact lastWrittenExchange apart.names (fun text => free text left right) p between
  · rw [arrangedBy,arrangedBy,same]

end

/- One text in two places, as a declaration of one name here and of the other there. What is sorted between them comes
before it or behind it, so the block is written the same only if that makes no difference. -/
structure Displaced (c : Bytes → Bytes → Ordering) (d e : Declaration) (xs ys before between behind : List Declaration) :
    Prop where
  places : xs = before ++ e :: between ++ behind ∧ ys = before ++ between ++ d :: behind ∨
    xs = before ++ between ++ e :: behind ∧ ys = before ++ d :: between ++ behind
  sorted : ∀ f ∈ between, inOrder c e f ∧ inOrder c f d ∨ inOrder c d f ∧ inOrder c f e
  written : declarationsText xs = declarationsText ys ↔
    declarationsText (d :: between) = declarationsText (between ++ [d])

section
variable {c : Bytes → Bytes → Ordering} [Std.TransCmp c] {d e : Declaration} {back : List Declaration}

theorem sortedAround {x front back} (fresh : x ∉ front ++ back) : ∃ l r,
    (front ++ x :: back).mergeSort (inOrder c) = l ++ x :: r ∧ (front ++ back).mergeSort (inOrder c) = l ++ r := by
  have mem : x ∈ (front ++ x :: back).mergeSort (inOrder c) := mem_mergeSort.mpr (by simp)
  obtain ⟨l,r,split⟩ := append_of_mem mem
  have sorted : ((front ++ x :: back).mergeSort (inOrder c)).Pairwise fun a b => inOrder c a b :=
    pairwise_mergeSort inOrderTrans inOrderTotal _
  have perm := mergeSort_perm (front ++ x :: back) (inOrder c)
  rw [split] at sorted perm
  have others : (l ++ r).Perm (front ++ back) := (perm_middle.symm.trans (perm.trans perm_middle)).cons_inv
  have alone : x ∉ l ∧ x ∉ r := by
    rw [← others.mem_iff,mem_append] at fresh
    exact not_or.mp fresh
  refine ⟨l,r,split,orderedByChains (c := c) (pairwise_mergeSort inOrderTrans inOrderTotal _) ?_ fun p => ?_⟩
  · exact sorted.sublist ((sublist_cons_self x r).append_left l)
  have same := sortedKey (c := c) p (front ++ x :: back)
  rw [split] at same
  rw [chain,sortedKey,chain]
  simp only [filter_append,filter_cons] at same ⊢
  split at same
  · obtain ⟨left,_,right⟩ := (append_cons_inj_of_notMem (fun mem => alone.1 (mem_filter.mp mem).1)
      (fun mem => alone.2 (mem_filter.mp mem).1)).mp same
    rw [left,right]
  · exact same.symm

theorem lastByAlike (alike : d.text = e.text) (fresh : d.text ∉ back.map text) (front) :
    ∃ before, (∀ f ∈ before, f.text ≠ d.text) ∧
      lastBy text (front ++ d :: e :: back) = before ++ e :: lastBy text back ∧
      lastBy text (front ++ e :: d :: back) = before ++ d :: lastBy text back := by
  induction front with
  | nil => exact ⟨[],forall_mem_nil _,by simp [lastBy,← alike,fresh],by simp [lastBy,← alike,fresh]⟩
  | cons x front ih =>
    obtain ⟨before,other,first,second⟩ := ih
    have texts : (front ++ e :: d :: back).map text = (front ++ d :: e :: back).map text := by simp [alike]
    simp only [cons_append,lastBy,first,second,texts]
    split
    · exact ⟨before,other,rfl,rfl⟩
    · rename_i new
      refine ⟨x :: before,forall_mem_cons.mpr ⟨?_,other⟩,rfl,rfl⟩
      rintro same
      simp [same] at new

theorem writtenAround (alike : d.text = e.text) (before between behind : List Declaration) :
    declarationsText (before ++ e :: between ++ behind) = declarationsText (before ++ between ++ d :: behind) ↔
      declarationsText (d :: between) = declarationsText (between ++ [d]) := by
  have ended : ∀ {xs ys : List Declaration}, xs ≠ [] → ys ≠ [] → (declarationsText xs = declarationsText ys ↔
      (xs.map text).flatMap (· ++ [59]) = (ys.map text).flatMap (· ++ [59])) := by
    intro xs ys left right
    rw [flatMap_def,flatMap_def,endedEach (by simpa using left),endedEach (by simpa using right),append_left_inj]
    rfl
  have first : before ++ e :: between ++ behind = before ++ ((e :: between) ++ behind) := append_assoc ..
  have second : before ++ between ++ d :: behind = before ++ ((between ++ [d]) ++ behind) := by simp
  rw [ended (by simp) (by simp),ended (by simp) (by simp),first,second]
  simp only [map_append,flatMap_append,append_right_inj,append_left_inj,map_cons,alike]

theorem exchangedDisplaced (apart : Unrelated d e) (front) (alike : d.text = e.text)
    (left : ¬Goes d back) (right : ¬Goes e back) (last : d.text ∉ (withoutOverridden back).1.map text) :
    ∃ before between behind, Displaced c d e (arrangedBy c (front ++ d :: e :: back))
      (arrangedBy c (front ++ e :: d :: back)) before between behind := by
  rcases prunedExchange apart front back with ⟨_,_,between,hx,hy⟩ | ⟨goes,_⟩
  · obtain ⟨before,other,first,second⟩ := lastByAlike alike last between
    have fresh : ∀ x : Declaration, x.text = d.text → x ∉ before ++ lastBy text (withoutOverridden back).1 := by
      intro x same mem
      rcases mem_append.mp mem with there | there
      · exact other x there same
      · exact last (same ▸ mem_map_of_mem ((lastBySublist _).subset there))
    obtain ⟨l,r,xs,rest⟩ := sortedAround (c := c) (fresh e alike.symm)
    obtain ⟨l',r',ys,rest'⟩ := sortedAround (c := c) (fresh d rfl)
    have forth := arrangedOrdered (c := c) (front ++ d :: e :: back)
    have aside := arrangedOrdered (c := c) (front ++ e :: d :: back)
    rw [arrangedBy,hx,first,xs] at forth
    rw [arrangedBy,hy,second,ys] at aside
    rw [arrangedBy,arrangedBy,hx,hy,first,second,xs,ys]
    rcases append_eq_append_iff.mp (rest.symm.trans rest') with ⟨between,rfl,rfl⟩ | ⟨between,rfl,rfl⟩
    · refine ⟨l,between,r',.inl ⟨by simp,rfl⟩,fun f mem => .inl ⟨?_,?_⟩,?_⟩
      · exact (pairwise_cons.mp (pairwise_append.mp forth).2.1).1 f (mem_append_left _ mem)
      · exact (pairwise_append.mp aside).2.2 f (mem_append_right _ mem) d mem_cons_self
      · simpa using writtenAround alike l between r'
    · refine ⟨l',between,r,.inr ⟨rfl,by simp⟩,fun f mem => .inr ⟨?_,?_⟩,?_⟩
      · exact (pairwise_cons.mp (pairwise_append.mp aside).2.1).1 f (mem_append_left _ mem)
      · exact (pairwise_append.mp forth).2.2 f (mem_append_right _ mem) e mem_cons_self
      · rw [eq_comm]
        simpa [declarationsText,alike] using writtenAround alike.symm l' between r
  · exact absurd goes (not_or.mpr ⟨left,right⟩)

omit [Std.TransCmp c] in
theorem displacedOther (apart : d ≠ e) (alike : d.text = e.text) {xs ys before between behind}
    (displaced : Displaced c d e (arrangedBy c xs) (arrangedBy c ys) before between behind) :
    arrangedBy c xs ≠ arrangedBy c ys := by
  intro same
  have there : e ∈ arrangedBy c xs ∧ d ∈ arrangedBy c ys := by
    rcases displaced.places with ⟨hx,hy⟩ | ⟨hx,hy⟩ <;> rw [hx,hy] <;> simp
  exact apart (arrangedAlike there.2 (same ▸ there.1) alike)

end

section
variable {c : Bytes → Bytes → Ordering} [Std.TransCmp c] {ctx : Context} {d e : Declaration}

theorem clashDisplaced (apart : Independent d e) (front) {back} (clash : Clash ctx d e back) :
    ∃ before between behind, Displaced c (d.again ctx) (e.again ctx)
      (arrangedBy c ((front ++ d :: e :: back).filterMap (alone ctx)))
      (arrangedBy c ((front ++ e :: d :: back).filterMap (alone ctx))) before between behind := by
  simp only [filterMap_append,filterMap_cons,clash.first,clash.second]
  exact exchangedDisplaced (againUnrelated apart) _ clash.alike clash.left clash.right clash.last

theorem exchangeIff (apart : Independent d e) (front back) :
    arrangedBy c ((front ++ d :: e :: back).filterMap (alone ctx)) =
        arrangedBy c ((front ++ e :: d :: back).filterMap (alone ctx)) ↔ ¬Clash ctx d e back := by
  constructor
  · intro same clash
    obtain ⟨_,_,_,displaced⟩ := clashDisplaced (c := c) apart front clash
    exact displacedOther (fun one => (againUnrelated apart).names (congrArg key one)) clash.alike displaced same
  intro free
  have cases : ∀ x : Declaration, x.alone ctx = none ∨ x.alone ctx = some (x.again ctx) := by
    intro x
    rw [alone]
    split
    · exact .inr rfl
    · exact .inl rfl
  simp only [filterMap_append,filterMap_cons]
  rcases cases d with gone | first
  · simp only [gone]
  rcases cases e with gone | second
  · simp only [gone]
  simp only [first,second]
  refine exchangedSame (againUnrelated apart) _ fun alike left right => ?_
  by_contra last
  exact free ⟨first,second,alike,left,right,last⟩

end

theorem lowerRawName (d : Declaration) : lower d.rawName = lower d.key := by
  cases d with
  | property => rfl
  | filter name _ => exact (lowerTwice name).symm

theorem sealedApart {ctx} (apart : Independent d e)
    (left : nameEnd false (d.again ctx).rawName = some false)
    (right : nameEnd false (e.again ctx).rawName = some false) : (d.again ctx).text ≠ (e.again ctx).text := by
  intro same
  obtain ⟨x,hx⟩ := textName (d.again ctx)
  obtain ⟨y,hy⟩ := textName (e.again ctx)
  rw [hx,hy] at same
  have names := congrArg lower (sealedSplit left right same)
  rw [lowerRawName,lowerRawName,againLowerKey,againLowerKey] at names
  exact apart.names names

inductive Exchange : List Declaration → List Declaration → Prop
  | swap (front back : List Declaration) {d e : Declaration} (apart : Independent d e) :
      Exchange (front ++ d :: e :: back) (front ++ e :: d :: back)

theorem exchangePerm {block other} (order : Relation.ReflTransGen Exchange block other) : block.Perm other := by
  induction order with
  | refl => exact .refl _
  | tail _ step ih =>
    cases step with
    | swap front back apart => exact ih.trans ((List.Perm.swap _ _ back).append_left front)

theorem reachedSame {c ctx block other} [Std.TransCmp c] (order : Relation.ReflTransGen Exchange block other)
    (free : ∀ d ∈ block, ∀ e ∈ block, Independent d e → (d.again ctx).text ≠ (e.again ctx).text) :
    arrangedBy c (block.filterMap (alone ctx)) = arrangedBy c (other.filterMap (alone ctx)) := by
  induction order with
  | refl => rfl
  | tail before step ih =>
    have perm := exchangePerm before
    cases step with
    | @swap front back d e apart =>
      refine ih.trans ((exchangeIff apart front back).mpr fun clash => ?_)
      exact free d (perm.mem_iff.mpr (by simp)) e (perm.mem_iff.mpr (by simp)) apart clash.alike

/- What the order of independent declarations leaves of a block: neighbours can change places unless they clash, and then
one text is displaced. Without clashes the result is the same in every order that is reached so. -/
structure OrderKept (ctx : Context) (c : Bytes → Bytes → Ordering) (block : List Declaration)
    (result : List Declaration → List Declaration) : Prop where
  swapped : ∀ front back d e, block = front ++ d :: e :: back → Independent d e →
    (result block = result (front ++ e :: d :: back) ↔ ¬Clash ctx d e back)
  displaced : ∀ front back d e, block = front ++ d :: e :: back → Independent d e → Clash ctx d e back →
    ∃ before between behind, Displaced c (d.again ctx) (e.again ctx) (result block) (result (front ++ e :: d :: back))
      before between behind
  reached : (∀ d ∈ block, ∀ e ∈ block, Independent d e → (d.again ctx).text ≠ (e.again ctx).text) →
    ∀ other, Relation.ReflTransGen Exchange block other → result block = result other

theorem arrangedOrder (ctx c) [Std.TransCmp c] (block) :
    OrderKept ctx c block fun ds => arrangedBy c (ds.filterMap (alone ctx)) where
  swapped := by
    rintro front back d e rfl apart
    exact exchangeIff apart front back
  displaced := by
    rintro front back d e rfl apart clash
    exact clashDisplaced apart front clash
  reached free other order := reachedSame order free

/- Independent declarations can change places, whatever order the names are in, but for those that are written alike; and
those that are named by what a colon ends are not. -/
theorem independentOrder (ctx : Context) (block : List Declaration) :
    OrderKept ctx weigh block (fun ds => (optimizeDeclarations ctx ds).value) ∧
    (∀ d ∈ block, ∀ e ∈ block, Independent d e → nameEnd false (d.again ctx).rawName = some false →
      nameEnd false (e.again ctx).rawName = some false → (d.again ctx).text ≠ (e.again ctx).text) ∧
    ∀ c : Bytes → Bytes → Ordering, Std.TransCmp c →
      OrderKept ctx c block fun ds => arrangedBy c (ds.filterMap (Declaration.alone ctx)) := by
  refine ⟨?_,fun d _ e _ apart => sealedApart apart,fun c _ => arrangedOrder ctx c block⟩
  simp only [optimizedArranged]
  exact arrangedOrder ctx weigh block

theorem escapesSingle (mem : d ∈ escapes) : lower d.key = d.key ∧ shorthandsOf d.key = [] := by
  rcases escapesCases mem with rfl | rfl | rfl <;> decide +kernel

theorem prunedSingle {ds} (single : ∀ d ∈ ds, shorthandsOf d.key = []) : (withoutOverridden ds).1 = ds := by
  induction ds with
  | nil => rfl
  | cons d ds ih =>
    obtain ⟨here,others⟩ := forall_mem_cons.mp single
    rw [prunedStays (singleRemains here),ih others]

theorem escapesArranged {x y z} (among : ∀ d ∈ [x,y,z], d ∈ escapes) (alike : x.text = y.text) (other : y.text ≠ z.text) :
    (optimizeDeclarations cautious [x,y,z]).value = if nameAtMost y z then [y,z] else [z,y] := by
  have last : lastBy text [x,y,z] = [y,z] := by
    simp [lastBy,alike,other]
  have kept : [x,y,z].filterMap (alone cautious) = [x,y,z] :=
    (filterMap_congr fun d mem => escapesAlone (among d mem)).trans filterMap_some
  rw [optimizedArranged,kept,← arrangedWeigh,arrangeDeclarations,prunedSingle fun d mem => (escapesSingle (among d mem)).2,
    last,sortDeclarations]
  cases order : nameAtMost y z <;> simp [List.mergeSort,order]

theorem escapesIndependent (left : d ∈ escapes) (right : e ∈ escapes) (apart : d.key ≠ e.key) : Independent d e := by
  refine ⟨?_,?_,?_⟩
  · rwa [(escapesSingle left).1,(escapesSingle right).1]
  · simp [escapesSingle left]
  · simp [escapesSingle right]

theorem escapesAgain (mem : d ∈ escapes) : d.again cautious = d := by
  have alone := escapesAlone mem
  rw [Declaration.alone] at alone
  split at alone
  · exact Option.some.inj alone
  · cases alone

theorem escapesClash : Clash cautious bareBackslash escapedColon [escapedComma] := by
  have bare := escapesAgain (d := bareBackslash) (by simp [escapes])
  have colon := escapesAgain (d := escapedColon) (by simp [escapes])
  have left : [escapedComma].filterMap (alone cautious) = [escapedComma] :=
    filterMap_cons_some (escapesAlone (by simp [escapes]))
  have stays : ∀ d ∈ escapes, ¬Goes d [escapedComma] := fun d mem => singleRemains (escapesSingle mem).2
  have pruned : (withoutOverridden [escapedComma]).1 = [escapedComma] :=
    prunedSingle fun d mem => (escapesSingle (mem_cons_of_mem _ (mem_cons_of_mem _ mem))).2
  refine ⟨?_,?_,?_,?_,?_,?_⟩
  · rw [bare,escapesAlone (by simp [escapes])]
  · rw [colon,escapesAlone (by simp [escapes])]
  · rw [bare,colon]
    decide +kernel
  · rw [left,bare]
    exact stays _ (by simp [escapes])
  · rw [left,colon]
    exact stays _ (by simp [escapes])
  · rw [left,pruned,bare]
    decide +kernel

theorem backslashMisplaced : Independent bareBackslash escapedColon ∧
    Clash cautious bareBackslash escapedColon [escapedComma] ∧
    (optimizeDeclarations cautious [bareBackslash,escapedColon,escapedComma]).value ≠
      (optimizeDeclarations cautious [escapedColon,bareBackslash,escapedComma]).value ∧
    (optimizeDeclarations cautious [bareBackslash,escapedColon,escapedComma]).value.map Declaration.text =
      [ascii "\\,:\\9",ascii "\\::\\9"] ∧
    (optimizeDeclarations cautious [escapedColon,bareBackslash,escapedComma]).value.map Declaration.text =
      [ascii "\\::\\9",ascii "\\,:\\9"] ∧
    (optimizeDeclarations cautious [escapedColon,escapedComma]).value =
      (optimizeDeclarations cautious [escapedComma,escapedColon]).value := by
  have apart : Independent bareBackslash escapedColon :=
    escapesIndependent (by simp [escapes]) (by simp [escapes]) (by decide)
  refine ⟨apart,escapesClash,fun same => ?_,?_,?_,?_⟩
  · exact ((independentOrder cautious _).1.swapped [] [escapedComma] _ _ rfl apart).mp same escapesClash
  · rw [escapesArranged (by simp [escapes]) (by decide +kernel) (by decide +kernel)]
    decide +kernel
  · rw [escapesArranged (by simp [escapes]) (by decide +kernel) (by decide +kernel)]
    decide +kernel
  · have ends : ∀ d ∈ [escapedColon,escapedComma], nameEnd false (d.again cautious).rawName = some false := by
      intro d mem
      rw [escapesAgain (mem_cons_of_mem _ mem)]
      simp only [mem_cons,not_mem_nil,or_false] at mem
      rcases mem with rfl | rfl <;> decide +kernel
    have result := independentOrder cautious [escapedColon,escapedComma]
    refine result.1.reached (fun d hd e he apart => result.2.1 d hd e he apart (ends d hd) (ends e he)) _ (.single ?_)
    exact .swap [] [] (escapesIndependent (by simp [escapes]) (by simp [escapes]) (by decide))

end Cascade
