import Cascade.Proofs.Heeded

/-! What goes from a ruleset in view of a later one that is certain to override it. The
later ruleset has the only selector of the earlier one, so whoever sees the one sees the
other. -/
namespace Cascade
open List
open Ruleset (withoutCovered selectors texts)

theorem certainSays {r : Ruleset} {name important} (h : r.certain.lookup name = some important) :
    ∃ d ∈ r.content, d.overridesFallbacks ∧ d.key = name ∧ d.isImportant = important := by
  obtain ⟨_,_,split,_⟩ := lookup_eq_some_iff.mp h
  have there : (name,important) ∈ r.certain := by
    rw [split]
    simp
  simp only [Ruleset.certain,mem_map,mem_filter,Prod.mk.injEq] at there
  obtain ⟨_,⟨d,⟨mem,plain⟩,rfl⟩,rfl,rfl⟩ := there
  cases said : (((r.content.filter Declaration.overridesFallbacks).map
      fun d => (d.key,d.isImportant)).any fun m => m.1 == d.key && m.2) with
  | true =>
    simp only [any_map,any_eq_true,mem_filter,Function.comp_apply,Bool.and_eq_true,
      beq_iff_eq] at said
    obtain ⟨e,⟨there,sure⟩,key,important⟩ := said
    exact ⟨e,there,sure,key,important⟩
  | false =>
    simp only [any_map,any_eq_false,mem_filter,Function.comp_apply,Bool.and_eq_true,
      beq_iff_eq] at said
    exact ⟨d,mem,plain,rfl,by simpa using said d ⟨mem,plain⟩⟩

theorem coveredSays {earlier later : Ruleset} (single : earlier.selector.isList = false)
    {d} (mem : d ∈ earlier.content) (gone : d ∉ (earlier.withoutCovered later).content) :
    ∃ e ∈ later.content, e.overridesFallbacks ∧ e.key = d.key ∧ d.isImportant ≤ e.isImportant := by
  rw [withoutCovered,single,if_neg Bool.false_ne_true] at gone
  cases found : later.certain.lookup d.key with
  | none => exact absurd (mem_filter.mpr ⟨mem,by simp [found]⟩) gone
  | some important =>
    obtain ⟨e,there,plain,key,same⟩ := certainSays found
    refine ⟨e,there,plain,key,?_⟩
    rw [same]
    by_contra less
    refine gone (mem_filter.mpr ⟨mem,?_⟩)
    rw [found]
    revert less
    cases important <;> cases d.isImportant <;> decide

theorem withoutCoveredContent (earlier later : Ruleset) : ∃ stays : Declaration → Bool,
    (earlier.withoutCovered later).content = earlier.content.filter stays := by
  rw [withoutCovered]
  split
  · exact ⟨fun _ => true,by simp⟩
  · exact ⟨_,rfl⟩

theorem withoutCoveredSelector (earlier later : Ruleset) :
    (earlier.withoutCovered later).selector = earlier.selector := by
  rw [withoutCovered]
  split <;> rfl

structure Slot.Sound (pool : Component → Prop) (known : Declaration → Prop) (slot : Slot) : Prop where
  made : ∀ r, slot.rule.bind Ruleset.ofRule? = some r → Made pool (∀ d ∈ ·, known d) r
  keys : ∀ r, slot.rule.bind Ruleset.ofRule? = some r → ∀ key ∈ slot.keys, key ∈ r.texts

theorem coveredCases (later) (slot : Slot) : slot.coveredBy later = slot ∨
    ∃ earlier, slot.rule.bind Ruleset.ofRule? = some earlier ∧
      (∃ key ∈ later.texts, key ∈ slot.keys) ∧
      slot.coveredBy later = ⟨if (earlier.withoutCovered later).content.isEmpty then none
        else some (earlier.withoutCovered later).rule,slot.keys⟩ := by
  rw [Slot.coveredBy]
  split
  · exact .inl rfl
  rename_i earlier is
  split
  · rename_i meets
    obtain ⟨key,there,own⟩ := any_eq_true.mp meets
    exact .inr ⟨earlier,is,⟨key,there,contains_iff_mem.mp own⟩,rfl⟩
  · exact .inl rfl

theorem coveredHolds {later r} {slot : Slot} (h : (slot.coveredBy later).rule.bind Ruleset.ofRule? = some r) :
    ∃ earlier, slot.rule.bind Ruleset.ofRule? = some earlier ∧ r.selector = earlier.selector ∧
      r.content ⊆ earlier.content := by
  rcases coveredCases later slot with same | ⟨earlier,is,_,same⟩
  · rw [same] at h
    exact ⟨r,h,rfl,List.Subset.refl _⟩
  rw [same] at h
  dsimp only at h
  split at h
  · cases h
  cases h
  obtain ⟨stays,content⟩ := withoutCoveredContent earlier later
  refine ⟨earlier,is,withoutCoveredSelector earlier later,?_⟩
  rw [content]
  exact filter_subset_self _

theorem coveredKeys (later) (slot : Slot) : (slot.coveredBy later).keys = slot.keys := by
  rcases coveredCases later slot with same | ⟨_,_,_,same⟩ <;> rw [same]

variable {σ : Type} [LinearOrder σ] {ctx : Context} {pool : Component → Prop}
  {known : Declaration → Prop} {understands : Declaration → Bool} {p : Bytes} {v : Sight σ}
  {later : Ruleset} {slot : Slot}

theorem coveredSound (sound : slot.Sound pool known) : (slot.coveredBy later).Sound pool known := by
  constructor <;> intro r found <;> obtain ⟨earlier,is,same,fewer⟩ := coveredHolds found
  · refine ⟨?_,fun d mem => (sound.made earlier is).content d (fewer mem)⟩
    rw [selectors,same]
    exact (sound.made earlier is).selectors
  · rw [coveredKeys,texts,selectors,same]
    exact sound.keys earlier is

theorem contestSlot (v : Sight σ) {r} (is : slot.rule.bind Ruleset.ofRule? = some r) :
    v.contest slot.rule.toList = v.claimants r := by
  obtain ⟨rule,here,is⟩ := Option.bind_eq_some_iff.mp is
  rw [here,Option.toList_some,contestRuleset v is]
  exact append_nil _

theorem contestLeft (v : Sight σ) (r) :
    v.contest (if r.content.isEmpty then none else some r.rule).toList = v.claimants r := by
  split
  · rename_i empty
    rw [Sight.claimants,List.isEmpty_iff.mp empty,claims]
    split <;> rfl
  · rw [Option.toList_some,contestRuleset v (ofRuleRule r)]
    exact append_nil _

theorem coveredThinned (reading : Reading ctx pool known understands)
    (admits : v.admits = heeds p understands) (sound : slot.Sound pool known)
    {ms ns} (rest : Thinned Claimant.weight ms ns) (there : ∀ c ∈ v.claimants later, c ∈ ns) :
    Thinned Claimant.weight (v.contest slot.rule.toList ++ ms)
      (v.contest (slot.coveredBy later).rule.toList ++ ns) := by
  rcases coveredCases later slot with same | ⟨earlier,is,⟨key,met,own⟩,same⟩
  · rw [same]
    exact thinnedBehind _ rest
  rw [same,contestLeft,contestSlot v is]
  cases single : earlier.selector.isList with
  | true =>
    rw [withoutCovered,if_pos single]
    exact thinnedBehind _ rest
  | false =>
    obtain ⟨stays,content⟩ := withoutCoveredContent earlier later
    have texts := singleTexts single
    -- The one selector left is the one the later ruleset has too.
    have rank : v.highest earlier.texts ≤ v.highest later.texts := by
      apply highestMono
      intro text mem
      have began := sound.keys earlier is key own
      rw [texts,mem_singleton] at mem began
      rw [mem,← began]
      exact met
    have left : v.claimants (earlier.withoutCovered later) =
        (v.claimants earlier).filter fun c => stays c.declaration := by
      rw [Sight.claimants,Sight.claimants,content,← claimsFilter,filter_comm,Ruleset.texts,
        selectors,withoutCoveredSelector]
      rfl
    rw [left]
    apply thinnedFilter rest
    intro c mem gone
    obtain ⟨seen,d,hd,rfl⟩ := claimsMem.mp mem
    obtain ⟨said,heeded⟩ := mem_filter.mp hd
    have absent : d ∉ (earlier.withoutCovered later).content := by
      rw [content,mem_filter]
      exact fun h => Bool.false_ne_true (gone.symm.trans h.2)
    obtain ⟨e,sets,plain,name,le⟩ := coveredSays single said absent
    have heededToo : v.admits e := by
      rw [admits,heeds,Bool.and_eq_true] at heeded ⊢
      exact ⟨name ▸ heeded.1,reading.plain e plain⟩
    have seenToo : v.highest later.texts ≠ ⊥ := fun bot => seen (le_bot_iff.mp (bot ▸ rank))
    exact ⟨_,there _ (claimsMem.mpr ⟨seenToo,e,mem_filter.mpr ⟨sets,heededToo⟩,rfl⟩),
      weightLe le rank⟩

end Cascade
