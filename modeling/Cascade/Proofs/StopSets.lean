import Cascade.Proofs.AnimationStops
import Mathlib.Data.List.Nodup
import Mathlib.Data.List.Pairwise

/-! Which entries of an optimized animation have the same stops. Entries that say the same are joined last, and their
stops are not compared again. -/
namespace Cascade
open List
open Keyframe (body joinStops groupByBody stopsText)

def Keyframe.SameStops (a b : Keyframe) : Prop := ∀ stop, stop ∈ a.stops ↔ stop ∈ b.stops

def stopsSaying (steps : List Keyframe) (body : Bytes) : List Bytes :=
  (steps.filter fun e => e.body == body).flatMap Keyframe.stops

def Keyframe.IsTidy (f : Keyframe) : Prop := f.optimizeStops.stops = f.stops

theorem stopsSayingIff {steps body stop} :
    stop ∈ stopsSaying steps body ↔ ∃ e ∈ steps, e.body = body ∧ stop ∈ e.stops := by
  simp only [stopsSaying,mem_flatMap,mem_filter,beq_iff_eq,and_assoc]

section
variable {f g : Keyframe}

theorem tidyNodup (tidy : f.IsTidy) : f.stops.Nodup := by
  have once : (f.optimizeStops.stops.map fun stop => stop).Nodup := distinctFromNodup [] _
  rw [map_id',tidy] at once
  exact once

theorem tidyMem (tidy : f.IsTidy) {stop} : stop ∈ f.stops.map optimizeStop ↔ stop ∈ f.stops := by
  rw [← optimizedStops,tidy]

theorem joinedMem (left : f.IsTidy) (right : g.IsTidy) {stop} :
    stop ∈ (joinStops f g).stops ↔ stop ∈ f.stops ∨ stop ∈ g.stops := by
  rw [joinStops,optimizedStops,map_append,mem_append,tidyMem left,tidyMem right]

theorem joinedAll {rest} (first : f.IsTidy) (others : ∀ e ∈ rest, e.IsTidy) :
    (rest.foldl joinStops f).IsTidy ∧
      ∀ stop, stop ∈ (rest.foldl joinStops f).stops ↔ ∃ e ∈ f :: rest, stop ∈ e.stops := by
  induction rest generalizing f with
  | nil => exact ⟨first,by simp⟩
  | cons e rest ih =>
    obtain ⟨here,others⟩ := forall_mem_cons.mp others
    obtain ⟨tidy,listed⟩ := ih (f := joinStops f e) (optimizeStopsTwice _) others
    refine ⟨tidy,?_⟩
    intro stop
    rw [foldl_cons,listed]
    simp only [mem_cons,exists_eq_or_imp,joinedMem first here,or_assoc]

end

section
variable {steps : List Keyframe}

theorem groupedBodies : ((groupByBody steps).map Keyframe.body).Nodup ∧
    ∀ body, body ∈ (groupByBody steps).map Keyframe.body ↔ body ∈ steps.map Keyframe.body :=
  @gatherKeys Keyframe.body joinStops (fun _ _ => rfl) steps

theorem groupedStops (tidy : ∀ e ∈ steps, e.IsTidy) {r} (mem : r ∈ groupByBody steps) :
    r.stops.Nodup ∧ ∀ stop, stop ∈ r.stops ↔ stop ∈ stopsSaying steps r.body := by
  obtain ⟨a,rest,found,made⟩ := @gatherMem body joinStops (fun _ _ => rfl) _ _ mem
  have own : ∀ e ∈ a :: rest, e.IsTidy := by
    intro e there
    rw [← found] at there
    exact tidy e (mem_filter.mp there).1
  obtain ⟨first,others⟩ := forall_mem_cons.mp own
  obtain ⟨joined,listed⟩ := joinedAll first others
  rw [← made] at joined listed
  refine ⟨tidyNodup joined,?_⟩
  intro stop
  rw [listed,stopsSaying,found,mem_flatMap]

theorem groupedApart (tidy : ∀ e ∈ steps, e.IsTidy) :
    (groupByBody steps).Pairwise (fun a b => ¬ a.SameStops b) ↔
      ∀ e ∈ steps, ∀ f ∈ steps, e.body ≠ f.body →
        ∃ stop, ¬ (stop ∈ stopsSaying steps e.body ↔ stop ∈ stopsSaying steps f.body) := by
  have same : ∀ a ∈ groupByBody steps, ∀ b ∈ groupByBody steps, (a.SameStops b ↔
      ∀ stop, stop ∈ stopsSaying steps a.body ↔ stop ∈ stopsSaying steps b.body) := by
    intro a ma b mb
    simp only [Keyframe.SameStops,(groupedStops tidy ma).2,(groupedStops tidy mb).2]
  constructor
  · intro apart e me f mf differ
    obtain ⟨a,ma,named⟩ := mem_map.mp ((groupedBodies.2 _).mpr (mem_map_of_mem me))
    obtain ⟨b,mb,tells⟩ := mem_map.mp ((groupedBodies.2 _).mpr (mem_map_of_mem mf))
    have symmetric : Std.Symm fun a b : Keyframe => ¬ a.SameStops b :=
      ⟨fun _ _ other alike => other fun stop => (alike stop).symm⟩
    have other := apart.forall ma mb fun is => differ (named.symm.trans (is ▸ tells))
    rw [same a ma b mb,named,tells] at other
    exact not_forall.mp other
  · intro apart
    refine (pairwise_map.mp groupedBodies.1).imp_of_mem ?_
    intro a b ma mb differ alike
    obtain ⟨e,me,named⟩ := mem_map.mp ((groupedBodies.2 _).mp (mem_map_of_mem ma))
    obtain ⟨f,mf,tells⟩ := mem_map.mp ((groupedBodies.2 _).mp (mem_map_of_mem mb))
    obtain ⟨stop,only⟩ := apart e me f mf (by rw [named,tells]; exact differ)
    rw [named,tells] at only
    exact only ((same a ma b mb).mp alike stop)

end

section
variable {ctx : Context} {frames : List Keyframe}

theorem entriesTidy {e} (mem : e ∈ entries ctx frames) : e.IsTidy := by
  obtain ⟨f,_,_,rfl⟩ := entriesFrom mem
  exact optimizeStopsTwice f

theorem entriesUnlike : ((entries ctx frames).map stopsText).Nodup := by
  rw [nodup_iff_pairwise_ne,pairwise_map]
  refine entriesOrdered.imp ?_
  intro a b order same
  rw [Keyframe.earlier,same,beforeLex] at order
  exact List.lt_irrefl _ order

theorem entriesMeet {stop e f}
    (shared : ∀ f ∈ frames, ∀ g ∈ frames, f.isAt stop → g.isAt stop → f.stopsKey = g.stopsKey)
    (me : e ∈ entries ctx frames) (mf : f ∈ entries ctx frames) (left : stop ∈ e.stops)
    (right : stop ∈ f.stops) : e.stopsText = f.stopsText := by
  have listed : ∀ g : Keyframe, stop ∈ g.optimizeStops.stops → g.isAt stop := by
    intro g mem
    rw [← isAtOptimized]
    exact isAtIff.mpr (mem_map_of_mem mem)
  obtain ⟨f,given,_,rfl⟩ := entriesFrom me
  obtain ⟨g,there,_,rfl⟩ := entriesFrom mf
  exact shared f given g there (listed f left) (listed g right)

theorem entriesSpread
    (shared : ∀ stop, ∀ f ∈ frames, ∀ g ∈ frames, f.isAt stop → g.isAt stop →
      f.stopsKey = g.stopsKey) :
    ∀ e ∈ entries ctx frames, ∀ f ∈ entries ctx frames, e.body ≠ f.body →
      ∃ stop, ¬ (stop ∈ stopsSaying (entries ctx frames) e.body ↔
        stop ∈ stopsSaying (entries ctx frames) f.body) := by
  intro e me f mf differ
  by_contra alike
  push Not at alike
  have single : ∀ g ∈ entries ctx frames, ∀ h ∈ entries ctx frames, g.stopsText = h.stopsText → g = h :=
    fun g mg h mh => inj_on_of_nodup_map entriesUnlike mg mh
  -- A stop of one entry is a stop of another with the other body, which is then the same entry.
  have bare : ∀ g ∈ entries ctx frames, ∀ body, g.body ≠ body →
      (∀ stop, stop ∈ stopsSaying (entries ctx frames) g.body →
        stop ∈ stopsSaying (entries ctx frames) body) → g.stops = [] := by
    intro g mg body other within
    refine eq_nil_iff_forall_not_mem.mpr fun stop own => other ?_
    obtain ⟨h,mh,named,there⟩ := stopsSayingIff.mp (within stop (stopsSayingIff.mpr ⟨g,mg,rfl,own⟩))
    rw [← named,single g mg h mh (entriesMeet (shared stop) mg mh own there)]
  have left := bare e me f.body differ fun stop => (alike stop).mp
  have right := bare f mf e.body (Ne.symm differ) fun stop => (alike stop).mpr
  refine differ (congrArg _ (single e me f mf ?_))
  rw [stopsText,stopsText,left,right]

end

/- The stops of a kept animation: each entry is at all stops of the entries that say what it
says, so two entries have the same stops exactly if two bodies are said at the same stops. -/
theorem animationStopSets (ctx : Context) (name vendor : Bytes) (frames : List Keyframe)
    (name' vendor' : Bytes) (out : List Keyframe)
    (kept : (Rule.optimize ctx (.keyframes name vendor frames)).value = some (.keyframes name' vendor' out)) :
    ((entries (ctx.inVendor (lower vendor)) frames).map Keyframe.stopsText).Nodup ∧
    (out.map Keyframe.body).Nodup ∧
    (∀ r ∈ out, r.stops.Nodup ∧
      ∀ stop, stop ∈ r.stops ↔ stop ∈ stopsSaying (entries (ctx.inVendor (lower vendor)) frames) r.body) ∧
    (out.Pairwise (fun a b => ¬ a.SameStops b) ↔
      ∀ e ∈ entries (ctx.inVendor (lower vendor)) frames, ∀ f ∈ entries (ctx.inVendor (lower vendor)) frames,
        e.body ≠ f.body → ∃ stop,
          ¬ (stop ∈ stopsSaying (entries (ctx.inVendor (lower vendor)) frames) e.body ↔
            stop ∈ stopsSaying (entries (ctx.inVendor (lower vendor)) frames) f.body)) ∧
    ((∀ stop, ∀ f ∈ frames, ∀ g ∈ frames, f.isAt stop = true → g.isAt stop = true →
        f.stopsKey = g.stopsKey) → out.Pairwise fun a b => ¬ a.SameStops b) := by
  cases animationMade kept
  have exactly := @groupedApart (entries (ctx.inVendor (lower vendor)) frames) fun _ => entriesTidy
  exact ⟨entriesUnlike,groupedBodies.1,fun r mem => groupedStops (fun _ => entriesTidy) mem,exactly,
    fun shared => exactly.mpr (entriesSpread shared)⟩

def splitStops : List Keyframe := [wordFrame ["0%"] "1",wordFrame ["to"] "1",wordFrame ["0%","to"] "2"]

theorem splitStopsLegible : Separable 44 id id fun s => ∃ f ∈ splitStops, s ∈ f.stops.map optimizeStop :=
  knownStops (by decide)

theorem splitStopsEntry (stops word) (given : wordFrame stops word ∈ splitStops)
    (shared : (wordFrame stops word).shared splitStops = [wordDeclaration "--x" word]) :
    (wordFrame stops word).entry cautious splitStops ∈ entries cautious splitStops ∧
      ((wordFrame stops word).entry cautious splitStops).body = declarationsText [wordDeclaration "--x" word] := by
  have content := wordFrameEntry stops word shared
  refine ⟨entriesMem splitStopsLegible given (by rw [content]; exact cons_ne_nil _ _),?_⟩
  rw [body,content]

theorem splitStopsJoined :
    (Rule.optimize cautious (.keyframes (ascii "x") [] splitStops)).value =
      some (.keyframes (ascii "x") [] (optimizeFrames cautious splitStops).value) ∧
    ¬ (optimizeFrames cautious splitStops).value.Pairwise fun a b => ¬ a.SameStops b := by
  refine ⟨rfl,fun differ => ?_⟩
  obtain ⟨start,first⟩ := splitStopsEntry ["0%"] "1" (by simp [splitStops]) rfl
  obtain ⟨stop,second⟩ := splitStopsEntry ["to"] "1" (by simp [splitStops]) rfl
  obtain ⟨both,third⟩ := splitStopsEntry ["0%","to"] "2" (by simp [splitStops]) rfl
  have exactly := (animationStopSets cautious (ascii "x") [] splitStops (ascii "x") []
    (optimizeFrames cautious splitStops).value rfl).2.2.2.1
  have free : cautious.inVendor (lower []) = cautious := rfl
  rw [free] at exactly
  obtain ⟨s,only⟩ := exactly.mp differ _ start _ both (by rw [first,third]; decide)
  have listed : ∀ body, s ∈ stopsSaying (entries cautious splitStops) body → s = ascii "0" ∨ s = ascii "to" := by
    intro body mem
    obtain ⟨e,there,_,own⟩ := stopsSayingIff.mp mem
    obtain ⟨f,given,_,rfl⟩ := entriesFrom there
    have known : ∀ f ∈ splitStops, ∀ t ∈ f.optimizeStops.stops, t = ascii "0" ∨ t = ascii "to" := by decide
    exact known f given s own
  refine only ⟨fun mem => ?_,fun mem => ?_⟩
  · rcases listed _ mem with rfl | rfl
    · exact stopsSayingIff.mpr ⟨_,both,rfl,by decide⟩
    · exact stopsSayingIff.mpr ⟨_,both,rfl,by decide⟩
  · rcases listed _ mem with rfl | rfl
    · exact stopsSayingIff.mpr ⟨_,start,rfl,by decide⟩
    · exact stopsSayingIff.mpr ⟨_,stop,second.trans first.symm,by decide⟩

end Cascade
