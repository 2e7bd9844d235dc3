import Cascade.Optimizer.Rules
import Cascade.Proofs.StopVoices

/-! What an optimized animation tells at a stop. An entry may move past another that shares some of its stops. -/
namespace Cascade
open List Declaration
open Declaration (optimizeAll text face)
open Noted (valueBind valuePure)
open Keyframe (optimizeStops stopsText groupByStops sortByStops body voice earlier joinContent isAt)

variable {f g : Keyframe}

def Keyframe.stopsKey (f : Keyframe) : Bytes := f.optimizeStops.stopsText

def Keyframe.shared (frames : List Keyframe) (f : Keyframe) : List Declaration :=
  (frames.filter fun g => g.stopsKey == f.stopsKey).flatMap Keyframe.content

def Keyframe.entry (ctx : Context) (frames : List Keyframe) (f : Keyframe) : Keyframe :=
  ⟨f.optimizeStops.stops,(optimizeDeclarations ctx (f.shared frames)).value⟩

def Keyframe.alone (ctx : Context) (f : Keyframe) : Keyframe :=
  ⟨f.stops,(Declaration.optimizeAll ctx f.content).value⟩

open Keyframe (alone shared entry)

def entries (ctx : Context) (frames : List Keyframe) : List Keyframe :=
  (Keyframe.optimizeAll ctx
    (Keyframe.sortByStops (Keyframe.groupByStops (frames.map Keyframe.optimizeStops)))).value

section
variable {ctx : Context} {frames : List Keyframe}

theorem optimizeStopsTwice (f : Keyframe) : f.optimizeStops.optimizeStops.stops = f.optimizeStops.stops := by
  have same : f.optimizeStops.stops.map optimizeStop = f.optimizeStops.stops := by
    refine (map_congr_left ?_).trans (map_id _)
    intro s mem
    obtain ⟨t,_,rfl⟩ := mem_map.mp (optimizedStops.mp mem)
    exact optimizeStopTwice t
  rw [optimizeStops,same]
  exact distinctTwice _

theorem groupMem {r} (mem : r ∈ groupByStops (frames.map optimizeStops)) :
    ∃ f ∈ frames, r = ⟨f.optimizeStops.stops,f.shared frames⟩ := by
  obtain ⟨a,rest,found,made⟩ :=
    @gatherMem stopsText joinContent (fun _ _ => rfl) _ _ mem
  rw [joinedContent] at made
  have there : a ∈ frames.map optimizeStops :=
    (mem_filter.mp (found ▸ mem_cons_self)).1
  obtain ⟨f,given,rfl⟩ := mem_map.mp there
  have key : r.stopsText = f.stopsKey := by
    rw [made]
    rfl
  refine ⟨f,given,made.trans ?_⟩
  rw [← found,key,filter_map,flatMap_map]
  rfl

theorem optimizeAllFrames (gs) : (Keyframe.optimizeAll ctx gs).value =
    gs.filterMap fun g => (g.optimize ctx).value := by
  induction gs with
  | nil => rfl
  | cons g gs ih =>
    rw [Keyframe.optimizeAll,valueBind,valueBind,valuePure,ih,filterMap_cons]
    cases (g.optimize ctx).value <;> rfl

theorem optimizeFrame {e} : (g.optimize ctx).value = some e ↔
    (optimizeDeclarations ctx g.content).value ≠ [] ∧
      e = ⟨g.optimizeStops.stops,(optimizeDeclarations ctx g.content).value⟩ := by
  rw [Keyframe.optimize,valueBind,valuePure]
  split
  · rename_i empty
    simp [List.isEmpty_iff.mp empty]
  · rename_i full
    rw [List.isEmpty_iff] at full
    simp [full,eq_comm]

theorem entriesFrom {e} (mem : e ∈ entries ctx frames) :
    ∃ f ∈ frames, (f.entry ctx frames).content ≠ [] ∧ e = f.entry ctx frames := by
  rw [entries,optimizeAllFrames] at mem
  obtain ⟨g,there,becomes⟩ := mem_filterMap.mp mem
  obtain ⟨f,given,rfl⟩ := groupMem (mem_mergeSort.mp there)
  obtain ⟨full,rfl⟩ := optimizeFrame.mp becomes
  exact ⟨f,given,full,congrArg (Keyframe.mk · _) (optimizeStopsTwice f)⟩

theorem entriesOrdered : (entries ctx frames).Pairwise earlier := by
  have sorted := pairwise_mergeSort (textsTrans stopsText) (textsTotal stopsText)
    (groupByStops (frames.map optimizeStops))
  have distinct : ((sortByStops (groupByStops (frames.map optimizeStops))).map stopsText).Nodup :=
    ((mergeSort_perm _ _).map _).nodup_iff.mpr
      (@gatherKeys stopsText joinContent (fun _ _ => rfl) _).1
  have still : ∀ g ∈ sortByStops (groupByStops (frames.map optimizeStops)),
      g.optimizeStops.stopsText = g.stopsText := by
    intro g mem
    obtain ⟨f,_,rfl⟩ := groupMem (mem_mergeSort.mp mem)
    exact congrArg [44].intercalate (optimizeStopsTwice f)
  have strict : (sortByStops (groupByStops (frames.map optimizeStops))).Pairwise
      fun a b => a.optimizeStops.earlier b.optimizeStops := by
    refine ((pairwise_map.mp distinct).and sorted).imp_of_mem ?_
    rintro a b ma mb ⟨apart,order⟩
    rw [earlier,still a ma,still b mb,beforeLex]
    exact (List.le_iff_lt_or_eq.mp (notBefore.mp order)).resolve_right apart
  rw [entries,optimizeAllFrames]
  refine strict.filterMap _ ?_
  intro a b order d made e makes
  rw [(optimizeFrame.mp made).2,(optimizeFrame.mp makes).2]
  exact order

theorem optimizeAllFlat {α : Type} (g) (xs : List α) :
    (optimizeAll ctx (xs.flatMap g)).value =
      xs.flatMap fun x => (optimizeAll ctx (g x)).value := by
  have append : ∀ ds es : List Declaration, (optimizeAll ctx (ds ++ es)).value =
      (optimizeAll ctx ds).value ++ (optimizeAll ctx es).value := by
    intro ds es
    induction ds with
    | nil => rfl
    | cons d ds ih =>
      rw [cons_append,optimizeAll,optimizeAll]
      simp only [valueBind,valuePure,ih]
      split <;> rfl
  induction xs with
  | nil => rfl
  | cons x xs ih => rw [flatMap_cons,flatMap_cons,append,ih]

theorem sharedOptimized (f : Keyframe) : (optimizeAll ctx (f.shared frames)).value =
    (frames.filter fun g => g.stopsKey == f.stopsKey).flatMap fun g => (g.alone ctx).content :=
  optimizeAllFlat _ _

section
variable (stops : Separable 44 id id fun s => ∃ f ∈ frames, s ∈ f.stops.map optimizeStop)
include stops

theorem sameStops (hf : f ∈ frames) (hg : g ∈ frames) (same : f.stopsKey = g.stopsKey) :
    f.optimizeStops.stops = g.optimizeStops.stops := by
  have lists := stops f.optimizeStops.stops g.optimizeStops.stops
    (fun s mem => ⟨f,hf,optimizedStops.mp mem⟩) (fun s mem => ⟨g,hg,optimizedStops.mp mem⟩)
  rw [map_id,map_id] at lists
  exact lists same

theorem sameAt (hf : f ∈ frames) (hg : g ∈ frames) (same : f.stopsKey = g.stopsKey) (stop) :
    f.isAt stop = g.isAt stop := by
  rw [← isAtOptimized,← isAtOptimized stop g,isAt,isAt,sameStops stops hf hg same]

theorem entriesMem (given : f ∈ frames) (full : (f.entry ctx frames).content ≠ []) :
    f.entry ctx frames ∈ entries ctx frames := by
  obtain ⟨r,mem,key⟩ := @gatherFind stopsText joinContent (fun _ _ => rfl) _ _
    (mem_map_of_mem (f := optimizeStops) given)
  obtain ⟨g,there,rfl⟩ := groupMem mem
  have same : g.stopsKey = f.stopsKey := key
  have shared : g.shared frames = f.shared frames := by
    rw [shared,shared,same]
  rw [entries,optimizeAllFrames]
  refine mem_filterMap.mpr ⟨_,mem_mergeSort.mpr mem,optimizeFrame.mpr ?_⟩
  dsimp only
  rw [shared]
  refine ⟨full,?_⟩
  rw [entry,← sameStops stops there given same]
  exact congrArg (Keyframe.mk · _) (optimizeStopsTwice g).symm

end

section
variable {p : Bytes} (blocks : Separable 59 Declaration.text face
  fun d => ∃ f ∈ frames, d ∈ (f.alone ctx).content)

theorem entryContent (f : Keyframe) : (f.entry ctx frames).content =
    arrangeDeclarations (optimizeAll ctx (f.shared frames)).value := rfl

theorem sharedFrom {d} (mem : d ∈ (optimizeAll ctx (f.shared frames)).value) :
    ∃ g ∈ frames, d ∈ (g.alone ctx).content := by
  rw [sharedOptimized] at mem
  obtain ⟨g,there,own⟩ := mem_flatMap.mp mem
  exact ⟨g,(mem_filter.mp there).1,own⟩

theorem entryFrom {d} (mem : d ∈ (f.entry ctx frames).content) : ∃ g ∈ frames, d ∈ (g.alone ctx).content := by
  rw [entryContent] at mem
  exact sharedFrom (arrangedMem mem)

include blocks

theorem entryFaces (same : (f.entry ctx frames).body = (g.entry ctx frames).body) :
    (f.entry ctx frames).content.map face = (g.entry ctx frames).content.map face :=
  blocks _ _ (fun _ => entryFrom) (fun _ => entryFrom) same

theorem entrySome (same : (f.entry ctx frames).body = (g.entry ctx frames).body)
    (full : (g.entry ctx frames).content ≠ []) : (f.entry ctx frames).content ≠ [] := by
  intro bare
  have faces := entryFaces blocks same
  rw [bare] at faces
  exact full (map_eq_nil_iff.mp faces.symm)

theorem entriesLegible : ∀ a ∈ entries ctx frames, ∀ b ∈ entries ctx frames, a.body = b.body →
    a.voice p = b.voice p := by
  intro a ma b mb same
  obtain ⟨f,_,_,rfl⟩ := entriesFrom ma
  obtain ⟨g,_,_,rfl⟩ := entriesFrom mb
  exact lastOfFace (entryFaces blocks same)

theorem entryLast (single : shorthandsOf p = []) (f : Keyframe) :
    lastOf p (f.entry ctx frames).content =
      lastOf p ((frames.filter fun g => g.stopsKey == f.stopsKey).flatMap fun g => (g.alone ctx).content) := by
  rw [entryContent,lastOfArranged single,sharedOptimized]
  intro d hd e he text
  have faces := blocks [d] [e] (by simpa using sharedFrom hd) (by simpa using sharedFrom he)
    (by simpa using text)
  exact congrArg Prod.fst (head_eq_of_cons_eq faces)

variable (stops : Separable 44 id id fun s => ∃ f ∈ frames, s ∈ f.stops.map optimizeStop)
include stops

theorem entrySilent (single : shorthandsOf p = []) {stop}
    (bare : lastAt stop p (frames.map (alone ctx)) = none) (given : f ∈ frames) (here : f.isAt stop) :
    lastOf p (f.entry ctx frames).content = .none := by
  rw [entryLast blocks single,lastOfFlat]
  intro g mem
  obtain ⟨there,same⟩ := mem_filter.mp mem
  have listed : g.isAt stop :=
    (sameAt stops there given (beq_iff_eq.mp same) stop).trans here
  exact lastAtNone.mp bare (g.alone ctx) (mem_map_of_mem there) listed

theorem aheadEntries (left : (g.entry ctx frames).content ≠ []) (right : (f.entry ctx frames).content ≠ []) :
    Ahead body earlier (entries ctx frames) (g.entry ctx frames).body
        (f.entry ctx frames).body ↔
      Ahead (fun h => (h.entry ctx frames).body) (fun a b => before a.stopsKey b.stopsKey) frames
        (g.entry ctx frames).body (f.entry ctx frames).body := by
  constructor
  · rintro ⟨_,mem,is,first⟩
    obtain ⟨h,given,_,rfl⟩ := entriesFrom mem
    refine ⟨h,given,is,?_⟩
    intro e there same
    exact first (e.entry ctx frames) (entriesMem stops there (entrySome blocks same right)) same
  · rintro ⟨h,given,is,first⟩
    refine ⟨h.entry ctx frames,entriesMem stops given (entrySome blocks is left),is,?_⟩
    intro _ mem same
    obtain ⟨e,there,_,rfl⟩ := entriesFrom mem
    exact first e there same

end

end

/- A text is told at a stop by an entry that stands behind all others at the stop that
tell otherwise. An entry stands where the first of those that say the same stands. -/
def Prevails (ctx : Context) (frames : List Keyframe) (stop p text : Bytes) : Prop :=
  ∃ f ∈ frames, f.isAt stop = true ∧ (f.entry ctx frames).voice p = some text ∧
    ∀ g ∈ frames, g.isAt stop = true → ∀ other, (g.entry ctx frames).voice p = some other → other ≠ text →
      Ahead (fun h => (h.entry ctx frames).body) (fun a b => before a.stopsKey b.stopsKey = true) frames
        (g.entry ctx frames).body (f.entry ctx frames).body

section
variable {ctx : Context} {frames : List Keyframe} {p stop : Bytes}
  (stops : Separable 44 id id fun s => ∃ f ∈ frames, s ∈ f.stops.map optimizeStop)
  (blocks : Separable 59 Declaration.text face fun d => ∃ f ∈ frames, d ∈ (f.alone ctx).content)
include stops blocks

theorem framesTell (text) :
    (lastAt stop p (optimizeFrames ctx frames).value).map Declaration.text = some text ↔
      Prevails ctx frames stop p text := by
  have grouped : (optimizeFrames ctx frames).value = Keyframe.groupByBody (entries ctx frames) := rfl
  have speaks : ∀ f : Keyframe, ∀ t, (f.entry ctx frames).voice p = some t → (f.entry ctx frames).content ≠ [] := by
    intro f t spoken bare
    rw [voice,bare] at spoken
    cases spoken
  rw [grouped,bodiesSay entriesOrdered (entriesLegible blocks)]
  constructor
  · rintro ⟨_,mem,here,spoken,first⟩
    obtain ⟨f,given,full,rfl⟩ := entriesFrom mem
    refine ⟨f,given,(isAtOptimized stop f).symm.trans here,spoken,?_⟩
    intro g there listed other heard differs
    have left := speaks g other heard
    exact (aheadEntries blocks stops left full).mp
      (first _ (entriesMem stops there left) ((isAtOptimized stop g).trans listed) other heard differs)
  · rintro ⟨f,given,here,spoken,first⟩
    have right := speaks f text spoken
    refine ⟨f.entry ctx frames,entriesMem stops given right,(isAtOptimized stop f).trans here,spoken,?_⟩
    intro _ mem listed other heard differs
    obtain ⟨g,there,left,rfl⟩ := entriesFrom mem
    exact (aheadEntries blocks stops left right).mpr
      (first g there ((isAtOptimized stop g).symm.trans listed) other heard differs)

theorem framesSilent (single : shorthandsOf p = []) (bare : lastAt stop p (frames.map (alone ctx)) = none) :
    lastAt stop p (optimizeFrames ctx frames).value = .none := by
  cases last : lastAt stop p (optimizeFrames ctx frames).value with
  | none => rfl
  | some d =>
    obtain ⟨f,given,here,spoken,_⟩ := (framesTell stops blocks d.text).mp (congrArg _ last)
    rw [voice,entrySilent blocks stops single bare given here] at spoken
    cases spoken

end

theorem animationMade {ctx name vendor frames out} (made : (optimizeAnimation ctx name vendor frames).value = some out) :
    out = .keyframes name (lower vendor) (optimizeFrames (ctx.inVendor (lower vendor)) frames).value := by
  rw [optimizeAnimation] at made
  split at made
  · rw [valueBind,valuePure] at made
    exact (Option.some.inj made).symm
  · cases made

/- What an animation tells of a property at a stop is what its entries told, each of them
optimized by itself, exactly if the last of them prevails. -/
theorem optimizedAnimationApplies (ctx : Context) (name vendor : Bytes) (frames : List Keyframe)
    (name' vendor' : Bytes) (out : List Keyframe)
    (kept : (Rule.optimize ctx (.keyframes name vendor frames)).value = some (.keyframes name' vendor' out))
    (stops : Separable 44 id id fun s => ∃ f ∈ frames, s ∈ f.stops.map optimizeStop)
    (blocks : Separable 59 Declaration.text face
      fun d => ∃ f ∈ frames, d ∈ (f.alone (ctx.inVendor (lower vendor))).content)
    (stop p : Bytes) (single : shorthandsOf p = []) :
    (lastAt stop p out).map Declaration.text =
        (lastAt stop p (frames.map (alone (ctx.inVendor (lower vendor))))).map Declaration.text ↔
      ∀ w, lastAt stop p (frames.map (alone (ctx.inVendor (lower vendor)))) = some w →
        Prevails (ctx.inVendor (lower vendor)) frames stop p w.text := by
  cases animationMade kept
  cases last : lastAt stop p (frames.map (alone (ctx.inVendor (lower vendor)))) with
  | none =>
    rw [framesSilent stops blocks single last]
    simp
  | some d =>
    rw [Option.map_some,framesTell stops blocks]
    simp

def wordFrame (stops : List String) (word : String) : Keyframe :=
  ⟨stops.map ascii,[wordDeclaration "--x" word]⟩

def twoStops : Keyframe := wordFrame ["50%","60%"] "1"

def oneStop : Keyframe := wordFrame ["50%"] "2"

theorem wordFrameAlone (stops word) : (wordFrame stops word).alone cautious = wordFrame stops word := by
  rw [alone,wordFrame,optimizeOne (wordRests "--x" word rfl)]

theorem wordFrameEntry {frames} (stops word)
    (shared : (wordFrame stops word).shared frames = [wordDeclaration "--x" word]) :
    ((wordFrame stops word).entry cautious frames).content = [wordDeclaration "--x" word] := by
  rw [entryContent,shared,optimizeOne (wordRests "--x" word rfl),arrangeSingle]

theorem twoStopsEntry : (twoStops.entry cautious [twoStops,oneStop]).content = [wordDeclaration "--x" "1"] :=
  wordFrameEntry _ _ rfl

theorem oneStopEntry : (oneStop.entry cautious [twoStops,oneStop]).content = [wordDeclaration "--x" "2"] :=
  wordFrameEntry _ _ rfl

theorem knownStops {frames : List Keyframe} (known : ∀ f ∈ frames, ∀ s ∈ f.stops.map optimizeStop, s ≠ [] ∧ 44 ∉ s) :
    Separable 44 id id fun s => ∃ f ∈ frames, s ∈ f.stops.map optimizeStop := by
  refine separableOf ?_ fun _ _ _ _ same => same
  rintro s ⟨f,mem,there⟩
  exact known f mem s there

theorem overlappingStops : Separable 44 id id fun s => ∃ f ∈ [twoStops,oneStop], s ∈ f.stops.map optimizeStop :=
  knownStops (by decide)

theorem overlappingBlocks : Separable 59 text face
    fun d => ∃ f ∈ [twoStops,oneStop], d ∈ (f.alone cautious).content := by
  refine toldSeparable ?_
  rintro d ⟨f,mem,there⟩
  rcases mem_pair.mp mem with rfl | rfl
  · rw [twoStops,wordFrameAlone] at there
    rw [mem_singleton.mp there]
    exact ⟨rfl,by decide,by decide,by decide⟩
  · rw [oneStop,wordFrameAlone] at there
    rw [mem_singleton.mp there]
    exact ⟨rfl,by decide,by decide,by decide⟩

theorem oneStopYields : ¬ Prevails cautious [twoStops,oneStop] (ascii "50%") (ascii "--x") (ascii "--x:2") := by
  have first : (twoStops.entry cautious [twoStops,oneStop]).voice (ascii "--x") = some (ascii "--x:1") := by
    rw [voice,twoStopsEntry]
    decide
  rintro ⟨f,mem,_,spoken,behind⟩
  rcases mem_pair.mp mem with rfl | rfl
  · exact absurd (spoken.symm.trans first) (by decide)
  obtain ⟨h,there,is,ahead⟩ := behind twoStops mem_cons_self rfl (ascii "--x:1") first (by decide)
  have order := ahead oneStop mem rfl
  rcases mem_pair.mp there with rfl | rfl
  · exact absurd order (by decide)
  · dsimp only at is
    rw [body,body,twoStopsEntry,oneStopEntry] at is
    exact absurd is (by decide)

theorem overlappingStopsMisapplied :
    (Separable 44 id id fun s => ∃ f ∈ [twoStops,oneStop], s ∈ f.stops.map optimizeStop) ∧
    (Separable 59 Declaration.text face
      fun d => ∃ f ∈ [twoStops,oneStop], d ∈ (f.alone cautious).content) ∧
    lastAt (ascii "50%") (ascii "--x") ([twoStops,oneStop].map (alone cautious)) =
      some (wordDeclaration "--x" "2") ∧
    (lastAt (ascii "50%") (ascii "--x") (optimizeFrames cautious [twoStops,oneStop]).value).map Declaration.text ≠
      some (ascii "--x:2") := by
  have last : lastAt (ascii "50%") (ascii "--x") ([twoStops,oneStop].map (alone cautious)) =
      some (wordDeclaration "--x" "2") := by
    rw [map_cons,map_cons,map_nil,twoStops,oneStop,wordFrameAlone,wordFrameAlone]
    rfl
  refine ⟨overlappingStops,overlappingBlocks,last,?_⟩
  have exactly := optimizedAnimationApplies cautious (ascii "x") [] [twoStops,oneStop] (ascii "x") []
    (optimizeFrames cautious [twoStops,oneStop]).value rfl overlappingStops overlappingBlocks (ascii "50%")
    (ascii "--x") (by decide)
  have free : cautious.inVendor (lower []) = cautious := rfl
  rw [free,last] at exactly
  intro kept
  exact oneStopYields (exactly.mp kept _ rfl)

end Cascade
