import Cascade.Proofs.Gathered
import Cascade.Proofs.Heeded

/-! What the entries of an animation tell at a stop. Of entries that are joined because
they say the same, what is told in the end is told by one that stands behind all others
at the stop. -/
namespace Cascade
open List
open Declaration (text face)
open Keyframe (groupByBody body joinStops content)

def lastOf (p : Bytes) (ds : List Declaration) : Option Declaration :=
  ds.reverse.find? fun d => d.key == p

def Keyframe.isAt (stop : Bytes) (f : Keyframe) : Bool :=
  (f.stops.map optimizeStop).contains (optimizeStop stop)

def lastAt (stop p : Bytes) (frames : List Keyframe) : Option Declaration :=
  lastOf p ((frames.filter (Keyframe.isAt stop)).flatMap Keyframe.content)

section
variable {p : Bytes}

theorem lastOfAppend (ds es) : lastOf p (ds ++ es) = (lastOf p es).or (lastOf p ds) := by
  rw [lastOf,reverse_append,find?_append]
  rfl

theorem lastOfStrongest (ds) : lastOf p ds = strongest (fun _ => ()) (ds.filter (heeds p fun _ => true)) := by
  induction ds with
  | nil => rfl
  | cons d ds ih =>
    have one : lastOf p [d] = strongest (fun _ => ()) ([d].filter (heeds p fun _ => true)) := by
      cases h : d.key == p <;> simp [lastOf,heeds,h,strongest]
    have later : ∀ a b : Option Declaration, b.or a = prevail (fun _ => ()) a b := by
      intro a b
      cases a <;> cases b <;> simp [prevail]
    rw [← singleton_append,lastOfAppend,filter_append,strongestAppend,← ih,← one,later]

theorem lastOfArranged (single : shorthandsOf p = []) {ds}
    (alike : ∀ d ∈ ds, ∀ e ∈ ds, d.text = e.text → d.key = e.key) :
    lastOf p (arrangeDeclarations ds) = lastOf p ds := by
  rw [lastOfStrongest,lastOfStrongest,arrangeDeclarations,sortedHeeds,← prunedHeeds single ds]
  symm
  apply thinnedStrongest
  apply lastByThinned
  intro d hd e he text
  have sub := (withoutOverriddenSublist ds).subset
  exact ⟨by rw [heeds,heeds,alike d (sub hd) e (sub he) text],rfl⟩

theorem lastOfFace {ds es} (same : ds.map face = es.map face) : (lastOf p ds).map text = (lastOf p es).map text := by
  have read : ∀ ds, (lastOf p ds).map text = ((ds.map face).reverse.find? fun f => f.1 == p).map fun f => f.2.2 := by
    intro ds
    rw [lastOf,← map_reverse,find?_map,Option.map_map]
    rfl
  rw [read,read,same]

theorem lastOfNone {ds} : lastOf p ds = none ↔ ∀ d ∈ ds, d.key ≠ p := by
  rw [lastOf,find?_eq_none]
  simp

theorem lastOfFlat {α : Type} (g) (xs : List α) : lastOf p (xs.flatMap g) = none ↔ ∀ x ∈ xs, lastOf p (g x) = none := by
  simp only [lastOfNone,mem_flatMap]
  constructor
  · intro bare x mem d there
    exact bare d ⟨x,mem,there⟩
  · rintro bare d ⟨x,mem,there⟩
    exact bare x mem d there

variable {stop : Bytes}

theorem lastAtNone {frames} : lastAt stop p frames = none ↔ ∀ f ∈ frames, f.isAt stop → lastOf p f.content = none := by
  rw [lastAt,lastOfFlat]
  simp only [mem_filter,and_imp]

theorem lastAtSome {frames d} (h : lastAt stop p frames = some d) :
    ∃ front f back, frames = front ++ f :: back ∧ f.isAt stop ∧ lastOf p f.content = some d ∧
      ∀ g ∈ back, g.isAt stop → lastOf p g.content = none := by
  induction frames with
  | nil => cases h
  | cons f frames ih =>
    cases rest : lastAt stop p frames with
    | some e =>
      have same : lastAt stop p (f :: frames) = some e := by
        rw [lastAt] at rest ⊢
        rw [filter_cons]
        split
        · rw [flatMap_cons,lastOfAppend,rest]
          rfl
        · exact rest
      cases same.symm.trans h
      obtain ⟨front,g,back,split,found⟩ := ih rest
      exact ⟨f :: front,g,back,by rw [split]; rfl,found⟩
    | none =>
      have silent := lastAtNone.mp rest
      rw [lastAt,filter_cons] at h
      split at h
      · rename_i here
        rw [lastAt] at rest
        rw [flatMap_cons,lastOfAppend,rest] at h
        exact ⟨[],f,frames,rfl,here,h,silent⟩
      · exact absurd (rest.symm.trans h) nofun

end

theorem optimizeStopTwice (stop) : optimizeStop (optimizeStop stop) = optimizeStop stop := by
  have zero : optimizeStop (ascii "0") = ascii "0" := by decide
  have full : optimizeStop (ascii "to") = ascii "to" := by decide
  unfold optimizeStop
  dsimp only
  split
  · exact zero
  · split
    · exact full
    · rfl

theorem isAtIff {stop} {f : Keyframe} : f.isAt stop ↔ optimizeStop stop ∈ f.stops.map optimizeStop := contains_iff_mem

theorem stopsOnce {stop stops} : stop ∈ distinctBy (fun s => s) stops ↔ stop ∈ stops := by
  constructor
  · exact fun mem => (distinctFromSublist _ _).subset mem
  · intro mem
    rcases distinctFromCovers (fun s => s) [] mem with known | ⟨_,stays,rfl⟩
    · cases known
    · exact stays

theorem optimizedStops {s} {f : Keyframe} : s ∈ f.optimizeStops.stops ↔ s ∈ f.stops.map optimizeStop :=
  stopsOnce

theorem isAtOptimized (stop) (f : Keyframe) : f.optimizeStops.isAt stop = f.isAt stop := by
  rw [Bool.eq_iff_iff,isAtIff,isAtIff]
  constructor
  · intro mem
    obtain ⟨s,there,same⟩ := mem_map.mp mem
    obtain ⟨t,given,rfl⟩ := mem_map.mp (optimizedStops.mp there)
    rw [optimizeStopTwice] at same
    exact mem_map.mpr ⟨t,given,same⟩
  · intro mem
    rw [← optimizeStopTwice]
    exact mem_map_of_mem (optimizedStops.mpr mem)

theorem isAtJoined (stop a b) : (joinStops a b).isAt stop ↔ a.isAt stop ∨ b.isAt stop := by
  rw [joinStops,isAtOptimized,isAtIff,isAtIff,isAtIff,map_append,mem_append]

theorem joinedStops (stop a rest) :
    (rest.foldl joinStops a).content = a.content ∧
      ((rest.foldl joinStops a).isAt stop ↔ ∃ b ∈ a :: rest, b.isAt stop) := by
  induction rest generalizing a with
  | nil => simp
  | cons b rest ih =>
    obtain ⟨content,listed⟩ := ih (joinStops a b)
    refine ⟨content,?_⟩
    rw [foldl_cons,listed]
    simp only [mem_cons,exists_eq_or_imp,isAtJoined,or_assoc]

theorem joinedContent (a) (rest : List Keyframe) : rest.foldl Keyframe.joinContent a =
    ⟨a.stops,(a :: rest).flatMap content⟩ := by
  induction rest generalizing a with
  | nil => simp
  | cons b rest ih =>
    rw [foldl_cons,ih]
    simp [Keyframe.joinContent]

def Keyframe.voice (p : Bytes) (f : Keyframe) : Option Bytes := (lastOf p f.content).map Declaration.text

def Keyframe.earlier (a b : Keyframe) : Prop := before a.stopsText b.stopsText = true

open Keyframe (earlier voice)

theorem aheadAsymm {frames s t}
    (forth : Ahead body earlier frames s t) (back : Ahead body earlier frames t s) : False := by
  obtain ⟨a,ma,isS,left⟩ := forth
  obtain ⟨b,mb,isT,right⟩ := back
  have lt := (beforeLex _ _).mp (left b mb isT)
  have gt := (beforeLex _ _).mp (right a ma isS)
  exact List.lt_irrefl _ (List.lt_trans lt gt)

section
variable {p stop : Bytes} {frames : List Keyframe}

theorem bodyMem {r} (mem : r ∈ groupByBody frames) :
    (∃ a ∈ frames, a.body = r.body ∧ r.content = a.content) ∧
      (r.isAt stop ↔ ∃ b ∈ frames, b.body = r.body ∧ b.isAt stop) := by
  obtain ⟨a,rest,found,made⟩ := @gatherMem body joinStops (fun _ _ => rfl) _ _ mem
  obtain ⟨content,listed⟩ := joinedStops stop a rest
  have members : ∀ b, b ∈ a :: rest ↔ b ∈ frames ∧ b.body = r.body := by
    intro b
    rw [← found,mem_filter,beq_iff_eq]
  rw [← made] at content listed
  obtain ⟨there,same⟩ := (members a).mp mem_cons_self
  refine ⟨⟨a,there,same,content⟩,?_⟩
  rw [listed]
  simp only [members,and_assoc]

variable (ordered : frames.Pairwise earlier)
  (legible : ∀ a ∈ frames, ∀ b ∈ frames, a.body = b.body → a.voice p = b.voice p)
include legible

theorem bodyVoice {r e} (mem : r ∈ groupByBody frames) (there : e ∈ frames)
    (same : e.body = r.body) : r.voice p = e.voice p := by
  obtain ⟨⟨a,given,alike,content⟩,_⟩ := @bodyMem [] _ _ mem
  rw [voice,content]
  exact legible a given e there (alike.trans same.symm)

include ordered

theorem bodiesSay (w) :
    (lastAt stop p (groupByBody frames)).map text = some w ↔
      ∃ e ∈ frames, e.isAt stop ∧ e.voice p = some w ∧
        ∀ g ∈ frames, g.isAt stop → ∀ v, g.voice p = some v → v ≠ w →
          Ahead body earlier frames g.body e.body := by
  have find : ∀ e ∈ frames, ∃ r ∈ groupByBody frames, r.body = e.body ∧ r.voice p = e.voice p ∧
      (e.isAt stop → r.isAt stop) := by
    intro e there
    obtain ⟨r,mem,same⟩ := @gatherFind body joinStops (fun _ _ => rfl) _ _ there
    exact ⟨r,mem,same,bodyVoice legible mem there same.symm,fun here =>
      (bodyMem mem).2.mpr ⟨e,there,same.symm,here⟩⟩
  have order : ((groupByBody frames).map body).Pairwise (Ahead body earlier frames) :=
    @gatherOrder body joinStops (fun _ _ => rfl) _ _ ordered
  -- What is told last is told by an entry behind all those that tell anything else.
  have decided : ∀ d, lastAt stop p (groupByBody frames) = some d →
      ∃ e ∈ frames, e.isAt stop ∧ e.voice p = some d.text ∧
        ∀ g ∈ frames, g.isAt stop → ∀ v, g.voice p = some v → v ≠ d.text →
          Ahead body earlier frames g.body e.body := by
    intro d last
    obtain ⟨fs,r,gs,split,here,decides,silent⟩ := lastAtSome last
    have mem : r ∈ groupByBody frames := by
      rw [split]
      simp
    have heard : r.voice p = some d.text := by
      rw [voice,decides]
      rfl
    obtain ⟨e,there,same,listed⟩ := (bodyMem mem).2.mp here
    refine ⟨e,there,listed,(bodyVoice legible mem there same).symm.trans heard,?_⟩
    intro g given at' v spoken other
    obtain ⟨u,mu,su,alike,at''⟩ := find g given
    rw [su.symm,same]
    rw [split] at mu order
    rcases mem_append.mp mu with before | behind
    · rw [map_append,map_cons,pairwise_append] at order
      exact order.2.2 _ (mem_map_of_mem before) _ mem_cons_self
    rw [spoken] at alike
    rcases mem_cons.mp behind with rfl | later
    · exact absurd (Option.some.inj (alike.symm.trans heard)) other
    · rw [voice,silent u later (at'' at')] at alike
      cases alike
  constructor
  · intro said
    obtain ⟨d,last,rfl⟩ := Option.map_eq_some_iff.mp said
    exact decided d last
  · rintro ⟨e,there,listed,heard,first⟩
    cases last : lastAt stop p (groupByBody frames) with
    | none =>
      obtain ⟨u,mu,su,alike,at'⟩ := find e there
      have silent := lastAtNone.mp last u mu (at' listed)
      rw [heard,voice,silent] at alike
      cases alike
    | some d =>
      obtain ⟨g,given,listed',spoken,behind⟩ := decided d last
      by_contra other
      have differs : d.text ≠ w := fun same => other (congrArg some same)
      exact aheadAsymm (first g given listed' d.text spoken differs) (behind e there listed w heard differs.symm)

end

end Cascade
