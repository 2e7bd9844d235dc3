import Cascade.Optimizer.Animation
import Mathlib.Data.List.Induction

/-! Entries of an animation gathered by a key: those with one key become one, at the place
of the first of them. -/
namespace Cascade
open List

variable {key : Keyframe → Bytes} {join : Keyframe → Keyframe → Keyframe}

def gather (key : Keyframe → Bytes) (join : Keyframe → Keyframe → Keyframe) (ks : List Keyframe) :
    List Keyframe := ks.foldl (fun done k => Keyframe.insert key join k done) []

theorem gatherSnoc (ks k) : gather key join (ks ++ [k]) = Keyframe.insert key join k (gather key join ks) := by
  rw [gather,foldl_append]
  rfl

theorem insertCases {fs k r} (nodup : (fs.map key).Nodup) (mem : r ∈ Keyframe.insert key join k fs) :
    (r ∈ fs ∧ key r ≠ key k) ∨ (∃ f ∈ fs, key f = key k ∧ r = join f k) ∨
      (r = k ∧ key k ∉ fs.map key) := by
  induction fs with
  | nil => exact .inr (.inr ⟨mem_singleton.mp mem,not_mem_nil⟩)
  | cons f fs ih =>
    rw [map_cons,nodup_cons] at nodup
    rw [Keyframe.insert] at mem
    split at mem
    · rename_i same
      rw [beq_iff_eq] at same
      rcases mem_cons.mp mem with rfl | old
      · exact .inr (.inl ⟨f,mem_cons_self,same,rfl⟩)
      · refine .inl ⟨mem_cons_of_mem _ old,?_⟩
        intro again
        exact nodup.1 (same.trans again.symm ▸ mem_map_of_mem old)
    · rename_i other
      rw [beq_iff_eq] at other
      rcases mem_cons.mp mem with rfl | old
      · exact .inl ⟨mem_cons_self,other⟩
      rcases ih nodup.2 old with ⟨there,apart⟩ | ⟨g,there,found⟩ | ⟨new,absent⟩
      · exact .inl ⟨mem_cons_of_mem _ there,apart⟩
      · exact .inr (.inl ⟨g,mem_cons_of_mem _ there,found⟩)
      · refine .inr (.inr ⟨new,?_⟩)
        rw [map_cons,mem_cons]
        exact fun either => either.elim (fun same => other same.symm) absent

variable (keeps : ∀ a b, key (join a b) = key a)
include keeps

theorem insertKeys (k fs) : (Keyframe.insert key join k fs).map key =
    if key k ∈ fs.map key then fs.map key else fs.map key ++ [key k] := by
  induction fs with
  | nil => rfl
  | cons f fs ih =>
    rw [Keyframe.insert]
    split
    · rename_i same
      rw [beq_iff_eq] at same
      rw [map_cons,map_cons,keeps,if_pos (by rw [same]; exact mem_cons_self)]
    rename_i other
    rw [beq_iff_eq] at other
    have cons : key k ∈ (f :: fs).map key ↔ key k ∈ fs.map key := by
      rw [map_cons,mem_cons]
      exact or_iff_right fun same => other same.symm
    rw [map_cons,ih]
    split
    · rename_i old
      rw [if_pos (cons.mpr old),map_cons]
    · rename_i new
      rw [if_neg (fun h => new (cons.mp h)),map_cons,cons_append]

theorem gatherKeys (ks) :
    ((gather key join ks).map key).Nodup ∧ ∀ t, t ∈ (gather key join ks).map key ↔ t ∈ ks.map key := by
  induction ks using List.reverseRecOn with
  | nil => exact ⟨nodup_nil,fun _ => Iff.rfl⟩
  | append_singleton ks k ih =>
    obtain ⟨nodup,same⟩ := ih
    rw [gatherSnoc,insertKeys keeps]
    split
    · rename_i old
      refine ⟨nodup,?_⟩
      intro t
      rw [same,map_append,mem_append,map_singleton,mem_singleton]
      exact ⟨.inl,fun either => either.elim (fun h => h) fun is => is ▸ (same _).mp old⟩
    · rename_i new
      refine ⟨nodup_append.mpr ⟨nodup,by simp,?_⟩,?_⟩
      · intro s old t here same
        exact new (mem_singleton.mp here ▸ same ▸ old)
      · intro t
        rw [map_append,mem_append,mem_append,same]
        rfl

theorem gatherFind {ks a} (mem : a ∈ ks) : ∃ r ∈ gather key join ks, key r = key a :=
  mem_map.mp (((gatherKeys keeps ks).2 _).mpr (mem_map_of_mem mem))

theorem gatherMem {ks r} (mem : r ∈ gather key join ks) :
    ∃ a rest, ks.filter (fun k => key k == key r) = a :: rest ∧ r = rest.foldl join a := by
  induction ks using List.reverseRecOn generalizing r with
  | nil => cases mem
  | append_singleton ks k ih =>
    rw [gatherSnoc] at mem
    obtain ⟨nodup,keys⟩ := gatherKeys keeps ks
    rw [filter_append]
    rcases insertCases nodup mem with ⟨old,apart⟩ | ⟨f,old,same,rfl⟩ | ⟨rfl,new⟩
    · obtain ⟨a,rest,found,made⟩ := ih old
      have bare : [k].filter (fun k => key k == key r) = [] := by simpa using fun h => apart h.symm
      exact ⟨a,rest,by rw [found,bare,append_nil],made⟩
    · obtain ⟨a,rest,found,made⟩ := ih old
      have one : [k].filter (fun e => key e == key (join f k)) = [k] := by simp [keeps,same]
      refine ⟨a,rest ++ [k],by rw [keeps,found] at *; rw [one]; rfl,?_⟩
      rw [foldl_append,← made]
      rfl
    · have bare : ks.filter (fun k => key k == key r) = [] := by
        rw [filter_eq_nil_iff]
        intro a there same
        exact new ((keys _).mpr (beq_iff_eq.mp same ▸ mem_map_of_mem there))
      refine ⟨r,[],?_,rfl⟩
      rw [bare]
      simp

def Ahead (key : Keyframe → Bytes) (earlier : Keyframe → Keyframe → Prop) (ks : List Keyframe) (s t : Bytes) :
    Prop := ∃ h ∈ ks, key h = s ∧ ∀ e ∈ ks, key e = t → earlier h e

theorem gatherOrder {earlier ks} (ordered : ks.Pairwise earlier) :
    ((gather key join ks).map key).Pairwise (Ahead key earlier ks) := by
  induction ks using List.reverseRecOn with
  | nil => exact .nil
  | append_singleton ks k ih =>
    obtain ⟨front,_,last⟩ := pairwise_append.mp ordered
    have behind : ∀ h ∈ ks, earlier h k := fun h mem => last h mem k mem_cons_self
    have still := (ih front).imp fun {s t} (h : Ahead key earlier ks s t) =>
      show Ahead key earlier (ks ++ [k]) s t by
        obtain ⟨h,there,is,first⟩ := h
        exact ⟨h,mem_append_left _ there,is,forall_mem_append.mpr ⟨first,forall_mem_singleton.mpr fun _ => behind h there⟩⟩
    rw [gatherSnoc,insertKeys keeps]
    split
    · exact still
    rename_i new
    refine pairwise_append.mpr ⟨still,pairwise_singleton _ _,?_⟩
    intro s old t is
    rw [mem_singleton.mp is]
    obtain ⟨h,there,same⟩ := mem_map.mp (((gatherKeys keeps ks).2 s).mp old)
    refine ⟨h,mem_append_left _ there,same,forall_mem_append.mpr ⟨fun e before found => ?_,?_⟩⟩
    · exact absurd (((gatherKeys keeps ks).2 _).mpr (found ▸ mem_map_of_mem before)) new
    · exact forall_mem_singleton.mpr fun _ => behind h there

end Cascade
