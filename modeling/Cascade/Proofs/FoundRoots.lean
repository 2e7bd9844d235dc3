import Cascade.Command.Tasks
import Cascade.Proofs.Ways

/-! The root that is found for a file: of those that lead to it, the deepest. Depth is judged by how short the text of
the way is. That is right because all that lead to one file lie on one line, so the way from a deeper root is the end of
the way from a higher one. -/
namespace Cascade
open List

section
variable {place path : Bytes} {r s : Route} {n : Nat}

/- A path lies so and so far from a place, by the text of the way of names that leads there. -/
def Away (place path : Bytes) (n : Nat) : Prop := ∃ way, Names way ∧ way.foldl joinPaths place = path ∧ (joinParts false way).length = n

theorem leadsAway : LeadsTo place path ↔ ∃ n, Away place path n :=
  ⟨fun ⟨way,named,reached⟩ => ⟨_,way,named,reached,rfl⟩,fun ⟨_,way,named,reached,_⟩ => ⟨way,named,reached⟩⟩

theorem awayIff : Away r.text s.text n ↔ ∃ w, relativePath r.text s.text = some w ∧ leadsOut w = false ∧ w.length = n := by
  constructor
  · rintro ⟨way,named,reached,length⟩
    rw [Route.joinNames named] at reached
    exact ⟨_,reached ▸ Route.relativeInto named,Route.leadsOutNames named,length⟩
  · rintro ⟨w,found,inside,length⟩
    rcases Route.relativeCases found with out | ⟨way,named,rfl,rfl⟩
    · cases inside.symm.trans out
    · exact ⟨way,named,Route.joinNames named,length⟩

theorem joinedLonger {mid way : List Bytes} (full : mid ≠ []) (more : way ≠ []) :
    ([47].intercalate way).length < ([47].intercalate (mid ++ way)).length := by
  induction mid with
  | nil => exact absurd rfl full
  | cons n mid ih =>
    obtain ⟨p,rest,whole⟩ := exists_cons_of_ne_nil (append_ne_nil_of_right_ne_nil mid more)
    have longer : ([47].intercalate way).length ≤ ([47].intercalate (mid ++ way)).length := by
      by_cases bare : mid = []
      · simp [bare]
      · exact Nat.le_of_lt (ih bare)
    rw [whole] at longer
    rw [cons_append,whole,intercalate_cons_cons,length_append,length_append]
    exact Nat.lt_of_le_of_lt longer (by simp)

/-- A clean path lies below another that leads to it by at least one name. -/
def IsBelow (place path : Bytes) : Prop := LeadsTo place path ∧ path ≠ place

theorem belowInto (below : IsBelow r.text path) : ∃ way named, way ≠ [] ∧ path = (r.into way named).text := by
  obtain ⟨⟨way,named,rfl⟩,other⟩ := below
  refine ⟨way,named,?_,Route.joinNames named⟩
  rintro rfl
  exact other rfl

theorem deeperNearer (inner : IsBelow r.text place) (below : IsBelow place path) (away : Away r.text path n) :
    ∃ m < n, Away place path m := by
  obtain ⟨mid,mids,full,rfl⟩ := belowInto inner
  obtain ⟨way,named,more,rfl⟩ := belowInto below
  obtain ⟨w,found,_,length⟩ := awayIff.mp away
  rw [Route.intoInto mids named] at found
  cases (Route.relativeInto _).symm.trans found
  refine ⟨(joinParts false way).length,?_,way,named,Route.joinNames named,rfl⟩
  simpa [joinParts,full,more,← length] using joinedLonger full more

end

section
variable {filename : Bytes} {roots : List Bytes}

/- What is known after some roots: the nearest of those that lead to the file. -/
def Nearest (filename : Bytes) (seen : List Bytes) : Option (Bytes × Nat) → Prop
  | none => ∀ r ∈ seen, ¬ LeadsTo r filename
  | some (root,length) => root ∈ seen ∧ Away root filename length ∧ ∀ r ∈ seen, ∀ n, Away r filename n → length ≤ n

theorem nearestPast {seen best root} (known : Nearest filename seen best) (apart : ¬ LeadsTo root filename) :
    Nearest filename (seen ++ [root]) best := by
  cases best with
  | none => exact forall_mem_append.mpr ⟨known,forall_mem_singleton.mpr apart⟩
  | some pair =>
    obtain ⟨here,away,least⟩ := known
    refine ⟨mem_append_left _ here,away,forall_mem_append.mpr ⟨least,forall_mem_singleton.mpr fun n reaches => ?_⟩⟩
    exact absurd (leadsAway.mpr ⟨n,reaches⟩) apart

theorem rootStep (r s : Route) (best) :
    (¬ LeadsTo r.text s.text ∧ betterRoot s.text best r.text = best) ∨ ∃ n, (∀ m, Away r.text s.text m ↔ m = n) ∧
      betterRoot s.text best r.text = if best.all (n < ·.2) then some (r.text,n) else best := by
  rw [leadsAway,betterRoot]
  simp only [awayIff]
  cases relativePath r.text s.text with
  | none => exact .inl ⟨fun ⟨_,_,found,_⟩ => (by cases found),rfl⟩
  | some w =>
    dsimp only
    cases out : leadsOut w with
    | true =>
      refine .inl ⟨?_,rfl⟩
      rintro ⟨_,_,⟨⟩,inside,_⟩
      cases inside.symm.trans out
    | false =>
      refine .inr ⟨w.length,fun m => ⟨?_,fun same => ⟨w,rfl,out,same.symm⟩⟩,?_⟩
      · rintro ⟨_,⟨⟩,_,length⟩
        exact length.symm
      · cases best <;> simp

theorem betterNearest {seen best root} (clean : cleanPath filename = filename) (tidy : cleanPath root = root)
    (known : Nearest filename seen best) : Nearest filename (seen ++ [root]) (betterRoot filename best root) := by
  obtain ⟨r,rfl⟩ := Route.ofClean tidy
  obtain ⟨s,rfl⟩ := Route.ofClean clean
  rcases rootStep r s best with ⟨apart,same⟩ | ⟨n,away,same⟩
  · rw [same]
    exact nearestPast known apart
  rw [same]
  split
  · rename_i nearer
    refine ⟨mem_append_right _ mem_cons_self,(away n).mpr rfl,
      forall_mem_append.mpr ⟨fun q mem m reaches => ?_,forall_mem_singleton.mpr fun m reaches => ?_⟩⟩
    · cases best with
      | none => exact absurd (leadsAway.mpr ⟨m,reaches⟩) (known q mem)
      | some pair => exact Nat.le_of_lt (Nat.lt_of_lt_of_le (of_decide_eq_true nearer) (known.2.2 q mem m reaches))
    · exact Nat.le_of_eq ((away m).mp reaches).symm
  · rename_i farther
    cases best with
    | none => exact absurd rfl farther
    | some pair =>
      obtain ⟨among,best,least⟩ := known
      refine ⟨mem_append_left _ among,best,forall_mem_append.mpr ⟨least,forall_mem_singleton.mpr fun m reaches => ?_⟩⟩
      exact (away m).mp reaches ▸ Nat.le_of_not_lt fun shorter => farther (decide_eq_true shorter)

theorem rootsNearest {seen best} (clean : cleanPath filename = filename) (tidy : ∀ r ∈ roots, cleanPath r = r)
    (known : Nearest filename seen best) : Nearest filename (seen ++ roots) (roots.foldl (betterRoot filename) best) := by
  induction roots generalizing seen best with
  | nil => rwa [append_nil]
  | cons root roots ih =>
    obtain ⟨here,others⟩ := forall_mem_cons.mp tidy
    have more := ih others (betterNearest clean here known)
    rwa [append_assoc] at more

theorem deepestRoot (roots : List Bytes) (filename : Bytes) (tidy : ∀ r ∈ roots, cleanPath r = r)
    (clean : cleanPath filename = filename) (apart : filename ∉ roots) :
    ((∃ r ∈ roots, IsBelow r filename) → findRoot roots filename ∈ roots ∧ IsBelow (findRoot roots filename) filename ∧
      ∀ r ∈ roots, IsBelow r filename → ¬ IsBelow (findRoot roots filename) r) ∧
    ((∀ r ∈ roots, ¬ IsBelow r filename) → findRoot roots filename = dirName filename) := by
  have other {r} (mem : r ∈ roots) : filename ≠ r := fun same => apart (same ▸ mem)
  have nearest := @rootsNearest filename roots [] none clean tidy (forall_mem_nil _)
  rw [findRoot]
  cases best : roots.foldl (betterRoot filename) none with
  | none =>
    rw [best] at nearest
    refine ⟨fun ⟨r,mem,below⟩ => absurd below.1 (nearest r mem),fun _ => rfl⟩
  | some pair =>
    rw [best] at nearest
    obtain ⟨root,length⟩ := pair
    obtain ⟨mem,away,least⟩ := nearest
    have below : IsBelow root filename := ⟨leadsAway.mpr ⟨_,away⟩,other mem⟩
    refine ⟨fun _ => ⟨mem,below,fun r among above inner => ?_⟩,fun bare => absurd below (bare _ mem)⟩
    obtain ⟨root,rfl⟩ := Route.ofClean (tidy root mem)
    obtain ⟨m,shorter,nearer⟩ := deeperNearer inner above away
    exact absurd (least r among m nearer) (Nat.not_le.mpr shorter)

theorem innerRootFound : IsBelow (findRoot [dot,ascii "b",ascii "/b"] (ascii "b/c/a.css")) (ascii "b/c/a.css") ∧
    ¬ IsBelow (findRoot [dot,ascii "b",ascii "/b"] (ascii "b/c/a.css")) (ascii "b") := by
  have outer : IsBelow dot (ascii "b/c/a.css") := ⟨⟨[ascii "b",ascii "c",ascii "a.css"],by decide,rfl⟩,by decide⟩
  have inner : IsBelow (ascii "b") (ascii "b/c/a.css") := ⟨⟨[ascii "c",ascii "a.css"],by decide,rfl⟩,by decide⟩
  obtain ⟨_,below,deepest⟩ :=
    (deepestRoot [dot,ascii "b",ascii "/b"] (ascii "b/c/a.css") (by decide) rfl (by decide)).1 ⟨dot,by simp,outer⟩
  exact ⟨below,deepest (ascii "b") (by simp) inner⟩

end

end Cascade
