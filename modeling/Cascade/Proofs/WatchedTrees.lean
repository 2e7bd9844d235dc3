import Cascade.Command.Watcher
import Cascade.Proofs.FileTrees

/-! What a watcher comes to watch. A walk passes over every directory that is watched already, with all below it, even
if it is watched for the sake of one file in it. -/
namespace Cascade
open List

section
variable {e : Entry} {watched : List Bytes} {q : Bytes}

theorem unwatchedEach (watched path) (es : List (Bytes × Entry)) :
    Entry.unwatchedIn watched path es = es.flatMap fun p => p.2.unwatched watched (joinPaths path p.1) := by
  induction es with
  | nil => rfl
  | cons p es ih => rw [Entry.unwatchedIn,ih,flatMap_cons]

theorem unwatchedFound (proper : e.Proper) (path) (mem : q ∈ e.unwatched watched path) :
    ∃ way fs, Names way ∧ e.follow [] way = .ok (.directory fs) ∧ way.foldl joinPaths path = q := by
  induction proper generalizing path with
  | file content => cases mem
  | special => cases mem
  | directory es distinct named inner ih =>
    rw [Entry.unwatched] at mem
    split at mem
    · cases mem
    rcases mem_cons.mp mem with rfl | below
    · exact ⟨[],es,forall_mem_nil _,rfl,rfl⟩
    rw [unwatchedEach] at below
    obtain ⟨⟨n,e⟩,inside,deep⟩ := mem_flatMap.mp below
    obtain ⟨way,fs,others,found,reached⟩ := ih _ inside (joinPaths path n) deep
    have all : Names (n :: way) := forall_mem_cons.mpr ⟨named _ inside,others⟩
    exact ⟨n :: way,fs,all,(Entry.followEntry distinct all).mpr ⟨e,inside,found⟩,reached⟩

/- A walk comes to all directories but those below watched ones, which are watched themselves. -/
theorem unwatchedReaches {d : Disk} (proper : e.Proper) (path)
    (closed : ∀ s ∈ watched, LeadsTo path s → ∀ q, LeadsTo s q → d.DirectoryAt q → q ∈ watched)
    (there : ∀ way fs, Names way → e.follow [] way = .ok (.directory fs) → d.DirectoryAt (way.foldl joinPaths path))
    {way fs} (named : Names way) (found : e.follow [] way = .ok (.directory fs)) :
    way.foldl joinPaths path ∈ watched ∨ way.foldl joinPaths path ∈ e.unwatched watched path := by
  induction proper generalizing path way with
  | file content => exact absurd found (Entry.nothingBelow rfl way)
  | special => exact absurd found (Entry.nothingBelow rfl way)
  | directory es distinct _ inner ih =>
    rw [Entry.unwatched]
    split
    · rename_i known
      have here : LeadsTo path path := ⟨[],forall_mem_nil _,rfl⟩
      exact .inl (closed path (by simpa using known) here _ ⟨way,named,rfl⟩ (there way fs named found))
    cases way with
    | nil => exact .inr mem_cons_self
    | cons n way =>
      obtain ⟨e,inside,found⟩ := (Entry.followEntry distinct named).mp found
      obtain ⟨name,others⟩ := forall_mem_cons.mp named
      have below : ∀ s ∈ watched, LeadsTo (joinPaths path n) s → ∀ q, LeadsTo s q → d.DirectoryAt q → q ∈ watched := by
        rintro s mem ⟨more,names,leads⟩
        exact closed s mem ⟨n :: more,forall_mem_cons.mpr ⟨name,names⟩,leads⟩
      have deep := ih _ inside (joinPaths path n) below (fun more gs names leads => by
        have all : Names (n :: more) := forall_mem_cons.mpr ⟨name,names⟩
        exact there (n :: more) gs all ((Entry.followEntry distinct all).mpr ⟨e,inside,leads⟩)) others found
      refine deep.imp_right fun below => mem_cons_of_mem _ ?_
      rw [unwatchedEach]
      exact mem_flatMap.mpr ⟨(n,e),inside,below⟩

end

namespace Watcher

theorem memAddTo {a b : Bytes} {set} : b ∈ addTo a set ↔ b ∈ set ∨ b = a := by
  rw [addTo]
  split
  · rename_i there
    have there : a ∈ set := by simpa using there
    exact ⟨.inl,fun either => either.elim id fun same => same ▸ there⟩
  · rw [mem_append,mem_singleton]

section
variable {d : Disk} {calls : List Bytes} {w : Watcher} {q : Bytes}

def given (d : Disk) (calls : List Bytes) : Watcher := calls.foldl (fun w path => (w.add d path).1) {}

def Wanted (d : Disk) (calls : List Bytes) (q : Bytes) : Prop :=
  d.DirectoryAt q ∧ ∃ p ∈ calls, d.DirectoryAt (cleanPath p) ∧ LeadsTo (cleanPath p) q

def Housed (d : Disk) (calls : List Bytes) (q : Bytes) : Prop :=
  ∃ p ∈ calls, d.FileAt (cleanPath p) ∧ dirName (cleanPath p) = q

/- The files given before a directory and found in its tree stand in directories that are watched with all below them. -/
def Unhidden (d : Disk) (before : List Bytes) (p : Bytes) : Prop :=
  d.DirectoryAt (cleanPath p) → ∀ q, Housed d before q → LeadsTo (cleanPath p) q → Wanted d before q

theorem addKeeps (path) (mem : q ∈ w.directories) : q ∈ (w.add d path).1.directories := by
  rw [add]
  dsimp only
  split
  · exact mem
  · exact memAddTo.mpr (.inl mem)
  · exact mem_append_left _ mem
  · exact mem

theorem addWanted (proper : d.root.Proper) (served : ∀ q, q ∈ w.directories ↔ Wanted d calls q ∨ Housed d calls q) {path}
    (unhidden : Unhidden d calls path) (q) :
    q ∈ (w.add d path).1.directories ↔ Wanted d (calls ++ [path]) q ∨ Housed d (calls ++ [path]) q := by
  have more : Wanted d (calls ++ [path]) q ∨ Housed d (calls ++ [path]) q ↔ q ∈ w.directories ∨
      d.DirectoryAt q ∧ d.DirectoryAt (cleanPath path) ∧ LeadsTo (cleanPath path) q ∨
        d.FileAt (cleanPath path) ∧ dirName (cleanPath path) = q := by
    rw [served]
    simp only [Wanted,Housed,mem_append,mem_singleton,or_and_right,exists_or,exists_eq_left,and_or_left]
    exact or_or_or_comm
  rw [more,add]
  dsimp only
  cases found : d.find (cleanPath path) with
  | error fault => simp [Disk.DirectoryAt,Disk.FileAt,found]
  | ok e =>
    cases e with
    | file content => simp [Disk.DirectoryAt,Disk.FileAt,found,memAddTo,eq_comm]
    | special => simp [Disk.DirectoryAt,Disk.FileAt,found]
    | directory es =>
      have tree := Disk.findProper proper found
      have other : ¬(d.FileAt (cleanPath path) ∧ dirName (cleanPath path) = q) := by simp [Disk.FileAt,found]
      have there (way fs) (named : Names way) (leads : (Entry.directory es).follow [] way = .ok (.directory fs)) :
          d.DirectoryAt (way.foldl joinPaths (cleanPath path)) := by
        rw [Route.cleanText,Route.joinNames named]
        exact ⟨fs,(Disk.findInto found named fs).mpr leads⟩
      have closed : ∀ s ∈ w.directories, LeadsTo (cleanPath path) s →
          ∀ q, LeadsTo s q → d.DirectoryAt q → q ∈ w.directories := by
        rintro s mem leads _ ⟨more,others,rfl⟩ at'
        have wanted : Wanted d calls s := ((served s).mp mem).elim id fun housed => unhidden ⟨es,found⟩ s housed leads
        obtain ⟨_,p,among,here,way,named,rfl⟩ := wanted
        exact (served _).mpr (.inl ⟨at',p,among,here,way ++ more,forall_mem_append.mpr ⟨named,others⟩,foldl_append⟩)
      rw [mem_append,or_iff_left other]
      constructor
      · refine Or.imp_right fun new => ?_
        obtain ⟨way,fs,named,leads,rfl⟩ := unwatchedFound tree _ new
        exact ⟨there way fs named leads,⟨es,found⟩,way,named,rfl⟩
      · rintro (old | ⟨⟨fs,below⟩,_,way,named,rfl⟩)
        · exact .inl old
        · rw [Route.cleanText,Route.joinNames named] at below
          exact unwatchedReaches tree _ closed there named ((Disk.findInto found named fs).mp below)

theorem givenWanted (proper : d.root.Proper) (served : ∀ q, q ∈ w.directories ↔ Wanted d calls q ∨ Housed d calls q)
    (more : List Bytes) (unhidden : ∀ before p after, more = before ++ p :: after → Unhidden d (calls ++ before) p) (q) :
    q ∈ (more.foldl (fun w path => (w.add d path).1) w).directories ↔
      Wanted d (calls ++ more) q ∨ Housed d (calls ++ more) q := by
  induction more generalizing calls w with
  | nil => rw [append_nil]; exact served q
  | cons path more ih =>
    have here : Unhidden d calls path := by simpa using unhidden [] path more rfl
    rw [foldl_cons,ih (addWanted proper served here),append_assoc,singleton_append]
    rintro before p after rfl
    simpa using unhidden (path :: before) p after rfl

theorem givenKeeps (more : List Bytes) (mem : q ∈ w.directories) :
    q ∈ (more.foldl (fun w path => (w.add d path).1) w).directories := by
  induction more generalizing w with
  | nil => exact mem
  | cons path more ih => exact ih (addKeeps path mem)

theorem directoriesWatched (d : Disk) (proper : d.root.Proper) (calls : List Bytes)
    (unhidden : ∀ before p after, calls = before ++ p :: after → Unhidden d before p) :
    (∀ q, q ∈ (given d calls).directories ↔ Wanted d calls q ∨ Housed d calls q) ∧
    ∀ more q, Wanted d calls q ∨ Housed d calls q → q ∈ (given d (calls ++ more)).directories := by
  have served (q) : q ∈ (given d calls).directories ↔ Wanted d calls q ∨ Housed d calls q := by
    have bare (q) : q ∈ ({} : Watcher).directories ↔ Wanted d [] q ∨ Housed d [] q := by simp [Wanted,Housed]
    exact givenWanted proper bare calls (by simpa using unhidden) q
  refine ⟨served,fun more q wanted => ?_⟩
  rw [given,foldl_append]
  exact givenKeeps more ((served q).mpr wanted)

theorem fileHidesDirectories : ascii "b/e" ∉ (given sampleDisk [ascii "b/a.css",ascii "b"]).directories ∧
    ascii "b/e" ∈ (given sampleDisk [ascii "b",ascii "b/a.css"]).directories := by
  refine ⟨by decide +kernel,?_⟩
  have first : ∀ before p after, [ascii "b"] = before ++ p :: after → Unhidden sampleDisk before p := by
    intro before p after split _ q housed
    have bare : before = [] := by cases before <;> simp_all
    rw [bare] at housed
    obtain ⟨_,mem,_⟩ := housed
    cases mem
  exact (directoriesWatched sampleDisk sampleProper [ascii "b"] first).2 [ascii "b/a.css"] _
    (.inl ⟨⟨_,rfl⟩,ascii "b",mem_cons_self,⟨_,rfl⟩,[ascii "e"],by decide,rfl⟩)

end

section
variable {d : Disk} {path : Bytes}

theorem anyAddTo (p : Bytes → Bool) (a set) : (addTo a set).any p = (set.any p || p a) := by
  rw [Bool.eq_iff_iff,Bool.or_eq_true,any_eq_true,any_eq_true]
  simp only [memAddTo,or_and_right,exists_or,exists_eq_left]

theorem missingNamesNothing (tree : d.root.isDirectory) {fault} (missing : d.find (cleanPath path) = .error fault) :
    d.namesDirectory (cleanPath path) = false := by
  have inner : endsInSlash (cleanPath path) = false := by
    rw [Route.cleanText] at missing ⊢
    refine Bool.eq_false_iff.mpr fun ended => ?_
    rw [Route.slashRoot ended] at missing
    cases root : d.root with
    | directory es =>
      rw [Disk.find,root] at missing
      cases missing
    | file content =>
      rw [root] at tree
      cases tree
    | special =>
      rw [root] at tree
      cases tree
  rw [Disk.namesDirectory,inner,missing]
  rfl

theorem failedAddRemembered (w : Watcher) (d : Disk) (path : Bytes) (fault : FileFault) (tree : d.root.isDirectory = true)
    (missing : d.find (cleanPath path) = .error fault) :
    ∃ after, w.add d path = (after,some ⟨ascii "lstat",cleanPath path,fault⟩) ∧ after.directories = w.directories ∧
      after.ignored = w.ignored ∧
      (∀ filename, after.isWatched d filename = (w.isWatched d filename || filename == cleanPath path)) ∧
      ((∀ filename, after.isWatched d filename = w.isWatched d filename) ↔ w.isWatched d (cleanPath path) = true) := by
  have answers (filename) : ({ w with paths := addTo (cleanPath path) w.paths } : Watcher).isWatched d filename =
      (w.isWatched d filename || filename == cleanPath path) := by
    rw [isWatched,anyAddTo,missingNamesNothing tree missing,Bool.and_false,Bool.or_false,isWatched,Bool.beq_comm]
  refine ⟨{ w with paths := addTo (cleanPath path) w.paths },by rw [add,missing],rfl,rfl,answers,?_⟩
  constructor
  · intro same
    rw [← same,answers,beq_self_eq_true,Bool.or_true]
  · intro known filename
    rw [answers]
    by_cases here : filename = cleanPath path
    · rw [here,known,Bool.true_or]
    · rw [beq_eq_false_iff_ne.mpr here,Bool.or_false]

theorem missingFileWatched : (({} : Watcher).isWatched sampleDisk (ascii "x.css")) = false ∧
    (({} : Watcher).add sampleDisk (ascii "x.css")).1.isWatched sampleDisk (ascii "x.css") = true := by
  obtain ⟨after,added,_,_,answers,_⟩ := failedAddRemembered {} sampleDisk (ascii "x.css") .missing rfl rfl
  rw [added]
  exact ⟨rfl,(answers _).trans rfl⟩

end

end Watcher

end Cascade
