import Cascade.Proofs.VisibleSheets

/-! The tasks that inputs ask for. Each source is reached from its input by names, and an input lies at or right below
its root unless its last part is a parent. -/
namespace Cascade
open List Route

section
variable {input : Bytes}

def rootRoute (input : Bytes) : Route := .ofPath (input.take (input.length - (baseName input).length))

theorem rootText (input) : inputRoot input = (rootRoute input).text := cleanAgain (rootRoute input)

theorem fieldsSlashed {fs : List Bytes} (free : ∀ f ∈ fs, 47 ∉ f) : fields 47 (fs.flatMap (· ++ [47])) = fs ++ [[]] := by
  induction fs with
  | nil => rfl
  | cons f fs ih =>
    obtain ⟨here,others⟩ := forall_mem_cons.mp free
    rw [flatMap_cons,append_assoc,singleton_append,fieldsAppend here,ih others,cons_append]

/- An input is a text of parts each with its slash, and its last part. -/
theorem inputParts (input) : ∃ front, fields 47 input = front ++ [baseName input] ∧
    input = front.flatMap (· ++ [47]) ++ baseName input := by
  obtain ⟨front,last,split⟩ := (eq_nil_or_concat (fields 47 input)).resolve_left (fieldsNotEmpty 47 input)
  have base : baseName input = last := by rw [baseName,split]; simp
  rw [concat_eq_append] at split
  have ended := fieldsEnded 47 input
  rw [split,flatMap_append,flatMap_singleton,← append_assoc] at ended
  exact ⟨front,base ▸ split,base ▸ (append_cancel_right ended).symm⟩

theorem baseFree (input) : 47 ∉ baseName input := by
  obtain ⟨front,split,_⟩ := inputParts input
  exact fieldsFreeOf input _ (by simp [split])

theorem inputStep (input) : (rootRoute input).absolute = isAbsolute input ∧
    (ofPath input).gone = pushPart (isAbsolute input) (rootRoute input).gone (baseName input) := by
  obtain ⟨front,split,whole⟩ := inputParts input
  have free : ∀ f ∈ front, 47 ∉ f := fun f mem => fieldsFreeOf input f (by simp [split,mem])
  have above : input.take (input.length - (baseName input).length) = front.flatMap (· ++ [47]) := by
    have length := congrArg List.length whole
    rw [length_append] at length
    rw [show input.length - (baseName input).length = (front.flatMap (· ++ [47])).length by omega]
    exact (congrArg (take _) whole).trans take_left
  have sides : isAbsolute (front.flatMap (· ++ [47])) = isAbsolute input := by
    cases front with
    | nil =>
      refine (Bool.eq_false_iff.mpr fun absolute => baseFree input ?_).symm
      rw [show baseName input = input from whole.symm]
      exact mem_of_mem_head? (eq_of_beq absolute)
    | cons f front =>
      rw [whole]
      cases f <;> rfl
  have gone : (rootRoute input).gone = front.foldl (pushPart (isAbsolute input)) [] := by
    rw [rootRoute,above]
    show (fields 47 (front.flatMap (· ++ [47]))).foldl (pushPart (isAbsolute (front.flatMap (· ++ [47])))) [] = _
    rw [sides,fieldsSlashed free,foldl_append]
    rfl
  refine ⟨(congrArg isAbsolute above).trans sides,?_⟩
  rw [gone]
  show (fields 47 input).foldl (pushPart (isAbsolute input)) [] = _
  rw [split,foldl_append]
  rfl

theorem inputBelow (last : baseName input ≠ dotDot) : ∃ way named, ofPath input = (rootRoute input).into way named := by
  obtain ⟨sides,step⟩ := inputStep input
  by_cases stays : ((baseName input).isEmpty || baseName input == dot)
  · rw [pushPart.eq_def,if_pos stays] at step
    exact ⟨[],forall_mem_nil _,Route.ext sides.symm step⟩
  rw [pushOn stays last] at step
  have name : isName (baseName input) = true := by
    simp only [Bool.or_eq_true,List.isEmpty_iff,beq_iff_eq,not_or] at stays
    exact isNameIff.mpr ⟨stays.1,stays.2,last,baseFree input⟩
  exact ⟨[baseName input],forall_mem_singleton.mpr name,Route.ext sides.symm step⟩

/- Whatever lies below an input, there is a way to it from the root. -/
theorem rootReaches {way} (named : Names way) :
    ∃ w, relativePath (inputRoot input) ((ofPath input).into way named).text = some w := by
  rw [rootText]
  by_cases last : baseName input = dotDot
  case neg =>
    obtain ⟨mid,mids,below⟩ := inputBelow last
    rw [below,intoInto]
    exact ⟨_,relativeInto _⟩
  obtain ⟨sides,step⟩ := inputStep input
  refine relativeSome sides fun c shared => ?_
  rw [intoParts]
  refine IsPrefix.trans ?_ (prefix_append _ _)
  rw [last] at step
  rw [Route.parts] at shared ⊢
  cases above : (rootRoute input).gone with
  | nil =>
    rw [above] at shared
    exact absurd (prefix_nil.mp shared) (by simp)
  | cons part gone =>
    rw [above,reverse_cons] at shared
    rw [step,above]
    by_cases up : part = dotDot
    · subst up
      rw [show pushPart _ (dotDot :: gone) dotDot = dotDot :: dotDot :: gone from rfl,reverse_cons,reverse_cons]
      exact shared.trans (prefix_append _ _)
    · rw [pushUpPast up]
      refine (prefix_concat_iff.mp shared).resolve_left fun same => up ?_
      exact (append_inj' same rfl).2 |> cons.inj |>.1.symm

end

section
variable {files : FileSystem} {inputs sources : List Bytes} {input output root source path : Bytes} {t : Task} {tasks : List Task}
  {roots : List Bytes} {e : Entry}

theorem allMade {α β ε : Type} {f : α → Except ε β} {xs : List α} {ys : List β} : xs.mapM f = .ok ys ↔ xs.map f = ys.map .ok := by
  induction xs generalizing ys with
  | nil =>
    rw [mapM_nil,map_nil,eq_comm (a := []),map_eq_nil_iff]
    exact ⟨fun same => (Except.ok.inj same).symm,fun same => same ▸ rfl⟩
  | cons x xs ih =>
    rw [mapM_cons,map_cons,eq_comm (b := ys.map _),map_eq_cons_iff]
    constructor
    · intro made
      cases here : f x with
      | error e =>
        rw [here] at made
        cases made
      | ok y =>
        cases rest : xs.mapM f with
        | error e =>
          rw [here,rest] at made
          cases made
        | ok ys =>
          rw [here,rest] at made
          cases made
          exact ⟨y,ys,rfl,rfl,(ih.mp rest).symm⟩
    · rintro ⟨y,ys,rfl,here,rest⟩
      rw [← here,ih.mpr rest.symm]
      rfl

theorem allThere {α β ε : Type} {f : α → Except ε β} {xs : List α} (each : ∀ x ∈ xs, ∃ y, f x = .ok y) : ∃ ys, xs.mapM f = .ok ys := by
  induction xs with
  | nil => exact ⟨[],rfl⟩
  | cons x xs ih =>
    obtain ⟨⟨y,here⟩,others⟩ := forall_mem_cons.mp each
    obtain ⟨ys,rest⟩ := ih others
    refine ⟨y :: ys,?_⟩
    rw [mapM_cons,here,rest]
    rfl

theorem madeMem {α β ε : Type} {f : α → Except ε β} {xs : List α} {ys : List β} {y} (made : xs.map f = ys.map .ok) :
    y ∈ ys ↔ ∃ x ∈ xs, f x = .ok y := by
  have among : y ∈ ys ↔ Except.ok y ∈ ys.map (.ok (ε := ε)) := by simp
  rw [among,← made,mem_map]

theorem taskMade (made : newTask root source output = .ok t) : t.root = root ∧ t.source = source ∧
    (isOutputDirectory output = true → ∃ way, relativePath root source = some way ∧ t.destination = joinPaths output way) := by
  rw [newTask] at made
  split at made
  · split at made
    · rename_i way found
      cases made
      exact ⟨rfl,rfl,fun _ => ⟨way,found,rfl⟩⟩
    · cases made
  · rename_i other
    cases made
    exact ⟨rfl,rfl,fun directory => absurd directory other⟩

theorem taskThere {way} (found : relativePath root source = some way) : ∃ t, newTask root source output = .ok t := by
  rw [newTask]
  split
  · exact ⟨_,by rw [found]⟩
  · exact ⟨_,rfl⟩

/- A source lies at or below its input. -/
theorem sourceBelow (proper : e.Proper) (r : Route) (listed : sourcesOf r.text e = .ok sources) (mem : source ∈ sources) :
    ∃ way named, source = (r.into way named).text := by
  cases e with
  | file content =>
    cases listed
    exact ⟨[],forall_mem_nil _,mem_singleton.mp mem⟩
  | special => cases listed
  | directory es =>
    cases listed
    obtain ⟨_,way,shown,reached⟩ := (sheetsShown proper _).mp mem
    exact ⟨way,shown.named,reached.symm.trans (joinNames shown.named)⟩

def FileSystem.Proper (files : FileSystem) : Prop := ∀ path e, files.find path = .ok e → e.Proper

theorem inputMade (made : inputTasks files output input = .ok tasks) : ∃ e sources, files.find (cleanPath input) = .ok e ∧
    sourcesOf (cleanPath input) e = .ok sources ∧ sources.map (newTask (inputRoot input) · output) = tasks.map .ok := by
  rw [inputTasks] at made
  split at made
  · cases made
  rename_i e found
  split at made
  · cases made
  · rename_i sources listed
    exact ⟨e,sources,found,listed,allMade.mp made⟩

theorem inputThere (found : files.find (cleanPath input) = .ok e) (proper : e.Proper)
    (listed : sourcesOf (cleanPath input) e = .ok sources) : ∃ tasks, inputTasks files output input = .ok tasks := by
  rw [inputTasks,found]
  dsimp only
  rw [listed]
  refine allThere fun source mem => ?_
  obtain ⟨way,named,rfl⟩ := sourceBelow proper (.ofPath input) listed mem
  obtain ⟨w,there⟩ := @rootReaches input way named
  exact taskThere there

theorem sourcesMade (made : sources.map (newTask root · output) = tasks.map .ok) : tasks.map Task.source = sources := by
  induction sources generalizing tasks with
  | nil => rw [map_eq_nil_iff.mp made.symm,map_nil]
  | cons source sources ih =>
    obtain ⟨t,tasks,rfl,here,rest⟩ := map_eq_cons_iff.mp made.symm
    rw [map_cons,(taskMade here.symm).2.1,ih rest.symm]

theorem taskComes (proper : files.Proper) (made : inputTasks files output input = .ok tasks) (mem : t ∈ tasks) :
    t.root = inputRoot input ∧ (∃ way named, t.source = ((ofPath input).into way named).text) ∧
    (isOutputDirectory output = true → ∃ way, relativePath t.root t.source = some way ∧ t.destination = joinPaths output way) := by
  obtain ⟨e,sources,found,listed,each⟩ := inputMade made
  obtain ⟨source,among,is⟩ := (madeMem each).mp mem
  obtain ⟨root,rfl,goes⟩ := taskMade is
  exact ⟨root,sourceBelow (proper _ e found) (.ofPath input) listed among,root ▸ goes⟩

theorem listMade (made : createTasks files inputs output = .ok (tasks,roots)) :
    t ∈ tasks ↔ ∃ input ∈ inputs, ∃ ts, inputTasks files output input = .ok ts ∧ t ∈ ts := by
  rw [createTasks] at made
  split at made
  · cases made
  rename_i lists each
  cases made
  rw [sortTasks,mem_mergeSort,mem_flatten]
  simp only [madeMem (allMade.mp each)]
  constructor
  · rintro ⟨ts,⟨input,among,is⟩,mem⟩
    exact ⟨input,among,ts,is,mem⟩
  · rintro ⟨input,among,ts,is,mem⟩
    exact ⟨ts,⟨input,among,is⟩,mem⟩

theorem listThere (made : inputTasks files output input = .ok tasks) :
    createTasks files [input] output = .ok (sortTasks tasks,[inputRoot input]) := by
  rw [createTasks,mapM_cons,made]
  exact congrArg (fun ts => Except.ok (sortTasks ts,[inputRoot input])) (append_nil tasks)

end

theorem directorySheets (files : FileSystem) (input output : Bytes) (es : List (Bytes × Entry))
    (found : files.find (cleanPath input) = .ok (.directory es)) (proper : (Entry.directory es).Proper) :
    ∃ tasks roots, createTasks files [input] output = .ok (tasks,roots) ∧ (tasks.map Task.source).Nodup ∧
      ∀ q, q ∈ tasks.map Task.source ↔ ∃ way n content, Names (way ++ [n]) ∧
        (Entry.directory es).follow [] (way ++ [n]) = .ok (.file content) ∧ (∀ p ∈ way ++ [n], ¬ dot <+: p) ∧
        (∃ suffix, IsSheetSuffix suffix ∧ suffix <:+ n) ∧ (way ++ [n]).foldl joinPaths (cleanPath input) = q := by
  obtain ⟨tasks,made⟩ : ∃ tasks, inputTasks files output input = .ok tasks := inputThere found proper rfl
  obtain ⟨e,sources,there,listed,each⟩ := inputMade made
  cases found.symm.trans there
  cases listed
  have same : (sortTasks tasks).map Task.source ~ (Entry.directory es).stylesheets (cleanPath input) :=
    sourcesMade each ▸ (mergeSort_perm _ _).map _
  refine ⟨sortTasks tasks,[inputRoot input],listThere made,same.nodup_iff.mpr (sheetsNodup proper (.ofPath input)),fun q => ?_⟩
  rw [same.mem_iff]
  exact sheetsBelow proper (.ofPath input)

theorem nestedSheetListed : ∃ tasks roots, createTasks (.closed sampleDisk.root) [dot] [] = .ok (tasks,roots) ∧
    ascii "b/c.CSS" ∈ tasks.map Task.source := by
  obtain ⟨tasks,roots,made,_,each⟩ := directorySheets (.closed sampleDisk.root) dot [] _ rfl sampleProper
  refine ⟨tasks,roots,made,(each _).mpr ⟨[ascii "b"],ascii "c.CSS",[],by decide,rfl,by decide,?_,rfl⟩⟩
  exact ⟨ascii ".CSS",⟨67,83,83,by decide,by decide,by decide,rfl⟩,⟨[99],rfl⟩⟩

section
variable {files : FileSystem} {out : List Bytes} {input output : Bytes} {t : Task} {tasks : List Task}

theorem outputRoute (named : Names out) (given : output = joinParts false out ++ [47] ∨ out = [] ∧ output = dot) :
    output ≠ [] ∧ isOutputDirectory output = true ∧ ofPath output = Route.start.into out named := by
  rcases given with rfl | ⟨rfl,rfl⟩
  · refine ⟨by simp,Bool.or_eq_true_iff.mpr (.inr (by simp [endsInSlash])),?_⟩
    rw [← startInto named,slashed]
  · exact ⟨by decide,rfl,rfl⟩

theorem joinedWithin {way} (named : Names out) (given : output = joinParts false out ++ [47] ∨ out = [] ∧ output = dot)
    (relative : isAbsolute way = false) :
    isWithin output (joinPaths output way) = true ↔ ComesBack out (cleanParts false (fields 47 way)) := by
  obtain ⟨full,_,route⟩ := outputRoute named given
  rw [isWithin,relativeClean,← isWithin,joinAlong full relative,ofText,route,alongWithin,
    relativeParts relative]

theorem destinationsInside (files : FileSystem) (proper : files.Proper) (inputs out : List Bytes) (named : Names out) (output : Bytes)
    (given : output = joinParts false out ++ [47] ∨ out = [] ∧ output = dot) (tasks : List Task) (roots : List Bytes)
    (made : createTasks files inputs output = .ok (tasks,roots)) (t : Task) (mem : t ∈ tasks) :
    ∃ input ∈ inputs, ∃ ts way, inputTasks files output input = .ok ts ∧ t ∈ ts ∧ relativePath (inputRoot input) t.source = some way ∧
      t.destination = joinPaths output way ∧ (isWithin output t.destination = true ↔ ComesBack out (cleanParts false (fields 47 way))) ∧
      (baseName input ≠ dotDot → isWithin output t.destination = true) := by
  obtain ⟨input,among,ts,is,here⟩ := (listMade made).mp mem
  obtain ⟨_,directory,route⟩ := outputRoute named given
  obtain ⟨root,⟨names,others,source⟩,goes⟩ := taskComes proper is here
  obtain ⟨way,found,destination⟩ := goes directory
  rw [root] at found
  have relative : isAbsolute way = false := by
    rw [rootText,source] at found
    exact relativeStays found
  have inside := destination ▸ joinedWithin named given relative
  refine ⟨input,among,ts,way,is,here,found,destination,inside,fun last => inside.mpr ?_⟩
  obtain ⟨mid,mids,below⟩ := inputBelow last
  rw [source,below,intoInto mids others,rootText,relativeInto] at found
  cases found
  have all : Names (mid ++ names) := forall_mem_append.mpr ⟨mids,others⟩
  rw [cleanedNames all]
  exact ⟨_,[],_,(append_nil _).symm,rfl,namesBelow all⟩

/- The file system of a tree that is no disk. -/
theorem closedProper {root : Entry} (proper : root.Proper) : (FileSystem.closed root).Proper := by
  intro path e found
  simp only [FileSystem.closed] at found
  split at found
  · cases inside : root.follow [] (fields 47 path) with
    | error fault =>
      rw [inside] at found
      cases found
    | ok f =>
      rw [inside] at found
      cases found
      exact Entry.followProper proper (forall_mem_nil _) inside
  · cases found

theorem sampleListed : ascii "a.css" ∈ sampleDisk.root.stylesheets (cleanPath (ascii "b/..")) := by
  refine (sheetsBelow sampleProper (.ofPath (ascii "b/.."))).mpr ⟨[],ascii "a.css",[],by decide,rfl,by decide,?_,rfl⟩
  exact ⟨ascii ".css",⟨99,115,115,by decide,by decide,by decide,rfl⟩,⟨[97],rfl⟩⟩

theorem climbingInputEscapes : ∃ tasks roots,
    createTasks (.closed sampleDisk.root) [ascii "b/.."] (ascii "out/") = .ok (tasks,roots) ∧
    ∃ t ∈ tasks, t.source = ascii "a.css" ∧ t.destination = ascii "a.css" ∧ isWithin (ascii "out/") t.destination = false := by
  obtain ⟨tasks,made⟩ : ∃ tasks, inputTasks (.closed sampleDisk.root) (ascii "out/") (ascii "b/..") = .ok tasks :=
    inputThere rfl sampleProper rfl
  obtain ⟨e,sources,found,listed,each⟩ := inputMade made
  cases found
  cases listed
  obtain ⟨t,mem,source⟩ := mem_map.mp (sourcesMade each ▸ sampleListed)
  have among : t ∈ sortTasks tasks := mem_mergeSort.mpr mem
  obtain ⟨input,only,_,way,_,_,found,destination,_⟩ := destinationsInside (.closed sampleDisk.root) (closedProper sampleProper)
    [ascii "b/.."] [ascii "out"] (by decide) (ascii "out/") (.inl rfl) (sortTasks tasks) _ (listThere made) t among
  cases mem_singleton.mp only
  rw [source] at found
  cases found
  exact ⟨sortTasks tasks,_,listThere made,t,among,source,destination,destination ▸ rfl⟩

theorem taskInto (proper : files.Proper) (directory : isOutputDirectory output = true) (made : inputTasks files output input = .ok tasks)
    (mem : t ∈ tasks) (within : isWithin t.root t.source = true) : ∃ r way named, t.root = text r ∧
    t.source = (r.into way named).text ∧ t.destination = ((ofPath output).into way named).text := by
  obtain ⟨root,⟨_,_,source⟩,goes⟩ := taskComes proper made mem
  obtain ⟨w,found,destination⟩ := goes directory
  rw [rootText] at root
  rw [root,source,withinIff] at within
  obtain ⟨way,named,into⟩ := within
  rw [into] at source
  rw [root,source,relativeInto named] at found
  cases found
  have full : output ≠ [] := by
    rintro rfl
    cases directory
  exact ⟨rootRoute input,way,named,root,source,destination.trans (joinInto full named)⟩

theorem destinationsApart (files : FileSystem) (proper : files.Proper) (inputs : List Bytes) (output : Bytes)
    (directory : isOutputDirectory output = true) (tasks : List Task) (roots : List Bytes)
    (made : createTasks files inputs output = .ok (tasks,roots)) :
    (∀ t ∈ tasks, ∃ input ∈ inputs, t.root = inputRoot input ∧ (baseName input ≠ dotDot → isWithin t.root t.source = true)) ∧
    ∀ t ∈ tasks, ∀ u ∈ tasks, isWithin t.root t.source = true → isWithin u.root u.source = true → t.source ≠ u.source →
      (t.destination = u.destination ↔ relativePath t.root t.source = relativePath u.root u.source) ∧
      (t.root = u.root → t.destination ≠ u.destination) := by
  constructor
  · intro t mem
    obtain ⟨input,among,ts,is,here⟩ := (listMade made).mp mem
    obtain ⟨root,⟨way,named,source⟩,_⟩ := taskComes proper is here
    refine ⟨input,among,root,fun last => ?_⟩
    obtain ⟨mid,mids,below⟩ := inputBelow last
    rw [root,rootText,source,below,intoInto,withinIff]
    exact ⟨_,_,rfl⟩
  · intro t tMem u uMem tIn uIn other
    obtain ⟨input,_,ts,tIs,tHere⟩ := (listMade made).mp tMem
    obtain ⟨input',_,us,uIs,uHere⟩ := (listMade made).mp uMem
    obtain ⟨r,way,named,tRoot,tSource,tGoes⟩ := taskInto proper directory tIs tHere tIn
    obtain ⟨s,way',named',uRoot,uSource,uGoes⟩ := taskInto proper directory uIs uHere uIn
    rw [tRoot,uRoot,tGoes,uGoes]
    constructor
    · rw [intoInj,tSource,uSource,relativeInto,relativeInto,Option.some.injEq,joinedInj named named']
    · intro root same
      cases Route.textInj.mp root
      cases (intoInj named named').mp same
      exact other (tSource.trans uSource.symm)

theorem sameRootApart : ∃ tasks roots,
    createTasks (.closed sampleDisk.root) [ascii "b/a.css",ascii "b/c.CSS"] (ascii "out/") = .ok (tasks,roots) ∧
    ∃ t ∈ tasks, ∃ u ∈ tasks, t.root = u.root ∧ t.source ≠ u.source ∧ t.destination ≠ u.destination := by
  have made : createTasks (.closed sampleDisk.root) [ascii "b/a.css",ascii "b/c.CSS"] (ascii "out/") =
      .ok (sortTasks [⟨ascii "b",ascii "b/a.css",ascii "out/a.css"⟩,⟨ascii "b",ascii "b/c.CSS",ascii "out/c.CSS"⟩],
        [ascii "b",ascii "b"]) := rfl
  have apart := (destinationsApart _ (closedProper sampleProper) _ _ rfl _ _ made).2 _ (mem_mergeSort.mpr mem_cons_self) _
    (mem_mergeSort.mpr (mem_cons_of_mem _ mem_cons_self)) rfl rfl (by decide)
  exact ⟨_,_,made,_,mem_mergeSort.mpr mem_cons_self,_,mem_mergeSort.mpr (mem_cons_of_mem _ mem_cons_self),rfl,by decide,apart.2 rfl⟩

theorem sameNameCollides : ∃ tasks roots,
    createTasks (.closed sampleDisk.root) [ascii "a.css",ascii "b/a.css"] (ascii "out/") = .ok (tasks,roots) ∧
    ∃ t ∈ tasks, ∃ u ∈ tasks, t.source ≠ u.source ∧ t.destination = u.destination := by
  refine ⟨sortTasks [⟨dot,ascii "a.css",ascii "out/a.css"⟩,⟨ascii "b",ascii "b/a.css",ascii "out/a.css"⟩],[dot,ascii "b"],rfl,?_⟩
  exact ⟨_,mem_mergeSort.mpr mem_cons_self,_,mem_mergeSort.mpr (mem_cons_of_mem _ mem_cons_self),by decide,rfl⟩

end

end Cascade
