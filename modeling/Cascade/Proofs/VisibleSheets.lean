import Cascade.Command.Tasks
import Cascade.Proofs.FileTrees
import Cascade.Proofs.LowerCase
import Cascade.Proofs.Ways

/-! The stylesheets that a directory stands for: the files below it whose names end as those of stylesheets do, unless a
name on the way to them is hidden. -/
namespace Cascade
open List

section
variable {path name suffix : Bytes}

/- How the names of stylesheets end, in any case. The long s is another small form of the capital S. -/
def IsSheetSuffix (suffix : Bytes) : Prop :=
  ∃ c s t : Nat, c ∈ [99,67] ∧ s ∈ [115,83,0x17F] ∧ t ∈ [115,83,0x17F] ∧ suffix = encodeAll [46,c,s,t]

theorem foldsToDot {c} : foldLetter c = 46 ↔ c = 46 := by
  rw [foldLetter]
  grind

theorem foldsToC {c} : foldLetter c = 99 ↔ c ∈ [99,67] := by
  rw [foldLetter]
  grind

theorem foldsToS {c} : foldLetter c = 115 ↔ c ∈ [115,83,0x17F] := by
  rw [foldLetter]
  grind

theorem foldedSuffix : (scalars suffix).map foldLetter = scalars (ascii ".css") ↔ IsSheetSuffix suffix := by
  have small {c s t} (hc : c ∈ [99,67]) (hs : s ∈ [115,83,0x17F]) (ht : t ∈ [115,83,0x17F]) : ∀ x ∈ [46,c,s,t], x < 0x800 := by
    intro x mem
    simp only [mem_cons,not_mem_nil,or_false] at mem hc hs ht
    omega
  rw [show scalars (ascii ".css") = [46,99,115,115] from rfl]
  constructor
  · intro folded
    obtain ⟨d,_,read,first,folded⟩ := map_eq_cons_iff.mp folded
    obtain ⟨c,_,rfl,second,folded⟩ := map_eq_cons_iff.mp folded
    obtain ⟨s,_,rfl,third,folded⟩ := map_eq_cons_iff.mp folded
    obtain ⟨t,_,rfl,fourth,folded⟩ := map_eq_cons_iff.mp folded
    cases map_eq_nil_iff.mp folded
    rw [foldsToDot.mp first] at read
    have hc := foldsToC.mp second
    have hs := foldsToS.mp third
    have ht := foldsToS.mp fourth
    exact ⟨c,s,t,hc,hs,ht,read ▸ (encodedCharacters 0 _ (forall_mem_map.mp (read ▸ small hc hs ht))).symm⟩
  · rintro ⟨c,s,t,hc,hs,ht,rfl⟩
    rw [scalarsEncodeAll fun x mem => .inl (Nat.lt_trans (small hc hs ht x mem) (by decide))]
    simp only [map_cons,map_nil,foldsToC.mpr hc,foldsToS.mpr hs,foldsToS.mpr ht]
    rfl

theorem suffixLetters (is : IsSheetSuffix suffix) : ∃ letters, suffix = 46 :: letters ∧ 46 ∉ letters := by
  obtain ⟨c,s,t,hc,hs,ht,rfl⟩ := is
  have plain : ∀ x ∈ [99,67] ++ [115,83,0x17F], 46 ∉ encode x := by decide
  refine ⟨encodeAll [c,s,t],rfl,fun dotted => ?_⟩
  obtain ⟨x,mem,inside⟩ := mem_flatMap.mp dotted
  refine plain x ?_ inside
  simp only [mem_cons,not_mem_nil,or_false,mem_append] at mem hc hs ht ⊢
  omega

theorem undotted (free : 46 ∉ name) (rest : Bytes) : (name ++ rest).takeWhile (· != 46) = name ++ rest.takeWhile (· != 46) :=
  takeWhile_append_of_pos fun _ mem => bne_iff_ne.mpr fun same => free (same ▸ mem)

theorem extensionText {front} (whole : baseName path = front ++ 46 :: suffix) (free : 46 ∉ suffix) : extension path = 46 :: suffix := by
  have run : (front ++ 46 :: suffix).reverse.takeWhile (· != 46) = suffix.reverse := by
    rw [reverse_append,reverse_cons,append_assoc,undotted (by simpa using free)]
    exact append_nil _
  rw [extension,whole,run,reverse_reverse,if_neg (by simp; omega)]

theorem extensionEnd (free : 46 ∉ suffix) : extension path = 46 :: suffix ↔ 46 :: suffix <:+ baseName path := by
  constructor
  · intro found
    by_cases dotted : 46 ∈ baseName path
    · obtain ⟨back,front,split,last⟩ := eq_append_cons_of_mem (mem_reverse.mpr dotted)
      have whole : baseName path = front.reverse ++ 46 :: back.reverse := by
        rw [← reverse_reverse (baseName path),split,reverse_append,reverse_cons,append_assoc]
        rfl
      have same := (extensionText whole (by simpa using last)).symm.trans found
      exact ⟨front.reverse,whole ▸ same ▸ rfl⟩
    · have run := undotted (mt mem_reverse.mp dotted) []
      rw [append_nil,takeWhile_nil,append_nil] at run
      rw [extension,run,reverse_reverse,if_pos rfl] at found
      cases found
  · rintro ⟨front,whole⟩
    exact extensionText whole.symm free

theorem sheetByName : isStylesheet path = true ↔ ∃ suffix, IsSheetSuffix suffix ∧ suffix <:+ baseName path := by
  rw [isStylesheet,beq_iff_eq,foldedSuffix]
  constructor
  · intro is
    obtain ⟨letters,whole,free⟩ := suffixLetters is
    exact ⟨_,is,whole ▸ (extensionEnd free).mp whole⟩
  · rintro ⟨suffix,is,last⟩
    obtain ⟨letters,rfl,free⟩ := suffixLetters is
    rwa [(extensionEnd free).mpr last]

end

section
variable {e : Entry} {es : List (Bytes × Entry)} {path q : Bytes}

theorem visibleEach (path) (es : List (Bytes × Entry)) : Entry.visible path es =
    (es.filter fun p => !isHidden p.1).map fun p => (p.1,p.2.stylesheets (joinPaths path p.1)) := by
  induction es with
  | nil => rfl
  | cons p es ih =>
    rw [Entry.visible]
    cases hidden : isHidden p.1 with
    | true => rw [if_pos rfl,ih,filter_cons_of_neg (by simp [hidden])]
    | false => rw [if_neg Bool.false_ne_true,ih,filter_cons_of_pos (by simp [hidden]),map_cons]

theorem sheetsPerm (path es) : (Entry.directory es).stylesheets path ~
    (es.filter fun p => !isHidden p.1).flatMap fun p => p.2.stylesheets (joinPaths path p.1) := by
  rw [Entry.stylesheets,Entry.byName,visibleEach]
  refine ((mergeSort_perm _ _).flatMap_right _).trans ?_
  rw [flatMap_map]

theorem sheetsEach : q ∈ (Entry.directory es).stylesheets path ↔
    ∃ n f, (n,f) ∈ es ∧ isHidden n = false ∧ q ∈ f.stylesheets (joinPaths path n) := by
  rw [(sheetsPerm path es).mem_iff,mem_flatMap]
  simp only [mem_filter,Bool.not_eq_true',Prod.exists,and_assoc]

/- A file that is shown below a directory, with the names on the way to it. -/
structure Shown (e : Entry) (way : List Bytes) : Prop where
  named : Names way
  visible : ∀ n ∈ way, isHidden n = false
  file : ∃ content, e.follow [] way = .ok (.file content)

theorem shownHere : Shown e [] ↔ ∃ content, e = .file content := by
  constructor
  · rintro ⟨_,_,content,found⟩
    exact ⟨content,Except.ok.inj found⟩
  · rintro ⟨content,rfl⟩
    exact ⟨forall_mem_nil _,forall_mem_nil _,content,rfl⟩

theorem shownInside (distinct : (es.map Prod.fst).Nodup) (named : ∀ p ∈ es, isName p.1 = true) {n way} :
    Shown (.directory es) (n :: way) ↔ ∃ f, (n,f) ∈ es ∧ isHidden n = false ∧ Shown f way := by
  constructor
  · rintro ⟨names,visible,content,found⟩
    obtain ⟨f,inside,found⟩ := (Entry.followEntry distinct names).mp found
    exact ⟨f,inside,visible n mem_cons_self,(forall_mem_cons.mp names).2,(forall_mem_cons.mp visible).2,content,found⟩
  · rintro ⟨f,inside,shown,names,visible,content,found⟩
    have all : Names (n :: way) := forall_mem_cons.mpr ⟨named _ inside,names⟩
    exact ⟨all,forall_mem_cons.mpr ⟨shown,visible⟩,content,(Entry.followEntry distinct all).mpr ⟨f,inside,found⟩⟩

theorem shownOnly (other : e.isDirectory = false) {way} (shown : Shown e way) : way = [] := by
  obtain ⟨_,_,content,found⟩ := shown
  exact (Entry.followOther other found).1

theorem sheetsShown (proper : e.Proper) (path) : q ∈ e.stylesheets path ↔
    isStylesheet q = true ∧ ∃ way, Shown e way ∧ way.foldl joinPaths path = q := by
  induction proper generalizing path with
  | file content =>
    rw [Entry.stylesheets]
    constructor
    · intro mem
      split at mem
      · rename_i sheet
        cases mem_singleton.mp mem
        exact ⟨sheet,[],shownHere.mpr ⟨content,rfl⟩,rfl⟩
      · cases mem
    · rintro ⟨sheet,way,shown,rfl⟩
      cases shownOnly rfl shown
      rw [foldl_nil] at sheet ⊢
      rw [if_pos sheet]
      exact mem_cons_self
  | special =>
    refine iff_of_false not_mem_nil ?_
    rintro ⟨_,way,shown,_⟩
    cases shownOnly rfl shown
    obtain ⟨_,same⟩ := shownHere.mp shown
    cases same
  | directory es distinct named inner ih =>
    rw [sheetsEach]
    constructor
    · rintro ⟨n,f,inside,shown,deep⟩
      obtain ⟨sheet,way,below,reached⟩ := (ih _ inside _).mp deep
      exact ⟨sheet,n :: way,(shownInside distinct named).mpr ⟨f,inside,shown,below⟩,reached⟩
    · rintro ⟨sheet,way,shown,reached⟩
      cases way with
      | nil =>
        obtain ⟨_,same⟩ := shownHere.mp shown
        cases same
      | cons n way =>
        obtain ⟨f,inside,shown,below⟩ := (shownInside distinct named).mp shown
        exact ⟨n,f,inside,shown,(ih _ inside _).mpr ⟨sheet,way,below,reached⟩⟩

theorem baseInto (r : Route) {way n} (named : Names (way ++ [n])) : baseName (r.into (way ++ [n]) named).text = n := by
  rw [baseName,Route.fieldsText,Route.intoParts,← append_assoc,if_neg (by simp)]
  cases (r.into (way ++ [n]) named).absolute with
  | true =>
    rw [if_pos rfl,← cons_append]
    exact getLastD_concat
  | false => exact getLastD_concat

theorem hiddenIff {n} : isHidden n = false ↔ ¬ dot <+: n := by
  cases n with
  | nil => decide
  | cons b n =>
    rw [dot,cons_prefix_cons,isHidden,head?_cons,beq_eq_false_iff_ne]
    exact ⟨fun other same => other (congrArg some same.1.symm),fun other same => other ⟨(Option.some.inj same).symm, nil_prefix⟩⟩

theorem sheetsBelow (proper : (Entry.directory es).Proper) (r : Route) : q ∈ (Entry.directory es).stylesheets r.text ↔
    ∃ way n content, Names (way ++ [n]) ∧ (Entry.directory es).follow [] (way ++ [n]) = .ok (.file content) ∧
      (∀ p ∈ way ++ [n], ¬ dot <+: p) ∧ (∃ suffix, IsSheetSuffix suffix ∧ suffix <:+ n) ∧ (way ++ [n]).foldl joinPaths r.text = q := by
  simp only [sheetsShown proper,sheetByName,← hiddenIff]
  constructor
  · rintro ⟨sheet,way,⟨named,visible,content,found⟩,rfl⟩
    rcases eq_nil_or_concat way with rfl | ⟨way,n,rfl⟩
    · cases found
    · rw [concat_eq_append] at named visible found sheet ⊢
      rw [Route.joinNames named,baseInto r named] at sheet
      exact ⟨way,n,content,named,found,visible,sheet,rfl⟩
  · rintro ⟨way,n,content,named,found,visible,sheet,rfl⟩
    refine ⟨?_,way ++ [n],⟨named,visible,content,found⟩,rfl⟩
    rwa [Route.joinNames named,baseInto r named]

theorem sheetsNodup (proper : e.Proper) (r : Route) : (e.stylesheets r.text).Nodup := by
  induction proper generalizing r with
  | file content =>
    rw [Entry.stylesheets]
    split <;> simp
  | special => exact nodup_nil
  | directory es distinct named inner ih =>
    have below {p x} (mem : p ∈ es) (deep : x ∈ p.2.stylesheets (joinPaths r.text p.1)) :
        ∃ way names, x = (r.into (p.1 :: way) names).text := by
      obtain ⟨_,way,shown,reached⟩ := (sheetsShown (inner p mem) _).mp deep
      have all : Names (p.1 :: way) := forall_mem_cons.mpr ⟨named p mem,shown.named⟩
      exact ⟨way,all,reached.symm.trans (Route.joinNames all)⟩
    rw [(sheetsPerm r.text es).nodup_iff,Nodup,pairwise_flatMap]
    constructor
    · intro p mem
      have among := (mem_filter.mp mem).1
      rw [Route.joinName (named p among)]
      exact ih p among _
    · refine Pairwise.filter _ ((pairwise_map.mp distinct).imp_of_mem fun {p q} left right apart => ?_)
      rintro x here y there rfl
      obtain ⟨_,_,first⟩ := below left here
      obtain ⟨_,_,second⟩ := below right there
      have parts := congrArg Route.parts (Route.textInj.mp (first.symm.trans second))
      rw [Route.intoParts,Route.intoParts] at parts
      exact apart (cons.inj (append_cancel_left parts)).1

end

end Cascade
