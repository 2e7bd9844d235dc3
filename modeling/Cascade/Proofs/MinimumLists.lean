import Cascade.Browser.Minimums
import Cascade.Proofs.Joined

/-! Lists of browser minimums. An item is refused or sets one browser, whatever was set before it. -/
namespace Cascade
open List

def isVersionByte (b : UInt8) : Bool := isPartByte b || b == 46 || b == 43

theorem partsBytes {s parts} (read : versionParts s = some parts) : ∀ b ∈ s, isVersionByte b := by
  intro b mem
  rw [versionParts] at read
  split at read
  · rename_i good
    have ended : b ∈ (fields 46 s).flatMap (· ++ [46]) := by
      rw [fieldsEnded]
      exact mem_append_left _ mem
    obtain ⟨part,among,inside⟩ := mem_flatMap.mp ended
    rcases mem_append.mp inside with own | dot
    · have letters := all_eq_true.mp good part among
      rw [Bool.and_eq_true,all_eq_true] at letters
      rw [isVersionByte,letters.2 b own]
      rfl
    · rw [mem_singleton.mp dot]
      rfl
  · cases read

theorem dropTaken (p) (s : Bytes) : s.drop (s.takeWhile p).length = s.dropWhile p := by
  have whole := takeWhile_append_dropWhile (p := p) (l := s)
  conv => lhs; rhs; rw [← whole]
  exact drop_left

theorem tailBytes {s pre} (read : readTail s = some pre) : ∀ b ∈ s, isVersionByte b := by
  have plus := head?_dropWhile_not (· != 43) s
  rw [← takeWhile_append_dropWhile (p := (· != 43)) (l := s),forall_mem_append]
  rw [readTail,dropTaken] at read
  generalize s.takeWhile (· != 43) = front at *
  generalize s.dropWhile (· != 43) = build at *
  have built : ∀ b ∈ build, isVersionByte b := by
    cases build with
    | nil => exact forall_mem_nil _
    | cons c build =>
      have sign : c = 43 := by simpa using plus
      dsimp only at read
      cases kept : versionParts build with
      | none =>
        rw [kept] at read
        cases read
      | some parts =>
        rw [sign]
        exact forall_mem_cons.mpr ⟨rfl,partsBytes kept⟩
  refine ⟨?_,built⟩
  split at read
  · cases read
  · exact forall_mem_nil _
  · split at read
    · rename_i hyphen
      rw [eq_of_beq hyphen]
      exact forall_mem_cons.mpr ⟨rfl,partsBytes read⟩
    · cases read

theorem digitsWrite (s : Bytes) : ∀ b ∈ s.takeWhile isDigit, isVersionByte b := by
  intro b mem
  have digit := all_eq_true.mp all_takeWhile b mem
  rw [isVersionByte,isPartByte,digit]
  rfl

theorem numbersBytes (more s) : ∃ front, s = front ++ (readNumbers more s).2 ∧ ∀ b ∈ front, isVersionByte b := by
  have cut (s : Bytes) : s.takeWhile isDigit ++ s.drop (s.takeWhile isDigit).length = s :=
    prefix_iff_eq_append.mp ( takeWhile_prefix _)
  fun_induction readNumbers more s with
  | case1 s digits rest more d tail point _ numbers left read ih =>
    obtain ⟨front,whole,bytes⟩ := ih
    rw [read] at whole
    refine ⟨digits ++ 46 :: front,?_,forall_mem_append.mpr ⟨digitsWrite s,forall_mem_cons.mpr ⟨rfl,bytes⟩⟩⟩
    rw [append_assoc,cons_append,← whole,← point]
    exact (cut s).symm
  | case2 s => exact ⟨_,(cut s).symm,digitsWrite s⟩
  | case3 _ s => exact ⟨_,(cut s).symm,digitsWrite s⟩

theorem acceptedText {text v} (accepted : readVersion text = .ok v) : v.text = text ∧ ∀ b ∈ text, isVersionByte b := by
  rw [readVersion] at accepted
  obtain ⟨front,whole,numbers⟩ := numbersBytes 2 (if text.head? == some 118 then text.tail else text)
  generalize readNumbers 2 (if text.head? == some 118 then text.tail else text) = r at *
  dsimp only at accepted
  repeat' split at accepted
  all_goals cases accepted
  rename_i ending _ _ _ _
  have body := forall_mem_append.mpr ⟨numbers,tailBytes ending⟩
  rw [← whole] at body
  refine ⟨rfl,?_⟩
  split at body
  · rename_i mark
    obtain ⟨c,rest,rfl⟩ := exists_cons_of_ne_nil (l := text) (by rintro rfl; cases mark)
    rw [Option.some.inj (eq_of_beq mark)]
    exact forall_mem_cons.mpr ⟨rfl,body⟩
  · exact body

namespace Minimums

section
variable {s : Bytes} {xs ys : List Bytes} {m n : Minimums}

theorem itemsAppend (current a b : Bytes) : itemsFrom current (a ++ 44 :: b) = itemsFrom current a ++ itemsFrom [] b := by
  induction a generalizing current with
  | nil =>
    rw [nil_append,itemsFrom,itemsFrom,if_pos (show isItemGap 44 from rfl)]
    split <;> rfl
  | cons c a ih =>
    rw [cons_append,itemsFrom,itemsFrom]
    split
    · split <;> simp [ih]
    · exact ih _

theorem itemsFree (free : ∀ b ∈ s, isItemGap b = false) (current) :
    itemsFrom current s = if (current ++ s).isEmpty then [] else [current ++ s] := by
  induction s generalizing current with
  | nil => rw [itemsFrom,append_nil]
  | cons b s ih =>
    obtain ⟨here,others⟩ := forall_mem_cons.mp free
    rw [itemsFrom,here,if_neg Bool.false_ne_true,ih others,append_assoc,singleton_append]

theorem itemsJoined (each : ∀ x ∈ xs, x ≠ [] ∧ ∀ b ∈ x, isItemGap b = false) : itemsFrom [] ([44].intercalate xs) = xs := by
  induction xs with
  | nil => rfl
  | cons x xs ih =>
    obtain ⟨⟨full,free⟩,others⟩ := forall_mem_cons.mp each
    have single : itemsFrom [] x = [x] := by
      rw [itemsFree free,nil_append,if_neg (by simpa using full)]
    cases xs with
    | nil => rw [intercalate_singleton,single]
    | cons y ys => rw [intercalate_cons_cons,append_assoc,singleton_append,itemsAppend,single,ih others,singleton_append]

theorem itemSteps (item) : (∃ e, ∀ items m, setItems (item :: items) m = .error e) ∨
    ∃ b v, readVersion v.text = .ok v ∧ ∀ items m, setItems (item :: items) m = setItems items (m.set b v) := by
  cases parted : splitItem item with
  | error e => exact .inl ⟨e,fun items m => by rw [setItems,parted]⟩
  | ok pair =>
    obtain ⟨name,version⟩ := pair
    cases known : Browser.ofName? name with
    | none => exact .inl ⟨.unknown name,fun items m => by simp [setItems,parted,setNamed,known]⟩
    | some b =>
      cases read : readVersion version with
      | error fault => exact .inl ⟨.version b fault,fun items m => by simp [setItems,parted,setNamed,known,read]⟩
      | ok v => exact .inr ⟨b,v,by rw [(acceptedText read).1,read],fun items m => by simp [setItems,parted,setNamed,known,read]⟩

theorem setItemsAppend (m) : setItems (xs ++ ys) m = (setItems xs m).bind (setItems ys) := by
  induction xs generalizing m with
  | nil => rfl
  | cons x xs ih =>
    rw [cons_append]
    rcases itemSteps x with ⟨e,refused⟩ | ⟨b,v,_,sets⟩
    · rw [refused,refused]
      rfl
    · rw [sets,sets,ih]

theorem overrideAssoc (a b c : Minimums) : (a.override b).override c = a.override (b.override c) :=
  getExt fun b => by simp [getOverride,Option.or_assoc]

theorem setOverride (m n : Minimums) (b v) :
    (m.set b v).override n = m.override ((({} : Minimums).set b v).override n) := by
  refine getExt fun c => ?_
  have unset : ({} : Minimums).get c = none := by cases c <;> rfl
  by_cases same : c = b <;> simp [getOverride,same,unset]

theorem setItemsFrom (m) : setItems xs m = (setItems xs {}).map m.override := by
  induction xs generalizing m with
  | nil => rfl
  | cons x xs ih =>
    rcases itemSteps x with ⟨e,refused⟩ | ⟨b,v,_,sets⟩
    · rw [refused,refused]
      rfl
    rw [sets,sets,ih,ih (({} : Minimums).set b v)]
    cases setItems xs {} with
    | error e => rfl
    | ok n => exact congrArg _ (setOverride m n b v)

theorem readAppend (a b : Bytes) : read (a ++ 44 :: b) = (read a).bind fun m => (read b).map m.override := by
  rw [read,itemsAppend,setItemsAppend]
  exact congrArg _ (funext fun m => setItemsFrom m)

theorem readJoined (x : Bytes) (xs : List Bytes) :
    read ([44].intercalate (x :: xs)) = (read x).bind fun m => (read ([44].intercalate xs)).map m.override := by
  cases xs with
  | nil =>
    rw [intercalate_singleton]
    cases read x <;> rfl
  | cons y ys => rw [intercalate_cons_cons,append_assoc,singleton_append,readAppend]

theorem mergeJoined (m : Minimums) :
    m.merge xs = (n,none) ↔ ∃ x, read ([44].intercalate xs) = .ok x ∧ n = m.override x := by
  induction xs generalizing m with
  | nil =>
    constructor
    · intro same
      exact ⟨{},rfl,(congrArg Prod.fst same).symm⟩
    · rintro ⟨x,⟨⟩,rfl⟩
      rfl
  | cons x xs ih =>
    rw [merge,readJoined]
    cases read x with
    | error e => simp [Except.bind]
    | ok a =>
      refine (ih _).trans ?_
      cases read ([44].intercalate xs) <;> simp [Except.bind,Except.map,overrideAssoc]

end

section
variable {m n : Minimums}

def Accepted (m : Minimums) : Prop := ∀ b v, m.get b = some v → readVersion v.text = .ok v

theorem setItemsAccepted {xs} (accepted : m.Accepted) (done : setItems xs m = .ok n) : n.Accepted := by
  induction xs generalizing m with
  | nil =>
    cases done
    exact accepted
  | cons x xs ih =>
    rcases itemSteps x with ⟨e,refused⟩ | ⟨b,v,again,sets⟩
    · rw [refused] at done
      cases done
    rw [sets] at done
    refine ih (fun c w here => ?_) done
    rw [getSet] at here
    split at here
    · cases here
      exact again
    · exact accepted c w here

theorem nameFree (b : Browser) : ∀ c ∈ b.name, isItemGap c = false ∧ (c != 58 && c != 61) := by
  cases b <;> decide +kernel

theorem nameRead (b) : Browser.ofName? b.name = some b := by
  cases b <;> decide

theorem versionByteFree {b} (inside : isVersionByte b) : isItemGap b = false := by
  cases gap : isItemGap b with
  | false => rfl
  | true =>
    simp only [isItemGap,Bool.or_eq_true,beq_iff_eq] at gap
    rcases gap with ((rfl | rfl) | rfl) | rfl <;> cases inside

theorem itemSets {b v} (accepted : readVersion v.text = .ok v) (items m) :
    setItems ((b.name ++ 58 :: v.text) :: items) m = setItems items (m.set b v) := by
  have parted : splitItem (b.name ++ 58 :: v.text) = .ok (b.name,v.text) := by
    have front : (b.name ++ 58 :: v.text).takeWhile (fun c => c != 58 && c != 61) = b.name := by
      rw [takeWhile_append_of_pos fun c mem => (nameFree b c mem).2]
      exact append_nil _
    simp [splitItem,front]
  simp [setItems,parted,setNamed,nameRead,accepted]

theorem textItems (accepted : m.Accepted) (bs : List Browser) (n) :
    setItems (bs.filterMap fun b => (m.get b).map fun v => b.name ++ 58 :: v.text) n =
      .ok (bs.foldl (fun n b => ((m.get b).map (n.set b)).getD n) n) := by
  induction bs generalizing n with
  | nil => rfl
  | cons b bs ih =>
    rw [filterMap_cons,foldl_cons]
    cases got : m.get b with
    | none => exact ih n
    | some v => exact (itemSets (accepted b v got) _ n).trans (ih _)

theorem readText (accepted : m.Accepted) : read m.text = .ok m := by
  rw [read,text,itemsJoined,textItems accepted]
  · obtain ⟨c,f,i,o⟩ := m
    cases c <;> cases f <;> cases i <;> cases o <;> rfl
  · intro x mem
    obtain ⟨b,-,made⟩ := mem_filterMap.mp mem
    obtain ⟨v,got,rfl⟩ := Option.map_eq_some_iff.mp made
    refine ⟨by simp,forall_mem_append.mpr ⟨fun c mem => (nameFree b c mem).1,forall_mem_cons.mpr ⟨rfl,fun c mem => ?_⟩⟩⟩
    exact versionByteFree ((acceptedText (accepted b v got)).2 c mem)

theorem listsCompose (a b : Bytes) (items : List Bytes) (m n : Minimums) :
    (read (a ++ 44 :: b) = .ok n ↔ ∃ x y, read a = .ok x ∧ read b = .ok y ∧ n = x.override y) ∧
      (m.merge items = (n,none) ↔ ∃ x, read ([44].intercalate items) = .ok x ∧ n = m.override x) ∧
      ((read a).bind fun x => read x.text) = read a := by
  refine ⟨?_,mergeJoined m,?_⟩
  · rw [readAppend]
    cases read a <;> cases read b <;> simp [Except.bind,Except.map,eq_comm]
  · cases given : read a with
    | error e => rfl
    | ok x => exact readText (setItemsAccepted (fun b v set => by cases b <;> cases set) given)

example : ((read (ascii "ie9 fx=20,ie:v10-a")).map text).toOption = some (ascii "firefox:20,ie:v10-a") := by decide +kernel

end

end Minimums

end Cascade
