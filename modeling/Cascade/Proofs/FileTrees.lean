import Cascade.Files.Tree
import Cascade.Proofs.Routes

/-! Trees of files whose directories call their entries by distinct names. In them a way of names from a directory leads
to what the path made of them is found to be. -/
namespace Cascade
open List

namespace Entry

inductive Proper : Entry → Prop where
  | file (content) : Proper (.file content)
  | directory (es) (distinct : (es.map Prod.fst).Nodup) (named : ∀ p ∈ es, isName p.1 = true)
      (inner : ∀ p ∈ es, Proper p.2) : Proper (.directory es)
  | special : Proper .special

variable {e here : Entry} {above : List Entry} {n : Bytes} {way : List Bytes} {es : List (Bytes × Entry)}

theorem lookupMem (found : es.lookup n = some e) : (n,e) ∈ es := by
  obtain ⟨before,after,rfl,_⟩ := lookup_eq_some_iff.mp found
  simp

theorem memLookup (distinct : (es.map Prod.fst).Nodup) (mem : (n,e) ∈ es) : es.lookup n = some e := by
  obtain ⟨before,after,rfl⟩ := append_of_mem mem
  refine lookup_eq_some_iff.mpr ⟨before,after,rfl,fun p there => ?_⟩
  rw [map_append,nodup_append] at distinct
  exact bne_iff_ne.mpr fun same => distinct.2.2 p.1 (mem_map_of_mem there) n (by simp) same.symm

theorem followPart (part parts) : (Entry.directory es).follow above (part :: parts) =
    if part.isEmpty || part == dot then (Entry.directory es).follow above parts
    else if part == dotDot then (above.headD (.directory es)).follow above.tail parts
    else match es.lookup part with
      | none => .error .missing
      | some e => e.follow (.directory es :: above) parts := by
  cases above <;> rfl

theorem followBelow (named : Names way) (above) : here.follow above way = here.follow [] way := by
  induction way generalizing here above with
  | nil => rfl
  | cons n way ih =>
    obtain ⟨name,others⟩ := forall_mem_cons.mp named
    obtain ⟨full,other,below,_⟩ := isNameIff.mp name
    cases here with
    | file content => rfl
    | special => rfl
    | directory es =>
      simp only [followPart]
      simp [full,other,below]
      cases es.lookup n with
      | none => rfl
      | some e => exact (ih others _).trans (ih others _).symm

theorem followEntry (distinct : (es.map Prod.fst).Nodup) (named : Names (n :: way)) :
    (Entry.directory es).follow [] (n :: way) = .ok e ↔ ∃ f, (n,f) ∈ es ∧ f.follow [] way = .ok e := by
  obtain ⟨name,others⟩ := forall_mem_cons.mp named
  obtain ⟨full,other,below,_⟩ := isNameIff.mp name
  rw [followPart]
  simp only [followBelow others]
  simp only [List.isEmpty_iff,full,beq_iff_eq,other,below,Bool.or_eq_true,or_self,if_false]
  constructor
  · intro found
    split at found
    · cases found
    · rename_i f within
      exact ⟨f,lookupMem within,found⟩
  · rintro ⟨f,inside,found⟩
    rw [memLookup distinct inside]
    exact found

theorem followProper (proper : here.Proper) (around : ∀ a ∈ above, a.Proper) {parts} (found : here.follow above parts = .ok e) :
    e.Proper := by
  fun_induction follow here above parts with
  | case1 here above =>
    cases found
    exact proper
  | case2 => cases found
  | case3 => cases found
  | case4 above part parts es stay ih => exact ih proper around found
  | case5 part parts es _ _ ih => exact ih proper around found
  | case6 part parts es _ _ up ups ih =>
    obtain ⟨here,others⟩ := forall_mem_cons.mp around
    exact ih here others found
  | case7 => cases found
  | case8 above part parts es _ _ f within ih =>
    refine ih ?_ (forall_mem_cons.mpr ⟨proper,around⟩) found
    cases proper with
    | directory _ _ _ inner => exact inner _ (lookupMem within)

theorem followMore {parts} (found : here.follow above parts = .ok e) (named : Names way) :
    here.follow above (parts ++ way) = e.follow [] way := by
  induction parts generalizing here above with
  | nil =>
    cases found
    exact followBelow named above
  | cons part parts ih =>
    cases here with
    | file content => cases found
    | special => cases found
    | directory es =>
      rw [followPart] at found
      rw [cons_append,followPart]
      repeat' split at found
      all_goals simp_all

theorem followOther (other : here.isDirectory = false) {parts} (found : here.follow above parts = .ok e) : parts = [] ∧ here = e := by
  cases parts with
  | nil => exact ⟨rfl,Except.ok.inj found⟩
  | cons part parts =>
    cases here with
    | directory => cases other
    | file => cases found
    | special => cases found

theorem nothingBelow (other : here.isDirectory = false) (parts) : here.follow above parts ≠ .ok (.directory es) := by
  intro found
  obtain ⟨_,rfl⟩ := followOther other found
  cases other

def moves (part : Bytes) : Bool := !(part.isEmpty || part == dot)

theorem followMoves {parts} : here.follow above parts = .ok (.directory es) ↔
    here.follow above (parts.filter moves) = .ok (.directory es) := by
  induction parts generalizing here above with
  | nil => rfl
  | cons part parts ih =>
    cases here with
    | file => exact iff_of_false (nothingBelow rfl _) (nothingBelow rfl _)
    | special => exact iff_of_false (nothingBelow rfl _) (nothingBelow rfl _)
    | directory fs =>
      by_cases stay : (part.isEmpty || part == dot)
      · rw [filter_cons_of_neg (by simp [moves,stay]),followPart,if_pos stay,ih]
      rw [filter_cons_of_pos (by simp [moves,stay]),followPart,followPart,if_neg stay,if_neg stay]
      split
      · exact ih
      · cases fs.lookup part with
        | none => rfl
        | some e => exact ih

end Entry

namespace Disk
variable {d : Disk} {r : Route} {way : List Bytes} {es : List (Bytes × Entry)} {e : Entry} {path : Bytes}

def FileAt (d : Disk) (path : Bytes) : Prop := ∃ content, d.find path = .ok (.file content)

def DirectoryAt (d : Disk) (path : Bytes) : Prop := ∃ es, d.find path = .ok (.directory es)

theorem findProper (proper : d.root.Proper) (found : d.find path = .ok e) : e.Proper := by
  rw [find] at found
  split at found
  · cases found
  · exact Entry.followProper proper (forall_mem_nil _) found

theorem findRoute : d.find r.text = .ok (.directory es) ↔ d.root.follow []
    ((if r.absolute then [] else d.working.filter Entry.moves) ++ r.parts) = .ok (.directory es) := by
  have moving : (fields 47 r.text).filter Entry.moves = r.parts := by
    have moves : r.parts.filter Entry.moves = r.parts :=
      filter_eq_self.mpr fun p mem => by simp [Entry.moves,r.partsFree p mem]
    rw [Route.fieldsText]
    by_cases bare : r.parts = []
    · rw [if_pos bare,bare]
      cases r.absolute <;> rfl
    · rw [if_neg bare]
      cases r.absolute <;> exact moves
  rw [find,if_neg (by simp [r.textSome]),Entry.followMoves,parts,Route.textAbsolute]
  cases r.absolute <;> simp [moving]

theorem findInto (found : d.find r.text = .ok (.directory es)) (named : Names way) (fs) :
    d.find (r.into way named).text = .ok (.directory fs) ↔ (Entry.directory es).follow [] way = .ok (.directory fs) := by
  rw [findRoute] at found ⊢
  rw [Route.intoParts,← append_assoc]
  exact iff_of_eq (congrArg (· = _) (Entry.followMore found named))

end Disk

def sampleDisk : Disk where
  root := .directory [(ascii "a.css",.file []),
    (ascii "b",.directory [(ascii "a.css",.file []),(ascii "c.CSS",.file []),(ascii "e",.empty)])]

theorem sampleProper : sampleDisk.root.Proper := by
  have empty : Entry.empty.Proper := .directory [] .nil (forall_mem_nil _) (forall_mem_nil _)
  refine .directory _ (by decide) (by decide) (forall_mem_cons.mpr ⟨.file _,forall_mem_singleton.mpr ?_⟩)
  exact .directory _ (by decide) (by decide) (forall_mem_cons.mpr ⟨.file _,forall_mem_cons.mpr ⟨.file _,forall_mem_singleton.mpr empty⟩⟩)

end Cascade
