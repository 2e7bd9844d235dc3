import Cascade.Proofs.MatchedBoxes
import Cascade.Config.Yaml

/-! Which boxes two selectors can have in common. Names are compared as they are written, but mean what their escapes
stand for, and a box that is reached through several parts or slots answers to all their names. -/
namespace Cascade
open List Component Compound

variable {bs as : List Bytes}

def escapedScalar (digits : Bytes) : Nat :=
  let c := hexValue digits
  if c = 0 ∨ (0xD800 ≤ c ∧ c < 0xE000) ∨ 0x110000 ≤ c then replacement else c

def escapedText (s : Bytes) : Bytes :=
  match s with
  | [] => []
  | b :: _ => if isHexDigit b then encode (escapedScalar (s.takeWhile isHexDigit)) else s

def decodedFrom : Nat → Bytes → Bytes
  | _,[] => []
  | skip + 1,_ :: s => decodedFrom skip s
  | 0,b :: s =>
    if b == 92 then
      match escapeLength s with
      | some n => escapedText (s.take n) ++ decodedFrom n s
      | none => b :: decodedFrom 0 s
    else b :: decodedFrom 0 s

def decoded (name : Bytes) : Bytes := decodedFrom 0 name

def spoken (name : Bytes) : Bytes := lower (decoded name)

theorem decodedPlain {s} (plain : 92 ∉ s) : decoded s = s := by
  rw [decoded]
  induction s with
  | nil => rfl
  | cons b s ih =>
    rw [mem_cons,not_or] at plain
    have other : ¬ (b == 92) := fun same => plain.1 (beq_iff_eq.mp same).symm
    rw [decodedFrom,if_neg other,ih plain.2]

def Component.writtenType : Component → Option Bytes
  | .element name _ _ => if name = universal then none else some name
  | _ => none

def Component.writtenId : Component → Option Bytes
  | .id name => some name
  | _ => none

def Component.writtenPseudo : Component → Option Bytes
  | .pseudoElement name => some name
  | .pseudoClass name => if singleColonElements.contains name then some name else none
  | _ => none

def Component.typeName (c : Component) : Option Bytes := c.writtenType.map spoken

def Component.idName (c : Component) : Option Bytes := c.writtenId.map decoded

def Component.layerName : Component → Option Bytes
  | .pseudoElement name => some (spoken name)
  | .pseudoClass name => if singleColonElements.contains (spoken name) then some (spoken name) else none
  | _ => none

def Component.typeNames (s : Component) : List Bytes := s.subject.conjuncts.filterMap typeName

def Component.idNames (s : Component) : List Bytes := s.subject.conjuncts.filterMap idName

def Component.layerNames (s : Component) : List Bytes := s.subject.conjuncts.filterMap layerName

def isReach (name : Bytes) : Bool := (ascii "part(").isPrefixOf name || (ascii "slotted(").isPrefixOf name

def Component.Reaches (s : Component) : Prop := ∃ name ∈ s.layerNames, isReach name = true

def Component.label : Component → Bytes
  | .element name _ _ | .id name | .pseudoElement name | .pseudoClass name => name
  | _ => []

/- A step from an element to a box of it: a pseudo-element with its one name, or an element of a tree within
or outside, with the parts and slots it is reached through. -/
inductive Layer where
  | named (name : Bytes)
  | reached (names : List Bytes)

def Layer.Answers : Layer → Bytes → Prop
  | .named name,asked => asked = name
  | .reached names,asked => asked ∈ names ∧ isReach asked = true

structure LayeredBox where
  type : Bytes
  id : Option Bytes
  layers : List Layer

/- All else that decides on a match: the other conditions, and what stands on the left of a combinator. -/
structure Surroundings where
  condition : Component → Prop
  beside : UInt8 → Component → Prop

structure Surroundings.Allows (w : Surroundings) (s : Component) : Prop where
  conditions : ∀ c ∈ s.subject.conjuncts, w.condition c
  context : ∀ kind left right, s = .complex kind left right → w.beside kind left

structure Component.Fits (w : Surroundings) (b : LayeredBox) (s : Component) : Prop where
  type : ∀ name ∈ s.typeNames, b.type = name
  id : ∀ name ∈ s.idNames, b.id = some name
  layers : List.Forall₂ Layer.Answers b.layers s.layerNames
  allowed : w.Allows s

structure Component.Agrees (s t : Component) : Prop where
  types : ∀ a ∈ s.typeNames ++ t.typeNames, ∀ b ∈ s.typeNames ++ t.typeNames, a = b
  ids : ∀ a ∈ s.idNames ++ t.idNames, ∀ b ∈ s.idNames ++ t.idNames, a = b
  layers : List.Forall₂ (fun a b => a = b ∨ isReach a = true ∧ isReach b = true) s.layerNames t.layerNames

section
variable {w : Surroundings} {s t : Component}

theorem answersBoth {layer : Layer} {a b} (left : layer.Answers a) (right : layer.Answers b) :
    a = b ∨ isReach a ∧ isReach b := by
  cases layer with
  | named => exact .inl (left.trans right.symm)
  | reached => exact .inr ⟨left.2,right.2⟩

theorem layersBoth {layers} (left : List.Forall₂ Layer.Answers layers as)
    (right : List.Forall₂ Layer.Answers layers bs) : List.Forall₂ (fun a b => a = b ∨ isReach a ∧ isReach b) as bs := by
  induction left generalizing bs with
  | nil =>
    cases right
    exact .nil
  | cons first _ ih =>
    cases right with
    | cons second rest => exact .cons (answersBoth first second) (ih rest)

theorem layersFound (agree : List.Forall₂ (fun a b => a = b ∨ isReach a ∧ isReach b) as bs) :
    ∃ layers, List.Forall₂ Layer.Answers layers as ∧ List.Forall₂ Layer.Answers layers bs := by
  induction agree with
  | nil => exact ⟨[],.nil,.nil⟩
  | @cons a b as bs here _ ih =>
    obtain ⟨layers,left,right⟩ := ih
    rcases here with rfl | ⟨reachA,reachB⟩
    · exact ⟨.named a :: layers,.cons rfl left,.cons rfl right⟩
    · exact ⟨.reached [a,b] :: layers,.cons ⟨by simp,reachA⟩ left,.cons ⟨by simp,reachB⟩ right⟩

theorem commonBox : (∃ b, s.Fits w b ∧ t.Fits w b) ↔ (w.Allows s ∧ w.Allows t) ∧ s.Agrees t := by
  constructor
  · rintro ⟨b,left,right⟩
    refine ⟨⟨left.allowed,right.allowed⟩,?_,?_,layersBoth left.layers right.layers⟩
    · have type : ∀ name ∈ s.typeNames ++ t.typeNames, b.type = name :=
        forall_mem_append.mpr ⟨left.type,right.type⟩
      exact fun x mx y my => (type x mx).symm.trans (type y my)
    · have id : ∀ name ∈ s.idNames ++ t.idNames, b.id = some name :=
        forall_mem_append.mpr ⟨left.id,right.id⟩
      exact fun x mx y my => Option.some.inj ((id x mx).symm.trans (id y my))
  · rintro ⟨⟨allowS,allowT⟩,agree⟩
    obtain ⟨layers,left,right⟩ := layersFound agree.layers
    have first : ∀ names : List Bytes, (∀ a ∈ names, ∀ b ∈ names, a = b) → ∀ name ∈ names, names.head? = some name := by
      intro names same name mem
      cases names with
      | nil => cases mem
      | cons a names => exact congrArg some (same a mem_cons_self name mem)
    have types := first _ agree.types
    have ids := first _ agree.ids
    refine ⟨⟨(s.typeNames ++ t.typeNames).head?.getD [],(s.idNames ++ t.idNames).head?,layers⟩,
      ⟨fun name mem => ?_,fun name mem => ids name (mem_append_left _ mem),left,allowS⟩,
      ⟨fun name mem => ?_,fun name mem => ids name (mem_append_right _ mem),right,allowT⟩⟩
    · rw [types name (mem_append_left _ mem),Option.getD_some]
    · rw [types name (mem_append_right _ mem),Option.getD_some]

end

theorem addNames (k : Compound) (c) :
    (k.add c).element = c.writtenType.getD k.element ∧ (k.add c).id = c.writtenId.getD k.id ∧
      (k.add c).pseudoElement = c.writtenPseudo.getD k.pseudoElement := by
  cases c with
  | element name ns hasNs =>
    rw [add,writtenType,universal]
    split
    · exact ⟨rfl,rfl,rfl⟩
    · exact ⟨rfl,rfl,rfl⟩
  | pseudoClass name =>
    rw [add,writtenPseudo]
    split
    · exact ⟨rfl,rfl,rfl⟩
    · exact ⟨rfl,rfl,rfl⟩
  | _ => exact ⟨rfl,rfl,rfl⟩

theorem lastAdded (name : Component → Option Bytes) (cs c) :
    (((cs ++ [c]).filterMap name).getLast?).getD [] = (name c).getD (((cs.filterMap name).getLast?).getD []) := by
  rw [filterMap_append]
  cases given : name c <;> simp [given]

theorem compoundNames (cs : List Component) :
    (cs.foldl add {}).element = ((cs.filterMap writtenType).getLast?).getD [] ∧
    (cs.foldl add {}).id = ((cs.filterMap writtenId).getLast?).getD [] ∧
    (cs.foldl add {}).pseudoElement = ((cs.filterMap writtenPseudo).getLast?).getD [] := by
  induction cs using List.reverseRecOn with
  | nil => exact ⟨rfl,rfl,rfl⟩
  | append_singleton cs c ih =>
    obtain ⟨element,id,pseudo⟩ := ih
    obtain ⟨addsElement,addsId,addsPseudo⟩ := addNames (cs.foldl add {}) c
    rw [foldl_append,foldl_cons,foldl_nil,addsElement,addsId,addsPseudo,element,id,pseudo,
      lastAdded,lastAdded,lastAdded]
    exact ⟨rfl,rfl,rfl⟩

theorem compoundOf (c) : of c = c.conjuncts.foldl add {} := by
  cases c <;> rfl

theorem differOf (differs : differ (as.getLast?.getD []) (bs.getLast?.getD [])) : ∃ a ∈ as, ∃ b ∈ bs, a ≠ b := by
  cases left : as.getLast? with
  | none => simp [left,differ] at differs
  | some a =>
    cases right : bs.getLast? with
    | none => simp [right,differ] at differs
    | some b =>
      rw [left,right,Option.getD_some,Option.getD_some,differ,Bool.and_eq_true,bne_iff_ne] at differs
      exact ⟨a,mem_of_getLast? left,b,mem_of_getLast? right,differs.2⟩

theorem lastReach (agree : List.Forall₂ (fun a b => a = b ∨ isReach a ∧ isReach b) as bs)
    (differs : as.getLast?.getD [] ≠ bs.getLast?.getD []) : (∃ a ∈ as, isReach a) ∧ ∃ b ∈ bs, isReach b := by
  induction agree with
  | nil => exact absurd rfl differs
  | @cons a b as bs here rest ih =>
    cases rest with
    | nil =>
      rcases here with rfl | ⟨left,right⟩
      · exact absurd rfl differs
      · exact ⟨⟨a,by simp,left⟩,⟨b,by simp,right⟩⟩
    | cons =>
      rw [getLast?_cons_cons,getLast?_cons_cons] at differs
      obtain ⟨⟨c,mc,left⟩,⟨d,md,right⟩⟩ := ih differs
      exact ⟨⟨c,mem_cons_of_mem _ mc,left⟩,⟨d,mem_cons_of_mem _ md,right⟩⟩

section
variable {ctx : Context}

def Component.isLowered : Component → Prop
  | .element name _ _ | .pseudoElement name | .pseudoClass name => lower name = name
  | _ => True

def Component.IsOptimized (s : Component) : Prop :=
  ∃ ctx u, (∃ ts, (readSelector ts).value = some u) ∧ u.Lasts ctx ∧ u.again ctx = s

theorem loweredOf {c : Component} (each : ∀ d ∈ c.subject.conjuncts, d.isLowered) : c.isLowered := by
  cases c with
  | element | pseudoElement | pseudoClass => exact each _ mem_cons_self
  | _ => trivial

theorem aloneLowered {c : Component} (lowered : c.isLowered) (one : c.subject.conjuncts = [c]) :
    ∀ d ∈ c.subject.conjuncts, d.isLowered := by
  rw [one]
  exact forall_mem_singleton.mpr lowered

theorem simpleLowered {c : Component} (simple : c.isSimple) : ∀ d ∈ (c.again ctx).subject.conjuncts, d.isLowered := by
  cases c with
  | element name ns hasNs => exact @aloneLowered (.element (lower name) (lower ns) hasNs) (lowerTwice name) rfl
  | pseudoElement name => exact @aloneLowered (.pseudoElement (lower name)) (lowerTwice name) rfl
  | pseudoClass name => exact @aloneLowered (.pseudoClass (lower name)) (lowerTwice name) rfl
  | id name => exact @aloneLowered (.id name) trivial rfl
  | className name => exact @aloneLowered (.className name) trivial rfl
  | attr name comparison value flag =>
    rw [againAttr]
    exact @aloneLowered (.attr _ _ _ _) trivial rfl
  | pseudoCall name args => exact @aloneLowered (.pseudoCall _ _) trivial rfl
  | nth name formula => exact @aloneLowered (.nth _ _) trivial rfl
  | _ => cases simple

theorem parsedLowered {u : Component} (parsed : u.Parsed) (lasts : u.Lasts ctx) :
    ∀ c ∈ (u.again ctx).subject.conjuncts, c.isLowered := by
  induction parsed with
  | simple simple => exact simpleLowered simple
  | negation => exact @aloneLowered (.negation _) trivial rfl
  | selectorCall => exact @aloneLowered (.selectorCall _ _) trivial rfl
  | compound _ _ ih =>
    intro d mem
    rw [again,compoundOutcome] at mem
    obtain ⟨c,there,stays,rfl⟩ := survivorsFrom (conditionsMem mem)
    exact loweredOf (ih c there stays)
  | complex _ _ _ right =>
    obtain ⟨first,second⟩ := complexLasts.mp lasts
    rw [complexAgain first]
    exact right second
  | @list ss _ _ _ ih =>
    rw [Component.Lasts,listOutcome] at lasts
    rw [again,listOutcome]
    cases left : leftSelectors ctx (Outcome.survivors (optimizeAll ctx ss).value) with
    | nil =>
      rw [left] at lasts
      cases lasts
    | cons s rest =>
      cases rest with
      | nil =>
        have kept : s ∈ leftSelectors ctx (Outcome.survivors (optimizeAll ctx ss).value) := by simp [left]
        obtain ⟨c,there,stays,rfl⟩ := survivorsFrom (leftMem kept)
        exact ih c there stays
      | cons => exact @aloneLowered (.list _) trivial rfl

theorem optimizedLowered {s : Component} (optimized : s.IsOptimized) : ∀ c ∈ s.subject.conjuncts, c.isLowered := by
  obtain ⟨ctx,u,⟨ts,read⟩,lasts,rfl⟩ := optimized
  exact parsedLowered (readSelectorParsed ts u read).1 lasts

end

section
variable {s : Component} (lowered : ∀ c ∈ s.subject.conjuncts, c.isLowered)
  (plain : ∀ c ∈ s.subject.conjuncts, 92 ∉ c.label)
include lowered plain

theorem plainNames : s.typeNames = s.subject.conjuncts.filterMap writtenType ∧
    s.idNames = s.subject.conjuncts.filterMap writtenId ∧
    s.layerNames = s.subject.conjuncts.filterMap writtenPseudo := by
  have same : ∀ c ∈ s.subject.conjuncts, c.typeName = c.writtenType ∧ c.idName = c.writtenId ∧
      c.layerName = c.writtenPseudo := by
    intro c mem
    have lower := lowered c mem
    have clear := decodedPlain (plain c mem)
    cases c with
    | element name ns hasNs =>
      have meant : spoken name = name := (congrArg Cascade.lower clear).trans lower
      refine ⟨?_,rfl,rfl⟩
      rw [typeName,writtenType]
      split
      · rfl
      · rw [Option.map_some,meant]
    | id name => exact ⟨rfl,congrArg some clear,rfl⟩
    | pseudoElement name => exact ⟨rfl,rfl,congrArg some ((congrArg Cascade.lower clear).trans lower)⟩
    | pseudoClass name =>
      have meant : spoken name = name := (congrArg Cascade.lower clear).trans lower
      refine ⟨rfl,rfl,?_⟩
      rw [layerName,meant]
      rfl
    | _ => exact ⟨rfl,rfl,rfl⟩
  exact ⟨filterMap_congr fun c mem => (same c mem).1,filterMap_congr fun c mem => (same c mem).2.1,
    filterMap_congr fun c mem => (same c mem).2.2⟩

end

/- Selectors that are held to be disjoint and whose names agree have an escape in a name, or both name a part
or a slot. -/
theorem disjointAgree {s t : Component} (left : s.IsOptimized) (right : t.IsOptimized)
    (disjoint : (of s.subject).isDisjoint (of t.subject)) (agree : s.Agrees t) :
    (∃ c ∈ s.subject.conjuncts ++ t.subject.conjuncts, 92 ∈ c.label) ∨ s.Reaches ∧ t.Reaches := by
  by_cases escaped : ∃ c ∈ s.subject.conjuncts ++ t.subject.conjuncts, 92 ∈ c.label
  · exact .inl escaped
  push Not at escaped
  obtain ⟨clearS,clearT⟩ := forall_mem_append.mp escaped
  obtain ⟨typesS,idsS,layersS⟩ := plainNames (optimizedLowered left) clearS
  obtain ⟨typesT,idsT,layersT⟩ := plainNames (optimizedLowered right) clearT
  obtain ⟨elementS,idS,pseudoS⟩ := compoundNames s.subject.conjuncts
  obtain ⟨elementT,idT,pseudoT⟩ := compoundNames t.subject.conjuncts
  rw [compoundOf,compoundOf,isDisjoint,elementS,idS,pseudoS,elementT,idT,pseudoT,← typesS,← idsS,← layersS,
    ← typesT,← idsT,← layersT,Bool.or_eq_true,Bool.or_eq_true,bne_iff_ne] at disjoint
  rcases disjoint with (types | ids) | layers
  · obtain ⟨a,ma,b,mb,other⟩ := differOf types
    exact absurd (agree.types a (mem_append_left _ ma) b (mem_append_right _ mb)) other
  · obtain ⟨a,ma,b,mb,other⟩ := differOf ids
    exact absurd (agree.ids a (mem_append_left _ ma) b (mem_append_right _ mb)) other
  · exact .inr (lastReach agree.layers layers)

/- Selectors of two lists that are held to be disjoint match a box in common exactly if their names agree,
which takes an escape in one of the names, or parts or slots on both sides. -/
theorem disjointSelectorsMeet (ss ts : List Component) (optimized : ∀ s ∈ ss ++ ts, s.IsOptimized)
    (disjoint : areDisjoint ss ts = true) {s t : Component} (left : s ∈ ss) (right : t ∈ ts) (w : Surroundings) :
    ((∃ b, s.Fits w b ∧ t.Fits w b) ↔ (w.Allows s ∧ w.Allows t) ∧ s.Agrees t) ∧
    (s.Agrees t → (∃ c ∈ s.subject.conjuncts ++ t.subject.conjuncts, 92 ∈ c.label) ∨ s.Reaches ∧ t.Reaches) := by
  rw [areDisjoint,all_eq_true] at disjoint
  have apart := all_eq_true.mp (disjoint s left) t right
  exact ⟨commonBox,disjointAgree (optimized s (mem_append_left _ left))
    (optimized t (mem_append_right _ right)) apart⟩

def idSpelt (name : String) : Component := .compound [.id (ascii name)]

def partSpelt (name : String) : Component :=
  .compound [.element (ascii "x") [] false,.pseudoElement (ascii "part(" ++ ascii name ++ [41])]

def anywhere : Surroundings := ⟨fun _ => True,fun _ _ => True⟩

theorem anywhereAllows (s) : anywhere.Allows s := ⟨fun _ _ => trivial,fun _ _ _ _ => trivial⟩

theorem idSpeltOptimized (name) : (idSpelt name).IsOptimized :=
  ⟨sweeping,idSpelt name,⟨(idSpelt name).spell,by with_unfolding_all rfl⟩,rfl,rfl⟩

theorem partSpeltOptimized : (partSpelt "a").IsOptimized ∧ (partSpelt "b").IsOptimized :=
  ⟨⟨sweeping,partSpelt "a",⟨tokens (ascii "x::part(a)"),by with_unfolding_all rfl⟩,rfl,rfl⟩,
    sweeping,partSpelt "b",⟨tokens (ascii "x::part(b)"),by with_unfolding_all rfl⟩,rfl,rfl⟩

theorem disjointSpellingsMeet :
    (areDisjoint [idSpelt "a"] [idSpelt "\\61"] = true ∧
      ∃ b, (idSpelt "a").Fits anywhere b ∧ (idSpelt "\\61").Fits anywhere b) ∧
    (areDisjoint [partSpelt "a"] [partSpelt "b"] = true ∧
      ∃ b, (partSpelt "a").Fits anywhere b ∧ (partSpelt "b").Fits anywhere b) := by
  have ids : areDisjoint [idSpelt "a"] [idSpelt "\\61"] = true := by decide
  have parts : areDisjoint [partSpelt "a"] [partSpelt "b"] = true := by decide
  have idsReady : ∀ s ∈ [idSpelt "a"] ++ [idSpelt "\\61"], s.IsOptimized := by simp [idSpeltOptimized]
  have partsReady : ∀ s ∈ [partSpelt "a"] ++ [partSpelt "b"], s.IsOptimized := by simp [partSpeltOptimized]
  have sameId := (disjointSelectorsMeet _ _ idsReady ids mem_cons_self mem_cons_self anywhere).1
  have sameBox := (disjointSelectorsMeet _ _ partsReady parts mem_cons_self mem_cons_self anywhere).1
  refine ⟨⟨ids,sameId.mpr ⟨⟨anywhereAllows _,anywhereAllows _⟩,⟨?_,?_,.nil⟩⟩⟩,
    ⟨parts,sameBox.mpr ⟨⟨anywhereAllows _,anywhereAllows _⟩,⟨?_,?_,.cons (Or.inr ?_) .nil⟩⟩⟩⟩
  all_goals decide

end Cascade
