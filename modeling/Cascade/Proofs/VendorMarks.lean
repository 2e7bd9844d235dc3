import Cascade.Proofs.QuietTexts

/-! Where a selector shows the mark of a vendor. Its names show none, so the mark is where a pseudo-class or a
pseudo-element starts with a hyphen, or in a part that is kept as it was written. -/
namespace Cascade
open List
open Component (anyVendorPseudo again texts ofSelectors text hasVendorPseudo optimize)

variable {cs : List Component} {s : Component}

inductive Component.WellNamed : Component → Prop where
  | id {name : Bytes} (quiet : QuietName name) : WellNamed (.id name)
  | className {name : Bytes} (quiet : QuietName name) : WellNamed (.className name)
  | element {name ns : Bytes} {hasNs : Bool} (quiet : QuietName name) (space : ns = [] ∨ QuietName ns) :
      WellNamed (.element name ns hasNs)
  | attr {name comparison flag : Bytes} {value : Option Component} : WellNamed (.attr name comparison value flag)
  | pseudoElement {name : Bytes} (full : name ≠ []) : WellNamed (.pseudoElement name)
  | pseudoClass {name : Bytes} (quiet : QuietName name) : WellNamed (.pseudoClass name)
  | pseudoCall {name : Bytes} {args : List Term} (quiet : QuietName name) : WellNamed (.pseudoCall name args)
  | nth {name : Bytes} {formula : Component} (quiet : QuietName name) (own : (name.head? == some 45) = false)
      (counts : Counts formula) : WellNamed (.nth name formula)
  | negation {s : Component} (inner : s.WellNamed) : WellNamed (.negation s)
  | selectorCall {name : Bytes} {s : Component} (quiet : QuietName name) (inner : s.WellNamed) :
      WellNamed (.selectorCall name s)
  | compound {cs : List Component} (each : ∀ c ∈ cs, c.WellNamed) : WellNamed (.compound cs)
  | complex {kind : UInt8} {left right : Component} (joins : isSign kind = false) (first : left.WellNamed)
      (second : right.WellNamed) : WellNamed (.complex kind left right)
  | list {ss : List Component} (each : ∀ s ∈ ss, s.WellNamed) : WellNamed (.list ss)

mutual

/- The parts of a selector that are written as they were read: attributes, the names of pseudo-elements with whatever
they are called with, and the arguments of functions that no selectors are read from. -/
def Component.verbatim : Component → List Bytes
  | .attr name comparison value flag => [(Component.attr name comparison value flag).text]
  | .pseudoElement name => [name]
  | .pseudoCall _ args => [parenthesized (Term.textOf args)]
  | .negation s | .selectorCall _ s => s.verbatim
  | .compound cs | .list cs => Component.allVerbatim cs
  | .complex _ left right => left.verbatim ++ right.verbatim
  | _ => []

def Component.allVerbatim : List Component → List Bytes
  | [] => []
  | c :: cs => c.verbatim ++ Component.allVerbatim cs

end

def Rounded (s : Bytes) : Prop := Spot.plain.after s = .plain

section

theorem allVerbatimMap (cs) : Component.allVerbatim cs = cs.flatMap Component.verbatim := by
  induction cs with
  | nil => rfl
  | cons c cs ih => rw [Component.allVerbatim,ih,flatMap_cons]

theorem verbatimMem {c} (mem : c ∈ cs) {piece} (inside : piece ∈ c.verbatim) : piece ∈ Component.allVerbatim cs := by
  rw [allVerbatimMap]
  exact mem_flatMap.mpr ⟨c,mem,inside⟩

def Component.marked (s : Component) : Bool := s.hasVendorPseudo || s.verbatim.any showsMark

open Component (allVerbatim marked verbatim)

theorem orCross (a b c d) : (a || b || (c || d)) = (a || c || (b || d)) := by ac_rfl

theorem flattenShows (each : ∀ c ∈ cs, Shows c.text c.marked) :
    Shows (texts cs).flatten (anyVendorPseudo cs || (allVerbatim cs).any showsMark) := by
  induction cs with
  | nil => exact showsNil
  | cons c cs ih =>
    obtain ⟨here,rest⟩ := forall_mem_cons.mp each
    have both := here.append (ih rest)
    rw [texts,flatten_cons,anyVendorPseudo,allVerbatim,any_append]
    rwa [marked,orCross] at both

theorem listShows {ss} (each : ∀ s ∈ ss, Shows s.text s.marked) :
    Shows ([44].intercalate (texts ss))
      (anyVendorPseudo ss || (allVerbatim ss).any showsMark) := by
  have comma : Shows [44] false := ⟨rfl,rfl⟩
  induction ss with
  | nil => exact showsNil
  | cons s ss ih =>
    obtain ⟨here,rest⟩ := forall_mem_cons.mp each
    rw [anyVendorPseudo,allVerbatim,any_append]
    cases ss with
    | nil => simpa [texts,anyVendorPseudo,allVerbatim,marked] using here
    | cons t ss =>
      have both := (here.append comma).append (ih rest)
      rw [Bool.or_false,marked,orCross] at both
      simpa [texts,intercalate_cons_cons] using both

variable {name : Bytes}

theorem signedShows (b) (calm : isSign b = false) (quiet : QuietName name) : Shows (b :: name) false :=
  (calmShows (forall_mem_singleton.mpr calm)).append quiet.shows

theorem callShows {inner mark} (quiet : QuietName name) (shows : Shows (parenthesized inner) mark) :
    Shows (58 :: name ++ parenthesized inner) (name.head? == some 45 || mark) := by
  have both := (colonShows quiet.full quiet.shows).append shows
  rwa [Bool.or_false] at both

theorem roundedShows {piece} (rounded : Rounded piece) : Shows piece (showsMark piece) := ⟨rounded,rfl⟩

theorem wellNamedShows (named : s.WellNamed) (rounded : ∀ piece ∈ s.verbatim, Rounded piece) :
    Shows s.text s.marked := by
  induction named with
  | id quiet => exact signedShows 35 rfl quiet
  | className quiet => exact signedShows 46 rfl quiet
  | @element name ns hasNs quiet space =>
    have bar := signedShows 124 rfl quiet
    cases hasNs with
    | false => exact quiet.shows
    | true =>
      rcases space with rfl | other
      · exact bar
      · exact other.shows.append bar
  | attr =>
    have whole := roundedShows (rounded _ mem_cons_self)
    simpa [marked,hasVendorPseudo,verbatim] using whole
  | pseudoElement full =>
    have whole := pairShows full (roundedShows (rounded _ mem_cons_self))
    simpa [marked,hasVendorPseudo,verbatim,text] using whole
  | pseudoClass quiet => exact colonShows quiet.full quiet.shows
  | pseudoCall quiet =>
    have whole := callShows quiet (roundedShows (rounded _ mem_cons_self))
    simpa [marked,hasVendorPseudo,verbatim,text,Term.textOf] using whole
  | nth quiet own counts =>
    have whole := callShows quiet (parenShows (calmShows counts.calm))
    rwa [own] at whole
  | negation _ ih =>
    have word : Shows (ascii ":not") false := ⟨rfl,rfl⟩
    exact word.append (parenShows (ih rounded))
  | selectorCall quiet _ ih =>
    have whole := callShows quiet (parenShows (ih rounded))
    rwa [marked,← Bool.or_assoc] at whole
  | compound _ ih => exact flattenShows fun c mem => ih c mem fun piece inside => rounded piece (verbatimMem mem inside)
  | complex joins _ _ first second =>
    obtain ⟨before,behind⟩ := forall_mem_append.mp rounded
    have sign := calmShows (forall_mem_singleton.mpr joins)
    have whole := ((first before).append sign).append (second behind)
    rw [Bool.or_false,marked,marked,orCross,← any_append] at whole
    exact whole
  | list _ ih => exact listShows fun s mem => ih s mem fun piece inside => rounded piece (verbatimMem mem inside)

end

section
variable (ctx : Context)

theorem listedWellNamed {ss} (each : ∀ s ∈ ss, s.WellNamed) : (ofSelectors ss).WellNamed := by
  unfold ofSelectors
  split
  · exact each _ mem_cons_self
  · exact .list each

theorem survivorsMade : ∀ d ∈ Outcome.survivors (Component.optimizeAll ctx cs).value, ∃ c ∈ cs, c.again ctx = d := by
  intro d mem
  obtain ⟨c,there,_,same⟩ := survivorsFrom mem
  exact ⟨c,there,same⟩

theorem survivorsWellNamed (each : ∀ c ∈ cs, (c.again ctx).WellNamed) :
    ∀ c ∈ Outcome.survivors (Component.optimizeAll ctx cs).value, c.WellNamed := by
  intro c mem
  obtain ⟨d,there,rfl⟩ := survivorsMade ctx c mem
  exact each d there

theorem wellNamedAgain (named : s.WellNamed) : (s.again ctx).WellNamed := by
  induction named with
  | id quiet => exact .id quiet
  | className quiet => exact .className quiet
  | @element name ns _ quiet space =>
    refine .element (lowerQuiet quiet) (space.imp ?_ lowerQuiet)
    rintro rfl
    rfl
  | attr =>
    rw [againAttr]
    exact .attr
  | @pseudoElement name full => exact .pseudoElement fun bare => full ((recastHead (lowerRecast name)).2 bare)
  | pseudoClass quiet => exact .pseudoClass (lowerQuiet quiet)
  | pseudoCall quiet => exact .pseudoCall (lowerQuiet quiet)
  | @nth name _ quiet own counts =>
    exact .nth (lowerQuiet quiet) ((recastHead (lowerRecast name)).1.trans own) (countsLowered ctx counts)
  | negation _ ih => exact .negation ih
  | selectorCall quiet _ ih => exact .selectorCall (lowerQuiet quiet) ih
  | compound _ ih =>
    rw [again,compoundOutcome]
    exact .compound fun c mem => survivorsWellNamed ctx ih c (conditionsMem mem)
  | complex joins _ right first second =>
    rw [again,optimize,Noted.valueBind]
    split
    · exact .complex joins first second
    · exact .complex joins first right
  | list _ ih =>
    rw [again,listOutcome]
    split
    · rw [outcomesAgain]
      exact .list (forall_mem_map.mpr ih)
    · exact listedWellNamed fun s mem => survivorsWellNamed ctx ih s (leftMem mem)

theorem anyVendorFrom {ds}
    (each : ∀ c ∈ cs, (c.again ctx).hasVendorPseudo → c.hasVendorPseudo)
    (made : ∀ d ∈ ds, ∃ c ∈ cs, c.again ctx = d) (vendor : anyVendorPseudo ds) : anyVendorPseudo cs := by
  rw [anyVendorPseudoAny] at vendor ⊢
  obtain ⟨d,mem,own⟩ := any_eq_true.mp vendor
  obtain ⟨c,there,rfl⟩ := made d mem
  exact any_eq_true.mpr ⟨c,there,each c there own⟩

theorem listedVendor (ss) : (ofSelectors ss).hasVendorPseudo = anyVendorPseudo ss := by
  unfold ofSelectors
  split
  · rw [anyVendorPseudo,anyVendorPseudo,Bool.or_false]
  · rfl

theorem vendorAgain (named : s.WellNamed) (vendor : (s.again ctx).hasVendorPseudo) : s.hasVendorPseudo := by
  have head : ∀ name : Bytes, (lower name).head? == some 45 → name.head? == some 45 :=
    fun name own => (recastHead (lowerRecast name)).1.symm.trans own
  induction named with
  | id | className | element | nth => cases vendor
  | attr =>
    rw [againAttr] at vendor
    cases vendor
  | pseudoElement | pseudoClass | pseudoCall => exact head _ vendor
  | negation _ ih => exact ih vendor
  | @selectorCall name s _ _ ih =>
    have either := Bool.or_eq_true_iff.mp vendor
    exact Bool.or_eq_true_iff.mpr (either.imp (head name) ih)
  | compound _ ih =>
    rw [again,compoundOutcome] at vendor
    exact anyVendorFrom ctx ih (fun d mem => survivorsMade ctx d (conditionsMem mem)) vendor
  | @complex kind left right _ _ _ first second =>
    refine Bool.or_eq_true_iff.mpr ?_
    rw [again,optimize,Noted.valueBind] at vendor
    split at vendor
    · exact (Bool.or_eq_true_iff.mp vendor).imp first second
    · exact (Bool.or_eq_true_iff.mp vendor).imp first id
  | list _ ih =>
    rw [again,listOutcome] at vendor
    split at vendor
    · rw [outcomesAgain] at vendor
      exact anyVendorFrom ctx ih (fun d mem => mem_map.mp mem) vendor
    · rw [listedVendor] at vendor
      exact anyVendorFrom ctx ih (fun d mem => survivorsMade ctx d (leftMem mem)) vendor

end

theorem typeQuiet {t : Token} (type : t.IsType) (spelt : t.IsSpelt) : QuietName t.text := by
  rcases type with ident | sign
  · exact nameQuiet (spelt.ident ident)
  rw [Token.isOneOf,Bool.and_eq_true,decide_eq_true_eq] at sign
  obtain ⟨b,text⟩ := spelt.delim sign.1
  rw [text] at sign ⊢
  rcases mem_cons.mp (contains_iff_mem.mp sign.2) with rfl | other
  · exact ⟨cons_ne_nil _ _,⟨rfl,rfl⟩⟩
  · rw [mem_singleton.mp other]
    exact ⟨cons_ne_nil _ _,⟨rfl,rfl⟩⟩

theorem namedShape : ShapeRule Token.IsSpelt Component.WellNamed Component.WellNamed where
  className kind spelt := .className (nameQuiet (spelt.ident kind))
  element type spelt space := .element (typeQuiet type spelt)
    (space.imp id fun ⟨_,other,named,same⟩ => same ▸ typeQuiet other named)
  id kind spelt := by
    obtain ⟨name,text,is⟩ := spelt.hash kind
    rw [text]
    exact .id (nameQuiet is)
  attr _ _ _ _ := .attr
  pseudoElement kind spelt := .pseudoElement (spelt.ident kind).full
  pseudoElementCall kind spelt := .pseudoElement (by simp)
  pseudoClass kind spelt := .pseudoClass (nameQuiet (spelt.ident kind))
  plain kind spelt := .pseudoCall (nameQuiet (spelt.function kind))
  nth kind spelt counted read := by
    refine .nth (nameQuiet (spelt.function kind)) ?_ (nthCounts read)
    have letters : ∀ name ∈ nthFunctions, (name.head? == some 45) = false := by decide
    rw [← (recastHead (lowerRecast _)).1,letters _ counted]
  negation _ each := .negation (listedWellNamed each)
  selectorCall kind spelt _ each := .selectorCall (nameQuiet (spelt.function kind)) (listedWellNamed each)
  compound _ each := .compound each
  complex known left _ each := .complex (allCalm rfl _ known) left (.compound each)

theorem lexedWellNamed (lexed : s.IsLexed) : s.WellNamed := by
  obtain ⟨ts,all,read⟩ := lexed
  exact readSelectorAs namedShape ts (fun t mem => lexedSpelt (all t mem)) s read

end Cascade
