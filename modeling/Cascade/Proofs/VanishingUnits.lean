import Cascade.Optimizer.Unit
import Cascade.Proofs.CompactNumbers

/-! Values that a change of the unit makes invisible: the search for the shortest unit takes any number that is printed
as a zero. -/
namespace Cascade
open List

def vanishes (f : Float) : Bool := !isFinite f || decide (magnitude f < 0.0001)

def leastKept : ℚ := 7378697629483821 * 2 ^ (-66 : Int)

def leastTenth : ℚ := 7205759403792794 * 2 ^ (-56 : Int)

theorem partsKept : parts 0.0001 = .finite false 7378697629483821 (-66) := rfl

theorem partsTenth : parts 0.1 = .finite false 7205759403792794 (-56) := rfl

theorem vanishesSize (f) : vanishes f = false ↔ (leastKept : WithTop ℚ) ≤ (parts f).size ∧ (parts f).size ≠ ⊤ := by
  have below := magnitudeBelow f partsKept
  have finite : isFinite f ↔ (parts f).size ≠ ⊤ := by
    rw [isFinite]
    cases parts f with
    | finite => exact iff_of_true rfl (WithTop.coe_ne_top)
    | _ => exact iff_of_false Bool.false_ne_true (fun other => other rfl)
  rw [vanishes,Bool.or_eq_false_iff,decide_eq_false_iff_not,below,not_lt,Bool.not_eq_false',finite,and_comm]
  rfl

section
variable {f : Float} {negative : Bool} {m : Nat} {e : Int} {s c : DecimalText} (printed : Printed f negative m e s c)
  (held : Held m e)
include printed

theorem zeroPrinted : compactNumber f = [48] ↔ c.text = [48] := by
  rw [printed.text]
  constructor
  · intro zero
    by_contra visible
    rw [if_neg visible] at zero
    cases negative with
    | true => cases zero
    | false =>
      rcases withoutLeading c with ⟨_,_,text⟩ | ⟨_,text⟩
      · rw [text] at zero
        cases zero
      · rw [text] at zero
        exact visible zero
  · intro zero
    exact if_pos zero

include held

theorem keptPrinted (kept : leastKept ≤ m * 2 ^ e) : c.text ≠ [48] := by
  intro zero
  have value := (textZero c).mp zero
  have limit := finiteHeld partsKept
  rcases printed.near with ⟨cut,_,above⟩ | ⟨_,close,_⟩
  · rw [value,zero_add,show (1 / 10 ^ keptDecimals : ℚ) = 1 / 10000 by norm_num [keptDecimals]] at above
    rcases kept.lt_or_eq with less | same
    · have apart := intervalsApart limit held less
      have high : (1 / 10000 : ℚ) < highEnd 7378697629483821 (-66) := by norm_num [highEnd]
      linarith [printed.low]
    · obtain ⟨rfl,rfl⟩ := heldSame limit held same
      rw [← printed.exact,zero] at cut
      exact absurd cut (by decide +kernel)
  · rw [value,zero_sub,abs_neg] at close
    have least : (1 / 50000 : ℚ) < leastKept := by norm_num [leastKept]
    linarith [le_abs_self (m * 2 ^ e : ℚ)]

theorem lostPrinted (lost : (m * 2 ^ e : ℚ) < leastKept) : c.text = [48] := by
  by_contra visible
  have least := leastValue c visible
  have limit := finiteHeld partsKept
  rcases printed.near with ⟨_,below,_⟩ | ⟨bare,close,_⟩
  · have apart := intervalsApart held limit lost
    have low : lowEnd 7378697629483821 (-66) < 1 / 10000 := by norm_num [lowEnd,quartersBelow,fractionLimit]
    have places : (1 / 10000 : ℚ) ≤ 1 / 10 ^ c.fraction.length := by
      have power : (10 ^ c.fraction.length : ℚ) ≤ 10 ^ 4 := pow_le_pow_right₀ (by norm_num) printed.short
      rw [div_le_div_iff₀ (by norm_num) (by positivity)]
      linarith
    linarith [printed.high]
  · rw [bare,length_nil] at least
    have small : leastKept < 1 / 1000 := by norm_num [leastKept]
    have := (abs_lt.mp close).2
    norm_num at least this
    linarith

theorem shortPrinted (visible : c.text ≠ [48]) (short : (compactNumber f).length ≤ 2) :
    leastTenth ≤ m * 2 ^ e ∧ (m * 2 ^ e : ℚ) ≤ 256 := by
  rw [printed.text,if_neg visible,length_append] at short
  have places : c.fraction.length ≤ 1 ∧ c.whole.length ≤ 2 := by
    rcases withoutLeading c with ⟨whole,_,text⟩ | ⟨_,text⟩
    · rw [text,length_cons] at short
      rw [whole,length_singleton]
      omega
    rw [text,DecimalText.text] at short
    split at short
    · rename_i bare
      rw [List.isEmpty_iff.mp bare,length_nil]
      omega
    · rw [length_append,length_cons] at short
      omega
  have least : (1 / 10 : ℚ) ≤ c.value := by
    have power : (10 ^ c.fraction.length : ℚ) ≤ 10 ^ 1 := pow_le_pow_right₀ (by norm_num) places.1
    refine le_trans ?_ (leastValue c visible)
    rw [div_le_div_iff₀ (by norm_num) (by positivity)]
    linarith
  have most : c.value < 101 := by
    have whole : digitsValue c.whole < 10 ^ 2 :=
      (digitsBelow c.wholeDigits).trans_le (Nat.pow_le_pow_right (by decide) places.2)
    have fraction : (digitsValue c.fraction : ℚ) < 10 ^ c.fraction.length := by
      exact_mod_cast digitsBelow c.fractionDigits
    have part : (digitsValue c.fraction / 10 ^ c.fraction.length : ℚ) < 1 :=
      (div_lt_iff₀ (by positivity)).mpr (by rwa [one_mul])
    have cast : (digitsValue c.whole : ℚ) < 100 := by exact_mod_cast whole
    rw [DecimalText.value]
    linarith
  have tenth : leastTenth < 1 / 5 := by norm_num [leastTenth]
  rcases printed.near with ⟨_,below,above⟩ | ⟨bare,close,_⟩
  · constructor
    · by_contra less
      have apart := intervalsApart held (finiteHeld partsTenth) (lt_of_not_ge less)
      have low : lowEnd 7205759403792794 (-56) < 1 / 10 := by norm_num [lowEnd,quartersBelow,fractionLimit]
      linarith [printed.high]
    · have half := (lowParted m e).trans printed.low
      have pos : (0 : ℚ) < 2 ^ e := by positivity
      rw [show (1 / 10 ^ keptDecimals : ℚ) = 1 / 10000 by norm_num [keptDecimals]] at above
      rcases Nat.eq_zero_or_pos m with rfl | full
      · norm_num
      · have one : (1 : ℚ) ≤ m := by exact_mod_cast full
        nlinarith
  · have single := leastValue c visible
    rw [bare,length_nil] at single
    obtain ⟨down,up⟩ := abs_lt.mp close
    norm_num at single down up
    constructor <;> linarith

end

theorem vanishesPrinted (f) : compactNumber f = [48] ↔ vanishes f := by
  rw [← not_iff_not,Bool.not_eq_true,vanishesSize]
  cases found : parts f with
  | finite negative m e =>
    obtain ⟨s,c,printed⟩ := finitePrinted found
    have held := finiteHeld found
    rw [zeroPrinted printed,Parts.size,WithTop.coe_le_coe]
    refine ⟨fun visible => ⟨?_,WithTop.coe_ne_top⟩,fun kept => keptPrinted printed held kept.1⟩
    by_contra lost
    exact visible (lostPrinted printed held (lt_of_not_ge lost))
  | _ =>
    refine iff_of_false (fun visible => visible ?_) (fun kept => kept.2 rfl)
    rw [compactNumber,found]

theorem shortVisible {f} (visible : vanishes f = false) (short : (compactNumber f).length ≤ 2) :
    (leastTenth : WithTop ℚ) ≤ (parts f).size ∧ (parts f).size ≤ (256 : ℚ) := by
  have shown : compactNumber f ≠ [48] := by
    rw [ne_eq,vanishesPrinted,visible]
    exact Bool.false_ne_true
  cases found : parts f with
  | finite negative m e =>
    obtain ⟨s,c,printed⟩ := finitePrinted found
    rw [Parts.size,WithTop.coe_le_coe,WithTop.coe_le_coe]
    exact shortPrinted printed (finiteHeld found) (fun zero => shown ((zeroPrinted printed).mpr zero)) short
  | _ => exact absurd (by rw [compactNumber,found]) shown

theorem shortestTried (best tried) : tried.foldl shorter best ∈ best :: tried ∧
    ∀ d ∈ best :: tried, dimensionLength (tried.foldl shorter best) ≤ dimensionLength d := by
  induction tried generalizing best with
  | nil => simp
  | cons c tried ih =>
    have step : (shorter best c = best ∨ shorter best c = c) ∧ dimensionLength (shorter best c) ≤ dimensionLength best ∧
        dimensionLength (shorter best c) ≤ dimensionLength c := by
      rw [shorter]
      split
      · exact ⟨.inr rfl,by omega,le_rfl⟩
      · exact ⟨.inl rfl,le_rfl,by omega⟩
    obtain ⟨mem,least⟩ := ih (shorter best c)
    obtain ⟨first,others⟩ := forall_mem_cons.mp least
    rw [foldl_cons]
    refine ⟨?_,forall_mem_cons.mpr ⟨first.trans step.2.1,forall_mem_cons.mpr ⟨first.trans step.2.2,others⟩⟩⟩
    rcases mem_cons.mp mem with same | later
    · rw [same]
      rcases step.1 with kept | taken
      · simp [kept]
      · simp [taken]
    · exact mem_cons_of_mem _ (mem_cons_of_mem _ later)

theorem groupFound {unit group size}
    (found : unitGroup? unit = some (group,size)) : group ∈ unitGroups ∧ (unit,size) ∈ group := by
  obtain ⟨g,mem,hit⟩ := exists_of_findSome?_eq_some found
  obtain ⟨x,look,pair⟩ := Option.map_eq_some_iff.mp hit
  cases pair
  obtain ⟨front,back,rfl,_⟩ := lookup_eq_some_iff.mp look
  exact ⟨mem,by simp⟩

section

def isScale (f : Float) : Bool :=
  match parts f with
  | .finite _ n _ => n != 0
  | _ => false

def keepsOwn (own u : Bytes × Float) : Bool := !vanishes (0.1 * own.2 / u.2) && !vanishes (256.0 * own.2 / u.2)

def keepsOther (w u : Bytes × Float) : Bool :=
  decide (magnitude (0.05 * w.2 / w.2) < 0.1) && !decide (magnitude (1024.0 * w.2 / w.2) < 512.0) &&
    !vanishes (0.05 * w.2 / u.2) && !vanishes (1024.0 * w.2 / u.2)

theorem unitsKeep : (unitGroups.all fun group => group.all fun w => group.all fun u => isScale u.2 &&
    decide (u.1.length ≤ w.1.length + 1) &&
    (u.1 == ascii "turn" || keepsOwn w u && (group.length == 2 || keepsOther w u))) := by decide +kernel

variable {group : List (Bytes × Float)} (known : group ∈ unitGroups) {w u : Bytes × Float} (own : w ∈ group) (other : u ∈ group)
include known own other

theorem unitsChecked : (isScale u.2 ∧ u.1.length ≤ w.1.length + 1) ∧
    (u.1 = ascii "turn" ∨ keepsOwn w u ∧ (group.length = 2 ∨ keepsOther w u)) := by
  have checked := all_eq_true.mp (all_eq_true.mp (all_eq_true.mp unitsKeep group known) w own) u other
  simpa only [Bool.and_eq_true,Bool.or_eq_true,decide_eq_true_eq,beq_iff_eq] using checked

theorem unitFactor : ∃ minus n d, parts u.2 = .finite minus n d ∧ n ≠ 0 := by
  have factor := (unitsChecked known own other).1.1
  rw [isScale] at factor
  split at factor
  · rename_i found
    exact ⟨_,_,_,found,bne_iff_ne.mp factor⟩
  · cases factor

omit known own other in
theorem keptBetween {a f b} (low : (parts a).size ≤ (parts f).size) (high : (parts f).size ≤ (parts b).size)
    (least : vanishes a = false) (most : vanishes b = false) : vanishes f = false := by
  rw [vanishesSize] at *
  exact ⟨least.1.trans low,ne_top_of_le_ne_top most.2 high⟩

omit known own other in
theorem sizeTenth : (parts 0.1).size = leastTenth ∧ (parts 256.0).size = (256 : ℚ) := by
  have large : parts 256.0 = .finite false 4503599627370496 (-44) := rfl
  rw [partsTenth,large,Parts.size,Parts.size]
  refine ⟨rfl,?_⟩
  norm_num

theorem ownUnitKept {value} (apart : u.1 ≠ ascii "turn") (visible : vanishes value = false)
    (short : (compactNumber value).length ≤ 2) : vanishes (value * w.2 / u.2) = false := by
  obtain ⟨least,most⟩ := shortVisible visible short
  obtain ⟨_,_,_,size,full⟩ := unitFactor known own own
  obtain ⟨_,_,_,divisor,more⟩ := unitFactor known own other
  have keeps := ((unitsChecked known own other).2.resolve_left apart).1
  rw [keepsOwn,Bool.and_eq_true,Bool.not_eq_true',Bool.not_eq_true'] at keeps
  rw [← sizeTenth.1] at least
  rw [← sizeTenth.2] at most
  exact keptBetween (quotientOrder divisor more (productOrder size full least))
    (quotientOrder divisor more (productOrder size full most)) keeps.1 keeps.2

theorem otherUnitKept {base} (apart : u.1 ≠ ascii "turn") (more : group.length ≠ 2)
    (visible : vanishes (base / w.2) = false) (short : (compactNumber (base / w.2)).length ≤ 2) :
    vanishes (base / u.2) = false := by
  obtain ⟨least,most⟩ := shortVisible visible short
  obtain ⟨_,_,_,size,full⟩ := unitFactor known own own
  obtain ⟨_,_,_,divisor,filled⟩ := unitFactor known own other
  have keeps := ((unitsChecked known own other).2.resolve_left apart).2.resolve_left more
  rw [keepsOther,Bool.and_eq_true,Bool.and_eq_true,Bool.and_eq_true,Bool.not_eq_true',Bool.not_eq_true',
    Bool.not_eq_true',decide_eq_true_eq,decide_eq_false_iff_not] at keeps
  obtain ⟨⟨⟨tenth,top⟩,low⟩,high⟩ := keeps
  have large : parts 512.0 = .finite false 4503599627370496 (-43) := rfl
  rw [magnitudeBelow _ partsTenth] at tenth
  rw [magnitudeBelow _ large,not_lt] at top
  refine keptBetween (quotientOrder divisor filled (le_of_not_ge fun below => ?_))
    (quotientOrder divisor filled (le_of_not_ge fun above => ?_)) low high
  · exact absurd (least.trans (quotientOrder size full below)) (not_le.mpr tenth)
  · have reached := (top.trans (quotientOrder size full above)).trans most
    rw [WithTop.coe_le_coe] at reached
    norm_num at reached

end

def shownNumber : Component → Bytes
  | .number value => compactNumber value
  | .dimension value _ => compactNumber value
  | c => c.text

theorem shownSearched (ctx) {value} (unit) (visible : compactNumber value ≠ [48]) :
    shownNumber (optimizeDimension ctx value unit) = compactNumber (minimizeUnit ctx.aggressive value (canonicalUnit unit)).1 := by
  rw [optimizeDimension]
  split
  · rename_i empty
    rw [List.isEmpty_iff.mp empty]
    rfl
  · dsimp only
    rw [if_neg (by simp [visible])]
    rfl

theorem pairedOther {group : List (Bytes × Float)} (two : group.length = 2) {own w u} (first : own ∈ group)
    (second : w ∈ group) (third : u ∈ group) (apart : w.1 ≠ own.1) (other : u.1 ≠ own.1) : w = u := by
  obtain ⟨a,b,rfl⟩ := length_eq_two.mp two
  simp only [mem_cons,not_mem_nil,or_false] at first second third
  rcases first with rfl | rfl <;> rcases second with rfl | rfl <;> rcases third with rfl | rfl <;> simp_all

theorem chosenVanishes {aggressive value size own group}
    (found : unitGroup? own = some (group,size)) (visible : vanishes value = false) {u} (mem : u ∈ group)
    (tried : isCandidate aggressive own u.1) (lost : vanishes (value * size / u.2)) :
    vanishes (((group.filter fun u => isCandidate aggressive own u.1).map fun u =>
      (value * size / u.2,u.1)).foldl shorter (value,own)).1 := by
  obtain ⟨known,self⟩ := groupFound found
  have apart {u : Bytes × Float} (tried : isCandidate aggressive own u.1) : u.1 ≠ own ∧ u.1 ≠ ascii "turn" := by
    simp only [isCandidate,Bool.and_eq_true,bne_iff_ne] at tried
    exact tried.1
  obtain ⟨chosen,least⟩ := shortestTried (value,own)
    ((group.filter fun u => isCandidate aggressive own u.1).map fun u => (value * size / u.2,u.1))
  have short := least _ (mem_cons_of_mem _ (mem_map.mpr ⟨u,mem_filter.mpr ⟨mem,tried⟩,rfl⟩))
  rw [dimensionLength,dimensionLength,(vanishesPrinted _).mpr lost,length_append,length_append,
    length_singleton] at short
  generalize List.foldl shorter (value,own) _ = winner at *
  by_contra shown
  rw [Bool.not_eq_true] at shown
  rcases mem_cons.mp chosen with rfl | listed
  · have length := (unitsChecked known self mem).1.2
    have kept := ownUnitKept known self mem (apart tried).2 visible (by dsimp only at *; omega)
    rw [lost] at kept
    cases kept
  obtain ⟨w,among,rfl⟩ := mem_map.mp listed
  obtain ⟨inside,also⟩ := mem_filter.mp among
  have length := (unitsChecked known inside mem).1.2
  have two : group.length ≠ 2 := by
    intro two
    obtain rfl := pairedOther two self inside mem (apart also).1 (apart tried).1
    rw [lost] at shown
    cases shown
  have kept := otherUnitKept known inside mem (apart tried).2 two shown (by dsimp only at *; omega)
  rw [lost] at kept
  cases kept

/- A value that is visible is lost exactly where one of the units that are tried shows nothing of it. -/
theorem lostInUnits (ctx : Context) {value : Float} (unit : Bytes) (visible : compactNumber value ≠ [48]) :
    shownNumber (optimizeDimension ctx value unit) = [48] ↔
      ∃ group size, unitGroup? (canonicalUnit unit) = some (group,size) ∧
        (ctx.aggressive = true ∨ isMetric (canonicalUnit unit) = false) ∧
        ∃ u ∈ group, isCandidate ctx.aggressive (canonicalUnit unit) u.1 = true ∧ vanishes (value * size / u.2) = true := by
  have shown : vanishes value = false := by rwa [← Bool.not_eq_true,← vanishesPrinted]
  rw [shownSearched ctx unit visible]
  generalize canonicalUnit unit = own
  rw [minimizeUnit]
  cases found : unitGroup? own with
  | none => simpa using visible
  | some pair =>
    obtain ⟨group,size⟩ := pair
    dsimp only
    by_cases left : (!ctx.aggressive && isMetric own) = true
    · rw [if_pos left]
      simp only [Bool.and_eq_true,Bool.not_eq_true'] at left
      refine iff_of_false visible ?_
      rintro ⟨_,_,_,free | free,_⟩ <;> simp_all
    rw [if_neg left,vanishesPrinted]
    constructor
    · intro lost
      have chosen := (shortestTried (value,own)
        ((group.filter fun u => isCandidate ctx.aggressive own u.1).map fun u => (value * size / u.2,u.1))).1
      rcases mem_cons.mp chosen with same | listed
      · rw [same,shown] at lost
        cases lost
      obtain ⟨u,among,same⟩ := mem_map.mp listed
      obtain ⟨mem,tried⟩ := mem_filter.mp among
      rw [← same] at lost
      exact ⟨group,size,rfl,by simpa [or_iff_not_imp_left] using left,u,mem,tried,lost⟩
    · rintro ⟨_,_,same,_,u,mem,tried,lost⟩
      cases same
      exact chosenVanishes found shown mem tried lost

theorem pixelsLost : compactNumber 0.005 = ascii ".005" ∧
    shownNumber (optimizeDimension {} 0.005 (ascii "px")) = [48] := by
  have spelled : compactNumber 0.005 = ascii ".005" := by decide +kernel
  refine ⟨spelled,(lostInUnits {} (ascii "px") (by rw [spelled]; decide)).mpr ?_⟩
  exact ⟨_,_,rfl,.inr rfl,(ascii "in",96.0),mem_cons_self,rfl,by decide +kernel⟩

end Cascade
