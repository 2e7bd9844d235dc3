import Cascade.Config.Scalar
import Cascade.Proofs.MediaGrammar
import Cascade.Proofs.NameOrder

/-! The colour that a name or digits stand for. -/
namespace Cascade
open List Component

structure Rgba where
  rgb : Rgb
  alpha : Nat
  deriving DecidableEq

def digitPair (high low : Nat) : Nat := 16 * high + low

/- Colours by their digits. In a short one each digit stands for two. -/
def rgbaOf : List Nat → Option Rgba
  | [r,g,b] => some ⟨⟨digitPair r r,digitPair g g,digitPair b b⟩,255⟩
  | [r,g,b,a] => some ⟨⟨digitPair r r,digitPair g g,digitPair b b⟩,digitPair a a⟩
  | [r,s,g,h,b,c] => some ⟨⟨digitPair r s,digitPair g h,digitPair b c⟩,255⟩
  | [r,s,g,h,b,c,a,d] => some ⟨⟨digitPair r s,digitPair g h,digitPair b c⟩,digitPair a d⟩
  | _ => none

def hashColor? : Bytes → Option Rgba
  | 35 :: digits => if digits.all isHexDigit then rgbaOf (digits.map digitValue) else none
  | _ => none

def Component.color? : Component → Option Rgba
  | .hexColor text => hashColor? text
  | .ident name => (namedColors.lookup (lowerAscii name)).bind hashColor?
  | _ => none

structure IsHashColor (text : Bytes) : Prop where
  hash : text.head? = some 35
  digits : text.tail.all isHexDigit = true
  count : text.tail.length ∈ [3,4,6,8]

section
variable {text : Bytes}

theorem lowerDigit (b) : isHexDigit (lowerByte b) = isHexDigit b ∧ digitValue (lowerByte b) = digitValue b := by
  have twice : lowerByte (lowerByte b) = lowerByte b := by grind [lowerByte,isUpperLetter]
  have decimal : isDigit (lowerByte b) = isDigit b ∧ (isDigit b → lowerByte b = b) := by
    grind [lowerByte,isUpperLetter,isDigit]
  constructor
  · grind [isHexDigit,lowerByte,isUpperLetter]
  · rw [digitValue,digitValue,decimal.1,twice]
    split
    · rename_i digit
      rw [decimal.2 digit]
    · rfl

theorem hexDigitSmall {b} (digit : isHexDigit b) : b < 0x80 := by
  grind [isHexDigit,isDigit]

theorem rgbaKnown {values} (count : values.length ∈ [3,4,6,8]) : (rgbaOf values).isSome := by
  rcases values with _ | ⟨a,_ | ⟨b,_ | ⟨c,_ | ⟨d,_ | ⟨e,_ | ⟨f,_ | ⟨g,_ | ⟨h,_ | ⟨i,values⟩⟩⟩⟩⟩⟩⟩⟩⟩
  all_goals simp_all [rgbaOf]

theorem hashKnown (is : IsHashColor text) : (hashColor? text).isSome := by
  obtain ⟨hash,digits,count⟩ := is
  cases text with
  | nil => cases hash
  | cons b text =>
    cases hash
    rw [hashColor?,if_pos (show text.all isHexDigit from digits)]
    exact rgbaKnown (by rwa [length_map])

theorem hashHead (known : (hashColor? text).isSome) : text.head? = some 35 := by
  rw [hashColor?.eq_def] at known
  split at known
  · rfl
  · cases known

theorem lowerHash (hash : text.head? = some 35) : hashColor? (lowerAscii text) = hashColor? text := by
  cases text with
  | nil => rfl
  | cons b digits =>
    cases hash
    have same : (digits.map lowerByte).map digitValue = digits.map digitValue := by
      rw [map_map]
      exact map_congr_left fun b _ => (lowerDigit b).2
    have each : (digits.map lowerByte).all isHexDigit = digits.all isHexDigit := by
      rw [all_map]
      exact congrArg _ (funext fun b => (lowerDigit b).1)
    show (if (digits.map lowerByte).all isHexDigit then rgbaOf ((digits.map lowerByte).map digitValue) else none) = _
    rw [same,each]
    rfl

theorem hashLower (is : IsHashColor text) : lower text = lowerAscii text := by
  refine lowerOfAscii ?_
  obtain ⟨hash,digits,_⟩ := is
  cases text with
  | nil => rfl
  | cons b text =>
    cases hash
    rw [all_cons,Bool.and_eq_true]
    exact ⟨rfl,all_eq_true.mpr fun b mem => decide_eq_true (hexDigitSmall (all_eq_true.mp digits b mem))⟩

theorem shortenedHash (hash : text.head? = some 35) : hashColor? (shortenHex text) = hashColor? text := by
  rw [shortenHex.eq_def]
  split
  · split
    · rename_i pairs
      cases hash
      simp only [Bool.and_eq_true,beq_iff_eq] at pairs
      obtain ⟨⟨rfl,rfl⟩,rfl⟩ := pairs
      simp [hashColor?,rgbaOf]
    · rfl
  · rfl

theorem shortenHexLength (text) : (shortenHex text).length ≤ text.length := by
  rw [shortenHex.eq_def]
  split
  · split <;> simp
  · exact Nat.le_refl _

theorem digitBack {n} (digit : n < 16) : isHexDigit (hexDigit n) ∧ digitValue (hexDigit n) = n := by
  revert n
  decide

theorem rgbHash {c} (red : c.red < 256) (green : c.green < 256) (blue : c.blue < 256) :
    hashColor? c.hex = some ⟨c,255⟩ := by
  have digits : ∀ n, n < 256 → digitPair (n / 16 % 16) (n % 16) = n := by
    intro n byte
    rw [digitPair]
    omega
  have high : ∀ n, n / 16 % 16 < 16 := fun n => Nat.mod_lt _ (by decide)
  have low : ∀ n, n % 16 < 16 := fun n => Nat.mod_lt _ (by decide)
  have hex : c.hex = [35,hexDigit (c.red / 16 % 16),hexDigit (c.red % 16),hexDigit (c.green / 16 % 16),
      hexDigit (c.green % 16),hexDigit (c.blue / 16 % 16),hexDigit (c.blue % 16)] := rfl
  simp [hex,hashColor?,rgbaOf,digitBack (high _),digitBack (low _),digits _ red,digits _ green,digits _ blue]

end

def isColorTable : Bytes → List (Bytes × Bytes) → Bool
  | _,[] => true
  | last,c :: table =>
    before last c.1 && c.1.all isLowerLetter && (hashColor? c.2).isSome && isColorTable c.1 table

theorem namedTable : isColorTable [] namedColors := by decide +kernel

structure ColorEntry (table : List (Bytes × Bytes)) (c : Bytes × Bytes) : Prop where
  letters : c.1.all isLowerLetter = true
  digits : (hashColor? c.2).isSome = true
  found : table.lookup c.1 = some c.2

theorem tableEntry {last table} (ordered : isColorTable last table)
    {c} (mem : c ∈ table) : last < c.1 ∧ ColorEntry table c := by
  induction table generalizing last with
  | nil => cases mem
  | cons first table ih =>
    rw [isColorTable,Bool.and_eq_true,Bool.and_eq_true,Bool.and_eq_true,beforeLex] at ordered
    obtain ⟨⟨⟨behind,letters⟩,digits⟩,rest⟩ := ordered
    rcases mem_cons.mp mem with rfl | mem
    · exact ⟨behind,letters,digits,lookup_cons_self⟩
    obtain ⟨further,entry⟩ := ih rest mem
    refine ⟨List.lt_trans behind further,entry.letters,entry.digits,?_⟩
    have other : (c.1 == first.1) = false := beq_eq_false_iff_ne.mpr fun same => List.lt_irrefl _ (same ▸ further)
    rw [lookup_cons,other]
    exact entry.found

theorem namedEntry {c} (mem : c ∈ namedColors) : ColorEntry namedColors c := (tableEntry namedTable mem).2

section
variable {name hex : Bytes}

theorem lettersLower (letters : name.all isLowerLetter) : lowerAscii name = name ∧ name.all (· < 0x80) := by
  have each : ∀ b, isLowerLetter b → lowerByte b = b ∧ b < 0x80 := by
    intro b
    grind [isLowerLetter,lowerByte,isUpperLetter]
  rw [all_eq_true] at letters
  refine ⟨?_,all_eq_true.mpr fun b mem => decide_eq_true (each b (letters b mem)).2⟩
  exact (map_congr_left fun b mem => (each b (letters b mem)).1).trans (map_id' name)

theorem namedColor (mem : (name,hex) ∈ namedColors) {written} (same : sameLetters written name) :
    (ident written).color? = hashColor? hex := by
  obtain ⟨letters,_,found⟩ := namedEntry mem
  rw [sameLetters,beq_iff_eq,(lettersLower letters).1] at same
  rw [color?,same,found]
  rfl

theorem namedSelf (mem : (name,hex) ∈ namedColors) : (ident name).color? = hashColor? hex :=
  namedColor mem (beq_self_eq_true _)

theorem namedHash (mem : (name,hex) ∈ namedColors) : hex.head? = some 35 := hashHead (namedEntry mem).digits

theorem shorterNameFrom {short} (found : shorterName? short = some name) :
    name.length < short.length ∧ (ident name).color? = hashColor? short := by
  obtain ⟨⟨known,hex⟩,first,rfl⟩ := Option.map_eq_some_iff.mp found
  have mem := mem_of_find?_eq_some first
  have fits := find?_some first
  rw [Bool.and_eq_true,beq_iff_eq,decide_eq_true_eq] at fits
  refine ⟨fits.2,?_⟩
  rw [namedSelf mem,← fits.1]
  exact (shortenedHash (namedHash mem)).symm

theorem colorNameFrom (found : colorName? hex = some name) : (ident name).color? = hashColor? hex := by
  obtain ⟨⟨known,digits⟩,first,rfl⟩ := Option.map_eq_some_iff.mp found
  have same : digits = hex := by simpa using find?_some first
  rw [← same]
  exact namedSelf (mem_of_find?_eq_some first)

end

theorem hashKept {text} (is : IsHashColor text) :
    (optimizeHex text).color? = hashColor? text ∧ (optimizeHex text).text.length ≤ text.length := by
  have small : (lowerAscii text).head? = some 35 := by
    rw [lowerAscii,head?_map,is.hash]
    rfl
  have color : hashColor? (shortenHex (lower text)) = hashColor? text := by
    rw [hashLower is,shortenedHash small,lowerHash is.hash]
  have short : (shortenHex (lower text)).length ≤ text.length := by
    rw [hashLower is]
    exact (lowerAsciiLength text).symm ▸ shortenHexLength (lowerAscii text)
  rw [optimizeHex]
  split
  · rename_i name found
    obtain ⟨shorter,same⟩ := shorterNameFrom found
    exact ⟨same.trans color,Nat.le_trans (Nat.le_of_lt shorter) short⟩
  · exact ⟨color,short⟩

theorem nameKept {known} (mem : known ∈ namedColors) {written}
    (same : sameLetters written known.1) (op) : ∃ made, shortenName ⟨op,.ident written⟩ = ⟨op,made⟩ ∧
      made.color? = hashColor? known.2 ∧ made.text.length ≤ written.length := by
  obtain ⟨letters,_,found⟩ := namedEntry mem
  obtain ⟨lowered,small⟩ := lettersLower letters
  have length := congrArg List.length (beq_iff_eq.mp same)
  rw [lowerAsciiLength,lowerAsciiLength] at length
  rw [shortenName]
  dsimp only
  rw [letterCase same small lowered,shorterHex?,found]
  dsimp only
  by_cases shorter : (shortenHex known.2).length < known.1.length
  · rw [if_pos shorter]
    exact ⟨_,rfl,shortenedHash (namedHash mem),length.symm ▸ Nat.le_of_lt shorter⟩
  · rw [if_neg shorter]
    exact ⟨_,rfl,namedColor mem same,Nat.le_refl _⟩

theorem componentsKept {c : Rgb} (red : c.red < 256) (green : c.green < 256) (blue : c.blue < 256) :
    (c.shortest 1.0).color? = some ⟨c,255⟩ := by
  have full : 1.0 - closeness < (1.0 : Float) := by
    show decide (1.0 - closeness < (1.0 : Float))
    rfl
  have color := rgbHash red green blue
  have short : hashColor? (shortenHex c.hex) = some ⟨c,255⟩ := (shortenedHash rfl).trans color
  rw [Rgb.shortest,if_pos full]
  dsimp only
  split
  · rename_i found
    exact (shorterNameFrom found).2.trans short
  · rename_i found
    split
    · exact (colorNameFrom found).trans color
    · exact short
  · exact short

/- Every spelling that is made of a colour stands for it: of digits behind a hash sign, of a name in any
case, and of the three components of an opaque colour. Digits and names do not become longer. -/
theorem colorsKept (ctx : Context) :
    (∀ text, IsHashColor text → ∃ color made, (hexColor text).color? = some color ∧
      ((hexColor text).optimize ctx).value = ⟨made,true⟩ ∧ made.color? = some color ∧
      made.text.length ≤ text.length) ∧
    (∀ known ∈ namedColors, ∀ name, sameLetters name known.1 = true → ∀ op, ∃ color made,
      (ident name).color? = some color ∧ hashColor? known.2 = some color ∧
      shortenName ⟨op,.ident name⟩ = ⟨op,made⟩ ∧ made.color? = some color ∧ made.text.length ≤ name.length) ∧
    ∀ c : Rgb, c.red < 256 → c.green < 256 → c.blue < 256 → (c.shortest 1.0).color? = some ⟨c,255⟩ := by
  refine ⟨fun text is => ?_,fun known mem name same op => ?_,fun c red green blue => componentsKept red green blue⟩
  · obtain ⟨color,shown⟩ := Option.isSome_iff_exists.mp (hashKnown is)
    obtain ⟨kept,short⟩ := hashKept is
    exact ⟨color,optimizeHex text,shown,rfl,kept.trans shown,short⟩
  · obtain ⟨color,shown⟩ := Option.isSome_iff_exists.mp (namedEntry mem).digits
    obtain ⟨made,becomes,kept,short⟩ := nameKept mem same op
    exact ⟨color,made,(namedColor mem same).trans shown,shown,becomes,kept.trans shown,short⟩

theorem spelledColors :
    (∃ made, IsHashColor (ascii "#FF0000") ∧ ((hexColor (ascii "#FF0000")).optimize {}).value = ⟨made,true⟩ ∧
      made.color? = some ⟨⟨255,0,0⟩,255⟩ ∧ made.text.length ≤ 7) ∧
    (∃ made, sameLetters (ascii "AliceBlue") (ascii "aliceblue") = true ∧
      shortenName ⟨0,.ident (ascii "AliceBlue")⟩ = ⟨0,made⟩ ∧ made.color? = some ⟨⟨240,248,255⟩,255⟩ ∧ made.text.length ≤ 9) ∧
    (Rgb.shortest ⟨0,255,255⟩ 1.0).color? = some ⟨⟨0,255,255⟩,255⟩ := by
  obtain ⟨hashes,names,components⟩ := colorsKept {}
  have red : IsHashColor (ascii "#FF0000") := ⟨rfl,rfl,by decide⟩
  obtain ⟨color,made,shown,becomes,kept,short⟩ := hashes _ red
  obtain ⟨pale,named,_,digits,shortened,stays,fits⟩ := names (ascii "aliceblue",ascii "#f0f8ff") mem_cons_self
    (ascii "AliceBlue") (by decide) 0
  cases (show hashColor? (ascii "#FF0000") = some ⟨⟨255,0,0⟩,255⟩ by decide).symm.trans shown
  cases (show hashColor? (ascii "#f0f8ff") = some ⟨⟨240,248,255⟩,255⟩ by decide).symm.trans digits
  exact ⟨⟨made,red,becomes,kept,short⟩,⟨named,by decide,shortened,stays,fits⟩,
    components ⟨0,255,255⟩ (by decide) (by decide) (by decide)⟩

end Cascade
