import Cascade.Text.Scalars

/-! The order of names in a declaration block: by letters and punctuation, then by accents, then by case, small letters
first. Each character has weights on these three levels; a weight of zero is passed over. -/
namespace Cascade

structure Weight where
  primary : Nat
  secondary : Nat
  tertiary : Nat
  deriving DecidableEq, Repr

/-- Small letters, with their capitals and their primary weights. -/
def letters : List (Char × Char × Nat) :=
  "abcdefghijklmnopqrstuvwxyz".toList.zip ("ABCDEFGHIJKLMNOPQRSTUVWXYZ".toList.zip [
  8098,8124,8150,8171,8199,8258,8273,8309,8336,8363,8388,8406,8457,8472,8508,8555,8576,8595,8658,8695,8727,8775,8793,
  8804,8816,8838]) ++
  "þŋŧͱͳͷͻͼͽαβγδεζηθικλμνξοπρστυφχψωϙϛϝϟϡϣϥϧϩϫϭϯϳϸϻабвгдежзийклмнопрстуфхцчшщъыьэюяђєѕіјљњћџ".toList.zip (
  "ÞŊŦͰͲͶϽϾϿΑΒΓΔΕΖΗΘΙΚΛΜΝΞΟΠΡΣΤΥΦΧΨΩϘϚϜϞϠϢϤϦϨϪϬϮͿϷϺАБВГДЕЖЗИЙКЛМНОПРСТУФХЦЧШЩЪЫЬЭЮЯЂЄЅІЈЉЊЋЏ".toList.zip [
  8885,8503,8700,9000,9033,8997,9022,9021,9023,8990,8991,8992,8994,8995,8999,9001,9002,9003,9005,9006,9008,9009,9010,
  9011,9012,9017,9020,9024,9025,9026,9027,9028,9030,9016,8998,8996,9015,9032,9066,9071,9072,9075,9082,9085,9089,9004,
  9034,9014,9095,9107,9111,9115,9135,9151,9159,9169,9189,9202,9211,9237,9256,9265,9292,9300,9313,9322,9331,9346,9363,
  9367,9406,9417,9448,9453,9460,9465,9469,9482,9486,9492,9141,9155,9177,9197,9206,9249,9287,9342,9444])

/-- Other characters in runs with consecutive primary weights: the first, the last, and the weight of the first. -/
def signs : List (Nat × Nat × Nat) := [
  (45,45,525),(9,13,513),(32,32,521),(33,33,615),(34,34,797),(35,35,940),(36,36,8036),(37,37,941),(38,38,937),
  (39,39,790),(40,41,808),(42,42,929),(43,43,1638),(44,44,547),(46,46,638),(47,47,934),(48,57,8088),(58,58,576),
  (59,59,570),(60,62,1642),(63,63,621),(64,64,928),(91,91,810),(92,92,935),(93,93,811),(94,94,1207),(95,95,523),
  (96,96,1204),(123,123,812),(124,124,1646),(125,125,813),(126,126,1648),(133,133,518),(161,161,616),(162,162,8035),
  (163,163,8037),(164,164,8034),(165,165,8038),(166,166,1647),(167,167,922),(168,168,1211),(169,169,1490),
  (171,171,806),(172,172,1645),(174,174,1492),(175,175,1208),(176,176,1322),(177,177,1639),(180,180,1205),
  (182,182,924),(183,183,659),(184,184,1214),(187,187,807),(191,191,622),(215,215,1641),(247,247,1640),(305,305,8340),
  (312,312,8591),(884,885,1221),(894,894,570),(900,900,1205),(903,903,659),(1014,1014,1633),(1020,1020,9019)]

/-- The secondary weights of the accents from U+0300 on. -/
def accents : List Nat := [
  37,36,39,45,50,58,38,46,43,59,41,44,40,51,51,60,61,62,51,34,35,51,52,52,52,52,51,63,52,52,52,52,52,64,65,66,67,68,
  69,48,49,52,52,52,52,70,71,52,72,73,33,52,74,57,53,53,47,75,52,52,52,51,51,51,37,36,42,34]

/-- Runs of characters with consecutive primary weights: first, last, the weight of the first, and the other two. -/
def weightRuns : List (Nat × Nat × Nat × Nat × Nat) :=
  (signs.map fun (first,last,p) => (first,last,p,32,2)) ++
  (letters.flatMap fun (small,capital,p) => [(small.toNat,small.toNat,p,32,2),(capital.toNat,capital.toNat,p,32,8)]) ++
  accents.zipIdx.map (fun (s,i) => (768 + i,768 + i,0,s,2)) ++ [
  (0,8,0,0,0),(14,31,0,0,0),(127,132,0,0,0),(134,159,0,0,0),(160,160,521,32,27),(170,170,8098,32,20),(173,173,0,0,0),
  (178,179,8090,32,20),(181,181,9008,32,4),(185,185,8089,32,20),(186,186,8508,32,20),(890,890,9003,32,4),
  (962,962,9020,32,25),(976,976,8991,32,4),(977,977,9002,32,4),(978,978,9025,32,10),(981,981,9026,32,4),
  (982,982,9012,32,4),(1008,1008,9005,32,4),(1009,1009,9017,32,4),(1010,1010,9020,32,4),(1012,1012,9002,32,10),
  (1013,1013,8995,32,4),(1017,1017,9020,32,10),(837,837,0,76,2)]

/-- Letters with an accent, by the accent, and the letters that bear it. -/
def accented : List (Nat × String × String) := [
  (768,"ÀÈÌÒÙàèìòùЀЍѐѝ","AEIOUaeiouЕИеи"),
  (769,"ÁÉÍÓÚÝáéíóúýĆćĹĺŃńŔŕŚśŹź΅ΆΈΉΊΌΎΏάέήίόύώϓЃЌѓќ","AEIOUYaeiouyCcLlNnRrSsZz¨ΑΕΗΙΟΥΩαεηιουωϒГКгк"),
  (770,"ÂÊÎÔÛâêîôûĈĉĜĝĤĥĴĵŜŝŴŵŶŷ","AEIOUaeiouCcGgHhJjSsWwYy"),
  (771,"ÃÑÕãñõĨĩŨũ","ANOanoIiUu"),
  (776,"ÄËÏÖÜäëïöüÿŸΪΫϊϋϔЁЇёї","AEIOUaeiouyYΙΥιυϒЕІеі"),
  (778,"ÅåŮů","AaUu"),
  (807,"ÇçĢģĶķĻļŅņŖŗŞşŢţ","CcGgKkLlNnRrSsTt"),
  (772,"ĀāĒēĪīŌōŪū","AaEeIiOoUu"),
  (774,"ĂăĔĕĞğĬĭŎŏŬŭЎў","AaEeGgIiOoUuУу"),
  (808,"ĄąĘęĮįŲų","AaEeIiUu"),
  (775,"ĊċĖėĠġİŻż","CcEeGgIZz"),
  (780,"ČčĎďĚěĽľŇňŘřŠšŤťŽž","CcDdEeLlNnRrSsTtZz"),
  (779,"ŐőŰű","OoUu")]

def compositions : List (Nat × List Nat) :=
  [(912,[953,776,769]),(944,[965,776,769]),(836,[776,769])] ++
    accented.flatMap fun (accent,whole,bare) =>
      (whole.toList.zip bare.toList).map fun (c,letter) => (c.toNat,[letter.toNat,accent])

def expansions : List (Nat × List (Nat × Nat × Nat)) := [
  (188,[(8089,32,30),(1654,32,30),(8092,32,30)]),(189,[(8089,32,30),(1654,32,30),(8090,32,30)]),
  (190,[(8091,32,30),(1654,32,30),(8092,32,30)]),(198,[(8098,32,10),(0,280,4),(8199,32,10)]),
  (208,[(8171,32,10),(0,280,4)]),(216,[(8508,32,8),(0,47,2)]),(223,[(8658,32,4),(0,280,4),(8658,32,4)]),
  (230,[(8098,32,4),(0,280,4),(8199,32,4)]),(240,[(8171,32,4),(0,280,4)]),(248,[(8508,32,2),(0,47,2)]),
  (272,[(8171,32,8),(0,57,2)]),(273,[(8171,32,2),(0,57,2)]),(294,[(8309,32,8),(0,57,2)]),(295,[(8309,32,2),(0,57,2)]),
  (306,[(8336,32,10),(8363,32,10)]),(307,[(8336,32,4),(8363,32,4)]),(319,[(8406,32,8),(0,280,2)]),
  (320,[(8406,32,2),(0,280,2)]),(321,[(8406,32,8),(0,57,2)]),(322,[(8406,32,2),(0,57,2)]),
  (329,[(8931,32,4),(8472,32,4)]),(338,[(8508,32,10),(0,280,4),(8199,32,10)]),
  (339,[(8508,32,4),(0,280,4),(8199,32,4)]),(383,[(8658,32,4),(0,281,4)]),
  (975,[(9005,32,10),(8990,32,4),(9003,32,4)]),(983,[(9005,32,4),(8990,32,4),(9003,32,4)])]

def isSymbol (c : Nat) : Bool :=
  (0x2000 ≤ c && c ≤ 0x2BFF) || (0x3000 ≤ c && c ≤ 0x303F) || (0x1F000 ≤ c && c ≤ 0x1FBFF)

/-- A character outside the tables goes by its number: symbols before currencies and digits, others at the end. -/
def unlistedWeight (c : Nat) : Weight :=
  ⟨(if isSymbol c then 0x1000 else 0xFB40) * 0x200000 + c,0x20,2⟩

def ofRun (c : Nat) : Nat × Nat × Nat × Nat × Nat → Option Weight
  | (first,last,p,s,t) =>
    if first ≤ c && c ≤ last then
      some ⟨if p = 0 then 0 else (p + (c - first)) * 0x200000,s,t⟩
    else none

def simpleWeight (c : Nat) : Weight := (weightRuns.findSome? (ofRun c)).getD (unlistedWeight c)

def weights (c : Nat) : List Weight :=
  match weightRuns.findSome? (ofRun c) with
  | some w => [w]
  | none =>
    match compositions.lookup c,expansions.lookup c with
    | some parts,_ => parts.map simpleWeight
    | none,some elements => elements.map fun (p,s,t) => ⟨p * 0x200000,s,t⟩
    | none,none => [unlistedWeight c]

def collationKey (name : Bytes) : List Weight := (scalars name).flatMap weights

def levelWeights (weight : Weight → Nat) (key : List Weight) : List Nat :=
  (key.map weight).filter (· ≠ 0)

def compareLevel : List Nat → List Nat → Ordering
  | [],[] => .eq
  | [],_ :: _ => .lt
  | _ :: _,[] => .gt
  | a :: as,b :: bs => (compare a b).then (compareLevel as bs)

def compareBytes : Bytes → Bytes → Ordering
  | [],[] => .eq
  | [],_ :: _ => .lt
  | _ :: _,[] => .gt
  | a :: as,b :: bs => (compare a b).then (compareBytes as bs)

/-- Names that weigh the same on every level are told apart by their bytes. -/
def collate (a b : Bytes) : Ordering :=
  let k := collationKey a
  let l := collationKey b
  (compareLevel (levelWeights Weight.primary k) (levelWeights Weight.primary l)).then <|
    (compareLevel (levelWeights Weight.secondary k) (levelWeights Weight.secondary l)).then <|
      (compareLevel (levelWeights Weight.tertiary k) (levelWeights Weight.tertiary l)).then (compareBytes a b)

end Cascade
