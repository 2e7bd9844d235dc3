import Cascade.Text.Scalars

/-! Lower case, character by character. -/
namespace Cascade

/-- Capitals one by one, each with how far its small letter lies from it. -/
def loneCapitals : List (Nat × Int) := [
  (304,-199),(376,-121),(385,210),(390,206),(391,1),(395,1),(398,79),(399,202),(400,203),(401,1),(403,205),(404,207),
  (406,211),(407,209),(408,1),(412,211),(413,213),(415,214),(422,218),(423,1),(425,218),(428,1),(430,218),(431,1),
  (439,219),(440,1),(444,1),(452,2),(453,1),(455,2),(456,1),(458,2),(497,2),(502,-97),(503,-56),(544,-130),
  (570,10795),(571,1),(573,-163),(574,10792),(577,1),(579,-195),(580,69),(581,71),(886,1),(895,116),(902,38),(908,64),
  (975,8),(1012,-60),(1015,1),(1017,-7),(1018,1),(1216,15),(4295,7264),(4301,7264),(7838,-7615),(8025,-8),(8027,-8),
  (8029,-8),(8031,-8),(8124,-9),(8140,-9),(8172,-7),(8188,-9),(8486,-7517),(8490,-8383),(8491,-8262),(8498,28),
  (8579,1),(11360,1),(11362,-10743),(11363,-3814),(11364,-10727),(11373,-10780),(11374,-10749),(11375,-10783),
  (11376,-10782),(11378,1),(11381,1),(11506,1),(42877,-35332),(42891,1),(42893,-42280),(42922,-42308),(42923,-42319),
  (42924,-42315),(42925,-42305),(42926,-42308),(42928,-42258),(42929,-42282),(42930,-42261),(42931,928),(42948,-48),
  (42949,-42307),(42950,-35384),(42960,1),(42997,1)]

/-- The first and the last of capitals in a row, with how far their small letters lie from them. -/
def capitalRuns : List (Nat × Nat × Int) := [
  (65,90,32),(192,214,32),(216,222,32),(393,394,205),(433,434,217),(904,906,37),(910,911,63),(913,929,32),
  (931,939,32),(1021,1023,-130),(1024,1039,80),(1040,1071,32),(1329,1366,48),(4256,4293,7264),(5024,5103,38864),
  (5104,5109,8),(7312,7354,-3008),(7357,7359,-3008),(7944,7951,-8),(7960,7965,-8),(7976,7983,-8),(7992,7999,-8),
  (8008,8013,-8),(8040,8047,-8),(8072,8079,-8),(8088,8095,-8),(8104,8111,-8),(8120,8121,-8),(8122,8123,-74),
  (8136,8139,-86),(8152,8153,-8),(8154,8155,-100),(8168,8169,-8),(8170,8171,-112),(8184,8185,-128),(8186,8187,-126),
  (8544,8559,16),(9398,9423,26),(11264,11311,48),(11390,11391,-10815),(65313,65338,32),(66560,66599,40),
  (66736,66771,40),(66928,66938,39),(66940,66954,39),(66956,66962,39),(66964,66965,39),(68736,68786,64),
  (71840,71871,32),(93760,93791,32),(125184,125217,34)]

/-- The first and the last of capitals that each stand before their small letter. -/
def capitalPairs : List (Nat × Nat) := [
  (256,302),(306,310),(313,327),(330,374),(377,381),(386,388),(416,420),(435,437),(459,475),(478,494),(498,500),
  (504,542),(546,562),(582,590),(880,882),(984,1006),(1120,1152),(1162,1214),(1217,1229),(1232,1326),(7680,7828),
  (7840,7934),(11367,11371),(11392,11490),(11499,11501),(42560,42604),(42624,42650),(42786,42798),(42802,42862),
  (42873,42875),(42878,42886),(42896,42898),(42902,42920),(42932,42946),(42951,42953),(42966,42968)]

/-- A row has the first and the last capital of a run, their distance, and how far their small letters lie from them. -/
def capitals : List (Nat × Nat × Nat × Int) :=
  loneCapitals.map (fun (c,step) => (c,c,1,step)) ++ capitalRuns.map (fun (first,last,step) => (first,last,1,step)) ++
    capitalPairs.map fun (first,last) => (first,last,2,(1 : Int))

def lowerScalar (c : Nat) : Nat :=
  match capitals.find? fun r => r.1 ≤ c && c ≤ r.2.1 && (c - r.1) % r.2.2.1 == 0 with
  | some r => (c + r.2.2.2).toNat
  | none => c

def lower (s : Bytes) : Bytes :=
  if s.all (· < 0x80) then lowerAscii s
  else encodeAll ((scalars s).map lowerScalar)

theorem lowerOfAscii {s : Bytes} (h : s.all (· < 0x80) = true) : lower s = lowerAscii s := by
  rw [lower,if_pos h]

end Cascade
