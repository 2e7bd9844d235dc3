import Cascade.Text.Scalars

/-! The marks that browser vendors put before names of their own. -/
namespace Cascade

def vendorMark (name : Bytes) : Bytes :=
  match name with
  | 45 :: rest =>
    let letters := rest.takeWhile isLowerLetter
    match rest.drop letters.length with
    | 45 :: _ => if letters.isEmpty then [] else 45 :: letters ++ [45]
    | _ => []
  | _ => []

def isVendored (name : Bytes) : Bool :=
  let mark := vendorMark name
  match mark,name.drop mark.length with
  | _ :: _,b :: _ => b != 10
  | _,_ => false

end Cascade
