import Cascade.Property.Shorthand
import Cascade.Property.Vendor
import Cascade.Component.Basic

/-! Properties that may set the same thing under different names. -/
namespace Cascade

def familyAliases : List (Bytes × Bytes) :=
  [(ascii "top",ascii "inset"),(ascii "right",ascii "inset"),(ascii "bottom",ascii "inset"),
    (ascii "left",ascii "inset"),(ascii "gap",ascii "grid"),(ascii "place",ascii "align")]

/-- A name without a vendor's mark; of a character of several bytes behind it only the last one is kept. -/
def withoutVendor (name : Bytes) : Bytes :=
  if isVendored name then
    let rest := name.drop (vendorMark name).length
    rest.drop (((characters rest).head?.map fun c => c.2.length - 1).getD 0)
  else name

def propertyFamily (name : Bytes) : Bytes :=
  if Declaration.isCustomName name then name
  else
    let word := (withoutVendor name).takeWhile (· != 45)
    (familyAliases.lookup word).getD word

def propertiesInteract (a b : Bytes) : Bool :=
  a == b || a == ascii "all" || b == ascii "all" || (shorthandsOf a).contains b ||
    (shorthandsOf b).contains a || propertyFamily a == propertyFamily b

end Cascade
