import Cascade.Text.Bytes

/-! The order of names in which numbers inside them count by their value. -/
namespace Cascade

def afterShared : Bytes → Bytes → Bytes × Bytes
  | a :: as,b :: bs =>
    if a == b && !isDigit a then afterShared as bs else (a :: as,b :: bs)
  | as,bs => (as,bs)

def numeral (digits : Bytes) : Option Nat :=
  let n := digitsValue digits
  if digits.isEmpty || wordLimit ≤ n then none else some n

def leadingNumber (s : Bytes) : Bytes × Bytes := (s.takeWhile isDigit,s.dropWhile isDigit)

def naturallyUpTo : Nat → Bytes → Bytes → Bool
  | 0,a,b => before a b
  | count + 1,a,b =>
    match afterShared a b with
    | ([],rest) => !rest.isEmpty
    | (a,b) =>
      let (m,as) := leadingNumber a
      let (n,bs) := leadingNumber b
      match numeral m,numeral n with
      | some x,some y =>
        if x ≠ y then x < y
        else if as.isEmpty || bs.isEmpty then before a b
        else naturallyUpTo count as bs
      | _,_ => before a b

/-- Equal numbers are passed over if text follows both; numbers too large to count are compared as text. -/
def comesBefore (a b : Bytes) : Bool := naturallyUpTo (a.length + 1) a b

end Cascade
