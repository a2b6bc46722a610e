import TreeEdits.Decimal.Shortest

/-!
# TreeEdits.Json.Value

JSON values. Members keep the order in which they are written, and one key may stand twice; a number
is a whole number or a floating point number, never both.

* `Json`: the values.
* `Number.text`: a number written out.
-/

namespace TreeEdits

inductive Number where
  | int (n : Int)
  | float (x : Float)

namespace Number

/-- Floating point numbers are written positionally from `10 ^ (-5)` to below `10 ^ 16`, otherwise
with an exponent. -/
def layout : Decimal.Layout := ⟨-5, 15⟩

/-- The decimal digits of a whole number, with its sign if it is negative. -/
def ofInt (n : Int) : List Char :=
  if n < 0 then '-' :: Nat.toDigits 10 n.natAbs else Nat.toDigits 10 n.natAbs

def text : Number → List Char
  | .int n => ofInt n
  | .float x => (layout.ofFloat x).toList

end Number

inductive Json where
  | null
  | bool (b : Bool)
  | number (n : Number)
  | str (s : String)
  | arr (items : List Json)
  | obj (members : List (String × Json))

def Json.nat (n : Nat) : Json := .number (.int n)

end TreeEdits
