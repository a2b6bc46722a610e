/-!
# TreeEdits.Decimal.Shortest

The decimal text of a binary floating point number. A number is decoded into `m * 2 ^ q`; the reals
that round to it form an interval around it, whose ends belong to it iff `m` is even. Of all grids
`10 ^ k` the coarsest one with a point in that interval gives the fewest digits; of two such points
the nearer one is taken, and of two equally near ones the even one.

* `Binary.ofFloat`: the decoded number.
* `Binary.shortest`: the digits and the power of ten of the shortest decimal.
* `Layout.text`: a decimal written out, positionally or with an exponent.
-/

namespace TreeEdits
namespace Decimal

/-- The magnitude `m * 2 ^ q` of a finite binary number. `atPower` says that the number below it is
only half as far away as the number above it. -/
structure Binary where
  m : Nat
  q : Int
  atPower : Bool

/-- The sign of a number and its magnitude. Neither infinities nor numbers that are none have one.
-/
def Binary.ofFloat (x : Float) : Bool × Binary :=
  let bits : Nat := x.toBits.toNat
  let fraction : Nat := bits % Nat.pow 2 52
  let exponent : Nat := bits / Nat.pow 2 52 % Nat.pow 2 11
  (decide (Nat.pow 2 63 ≤ bits),
    if exponent = 0 then ⟨fraction, -1074, false⟩
    else ⟨Nat.pow 2 52 + fraction, (exponent : Int) - 1075, fraction == 0 && exponent != 1⟩)

namespace Binary

/-- The least multiple of a quarter unit `2 ^ (q - 2)` that may round to the number. -/
def low (b : Binary) : Nat := if b.atPower then 4 * b.m - 1 else 4 * b.m - 2

/-- The greatest multiple of a quarter unit that may round to the number. -/
def high (b : Binary) : Nat := 4 * b.m + 2

/-- A quarter unit and the step of the grid `10 ^ k`, both multiplied by one number that makes them
whole. -/
def scales (b : Binary) (k : Int) : Nat × Nat :=
  (Nat.pow 2 (b.q - 2).toNat * Nat.pow 10 (-k).toNat,
    Nat.pow 10 k.toNat * Nat.pow 2 (2 - b.q).toNat)

/-- The point of the grid `10 ^ k` that rounds to the number, if there is one: the nearest, and the
even one of two. -/
def point? (b : Binary) (k : Int) : Option Nat :=
  let (unit, step) := b.scales k
  let inside (c : Nat) : Bool :=
    if b.m % 2 = 0 then b.low * unit ≤ c * step && c * step ≤ b.high * unit
    else b.low * unit < c * step && c * step < b.high * unit
  let value := 4 * b.m * unit
  let below := value / step
  let above := below + 1
  match inside below, inside above with
  | false, false => none
  | true, false => some below
  | false, true => some above
  | true, true =>
    let toBelow := value - below * step
    let toAbove := above * step - value
    if toBelow < toAbove then some below
    else if toAbove < toBelow then some above
    else if below % 2 = 0 then some below else some above

/-- The finest grid that is ever needed: the least positive number is close to `5 * 10 ^ (-324)`. -/
def finest : Int := -324

/-- The first point met on the grids from `10 ^ (finest + n)` down to `10 ^ finest`. -/
def coarsest (b : Binary) : Nat → Nat × Int
  | 0 => ((b.point? finest).getD 0, finest)
  | n + 1 =>
    match b.point? (finest + (n + 1 : Nat)) with
    | some c => (c, finest + (n + 1 : Nat))
    | none => coarsest b n

/-- The shortest decimal `c * 10 ^ k` that rounds to the number, as `(c, k)`. -/
def shortest (b : Binary) : Nat × Int :=
  if b.m = 0 then (0, 0) else b.coarsest 632

end Binary

/-- How a decimal is written: the exponents of its leading digit that are written positionally. -/
structure Layout where
  lowest : Int
  highest : Int

namespace Layout

/-- The text of `c * 10 ^ k`. Positional text always has a point with a digit after it; an exponent
always has its sign, and no zero in front. -/
def text (l : Layout) (negative : Bool) (c : Nat) (k : Int) : String :=
  let ds := Nat.toDigits 10 c
  let e := k + ds.length - 1
  let zeros (n : Int) : List Char := List.replicate n.toNat '0'
  let magnitude : List Char :=
    if l.lowest ≤ e ∧ e ≤ l.highest then
      if e < 0 then '0' :: '.' :: (zeros (-e - 1) ++ ds)
      else if 0 ≤ k then ds ++ zeros k ++ ['.', '0']
      else ds.take (e + 1).toNat ++ '.' :: ds.drop (e + 1).toNat
    else
      let fraction := match ds.drop 1 with
        | [] => []
        | rest => '.' :: rest
      ds.take 1 ++ fraction ++ 'e' :: (if e < 0 then '-' else '+') :: Nat.toDigits 10 e.natAbs
  String.ofList (if negative then '-' :: magnitude else magnitude)

def ofFloat (l : Layout) (x : Float) : String :=
  let (negative, b) := Binary.ofFloat x
  let (c, k) := b.shortest
  l.text negative c k

end Layout

end Decimal
end TreeEdits
