import TreeEdits.Json.Scan

/-!
# TreeEdits.Json.Numeral

Numbers. A whole number that fits in 64 bits is exact. Any other number becomes a floating point
number: its digits, as many as fit in 64 bits, are rounded and then scaled by a power of ten, which
rounds again.

* `readDigits`, `readFraction`: runs of digits.
* `scaled`: the floating point number of digits and an exponent.
* `readNumber`: a number after its sign.
-/

namespace TreeEdits

def digitValue (c : Char) : Nat := c.toNat - '0'.toNat

/-- The first number that does not fit in 64 bits. -/
def wordLimit : Nat := Nat.pow 2 64

/-- Reads the digits of a whole number after `n`. Once a digit would pass 64 bits, it and all after
it are only counted. -/
def readDigits (n : Nat) : List Char → Nat × Nat × List Char
  | [] => (n, 0, [])
  | c :: s =>
    if c.isDigit then
      if 10 * n + digitValue c < wordLimit then readDigits (10 * n + digitValue c) s
      else (n, ((c :: s).takeWhile Char.isDigit).length, (c :: s).dropWhile Char.isDigit)
    else (n, 0, c :: s)

/-- Reads the digits after a decimal point, each of which lowers the exponent by one. Once a digit
would pass 64 bits, it and all after it are dropped. -/
def readFraction (n : Nat) (exponent : Int) : List Char → Nat × Int × List Char
  | [] => (n, exponent, [])
  | c :: s =>
    if c.isDigit then
      if 10 * n + digitValue c < wordLimit then
        readFraction (10 * n + digitValue c) (exponent - 1) s
      else (n, exponent, (c :: s).dropWhile Char.isDigit)
    else (n, exponent, c :: s)

/-- `n * 10 ^ e` as a floating point number, rounded at each step; none if it is too large. Powers
of ten up to 308 are at hand, so an exponent below -308 takes two divisions. -/
def scaled (n : Nat) (e : Int) : Option Float :=
  let x := Float.ofNat n
  let power (k : Nat) : Float := Float.ofScientific 1 false k
  if n = 0 then some x
  else if 308 < e then none
  else if 0 ≤ e then
    let y := x * power e.toNat
    if y.isInf then none else some y
  else if -308 ≤ e then some (x / power e.natAbs)
  else if -616 ≤ e then some (x / power 308 / power (e.natAbs - 308))
  else some 0

/-- The floating point number `n * 10 ^ e` with the given sign, read before `s`. -/
def floatBefore (positive : Bool) (n : Nat) (e : Int) : Step Number := fun s =>
  match scaled n e with
  | some x => .ok (.float (if positive then x else -x), s)
  | none => .error (.here .numberOutOfRange s)

/-- Exponents end before this number. -/
def exponentLimit : Nat := Nat.pow 2 31

/-- Reads the digits of an exponent after `k`. One that is too large gives zero or is out of range,
depending on its sign and on `n`. -/
def readExponentDigits (positive : Bool) (n : Nat) (e : Int) (up : Bool) (k : Nat) : Step Number
  | [] => floatBefore positive n (if up then e + k else e - k) []
  | c :: s =>
    if c.isDigit then
      if 10 * k + digitValue c < exponentLimit then
        readExponentDigits positive n e up (10 * k + digitValue c) s
      else if n ≠ 0 ∧ up then .error (.here .numberOutOfRange s)
      else .ok (.float (if positive then 0 else -0), s.dropWhile Char.isDigit)
    else floatBefore positive n (if up then e + k else e - k) (c :: s)

/-- Reads the first digit of an exponent and all after it. -/
def readUnsignedExponent (positive : Bool) (n : Nat) (e : Int) (up : Bool) : Step Number
  | [] => .error (.here .endInValue [])
  | c :: s =>
    if c.isDigit then readExponentDigits positive n e up (digitValue c) s
    else .error (.next .invalidNumber (c :: s))

/-- Reads the exponent of `n * 10 ^ e` after its letter. -/
def readExponent (positive : Bool) (n : Nat) (e : Int) : Step Number
  | '+' :: s => readUnsignedExponent positive n e true s
  | '-' :: s => readUnsignedExponent positive n e false s
  | s => readUnsignedExponent positive n e true s

/-- Reads the exponent of `n * 10 ^ e`, if one follows. -/
def readOptionalExponent (positive : Bool) (n : Nat) (e : Int) : Step Number
  | 'e' :: s => readExponent positive n e s
  | 'E' :: s => readExponent positive n e s
  | s => floatBefore positive n e s

/-- Reads the digits after a decimal point, of which there has to be one, and the exponent. -/
def readDecimals (positive : Bool) (n : Nat) (e : Int) : Step Number
  | [] => .error (.next .endInValue [])
  | c :: s =>
    if c.isDigit then
      let (n, e, rest) := readFraction n e (c :: s)
      readOptionalExponent positive n e rest
    else .error (.next .invalidNumber (c :: s))

/-- The greatest magnitude of a negative number that fits in 64 bits. -/
def negativeLimit : Nat := Nat.pow 2 63

/-- A whole number with its sign. Minus zero and numbers below the range of 64 bits with a sign are
floating point numbers. -/
def Number.ofDigits (positive : Bool) (n : Nat) : Number :=
  if positive then .int n
  else if n = 0 ∨ negativeLimit < n then .float (-Float.ofNat n)
  else .int (-n)

/-- Reads what follows the whole digits `n`, of which `dropped` more did not fit. -/
def readTail (positive : Bool) (n dropped : Nat) : Step Number
  | '.' :: s => readDecimals positive n dropped s
  | 'e' :: s => readExponent positive n dropped s
  | 'E' :: s => readExponent positive n dropped s
  | s =>
    if dropped = 0 then .ok (.ofDigits positive n, s) else floatBefore positive n dropped s

/-- Reads a number after its sign. A zero in front of another digit is refused. -/
def readNumber (positive : Bool) : Step Number
  | [] => .error (.here .endInValue [])
  | '0' :: [] => readTail positive 0 0 []
  | '0' :: c :: s =>
    if c.isDigit then .error (.next .invalidNumber (c :: s)) else readTail positive 0 0 (c :: s)
  | c :: s =>
    if c.isDigit then
      let (n, dropped, rest) := readDigits (digitValue c) s
      readTail positive n dropped rest
    else .error (.next .invalidNumber (c :: s))

end TreeEdits
