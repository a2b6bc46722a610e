import TreeEdits.Json.Literal
import TreeEdits.Json.Numeral

/-!
# TreeEdits.Json.Scalar

Values that nest nothing, read as what is wanted. A value of another kind is reported together with
what it is: a scalar is read for that, a bracket is not entered.

* `readScalar`: any scalar.
* `misfitAt`: the report for a value of another kind.
* `readString`, `readNatural`, `readNull`, `readOption`: the kinds wanted here.
-/

namespace TreeEdits

def readScalar : Step Json
  | [] => .error (.next .endInValue [])
  | c :: s =>
    if c = 'n' then
      match readWord ['u', 'l', 'l'] s with
      | .error f => .error f
      | .ok s => .ok (.null, s)
    else if c = 't' then
      match readWord ['r', 'u', 'e'] s with
      | .error f => .error f
      | .ok s => .ok (.bool true, s)
    else if c = 'f' then
      match readWord ['a', 'l', 's', 'e'] s with
      | .error f => .error f
      | .ok s => .ok (.bool false, s)
    else if c = '-' then
      match readNumber false s with
      | .error f => .error f
      | .ok (n, s) => .ok (.number n, s)
    else if c.isDigit then
      match readNumber true (c :: s) with
      | .error f => .error f
      | .ok (n, s) => .ok (.number n, s)
    else if c = '"' then
      match Literal.read s with
      | .error f => .error f
      | .ok (t, s) => .ok (.str t, s)
    else .error (.next .expectedValue (c :: s))

/-- What is wrong with the value at the front of `s` where `expected` is wanted. -/
def misfitAt (expected : String) (s : List Char) : Fault :=
  match s with
  | '[' :: _ => .misfit (.wrongType .list expected) s
  | '\x7b' :: _ => .misfit (.wrongType .object expected) s
  | _ =>
    match readScalar s with
    | .error f => f
    | .ok (v, rest) => .misfit (.wrongType v.found expected) rest

def readString : Step String := fun s =>
  match skipBlank s with
  | '"' :: s => Literal.read s
  | s => .error (misfitAt "a string" s)

/-- The whole number that a JSON number is, if it is one below `limit`. -/
def Number.toNatural (limit : Nat) (expected : String) : Number → Except Mismatch Nat
  | .int n =>
    if 0 ≤ n ∧ n < limit then .ok n.toNat
    else .error (.wrongValue (.number (.int n)) expected)
  | .float x => .error (.wrongType (.number (.float x)) expected)

/-- Reads a number after its sign as a whole number below `limit`. -/
def readNaturalAfter (positive : Bool) (limit : Nat) (expected : String) : Step Nat := fun s =>
  match readNumber positive s with
  | .error f => .error f
  | .ok (n, s) =>
    match n.toNatural limit expected with
    | .error m => .error (.misfit m s)
    | .ok n => .ok (n, s)

def readNatural (limit : Nat) (expected : String) : Step Nat := fun s =>
  match skipBlank s with
  | [] => .error (misfitAt expected [])
  | c :: s =>
    if c = '-' then readNaturalAfter false limit expected s
    else if c.isDigit then readNaturalAfter true limit expected (c :: s)
    else .error (misfitAt expected (c :: s))

/-- Reads `null`. -/
def readNull (expected : String) : Step Unit := fun s =>
  match skipBlank s with
  | 'n' :: s =>
    match readWord ['u', 'l', 'l'] s with
    | .error f => .error f
    | .ok s => .ok ((), s)
  | s => .error (misfitAt expected s)

/-- Reads a value that may be absent, which `null` says. -/
def readOption {α : Type} (value : Step α) : Step (Option α) := fun s =>
  match skipBlank s with
  | 'n' :: s =>
    match readWord ['u', 'l', 'l'] s with
    | .error f => .error f
    | .ok s => .ok (none, s)
  | s =>
    match value s with
    | .error f => .error f
    | .ok (a, s) => .ok (some a, s)

end TreeEdits
