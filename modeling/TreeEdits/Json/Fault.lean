import TreeEdits.Json.Value
import TreeEdits.Text.Quoted

/-!
# TreeEdits.Json.Fault

What can be wrong with a JSON text, and where. A `Mismatch` is a well-formed value that does not fit
the type wanted; a `Cause` is that or a breach of the grammar. While a text is read, a `Fault` keeps
its place as the number of bytes that are left after it, which needs no knowledge of what came
before; `Fault.locate` turns that into a line and a column once the whole text is at hand.

* `Fault.here`, `Fault.next`: a fault right where reading stands, or at the byte that comes next.
* `ParseError.message`: the report, with line and column.
-/

namespace TreeEdits

/-- A value met where another kind of value is wanted. -/
inductive Found where
  | null
  | bool (b : Bool)
  | number (n : Number)
  | str (s : String)
  | list
  | object

namespace Found

def text : Found → String
  | null => "null"
  | bool b => "boolean `" ++ (if b then "true" else "false") ++ "`"
  | number (.int n) => "integer `" ++ String.ofList (Number.ofInt n) ++ "`"
  | number (.float x) => "floating point `" ++ Number.layout.ofFloat x ++ "`"
  | str s => "string " ++ Quoted.text s
  | list => "sequence"
  | object => "map"

end Found

def Json.found : Json → Found
  | .null => .null
  | .bool b => .bool b
  | .number n => .number n
  | .str s => .str s
  | .arr _ => .list
  | .obj _ => .object

/-- A well-formed value that does not fit the type wanted. -/
inductive Mismatch where
  | wrongType (found : Found) (expected : String)
  | wrongValue (found : Found) (expected : String)
  | wrongLength (length : Nat) (expected : String)
  | unknownVariant (name : String) (variants : List String)
  | missingField (name : String)
  | duplicateField (name : String)

namespace Mismatch

/-- A choice of names: one, one or the other, or one of several. -/
def oneOf : List String → String
  | [a] => "`" ++ a ++ "`"
  | [a, b] => "`" ++ a ++ "` or `" ++ b ++ "`"
  | names => "one of " ++ ", ".intercalate (names.map fun a => "`" ++ a ++ "`")

def message : Mismatch → String
  | wrongType found expected => "invalid type: " ++ found.text ++ ", expected " ++ expected
  | wrongValue found expected => "invalid value: " ++ found.text ++ ", expected " ++ expected
  | wrongLength length expected =>
    "invalid length " ++ toString length ++ ", expected " ++ expected
  | unknownVariant name variants =>
    "unknown variant `" ++ name ++ "`, expected " ++ oneOf variants
  | missingField name => "missing field `" ++ name ++ "`"
  | duplicateField name => "duplicate field `" ++ name ++ "`"

end Mismatch

inductive Bracket where
  | list
  | object
deriving DecidableEq

inductive Cause where
  | endInValue
  | endIn (bracket : Bracket)
  | endInString
  | expectedValue
  | expectedWord
  | expectedColon
  | expectedCommaOrEnd (bracket : Bracket)
  | keyMustBeString
  | trailingComma
  | trailingCharacters
  | invalidNumber
  | numberOutOfRange
  | invalidEscape
  | loneSurrogate
  | brokenSurrogatePair
  | controlCharacter
  | tooDeep
  | mismatch (m : Mismatch)

namespace Cause

def message : Cause → String
  | endInValue => "EOF while parsing a value"
  | endIn .list => "EOF while parsing a list"
  | endIn .object => "EOF while parsing an object"
  | endInString => "EOF while parsing a string"
  | expectedValue => "expected value"
  | expectedWord => "expected ident"
  | expectedColon => "expected `:`"
  | expectedCommaOrEnd .list => "expected `,` or `]`"
  | expectedCommaOrEnd .object => "expected `,` or `\x7d`"
  | keyMustBeString => "key must be a string"
  | trailingComma => "trailing comma"
  | trailingCharacters => "trailing characters"
  | invalidNumber => "invalid number"
  | numberOutOfRange => "number out of range"
  | invalidEscape => "invalid escape"
  | loneSurrogate => "lone leading surrogate in hex escape"
  | brokenSurrogatePair => "unexpected end of hex escape"
  | controlCharacter => "control character (\\u0000-\\u001F) found while parsing a string"
  | tooDeep => "recursion limit exceeded"
  | mismatch m => m.message

end Cause

def byteCount (s : List Char) : Nat :=
  s.foldl (fun n c => n + c.utf8Size) 0

/-- A cause together with the number of bytes that follow its place. -/
structure Fault where
  cause : Cause
  left : Nat

namespace Fault

def here (cause : Cause) (s : List Char) : Fault := ⟨cause, byteCount s⟩

/-- A fault at the first byte of `s`, or at its place if nothing is left. -/
def next (cause : Cause) (s : List Char) : Fault := ⟨cause, byteCount s - 1⟩

def misfit (m : Mismatch) (s : List Char) : Fault := here (.mismatch m) s

end Fault

/-- A fault at its place in a text: lines count from one, and the column is the number of bytes of
the line up to and with the place. -/
structure ParseError where
  cause : Cause
  line : Nat
  column : Nat

namespace ParseError

/-- Line and column after `n` more bytes of `s`. A place may lie inside a character. -/
def place (n line column : Nat) : List Char → Nat × Nat
  | [] => (line, column)
  | c :: s =>
    if n < c.utf8Size then (line, column + n)
    else if c = '\n' then place (n - 1) (line + 1) 0 s
    else place (n - c.utf8Size) line (column + c.utf8Size) s

def message (e : ParseError) : String :=
  e.cause.message ++ " at line " ++ toString e.line ++ " column " ++ toString e.column

end ParseError

def Fault.locate (f : Fault) (text : List Char) : ParseError :=
  let (line, column) := ParseError.place (byteCount text - f.left) 1 0 text
  ⟨f.cause, line, column⟩

end TreeEdits
