import TreeEdits.Json.Scan

/-!
# TreeEdits.Json.Literal

String literals, after their opening quote. Written, only the quote, the backslash and the
characters below U+0020 are escaped. Read, every escape is known, and a pair of escapes for
surrogates gives one character.

* `Literal.write`: the literal of a text, with both quotes.
* `Literal.read`: the text of a literal.
* `Literal.skip`: passes over a literal whose text is not wanted, where surrogates may stand alone.
-/

namespace TreeEdits
namespace Literal

def escape (c : Char) : List Char :=
  if c = '"' then ['\\', '"']
  else if c = '\\' then ['\\', '\\']
  else if c = '\x08' then ['\\', 'b']
  else if c = '\t' then ['\\', 't']
  else if c = '\n' then ['\\', 'n']
  else if c = '\x0c' then ['\\', 'f']
  else if c = '\r' then ['\\', 'r']
  else if c.toNat < 0x20 then
    ['\\', 'u', '0', '0', Nat.digitChar (c.toNat / 16), Nat.digitChar (c.toNat % 16)]
  else [c]

def write (s : String) : List Char :=
  '"' :: (s.toList.flatMap escape ++ ['"'])

/-- The character that a letter after a backslash stands for. -/
def unescape (c : Char) : Option Char :=
  if c = '"' ∨ c = '\\' ∨ c = '/' then some c
  else if c = 'b' then some '\x08'
  else if c = 'f' then some '\x0c'
  else if c = 'n' then some '\n'
  else if c = 'r' then some '\r'
  else if c = 't' then some '\t'
  else none

def hexDigit? (c : Char) : Option Nat :=
  if c.isDigit then some (c.toNat - '0'.toNat)
  else if 'a' ≤ c ∧ c ≤ 'f' then some (c.toNat - 'a'.toNat + 10)
  else if 'A' ≤ c ∧ c ≤ 'F' then some (c.toNat - 'A'.toNat + 10)
  else none

def hex? (a b c d : Char) : Option Nat :=
  match hexDigit? a, hexDigit? b, hexDigit? c, hexDigit? d with
  | some a, some b, some c, some d => some (((a * 16 + b) * 16 + c) * 16 + d)
  | _, _, _, _ => none

/-- What is wrong with `s` where four hexadecimal digits are wanted: they are taken as four bytes
before they are looked at. -/
def hexFault (s : List Char) : Fault :=
  if byteCount s < 4 then .here .endInString [] else ⟨.invalidEscape, byteCount s - 4⟩

/-- A leading surrogate stands for a character together with a trailing one. -/
def isLeading (n : Nat) : Bool := 0xD800 ≤ n && n ≤ 0xDBFF

/-- A trailing surrogate stands for nothing alone. -/
def isTrailing (n : Nat) : Bool := 0xDC00 ≤ n && n ≤ 0xDFFF

def pair (n m : Nat) : Char := Char.ofNat ((n - 0xD800) * 0x400 + (m - 0xDC00) + 0x10000)

/-- What is wrong with `s` where the escape of a trailing surrogate is wanted. -/
def pairFault : List Char → Fault
  | [] => .here .endInString []
  | ['\\'] => .here .endInString []
  | '\\' :: 'u' :: a :: b :: c :: d :: s =>
    match hex? a b c d with
    | some _ => .here .loneSurrogate s
    | none => hexFault (a :: b :: c :: d :: s)
  | '\\' :: 'u' :: s => hexFault s
  | '\\' :: c :: s => .next .brokenSurrogatePair (c :: s)
  | c :: s => .next .brokenSurrogatePair (c :: s)

/-- Reads the characters up to the closing quote, after those in `acc`, latest first. -/
def readOnto (acc : List Char) : Step String
  | [] => .error (.here .endInString [])
  | c :: s =>
    if c = '"' then .ok (String.ofList acc.reverse, s)
    else if c = '\\' then
      match s with
      | [] => .error (.here .endInString [])
      | e :: s =>
        if e = 'u' then
          match s with
          | h₁ :: h₂ :: h₃ :: h₄ :: s =>
            match hex? h₁ h₂ h₃ h₄ with
            | none => .error (hexFault (h₁ :: h₂ :: h₃ :: h₄ :: s))
            | some n =>
              if isTrailing n then .error (.here .loneSurrogate s)
              else if isLeading n then
                match s with
                | b :: u :: k₁ :: k₂ :: k₃ :: k₄ :: s =>
                  match hex? k₁ k₂ k₃ k₄ with
                  | none => .error (pairFault (b :: u :: k₁ :: k₂ :: k₃ :: k₄ :: s))
                  | some m =>
                    if b = '\\' ∧ u = 'u' ∧ isTrailing m then readOnto (pair n m :: acc) s
                    else .error (pairFault (b :: u :: k₁ :: k₂ :: k₃ :: k₄ :: s))
                | s => .error (pairFault s)
              else readOnto (Char.ofNat n :: acc) s
          | s => .error (hexFault s)
        else
          match unescape e with
          | some x => readOnto (x :: acc) s
          | none => .error (.next .invalidEscape (e :: s))
    else if c.toNat < 0x20 then .error (.here .controlCharacter s)
    else readOnto (c :: acc) s

def read : Step String := readOnto []

/-- Passes over the rest of a literal. A character below U+0020 is refused before it is read. -/
def skip : List Char → Except Fault (List Char)
  | [] => .error (.here .endInString [])
  | c :: s =>
    if c = '"' then .ok s
    else if c = '\\' then
      match s with
      | [] => .error (.here .endInString [])
      | e :: s =>
        if e = 'u' then
          match s with
          | h₁ :: h₂ :: h₃ :: h₄ :: s =>
            match hex? h₁ h₂ h₃ h₄ with
            | none => .error (hexFault (h₁ :: h₂ :: h₃ :: h₄ :: s))
            | some _ => skip s
          | s => .error (hexFault s)
        else
          match unescape e with
          | some _ => skip s
          | none => .error (.next .invalidEscape (e :: s))
    else if c.toNat < 0x20 then .error (.here .controlCharacter (c :: s))
    else skip s

end Literal
end TreeEdits
