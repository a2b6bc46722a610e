import TreeEdits.Json.Bracket

/-!
# TreeEdits.Json.Skip

Passing over a value that nobody wants. Its grammar is checked and nothing else: numbers may have
any size, surrogates may stand alone, and brackets may nest without limit, so the open ones are kept
on a list.

* `skipValue`: the text after a value.
-/

namespace TreeEdits
namespace Skip

/-- Passes over the digits of an exponent, after its letter. -/
def exponent (s : List Char) : Except Fault (List Char) :=
  let digits := match s with
    | '+' :: s => s
    | '-' :: s => s
    | s => s
  match digits with
  | [] => .error (.next .invalidNumber [])
  | c :: s =>
    if c.isDigit then .ok (s.dropWhile Char.isDigit) else .error (.next .invalidNumber (c :: s))

def optionalExponent : List Char → Except Fault (List Char)
  | 'e' :: s => exponent s
  | 'E' :: s => exponent s
  | s => .ok s

def decimals : List Char → Except Fault (List Char)
  | [] => .error (.next .invalidNumber [])
  | c :: s =>
    if c.isDigit then optionalExponent (s.dropWhile Char.isDigit)
    else .error (.next .invalidNumber (c :: s))

/-- Passes over what follows the whole digits of a number. -/
def tail : List Char → Except Fault (List Char)
  | '.' :: s => decimals s
  | s => optionalExponent s

def number : List Char → Except Fault (List Char)
  | [] => .error (.next .invalidNumber [])
  | '0' :: [] => .ok []
  | '0' :: c :: s =>
    if c.isDigit then .error (.next .invalidNumber (c :: s)) else tail (c :: s)
  | c :: s =>
    if c.isDigit then tail (s.dropWhile Char.isDigit) else .error (.next .invalidNumber (c :: s))

/-- Passes over the first token of a value. An opening bracket is returned. -/
def start : List Char → Except Fault (Option Bracket × List Char)
  | [] => .error (.next .endInValue [])
  | c :: s =>
    let scalar (rest : Except Fault (List Char)) : Except Fault (Option Bracket × List Char) :=
      match rest with
      | .error f => .error f
      | .ok s => .ok (none, s)
    if c = '[' then .ok (some .list, s)
    else if c = '\x7b' then .ok (some .object, s)
    else if c = 'n' then scalar (readWord ['u', 'l', 'l'] s)
    else if c = 't' then scalar (readWord ['r', 'u', 'e'] s)
    else if c = 'f' then scalar (readWord ['a', 'l', 's', 'e'] s)
    else if c = '-' then scalar (number s)
    else if c.isDigit then scalar (number (c :: s))
    else if c = '"' then scalar (Literal.skip s)
    else .error (.next .expectedValue (c :: s))

/-- Passes over what stands before the next value in a bracket: a key and its colon in an object. -/
def lead (b : Bracket) (s : List Char) : Except Fault (List Char) :=
  match b with
  | .list => .ok s
  | .object =>
    match skipBlank s with
    | [] => .error (.next (.endIn .object) [])
    | c :: s =>
      if c = '"' then
        match Literal.skip s with
        | .error f => .error f
        | .ok s => readColon s
      else .error (.next .keyMustBeString (c :: s))

/-- Passes over closing brackets up to the place where the next value is wanted. `fresh` says that
the innermost bracket has just been opened, so that no comma stands before its first item. Once all
brackets are closed none is returned. -/
def unwind (fresh : Bool) : List Bracket → List Char → Except Fault (List Bracket × List Char)
  | [], s => .ok ([], s)
  | b :: outer, s =>
    match skipBlank s with
    | [] => .error (.next (.endIn b) [])
    | c :: s =>
      if c = b.close then unwind false outer s
      else if fresh then
        match lead b (c :: s) with
        | .error f => .error f
        | .ok s => .ok (b :: outer, s)
      else if c = ',' then
        match lead b s with
        | .error f => .error f
        | .ok s => .ok (b :: outer, s)
      else .error (.next (.expectedCommaOrEnd b) (c :: s))

/-- Passes over values until all open brackets are closed. The first argument bounds the number of
tokens. -/
def values : List Char → List Bracket → List Char → Except Fault (List Char)
  | [], _, s => .error (.next .endInValue s)
  | _ :: bound, outer, s =>
    match start (skipBlank s) with
    | .error f => .error f
    | .ok (opened, s) =>
      match unwind opened.isSome (opened.toList ++ outer) s with
      | .error f => .error f
      | .ok ([], s) => .ok s
      | .ok (b :: outer, s) => values bound (b :: outer) s

end Skip

def skipValue (s : List Char) : Except Fault (List Char) := Skip.values s [] s

end TreeEdits
