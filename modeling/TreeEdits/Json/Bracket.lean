import TreeEdits.Json.Literal

/-!
# TreeEdits.Json.Bracket

What stands between the values of a list and between the members of an object. The text that is left
serves as the bound of each loop: an item takes at least one character.

* `nextItem`, `nextKey`: the next item or key, or the closing bracket.
* `readItems`: all items of a list, by a reader for one.
* `readMembers`: all members of an object, taken into a state one by one.
* `Bracket.readEnd`: the closing bracket where nothing else may stand.
-/

namespace TreeEdits

def Bracket.close : Bracket → Char
  | .list => ']'
  | .object => '\x7d'

/-- What comes next inside a bracket: an item that begins with the text, or, past the closing
bracket, the text. -/
inductive Ahead where
  | item (s : List Char)
  | done (s : List Char)

/-- Looks for the next item of a list. A comma stands before every item but the first. -/
def nextItem (first : Bool) (s : List Char) : Except Fault Ahead :=
  match skipBlank s with
  | [] => .error (.next (.endIn .list) [])
  | c :: s =>
    if c = ']' then .ok (.done s)
    else if first then .ok (.item (c :: s))
    else if c = ',' then
      match skipBlank s with
      | [] => .error (.next .endInValue [])
      | c :: s =>
        if c = ']' then .error (.next .trailingComma (c :: s)) else .ok (.item (c :: s))
    else .error (.next (.expectedCommaOrEnd .list) (c :: s))

/-- Looks for the next key of an object, whose opening quote is read. -/
def nextKey (first : Bool) (s : List Char) : Except Fault Ahead :=
  match skipBlank s with
  | [] => .error (.next (.endIn .object) [])
  | c :: s =>
    if c = '\x7d' then .ok (.done s)
    else if first then
      if c = '"' then .ok (.item s) else .error (.next .keyMustBeString (c :: s))
    else if c = ',' then
      match skipBlank s with
      | [] => .error (.next .endInValue [])
      | c :: s =>
        if c = '"' then .ok (.item s)
        else if c = '\x7d' then .error (.next .trailingComma (c :: s))
        else .error (.next .keyMustBeString (c :: s))
    else .error (.next (.expectedCommaOrEnd .object) (c :: s))

def readColon (s : List Char) : Except Fault (List Char) :=
  match skipBlank s with
  | [] => .error (.next (.endIn .object) [])
  | c :: s => if c = ':' then .ok s else .error (.next .expectedColon (c :: s))

/-- Reads the closing bracket of a list or an object whose contents are complete. -/
def Bracket.readEnd (b : Bracket) (s : List Char) : Except Fault (List Char) :=
  match skipBlank s with
  | [] => .error (.next (.endIn b) [])
  | c :: s =>
    if c = b.close then .ok s
    else if c = ',' then
      match b with
      | .object => .error (.next .trailingComma (c :: s))
      | .list =>
        match skipBlank s with
        | ']' :: s => .error (.next .trailingComma (']' :: s))
        | s => .error (.next .trailingCharacters s)
    else .error (.next .trailingCharacters (c :: s))

/-- The text after the attempt to close a bracket, where a misfit of the whole value is reported. -/
def Bracket.pastEnd (b : Bracket) (s : List Char) : List Char :=
  match skipBlank s with
  | [] => []
  | c :: s =>
    if c = b.close then s
    else if c = ',' ∧ b = .list then skipBlank s
    else c :: s

/-- Reads items up to the closing bracket. The first argument bounds their number. -/
def readItemsWithin {α : Type} (item : Step α) : List Char → Bool → Step (List α)
  | [], _, s => .error (.next (.endIn .list) s)
  | _ :: bound, first, s =>
    match nextItem first s with
    | .error f => .error f
    | .ok (.done s) => .ok ([], s)
    | .ok (.item s) =>
      match item s with
      | .error f => .error f
      | .ok (a, s) =>
        match readItemsWithin item bound false s with
        | .error f => .error f
        | .ok (as, s) => .ok (a :: as, s)

def readItems {α : Type} (item : Step α) : Step (List α) := fun s =>
  readItemsWithin item s true s

/-- How members are taken in: given what was read so far and a key, either the key does not fit or
its value is read into the state. -/
abbrev Members (σ : Type) := σ → String → Except Mismatch (Step σ)

/-- Reads members up to the closing bracket. The first argument after `take` bounds their number. -/
def readMembersWithin {σ : Type} (take : Members σ) : List Char → Bool → σ → Step σ
  | [], _, _, s => .error (.next (.endIn .object) s)
  | _ :: bound, first, st, s =>
    match nextKey first s with
    | .error f => .error f
    | .ok (.done s) => .ok (st, s)
    | .ok (.item s) =>
      match Literal.read s with
      | .error f => .error f
      | .ok (key, s) =>
        match take st key with
        | .error m => .error (.misfit m (Bracket.object.pastEnd s))
        | .ok value =>
          match readColon s with
          | .error f => .error f
          | .ok s =>
            match value s with
            | .error f => .error f
            | .ok (st, s) => readMembersWithin take bound false st s

/-- Reads the members of an object after its opening bracket, starting from a state. -/
def readMembers {σ : Type} (take : Members σ) (st : σ) : Step σ := fun s =>
  readMembersWithin take s true st s

end TreeEdits
