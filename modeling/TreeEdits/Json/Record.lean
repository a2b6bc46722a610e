import TreeEdits.Json.Scalar
import TreeEdits.Json.Skip

/-!
# TreeEdits.Json.Record

Values with named fields, lists, and choices among names. A record may be written as an object, with
its members in any order and unknown ones passed over, or as the list of its fields in order of
declaration. Every bracket entered takes one from a budget; `none` stands for what lies behind a
bracket that the budget no longer allows.

* `Record.read`: a record by its fields.
* `readSequence`: a list by a reader for its items.
* `readChoice`, `choiceOf`: one of several names, alone or as the only key of an object with `null`.
* `readPlainChoice`: one of several names, which can only stand alone.
-/

namespace TreeEdits

/-- A field of a record of which `σ` holds what has been read. -/
structure Field (σ : Type) where
  name : String
  isRead : σ → Bool
  read : σ → Step σ
  /-- Whether a list of fields may end before this one. -/
  optional : Bool

/-- A field that is kept in a state by `get` and `set`. -/
def Field.of {σ β : Type} (name : String) (get : σ → Option β) (set : β → σ → σ)
    (value : Step β) (optional : Bool) : Field σ where
  name := name
  isRead st := (get st).isSome
  read st s :=
    match value s with
    | .error f => .error f
    | .ok (b, s) => .ok (set b st, s)
  optional := optional

/-- A record type: what it is called, its fields in order, and how a value is made of what has been
read. -/
structure Record (σ α : Type) where
  fields : List (Field σ)
  start : σ
  finish : σ → Except Mismatch α

namespace Record

variable {σ α : Type}

/-- A member whose key names a field is read into it, once; any other is passed over. -/
def take (r : Record σ α) : Members σ := fun st key =>
  match r.fields.find? (fun f => f.name == key) with
  | none => .ok fun s =>
    match skipValue s with
    | .error f => .error f
    | .ok s => .ok (st, s)
  | some f => if f.isRead st then .error (.duplicateField f.name) else .ok (f.read st)

/-- What a list of too few fields is compared with. -/
def expectedLength (r : Record σ α) (name : String) : String :=
  name ++ " with " ++ toString r.fields.length ++ " elements"

/-- Reads the members of an object after its opening bracket. -/
def readObject (r : Record σ α) : Step α := fun s =>
  match readMembers r.take r.start s with
  | .error f => .error f
  | .ok (st, s) =>
    match r.finish st with
    | .error m => .error (.misfit m s)
    | .ok a => .ok (a, s)

/-- Reads the fields that are left, the first of which has the number `i`, up to the closing
bracket. -/
def readFields (expected : String) : List (Field σ) → Nat → σ → Step σ
  | [], _, st, s =>
    match Bracket.list.readEnd s with
    | .error f => .error f
    | .ok s => .ok (st, s)
  | f :: fs, i, st, s =>
    match nextItem (i == 0) s with
    | .error e => .error e
    | .ok (.done s) =>
      match (f :: fs).findIdx? (fun f => !f.optional) with
      | some j => .error (.misfit (.wrongLength (i + j) expected) s)
      | none => .ok (st, s)
    | .ok (.item s) =>
      match f.read st s with
      | .error e => .error e
      | .ok (st, s) => readFields expected fs (i + 1) st s

/-- Reads the fields as a list, after its opening bracket. -/
def readList (r : Record σ α) (name : String) : Step α := fun s =>
  match readFields (r.expectedLength name) r.fields 0 r.start s with
  | .error f => .error f
  | .ok (st, s) =>
    match r.finish st with
    | .error m => .error (.misfit m s)
    | .ok a => .ok (a, s)

def read (name : String) (within : Option (Record σ α)) : Step α := fun s =>
  match skipBlank s, within with
  | '\x7b' :: s, some r => r.readObject s
  | '[' :: s, some r => r.readList name s
  | '\x7b' :: s, none => .error (.next .tooDeep ('\x7b' :: s))
  | '[' :: s, none => .error (.next .tooDeep ('[' :: s))
  | s, _ => .error (misfitAt name s)

end Record

def readSequence {α : Type} (item : Option (Step α)) : Step (List α) := fun s =>
  match skipBlank s, item with
  | '[' :: s, some item => readItems item s
  | '[' :: s, none => .error (.next .tooDeep ('[' :: s))
  | s, _ => .error (misfitAt "a sequence" s)

def choose {β : Type} (choices : List (String × β)) (name : String) : Except Mismatch β :=
  match choices.lookup name with
  | some b => .ok b
  | none => .error (.unknownVariant name (choices.map Prod.fst))

/-- The meaning of the name that a value is the form of. As the only key of an object, the name may
also stand before an empty object. -/
def choiceOf {β : Type} (choices : List (String × β)) : Json → Except Mismatch β
  | .str name => choose choices name
  | .obj [(name, v)] =>
    match choose choices name with
    | .error m => .error m
    | .ok b =>
      match v with
      | .null => .ok b
      | .obj [] => .ok b
      | v => .error (.wrongType v.found "unit")
  | .obj _ => .error (.wrongValue .object "map with a single key")
  | v => .error (.wrongType v.found "string or map")

/-- Reads the rest of a name, after its opening quote, for its meaning. -/
def readName {β : Type} (choices : List (String × β)) : Step β := fun s =>
  match Literal.read s with
  | .error f => .error f
  | .ok (name, s) =>
    match choose choices name with
    | .error m => .error (.misfit m s)
    | .ok b => .ok (b, s)

def readPlainChoice {β : Type} (choices : List (String × β)) : Step β := fun s =>
  match skipBlank s with
  | '"' :: s => readName choices s
  | s => .error (misfitAt "variant identifier" s)

/-- Reads a name for its meaning: alone, or as the only key of an object with `null`. -/
def readChoice {β : Type} (budget : Nat) (choices : List (String × β)) : Step β := fun s =>
  match skipBlank s with
  | [] => .error (.next .endInValue [])
  | '"' :: s => readName choices s
  | '\x7b' :: s =>
    if budget = 0 then .error (.next .tooDeep ('\x7b' :: s))
    else
      match skipBlank s with
      | [] => .error (.next (.endIn .object) [])
      | '\x7d' :: s => .error (.next .expectedValue ('\x7d' :: s))
      | '"' :: s =>
        match readName choices s with
        | .error f => .error f
        | .ok (b, s) =>
          match readColon s with
          | .error f => .error f
          | .ok s =>
            match readNull "unit" s with
            | .error f => .error f
            | .ok (_, s) =>
              match skipBlank s with
              | [] => .error (.here (.endIn .object) [])
              | '\x7d' :: s => .ok (b, s)
              | s => .error (.here .expectedValue s)
      | s => .error (.next .keyMustBeString s)
  | s => .error (.next .expectedValue s)

end TreeEdits
