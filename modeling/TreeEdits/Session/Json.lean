import TreeEdits.Json.Read
import TreeEdits.Session

/-!
# TreeEdits.Session.Json

The JSON form of modes and options: an object with `mode` and `capacity_hint`, each of which may be
missing.

* `Options.toJson`, `Options.ofText`.
-/

namespace TreeEdits

instance : JsonForm Mode where
  toJson m := .str m.name
  read budget := readChoice budget Mode.choices
  ofJson := choiceOf Mode.choices

namespace Options

def toJson (o : Options) : Json :=
  .obj [("mode", TreeEdits.toJson o.mode), ("capacity_hint", .nat o.capacityHint)]

def typeName : String := "struct SessionOptions"

structure Draft where
  mode : Option Mode
  capacityHint : Option Nat

/-- The fields of options. What is missing is as in the default. -/
def record (budget : Nat) : Record Draft Options where
  fields := [
    .of "mode" Draft.mode (fun m d => { d with mode := some m }) (JsonForm.read budget) true,
    .of "capacity_hint" Draft.capacityHint (fun n d => { d with capacityHint := some n })
      (readNatural wordLimit "usize") true]
  start := ⟨none, none⟩
  finish d := .ok ⟨d.mode.getD default, d.capacityHint.getD 0⟩

def read : Nat → Step Options
  | 0 => Record.read typeName (none : Option (Record Draft Options))
  | budget + 1 => Record.read typeName (some (record budget))

def ofText (text : String) : Except ParseError Options := parse (read Json.depthLimit) text

end Options
end TreeEdits
