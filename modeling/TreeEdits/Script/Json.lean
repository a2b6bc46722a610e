import TreeEdits.Edit.Json
import TreeEdits.Script
import TreeEdits.Tree.Json

/-!
# TreeEdits.Script.Json

The JSON form of rules and scripts: a script is the list of its rules, a rule an object with
`label`, `action` and, if it carries one, `node`.

* `Rule.toJson`, `Script.toJson`: the forms written.
* `Rule.ofText`: a rule, whether it fits or not.
* `Script.ofText`: a script, whose rules are read first and checked then.
-/

namespace TreeEdits

namespace Rule

def toJson (r : Rule) : Json :=
  .obj ([("label", .str r.label), ("action", TreeEdits.toJson r.action)]
    ++ match r.node with
      | none => []
      | some t => [("node", t.toJson)])

def typeName : String := "struct RewriteRule"

structure Draft where
  label : Option String
  action : Option Action
  node : Option (Option Tree)

/-- The rule, of which only the node may be missing. -/
def Draft.finish (d : Draft) : Except Mismatch Rule :=
  match d.label, d.action with
  | none, _ => .error (.missingField "label")
  | _, none => .error (.missingField "action")
  | some label, some action => .ok ⟨label, action, d.node.getD none⟩

def record (budget : Nat) : Record Draft Rule where
  fields := [
    .of "label" Draft.label (fun label d => { d with label := some label }) readString false,
    .of "action" Draft.action (fun a d => { d with action := some a }) (JsonForm.read budget) false,
    .of "node" Draft.node (fun t d => { d with node := some t }) (readOption (Tree.read budget))
      true]
  start := ⟨none, none, none⟩
  finish := Draft.finish

def read : Nat → Step Rule
  | 0 => Record.read typeName (none : Option (Record Draft Rule))
  | budget + 1 => Record.read typeName (some (record budget))

def readAll : Nat → Step (List Rule)
  | 0 => readSequence none
  | budget + 1 => readSequence (some (read budget))

def ofText (text : String) : Except ParseError Rule := parse (read Json.depthLimit) text

end Rule

/-- A text that is no JSON, or not that of the value wanted, is an invalid argument. -/
def Failure.ofParseError (e : ParseError) : Failure :=
  .invalidArguments ("malformed JSON: " ++ e.message)

namespace Script

def toJson (s : Script) : Json := .arr (s.rules.map Rule.toJson)

def ofText (text : String) : Except Failure Script :=
  match parse (Rule.readAll Json.depthLimit) text with
  | .error e => .error (.ofParseError e)
  | .ok rules => ofRules rules

end Script
end TreeEdits
