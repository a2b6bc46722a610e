import TreeEdits.Editor
import TreeEdits.Tree

/-!
# TreeEdits.Script

Scripts ask for edits by label. Every rule whose label is the label of the visited node applies, in
the order of the script; the label is the one that the node has when the visit begins, so a
replacement does not bring in rules for its own label.

* `Script.ofRules`: a script of rules that carry a node exactly if their action takes one.
* `Script.editor`: the edits of a script.
-/

namespace TreeEdits

/-- A rule asks for an edit of every node with a label. -/
structure Rule where
  label : String
  action : Action
  node : Option Tree
deriving DecidableEq

namespace Rule

/-- Whether a rule carries a node exactly if its action takes one. -/
def fits (r : Rule) : Bool := r.action.takesNode == r.node.isSome

/-- Why a rule, the one with number `i`, does not fit. -/
def misfit (i : Nat) (r : Rule) : Failure :=
  .invalidArguments ("rule " ++ toString i ++ " (" ++ r.action.name ++ " on '" ++ r.label ++ "') "
    ++ if r.action.takesNode then "requires a node" else "does not take a node")

def edit? (r : Rule) : Option (Edit Tree) := Edit.of? r.action r.node

end Rule

/-- Rules that fit, in order. -/
structure Script where
  rules : List Rule
  fits : rules.all Rule.fits = true
deriving DecidableEq

namespace Script

/-- The first failure among rules, the first of which has the number `i`. -/
def misfit? : Nat → List Rule → Option Failure
  | _, [] => none
  | i, r :: rs => if r.fits then misfit? (i + 1) rs else some (r.misfit i)

theorem all_fits_of_misfit? {rs : List Rule} {i : Nat} (h : misfit? i rs = none) :
    rs.all Rule.fits = true := by
  induction rs generalizing i with
  | nil => rfl
  | cons r rs ih =>
    rw [misfit?] at h
    split at h
    · rename_i hr
      simp only [List.all_cons, hr, Bool.true_and]
      exact ih h
    · cases h

/-- The script of some rules, or the first failure among them. -/
def ofRules (rules : List Rule) : Except Failure Script :=
  match h : misfit? 0 rules with
  | none => .ok ⟨rules, all_fits_of_misfit? h⟩
  | some f => .error f

def edits (s : Script) (label : String) : List (Edit Tree) :=
  (s.rules.filter fun r => r.label == label).filterMap Rule.edit?

/-- The editor of a script. What is below a deleted node goes with it. -/
def editor (s : Script) : Editor Tree := fun sight =>
  Visit.edits (fun sight => if sight.context.deleted then .skipChildren else .proceed)
    (s.edits sight.context.node.label) sight

end Script
end TreeEdits
