import TreeEdits.Context

/-!
# TreeEdits.Editor

What a visit does to its node. An editor looks at the visit it is handed and acts on it only by
asking for edits; what it asks for next may depend on how each edit went.

* `Visit.run`: the edits of a visit, recorded one after the other.
* `Visit.edits`: a fixed sequence of edits, which ends at the first that is refused.
-/

namespace TreeEdits

/-- What an editor sees of a visit: its state, the mode of the pass, and how many records are
queued. -/
structure Sight (α : Type) where
  context : Context α
  mode : Mode
  queued : Nat

/-- What a visit does: it ends with a result, or it asks for an edit and goes on from how that
went. -/
inductive Visit (α : Type) where
  | done (result : Except EditError Control)
  | ask (e : Edit α) (next : Except EditError Control → Sight α → Visit α)

abbrev Editor (α : Type) := Sight α → Visit α

/-- A visit over a buffer, as an editor sees it. -/
def Context.sight {α : Type} (c : Context α) (b : EditBuffer α) : Sight α := ⟨c, b.mode, b.size⟩

namespace Visit

variable {α : Type}

def run : Visit α → Context α → EditBuffer α → Outcome α (EditBuffer α)
  | done result, c, b => ⟨result, c, b⟩
  | ask e next, c, b =>
    let o := c.record b e
    (next o.result (o.context.sight o.buffer)).run o.context o.buffer

/-- Asks for edits in order and ends as `finish` says, or at the first edit that is refused. -/
def edits (finish : Sight α → Control) : List (Edit α) → Editor α
  | [], sight => done (.ok (finish sight))
  | e :: es, _ => ask e fun result sight =>
    match result with
    | .error err => done (.error err)
    | .ok _ => edits finish es sight

end Visit

def Context.visit {α : Type} (c : Context α) (b : EditBuffer α) (editor : Editor α) :
    Outcome α (EditBuffer α) :=
  (editor (c.sight b)).run c b

end TreeEdits
