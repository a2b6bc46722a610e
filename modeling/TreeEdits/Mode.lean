/-!
# TreeEdits.Mode

How a pass goes through a tree, and what a visit tells it to do next.

* `Mode`: one visit after the other, or visits side by side.
* `Control`: into the children, past them, or no further.
-/

namespace TreeEdits

/-- Whether the nodes of a tree are visited one after the other or side by side. -/
inductive Mode where
  | sequential
  | parallel
deriving DecidableEq

namespace Mode

instance : Inhabited Mode := ⟨sequential⟩

def name : Mode → String
  | sequential => "sequential"
  | parallel => "parallel"

def choices : List (String × Mode) :=
  [sequential, parallel].map fun m => (m.name, m)

end Mode

/-- What follows a visit. -/
inductive Control where
  /-- The children are visited. -/
  | proceed
  /-- The children are left out. -/
  | skipChildren
  /-- Nothing more is visited. -/
  | stop
deriving DecidableEq

end TreeEdits
