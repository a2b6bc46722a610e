import TreeEdits.Session

/-!
# TreeEdits.Pool

Visits side by side. They share one buffer, and any of them can record an edit at any time. Each
visit has a slot of its own.

* `Pool.step`, `Pool.run`: events in slots, in any order.
-/

namespace TreeEdits

/-- A shared buffer and the open visits by the names of their slots. -/
structure Pool (κ α : Type) where
  buffer : ParallelBuffer α
  slots : List (κ × Context α)

namespace Pool

variable {κ α : Type} [BEq κ]

def visit? (p : Pool κ α) (slot : κ) : Option (Context α) := p.slots.lookup slot

def put (p : Pool κ α) (slot : κ) (c : Context α) : List (κ × Context α) :=
  (slot, c) :: p.slots.filter fun (k, _) => !(k == slot)

/-- One event in one slot. A visit that opens takes the place of the one that was there. -/
def step (p : Pool κ α) (slot : κ) : Event α → Answer α × Pool κ α
  | .enter anchor node => (.entered, { p with slots := p.put slot (.enter anchor node) })
  | .leave =>
    match p.visit? slot with
    | none => (.nothing, p)
    | some c => (.left c.node, { p with slots := p.slots.filter fun (k, _) => !(k == slot) })
  | .edit e =>
    match p.visit? slot with
    | none => (.nothing, p)
    | some c =>
      let o := c.recordParallel p.buffer e
      (.recorded o.result, ⟨o.buffer, p.put slot o.context⟩)

def run (p : Pool κ α) : List (κ × Event α) → List (Answer α) × Pool κ α
  | [] => ([], p)
  | (slot, e) :: es =>
    let (a, p) := p.step slot e
    let (as, p) := p.run es
    (a :: as, p)

end Pool
end TreeEdits
