/-!
# TreeEdits.NodeId

The identity of a node within one pass. Edits are attached to identities, so two equal nodes at
different places are never confused.

* `NodeId.sortDistinct`: a set of identities in increasing order.
-/

namespace TreeEdits

/-- A node by its number in pre-order. Numbers have 32 bits. -/
structure NodeId where
  index : UInt32
deriving DecidableEq, Hashable

namespace NodeId

def name (id : NodeId) : String := "node_" ++ toString id.index.toNat

instance : LE NodeId := ⟨fun a b => a.index ≤ b.index⟩

instance (a b : NodeId) : Decidable (a ≤ b) := inferInstanceAs (Decidable (a.index ≤ b.index))

/-- Identities are ordered by their numbers. -/
instance : Ord NodeId := ⟨fun a b => compare a.index b.index⟩

/-- The identities of a list in increasing order, each once. -/
def sortDistinct (ids : List NodeId) : List NodeId :=
  (ids.mergeSort fun a b => decide (a ≤ b)).eraseReps

end NodeId
end TreeEdits
