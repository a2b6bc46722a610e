/-!
# TreeEdits.Tree

Trees with labels.

* `Tree.decEq`: whether two trees are the same.
* `Tree.size`: the number of nodes.
-/

namespace TreeEdits

/-- A label and the subtrees below it, in order. -/
inductive Tree where
  | node (label : String) (children : List Tree)

namespace Tree

def label : Tree → String
  | node label _ => label

def children : Tree → List Tree
  | node _ children => children

def leaf (label : String) : Tree := node label []

mutual

def decEq : (t u : Tree) → Decidable (t = u)
  | node label ts, node label' us =>
    have := decEqAll ts us
    decidable_of_iff (label = label' ∧ ts = us) (by rw [node.injEq])

def decEqAll : (ts us : List Tree) → Decidable (ts = us)
  | [], [] => isTrue rfl
  | [], _ :: _ => isFalse (by simp)
  | _ :: _, [] => isFalse (by simp)
  | t :: ts, u :: us =>
    have := decEq t u
    have := decEqAll ts us
    decidable_of_iff (t = u ∧ ts = us) (by rw [List.cons.injEq])

end

instance : DecidableEq Tree := decEq

mutual

def size : Tree → Nat
  | node _ children => sizeAll children + 1

def sizeAll : List Tree → Nat
  | [] => 0
  | t :: ts => t.size + sizeAll ts

end

theorem size_pos (t : Tree) : 0 < t.size := by
  cases t with
  | node label children => rw [size]; exact Nat.succ_pos _

end Tree
end TreeEdits
