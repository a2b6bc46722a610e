import TreeEdits.Tree

/-!
# TreeEdits.Proofs.Tree.Preorder

The nodes of a tree in pre-order. A node is listed as the subtree that it is the root of, and its
place in the list is its number.

* `Tree.preorder`: the list, as long as the tree has nodes (`length_preorder`).
* `preorder_slice`: a subtree takes up its own pre-order, from its root on. So what is below node
  `i` are the `size - 1` nodes that follow it.
* `Tree.sites`: the same list, with the labels that are above each node.
-/

namespace TreeEdits
namespace Tree

mutual

/-- The subtrees of a tree in pre-order. -/
def preorder : Tree → List Tree
  | node label children => node label children :: preorderAll children

def preorderAll : List Tree → List Tree
  | [] => []
  | t :: ts => t.preorder ++ preorderAll ts

end

mutual

theorem length_preorder : (t : Tree) → t.preorder.length = t.size
  | node label children => by
    rw [preorder, size, List.length_cons, length_preorderAll children]

theorem length_preorderAll : (ts : List Tree) → (preorderAll ts).length = sizeAll ts
  | [] => by rw [preorderAll, sizeAll, List.length_nil]
  | t :: ts => by
    rw [preorderAll, sizeAll, List.length_append, length_preorder t, length_preorderAll ts]

end

mutual

/-- A subtree stands in the pre-order of the tree with all that is below it. -/
theorem preorder_slice : (t : Tree) → ∀ (i : Nat) (s : Tree), t.preorder[i]? = some s →
    ∃ before after, t.preorder = before ++ s.preorder ++ after ∧ before.length = i
  | node label children => by
    intro i s h
    cases i with
    | zero =>
      rw [preorder, List.getElem?_cons_zero, Option.some.injEq] at h
      subst h
      exact ⟨[], [], by simp, rfl⟩
    | succ i =>
      rw [preorder, List.getElem?_cons_succ] at h
      obtain ⟨before, after, he, hl⟩ := preorderAll_slice children i s h
      exact ⟨node label children :: before, after, by simp [preorder, he], by simp [hl]⟩

theorem preorderAll_slice : (ts : List Tree) → ∀ (i : Nat) (s : Tree),
    (preorderAll ts)[i]? = some s →
    ∃ before after, preorderAll ts = before ++ s.preorder ++ after ∧ before.length = i
  | [] => by
    intro i s h
    simp [preorderAll] at h
  | t :: ts => by
    intro i s h
    rw [preorderAll] at h
    by_cases hi : i < t.preorder.length
    · rw [List.getElem?_append_left hi] at h
      obtain ⟨before, after, he, hl⟩ := preorder_slice t i s h
      exact ⟨before, after ++ preorderAll ts, by simp [preorderAll, he], hl⟩
    · have hle : t.preorder.length ≤ i := Nat.le_of_not_lt hi
      rw [List.getElem?_append_right hle] at h
      obtain ⟨before, after, he, hl⟩ := preorderAll_slice ts _ s h
      refine ⟨t.preorder ++ before, after, by simp [preorderAll, he], ?_⟩
      rw [List.length_append, hl]
      omega

end

/-- A node of a tree as it stands there: the labels above it, nearest first, and its subtree. -/
structure Site where
  above : List String
  tree : Tree

mutual

/-- The nodes of a tree in pre-order, under some labels. -/
def sitesUnder (above : List String) : Tree → List Site
  | node label children => ⟨above, node label children⟩ :: sitesAllUnder (label :: above) children

def sitesAllUnder (above : List String) : List Tree → List Site
  | [] => []
  | t :: ts => t.sitesUnder above ++ sitesAllUnder above ts

end

def sites (t : Tree) : List Site := t.sitesUnder []

mutual

theorem map_tree_sitesUnder (above : List String) :
    (t : Tree) → (t.sitesUnder above).map Site.tree = t.preorder
  | node label children => by
    rw [sitesUnder, preorder, List.map_cons, map_tree_sitesAllUnder (label :: above) children]

theorem map_tree_sitesAllUnder (above : List String) :
    (ts : List Tree) → (sitesAllUnder above ts).map Site.tree = preorderAll ts
  | [] => by rw [sitesAllUnder, preorderAll, List.map_nil]
  | t :: ts => by
    rw [sitesAllUnder, preorderAll, List.map_append, map_tree_sitesUnder above t,
      map_tree_sitesAllUnder above ts]

end

theorem length_sitesUnder (above : List String) (t : Tree) :
    (t.sitesUnder above).length = t.size := by
  rw [← length_preorder t, ← map_tree_sitesUnder above t, List.length_map]

end Tree
end TreeEdits
