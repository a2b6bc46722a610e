import Mathlib.Data.List.Forall2
import TreeEdits.Proofs.Context.Requests
import TreeEdits.Proofs.Tree.Preorder
import TreeEdits.Script

/-!
# TreeEdits.Proofs.Script.Live

Which nodes of a tree a script reaches, and what it asks for there, told from the rules and the
tree as it was before the pass.

* `Rule.Asks`: what a rule of each kind asks for.
* `Script.asks_edits`: at a label, a script asks for one edit for each of its rules for that label.
* `Script.live`: the nodes with no proper ancestor that a rule deletes, with their numbers.
* `Script.recordsAt`: what a live node gives, with all its changes in one record.
-/

namespace TreeEdits

namespace Rule

/-- A rule asks for the edit of its kind, with the node that it carries. -/
inductive Asks : Rule → Edit Tree → Prop
  | replace (label : String) (node : Tree) : Asks ⟨label, .replace, some node⟩ (.replace node)
  | delete (label : String) : Asks ⟨label, .delete, none⟩ .delete
  | insertBefore (label : String) (sibling : Tree) :
    Asks ⟨label, .insertBefore, some sibling⟩ (.insertBefore sibling)
  | insertAfter (label : String) (sibling : Tree) :
    Asks ⟨label, .insertAfter, some sibling⟩ (.insertAfter sibling)

theorem exists_edit {r : Rule} (h : r.fits = true) : ∃ e, r.edit? = some e ∧ r.Asks e := by
  obtain ⟨label, action, node⟩ := r
  cases node with
  | none =>
    cases action with
    | delete => exact ⟨.delete, rfl, .delete label⟩
    | replace => exact absurd h Bool.false_ne_true
    | insertBefore => exact absurd h Bool.false_ne_true
    | insertAfter => exact absurd h Bool.false_ne_true
  | some node =>
    cases action with
    | delete => exact absurd h Bool.false_ne_true
    | replace => exact ⟨.replace node, rfl, .replace label node⟩
    | insertBefore => exact ⟨.insertBefore node, rfl, .insertBefore label node⟩
    | insertAfter => exact ⟨.insertAfter node, rfl, .insertAfter label node⟩

theorem asks_filterMap {rs : List Rule} (h : rs.all fits = true) :
    List.Forall₂ Asks rs (rs.filterMap edit?) := by
  induction rs with
  | nil => exact .nil
  | cons r rs ih =>
    rw [List.all_cons, Bool.and_eq_true] at h
    obtain ⟨e, he, hasks⟩ := exists_edit h.1
    rw [List.filterMap_cons, he]
    exact .cons hasks (ih h.2)

end Rule

namespace Script

def deletes (s : Script) (label : String) : Bool :=
  s.rules.any fun r => r.label == label && decide (r.action = .delete)

def changes (s : Script) (label : String) : Nat :=
  s.rules.countP fun r => r.label == label && decide (r.action = .replace)

/-- The edits at a label are those of the rules for it, one for each and in their order. -/
theorem asks_edits (s : Script) (label : String) :
    List.Forall₂ Rule.Asks (s.rules.filter fun r => r.label == label) (s.edits label) := by
  apply Rule.asks_filterMap
  rw [List.all_eq_true]
  intro r hr
  exact List.all_eq_true.1 s.fits r (List.mem_filter.1 hr).1

theorem map_edits (s : Script) (label : String) :
    (s.edits label).map (fun e => (e.action, e.node?)) =
      (s.rules.filter fun r => r.label == label).map fun r => (r.action, r.node) := by
  rw [← List.forall₂_eq_eq_eq, List.forall₂_map_left_iff, List.forall₂_map_right_iff]
  refine (s.asks_edits label).flip.imp ?_
  rintro e r (h : r.Asks e)
  cases h <;> rfl

theorem any_delete_edits (s : Script) (label : String) :
    (s.edits label).any (fun e => decide (e.action = .delete)) = s.deletes label := by
  have h := congrArg (fun l => l.any fun p : Action × Option Tree => decide (p.1 = .delete))
    (s.map_edits label)
  simp only [List.any_map, List.any_filter] at h
  exact h

theorem countP_isReplace_edits (s : Script) (label : String) :
    (s.edits label).countP Edit.isReplace = s.changes label := by
  have h := congrArg (fun l => l.countP fun p : Action × Option Tree => decide (p.1 = .replace))
    (s.map_edits label)
  simp only [List.countP_map, List.countP_filter] at h
  have hreplace : Edit.isReplace = fun e : Edit Tree => decide (e.action = .replace) := by
    funext e
    cases e <;> rfl
  rw [hreplace, changes]
  simpa only [Function.comp_def, Bool.and_comm] using h

/-- Whether no rule deletes a proper ancestor of a node. -/
def reaches (s : Script) (site : Tree.Site) : Bool := site.above.all fun label => !s.deletes label

/-- The nodes of a list that a script reaches, with their numbers, if the first has the number
`i`. -/
def liveFrom (s : Script) (i : Nat) (sites : List Tree.Site) : List (Tree.Site × Nat) :=
  (sites.zipIdx i).filter fun p => s.reaches p.1

/-- The nodes of a tree that a script reaches, in pre-order and with their pre-order numbers. -/
def live (s : Script) (t : Tree) : List (Tree.Site × Nat) := s.liveFrom 0 t.sites

/-- What a live node gives: a record for each rule with its label, but one for all changes. -/
def recordsAt (s : Script) (p : Tree.Site × Nat) : List (EditRecord Tree) :=
  (Edit.merged (s.edits p.1.tree.label)).map (EditRecord.mk ⟨p.2.toUInt32⟩)

theorem liveFrom_append (s : Script) (i : Nat) (xs ys : List Tree.Site) :
    s.liveFrom i (xs ++ ys) = s.liveFrom i xs ++ s.liveFrom (i + xs.length) ys := by
  rw [liveFrom, List.zipIdx_append, List.filter_append, liveFrom, liveFrom]

theorem liveFrom_cons (s : Script) (i : Nat) (site : Tree.Site) (sites : List Tree.Site) :
    s.liveFrom i (site :: sites) =
      if s.reaches site then (site, i) :: s.liveFrom (i + 1) sites
      else s.liveFrom (i + 1) sites := by
  rw [liveFrom, List.zipIdx_cons, List.filter_cons, liveFrom]

mutual

theorem mem_above_sitesUnder {label : String} {above : List String} (h : label ∈ above) :
    (t : Tree) → ∀ site ∈ t.sitesUnder above, label ∈ site.above
  | .node l children => by
    intro site hs
    rw [Tree.sitesUnder, List.mem_cons] at hs
    rcases hs with rfl | hs
    · exact h
    · exact mem_above_sitesAllUnder (List.mem_cons_of_mem l h) children site hs

theorem mem_above_sitesAllUnder {label : String} {above : List String} (h : label ∈ above) :
    (ts : List Tree) → ∀ site ∈ Tree.sitesAllUnder above ts, label ∈ site.above
  | [] => by
    intro site hs
    rw [Tree.sitesAllUnder] at hs
    cases hs
  | t :: ts => by
    intro site hs
    rw [Tree.sitesAllUnder, List.mem_append] at hs
    rcases hs with hs | hs
    · exact mem_above_sitesUnder h t site hs
    · exact mem_above_sitesAllUnder h ts site hs

end

theorem liveFrom_sitesAllUnder_eq_nil {s : Script} {label : String} (h : s.deletes label = true)
    (above : List String) (i : Nat) (ts : List Tree) :
    s.liveFrom i (Tree.sitesAllUnder (label :: above) ts) = [] := by
  rw [liveFrom, List.filter_eq_nil_iff]
  intro p hp hreach
  have hmem := mem_above_sitesAllUnder (List.mem_cons_self (l := above) (a := label)) ts p.1
    (List.fst_mem_of_mem_zipIdx hp)
  have hnot := List.all_eq_true.1 hreach label hmem
  rw [h] at hnot
  cases hnot

theorem reaches_of_not_deletes {s : Script} {above : List String}
    (h : ∀ label ∈ above, s.deletes label = false) (t : Tree) :
    s.reaches ⟨above, t⟩ = true := by
  rw [reaches, List.all_eq_true]
  intro label hl
  rw [h label hl]
  rfl

end Script
end TreeEdits
