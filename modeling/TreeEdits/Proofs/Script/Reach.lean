import TreeEdits.Proofs.Script.Live
import TreeEdits.Proofs.Walk.Along

/-!
# TreeEdits.Proofs.Script.Reach

A walk with the editor of a script visits the live nodes in turn, whatever buffer it has.

* `Walk.visitEach`: visits nodes in turn, up to the first failure.
* `sequential_eq_visitEach_live`: the walk of a whole tree, as such a list of visits.
* `visitEach_sequential`, `visitEach_parallel`: what the visits leave in either buffer.
-/

namespace TreeEdits

namespace Walk

/-- Visits nodes in turn, up to the first failure. -/
def visitEach (editor : WalkEditor) (w : Walk) :
    List (Tree.Site × Nat) → Except EditError Control × Walk
  | [] => (.ok .proceed, w)
  | p :: ps =>
    match w.visit editor p.2.toUInt32 p.1.tree with
    | (.error e, w) => (.error e, w)
    | (.ok _, w) => visitEach editor w ps

theorem visitEach_append (editor : WalkEditor) (ps qs : List (Tree.Site × Nat)) :
    ∀ w : Walk, visitEach editor w (ps ++ qs) =
      match visitEach editor w ps with
      | (.error e, w) => (.error e, w)
      | (.ok _, w) => visitEach editor w qs := by
  induction ps with
  | nil => intro w; rfl
  | cons p ps ih =>
    intro w
    rw [List.cons_append, visitEach, visitEach]
    rcases w.visit editor p.2.toUInt32 p.1.tree with ⟨_ | c, w⟩
    · rfl
    · exact ih w

theorem visitEach_ok {editor : WalkEditor} {ps : List (Tree.Site × Nat)} :
    ∀ {w w' : Walk} {c : Control}, visitEach editor w ps = (.ok c, w') → c = .proceed := by
  induction ps with
  | nil => intro w w' c h; cases h; rfl
  | cons p ps ih =>
    intro w w' c h
    rw [visitEach] at h
    rcases hv : w.visit editor p.2.toUInt32 p.1.tree with ⟨_ | k, w₁⟩
    · rw [hv] at h; cases h
    · rw [hv] at h; exact ih h

end Walk

namespace Script

open Walk

/-- What a visit ends with when none of its edits was refused. -/
def finish (sight : Sight Tree) : Control := if sight.context.deleted then .skipChildren else .proceed

theorem visit_editor (s : Script) (c : Context Tree) (b : EditBuffer Tree) :
    c.visit b s.editor = c.visit b (Visit.edits finish (s.edits c.node.label)) := rfl

/-- A visit that does not fail goes past the children exactly of a deleted node. -/
theorem visit_result (s : Script) (w : Walk) (id : UInt32) (t : Tree) :
    (∃ e, (w.visit s.editor id t).1 = .error e) ∨
      (w.visit s.editor id t).1 =
        .ok (if s.deletes t.label then .skipChildren else .proceed) := by
  let c : Context Tree := Context.enter ⟨id⟩ t
  show (∃ e, (c.visit w.buffer s.editor).result = .error e) ∨
    (c.visit w.buffer s.editor).result = .ok (if s.deletes t.label then .skipChildren else .proceed)
  rw [visit_editor]
  cases hres : (c.visit w.buffer (Visit.edits finish (s.edits c.node.label))).result with
  | error e => exact .inl ⟨e, rfl⟩
  | ok k =>
    right
    obtain ⟨hk, hc⟩ := Context.visit_edits_ok hres
    have hdel : ((s.edits c.node.label).foldl Context.advance c).deleted = s.deletes t.label := by
      rw [Context.deleted_foldl_advance, any_delete_edits]
      exact Bool.false_or _
    rw [hk, finish, Context.sight, hc, hdel]

/-! ## The nodes that are visited -/

mutual

theorem sequential_eq_visitEach (s : Script) (above : List String)
    (h : ∀ label ∈ above, s.deletes label = false) : (t : Tree) → ∀ (i : Nat) (w : Walk),
    sequential s.editor i.toUInt32 w t =
      visitEach s.editor w (s.liveFrom i (t.sitesUnder above))
  | .node label children => by
    intro i w
    rw [sequential, Tree.sitesUnder, liveFrom_cons, if_pos (reaches_of_not_deletes h _), visitEach]
    rcases hv : w.visit s.editor i.toUInt32 (.node label children) with ⟨_ | c, w₁⟩
    · rfl
    · have hres := s.visit_result w i.toUInt32 (.node label children)
      rw [hv] at hres
      rcases hres with ⟨e, he⟩ | hc
      · cases he
      · cases hdel : s.deletes label with
        | true =>
          have hskip : c = .skipChildren := by simpa [Tree.label, hdel] using hc
          rw [liveFrom_sitesAllUnder_eq_nil hdel, hskip]
          rfl
        | false =>
          have hgo : c = .proceed := by simpa [Tree.label, hdel] using hc
          have habove : ∀ l ∈ label :: above, s.deletes l = false := by
            intro l hl
            rcases List.mem_cons.1 hl with rfl | hl
            · exact hdel
            · exact h l hl
          have hnext : i.toUInt32 + 1 = (i + 1).toUInt32 := toUInt32_add i 1
          rw [hgo, hnext]
          exact sequentialAll_eq_visitEach s (label :: above) habove children (i + 1) w₁

theorem sequentialAll_eq_visitEach (s : Script) (above : List String)
    (h : ∀ label ∈ above, s.deletes label = false) : (ts : List Tree) → ∀ (i : Nat) (w : Walk),
    sequentialAll s.editor i.toUInt32 w ts =
      visitEach s.editor w (s.liveFrom i (Tree.sitesAllUnder above ts))
  | [] => by
    intro i w
    rw [sequentialAll, Tree.sitesAllUnder]
    rfl
  | t :: ts => by
    intro i w
    rw [sequentialAll, Tree.sitesAllUnder, liveFrom_append, visitEach_append,
      sequential_eq_visitEach s above h t i w, Tree.length_sitesUnder]
    rcases hv : visitEach s.editor w (s.liveFrom i (t.sitesUnder above)) with ⟨_ | c, w₁⟩
    · rfl
    · rw [visitEach_ok hv, toUInt32_add]
      exact sequentialAll_eq_visitEach s above h ts (i + t.size) w₁

end

theorem sequential_eq_visitEach_live (s : Script) (t : Tree) (w : Walk) :
    sequential s.editor 0 w t = visitEach s.editor w (s.live t) := by
  have hnone : ∀ label ∈ ([] : List String), s.deletes label = false := by
    intro label hl
    cases hl
  exact sequential_eq_visitEach s [] hnone t 0 w

/-! ## What the visits leave -/

theorem visit_sequential (s : Script) {b : SequentialBuffer Tree} (hb : b.Indexed)
    (log : Array Visited) (n : Nat) (p : Tree.Site × Nat) :
    ∃ k b' log', (⟨.sequential b, log, n⟩ : Walk).visit s.editor p.2.toUInt32 p.1.tree =
        (.ok k, ⟨.sequential b', log', n + 1⟩) ∧
      b'.Indexed ∧ b'.records.toList = b.records.toList ++ s.recordsAt p := by
  let c : Context Tree := .enter ⟨p.2.toUInt32⟩ p.1.tree
  let c' := (s.edits c.node.label).foldl Context.advance c
  obtain ⟨b', hvisit, hb', -, hrs⟩ := Context.visit_edits_sequential finish (s.edits c.node.label) hb
    (Context.known_enter ⟨p.2.toUInt32⟩ p.1.tree b)
  rw [Context.recordsAll_eq_merged _ rfl] at hrs
  let k := finish (c'.sight (.sequential b'))
  refine ⟨k, b', log.push ⟨c, c', b'.size, .ok k⟩, ?_, hb', hrs⟩
  simp only [Walk.visit, visit_editor]
  rw [hvisit]
  rfl

theorem visitEach_sequential (s : Script) (ps : List (Tree.Site × Nat)) :
    ∀ {b : SequentialBuffer Tree}, b.Indexed → ∀ (log : Array Visited) (n : Nat),
      ∃ b' log', visitEach s.editor ⟨.sequential b, log, n⟩ ps =
          (.ok .proceed, ⟨.sequential b', log', n + ps.length⟩) ∧
        b'.records.toList = b.records.toList ++ ps.flatMap s.recordsAt := by
  induction ps with
  | nil =>
    intro b _ log n
    exact ⟨b, log, rfl, by simp⟩
  | cons p ps ih =>
    intro b hb log n
    obtain ⟨k, b₁, log₁, hv, hb₁, hrs₁⟩ := s.visit_sequential hb log n p
    obtain ⟨b', log', hrest, hrs⟩ := ih hb₁ log₁ (n + 1)
    rw [Nat.add_right_comm, Nat.add_assoc] at hrest
    refine ⟨b', log', ?_, ?_⟩
    · rw [visitEach, hv]
      exact hrest
    · rw [hrs, hrs₁, List.flatMap_cons, List.append_assoc]

theorem visit_parallel (s : Script) (b : ParallelBuffer Tree) (log : Array Visited) (n : Nat)
    (p : Tree.Site × Nat) :
    ∃ k b' log', (⟨.parallel b, log, n⟩ : Walk).visit s.editor p.2.toUInt32 p.1.tree =
        (if s.changes p.1.tree.label ≤ 1 then .ok k else .error (.conflict ⟨p.2.toUInt32⟩),
          ⟨.parallel b', log', n + 1⟩) ∧
      (s.changes p.1.tree.label ≤ 1 →
        b'.records.toList = b.records.toList ++ s.recordsAt p) := by
  let c : Context Tree := .enter ⟨p.2.toUInt32⟩ p.1.tree
  obtain ⟨b', c', hvisit, hc', hrs⟩ := Context.visit_edits_parallel finish (s.edits c.node.label) c b
  have hcount : c.edited.toNat + (s.edits c.node.label).countP Edit.isReplace =
      s.changes p.1.tree.label := by
    rw [countP_isReplace_edits]
    exact Nat.zero_add _
  rw [hcount] at hvisit
  let k := finish (c'.sight (.parallel b'))
  let result : Except EditError Control :=
    if s.changes p.1.tree.label ≤ 1 then .ok k else .error (.conflict ⟨p.2.toUInt32⟩)
  refine ⟨k, b', log.push ⟨c, c', b'.size, result⟩, ?_, ?_⟩
  · simp only [Walk.visit, visit_editor]
    rw [hvisit]
    rfl
  · intro hone
    have hall : Edit.upToConflict c.edited (s.edits c.node.label) = s.edits c.node.label := by
      rw [Edit.upToConflict_eq_self, hcount]
      exact hone
    have hmerged : Edit.merged (s.edits p.1.tree.label) = s.edits p.1.tree.label := by
      apply Edit.merged_eq_self
      rw [countP_isReplace_edits]
      exact hone
    rw [hrs, hall, recordsAt, hmerged]
    rfl

theorem visitEach_parallel (s : Script) (ps : List (Tree.Site × Nat)) :
    ∀ (b : ParallelBuffer Tree) (log : Array Visited) (n : Nat),
      (∀ p ∈ ps, s.changes p.1.tree.label ≤ 1) →
      ∃ b' log', visitEach s.editor ⟨.parallel b, log, n⟩ ps =
          (.ok .proceed, ⟨.parallel b', log', n + ps.length⟩) ∧
        b'.records.toList = b.records.toList ++ ps.flatMap s.recordsAt := by
  induction ps with
  | nil =>
    intro b log n _
    exact ⟨b, log, rfl, by simp⟩
  | cons p ps ih =>
    intro b log n hone
    have hp := hone p List.mem_cons_self
    obtain ⟨k, b₁, log₁, hv, hrs₁⟩ := s.visit_parallel b log n p
    obtain ⟨b', log', hrest, hrs⟩ :=
      ih b₁ log₁ (n + 1) fun q hq => hone q (List.mem_cons_of_mem p hq)
    rw [Nat.add_right_comm, Nat.add_assoc] at hrest
    refine ⟨b', log', ?_, ?_⟩
    · rw [visitEach, hv, if_pos hp]
      exact hrest
    · rw [hrs, hrs₁ hp, List.flatMap_cons, List.append_assoc]

theorem visitEach_parallel_conflict (s : Script) (b : ParallelBuffer Tree) (log : Array Visited)
    (n : Nat) {ps : List (Tree.Site × Nat)} (qs : List (Tree.Site × Nat)) {p : Tree.Site × Nat}
    (hone : ∀ p ∈ ps, s.changes p.1.tree.label ≤ 1) (hp : 2 ≤ s.changes p.1.tree.label) :
    (visitEach s.editor ⟨.parallel b, log, n⟩ (ps ++ p :: qs)).1 =
      .error (.conflict ⟨p.2.toUInt32⟩) := by
  obtain ⟨b₁, log₁, hps, -⟩ := s.visitEach_parallel ps b log n hone
  obtain ⟨k, b₂, log₂, hv, -⟩ := s.visit_parallel b₁ log₁ (n + ps.length) p
  have hmany : ¬s.changes p.1.tree.label ≤ 1 := by omega
  rw [visitEach_append, hps]
  simp only [visitEach, hv, if_neg hmany]

end Script
end TreeEdits
