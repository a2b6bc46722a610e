import TreeEdits.Proofs.Walk.Along

/-!
# TreeEdits.Proofs.Walk.Shown

What a walk shows to its editor: the state of each visit when it begins, and how many records are
queued by then.

* `Walk.Shown`: the visits that lead from one state of a walk to another, each with its sight.
* `walkSequential_eq_walkParallel`: over a buffer that visits may share, both walkers show the same
  sights and end in the same way.
-/

namespace TreeEdits

/-- A walk that began at `w₀` has shown some sights to its editor, one in each visit, and nothing
else has happened to it. -/
inductive Walk.Shown (editor : WalkEditor) (w₀ : Walk) : List (Sight Tree) → Walk → Prop where
  | start : Shown editor w₀ [] w₀
  | visit {sights : List (Sight Tree)} {w : Walk} (id : UInt32) (t : Tree) :
      Shown editor w₀ sights w →
      Shown editor w₀ (sights ++ [(Context.enter ⟨id⟩ t).sight w.buffer]) (w.visit editor id t).2

namespace Session

theorem walkAlong_shown (s : Session Tree) (t : Tree) (editor : WalkEditor) :
    ∃ sights, Walk.Shown editor (.start s.buffer) sights (s.walkAlong t editor).last := by
  let P : Walk → Prop := fun w => ∃ sights, Walk.Shown editor (.start s.buffer) sights w
  have hkeeps : ∀ w id t, P w → P (w.visit editor id t).2 := by
    rintro w id t ⟨sights, h⟩
    exact ⟨_, h.visit id t⟩
  have hfails : ∀ w id t e, P w → (w.visit editor id t).1 = .error e → True := by
    intros
    trivial
  exact (walkAlong_keeps hkeeps hfails ⟨[], .start⟩ t).1

/-- Over a buffer that visits may share, the walker that passes on what comes next and the one that
keeps a flag do the same for any tree and any editor: they end with the same summary or failure,
make the same visits, which are shown the same sights, and leave the same records behind. -/
theorem walkSequential_eq_walkParallel (s : Session Tree) (t : Tree) (editor : WalkEditor)
    (h : s.buffer.mode = .parallel) :
    s.walkSequential t editor = s.walkParallel t editor ∧
      ∃ sights, Walk.Shown editor (.start s.buffer) sights (s.walkSequential t editor).last ∧
        Walk.Shown editor (.start s.buffer) sights (s.walkParallel t editor).last := by
  obtain ⟨sights, hshown⟩ := s.walkAlong_shown t editor
  rw [walkSequential_eq_walkAlong, walkParallel_eq_walkAlong h]
  exact ⟨rfl, sights, hshown, hshown⟩

/-- Deletes `a`, changes `d` twice, and adds a sibling to any other node. -/
def clashEditor : Editor Tree := fun sight =>
  Visit.edits (fun sight => if sight.context.deleted then .skipChildren else .proceed)
    (match sight.context.node.label with
      | "a" => [.delete]
      | "d" => [.replace (.leaf "x"), .replace (.leaf "y")]
      | _ => [.insertAfter (.leaf "z")]) sight

/-- A record is queued before the walk. It goes past `b` and fails at `d`, below `c`. -/
theorem walkSequential_eq_walkParallel_clash :
    let s : Session Tree := ⟨.parallel (.push .empty ⟨⟨9⟩, .delete⟩), []⟩
    let t : Tree := .node "r" [.node "a" [.leaf "b"], .node "c" [.leaf "d", .leaf "e"], .leaf "f"]
    s.buffer.mode = .parallel ∧
      s.walkSequential t clashEditor = s.walkParallel t clashEditor ∧
      (s.walkParallel t clashEditor).result = .error (.ofEditError (.conflict ⟨4⟩)) ∧
      (s.walkParallel t clashEditor).session.records.map (fun r => (r.anchor, r.edit.action)) =
        [(⟨9⟩, .delete), (⟨0⟩, .insertAfter), (⟨1⟩, .delete), (⟨3⟩, .insertAfter),
          (⟨4⟩, .replace)] := by
  intro s t
  exact ⟨rfl, (walkSequential_eq_walkParallel s t clashEditor rfl).1, rfl, rfl⟩

end Session
end TreeEdits
