import TreeEdits.Proofs.Tree.Preorder
import TreeEdits.Walk

/-!
# TreeEdits.Proofs.Walk.Along

Both walkers are one loop along the pre-order of a tree. After a visit that asks for it, the loop
passes over as many nodes as there are below the visited one.

* `Walk.along`: the loop, over any list of nodes.
* `parallel_eq_sequential`: the walker with a flag does what the walker that returns does.
* `along_preorder`: the loop does what both walkers do.
* `along_keeps`, `walkAlong_keeps`: what every visit keeps, a walk keeps.
* `counted_along`: the count for the summary is the number of visits.
-/

namespace TreeEdits
namespace Walk

def ending (result : Except EditError Control) : Except EditError Bool :=
  match result with
  | .error e => .error e
  | .ok c => .ok (c = .stop)

/-- Visits the nodes of a list, the first of which has the number `id`, except for the first
`skip` of them. -/
def along (editor : WalkEditor) (skip : Nat) (id : UInt32) (w : Walk) :
    List Tree → Except EditError Bool × Walk
  | [] => (.ok false, w)
  | t :: ts =>
    match skip with
    | skip + 1 => along editor skip (id + 1) w ts
    | 0 =>
      match w.visit editor id t with
      | (.error e, w) => (.error e, w)
      | (.ok .stop, w) => (.ok true, w)
      | (.ok .skipChildren, w) => along editor (t.size - 1) (id + 1) w ts
      | (.ok .proceed, w) => along editor 0 (id + 1) w ts

theorem toUInt32_add (m n : Nat) : m.toUInt32 + n.toUInt32 = (m + n).toUInt32 :=
  (UInt32.ofNat_add m n).symm

theorem toUInt32_succ_add (id : UInt32) (n : Nat) :
    id + 1 + n.toUInt32 = id + (n + 1).toUInt32 := by
  have h : n.toUInt32 + 1 = (n + 1).toUInt32 := toUInt32_add n 1
  rw [← h, UInt32.add_assoc, UInt32.add_comm 1]

theorem along_skip (editor : WalkEditor) (w : Walk) (rest : List Tree) :
    ∀ (ts : List Tree) (id : UInt32),
      along editor ts.length id w (ts ++ rest) = along editor 0 (id + ts.length.toUInt32) w rest := by
  intro ts
  induction ts with
  | nil => intro id; simp
  | cons t ts ih =>
    intro id
    rw [List.length_cons, List.cons_append, along, ih, toUInt32_succ_add]

/-! ## The flag -/

theorem parallelAll_stopped (editor : WalkEditor) (w : Walk) :
    ∀ (ts : List Tree) (id : UInt32), parallelAll editor id true w ts = (.ok true, w) := by
  intro ts
  induction ts with
  | nil => intro id; rw [parallelAll]
  | cons t ts ih =>
    intro id
    cases t with
    | node label children =>
      rw [parallelAll, parallel, if_pos rfl]
      exact ih _

mutual

theorem parallel_eq_sequential (editor : WalkEditor) : (t : Tree) → ∀ (id : UInt32) (w : Walk),
    parallel editor id false w t =
      (ending (sequential editor id w t).1, (sequential editor id w t).2)
  | .node label children => by
    intro id w
    rw [parallel, sequential, if_neg Bool.false_ne_true]
    rcases w.visit editor id (.node label children) with ⟨_ | c, w⟩
    · rfl
    · cases c with
      | proceed => exact parallelAll_eq_sequentialAll editor children (id + 1) w
      | skipChildren => rfl
      | stop => rfl

theorem parallelAll_eq_sequentialAll (editor : WalkEditor) :
    (ts : List Tree) → ∀ (id : UInt32) (w : Walk),
      parallelAll editor id false w ts =
        (ending (sequentialAll editor id w ts).1, (sequentialAll editor id w ts).2)
  | [] => by
    intro id w
    rw [parallelAll, sequentialAll]
    rfl
  | t :: ts => by
    intro id w
    rw [parallelAll, sequentialAll, parallel_eq_sequential editor t id w]
    rcases sequential editor id w t with ⟨_ | c, w⟩
    · rfl
    · cases c with
      | proceed => exact parallelAll_eq_sequentialAll editor ts _ w
      | skipChildren => exact parallelAll_eq_sequentialAll editor ts _ w
      | stop => exact parallelAll_stopped editor w ts _

end

/-! ## The loop -/

/-- Goes on along `rest` after a walker that was not stopped. -/
def thenAlong (editor : WalkEditor) (id : UInt32) (rest : List Tree) :
    Except EditError Control × Walk → Except EditError Bool × Walk
  | (.error e, w) => (.error e, w)
  | (.ok .stop, w) => (.ok true, w)
  | (.ok _, w) => along editor 0 id w rest

mutual

theorem along_preorder_append (editor : WalkEditor) (rest : List Tree) :
    (t : Tree) → ∀ (id : UInt32) (w : Walk),
      along editor 0 id w (t.preorder ++ rest) =
        thenAlong editor (id + t.size.toUInt32) rest (sequential editor id w t)
  | .node label children => by
    intro id w
    have hsize : id + (Tree.node label children).size.toUInt32 =
        id + 1 + (Tree.preorderAll children).length.toUInt32 := by
      rw [toUInt32_succ_add, Tree.length_preorderAll, Tree.size]
    rw [hsize, Tree.preorder, List.cons_append, along, sequential]
    rcases w.visit editor id (.node label children) with ⟨_ | c, w⟩
    · rfl
    · cases c with
      | proceed =>
        rw [Tree.length_preorderAll]
        exact along_preorderAll_append editor rest children (id + 1) w
      | skipChildren =>
        have hskip : (Tree.node label children).size - 1 = (Tree.preorderAll children).length := by
          rw [Tree.length_preorderAll, Tree.size, Nat.add_sub_cancel]
        simp only [hskip, thenAlong]
        exact along_skip editor w rest _ _
      | stop => rfl

theorem along_preorderAll_append (editor : WalkEditor) (rest : List Tree) :
    (ts : List Tree) → ∀ (id : UInt32) (w : Walk),
      along editor 0 id w (Tree.preorderAll ts ++ rest) =
        thenAlong editor (id + (Tree.sizeAll ts).toUInt32) rest (sequentialAll editor id w ts)
  | [] => by
    intro id w
    simp [Tree.preorderAll, Tree.sizeAll, sequentialAll, thenAlong]
  | t :: ts => by
    intro id w
    have hsize : id + (Tree.sizeAll (t :: ts)).toUInt32 =
        id + t.size.toUInt32 + (Tree.sizeAll ts).toUInt32 := by
      rw [Tree.sizeAll, ← toUInt32_add, UInt32.add_assoc]
    rw [hsize, Tree.preorderAll, List.append_assoc, sequentialAll,
      along_preorder_append editor _ t id w]
    rcases sequential editor id w t with ⟨_ | c, w⟩
    · rfl
    · cases c with
      | proceed => exact along_preorderAll_append editor rest ts _ w
      | skipChildren => exact along_preorderAll_append editor rest ts _ w
      | stop => rfl

end

theorem along_preorder (editor : WalkEditor) (t : Tree) (id : UInt32) (w : Walk) :
    along editor 0 id w t.preorder =
      (ending (sequential editor id w t).1, (sequential editor id w t).2) := by
  have h := along_preorder_append editor [] t id w
  rw [List.append_nil] at h
  rw [h]
  rcases sequential editor id w t with ⟨_ | c, w⟩
  · rfl
  · cases c <;> rfl

/-- What every visit keeps, the loop keeps, and it fails only with what one of its visits fails with.
-/
theorem along_keeps {editor : WalkEditor} {P : Walk → Prop} {Q : EditError → Prop}
    (hkeeps : ∀ w id t, P w → P (w.visit editor id t).2)
    (hfails : ∀ w id t e, P w → (w.visit editor id t).1 = .error e → Q e) (ts : List Tree) :
    ∀ (skip : Nat) (id : UInt32) (w : Walk), P w →
      P (along editor skip id w ts).2 ∧ ∀ e, (along editor skip id w ts).1 = .error e → Q e := by
  induction ts with
  | nil =>
    intro skip id w hw
    refine ⟨hw, ?_⟩
    intro e he
    cases he
  | cons t ts ih =>
    intro skip id w hw
    cases skip with
    | succ skip => exact ih skip (id + 1) w hw
    | zero =>
      have hnext := hkeeps w id t hw
      have hfail := hfails w id t
      rw [along]
      rcases hv : w.visit editor id t with ⟨_ | c, w₁⟩
      · rw [hv] at hnext hfail
        refine ⟨hnext, ?_⟩
        intro e he
        cases he
        exact hfail _ hw rfl
      · rw [hv] at hnext
        cases c with
        | proceed => exact ih 0 (id + 1) w₁ hnext
        | skipChildren => exact ih (t.size - 1) (id + 1) w₁ hnext
        | stop =>
          refine ⟨hnext, ?_⟩
          intro e he
          cases he

/-- The visits are counted one by one. -/
theorem counted_along (editor : WalkEditor) (b : EditBuffer Tree) (ts : List Tree) :
    (along editor 0 0 (.start b) ts).2.visited = (along editor 0 0 (.start b) ts).2.log.size := by
  let P : Walk → Prop := fun w => w.visited = w.log.size
  have hkeeps : ∀ w id t, P w → P (w.visit editor id t).2 := by
    intro w id t hw
    simp only [P] at hw ⊢
    rw [visit, hw, Array.size_push]
  have hfails : ∀ w id t e, P w → (w.visit editor id t).1 = .error e → True := by
    intros
    trivial
  exact (along_keeps hkeeps hfails ts 0 0 (.start b) rfl).1

end Walk

/-- The state in which a walk ended. -/
def WalkOutcome.last (o : WalkOutcome) : Walk := ⟨o.session.buffer, o.log, o.log.size⟩

namespace Session

/-- The walk along the pre-order of a tree, as either walker reports it. -/
def walkAlong (s : Session Tree) (t : Tree) (editor : WalkEditor) : WalkOutcome :=
  let (result, w) := Walk.along editor 0 0 (.start s.buffer) t.preorder
  let s := { s with buffer := w.buffer }
  match result with
  | .error e => ⟨.error (.ofEditError e), w.log, s⟩
  | .ok stopped => ⟨.ok ⟨w.visited, stopped⟩, w.log, s⟩

theorem last_walkAlong (s : Session Tree) (t : Tree) (editor : WalkEditor) :
    (s.walkAlong t editor).last = (Walk.along editor 0 0 (.start s.buffer) t.preorder).2 := by
  have hcount := Walk.counted_along editor s.buffer t.preorder
  rw [WalkOutcome.last, walkAlong]
  rcases hrun : Walk.along editor 0 0 (.start s.buffer) t.preorder with
    ⟨_ | stopped, buffer, log, n⟩
  · rw [hrun] at hcount
    obtain rfl : n = log.size := hcount
    rfl
  · rw [hrun] at hcount
    obtain rfl : n = log.size := hcount
    rfl

/-- A walk ends as the loop does, with the number of its visits. -/
theorem result_walkAlong (s : Session Tree) (t : Tree) (editor : WalkEditor) :
    (s.walkAlong t editor).result =
      match (Walk.along editor 0 0 (.start s.buffer) t.preorder).1 with
      | .error e => .error (.ofEditError e)
      | .ok stopped => .ok ⟨(s.walkAlong t editor).log.size, stopped⟩ := by
  have hcount := Walk.counted_along editor s.buffer t.preorder
  rw [walkAlong]
  rcases hrun : Walk.along editor 0 0 (.start s.buffer) t.preorder with
    ⟨_ | stopped, buffer, log, n⟩
  · rfl
  · rw [hrun] at hcount
    obtain rfl : n = log.size := hcount
    rfl

theorem session_walkAlong (s : Session Tree) (t : Tree) (editor : WalkEditor) :
    (s.walkAlong t editor).session = ⟨(s.walkAlong t editor).last.buffer, s.visits⟩ := by
  rw [WalkOutcome.last, walkAlong]
  rcases Walk.along editor 0 0 (.start s.buffer) t.preorder with ⟨_ | stopped, w⟩
  · rfl
  · rfl

theorem walkSequential_eq_walkAlong (s : Session Tree) (t : Tree) (editor : WalkEditor) :
    s.walkSequential t editor = s.walkAlong t editor := by
  rw [walkSequential, walkAlong, Walk.along_preorder]
  rcases Walk.sequential editor 0 (.start s.buffer) t with ⟨_ | c, w⟩
  · rfl
  · rfl

theorem walkParallel_eq_walkAlong {s : Session Tree} (h : s.buffer.mode = .parallel) (t : Tree)
    (editor : WalkEditor) : s.walkParallel t editor = s.walkAlong t editor := by
  obtain ⟨buffer, visits⟩ := s
  cases buffer with
  | sequential b => cases h
  | parallel b =>
    have hwalk := Walk.parallel_eq_sequential editor t 0 (.start (.parallel b))
    rw [walkParallel, walkAlong, Walk.along_preorder]
    rcases hseq : Walk.sequential editor 0 (.start (.parallel b)) t with ⟨_ | c, w⟩
    · rw [hseq] at hwalk
      simp only [EditBuffer.shared?, hwalk, Walk.ending]
    · rw [hseq] at hwalk
      simp only [EditBuffer.shared?, hwalk, Walk.ending]

/-- Without a shared buffer, the walker that needs one visits nothing. -/
theorem walkParallel_eq_error {s : Session Tree} (h : s.buffer.mode = .sequential) (t : Tree)
    (editor : WalkEditor) :
    s.walkParallel t editor =
      ⟨.error (.invalidArguments "parallel walk requires a parallel session, got sequential"), #[], s⟩ := by
  obtain ⟨buffer, visits⟩ := s
  cases buffer with
  | sequential b => rfl
  | parallel b => cases h

theorem walkAlong_keeps {editor : WalkEditor} {P : Walk → Prop} {Q : EditError → Prop}
    (hkeeps : ∀ w id t, P w → P (w.visit editor id t).2)
    (hfails : ∀ w id t e, P w → (w.visit editor id t).1 = .error e → Q e) {s : Session Tree}
    (hs : P (.start s.buffer)) (t : Tree) :
    P (s.walkAlong t editor).last ∧
      ∀ f, (s.walkAlong t editor).result = .error f → ∃ e, f = .ofEditError e ∧ Q e := by
  obtain ⟨hlast, herror⟩ := Walk.along_keeps hkeeps hfails t.preorder 0 0 (.start s.buffer) hs
  rw [last_walkAlong, result_walkAlong]
  refine ⟨hlast, ?_⟩
  intro f hf
  cases hrun : (Walk.along editor 0 0 (.start s.buffer) t.preorder).1 with
  | error e =>
    rw [hrun] at hf
    cases hf
    exact ⟨e, rfl, herror e hrun⟩
  | ok stopped =>
    rw [hrun] at hf
    cases hf

end Session
end TreeEdits
