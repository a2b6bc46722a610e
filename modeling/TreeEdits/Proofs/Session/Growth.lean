import TreeEdits.Proofs.Context.Placed
import TreeEdits.Proofs.Session.Either
import TreeEdits.Proofs.Walk.Events

/-!
# TreeEdits.Proofs.Session.Growth

Records are added, and what was queued before a visit opened stays as it was while the visit is open.

* `EditRecord.mark`, `marks_step`: an event adds a record at the end or leaves all nodes and kinds of
  edit as they are.
* `Event.during`: the events that a visit lives through.
* `Session.Within`: the invariant of a session in which such a visit is open. It holds from the opening
  of the visit on (`within_enter`, `Within.step`), whatever the session was before.
* `visit_keeps`, `walkAlong_prefix`: so one visit of a walk, and a whole walk, leave the records from
  before them in front.
-/

namespace TreeEdits

variable {α : Type}

namespace EditRecord

/-- What a record is about: its node, and the name of what is done. -/
def mark (r : EditRecord α) : NodeId × String := (r.anchor, r.edit.action.name)

/-- To write over a replace record changes nothing but the node that it carries. -/
theorem map_mark_rewriteLast (a : NodeId) (m : α) (rs : List (EditRecord α)) :
    (rewriteLast ⟨a, .replace m⟩ rs).map mark = rs.map mark := by
  induction rs with
  | nil => rfl
  | cons q qs ih =>
    rw [rewriteLast]
    split
    · rename_i hq
      rw [Bool.and_eq_true] at hq
      obtain ⟨node, rfl⟩ := exists_replace_of_replaces hq.1
      rfl
    · rw [List.map_cons, List.map_cons, ih]

end EditRecord

namespace Event

/-- Whether a visit lives through events, if `k` visits are open inside it: it does not end by one of
them. -/
def during : Nat → List (Event α) → Bool
  | _, [] => true
  | k, enter _ _ :: es => during (k + 1) es
  | 0, leave :: _ => false
  | k + 1, leave :: es => during k es
  | k, edit _ :: es => during k es

theorem during_edits (k : Nat) (es : List (Edit α)) : during k (es.map edit) = true := by
  induction es with
  | nil => cases k <;> rfl
  | cons e es ih => cases k <;> exact ih

end Event

namespace Session

open EditRecord

theorem marks_step {s : Session α} (h : s.Coherent) (e : Event α) :
    (s.step e).2.records.map mark = s.records.map mark ∨
      ∃ m, (s.step e).2.records.map mark = s.records.map mark ++ [m] := by
  cases e with
  | enter a node => exact .inl rfl
  | leave =>
    left
    rcases hv : s.visits with - | ⟨c, outer⟩
    · rw [step_leave_nil hv]
    · rw [step_leave_cons hv]
      rfl
  | edit e =>
    rcases hv : s.visits with - | ⟨c, outer⟩
    · rw [step_edit_nil hv]
      exact .inl rfl
    · obtain ⟨s', hstep, -, hrs⟩ := h.step_edit hv e
      rw [hstep]
      cases hr : e.isReplace && c.edited with
      | true =>
        left
        rw [hrs, Context.recordsIn_of_repeated hr]
        rw [Bool.and_eq_true] at hr
        obtain ⟨m, rfl⟩ := Edit.exists_replace hr.1
        cases s.buffer.mode with
        | sequential => exact map_mark_rewriteLast c.anchor m s.records
        | parallel => rfl
      | false =>
        right
        rw [hrs, Context.recordsIn_of_first hr, List.map_append]
        exact ⟨_, rfl⟩

/-! ## While a visit is open -/

/-- A visit is open that was opened inside `outer` when the records were `rs`, and `k` visits are open
inside it. The records are still there, and none of these visits has its own among them. -/
structure Within (rs : List (EditRecord α)) (outer : List (Context α)) (k : Nat) (s : Session α) :
    Prop where
  kept : rs <+: s.records
  visits : ∃ inner, s.visits = inner ++ outer ∧ inner.length = k + 1 ∧
    ∀ c ∈ inner, c.Placed rs.length s.buffer

theorem within_enter (s : Session α) (a : NodeId) (node : α) :
    Within s.records s.visits 0 (s.step (.enter a node)).2 where
  kept := List.prefix_refl _
  visits := by
    refine ⟨[.enter a node], rfl, rfl, ?_⟩
    intro c hc
    rw [List.mem_singleton.1 hc]
    exact Context.placed_enter _ a node s.buffer

namespace Within

variable {rs : List (EditRecord α)} {outer : List (Context α)} {k : Nat} {s : Session α}

theorem step_enter (h : Within rs outer k s) (a : NodeId) (node : α) :
    Within rs outer (k + 1) (s.step (.enter a node)).2 := by
  obtain ⟨inner, hv, hlength, hplaced⟩ := h.visits
  refine ⟨h.kept, .enter a node :: inner, congrArg (_ :: ·) hv, congrArg (· + 1) hlength, ?_⟩
  intro c hc
  rcases List.mem_cons.1 hc with rfl | hc
  · exact Context.placed_enter _ a node s.buffer
  · exact hplaced c hc

theorem step_leave (h : Within rs outer (k + 1) s) : Within rs outer k (s.step .leave).2 := by
  obtain ⟨inner, hv, hlength, hplaced⟩ := h.visits
  rcases inner with - | ⟨c, inner⟩
  · cases hlength
  · rw [step_leave_cons hv]
    exact ⟨h.kept, inner, rfl, Nat.succ.inj hlength,
      fun d hd => hplaced d (List.mem_cons_of_mem c hd)⟩

theorem step_edit (h : Within rs outer k s) (e : Edit α) :
    Within rs outer k (s.step (.edit e)).2 ∧
      (s.buffer.mode = .sequential → (s.step (.edit e)).1 = .recorded (.ok .proceed)) := by
  obtain ⟨inner, hv, hlength, hplaced⟩ := h.visits
  rcases inner with - | ⟨c, inner⟩
  · cases hlength
  · obtain ⟨hkept, hself, hothers, hok⟩ :=
      Context.record_keeps h.kept (hplaced c List.mem_cons_self) e
    have hv' : s.visits = c :: (inner ++ outer) := hv
    simp only [step, hv']
    refine ⟨⟨hkept, _ :: inner, rfl, hlength, ?_⟩, fun hm => by rw [hok hm]⟩
    intro d hd
    rcases List.mem_cons.1 hd with rfl | hd
    · exact hself
    · exact hothers d (hplaced d (List.mem_cons_of_mem c hd))

/-- An event that the visit lives through. It is not refused where records can be written over. -/
theorem step (h : Within rs outer k s) {e : Event α} {es : List (Event α)}
    (hes : Event.during k (e :: es) = true) :
    ∃ k', Event.during k' es = true ∧ Within rs outer k' (s.step e).2 ∧
      (s.buffer.mode = .sequential → ∀ err, (s.step e).1 ≠ .recorded (.error err)) := by
  cases e with
  | enter a node =>
    refine ⟨k + 1, ?_, h.step_enter a node, fun _ err he => by cases he⟩
    cases k <;> exact hes
  | leave =>
    cases k with
    | zero => cases hes
    | succ k =>
      refine ⟨k, hes, h.step_leave, fun _ err he => ?_⟩
      rcases hv : s.visits with - | ⟨c, outer⟩
      · rw [step_leave_nil hv] at he
        cases he
      · rw [step_leave_cons hv] at he
        cases he
  | edit e =>
    obtain ⟨hnext, hanswer⟩ := h.step_edit e
    refine ⟨k, ?_, hnext, fun hm err he => ?_⟩
    · cases k <;> exact hes
    · rw [hanswer hm] at he
      cases he

/-- As long as the visit is open, the records from before it stay, and nothing is refused where records
can be written over. -/
theorem run (es : List (Event α)) : ∀ {k : Nat} {s : Session α}, Within rs outer k s →
    Event.during k es = true →
      rs <+: (s.run es).2.records ∧
        (s.buffer.mode = .sequential → ∀ err, .recorded (.error err) ∉ (s.run es).1) := by
  induction es with
  | nil =>
    intro k s h _
    exact ⟨h.kept, fun _ err he => by cases he⟩
  | cons e es ih =>
    intro k s h hes
    obtain ⟨k', hes', hnext, hanswer⟩ := h.step hes
    obtain ⟨hkept, hanswers⟩ := ih hnext hes'
    rw [run_cons]
    refine ⟨hkept, fun hm err he => ?_⟩
    rcases List.mem_cons.1 he with he | he
    · exact hanswer hm err he.symm
    · exact hanswers ((mode_step s e).trans hm) err he

end Within

/-! ## Walks -/

/-- What one visit asks for leaves the records before it as they were. Where records can be written
over, it is not refused. -/
theorem visit_keeps (v : Visit α) (a : NodeId) (node : α) (b : EditBuffer α) :
    b.records <+: (v.run (.enter a node) b).buffer.records ∧
      (b.mode = .sequential → ∀ err, .error err ∉ v.results (.enter a node) b) := by
  have hrun := run_requests v (.enter a node) b []
  obtain ⟨hkept, hok⟩ := (within_enter (⟨b, []⟩ : Session α) a node).run
    ((v.requests (.enter a node) b).map .edit) (Event.during_edits 0 _)
  have hopen : ((⟨b, []⟩ : Session α).step (.enter a node)).2 = ⟨b, [.enter a node]⟩ := rfl
  rw [hopen, hrun] at hkept hok
  refine ⟨hkept, fun hm err he => hok hm err ?_⟩
  exact List.mem_map_of_mem he

theorem walkAlong_prefix (s : Session Tree) (t : Tree) (editor : WalkEditor) :
    s.records <+: (s.walkAlong t editor).session.records := by
  let P : Walk → Prop := fun w => s.records <+: w.buffer.records
  have hkeeps : ∀ w id t, P w → P (w.visit editor id t).2 := by
    intro w id t hw
    exact hw.trans (visit_keeps _ ⟨id⟩ t w.buffer).1
  have hfails : ∀ w id t e, P w → (w.visit editor id t).1 = .error e → True := by
    intros
    trivial
  rw [session_walkAlong]
  exact (walkAlong_keeps hkeeps hfails (List.prefix_refl _) t).1

theorem walkParallel_prefix (s : Session Tree) (t : Tree) (editor : WalkEditor) :
    s.records <+: (s.walkParallel t editor).session.records := by
  cases hm : s.buffer.mode with
  | sequential =>
    simp only [walkParallel_eq_error hm, List.prefix_refl]
  | parallel =>
    rw [walkParallel_eq_walkAlong hm]
    exact s.walkAlong_prefix t editor

/-- Any event adds one record at the end or leaves the nodes and the kinds of all records as they are.
What was recorded before a visit opened stays while that visit is open, whatever is asked for in it or
inside it. So a walk, however it ends, leaves all records from before it in front, as they were. -/
theorem earlier_records_stay (o : Options) :
    (∀ {α : Type} (es : List (Event α)) (e : Event α) {as : List (Answer α)} {s : Session α},
      (start o).run es = (as, s) →
        (s.step e).2.records.map mark = s.records.map mark ∨
          ∃ m, (s.step e).2.records.map mark = s.records.map mark ++ [m]) ∧
    (∀ {α : Type} (s : Session α) (a : NodeId) (node : α) (es : List (Event α)),
      Event.during 0 es = true →
        s.records <+: ((s.step (.enter a node)).2.run es).2.records) ∧
    ∀ (s : Session Tree) (t : Tree) (editor : WalkEditor),
      s.records <+: (s.walkSequential t editor).session.records ∧
        s.records <+: (s.walkParallel t editor).session.records ∧
        s.records <+: (s.walk t editor).session.records := by
  refine ⟨?_, ?_, ?_⟩
  · intro α es e as s h
    have hs := (coherent_start (α := α) o).run es
    rw [h] at hs
    exact marks_step hs e
  · intro α s a node es hes
    exact ((within_enter s a node).run es hes).1
  · intro s t editor
    have hsequential : s.records <+: (s.walkSequential t editor).session.records := by
      rw [walkSequential_eq_walkAlong]
      exact s.walkAlong_prefix t editor
    refine ⟨hsequential, s.walkParallel_prefix t editor, ?_⟩
    rw [walk]
    split
    · exact hsequential
    · exact s.walkParallel_prefix t editor

/-- Changes every node twice, and then marks it for deletion. -/
def changeTwice : Editor Tree :=
  Visit.edits (fun _ => .proceed) [.replace (.leaf "x"), .replace (.leaf "y"), .delete]

/-- A changed visit is open when another of the same node opens, which is changed before and after one
inside it. A walk over the session then comes to the node once more. -/
theorem earlier_records_stay_nested :
    let es : List (Event Tree) := [.enter ⟨0⟩ (.leaf "a"), .edit (.replace (.leaf "b"))]
    let inner : List (Event Tree) := [.edit (.replace (.leaf "c")), .enter ⟨1⟩ (.leaf "d"),
      .edit .delete, .leave, .edit (.replace (.leaf "e"))]
    ∃ as s, (start ⟨.sequential, 0⟩).run es = (as, s) ∧
      ((s.step (.edit .delete)).2.records.map mark = s.records.map mark ∨
        ∃ m, (s.step (.edit .delete)).2.records.map mark = s.records.map mark ++ [m]) ∧
      s.records = [⟨⟨0⟩, .replace (.leaf "b")⟩] ∧
      Event.during 0 inner = true ∧
      s.records <+: ((s.step (.enter ⟨0⟩ (.leaf "a"))).2.run inner).2.records ∧
      s.records <+: (s.walkSequential (.node "r" [.leaf "t"]) changeTwice).session.records := by
  intro es inner
  obtain ⟨hstep, hwithin, hwalk⟩ := earlier_records_stay ⟨.sequential, 0⟩
  exact ⟨_, _, rfl, hstep es (.edit .delete) rfl, rfl, rfl, hwithin _ ⟨0⟩ (.leaf "a") inner rfl,
    (hwalk _ (.node "r" [.leaf "t"]) changeTwice).1⟩

end Session
end TreeEdits
