import TreeEdits.Proofs.Session.Either
import TreeEdits.Proofs.Session.History

/-!
# TreeEdits.Proofs.Session.Refused

A session whose records can only grow, against one whose records can be written over. A request that
the first refuses leaves no trace, and without those requests the two do the same.

* `Session.noted`: the open visits of a run and whether a change of theirs was recorded, read off the
  events and the answers.
* `recorded_error_iff`: which requests are refused.
* `Session.Mirrors`: two sessions of different modes with the same visits and the same records. A
  refused request leaves them so, and any other event leads both of them on (`Mirrors.step_refused`,
  `Mirrors.step_kept`).
* `run_parallel_eq_run_kept`: a run against the same run with the refused requests left out.
-/

namespace TreeEdits

variable {α : Type}

/-- Whether an answer says that a request was refused. -/
def Answer.refuses : Answer α → Bool
  | recorded (.error _) => true
  | _ => false

theorem Answer.refuses_ok (k : Control) : (recorded (.ok k) : Answer α).refuses = false := rfl

namespace Event

/-- The open visits after an event and its answer, innermost first: their nodes, and whether a change
of theirs was recorded. -/
def noted : Event α → Answer α → List (NodeId × Bool) → List (NodeId × Bool)
  | enter a _, _, vs => (a, false) :: vs
  | leave, _, vs => vs.tail
  | edit _, _, [] => []
  | edit e, answer, (a, changed) :: vs => (a, changed || (e.isReplace && !answer.refuses)) :: vs

end Event

namespace Session

/-- The open visits after some events with their answers, from those before them. -/
def noted (vs : List (NodeId × Bool)) : List (Event α × Answer α) → List (NodeId × Bool)
  | [] => vs
  | (e, answer) :: h => noted (e.noted answer vs) h

/-- The events of a run that were not refused. -/
def kept (es : List (Event α)) (as : List (Answer α)) : List (Event α) :=
  ((es.zip as).filter fun x => !x.2.refuses).map Prod.fst

theorem kept_cons_refused {a : Answer α} (h : a.refuses = true) (e : Event α) (es : List (Event α))
    (as : List (Answer α)) : kept (e :: es) (a :: as) = kept es as := by
  simp [kept, h]

theorem kept_cons_accepted {a : Answer α} (h : a.refuses = false) (e : Event α) (es : List (Event α))
    (as : List (Answer α)) : kept (e :: es) (a :: as) = e :: kept es as := by
  simp [kept, h]

theorem coherent_of_parallel {s : Session α} (h : s.buffer.mode = .parallel) : s.Coherent := by
  intro b hb
  rw [hb] at h
  cases h

/-- What is answered to an event that follows others. -/
theorem answer_run (before after : List (Event α)) (e : Event α) (s : Session α) :
    (s.run (before ++ e :: after)).1[before.length]? = some ((s.run before).2.step e).1 := by
  have hlength := length_run before s
  rw [run_append, run_cons, List.getElem?_append_right (Nat.le_of_eq hlength), hlength, Nat.sub_self,
    List.getElem?_cons_zero]

theorem zip_run_append (before after : List (Event α)) (s : Session α) :
    before.zip (s.run (before ++ after)).1 = before.zip (s.run before).1 := by
  have hzip : (before ++ []).zip ((s.run before).1 ++ ((s.run before).2.run after).1) =
      before.zip (s.run before).1 ++ [].zip ((s.run before).2.run after).1 :=
    List.zip_append (length_run before s).symm
  rw [run_append]
  rwa [List.append_nil, List.zip_nil_left, List.append_nil] at hzip

/-! ## What is refused -/

theorem noted_step {s : Session α} (h : s.buffer.mode = .parallel) (e : Event α) :
    e.noted (s.step e).1 s.outline = (s.step e).2.outline := by
  cases e with
  | enter a node => rfl
  | leave =>
    rcases hv : s.visits with - | ⟨c, outer⟩
    · rw [step_leave_nil hv, outline_nil hv]
      rfl
    · rw [step_leave_cons hv, outline_cons hv]
      rfl
  | edit e =>
    rcases hv : s.visits with - | ⟨c, outer⟩
    · rw [step_edit_nil hv, outline_nil hv]
      rfl
    · obtain ⟨s', hstep, hv', -⟩ := (coherent_of_parallel h).step_edit hv e
      rw [hstep, outline_cons hv, outline_cons hv', h]
      cases hr : e.isReplace && c.edited with
      | true =>
        rw [Context.askIn_of_repeated hr, Event.noted, Answer.refuses, Bool.not_true, Bool.and_false,
          Bool.or_false]
      | false =>
        rw [Context.askIn_of_first hr, Event.noted, Answer.refuses_ok, Bool.not_false, Bool.and_true,
          Context.anchor_advance, Context.edited_advance]

theorem noted_run (es : List (Event α)) : ∀ {s : Session α}, s.buffer.mode = .parallel →
    noted s.outline (es.zip (s.run es).1) = (s.run es).2.outline := by
  induction es with
  | nil => intro s _; rfl
  | cons e es ih =>
    intro s h
    rw [run, List.zip_cons_cons, noted, noted_step h]
    exact ih ((mode_step s e).trans h)

/-- A request is refused exactly if it is a change of a visit that changed its node before. -/
theorem recorded_error_iff {s : Session α} (h : s.buffer.mode = .parallel) (e : Event α)
    (err : EditError) :
    (s.step e).1 = .recorded (.error err) ↔
      ∃ node a outer, e = .edit (.replace node) ∧ s.outline = (a, true) :: outer ∧
        err = .conflict a := by
  cases e with
  | enter a node => simp [step]
  | leave => rcases hv : s.visits with - | ⟨c, outer⟩ <;> simp [step, hv]
  | edit e =>
    rcases hv : s.visits with - | ⟨c, outer⟩
    · simp [step_edit_nil hv, outline_nil hv]
    · obtain ⟨s', hstep, -⟩ := (coherent_of_parallel h).step_edit hv e
      rw [hstep, outline_cons hv, h]
      cases hr : e.isReplace && c.edited with
      | true =>
        rw [Context.askIn_of_repeated hr]
        rw [Bool.and_eq_true] at hr
        obtain ⟨node, rfl⟩ := Edit.exists_replace hr.1
        simp [hr.2, eq_comm]
      | false =>
        rw [Context.askIn_of_first hr]
        cases e with
        | replace node =>
          have hc : c.edited = false := hr
          simp [hc]
        | delete => simp
        | insertBefore node => simp
        | insertAfter node => simp

/-! ## The same without what is refused -/

/-- Two sessions, one whose records can only grow and one whose records can be written over, with the
same open visits and the same records. -/
structure Mirrors (p q : Session α) : Prop where
  parallel : p.buffer.mode = .parallel
  sequential : q.buffer.mode = .sequential
  coherent : q.Coherent
  visits : p.visits = q.visits
  records : p.records = q.records

theorem mirrors_start (hint hint' : Nat) :
    Mirrors (start ⟨.parallel, hint⟩ : Session α) (start ⟨.sequential, hint'⟩) where
  parallel := rfl
  sequential := rfl
  coherent := coherent_start _
  visits := rfl
  records := rfl

namespace Mirrors

variable {p q : Session α}

theorem ended? (h : Mirrors p q) (e : Event α) : e.ended? p.visits = e.ended? q.visits := by
  rw [h.visits]

theorem step_refused (h : Mirrors p q) {e : Event α} (hr : (p.step e).1.refuses = true) :
    Mirrors (p.step e).2 q ∧ e.ended? p.visits = none := by
  cases e with
  | enter a node => cases hr
  | leave =>
    rcases hv : p.visits with - | ⟨c, outer⟩
    · rw [step_leave_nil hv] at hr
      cases hr
    · rw [step_leave_cons hv] at hr
      cases hr
  | edit e =>
    refine ⟨?_, rfl⟩
    rcases hv : p.visits with - | ⟨c, outer⟩
    · rw [step_edit_nil hv] at hr
      cases hr
    · obtain ⟨p', hstep, hv', hrs'⟩ := (coherent_of_parallel h.parallel).step_edit hv e
      have hmode := mode_step p (.edit e)
      rw [hstep, h.parallel] at hmode
      rw [hstep, h.parallel] at hr
      rw [h.parallel] at hv' hrs'
      cases hagain : e.isReplace && c.edited with
      | false =>
        rw [Context.askIn_of_first hagain] at hr
        cases hr
      | true =>
        rw [Context.askIn_of_repeated hagain] at hv'
        rw [Context.recordsIn_of_repeated hagain] at hrs'
        rw [hstep]
        exact ⟨hmode, h.sequential, h.coherent, by rw [hv', ← hv, h.visits], hrs'.trans h.records⟩

theorem step_kept (h : Mirrors p q) {e : Event α} (hr : (p.step e).1.refuses = false) :
    (q.step e).1 = (p.step e).1 ∧ Mirrors (p.step e).2 (q.step e).2 := by
  have hp := (mode_step p e).trans h.parallel
  have hq := (mode_step q e).trans h.sequential
  have hcoherent := h.coherent.step e
  cases e with
  | enter a node => exact ⟨rfl, hp, hq, hcoherent, congrArg (_ :: ·) h.visits, h.records⟩
  | leave =>
    rcases hv : p.visits with - | ⟨c, outer⟩
    · rw [step_leave_nil hv, step_leave_nil (h.visits.symm.trans hv)]
      exact ⟨rfl, h⟩
    · have hvq := h.visits.symm.trans hv
      rw [step_leave_cons hvq] at hcoherent
      rw [step_leave_cons hv, step_leave_cons hvq]
      exact ⟨rfl, h.parallel, h.sequential, hcoherent, rfl, h.records⟩
  | edit e =>
    rcases hv : p.visits with - | ⟨c, outer⟩
    · rw [step_edit_nil hv, step_edit_nil (h.visits.symm.trans hv)]
      exact ⟨rfl, h⟩
    · obtain ⟨p', hstep, hv', hrs'⟩ := (coherent_of_parallel h.parallel).step_edit hv e
      obtain ⟨q', hstepq, hvq', hrsq'⟩ := h.coherent.step_edit (h.visits.symm.trans hv) e
      rw [hstep] at hp hr ⊢
      rw [hstepq] at hq hcoherent ⊢
      rw [h.parallel] at hr hv' hrs' ⊢
      rw [h.sequential] at hvq' hrsq' ⊢
      cases hagain : e.isReplace && c.edited with
      | true =>
        rw [Context.askIn_of_repeated hagain] at hr
        cases hr
      | false =>
        rw [Context.askIn_of_first hagain] at hv' hvq' ⊢
        rw [Context.recordsIn_of_first hagain] at hrs' hrsq'
        rw [Context.askIn_of_first hagain]
        exact ⟨rfl, hp, hq, hcoherent, hv'.trans hvq'.symm, by rw [hrs', hrsq', h.records]⟩

theorem run (es : List (Event α)) : ∀ {p q : Session α}, Mirrors p q →
    Mirrors (p.run es).2 (q.run (kept es (p.run es).1)).2 ∧
      (q.run (kept es (p.run es).1)).1 = (p.run es).1.filter (fun a => !a.refuses) ∧
      p.ended es = q.ended (kept es (p.run es).1) := by
  induction es with
  | nil => intro p q h; exact ⟨h, rfl, rfl⟩
  | cons e es ih =>
    intro p q h
    rw [run_cons, ended]
    cases hr : (p.step e).1.refuses with
    | true =>
      obtain ⟨hnext, hended⟩ := h.step_refused hr
      obtain ⟨hlast, hanswers, hover⟩ := ih hnext
      rw [kept_cons_refused hr, hended, List.filter_cons, hr]
      exact ⟨hlast, hanswers, hover⟩
    | false =>
      obtain ⟨hanswer, hnext⟩ := h.step_kept hr
      obtain ⟨hlast, hanswers, hover⟩ := ih hnext
      rw [kept_cons_accepted hr, run_cons, ended, List.filter_cons, hr, h.ended? e, hover]
      refine ⟨hlast, ?_, rfl⟩
      rw [hanswer, hanswers]
      rfl

end Mirrors

/-- Where records can only grow, the requests that are refused are exactly the changes of a visit
that had a change recorded before. Where records can be written over, the same run without these
requests gives the same answers to all others and leaves the same records, and every visit of it, also
one that ended, is in the same state. -/
theorem run_parallel_eq_run_kept (hint hint' : Nat) (es : List (Event α)) {as : List (Answer α)}
    {p : Session α} (h : (start ⟨.parallel, hint⟩).run es = (as, p)) :
    (∀ before e after, es = before ++ e :: after → ∀ err,
      as[before.length]? = some (.recorded (.error err)) ↔
        ∃ node a outer, e = .edit (.replace node) ∧ noted [] (before.zip as) = (a, true) :: outer ∧
          err = .conflict a) ∧
    ∃ q, (start ⟨.sequential, hint'⟩).run (kept es as) = (as.filter fun a => !a.refuses, q) ∧
      p.records = q.records ∧
      (start ⟨.parallel, hint⟩).met es = (start ⟨.sequential, hint'⟩).met (kept es as) := by
  obtain ⟨hlast, hanswers, hover⟩ := Mirrors.run es (mirrors_start (α := α) hint hint')
  rw [h] at hlast hanswers hover
  refine ⟨?_, _, Prod.ext hanswers rfl, hlast.records, ?_⟩
  · rintro before e after rfl err
    have hmode := mode_run before (start ⟨.parallel, hint⟩ : Session α)
    have hnoted := noted_run before (s := (start ⟨.parallel, hint⟩ : Session α)) rfl
    have hat := answer_run before after e (start ⟨.parallel, hint⟩)
    have hzip := zip_run_append before (e :: after) (start ⟨.parallel, hint⟩)
    rw [h] at hat hzip
    rw [hat, hzip, Option.some.injEq, recorded_error_iff hmode, ← hnoted]
    rfl
  · rw [met, met, h, hover, hlast.visits]

/-- A node is changed twice, then once in a visit inside its own, and once more after that. The second
and the last change are refused. -/
theorem run_parallel_eq_run_kept_twice :
    let es : List (Event String) := [.enter ⟨1⟩ "a", .edit (.replace "b"), .edit (.replace "c"),
      .enter ⟨1⟩ "a", .edit (.replace "d"), .leave, .edit .delete, .edit (.replace "e")]
    ∃ as p q, (start ⟨.parallel, 0⟩).run es = (as, p) ∧
      as[2]? = some (.recorded (.error (.conflict ⟨1⟩))) ∧
      (start ⟨.sequential, 0⟩).run (kept es as) = (as.filter fun a => !a.refuses, q) ∧
      (kept es as).length = 6 ∧
      p.records = q.records ∧
      (start ⟨.parallel, 0⟩).met es = (start ⟨.sequential, 0⟩).met (kept es as) := by
  intro es
  obtain ⟨hrefused, q, hkept, hrecords, hmet⟩ := run_parallel_eq_run_kept 0 0 es rfl
  have hsecond := (hrefused (es.take 2) (.edit (.replace "c")) (es.drop 3) rfl (.conflict ⟨1⟩)).2
    ⟨"c", ⟨1⟩, [], rfl, rfl, rfl⟩
  exact ⟨_, _, q, rfl, hsecond, hkept, rfl, hrecords, hmet⟩

end Session
end TreeEdits
