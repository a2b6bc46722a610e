import TreeEdits.Proofs.Walk.Along

/-!
# TreeEdits.Proofs.Walk.Events

A walk as a run of events. Each of its visits opens, asks for its edits and ends, so what holds after
every run of a session also holds after every walk over it.

* `Visit.requests`, `Visit.results`: what a visit asks for, and how its requests went. `run_requests`
  makes the same requests as events of an open visit.
* `Visit.Relays`: a visit that does not fail with an error of its own making.
* `walkSequential_run`: the session after a walk is one that events lead to, and what a walk fails
  with is the answer to one of them.
-/

namespace TreeEdits

variable {α : Type}

namespace Visit

/-- The edits that a visit asks for. -/
def requests : Visit α → Context α → EditBuffer α → List (Edit α)
  | done _, _, _ => []
  | ask e next, c, b =>
    let o := c.record b e
    e :: (next o.result (o.context.sight o.buffer)).requests o.context o.buffer

/-- How the requests of a visit went. -/
def results : Visit α → Context α → EditBuffer α → List (Except EditError Control)
  | done _, _, _ => []
  | ask e next, c, b =>
    let o := c.record b e
    o.result :: (next o.result (o.context.sight o.buffer)).results o.context o.buffer

/-- Whether a visit fails with an error only after a request of its own was refused with it. -/
def Relays (err : EditError) : Visit α → Prop
  | done result => result ≠ .error err
  | ask _ next => ∀ result sight, result ≠ .error err → (next result sight).Relays err

theorem mem_results_of_relays {err : EditError} (v : Visit α) :
    ∀ (c : Context α) (b : EditBuffer α), v.Relays err → (v.run c b).result = .error err →
      .error err ∈ v.results c b := by
  induction v with
  | done result =>
    intro c b h hr
    exact absurd hr h
  | ask e next ih =>
    intro c b h hr
    by_cases hres : (c.record b e).result = .error err
    · rw [results, hres]
      exact List.mem_cons_self
    · exact List.mem_cons_of_mem _ (ih _ _ _ _ (h _ _ hres) hr)

theorem relays_edits (err : EditError) (finish : Sight α → Control) (es : List (Edit α)) :
    ∀ sight : Sight α, (edits finish es sight).Relays err := by
  induction es with
  | nil =>
    intro sight h
    cases h
  | cons e es ih =>
    intro _ result sight h
    cases result with
    | error err' => exact h
    | ok control => exact ih sight

end Visit

/-- Whether the visits of an editor fail with an error only if one of their requests did. -/
def WalkEditor.Relays (editor : WalkEditor) (err : EditError) : Prop :=
  ∀ log sight, (editor.after log sight).Relays err

namespace Failure

theorem ofEditError_injective {e e' : EditError} (h : Failure.ofEditError e = .ofEditError e') :
    e = e' := by
  cases e with
  | conflict a =>
    cases e' with
    | conflict a' => rw [(Failure.editConflict.inj h).1]
    | missingReplace a' => cases h
  | missingReplace a =>
    cases e' with
    | conflict a' => cases h
    | missingReplace a' => rw [Option.some.inj (Failure.internal.inj h).2]

end Failure

namespace Session

theorem run_requests (v : Visit α) : ∀ (c : Context α) (b : EditBuffer α) (outer : List (Context α)),
    (⟨b, c :: outer⟩ : Session α).run ((v.requests c b).map .edit) =
      ((v.results c b).map .recorded, ⟨(v.run c b).buffer, (v.run c b).context :: outer⟩) := by
  induction v with
  | done result => intro c b outer; rfl
  | ask e next ih =>
    intro c b outer
    rw [Visit.requests, List.map_cons, run, step]
    simp only [ih]
    rfl

end Session

namespace Walk

/-- The events of the visit that a walk would make next. -/
def events (w : Walk) (editor : WalkEditor) (id : UInt32) (t : Tree) : List (Event Tree) :=
  let c := Context.enter ⟨id⟩ t
  .enter ⟨id⟩ t :: (((editor.after w.log (c.sight w.buffer)).requests c w.buffer).map .edit ++ [.leave])

end Walk

namespace Session

theorem run_events (w : Walk) (editor : WalkEditor) (id : UInt32) (t : Tree)
    (outer : List (Context Tree)) :
    ((⟨w.buffer, outer⟩ : Session Tree).run (w.events editor id t)).2 =
        ⟨(w.visit editor id t).2.buffer, outer⟩ ∧
      ∀ err, editor.Relays err → (w.visit editor id t).1 = .error err →
        .recorded (.error err) ∈ ((⟨w.buffer, outer⟩ : Session Tree).run (w.events editor id t)).1 := by
  let c : Context Tree := Context.enter ⟨id⟩ t
  let v := editor.after w.log (c.sight w.buffer)
  have hrun := run_requests v c w.buffer outer
  have hopen : (⟨w.buffer, outer⟩ : Session Tree).step (.enter ⟨id⟩ t) =
      (.entered, ⟨w.buffer, c :: outer⟩) := rfl
  rw [Walk.events, run, hopen]
  simp only [run_append, c, v] at hrun ⊢
  rw [hrun]
  refine ⟨rfl, ?_⟩
  intro err hrelays herr
  have hmem := Visit.mem_results_of_relays v c w.buffer (hrelays w.log _) herr
  apply List.mem_cons_of_mem
  exact List.mem_append_left _ (List.mem_map_of_mem hmem)

/-- A walk takes a session where some run takes it. If an editor does not make up an error, then a
walk with it fails with the error only if a request in some run does. -/
theorem walkSequential_run (s : Session Tree) (t : Tree) (editor : WalkEditor) :
    (∃ es, (s.run es).2 = (s.walkSequential t editor).session) ∧
      ∀ err, editor.Relays err → (s.walkSequential t editor).result = .error (.ofEditError err) →
        ∃ es, .recorded (.error err) ∈ (s.run es).1 := by
  let P : Walk → Prop := fun w => ∃ es, (s.run es).2 = ⟨w.buffer, s.visits⟩
  let Q : EditError → Prop := fun err => editor.Relays err → ∃ es, .recorded (.error err) ∈ (s.run es).1
  have hkeeps : ∀ w id t, P w → P (w.visit editor id t).2 := by
    rintro w id t ⟨es, h⟩
    refine ⟨es ++ w.events editor id t, ?_⟩
    rw [run_append, h]
    exact (run_events w editor id t s.visits).1
  have hfails : ∀ w id t err, P w → (w.visit editor id t).1 = .error err → Q err := by
    rintro w id t err ⟨es, h⟩ herr hrelays
    refine ⟨es ++ w.events editor id t, ?_⟩
    rw [run_append, h]
    exact List.mem_append_right _ ((run_events w editor id t s.visits).2 err hrelays herr)
  rw [walkSequential_eq_walkAlong]
  obtain ⟨⟨es, hlast⟩, hfailed⟩ := walkAlong_keeps hkeeps hfails (s := s) ⟨[], rfl⟩ t
  refine ⟨⟨es, ?_⟩, ?_⟩
  · rw [hlast, session_walkAlong]
  · intro err hrelays hresult
    obtain ⟨err', heq, hq⟩ := hfailed _ hresult
    rw [Failure.ofEditError_injective heq] at hrelays ⊢
    exact hq hrelays

end Session
end TreeEdits
