import TreeEdits.Proofs.Context.Requests

/-!
# TreeEdits.Proofs.Context.Accepted

A visit of fixed edits as one call of the recorder after the other, and which of its edits are
accepted.

* `Context.recordEach`: the calls, up to the first that is refused. A visit of fixed edits is that
  (`visit_edits_eq_recordEach`).
* `Context.accepted`: the edits that are recorded. They make the visit what it is afterwards
  (`context_recordEach`), and over a buffer that only grows they are what is added
  (`recordEach_parallel`).
* `exists_refused`: the calls end with a failure only at an edit that is refused after all before it
  were accepted.
-/

namespace TreeEdits

/-- The outcome of a visit that ends as `finish` says, unless it failed. -/
def Outcome.finishing {α : Type} (finish : Sight α → Control) (o : Outcome α (EditBuffer α)) :
    Outcome α (EditBuffer α) :=
  { o with result := o.result.map fun _ => finish (o.context.sight o.buffer) }

theorem Outcome.finishing_eq_error_iff {α : Type} {finish : Sight α → Control}
    {o : Outcome α (EditBuffer α)} {err : EditError} :
    (o.finishing finish).result = .error err ↔ o.result = .error err := by
  rw [finishing]
  cases o.result <;> simp [Except.map]

theorem Outcome.exists_of_finishing_eq_ok {α : Type} {finish : Sight α → Control}
    {o : Outcome α (EditBuffer α)} {k : Control} (h : (o.finishing finish).result = .ok k) :
    ∃ k', o.result = .ok k' := by
  cases hr : o.result with
  | error err =>
    rw [finishing_eq_error_iff.2 hr] at h
    cases h
  | ok k' => exact ⟨k', rfl⟩

namespace Context

variable {α : Type}

/-- Records edits in order, up to the first that is refused. -/
def recordEach (c : Context α) (b : EditBuffer α) : List (Edit α) → Outcome α (EditBuffer α)
  | [] => ⟨.ok .proceed, c, b⟩
  | e :: es =>
    match c.record b e with
    | ⟨.error err, c, b⟩ => ⟨.error err, c, b⟩
    | ⟨.ok _, c, b⟩ => c.recordEach b es

/-- The edits that are recorded when edits are recorded in order. -/
def accepted (c : Context α) (b : EditBuffer α) : List (Edit α) → List (Edit α)
  | [] => []
  | e :: es =>
    match c.record b e with
    | ⟨.error _, _, _⟩ => []
    | ⟨.ok _, c, b⟩ => e :: c.accepted b es

theorem visit_edits_eq_recordEach (finish : Sight α → Control) (es : List (Edit α)) :
    ∀ (c : Context α) (b : EditBuffer α),
      c.visit b (Visit.edits finish es) = (c.recordEach b es).finishing finish := by
  induction es with
  | nil => intro c b; rfl
  | cons e es ih =>
    intro c b
    rw [visit_edits_cons, recordEach]
    rcases c.record b e with ⟨_ | k, c', b'⟩
    · rfl
    · exact ih c' b'

theorem accepted_of_ok {es : List (Edit α)} : ∀ {c : Context α} {b : EditBuffer α} {k : Control},
    (c.recordEach b es).result = .ok k → c.accepted b es = es := by
  induction es with
  | nil => intro c b k _; rfl
  | cons e es ih =>
    intro c b k h
    rw [recordEach] at h
    rw [accepted]
    rcases hrec : c.record b e with ⟨_ | k', c', b'⟩
    · rw [hrec] at h; cases h
    · rw [hrec] at h
      exact congrArg (e :: ·) (ih h)

theorem recordEach_append {es : List (Edit α)} (fs : List (Edit α)) :
    ∀ {c : Context α} {b : EditBuffer α} {k : Control}, (c.recordEach b es).result = .ok k →
      c.recordEach b (es ++ fs) =
        (c.recordEach b es).context.recordEach (c.recordEach b es).buffer fs := by
  induction es with
  | nil => intro c b k _; rfl
  | cons e es ih =>
    intro c b k h
    rw [List.cons_append, recordEach]
    rw [recordEach] at h ⊢
    rcases hrec : c.record b e with ⟨_ | k', c', b'⟩
    · rw [hrec] at h; cases h
    · rw [hrec] at h
      exact ih h

theorem accepted_append {es : List (Edit α)} (fs : List (Edit α)) :
    ∀ {c : Context α} {b : EditBuffer α} {k : Control}, (c.recordEach b es).result = .ok k →
      c.accepted b (es ++ fs) =
        es ++ (c.recordEach b es).context.accepted (c.recordEach b es).buffer fs := by
  induction es with
  | nil => intro c b k _; rfl
  | cons e es ih =>
    intro c b k h
    rw [List.cons_append, accepted]
    rw [recordEach] at h ⊢
    rcases hrec : c.record b e with ⟨_ | k', c', b'⟩
    · rw [hrec] at h; cases h
    · rw [hrec] at h
      exact congrArg (e :: ·) (ih h)

/-- An edit that is refused changes nothing. -/
theorem record_of_error {c : Context α} {b : EditBuffer α} {e : Edit α} {err : EditError}
    (h : (c.record b e).result = .error err) : c.record b e = ⟨.error err, c, b⟩ := by
  have hr : e.isReplace = true ∧ c.edited = true := by
    refine Decidable.byContradiction fun hno => ?_
    rw [record_of_first hno] at h
    cases h
  cases b with
  | parallel b =>
    rw [record_of_repeated hr rfl] at h ⊢
    cases h
    rfl
  | sequential b =>
    simp only [record, recordSequential, if_pos hr] at h ⊢
    cases ho : b.overwrite (c.view.record e) with
    | ok b' => rw [ho] at h; cases h
    | error err' => rw [ho] at h; cases h; rfl

/-- Afterwards a visit is what the accepted edits made of it. -/
theorem context_recordEach (es : List (Edit α)) : ∀ (c : Context α) (b : EditBuffer α),
    (c.recordEach b es).context = (c.accepted b es).foldl advance c := by
  induction es with
  | nil => intro c b; rfl
  | cons e es ih =>
    intro c b
    rw [recordEach, accepted]
    rcases hrec : c.record b e with ⟨err | k, c', b'⟩
    · have herr : (c.record b e).result = .error err := by rw [hrec]
      have hsame := record_of_error herr
      rw [hrec] at hsame
      cases hsame
      rfl
    · have hok : (c.record b e).result = .ok k := by rw [hrec]
      have hc' := context_record hok
      rw [hrec] at hc'
      cases hc'
      exact ih (c.advance e) b'

theorem mode_recordEach (es : List (Edit α)) : ∀ (c : Context α) (b : EditBuffer α),
    (c.recordEach b es).buffer.mode = b.mode := by
  induction es with
  | nil => intro c b; rfl
  | cons e es ih =>
    intro c b
    have hmode := mode_record c b e
    rw [recordEach]
    rcases hrec : c.record b e with ⟨_ | k, c', b'⟩
    · rw [hrec] at hmode; exact hmode
    · rw [hrec] at hmode; exact (ih c' b').trans hmode

/-- If calls fail, then at an edit that is refused, with nothing done after it, and all before it
were accepted. -/
theorem exists_refused {es : List (Edit α)} {err : EditError} :
    ∀ {c : Context α} {b : EditBuffer α}, (c.recordEach b es).result = .error err →
      ∃ pre e post, es = pre ++ e :: post ∧ (c.recordEach b pre).result = .ok .proceed ∧
        ((c.recordEach b pre).context.record (c.recordEach b pre).buffer e).result =
          .error err := by
  induction es with
  | nil => intro c b h; cases h
  | cons e es ih =>
    intro c b h
    rw [recordEach] at h
    rcases hrec : c.record b e with ⟨err' | k, c', b'⟩
    · rw [hrec] at h
      cases h
      exact ⟨[], e, es, rfl, rfl, by rw [recordEach, hrec]⟩
    · rw [hrec] at h
      obtain ⟨pre, e', post, hes, hok, herr⟩ := ih h
      refine ⟨e :: pre, e', post, by rw [hes, List.cons_append], ?_, ?_⟩
      · rw [recordEach, hrec]; exact hok
      · rw [recordEach, hrec]; exact herr

/-- Over a buffer that only grows the accepted edits are added, and at most one changes the node, if
it was not changed before. -/
theorem recordEach_parallel (es : List (Edit α)) : ∀ (c : Context α) {b : EditBuffer α},
    b.mode = .parallel →
      (c.recordEach b es).buffer.records =
          b.records ++ (c.accepted b es).map (EditRecord.mk c.anchor) ∧
        c.edited.toNat + (c.accepted b es).countP Edit.isReplace ≤ 1 := by
  induction es with
  | nil =>
    intro c b _
    have hone : c.edited.toNat ≤ 1 := Bool.toNat_le c.edited
    exact ⟨(List.append_nil b.records).symm, hone⟩
  | cons e es ih =>
    intro c b hb
    by_cases h : e.isReplace = true ∧ c.edited = true
    · have hone : c.edited.toNat ≤ 1 := Bool.toNat_le c.edited
      rw [recordEach, accepted, record_of_repeated h hb]
      exact ⟨(List.append_nil b.records).symm, hone⟩
    · have hmode : (b.push ⟨c.anchor, e⟩).mode = .parallel := by rw [EditBuffer.mode_push, hb]
      obtain ⟨hrecords, hcount⟩ := ih (c.advance e) hmode
      rw [countP_advance h] at hcount
      rw [recordEach, accepted, record_of_first h]
      refine ⟨?_, hcount⟩
      rw [hrecords, EditBuffer.records_push, anchor_advance, List.map_cons, List.append_assoc,
        List.singleton_append]

end Context
end TreeEdits
