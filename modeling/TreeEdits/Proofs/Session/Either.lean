import TreeEdits.Proofs.Pool.Turn
import TreeEdits.Proofs.Session.Sequential

/-!
# TreeEdits.Proofs.Session.Either

Sessions of either mode, told from their records and their open visits. Where records can be written
over, this needs the invariant that a changed visit finds its record; where they can only grow, it
needs nothing.

* `Context.askIn`, `Context.recordsIn`: what a request gives in a mode, and the records after it.
  Only a repeated change tells the modes apart.
* `Session.Coherent`: the invariant. It holds of a new session and after every event
  (`coherent_start`, `Coherent.step`), and lets any request go as its mode has it
  (`Coherent.step_edit`).
* `Session.met`: every visit of a run, as it was when it ended or, if it is open, as it is.
-/

namespace TreeEdits

variable {α : Type}

theorem Edit.exists_replace {e : Edit α} (h : e.isReplace = true) : ∃ node, e = .replace node := by
  cases e with
  | replace node => exact ⟨node, rfl⟩
  | delete => cases h
  | insertBefore node => cases h
  | insertAfter node => cases h

namespace Context

open EditRecord

/-- What a request gives in a pass of a mode, and the visit after it. -/
def askIn (m : Mode) (c : Context α) (e : Edit α) : Except EditError Control × Context α :=
  match m with
  | .sequential => (.ok .proceed, c.advance e)
  | .parallel => c.ask e

/-- The records after a request in a pass of a mode. -/
def recordsIn (m : Mode) (c : Context α) (rs : List (EditRecord α)) (e : Edit α) :
    List (EditRecord α) :=
  match m with
  | .sequential => c.recordsAfter rs e
  | .parallel => rs ++ (c.adds? e).toList

theorem askIn_of_first {c : Context α} {e : Edit α} (h : (e.isReplace && c.edited) = false)
    (m : Mode) : c.askIn m e = (.ok .proceed, c.advance e) := by
  cases m with
  | sequential => rfl
  | parallel => rw [askIn, ask, h, if_neg Bool.false_ne_true]

theorem recordsIn_of_first {c : Context α} {e : Edit α} (h : (e.isReplace && c.edited) = false)
    (m : Mode) (rs : List (EditRecord α)) : c.recordsIn m rs e = rs ++ [⟨c.anchor, e⟩] := by
  cases m with
  | sequential => rw [recordsIn, recordsAfter, h, if_neg Bool.false_ne_true]
  | parallel => rw [recordsIn, adds?, h, if_neg Bool.false_ne_true, Option.toList_some]

/-- A repeated change is written over the record of its node, or refused. -/
theorem recordsIn_of_repeated {c : Context α} {e : Edit α} (h : (e.isReplace && c.edited) = true)
    (m : Mode) (rs : List (EditRecord α)) :
    c.recordsIn m rs e = match m with
      | .sequential => rewriteLast ⟨c.anchor, e⟩ rs
      | .parallel => rs := by
  cases m with
  | sequential => rw [recordsIn, recordsAfter, if_pos h]
  | parallel => rw [recordsIn, adds?, if_pos h, Option.toList_none, List.append_nil]

theorem askIn_of_repeated {c : Context α} {e : Edit α} (h : (e.isReplace && c.edited) = true) :
    c.askIn .parallel e = (.error (.conflict c.anchor), c) := by
  rw [askIn, ask, if_pos h]

end Context

namespace Event

/-- The visit that an event ends. -/
def ended? : Event α → List (Context α) → Option (Context α)
  | leave, c :: _ => some c
  | _, _ => none

end Event

namespace Session

/-- The visits that end in a run, in the order in which they do, each as it was then. -/
def ended (s : Session α) : List (Event α) → List (Context α)
  | [] => []
  | e :: es => (e.ended? s.visits).toList ++ (s.step e).2.ended es

/-- Every visit of a run: those that ended, and those that are open after it. -/
def met (s : Session α) (es : List (Event α)) : List (Context α) := s.ended es ++ (s.run es).2.visits

/-- If the records of a session can be written over, then every open visit finds its own. -/
def Coherent (s : Session α) : Prop := ∀ b, s.buffer = .sequential b → s.Sound b

theorem coherent_start (o : Options) : (start o : Session α).Coherent := by
  obtain ⟨mode, hint⟩ := o
  intro b hb
  cases mode with
  | sequential =>
    cases hb
    exact sound_start hint
  | parallel => cases hb

theorem step_leave_nil {s : Session α} (hv : s.visits = []) : s.step .leave = (.nothing, s) := by
  rw [step, hv]

theorem step_leave_cons {s : Session α} {c : Context α} {outer : List (Context α)}
    (hv : s.visits = c :: outer) : s.step .leave = (.left c.node, { s with visits := outer }) := by
  simp only [step, hv]

/-- An event never changes the kind of buffer. -/
theorem mode_step (s : Session α) (e : Event α) : (s.step e).2.buffer.mode = s.buffer.mode := by
  cases e with
  | enter a node => rfl
  | leave => rcases hv : s.visits with - | ⟨c, outer⟩ <;> simp only [step, hv]
  | edit e =>
    rcases hv : s.visits with - | ⟨c, outer⟩
    · rw [step_edit_nil hv]
    · simp only [step, hv]
      exact Context.mode_record c s.buffer e

namespace Coherent

variable {s : Session α}

theorem step (h : s.Coherent) (e : Event α) : (s.step e).2.Coherent := by
  intro b hb
  have hmode := mode_step s e
  rw [hb] at hmode
  rcases hs : s.buffer with b₀ | b₀
  · obtain ⟨⟨b', hb'⟩, -⟩ := (h b₀ hs).step e
    cases hb.symm.trans hb'.buffer
    exact hb'
  · rw [hs] at hmode
    cases hmode

theorem run (es : List (Event α)) : ∀ {s : Session α}, s.Coherent → (s.run es).2.Coherent := by
  induction es with
  | nil => intro s h; exact h
  | cons e es ih => intro s h; exact ih (h.step e)

/-- The innermost visit asks for an edit, and that goes as the mode has it. -/
theorem step_edit (h : s.Coherent) {c : Context α} {outer : List (Context α)}
    (hv : s.visits = c :: outer) (e : Edit α) :
    ∃ s', s.step (.edit e) = (.recorded (c.askIn s.buffer.mode e).1, s') ∧
      s'.visits = (c.askIn s.buffer.mode e).2 :: outer ∧
      s'.records = c.recordsIn s.buffer.mode s.records e := by
  rcases hs : s.buffer with b | b
  · obtain ⟨b', hstep, -, hrs⟩ := (h b hs).step_edit hv e
    refine ⟨_, hstep, rfl, ?_⟩
    rw [records, records, hs]
    exact hrs
  · obtain ⟨hresult, hcontext, hrs⟩ := c.recordParallel_eq b e
    refine ⟨⟨.parallel (c.recordParallel b e).buffer, (c.recordParallel b e).context :: outer⟩,
      ?_, ?_, ?_⟩
    · simp only [Session.step, hv, hs, Context.record, hresult]
      rfl
    · rw [hcontext]
      rfl
    · rw [records, records, hs]
      exact hrs

end Coherent

theorem mode_run (es : List (Event α)) : ∀ s : Session α,
    (s.run es).2.buffer.mode = s.buffer.mode := by
  induction es with
  | nil => intro s; rfl
  | cons e es ih => intro s; exact (ih _).trans (mode_step s e)

end Session
end TreeEdits
