import TreeEdits.Proofs.Context.Requests
import TreeEdits.Session

/-!
# TreeEdits.Proofs.Session.Sequential

A session that visits one node after the other. In every state that it reaches, an open visit that
changed its node has a replace record in the buffer, also if it waits for visits inside it to end.
So no request is refused there.

* `Session.Sound`: the invariant. It holds of a new session (`sound_start`) and after every event
  (`Sound.step_enter`, `Sound.step_leave`, `Sound.step_edit`), hence after every run (`Sound.run`).
-/

namespace TreeEdits
namespace Session

variable {α : Type}

/-- The buffer of a session can be written over and keeps the right places, and every open visit
that changed its node has a replace record in it. -/
structure Sound (s : Session α) (b : SequentialBuffer α) : Prop where
  buffer : s.buffer = .sequential b
  indexed : b.Indexed
  known : ∀ c ∈ s.visits, c.Known b

theorem sound_start (hint : Nat) : (start ⟨.sequential, hint⟩ : Session α).Sound .empty where
  buffer := rfl
  indexed := SequentialBuffer.indexed_empty
  known := by
    intro c hc
    cases hc

theorem step_edit_nil {s : Session α} (hv : s.visits = []) (e : Edit α) :
    s.step (.edit e) = (.nothing, s) := by
  rw [step, hv]

namespace Sound

variable {s : Session α} {b : SequentialBuffer α}

theorem step_enter (h : s.Sound b) (a : NodeId) (node : α) : (s.step (.enter a node)).2.Sound b where
  buffer := h.buffer
  indexed := h.indexed
  known := by
    intro c hc
    rcases List.mem_cons.1 hc with rfl | hc
    · exact Context.known_enter a node b
    · exact h.known c hc

theorem step_leave (h : s.Sound b) : (s.step .leave).2.Sound b := by
  rcases hv : s.visits with - | ⟨c, outer⟩
  · simpa only [step, hv] using h
  · simp only [step, hv]
    refine ⟨h.buffer, h.indexed, ?_⟩
    intro d hd
    exact h.known d (hv ▸ List.mem_cons_of_mem c hd)

/-- The innermost visit records any request. The records of the waiting visits stay in the buffer.
-/
theorem step_edit (h : s.Sound b) {c : Context α} {outer : List (Context α)}
    (hv : s.visits = c :: outer) (e : Edit α) :
    ∃ b', s.step (.edit e) = (.recorded (.ok .proceed), ⟨.sequential b', c.advance e :: outer⟩) ∧
      Sound ⟨.sequential b', c.advance e :: outer⟩ b' ∧
      b'.records.toList = c.recordsAfter b.records.toList e := by
  have hc : c.Known b := h.known c (hv ▸ List.mem_cons_self)
  obtain ⟨b', hrec, hb', hrs⟩ := Context.recordSequential_eq h.indexed hc e
  refine ⟨b', ?_, ⟨rfl, hb', ?_⟩, hrs⟩
  · simp only [step, hv, h.buffer, Context.record, hrec]
  · intro d hd
    rcases List.mem_cons.1 hd with rfl | hd
    · exact Context.known_advance hc hrs
    · intro hedited
      have hold := h.known d (hv ▸ List.mem_cons_of_mem c hd) hedited
      rw [hrs, Context.any_replaces_recordsAfter c _ e hc, hold, Bool.true_or]

/-- Whatever happens, the invariant is kept and no request is refused. -/
theorem step (h : s.Sound b) (e : Event α) :
    (∃ b', (s.step e).2.Sound b') ∧ ∀ err, (s.step e).1 ≠ .recorded (.error err) := by
  cases e with
  | enter a node =>
    refine ⟨⟨b, h.step_enter a node⟩, ?_⟩
    intro err he
    cases he
  | leave =>
    refine ⟨⟨b, h.step_leave⟩, ?_⟩
    intro err he
    rcases hv : s.visits with - | ⟨c, outer⟩ <;> simp [Session.step, hv] at he
  | edit e =>
    rcases hv : s.visits with - | ⟨c, outer⟩
    · rw [step_edit_nil hv]
      exact ⟨⟨b, h⟩, fun err he => by cases he⟩
    · obtain ⟨b', hstep, hb', -⟩ := h.step_edit hv e
      rw [hstep]
      exact ⟨⟨b', hb'⟩, fun err he => by cases he⟩

theorem run (es : List (Event α)) : ∀ {s : Session α} {b : SequentialBuffer α}, s.Sound b →
    (∃ b', (s.run es).2.Sound b') ∧ ∀ err, .recorded (.error err) ∉ (s.run es).1 := by
  induction es with
  | nil =>
    intro s b h
    exact ⟨⟨b, h⟩, fun err he => by cases he⟩
  | cons e es ih =>
    intro s b h
    obtain ⟨⟨b₁, hb₁⟩, hanswer⟩ := h.step e
    obtain ⟨hlast, hrest⟩ := ih hb₁
    refine ⟨hlast, ?_⟩
    intro err he
    rcases List.mem_cons.1 he with he | he
    · exact hanswer err he.symm
    · exact hrest err he

end Sound
end Session
end TreeEdits
