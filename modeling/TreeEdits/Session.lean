import TreeEdits.Context

/-!
# TreeEdits.Session

A session is one pass: a buffer, and the visits that are open, each inside the one before it. Only
the innermost visit can record edits.

* `Event`, `Answer`: what happens to visits, and what that gives.
* `Session.step`, `Session.run`: nested visits, event by event.
-/

namespace TreeEdits

/-- How a session is opened. The hint says how many records to expect. It changes no result, on the
assumption that there is memory for as many records as it says. -/
structure Options where
  mode : Mode
  capacityHint : Nat
deriving DecidableEq

namespace Options

instance : Inhabited Options := ⟨⟨default, 0⟩⟩

def ofMode (m : Mode) : Options := ⟨m, 0⟩

end Options

/-- What happens to visits: one opens, one ends, or one asks for an edit. -/
inductive Event (α : Type) where
  | enter (anchor : NodeId) (node : α)
  | leave
  | edit (e : Edit α)

/-- What an event gives. Without an open visit there is nothing to leave and nothing to edit. -/
inductive Answer (α : Type) where
  | entered
  | left (node : α)
  | recorded (result : Except EditError Control)
  | nothing

/-- A buffer and the open visits, innermost first. -/
structure Session (α : Type) where
  buffer : EditBuffer α
  visits : List (Context α)

namespace Session

variable {α : Type}

def start (o : Options) : Session α := ⟨.ofMode o.mode, []⟩

/-- One event: a visit opens inside those that are open, or something happens to the innermost. -/
def step (s : Session α) : Event α → Answer α × Session α
  | .enter anchor node => (.entered, { s with visits := .enter anchor node :: s.visits })
  | .leave =>
    match s.visits with
    | [] => (.nothing, s)
    | c :: outer => (.left c.node, { s with visits := outer })
  | .edit e =>
    match s.visits with
    | [] => (.nothing, s)
    | c :: outer =>
      let o := c.record s.buffer e
      (.recorded o.result, ⟨o.buffer, o.context :: outer⟩)

def run (s : Session α) : List (Event α) → List (Answer α) × Session α
  | [] => ([], s)
  | e :: es =>
    let (a, s) := s.step e
    let (as, s) := s.run es
    (a :: as, s)

def records (s : Session α) : List (EditRecord α) := s.buffer.records

theorem run_cons (s : Session α) (e : Event α) (es : List (Event α)) :
    s.run (e :: es) = ((s.step e).1 :: ((s.step e).2.run es).1, ((s.step e).2.run es).2) := rfl

theorem run_append (es fs : List (Event α)) : ∀ s : Session α,
    s.run (es ++ fs) =
      ((s.run es).1 ++ ((s.run es).2.run fs).1, ((s.run es).2.run fs).2) := by
  induction es with
  | nil => intro s; rfl
  | cons e es ih =>
    intro s
    rw [List.cons_append, run_cons, ih, run_cons, List.cons_append]

/-- Every event is answered. -/
theorem length_run (es : List (Event α)) : ∀ s : Session α, (s.run es).1.length = es.length := by
  induction es with
  | nil => intro s; rfl
  | cons e es ih =>
    intro s
    rw [run_cons, List.length_cons, ih, List.length_cons]

end Session

end TreeEdits
