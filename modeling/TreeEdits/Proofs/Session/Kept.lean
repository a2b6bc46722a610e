import TreeEdits.Proofs.Session.Sequential
import TreeEdits.Proofs.Walk.Events

/-!
# TreeEdits.Proofs.Session.Kept

No replace record is lost where nodes are visited one after the other. Visits know by their flag
that they changed their node, the buffer knows its places, and the two never come apart.

* `Session.walkEach`: walks over one session, one after the other.
* `edited_is_known`: an open visit that changed its node finds its replace record in the buffer, in
  every state that a run reaches. So neither a run nor any number of walks fails for want of it.
-/

namespace TreeEdits
namespace Session

/-- Walks trees over one session, one after the other and whatever each walk gives. -/
def walkEach (s : Session Tree) : List (Tree × WalkEditor) → List WalkOutcome × Session Tree
  | [] => ([], s)
  | (t, editor) :: ws =>
    let o := s.walkSequential t editor
    let (os, s) := o.session.walkEach ws
    (o :: os, s)

/-- What walks fail with is the answer to a request in some run. -/
theorem walkEach_run (err : EditError) (ws : List (Tree × WalkEditor)) : ∀ s : Session Tree,
    (∀ w ∈ ws, w.2.Relays err) →
      ∀ o ∈ (s.walkEach ws).1, o.result = .error (.ofEditError err) →
        ∃ es, .recorded (.error err) ∈ (s.run es).1 := by
  induction ws with
  | nil =>
    intro s _ o ho
    cases ho
  | cons w ws ih =>
    intro s hrelays o ho hresult
    obtain ⟨t, editor⟩ := w
    obtain ⟨⟨es, hsession⟩, hfailed⟩ := s.walkSequential_run t editor
    rcases List.mem_cons.1 ho with rfl | ho
    · exact hfailed err (hrelays _ List.mem_cons_self) hresult
    · obtain ⟨fs, hfs⟩ := ih _ (fun w hw => hrelays w (List.mem_cons_of_mem _ hw)) o ho hresult
      refine ⟨es ++ fs, ?_⟩
      rw [run_append, hsession]
      exact List.mem_append_right _ hfs

/-- In every state that a run of a session reaches, each open visit that changed its node, also one
that waits for visits inside it, has a replace record for the node where the buffer keeps its place.
So no change is refused for want of that record: not in a run, and not in walks that are made over
the session one after the other, unless an editor makes the error up. -/
theorem edited_is_known (hint : Nat) :
    (∀ {α : Type} (es : List (Event α)) {as : List (Answer α)} {s : Session α},
      (start ⟨.sequential, hint⟩).run es = (as, s) →
        (∃ b, s.buffer = .sequential b ∧ ∀ c ∈ s.visits, c.edited = true →
          ∃ node, b.replaceRecord? c.anchor = some ⟨c.anchor, .replace node⟩) ∧
        ∀ a, .recorded (.error (.missingReplace a)) ∉ as) ∧
    ∀ (es : List (Event Tree)) (ws : List (Tree × WalkEditor)),
      (∀ w ∈ ws, ∀ a, w.2.Relays (.missingReplace a)) →
        ∀ o ∈ (((start ⟨.sequential, hint⟩).run es).2.walkEach ws).1,
          ∀ a, o.result ≠ .error (.ofEditError (.missingReplace a)) := by
  constructor
  · intro α es as s h
    obtain ⟨⟨b, hb⟩, hanswers⟩ := (sound_start (α := α) hint).run es
    rw [h] at hb hanswers
    refine ⟨⟨b, hb.buffer, ?_⟩, fun a => hanswers (.missingReplace a)⟩
    intro c hc hedited
    exact SequentialBuffer.exists_replaceRecord? hb.indexed (hb.known c hc hedited)
  · intro es ws hrelays o ho a hresult
    obtain ⟨fs, hfs⟩ := walkEach_run (.missingReplace a) ws _ (fun w hw => hrelays w hw a) o ho hresult
    have hanswers := ((sound_start (α := Tree) hint).run (es ++ fs)).2 (.missingReplace a)
    rw [run_append] at hanswers
    exact hanswers (List.mem_append_right _ hfs)

/-- Changes every node twice. -/
def twiceEditor : Editor Tree :=
  Visit.edits (fun _ => .proceed) [.replace (.leaf "x"), .delete, .replace (.leaf "y")]

/-- A changed visit is open around another of the same node, which was changed as well. Then trees
are walked, and a walk changes the same nodes as the one before it. -/
theorem edited_is_known_again :
    let es : List (Event Tree) := [.enter ⟨1⟩ (.leaf "a"), .edit (.replace (.leaf "b")),
      .enter ⟨1⟩ (.leaf "a"), .edit (.replace (.leaf "c"))]
    let t : Tree := .node "r" [.leaf "a", .leaf "b"]
    ∃ as s b, (start ⟨.sequential, 0⟩).run es = (as, s) ∧ s.buffer = .sequential b ∧
      s.visits.map Context.edited = [true, true] ∧
      (∀ c ∈ s.visits, c.edited = true →
        ∃ node, b.replaceRecord? c.anchor = some ⟨c.anchor, .replace node⟩) ∧
      (s.walkEach [(t, twiceEditor), (t, twiceEditor)]).1.length = 2 ∧
      ∀ o ∈ (s.walkEach [(t, twiceEditor), (t, twiceEditor)]).1,
        ∀ a, o.result ≠ .error (.ofEditError (.missingReplace a)) := by
  intro es t
  obtain ⟨⟨b, hb, hknown⟩, -⟩ := (edited_is_known 0).1 es rfl
  have hrelays : ∀ w ∈ [(t, (twiceEditor : WalkEditor)), (t, (twiceEditor : WalkEditor))],
      ∀ a, w.2.Relays (.missingReplace a) := by
    intro w hw a _ sight
    have heditor : w.2 = twiceEditor := by
      simp only [List.mem_cons, List.not_mem_nil, or_false] at hw
      rcases hw with rfl | rfl <;> rfl
    rw [heditor]
    exact Visit.relays_edits _ _ _ sight
  have hwalks := (edited_is_known 0).2 es [(t, twiceEditor), (t, twiceEditor)] hrelays
  exact ⟨_, _, b, rfl, hb, rfl, hknown, rfl, hwalks⟩

end Session
end TreeEdits
