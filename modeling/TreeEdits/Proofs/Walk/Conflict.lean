import TreeEdits.Proofs.Session.Growth
import TreeEdits.Proofs.Walk.Handed

/-!
# TreeEdits.Proofs.Walk.Conflict

How a walk fails, if its visits ask for edits one after the other and end at the first that is refused.
Then a second change of a node ends the walk, and what was asked for before it is recorded.

* `Visit.EndsAtRefusal`: such visits.
* `Visit.run_parallel`: one of them over a buffer that only grows.
* `Walk.asked`: what the visits of some nodes ask for. `Course.conflict`: a run of the loop that fails,
  and the records that it leaves.
* `walk_conflicts`: so it is with both walkers. Where records can be written over, neither fails so.
-/

namespace TreeEdits

variable {α : Type}

namespace Visit

/-- Whether a visit asks for edits up to the first that is refused, ends with the error of that, and
does not fail otherwise. -/
def EndsAtRefusal : Visit α → Prop
  | done result => ∃ k, result = .ok k
  | ask _ next => ∀ sight, (∀ err, next (.error err) sight = done (.error err)) ∧
      ∀ k, (next (.ok k) sight).EndsAtRefusal

theorem relays_of_endsAtRefusal (err : EditError) (v : Visit α) : v.EndsAtRefusal → v.Relays err := by
  induction v with
  | done result =>
    rintro ⟨k, rfl⟩ he
    cases he
  | ask e next ih =>
    intro h result sight hne
    cases result with
    | error err' =>
      rw [(h sight).1 err']
      exact hne
    | ok k => exact ih (.ok k) sight ((h sight).2 k)

theorem endsAtRefusal_edits (finish : Sight α → Control) (es : List (Edit α)) :
    ∀ sight : Sight α, (edits finish es sight).EndsAtRefusal := by
  induction es with
  | nil => intro sight; exact ⟨finish sight, rfl⟩
  | cons e es ih => intro _ sight; exact ⟨fun err => rfl, fun k => ih sight⟩

theorem mode_run (v : Visit α) : ∀ (c : Context α) (b : EditBuffer α),
    (v.run c b).buffer.mode = b.mode := by
  induction v with
  | done result => intro c b; rfl
  | ask e next ih => intro c b; exact (ih _ _ _ _).trans (Context.mode_record c b e)

/-- How a visit of this sort ends where records can only grow. `made` is what it asked for, or what it
asked for before a second change of its node. -/
inductive Ends (c : Context α) (b : EditBuffer α) (asked : List (Edit α))
    (o : Outcome α (EditBuffer α)) : Prop where
  | well (k : Control) : o.result = .ok k →
      o.buffer.records = b.records ++ asked.map (EditRecord.mk c.anchor) → Ends c b asked o
  | refused (made : List (Edit α)) (node : α) : asked = made ++ [.replace node] →
      c.edited.toNat + made.countP Edit.isReplace = 1 → o.result = .error (.conflict c.anchor) →
      o.buffer.records = b.records ++ made.map (EditRecord.mk c.anchor) → Ends c b asked o

theorem run_parallel (v : Visit α) : ∀ (c : Context α) (b : EditBuffer α), b.mode = .parallel →
    v.EndsAtRefusal → Ends c b (v.requests c b) (v.run c b) := by
  induction v with
  | done result =>
    rintro c b - ⟨k, rfl⟩
    exact .well k rfl (List.append_nil _).symm
  | ask e next ih =>
    intro c b hb h
    by_cases hr : e.isReplace = true ∧ c.edited = true
    · have hrec := Context.record_of_repeated hr hb
      obtain ⟨node, rfl⟩ := Edit.exists_replace hr.1
      rw [run, requests, hrec]
      simp only [(h _).1]
      refine .refused [] node rfl ?_ rfl (List.append_nil _).symm
      rw [hr.2]
      rfl
    · have hrec := Context.record_of_first hr b
      have hrecords : ∀ es : List (Edit α),
          (b.push ⟨c.anchor, e⟩).records ++ es.map (EditRecord.mk c.anchor) =
            b.records ++ (e :: es).map (EditRecord.mk c.anchor) := by
        intro es
        rw [EditBuffer.records_push, List.append_assoc, List.map_cons, List.singleton_append]
      have hrest := ih (.ok .proceed) ((c.advance e).sight (b.push ⟨c.anchor, e⟩)) (c.advance e)
        (b.push ⟨c.anchor, e⟩) ((EditBuffer.mode_push b _).trans hb) ((h _).2 _)
      rw [run, requests, hrec]
      cases hrest with
      | well k hk hrs =>
        refine .well k hk ?_
        rw [hrs, Context.anchor_advance, hrecords]
      | refused made node hasked hone hresult hrs =>
        refine .refused (e :: made) node (congrArg (e :: ·) hasked) ?_ ?_ ?_
        · rw [← Context.countP_advance hr, hone]
        · rw [hresult, Context.anchor_advance]
        · rw [hrs, Context.anchor_advance, hrecords]

end Visit

/-- Whether all visits of an editor are of this sort. -/
def WalkEditor.EndsAtRefusal (editor : WalkEditor) : Prop :=
  ∀ log sight, (editor.after log sight).EndsAtRefusal

namespace Walk

/-- What the visit of a node asks for. -/
def requests (w : Walk) (editor : WalkEditor) (id : UInt32) (t : Tree) : List (Edit Tree) :=
  let c := Context.enter ⟨id⟩ t
  (editor.after w.log (c.sight w.buffer)).requests c w.buffer

/-- What the visits of some nodes ask for, each with its node. -/
def asked (editor : WalkEditor) : Walk → List (Tree × Nat) → List (NodeId × List (Edit Tree))
  | _, [] => []
  | w, (t, n) :: ps =>
    (⟨n.toUInt32⟩, w.requests editor n.toUInt32 t) :: asked editor (w.visit editor n.toUInt32 t).2 ps

/-- One record for each of some requests. -/
def recordsOf (asked : List (NodeId × List (Edit Tree))) : List (EditRecord Tree) :=
  asked.flatMap fun x => x.2.map (EditRecord.mk x.1)

/-- How a walk over records that can only grow fails: `v` is its last visit, whose second change is
refused. -/
def Fails (editor : WalkEditor) (w : Walk) (vs : List Visited) (e : EditError) (w' : Walk) : Prop :=
  ∃ earlier a made node, asked editor w (vs.map Visited.spot) = earlier ++ [(a, made ++ [.replace node])] ∧
    made.countP Edit.isReplace = 1 ∧ e = .conflict a ∧
    w'.buffer.records = w.buffer.records ++ recordsOf (earlier ++ [(a, made)])

theorem recordsOf_cons (a : NodeId) (es : List (Edit Tree)) (asked : List (NodeId × List (Edit Tree))) :
    recordsOf ((a, es) :: asked) = es.map (EditRecord.mk a) ++ recordsOf asked := List.flatMap_cons

theorem recordsOf_singleton (a : NodeId) (es : List (Edit Tree)) :
    recordsOf [(a, es)] = es.map (EditRecord.mk a) := by
  rw [recordsOf_cons, recordsOf, List.flatMap_nil, List.append_nil]

section

variable {editor : WalkEditor} {n : Nat} {w w' : Walk} {t : Tree} {v : Visited}

theorem Visits.mode (h : Visits editor w n t v w') : w'.buffer.mode = w.buffer.mode := by
  have hafter : w' = (w.visit editor n.toUInt32 t).2 := by rw [h.visit]
  rw [hafter]
  exact Visit.mode_run _ _ _

theorem Visits.asked (h : Visits editor w n t v w') (ps : List (Tree × Nat)) :
    asked editor w (v.spot :: ps) =
      (⟨n.toUInt32⟩, w.requests editor n.toUInt32 t) :: Walk.asked editor w' ps := by
  rw [h.spot, Walk.asked, h.visit]

theorem Visits.ends (h : Visits editor w n t v w') (hm : w.buffer.mode = .parallel)
    (hends : editor.EndsAtRefusal) :
    ∃ o : Outcome Tree (EditBuffer Tree), o.result = v.result ∧ o.buffer = w'.buffer ∧
      Visit.Ends (Context.enter ⟨n.toUInt32⟩ t) w.buffer (w.requests editor n.toUInt32 t) o :=
  ⟨_, congrArg Prod.fst h.visit, congrArg (·.2.buffer) h.visit,
    Visit.run_parallel _ _ _ hm (hends w.log _)⟩

end

namespace Course

variable {editor : WalkEditor} {skip n : Nat} {w w' : Walk} {ts : List Tree} {vs : List Visited}
  {r : Except EditError Bool}

/-- By induction on the run: its visits before the last do not fail, and what they ask for is recorded.
-/
theorem conflict (hends : editor.EndsAtRefusal) (h : Course editor skip n w ts vs r w') :
    w.buffer.mode = .parallel → ∀ e, r = .error e → Fails editor w vs e w' := by
  induction h with
  | nil =>
    intro _ e he
    cases he
  | pass _ ih => exact ih
  | @last n w w' t ts v hv hlast =>
    intro hm e he
    obtain ⟨o, hresult, hbuffer, hend⟩ := hv.ends hm hends
    cases hend with
    | well k hk _ =>
      rw [← hresult, hk] at he
      cases he
    | refused made node hasked hone hconflict hrs =>
      rw [← hresult, hconflict] at he
      cases he
      refine ⟨[], ⟨n.toUInt32⟩, made, node, ?_, ?_, rfl, ?_⟩
      · rw [List.map_singleton, hv.asked, hasked]
        rfl
      · rwa [Context.enter, Bool.toNat_false, Nat.zero_add] at hone
      · rw [← hbuffer, hrs, List.nil_append, recordsOf_singleton]
        rfl
  | @next skip n w w₁ w' t ts v vs r hv hskip hrest ih =>
    intro hm e he
    obtain ⟨earlier, a, made, node, hasked, hone, hconflict, hrs⟩ := ih (hv.mode.trans hm) e he
    obtain ⟨o, hresult, hbuffer, hend⟩ := hv.ends hm hends
    cases hend with
    | refused made' node' _ _ hfail _ =>
      rw [Visited.skips?, ← hresult, hfail] at hskip
      cases hskip
    | well k hk hrs₁ =>
      refine ⟨(⟨n.toUInt32⟩, w.requests editor n.toUInt32 t) :: earlier, a, made, node, ?_, hone,
        hconflict, ?_⟩
      · rw [List.map_cons, hv.asked, hasked]
        rfl
      · rw [hrs, ← hbuffer, hrs₁, List.append_assoc, List.cons_append, recordsOf_cons]
        rfl

end Course
end Walk

namespace Session

/-- Where records can be written over, no visit of a walk fails. -/
theorem walkSequential_ne_error {s : Session Tree} (hm : s.buffer.mode = .sequential) (t : Tree)
    {editor : WalkEditor} (hends : editor.EndsAtRefusal) (f : Failure) :
    (s.walkSequential t editor).result ≠ .error f := by
  let P : Walk → Prop := fun w => w.buffer.mode = .sequential
  have hkeeps : ∀ w id t, P w → P (w.visit editor id t).2 := by
    intro w id t hw
    exact (Visit.mode_run _ _ _).trans hw
  have hfails : ∀ w id t e, P w → (w.visit editor id t).1 = .error e → False := by
    intro w id t e hw he
    have hvisit := hends w.log ((Context.enter ⟨id⟩ t).sight w.buffer)
    have hmem := Visit.mem_results_of_relays _ _ _ (Visit.relays_of_endsAtRefusal e _ hvisit) he
    exact (visit_keeps _ ⟨id⟩ t w.buffer).2 hw e hmem
  rw [walkSequential_eq_walkAlong]
  intro hf
  obtain ⟨e, -, hfalse⟩ := (walkAlong_keeps hkeeps hfails (s := s) hm t).2 f hf
  exact hfalse

/-- How a walk fails at a conflict. The last of the nodes that it visited, which are some of the tree in
pre-order, was to be changed a second time. The records are those from before the walk and one for each
request before that one. -/
structure Conflicts (s : Session Tree) (t : Tree) (editor : WalkEditor) (o : WalkOutcome) (f : Failure) :
    Prop where
  mode : s.buffer.mode = .parallel
  visited : (o.log.toList.map Visited.spot).Sublist t.preorder.zipIdx
  requests : ∃ earlier a made node,
    Walk.asked editor (.start s.buffer) (o.log.toList.map Visited.spot) =
      earlier ++ [(a, made ++ [.replace node])] ∧
    made.countP Edit.isReplace = 1 ∧
    f = .editConflict a (EditError.conflict a).message ∧
    o.session.records = s.records ++ Walk.recordsOf (earlier ++ [(a, made)])

theorem walkAlong_conflicts {s : Session Tree} (hm : s.buffer.mode = .parallel) {t : Tree}
    (hsize : t.size < UInt32.size) {editor : WalkEditor} (hends : editor.EndsAtRefusal) {f : Failure}
    (hf : (s.walkAlong t editor).result = .error f) :
    s.Conflicts t editor (s.walkAlong t editor) f := by
  obtain ⟨r, h, hresult⟩ := s.walkAlong_course hsize editor
  cases r with
  | ok stopped =>
    rw [hresult] at hf
    cases hf
  | error e =>
    rw [hresult] at hf
    cases hf
    obtain ⟨earlier, a, made, node, hasked, hone, rfl, hrs⟩ := h.conflict hends hm e rfl
    refine ⟨hm, ?_, earlier, a, made, node, hasked, hone, rfl, hrs⟩
    rw [h.handed]
    exact List.filter_sublist

/-- If the visits of a walk ask for edits one after the other and end at the first that is refused, then
a walk fails only over records that can only grow, at a node that was to be changed a second time, and
what was recorded until then stays. The walker that needs a shared buffer does nothing without one. -/
theorem walk_conflicts (s : Session Tree) (t : Tree) (editor : WalkEditor) (hsize : t.size < UInt32.size)
    (hends : editor.EndsAtRefusal) :
    (∀ f, (s.walkSequential t editor).result = .error f →
      s.Conflicts t editor (s.walkSequential t editor) f) ∧
    (s.buffer.mode = .parallel → ∀ f, (s.walkParallel t editor).result = .error f →
      s.Conflicts t editor (s.walkParallel t editor) f) ∧
    (s.buffer.mode = .sequential →
      (s.walkParallel t editor).result =
        .error (.invalidArguments "parallel walk requires a parallel session, got sequential") ∧
      (s.walkParallel t editor).log = #[] ∧ (s.walkParallel t editor).session = s) := by
  refine ⟨?_, ?_, ?_⟩
  · intro f hf
    cases hm : s.buffer.mode with
    | sequential => exact absurd hf (walkSequential_ne_error hm t hends f)
    | parallel =>
      rw [walkSequential_eq_walkAlong] at hf ⊢
      exact walkAlong_conflicts hm hsize hends hf
  · intro hm f hf
    rw [walkParallel_eq_walkAlong hm] at hf ⊢
    exact walkAlong_conflicts hm hsize hends hf
  · intro hm
    rw [walkParallel_eq_error hm]
    exact ⟨rfl, rfl, rfl⟩

/-- Puts a sibling before `d`, changes it, marks it for deletion and changes it again. Adds a sibling to
any other node. -/
def againEditor : Editor Tree := fun sight =>
  Visit.edits (fun _ => .proceed)
    (match sight.context.node.label with
      | "d" => [.insertBefore (.leaf "x"), .replace (.leaf "y"), .delete, .replace (.leaf "z"), .delete]
      | _ => [.insertAfter (.leaf "x")]) sight

/-- A record is queued before the walk. It fails at `d`, and neither `d` is deleted twice nor `e` visited.
-/
theorem walk_conflicts_again :
    let s : Session Tree := ⟨.parallel (.push .empty ⟨⟨9⟩, .delete⟩), []⟩
    let t : Tree := .node "r" [.node "a" [], .node "c" [.leaf "d", .leaf "e"]]
    t.size < UInt32.size ∧ WalkEditor.EndsAtRefusal againEditor ∧ s.buffer.mode = .parallel ∧
      ∃ f, (s.walkParallel t againEditor).result = .error f ∧
        s.Conflicts t againEditor (s.walkParallel t againEditor) f ∧
        f = .editConflict ⟨3⟩ (EditError.conflict ⟨3⟩).message ∧
        (s.walkParallel t againEditor).session.records.map EditRecord.mark =
          [(⟨9⟩, "delete"), (⟨0⟩, "insert_after"), (⟨1⟩, "insert_after"), (⟨2⟩, "insert_after"),
            (⟨3⟩, "insert_before"), (⟨3⟩, "replace"), (⟨3⟩, "delete")] := by
  intro s t
  have hsize : t.size < UInt32.size := by decide
  have hends : WalkEditor.EndsAtRefusal againEditor :=
    fun _ sight => Visit.endsAtRefusal_edits _ _ sight
  have hwalk := (walk_conflicts s t againEditor hsize hends).2.1 rfl _ rfl
  exact ⟨hsize, hends, rfl, _, rfl, hwalk, rfl, rfl⟩

end Session
end TreeEdits
