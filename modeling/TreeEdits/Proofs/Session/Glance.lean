import TreeEdits.Proofs.Session.Either

/-!
# TreeEdits.Proofs.Session.Glance

Changes of nodes and all other edits do not disturb each other. What a run does to some part of its
visits and records is told without the requests that have no part in it.

* `Glance`: requests that are hidden, and what is looked at. `Glance.Steady`: a hidden request does not
  show, and what another does shows the same whatever hidden requests were made before.
* `Steady.run`: then a whole run shows the same as the run without its hidden requests.
* `steady_changes`, `steady_others`: changes seen without the other edits, and the other edits seen
  without changes.
* `changes_and_others_apart`: runs that differ only in edits of the one sort show the same of the other.
-/

namespace TreeEdits

variable {α β : Type}

namespace Event

/-- Whether an event asks for one of some edits. -/
def asksFor (p : Edit α → Bool) : Event α → Bool
  | edit e => p e
  | _ => false

end Event

namespace EditRecord

theorem any_replaces_filter (rs : List (EditRecord α)) (a : NodeId) :
    (rs.filter isReplace).any (·.replaces a) = rs.any (·.replaces a) := by
  rw [List.any_filter]
  congr 1
  funext r
  rw [replaces, ← Bool.and_assoc, Bool.and_self]

theorem filter_isReplace_rewriteLast {r : EditRecord α} (hr : r.isReplace = true)
    (rs : List (EditRecord α)) :
    (rewriteLast r rs).filter isReplace = rewriteLast r (rs.filter isReplace) := by
  induction rs with
  | nil => rfl
  | cons q qs ih =>
    rw [rewriteLast, List.filter_cons]
    cases hq : q.isReplace with
    | true =>
      rw [if_pos rfl, rewriteLast, any_replaces_filter]
      split
      · rw [List.filter_cons, if_pos hr]
      · rw [List.filter_cons, if_pos hq, ih]
    | false =>
      have hno : q.replaces r.anchor = false := by rw [replaces, hq, Bool.false_and]
      rw [hno, Bool.false_and, if_neg Bool.false_ne_true, if_neg Bool.false_ne_true, List.filter_cons, hq,
        if_neg Bool.false_ne_true, ih]

theorem filter_not_isReplace_rewriteLast {r : EditRecord α} (hr : r.isReplace = true)
    (rs : List (EditRecord α)) :
    (rewriteLast r rs).filter (!·.isReplace) = rs.filter (!·.isReplace) := by
  induction rs with
  | nil => rfl
  | cons q qs ih =>
    rw [rewriteLast]
    split
    · rename_i hq
      rw [Bool.and_eq_true] at hq
      obtain ⟨node, rfl⟩ := exists_replace_of_replaces hq.1
      rw [List.filter_cons, List.filter_cons, hr]
      rfl
    · rw [List.filter_cons, List.filter_cons, ih]

end EditRecord

/-- Requests that are hidden, and what is looked at: some of each visit, and some of the records. -/
structure Glance (α β : Type) where
  hidden : Edit α → Bool
  visit : Context α → β
  record : EditRecord α → Bool

namespace Glance

/-- Hidden requests do not show. Any other gives the same and shows the same where what was seen before
is the same. -/
structure Steady (g : Glance α β) : Prop where
  hide : ∀ (m : Mode) (c : Context α) (rs : List (EditRecord α)) (e : Edit α), g.hidden e = true →
    g.visit (c.askIn m e).2 = g.visit c ∧
      (c.recordsIn m rs e).filter g.record = rs.filter g.record
  tell : ∀ (m : Mode) {c c' : Context α} {rs rs' : List (EditRecord α)} (e : Edit α),
    g.hidden e = false → g.visit c = g.visit c' → rs.filter g.record = rs'.filter g.record →
      (c.askIn m e).1 = (c'.askIn m e).1 ∧ g.visit (c.askIn m e).2 = g.visit (c'.askIn m e).2 ∧
        (c.recordsIn m rs e).filter g.record = (c'.recordsIn m rs' e).filter g.record

/-- Two sessions that look the same. -/
structure Alike (g : Glance α β) (s s' : Session α) : Prop where
  coherent : s.Coherent
  coherent' : s'.Coherent
  mode : s.buffer.mode = s'.buffer.mode
  visits : s.visits.map g.visit = s'.visits.map g.visit
  records : s.records.filter g.record = s'.records.filter g.record

end Glance

namespace Session

/-- A run without its requests for some edits. -/
def without (p : Edit α → Bool) (es : List (Event α)) : List (Event α) :=
  es.filter fun e => !e.asksFor p

/-- What was answered to the requests for some edits. -/
def answersTo (p : Edit α → Bool) (es : List (Event α)) (as : List (Answer α)) : List (Answer α) :=
  ((es.zip as).filter fun x => x.1.asksFor p).map Prod.snd

theorem without_cons_edit (p : Edit α → Bool) (e : Edit α) (es : List (Event α)) :
    without p (.edit e :: es) = if p e then without p es else .edit e :: without p es := by
  cases h : p e <;> simp [without, Event.asksFor, h]

theorem answersTo_cons_edit (p : Edit α → Bool) (e : Edit α) (es : List (Event α)) (a : Answer α)
    (as : List (Answer α)) :
    answersTo p (.edit e :: es) (a :: as) =
      if p e then a :: answersTo p es as else answersTo p es as := by
  cases h : p e <;> simp [answersTo, Event.asksFor, h]

end Session

namespace Glance

open Session

variable {g : Glance α β} {s s' : Session α}

theorem alike_refl (h : s.Coherent) : g.Alike s s := ⟨h, h, rfl, rfl, rfl⟩

namespace Alike

theorem step_enter (h : g.Alike s s') (a : NodeId) (node : α) :
    g.Alike (s.step (.enter a node)).2 (s'.step (.enter a node)).2 where
  coherent := h.coherent.step _
  coherent' := h.coherent'.step _
  mode := h.mode
  visits := congrArg (_ :: ·) h.visits
  records := h.records

theorem step_leave (h : g.Alike s s') :
    g.Alike (s.step .leave).2 (s'.step .leave).2 ∧
      (Event.leave.ended? s.visits).map g.visit = (Event.leave.ended? s'.visits).map g.visit := by
  have hc := h.coherent.step .leave
  have hc' := h.coherent'.step .leave
  have hvisits := h.visits
  rcases hv : s.visits with - | ⟨c, outer⟩
  · rw [hv] at hvisits
    have hv' : s'.visits = [] := List.map_eq_nil_iff.1 hvisits.symm
    rw [step_leave_nil hv, step_leave_nil hv', hv']
    exact ⟨h, rfl⟩
  · rw [hv] at hvisits
    obtain ⟨c', outer', hv', hself, houter⟩ := List.map_eq_cons_iff.1 hvisits.symm
    rw [step_leave_cons hv] at hc ⊢
    rw [step_leave_cons hv'] at hc' ⊢
    rw [hv']
    exact ⟨⟨hc, hc', h.mode, houter.symm, h.records⟩, congrArg some hself.symm⟩

theorem step_hidden (hg : g.Steady) (h : g.Alike s s') {e : Edit α} (he : g.hidden e = true) :
    g.Alike (s.step (.edit e)).2 s' := by
  have hc := h.coherent.step (.edit e)
  have hmode := (mode_step s (.edit e)).trans h.mode
  rcases hv : s.visits with - | ⟨c, outer⟩
  · rwa [step_edit_nil hv]
  · obtain ⟨s₁, hstep, hv₁, hrs₁⟩ := h.coherent.step_edit hv e
    obtain ⟨hvisit, hrecords⟩ := hg.hide s.buffer.mode c s.records e he
    have hvisits := h.visits
    rw [hv, List.map_cons, ← hvisit] at hvisits
    rw [hstep] at hc hmode ⊢
    refine ⟨hc, h.coherent', hmode, ?_, ?_⟩
    · rw [hv₁, List.map_cons, hvisits]
    · rw [hrs₁, hrecords, h.records]

theorem step_told (hg : g.Steady) (h : g.Alike s s') {e : Edit α} (he : g.hidden e = false) :
    g.Alike (s.step (.edit e)).2 (s'.step (.edit e)).2 ∧
      (s.step (.edit e)).1 = (s'.step (.edit e)).1 := by
  have hc := h.coherent.step (.edit e)
  have hc' := h.coherent'.step (.edit e)
  have hmode := ((mode_step s (.edit e)).trans h.mode).trans (mode_step s' (.edit e)).symm
  have hvisits := h.visits
  rcases hv : s.visits with - | ⟨c, outer⟩
  · rw [hv] at hvisits
    have hv' : s'.visits = [] := List.map_eq_nil_iff.1 hvisits.symm
    rw [step_edit_nil hv, step_edit_nil hv']
    exact ⟨h, rfl⟩
  · rw [hv] at hvisits
    obtain ⟨c', outer', hv', hself, houter⟩ := List.map_eq_cons_iff.1 hvisits.symm
    obtain ⟨s₁, hstep, hv₁, hrs₁⟩ := h.coherent.step_edit hv e
    obtain ⟨s₁', hstep', hv₁', hrs₁'⟩ := h.coherent'.step_edit hv' e
    obtain ⟨hanswer, hvisit, hrecords⟩ := hg.tell s.buffer.mode e he hself.symm h.records
    rw [← h.mode] at hstep' hv₁' hrs₁'
    rw [hstep] at hc hmode ⊢
    rw [hstep'] at hc' hmode ⊢
    refine ⟨⟨hc, hc', hmode, ?_, ?_⟩, by rw [hanswer]⟩
    · rw [hv₁, hv₁', List.map_cons, List.map_cons, hvisit, houter]
    · rw [hrs₁, hrs₁', hrecords]

end Alike

/-- A run shows the same as the run without its hidden requests. -/
theorem Steady.run (hg : g.Steady) (es : List (Event α)) : ∀ {s s' : Session α}, g.Alike s s' →
    g.Alike (s.run es).2 (s'.run (without g.hidden es)).2 ∧
      (s.ended es).map g.visit = (s'.ended (without g.hidden es)).map g.visit ∧
      answersTo (!g.hidden ·) es (s.run es).1 =
        answersTo (!g.hidden ·) (without g.hidden es) (s'.run (without g.hidden es)).1 := by
  induction es with
  | nil => intro s s' h; exact ⟨h, rfl, rfl⟩
  | cons e es ih =>
    intro s s' h
    cases e with
    | enter a node => exact ih (h.step_enter a node)
    | leave =>
      obtain ⟨hnext, hended⟩ := h.step_leave
      obtain ⟨hlast, hover, hanswers⟩ := ih hnext
      have hwithout : without g.hidden (.leave :: es) = .leave :: without g.hidden es := rfl
      rw [hwithout, run_cons, run_cons, ended, ended, List.map_append, List.map_append, hover,
        ← Option.toList_map, ← Option.toList_map, hended]
      exact ⟨hlast, rfl, hanswers⟩
    | edit e =>
      rw [without_cons_edit]
      cases he : g.hidden e with
      | true =>
        obtain ⟨hlast, hover, hanswers⟩ := ih (h.step_hidden hg he)
        rw [if_pos rfl, run_cons, ended, answersTo_cons_edit, he]
        exact ⟨hlast, hover, hanswers⟩
      | false =>
        obtain ⟨hnext, hanswer⟩ := h.step_told hg he
        obtain ⟨hlast, hover, hanswers⟩ := ih hnext
        rw [if_neg Bool.false_ne_true, run_cons, run_cons, ended, ended, answersTo_cons_edit,
          answersTo_cons_edit, he, hanswer, hanswers]
        exact ⟨hlast, hover, rfl⟩

/-! ## Changes and other edits -/

/-- Changes: the node of each visit and whether it was changed, and the replace records. -/
def changes : Glance α (NodeId × α × Bool) where
  hidden e := !e.isReplace
  visit c := (c.anchor, c.node, c.edited)
  record r := r.isReplace

/-- All other edits: whether the node of each visit was marked for deletion, and the other records. -/
def others : Glance α (NodeId × Bool) where
  hidden e := e.isReplace
  visit c := (c.anchor, c.deleted)
  record r := !r.isReplace

theorem steady_changes : (changes : Glance α _).Steady where
  hide := by
    intro m c rs e he
    have hr : e.isReplace = false := by rwa [changes, Bool.not_eq_true'] at he
    have hfirst : (e.isReplace && c.edited) = false := by rw [hr, Bool.false_and]
    rw [Context.askIn_of_first hfirst, Context.recordsIn_of_first hfirst, List.filter_append]
    constructor
    · cases e with
      | replace node => cases hr
      | delete => rfl
      | insertBefore node => rfl
      | insertAfter node => rfl
    · simp [changes, EditRecord.isReplace, hr]
  tell := by
    intro m c c' rs rs' e he hvisit hrs
    have hr : e.isReplace = true := by rwa [changes, Bool.not_eq_false'] at he
    obtain ⟨node, rfl⟩ := Edit.exists_replace hr
    obtain ⟨hanchor, hrest⟩ := Prod.mk.inj hvisit
    have hedited : c.edited = c'.edited := (Prod.mk.inj hrest).2
    have hadvance : changes.visit (c.advance (.replace node)) =
        changes.visit (c'.advance (.replace node)) := by
      simp only [changes, Context.anchor_advance, hanchor]
      rfl
    cases hc : c.edited with
    | false =>
      have hfirst : ((Edit.replace node).isReplace && c.edited) = false := hc
      have hfirst' : ((Edit.replace node).isReplace && c'.edited) = false := hedited ▸ hc
      rw [Context.askIn_of_first hfirst, Context.askIn_of_first hfirst',
        Context.recordsIn_of_first hfirst, Context.recordsIn_of_first hfirst', List.filter_append,
        List.filter_append, hrs, hanchor]
      exact ⟨rfl, hadvance, rfl⟩
    | true =>
      have hagain : ((Edit.replace node).isReplace && c.edited) = true := hc
      have hagain' : ((Edit.replace node).isReplace && c'.edited) = true := hedited ▸ hc
      rw [Context.recordsIn_of_repeated hagain, Context.recordsIn_of_repeated hagain', hanchor]
      cases m with
      | sequential =>
        refine ⟨rfl, hadvance, ?_⟩
        have hfilter := EditRecord.filter_isReplace_rewriteLast
          (r := (⟨c'.anchor, .replace node⟩ : EditRecord α)) rfl
        exact (hfilter rs).trans ((congrArg _ hrs).trans (hfilter rs').symm)
      | parallel =>
        rw [Context.askIn_of_repeated hagain, Context.askIn_of_repeated hagain', hanchor]
        exact ⟨rfl, hvisit, hrs⟩

theorem steady_others : (others : Glance α _).Steady where
  hide := by
    intro m c rs e he
    obtain ⟨node, rfl⟩ := Edit.exists_replace he
    cases hagain : (Edit.replace node).isReplace && c.edited with
    | false =>
      rw [Context.askIn_of_first hagain, Context.recordsIn_of_first hagain, List.filter_append]
      exact ⟨rfl, List.append_nil _⟩
    | true =>
      rw [Context.recordsIn_of_repeated hagain]
      cases m with
      | sequential => exact ⟨rfl, EditRecord.filter_not_isReplace_rewriteLast rfl rs⟩
      | parallel =>
        rw [Context.askIn_of_repeated hagain]
        exact ⟨rfl, rfl⟩
  tell := by
    intro m c c' rs rs' e he hvisit hrs
    obtain ⟨hanchor, hdeleted⟩ := Prod.mk.inj hvisit
    have hr : e.isReplace = false := he
    have hfirst : (e.isReplace && c.edited) = false := by rw [hr, Bool.false_and]
    have hfirst' : (e.isReplace && c'.edited) = false := by rw [hr, Bool.false_and]
    rw [Context.askIn_of_first hfirst, Context.askIn_of_first hfirst',
      Context.recordsIn_of_first hfirst, Context.recordsIn_of_first hfirst', List.filter_append,
      List.filter_append, hrs, hanchor]
    refine ⟨rfl, ?_, rfl⟩
    simp only [others, Context.anchor_advance, Context.deleted_advance, hanchor, hdeleted]

/-- Two runs from a new session that are the same without their hidden requests show the same. -/
theorem Steady.run_eq (hg : g.Steady) (o : Options) {es es' : List (Event α)}
    (h : without g.hidden es = without g.hidden es') :
    answersTo (!g.hidden ·) es ((start o).run es).1 =
        answersTo (!g.hidden ·) es' ((start o).run es').1 ∧
      ((start o).met es).map g.visit = ((start o).met es').map g.visit ∧
      ((start o).run es).2.records.filter g.record = ((start o).run es').2.records.filter g.record := by
  have hstart : g.Alike (start o : Session α) (start o) := alike_refl (coherent_start o)
  obtain ⟨hlast, hover, hanswers⟩ := hg.run es hstart
  obtain ⟨hlast', hover', hanswers'⟩ := hg.run es' hstart
  rw [← h] at hlast' hover' hanswers'
  refine ⟨hanswers.trans hanswers'.symm, ?_, hlast.records.trans hlast'.records.symm⟩
  rw [met, met, List.map_append, List.map_append, hover, hover', hlast.visits, hlast'.visits]

end Glance

namespace Session

/-- If any insertions and deletions are left out of a run, then its changes are answered the same, each
visit has the same node and was changed or not as before, and the replace records are the same. If any
changes are left out, then the other records are the same, and the same visits are marked for deletion.
Here two runs that come to the same without such requests are compared, so either may leave some out. -/
theorem changes_and_others_apart (o : Options) {es es' : List (Event α)} {as as' : List (Answer α)}
    {s s' : Session α} (h : (start o).run es = (as, s)) (h' : (start o).run es' = (as', s')) :
    (without (!·.isReplace) es = without (!·.isReplace) es' →
      answersTo (·.isReplace) es as = answersTo (·.isReplace) es' as' ∧
      ((start o).met es).map (fun c => (c.anchor, c.node, c.edited)) =
        ((start o).met es').map (fun c => (c.anchor, c.node, c.edited)) ∧
      s.records.filter (·.isReplace) = s'.records.filter (·.isReplace)) ∧
    (without (·.isReplace) es = without (·.isReplace) es' →
      ((start o).met es).map (fun c => (c.anchor, c.deleted)) =
        ((start o).met es').map (fun c => (c.anchor, c.deleted)) ∧
      s.records.filter (!·.isReplace) = s'.records.filter (!·.isReplace)) := by
  constructor
  · intro hsame
    obtain ⟨hanswers, hmet, hrecords⟩ := Glance.steady_changes.run_eq o hsame
    rw [h, h'] at hanswers hrecords
    simp only [Glance.changes, Bool.not_not] at hanswers
    exact ⟨hanswers, hmet, hrecords⟩
  · intro hsame
    obtain ⟨-, hmet, hrecords⟩ := Glance.steady_others.run_eq o hsame
    rw [h, h'] at hrecords
    exact ⟨hmet, hrecords⟩

/-- A node is visited inside its own visit, and both visits ask for edits of both sorts. The second run
leaves out some insertions and the deletion, the third one some changes. -/
theorem changes_and_others_apart_mixed :
    let es : List (Event String) := [.enter ⟨1⟩ "a", .edit (.insertBefore "x"), .edit (.replace "b"),
      .enter ⟨1⟩ "a", .edit (.replace "c"), .edit .delete, .edit (.replace "d"), .leave,
      .edit (.insertAfter "y"), .edit (.replace "e")]
    let fewer : List (Event String) := [.enter ⟨1⟩ "a", .edit (.replace "b"), .enter ⟨1⟩ "a",
      .edit (.replace "c"), .edit (.replace "d"), .leave, .edit (.insertAfter "y"),
      .edit (.replace "e")]
    let unchanged : List (Event String) := [.enter ⟨1⟩ "a", .edit (.insertBefore "x"), .enter ⟨1⟩ "a",
      .edit .delete, .edit (.replace "d"), .leave, .edit (.insertAfter "y")]
    ∃ as s as₁ s₁ as₂ s₂, (start ⟨.sequential, 0⟩).run es = (as, s) ∧
      (start ⟨.sequential, 0⟩).run fewer = (as₁, s₁) ∧
      (start ⟨.sequential, 0⟩).run unchanged = (as₂, s₂) ∧
      without (!·.isReplace) es = without (!·.isReplace) fewer ∧
      answersTo (·.isReplace) es as = answersTo (·.isReplace) fewer as₁ ∧
      s.records.filter (·.isReplace) = s₁.records.filter (·.isReplace) ∧
      without (·.isReplace) es = without (·.isReplace) unchanged ∧
      s.records.filter (!·.isReplace) = s₂.records.filter (!·.isReplace) := by
  intro es fewer unchanged
  have hes : (start ⟨.sequential, 0⟩).run es = _ := rfl
  have hfewer := (changes_and_others_apart ⟨.sequential, 0⟩ hes (rfl : run _ fewer = _)).1 rfl
  have hunchanged := (changes_and_others_apart ⟨.sequential, 0⟩ hes (rfl : run _ unchanged = _)).2 rfl
  exact ⟨_, _, _, _, _, _, rfl, rfl, rfl, rfl, hfewer.1, hfewer.2.2, rfl, hunchanged.2⟩

end Session
end TreeEdits
