import TreeEdits.Proofs.Context.Accepted
import TreeEdits.Proofs.Script.Reach
import TreeEdits.Session

/-!
# TreeEdits.Proofs.Script.Repeated

A script called again and again on one context. The node, the changed flag and the deletion flag
carry over from one call to the next: a replacement brings in the rules for its label, not in the
call that makes it but in the next one.

* `Reused`: a context with its buffer and with the edits that were recorded through it so far.
* `Reused.Backed`: how the buffer and the context follow from those edits. It holds at first and
  every call keeps it (`backed_fresh`, `Backed.next`), so it holds after any number of calls.
* `Reused.Stands`, `Reused.Answers`: what is left by the calls before, and what a call does.
* `calls_again`: both, for any number of calls before.
-/

namespace TreeEdits

/-- A context that is used for several calls: as it stands, the buffer behind it, and the edits that
were recorded through it so far. -/
structure Reused where
  context : Context Tree
  buffer : EditBuffer Tree
  fired : List (Edit Tree)

namespace Reused

def fresh (o : Options) (a : NodeId) (t : Tree) : Reused :=
  ⟨.enter a t, (Session.start o).buffer, []⟩

/-- What a call asks for: the edits at the label that the node has when the call begins. -/
def asked (u : Reused) (s : Script) : List (Edit Tree) := s.edits u.context.node.label

def call (u : Reused) (s : Script) : Outcome Tree (EditBuffer Tree) :=
  u.context.visit u.buffer s.editor

def next (u : Reused) (s : Script) : Reused where
  context := (u.call s).context
  buffer := (u.call s).buffer
  fired := u.fired ++ u.context.accepted u.buffer (u.asked s)

/-- A fresh context over a new session after some calls, whether they failed or not. -/
def after (s : Script) (o : Options) (a : NodeId) (t : Tree) : Nat → Reused
  | 0 => fresh o a t
  | n + 1 => (after s o a t n).next s

/-! ## The invariant -/

/-- The context is what the recorded edits made of the fresh one, and the records are theirs. One
call after the other, the changes are merged; side by side, there is one at most. -/
structure Backed (a : NodeId) (t : Tree) (m : Mode) (u : Reused) : Prop where
  context : u.context = u.fired.foldl Context.advance (.enter a t)
  mode : u.buffer.mode = m
  sequential : m = .sequential → ∃ b, u.buffer = .sequential b ∧ b.Indexed ∧ u.context.Known b ∧
    b.records.toList = (Context.enter a t).recordsAll [] u.fired
  parallel : m = .parallel → u.buffer.records = u.fired.map (EditRecord.mk a) ∧
    u.fired.countP Edit.isReplace ≤ 1

theorem call_eq (u : Reused) (s : Script) :
    u.call s = (u.context.recordEach u.buffer (u.asked s)).finishing Script.finish :=
  Context.visit_edits_eq_recordEach Script.finish (u.asked s) u.context u.buffer

theorem backed_fresh (o : Options) (a : NodeId) (t : Tree) : (fresh o a t).Backed a t o.mode := by
  obtain ⟨m, hint⟩ := o
  cases m with
  | sequential =>
    refine ⟨rfl, rfl, fun _ => ?_, nofun⟩
    exact ⟨.empty, rfl, SequentialBuffer.indexed_empty, Context.known_enter a t .empty, rfl⟩
  | parallel => exact ⟨rfl, rfl, nofun, fun _ => ⟨rfl, Nat.zero_le 1⟩⟩

variable {a : NodeId} {t : Tree} {m : Mode} {u : Reused}

theorem accepted_of_call {s : Script} {k : Control} (h : (u.call s).result = .ok k) :
    u.context.accepted u.buffer (u.asked s) = u.asked s := by
  rw [call_eq] at h
  obtain ⟨k', hk⟩ := Outcome.exists_of_finishing_eq_ok h
  exact Context.accepted_of_ok hk

/-- One call after the other, a call has all its edits recorded. -/
theorem Backed.call_sequential (h : u.Backed a t .sequential) (s : Script) :
    ∃ k b, u.call s = ⟨.ok k, (u.asked s).foldl Context.advance u.context, .sequential b⟩ ∧
      (u.next s).fired = u.fired ++ u.asked s ∧ b.Indexed ∧
      ((u.asked s).foldl Context.advance u.context).Known b ∧
      b.records.toList = (Context.enter a t).recordsAll [] (u.fired ++ u.asked s) := by
  obtain ⟨b, hu, hb, hc, hrs⟩ := h.sequential rfl
  obtain ⟨b', hvisit, hb', hc', hrs'⟩ :=
    Context.visit_edits_sequential Script.finish (u.asked s) hb hc
  rw [← hu] at hvisit
  have hcall : u.call s = _ := hvisit
  refine ⟨_, b', hcall, ?_, hb', hc', ?_⟩
  · rw [next, accepted_of_call (by rw [hcall])]
  · rw [hrs', hrs, Context.recordsAll_append, ← h.context]

theorem context_next (u : Reused) (s : Script) : (u.next s).context =
    (u.context.accepted u.buffer (u.asked s)).foldl Context.advance u.context := by
  rw [next, call_eq]
  exact Context.context_recordEach (u.asked s) u.context u.buffer

theorem buffer_next (u : Reused) (s : Script) :
    (u.next s).buffer = (u.context.recordEach u.buffer (u.asked s)).buffer := by
  rw [next, call_eq]
  rfl

theorem Backed.anchor (h : u.Backed a t m) : u.context.anchor = a := by
  rw [h.context, Context.anchor_foldl_advance]
  rfl

theorem Backed.edited (h : u.Backed a t m) : u.context.edited = u.fired.any Edit.isReplace := by
  rw [h.context, Context.edited_foldl_advance]
  exact Bool.false_or _

theorem Backed.toNat_edited (h : u.Backed a t m) (hone : u.fired.countP Edit.isReplace ≤ 1) :
    u.context.edited.toNat = u.fired.countP Edit.isReplace := by
  rw [h.edited]
  cases hany : u.fired.any Edit.isReplace with
  | false =>
    rw [List.any_eq_false] at hany
    exact (List.countP_eq_zero.2 hany).symm
  | true =>
    rw [List.any_eq_true] at hany
    exact Nat.le_antisymm (List.countP_pos_iff.2 hany) hone

/-- A call keeps the invariant, also one that fails. -/
theorem Backed.next (h : u.Backed a t m) (s : Script) : (u.next s).Backed a t m where
  context := by rw [context_next, Reused.next, List.foldl_append, ← h.context]
  mode := by rw [buffer_next, Context.mode_recordEach, h.mode]
  sequential := by
    intro hm
    subst hm
    obtain ⟨k, b, hcall, hfired, hb, hc, hrs⟩ := h.call_sequential s
    have hcontext : (u.next s).context = (u.call s).context := rfl
    have hbuffer : (u.next s).buffer = (u.call s).buffer := rfl
    rw [hcall] at hcontext hbuffer
    exact ⟨b, hbuffer, hb, by rwa [hcontext], by rw [hfired, hrs]⟩
  parallel := by
    -- The flag counts the changes so far, so this call may accept one only if there was none.
    intro hm
    obtain ⟨hrecords, hcount⟩ := h.parallel hm
    obtain ⟨hrecords', hcount'⟩ :=
      Context.recordEach_parallel (u.asked s) u.context (h.mode.trans hm)
    refine ⟨?_, ?_⟩
    · rw [buffer_next, hrecords', hrecords, h.anchor, Reused.next, List.map_append]
    · rw [Reused.next, List.countP_append, ← h.toNat_edited hcount]
      exact hcount'

theorem backed_after (s : Script) (o : Options) (a : NodeId) (t : Tree) (n : Nat) :
    (after s o a t n).Backed a t o.mode := by
  induction n with
  | zero => exact backed_fresh o a t
  | succ n ih => exact ih.next s

/-! ## What the calls leave -/

/-- What is left by the calls before. The node is that of the last change that was recorded, and
there is at most one replacement. One call after the other, it stands where the first change was
recorded and carries the node as it is now. -/
structure Stands (a : NodeId) (t : Tree) (m : Mode) (u : Reused) : Prop where
  node : u.context.node = Edit.lastNode t u.fired
  edited : u.context.edited = u.fired.any Edit.isReplace
  once : u.buffer.records.countP EditRecord.isReplace ≤ 1
  changed : m = .sequential → ∀ pre x post, u.fired = pre ++ .replace x :: post →
    (∀ e ∈ pre, e.isReplace = false) → u.buffer.records = pre.map (EditRecord.mk a) ++
      ⟨a, .replace u.context.node⟩ :: (post.filter (!·.isReplace)).map (EditRecord.mk a)
  unchanged : m = .sequential → (∀ e ∈ u.fired, e.isReplace = false) →
    u.buffer.records = u.fired.map (EditRecord.mk a)
  parallel : m = .parallel → u.buffer.records = u.fired.map (EditRecord.mk a) ∧
    u.fired.countP Edit.isReplace ≤ 1

theorem countP_isReplace_map (a : NodeId) (es : List (Edit Tree)) :
    (es.map (EditRecord.mk a)).countP EditRecord.isReplace = es.countP Edit.isReplace := by
  rw [List.countP_map]
  rfl

theorem Backed.records_sequential (h : u.Backed a t .sequential) :
    u.buffer.records = (Edit.merged u.fired).map (EditRecord.mk a) := by
  obtain ⟨b, hu, -, -, hrs⟩ := h.sequential rfl
  rw [hu]
  exact hrs.trans (Context.recordsAll_eq_merged u.fired rfl)

theorem Backed.node (h : u.Backed a t m) : u.context.node = Edit.lastNode t u.fired := by
  rw [h.context, Context.node_foldl_advance]
  rfl

theorem Backed.stands (h : u.Backed a t m) : u.Stands a t m where
  node := h.node
  edited := h.edited
  once := by
    cases m with
    | sequential =>
      rw [h.records_sequential, countP_isReplace_map]
      exact Edit.countP_merged_le u.fired
    | parallel =>
      obtain ⟨hrecords, hcount⟩ := h.parallel rfl
      rwa [hrecords, countP_isReplace_map]
  changed := by
    intro hm pre x post hfired hpre
    subst hm
    have hnode : u.context.node = Edit.lastNode x post := by
      rw [h.node, hfired, Edit.lastNode_append_replace hpre]
    rw [h.records_sequential, hfired, Edit.merged_append_replace hpre, hnode, List.map_append,
      List.map_cons]
  unchanged := by
    intro hm hnone
    subst hm
    have hcount : u.fired.countP Edit.isReplace = 0 := by
      rw [List.countP_eq_zero]
      intro e he
      rw [hnone e he]
      exact Bool.false_ne_true
    rw [h.records_sequential, Edit.merged_eq_self (by omega)]
  parallel := h.parallel

/-! ## What a call does -/

/-- After some of its edits, all recorded, a call comes to a change, and the context is changed. -/
def ClashesAfter (u : Reused) (s : Script) (pre : List (Edit Tree)) : Prop :=
  ∃ x post, u.asked s = pre ++ .replace x :: post ∧
    (u.context.recordEach u.buffer pre).result = .ok .proceed ∧
    (u.context.recordEach u.buffer pre).context.edited = true

/-- What a call does. It asks for the edits of the rules for the label that the node has when the
call begins, one recorder call for each. One call after the other it never fails; side by side it
fails at the first change of a context that is changed, with what was recorded before. If it does
not fail, it goes past the children exactly if a deletion was recorded, in this call or before. -/
structure Answers (s : Script) (a : NodeId) (m : Mode) (u : Reused) : Prop where
  selected : (u.asked s).map (fun e => (e.action, e.node?)) =
    (s.rules.filter fun r => r.label == u.context.node.label).map fun r => (r.action, r.node)
  recorder : u.call s = (u.context.recordEach u.buffer (u.asked s)).finishing Script.finish
  sequential : m = .sequential → (∃ k, (u.call s).result = .ok k) ∧
    (u.next s).fired = u.fired ++ u.asked s
  clash : m = .parallel → ∀ pre, u.ClashesAfter s pre →
    (u.call s).result = .error (.conflict a) ∧ (u.next s).fired = u.fired ++ pre ∧
      (u.call s).buffer.records = u.buffer.records ++ pre.map (EditRecord.mk a)
  noClash : m = .parallel → (∀ pre, ¬u.ClashesAfter s pre) →
    (∃ k, (u.call s).result = .ok k) ∧ (u.next s).fired = u.fired ++ u.asked s
  ended : ∀ k, (u.call s).result = .ok k →
    k = if (u.next s).fired.any fun e => decide (e.action = .delete) then .skipChildren
      else .proceed

theorem Backed.clash (h : u.Backed a t .parallel) {s : Script} {pre : List (Edit Tree)}
    (hclash : u.ClashesAfter s pre) : (u.call s).result = .error (.conflict a) ∧
      (u.next s).fired = u.fired ++ pre ∧
      (u.call s).buffer.records = u.buffer.records ++ pre.map (EditRecord.mk a) := by
  obtain ⟨x, post, hasked, hok, hedited⟩ := hclash
  have hmode := (Context.mode_recordEach pre u.context u.buffer).trans h.mode
  have hanchor : (u.context.recordEach u.buffer pre).context.anchor = a := by
    rw [Context.context_recordEach, Context.anchor_foldl_advance, h.anchor]
  have hrefused := Context.record_of_repeated (e := .replace x) ⟨rfl, hedited⟩ hmode
  rw [hanchor] at hrefused
  -- Nothing is accepted from the refused change on, so the call leaves what `pre` left.
  have hfired : (u.next s).fired = u.fired ++ pre := by
    rw [Reused.next, hasked, Context.accepted_append _ hok, Context.accepted, hrefused,
      List.append_nil]
  have hrecords := ((h.next s).parallel rfl).1
  rw [hfired, List.map_append, ← (h.parallel rfl).1] at hrecords
  refine ⟨?_, hfired, hrecords⟩
  rw [call_eq, Outcome.finishing_eq_error_iff, hasked, Context.recordEach_append _ hok,
    Context.recordEach, hrefused]

/-- Only a change of a changed context is ever refused. -/
theorem exists_clash {s : Script} {err : EditError} (h : (u.call s).result = .error err) :
    ∃ pre, u.ClashesAfter s pre := by
  rw [call_eq, Outcome.finishing_eq_error_iff] at h
  obtain ⟨pre, e, post, hasked, hok, herr⟩ := Context.exists_refused h
  by_cases hr : e.isReplace = true ∧ (u.context.recordEach u.buffer pre).context.edited = true
  · cases e with
    | replace x => exact ⟨pre, x, post, hasked, hok, hr.2⟩
    | delete => cases hr.1
    | insertBefore x => cases hr.1
    | insertAfter x => cases hr.1
  · rw [Context.record_of_first hr] at herr
    cases herr

theorem Backed.answers (h : u.Backed a t m) (s : Script) : u.Answers s a m where
  selected := s.map_edits u.context.node.label
  recorder := u.call_eq s
  sequential := by
    intro hm
    subst hm
    obtain ⟨k, b, hcall, hfired, -⟩ := h.call_sequential s
    exact ⟨⟨k, by rw [hcall]⟩, hfired⟩
  clash := by
    intro hm pre hclash
    subst hm
    exact h.clash hclash
  noClash := by
    intro _ hnone
    cases hr : (u.call s).result with
    | error err =>
      obtain ⟨pre, hclash⟩ := exists_clash hr
      exact absurd hclash (hnone pre)
    | ok k => exact ⟨⟨k, rfl⟩, by rw [Reused.next, accepted_of_call hr]⟩
  ended := by
    intro k hk
    obtain ⟨hfinish, -⟩ := Context.visit_edits_ok hk
    have hdeleted : (u.call s).context.deleted =
        (u.next s).fired.any fun e => decide (e.action = .delete) := by
      have hcontext : (u.call s).context = _ := (h.next s).context
      rw [hcontext, Context.deleted_foldl_advance]
      exact Bool.false_or _
    rw [← hdeleted]
    exact hfinish

end Reused

/-- A valid script is called on a fresh context over a new session, in either mode, as often as one
likes. After any number of calls the context and the records are as `Reused.Stands` says, and the
next call does what `Reused.Answers` says. -/
theorem Script.calls_again (s : Script) (o : Options) (a : NodeId) (t : Tree) (n : Nat) :
    (Reused.after s o a t n).Stands a t o.mode ∧ (Reused.after s o a t n).Answers s a o.mode :=
  ⟨(Reused.backed_after s o a t n).stands, (Reused.backed_after s o a t n).answers s⟩

/-- Two labels that are replaced by each other. -/
def cycleScript : Script where
  rules := [⟨"a", .replace, some (.leaf "b")⟩, ⟨"b", .insertAfter, some (.leaf "c")⟩,
    ⟨"b", .replace, some (.leaf "a")⟩, ⟨"b", .delete, none⟩]
  fits := rfl

/-- After three calls on a node `a`, one after the other, the replacement is back at `b`; side by
side, the second and the third call were refused, and so is the fourth. -/
theorem calls_again_cycle :
    (∃ u, Reused.after cycleScript ⟨.sequential, 0⟩ ⟨0⟩ (.leaf "a") 3 = u ∧
      u.Stands ⟨0⟩ (.leaf "a") .sequential ∧ u.Answers cycleScript ⟨0⟩ .sequential ∧
      u.buffer.records = [⟨⟨0⟩, .replace (.leaf "b")⟩, ⟨⟨0⟩, .insertAfter (.leaf "c")⟩,
        ⟨⟨0⟩, .delete⟩]) ∧
    ∃ u, Reused.after cycleScript ⟨.parallel, 0⟩ ⟨0⟩ (.leaf "a") 3 = u ∧
      u.Stands ⟨0⟩ (.leaf "a") .parallel ∧ u.Answers cycleScript ⟨0⟩ .parallel ∧
      u.buffer.records = [⟨⟨0⟩, .replace (.leaf "b")⟩, ⟨⟨0⟩, .insertAfter (.leaf "c")⟩,
        ⟨⟨0⟩, .insertAfter (.leaf "c")⟩] ∧
      (u.call cycleScript).result = .error (.conflict ⟨0⟩) := by
  let u := Reused.after cycleScript ⟨.sequential, 0⟩ ⟨0⟩ (.leaf "a")
  have hu := cycleScript.calls_again ⟨.sequential, 0⟩ ⟨0⟩ (.leaf "a")
  have hparallel := cycleScript.calls_again ⟨.parallel, 0⟩ ⟨0⟩ (.leaf "a") 3
  have hnext : ∀ n, (u (n + 1)).fired =
      (u n).fired ++ cycleScript.edits (Edit.lastNode (.leaf "a") (u n).fired).label := by
    intro n
    rw [← (hu n).1.node]
    exact ((hu n).2.sequential rfl).2
  have hone : (u 1).fired = [.replace (.leaf "b")] := hnext 0
  have htwo : (u 2).fired =
      [.replace (.leaf "b"), .insertAfter (.leaf "c"), .replace (.leaf "a"), .delete] := by
    rw [hnext 1, hone]
    rfl
  have hthree : (u 3).fired = [.replace (.leaf "b"), .insertAfter (.leaf "c"),
      .replace (.leaf "a"), .delete, .replace (.leaf "b")] := by
    rw [hnext 2, htwo]
    rfl
  refine ⟨⟨u 3, rfl, (hu 3).1, (hu 3).2, ?_⟩, _, rfl, hparallel.1, hparallel.2, rfl, rfl⟩
  have hrecords := (hu 3).1.changed rfl [] _ _ hthree nofun
  have hnode := (hu 3).1.node
  rw [hthree] at hnode
  rw [hrecords, hnode]
  rfl

end TreeEdits
