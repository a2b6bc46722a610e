import TreeEdits.Proofs.Pool.Turn

/-!
# TreeEdits.Proofs.Pool.Apart

Visits side by side do not disturb each other. What a visit is answered and what becomes of it are
its own affair, and its records stand among those of the others as they would stand alone.

* `Pool.accepted`: the records of a run with the visits that they are of, read off the events and
  the answers. `records_eq_accepted`: these are the records in the buffer.
* `accepted_append`, `accepted_own`: those of one visit, found from where it opens, are the ones that
  it adds alone.
* `run_apart`: any visit of any run, against the same requests made alone.
-/

namespace TreeEdits

variable {κ α : Type}

/-- Whether an answer is that of a request which was not refused. -/
def Answer.accepts : Answer α → Bool
  | recorded (.ok _) => true
  | _ => false

namespace Event

/-- Which visit is in a slot after the event with number `n`: the number of the event that opened
it, and its node. -/
def holder (n : Nat) : Event α → Option (Nat × NodeId) → Option (Nat × NodeId)
  | enter a _, _ => some (n, a)
  | leave, _ => none
  | edit _, v => v

/-- The record of a request that was not refused, with the visit that it is of. -/
def accepted? : Event α → Answer α → Option (Nat × NodeId) → Option (Nat × EditRecord α)
  | edit e, .recorded (.ok _), some (i, a) => some (i, ⟨a, e⟩)
  | _, _, _ => none

theorem accepted?_eq_none {e : Event α} (h : e.isEdit = false) (answer : Answer α)
    (v : Option (Nat × NodeId)) : e.accepted? answer v = none := by
  cases e with
  | enter a node => rfl
  | leave => rfl
  | edit e => cases h

/-- In a slot that a visit does not hold, no record is added to those of the visit. -/
theorem filter_accepted?_eq_nil {v : Option (Nat × NodeId)} {i : Nat} (h : ∀ a, v ≠ some (i, a))
    (e : Event α) (answer : Answer α) : (e.accepted? answer v).toList.filter (·.1 = i) = [] := by
  rw [List.filter_eq_nil_iff]
  intro r hr
  rw [Option.mem_toList, accepted?.eq_def] at hr
  split at hr
  · rename_i j a
    cases hr
    intro hj
    rw [decide_eq_true_eq] at hj
    subst hj
    exact h a rfl
  · cases hr

/-- Only an edit leaves a visit in a slot where it was. -/
theorem holder_ne {v : Option (Nat × NodeId)} {n i : Nat} {e : Event α} (hn : i < n)
    (h : e.isEdit = true → ∀ a, v ≠ some (i, a)) (a : NodeId) : e.holder n v ≠ some (i, a) := by
  cases e with
  | enter a' node =>
    intro he
    cases he
    exact Nat.lt_irrefl _ hn
  | leave =>
    intro he
    cases he
  | edit e => exact h rfl a

end Event

namespace Pool

/-- Which visits are in the slots. -/
abbrev Holders (κ : Type) := κ → Option (Nat × NodeId)

/-- All visits in the slots were opened before the event with number `n`. -/
def Holders.Below (holders : Holders κ) (n : Nat) : Prop := ∀ k i a, holders k = some (i, a) → i < n

variable [BEq κ]

/-- Which visits are in the slots after an event. -/
def hold (n : Nat) (k : κ) (e : Event α) (holders : Holders κ) : Holders κ := fun k' =>
  if k' == k then e.holder n (holders k) else holders k'

/-- The records of the requests that were not refused, each with the number of the event that opened
its visit. The first event has the number `n`, and `holders` are the visits in the slots before. -/
def accepted (n : Nat) (holders : Holders κ) :
    List ((κ × Event α) × Answer α) → List (Nat × EditRecord α)
  | [] => []
  | ((k, e), a) :: h => (e.accepted? a (holders k)).toList ++ accepted (n + 1) (hold n k e holders) h

/-- The visits in the slots are those of a pool. -/
def Names (p : Pool κ α) (holders : Holders κ) : Prop :=
  ∀ k, (holders k).map Prod.snd = (p.visit? k).map Context.anchor

theorem accepted?_step {p : Pool κ α} {holders : Holders κ} (h : p.Names holders)
    (k : κ) (e : Event α) :
    (e.accepted? (p.step k e).1 (holders k)).map Prod.snd = e.adds? (p.visit? k) ∧
      (e.accepted? (p.step k e).1 (holders k)).isSome = (p.step k e).1.accepts := by
  have hk := h k
  rw [answer_step]
  cases e with
  | enter a node => exact ⟨rfl, rfl⟩
  | leave => cases hv : p.visit? k <;> exact ⟨rfl, rfl⟩
  | edit e =>
    cases hv : p.visit? k with
    | none => exact ⟨rfl, rfl⟩
    | some c =>
      rw [hv] at hk
      obtain ⟨⟨i, a⟩, hi, ha⟩ := Option.map_eq_some_iff.1 hk
      subst ha
      rw [hi, Event.turn, Event.adds?, Context.adds?, Context.ask]
      split <;> exact ⟨rfl, rfl⟩

theorem hold_ne {n i : Nat} {k k' : κ} {e : Event α} {holders : Holders κ}
    (hn : i < n) (hk : e.isEdit = true → ∀ a, holders k ≠ some (i, a))
    (hk' : (k' == k) = false → ∀ a, holders k' ≠ some (i, a)) (a : NodeId) :
    hold n k e holders k' ≠ some (i, a) := by
  rw [hold]
  split
  · exact Event.holder_ne hn hk a
  · rename_i hne
    exact hk' (Bool.eq_false_iff.2 hne) a

/-- A visit that is over adds no records. -/
theorem accepted_of_absent (i : Nat) (h : List ((κ × Event α) × Answer α)) :
    ∀ {n : Nat} {holders : Holders κ}, i < n → (∀ k a, holders k ≠ some (i, a)) →
      (accepted n holders h).filter (·.1 = i) = [] := by
  induction h with
  | nil => intro n holders _ _; rfl
  | cons x h ih =>
    intro n holders hi hno
    obtain ⟨⟨k, e⟩, answer⟩ := x
    rw [accepted, List.filter_append, Event.filter_accepted?_eq_nil (hno k), List.nil_append]
    exact ih (Nat.lt_succ_of_lt hi) fun k' => hold_ne hi (fun _ => hno k) fun _ => hno k'

/-! ## The rest of a run -/

theorem run_append (es fs : List (κ × Event α)) : ∀ p : Pool κ α,
    p.run (es ++ fs) = ((p.run es).1 ++ ((p.run es).2.run fs).1, ((p.run es).2.run fs).2) := by
  induction es with
  | nil => intro p; rfl
  | cons x es ih =>
    intro p
    obtain ⟨k, e⟩ := x
    rw [List.cons_append, run_cons, ih, run_cons, List.cons_append]

theorem drop_history (before es : List (κ × Event α)) : ∀ p : Pool κ α,
    ((before ++ es).zip (p.run (before ++ es)).1).drop before.length =
      es.zip ((p.run before).2.run es).1 := by
  induction before with
  | nil => intro p; rfl
  | cons x before ih =>
    intro p
    exact ih _

theorem below_hold {n : Nat} {holders : Holders κ} (h : holders.Below n) (k : κ) (e : Event α) :
    (hold n k e holders).Below (n + 1) := by
  intro k' i a hi
  rw [hold] at hi
  split at hi
  · cases e with
    | enter a' node =>
      cases hi
      exact Nat.lt_succ_self n
    | leave => cases hi
    | edit e => exact Nat.lt_succ_of_lt (h k i a hi)
  · exact Nat.lt_succ_of_lt (h k' i a hi)

/-- The records of visits that open after some events are told from the events after these. -/
theorem accepted_append (before es : List (κ × Event α)) :
    ∀ {p : Pool κ α} {n : Nat} {holders : Holders κ}, holders.Below n →
      ∃ holders' : Holders κ, holders'.Below (n + before.length) ∧
        ∀ i, n + before.length ≤ i →
          (accepted n holders ((before ++ es).zip (p.run (before ++ es)).1)).filter (·.1 = i) =
            (accepted (n + before.length) holders' (es.zip ((p.run before).2.run es).1)).filter
              (·.1 = i) := by
  induction before with
  | nil =>
    intro p n holders hbound
    exact ⟨holders, hbound, fun i _ => rfl⟩
  | cons x before ih =>
    intro p n holders hbound
    obtain ⟨k, e⟩ := x
    obtain ⟨holders', hbound', htail⟩ := ih (p := (p.step k e).2) (below_hold hbound k e)
    have hlength : n + ((k, e) :: before).length = n + 1 + before.length := by
      rw [List.length_cons]
      omega
    rw [hlength]
    refine ⟨holders', hbound', fun i hi => ?_⟩
    have hfree : ∀ a, holders k ≠ some (i, a) := by
      intro a h
      have := hbound k i a h
      omega
    rw [List.cons_append, run_cons, List.zip_cons_cons, accepted, List.filter_append,
      Event.filter_accepted?_eq_nil hfree, List.nil_append, htail i hi]
    rfl

/-! ## What the buffer holds -/

variable [LawfulBEq κ]

theorem hold_edit (n : Nat) (k : κ) (e : Edit α) (holders : Holders κ) :
    hold n k (.edit e) holders = holders := by
  funext k'
  rw [hold]
  split
  · rename_i h
    rw [beq_iff_eq] at h
    rw [h, Event.holder]
  · rfl

theorem names_step {p : Pool κ α} {holders : Holders κ} (h : p.Names holders)
    (n : Nat) (k : κ) (e : Event α) : (p.step k e).2.Names (hold n k e holders) := by
  intro k'
  rw [visit?_step, hold]
  split
  · have hk := h k
    cases e with
    | enter a node => rfl
    | leave => cases hv : p.visit? k <;> rfl
    | edit e =>
      cases hv : p.visit? k with
      | none => rwa [hv] at hk
      | some c =>
        rw [hv] at hk
        rw [Event.holder, Event.turn, hk, Option.map_some, Option.map_some, Context.anchor_ask]
  · exact h k'

/-- The buffer has one record for each request that was not refused, in the order of the requests. -/
theorem records_eq_accepted (es : List (κ × Event α)) :
    ∀ {p : Pool κ α} (n : Nat) {holders : Holders κ}, p.Names holders →
      (p.run es).2.buffer.records.toList =
          p.buffer.records.toList ++ (accepted n holders (es.zip (p.run es).1)).map Prod.snd ∧
        (accepted n holders (es.zip (p.run es).1)).length = (p.run es).1.countP Answer.accepts := by
  induction es with
  | nil =>
    intro p n holders _
    exact ⟨(List.append_nil _).symm, rfl⟩
  | cons x es ih =>
    intro p n holders h
    obtain ⟨k, e⟩ := x
    obtain ⟨hrecord, hcount⟩ := accepted?_step h k e
    obtain ⟨hrecords, hlength⟩ := ih (n + 1) (names_step h n k e)
    rw [run_cons, List.zip_cons_cons, accepted]
    constructor
    · rw [hrecords, records_step, ← hrecord, List.map_append, List.append_assoc, Option.toList_map]
    · rw [List.length_append, hlength, List.countP_cons, ← hcount]
      cases e.accepted? (p.step k e).1 (holders k) with
      | none => simp
      | some x => simp [Nat.add_comm]

/-- While a visit is open, the records of a run that are of this visit are those that it adds alone.
-/
theorem accepted_own (k : κ) (i : Nat) (es : List (κ × Event α)) :
    ∀ {p : Pool κ α} {c : Context α} {n : Nat} {holders : Holders κ},
      p.visit? k = some c → holders k = some (i, c.anchor) →
      (∀ k', (k' == k) = false → ∀ a, holders k' ≠ some (i, a)) → i < n →
        ((accepted n holders (es.zip (p.run es).1)).filter (·.1 = i)).map Prod.snd =
          c.added (requests k es) := by
  induction es with
  | nil => intro p c n holders _ _ _ _; rfl
  | cons x es ih =>
    intro p c n holders hp hk hno hi
    obtain ⟨k', e⟩ := x
    have hi' : i < n + 1 := Nat.lt_succ_of_lt hi
    rw [run_cons, List.zip_cons_cons, accepted, List.filter_append, List.map_append]
    cases hkk : k' == k with
    | false =>
      have hkk' : (k == k') = false := by rwa [Bool.beq_comm]
      have hheld : hold n k' e holders k = some (i, c.anchor) := by
        rw [hold, hkk', if_neg Bool.false_ne_true, hk]
      rw [requests_other hkk, Event.filter_accepted?_eq_nil (hno k' hkk)]
      exact ih (by rw [visit?_step_other p hkk, hp]) hheld
        (fun k'' hk'' => hold_ne hi (fun _ => hno k' hkk) fun _ => hno k'' hk'') hi'
    | true =>
      rw [beq_iff_eq] at hkk
      subst hkk
      cases hedit : e.isEdit with
      | false =>
        -- The visit is over: no slot holds it from now on.
        have hnone := accepted_of_absent i (es.zip ((p.step k' e).2.run es).1) hi' fun k'' =>
          hold_ne hi (fun h => by rw [hedit] at h; cases h) (hno k'')
        rw [requests_end hedit, Event.accepted?_eq_none hedit, hnone]
        rfl
      | true =>
        cases e with
        | enter a node => cases hedit
        | leave => cases hedit
        | edit e =>
          have hhead : (Event.edit e).accepted? (p.step k' (.edit e)).1 (holders k') =
              (c.adds? e).map fun r => (i, r) := by
            rw [answer_step, hp, hk, Event.turn, Context.adds?, Context.ask]
            split <;> rfl
          have hanchor : holders k' = some (i, (c.ask e).2.anchor) := by rw [hk, Context.anchor_ask]
          have htail := ih (visit?_step_self p hp e) hanchor hno hi'
          rw [requests_edit, Context.added, hold_edit, htail, hhead]
          cases c.adds? e with
          | none => rfl
          | some r => simp

/-! ## A visit in a run -/

/-- The requests of one visit, made alone over an empty buffer. -/
def alone (k : κ) (a : NodeId) (node : α) (es : List (Edit α)) : List (Answer α) × Pool κ α :=
  start.run ((k, .enter a node) :: es.map fun e => (k, .edit e))

/-- What one visit of a run has to do with the same requests made alone. The visit opens in the slot
`k` after the events `before`, and `after` are the events after that. A run may end anywhere, so its
last state is any state that the visit is in while it is open. -/
structure Apart (before : List (κ × Event α)) (k : κ) (a : NodeId) (node : α)
    (after : List (κ × Event α)) (h : List ((κ × Event α) × Answer α)) (p : Pool κ α) : Prop where
  answers : (alone k a node (requests k after)).1 <+: heard k (h.drop before.length)
  visit : (∀ x ∈ after, x.1 = k → x.2.isEdit = true) → ∃ c : Context α,
    p.visit? k = some c ∧ (alone k a node (requests k after)).2.visit? k = some c
  records : ((accepted 0 (fun _ => none) h).filter (·.1 = before.length)).map Prod.snd =
    (alone k a node (requests k after)).2.buffer.records.toList
  refused : ∃ results : List (Except EditError Control),
    (alone k a node (requests k after)).1 = .entered :: results.map .recorded ∧
    ∀ d e d', requests k after = d ++ e :: d' →
      ((∃ err, results[d.length]? = some (.error err)) ↔ e.isReplace = true ∧
        ∃ x ∈ d.zip results, x.1.isReplace = true ∧ ∃ control, x.2 = .ok control)

theorem visit?_enter (p : Pool κ α) (k : κ) (a : NodeId) (node : α) :
    (p.step k (.enter a node)).2.visit? k = some (.enter a node) := by
  rw [visit?_step, beq_self_eq_true, if_pos rfl, Event.turn]

/-- A visit alone, from its opening on. -/
theorem alone_eq (k : κ) (a : NodeId) (node : α) (es : List (Edit α)) :
    (alone k a node es).1 = .entered :: ((Context.enter a node).results es).map .recorded ∧
      (alone k a node es).2.visit? k = some ((Context.enter a node).afterAll es) ∧
      (alone k a node es).2.buffer.records.toList = (Context.enter a node).added es := by
  obtain ⟨hanswers, hvisit, hrecords⟩ := run_alone k es (visit?_enter start k a node)
  refine ⟨?_, hvisit, ?_⟩
  · rw [alone, run_cons, hanswers]
    rfl
  · rw [alone, run_cons, hrecords]
    rfl

/-- The records of a visit, among those of a whole run. -/
theorem accepted_visit (before : List (κ × Event α)) (k : κ) (a : NodeId) (node : α)
    (after : List (κ × Event α)) :
    ((accepted 0 (fun _ => none) ((before ++ (k, .enter a node) :: after).zip
        (start.run (before ++ (k, .enter a node) :: after)).1)).filter
          (·.1 = before.length)).map Prod.snd =
      (Context.enter a node).added (requests k after) := by
  have hclosed : Holders.Below (fun _ : κ => none) 0 := by
    intro k' i a' h
    cases h
  obtain ⟨holders, hbound, htail⟩ :=
    accepted_append before ((k, .enter a node) :: after) (p := start) hclosed
  rw [Nat.zero_add] at hbound htail
  have hheld : hold before.length k (.enter a node) holders k = some (before.length, a) := by
    rw [hold, beq_self_eq_true, if_pos rfl, Event.holder]
  have hother : ∀ k', (k' == k) = false →
      ∀ a', hold before.length k (.enter a node) holders k' ≠ some (before.length, a') := by
    intro k' hk a' h
    rw [hold, hk, if_neg Bool.false_ne_true] at h
    exact Nat.lt_irrefl _ (hbound k' before.length a' h)
  rw [htail before.length (Nat.le_refl _), run_cons, List.zip_cons_cons, accepted]
  exact accepted_own k before.length after (visit?_enter _ k a node) hheld hother
    (Nat.lt_succ_self _)

theorem apart (before : List (κ × Event α)) (k : κ) (a : NodeId) (node : α)
    (after : List (κ × Event α)) :
    Apart before k a node after ((before ++ (k, .enter a node) :: after).zip
        (start.run (before ++ (k, .enter a node) :: after)).1)
      (start.run (before ++ (k, .enter a node) :: after)).2 := by
  obtain ⟨hanswers, hvisit, hrecords⟩ := alone_eq k a node (requests k after)
  have hopen := visit?_enter (start.run before).2 k a node
  constructor
  case answers =>
    rw [hanswers, drop_history, run_cons, List.zip_cons_cons, heard_cons, beq_self_eq_true, if_pos rfl]
    exact List.cons_prefix_cons.2 ⟨rfl, results_prefix_heard k after hopen⟩
  case visit =>
    intro hstays
    rw [run_append, run_cons]
    exact ⟨_, visit?_run k after hopen hstays, hvisit⟩
  case records => rw [accepted_visit, hrecords]
  case refused =>
    refine ⟨_, hanswers, fun d e d' hd => ?_⟩
    rw [hd, Context.results_eq_error_iff]
    simp [Context.enter]

/-- Visits side by side keep apart. Each gets the answers, ends in the state and leaves the records
that it would alone, and the buffer has the records of the requests that were not refused, in the
order of the requests. -/
theorem run_apart {es : List (κ × Event α)} {as : List (Answer α)} {p : Pool κ α}
    (h : start.run es = (as, p)) :
    p.buffer.records.toList = (accepted 0 (fun _ => none) (es.zip as)).map Prod.snd ∧
      p.buffer.size = as.countP Answer.accepts ∧
      ∀ before k a node after, es = before ++ (k, .enter a node) :: after →
        Apart before k a node after (es.zip as) p := by
  have hnames : (start : Pool κ α).Names fun _ => none := fun _ => rfl
  obtain ⟨hrecords, hcount⟩ := records_eq_accepted es 0 hnames
  rw [h] at hrecords hcount
  refine ⟨hrecords, ?_, ?_⟩
  · rw [← hcount, ← List.length_map Prod.snd, ParallelBuffer.size_eq_length]
    exact congrArg List.length hrecords
  · intro before k a node after hes
    subst hes
    have := apart before k a node after
    rwa [h] at this

/-- Two visits of one node, taking turns: each has its first change, and each is refused a second. -/
theorem run_apart_shared :
    let es : List (Nat × Event String) := [(1, .enter ⟨4⟩ "x"), (2, .enter ⟨4⟩ "x"),
      (1, .edit (.replace "y")), (2, .edit (.replace "z")), (1, .edit (.replace "w")),
      (2, .edit .delete), (2, .edit (.replace "v")), (1, .edit (.insertAfter "n"))]
    ∃ p, start.run es = ([.entered, .entered, .recorded (.ok .proceed), .recorded (.ok .proceed),
        .recorded (.error (.conflict ⟨4⟩)), .recorded (.ok .proceed),
        .recorded (.error (.conflict ⟨4⟩)), .recorded (.ok .proceed)], p) ∧
      p.buffer.records.toList = [⟨⟨4⟩, .replace "y"⟩, ⟨⟨4⟩, .replace "z"⟩, ⟨⟨4⟩, .delete⟩,
        ⟨⟨4⟩, .insertAfter "n"⟩] ∧
      p.buffer.size = 4 ∧
      (alone 2 ⟨4⟩ "x" [.replace "z", .delete, .replace "v"]).2.buffer.records.toList =
        [⟨⟨4⟩, .replace "z"⟩, ⟨⟨4⟩, .delete⟩] ∧
      Apart [(1, .enter ⟨4⟩ "x")] 2 ⟨4⟩ "x" (es.drop 2) (es.zip (start.run es).1) p := by
  intro es
  obtain ⟨hrecords, hsize, hvisits⟩ := run_apart (rfl : start.run es = _)
  exact ⟨_, rfl, hrecords, hsize, rfl, hvisits [(1, .enter ⟨4⟩ "x")] 2 ⟨4⟩ "x" (es.drop 2) rfl⟩

end Pool
end TreeEdits
