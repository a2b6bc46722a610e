import TreeEdits.Pool
import TreeEdits.Proofs.Context.Requests

/-!
# TreeEdits.Proofs.Pool.Turn

Visits side by side, each seen by itself. A buffer that only grows never decides what a request
gives, so an event in a slot comes down to a function of the visit there.

* `Context.ask`, `Event.turn`: a request, and an event of a slot, without the buffer.
* `answer_step`, `visit?_step`, `records_step`: what an event does to a pool, in these terms.
* `Pool.requests`, `Pool.heard`: what a visit asks for and what its slot is answered in a run.
* `run_alone`, `results_prefix_heard`, `visit?_run`: a visit alone, and the same visit among others.
-/

namespace TreeEdits

variable {κ α : Type}

namespace Context

/-- What a request gives side by side with other visits, and the visit after it. -/
def ask (c : Context α) (e : Edit α) : Except EditError Control × Context α :=
  if e.isReplace && c.edited then (.error (.conflict c.anchor), c) else (.ok .proceed, c.advance e)

/-- The record that a request adds. -/
def adds? (c : Context α) (e : Edit α) : Option (EditRecord α) :=
  if e.isReplace && c.edited then none else some ⟨c.anchor, e⟩

/-- What requests give, one after the other. -/
def results (c : Context α) : List (Edit α) → List (Except EditError Control)
  | [] => []
  | e :: es => (c.ask e).1 :: (c.ask e).2.results es

/-- The visit after requests. -/
def afterAll (c : Context α) (es : List (Edit α)) : Context α := es.foldl (fun c e => (c.ask e).2) c

/-- The records that requests add. -/
def added (c : Context α) : List (Edit α) → List (EditRecord α)
  | [] => []
  | e :: es => (c.adds? e).toList ++ (c.ask e).2.added es

theorem recordParallel_eq (c : Context α) (b : ParallelBuffer α) (e : Edit α) :
    (c.recordParallel b e).result = (c.ask e).1 ∧ (c.recordParallel b e).context = (c.ask e).2 ∧
      (c.recordParallel b e).buffer.records.toList = b.records.toList ++ (c.adds? e).toList := by
  by_cases h : (e.isReplace && c.edited) = true
  · have h' : e.isReplace = true ∧ c.edited = true := by rwa [Bool.and_eq_true] at h
    rw [recordParallel, if_pos h', ask, if_pos h, adds?, if_pos h]
    exact ⟨rfl, rfl, by simp⟩
  · have h' : ¬(e.isReplace = true ∧ c.edited = true) := by rwa [Bool.and_eq_true] at h
    rw [recordParallel, if_neg h', ask, if_neg h, adds?, if_neg h]
    exact ⟨rfl, rfl, by simp [ParallelBuffer.push, EditView.record, anchor]⟩

theorem anchor_ask (c : Context α) (e : Edit α) : (c.ask e).2.anchor = c.anchor := by
  rw [ask]
  split
  · rfl
  · exact anchor_advance c e

/-- A request is refused exactly if it is a change and the node was changed before. -/
theorem results_eq_error_iff (e : Edit α) (after before : List (Edit α)) : ∀ c : Context α,
    (∃ err, (c.results (before ++ e :: after))[before.length]? = some (.error err)) ↔
      e.isReplace = true ∧ (c.edited = true ∨
        ∃ x ∈ before.zip (c.results (before ++ e :: after)),
          x.1.isReplace = true ∧ ∃ control, x.2 = .ok control) := by
  induction before with
  | nil =>
    intro c
    rw [List.nil_append, results, ask]
    cases e.isReplace <;> cases c.edited <;> simp
  | cons f before ih =>
    intro c
    rw [List.cons_append, results, List.length_cons, List.getElem?_cons_succ, List.zip_cons_cons, ih]
    simp only [List.mem_cons, exists_eq_or_imp]
    cases h : f.isReplace && c.edited with
    | true =>
      have hself : (c.ask f).2 = c := by rw [ask, h]; rfl
      rw [Bool.and_eq_true] at h
      simp [hself, h.2]
    | false =>
      have hnext : (c.ask f).2.edited = (c.edited || f.isReplace) := by
        rw [ask, h]
        exact edited_advance c f
      have hok : ∃ control, (c.ask f).1 = .ok control := by
        rw [ask, h]
        exact ⟨.proceed, rfl⟩
      rw [hnext, Bool.or_eq_true, or_assoc]
      simp only [hok, and_true]

end Context

namespace Event

def isEdit : Event α → Bool
  | edit _ => true
  | _ => false

/-- What an event gives in a slot, and the visit in the slot after it. -/
def turn : Event α → Option (Context α) → Answer α × Option (Context α)
  | enter a node, _ => (.entered, some (.enter a node))
  | leave, none => (.nothing, none)
  | leave, some c => (.left c.node, none)
  | edit _, none => (.nothing, none)
  | edit e, some c => (.recorded (c.ask e).1, some (c.ask e).2)

/-- The record that an event adds. -/
def adds? : Event α → Option (Context α) → Option (EditRecord α)
  | edit e, some c => c.adds? e
  | _, _ => none

end Event

namespace Pool

def start : Pool κ α := ⟨.empty, []⟩

variable [BEq κ]

/-- What a visit in a slot asks for, from the events after it was opened: the edits in the slot up to
the next event there that is no edit. -/
def requests (k : κ) : List (κ × Event α) → List (Edit α)
  | [] => []
  | (k', e) :: es =>
    if k' == k then
      match e with
      | .edit e => e :: requests k es
      | _ => []
    else requests k es

/-- The answers to the events of a slot. -/
def heard (k : κ) (h : List ((κ × Event α) × Answer α)) : List (Answer α) :=
  (h.filter fun x => x.1.1 == k).map Prod.snd

theorem requests_other {k k' : κ} (h : (k' == k) = false) (e : Event α) (es : List (κ × Event α)) :
    requests k ((k', e) :: es) = requests k es := by
  cases e <;> simp [requests, h]

theorem heard_cons (k k' : κ) (e : Event α) (a : Answer α) (h : List ((κ × Event α) × Answer α)) :
    heard k (((k', e), a) :: h) = if k' == k then a :: heard k h else heard k h := by
  rw [heard, List.filter_cons]
  split <;> rfl

theorem run_cons (p : Pool κ α) (k : κ) (e : Event α) (es : List (κ × Event α)) :
    p.run ((k, e) :: es) = ((p.step k e).1 :: ((p.step k e).2.run es).1, ((p.step k e).2.run es).2) :=
  rfl

/-! ## One event -/

theorem answer_step (p : Pool κ α) (k : κ) (e : Event α) :
    (p.step k e).1 = (e.turn (p.visit? k)).1 := by
  cases e with
  | enter a node => rfl
  | leave => cases h : p.visit? k <;> simp [step, Event.turn, h]
  | edit e =>
    cases h : p.visit? k with
    | none => simp [step, Event.turn, h]
    | some c => simp [step, Event.turn, h, (c.recordParallel_eq p.buffer e).1]

theorem records_step (p : Pool κ α) (k : κ) (e : Event α) :
    (p.step k e).2.buffer.records.toList =
      p.buffer.records.toList ++ (e.adds? (p.visit? k)).toList := by
  cases e with
  | enter a node => simp [step, Event.adds?]
  | leave => cases h : p.visit? k <;> simp [step, Event.adds?, h]
  | edit e =>
    cases h : p.visit? k with
    | none => simp [step, Event.adds?, h]
    | some c => simp [step, Event.adds?, h, (c.recordParallel_eq p.buffer e).2.2]

variable [LawfulBEq κ]

theorem lookup_filter (l : List (κ × Context α)) (k k' : κ) :
    (l.filter fun (i, _) => !(i == k)).lookup k' = if k' == k then none else l.lookup k' := by
  induction l with
  | nil => exact (ite_self none).symm
  | cons x l ih =>
    obtain ⟨i, c⟩ := x
    cases hi : i == k with
    | true =>
      simp only [List.filter_cons, hi, Bool.not_true, Bool.false_eq_true, if_false, ih,
        List.lookup_cons]
      rw [beq_iff_eq] at hi
      rw [hi]
      cases k' == k <;> rfl
    | false =>
      simp only [List.filter_cons, hi, Bool.not_false, if_true, List.lookup_cons, ih]
      cases hk : k' == i with
      | true =>
        rw [beq_iff_eq] at hk
        rw [hk, hi]
        rfl
      | false => rfl

/-- An event changes only the visit in its own slot. -/
theorem visit?_step (p : Pool κ α) (k : κ) (e : Event α) (k' : κ) :
    (p.step k e).2.visit? k' = if k' == k then (e.turn (p.visit? k)).2 else p.visit? k' := by
  have hput : ∀ (b : ParallelBuffer α) (c : Context α),
      (⟨b, p.put k c⟩ : Pool κ α).visit? k' = if k' == k then some c else p.visit? k' := by
    intro b c
    rw [visit?, put, List.lookup_cons, lookup_filter]
    cases k' == k <;> rfl
  cases e with
  | enter a node => exact hput p.buffer (.enter a node)
  | leave =>
    cases h : p.visit? k with
    | none => by_cases hk : k' = k <;> simp [step, Event.turn, h, hk]
    | some c =>
      simp only [step, h, Event.turn]
      exact lookup_filter p.slots k k'
  | edit e =>
    cases h : p.visit? k with
    | none => by_cases hk : k' = k <;> simp [step, Event.turn, h, hk]
    | some c =>
      simp only [step, h, Event.turn, ← (c.recordParallel_eq p.buffer e).2.1]
      exact hput _ _

theorem visit?_step_other (p : Pool κ α) {k k' : κ} (h : (k' == k) = false) (e : Event α) :
    (p.step k' e).2.visit? k = p.visit? k := by
  have h' : (k == k') = false := by rwa [Bool.beq_comm]
  rw [visit?_step, h', if_neg Bool.false_ne_true]

theorem visit?_step_self (p : Pool κ α) {k : κ} {c : Context α} (h : p.visit? k = some c)
    (e : Edit α) : (p.step k (.edit e)).2.visit? k = some (c.ask e).2 := by
  rw [visit?_step, beq_self_eq_true, if_pos rfl, h, Event.turn]

/-! ## One visit -/

theorem requests_edit (k : κ) (e : Edit α) (es : List (κ × Event α)) :
    requests k ((k, .edit e) :: es) = e :: requests k es := by
  simp [requests]

theorem requests_end {e : Event α} (h : e.isEdit = false) (k : κ) (es : List (κ × Event α)) :
    requests k ((k, e) :: es) = [] := by
  cases e with
  | enter a node => simp [requests]
  | leave => simp [requests]
  | edit e => cases h

/-- A visit alone: what it is answered, what becomes of it, and what it leaves behind. -/
theorem run_alone (k : κ) (es : List (Edit α)) : ∀ {q : Pool κ α} {c : Context α},
    q.visit? k = some c →
      (q.run (es.map fun e => (k, .edit e))).1 = (c.results es).map .recorded ∧
      (q.run (es.map fun e => (k, .edit e))).2.visit? k = some (c.afterAll es) ∧
      (q.run (es.map fun e => (k, .edit e))).2.buffer.records.toList =
        q.buffer.records.toList ++ c.added es := by
  induction es with
  | nil =>
    intro q c hq
    exact ⟨rfl, hq, (List.append_nil _).symm⟩
  | cons e es ih =>
    intro q c hq
    obtain ⟨hanswers, hvisit, hrecords⟩ := ih (visit?_step_self q hq e)
    rw [List.map_cons, run_cons, answer_step, hq]
    refine ⟨?_, hvisit, ?_⟩
    · rw [hanswers]
      rfl
    · rw [hrecords, records_step, hq, List.append_assoc]
      rfl

/-- Among others, a visit is answered what it is answered alone. -/
theorem results_prefix_heard (k : κ) (es : List (κ × Event α)) : ∀ {p : Pool κ α} {c : Context α},
    p.visit? k = some c →
      (c.results (requests k es)).map .recorded <+: heard k (es.zip (p.run es).1) := by
  induction es with
  | nil =>
    intro p c _
    exact List.nil_prefix
  | cons x es ih =>
    intro p c hp
    obtain ⟨k', e⟩ := x
    rw [run_cons, List.zip_cons_cons, heard_cons]
    cases hk : k' == k with
    | false =>
      rw [requests_other hk]
      exact ih (by rw [visit?_step_other p hk, hp])
    | true =>
      rw [beq_iff_eq] at hk
      subst hk
      cases e with
      | enter a node => rw [requests_end rfl]; exact List.nil_prefix
      | leave => rw [requests_end rfl]; exact List.nil_prefix
      | edit e =>
        rw [requests_edit, answer_step, hp]
        exact List.cons_prefix_cons.2 ⟨rfl, ih (visit?_step_self p hp e)⟩

/-- Among others, what becomes of a visit is what becomes of it alone. -/
theorem visit?_run (k : κ) (es : List (κ × Event α)) : ∀ {p : Pool κ α} {c : Context α},
    p.visit? k = some c → (∀ x ∈ es, x.1 = k → x.2.isEdit = true) →
      (p.run es).2.visit? k = some (c.afterAll (requests k es)) := by
  induction es with
  | nil =>
    intro p c hp _
    exact hp
  | cons x es ih =>
    intro p c hp hopen
    obtain ⟨k', e⟩ := x
    have hrest : ∀ x ∈ es, x.1 = k → x.2.isEdit = true :=
      fun x hx => hopen x (List.mem_cons_of_mem _ hx)
    rw [run_cons]
    cases hk : k' == k with
    | false =>
      rw [requests_other hk]
      exact ih (by rw [visit?_step_other p hk, hp]) hrest
    | true =>
      rw [beq_iff_eq] at hk
      subst hk
      have hedit := hopen (k', e) List.mem_cons_self rfl
      cases e with
      | enter a node => cases hedit
      | leave => cases hedit
      | edit e =>
        rw [requests_edit]
        exact ih (visit?_step_self p hp e) hrest

end Pool
end TreeEdits
