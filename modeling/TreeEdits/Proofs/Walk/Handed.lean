import TreeEdits.Proofs.Walk.Along

/-!
# TreeEdits.Proofs.Walk.Handed

Which visits a walk hands to its editor, told from the pre-order of the tree and from what the
visits themselves ended with.

* `Visited.bars`: a visit that skips its children bars the nodes below it, one that stops or fails
  bars every later node.
* `Walk.Course`: the runs of the loop along a list of nodes. Every loop is one (`along_course`).
* `Course.handed`: the visits of a run are those of the nodes that none of its visits bars.
* `walk_handsOver`: so it is with both walkers.
-/

namespace TreeEdits

namespace Visited

def number (v : Visited) : Nat := v.before.anchor.index.toNat

def spot (v : Visited) : Tree × Nat := (v.before.node, v.number)

/-- Whether a visit keeps the node with a number from being visited. What is below the visited node
are the nodes that follow it, as many as its subtree has besides the root. -/
def bars (v : Visited) (i : Nat) : Bool :=
  decide (v.number < i) &&
    match v.result with
    | .ok .proceed => false
    | .ok .skipChildren => decide (i < v.number + v.before.node.size)
    | .ok .stop => true
    | .error _ => true

/-- How many nodes a walk passes over after a visit, if it goes on at all. -/
def skips? (v : Visited) : Option Nat :=
  match v.result with
  | .ok .proceed => some 0
  | .ok .skipChildren => some (v.before.node.size - 1)
  | .ok .stop => none
  | .error _ => none

theorem bars_of_le {v : Visited} {i : Nat} (h : i ≤ v.number) : v.bars i = false := by
  rw [bars, decide_eq_false (Nat.not_lt.2 h), Bool.false_and]

theorem bars_of_last {v : Visited} (h : v.skips? = none) {i : Nat} (hi : v.number < i) :
    v.bars i = true := by
  rw [bars, decide_eq_true hi, Bool.true_and]
  rw [skips?] at h
  cases hr : v.result with
  | error e => rfl
  | ok c =>
    rw [hr] at h
    cases c with
    | proceed => cases h
    | skipChildren => cases h
    | stop => rfl

theorem bars_of_skips {v : Visited} {k : Nat} (h : v.skips? = some k) {i : Nat}
    (hi : v.number < i) : v.bars i = decide (i < v.number + 1 + k) := by
  have hpos := v.before.node.size_pos
  rw [bars, decide_eq_true hi, Bool.true_and]
  rw [skips?] at h
  cases hr : v.result with
  | error e => rw [hr] at h; cases h
  | ok c =>
    rw [hr] at h
    cases c with
    | proceed =>
      cases h
      exact (decide_eq_false (by omega)).symm
    | skipChildren =>
      cases h
      exact decide_eq_decide.2 (by omega)
    | stop => cases h

end Visited

namespace Walk

/-- The nodes of a list that no visit bars, with their numbers, if the first has the number `n` and
the first `skip` are passed over. -/
def handed (n skip : Nat) (vs : List Visited) (ts : List Tree) : List (Tree × Nat) :=
  (ts.zipIdx n).filter fun p => decide (n + skip ≤ p.2) && vs.all fun v => !v.bars p.2

/-- Visits nodes in turn, whatever the visits end with. -/
def handOver (editor : WalkEditor) (w : Walk) (ps : List (Tree × Nat)) : Walk :=
  ps.foldl (fun w p => (w.visit editor p.2.toUInt32 p.1).2) w

/-- A visit takes a walk to the next state and is logged. -/
structure Visits (editor : WalkEditor) (w : Walk) (n : Nat) (t : Tree) (v : Visited) (w' : Walk) :
    Prop where
  visit : w.visit editor n.toUInt32 t = (v.result, w')
  before : v.before = Context.enter ⟨n.toUInt32⟩ t
  number : v.number = n
  log : w'.log = w.log.push v

theorem exists_visits (editor : WalkEditor) (w : Walk) {n : Nat} (hn : n < UInt32.size) (t : Tree) :
    ∃ v w', Visits editor w n t v w' := by
  let c : Context Tree := Context.enter ⟨n.toUInt32⟩ t
  let o := c.visit w.buffer (editor.after w.log)
  have hnumber : n.toUInt32.toNat = n := UInt32.toNat_ofNat_of_lt' hn
  exact ⟨⟨c, o.context, o.buffer.size, o.result⟩, _, rfl, rfl, hnumber, rfl⟩

theorem Visits.spot {editor : WalkEditor} {w w' : Walk} {n : Nat} {t : Tree} {v : Visited}
    (h : Visits editor w n t v w') : v.spot = (t, n) := by
  rw [Visited.spot, h.number, h.before]
  rfl

/-- A run of the loop: from `w`, along a list that begins at the number `n`, with `skip` nodes to
pass over, it makes some visits and ends with a result at another state. -/
inductive Course (editor : WalkEditor) :
    Nat → Nat → Walk → List Tree → List Visited → Except EditError Bool → Walk → Prop where
  | nil {skip n : Nat} {w : Walk} : Course editor skip n w [] [] (.ok false) w
  | pass {skip n : Nat} {w w' : Walk} {t : Tree} {ts : List Tree} {vs : List Visited}
      {r : Except EditError Bool} :
      Course editor skip (n + 1) w ts vs r w' → Course editor (skip + 1) n w (t :: ts) vs r w'
  | last {n : Nat} {w w' : Walk} {t : Tree} {ts : List Tree} {v : Visited} :
      Visits editor w n t v w' → v.skips? = none →
      Course editor 0 n w (t :: ts) [v] (ending v.result) w'
  | next {skip n : Nat} {w w₁ w' : Walk} {t : Tree} {ts : List Tree} {v : Visited}
      {vs : List Visited} {r : Except EditError Bool} :
      Visits editor w n t v w₁ → v.skips? = some skip →
      Course editor skip (n + 1) w₁ ts vs r w' → Course editor 0 n w (t :: ts) (v :: vs) r w'

theorem along_course (editor : WalkEditor) (ts : List Tree) :
    ∀ (skip n : Nat) (w : Walk), n + ts.length ≤ UInt32.size →
      ∃ vs, Course editor skip n w ts vs (along editor skip n.toUInt32 w ts).1
        (along editor skip n.toUInt32 w ts).2 := by
  induction ts with
  | nil => intro skip n w _; exact ⟨[], .nil⟩
  | cons t ts ih =>
    intro skip n w hn
    rw [List.length_cons] at hn
    have hnext : n.toUInt32 + 1 = (n + 1).toUInt32 := toUInt32_add n 1
    have hrest : n + 1 + ts.length ≤ UInt32.size := by omega
    cases skip with
    | succ skip =>
      obtain ⟨vs, h⟩ := ih skip (n + 1) w hrest
      rw [along, hnext]
      exact ⟨vs, .pass h⟩
    | zero =>
      obtain ⟨v, w₁, hv⟩ := exists_visits editor w (by omega : n < UInt32.size) t
      have hnode : v.before.node = t := by rw [hv.before]; rfl
      have hlast : v.skips? = none → Course editor 0 n w (t :: ts) [v] (ending v.result) w₁ :=
        .last hv
      rw [along, hv.visit, hnext]
      cases hr : v.result with
      | error e =>
        rw [hr] at hlast
        exact ⟨[v], hlast (by rw [Visited.skips?, hr])⟩
      | ok c =>
        cases c with
        | stop =>
          rw [hr] at hlast
          exact ⟨[v], hlast (by rw [Visited.skips?, hr])⟩
        | skipChildren =>
          obtain ⟨vs, h⟩ := ih (t.size - 1) (n + 1) w₁ hrest
          exact ⟨v :: vs, .next hv (by rw [Visited.skips?, hr, hnode]) h⟩
        | proceed =>
          obtain ⟨vs, h⟩ := ih 0 (n + 1) w₁ hrest
          exact ⟨v :: vs, .next hv (by rw [Visited.skips?, hr]) h⟩

/-! ## The nodes of a run -/

theorem handed_pass (n skip : Nat) (vs : List Visited) (t : Tree) (ts : List Tree) :
    handed n (skip + 1) vs (t :: ts) = handed (n + 1) skip vs ts := by
  have hsum : n + (skip + 1) = n + 1 + skip := by omega
  have hhead : ¬n + 1 + skip ≤ n := by omega
  rw [handed, List.zipIdx_cons, List.filter_cons, hsum, decide_eq_false hhead, Bool.false_and,
    if_neg Bool.false_ne_true, handed]

/-- A visit before the others is handed its node, and leaves to them what it does not bar. -/
theorem handed_cons (skip : Nat) {n : Nat} {v : Visited} {vs : List Visited} {t : Tree} {ts : List Tree}
    (hv : v.number = n) (hvs : ∀ u ∈ vs, n < u.number)
    (hbars : ∀ i, n + 1 ≤ i → v.bars i = decide (i < n + 1 + skip)) :
    handed n 0 (v :: vs) (t :: ts) = (t, n) :: handed (n + 1) skip vs ts := by
  have hfree : (v :: vs).all (fun u => !u.bars n) = true := by
    rw [List.all_eq_true]
    intro u hu
    rcases List.mem_cons.1 hu with rfl | hu
    · rw [Visited.bars_of_le (Nat.le_of_eq hv.symm)]; rfl
    · rw [Visited.bars_of_le (Nat.le_of_lt (hvs u hu))]; rfl
  have htail : ∀ p ∈ ts.zipIdx (n + 1),
      (decide (n ≤ p.2) && (v :: vs).all fun u => !u.bars p.2) =
        (decide (n + 1 + skip ≤ p.2) && vs.all fun u => !u.bars p.2) := by
    intro p hp
    have hle : n + 1 ≤ p.2 := List.le_snd_of_mem_zipIdx hp
    have hfirst : decide (n ≤ p.2) = true := decide_eq_true (by omega)
    have hnot : (!v.bars p.2) = decide (n + 1 + skip ≤ p.2) := by
      rw [hbars p.2 hle, ← decide_not]
      exact decide_eq_decide.2 Nat.not_lt
    rw [hfirst, Bool.true_and, List.all_cons, hnot]
  rw [handed, List.zipIdx_cons, List.filter_cons, hfree, Nat.add_zero, decide_eq_true (Nat.le_refl n),
    List.filter_congr htail]
  rfl

theorem handed_last {n : Nat} {v : Visited} {t : Tree} {ts : List Tree} (hv : v.number = n)
    (hbars : ∀ i, n + 1 ≤ i → v.bars i = true) : handed n 0 [v] (t :: ts) = [(t, n)] := by
  have hfree : [v].all (fun u => !u.bars n) = true := by
    rw [List.all_cons, Visited.bars_of_le (Nat.le_of_eq hv.symm)]; rfl
  have htail : (ts.zipIdx (n + 1)).filter
      (fun p => decide (n ≤ p.2) && [v].all fun u => !u.bars p.2) = [] := by
    rw [List.filter_eq_nil_iff]
    intro p hp
    rw [List.all_cons, hbars p.2 (List.le_snd_of_mem_zipIdx hp)]
    simp
  rw [handed, List.zipIdx_cons, List.filter_cons, hfree, Nat.add_zero, decide_eq_true (Nat.le_refl n),
    htail]
  rfl

namespace Course

variable {editor : WalkEditor} {skip n : Nat} {w w' : Walk} {ts : List Tree} {vs : List Visited}
  {r : Except EditError Bool}

theorem log (h : Course editor skip n w ts vs r w') : w'.log.toList = w.log.toList ++ vs := by
  induction h with
  | nil => rw [List.append_nil]
  | pass _ ih => exact ih
  | last hv _ => rw [hv.log, Array.toList_push]
  | next hv _ _ ih => rw [ih, hv.log, Array.toList_push, List.append_assoc, List.singleton_append]

theorem exists_visits (h : Course editor skip n w ts vs r w') :
    ∀ v ∈ vs, ∃ w₁ i t w₂, n ≤ i ∧ Visits editor w₁ i t v w₂ := by
  induction h with
  | nil => intro u hu; cases hu
  | pass _ ih =>
    intro u hu
    obtain ⟨w₁, i, t, w₂, hi, hv⟩ := ih u hu
    exact ⟨w₁, i, t, w₂, Nat.le_of_succ_le hi, hv⟩
  | last hv _ => intro u hu; rw [List.mem_singleton.1 hu]; exact ⟨_, _, _, _, Nat.le_refl _, hv⟩
  | next hv _ _ ih =>
    intro u hu
    rcases List.mem_cons.1 hu with rfl | hu
    · exact ⟨_, _, _, _, Nat.le_refl _, hv⟩
    · obtain ⟨w₁, i, t, w₂, hi, hv⟩ := ih u hu
      exact ⟨w₁, i, t, w₂, Nat.le_of_succ_le hi, hv⟩

theorem le_number (h : Course editor skip n w ts vs r w') : ∀ v ∈ vs, n ≤ v.number := by
  intro v hv
  obtain ⟨_, i, _, _, hi, hvisit⟩ := h.exists_visits v hv
  rwa [hvisit.number]

/-- Every visit begins with its node as it is in the tree, and with nothing asked for. -/
theorem before (h : Course editor skip n w ts vs r w') :
    ∀ v ∈ vs, v.before = Context.enter ⟨v.spot.2.toUInt32⟩ v.spot.1 ∧
      v.spot.2.toUInt32.toNat = v.spot.2 := by
  intro v hv
  obtain ⟨_, i, t, _, _, hvisit⟩ := h.exists_visits v hv
  have hi := hvisit.number
  rw [Visited.number, hvisit.before] at hi
  rw [hvisit.spot]
  exact ⟨hvisit.before, hi⟩

/-- The visits of a run are those of the nodes that none of its visits bars. -/
theorem handed (h : Course editor skip n w ts vs r w') :
    vs.map Visited.spot = Walk.handed n skip vs ts := by
  induction h with
  | nil => rfl
  | pass _ ih => rw [handed_pass, ih]
  | last hv hlast =>
    rw [handed_last hv.number, List.map_singleton, hv.spot]
    intro i hi
    exact Visited.bars_of_last hlast (by rw [hv.number]; omega)
  | next hv hskip hrest ih =>
    rw [handed_cons _ hv.number hrest.le_number, List.map_cons, hv.spot, ih]
    intro i hi
    rw [Visited.bars_of_skips hskip (by rw [hv.number]; omega), hv.number]

theorem handOver (h : Course editor skip n w ts vs r w') :
    w' = Walk.handOver editor w (vs.map Visited.spot) := by
  induction h with
  | nil => rfl
  | pass _ ih => exact ih
  | last hv _ => rw [List.map_singleton, hv.spot, Walk.handOver, List.foldl_cons, hv.visit]; rfl
  | next hv _ _ ih => rw [List.map_cons, hv.spot, Walk.handOver, List.foldl_cons, hv.visit, ih]; rfl

theorem eq_error_iff (h : Course editor skip n w ts vs r w') (e : EditError) :
    r = .error e ↔ ∃ v ∈ vs, v.result = .error e := by
  induction h with
  | nil => simp
  | pass _ ih => exact ih
  | @last _ _ _ _ _ v _ _ => cases hr : v.result <;> simp [hr, ending]
  | @next _ _ _ _ _ _ _ v _ _ _ hskip _ ih =>
    have hgo : ¬v.result = .error e := by
      intro hr
      rw [Visited.skips?, hr] at hskip
      cases hskip
    simp [hgo, ih]

theorem eq_stopped_iff (h : Course editor skip n w ts vs r w') :
    r = .ok true ↔ ∃ v ∈ vs, v.result = .ok .stop := by
  induction h with
  | nil => simp
  | pass _ ih => exact ih
  | @last _ _ _ _ _ v _ _ => cases hr : v.result <;> simp [hr, ending]
  | @next _ _ _ _ _ _ _ v _ _ _ hskip _ ih =>
    have hgo : ¬v.result = .ok .stop := by
      intro hr
      rw [Visited.skips?, hr] at hskip
      cases hskip
    simp [hgo, ih]

end Course
end Walk

namespace Session

/-- What a walk hands to its editor and how it ends. The nodes that no visit bars are handed over in
pre-order, each under its number and as it is in the tree; what is below a visited node are the nodes
that follow it; those visits make the log and the buffer; and the walk ends as the last of them asks
for. -/
structure HandsOver (s : Session Tree) (t : Tree) (editor : WalkEditor) (o : WalkOutcome) :
    Prop where
  handed : o.log.toList.map Visited.before =
    (t.preorder.zipIdx.filter fun p => o.log.toList.all fun v => !v.bars p.2).map
      fun p => Context.enter ⟨p.2.toUInt32⟩ p.1
  numbers : ∀ i < t.preorder.length, i.toUInt32.toNat = i
  below : ∀ v ∈ o.log.toList, ∃ before after,
    t.preorder = before ++ v.before.node.preorder ++ after ∧ before.length = v.number
  visits : (⟨o.session.buffer, o.log, o.log.size⟩ : Walk) =
    (t.preorder.zipIdx.filter fun p => o.log.toList.all fun v => !v.bars p.2).foldl
      (fun w p => (w.visit editor p.2.toUInt32 p.1).2) (.start s.buffer)
  ended : (∀ v ∈ o.log.toList, ∀ e, v.result ≠ .error e) →
    ∃ stopped, o.result = .ok ⟨o.log.size, stopped⟩ ∧
      (stopped = true ↔ ∃ v ∈ o.log.toList, v.result = .ok .stop)
  failed : ∀ v ∈ o.log.toList, ∀ e, v.result = .error e →
    o.result = .error (.ofEditError e) ∧ (Failure.ofEditError e).anchor = some e.anchor

theorem anchor_ofEditError (e : EditError) : (Failure.ofEditError e).anchor = some e.anchor := by
  cases e <;> rfl

/-- A walk is a run of the loop along the pre-order of its tree, and it ends as that run does. -/
theorem walkAlong_course (s : Session Tree) {t : Tree} (hsize : t.size < UInt32.size)
    (editor : WalkEditor) :
    ∃ r, Walk.Course editor 0 0 (.start s.buffer) t.preorder (s.walkAlong t editor).log.toList r
        (s.walkAlong t editor).last ∧
      (s.walkAlong t editor).result = match r with
        | .error e => .error (.ofEditError e)
        | .ok stopped => .ok ⟨(s.walkAlong t editor).log.size, stopped⟩ := by
  have hlength : 0 + t.preorder.length ≤ UInt32.size := by
    rw [Tree.length_preorder]
    omega
  obtain ⟨vs, hcourse⟩ := Walk.along_course editor t.preorder 0 0 (.start s.buffer) hlength
  have hstart : (0 : Nat).toUInt32 = 0 := rfl
  rw [hstart, ← last_walkAlong] at hcourse
  obtain rfl : (s.walkAlong t editor).log.toList = vs := hcourse.log
  exact ⟨_, hcourse, s.result_walkAlong t editor⟩

theorem walkAlong_handsOver (s : Session Tree) {t : Tree} (hsize : t.size < UInt32.size)
    (editor : WalkEditor) : s.HandsOver t editor (s.walkAlong t editor) := by
  obtain ⟨r, h, hresult⟩ := s.walkAlong_course hsize editor
  generalize s.walkAlong t editor = o at h hresult ⊢
  have hspots : o.log.toList.map Visited.spot =
      t.preorder.zipIdx.filter fun p => o.log.toList.all fun v => !v.bars p.2 := by
    rw [h.handed, Walk.handed]
    simp only [Nat.add_zero, Nat.zero_le, decide_true, Bool.true_and]
  have hnumbers : ∀ i < t.preorder.length, i.toUInt32.toNat = i := by
    intro i hi
    rw [Tree.length_preorder] at hi
    exact UInt32.toNat_ofNat_of_lt' (Nat.lt_trans hi hsize)
  have hhanded : o.log.toList.map Visited.before =
      (o.log.toList.map Visited.spot).map fun p => Context.enter ⟨p.2.toUInt32⟩ p.1 := by
    rw [List.map_map]
    exact List.map_congr_left fun v hv => (h.before v hv).1
  have hbelow : ∀ v ∈ o.log.toList, ∃ before after,
      t.preorder = before ++ v.before.node.preorder ++ after ∧ before.length = v.number := by
    intro v hv
    have hmem : v.spot ∈ o.log.toList.map Visited.spot := List.mem_map_of_mem hv
    rw [hspots] at hmem
    exact Tree.preorder_slice t _ _ (List.mem_zipIdx_iff_getElem?.1 (List.mem_filter.1 hmem).1)
  have hvisits := h.handOver
  rw [hspots] at hhanded hvisits
  cases r with
  | error e =>
    obtain ⟨u, hu, he⟩ := (h.eq_error_iff e).1 rfl
    refine ⟨hhanded, hnumbers, hbelow, hvisits, ?_, ?_⟩
    · intro hno
      exact absurd he (hno u hu e)
    · intro v hv e' he'
      have heq : (.error e : Except EditError Bool) = .error e' :=
        (h.eq_error_iff e').2 ⟨v, hv, he'⟩
      cases heq
      exact ⟨hresult, anchor_ofEditError e⟩
  | ok stopped =>
    refine ⟨hhanded, hnumbers, hbelow, hvisits, ?_, ?_⟩
    · intro _
      refine ⟨stopped, hresult, ?_⟩
      rw [← h.eq_stopped_iff, Except.ok.injEq]
    · intro v hv e he
      cases (h.eq_error_iff e).2 ⟨v, hv, he⟩

/-- Both walkers hand over the nodes of a tree in pre-order, but for those that an earlier visit
bars, and end as the visits ask for. The editor may remember what it was handed before. -/
theorem walk_handsOver (s : Session Tree) (t : Tree) (editor : WalkEditor)
    (hsize : t.size < UInt32.size) :
    s.HandsOver t editor (s.walkSequential t editor) ∧
      (s.buffer.mode = .parallel → s.HandsOver t editor (s.walkParallel t editor)) := by
  constructor
  · rw [walkSequential_eq_walkAlong]
    exact s.walkAlong_handsOver hsize editor
  · intro hmode
    rw [walkParallel_eq_walkAlong hmode]
    exact s.walkAlong_handsOver hsize editor

/-- Changes every node, skips what is below `a` and stops at `d`. -/
def labelEditor : Editor Tree := fun sight =>
  .ask (.replace (.leaf "x")) fun _ _ =>
    .done (.ok (match sight.context.node.label with
      | "a" => .skipChildren
      | "d" => .stop
      | _ => .proceed))

/-- A tree with nodes below `a` and `d`, and one after `d`. -/
def labelTree : Tree := .node "r" [.node "a" [.leaf "b"], .leaf "c", .node "d" [.leaf "e"], .leaf "f"]

theorem walk_handsOver_labels :
    labelTree.size < UInt32.size ∧ (start ⟨.parallel, 0⟩ : Session Tree).buffer.mode = .parallel ∧
      ∃ o, (start ⟨.parallel, 0⟩).walkParallel labelTree labelEditor = o ∧
        (start ⟨.parallel, 0⟩).HandsOver labelTree labelEditor o ∧
        o.log.toList.map Visited.number = [0, 1, 3, 4] ∧ o.result = .ok ⟨4, true⟩ := by
  have hsize : labelTree.size < UInt32.size := by decide
  have hwalk := (walk_handsOver (start ⟨.parallel, 0⟩) labelTree labelEditor hsize).2 rfl
  exact ⟨hsize, rfl, _, rfl, hwalk, rfl, rfl⟩

end Session
end TreeEdits
