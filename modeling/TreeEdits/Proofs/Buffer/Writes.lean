import TreeEdits.Proofs.Buffer.LastReplace

/-!
# TreeEdits.Proofs.Buffer.Writes

Writes to a buffer that can be written over, in any order and with any records. Replace records of
one anchor may be pushed again and again; the buffer answers for the last of them.

* `SequentialBuffer.Write`, `SequentialBuffer.run`: pushes and overwrites, one after the other.
* `EditRecord.IsLastPlace`: the last replace record of an anchor, by its position in the list.
* `SequentialBuffer.overwrite_cases`: an overwrite changes that position, or there is none.
* `SequentialBuffer.known_by_last_replace`: what lookups and overwrites give after any writes.
-/

namespace TreeEdits
namespace EditRecord

variable {α : Type}

/-- A position holds a replace record of the anchor, and no later position does. -/
structure IsLastPlace (a : NodeId) (rs : List (EditRecord α)) (i : Nat) : Prop where
  replaces : ∃ node, rs[i]? = some ⟨a, .replace node⟩
  last : ∀ j node, rs[j]? = some ⟨a, .replace node⟩ → j ≤ i

theorem lastPlace_eq_none_iff {a : NodeId} {rs : List (EditRecord α)} :
    lastPlace a rs = none ↔ ∀ node, ⟨a, .replace node⟩ ∉ rs :=
  lastPlace_eq_none.trans any_replaces_eq_false

theorem le_of_lastPlace {a : NodeId} {rs : List (EditRecord α)} {i j : Nat} {node : α}
    (h : lastPlace a rs = some i) (hj : rs[j]? = some ⟨a, .replace node⟩) : j ≤ i := by
  induction rs generalizing i j with
  | nil => cases h
  | cons q qs ih =>
    cases j with
    | zero => exact Nat.zero_le i
    | succ j =>
      rw [List.getElem?_cons_succ] at hj
      rw [lastPlace] at h
      split at h
      · rename_i k hk
        cases h
        exact Nat.succ_le_succ (ih hk hj)
      · rename_i hnone
        -- The place is the front one only because nothing behind it replaces the node.
        exact absurd (List.mem_of_getElem? hj) (lastPlace_eq_none_iff.1 hnone node)

theorem lastPlace_eq_some_iff {a : NodeId} {rs : List (EditRecord α)} {i : Nat} :
    lastPlace a rs = some i ↔ IsLastPlace a rs i := by
  constructor
  · intro h
    exact ⟨getElem?_lastPlace h, fun j node hj => le_of_lastPlace h hj⟩
  · rintro ⟨⟨node, hi⟩, hlast⟩
    cases hp : lastPlace a rs with
    | none => exact absurd (List.mem_of_getElem? hi) (lastPlace_eq_none_iff.1 hp node)
    | some k =>
      obtain ⟨later, hk⟩ := getElem?_lastPlace hp
      have hle : k ≤ i := hlast k later hk
      have hge : i ≤ k := le_of_lastPlace hp hi
      rw [Nat.le_antisymm hle hge]

theorem IsLastPlace.lt_length {a : NodeId} {rs : List (EditRecord α)} {i : Nat}
    (h : IsLastPlace a rs i) : i < rs.length :=
  lt_of_lastPlace (lastPlace_eq_some_iff.2 h)

theorem IsLastPlace.exists_mem {a : NodeId} {rs : List (EditRecord α)} {i : Nat}
    (h : IsLastPlace a rs i) : ∃ node, ⟨a, .replace node⟩ ∈ rs := by
  obtain ⟨node, hi⟩ := h.replaces
  exact ⟨node, List.mem_of_getElem? hi⟩

/-- The second list has the record in one position, and is otherwise the first. -/
structure WrittenAt (i : Nat) (r : EditRecord α) (rs rs' : List (EditRecord α)) : Prop where
  length : rs'.length = rs.length
  written : rs'[i]? = some r
  others : ∀ j, j ≠ i → rs'[j]? = rs[j]?

theorem writtenAt_set {rs : List (EditRecord α)} {i : Nat} (hi : i < rs.length)
    (r : EditRecord α) : WrittenAt i r rs (rs.set i r) where
  length := List.length_set
  written := List.getElem?_set_self hi
  others _ hj := List.getElem?_set_ne hj.symm

end EditRecord

namespace SequentialBuffer

open EditRecord

variable {α : Type}

/-- A write: any record at the end, or a replace record over the one that its anchor is known by. -/
inductive Write (α : Type) where
  | push (r : EditRecord α)
  | overwrite (anchor : NodeId) (node : α)

/-- What a write answers, and the buffer after it. A refused write leaves the buffer to go on with.
-/
def write (b : SequentialBuffer α) : Write α → Except EditError Unit × SequentialBuffer α
  | .push r => (.ok (), b.push r)
  | .overwrite a node =>
    match b.overwrite ⟨a, .replace node⟩ with
    | .ok b' => (.ok (), b')
    | .error err => (.error err, b)

def run (b : SequentialBuffer α) : List (Write α) → SequentialBuffer α
  | [] => b
  | w :: ws =>
    let (_, b) := b.write w
    b.run ws

theorem Built.write {b : SequentialBuffer α} (h : b.Built) (w : Write α) : (b.write w).2.Built := by
  cases w with
  | push r => exact h.push r
  | overwrite a node =>
    rw [SequentialBuffer.write]
    split
    · rename_i b' hb'
      exact h.overwrite rfl hb'
    · exact h

theorem Built.run {b : SequentialBuffer α} (h : b.Built) (ws : List (Write α)) :
    (b.run ws).Built := by
  induction ws generalizing b with
  | nil => exact h
  | cons w ws ih => exact ih (h.write w)

/-- The place that is kept for an anchor gives the record at it, which is never out of range. -/
theorem replaceRecord?_eq {b : SequentialBuffer α} (h : b.Indexed) (a : NodeId) :
    b.replaceRecord? a = (lastPlace a b.records.toList).bind (b.records.toList[·]?) := by
  rw [replaceRecord?, h a]
  cases lastPlace a b.records.toList with
  | none => rfl
  | some i => exact Array.getElem?_toList.symm

theorem replaceRecord?_eq_some_iff {b : SequentialBuffer α} (h : b.Indexed) {a : NodeId}
    {q : EditRecord α} :
    b.replaceRecord? a = some q ↔
      ∃ i, IsLastPlace a b.records.toList i ∧ b.records.toList[i]? = some q := by
  simp only [replaceRecord?_eq h, Option.bind_eq_some_iff, lastPlace_eq_some_iff]

theorem replaceRecord?_eq_none_iff {b : SequentialBuffer α} (h : b.Indexed) {a : NodeId} :
    b.replaceRecord? a = none ↔ ∀ node, ⟨a, .replace node⟩ ∉ b.records.toList := by
  rw [← lastPlace_eq_none_iff, replaceRecord?_eq h]
  cases hp : lastPlace a b.records.toList with
  | none => exact ⟨fun _ => rfl, fun _ => rfl⟩
  | some i =>
    obtain ⟨node, hi⟩ := getElem?_lastPlace hp
    simp only [Option.bind_some, hi, reduceCtorEq]

/-- An overwrite changes the last replace record of its anchor, or is refused for want of one. -/
inductive OverwriteCase (b : SequentialBuffer α) (a : NodeId) (node : α) : Prop
  | done (i : Nat) (b' : SequentialBuffer α) : IsLastPlace a b.records.toList i →
    b.write (.overwrite a node) = (.ok (), b') →
    WrittenAt i ⟨a, .replace node⟩ b.records.toList b'.records.toList → OverwriteCase b a node
  | missing : (∀ old, ⟨a, .replace old⟩ ∉ b.records.toList) →
    b.write (.overwrite a node) = (.error (.missingReplace a), b) → OverwriteCase b a node

theorem overwrite_cases {b : SequentialBuffer α} (h : b.Indexed) (a : NodeId) (node : α) :
    OverwriteCase b a node := by
  let r : EditRecord α := ⟨a, .replace node⟩
  cases hp : lastPlace a b.records.toList with
  | none =>
    have hnone := lastPlace_eq_none_iff.1 hp
    have hrefused : b.overwrite r = .error (.missingReplace a) :=
      overwrite_eq_error h (lastPlace_eq_none.1 hp)
    refine .missing hnone ?_
    rw [write, hrefused]
  | some i =>
    have hi := lastPlace_eq_some_iff.1 hp
    obtain ⟨b', hover, -, hrs⟩ :=
      overwrite_eq_ok h (r := r) rfl (exists_lastPlace_iff.1 ⟨i, hp⟩)
    refine .done i b' hi ?_ ?_
    · rw [write, hover]
    · rw [hrs, ← set_lastPlace (r := r) hp]
      exact writtenAt_set hi.lt_length r

/-- After any writes to the empty buffer an anchor is known by the last replace record of it in the
list, and by none exactly if there is none. A push adds its record at the end. An overwrite succeeds
exactly if its anchor has a replace record; then it changes the position of the last of them, and no
other. If it fails, the error names the anchor and the buffer is as it was, with all that it knows
anchors by. -/
theorem known_by_last_replace (ws : List (Write α)) :
    let b : SequentialBuffer α := empty.run ws
    let rs := b.records.toList
    (∀ a q, b.replaceRecord? a = some q ↔ ∃ i, IsLastPlace a rs i ∧ rs[i]? = some q) ∧
    (∀ a, b.replaceRecord? a = none ↔ ∀ node, ⟨a, .replace node⟩ ∉ rs) ∧
    (∀ r, ∃ b', b.write (.push r) = (.ok (), b') ∧ b'.records.toList = rs ++ [r]) ∧
    (∀ a node,
      ((b.write (.overwrite a node)).1 = .ok () ↔ ∃ old, ⟨a, .replace old⟩ ∈ rs) ∧
      (∀ b', b.write (.overwrite a node) = (.ok (), b') →
        ∃ i, IsLastPlace a rs i ∧ WrittenAt i ⟨a, .replace node⟩ rs b'.records.toList) ∧
      (∀ err b', b.write (.overwrite a node) = (.error err, b') →
        err = .missingReplace a ∧ b' = b)) := by
  intro b rs
  have hb : b.Indexed := (Built.empty.run ws).indexed
  refine ⟨fun a q => replaceRecord?_eq_some_iff hb, fun a => replaceRecord?_eq_none_iff hb,
    fun r => ⟨b.push r, rfl, Array.toList_push⟩, ?_⟩
  intro a node
  cases overwrite_cases hb a node with
  | done i b' hi hw hwritten =>
    rw [hw]
    refine ⟨⟨fun _ => hi.exists_mem, fun _ => rfl⟩, ?_, ?_⟩
    · intro b₁ h
      cases h
      exact ⟨i, hi, hwritten⟩
    · intro err b₁ h
      cases h
  | missing hnone hw =>
    rw [hw]
    refine ⟨⟨?_, ?_⟩, ?_, ?_⟩
    · intro h
      cases h
    · rintro ⟨old, hmem⟩
      exact absurd hmem (hnone old)
    · intro b₁ h
      cases h
    · intro err b₁ h
      cases h
      exact ⟨rfl, rfl⟩

/-- Two replace records of one anchor, of which the second is written over, and an anchor that is
only deleted, so that nothing can be written over for it. -/
theorem known_by_last_replace_twice :
    let ws : List (Write String) := [.push ⟨⟨4⟩, .replace "a"⟩, .overwrite ⟨5⟩ "x",
      .push ⟨⟨4⟩, .replace "b"⟩, .push ⟨⟨5⟩, .delete⟩, .overwrite ⟨4⟩ "c"]
    let b : SequentialBuffer String := empty.run ws
    b.records.toList = [⟨⟨4⟩, .replace "a"⟩, ⟨⟨4⟩, .replace "c"⟩, ⟨⟨5⟩, .delete⟩] ∧
      b.replaceRecord? ⟨4⟩ = some ⟨⟨4⟩, .replace "c"⟩ ∧ b.replaceRecord? ⟨5⟩ = none ∧
      (∃ b', b.write (.overwrite ⟨4⟩ "d") = (.ok (), b') ∧
        WrittenAt 1 ⟨⟨4⟩, .replace "d"⟩ b.records.toList b'.records.toList) ∧
      b.write (.overwrite ⟨5⟩ "y") = (.error (.missingReplace ⟨5⟩), b) := by
  intro ws b
  have hrs : b.records.toList =
      [⟨⟨4⟩, .replace "a"⟩, ⟨⟨4⟩, .replace "c"⟩, ⟨⟨5⟩, .delete⟩] := by
    dsimp only [b, ws]
    cbv
  have hlast : lastPlace ⟨4⟩ b.records.toList = some 1 := by rw [hrs]; rfl
  have hnone : ∀ node, ⟨⟨5⟩, .replace node⟩ ∉ b.records.toList :=
    lastPlace_eq_none_iff.1 (by rw [hrs]; rfl)
  obtain ⟨hknown, hunknown, -, hoverwrite⟩ := known_by_last_replace ws
  obtain ⟨hok, hdone, -⟩ := hoverwrite ⟨4⟩ "d"
  obtain ⟨hfound, -, hrefused⟩ := hoverwrite ⟨5⟩ "y"
  have hplace := lastPlace_eq_some_iff.1 hlast
  refine ⟨hrs, (hknown _ _).2 ⟨1, hplace, by rw [hrs]; rfl⟩, (hunknown _).2 hnone, ?_, ?_⟩
  · have hw : b.write (.overwrite ⟨4⟩ "d") = (.ok (), (b.write (.overwrite ⟨4⟩ "d")).2) :=
      Prod.ext (hok.2 hplace.exists_mem) rfl
    obtain ⟨i, hi, hwritten⟩ := hdone _ hw
    have hone : some i = some 1 := (lastPlace_eq_some_iff.2 hi).symm.trans hlast
    cases hone
    exact ⟨_, hw, hwritten⟩
  · cases hw : b.write (.overwrite ⟨5⟩ "y") with
    | mk answer b' =>
      cases answer with
      | ok _ =>
        obtain ⟨old, hmem⟩ := hfound.1 (congrArg Prod.fst hw)
        exact absurd hmem (hnone old)
      | error err =>
        obtain ⟨herr, hsame⟩ := hrefused _ _ hw
        rw [herr, hsame]

end SequentialBuffer
end TreeEdits
