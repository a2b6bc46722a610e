import TreeEdits.Proofs.Tree.Preorder

/-!
# TreeEdits.Proofs.Tree.Places

Nodes by where they stand in a tree, and their numbers in exact arithmetic. A place is told by the
children to go down by from the root, so two equal subtrees at different places are two nodes.

* `Tree.place?`: the number of a place and the subtree there.
* `exists_place?`: every node of the pre-order has a place, and its index for a number.
* `place?_within`, `place?_injective`: a subtree keeps to as many numbers as it has nodes, from that
  of its root on, and no number is given twice.
* `exists_place?_below_iff`: so a subtree takes up exactly these numbers.
-/

namespace TreeEdits
namespace Tree

theorem size_eq (t : Tree) : t.size = sizeAll t.children + 1 := by
  cases t with
  | node label ts => rw [size]; rfl

/-! ## Siblings -/

theorem sizeAll_take_add {ts : List Tree} : ∀ {k : Nat} {c : Tree}, ts[k]? = some c →
    sizeAll (ts.take k) + c.size ≤ sizeAll ts := by
  induction ts with
  | nil => intro k c h; cases h
  | cons t ts ih =>
    intro k c h
    cases k with
    | zero =>
      cases h
      simp only [List.take_zero, sizeAll]
      omega
    | succ k =>
      have hrest := ih (k := k) h
      simp only [List.take_succ_cons, sizeAll]
      omega

/-- A sibling ends where the next one begins, at the latest. -/
theorem sizeAll_take_add_le {ts : List Tree} {k l : Nat} {c : Tree} (h : ts[k]? = some c)
    (hkl : k < l) : sizeAll (ts.take k) + c.size ≤ sizeAll (ts.take l) := by
  have hk : (ts.take l)[k]? = some c := by rw [List.getElem?_take_of_lt hkl, h]
  have hle := sizeAll_take_add hk
  rwa [List.take_take, Nat.min_eq_left (Nat.le_of_lt hkl)] at hle

/-! ## Places -/

/-- The number of a place and the subtree there, if the root has the number `n`. A child comes after
its parent and after the nodes of the siblings before it. -/
def place? (n : Nat) (t : Tree) : List Nat → Option (Nat × Tree)
  | [] => some (n, t)
  | k :: path =>
    match t.children[k]? with
    | none => none
    | some c => c.place? (n + 1 + sizeAll (t.children.take k)) path

theorem place?_cons_eq_some {n k : Nat} {t : Tree} {path : List Nat} {p : Nat × Tree}
    (h : t.place? n (k :: path) = some p) : ∃ c, t.children[k]? = some c ∧
      c.place? (n + 1 + sizeAll (t.children.take k)) path = some p := by
  rw [place?] at h
  cases hc : t.children[k]? with
  | none => rw [hc] at h; cases h
  | some c => rw [hc] at h; exact ⟨c, rfl, h⟩

theorem place?_append (p q : List Nat) : ∀ (n : Nat) (t : Tree),
    t.place? n (p ++ q) = (t.place? n p).bind fun s => s.2.place? s.1 q := by
  induction p with
  | nil => intro n t; rfl
  | cons k p ih =>
    intro n t
    rw [List.cons_append, place?, place?]
    cases t.children[k]? with
    | none => rfl
    | some c => exact ih _ c

theorem place?_within {p : List Nat} : ∀ {n m : Nat} {t s : Tree}, t.place? n p = some (m, s) →
    n ≤ m ∧ m + s.size ≤ n + t.size := by
  induction p with
  | nil =>
    intro n m t s h
    cases h
    exact ⟨Nat.le_refl n, Nat.le_refl _⟩
  | cons k p ih =>
    intro n m t s h
    obtain ⟨c, hc, hp⟩ := place?_cons_eq_some h
    have hsub := ih hp
    have hchild := sizeAll_take_add hc
    rw [t.size_eq]
    omega

theorem lt_of_place?_cons {k n m : Nat} {p : List Nat} {t s : Tree}
    (h : t.place? n (k :: p) = some (m, s)) : n < m := by
  obtain ⟨c, -, hp⟩ := place?_cons_eq_some h
  have hsub := (place?_within hp).1
  omega

/-- Below different children the numbers are different, those below the first one being smaller. -/
theorem lt_of_place?_of_lt {k l n m m' : Nat} {p q : List Nat} {t s s' : Tree} (hkl : k < l)
    (hp : t.place? n (k :: p) = some (m, s)) (hq : t.place? n (l :: q) = some (m', s')) :
    m < m' := by
  obtain ⟨c, hc, hp⟩ := place?_cons_eq_some hp
  obtain ⟨d, -, hq⟩ := place?_cons_eq_some hq
  have hbefore := sizeAll_take_add_le hc hkl
  have hpos := s.size_pos
  have hfirst := (place?_within hp).2
  have hsecond := (place?_within hq).1
  omega

theorem place?_injective {p : List Nat} : ∀ {q : List Nat} {n m : Nat} {t s s' : Tree},
    t.place? n p = some (m, s) → t.place? n q = some (m, s') → p = q := by
  induction p with
  | nil =>
    intro q n m t s s' hp hq
    cases hp
    cases q with
    | nil => rfl
    | cons l q => exact absurd (lt_of_place?_cons hq) (Nat.lt_irrefl n)
  | cons k p ih =>
    intro q n m t s s' hp hq
    cases q with
    | nil =>
      cases hq
      exact absurd (lt_of_place?_cons hp) (Nat.lt_irrefl n)
    | cons l q =>
      -- Where two places part, their numbers part too, whatever follows.
      rcases Nat.lt_trichotomy k l with hkl | rfl | hkl
      · exact absurd (lt_of_place?_of_lt hkl hp hq) (Nat.lt_irrefl m)
      · obtain ⟨c, hc, hp⟩ := place?_cons_eq_some hp
        obtain ⟨d, hd, hq⟩ := place?_cons_eq_some hq
        rw [hc] at hd
        cases hd
        rw [ih hp hq]
      · exact absurd (lt_of_place?_of_lt hkl hq hp) (Nat.lt_irrefl m)

/-! ## The pre-order -/

mutual

/-- Every node of the pre-order has a place, and its index for a number. -/
theorem exists_place? : (t : Tree) → ∀ (n i : Nat) (s : Tree), t.preorder[i]? = some s →
    ∃ path, t.place? n path = some (n + i, s)
  | node label children => by
    intro n i s h
    cases i with
    | zero =>
      rw [preorder, List.getElem?_cons_zero] at h
      exact ⟨[], by rw [place?, Option.some.inj h, Nat.add_zero]⟩
    | succ i =>
      rw [preorder, List.getElem?_cons_succ] at h
      obtain ⟨k, c, path, hc, hpath⟩ := exists_place?_among children (n + 1) i s h
      have hsum : n + 1 + i = n + (i + 1) := by omega
      rw [hsum] at hpath
      exact ⟨k :: path, by simp only [place?, Tree.children, hc, hpath]⟩

theorem exists_place?_among : (ts : List Tree) → ∀ (n i : Nat) (s : Tree),
    (preorderAll ts)[i]? = some s →
      ∃ (k : Nat) (c : Tree) (path : List Nat),
        ts[k]? = some c ∧ c.place? (n + sizeAll (ts.take k)) path = some (n + i, s)
  | [] => by
    intro n i s h
    simp [preorderAll] at h
  | t :: ts => by
    intro n i s h
    rw [preorderAll] at h
    by_cases hi : i < t.preorder.length
    · rw [List.getElem?_append_left hi] at h
      obtain ⟨path, hpath⟩ := exists_place? t n i s h
      exact ⟨0, t, path, rfl, by rwa [List.take_zero, sizeAll, Nat.add_zero]⟩
    · have hle : t.preorder.length ≤ i := Nat.le_of_not_lt hi
      rw [List.getElem?_append_right hle] at h
      obtain ⟨k, c, path, hc, hpath⟩ := exists_place?_among ts (n + t.size) _ s h
      rw [length_preorder] at hle hpath
      have hsum : n + t.size + (i - t.size) = n + i := by omega
      rw [hsum] at hpath
      exact ⟨k + 1, c, path, hc, by rwa [List.take_succ_cons, sizeAll, ← Nat.add_assoc]⟩

end

/-- A subtree takes up as many numbers as it has nodes, from that of its root on, and no others. -/
theorem exists_place?_below_iff {n i : Nat} {p : List Nat} {t s : Tree}
    (h : t.place? n p = some (i, s)) (m : Nat) :
    (∃ q u, t.place? n (p ++ q) = some (m, u)) ↔ i ≤ m ∧ m < i + s.size := by
  have hbelow : ∀ q, t.place? n (p ++ q) = s.place? i q := fun q => by rw [place?_append, h]; rfl
  simp only [hbelow]
  constructor
  · rintro ⟨q, u, hq⟩
    have hwithin := place?_within hq
    have hpos := u.size_pos
    omega
  · rintro ⟨hle, hlt⟩
    have hlength : m - i < s.preorder.length := by rw [length_preorder]; omega
    obtain ⟨q, hq⟩ := exists_place? s i (m - i) _ (List.getElem?_eq_getElem hlength)
    have hsum : i + (m - i) = m := by omega
    exact ⟨q, _, by rw [hq, hsum]⟩

end Tree
end TreeEdits
