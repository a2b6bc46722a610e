import Mathlib.Data.List.Forall2
import TreeEdits.Proofs.Tree.Places
import TreeEdits.Proofs.Walk.Handed

/-!
# TreeEdits.Proofs.Walk.Numbers

The numbers of the walkers. Before a walker goes on to the children of a node it counts out a number
to each of them, with 32 bits: one more than the number of the node, and then the size of each child
is added. The last sum is computed too, though no child gets it.

* `Walk.counts`, `Walk.children`: the sums, and the children with their numbers. Both walkers go on
  along these (`sequential_goesOn`, `parallel_goesOn`).
* `Walk.place?`: what number comes down to a place of a tree. Up to 2^32 it is the place in the
  pre-order (`place?_toUInt32`).
* `numbering`: if a tree has less than 2^32 nodes, no sum overflows and no size is cut, and the
  numbers are apart and without gaps.
-/

namespace TreeEdits
namespace Walk

/-- The sums for siblings: the number of each one, and what is left after the last. -/
def counts (id : UInt32) (ts : List Tree) : List UInt32 :=
  ts.scanl (fun next t => next + t.size.toUInt32) id

/-- The children of a node with the number `id`, with their numbers. -/
def children (id : UInt32) (t : Tree) : List (UInt32 × Tree) :=
  (counts (id + 1) t.children).zip t.children

theorem zip_counts_cons (id : UInt32) (t : Tree) (ts : List Tree) :
    (counts id (t :: ts)).zip (t :: ts) =
      (id, t) :: (counts (id + t.size.toUInt32) ts).zip ts := by
  rw [counts, List.scanl_cons, List.zip_cons_cons, counts]

/-! ## How the walkers go on -/

def sequentialEach (editor : WalkEditor) (w : Walk) :
    List (UInt32 × Tree) → Except EditError Control × Walk
  | [] => (.ok .proceed, w)
  | (id, t) :: ps =>
    match sequential editor id w t with
    | (.error e, w) => (.error e, w)
    | (.ok .stop, w) => (.ok .stop, w)
    | (.ok _, w) => sequentialEach editor w ps

def parallelEach (editor : WalkEditor) (stopped : Bool) (w : Walk) :
    List (UInt32 × Tree) → Except EditError Bool × Walk
  | [] => (.ok stopped, w)
  | (id, t) :: ps =>
    match parallel editor id stopped w t with
    | (.error e, w) => (.error e, w)
    | (.ok stopped, w) => parallelEach editor stopped w ps

theorem sequentialAll_eq_each (editor : WalkEditor) (ts : List Tree) : ∀ (id : UInt32) (w : Walk),
    sequentialAll editor id w ts = sequentialEach editor w ((counts id ts).zip ts) := by
  induction ts with
  | nil => intro id w; rw [sequentialAll, List.zip_nil_right, sequentialEach]
  | cons t ts ih =>
    intro id w
    rw [sequentialAll, zip_counts_cons, sequentialEach]
    rcases sequential editor id w t with ⟨_ | c, w⟩
    · rfl
    · cases c with
      | stop => rfl
      | proceed => exact ih _ w
      | skipChildren => exact ih _ w

theorem parallelAll_eq_each (editor : WalkEditor) (ts : List Tree) :
    ∀ (id : UInt32) (stopped : Bool) (w : Walk),
      parallelAll editor id stopped w ts =
        parallelEach editor stopped w ((counts id ts).zip ts) := by
  induction ts with
  | nil => intro id stopped w; rw [parallelAll, List.zip_nil_right, parallelEach]
  | cons t ts ih =>
    intro id stopped w
    rw [parallelAll, zip_counts_cons, parallelEach]
    rcases parallel editor id stopped w t with ⟨_ | stopped, w⟩
    · rfl
    · exact ih _ stopped w

theorem sequential_goesOn {editor : WalkEditor} {id : UInt32} {w w' : Walk} {t : Tree}
    (h : w.visit editor id t = (.ok .proceed, w')) :
    sequential editor id w t = sequentialEach editor w' (children id t) := by
  cases t with
  | node label ts =>
    rw [sequential, h]
    exact sequentialAll_eq_each editor ts (id + 1) w'

theorem parallel_goesOn {editor : WalkEditor} {id : UInt32} {w w' : Walk} {t : Tree}
    (h : w.visit editor id t = (.ok .proceed, w')) :
    parallel editor id false w t = parallelEach editor false w' (children id t) := by
  cases t with
  | node label ts =>
    rw [parallel, if_neg Bool.false_ne_true, h]
    exact parallelAll_eq_each editor ts (id + 1) false w'

/-! ## The number of a place -/

/-- The number that comes down to a place and the subtree there, if the root has the number `id`. -/
def place? (id : UInt32) (t : Tree) : List Nat → Option (UInt32 × Tree)
  | [] => some (id, t)
  | k :: path =>
    match (children id t)[k]? with
    | none => none
    | some c => place? c.1 c.2 path

theorem getElem?_zip_counts (ts : List Tree) : ∀ (n k : Nat),
    ((counts n.toUInt32 ts).zip ts)[k]? =
      ts[k]?.map fun t => ((n + Tree.sizeAll (ts.take k)).toUInt32, t) := by
  induction ts with
  | nil => intro n k; rw [List.zip_nil_right]; rfl
  | cons t ts ih =>
    intro n k
    rw [zip_counts_cons, toUInt32_add]
    cases k with
    | zero => rfl
    | succ k =>
      rw [List.getElem?_cons_succ, List.getElem?_cons_succ, ih, List.take_succ_cons, Tree.sizeAll]
      simp only [Nat.add_assoc]

/-- What comes down to a place is its number in exact arithmetic, cut to 32 bits. -/
theorem place?_toUInt32 (path : List Nat) : ∀ (n : Nat) (t : Tree),
    place? n.toUInt32 t path = (t.place? n path).map fun p => (p.1.toUInt32, p.2) := by
  induction path with
  | nil => intro n t; rfl
  | cons k path ih =>
    intro n t
    have hfirst : n.toUInt32 + 1 = (n + 1).toUInt32 := toUInt32_add n 1
    rw [place?, Tree.place?, children, hfirst, getElem?_zip_counts]
    cases t.children[k]? with
    | none => rfl
    | some c => exact ih _ c

/-- Below 2^32 a number is not cut. -/
theorem place?_zero_iff {t : Tree} (h : t.size < UInt32.size) {path : List Nat} {id : UInt32}
    {s : Tree} : place? 0 t path = some (id, s) ↔ t.place? 0 path = some (id.toNat, s) := by
  have hcut := place?_toUInt32 path 0 t
  have hzero : (0 : Nat).toUInt32 = 0 := rfl
  rw [hzero] at hcut
  rw [hcut]
  constructor
  · intro hp
    obtain ⟨⟨m, u⟩, hplace, hpair⟩ := Option.map_eq_some_iff.1 hp
    cases hpair
    have hwithin := (Tree.place?_within hplace).2
    have hm : m.toUInt32.toNat = m := UInt32.toNat_ofNat_of_lt' (by omega)
    rw [hplace, hm]
  · intro hp
    have hid : id.toNat.toUInt32 = id := UInt32.ofNat_toNat
    rw [hp, Option.map_some, hid]

/-! ## The sums -/

/-- The sums for the children of a node in exact arithmetic. -/
def sums (n : Nat) (ts : List Tree) : List Nat :=
  ts.scanl (fun next t => next + t.size) n

theorem le_of_mem_sums {ts : List Tree} : ∀ {n m : Nat}, m ∈ sums n ts →
    m ≤ n + Tree.sizeAll ts := by
  induction ts with
  | nil => intro n m h; rw [sums, List.scanl_nil, List.mem_singleton] at h; omega
  | cons t ts ih =>
    intro n m h
    rw [sums, List.scanl_cons] at h
    rw [Tree.sizeAll]
    rcases List.mem_cons.1 h with rfl | h
    · omega
    · have hrest := ih h
      omega

theorem map_toNat_counts (ts : List Tree) : ∀ (n : Nat), n + Tree.sizeAll ts < UInt32.size →
    (counts n.toUInt32 ts).map UInt32.toNat = sums n ts := by
  induction ts with
  | nil =>
    intro n h
    have hn : n.toUInt32.toNat = n := UInt32.toNat_ofNat_of_lt' h
    rw [counts, sums, List.scanl_nil, List.scanl_nil, List.map_singleton, hn]
  | cons t ts ih =>
    intro n h
    rw [Tree.sizeAll] at h
    have hn : n.toUInt32.toNat = n := UInt32.toNat_ofNat_of_lt' (by omega)
    have hrest := ih (n + t.size) (by omega)
    rw [counts, sums] at hrest ⊢
    rw [List.scanl_cons, List.scanl_cons, List.map_cons, hn, toUInt32_add, hrest]

/-- Counting out the numbers of the children is exact: the first sum, every size and every later
sum, the last included, is below 2^32, and the sums are what they are in exact arithmetic. -/
structure Exact (id : UInt32) (t : Tree) : Prop where
  first : id.toNat + 1 < UInt32.size
  sizes : ∀ c ∈ t.children, c.size < UInt32.size ∧ c.size.toUInt32.toNat = c.size
  below : ∀ n ∈ sums (id.toNat + 1) t.children, n < UInt32.size
  counted : (counts (id + 1) t.children).map UInt32.toNat = sums (id.toNat + 1) t.children

theorem exact_of_lt {id : UInt32} {t : Tree} (h : id.toNat + t.size < UInt32.size) :
    Exact id t := by
  rw [t.size_eq] at h
  refine ⟨by omega, ?_, ?_, ?_⟩
  · intro c hc
    obtain ⟨k, hk⟩ := List.mem_iff_getElem?.1 hc
    have hle := Tree.sizeAll_take_add hk
    have hlt : c.size < UInt32.size := by omega
    exact ⟨hlt, UInt32.toNat_ofNat_of_lt' hlt⟩
  · intro n hn
    have hle := le_of_mem_sums hn
    omega
  · have hsame : id.toNat.toUInt32 = id := UInt32.ofNat_toNat
    have hid : id.toNat.toUInt32 + 1 = (id.toNat + 1).toUInt32 := toUInt32_add id.toNat 1
    rw [hsame] at hid
    rw [hid]
    exact map_toNat_counts t.children _ (by omega)

/-! ## The numbers of a walk -/

/-- How the walkers number the nodes of a tree. What they visit are places with the numbers that
come down to them, and from a visited place they go on along its children as counted out there
(`visited`, `goesOn`). At every place the counting is exact, no number is given to two places, and a
subtree takes up exactly as many numbers as it has nodes, from that of its root on, which for the
whole tree is 0. -/
structure Numbering (t : Tree) : Prop where
  visited : ∀ (s : Session Tree) (editor : WalkEditor),
    ∀ v ∈ (s.walkSequential t editor).log.toList ++ (s.walkParallel t editor).log.toList,
      ∃ path id u, place? 0 t path = some (id, u) ∧ v.before = Context.enter ⟨id⟩ u
  goesOn : ∀ (editor : WalkEditor) (path : List Nat) (id : UInt32) (u : Tree) (w w' : Walk),
    place? 0 t path = some (id, u) → w.visit editor id u = (.ok .proceed, w') →
      sequential editor id w u = sequentialEach editor w' (children id u) ∧
        parallel editor id false w u = parallelEach editor false w' (children id u)
  exact : ∀ path id u, place? 0 t path = some (id, u) → Exact id u
  apart : ∀ p q id u u', place? 0 t p = some (id, u) → place? 0 t q = some (id, u') → p = q
  below : ∀ path id u, place? 0 t path = some (id, u) → ∀ m : UInt32,
    (∃ q u', place? 0 t (path ++ q) = some (m, u')) ↔
      id.toNat ≤ m.toNat ∧ m.toNat < id.toNat + u.size
  all : ∀ m : UInt32, (∃ path u, place? 0 t path = some (m, u)) ↔ m.toNat < t.size

theorem exists_place?_of_handsOver {s : Session Tree} {t : Tree} {editor : WalkEditor}
    {o : WalkOutcome} (h : s.HandsOver t editor o) {v : Visited} (hv : v ∈ o.log.toList) :
    ∃ path id u, place? 0 t path = some (id, u) ∧ v.before = Context.enter ⟨id⟩ u := by
  have hbefore : v.before ∈ o.log.toList.map Visited.before := List.mem_map_of_mem hv
  rw [h.handed] at hbefore
  obtain ⟨⟨u, i⟩, hmem, hctx⟩ := List.mem_map.1 hbefore
  have hi := List.mem_zipIdx_iff_getElem?.1 (List.mem_filter.1 hmem).1
  obtain ⟨path, hpath⟩ := Tree.exists_place? t 0 i u hi
  have hcut := place?_toUInt32 path 0 t
  rw [hpath, Option.map_some, Nat.zero_add] at hcut
  exact ⟨path, i.toUInt32, u, hcut, hctx.symm⟩

theorem exists_place?_of_visited (s : Session Tree) {t : Tree} (hsize : t.size < UInt32.size)
    (editor : WalkEditor) {v : Visited}
    (hv : v ∈ (s.walkSequential t editor).log.toList ++ (s.walkParallel t editor).log.toList) :
    ∃ path id u, place? 0 t path = some (id, u) ∧ v.before = Context.enter ⟨id⟩ u := by
  have halong := s.walkAlong_handsOver hsize editor
  rcases List.mem_append.1 hv with hv | hv
  · rw [Session.walkSequential_eq_walkAlong] at hv
    exact exists_place?_of_handsOver halong hv
  -- Over a buffer that can be written over, the walk side by side is refused before any visit.
  · cases hmode : s.buffer.mode with
    | parallel =>
      rw [Session.walkParallel_eq_walkAlong hmode] at hv
      exact exists_place?_of_handsOver halong hv
    | sequential =>
      rw [Session.walkParallel_eq_error hmode] at hv
      cases hv

/-- In a tree of at most 2^32 - 1 nodes the walkers number the nodes without overflow: with 0 up to
the number of nodes, each once, and each subtree in one piece. -/
theorem numbering (t : Tree) (h : t.size < UInt32.size) : Numbering t where
  visited := fun s editor _ hv => exists_place?_of_visited s h editor hv
  goesOn := fun _ _ _ _ _ _ _ hvisit => ⟨sequential_goesOn hvisit, parallel_goesOn hvisit⟩
  exact := by
    intro path id u hp
    have hwithin := (Tree.place?_within ((place?_zero_iff h).1 hp)).2
    exact exact_of_lt (by omega)
  apart := fun _ _ _ _ _ hp hq =>
    Tree.place?_injective ((place?_zero_iff h).1 hp) ((place?_zero_iff h).1 hq)
  below := by
    intro path id u hp m
    simp only [place?_zero_iff h]
    exact Tree.exists_place?_below_iff ((place?_zero_iff h).1 hp) m.toNat
  all := by
    intro m
    have hroot : t.place? 0 [] = some (0, t) := rfl
    have hall := Tree.exists_place?_below_iff hroot m.toNat
    simp only [place?_zero_iff h]
    simpa using hall

/-- The node below `d` gets the number 5: two subtrees, with two nodes and with one, come first. -/
theorem numbering_labelTree :
    Session.labelTree.size < UInt32.size ∧ Numbering Session.labelTree ∧
      place? 0 Session.labelTree [2, 0] = some (5, .leaf "e") := by
  have hsize : Session.labelTree.size < UInt32.size := by decide
  exact ⟨hsize, numbering Session.labelTree hsize, rfl⟩

end Walk
end TreeEdits
