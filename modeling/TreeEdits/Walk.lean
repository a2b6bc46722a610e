import TreeEdits.Editor
import TreeEdits.Session
import TreeEdits.Tree

/-!
# TreeEdits.Walk

Walks hand every node of a tree to an editor, in pre-order. A node is known by its pre-order number
in the whole tree, and it is handed over as it was before the pass, whatever edits were recorded.
The first edit that is refused ends a walk; what was queued before stays queued.

Two walkers do the same in different ways. One visits a node, then its children, and passes what
comes next up to the node above. The other keeps a flag, which every visit that has not begun looks
at; its visits are taken in the order of a single worker.

* `Session.walkSequential`, `Session.walkParallel`: the two walkers.
* `Session.walk`: the walker for the mode of the session.
-/

namespace TreeEdits

/-- What became of one visit: how it began, how it ended, and how many records were queued then. -/
structure Visited where
  before : Context Tree
  after : Context Tree
  queued : Nat
  result : Except EditError Control

/-- What is done in each visit of a walk. An editor may remember the visits before it. -/
structure WalkEditor where
  after : Array Visited → Editor Tree

/-- An editor that goes by the visit alone does the same after any visits. -/
instance : Coe (Editor Tree) WalkEditor := ⟨fun editor => ⟨fun _ => editor⟩⟩

/-- A walk under way: the buffer, the visits so far, and the count of them that is kept for the
summary. -/
structure Walk where
  buffer : EditBuffer Tree
  log : Array Visited
  visited : Nat

structure WalkSummary where
  visited : Nat
  stopped : Bool
deriving DecidableEq

namespace Walk

def start (b : EditBuffer Tree) : Walk := ⟨b, #[], 0⟩

def visit (w : Walk) (editor : WalkEditor) (id : UInt32) (t : Tree) :
    Except EditError Control × Walk :=
  let c := Context.enter ⟨id⟩ t
  let o := c.visit w.buffer (editor.after w.log)
  (o.result, ⟨o.buffer, w.log.push ⟨c, o.context, o.buffer.size, o.result⟩, w.visited + 1⟩)

mutual

/-- Visits a tree whose root has the number `id`. -/
def sequential (editor : WalkEditor) (id : UInt32) (w : Walk) :
    Tree → Except EditError Control × Walk
  | .node label children =>
    match w.visit editor id (.node label children) with
    | (.error e, w) => (.error e, w)
    | (.ok .stop, w) => (.ok .stop, w)
    | (.ok .skipChildren, w) => (.ok .proceed, w)
    | (.ok .proceed, w) => sequentialAll editor (id + 1) w children

/-- Visits siblings, the first of which has the number `id`. -/
def sequentialAll (editor : WalkEditor) (id : UInt32) (w : Walk) :
    List Tree → Except EditError Control × Walk
  | [] => (.ok .proceed, w)
  | t :: ts =>
    match sequential editor id w t with
    | (.error e, w) => (.error e, w)
    | (.ok .stop, w) => (.ok .stop, w)
    | (.ok _, w) => sequentialAll editor (id + t.size.toUInt32) w ts

end

mutual

/-- Visits a tree unless the flag is up. -/
def parallel (editor : WalkEditor) (id : UInt32) (stopped : Bool) (w : Walk) :
    Tree → Except EditError Bool × Walk
  | .node label children =>
    if stopped then (.ok true, w)
    else
      match w.visit editor id (.node label children) with
      | (.error e, w) => (.error e, w)
      | (.ok .stop, w) => (.ok true, w)
      | (.ok .skipChildren, w) => (.ok false, w)
      | (.ok .proceed, w) => parallelAll editor (id + 1) false w children

def parallelAll (editor : WalkEditor) (id : UInt32) (stopped : Bool) (w : Walk) :
    List Tree → Except EditError Bool × Walk
  | [] => (.ok stopped, w)
  | t :: ts =>
    match parallel editor id stopped w t with
    | (.error e, w) => (.error e, w)
    | (.ok stopped, w) => parallelAll editor (id + t.size.toUInt32) stopped w ts

end

end Walk

/-- What a walk gives: how it ended, what it visited, and the session after it. -/
structure WalkOutcome where
  result : Except Failure WalkSummary
  log : Array Visited
  session : Session Tree

namespace Session

/-- Walks a tree one node after the other. -/
def walkSequential (s : Session Tree) (t : Tree) (editor : WalkEditor) : WalkOutcome :=
  let (result, w) := Walk.sequential editor 0 (.start s.buffer) t
  let s := { s with buffer := w.buffer }
  match result with
  | .error e => ⟨.error (.ofEditError e), w.log, s⟩
  | .ok c => ⟨.ok ⟨w.visited, c = .stop⟩, w.log, s⟩

/-- Walks a tree side by side, which needs a shared buffer. -/
def walkParallel (s : Session Tree) (t : Tree) (editor : WalkEditor) : WalkOutcome :=
  match s.buffer.shared? with
  | none =>
    ⟨.error (.invalidArguments
      ("parallel walk requires a parallel session, got " ++ s.buffer.mode.name)), #[], s⟩
  | some b =>
    let (result, w) := Walk.parallel editor 0 false (.start (.parallel b)) t
    let s := { s with buffer := w.buffer }
    match result with
    | .error e => ⟨.error (.ofEditError e), w.log, s⟩
    | .ok stopped => ⟨.ok ⟨w.visited, stopped⟩, w.log, s⟩

def walk (s : Session Tree) (t : Tree) (editor : WalkEditor) : WalkOutcome :=
  match s.buffer.mode with
  | .sequential => s.walkSequential t editor
  | .parallel => s.walkParallel t editor

end Session
end TreeEdits
