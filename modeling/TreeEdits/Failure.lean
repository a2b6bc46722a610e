import TreeEdits.NodeId

/-!
# TreeEdits.Failure

What can go wrong. An `EditError` says why one edit was not recorded; a `Failure` says why a whole
run gave no records. Every error has a code, which is also the exit status of the program.

* `EditError.message`, `Failure.message`: the wordings.
* `EditError.code`, `Failure.code`: the codes.
* `Failure.ofEditError`: the failure of a run whose edit was not recorded.
-/

namespace TreeEdits

inductive ErrorCode where
  | invalidArguments
  | notFound
  | rejected
  | internal
deriving DecidableEq

def ErrorCode.number : ErrorCode → UInt8
  | invalidArguments => 2
  | notFound => 3
  | rejected => 4
  | internal => 10

/-- Why an edit of a node was not recorded. -/
inductive EditError where
  /-- The node was changed before, and the records can only grow. -/
  | conflict (anchor : NodeId)
  /-- The node was changed before, and the record of that is not there. -/
  | missingReplace (anchor : NodeId)
deriving DecidableEq

namespace EditError

def anchor : EditError → NodeId
  | conflict a => a
  | missingReplace a => a

def message : EditError → String
  | conflict a =>
    "multiple changes per node are not supported under parallel traversal (" ++ a.name ++ ")"
  | missingReplace a => "no replace record found for edited node " ++ a.name

def code : EditError → ErrorCode
  | conflict _ => .rejected
  | missingReplace _ => .internal

end EditError

inductive Failure where
  | invalidArguments (reason : String)
  | fileNotFound (path : String)
  | editConflict (anchor : NodeId) (reason : String)
  | internal (reason : String) (anchor : Option NodeId)
deriving DecidableEq

namespace Failure

def message : Failure → String
  | invalidArguments reason => "invalid arguments: " ++ reason
  | fileNotFound path => "file not found: " ++ path
  | editConflict anchor reason => "edit conflict at " ++ anchor.name ++ ": " ++ reason
  | internal reason _ => "internal error: " ++ reason

def anchor : Failure → Option NodeId
  | editConflict anchor _ => some anchor
  | internal _ anchor => anchor
  | _ => none

def code : Failure → ErrorCode
  | invalidArguments _ => .invalidArguments
  | fileNotFound _ => .notFound
  | editConflict _ _ => .rejected
  | internal _ _ => .internal

/-- A rejected edit is a conflict at its node, a lost record an internal failure. -/
def ofEditError (e : EditError) : Failure :=
  match e with
  | .conflict a => .editConflict a e.message
  | .missingReplace a => .internal e.message (some a)

end Failure
end TreeEdits
