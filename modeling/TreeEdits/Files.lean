import TreeEdits.Recording

/-!
# TreeEdits.Files

Runs whose tree and script stand in files. The tree is loaded first, and the first thing that goes
wrong decides what the run reports.

* `loadTree`, `loadScript`: what a file holds.
* `recordFiles`: a run over two files.
-/

namespace TreeEdits

inductive ReadError where
  | notFound
  | other (reason : String)

abbrev Files := String → Except ReadError ByteArray

/-- The failure of a run whose input at `path` was not read. -/
def Failure.ofReadError (path : String) : ReadError → Failure
  | .notFound => .fileNotFound path
  | .other reason => .internal ("failed to read " ++ path ++ ": " ++ reason) none

def readText (files : Files) (path : String) : Except Failure String :=
  match files path with
  | .error e => .error (.ofReadError path e)
  | .ok bytes =>
    match String.fromUTF8? bytes with
    | none => .error (.ofReadError path (.other "stream did not contain valid UTF-8"))
    | some text => .ok text

def loadTree (files : Files) (path : String) : Except Failure Tree :=
  match readText files path with
  | .error f => .error f
  | .ok text =>
    match Tree.ofText text with
    | .error e => .error (.ofParseError e)
    | .ok t => .ok t

def loadScript (files : Files) (path : String) : Except Failure Script :=
  match readText files path with
  | .error f => .error f
  | .ok text => Script.ofText text

/-- A run over the tree and the script at two paths. The tree is loaded first. -/
def recordFiles (files : Files) (treePath scriptPath : String) (o : Options) :
    Except Failure RecordReport :=
  match loadTree files treePath with
  | .error f => .error f
  | .ok t =>
    match loadScript files scriptPath with
    | .error f => .error f
    | .ok script => record t script o

end TreeEdits
