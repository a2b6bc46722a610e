import TreeEdits.Files

/-!
# TreeEdits.Folder

A working directory held in memory, with files and empty directories, and what reading at a relative
path gives in it.

* `Folder.files`: the bytes at each path.
-/

namespace TreeEdits

inductive Entry where
  | file (bytes : ByteArray)
  | directory

/-- A working directory by the names in it. -/
structure Folder where
  entries : List (String × Entry)

namespace Folder

/-- Where part of a path leads: to a directory that the folder is in, to the folder itself, into a
directory in it, or to a file. -/
inductive Place where
  | outside
  | top
  | inside
  | file (bytes : ByteArray)

/-- Follows the components of a path. A path leads nowhere behind a file, and of what is outside the
folder only the directories that it is in are known. -/
def follow (f : Folder) : Place → List String → Except ReadError Place
  | p, [] => .ok p
  | .file _, _ :: _ => .error (.other "Not a directory (os error 20)")
  | .outside, c :: cs =>
    if c = "" ∨ c = "." ∨ c = ".." then follow f .outside cs
    else .error .notFound
  | .inside, c :: cs =>
    if c = "" ∨ c = "." then follow f .inside cs
    else if c = ".." then follow f .top cs
    else .error .notFound
  | .top, c :: cs =>
    if c = "" ∨ c = "." then follow f .top cs
    else if c = ".." then follow f .outside cs
    else
      match f.entries.lookup c with
      | some (.file bytes) => follow f (.file bytes) cs
      | some .directory => follow f .inside cs
      | none => .error .notFound

def files (f : Folder) : Files := fun path =>
  if path = "" then .error .notFound
  else
    match f.follow (if path.startsWith "/" then .outside else .top) (path.splitOn "/") with
    | .error e => .error e
    | .ok (.file bytes) => .ok bytes
    | .ok _ => .error (.other "Is a directory (os error 21)")

end Folder
end TreeEdits
