import TreeEdits.Files

/-!
# TreeEdits.CommandLine

The command line: `record` with the paths of a tree and a script, and options that stand before or
after it. Options are long; a value follows as the next argument or after an equals sign. An option
stands at most once on each side of the command.

* `Request.ofArguments`: what the arguments ask for.
* `CommandLine.run`: the program over given files.
-/

namespace TreeEdits

inductive Request where
  | record (compact : Bool) (treePath scriptPath : String) (mode : Mode)
  | version
  | misuse

def logLevels : List String := ["trace", "debug", "info", "warn", "error"]

/-- The options met so far on one side of the command. -/
structure Settings where
  compact : Bool
  logLevel : Option String
  treePath : Option String
  scriptPath : Option String
  mode : Option Mode

namespace Settings

def empty : Settings := ⟨false, none, none, none, none⟩

def compact? (s : Settings) : Option Settings :=
  if s.compact then none else some { s with compact := true }

def logLevel? (s : Settings) (value : String) : Option Settings :=
  if s.logLevel.isSome ∨ ¬ logLevels.contains value then none
  else some { s with logLevel := some value }

def tree? (s : Settings) (value : String) : Option Settings :=
  if s.treePath.isSome ∨ value = "" then none else some { s with treePath := some value }

def script? (s : Settings) (value : String) : Option Settings :=
  if s.scriptPath.isSome ∨ value = "" then none else some { s with scriptPath := some value }

def mode? (s : Settings) (value : String) : Option Settings :=
  match s.mode, Mode.choices.lookup value with
  | none, some m => some { s with mode := some m }
  | _, _ => none

end Settings

namespace Request

/-- Whether an argument looks like an option and can be no value. -/
def isOption (arg : String) : Bool := arg.startsWith "-" && arg != "-"

/-- The name of an option and the value after its equals sign, if it has one. -/
def split (arg : String) : String × Option String :=
  match arg.splitOn "=" with
  | [] => (arg, none)
  | [_] => (arg, none)
  | name :: rest => (name, some ("=".intercalate rest))

/-- How an option with a value sets it. Paths and modes belong to the command. -/
def setter (inCommand : Bool) (name : String) : Option (Settings → String → Option Settings) :=
  match name, inCommand with
  | "--log-level", _ => some Settings.logLevel?
  | "--tree", true => some Settings.tree?
  | "--script", true => some Settings.script?
  | "--mode", true => some Settings.mode?
  | _, _ => none

def ofSettings (compact : Bool) (s : Settings) : Request :=
  match s.treePath, s.scriptPath with
  | some treePath, some scriptPath =>
    .record (compact || s.compact) treePath scriptPath (s.mode.getD default)
  | _, _ => .misuse

def ofCommand (compact : Bool) (s : Settings) : List String → Request
  | [] => ofSettings compact s
  | "--" :: args => if args.isEmpty then ofSettings compact s else .misuse
  | "--compact" :: args =>
    match s.compact? with
    | none => .misuse
    | some s => ofCommand compact s args
  | arg :: args =>
    match split arg with
    | (name, some value) =>
      match setter true name with
      | none => .misuse
      | some set =>
        match set s value with
        | none => .misuse
        | some s => ofCommand compact s args
    | (name, none) =>
      match setter true name, args with
      | some set, value :: args =>
        if isOption value then .misuse
        else
          match set s value with
          | none => .misuse
          | some s => ofCommand compact s args
      | _, _ => .misuse

def ofArgumentsWith (s : Settings) : List String → Request
  | [] => .misuse
  | "record" :: args => ofCommand s.compact .empty args
  | "--compact" :: args =>
    match s.compact? with
    | none => .misuse
    | some s => ofArgumentsWith s args
  | "--version" :: _ => .version
  | arg :: args =>
    if arg.startsWith "-V" then .version
    else
      match split arg with
      | (name, some value) =>
        match setter false name with
        | none => .misuse
        | some set =>
          match set s value with
          | none => .misuse
          | some s => ofArgumentsWith s args
      | (name, none) =>
        match setter false name, args with
        | some set, value :: args =>
          if isOption value then .misuse
          else
            match set s value with
            | none => .misuse
            | some s => ofArgumentsWith s args
        | _, _ => .misuse

def ofArguments (args : List String) : Request := ofArgumentsWith .empty args

end Request

namespace CommandLine

def versionText : String := "tugzip 0.1.0\n"

/-- The program over given files. A command line that asks for nothing known prints nothing. -/
def answer (files : Files) : Request → Exit
  | .record compact treePath scriptPath mode =>
    .ofRun compact (recordFiles files treePath scriptPath (.ofMode mode))
  | .version => ⟨0, versionText⟩
  | .misuse => ⟨2, ""⟩

def run (files : Files) (args : List String) : Exit := answer files (.ofArguments args)

end CommandLine
end TreeEdits
