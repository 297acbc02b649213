import FlatGrammar.Command.Outcome

/-! # Directories in memory

A directory of files given by their names, in which a command line can be run. Paths are followed as
a file system does: every part but the last has to be a directory. Of what lies around the directory
only the other directories on the way up are known, and under the root the places that every system
has. Nothing else is there, but files can be written.
-/
namespace FlatGrammar

structure Directory where
  files : List (List String × ByteArray)

/-- A place by the names that lead to it: from the directory, from one of those around it, or from
the root. -/
inductive Place where
  | inside (names : List String)
  | around (names : List String)
  | rooted (names : List String)
  deriving DecidableEq, Repr

inductive Entry where
  | missing
  | directory
  | file (content : ByteArray)

namespace Place

def child (name : String) : Place → Place
  | inside names => inside (names ++ [name])
  | around names => around (names ++ [name])
  | rooted names => rooted (names ++ [name])

/-- The root is its own parent, and so, as far as known, is a directory around. -/
def parent : Place → Place
  | inside [] => around []
  | inside names => inside names.dropLast
  | around names => around names.dropLast
  | rooted names => rooted names.dropLast

def name : Place → String
  | inside names => "/".intercalate names
  | around names => "/".intercalate names
  | rooted names => "/" ++ "/".intercalate names

end Place

/-- A path as its parts, without the empty ones. -/
structure Path where
  start : Place
  parts : List String
  endsInSlash : Bool
  deriving DecidableEq, Repr

def pathLimit : Nat := 4095

def nameLimit : Nat := 255

def Path.ofText (path : String) : Path where
  start := if path.toList.head? == some '/' then .rooted [] else .inside []
  parts := (path.splitOn "/").filter (!·.isEmpty)
  endsInSlash := path.toList.getLast? == some '/'

def isDotted (part : String) : Bool := part == "." || part == ".."

namespace Directory

def ofFiles (files : List (String × ByteArray)) : Directory :=
  ⟨files.map fun (name, content) => (name.splitOn "/", content)⟩

/-- The null device is a file that is always empty. -/
def rootedEntry : List String → Entry
  | [] => .directory
  | ["dev"] => .directory
  | ["tmp"] => .directory
  | ["dev", "null"] => .file .empty
  | _ => .missing

def entry (d : Directory) : Place → Entry
  | .rooted names => rootedEntry names
  | .around names => if names.isEmpty then .directory else .missing
  | .inside names =>
    match d.files.find? (·.1 == names) with
    | some (_, content) => .file content
    | none =>
      if names.isEmpty || d.files.any (fun (name, _) => names.isPrefixOf name) then .directory
      else .missing

def enter (d : Directory) (place : Place) : Except SystemFault Place :=
  match d.entry place with
  | .missing => .error .notFound
  | .file _ => .error .notDirectory
  | .directory => .ok place

def follow (d : Directory) (place : Place) (part : String) : Except SystemFault Place := do
  let place ← d.enter place
  if part == "." then return place
  else if part == ".." then return place.parent
  else if nameLimit < part.utf8ByteSize then .error .nameTooLong
  else return place.child part

/-- The place that a path leads to. A slash at its end asks for a directory. -/
def place (d : Directory) (path : String) : Except SystemFault Place :=
  if pathLimit < path.utf8ByteSize then .error .nameTooLong
  else do
    let p := Path.ofText path
    let place ← p.parts.foldlM d.follow p.start
    if p.endsInSlash then d.enter place else return place

/-- Where a path leads and what is there; an empty path leads nowhere. -/
def find? (d : Directory) (path : String) : Option (Place × Entry) :=
  if path.isEmpty then none
  else
    match d.place path with
    | .ok place => some (place, d.entry place)
    | .error _ => none

/-- The place to be written to. A slash at the end of its path makes it a directory, even where
nothing is there yet. -/
def target (d : Directory) (path : String) : Except SystemFault Place :=
  if pathLimit < path.utf8ByteSize then .error .nameTooLong
  else do
    let p := Path.ofText path
    let before ← p.parts.dropLast.foldlM d.follow p.start
    let parent ← d.enter before
    match p.parts.getLast? with
    | none => .error .isDirectory
    | some last =>
      if isDotted last || p.endsInSlash then .error .isDirectory
      else
        let place ← d.follow parent last
        match d.entry place with
        | .directory => .error .isDirectory
        | _ => return place

def failed (fault : SystemFault) (stderr : String) : Outcome :=
  { exitCode := 1, stderr, abort? := some (.system fault) }

/-- The outcome once the output has been written. Only a file inside the directory is told of, by
its name there. -/
def deliver (d : Directory) (outcome : Outcome) (output : Output) : Outcome :=
  match d.target output.path with
  | .error fault => failed fault outcome.stderr
  | .ok place =>
    { outcome with
      stdout := outcome.stdout ++ output.message
      output? :=
        match place with
        | .inside _ => some { output with path := place.name }
        | _ => none }

def run (d : Directory) (args : List String) : Outcome :=
  match Demand.ofArgs args with
  | .misuse => { exitCode := 2 }
  | .help => { exitCode := 0 }
  | .badPath => failed .badPath ""
  | .run i =>
    match d.find? i.grammarFile with
    | none => { exitCode := 2 }
    | some (_, .missing) => { exitCode := 2 }
    | some (_, .directory) => failed .isDirectory ""
    | some (place, .file content) =>
      match String.fromUTF8? content with
      | none => failed .notText ""
      | some text =>
        let outcome := i.run text place.name
        match outcome.output? with
        | none => outcome
        | some output => d.deliver outcome output

end Directory

end FlatGrammar
