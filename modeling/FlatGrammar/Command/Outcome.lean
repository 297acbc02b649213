import FlatGrammar.Command.Invocation
import FlatGrammar.Dump.Listing
import FlatGrammar.Dump.Turtle
import FlatGrammar.Grammar.Load
import FlatGrammar.Grammar.Merge

/-! # Outcomes

What a command does with the text of a grammar file: what it prints, what it writes, and the exit
code. Faults of the grammar are reported on the standard output. Warnings go to the standard error,
and so do the notes on loading and flattening when they are traced.
-/
namespace FlatGrammar

inductive SystemFault where
  | notFound
  | notDirectory
  | isDirectory
  | nameTooLong
  | badPath
  | notText
  deriving DecidableEq, Repr

def SystemFault.text : SystemFault → String
  | .notFound => "no such file"
  | .notDirectory => "not a directory"
  | .isDirectory => "is a directory"
  | .nameTooLong => "file name too long"
  | .badPath => "a path holds a zero character"
  | .notText => "not a UTF-8 text"

inductive Abort where
  | system (fault : SystemFault)
  | breakdown (breakdown : Breakdown)
  deriving DecidableEq, Repr

def Abort.text : Abort → String
  | .system fault => fault.text
  | .breakdown cause => cause.text

/-- A file to be written; the message is printed once it has been. -/
structure Output where
  path : String
  content : String
  message : String
  deriving DecidableEq, Repr

structure Outcome where
  exitCode : Nat
  stdout : String := ""
  stderr : String := ""
  output? : Option Output := none
  abort? : Option Abort := none
  deriving DecidableEq, Repr

/-- Lines end in a line feed alone, however they are ended in the file. -/
def withLineFeeds : List Char → List Char
  | '\r' :: '\n' :: cs => '\n' :: withLineFeeds cs
  | '\r' :: cs => '\n' :: withLineFeeds cs
  | c :: cs => c :: withLineFeeds cs
  | [] => []

def addToCount (name : String) : List (String × Nat) → List (String × Nat)
  | [] => [(name, 1)]
  | (other, n) :: rest =>
    if other = name then (other, n + 1) :: rest
    else if name < other then (name, 1) :: (other, n) :: rest
    else (other, n) :: addToCount name rest

def kindCounts (rules : List Rule) : List (String × Nat) :=
  rules.foldl (fun counts r => addToCount r.kind.name counts) []

namespace Invocation

def printed (i : Invocation) (lines : List String) : String :=
  String.join (lines.map (printedLine i.colors))

/-- The lines on the standard error while the grammar is loaded. Warnings are written as they are. -/
def loadMessages (i : Invocation) (text file : String) : String :=
  String.join <| (Grammar.loadNotes text (some file)).filterMap fun note =>
    if note.isWarning then some (note.text ++ "\n")
    else if i.tracing then some (printedLine i.colors note.text)
    else none

def flatMessages (i : Invocation) (g : Grammar) : String :=
  if i.tracing && i.flat then i.printed (flatTrace g.rules) else ""

def faultOutcome (i : Invocation) (fault : Fault) (stderr : String) : Outcome :=
  { exitCode := 1
    stdout := i.printed
      [Headline.text { header := "Error in the grammar file." } .attention i.colors,
        fault.text i.colors]
    stderr }

def reportLines (i : Invocation) (g : Grammar) : List String :=
  let counts := (kindCounts g.rules).map fun (name, n) => toString n ++ " " ++ name
  (if i.tracing then g.listing i.colors else []) ++
    [Headline.text { header := "Rules:", content := ", ".intercalate counts } .header i.colors,
      Headline.text { header := "Grammar OK." } .header i.colors]

/-- Loaded grammars and their flat forms have a name in every reference. -/
def dumpText (g : Grammar) (prefixName namespaceUri : String) : DumpFormat → String
  | .sexpr => g.sexpr
  | .turtle => g.turtle prefixName namespaceUri

/-- A dump on the standard output is written without control sequences. -/
def finish (i : Invocation) (g : Grammar) (stderr : String) : Outcome :=
  match i.command with
  | .check => { exitCode := 0, stdout := i.printed (i.reportLines g), stderr }
  | .dump format prefixName namespaceUri output =>
    let text := dumpText g prefixName namespaceUri format
    match output with
    | none => { exitCode := 0, stdout := printedLine false text, stderr }
    | some path =>
      let message := i.printed ["Created " ++ format.name ++ " file " ++ path]
      { exitCode := 0, stderr, output? := some ⟨path, text ++ "\n", message⟩ }

def run (i : Invocation) (text file : String) : Outcome :=
  let text := String.ofList (withLineFeeds text.toList)
  let loading := i.loadMessages text file
  match Grammar.load text (some file) with
  | .error fault => i.faultOutcome fault loading
  | .ok g =>
    let stderr := loading ++ i.flatMessages g
    match if i.flat then g.flat else .ok g with
    | .error (.fault fault) => i.faultOutcome fault stderr
    | .error (.breakdown breakdown) =>
      { exitCode := 1, stderr, abort? := some (.breakdown breakdown) }
    | .ok g => i.finish g stderr

end Invocation

end FlatGrammar
