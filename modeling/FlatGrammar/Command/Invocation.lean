import FlatGrammar.Command.Words

/-! # Invocations

A command line names a command, a grammar file and options. `check` reports the rules of the
grammar, `dump` writes it as S-expressions or as Turtle; both can take its flat form instead.
Options that hold for all commands stand in front of the command.
-/
namespace FlatGrammar

inductive DumpFormat where
  | sexpr
  | turtle
  deriving DecidableEq, Repr

def DumpFormat.name : DumpFormat → String
  | .sexpr => "sxp"
  | .turtle => "ttl"

def DumpFormat.ofName? (name : String) : Option DumpFormat :=
  [DumpFormat.sexpr, .turtle].find? (·.name == name)

inductive Command where
  | check
  | dump (format : DumpFormat) (prefixName namespaceUri : String) (output : Option String)
  deriving DecidableEq, Repr

structure Invocation where
  command : Command
  grammarFile : String
  flat : Bool
  tracing : Bool
  colors : Bool
  deriving DecidableEq, Repr

/-- What a command line asks for. A bad path is no path at all. -/
inductive Demand where
  | misuse
  | help
  | badPath
  | run (invocation : Invocation)
  deriving DecidableEq, Repr

def helpOption : OptionSpec := { name := "help" }

def generalOptions : List OptionSpec :=
  [{ name := "debug" }, { name := "no-colors" }, helpOption]

def checkOptions : List OptionSpec := [{ name := "bnf" }, helpOption]

def dumpOptions : List OptionSpec :=
  [{ name := "bnf" }, helpOption,
    { name := "format", letter := some 'f', takesValue := true },
    { name := "prefix", letter := some 'p', takesValue := true },
    { name := "namespace", letter := some 'n', takesValue := true },
    { name := "output", letter := some 'o', takesValue := true }]

/-- No path holds the character that ends paths. -/
def isPath (path : String) : Bool := !path.toList.contains '\x00'

def Words.format (w : Words) : Option DumpFormat :=
  DumpFormat.ofName? ((w.value? "format").getD DumpFormat.sexpr.name)

/-- The dump that the words ask for, in S-expressions unless there is a format. An empty output name
counts as no output name. -/
def Words.dump (w : Words) : Command :=
  .dump (w.format.getD .sexpr) ((w.value? "prefix").getD "ebnf")
    ((w.value? "namespace").getD "http://example.org/grammar#")
    ((w.value? "output").filter (!·.isEmpty))

/-- What is wrong with the value of an option. -/
def Words.objection? (w : Words) (name : String) : Option Demand :=
  if name == "format" && w.format.isNone then some .misuse
  else if name == "output" && !((w.value? "output").all isPath) then some .badPath
  else none

/-- What the words behind a command ask for. Options are looked at in the order in which they are
given, then the grammar file, then the words behind it. -/
def demandOf (general : Words) (words : Option Words) (command : Words → Command) : Demand :=
  match words with
  | none => .misuse
  | some w =>
    if w.has "help" then .help
    else
      match w.options.findSome? (fun (name, _) => w.objection? name), w.others with
      | some objection, _ => objection
      | none, [] => .misuse
      | none, grammarFile :: others =>
        if !isPath grammarFile then .badPath
        else if !others.isEmpty then .misuse
        else
          .run {
            command := command w
            grammarFile
            flat := w.has "bnf"
            tracing := general.has "debug"
            colors := !general.has "no-colors" }

def Demand.ofArgs (args : List String) : Demand :=
  match readWords generalOptions false none args with
  | none => .misuse
  | some general =>
    if general.has "help" then .help
    else
      match general.others with
      | "check" :: rest =>
        demandOf general (readWords checkOptions true none rest) fun _ => .check
      | "dump" :: rest => demandOf general (readWords dumpOptions true none rest) Words.dump
      | _ => .misuse

end FlatGrammar
