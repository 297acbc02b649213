import FlatGrammar.Style
import FlatGrammar.Text.Blank

/-! # Faults and their reports

A fault says why a text is not a grammar: a part of it cannot be read, or the rules contradict each
other. A report is the message shown for it, with the location in front and a hint below. Of a longer
text it shows an excerpt, which is the start of it on one line.
-/
namespace FlatGrammar

/-- Where a rule stands in its source. Locations are kept for whole rules, so the line is the one on which
the rule starts. -/
structure Location where
  file : Option String := none
  line : Option Int := none
  deriving DecidableEq, Repr

/-- The file name unless it is missing or empty. -/
def Location.namedFile (l : Location) : Option String := l.file.filter (!·.isEmpty)

def Location.text (l : Location) (colors : Bool) : String :=
  match l.line, l.namedFile with
  | some n, some file => file ++ ":" ++ toString n
  | some n, none => "line " ++ toString n
  | none, some file => Style.attention.paint colors file
  | none, none => "<Unknown location>"

namespace Text

def onOneLine (text : String) : String :=
  String.ofList (text.toList.flatMap fun c => if c == '\n' then ['\\', 'n'] else [c])

/-- The first `limit` characters; a negative limit leaves out as many at the end. -/
def firstChars (limit : Int) (cs : List Char) : List Char :=
  if 0 ≤ limit then cs.take limit.toNat else cs.take (cs.length - (-limit).toNat)

/-- The start of a text, trimmed and cut to a length. -/
def excerpt (limit : Int) (text : String) : String :=
  let cs := trimChars text.toList
  if (cs.length : Int) ≤ limit then onOneLine (String.ofList cs)
  else onOneLine (String.ofList (firstChars limit cs) ++ "...")

end Text

/-- Why a text cannot be read from some place on. -/
inductive Obstacle where
  | openLiteral
  | embeddedQuote (quote : Char)
  | openCharClass
  | badHexRef
  | badAtRef
  | unknownToken
  | missingOperand
  | leftover
  | openComment
  | noDefinition
  deriving DecidableEq, Repr

def Obstacle.message : Obstacle → String
  | .openLiteral => "unterminated string literal"
  | .embeddedQuote quote => "unexpected embedded quote " ++ String.ofList [quote]
  | .openCharClass => "unterminated character class"
  | .badHexRef => "invalid hex character reference"
  | .badAtRef => "invalid at-reference"
  | .unknownToken => "unrecognized terminal"
  | .missingOperand => "expected operand after '-'"
  | .leftover => "unexpected input"
  | .openComment => "unterminated comment"
  | .noDefinition => "expected '[id] symbol ::= expression'"

/-- An obstacle and the text from which on it stands in the way. -/
structure Misreading where
  obstacle : Obstacle
  rest : List Char
  deriving DecidableEq, Repr

inductive Fault where
  | unreadable (location : Location) (misreading : Misreading)
  | repeatedPass (location first : Location)
  | repeatedId (location : Location) (id : String) (firstSymbol : Option String)
  deriving DecidableEq, Repr

def Fault.location : Fault → Location
  | .unreadable l _ => l
  | .repeatedPass l _ => l
  | .repeatedId l _ _ => l

def Fault.placing {α : Type} (location : Location) : Except Misreading α → Except Fault α
  | .ok a => .ok a
  | .error m => .error (.unreadable location m)

/-- The kinds of report; a report on unreadable text may quote it. -/
inductive ReportKind where
  | plain
  | unreadable (text : Option String)
  | inconsistent
  deriving DecidableEq, Repr

structure Report where
  location : Location := {}
  kind : ReportKind
  message : String
  hint : Option String := none

/-- The word in front of the message. A plain report never has it coloured. -/
def ReportKind.title (colors : Bool) : ReportKind → String
  | .plain => "error"
  | .unreadable _ => Style.attention.paint colors "parse error"
  | .inconsistent => Style.attention.paint colors "grammar error"

def excerptLength : Int := 20

def Report.detail (r : Report) : String :=
  match r.kind with
  | .unreadable (some text) => r.message ++ " at \"" ++ Text.excerpt excerptLength text ++ "\""
  | _ => r.message

def Report.body (r : Report) (colors : Bool) : String :=
  let title := r.kind.title colors ++ ": " ++ r.detail
  match r.hint.filter (!·.isEmpty) with
  | some hint => title ++ "\n" ++ Style.header.paint colors ("  hint: " ++ hint)
  | none => title

def Report.text (r : Report) (colors : Bool) : String :=
  r.location.text colors ++ ": " ++ r.body colors

def symbolText (symbol : Option String) : String := symbol.getD "None"

def Fault.report (colors : Bool) : Fault → Report
  | .unreadable location m =>
    { location, kind := .unreadable (some (String.ofList m.rest)), message := m.obstacle.message }
  | .repeatedPass location first =>
    { location, kind := .inconsistent,
      message := "Multiple @pass directives. First defined at " ++ first.text colors ++ "." }
  | .repeatedId location id symbol =>
    { location, kind := .inconsistent,
      message := "Rule id \"" ++ id ++ "\" already used by rule \"" ++ symbolText symbol ++ "\"." }

def Fault.text (f : Fault) (colors : Bool) : String := (f.report colors).text colors

end FlatGrammar
