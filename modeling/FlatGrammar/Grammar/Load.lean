import FlatGrammar.Expr.Trace
import FlatGrammar.Grammar.Basic
import FlatGrammar.Source.Span

/-! # Loading grammars

The rules of a grammar text, in the order of their spans. Rules behind the directive that starts the
terminals are terminals whatever their symbols, and one directive gives the rule for what passes
between tokens. Loading stops at the first fault; the notes tell what has been read until then.
-/
namespace FlatGrammar

def passId : String := "0.pass"

/-- What the spans before have decided: whether the terminals have started, and where the pass rule
stands. -/
structure Progress where
  terminals : Bool := false
  pass? : Option Location := none
  deriving DecidableEq, Repr

namespace Span

def location (file : Option String) (s : Span) : Location := ⟨file, some s.line⟩

/-- The right-hand side of a pass directive; the sign of definition may be left out. -/
def passExpression (s : Span) : List Char :=
  match Text.trimStart (s.text.drop Lexeme.passName.length) with
  | ':' :: ':' :: '=' :: rest => rest
  | rest => rest

end Span

/-- What a span declares before its right-hand side is read; a pass rule declares no symbol. -/
structure Declaration where
  symbol : Option String
  id : String
  rhs : List Char
  deriving DecidableEq, Repr

def Declaration.kind (d : Declaration) (terminals : Bool) (e : Expr) : Kind :=
  match d.symbol with
  | none => .pass
  | some _ => if terminals then .terminal else .derived d.symbol e

namespace Span

def declaration (file : Option String) (p : Progress) (s : Span) : Except Fault Declaration :=
  if s.isPass then
    match p.pass? with
    | some first => .error (.repeatedPass (s.location file) first)
    | none => .ok ⟨none, passId, s.passExpression⟩
  else
    match Definition.split? s.text with
    | some d => .ok ⟨some (String.ofList d.symbol), String.ofList d.id, d.rhs⟩
    | none => .error (.unreadable (s.location file) ⟨.noDefinition, s.text⟩)

def rule (file : Option String) (p : Progress) (s : Span) : Except Fault Rule :=
  match s.declaration file p with
  | .error fault => .error fault
  | .ok d =>
    match Expr.parse? d.rhs with
    | .error m => .error (.unreadable (s.location file) m)
    | .ok e =>
      .ok { symbol := d.symbol, id := d.id, kind := d.kind p.terminals e, expr := e,
            source := some (String.ofList s.text), location := some (s.location file) }

end Span

def Progress.after (file : Option String) (p : Progress) (s : Span) : Progress :=
  if s.isTerminals then { p with terminals := true }
  else if s.isPass then { p with pass? := some (s.location file) }
  else p

def rulesFrom (file : Option String) (p : Progress) : List Item → Except Fault (List Rule)
  | [] => .ok []
  | .stray _ _ :: rest => rulesFrom file p rest
  | .openComment line text :: _ => .error (.unreadable ⟨file, some line⟩ ⟨.openComment, text⟩)
  | .span s :: rest =>
    if s.isTerminals then rulesFrom file (p.after file s) rest
    else
      match s.rule file p with
      | .error fault => .error fault
      | .ok r =>
        match rulesFrom file (p.after file s) rest with
        | .error fault => .error fault
        | .ok rs => .ok (r :: rs)

/-- What loading has to tell: text that is skipped, spans, the events of their right-hand sides, and
rules. -/
inductive Note where
  | skipped (location : Location) (text : List Char)
  | span (span : Span)
  | event (line : Nat) (event : Event)
  | rule (line : Nat) (rule : Rule)

namespace Note

def isWarning : Note → Bool
  | skipped _ _ => true
  | _ => false

def text : Note → String
  | skipped location text => strayWarning location text
  | span s =>
    lineMark (some s.line) ++ "rule string: " ++ Text.quoted (String.ofList s.text)
  | event line e => e.text (some line)
  | rule line r => lineMark (some line) ++ "rule: " ++ r.labelled

end Note

/-- The notes on one span. The rule of a pass directive is not told. -/
def Span.notes (file : Option String) (p : Progress) (s : Span) : List Note :=
  .span s ::
    if s.isTerminals then []
    else
      match s.declaration file p with
      | .error _ => []
      | .ok d =>
        (Expr.trace d.rhs).map (.event s.line) ++
          match d.symbol, s.rule file p with
          | some _, .ok r => [.rule s.line r]
          | _, _ => []

def notesFrom (file : Option String) (p : Progress) : List Item → List Note
  | [] => []
  | .stray line text :: rest => .skipped ⟨file, some line⟩ text :: notesFrom file p rest
  | .openComment _ _ :: _ => []
  | .span s :: rest =>
    s.notes file p ++
      if s.isTerminals then notesFrom file (p.after file s) rest
      else
        match s.rule file p with
        | .error _ => []
        | .ok _ => notesFrom file (p.after file s) rest

namespace Grammar

def load (text : String) (file : Option String) : Except Fault Grammar :=
  match rulesFrom file {} (items text.toList) with
  | .error fault => .error fault
  | .ok rules => check rules file

def loadNotes (text : String) (file : Option String) : List Note :=
  notesFrom file {} (items text.toList)

end Grammar

end FlatGrammar
