import FlatGrammar.Fault
import FlatGrammar.Source.Lexeme
import FlatGrammar.Text.Quoted

/-! # Spans

A grammar text is divided into spans, one for each rule and each directive. A rule starts at an id
in brackets that a symbol and the sign of definition follow, and ends where the next span starts.
Comments are blank wherever they stand. Text that belongs to no span is stray: before the first span
and behind the directive that starts the terminals.
-/
namespace FlatGrammar

/-- The text of a rule or a directive, and the line it starts on. -/
structure Span where
  text : List Char
  line : Nat
  deriving DecidableEq, Repr

namespace Span

def isTerminals (s : Span) : Bool := s.text == Lexeme.terminalsName

def isPass (s : Span) : Bool := Lexeme.passName.isPrefixOf s.text

def shown (s : Span) : String :=
  "Span(" ++ Text.quoted (String.ofList s.text) ++ ", " ++ toString s.line ++ ")"

end Span

/-- What a text holds, in order. A comment without an end is the last item. -/
inductive Item where
  | span (span : Span)
  | stray (line : Nat) (text : List Char)
  | openComment (line : Nat) (rest : List Char)
  deriving DecidableEq, Repr

namespace Lexeme

def starts (l : Lexeme) : Bool :=
  match l.kind with
  | .header => true
  | .pass => true
  | .terminals => true
  | .openComment => true
  | _ => false

def spanText (l : Lexeme) : List Char := if l.kind = .comment then [' '] else l.text

def strayText (l : Lexeme) : List Char :=
  if l.kind = .comment ∨ l.kind = .blank then [' '] else l.text

end Lexeme

/-- The lexemes up to the next start, `none` if that is a comment without an end: what it cuts off
is no item. -/
def region? (ls : List Lexeme) : Option (List Lexeme) :=
  match ls.find? Lexeme.starts with
  | some ⟨.openComment, _⟩ => none
  | _ => some (ls.takeWhile (!·.starts))

def spanItem? (line : Nat) (l : Lexeme) (ls : List Lexeme) : Option Item :=
  (region? ls).map fun body => .span ⟨Text.trimChars (l.text ++ body.flatMap Lexeme.spanText), line⟩

def strayItem? (line : Nat) (l : Lexeme) (ls : List Lexeme) : Option Item :=
  (region? ls).map fun body => .stray line (l.text ++ body.flatMap Lexeme.strayText)

/-- The items of the lexemes from the given line on; a covered lexeme belongs to the item before. -/
def itemsFrom (covered : Bool) (line : Nat) : List Lexeme → List Item
  | [] => []
  | l :: ls =>
    let nextLine := line + l.text.count '\n'
    match l.kind with
    | .openComment => [.openComment line l.text]
    | .terminals => .span ⟨l.text, line⟩ :: itemsFrom false nextLine ls
    | .pass => (spanItem? line l ls).toList ++ itemsFrom true nextLine ls
    | .header => (spanItem? line l ls).toList ++ itemsFrom true nextLine ls
    | .blank => itemsFrom covered nextLine ls
    | .comment => itemsFrom covered nextLine ls
    | _ =>
      if covered then itemsFrom true nextLine ls
      else (strayItem? line l ls).toList ++ itemsFrom true nextLine ls

def items (text : List Char) : List Item := itemsFrom false 1 (lexemes text)

def strayLength : Int := 40

def strayWarning (location : Location) (text : List Char) : String :=
  location.text false ++ ": skipping text outside of a rule \""
    ++ Text.excerpt strayLength (String.ofList text) ++ "\""

namespace Item

def span? : Item → Option Span
  | span s => some s
  | _ => none

def warning? (file : Option String) : Item → Option String
  | stray line text => some (strayWarning ⟨file, some line⟩ text)
  | _ => none

def fault? (file : Option String) : Item → Option Fault
  | openComment line rest => some (.unreadable ⟨file, some line⟩ ⟨.openComment, rest⟩)
  | _ => none

end Item

def spans? (file : Option String) (text : List Char) : Except Fault (List Span) :=
  match (items text).findSome? (Item.fault? file) with
  | some fault => .error fault
  | none => .ok ((items text).filterMap Item.span?)

end FlatGrammar
