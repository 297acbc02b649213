import FlatGrammar.Expr.Edit
import FlatGrammar.Expr.Outline
import FlatGrammar.Fault
import FlatGrammar.Text.Uppercase

/-! # Rules

A rule defines a symbol by an expression. Its kind is derived from the two when nothing else decides
it: an uppercase symbol or a bare terminal value makes a terminal.
-/
namespace FlatGrammar

structure Kind where
  name : String
  deriving DecidableEq, Repr

namespace Kind

def rule : Kind := ⟨"rule"⟩

def terminal : Kind := ⟨"terminal"⟩

/-- The kind of the rule for the text between tokens, which defines no symbol. -/
def pass : Kind := ⟨"pass"⟩

/-- Text that uppercasing leaves as it is; a missing or empty symbol does not count. -/
def isUppercaseSymbol : Option String → Bool
  | some symbol => !symbol.isEmpty && symbol.toList.all Text.isUppercase
  | none => false

def derived (symbol : Option String) (e : Expr) : Kind :=
  if isUppercaseSymbol symbol || e.isTerminal then terminal else rule

end Kind

structure Rule where
  symbol : Option String
  id : String
  kind : Kind
  expr : Expr
  source : Option String := none
  location : Option Location := none
  deriving DecidableEq

namespace Rule

/-- The same rule up to its id and where it comes from. -/
def agrees (r s : Rule) : Bool := r.symbol == s.symbol && r.kind == s.kind && r.expr == s.expr

def rename (old new : Option String) (r : Rule) : Rule := { r with expr := r.expr.rename old new }

def references (r : Rule) : List (Option String) := r.expr.references

def outlineText (r : Rule) : String :=
  symbolText r.symbol ++ " [" ++ r.id ++ "] " ++ r.expr.outlineText

def text (r : Rule) : String :=
  symbolText r.symbol ++ " [" ++ r.id ++ "] " ++ r.kind.name ++ " " ++ r.expr.labelled

def labelled (r : Rule) : String :=
  "Rule(" ++ Text.quotedOrNone r.symbol ++ ", " ++ Text.quoted r.id ++ ", " ++ r.expr.labelled
    ++ ", kind=" ++ Text.quoted r.kind.name ++ ")"

end Rule

end FlatGrammar
