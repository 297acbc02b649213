import FlatGrammar.Grammar.Basic

/-! # S-expressions

The dump of a grammar as one S-expression with a rule on each line:

    ((pair "1" rule (seq left right))
     (left "2" terminal (' "<")))

An operand without a name cannot be written.
-/
namespace FlatGrammar

def escapeChars (cs : List Char) : List Char :=
  cs.flatMap fun c => if c == '\\' || c == '"' then ['\\', c] else [c]

def escaped (text : String) : String := String.ofList (escapeChars text.toList)

def inQuotes (text : String) : String := "\"" ++ text ++ "\""

namespace Expr

mutual

def sexpr : Expr → String
  | symbol name => symbolText name
  | terminal t => "(" ++ t.tag ++ " " ++ inQuotes (escaped t.text) ++ ")"
  | series op es => "(" ++ op.tag ++ sexprRest es ++ ")"
  | diff l r => "(diff " ++ l.sexpr ++ " " ++ r.sexpr ++ ")"
  | repeated op e => "(" ++ op.tag ++ " " ++ e.sexpr ++ ")"

def sexprRest : List Expr → String
  | [] => ""
  | e :: es => " " ++ e.sexpr ++ sexprRest es

end

/-- The place of the first of the operands without a name, counted from one. -/
def unnamedAmong? (operands : List Expr) : Option Nat :=
  (operands.findIdx? (· = symbol none)).map (· + 1)

mutual

/-- The place of an operand without a name in the first node that has one; a node comes behind
those below it. -/
def unnamedOperand? : Expr → Option Nat
  | symbol _ => none
  | terminal _ => none
  | series _ es => (unnamedBelow? es).or (unnamedAmong? es)
  | diff l r => (l.unnamedOperand?.or r.unnamedOperand?).or (unnamedAmong? [l, r])
  | repeated _ e => e.unnamedOperand?.or (unnamedAmong? [e])

def unnamedBelow? : List Expr → Option Nat
  | [] => none
  | e :: es => e.unnamedOperand?.or (unnamedBelow? es)

end

def sexprBreakdown? (e : Expr) : Option Breakdown := e.unnamedOperand?.map .unnamedOperand

def sexpr? (e : Expr) : Except Breakdown String := Breakdown.guard e.sexprBreakdown? e.sexpr

end Expr

def Rule.sexpr (r : Rule) : String :=
  "(" ++ r.symbol.getD "nil" ++ " " ++ inQuotes r.id ++ " " ++ r.kind.name ++ " " ++ r.expr.sexpr
    ++ ")"

def Grammar.sexpr (g : Grammar) : String := "(" ++ "\n ".intercalate (g.rules.map Rule.sexpr) ++ ")"

def Grammar.sexpr? (g : Grammar) : Except Breakdown String :=
  Breakdown.guard (g.rules.findSome? (·.expr.sexprBreakdown?)) g.sexpr

end FlatGrammar
