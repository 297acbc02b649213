/-! # Breakdowns

What stops an operation for good, although every text involved can be read. A fault of a grammar is
reported, and work goes on; a breakdown leaves nothing to report on.
-/
namespace FlatGrammar

inductive Breakdown where
  | longNumber (digits : Nat)
  | unnamedPart
  | unnamedOperand (place : Nat)
  | farLevel
  | longIndent
  deriving DecidableEq, Repr

def Breakdown.text : Breakdown → String
  | .longNumber digits => "an id starts with a number of " ++ toString digits ++ " digits"
  | .unnamedPart => "a rule without a symbol has no names for its parts"
  | .unnamedOperand place => "operand " ++ toString place ++ " has no name"
  | .farLevel => "a level is not a number of 64 bits"
  | .longIndent => "an indentation is longer than any text"

/-- The value, unless something keeps it from being found. -/
@[macro_inline] def Breakdown.guard {α : Type} (breakdown? : Option Breakdown) (a : α) :
    Except Breakdown α :=
  match breakdown? with
  | some breakdown => .error breakdown
  | none => .ok a

end FlatGrammar
