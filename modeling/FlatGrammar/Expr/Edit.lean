import FlatGrammar.Expr.Labelled

/-! # Editing expressions

Renaming references, and replacing an operand of a node found by following positions from the root.
Positions in a list count from the front, or from the end when they are negative: the last entry is
at minus one. Other positions select nothing.
-/
namespace FlatGrammar

/-- Positions are numbers of 64 bits; others cannot be meant for any list. -/
def isPosition (i : Int) : Bool := -0x8000000000000000 ≤ i && i < 0x8000000000000000

def position? (i : Int) (length : Nat) : Option Nat :=
  let n := if i < 0 then i + length else i
  if 0 ≤ n ∧ n < length then some n.toNat else none

/-- The entry at a position, behind its place counted from the front. -/
def entryAt? {α : Type} (i : Int) (xs : List α) : Option (Nat × α) :=
  (position? i xs.length).bind fun n => xs[n]?.map fun x => (n, x)

inductive EditFault where
  | noEntry
  | noSlot
  | noPosition
  | noOperand (position : Int)
  | leaf (title : String)
  deriving DecidableEq, Repr

def EditFault.text : EditFault → String
  | .noEntry => "list index out of range"
  | .noSlot => "list assignment index out of range"
  | .noPosition => "cannot fit 'int' into an index-sized integer"
  | .noOperand position => toString position
  | .leaf title => title ++ " has no operands."

/-- What is wrong with the number `i`, which selects nothing: it is no position, or else the given
fault. -/
def EditFault.ofPosition (i : Int) (fault : EditFault) : EditFault :=
  if isPosition i then fault else .noPosition

namespace Expr

mutual

def rename (old new : Option String) : Expr → Expr
  | symbol name => symbol (if name = old then new else name)
  | terminal t => terminal t
  | series op es => series op (renameList old new es)
  | diff l r => diff (l.rename old new) (r.rename old new)
  | repeated op e => repeated op (e.rename old new)

def renameList (old new : Option String) : List Expr → List Expr
  | [] => []
  | e :: es => e.rename old new :: renameList old new es

end

theorem renameList_eq_map (old new : Option String) (es : List Expr) :
    renameList old new es = es.map (rename old new) := by
  induction es with
  | nil => rfl
  | cons e es ih => simp [renameList, ih]

/-- A node of the same kind with other operands, as many as it has. -/
def withOperands (e : Expr) (operands : List Expr) : Expr :=
  match e, operands with
  | series op _, es => series op es
  | diff _ _, [l, r] => diff l r
  | repeated op _, [e] => repeated op e
  | e, _ => e

/-- The operands of a series may be counted from the end, those of other nodes may not. -/
def setOperand (e : Expr) (i : Int) (new : Expr) : Except EditFault Expr :=
  match e with
  | series op es =>
    match position? i es.length with
    | some n => .ok (series op (es.set n new))
    | none => .error (.ofPosition i .noSlot)
  | diff l r =>
    if i = 0 then .ok (diff new r) else if i = 1 then .ok (diff l new) else .error (.noOperand i)
  | repeated op _ => if i = 0 then .ok (repeated op new) else .error (.noOperand i)
  | e => .error (.leaf e.title)

def node? : List Int → Expr → Except EditFault Expr
  | [], e => .ok e
  | i :: path, e =>
    match entryAt? i e.operands with
    | some (_, operand) => node? path operand
    | none => .error (.ofPosition i .noEntry)

/-- Edits the node reached by a path and keeps all others. -/
def editAt (edit : Expr → Except EditFault Expr) : List Int → Expr → Except EditFault Expr
  | [], e => edit e
  | i :: path, e =>
    match entryAt? i e.operands with
    | some (n, operand) =>
      (editAt edit path operand).map fun new => e.withOperands (e.operands.set n new)
    | none => .error (.ofPosition i .noEntry)

end Expr

end FlatGrammar
