/-! # Expressions

The right-hand sides of rules as trees. Leaves are references to symbols and terminal values; every
other node has operands, in order. A reference to a rule without a symbol has no name. Trees are
compared by content.
-/
namespace FlatGrammar

/-- Terminal values: a literal text, the text between the brackets of a character class, or a hex
reference together with its number sign. -/
inductive Terminal where
  | literal (text : String)
  | charClass (spec : String)
  | hexRef (spec : String)
  deriving DecidableEq, Repr

inductive Series where
  | seq
  | alt
  deriving DecidableEq, Repr

inductive Repetition where
  | opt
  | star
  | plus
  deriving DecidableEq, Repr

inductive Expr where
  | symbol (name : Option String)
  | terminal (value : Terminal)
  | series (op : Series) (operands : List Expr)
  | diff (left right : Expr)
  | repeated (op : Repetition) (operand : Expr)
  deriving Repr, Inhabited

def Terminal.tag : Terminal → String
  | .literal _ => "'"
  | .charClass _ => "range"
  | .hexRef _ => "hex"

def Terminal.text : Terminal → String
  | .literal text => text
  | .charClass spec => spec
  | .hexRef spec => spec

def Series.tag : Series → String
  | .seq => "seq"
  | .alt => "alt"

def Repetition.tag : Repetition → String
  | .opt => "opt"
  | .star => "star"
  | .plus => "plus"

namespace Expr

@[match_pattern] abbrev ref (name : String) : Expr := .symbol (some name)
@[match_pattern] abbrev seq (operands : List Expr) : Expr := .series .seq operands
@[match_pattern] abbrev alt (operands : List Expr) : Expr := .series .alt operands
@[match_pattern] abbrev opt (operand : Expr) : Expr := .repeated .opt operand
@[match_pattern] abbrev star (operand : Expr) : Expr := .repeated .star operand
@[match_pattern] abbrev plus (operand : Expr) : Expr := .repeated .plus operand
@[match_pattern] abbrev literal (text : String) : Expr := .terminal (.literal text)
@[match_pattern] abbrev charClass (spec : String) : Expr := .terminal (.charClass spec)
@[match_pattern] abbrev hexRef (spec : String) : Expr := .terminal (.hexRef spec)

mutual

def same : Expr → Expr → Bool
  | symbol a, symbol b => a == b
  | terminal s, terminal t => s == t
  | series p as, series q bs => p == q && sameList as bs
  | diff a b, diff c d => same a c && same b d
  | repeated p a, repeated q b => p == q && same a b
  | _, _ => false

def sameList : List Expr → List Expr → Bool
  | [], [] => true
  | a :: as, b :: bs => same a b && sameList as bs
  | _, _ => false

end

mutual

theorem same_iff : ∀ a b : Expr, same a b = true ↔ a = b
  | symbol _, b => by cases b <;> simp [same]
  | terminal _, b => by cases b <;> simp [same]
  | series _ as, b => by cases b <;> simp [same, sameList_iff as]
  | diff a c, b => by cases b <;> simp [same, same_iff a, same_iff c]
  | repeated _ a, b => by cases b <;> simp [same, same_iff a]

theorem sameList_iff : ∀ as bs : List Expr, sameList as bs = true ↔ as = bs
  | [], bs => by cases bs <;> simp [sameList]
  | a :: as, bs => by cases bs <;> simp [sameList, same_iff a, sameList_iff as]

end

instance : DecidableEq Expr := fun a b => decidable_of_iff (same a b = true) (same_iff a b)

def operands : Expr → List Expr
  | symbol _ => []
  | terminal _ => []
  | series _ es => es
  | diff l r => [l, r]
  | repeated _ e => [e]

/-- Operator nodes, which flat rules may not nest. -/
def isComposite : Expr → Bool
  | symbol _ => false
  | terminal _ => false
  | _ => true

def isTerminal : Expr → Bool
  | terminal _ => true
  | _ => false

/-- A flat expression is a leaf or one operator without quantifiers over leaves. -/
def isFlat : Expr → Bool
  | repeated _ _ => false
  | e => e.operands.all (!·.isComposite)

mutual

def size : Expr → Nat
  | symbol _ => 1
  | terminal _ => 1
  | series _ es => 1 + sizeList es
  | diff l r => 1 + l.size + r.size
  | repeated _ e => 1 + e.size

def sizeList : List Expr → Nat
  | [] => 0
  | e :: es => e.size + sizeList es

end

theorem size_eq (e : Expr) : e.size = 1 + sizeList e.operands := by
  cases e <;> simp [size, sizeList, operands, Nat.add_assoc]

end Expr

end FlatGrammar
