import FlatGrammar.Breakdown
import FlatGrammar.Rule.Basic
import FlatGrammar.Rule.Name

/-! # Flat rules

Splits rules until no right-hand side nests operators or repeats anything:

* a nested operator becomes a rule of its own, named by a number;
* an option becomes a choice between the empty rule and its operand;
* a star becomes a choice between the empty rule and a rule that recurs after one operand;
* a plus becomes its operand followed by a star of it;
* a terminal value among the operands becomes a terminal, once the operands are leaves.

Rules of other kinds, and rules whose right-hand side is a leaf, stay as they are. A rule without a
symbol has no names for rules made from it.
-/
namespace FlatGrammar

def emptySymbol : String := "empty"

def emptyId : String := "0"

/-- The rule for the empty text, which all options refer to. -/
def emptyRule : Rule := { symbol := some emptySymbol, id := emptyId, kind := .rule, expr := .seq [] }

/-- What flattening has to tell: the rule it starts from, and rules it has changed or made. -/
inductive Step where
  | expanding (rule : Rule)
  | changed (rules : List Rule)
  deriving DecidableEq

def Step.text : Step → String
  | .expanding r => "to_bnf: expand from " ++ r.labelled
  | .changed rs => "to_bnf => " ++ ", ".intercalate (rs.map Rule.outlineText)

/-- Rules with the steps that led to them. -/
structure Flat where
  rules : List Rule := []
  steps : List Step := []

namespace Flat

def one (r : Rule) : Flat := ⟨[r], []⟩

def append (a b : Flat) : Flat := ⟨a.rules ++ b.rules, a.steps ++ b.steps⟩

instance : Append Flat := ⟨append⟩

def join (fs : List Flat) : Flat := ⟨fs.flatMap Flat.rules, fs.flatMap Flat.steps⟩

def after (step : Step) (a : Flat) : Flat := { a with steps := step :: a.steps }

@[simp] theorem rules_append (a b : Flat) : (a ++ b).rules = a.rules ++ b.rules := rfl

@[simp] theorem rules_after (step : Step) (a : Flat) : (a.after step).rules = a.rules := rfl

end Flat

/-- The operands of a rule after some have been moved into rules of their own, those rules, what
becomes of them, and the next number for a rule of this symbol. -/
structure Extraction where
  operands : List Expr
  rules : List Rule
  below : Flat
  nextNumber : Nat

namespace Rule

/-- A rule made from a part of this one. It has no source text of its own. -/
def part (r : Rule) (suffix id : String) (kind? : Option Kind) (e : Expr) : Rule :=
  let symbol := partSymbol? r.symbol suffix
  { symbol, id, kind := kind?.getD (.derived symbol e), expr := e, location := r.location }

def partId (r : Rule) (n : Nat) : String := r.id ++ "." ++ toString n

def terminalId (r : Rule) (n : Nat) : String := r.id ++ ".term" ++ toString n

def operatorPart (r : Rule) (n : Nat) (e : Expr) : Rule :=
  r.part (toString n) (r.partId n) none e

def terminalPart (r : Rule) (n : Nat) (e : Expr) : Rule :=
  r.part ("term" ++ toString n) (r.terminalId n) (some .terminal) e

def symbolRef (r : Rule) : Expr := .symbol r.symbol

end Rule

/-- The operands with each terminal value moved into a terminal, numbered from `n` on. -/
def extractTerminals (reserved : List String) (r : Rule) (n : Nat) :
    List Expr → List Expr × List Rule
  | [] => ([], [])
  | e :: es =>
    if e.isTerminal then
      let k := firstFree reserved r.terminalId n
      let part := r.terminalPart k e
      let (operands, rules) := extractTerminals reserved r (k + 1) es
      (part.symbolRef :: operands, part :: rules)
    else
      let (operands, rules) := extractTerminals reserved r n es
      (e :: operands, rules)

/-- A rule of which no operand is composite, with its terminal values moved out. -/
def flattenLeaves (reserved : List String) (r : Rule) : Flat :=
  if r.expr.operands.any Expr.isTerminal then
    let (operands, rules) := extractTerminals reserved r 1 r.expr.operands
    let parent := { r with expr := r.expr.withOperands operands }
    ⟨parent :: rules, [.changed (parent :: rules)]⟩
  else .one r

def flattenStar (reserved : List String) (r : Rule) (operand : Expr) : Flat :=
  let symbol := partSymbol? r.symbol "star"
  let e := Expr.seq [operand, r.symbolRef]
  let starRule : Rule :=
    { symbol, id := r.id ++ "*", kind := .derived symbol e, expr := e, location := r.location }
  let parent := { r with expr := .alt [.ref emptySymbol, starRule.symbolRef] }
  let below := if starRule.kind = .rule then flattenLeaves reserved starRule else .one starRule
  ⟨parent :: below.rules, .changed [starRule] :: .changed [parent] :: below.steps⟩

/-- A rule whose right-hand side is a plus of a leaf; its star is the part numbered `n` or later. -/
def flattenPlus (reserved : List String) (r : Rule) (n : Nat) (operand : Expr) : Flat :=
  let doubled := { r with expr := .seq [operand, .star operand] }
  let starPart := r.operatorPart (firstFree reserved r.partId n) (.star operand)
  let parent := { r with expr := .seq [operand, starPart.symbolRef] }
  let below := if starPart.kind = .rule then flattenStar reserved starPart operand else .one starPart
  (flattenLeaves reserved parent ++ below).after (.changed [parent, starPart])
    |>.after (.changed [doubled])

/-- A rule of kind `rule` whose right-hand side is one operator over leaves. -/
def flattenOperator (reserved : List String) (r : Rule) (n : Nat) : Flat :=
  match r.expr with
  | .opt e =>
    let parent := { r with expr := .alt [.ref emptySymbol, e] }
    (flattenLeaves reserved parent).after (.changed [parent])
  | .star e => flattenStar reserved r e
  | .plus e => flattenPlus reserved r n e
  | _ => flattenLeaves reserved r

def Extraction.finish (x : Extraction) (reserved : List String) (r : Rule) : Flat :=
  let parent := { r with expr := r.expr.withOperands x.operands }
  if x.rules.isEmpty then flattenOperator reserved parent x.nextNumber
  else
    (flattenOperator reserved parent x.nextNumber ++ x.below).after
      (.changed (parent :: x.rules))

/-- Moves an operand into a rule of its own if it is composite. `flat` tells what becomes of it. -/
def extractOperand (reserved : List String) (r : Rule) (n : Nat) (e : Expr) (flat : Rule → Flat) :
    Extraction :=
  if e.isComposite then
    let k := firstFree reserved r.partId n
    let part := r.operatorPart k e
    ⟨[part.symbolRef], [part], flat part, k + 1⟩
  else ⟨[e], [], {}, n⟩

def Extraction.join (x y : Extraction) : Extraction :=
  ⟨x.operands ++ y.operands, x.rules ++ y.rules, x.below ++ y.below, y.nextNumber⟩

mutual

def flattenExpr (reserved : List String) : Expr → Rule → Flat
  | .symbol name, r => .one { r with expr := .symbol name }
  | .terminal t, r => .one { r with expr := .terminal t }
  | .series op es, r =>
    let whole := { r with expr := .series op es }
    if r.kind = .rule then (extractOperands reserved es r 1).finish reserved whole else .one whole
  | .diff left right, r =>
    let whole := { r with expr := .diff left right }
    if r.kind = .rule then
      let x := extractOperand reserved r 1 left (flattenExpr reserved left)
      let y := extractOperand reserved r x.nextNumber right (flattenExpr reserved right)
      (x.join y).finish reserved whole
    else .one whole
  | .repeated op e, r =>
    let whole := { r with expr := .repeated op e }
    if r.kind = .rule then
      (extractOperand reserved r 1 e (flattenExpr reserved e)).finish reserved whole
    else .one whole

def extractOperands (reserved : List String) : List Expr → Rule → Nat → Extraction
  | [], _, n => ⟨[], [], {}, n⟩
  | e :: es, r, n =>
    let x := extractOperand reserved r n e (flattenExpr reserved e)
    x.join (extractOperands reserved es r x.nextNumber)

end

namespace Rule

/-- The flat rules for a rule, with what it becomes itself in front. Parts take no reserved id. -/
def flatten (reserved : List String) (r : Rule) : Flat := flattenExpr reserved r.expr r

def hasParts (r : Rule) : Bool :=
  r.kind == .rule &&
    match r.expr with
    | .star _ => true
    | .plus _ => true
    | e => e.operands.any fun operand => operand.isComposite || operand.isTerminal

end Rule

def flattenBreakdown? (rules : List Rule) : Option Breakdown :=
  if rules.any fun r => r.symbol.isNone && r.hasParts then some .unnamedPart else none

/-- The flat rules for all rules behind the empty rule. Parts take no id that a rule has. -/
def flattenAll (rules : List Rule) : Flat :=
  let reserved := rules.map Rule.id
  .one emptyRule ++ .join (rules.map fun r => (r.flatten reserved).after (.expanding r))

def Rule.flatten? (reserved : List String) (r : Rule) : Except Breakdown Flat :=
  Breakdown.guard (flattenBreakdown? [r]) (r.flatten reserved)

def flattenAll? (rules : List Rule) : Except Breakdown Flat :=
  Breakdown.guard (flattenBreakdown? rules) (flattenAll rules)

end FlatGrammar
