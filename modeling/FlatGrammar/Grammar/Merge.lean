import FlatGrammar.Grammar.Flatten
import FlatGrammar.Grammar.Basic
import FlatGrammar.Rule.Order

/-! # Merged terminals

Terminals with equal right-hand sides are merged: the one of lowest id is kept, references to the
others are renamed to it, and the others are dropped. Terminals refer to each other, so merging some
can make others equal; merging goes on until no two are equal. Rules carry keys that tell them apart
even where they look the same. Ids are compared among equal terminals, and when the rules left are
put in order.
-/
namespace FlatGrammar

structure Keyed where
  key : Nat
  rule : Rule
  deriving DecidableEq

namespace Keyed

def ofList (rules : List Rule) : List Keyed := rules.zipIdx.map fun (r, i) => ⟨i, r⟩

def isTerminal (k : Keyed) : Bool := k.rule.kind == .terminal

def id (k : Keyed) : String := k.rule.id

def equals (rules : List Keyed) (k : Keyed) : List Keyed :=
  rules.filter fun j => j.isTerminal && j.rule.expr == k.rule.expr

def canonical? (rules : List Keyed) (k : Keyed) : Option Keyed := lowest? id (equals rules k)

/-- A terminal that another stands for, behind that other one. -/
def pair? (rules : List Keyed) (k : Keyed) : Option (Keyed × Keyed) :=
  match canonical? rules k with
  | some first => if first.key == k.key then none else some (first, k)
  | none => none

def duplicates (rules : List Keyed) : List (Keyed × Keyed) :=
  (rules.filter isTerminal).filterMap (pair? rules)

def pairBreakdown? (rules : List Keyed) (k : Keyed) : Option Breakdown :=
  orderBreakdown? ((equals rules k).map id)

def duplicatesBreakdown? (rules : List Keyed) : Option Breakdown :=
  (rules.filter isTerminal).findSome? (pairBreakdown? rules)

def duplicates? (rules : List Keyed) : Except Breakdown (List (Keyed × Keyed)) :=
  Breakdown.guard (duplicatesBreakdown? rules) (duplicates rules)

/-- The pairs found before the first terminal that cannot be compared with its equals. -/
def comparablePairs (rules : List Keyed) : List (Keyed × Keyed) :=
  ((rules.filter isTerminal).takeWhile fun k => (pairBreakdown? rules k).isNone).filterMap
    (pair? rules)

def sort? (rules : List Keyed) : Except Breakdown (List Keyed) :=
  Breakdown.guard (orderBreakdown? (rules.map id)) (sortById id rules)

/-- Renames, one pair after another, what refers to the second of a pair to the first. -/
def renamePairs (pairs : List (Keyed × Keyed)) (k : Keyed) : Keyed :=
  let renamePair (r : Rule) : Keyed × Keyed → Rule
    | (first, second) => r.rename second.rule.symbol first.rule.symbol
  { k with rule := pairs.foldl renamePair k.rule }

def isDropped (pairs : List (Keyed × Keyed)) (k : Keyed) : Bool :=
  pairs.any fun (_, second) => second.key == k.key

end Keyed

/-- The rules left after merging, those that were dropped, and the pairs merged in order. -/
structure Merge where
  kept : List Keyed
  dropped : List Keyed
  pairs : List (Keyed × Keyed)
  deriving DecidableEq

def mergePasses : Nat → List Keyed → Merge
  | 0, rules => ⟨rules, [], []⟩
  | n + 1, rules =>
    match Keyed.duplicates rules with
    | [] => ⟨rules, [], []⟩
    | pairs =>
      let renamed := rules.map (Keyed.renamePairs pairs)
      let rest := mergePasses n (renamed.filter fun k => !k.isDropped pairs)
      ⟨rest.kept, renamed.filter (·.isDropped pairs) ++ rest.dropped, pairs ++ rest.pairs⟩

/-- Every pass drops a rule, so there are no more passes than rules. -/
def mergeKeyed (rules : List Keyed) : Merge :=
  let m := mergePasses rules.length rules
  { m with kept := sortById Keyed.id m.kept }

/-- What keeps rules from being merged. All terminals are compared at the start, and the other rules
once they are put in order. -/
def mergeBreakdown? (rules : List Keyed) : Option Breakdown :=
  (Keyed.duplicatesBreakdown? rules).or (orderBreakdown? (rules.map Keyed.id))

def mergeKeyed? (rules : List Keyed) : Except Breakdown Merge :=
  Breakdown.guard (mergeBreakdown? rules) (mergeKeyed rules)

/-- The pairs that are told of when rules are merged, even if that breaks down. -/
def tracedPairs (rules : List Keyed) : List (Keyed × Keyed) :=
  if (Keyed.duplicatesBreakdown? rules).isSome then Keyed.comparablePairs rules
  else (mergeKeyed rules).pairs

def mergeTerminals (rules : List Rule) : List Rule :=
  (mergeKeyed (Keyed.ofList rules)).kept.map Keyed.rule

def pairText (pair : Keyed × Keyed) : String :=
  let shown (r : Rule) := symbolText r.symbol ++ " [" ++ r.id ++ "]"
  "equivalent rules: " ++ shown pair.1.rule ++ " and " ++ shown pair.2.rule

def flatRules (rules : List Rule) : List Rule := mergeTerminals (flattenAll rules).rules

def flatTrace (rules : List Rule) : List String :=
  let flat := flattenAll rules
  flat.steps.map Step.text ++ (tracedPairs (Keyed.ofList flat.rules)).map pairText

def flatBreakdown? (rules : List Rule) : Option Breakdown :=
  (flattenBreakdown? rules).or (mergeBreakdown? (Keyed.ofList (flattenAll rules).rules))

inductive FlatFailure where
  | breakdown (breakdown : Breakdown)
  | fault (fault : Fault)
  deriving DecidableEq, Repr

def Grammar.flat (g : Grammar) : Except FlatFailure Grammar :=
  match flatBreakdown? g.rules with
  | some breakdown => .error (.breakdown breakdown)
  | none => (Grammar.check (flatRules g.rules) g.file).mapError .fault

end FlatGrammar
