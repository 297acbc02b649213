import FlatGrammar.Rule.Basic

/-! # Grammars

An ordered collection of rules. A checked grammar has no two rules with the same id.
-/
namespace FlatGrammar

structure Grammar where
  rules : List Rule
  file : Option String := none
  deriving DecidableEq

/-- Finds the first rule whose id stands in front of it, given the rules seen before. -/
def repeatedId? (file : Option String) (seen : List Rule) : List Rule → Option Fault
  | [] => none
  | r :: rs =>
    match seen.find? (·.id == r.id) with
    | some first => some (.repeatedId (r.location.getD ⟨file, none⟩) r.id first.symbol)
    | none => repeatedId? file (seen ++ [r]) rs

namespace Grammar

def check (rules : List Rule) (file : Option String) : Except Fault Grammar :=
  match repeatedId? file [] rules with
  | some fault => .error fault
  | none => .ok ⟨rules, file⟩

def agrees (g h : Grammar) : Bool :=
  g.rules.length == h.rules.length && (g.rules.zip h.rules).all fun (r, s) => r.agrees s

def find? (symbol : Option String) (g : Grammar) : Option Rule :=
  g.rules.find? (·.symbol == symbol)

def findById? (id : String) (g : Grammar) : Option Rule := g.rules.find? (·.id == id)

/-- The defined symbols, repeated as often as they are defined. -/
def symbols (g : Grammar) : List String :=
  g.rules.filterMap fun r => r.symbol.filter (!·.isEmpty)

end Grammar

end FlatGrammar
