/-! # Names of synthesized rules

A rule made from a part of another is named after it: an underscore in front, unless there is one,
and a suffix behind. A rule without a symbol has no names for its parts.
-/
namespace FlatGrammar

def derivedSymbol (symbol suffix : String) : String :=
  let base := if symbol.toList.head? == some '_' then symbol else "_" ++ symbol
  base ++ "_" ++ suffix

/-- The symbol for a part of a rule. -/
def partSymbol? (symbol : Option String) (suffix : String) : Option String :=
  symbol.map (derivedSymbol · suffix)

/-- The first number from `n` on under which no reserved id stands. One more number than there are
reserved ids is enough, since different numbers give different ids. -/
def firstFree (reserved : List String) (id : Nat → String) (n : Nat) : Nat :=
  ((List.range' n (reserved.length + 1)).find? fun k => !reserved.contains (id k)).getD n

end FlatGrammar
