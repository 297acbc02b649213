import FlatGrammar.Text.Blank
import FlatGrammar.Text.Word

/-! # Definitions

The text of a rule is `[id] symbol ::= right-hand side`. Ids are made of word characters and dots,
symbols of word characters; blanks may stand around the symbol.
-/
namespace FlatGrammar

def isIdChar (c : Char) : Bool := c == '.' || Text.isWord c

def readId? : List Char → Option (List Char × List Char)
  | '[' :: cs =>
    match cs.takeWhile isIdChar, cs.dropWhile isIdChar with
    | c :: id, ']' :: rest => some (c :: id, rest)
    | _, _ => none
  | _ => none

def readSymbol? (cs : List Char) : Option (List Char × List Char) :=
  let start := Text.trimStart cs
  match start.takeWhile Text.isWord, Text.trimStart (start.dropWhile Text.isWord) with
  | c :: symbol, ':' :: ':' :: '=' :: rest => some (c :: symbol, rest)
  | _, _ => none

structure Definition where
  id : List Char
  symbol : List Char
  rhs : List Char
  deriving DecidableEq, Repr

def Definition.split? (text : List Char) : Option Definition :=
  match readId? text with
  | none => none
  | some (id, rest) =>
    match readSymbol? rest with
    | none => none
    | some (symbol, rhs) => some ⟨id, symbol, rhs⟩

end FlatGrammar
