import FlatGrammar.Token

/-! # Character classes as regular expressions

A class of the grammar becomes a class of regular expressions. Hex references of up to eight digits
become escapes of four or eight digits; longer ones and all other text stay as they are.
-/
namespace FlatGrammar

def hexRefDigits? : List Char → Option (List Char)
  | '#' :: 'x' :: cs =>
    match cs.takeWhile isHexDigit with
    | [] => none
    | digits => some digits
  | _ => none

def paddedDigits (width : Nat) (digits : List Char) : List Char :=
  List.replicate (width - digits.length) '0' ++ digits

def hexEscape (digits : List Char) : List Char :=
  if digits.length ≤ 4 then '\\' :: 'u' :: paddedDigits 4 digits
  else if digits.length ≤ 8 then '\\' :: 'U' :: paddedDigits 8 digits
  else '#' :: 'x' :: digits

/-- Escapes the hex references; `skip` characters still belong to the one before. -/
def escapeHexRefs : Nat → List Char → List Char
  | _, [] => []
  | n + 1, _ :: cs => escapeHexRefs n cs
  | 0, c :: cs =>
    match hexRefDigits? (c :: cs) with
    | some digits => hexEscape digits ++ escapeHexRefs (digits.length + 1) cs
    | none => c :: escapeHexRefs 0 cs

def classRegex (spec : String) : String :=
  "[" ++ String.ofList (escapeHexRefs 0 spec.toList) ++ "]"

end FlatGrammar
