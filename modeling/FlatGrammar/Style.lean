import FlatGrammar.Breakdown

/-! # Styled output

Terminal styles for headings and messages. A style writes its control sequences before the text and
the reset sequence after it; without colours the text is left alone. Lines are indented by two blanks
for each level, and there are no levels below zero.
-/
namespace FlatGrammar

namespace Text

def indent (level : Int) : String := String.ofList (List.replicate (2 * level.toNat) ' ')

/-- Levels are numbers of 64 bits, and so is the length of a text. -/
def indentBreakdown? (level : Int) : Option Breakdown :=
  if level < -0x8000000000000000 ∨ 0x8000000000000000 ≤ level then some .farLevel
  else if 0x8000000000000000 ≤ 2 * level then some .longIndent
  else none

end Text

inductive Style where
  | attention
  | header
  | emphasis
  deriving DecidableEq, Repr

def Style.codes : Style → String
  | .attention => "\x1b[31m\x1b[1m"
  | .header => "\x1b[32m"
  | .emphasis => "\x1b[33m"

def Style.paint (style : Style) (colors : Bool) (text : String) : String :=
  if colors then style.codes ++ text ++ "\x1b[0m" else text

/-- A headline and what follows it. -/
structure Headline where
  header : String
  content : String := ""
  level : Int := 0
  newLine : Bool := false

def Headline.text (h : Headline) (style : Style) (colors : Bool) : String :=
  (if h.newLine then "\n" else "")
    ++ Text.indent h.level
    ++ style.paint colors h.header
    ++ (if h.content.isEmpty then "" else " " ++ h.content)

def Headline.text? (h : Headline) (style : Style) (colors : Bool) : Except Breakdown String :=
  Breakdown.guard (Text.indentBreakdown? h.level) (h.text style colors)

/-- What follows a control sequence whose introducer has been read, if it is one: parameters
and a closing letter. -/
def afterSequence : List Char → Option (List Char)
  | [] => none
  | c :: cs =>
    if c.isDigit || c == ';' || c == '?' then afterSequence cs
    else if c.isAlpha then some cs
    else none

/-- Leaves out the control sequences; `skip` characters still belong to the one before. -/
def withoutSequences (skip : Nat) : List Char → List Char
  | [] => []
  | c :: cs =>
    match skip with
    | n + 1 => withoutSequences n cs
    | 0 =>
      match c, cs with
      | '\x1b', '[' :: rest =>
        match afterSequence rest with
        | some tail => withoutSequences (cs.length - tail.length) cs
        | none => c :: withoutSequences 0 cs
      | _, _ => c :: withoutSequences 0 cs

def unstyled (text : String) : String := String.ofList (withoutSequences 0 text.toList)

/-- A printed line. Without colours no control sequence gets through, whatever the text holds. -/
def printedLine (colors : Bool) (text : String) : String :=
  (if colors then text else unstyled text) ++ "\n"

end FlatGrammar
