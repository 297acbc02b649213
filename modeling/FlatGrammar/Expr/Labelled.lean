import FlatGrammar.Expr.Basic
import FlatGrammar.Text.Quoted

/-! # Labelled form

The form in which traces show expressions: the title of each node with its labelled parts.
-/
namespace FlatGrammar

def Series.title : Series → String
  | .seq => "Sequence"
  | .alt => "Alternation"

def Repetition.title : Repetition → String
  | .opt => "Optional"
  | .star => "ZeroOrMore"
  | .plus => "OneOrMore"

def Terminal.title : Terminal → String
  | .literal _ => "Literal"
  | .charClass _ => "CharRange"
  | .hexRef _ => "HexCharRef"

def Terminal.label : Terminal → String
  | .literal _ => "text"
  | .charClass _ => "spec"
  | .hexRef _ => "spec"

namespace Expr

def title : Expr → String
  | symbol _ => "SymbolRef"
  | terminal t => t.title
  | series op _ => op.title
  | diff _ _ => "Difference"
  | repeated op _ => op.title

mutual

def labelled : Expr → String
  | symbol name => "SymbolRef(name=" ++ Text.quotedOrNone name ++ ")"
  | terminal t => t.title ++ "(" ++ t.label ++ "=" ++ Text.quoted t.text ++ ")"
  | series op es => op.title ++ "(children=[" ++ ", ".intercalate (labelledList es) ++ "])"
  | diff l r => "Difference(left=" ++ l.labelled ++ ", right=" ++ r.labelled ++ ")"
  | repeated op e => op.title ++ "(child=" ++ e.labelled ++ ")"

def labelledList : List Expr → List String
  | [] => []
  | e :: es => e.labelled :: labelledList es

end

def labelledOrNone : Option Expr → String
  | some e => e.labelled
  | none => "None"

end Expr

end FlatGrammar
