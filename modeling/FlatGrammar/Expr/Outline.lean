import FlatGrammar.Expr.Walk
import FlatGrammar.Text.Quoted

/-! # Outlines

The outline of an expression is its structure in nested tuples: a name alone for a reference, or
nothing where it has no name; otherwise the tag of the node followed by the outlines of its operands
or by its text.
-/
namespace FlatGrammar

inductive Outline where
  | nothing
  | text (value : String)
  | tuple (parts : List Outline)
  deriving Repr, Inhabited

namespace Outline

mutual

/-- Tuples are written in parentheses; a tuple of one part ends in a comma. -/
def shown : Outline → String
  | nothing => "None"
  | text value => Text.quoted value
  | tuple [] => "()"
  | tuple [part] => "(" ++ part.shown ++ ",)"
  | tuple (part :: parts) => "(" ++ part.shown ++ shownRest parts ++ ")"

def shownRest : List Outline → String
  | [] => ""
  | part :: parts => ", " ++ part.shown ++ shownRest parts

end

end Outline

namespace Expr

def visitOutline (e : Expr) (parts : List Outline) : Outline :=
  match e with
  | symbol none => .nothing
  | symbol (some name) => .text name
  | terminal t => .tuple [.text t.tag, .text t.text]
  | series op _ => .tuple (.text op.tag :: parts)
  | diff _ _ => .tuple (.text "diff" :: parts)
  | repeated op _ => .tuple (.text op.tag :: parts)

def outline (e : Expr) : Outline := e.walk visitOutline

/-- The outline as traces and listings show it: a reference at the top is shown bare. -/
def outlineText (e : Expr) : String :=
  match e.outline with
  | .text name => name
  | o => o.shown

end Expr

end FlatGrammar
