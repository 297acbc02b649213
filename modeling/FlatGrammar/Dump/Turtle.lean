import FlatGrammar.Dump.CharClass
import FlatGrammar.Dump.SExpr
import FlatGrammar.Grammar.Flatten

/-! # Turtle

The dump of a grammar as RDF in Turtle. Each rule is a subject with a label, a value, its source
text as a comment, and its right-hand side as nested blank nodes. Only rules and terminals are
written; the rule for the text between tokens is left out.
-/
namespace FlatGrammar

def escapeTriples : List Char → List Char
  | '"' :: '"' :: '"' :: cs => '\\' :: '"' :: '\\' :: '"' :: '\\' :: '"' :: escapeTriples cs
  | c :: cs => c :: escapeTriples cs
  | [] => []

def escapeLeadingQuote (cs : List Char) : List Char :=
  if cs.head? == some '"' then '\\' :: cs else cs

/-- An odd number of backslashes in front already escapes a quote at the end. -/
def escapeTrailingQuote (cs : List Char) : List Char :=
  match cs.reverse with
  | '"' :: before =>
    if (before.takeWhile (· == '\\')).length % 2 == 0 then before.reverse ++ ['\\', '"'] else cs
  | _ => cs

/-- The source text of a rule between triple quotes. Quotes at its ends are escaped, lest they
merge with the quotes around it. -/
def commentChars (cs : List Char) : List Char :=
  let doubled := (Text.trimChars cs).flatMap fun c => if c == '\\' then ['\\', '\\'] else [c]
  escapeTrailingQuote (escapeLeadingQuote (escapeTriples doubled))

def comment (source : String) : String := String.ofList (commentChars source.toList)

/-- The brackets of a blank node. The outermost node has none, its rule being the subject. -/
def brackets (nested : Bool) : String × String := if nested then ("[ ", " ]") else ("", "")

def refName (name : Option String) : String :=
  if name == some emptySymbol then "g:empty" else ":" ++ symbolText name

def closeStatement : List String → List String
  | [] => []
  | [line] => [line ++ " ."]
  | line :: lines => line :: closeStatement lines

def finishLines (nested : Bool) (lines : List String) : List String :=
  if nested then lines else closeStatement lines

def Terminal.turtleLine (nested : Bool) : Terminal → String
  | .literal text => inQuotes (escaped text)
  | t =>
    let (opening, closing) := brackets nested
    opening ++ " re:matches " ++ inQuotes (escaped (classRegex t.text)) ++ " " ++ closing

def listLines (namespaceName tag : String) (depth : Int) (nested : Bool)
    (operands : List String) : List String :=
  let (opening, closing) := brackets nested
  (Text.indent depth ++ opening ++ namespaceName ++ ":" ++ tag ++ " (") :: operands
    ++ [Text.indent depth ++ " )" ++ closing]

namespace Expr

mutual

def turtleLines (namespaceName : String) (depth : Int) (nested : Bool) : Expr → List String
  | symbol name =>
    finishLines nested
      [Text.indent depth ++ if nested then refName name else "g:seq ( " ++ refName name ++ " )"]
  | terminal t => finishLines nested [Text.indent depth ++ t.turtleLine nested]
  | series op es =>
    finishLines nested
      (listLines namespaceName op.tag depth nested (turtleOperands namespaceName (depth + 1) es))
  | diff l r =>
    finishLines nested
      (listLines namespaceName "diff" depth nested
        (l.turtleLines namespaceName (depth + 1) true
          ++ r.turtleLines namespaceName (depth + 1) true))
  | repeated op e =>
    let (opening, closing) := brackets nested
    finishLines nested
      ((Text.indent depth ++ opening ++ namespaceName ++ ":" ++ op.tag ++ " ")
        :: e.turtleLines namespaceName (depth + 1) true
        ++ if nested then [Text.indent depth ++ " " ++ closing] else [])

def turtleOperands (namespaceName : String) (depth : Int) : List Expr → List String
  | [] => []
  | e :: es =>
    e.turtleLines namespaceName depth true ++ turtleOperands namespaceName depth es

end

def turtleLines? (namespaceName : String) (depth : Int) (nested : Bool) (e : Expr) :
    Except Breakdown (List String) :=
  Breakdown.guard (Text.indentBreakdown? depth) (e.turtleLines namespaceName depth nested)

end Expr

/-- The namespace of the operators: terminals are regular expressions. -/
def Rule.turtleNamespace (r : Rule) : String := if r.kind = .terminal then "re" else "g"

def Rule.turtle (r : Rule) : String :=
  let label :=
    ":" ++ r.id ++ " rdfs:label " ++ inQuotes r.id ++ "; rdf:value "
      ++ inQuotes (symbolText r.symbol) ++ ";"
  let comments :=
    match r.source with
    | some source => ["  rdfs:comment \"\"\"" ++ comment source ++ "\"\"\";"]
    | none => []
  "\n" ++ "\n".intercalate (label :: comments ++ r.expr.turtleLines r.turtleNamespace 1 false)

def turtleHeader (prefixName namespaceUri start : String) : String :=
  "@prefix rdf: <http://www.w3.org/1999/02/22-rdf-syntax-ns#>.\n"
    ++ "@prefix rdfs: <http://www.w3.org/2000/01/rdf-schema#>.\n"
    ++ "@prefix " ++ prefixName ++ ": <" ++ namespaceUri ++ ">.\n"
    ++ "@prefix : <" ++ namespaceUri ++ ">.\n"
    ++ "@prefix re: <http://www.w3.org/2000/10/swap/grammar/regex#>.\n"
    ++ "@prefix g: <http://www.w3.org/2000/10/swap/grammar/ebnf#>.\n"
    ++ "\n"
    ++ ":language rdfs:isDefinedBy <>; g:start :" ++ start ++ ".\n"

/-- The first rule of the grammar is its start. -/
def Grammar.turtle (prefixName namespaceUri : String) (g : Grammar) : String :=
  match g.rules with
  | [] => ""
  | first :: _ =>
    let written := g.rules.filter fun r => r.kind == .rule || r.kind == .terminal
    turtleHeader prefixName namespaceUri first.id ++ "\n".intercalate (written.map Rule.turtle)

end FlatGrammar
