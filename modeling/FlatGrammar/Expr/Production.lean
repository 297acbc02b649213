import FlatGrammar.Expr.Basic
import FlatGrammar.Token

/-! # Productions of right-hand sides

From the loosest to the tightest binding:

    alternation: sequence ('|' sequence)*
    sequence:    difference*
    difference:  quantified ('-' primary)?
    quantified:  primary ('?' | '*' | '+')?
    primary:     terminal value | symbol | '(' group
    group:       alternation ')'?

Each production reads from the start of a text and returns what it has read together with the rest.
`Productions.next` says how each of them is made of the others, and `Productions.within` ties the
knot for as many nested calls as the length of the text can need.
-/
namespace FlatGrammar

inductive Production where
  | group
  | alternation
  | sequence
  | difference
  | quantified
  | primary
  deriving DecidableEq, Repr

def Production.name : Production → String
  | .group => "group"
  | .alternation => "alternation"
  | .sequence => "sequence"
  | .difference => "difference"
  | .quantified => "postfix"
  | .primary => "primary"

/-- Readers for the six productions. The last three may find nothing to read, and then leave the
text as it is. -/
structure Productions (m : Type → Type) where
  group : List Char → m (Expr × List Char)
  alternation : List Char → m (Expr × List Char)
  sequence : List Char → m (Expr × List Char)
  difference : List Char → m (Option Expr × List Char)
  quantified : List Char → m (Option Expr × List Char)
  primary : List Char → m (Option Expr × List Char)

def Token.repetition? : Token → Option Repetition
  | question => some .opt
  | star => some .star
  | plus => some .plus
  | _ => none

/-- The leaf that a token stands for. At-references stand for none. -/
def Token.leaf? : Token → Option Expr
  | literal text => some (.literal text)
  | charClass spec => some (.charClass spec)
  | hexRef spec => some (.hexRef spec)
  | symbol name => some (.ref name)
  | _ => none

/-- A single operand needs no operator. -/
def Expr.join (op : Series) : List Expr → Expr
  | [e] => e
  | es => .series op es

namespace Productions

variable {m : Type → Type} [Monad m] [MonadExceptOf Misreading m]

def token (text : List Char) : m (Token × List Char) := MonadExcept.ofExcept (Token.next? text)

def alternatives (p : Productions m) : Nat → List Char → m (List Expr × List Char)
  | 0, text => return ([], text)
  | n + 1, text => do
    let (e, rest) ← p.sequence text
    let (t, after) ← token rest
    if t = .bar then
      let (es, last) ← alternatives p n after
      return (e :: es, last)
    else return ([e], rest)

def members (p : Productions m) : Nat → List Char → m (List Expr × List Char)
  | 0, text => return ([], text)
  | n + 1, text => do
    let (e?, rest) ← p.difference text
    match e? with
    | none => return ([], text)
    | some e =>
      let (es, last) ← members p n rest
      return (e :: es, last)

def readGroup (p : Productions m) (text : List Char) : m (Expr × List Char) := do
  let (e, rest) ← p.alternation text
  let (t, after) ← token rest
  return (e, if t = .closing then after else rest)

/-- Every alternative but the first takes a bar, so their number is bounded by the length. -/
def readAlternation (p : Productions m) (text : List Char) : m (Expr × List Char) := do
  let (es, rest) ← alternatives p (text.length + 1) text
  return (.join .alt es, rest)

/-- Every member takes a character, so their number is bounded by the length. -/
def readSequence (p : Productions m) (text : List Char) : m (Expr × List Char) := do
  let (es, rest) ← members p (text.length + 1) text
  return (.join .seq es, rest)

def readDifference (p : Productions m) (text : List Char) : m (Option Expr × List Char) := do
  let (left?, rest) ← p.quantified text
  match left? with
  | none => return (none, rest)
  | some left =>
    let (t, after) ← token rest
    if t = .minus then
      let (right?, last) ← p.primary after
      match right? with
      | none => throw ⟨.missingOperand, last⟩
      | some right => return (some (.diff left right), last)
    else return (some left, rest)

def readQuantified (p : Productions m) (text : List Char) : m (Option Expr × List Char) := do
  let (e?, rest) ← p.primary text
  match e? with
  | none => return (none, rest)
  | some e =>
    let (t, after) ← token rest
    match t.repetition? with
    | some op => return (some (.repeated op e), after)
    | none => return (some e, rest)

def readPrimary (p : Productions m) (text : List Char) : m (Option Expr × List Char) := do
  let (t, rest) ← token text
  match t.leaf? with
  | some leaf => return (some leaf, rest)
  | none =>
    if t = .opening then
      let (e, last) ← p.group rest
      return (some e, last)
    else return (none, text)

def next (p : Productions m) : Productions m where
  group := readGroup p
  alternation := readAlternation p
  sequence := readSequence p
  difference := readDifference p
  quantified := readQuantified p
  primary := readPrimary p

def nothing : Productions m where
  group text := return (.seq [], text)
  alternation text := return (.seq [], text)
  sequence text := return (.seq [], text)
  difference text := return (none, text)
  quantified text := return (none, text)
  primary text := return (none, text)

/-- The productions with at most `n` nested calls, each of them wrapped. -/
def within (wrap : Productions m → Productions m) : Nat → Productions m
  | 0 => nothing
  | n + 1 => wrap (within wrap n).next

/-- Six nested calls take at least one parenthesis, so no text of this length needs more. -/
def callDepth (text : List Char) : Nat := 6 * (text.length + 1)

end Productions

namespace Expr

def reading (text : List Char) : Productions (Except Misreading) :=
  Productions.within id (Productions.callDepth text)

/-- Only blanks may be left behind a right-hand side. -/
def whole : Except Misreading (Expr × List Char) → Except Misreading Expr
  | .error m => .error m
  | .ok (e, rest) => if rest.all Text.isBlank then .ok e else .error ⟨.leftover, rest⟩

/-- Reads a whole right-hand side. One closing parenthesis too many is allowed at its end. -/
def parse? (text : List Char) : Except Misreading Expr := whole ((reading text).group text)

def read (production : Production) (text : List Char) :
    Except Misreading (Option Expr × List Char) :=
  match production with
  | .group => ((reading text).group text).map fun (e, rest) => (some e, rest)
  | .alternation => ((reading text).alternation text).map fun (e, rest) => (some e, rest)
  | .sequence => ((reading text).sequence text).map fun (e, rest) => (some e, rest)
  | .difference => (reading text).difference text
  | .quantified => (reading text).quantified text
  | .primary => (reading text).primary text

end Expr

end FlatGrammar
