import FlatGrammar.Expr.Labelled
import FlatGrammar.Expr.Production

/-! # Traces of productions

A recorder notes where each production starts and what it returns, at the depth of its nested calls.
A production that meets an obstacle returns nothing, and the depth is what it was before it.
-/
namespace FlatGrammar

inductive Event where
  | entered (production : Production) (depth : Nat) (text : List Char)
  | returned (production : Production) (depth : Nat) (value : Option Expr) (rest : List Char)
  deriving DecidableEq, Repr

def Event.depth : Event → Nat
  | .entered _ depth _ => depth
  | .returned _ depth _ _ => depth

def Event.body : Event → String
  | .entered production _ text =>
    production.name ++ "(" ++ Text.quoted (String.ofList text) ++ ")"
  | .returned production _ value rest =>
    "=> " ++ production.name ++ " returned (" ++ Expr.labelledOrNone value ++ ", "
      ++ Text.quoted (String.ofList rest) ++ ")"

def lineMark : Option Int → String
  | some line => "[" ++ toString line ++ "]"
  | none => "[?]"

def Event.text (line : Option Int) (e : Event) : String :=
  lineMark line ++ String.ofList (List.replicate e.depth ' ') ++ e.body

/-- The depth of the calls going on, and the events so far with the latest first. -/
structure Recorder where
  depth : Nat := 0
  events : List Event := []

namespace Recorder

def enter (r : Recorder) (production : Production) (text : List Char) : Recorder :=
  { depth := r.depth + 1, events := .entered production r.depth text :: r.events }

def abandon (r : Recorder) : Recorder := { r with depth := r.depth - 1 }

def leave (r : Recorder) (production : Production) (value : Option Expr) (rest : List Char) :
    Recorder :=
  { depth := r.depth - 1, events := .returned production (r.depth - 1) value rest :: r.events }

end Recorder

abbrev Recording := ExceptT Misreading (StateM Recorder)

def recorded {α : Type} (production : Production) (value : α → Option Expr)
    (read : List Char → Recording (α × List Char)) (text : List Char) :
    Recording (α × List Char) :=
  ExceptT.mk fun r =>
    match read text (r.enter production text) with
    | (.ok (a, rest), after) => (.ok (a, rest), after.leave production (value a) rest)
    | (.error m, after) => (.error m, after.abandon)

def Productions.recorded (p : Productions Recording) : Productions Recording where
  group := FlatGrammar.recorded .group some p.group
  alternation := FlatGrammar.recorded .alternation some p.alternation
  sequence := FlatGrammar.recorded .sequence some p.sequence
  difference := FlatGrammar.recorded .difference id p.difference
  quantified := FlatGrammar.recorded .quantified id p.quantified
  primary := FlatGrammar.recorded .primary id p.primary

namespace Expr

/-- The recorder after the productions have read a text, and what they have made of it. -/
def parseRecorded (text : List Char) (r : Recorder) : Except Misreading Expr × Recorder :=
  let (result, after) :=
    ((Productions.within Productions.recorded (Productions.callDepth text)).group text).run r
  (whole result, after)

def trace (text : List Char) : List Event := (parseRecorded text {}).2.events.reverse

end Expr

end FlatGrammar
