import FlatGrammar.Breakdown
import FlatGrammar.Rule.Basic
import FlatGrammar.Text.Digit

/-! # Order of rules

Ids order by the number they start with and then by code points, so `2` comes before `2.1`, `2.term1`
and `10`. Sorting keeps rules with equal ids in the order in which they stand. Numbers with too many
digits are not compared.
-/
namespace FlatGrammar

def idLt (a b : String) : Bool :=
  let m := Text.leadingNumber a
  let n := Text.leadingNumber b
  m < n || (m == n && a < b)

variable {α : Type}

def insertById (id : α → String) (a : α) : List α → List α
  | [] => [a]
  | b :: bs => if idLt (id b) (id a) then b :: insertById id a bs else a :: b :: bs

def sortById (id : α → String) (as : List α) : List α := as.foldr (insertById id) []

def lowest? (id : α → String) : List α → Option α
  | [] => none
  | a :: as =>
    match lowest? id as with
    | none => some a
    | some b => if idLt (id b) (id a) then some b else some a

def digitLimit : Nat := 4300

def excessDigits? (id : String) : Option Nat :=
  if digitLimit < Text.leadingDigits id then some (Text.leadingDigits id) else none

/-- What keeps ids from being compared: the first number that is too long. -/
def orderBreakdown? (ids : List String) : Option Breakdown :=
  (ids.findSome? excessDigits?).map .longNumber

def Rule.precedes (r s : Rule) : Bool := idLt r.id s.id

def Rule.precedes? (r s : Rule) : Except Breakdown Bool :=
  Breakdown.guard (orderBreakdown? [r.id, s.id]) (r.precedes s)

end FlatGrammar
