import FlatGrammar.Source.Definition

/-! # Lexemes of a grammar text

A grammar text is cut into lexemes, the largest pieces that belong together when it is divided into
rules. A quoted text, a character class and a comment are taken whole, so nothing inside them starts
a rule. The lexemes cover the text without a gap.
-/
namespace FlatGrammar

inductive LexemeKind where
  | blank
  | comment
  | openComment
  | literal
  | terminals
  | pass
  | header
  | charClass
  | text
  deriving DecidableEq, Repr

structure Lexeme where
  kind : LexemeKind
  text : List Char
  deriving DecidableEq, Repr

def commentLength? : List Char → Option Nat
  | [] => none
  | '*' :: '/' :: _ => some 2
  | _ :: cs => (commentLength? cs).map (· + 1)

/-- The length of a piece on one line up to the closing character, its opening excluded. -/
def closedLength? (closing : Char) : List Char → Option Nat
  | [] => none
  | c :: cs =>
    if c == closing then some 1
    else if c == '\n' then none
    else (closedLength? closing cs).map (· + 1)

/-- A directive counts only if no word character follows it. -/
def startsDirective (name cs : List Char) : Bool :=
  name.isPrefixOf cs && !((cs.drop name.length).head?.any Text.isWord)

def headerLength? (cs : List Char) : Option Nat :=
  match readId? cs with
  | some (id, rest) => if (readSymbol? rest).isSome then some (id.length + 2) else none
  | none => none

def isPlain (c : Char) : Bool :=
  !(Text.isBlank c || c == '/' || c == '@' || c == '[' || c == '\'' || c == '"')

namespace Lexeme

def terminalsName : List Char := "@terminals".toList

def passName : List Char := "@pass".toList

def measure (c : Char) (cs : List Char) : LexemeKind × Nat :=
  if Text.isBlank c then (.blank, 1 + (cs.takeWhile Text.isBlank).length)
  else if isPlain c then (.text, 1 + (cs.takeWhile isPlain).length)
  else if c == '/' then
    match cs with
    | '*' :: body =>
      match commentLength? body with
      | some n => (.comment, n + 2)
      | none => (.openComment, body.length + 2)
    | _ => (.text, 1)
  else if c == '@' then
    if startsDirective terminalsName (c :: cs) then (.terminals, terminalsName.length)
    else if startsDirective passName (c :: cs) then (.pass, passName.length)
    else (.text, 1)
  else if c == '[' then
    match headerLength? (c :: cs), closedLength? ']' cs with
    | some n, _ => (.header, n)
    | none, some n => (.charClass, n + 1)
    | none, none => (.text, 1)
  else
    match closedLength? c cs with
    | some n => (.literal, n + 1)
    | none => (.text, 1)

/-- The lexemes of a text; a lexeme that has been measured ends after `skip` more characters. -/
def scan : Nat → List Char → List Lexeme
  | _, [] => []
  | n + 1, _ :: cs => scan n cs
  | 0, c :: cs =>
    let (kind, length) := measure c cs
    ⟨kind, (c :: cs).take length⟩ :: scan (length - 1) cs

theorem one_le_headerLength {cs : List Char} {n : Nat} (h : headerLength? cs = some n) : 1 ≤ n := by
  unfold headerLength? at h
  split at h
  · split at h
    · have hn := Option.some.inj h
      omega
    · exact absurd h (by simp)
  · exact absurd h (by simp)

theorem one_le_measure (c : Char) (cs : List Char) : 1 ≤ (measure c cs).2 := by
  unfold measure
  split
  · simp
  split
  · simp
  split
  · split
    · split <;> simp
    · simp
  split
  · split
    · decide
    · split <;> decide
  split
  · split
    · rename_i hn
      exact one_le_headerLength hn
    · simp
    · simp
  · split <;> simp

theorem flatMap_text_scan (n : Nat) (cs : List Char) :
    (scan n cs).flatMap Lexeme.text = cs.drop n := by
  induction cs generalizing n with
  | nil => cases n <;> rfl
  | cons c cs ih =>
    cases n with
    | succ n => simp [scan, ih]
    | zero =>
      have h := one_le_measure c cs
      obtain ⟨k, hk⟩ : ∃ k, (measure c cs).2 = k + 1 := ⟨_, (Nat.sub_add_cancel h).symm⟩
      rw [scan, List.flatMap_cons, ih, hk]
      exact List.take_append_drop (k + 1) (c :: cs)

end Lexeme

def lexemes (text : List Char) : List Lexeme := Lexeme.scan 0 text

theorem flatMap_text_lexemes (text : List Char) : (lexemes text).flatMap Lexeme.text = text :=
  Lexeme.flatMap_text_scan 0 text

end FlatGrammar
