import FlatGrammar.Dump.Turtle
import Mathlib.Data.List.Basic

/-! # Strings of Turtle

A string stands between single quotation marks or between three of them. It is made of characters and of
escapes, and of quotation marks too as long as they are fewer than those around it and do not stand at its
end. Whatever follows a string, there is one way to read it.
-/
namespace FlatGrammar
namespace Turtle

/-- What stands around a string: how many quotation marks, and whether lines may break between them. -/
structure Delimiter where
  quotes : Nat
  breaks : Bool

def short : Delimiter := ⟨1, false⟩

def long : Delimiter := ⟨3, true⟩

def Delimiter.text (d : Delimiter) : List Char := List.replicate d.quotes '"'

/-- The same quotation marks, and lines may break between them. -/
def Delimiter.relaxed (d : Delimiter) : Delimiter := { d with breaks := true }

/-- The character that is written by a backslash and a mark. -/
def escapedChar? : Char → Option Char
  | 't' => some '\t'
  | 'b' => some '\x08'
  | 'n' => some '\n'
  | 'r' => some '\r'
  | 'f' => some '\x0c'
  | '"' => some '"'
  | '\'' => some '\''
  | '\\' => some '\\'
  | _ => none

def hexDigitValue (c : Char) : Nat :=
  if c.isDigit then c.toNat - '0'.toNat
  else if c ≤ 'F' then c.toNat - 'A'.toNat + 10
  else c.toNat - 'a'.toNat + 10

def hexValue (digits : List Char) : Nat := digits.foldl (fun n c => 16 * n + hexDigitValue c) 0

/-- How many digits an escape by code point has. -/
def codeLength? : Char → Option Nat
  | 'u' => some 4
  | 'U' => some 8
  | _ => none

/-- A character of a string as it is written. -/
inductive Piece (d : Delimiter) : List Char → Char → Prop
  | plain {c : Char} (hquote : c ≠ '"') (hbackslash : c ≠ '\\')
      (hbreak : d.breaks ∨ c ≠ '\n' ∧ c ≠ '\r') : Piece d [c] c
  | escape {mark c : Char} (h : escapedChar? mark = some c) : Piece d ['\\', mark] c
  | code {mark c : Char} {digits : List Char} (hlength : codeLength? mark = some digits.length)
      (hall : ∀ x ∈ digits, isHexDigit x) (hc : hexValue digits = c.toNat) :
      Piece d ('\\' :: mark :: digits) c

/-- What follows the opening of a string, its end included, and the text that it stands for. -/
inductive Tail (d : Delimiter) : List Char → List Char → Prop
  | close : Tail d d.text []
  | piece {n : Nat} {cs rest value : List Char} {c : Char} (hn : n < d.quotes) (h : Piece d cs c)
      (hrest : Tail d rest value) :
      Tail d (List.replicate n '"' ++ (cs ++ rest)) (List.replicate n '"' ++ c :: value)

/-- A whole string and the text that it stands for. -/
inductive IsString (d : Delimiter) : List Char → List Char → Prop
  | intro {tail value : List Char} (h : Tail d tail value) : IsString d (d.text ++ tail) value

theorem Tail.single {d : Delimiter} {cs rest value : List Char} {c : Char} (hd : 0 < d.quotes)
    (h : Piece d cs c) (hrest : Tail d rest value) : Tail d (cs ++ rest) (c :: value) :=
  .piece hd h hrest

section Unique
variable {d d' : Delimiter} {cs cs' rest rest' value value' : List Char} {c c' : Char}

theorem Piece.exists_eq_cons (h : Piece d cs c) : ∃ x xs, cs = x :: xs ∧ x ≠ '"' := by
  cases h with
  | plain hquote => exact ⟨_, _, rfl, hquote⟩
  | escape => exact ⟨_, _, rfl, by decide⟩
  | code => exact ⟨_, _, rfl, by decide⟩

/-- The start of a text tells the character, whatever may stand around the string. -/
theorem Piece.unique (h : Piece d cs c) (h' : Piece d' cs' c') (heq : cs ++ rest = cs' ++ rest') :
    cs = cs' ∧ c = c' := by
  have hmark {mark c : Char} {n : Nat} (hc : escapedChar? mark = some c)
      (hn : codeLength? mark = some n) : False := by
    have hnone : escapedChar? 'u' = none ∧ escapedChar? 'U' = none := by decide
    unfold codeLength? at hn
    split at hn
    · cases hnone.1.symm.trans hc
    · cases hnone.2.symm.trans hc
    · cases hn
  cases h with
  | plain hquote hbackslash =>
    cases h' with
    | plain =>
      obtain ⟨rfl, -⟩ := List.cons.inj heq
      exact ⟨rfl, rfl⟩
    | escape => exact absurd (List.cons.inj heq).1 hbackslash
    | code => exact absurd (List.cons.inj heq).1 hbackslash
  | escape hc =>
    cases h' with
    | plain _ hbackslash => exact absurd (List.cons.inj heq).1.symm hbackslash
    | escape hc' =>
      obtain ⟨rfl, -⟩ := List.cons.inj (List.cons.inj heq).2
      obtain rfl := Option.some.inj (hc.symm.trans hc')
      exact ⟨rfl, rfl⟩
    | code hlength =>
      obtain ⟨rfl, -⟩ := List.cons.inj (List.cons.inj heq).2
      exact (hmark hc hlength).elim
  | code hlength _ hc =>
    cases h' with
    | plain _ hbackslash => exact absurd (List.cons.inj heq).1.symm hbackslash
    | escape hc' =>
      obtain ⟨rfl, -⟩ := List.cons.inj (List.cons.inj heq).2
      exact (hmark hc' hlength).elim
    | code hlength' _ hc' =>
      obtain ⟨rfl, hdigits⟩ := List.cons.inj (List.cons.inj heq).2
      have hsame := Option.some.inj (hlength.symm.trans hlength')
      obtain ⟨rfl, -⟩ := List.append_inj hdigits hsame
      exact ⟨rfl, Char.toNat_inj.mp (hc.symm.trans hc')⟩

/-- Quotation marks in front of something else can be counted. -/
theorem replicate_append_inj {x y : Char} {m n : Nat} (hx : x ≠ '"') (hy : y ≠ '"')
    (heq : List.replicate m '"' ++ x :: rest = List.replicate n '"' ++ y :: rest') :
    m = n ∧ x :: rest = y :: rest' := by
  have hcount (k : Nat) {z : Char} (hz : z ≠ '"') (zs : List Char) :
      ((List.replicate k '"' ++ z :: zs).takeWhile (· == '"')).length = k := by
    rw [List.takeWhile_append_of_pos, List.takeWhile_cons_of_neg]
    · simp
    · simpa using hz
    · simp
  have hlength := congrArg (fun cs => (cs.takeWhile (· == '"')).length) heq
  rw [hcount m hx, hcount n hy] at hlength
  subst hlength
  exact ⟨rfl, List.append_cancel_left heq⟩

theorem Tail.unique (h : Tail d cs value) (h' : Tail d cs' value')
    (heq : cs ++ rest = cs' ++ rest') : cs = cs' ∧ value = value' := by
  -- A character stands behind fewer quotation marks than those that close the string.
  have hclose {n : Nat} {ds more after : List Char} {c : Char} (hn : n < d.quotes)
      (hpiece : Piece d ds c) (heq : d.text ++ after = List.replicate n '"' ++ (ds ++ more)) :
      False := by
    obtain ⟨x, xs, rfl, hx⟩ := hpiece.exists_eq_cons
    have hright : (List.replicate n '"' ++ (x :: xs ++ more))[n]? = some x := by simp
    have hleft : (d.text ++ after)[n]? = some '"' := by
      rw [Delimiter.text, List.getElem?_append_left (by simpa using hn)]
      exact List.getElem?_replicate_of_lt hn
    rw [heq, hright] at hleft
    exact hx (Option.some.inj hleft)
  induction h generalizing cs' value' with
  | close =>
    cases h' with
    | close => exact ⟨rfl, rfl⟩
    | piece hn hpiece =>
      rw [List.append_assoc, List.append_assoc] at heq
      exact (hclose hn hpiece heq).elim
  | piece hn hpiece _ ih =>
    cases h' with
    | close =>
      rw [List.append_assoc, List.append_assoc] at heq
      exact (hclose hn hpiece heq.symm).elim
    | piece hn' hpiece' hrest' =>
      obtain ⟨x, xs, rfl, hx⟩ := hpiece.exists_eq_cons
      obtain ⟨y, ys, rfl, hy⟩ := hpiece'.exists_eq_cons
      simp only [List.append_assoc, List.cons_append] at heq
      obtain ⟨rfl, hsame⟩ := replicate_append_inj hx hy heq
      rw [← List.cons_append, ← List.cons_append] at hsame
      obtain ⟨hcs, rfl⟩ := hpiece.unique hpiece' hsame
      obtain ⟨rfl, rfl⟩ := List.cons.inj hcs
      obtain ⟨rfl, rfl⟩ := ih hrest' (List.append_cancel_left hsame)
      exact ⟨rfl, rfl⟩

/-- A string ends where it ends, and stands for one text. -/
theorem IsString.unique (h : IsString d cs value) (h' : IsString d cs' value')
    (heq : cs ++ rest = cs' ++ rest') : cs = cs' ∧ value = value' := by
  cases h with
  | intro htail =>
    cases h' with
    | intro htail' =>
      rw [List.append_assoc, List.append_assoc] at heq
      obtain ⟨rfl, rfl⟩ := htail.unique htail' (List.append_cancel_left heq)
      exact ⟨rfl, rfl⟩

end Unique

section Breaks
variable {d : Delimiter} {x c : Char} {cs value : List Char}

theorem Piece.relaxed (h : Piece d cs c) : Piece d.relaxed cs c := by
  cases h with
  | plain hquote hbackslash => exact .plain hquote hbackslash (.inl rfl)
  | escape h => exact .escape h
  | code hlength hall hc => exact .code hlength hall hc

theorem Tail.relaxed (h : Tail d cs value) : Tail d.relaxed cs value := by
  induction h with
  | close => exact .close (d := d.relaxed)
  | piece hn h _ ih => exact .piece (d := d.relaxed) hn h.relaxed ih

theorem IsString.relaxed (h : IsString d cs value) : IsString d.relaxed cs value := by
  cases h with
  | intro h => exact .intro (d := d.relaxed) h.relaxed

theorem Piece.not_mem_of_break (h : Piece d cs c) (hd : d.breaks = false) (hx : x = '\n' ∨ x = '\r') :
    x ∉ cs := by
  have hmarks : escapedChar? x = none ∧ codeLength? x = none ∧ isHexDigit x = false ∧ x ≠ '\\' := by
    rcases hx with rfl | rfl <;> decide
  obtain ⟨hescape, hcode, hdigit, hback⟩ := hmarks
  intro hmem
  cases h with
  | plain _ _ hbreak =>
    obtain rfl := List.mem_singleton.mp hmem
    rcases hbreak with hbreak | ⟨hfeed, hreturn⟩
    · rw [hd] at hbreak
      cases hbreak
    · exact hx.elim hfeed hreturn
  | escape h =>
    obtain rfl := List.mem_singleton.mp ((List.mem_cons.mp hmem).resolve_left hback)
    cases hescape.symm.trans h
  | code hlength hall =>
    rcases List.mem_cons.mp ((List.mem_cons.mp hmem).resolve_left hback) with rfl | hmem
    · cases hcode.symm.trans hlength
    · have hhex := hall x hmem
      rw [hdigit] at hhex
      cases hhex

theorem Tail.not_mem_of_break (h : Tail d cs value) (hd : d.breaks = false)
    (hx : x = '\n' ∨ x = '\r') : x ∉ cs := by
  have hquotes (n : Nat) : x ∉ List.replicate n '"' := by
    intro hmem
    obtain rfl := List.eq_of_mem_replicate hmem
    exact absurd hx (by decide)
  induction h with
  | close => exact hquotes _
  | piece _ h _ ih =>
    simp only [List.mem_append, not_or]
    exact ⟨hquotes _, h.not_mem_of_break hd hx, ih⟩

theorem IsString.not_mem_of_break (h : IsString d cs value) (hd : d.breaks = false)
    (hx : x = '\n' ∨ x = '\r') : x ∉ cs := by
  cases h with
  | intro h =>
    refine fun hmem => (List.mem_append.mp hmem).elim (fun hquote => ?_) (h.not_mem_of_break hd hx)
    obtain rfl := List.eq_of_mem_replicate hquote
    exact absurd hx (by decide)

end Breaks

end Turtle

end FlatGrammar
