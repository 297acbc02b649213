import FlatGrammar.Text.Quoted
import Mathlib.Algebra.Group.Nat.Defs
import Mathlib.Tactic.SplitIfs

/-! # Legible texts

A value is legible in what is written for it if no other value starts in the same way, whatever follows.
Values that are legible are so one after another, up to a character that none of them starts with. Quoted
texts are legible, since escapes are.
-/
namespace FlatGrammar

/-- There is only one way to divide a list where a property of its beginnings fails first. -/
theorem eq_of_append_cons {α : Type} {P : List α → Prop} {before before' after after' : List α}
    {d d' : α} (heq : before ++ d :: after = before' ++ d' :: after') (hbefore : P before)
    (hbefore' : P before') (h : ∀ rest, ¬P (before ++ d :: rest))
    (h' : ∀ rest, ¬P (before' ++ d' :: rest)) : before = before' ∧ d = d' := by
  obtain ⟨ds, rfl, hrest⟩ | ⟨ds, rfl, hrest⟩ := List.append_eq_append_iff.mp heq
  · cases ds with
    | nil => exact ⟨(List.append_nil before).symm, (List.cons.inj hrest).1⟩
    | cons e ds =>
      obtain ⟨rfl, -⟩ := List.cons.inj hrest
      exact absurd hbefore' (h ds)
  · cases ds with
    | nil => exact ⟨List.append_nil before', (List.cons.inj hrest).1.symm⟩
    | cons e ds =>
      obtain ⟨rfl, -⟩ := List.cons.inj hrest
      exact absurd hbefore (h' ds)

/-- What is written for a value tells it and its own end, whatever follows. -/
def Legible {α : Type} (write : α → List Char) (a : α) : Prop :=
  ∀ ⦃b : α⦄ ⦃xs ys : List Char⦄, write a ++ xs = write b ++ ys → a = b ∧ xs = ys

section Written
variable {α : Type} {write : α → List Char} {a : α} {as bs : List α} {stop : Char} {xs ys : List Char}

theorem Legible.append_left (h : Legible write a) (front : List Char) :
    Legible (fun a => front ++ write a) a := by
  intro b xs ys heq
  rw [List.append_assoc, List.append_assoc] at heq
  exact h (List.append_cancel_left heq)

theorem legible_option {writeOption : Option α → List Char} (hsome : ∀ a, writeOption (some a) = write a)
    (h : ∀ a, Legible write a) (hnone : ∀ a xs ys, write a ++ xs ≠ writeOption none ++ ys)
    (a? : Option α) : Legible writeOption a? := by
  intro b? xs ys heq
  cases a? with
  | none =>
    cases b? with
    | none => exact ⟨rfl, List.append_cancel_left heq⟩
    | some b =>
      rw [hsome] at heq
      exact absurd heq.symm (hnone b ys xs)
  | some a =>
    rw [hsome] at heq
    cases b? with
    | none => exact absurd heq (hnone a xs ys)
    | some b =>
      rw [hsome] at heq
      obtain ⟨rfl, hrest⟩ := h a heq
      exact ⟨rfl, hrest⟩

/-- The end of legible values is where the next one does not start. -/
theorem eq_of_flatMap_append (has : ∀ a ∈ as, Legible write a)
    (hstart : ∀ a, ∃ c cs, write a = c :: cs ∧ c ≠ stop)
    (h : as.flatMap write ++ stop :: xs = bs.flatMap write ++ stop :: ys) : as = bs ∧ xs = ys := by
  induction as generalizing bs with
  | nil =>
    cases bs with
    | nil => exact ⟨rfl, (List.cons.inj h).2⟩
    | cons b bs =>
      obtain ⟨c, cs, hb, hc⟩ := hstart b
      rw [List.flatMap_cons, hb] at h
      exact absurd (List.cons.inj h).1.symm hc
  | cons a as ih =>
    obtain ⟨ha, has⟩ := List.forall_mem_cons.mp has
    cases bs with
    | nil =>
      obtain ⟨c, cs, hwrite, hc⟩ := hstart a
      rw [List.flatMap_cons, hwrite] at h
      exact absurd (List.cons.inj h).1 hc
    | cons b bs =>
      rw [List.flatMap_cons, List.flatMap_cons, List.append_assoc, List.append_assoc] at h
      obtain ⟨rfl, hrest⟩ := ha h
      obtain ⟨rfl, hxs⟩ := ih has hrest
      exact ⟨rfl, hxs⟩

end Written

/-- With a separator in front, texts that are joined are written one after another. -/
theorem append_toList_intercalate (separator : String) {texts : List String} (h : texts ≠ []) :
    separator.toList ++ (separator.intercalate texts).toList =
      texts.flatMap fun text => separator.toList ++ text.toList := by
  induction texts with
  | nil => exact absurd rfl h
  | cons text texts ih =>
    cases texts with
    | nil => simp
    | cons other texts =>
      rw [List.flatMap_cons, ← ih nofun, String.intercalate_cons_cons]
      simp

namespace Text

theorem length_hexDigits (width n : Nat) : (hexDigits width n).length = width := by simp [hexDigits]

theorem hexDigits_succ (width n : Nat) :
    hexDigits (width + 1) n = Nat.digitChar (n / 16 ^ width % 16) :: hexDigits width n := by
  simp [hexDigits, List.range_succ]

theorem digitChar_inj {m n : Nat} (hm : m < 16) (hn : n < 16) (h : Nat.digitChar m = Nat.digitChar n) :
    m = n := by
  have hall : ∀ m < 16, ∀ n < 16, Nat.digitChar m = Nat.digitChar n → m = n := by decide
  exact hall m hm n hn h

theorem mod_eq_of_hexDigits_eq {width m n : Nat} (h : hexDigits width m = hexDigits width n) :
    m % 16 ^ width = n % 16 ^ width := by
  induction width with
  | zero => rw [Nat.pow_zero, Nat.mod_one, Nat.mod_one]
  | succ width ih =>
    rw [hexDigits_succ, hexDigits_succ] at h
    obtain ⟨hfirst, hrest⟩ := List.cons.inj h
    have hdigit := digitChar_inj (Nat.mod_lt _ (by decide)) (Nat.mod_lt _ (by decide)) hfirst
    rw [Nat.mod_pow_succ, Nat.mod_pow_succ, ih hrest, hdigit]

/-- The character that a backslash and a mark stand for. -/
def marked? : Char → Option Char
  | '\\' => some '\\'
  | '\'' => some '\''
  | '"' => some '"'
  | 'n' => some '\n'
  | 'r' => some '\r'
  | 't' => some '\t'
  | _ => none

/-- How many digits follow a mark. -/
def codeWidth? : Char → Option Nat
  | 'x' => some 2
  | 'u' => some 4
  | 'U' => some 8
  | _ => none

/-- A character between quotes as it is written. -/
inductive Shown : Char → List Char → Prop
  | plain {c : Char} (hc : c ≠ '\\') : Shown c [c]
  | mark {c mark : Char} (h : marked? mark = some c) : Shown c ['\\', mark]
  | code {c mark : Char} {width : Nat} (hmarked : marked? mark = none) (h : codeWidth? mark = some width)
      (hc : c.toNat < 16 ^ width) : Shown c ('\\' :: mark :: hexDigits width c.toNat)

theorem Shown.unique {c d : Char} {cs ds xs ys : List Char} (h : Shown c cs) (h' : Shown d ds)
    (heq : cs ++ xs = ds ++ ys) : c = d ∧ xs = ys := by
  cases h with
  | plain hc =>
    cases h' with
    | plain => exact List.cons.inj heq
    | mark | code => exact absurd (List.cons.inj heq).1 hc
  | mark hmark =>
    cases h' with
    | plain hd => exact absurd (List.cons.inj heq).1.symm hd
    | mark hmark' =>
      obtain ⟨rfl, hrest⟩ := List.cons.inj (List.cons.inj heq).2
      exact ⟨Option.some.inj (hmark.symm.trans hmark'), hrest⟩
    | code hnone =>
      obtain ⟨rfl, -⟩ := List.cons.inj (List.cons.inj heq).2
      cases hmark.symm.trans hnone
  | @code mark width hnone hwidth hc =>
    cases h' with
    | plain hd => exact absurd (List.cons.inj heq).1.symm hd
    | mark hmark =>
      obtain ⟨rfl, -⟩ := List.cons.inj (List.cons.inj heq).2
      cases hmark.symm.trans hnone
    | code _ hwidth' hd =>
      obtain ⟨rfl, hrest⟩ := List.cons.inj (List.cons.inj heq).2
      obtain rfl := Option.some.inj (hwidth.symm.trans hwidth')
      have hlength := length_hexDigits width
      obtain ⟨hdigits, hrest⟩ := List.append_inj hrest ((hlength _).trans (hlength _).symm)
      have hmod := mod_eq_of_hexDigits_eq hdigits
      rw [Nat.mod_eq_of_lt hc, Nat.mod_eq_of_lt hd] at hmod
      exact ⟨Char.toNat_inj.mp hmod, hrest⟩

section Quote
variable {quote : Char} (hquote : quote = '\'' ∨ quote = '"')
include hquote

theorem shown_escapeChar (c : Char) : Shown c (escapeChar quote c) := by
  have hvalid : c.toNat < 16 ^ 8 := c.val.toNat_lt
  unfold escapeChar
  split_ifs with hself hn hr ht _ hx hu
  · obtain rfl | rfl : c = quote ∨ c = '\\' := by simpa using hself
    · rcases hquote with rfl | rfl
      · exact .mark rfl
      · exact .mark rfl
    · exact .mark rfl
  · rw [beq_iff_eq.mp hn]
    exact .mark rfl
  · rw [beq_iff_eq.mp hr]
    exact .mark rfl
  · rw [beq_iff_eq.mp ht]
    exact .mark rfl
  · exact .plain (by rintro rfl; simp at hself)
  · exact .code rfl rfl hx
  · exact .code rfl rfl hu
  · exact .code rfl rfl hvalid

/-- No character is written with the quote in front. -/
theorem exists_escapeChar_eq_cons (c : Char) : ∃ d ds, escapeChar quote c = d :: ds ∧ d ≠ quote := by
  have hbackslash : '\\' ≠ quote := by rcases hquote with rfl | rfl <;> decide
  unfold escapeChar
  split_ifs with hself
  case pos => exact ⟨_, _, rfl, hbackslash⟩
  all_goals first
    | exact ⟨_, _, rfl, hbackslash⟩
    | exact ⟨_, _, rfl, by rintro rfl; simp at hself⟩

end Quote

theorem quoteFor_eq_or (cs : List Char) : quoteFor cs = '\'' ∨ quoteFor cs = '"' := by
  unfold quoteFor
  split_ifs
  · exact .inr rfl
  · exact .inl rfl

theorem legible_quoteChars (cs : List Char) : Legible quoteChars cs := by
  intro ds xs ys h
  have hquotes := quoteFor_eq_or cs
  simp only [quoteChars, List.cons_append, List.append_assoc, List.nil_append] at h
  obtain ⟨hquote, h⟩ := List.cons.inj h
  rw [← hquote] at h
  refine eq_of_flatMap_append (fun c _ d _ _ heq => ?_) (exists_escapeChar_eq_cons hquotes) h
  exact (shown_escapeChar hquotes c).unique (shown_escapeChar hquotes d) heq

theorem legible_quoted (text : String) : Legible (fun text => (quoted text).toList) text := by
  intro other xs ys h
  simp only [quoted, String.toList_ofList] at h
  obtain ⟨htext, hrest⟩ := legible_quoteChars _ h
  exact ⟨String.toList_inj.mp htext, hrest⟩

theorem legible_quotedOrNone (text : Option String) :
    Legible (fun text => (quotedOrNone text).toList) text := by
  have hsome (text : String) : (quotedOrNone (some text)).toList = (quoted text).toList := rfl
  refine legible_option hsome legible_quoted (fun text xs ys h => ?_) text
  simp only [quoted, String.toList_ofList, quoteChars, List.cons_append] at h
  rcases quoteFor_eq_or text.toList with hquote | hquote
  all_goals
    rw [hquote] at h
    cases (List.cons.inj h).1

end Text

end FlatGrammar
