import FlatGrammar.Proofs.Expr.Fold
import FlatGrammar.Proofs.Expr.GroupEnds
import Mathlib.Data.List.DropRight

/-! # Writing right-hand sides

A right-hand side is written as its tokens with a space between neighbours, and operands that are
operators themselves stand in parentheses. In normal form, which is the form in which right-hand sides
are read, it is read back as it was. What follows a token is blank, so no token runs on into the next.
-/
namespace FlatGrammar

section Blanks
open Text

def blankCodes : List Nat :=
  List.range' 9 5 ++ List.range' 28 5 ++ List.range' 0x2000 11 ++
    [0x85, 0xa0, 0x1680, 0x2028, 0x2029, 0x202f, 0x205f, 0x3000]

theorem toNat_mem_blankCodes {c : Char} (h : isBlank c) : c.toNat ∈ blankCodes := by
  simp [isBlank, blankCodes, List.mem_range'_1] at h ⊢
  omega

theorem isBlank_eq_false_of_isWord {c : Char} (h : isWord c) : isBlank c = false := by
  have hall : ∀ n ∈ blankCodes, isWord (Char.ofNat n) = false := by decide +kernel
  by_contra hblank
  have hword := hall c.toNat (toNat_mem_blankCodes (by simpa using hblank))
  rw [Char.ofNat_toNat, h] at hword
  cases hword

theorem ne_of_isWord {c d : Char} (h : isWord c) (hd : isWord d = false) : c ≠ d := by
  rintro rfl
  rw [h] at hd
  cases hd

theorem isWord_of_isLetter {c : Char} (h : isLetter c) : isWord c := by simp [isWord, h]

theorem isWord_of_isHexDigit {c : Char} (h : isHexDigit c) : isWord c := by
  simp only [isHexDigit, Bool.or_eq_true, Bool.and_eq_true, decide_eq_true_eq] at h
  rcases h with (hdigit | ⟨hle, hge⟩) | ⟨hle, hge⟩
  · simp [isWord, isNumeral, hdigit]
  · have hlower : c.isLower :=
      Bool.and_eq_true_iff.mpr ⟨decide_eq_true hle, decide_eq_true (UInt32.le_trans hge (by decide))⟩
    have halpha : c.isAlpha := Bool.or_eq_true_iff.mpr (.inr hlower)
    exact isWord_of_isLetter (by simp [isLetter, halpha])
  · have hupper : c.isUpper := decide_eq_true ⟨hle, UInt32.le_trans hge (by decide)⟩
    have halpha : c.isAlpha := Bool.or_eq_true_iff.mpr (.inl hupper)
    exact isWord_of_isLetter (by simp [isLetter, halpha])

/-- Nothing but a blank stands at the start. -/
def StartsBlank (cs : List Char) : Prop := ∀ c ∈ cs.head?, isBlank c

theorem forall_head?_cons {α : Type} {P : α → Prop} {x : α} (h : P x) (xs : List α) :
    ∀ y ∈ (x :: xs).head?, P y := by
  intro y hy
  obtain rfl := Option.some.inj hy
  exact h

theorem takeWhile_run {α : Type} {p : α → Bool} {xs rest : List α} (hall : ∀ x ∈ xs, p x)
    (hrest : ∀ x ∈ rest.head?, p x = false) :
    (xs ++ rest).takeWhile p = xs ∧ (xs ++ rest).dropWhile p = rest := by
  rw [List.takeWhile_append_of_pos hall, List.dropWhile_append_of_pos hall]
  cases rest with
  | nil => simp
  | cons x rest => simp [hrest x rfl]

theorem StartsBlank.isWord_eq_false {rest : List Char} (h : StartsBlank rest) :
    ∀ c ∈ rest.head?, isWord c = false := by
  intro c hc
  by_contra hword
  have hblank := isBlank_eq_false_of_isWord (by simpa using hword)
  rw [h c hc] at hblank
  cases hblank

end Blanks

/-- The quote for each literal: one that does not occur in it, if there is one. -/
structure Quoting where
  quote : String → Char
  isQuote (text : String) : quote text = '\'' ∨ quote text = '"'
  notMem (text : String) (h : '\'' ∉ text.toList ∨ '"' ∉ text.toList) : quote text ∉ text.toList

def Quoting.preferDouble : Quoting where
  quote text := if '"' ∈ text.toList then '\'' else '"'
  isQuote text := by
    split
    case isTrue => exact .inl rfl
    case isFalse => exact .inr rfl
  notMem text h := by
    split
    case isTrue hmem => exact h.resolve_right (not_not.mpr hmem)
    case isFalse hmem => exact hmem

namespace Token

def written (q : Quoting) : Token → String
  | literal text => String.singleton (q.quote text) ++ text ++ String.singleton (q.quote text)
  | charClass spec => "[" ++ spec ++ "]"
  | hexRef spec => spec
  | symbol name => name
  | atRef name => "@" ++ name
  | finish => ""
  | t => t.kind

def isHexText : List Char → Bool
  | '#' :: 'x' :: d :: ds => (d :: ds).all isHexDigit
  | _ => false

def isName : List Char → Bool
  | c :: cs => (Text.isLetter c || c == '_') && cs.all Text.isWord
  | [] => false

/-- The tokens that stand for themselves when they are written. -/
def isWritable : Token → Bool
  | literal text =>
    !text.toList.contains '\n' && (!text.toList.contains '\'' || !text.toList.contains '"')
  | charClass spec => !spec.toList.contains ']' && !spec.toList.contains '\n'
  | hexRef spec => isHexText spec.toList
  | symbol name => isName name.toList
  | atRef _ => false
  | finish => false
  | _ => true

/-- The tokens that are read as they are written, over the ends of lines too. -/
def isReadable : Token → Bool
  | literal text => !text.toList.contains '\'' || !text.toList.contains '"'
  | charClass spec => !spec.toList.contains ']'
  | t => t.isWritable

/-- The text behind a token does not go on with it. -/
def Stops : Token → List Char → Prop
  | literal _, rest => ∀ c ∈ rest.head?, c ≠ '\'' ∧ c ≠ '"'
  | hexRef _, rest => ∀ c ∈ rest.head?, Text.isWord c = false
  | symbol _, rest => ∀ c ∈ rest.head?, Text.isWord c = false
  | _, _ => True

end Token

section Tokens
variable {t : Token} {rest : List Char}

namespace Token

theorem isWritable_literal_iff {text : String} : (literal text).isWritable ↔
    '\n' ∉ text.toList ∧ ('\'' ∉ text.toList ∨ '"' ∉ text.toList) := by
  simp [isWritable]

theorem isWritable_charClass_iff {spec : String} : (charClass spec).isWritable ↔
    ']' ∉ spec.toList ∧ '\n' ∉ spec.toList := by
  simp [isWritable]

theorem isReadable_literal_iff {text : String} : (literal text).isReadable ↔
    '\'' ∉ text.toList ∨ '"' ∉ text.toList := by
  simp [isReadable]

theorem isReadable_charClass_iff {spec : String} : (charClass spec).isReadable ↔
    ']' ∉ spec.toList := by
  simp [isReadable]

theorem isReadable_of_isWritable (h : t.isWritable) : t.isReadable := by
  cases t with
  | literal text => exact isReadable_literal_iff.mpr (isWritable_literal_iff.mp h).2
  | charClass spec => exact isReadable_charClass_iff.mpr (isWritable_charClass_iff.mp h).1
  | _ => exact h

theorem isHexText_iff {cs : List Char} : isHexText cs ↔
    ∃ ds, ds ≠ [] ∧ (∀ d ∈ ds, isHexDigit d) ∧ cs = '#' :: 'x' :: ds := by
  unfold isHexText
  constructor
  · intro h
    split at h
    case h_1 d ds => exact ⟨d :: ds, nofun, List.all_eq_true.mp h, rfl⟩
    case h_2 => cases h
  · rintro ⟨ds, hne, hall, rfl⟩
    obtain ⟨d, ds, rfl⟩ := List.exists_cons_of_ne_nil hne
    exact List.all_eq_true.mpr hall

theorem isName_iff {cs : List Char} : isName cs ↔
    ∃ c ds, (Text.isLetter c || c == '_') ∧ (∀ d ∈ ds, Text.isWord d) ∧ cs = c :: ds := by
  cases cs with
  | nil => simp [isName]
  | cons d ds =>
    rw [isName, Bool.and_eq_true_iff, List.all_eq_true]
    constructor
    · rintro ⟨hd, hds⟩
      exact ⟨d, ds, hd, hds, rfl⟩
    · rintro ⟨c, cs, hc, hcs, heq⟩
      obtain ⟨rfl, rfl⟩ := List.cons.inj heq
      exact ⟨hc, hcs⟩

theorem isWord_of_isStart {c : Char} (hc : (Text.isLetter c || c == '_') = true) : Text.isWord c := by
  rcases Bool.or_eq_true_iff.mp hc with hletter | hunderscore
  · exact isWord_of_isLetter hletter
  · simp [Text.isWord, hunderscore]

theorem eq_of_operator? {c : Char} (h : operator? c = some t) :
    c = '-' ∨ c = '?' ∨ c = '|' ∨ c = '+' ∨ c = '*' ∨ c = '(' ∨ c = ')' := by
  unfold operator? at h
  split at h
  case h_8 => cases h
  all_goals decide

section Spelling
variable (q : Quoting)

theorem toList_written_literal (text : String) : ((literal text).written q).toList =
    q.quote text :: (text.toList ++ [q.quote text]) := by
  simp [written]

theorem toList_written_charClass (spec : String) :
    ((charClass spec).written q).toList = '[' :: (spec.toList ++ [']']) := by
  simp [written]

theorem toList_written_operator {c : Char} (h : operator? c = some t) :
    (t.written q).toList = [c] := by
  rcases eq_of_operator? h with rfl | rfl | rfl | rfl | rfl | rfl | rfl
  all_goals
    obtain rfl := Option.some.inj h
    simp [written, kind]

end Spelling

end Token

theorem splitAtChar_append {c : Char} {inner : List Char} (h : c ∉ inner) :
    splitAtChar c (inner ++ c :: rest) = some (inner, rest) := by
  have hall : ∀ d ∈ inner, (d != c) = true := by
    intro d hd
    have hne : d ≠ c := fun heq => h (heq ▸ hd)
    simpa using hne
  have hstop : ∀ d ∈ (c :: rest).head?, (d != c) = false := by simp
  obtain ⟨htake, hdrop⟩ := takeWhile_run hall hstop
  rw [splitAtChar, htake, hdrop]

theorem next?_of_not_isBlank {c : Char} (h : Text.isBlank c = false) (cs : List Char) :
    Token.next? (c :: cs) = Token.read c cs := by
  simp [Token.next?, Text.trimStart, h]

theorem next?_literal {q : Quoting} {text : String} (h : (Token.literal text).isReadable)
    (hrest : (Token.literal text).Stops rest) :
    Token.next? (((Token.literal text).written q).toList ++ rest) = .ok (.literal text, rest) := by
  let c := q.quote text
  have hc : c = '\'' ∨ c = '"' := q.isQuote text
  have hmem : c ∉ text.toList := q.notMem text (Token.isReadable_literal_iff.mp h)
  have hblank : Text.isBlank c = false := by rcases hc with hc | hc <;> rw [hc] <;> decide
  have hquote : (c == '"' || c == '\'') = true := by rcases hc with hc | hc <;> rw [hc] <;> decide
  have hnext : rest.head? ≠ some c := by
    intro hhead
    obtain ⟨hsingle, hdouble⟩ := hrest c hhead
    exact hc.elim hsingle hdouble
  have hlist : ((Token.literal text).written q).toList ++ rest = c :: (text.toList ++ c :: rest) := by
    simp [Token.toList_written_literal, c]
  rw [hlist, next?_of_not_isBlank hblank, Token.read, if_pos hquote, Token.readLiteral,
    splitAtChar_append hmem]
  simp [hnext]

theorem next?_charClass {q : Quoting} {spec : String} (h : (Token.charClass spec).isReadable) :
    Token.next? (((Token.charClass spec).written q).toList ++ rest) = .ok (.charClass spec, rest) := by
  have hmem : ']' ∉ spec.toList := Token.isReadable_charClass_iff.mp h
  have hlist : ((Token.charClass spec).written q).toList ++ rest =
      '[' :: (spec.toList ++ ']' :: rest) := by
    simp [Token.toList_written_charClass]
  have hread : Token.read '[' (spec.toList ++ ']' :: rest) =
      Token.readCharClass (spec.toList ++ ']' :: rest) := rfl
  rw [hlist, next?_of_not_isBlank (by decide), hread, Token.readCharClass, splitAtChar_append hmem]
  simp

theorem next?_hexRef {q : Quoting} {spec : String} (h : (Token.hexRef spec).isReadable)
    (hrest : (Token.hexRef spec).Stops rest) :
    Token.next? (((Token.hexRef spec).written q).toList ++ rest) = .ok (.hexRef spec, rest) := by
  obtain ⟨ds, hne, hall, hspec⟩ := Token.isHexText_iff.mp h
  have hstop : ∀ c ∈ rest.head?, isHexDigit c = false := fun c hc =>
    Bool.eq_false_iff.mpr fun hhex => by
      have hword := isWord_of_isHexDigit hhex
      rw [hrest c hc] at hword
      cases hword
  obtain ⟨htake, hdrop⟩ := takeWhile_run hall hstop
  obtain ⟨d, ds, rfl⟩ := List.exists_cons_of_ne_nil hne
  have hread : Token.read '#' ('x' :: (d :: ds ++ rest)) = Token.readHexRef ('x' :: (d :: ds ++ rest)) :=
    rfl
  rw [Token.written, hspec, List.cons_append, next?_of_not_isBlank (by decide), List.cons_append,
    hread, Token.readHexRef]
  simp only [htake, hdrop, ← hspec, String.ofList_toList]

theorem next?_symbol {q : Quoting} {name : String} (h : (Token.symbol name).isReadable)
    (hrest : (Token.symbol name).Stops rest) :
    Token.next? (((Token.symbol name).written q).toList ++ rest) = .ok (.symbol name, rest) := by
  obtain ⟨c, cs, hc, hcs, hname⟩ := Token.isName_iff.mp h
  have hword := Token.isWord_of_isStart hc
  have hne : ∀ d, Text.isWord d = false → (c == d) = false := fun d hd =>
    beq_false_of_ne (ne_of_isWord hword hd)
  have hquote : (c == '"' || c == '\'') = false := by
    rw [hne '"' (by decide), hne '\'' (by decide)]
    rfl
  have hclass : (c == '[') = false := hne '[' (by decide)
  have hhex : (c == '#') = false := hne '#' (by decide)
  obtain ⟨htake, hdrop⟩ := takeWhile_run hcs hrest
  rw [Token.written, hname, List.cons_append, next?_of_not_isBlank (isBlank_eq_false_of_isWord hword),
    Token.read]
  simp only [hquote, hclass, hhex, hc, htake, hdrop, ← hname, String.ofList_toList]
  rfl

theorem next?_operator {c : Char} (h : Token.operator? c = some t) (rest : List Char) :
    Token.next? (c :: rest) = .ok (t, rest) := by
  have hc : Text.isBlank c = false ∧ (c == '"' || c == '\'') = false ∧ (c == '[') = false ∧
      (c == '#') = false ∧ (Text.isLetter c || c == '_') = false ∧ (c == '@') = false := by
    rcases Token.eq_of_operator? h with rfl | rfl | rfl | rfl | rfl | rfl | rfl <;> decide
  obtain ⟨hblank, hquote, hclass, hhex, hname, hat⟩ := hc
  rw [next?_of_not_isBlank hblank, Token.read]
  simp only [hquote, hclass, hhex, hname, hat, h]
  rfl

theorem exists_operator?_of_isReadable (h : t.isReadable) :
    (∃ text, t = .literal text) ∨ (∃ spec, t = .charClass spec) ∨ (∃ spec, t = .hexRef spec) ∨
      (∃ name, t = .symbol name) ∨ ∃ c, Token.operator? c = some t := by
  cases t
  case literal text => exact .inl ⟨text, rfl⟩
  case charClass spec => exact .inr (.inl ⟨spec, rfl⟩)
  case hexRef spec => exact .inr (.inr (.inl ⟨spec, rfl⟩))
  case symbol name => exact .inr (.inr (.inr (.inl ⟨name, rfl⟩)))
  case atRef | finish => cases h
  case minus => exact .inr (.inr (.inr (.inr ⟨'-', rfl⟩)))
  case question => exact .inr (.inr (.inr (.inr ⟨'?', rfl⟩)))
  case bar => exact .inr (.inr (.inr (.inr ⟨'|', rfl⟩)))
  case plus => exact .inr (.inr (.inr (.inr ⟨'+', rfl⟩)))
  case star => exact .inr (.inr (.inr (.inr ⟨'*', rfl⟩)))
  case opening => exact .inr (.inr (.inr (.inr ⟨'(', rfl⟩)))
  case closing => exact .inr (.inr (.inr (.inr ⟨')', rfl⟩)))

/-- A token is read back if what stands behind it does not go on with it. -/
theorem next?_of_stops (q : Quoting) (h : t.isReadable) (hrest : t.Stops rest) :
    Token.next? ((t.written q).toList ++ rest) = .ok (t, rest) := by
  rcases exists_operator?_of_isReadable h with
    ⟨text, rfl⟩ | ⟨spec, rfl⟩ | ⟨spec, rfl⟩ | ⟨name, rfl⟩ | ⟨c, hc⟩
  · exact next?_literal h hrest
  · exact next?_charClass h
  · exact next?_hexRef h hrest
  · exact next?_symbol h hrest
  · rw [Token.toList_written_operator q hc]
    exact next?_operator hc rest

theorem Token.stops_of_head (t : Token)
    (h : ∀ c ∈ rest.head?, Text.isWord c = false ∧ c ≠ '\'' ∧ c ≠ '"') : t.Stops rest := by
  cases t with
  | literal _ => exact fun c hc => (h c hc).2
  | hexRef _ | symbol _ => exact fun c hc => (h c hc).1
  | _ => trivial

/-- No token goes on behind a blank. -/
theorem StartsBlank.stops (h : StartsBlank rest) (t : Token) : t.Stops rest := by
  refine t.stops_of_head fun c hc => ⟨h.isWord_eq_false c hc, ?_, ?_⟩
  all_goals
    rintro rfl
    exact absurd (h _ hc) (by decide)

end Tokens

/-- Tokens as they stand behind something else, each with a space in front. -/
def spacedTokens (q : Quoting) (ts : List Token) : List Char :=
  ts.flatMap fun t => ' ' :: (t.written q).toList

section Runs
variable {text rest : List Char} {ts : List Token}

theorem Reads.trimStart (h : Reads text ts rest) (hts : ts ≠ []) :
    Reads (Text.trimStart text) ts rest := by
  cases h with
  | nil => exact absurd rfl hts
  | cons hnext ht hrest => exact .cons ((next?_trimStart text).trans hnext) ht hrest

theorem startsBlank_spacedTokens (q : Quoting) (ts : List Token) : StartsBlank (spacedTokens q ts) := by
  cases ts with
  | nil => nofun
  | cons t ts => exact forall_head?_cons (by decide) _

theorem reads_spacedTokens (q : Quoting) (h : ∀ t ∈ ts, t.isWritable) :
    Reads (spacedTokens q ts) ts [] := by
  induction ts with
  | nil => exact .nil []
  | cons t ts ih =>
    obtain ⟨ht, hts⟩ := List.forall_mem_cons.mp h
    have hnext : Token.next? (spacedTokens q (t :: ts)) = .ok (t, spacedTokens q ts) := by
      have hspace : Token.next? (spacedTokens q (t :: ts)) =
          Token.next? ((t.written q).toList ++ spacedTokens q ts) := rfl
      rw [hspace, next?_of_stops q (Token.isReadable_of_isWritable ht)
        ((startsBlank_spacedTokens q ts).stops t)]
    have hfinish : t ≠ .finish := by
      rintro rfl
      cases ht
    exact .cons hnext hfinish (ih hts)

end Runs

def Terminal.token : Terminal → Token
  | .literal text => .literal text
  | .charClass spec => .charClass spec
  | .hexRef spec => .hexRef spec

def Repetition.token : Repetition → Token
  | .opt => .question
  | .star => .star
  | .plus => .plus

theorem Repetition.repetition?_token (op : Repetition) : op.token.repetition? = some op := by
  cases op <;> rfl

namespace Expr

/-- The tokens of an expression as an operand. -/
def enclose (e : Expr) (ts : List Token) : List Token :=
  if e.isComposite then .opening :: ts ++ [.closing] else ts

mutual

def tokens : Expr → List Token
  | symbol name => [.symbol (name.getD "")]
  | terminal t => [t.token]
  | series .seq es => (operandTokens es).flatten
  | series .alt es => [.bar].intercalate (operandTokens es)
  | diff l r => l.enclose l.tokens ++ .minus :: r.enclose r.tokens
  | repeated op e => e.enclose e.tokens ++ [op.token]

def operandTokens : List Expr → List (List Token)
  | [] => []
  | e :: es => e.enclose e.tokens :: operandTokens es

end

def written (q : Quoting) (e : Expr) : String :=
  " ".intercalate (e.tokens.map (Token.written q))

mutual

/-- The form in which right-hand sides are read: a single operand has no series around it, an
alternation has alternatives, and the leaves can be written. -/
def isNormal : Expr → Bool
  | symbol (some name) => (Token.symbol name).isWritable
  | symbol none => false
  | terminal t => t.token.isWritable
  | series .seq es => es.length != 1 && isNormalList es
  | series .alt es => 2 ≤ es.length && isNormalList es
  | diff l r => l.isNormal && r.isNormal
  | repeated _ e => e.isNormal

def isNormalList : List Expr → Bool
  | [] => true
  | e :: es => e.isNormal && isNormalList es

end

theorem operandTokens_eq_map (es : List Expr) :
    operandTokens es = es.map fun e => e.enclose e.tokens := by
  induction es with
  | nil => rfl
  | cons e es ih => rw [operandTokens, ih, List.map_cons]

theorem isNormalList_iff {es : List Expr} : isNormalList es ↔ ∀ e ∈ es, e.isNormal := by
  induction es with
  | nil => simp [isNormalList]
  | cons e es ih => rw [isNormalList, Bool.and_eq_true_iff, ih, List.forall_mem_cons]

theorem isNormal_of_mem_operands {e o : Expr} (h : e.isNormal) (ho : o ∈ e.operands) : o.isNormal := by
  cases e with
  | symbol _ | terminal _ => cases ho
  | series op es =>
    cases op with
    | seq => exact isNormalList_iff.mp (Bool.and_eq_true_iff.mp h).2 o ho
    | alt => exact isNormalList_iff.mp (Bool.and_eq_true_iff.mp h).2 o ho
  | diff l r =>
    obtain ⟨hl, hr⟩ := Bool.and_eq_true_iff.mp h
    rcases List.mem_pair.mp ho with rfl | rfl
    · exact hl
    · exact hr
  | repeated op e =>
    obtain rfl := List.mem_singleton.mp ho
    exact h

end Expr

section Phrases
variable {e : Expr} {ts : List Token}

theorem phrase_member (h : Phrase false .difference ts [e]) : Phrase false .members ts [e] := by
  have hmember := Phrase.member h .done
  rwa [List.append_nil] at hmember

theorem phrase_alternatives (h : Phrase false .difference ts [e]) :
    Phrase false .alternatives ts [e] :=
  .last (phrase_member h)

theorem phrase_members {es : List Expr} {tss : List (List Token)}
    (h : List.Forall₂ (fun e ts => Phrase false .difference ts [e]) es tss) :
    Phrase false .members tss.flatten es := by
  induction h with
  | nil => exact .done
  | cons he _ ih => exact .member he ih

/-- Each alternative is a sequence of its own. -/
theorem phrase_bars {es : List Expr} {tss : List (List Token)}
    (h : List.Forall₂ (fun e ts => ∃ fs, Phrase false .members ts fs ∧ .join .seq fs = e) es tss)
    (hne : es ≠ []) : Phrase false .alternatives ([.bar].intercalate tss) es := by
  induction h with
  | nil => exact absurd rfl hne
  | @cons e ts es tss he hes ih =>
    obtain ⟨fs, hphrase, rfl⟩ := he
    cases hes with
    | nil =>
      rw [List.intercalate_singleton]
      exact .last hphrase
    | cons he hes =>
      rw [List.intercalate_cons_cons, List.append_assoc]
      exact .bar hphrase (ih nofun)

theorem Expr.join_of_length_ne_one {op : Series} {es : List Expr} (h : es.length ≠ 1) :
    Expr.join op es = .series op es := by
  unfold Expr.join
  split
  case h_1 => exact absurd rfl h
  case h_2 => rfl

/-- An expression in normal form is the tree of its tokens. -/
theorem phrase_tokens (e : Expr) (h : e.isNormal) :
    ∃ es, Phrase false .alternatives e.tokens es ∧ .join .alt es = e := by
  induction e using Expr.operands_induction with
  | step e ih =>
    have hoperand : ∀ o ∈ e.operands, Phrase false .primary (o.enclose o.tokens) [o] := by
      intro o ho
      have hnormal := Expr.isNormal_of_mem_operands h ho
      obtain ⟨es, hphrase, hjoin⟩ := ih o ho hnormal
      unfold Expr.enclose
      split
      case isTrue =>
        have hgroup := Phrase.group hphrase
        rwa [hjoin] at hgroup
      case isFalse hleaf =>
        cases o with
        | symbol name =>
          cases name with
          | none => cases hnormal
          | some name => exact .leaf rfl
        | terminal t => cases t <;> exact .leaf rfl
        | series _ _ | diff _ _ | repeated _ _ => exact absurd rfl hleaf
    cases e with
    | symbol name =>
      cases name with
      | none => cases h
      | some name => exact ⟨_, phrase_alternatives (.plain (.once (.leaf rfl))), rfl⟩
    | terminal t => cases t <;> exact ⟨_, phrase_alternatives (.plain (.once (.leaf rfl))), rfl⟩
    | series op es =>
      have hoperands : List.Forall₂ (fun e ts => Phrase false .primary ts [e]) es
          (Expr.operandTokens es) := by
        rw [Expr.operandTokens_eq_map, List.forall₂_map_right_iff]
        exact List.forall₂_same.mpr hoperand
      cases op with
      | seq =>
        have hlength : es.length ≠ 1 := by simpa using (Bool.and_eq_true_iff.mp h).1
        have hmembers := hoperands.imp fun _ _ ho => Phrase.plain (.once ho)
        exact ⟨_, .last (phrase_members hmembers), Expr.join_of_length_ne_one hlength⟩
      | alt =>
        have hlength : 2 ≤ es.length := by simpa using (Bool.and_eq_true_iff.mp h).1
        have hne : es ≠ [] := List.ne_nil_of_length_pos (by omega)
        have hbars := phrase_bars (hoperands.imp fun e _ ho =>
          ⟨[e], phrase_member (.plain (.once ho)), rfl⟩) hne
        exact ⟨_, hbars, Expr.join_of_length_ne_one (by omega)⟩
    | diff l r =>
      refine ⟨_, phrase_alternatives (.minus (.once (hoperand l ?_)) (hoperand r ?_)), rfl⟩
      · exact List.mem_cons_self
      · exact List.mem_cons_of_mem l List.mem_cons_self
    | repeated op e =>
      have hop := op.repetition?_token
      exact ⟨_, phrase_alternatives (.plain (.repeated (hoperand e List.mem_cons_self) hop)), rfl⟩

theorem isWritable_of_mem_enclose {e : Expr} (h : ∀ t ∈ e.tokens, t.isWritable) :
    ∀ t ∈ e.enclose e.tokens, t.isWritable := by
  unfold Expr.enclose
  split
  case isTrue =>
    refine List.forall_mem_append.mpr ⟨List.forall_mem_cons.mpr ⟨rfl, h⟩, ?_⟩
    exact List.forall_mem_singleton.mpr rfl
  case isFalse => exact h

theorem forall_mem_intercalate {P : Token → Prop} {tss : List (List Token)} {u : Token} (hu : P u)
    (h : ∀ ts ∈ tss, ∀ t ∈ ts, P t) : ∀ t ∈ [u].intercalate tss, P t := by
  induction tss with
  | nil => nofun
  | cons ts tss ih =>
    obtain ⟨hts, htss⟩ := List.forall_mem_cons.mp h
    cases tss with
    | nil => simpa using hts
    | cons us tss =>
      rw [List.intercalate_cons_cons, List.append_assoc]
      exact List.forall_mem_append.mpr ⟨hts, List.forall_mem_cons.mpr ⟨hu, ih htss⟩⟩

theorem isWritable_of_mem_tokens (e : Expr) (h : e.isNormal) : ∀ t ∈ e.tokens, t.isWritable := by
  induction e using Expr.operands_induction with
  | step e ih =>
    have hoperand : ∀ o ∈ e.operands, ∀ t ∈ o.enclose o.tokens, t.isWritable := fun o ho =>
      isWritable_of_mem_enclose (ih o ho (Expr.isNormal_of_mem_operands h ho))
    cases e with
    | symbol name =>
      cases name with
      | none => cases h
      | some name => exact List.forall_mem_singleton.mpr h
    | terminal t => exact List.forall_mem_singleton.mpr h
    | series op es =>
      have hoperands : ∀ ts ∈ Expr.operandTokens es, ∀ t ∈ ts, t.isWritable := by
        rw [Expr.operandTokens_eq_map]
        exact List.forall_mem_map.mpr hoperand
      cases op with
      | seq =>
        intro t ht
        obtain ⟨ts, hts, ht⟩ := List.mem_flatten.mp ht
        exact hoperands ts hts t ht
      | alt => exact forall_mem_intercalate rfl hoperands
    | diff l r =>
      refine List.forall_mem_append.mpr ⟨?_, List.forall_mem_cons.mpr ⟨rfl, ?_⟩⟩
      · exact hoperand l List.mem_cons_self
      · exact hoperand r (List.mem_cons_of_mem l List.mem_cons_self)
    | repeated op e =>
      refine List.forall_mem_append.mpr ⟨hoperand e List.mem_cons_self, ?_⟩
      exact List.forall_mem_singleton.mpr (by cases op <;> rfl)

/-- An expression in normal form is read back, with or without a space in front. -/
theorem parse?_spacedTokens (q : Quoting) (h : e.isNormal) :
    Expr.parse? (spacedTokens q e.tokens) = .ok e ∧
      Expr.parse? (Text.trimStart (spacedTokens q e.tokens)) = .ok e := by
  obtain ⟨es, hphrase, hjoin⟩ := phrase_tokens e h
  have hreads := reads_spacedTokens q (isWritable_of_mem_tokens e h)
  have hparse := parse?_of_phrase hphrase hreads rfl
  rw [hjoin] at hparse
  refine ⟨hparse, ?_⟩
  by_cases hts : e.tokens = []
  · rw [hts] at hparse ⊢
    exact hparse
  · have htrimmed := parse?_of_phrase hphrase (hreads.trimStart hts) rfl
    rwa [hjoin] at htrimmed

end Phrases

end FlatGrammar
