import FlatGrammar.Token
import Mathlib.Data.List.DropRight
import Mathlib.Data.List.TakeWhile

/-! # Runs of tokens

Tokens are read one after another from the start of a text. Every token but the end takes at least a
character, and a text has one run of tokens up to its end.
-/
namespace FlatGrammar

theorem splitAtChar_eq_some {c : Char} {cs inner rest : List Char}
    (h : splitAtChar c cs = some (inner, rest)) : cs = inner ++ c :: rest ∧ c ∉ inner := by
  unfold splitAtChar at h
  split at h
  case h_1 => cases h
  case h_2 d ds hdrop =>
    obtain ⟨rfl, rfl⟩ := Prod.mk.inj (Option.some.inj h)
    have hd : d = c := by
      have hstop := List.head?_dropWhile_not (· != c) cs
      rw [hdrop] at hstop
      simpa using hstop
    rw [hd] at hdrop
    refine ⟨?_, fun hmem => ?_⟩
    · rw [← hdrop, List.takeWhile_append_dropWhile]
    · simpa using List.mem_takeWhile_imp hmem

namespace Token

/-- What a token is read from, in front of the rest of a text. -/
inductive ReadFrom : Token → List Char → List Char → Prop
  | literal {quote : Char} {inner rest : List Char} (hquote : quote = '"' ∨ quote = '\'')
      (h : quote ∉ inner) :
      ReadFrom (.literal (String.ofList inner)) (quote :: (inner ++ quote :: rest)) rest
  | charClass {inner rest : List Char} (h : ']' ∉ inner) :
      ReadFrom (.charClass (String.ofList inner)) ('[' :: (inner ++ ']' :: rest)) rest
  | hexRef {digits rest : List Char} (hall : ∀ c ∈ digits, isHexDigit c) :
      ReadFrom (.hexRef (String.ofList ('#' :: 'x' :: digits))) ('#' :: 'x' :: (digits ++ rest)) rest
  | symbol {c : Char} {cs rest : List Char} (hc : Text.isLetter c ∨ c = '_')
      (hall : ∀ c ∈ cs, Text.isWord c) :
      ReadFrom (.symbol (String.ofList (c :: cs))) (c :: (cs ++ rest)) rest
  | atRef {mark word rest : List Char} (hmark : mark = [] ∨ mark = ['#'])
      (hall : ∀ c ∈ word, Text.isWord c) :
      ReadFrom (.atRef (String.ofList (mark ++ word))) ('@' :: (mark ++ (word ++ rest))) rest
  | operator {c : Char} {t : Token} {rest : List Char} (h : operator? c = some t) :
      ReadFrom t (c :: rest) rest

section Reading
variable {text after body cs : List Char} {c : Char} {t : Token}

theorem readFrom_readLiteral (hc : c = '"' ∨ c = '\'') (h : readLiteral c body = .ok (t, after)) :
    ReadFrom t (c :: body) after := by
  unfold readLiteral at h
  split at h
  case h_1 => cases h
  case h_2 inner rest hsplit =>
    split at h
    case isTrue => cases h
    case isFalse =>
      obtain ⟨rfl, rfl⟩ := Prod.mk.inj (Except.ok.inj h)
      obtain ⟨rfl, hinner⟩ := splitAtChar_eq_some hsplit
      exact .literal hc hinner

theorem readFrom_readCharClass (h : readCharClass body = .ok (t, after)) :
    ReadFrom t ('[' :: body) after := by
  unfold readCharClass at h
  split at h
  case h_1 => cases h
  case h_2 inner rest hsplit =>
    obtain ⟨rfl, rfl⟩ := Prod.mk.inj (Except.ok.inj h)
    obtain ⟨rfl, hinner⟩ := splitAtChar_eq_some hsplit
    exact .charClass hinner

theorem readFrom_readHexRef (h : readHexRef body = .ok (t, after)) :
    ReadFrom t ('#' :: body) after := by
  unfold readHexRef at h
  split at h
  case h_2 => cases h
  case h_1 rest =>
    have hrest : rest.takeWhile isHexDigit ++ rest.dropWhile isHexDigit = rest :=
      List.takeWhile_append_dropWhile
    split at h
    case h_1 => cases h
    case h_2 =>
      obtain ⟨rfl, rfl⟩ := Prod.mk.inj (Except.ok.inj h)
      conv => arg 2; rw [← hrest]
      exact .hexRef fun c hc => List.mem_takeWhile_imp hc

theorem readFrom_readAtRef (h : readAtRef body = .ok (t, after)) :
    ReadFrom t ('@' :: body) after := by
  unfold readAtRef at h
  split at h
  case h_1 mark rest hbody =>
    obtain ⟨hmark, rfl⟩ : (mark = [] ∨ mark = ['#']) ∧ body = mark ++ rest := by
      split at hbody
      case h_1 =>
        obtain ⟨rfl, rfl⟩ := Prod.mk.inj hbody
        exact ⟨.inr rfl, rfl⟩
      case h_2 =>
        obtain ⟨rfl, rfl⟩ := Prod.mk.inj hbody
        exact ⟨.inl rfl, rfl⟩
    have hrest : rest.takeWhile Text.isWord ++ rest.dropWhile Text.isWord = rest :=
      List.takeWhile_append_dropWhile
    split at h
    case h_1 => cases h
    case h_2 =>
      obtain ⟨rfl, rfl⟩ := Prod.mk.inj (Except.ok.inj h)
      conv => arg 2; rw [← hrest]
      exact .atRef hmark fun c hc => List.mem_takeWhile_imp hc

theorem readFrom_read (h : read c cs = .ok (t, after)) : ReadFrom t (c :: cs) after := by
  unfold read at h
  split at h
  case isTrue hquote => exact readFrom_readLiteral (by simpa using hquote) h
  case isFalse =>
    split at h
    case isTrue hbracket =>
      obtain rfl := eq_of_beq hbracket
      exact readFrom_readCharClass h
    case isFalse =>
      split at h
      case isTrue hsign =>
        obtain rfl := eq_of_beq hsign
        exact readFrom_readHexRef h
      case isFalse =>
        split at h
        case isTrue hletter =>
          obtain ⟨rfl, rfl⟩ := Prod.mk.inj (Except.ok.inj h)
          have hcs : cs.takeWhile Text.isWord ++ cs.dropWhile Text.isWord = cs :=
            List.takeWhile_append_dropWhile
          conv => arg 2; rw [← hcs]
          exact .symbol (by simpa using hletter) fun c hc => List.mem_takeWhile_imp hc
        case isFalse =>
          split at h
          case isTrue hat =>
            obtain rfl := eq_of_beq hat
            exact readFrom_readAtRef h
          case isFalse =>
            split at h
            case h_1 hop =>
              obtain ⟨rfl, rfl⟩ := Prod.mk.inj (Except.ok.inj h)
              exact .operator hop
            case h_2 => cases h

theorem read_spec (h : read c cs = .ok (t, after)) : t ≠ .finish ∧ after <:+ cs := by
  cases readFrom_read h with
  | literal | charClass => exact ⟨nofun, (List.suffix_cons _ _).trans (List.suffix_append _ _)⟩
  | hexRef => exact ⟨nofun, (List.suffix_append _ _).trans (List.suffix_cons _ _)⟩
  | symbol => exact ⟨nofun, List.suffix_append _ _⟩
  | atRef => exact ⟨nofun, (List.suffix_append _ _).trans (List.suffix_append _ _)⟩
  | operator hop =>
    refine ⟨?_, List.suffix_rfl⟩
    rintro rfl
    unfold operator? at hop
    split at hop <;> cases hop

theorem trimStart_eq_nil_iff : Text.trimStart text = [] ↔ text.all Text.isBlank := by
  rw [Text.trimStart, List.dropWhile_eq_nil_iff, List.all_eq_true]

theorem next?_finish_iff :
    next? text = .ok (.finish, after) ↔ text.all Text.isBlank ∧ after = [] := by
  rw [← trimStart_eq_nil_iff]
  unfold next?
  cases htrim : Text.trimStart text with
  | nil => simp [eq_comm]
  | cons c cs =>
    constructor
    · intro hread
      exact absurd rfl (read_spec hread).1
    · rintro ⟨hnil, -⟩
      cases hnil

theorem length_lt_of_next? (h : next? text = .ok (t, after)) (ht : t ≠ .finish) :
    after.length < text.length := by
  unfold next? at h
  split at h
  case h_1 =>
    obtain ⟨rfl, -⟩ := Prod.mk.inj (Except.ok.inj h)
    exact absurd rfl ht
  case h_2 c cs htrim =>
    have hsuffix : c :: cs <:+ text := htrim ▸ List.dropWhile_suffix _
    have hle := (read_spec h).2.length_le
    have := hsuffix.length_le
    rw [List.length_cons] at this
    omega

theorem suffix_of_next? (h : next? text = .ok (t, after)) : after <:+ text := by
  unfold next? at h
  split at h
  case h_1 =>
    obtain ⟨-, rfl⟩ := Prod.mk.inj (Except.ok.inj h)
    exact List.nil_suffix
  case h_2 c cs htrim =>
    have hsuffix : c :: cs <:+ text := htrim ▸ List.dropWhile_suffix _
    exact ((read_spec h).2.trans (List.suffix_cons c cs)).trans hsuffix

end Reading

end Token

theorem next?_trimStart (text : List Char) : Token.next? (Text.trimStart text) = Token.next? text := by
  rw [Token.next?, Token.next?, Text.trimStart, Text.trimStart, List.dropWhile_idempotent]

/-- The tokens read from the start of a text, and the rest that they leave. -/
inductive Reads : List Char → List Token → List Char → Prop
  | nil (text : List Char) : Reads text [] text
  | cons {text after rest : List Char} {t : Token} {ts : List Token}
      (h : Token.next? text = .ok (t, after)) (ht : t ≠ .finish) (hrest : Reads after ts rest) :
      Reads text (t :: ts) rest

namespace Reads
variable {text rest last : List Char} {t : Token} {ts us : List Token}

theorem single (h : Token.next? text = .ok (t, rest)) (ht : t ≠ .finish) : Reads text [t] rest :=
  .cons h ht (.nil rest)

theorem append (h : Reads text ts rest) (h' : Reads rest us last) : Reads text (ts ++ us) last := by
  induction h with
  | nil => exact h'
  | cons hnext ht _ ih => exact .cons hnext ht (ih h')

theorem length_le (h : Reads text ts rest) : rest.length + ts.length ≤ text.length := by
  induction h with
  | nil => exact Nat.le_refl _
  | cons hnext ht _ ih =>
    have := Token.length_lt_of_next? hnext ht
    rw [List.length_cons]
    omega

theorem isSuffix (h : Reads text ts rest) : rest <:+ text := by
  induction h with
  | nil text => exact List.suffix_rfl
  | cons hnext _ _ ih => exact ih.trans (Token.suffix_of_next? hnext)

theorem exists_of_append (h : Reads text (ts ++ us) last) :
    ∃ rest, Reads text ts rest ∧ Reads rest us last := by
  induction ts generalizing text with
  | nil => exact ⟨text, .nil text, h⟩
  | cons t ts ih =>
    cases h with
    | cons hnext ht hrest =>
      obtain ⟨rest, hts, hus⟩ := ih hrest
      exact ⟨rest, .cons hnext ht hts, hus⟩

/-- Up to the end of a text there is one run of tokens. -/
theorem unique {rest' : List Char} (h : Reads text ts rest) (h' : Reads text us rest')
    (hend : rest.all Text.isBlank) (hend' : rest'.all Text.isBlank) : ts = us ∧ rest = rest' := by
  induction h generalizing us with
  | nil text =>
    cases h' with
    | nil => exact ⟨rfl, rfl⟩
    | cons hnext ht =>
      have hfinish := Token.next?_finish_iff.mpr ⟨hend, rfl⟩
      rw [hfinish] at hnext
      exact absurd (Prod.mk.inj (Except.ok.inj hnext)).1.symm ht
  | cons hnext ht _ ih =>
    cases h' with
    | nil =>
      have hfinish := Token.next?_finish_iff.mpr ⟨hend', rfl⟩
      rw [hfinish] at hnext
      exact absurd (Prod.mk.inj (Except.ok.inj hnext)).1.symm ht
    | cons hnext' ht' hrest' =>
      rw [hnext] at hnext'
      obtain ⟨rfl, rfl⟩ := Prod.mk.inj (Except.ok.inj hnext')
      obtain ⟨rfl, hrest⟩ := ih hrest' hend
      exact ⟨rfl, hrest⟩

end Reads

/-- A text without an obstacle is a run of tokens up to its end. -/
theorem reads_of_tokensWithin {n : Nat} {text : List Char} {ts : List Token}
    (hobstacle : (tokensWithin n text).obstacle = none)
    (hts : (tokensWithin n text).tokens = ts ++ [.finish]) :
    ∃ rest, Reads text ts rest ∧ rest.all Text.isBlank := by
  induction n generalizing text ts with
  | zero => simp [tokensWithin] at hts
  | succ n ih =>
    unfold tokensWithin at hobstacle hts
    split at hobstacle
    case h_1 => cases hobstacle
    case h_2 rest hnext =>
      simp only [hnext] at hts
      obtain rfl : ts = [] := by
        cases ts with
        | nil => rfl
        | cons t ts => simp at hts
      exact ⟨text, .nil text, (Token.next?_finish_iff.mp hnext).1⟩
    case h_3 t after hne hnext =>
      have ht : t ≠ .finish := by
        rintro rfl
        exact hne rfl
      simp only [hnext] at hts
      cases ts with
      | nil => simp [ht] at hts
      | cons u us =>
        simp only [List.cons_append, List.cons.injEq] at hts
        obtain ⟨rfl, hus⟩ := hts
        obtain ⟨rest, hreads, hend⟩ := ih hobstacle hus
        exact ⟨rest, .cons hnext ht hreads, hend⟩

end FlatGrammar
