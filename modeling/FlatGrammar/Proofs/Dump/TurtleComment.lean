import FlatGrammar.Proofs.Dump.TurtleString

/-! # Comments of rules

The comment of a rule is a long string that stands for the trimmed source of the rule. Four steps escape
it: backslashes, quotation marks by three, one at the start, and one at the end unless the backslashes in
front of it escape it already. All but the third come to one walk over the text, in which quotation marks
wait for the character behind them, two of them at most.
-/
namespace FlatGrammar

def doubled (cs : List Char) : List Char :=
  cs.flatMap fun c => if c == '\\' then ['\\', '\\'] else [c]

/-- A text with its backslashes and quotation marks by three escaped, and a single one at its end. -/
def closedComment : List Char → List Char
  | [] => []
  | ['"'] => ['\\', '"']
  | '"' :: '"' :: '"' :: cs => '\\' :: '"' :: '\\' :: '"' :: '\\' :: '"' :: closedComment cs
  | c :: cs => (if c = '\\' then ['\\', '\\'] else [c]) ++ closedComment cs

/-- How many backslashes a text ends with. -/
def trailingBackslashes (cs : List Char) : Nat := (cs.reverse.takeWhile (· == '\\')).length

section Escaping
variable {c : Char} {xs ys cs : List Char}

theorem escapeTrailingQuote_of_ne (hc : c ≠ '"') (cs : List Char) :
    escapeTrailingQuote (cs ++ [c]) = cs ++ [c] := by
  unfold escapeTrailingQuote
  rw [List.reverse_append, List.reverse_singleton, List.singleton_append]
  split
  case h_1 heq => exact absurd (List.cons.inj heq).1 hc
  case h_2 => rfl

theorem escapeTrailingQuote_quote (cs : List Char) : escapeTrailingQuote (cs ++ ['"']) =
    if trailingBackslashes cs % 2 = 0 then cs ++ ['\\', '"'] else cs ++ ['"'] := by
  unfold escapeTrailingQuote
  rw [List.reverse_append, List.reverse_singleton, List.singleton_append]
  simp only [List.reverse_reverse, beq_iff_eq]
  exact if_congr .rfl rfl rfl

theorem trailingBackslashes_append (hxs : trailingBackslashes xs % 2 = 0) (ys : List Char) :
    trailingBackslashes (xs ++ ys) % 2 = trailingBackslashes ys % 2 := by
  unfold trailingBackslashes at hxs ⊢
  rw [List.reverse_append, List.takeWhile_append]
  split
  case isTrue h =>
    rw [List.length_append, ← h]
    omega
  case isFalse => rfl

/-- What stands in front does not matter if it leaves no backslash open, and if something follows. -/
theorem escapeTrailingQuote_append (hxs : trailingBackslashes xs % 2 = 0) (hys : ys ≠ []) :
    escapeTrailingQuote (xs ++ ys) = xs ++ escapeTrailingQuote ys := by
  obtain ⟨zs, c, rfl⟩ := (List.eq_nil_or_concat' ys).resolve_left hys
  rw [← List.append_assoc]
  by_cases hc : c = '"'
  · subst hc
    rw [escapeTrailingQuote_quote, escapeTrailingQuote_quote, trailingBackslashes_append hxs]
    split
    · rw [List.append_assoc]
    · rw [List.append_assoc]
  · rw [escapeTrailingQuote_of_ne hc, escapeTrailingQuote_of_ne hc, List.append_assoc]

/-- Nor does it matter whether something follows if it does not end with a quotation mark to escape. -/
theorem escapeTrailingQuote_step (hxs : trailingBackslashes xs % 2 = 0)
    (hself : escapeTrailingQuote xs = xs) (ys : List Char) :
    escapeTrailingQuote (xs ++ ys) = xs ++ escapeTrailingQuote ys := by
  by_cases hys : ys = []
  · subst hys
    rw [List.append_nil, hself]
    exact (List.append_nil xs).symm
  · exact escapeTrailingQuote_append hxs hys

theorem doubled_cons (c : Char) (cs : List Char) :
    doubled (c :: cs) = (if c = '\\' then ['\\', '\\'] else [c]) ++ doubled cs := by
  rw [doubled, List.flatMap_cons]
  exact congrArg (· ++ doubled cs) (if_congr beq_iff_eq rfl rfl)

/-- Quotation marks stay where they are when backslashes are doubled. -/
theorem replicate_prefix_doubled_iff {n : Nat} :
    List.replicate n '"' <+: doubled cs ↔ List.replicate n '"' <+: cs := by
  induction n generalizing cs with
  | zero => exact iff_of_true (List.nil_prefix) (List.nil_prefix)
  | succ n ih =>
    cases cs with
    | nil => exact .rfl
    | cons c cs =>
      rw [doubled_cons, List.replicate_succ, List.cons_prefix_cons]
      split
      case isTrue hc =>
        subst hc
        simp
      case isFalse => rw [List.singleton_append, List.cons_prefix_cons, ih]

theorem escapeTriples_cons (h : ¬List.replicate 3 '"' <+: c :: cs) :
    escapeTriples (c :: cs) = c :: escapeTriples cs := by
  rw [escapeTriples.eq_2]
  rintro rest rfl rfl
  exact h ⟨rest, rfl⟩

theorem escapeTriples_ne_nil (hcs : cs ≠ []) : escapeTriples cs ≠ [] := by
  obtain ⟨c, cs, rfl⟩ := List.exists_cons_of_ne_nil hcs
  unfold escapeTriples
  split
  case h_1 => exact List.cons_ne_nil _ _
  case h_2 => exact List.cons_ne_nil _ _
  case h_3 heq => cases heq

theorem doubled_ne_nil (hcs : cs ≠ []) : doubled cs ≠ [] := by
  obtain ⟨c, cs, rfl⟩ := List.exists_cons_of_ne_nil hcs
  rw [doubled_cons]
  split <;> simp

/-- All steps but that for a quotation mark at the start in one walk. -/
theorem escapeTrailingQuote_escapeTriples (cs : List Char) :
    escapeTrailingQuote (escapeTriples (doubled cs)) = closedComment cs := by
  fun_induction closedComment cs with
  | case1 => rfl
  | case2 => decide
  | case3 cs ih =>
    have hstep : escapeTriples (doubled ('"' :: '"' :: '"' :: cs)) =
        ['\\', '"', '\\', '"', '\\', '"'] ++ escapeTriples (doubled cs) := rfl
    rw [hstep, escapeTrailingQuote_step (by decide) (by decide), ih]
    rfl
  | case4 c cs hlast htriple ih =>
    rw [doubled_cons, ← ih]
    split
    case isTrue =>
      have hstep : escapeTriples (['\\', '\\'] ++ doubled cs) =
          ['\\', '\\'] ++ escapeTriples (doubled cs) := rfl
      rw [hstep, escapeTrailingQuote_step (by decide) (by decide)]
    case isFalse hc =>
      have hnone : ¬List.replicate 3 '"' <+: c :: doubled cs := by
        have hcons : c :: doubled cs = doubled (c :: cs) := by
          rw [doubled_cons, if_neg hc]
          rfl
        rw [hcons, replicate_prefix_doubled_iff]
        rintro ⟨rest, heq⟩
        obtain ⟨rfl, rfl⟩ := List.cons.inj heq
        exact htriple rest rfl rfl
      have heven : trailingBackslashes [c] % 2 = 0 := by simp [trailingBackslashes, hc]
      rw [List.singleton_append, escapeTriples_cons hnone, ← List.singleton_append]
      by_cases hquote : c = '"'
      · exact escapeTrailingQuote_append heven
          (escapeTriples_ne_nil (doubled_ne_nil fun hnil => hlast hquote hnil))
      · exact escapeTrailingQuote_step heven (escapeTrailingQuote_of_ne hquote []) _

end Escaping

section Reading
open Turtle

/-- So many quotation marks may stand in front of a text without an escape: together with those that the
text starts with they are too few to end a string, and they are not the last. -/
def Waiting (n : Nat) (cs : List Char) : Prop :=
  n < 3 ∧ (n = 0 ∨ cs ≠ [] ∧ ¬List.replicate (3 - n) '"' <+: cs)

theorem Waiting.zero (cs : List Char) : Waiting 0 cs := ⟨by decide, .inl rfl⟩

theorem Waiting.succ {n : Nat} {cs : List Char} (h : Waiting n ('"' :: cs)) (hcs : cs ≠ [])
    (htriple : ¬List.replicate 3 '"' <+: '"' :: cs) : Waiting (n + 1) cs := by
  obtain ⟨hn, hwaiting⟩ := h
  have hfew : ¬List.replicate (3 - n) '"' <+: '"' :: cs := by
    rcases hwaiting with rfl | ⟨-, hfew⟩
    · exact htriple
    · exact hfew
  have hmore : 3 - n = 3 - (n + 1) + 1 := by omega
  rw [hmore, List.replicate_succ, List.cons_prefix_cons, not_and] at hfew
  have hrest := hfew rfl
  refine ⟨?_, .inr ⟨hcs, hrest⟩⟩
  by_contra hlast
  have hnone : 3 - (n + 1) = 0 := by omega
  rw [hnone] at hrest
  exact hrest List.nil_prefix

theorem tail_closedComment {n : Nat} {cs : List Char} (h : Waiting n cs) :
    Tail long (List.replicate n '"' ++ (closedComment cs ++ long.text)) (List.replicate n '"' ++ cs) := by
  fun_induction closedComment cs generalizing n with
  | case1 =>
    obtain rfl : n = 0 := h.2.resolve_right fun hrest => hrest.1 rfl
    exact .close
  | case2 => exact .piece h.1 (.escape rfl) .close
  | case3 cs ih =>
    obtain rfl : n = 0 := by
      refine h.2.resolve_right fun hrest => hrest.2 ?_
      have hprefix : List.replicate 3 '"' <+: '"' :: '"' :: '"' :: cs := ⟨cs, rfl⟩
      refine List.IsPrefix.trans ⟨List.replicate n '"', ?_⟩ hprefix
      rw [List.replicate_append_replicate]
      have := h.1
      congr 1
      omega
    have hquote {rest value : List Char} (hrest : Tail long rest value) :
        Tail long (['\\', '"'] ++ rest) ('"' :: value) := .single (by decide) (.escape rfl) hrest
    exact hquote (hquote (hquote (ih (.zero cs))))
  | case4 c cs hlast htriple ih =>
    split
    case isTrue hc =>
      subst hc
      rw [List.append_assoc]
      exact .piece h.1 (.escape rfl) (ih (.zero cs))
    case isFalse hc =>
      by_cases hquote : c = '"'
      · subst hquote
        have hnext : Waiting (n + 1) cs := by
          refine h.succ (hlast rfl) ?_
          rintro ⟨rest, heq⟩
          exact htriple rest rfl (List.cons.inj heq).2.symm
        have hmove (ds : List Char) :
            List.replicate n '"' ++ '"' :: ds = List.replicate (n + 1) '"' ++ ds := by
          rw [List.replicate_succ', List.append_assoc, List.singleton_append]
        rw [List.singleton_append, List.cons_append, hmove, hmove]
        exact ih hnext
      · rw [List.append_assoc]
        exact .piece h.1 (.plain hquote hc (.inl rfl)) (ih (.zero cs))

theorem tail_closedComment_of_start (cs : List Char) :
    Tail long (closedComment cs ++ long.text) cs := tail_closedComment (.zero cs)

theorem tail_commentChars (cs : List Char) :
    Tail long (commentChars cs ++ long.text) (Text.trimChars cs) := by
  have hsteps : commentChars cs = escapeTrailingQuote
      (escapeLeadingQuote (escapeTriples (doubled (Text.trimChars cs)))) := rfl
  rw [hsteps]
  generalize Text.trimChars cs = ts
  have hlater (h : (escapeTriples (doubled ts)).head? ≠ some '"') :
      Tail long (escapeTrailingQuote (escapeLeadingQuote (escapeTriples (doubled ts))) ++ long.text)
        ts := by
    have hsame : escapeLeadingQuote (escapeTriples (doubled ts)) = escapeTriples (doubled ts) :=
      if_neg (by simpa using h)
    rw [hsame, escapeTrailingQuote_escapeTriples]
    exact tail_closedComment_of_start ts
  have hescaped {rest : List Char} (h : escapeTriples (doubled ts) = '\\' :: rest) :
      (escapeTriples (doubled ts)).head? ≠ some '"' := by
    rw [h, List.head?_cons]
    decide
  by_cases htriple : List.replicate 3 '"' <+: ts
  · obtain ⟨us, rfl⟩ := htriple
    exact hlater (hescaped rfl)
  cases ts with
  | nil => exact hlater (by decide)
  | cons c us =>
    rw [← replicate_prefix_doubled_iff, doubled_cons] at htriple
    by_cases hback : c = '\\'
    · subst hback
      exact hlater (hescaped rfl)
    rw [if_neg hback] at htriple
    have hfirst : escapeTriples (doubled (c :: us)) = c :: escapeTriples (doubled us) := by
      rw [doubled_cons, if_neg hback]
      exact escapeTriples_cons htriple
    by_cases hquote : c = '"'
    · subst hquote
      have hleading : escapeLeadingQuote ('"' :: escapeTriples (doubled us)) =
          ['\\', '"'] ++ escapeTriples (doubled us) := rfl
      rw [hfirst, hleading, escapeTrailingQuote_step (by decide) (by decide),
        escapeTrailingQuote_escapeTriples, List.append_assoc]
      exact .single (by decide) (.escape rfl) (tail_closedComment_of_start us)
    · refine hlater ?_
      rw [hfirst]
      simpa using hquote

/-- A comment is written as one long string, and whatever follows it, no other one is read there. -/
theorem isString_comment (source : String) :
    let written := long.text ++ (comment source).toList ++ long.text
    IsString long written (Text.trim source).toList ∧
      ∀ cs value rest, IsString long cs value → cs <+: written ++ rest →
        cs = written ∧ value = (Text.trim source).toList := by
  intro written
  have hwritten : IsString long written (Text.trim source).toList := by
    have hstring := IsString.intro (tail_commentChars source.toList)
    simpa [written, comment, Text.trim] using hstring
  refine ⟨hwritten, fun cs value rest hcs => ?_⟩
  rintro ⟨after, heq⟩
  exact hcs.unique hwritten heq

/-- Quotation marks and backslashes at both ends and in the middle. -/
example : comment " \"\"\\\"\"\"\" a\\\" " = "\\\"\"\\\\\\\"\\\"\\\"\" a\\\\\\\"" := by decide +kernel

end Reading

end FlatGrammar
