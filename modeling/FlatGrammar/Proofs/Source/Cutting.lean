import FlatGrammar.Proofs.Expr.Writing
import FlatGrammar.Source.Span

/-! # Cutting written tokens

The lexemes of a right-hand side that has been written are blanks, literals, character classes and plain
text, whatever literals and classes hold. Only a character class looks at what follows it: it would be an
id if a symbol and the sign of definition stood there. No run of tokens starts like that.
-/
namespace FlatGrammar

namespace LexemeKind

/-- The kinds of lexemes that belong to the span they stand in, as they are. -/
def isQuiet : LexemeKind → Bool
  | blank => true
  | literal => true
  | charClass => true
  | text => true
  | _ => false

end LexemeKind

/-- A text in front of `rest` is cut into these lexemes, which belong to the span they stand in. -/
structure Quiet (cs rest : List Char) (ls : List Lexeme) : Prop where
  scan : Lexeme.scan 0 (cs ++ rest) = ls ++ Lexeme.scan 0 rest
  text : ls.flatMap Lexeme.text = cs
  quiet : ∀ l ∈ ls, l.kind.isQuiet

section Scanning
variable {c : Char} {cs ds rest : List Char} {kind : LexemeKind} {ls ms : List Lexeme}

theorem scan_eq_drop (n : Nat) (cs : List Char) : Lexeme.scan n cs = Lexeme.scan 0 (cs.drop n) := by
  induction cs generalizing n with
  | nil => cases n <;> rfl
  | cons c cs ih =>
    cases n with
    | zero => rfl
    | succ n => exact ih n

theorem scan_of_measure (h : Lexeme.measure c (cs ++ rest) = (kind, cs.length + 1)) :
    Lexeme.scan 0 (c :: cs ++ rest) = ⟨kind, c :: cs⟩ :: Lexeme.scan 0 rest := by
  rw [List.cons_append, Lexeme.scan, h]
  simp only [Nat.add_sub_cancel]
  rw [scan_eq_drop, List.drop_left, List.take_succ_cons, List.take_left]

theorem Quiet.nil (rest : List Char) : Quiet [] rest [] := ⟨rfl, rfl, nofun⟩

theorem Quiet.of_measure (h : Lexeme.measure c (cs ++ rest) = (kind, cs.length + 1))
    (hkind : kind.isQuiet) : Quiet (c :: cs) rest [⟨kind, c :: cs⟩] where
  scan := scan_of_measure h
  text := List.append_nil _
  quiet := List.forall_mem_singleton.mpr hkind

theorem Quiet.append (h : Quiet cs (ds ++ rest) ls) (h' : Quiet ds rest ms) :
    Quiet (cs ++ ds) rest (ls ++ ms) where
  scan := by rw [List.append_assoc, h.scan, h'.scan, List.append_assoc]
  text := by rw [List.flatMap_append, h.text, h'.text]
  quiet := List.forall_mem_append.mpr ⟨h.quiet, h'.quiet⟩

end Scanning

section Pieces
variable {c : Char} {cs rest : List Char}

theorem not_isBlank_of_isPlain (h : isPlain c) : Text.isBlank c = false := by
  unfold isPlain at h
  simp_all

theorem isPlain_of_isWord (h : Text.isWord c) : isPlain c := by
  have hne : ∀ d, Text.isWord d = false → (c == d) = false := fun d hd =>
    beq_false_of_ne (ne_of_isWord h hd)
  rw [isPlain, isBlank_eq_false_of_isWord h, hne '/' (by decide), hne '@' (by decide),
    hne '[' (by decide), hne '\'' (by decide), hne '"' (by decide)]
  rfl

theorem StartsBlank.isPlain_eq_false (h : StartsBlank rest) : ∀ c ∈ rest.head?, isPlain c = false := by
  intro c hc
  rw [isPlain, h c hc]
  rfl

theorem measure_blank (hc : Text.isBlank c) (cs : List Char) :
    Lexeme.measure c cs = (.blank, 1 + (cs.takeWhile Text.isBlank).length) := by
  unfold Lexeme.measure
  rw [if_pos hc]

theorem measure_plain (hc : isPlain c) (cs : List Char) :
    Lexeme.measure c cs = (.text, 1 + (cs.takeWhile isPlain).length) := by
  have hblank : ¬Text.isBlank c := Bool.eq_false_iff.mp (not_isBlank_of_isPlain hc)
  unfold Lexeme.measure
  rw [if_neg hblank, if_pos hc]

theorem measure_quote {quote : Char} (hquote : quote = '\'' ∨ quote = '"') (cs : List Char) :
    Lexeme.measure quote cs =
      match closedLength? quote cs with
      | some n => (.literal, n + 1)
      | none => (.text, 1) := by
  have hother : ¬Text.isBlank quote ∧ ¬isPlain quote ∧ ¬quote == '/' ∧ ¬quote == '@' ∧
      ¬quote == '[' := by
    rcases hquote with rfl | rfl <;> decide
  obtain ⟨hblank, hplain, hslash, hat, hbracket⟩ := hother
  unfold Lexeme.measure
  rw [if_neg hblank, if_neg hplain, if_neg hslash, if_neg hat]
  exact if_neg hbracket

theorem measure_slash (cs : List Char) : Lexeme.measure '/' cs =
    match cs with
    | '*' :: body =>
      match commentLength? body with
      | some n => (.comment, n + 2)
      | none => (.openComment, body.length + 2)
    | _ => (.text, 1) := by
  have hblank : ¬Text.isBlank '/' := by decide
  have hplain : ¬isPlain '/' := by decide
  unfold Lexeme.measure
  rw [if_neg hblank, if_neg hplain]
  exact if_pos (beq_self_eq_true '/')

theorem measure_bracket (cs : List Char) : Lexeme.measure '[' cs =
    match headerLength? ('[' :: cs), closedLength? ']' cs with
    | some n, _ => (.header, n)
    | none, some n => (.charClass, n + 1)
    | none, none => (.text, 1) := by
  have hblank : ¬Text.isBlank '[' := by decide
  have hplain : ¬isPlain '[' := by decide
  have hslash : ¬('[' == '/') = true := by decide
  have hat : ¬('[' == '@') = true := by decide
  unfold Lexeme.measure
  rw [if_neg hblank, if_neg hplain, if_neg hslash, if_neg hat]
  exact if_pos (beq_self_eq_true '[')

theorem measure_at (cs : List Char) : Lexeme.measure '@' cs =
    if startsDirective Lexeme.terminalsName ('@' :: cs) then (.terminals, Lexeme.terminalsName.length)
    else if startsDirective Lexeme.passName ('@' :: cs) then (.pass, Lexeme.passName.length)
    else (.text, 1) := by
  have hblank : ¬Text.isBlank '@' := by decide
  have hplain : ¬isPlain '@' := by decide
  have hslash : ¬('@' == '/') = true := by decide
  unfold Lexeme.measure
  rw [if_neg hblank, if_neg hplain, if_neg hslash]
  exact if_pos (beq_self_eq_true '@')

theorem quiet_blanks (hall : ∀ c ∈ cs, Text.isBlank c) (hne : cs ≠ [])
    (hrest : ∀ c ∈ rest.head?, Text.isBlank c = false) : Quiet cs rest [⟨.blank, cs⟩] := by
  obtain ⟨c, cs, rfl⟩ := List.exists_cons_of_ne_nil hne
  obtain ⟨hc, hcs⟩ := List.forall_mem_cons.mp hall
  have hmeasure : Lexeme.measure c (cs ++ rest) = (.blank, cs.length + 1) := by
    rw [measure_blank hc, (takeWhile_run hcs hrest).1, Nat.add_comm]
  exact Quiet.of_measure hmeasure rfl

theorem quiet_plain (hall : ∀ c ∈ cs, isPlain c) (hne : cs ≠ [])
    (hrest : ∀ c ∈ rest.head?, isPlain c = false) : Quiet cs rest [⟨.text, cs⟩] := by
  obtain ⟨c, cs, rfl⟩ := List.exists_cons_of_ne_nil hne
  obtain ⟨hc, hcs⟩ := List.forall_mem_cons.mp hall
  have hmeasure : Lexeme.measure c (cs ++ rest) = (.text, cs.length + 1) := by
    rw [measure_plain hc, (takeWhile_run hcs hrest).1, Nat.add_comm]
  exact Quiet.of_measure hmeasure rfl

theorem closedLength?_append {closing : Char} {inner : List Char} (h : closing ∉ inner)
    (hline : '\n' ∉ inner) (rest : List Char) :
    closedLength? closing (inner ++ closing :: rest) = some (inner.length + 1) := by
  induction inner with
  | nil => simp [closedLength?]
  | cons c inner ih =>
    obtain ⟨hc, hinner⟩ := not_or.mp (mt List.mem_cons.mpr h)
    obtain ⟨hcline, hinnerline⟩ := not_or.mp (mt List.mem_cons.mpr hline)
    rw [List.cons_append, closedLength?, ih hinner hinnerline]
    simp [Ne.symm hc, Ne.symm hcline]

theorem quiet_quoted {quote : Char} {inner : List Char} (hquote : quote = '\'' ∨ quote = '"')
    (h : quote ∉ inner) (hline : '\n' ∉ inner) (rest : List Char) :
    Quiet (quote :: (inner ++ [quote])) rest [⟨.literal, quote :: (inner ++ [quote])⟩] := by
  have hclosed : closedLength? quote (inner ++ [quote] ++ rest) = some (inner.length + 1) := by
    rw [List.append_assoc]
    exact closedLength?_append h hline rest
  have hmeasure : Lexeme.measure quote (inner ++ [quote] ++ rest) =
      (.literal, (inner ++ [quote]).length + 1) := by
    rw [measure_quote hquote, hclosed, List.length_append, List.length_singleton]
  exact Quiet.of_measure hmeasure rfl

theorem readId?_run {id : List Char} (hall : ∀ c ∈ id, isIdChar c) (hne : id ≠ [])
    (rest : List Char) : readId? ('[' :: (id ++ ']' :: rest)) = some (id, rest) := by
  obtain ⟨c, id, rfl⟩ := List.exists_cons_of_ne_nil hne
  have hstop : ∀ c ∈ (']' :: rest).head?, isIdChar c = false := forall_head?_cons (by decide) rest
  obtain ⟨htake, hdrop⟩ := takeWhile_run hall hstop
  unfold readId?
  simp only [htake, hdrop]

/-- A bracket that is no id closes nothing behind it. -/
theorem readId?_closed {inner : List Char} (h : ']' ∉ inner) (rest : List Char) :
    readId? ('[' :: (inner ++ ']' :: rest)) = none ∨
      readId? ('[' :: (inner ++ ']' :: rest)) = some (inner, rest) := by
  by_cases hall : ∀ c ∈ inner, isIdChar c
  · by_cases hne : inner = []
    · subst hne
      exact .inl rfl
    · exact .inr (readId?_run hall hne rest)
  · refine .inl ?_
    have hdrop : inner.dropWhile isIdChar ≠ [] := by
      rwa [Ne, List.dropWhile_eq_nil_iff]
    obtain ⟨d, ds, hds⟩ := List.exists_cons_of_ne_nil hdrop
    have hd : d ∈ inner := (List.dropWhile_suffix isIdChar).subset (hds ▸ List.mem_cons_self)
    have happend : (inner ++ ']' :: rest).dropWhile isIdChar = d :: (ds ++ ']' :: rest) := by
      rw [List.dropWhile_append, hds]
      rfl
    unfold readId?
    simp only [happend]
    split
    case h_1 heq =>
      obtain ⟨rfl, -⟩ := List.cons.inj heq
      exact absurd hd h
    case h_2 => rfl

theorem quiet_bracketed {inner : List Char} (h : ']' ∉ inner) (hline : '\n' ∉ inner)
    (hrest : readSymbol? rest = none) :
    Quiet ('[' :: (inner ++ [']'])) rest [⟨.charClass, '[' :: (inner ++ [']'])⟩] := by
  have hheader : headerLength? ('[' :: (inner ++ ']' :: rest)) = none := by
    unfold headerLength?
    rcases readId?_closed h rest with hid | hid <;> simp [hid, hrest]
  have hmeasure : Lexeme.measure '[' (inner ++ [']'] ++ rest) =
      (.charClass, (inner ++ [']']).length + 1) := by
    rw [measure_bracket, List.append_assoc, List.singleton_append, hheader,
      closedLength?_append h hline, List.length_append, List.length_singleton]
  exact Quiet.of_measure hmeasure rfl

/-- What a token looks like that has been written. -/
inductive Shape : List Char → Prop
  | quoted {quote : Char} {inner : List Char} (hquote : quote = '\'' ∨ quote = '"')
      (h : quote ∉ inner) (hline : '\n' ∉ inner) : Shape (quote :: (inner ++ [quote]))
  | bracketed {inner : List Char} (h : ']' ∉ inner) (hline : '\n' ∉ inner) :
      Shape ('[' :: (inner ++ [']']))
  | word {cs : List Char} (hne : cs ≠ []) (hall : ∀ c ∈ cs, Text.isWord c) : Shape cs
  | sign {c : Char} {cs : List Char} (hword : Text.isWord c = false) (hcolon : c ≠ ':')
      (hall : ∀ d ∈ c :: cs, isPlain d) : Shape (c :: cs)

theorem shape_written {t : Token} (q : Quoting) (h : t.isWritable) :
    Shape (t.written q).toList := by
  rcases exists_operator?_of_isReadable (Token.isReadable_of_isWritable h) with
    ⟨text, rfl⟩ | ⟨spec, rfl⟩ | ⟨spec, rfl⟩ | ⟨name, rfl⟩ | ⟨c, hc⟩
  · obtain ⟨hline, hquotes⟩ := Token.isWritable_literal_iff.mp h
    rw [Token.toList_written_literal]
    exact .quoted (q.isQuote text) (q.notMem text hquotes) hline
  · obtain ⟨hclosing, hline⟩ := Token.isWritable_charClass_iff.mp h
    rw [Token.toList_written_charClass]
    exact .bracketed hclosing hline
  · obtain ⟨ds, -, hall, hspec⟩ := Token.isHexText_iff.mp h
    have hdigits : ∀ d ∈ 'x' :: ds, isPlain d := List.forall_mem_cons.mpr
      ⟨by decide, fun d hd => isPlain_of_isWord (isWord_of_isHexDigit (hall d hd))⟩
    rw [Token.written, hspec]
    exact .sign (by decide) (by decide) (List.forall_mem_cons.mpr ⟨by decide, hdigits⟩)
  · obtain ⟨c, cs, hc, hcs, hname⟩ := Token.isName_iff.mp h
    rw [Token.written, hname]
    exact .word (List.cons_ne_nil c cs)
      (List.forall_mem_cons.mpr ⟨Token.isWord_of_isStart hc, hcs⟩)
  · have hsign : Text.isWord c = false ∧ c ≠ ':' ∧ isPlain c := by
      rcases Token.eq_of_operator? hc with rfl | rfl | rfl | rfl | rfl | rfl | rfl <;> decide
    rw [Token.toList_written_operator q hc]
    exact .sign hsign.1 hsign.2.1 (List.forall_mem_singleton.mpr hsign.2.2)

/-- A token is quiet in front of a blank that starts no definition. -/
theorem Shape.exists_quiet (h : Shape cs) (hblank : StartsBlank rest)
    (hrest : readSymbol? rest = none) : ∃ ls, Quiet cs rest ls := by
  cases h with
  | quoted hquote h hline => exact ⟨_, quiet_quoted hquote h hline rest⟩
  | bracketed h hline => exact ⟨_, quiet_bracketed h hline hrest⟩
  | word hne hall =>
    have hplain : ∀ c ∈ cs, isPlain c := fun c hc => isPlain_of_isWord (hall c hc)
    exact ⟨_, quiet_plain hplain hne hblank.isPlain_eq_false⟩
  | sign _ _ hall => exact ⟨_, quiet_plain hall (List.cons_ne_nil _ _) hblank.isPlain_eq_false⟩

/-- No token starts like the sign of definition, and one that starts like a symbol is nothing else. -/
theorem Shape.exists_eq_cons (h : Shape cs) :
    ∃ c ds, cs = c :: ds ∧ Text.isBlank c = false ∧ c ≠ ':' ∧
      (Text.isWord c = false ∨ ∀ d ∈ cs, Text.isWord d) := by
  cases h with
  | quoted hquote =>
    refine ⟨_, _, rfl, ?_⟩
    rcases hquote with rfl | rfl
    all_goals exact ⟨by decide, by decide, .inl (by decide)⟩
  | bracketed => exact ⟨_, _, rfl, by decide, by decide, .inl (by decide)⟩
  | word hne hall =>
    obtain ⟨c, ds, rfl⟩ := List.exists_cons_of_ne_nil hne
    have hword : Text.isWord c := hall c List.mem_cons_self
    exact ⟨c, ds, rfl, isBlank_eq_false_of_isWord hword, ne_of_isWord hword (by decide), .inr hall⟩
  | sign hword hcolon hall =>
    exact ⟨_, _, rfl, not_isBlank_of_isPlain (hall _ List.mem_cons_self), hcolon, .inl hword⟩

end Pieces

/-- What stands behind the words of a line: blanks up to the end of the text, or up to another line. -/
structure LineEnd (bs next : List Char) : Prop where
  blank : ∀ c ∈ bs, Text.isBlank c
  next : next = [] ∨ bs ≠ [] ∧ (next.head? = some '[' ∨ next.head? = some '@')

section Following
variable {bs next cs word rest : List Char} {t : Token} {ts : List Token}

namespace LineEnd
variable (h : LineEnd bs next)
include h

theorem head_next : ∀ c ∈ next.head?, Text.isBlank c = false ∧ Text.isWord c = false ∧ c ≠ ':' := by
  intro c hc
  rcases h.next with rfl | ⟨-, hhead | hhead⟩
  · cases hc
  · obtain rfl := Option.some.inj (hhead.symm.trans hc)
    decide
  · obtain rfl := Option.some.inj (hhead.symm.trans hc)
    decide

theorem trimStart : Text.trimStart (bs ++ next) = next :=
  (takeWhile_run h.blank fun c hc => (h.head_next c hc).1).2

theorem startsBlank : StartsBlank (bs ++ next) := by
  cases bs with
  | cons b bs =>
    refine forall_head?_cons ?_ _
    exact h.blank b List.mem_cons_self
  | nil =>
    rcases h.next with rfl | ⟨hne, -⟩
    · nofun
    · exact absurd rfl hne

theorem startsBlank_spacedTokens (q : Quoting) (ts : List Token) :
    StartsBlank (spacedTokens q ts ++ (bs ++ next)) := by
  cases ts with
  | nil => exact h.startsBlank
  | cons t ts => exact forall_head?_cons (by decide) _

end LineEnd

theorem trimStart_spacedTokens (q : Quoting) (ht : t.isWritable) (rest : List Char) :
    Text.trimStart (spacedTokens q (t :: ts) ++ rest) =
      (t.written q).toList ++ (spacedTokens q ts ++ rest) := by
  obtain ⟨c, cs, hwritten, hblank, -, -⟩ := (shape_written q ht).exists_eq_cons
  have hspace : Text.isBlank ' ' = true := by decide
  simp [spacedTokens, hwritten, Text.trimStart, hspace, hblank]

/-- A symbol without the sign of definition behind it defines nothing. -/
theorem readSymbol?_eq_none (hcs : Text.trimStart cs = word ++ rest)
    (hword : ∀ c ∈ word, Text.isWord c) (hrest : ∀ c ∈ rest.head?, Text.isWord c = false)
    (hcolon : (Text.trimStart rest).head? ≠ some ':') : readSymbol? cs = none := by
  obtain ⟨htake, hdrop⟩ := takeWhile_run hword hrest
  unfold readSymbol?
  simp only [hcs, htake, hdrop]
  split
  case h_1 heq =>
    rw [heq] at hcolon
    exact absurd rfl hcolon
  case h_2 => rfl

theorem head?_trimStart_spacedTokens (hline : LineEnd bs next) (q : Quoting)
    (hts : ∀ t ∈ ts, t.isWritable) :
    (Text.trimStart (spacedTokens q ts ++ (bs ++ next))).head? ≠ some ':' := by
  intro hhead
  cases ts with
  | nil =>
    replace hhead : (Text.trimStart (bs ++ next)).head? = some ':' := hhead
    rw [hline.trimStart] at hhead
    exact (hline.head_next ':' hhead).2.2 rfl
  | cons t ts =>
    obtain ⟨ht, -⟩ := List.forall_mem_cons.mp hts
    obtain ⟨c, cs, hwritten, -, hcolon, -⟩ := (shape_written q ht).exists_eq_cons
    rw [trimStart_spacedTokens q ht, hwritten] at hhead
    exact hcolon (Option.some.inj hhead)

/-- No run of tokens starts with a symbol and the sign of definition. -/
theorem readSymbol?_spacedTokens (hline : LineEnd bs next) (q : Quoting)
    (hts : ∀ t ∈ ts, t.isWritable) : readSymbol? (spacedTokens q ts ++ (bs ++ next)) = none := by
  have hcolon := head?_trimStart_spacedTokens hline q hts
  -- Where no word starts, the symbol is empty and the sign of definition would have to come at once.
  have hrun : ∀ cs, (Text.trimStart cs).head? ≠ some ':' →
      (∀ c ∈ (Text.trimStart cs).head?, Text.isWord c = false) → readSymbol? cs = none := by
    intro cs hcolon hhead
    have htrim : Text.trimStart (Text.trimStart cs) = Text.trimStart cs :=
      List.dropWhile_idempotent Text.isBlank cs
    have hcolon' : (Text.trimStart (Text.trimStart cs)).head? ≠ some ':' := by rwa [htrim]
    exact readSymbol?_eq_none rfl (List.forall_mem_nil _) hhead hcolon'
  cases ts with
  | nil =>
    refine hrun _ hcolon fun c hc => ?_
    replace hc : c ∈ (Text.trimStart (bs ++ next)).head? := hc
    rw [hline.trimStart] at hc
    exact (hline.head_next c hc).2.1
  | cons t ts =>
    obtain ⟨ht, hts⟩ := List.forall_mem_cons.mp hts
    obtain ⟨c, cs, hwritten, -, -, hword | hword⟩ := (shape_written q ht).exists_eq_cons
    · refine hrun _ hcolon ?_
      rw [trimStart_spacedTokens q ht, hwritten]
      refine forall_head?_cons ?_ _
      exact hword
    · refine readSymbol?_eq_none (trimStart_spacedTokens q ht _) hword ?_ ?_
      · exact (hline.startsBlank_spacedTokens q ts).isWord_eq_false
      · exact head?_trimStart_spacedTokens hline q hts

theorem Quiet.space {ls : List Lexeme} (h : Quiet cs rest ls)
    (hcs : ∀ c ∈ (cs ++ rest).head?, Text.isBlank c = false) :
    Quiet (' ' :: cs) rest (⟨.blank, [' ']⟩ :: ls) := by
  have hspace : ∀ c ∈ [' '], Text.isBlank c := List.forall_mem_singleton.mpr (by decide)
  exact (quiet_blanks hspace nofun hcs).append h

theorem LineEnd.exists_blanks (hline : LineEnd bs next) :
    ∃ ls, Quiet bs next ls ∧ ∀ l ∈ ls, l.kind = .blank := by
  by_cases hbs : bs = []
  · exact ⟨[], hbs ▸ .nil next, List.forall_mem_nil _⟩
  · have hnext : ∀ c ∈ next.head?, Text.isBlank c = false := fun c hc => (hline.head_next c hc).1
    exact ⟨_, quiet_blanks hline.blank hbs hnext, List.forall_mem_singleton.mpr rfl⟩

/-- The rest of a line is quiet up to the next line. -/
theorem quiet_spacedTokens (hline : LineEnd bs next) (q : Quoting)
    (hts : ∀ t ∈ ts, t.isWritable) : ∃ ls, Quiet (spacedTokens q ts ++ bs) next ls := by
  induction ts with
  | nil =>
    obtain ⟨ls, hblanks, -⟩ := hline.exists_blanks
    exact ⟨ls, hblanks⟩
  | cons t ts ih =>
    obtain ⟨ht, hts⟩ := List.forall_mem_cons.mp hts
    obtain ⟨ls, htail⟩ := ih hts
    have hblank := hline.startsBlank_spacedTokens q ts
    have hsymbol := readSymbol?_spacedTokens hline q hts
    rw [← List.append_assoc] at hblank hsymbol
    obtain ⟨ms, htoken⟩ := (shape_written q ht).exists_quiet hblank hsymbol
    rw [List.append_assoc] at htoken
    obtain ⟨c, cs, hwritten, hc, -, -⟩ := (shape_written q ht).exists_eq_cons
    have hhead : ∀ d ∈ ((t.written q).toList ++ (spacedTokens q ts ++ bs) ++ next).head?,
        Text.isBlank d = false := by
      rw [hwritten]
      refine forall_head?_cons ?_ _
      exact hc
    have hcons : spacedTokens q (t :: ts) ++ bs =
        ' ' :: ((t.written q).toList ++ (spacedTokens q ts ++ bs)) := by
      simp [spacedTokens]
    rw [hcons]
    exact ⟨_, (Quiet.append (by rwa [List.append_assoc]) htail).space hhead⟩

end Following

end FlatGrammar
