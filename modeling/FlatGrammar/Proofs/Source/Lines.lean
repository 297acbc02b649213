import FlatGrammar.Proofs.Source.Lexeme
import FlatGrammar.Proofs.Text.Legible
import FlatGrammar.Proofs.Text.Trimming

/-! # Written lines

A grammar text that has been written has a line for each rule and each directive. A line is a span: its
first lexeme starts one, the others are quiet, and what comes next starts another span. The text of the
span is the line without the blanks behind it.
-/
namespace FlatGrammar

inductive Line where
  | definition (symbol id : String) (expr : Expr)
  | pass (expr : Expr)
  | terminals

namespace Line

def written (q : Quoting) : Line → String
  | definition symbol id e => "[" ++ id ++ "] " ++ symbol ++ " ::= " ++ e.written q
  | pass e => "@pass " ++ e.written q
  | terminals => "@terminals"

def isWritable : Line → Bool
  | definition symbol id e =>
    symbol != "" && symbol.toList.all Text.isWord && id != "" && id.toList.all isIdChar && e.isNormal
  | pass e => e.isNormal
  | terminals => true

/-- The lexeme a line starts with. -/
def start : Line → Lexeme
  | definition _ id _ => ⟨.header, '[' :: (id.toList ++ [']'])⟩
  | pass _ => ⟨.pass, Lexeme.passName⟩
  | terminals => ⟨.terminals, Lexeme.terminalsName⟩

/-- What stands between the first lexeme and the right-hand side. -/
def declared : Line → List Char
  | definition symbol _ _ => ' ' :: (symbol.toList ++ [' ', ':', ':', '='])
  | pass _ => []
  | terminals => []

def tokens : Line → List Token
  | definition _ _ e => e.tokens
  | pass e => e.tokens
  | terminals => []

/-- A line without the blanks behind it. -/
def core (q : Quoting) (l : Line) : List Char :=
  l.start.text ++ (l.declared ++ spacedTokens q l.tokens)

end Line

def writtenLines (q : Quoting) (lines : List Line) : String :=
  "\n".intercalate (lines.map (Line.written q))

/-- Lines in a text, each with blanks behind it. -/
inductive Laid (q : Quoting) : List Line → List Char → Prop
  | nil : Laid q [] []
  | cons {l : Line} {lines : List Line} {bs next : List Char} (hend : LineEnd bs next)
      (hlines : Laid q lines next) : Laid q (l :: lines) (l.core q ++ (bs ++ next))

section Ends
open Text
variable {cs bs : List Char}

theorem Shape.endsInked (h : Shape cs) : EndsInked cs := by
  cases h with
  | @quoted quote inner hquote =>
    refine ⟨quote :: inner, quote, rfl, ?_⟩
    rcases hquote with rfl | rfl
    all_goals decide
  | @bracketed inner => exact ⟨'[' :: inner, ']', rfl, by decide⟩
  | word hne hall => exact endsInked_of_forall hne fun c hc => isBlank_eq_false_of_isWord (hall c hc)
  | sign _ _ hall =>
    exact endsInked_of_forall (List.cons_ne_nil _ _) fun c hc => not_isBlank_of_isPlain (hall c hc)

theorem endsInked_spacedTokens (q : Quoting) {ts : List Token} (hts : ∀ t ∈ ts, t.isWritable)
    (hcs : EndsInked cs) : EndsInked (cs ++ spacedTokens q ts) := by
  rcases List.eq_nil_or_concat ts with rfl | ⟨us, t, rfl⟩
  · simpa [spacedTokens] using hcs
  · have ht := (shape_written q (hts t (by simp))).endsInked
    have hlast : cs ++ spacedTokens q (us.concat t) =
        (cs ++ spacedTokens q us ++ [' ']) ++ (t.written q).toList := by
      simp [spacedTokens]
    rw [hlast]
    exact ht.append _

end Ends

section Writing
variable {q : Quoting} {l : Line} {lines : List Line} {cs rest : List Char}

namespace Line

theorem isWritable_definition_iff {symbol id : String} {e : Expr} :
    (definition symbol id e).isWritable ↔
      (symbol.toList ≠ [] ∧ ∀ c ∈ symbol.toList, Text.isWord c) ∧
        (id.toList ≠ [] ∧ ∀ c ∈ id.toList, isIdChar c) ∧ e.isNormal := by
  simp [isWritable, and_assoc]

theorem isWritable_of_mem_tokens (h : l.isWritable) : ∀ t ∈ l.tokens, t.isWritable := by
  cases l with
  | definition symbol id e =>
    exact FlatGrammar.isWritable_of_mem_tokens e (isWritable_definition_iff.mp h).2.2
  | pass e => exact FlatGrammar.isWritable_of_mem_tokens e h
  | terminals => exact List.forall_mem_nil _

theorem head?_core (q : Quoting) (l : Line) :
    (l.core q).head? = some '[' ∨ (l.core q).head? = some '@' := by
  cases l with
  | definition => exact .inl rfl
  | pass | terminals => exact .inr rfl

theorem endsInked_core (q : Quoting) (h : l.isWritable) : EndsInked (l.core q) := by
  have hdeclared : EndsInked (l.start.text ++ l.declared) := by
    cases l with
    | definition symbol id e =>
      refine ⟨'[' :: (id.toList ++ ']' :: ' ' :: (symbol.toList ++ [' ', ':', ':'])), '=', ?_, ?_⟩
      · simp [start, declared]
      · decide
    | pass e => exact ⟨['@', 'p', 'a', 's'], 's', rfl, by decide⟩
    | terminals => exact ⟨['@', 't', 'e', 'r', 'm', 'i', 'n', 'a', 'l'], 's', rfl, by decide⟩
  have hcore := endsInked_spacedTokens q (isWritable_of_mem_tokens h) hdeclared
  rwa [List.append_assoc] at hcore

theorem trimChars_core (q : Quoting) (h : l.isWritable) {bs : List Char}
    (hbs : ∀ c ∈ bs, Text.isBlank c) : Text.trimChars (l.core q ++ bs) = l.core q := by
  have hstart : Text.trimStart (l.core q ++ bs) = l.core q ++ bs := by
    cases l with
    | definition | pass | terminals => rfl
  rw [Text.trimChars, hstart, trimEnd_append (endsInked_core q h) hbs]

end Line

/-- A right-hand side without tokens leaves a blank behind the line. -/
theorem exists_toList_written (q : Quoting) (e : Expr) :
    ∃ bs, (∀ c ∈ bs, Text.isBlank c) ∧
      ' ' :: (e.written q).toList = spacedTokens q e.tokens ++ bs := by
  by_cases htokens : e.tokens = []
  · refine ⟨[' '], List.forall_mem_singleton.mpr (by decide), ?_⟩
    rw [Expr.written, htokens]
    rfl
  · refine ⟨[], List.forall_mem_nil _, ?_⟩
    have htexts : e.tokens.map (Token.written q) ≠ [] := mt List.map_eq_nil_iff.mp htokens
    have htext := append_toList_intercalate " " htexts
    rw [List.flatMap_map] at htext
    rw [List.append_nil]
    exact htext

theorem Line.exists_toList_written (q : Quoting) (l : Line) :
    ∃ bs, (∀ c ∈ bs, Text.isBlank c) ∧ (l.written q).toList = l.core q ++ bs := by
  cases l with
  | definition symbol id e =>
    obtain ⟨bs, hbs, he⟩ := FlatGrammar.exists_toList_written q e
    refine ⟨bs, hbs, ?_⟩
    simp [written, core, start, declared, tokens, ← he]
  | pass e =>
    obtain ⟨bs, hbs, he⟩ := FlatGrammar.exists_toList_written q e
    refine ⟨bs, hbs, ?_⟩
    simp [written, core, start, declared, tokens, Lexeme.passName, ← he]
  | terminals =>
    refine ⟨[], List.forall_mem_nil _, ?_⟩
    have hcore : core q terminals = Lexeme.terminalsName := List.append_nil _
    rw [List.append_nil, hcore]
    rfl

theorem Laid.head? (h : Laid q (l :: lines) cs) : cs.head? = some '[' ∨ cs.head? = some '@' := by
  cases h with
  | cons =>
    rcases l.head?_core q with hhead | hhead
    · exact .inl (by rw [List.head?_append, hhead]; rfl)
    · exact .inr (by rw [List.head?_append, hhead]; rfl)

theorem laid_writtenLines (q : Quoting) (hne : lines ≠ []) {ending : String}
    (hending : ∀ c ∈ ending.toList, Text.isBlank c) :
    Laid q lines (writtenLines q lines ++ ending).toList := by
  induction lines with
  | nil => exact absurd rfl hne
  | cons l lines ih =>
    obtain ⟨bs, hbs, hwritten⟩ := l.exists_toList_written q
    cases lines with
    | nil =>
      have htext : (writtenLines q [l] ++ ending).toList =
          l.core q ++ ((bs ++ ending.toList) ++ []) := by
        simp [writtenLines, hwritten]
      rw [htext]
      exact .cons ⟨List.forall_mem_append.mpr ⟨hbs, hending⟩, .inl rfl⟩ .nil
    | cons m lines =>
      have htext : (writtenLines q (l :: m :: lines) ++ ending).toList =
          l.core q ++ ((bs ++ ['\n']) ++ (writtenLines q (m :: lines) ++ ending).toList) := by
        simp [writtenLines, String.intercalate_cons_cons, hwritten]
      have hlines := ih nofun
      have hblank : ∀ c ∈ bs ++ ['\n'], Text.isBlank c :=
        List.forall_mem_append.mpr ⟨hbs, List.forall_mem_singleton.mpr (by decide)⟩
      rw [htext]
      exact .cons ⟨hblank, .inr ⟨by simp, hlines.head?⟩⟩ hlines

end Writing

section Spans
variable {q : Quoting} {l : Line} {lines : List Line} {bs next cs rest : List Char}
variable {ls ms : List Lexeme}

theorem readSymbol?_declared {symbol : List Char} (hne : symbol ≠ [])
    (hall : ∀ c ∈ symbol, Text.isWord c) (rest : List Char) :
    readSymbol? (' ' :: (symbol ++ [' ', ':', ':', '=']) ++ rest) = some (symbol, rest) := by
  have hspace : ∀ c ∈ [' '], Text.isBlank c := List.forall_mem_singleton.mpr rfl
  refine readSymbol?_eq_some_iff.mpr ⟨[' '], [' '], hspace, hne, hall, hspace, ?_⟩
  simp

/-- A line starts a span, whatever stands on it. -/
theorem scan_line (q : Quoting) (h : l.isWritable) (hend : LineEnd bs next) :
    Lexeme.scan 0 (l.core q ++ (bs ++ next)) =
      l.start :: Lexeme.scan 0 (l.declared ++ spacedTokens q l.tokens ++ (bs ++ next)) := by
  have hblank := hend.startsBlank_spacedTokens q l.tokens
  rw [Line.core, List.append_assoc]
  refine scan_of_cutOff ?_
  cases l with
  | definition symbol id e =>
    obtain ⟨⟨hsymbol, hsymbols⟩, ⟨hid, hids⟩, -⟩ := Line.isWritable_definition_iff.mp h
    refine .header hid hids ?_
    rw [Line.declared, List.append_assoc, readSymbol?_declared hsymbol hsymbols]
    rfl
  | pass e => exact .pass hblank.isWord_eq_false
  | terminals => exact .terminals hblank.isWord_eq_false

theorem quiet_declared (h : l.isWritable) (hrest : StartsBlank rest) :
    ∃ ls, Quiet l.declared rest ls := by
  cases l with
  | definition symbol id e =>
    obtain ⟨⟨hne, hall⟩, -, -⟩ := Line.isWritable_definition_iff.mp h
    obtain ⟨c, cs, hsymbol⟩ := List.exists_cons_of_ne_nil hne
    have hsign : Quiet [':', ':', '='] rest [⟨.text, [':', ':', '=']⟩] :=
      quiet_plain (by simp [isPlain, Text.isBlank]) nofun hrest.isPlain_eq_false
    have hspaced := hsign.space (forall_head?_cons (by decide) _)
    have hname : Quiet symbol.toList ([' ', ':', ':', '='] ++ rest) [⟨.text, symbol.toList⟩] :=
      quiet_plain (fun d hd => isPlain_of_isWord (hall d hd)) hne (forall_head?_cons (by decide) _)
    refine ⟨_, (hname.append hspaced).space ?_⟩
    rw [hsymbol] at hall ⊢
    refine forall_head?_cons ?_ _
    exact isBlank_eq_false_of_isWord (hall c List.mem_cons_self)
  | pass | terminals => exact ⟨[], .nil rest⟩

theorem exists_quiet_line (q : Quoting) (h : l.isWritable) (hend : LineEnd bs next) :
    ∃ ls, Quiet (l.declared ++ spacedTokens q l.tokens ++ bs) next ls := by
  have hblank := hend.startsBlank_spacedTokens q l.tokens
  rw [← List.append_assoc] at hblank
  obtain ⟨ls, hdeclared⟩ := quiet_declared h hblank
  obtain ⟨ms, htokens⟩ := quiet_spacedTokens hend q (Line.isWritable_of_mem_tokens h)
  rw [List.append_assoc]
  exact ⟨_, hdeclared.append htokens⟩

theorem Quiet.starts_eq_false (h : Quiet cs rest ls) : ∀ l ∈ ls, l.starts = false := by
  intro l hl
  have hquiet := h.quiet l hl
  unfold Lexeme.starts
  split
  case h_5 => rfl
  all_goals
    rename_i hkind
    rw [hkind] at hquiet
    cases hquiet

theorem Quiet.flatMap_spanText (h : Quiet cs rest ls) : ls.flatMap Lexeme.spanText = cs := by
  rw [← h.text]
  refine List.flatMap_congr fun l hl => if_neg fun hkind => ?_
  have hquiet := h.quiet l hl
  rw [hkind] at hquiet
  cases hquiet

/-- Quiet lexemes belong to the span before them. -/
theorem Quiet.itemsFrom (h : Quiet cs rest ls) (line : Nat) (ms : List Lexeme) :
    ∃ n, FlatGrammar.itemsFrom true line (ls ++ ms) = FlatGrammar.itemsFrom true n ms := by
  have hall := h.quiet
  clear h
  induction ls generalizing line with
  | nil => exact ⟨line, rfl⟩
  | cons l ls ih =>
    obtain ⟨hl, hls⟩ := List.forall_mem_cons.mp hall
    obtain ⟨n, hn⟩ := ih (line + l.text.count '\n') hls
    refine ⟨n, ?_⟩
    rw [← hn]
    obtain ⟨kind, text⟩ := l
    cases kind with
    | blank | literal | charClass | text => rfl
    | comment | openComment | terminals | pass | header => cases hl

theorem itemsFrom_blanks (hall : ∀ l ∈ ls, l.kind = .blank) (covered : Bool) (line : Nat)
    (ms : List Lexeme) : ∃ n, itemsFrom covered line (ls ++ ms) = itemsFrom covered n ms := by
  induction ls generalizing line with
  | nil => exact ⟨line, rfl⟩
  | cons l ls ih =>
    obtain ⟨hl, hls⟩ := List.forall_mem_cons.mp hall
    obtain ⟨n, hn⟩ := ih hls (line + l.text.count '\n')
    refine ⟨n, ?_⟩
    obtain ⟨kind, text⟩ := l
    obtain rfl := hl
    exact hn

/-- What ends the span before it and can be read. -/
def OpensSpan (ms : List Lexeme) : Prop := ∀ m ∈ ms.head?, m.starts ∧ m.kind ≠ .openComment

theorem region?_append (hls : ∀ l ∈ ls, l.starts = false) (hms : OpensSpan ms) :
    region? (ls ++ ms) = some ls := by
  have hstop : ∀ m ∈ ms.head?, (!m.starts) = false := fun m hm => by rw [(hms m hm).1]; rfl
  have htake := (takeWhile_run (fun l hl => by rw [hls l hl]; rfl) hstop).1
  have hfind : (ls ++ ms).find? Lexeme.starts = ms.head? := by
    rw [List.find?_append, List.find?_eq_none.mpr fun l hl => by rw [hls l hl]; nofun]
    cases ms with
    | nil => rfl
    | cons m ms => simp [(hms m rfl).1]
  unfold region?
  rw [hfind, htake]
  split
  case h_1 heq => exact absurd rfl (hms _ heq).2
  case h_2 => rfl

theorem Laid.opensSpan (h : Laid q lines cs) (hlines : ∀ l ∈ lines, l.isWritable) :
    OpensSpan (Lexeme.scan 0 cs) := by
  cases h with
  | nil => exact fun m hm => nomatch hm
  | @cons l _ _ _ hend _ =>
    rw [scan_line q (hlines l List.mem_cons_self) hend]
    refine forall_head?_cons ?_ _
    cases l with
    | definition | pass | terminals => exact ⟨rfl, nofun⟩

theorem spanItem?_line (h : l.isWritable) (hbs : ∀ c ∈ bs, Text.isBlank c)
    (hls : Quiet (l.declared ++ spacedTokens q l.tokens ++ bs) next ls) (hms : OpensSpan ms)
    (line : Nat) : spanItem? line l.start (ls ++ ms) = some (.span ⟨l.core q, line⟩) := by
  have hcore : l.start.text ++ ls.flatMap Lexeme.spanText = l.core q ++ bs := by
    rw [hls.flatMap_spanText, Line.core]
    simp only [List.append_assoc]
  rw [spanItem?, region?_append hls.starts_eq_false hms, Option.map_some, hcore,
    Line.trimChars_core q h hbs]

/-- A line is one span, and the lines behind it are read on. -/
theorem itemsFrom_line (q : Quoting) (h : l.isWritable) (hend : LineEnd bs next)
    (hnext : OpensSpan (Lexeme.scan 0 next)) (covered : Bool) (line : Nat) :
    ∃ covered' n, itemsFrom covered line (Lexeme.scan 0 (l.core q ++ (bs ++ next))) =
      .span ⟨l.core q, line⟩ :: itemsFrom covered' n (Lexeme.scan 0 next) := by
  obtain ⟨ls, hquiet⟩ := exists_quiet_line q h hend
  have hscan := hquiet.scan
  rw [List.append_assoc] at hscan
  have hspan := spanItem?_line h hend.blank hquiet hnext line
  rw [scan_line q h hend]
  cases l with
  | definition | pass =>
    obtain ⟨n, hitems⟩ := hquiet.itemsFrom (line + _) (Lexeme.scan 0 next)
    refine ⟨true, n, ?_⟩
    rw [hscan, ← hitems]
    exact congrArg (·.toList ++ _) hspan
  | terminals =>
    -- Nothing belongs to this span, so blanks are all that may stand behind it.
    obtain ⟨ms, hms, hblanks⟩ := hend.exists_blanks
    have hscan : Lexeme.scan 0 (bs ++ next) = ms ++ Lexeme.scan 0 next := hms.scan
    have hcore : Line.terminals.core q = Lexeme.terminalsName := List.append_nil _
    obtain ⟨n, hitems⟩ := itemsFrom_blanks hblanks false (line + _) (Lexeme.scan 0 next)
    refine ⟨false, n, ?_⟩
    rw [hcore, ← hitems, ← hscan]
    rfl

theorem itemsFrom_lines (h : Laid q lines cs) (hlines : ∀ l ∈ lines, l.isWritable) (covered : Bool)
    (line : Nat) : ∃ spans : List Span,
      itemsFrom covered line (Lexeme.scan 0 cs) = spans.map .span ∧
        spans.map Span.text = lines.map (Line.core q) := by
  induction h generalizing covered line with
  | nil => exact ⟨[], rfl, rfl⟩
  | @cons l lines bs next hend hnext ih =>
    obtain ⟨hl, hlines⟩ := List.forall_mem_cons.mp hlines
    obtain ⟨covered', n, hitems⟩ := itemsFrom_line q hl hend (hnext.opensSpan hlines) covered line
    obtain ⟨spans, hspans, htexts⟩ := ih hlines covered' n
    refine ⟨⟨l.core q, line⟩ :: spans, ?_, ?_⟩
    · rw [hitems, hspans, List.map_cons]
    · rw [List.map_cons, htexts, List.map_cons]

/-- A text that has been written holds its lines and nothing else. -/
theorem items_writtenLines (q : Quoting) (hlines : ∀ l ∈ lines, l.isWritable) {ending : String}
    (hending : ∀ c ∈ ending.toList, Text.isBlank c) : ∃ spans : List Span,
      items (writtenLines q lines ++ ending).toList = spans.map .span ∧
        spans.map Span.text = lines.map (Line.core q) := by
  by_cases hne : lines = []
  · subst hne
    have hend : LineEnd ending.toList [] := ⟨hending, .inl rfl⟩
    obtain ⟨ls, hquiet, hblanks⟩ := hend.exists_blanks
    obtain ⟨n, hitems⟩ := itemsFrom_blanks hblanks false 1 []
    have htext : (writtenLines q [] ++ ending).toList = ending.toList ++ [] := by
      simp [writtenLines]
    refine ⟨[], ?_, rfl⟩
    rw [items, lexemes, htext, hquiet.scan]
    exact hitems
  · exact itemsFrom_lines (laid_writtenLines q hne hending) hlines false 1

end Spans

end FlatGrammar
