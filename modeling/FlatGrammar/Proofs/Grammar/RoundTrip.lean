import FlatGrammar.Proofs.Grammar.Loading
import FlatGrammar.Proofs.Source.Lines

/-! # Loading undoes writing

A grammar text that has been written is loaded to the rules on its lines. The text is read three times,
by the lexemes, as definitions and by the tokens, and each time it is cut where the lines were put together.
-/
namespace FlatGrammar

/-- The id of the rule on a line. All pass rules have the same. -/
def Line.id? : Line → Option String
  | definition _ id _ => some id
  | pass _ => some passId
  | terminals => none

/-- The rules on lines, the kinds of which depend on whether the terminals have started. -/
def declaredRules (terminals : Bool) : List Line → List Rule
  | [] => []
  | .definition symbol id e :: lines =>
    let kind := if terminals then .terminal else .derived (some symbol) e
    { symbol := some symbol, id, kind, expr := e } :: declaredRules terminals lines
  | .pass e :: lines =>
    { symbol := none, id := passId, kind := .pass, expr := e } :: declaredRules terminals lines
  | .terminals :: lines => declaredRules true lines

/-- The rule without where it comes from. -/
def Rule.bare (r : Rule) : Rule := { r with source := none, location := none }

theorem map_id_declaredRules (terminals : Bool) (lines : List Line) :
    (declaredRules terminals lines).map Rule.id = lines.filterMap Line.id? := by
  induction lines generalizing terminals with
  | nil => rfl
  | cons l lines ih =>
    cases l with
    | definition | pass => exact congrArg (_ :: ·) (ih terminals)
    | terminals => exact ih true

section Reading
variable {file : Option String} {p : Progress} {q : Quoting} {s : Span} {symbol id : String} {e : Expr}

theorem split?_core (q : Quoting) (h : (Line.definition symbol id e).isWritable) :
    Definition.split? ((Line.definition symbol id e).core q) =
      some ⟨id.toList, symbol.toList, spacedTokens q e.tokens⟩ := by
  obtain ⟨⟨hsymbol, hsymbols⟩, ⟨hid, hids⟩, -⟩ := Line.isWritable_definition_iff.mp h
  have hcore : (Line.definition symbol id e).core q = '[' :: (id.toList ++ ']' ::
      (' ' :: (symbol.toList ++ [' ', ':', ':', '=']) ++ spacedTokens q e.tokens)) := by
    simp [Line.core, Line.start, Line.declared, Line.tokens]
  rw [Definition.split?, hcore, readId?_run hids hid]
  simp only [readSymbol?_declared hsymbol hsymbols]

/-- No token starts with a colon, so nothing is taken for the sign of definition. -/
theorem passExpression_core (h : e.isNormal) (hs : s.text = (Line.pass e).core q) :
    s.passExpression = Text.trimStart (spacedTokens q e.tokens) := by
  have hend : LineEnd [] [] := ⟨List.forall_mem_nil _, .inl rfl⟩
  have hcolon := head?_trimStart_spacedTokens hend q (isWritable_of_mem_tokens e h)
  have hrest : s.text.drop Lexeme.passName.length = spacedTokens q e.tokens := by
    rw [hs]
    exact List.drop_left
  rw [List.append_nil, List.append_nil] at hcolon
  rw [Span.passExpression, hrest]
  split
  case h_1 heq =>
    rw [heq] at hcolon
    exact absurd rfl hcolon
  case h_2 => rfl

theorem exists_rule_of_declaration {d : Declaration} (hd : s.declaration file p = .ok d)
    (he : Expr.parse? d.rhs = .ok e) : ∃ r, s.rule file p = .ok r ∧
      r.bare = { symbol := d.symbol, id := d.id, kind := d.kind p.terminals e, expr := e } := by
  refine ⟨{ symbol := d.symbol, id := d.id, kind := d.kind p.terminals e, expr := e,
            source := some (String.ofList s.text), location := some (s.location file) }, ?_, rfl⟩
  rw [Span.rule, hd]
  simp only [he]

theorem exists_rule_definition (h : (Line.definition symbol id e).isWritable)
    (hs : s.text = (Line.definition symbol id e).core q) (file : Option String) (p : Progress) :
    ∃ r, s.rule file p = .ok r ∧ r.bare =
      { symbol := some symbol, id,
        kind := if p.terminals then .terminal else .derived (some symbol) e, expr := e } := by
  have hparse := (parse?_spacedTokens q (Line.isWritable_definition_iff.mp h).2.2).1
  have hpass : s.isPass = false := by
    rw [Span.isPass, hs]
    rfl
  have hdeclaration : s.declaration file p = .ok ⟨some symbol, id, spacedTokens q e.tokens⟩ := by
    rw [Span.declaration, hpass, hs, split?_core q h]
    simp
  exact exists_rule_of_declaration hdeclaration hparse

theorem exists_rule_pass (h : e.isNormal) (hs : s.text = (Line.pass e).core q)
    (hp : p.pass? = none) (file : Option String) : ∃ r, s.rule file p = .ok r ∧
      r.bare = { symbol := none, id := passId, kind := .pass, expr := e } := by
  have hparse := (parse?_spacedTokens q h).2
  have hpass : s.isPass := by
    rw [Span.isPass, hs]
    exact List.isPrefixOf_iff_prefix.mpr (List.prefix_append _ _)
  have hdeclaration : s.declaration file p =
      .ok ⟨none, passId, Text.trimStart (spacedTokens q e.tokens)⟩ := by
    rw [Span.declaration, if_pos hpass, hp, passExpression_core h hs]
  exact exists_rule_of_declaration hdeclaration hparse

theorem rulesFrom_span {r : Rule} {rules : List Rule} {rest : List Item} (hs : s.isTerminals = false)
    (hr : s.rule file p = .ok r) (hrest : rulesFrom file (p.after file s) rest = .ok rules) :
    rulesFrom file p (.span s :: rest) = .ok (r :: rules) := by
  rw [rulesFrom, hs, hr, hrest]
  rfl

theorem after_definition (hs : s.text = (Line.definition symbol id e).core q) :
    s.isTerminals = false ∧ p.after file s = p := by
  have hterminals : s.isTerminals = false := by
    rw [Span.isTerminals, hs]
    rfl
  refine ⟨hterminals, ?_⟩
  rw [Progress.after, hterminals, Span.isPass, hs]
  rfl

theorem after_pass (hs : s.text = (Line.pass e).core q) :
    s.isTerminals = false ∧ (p.after file s).terminals = p.terminals := by
  have hterminals : s.isTerminals = false := by
    rw [Span.isTerminals, hs]
    rfl
  refine ⟨hterminals, ?_⟩
  rw [Progress.after, if_neg (Bool.eq_false_iff.mp hterminals)]
  split
  case isTrue => rfl
  case isFalse => rfl

theorem after_terminals (hs : s.text = Line.terminals.core q) :
    s.isTerminals ∧ p.after file s = { p with terminals := true } := by
  have hterminals : s.isTerminals := by
    rw [Span.isTerminals, hs]
    rfl
  exact ⟨hterminals, if_pos hterminals⟩

/-- The spans of lines are read to their rules, as long as no pass rule has come before one of them. -/
theorem rulesFrom_lines {lines : List Line} {spans : List Span} (hlines : ∀ l ∈ lines, l.isWritable)
    (hids : (lines.filterMap Line.id?).Nodup)
    (hpass : p.pass? = none ∨ passId ∉ lines.filterMap Line.id?)
    (hspans : spans.map Span.text = lines.map (Line.core q)) (file : Option String) :
    ∃ rules, rulesFrom file p (spans.map .span) = .ok rules ∧
      rules.map Rule.bare = declaredRules p.terminals lines := by
  induction lines generalizing p spans with
  | nil =>
    obtain rfl := List.map_eq_nil_iff.mp hspans
    exact ⟨[], rfl, rfl⟩
  | cons l lines ih =>
    obtain ⟨s, spans, rfl, hs, hrest⟩ := List.map_eq_cons_iff.mp hspans
    obtain ⟨hl, hwritable⟩ := List.forall_mem_cons.mp hlines
    cases l with
    | definition symbol id e =>
      obtain ⟨hid, hids⟩ := List.nodup_cons.mp hids
      obtain ⟨r, hr, hbare⟩ := exists_rule_definition hl hs file p
      obtain ⟨hterminals, hafter⟩ : s.isTerminals = false ∧ p.after file s = p := after_definition hs
      obtain ⟨rules, hrules, hbares⟩ :=
        ih hwritable hids (hpass.imp_right fun h => (not_or.mp (mt List.mem_cons.mpr h)).2) hrest
      refine ⟨r :: rules, rulesFrom_span hterminals hr (by rwa [hafter]), ?_⟩
      rw [List.map_cons, hbare, hbares]
      rfl
    | pass e =>
      obtain ⟨hid, hids⟩ := List.nodup_cons.mp hids
      have hnone : p.pass? = none := hpass.resolve_right (not_not.mpr List.mem_cons_self)
      obtain ⟨r, hr, hbare⟩ := exists_rule_pass hl hs hnone file
      obtain ⟨hterminals, hafter⟩ : s.isTerminals = false ∧
        (p.after file s).terminals = p.terminals := after_pass hs
      obtain ⟨rules, hrules, hbares⟩ := ih hwritable hids (.inr hid) hrest
      refine ⟨r :: rules, rulesFrom_span hterminals hr hrules, ?_⟩
      rw [List.map_cons, hbare, hbares, hafter]
      rfl
    | terminals =>
      obtain ⟨hterminals, hafter⟩ : s.isTerminals ∧
        p.after file s = { p with terminals := true } := after_terminals hs
      have hstarted : (p.after file s).pass? = none ∨ passId ∉ lines.filterMap Line.id? := by
        rw [hafter]
        exact hpass
      obtain ⟨rules, hrules, hbares⟩ := ih hwritable hids hstarted hrest
      refine ⟨rules, ?_, ?_⟩
      · rw [List.map_cons, rulesFrom, if_pos hterminals, hrules]
      · rw [hbares, hafter]
        rfl

end Reading

/-- Loading yields the rules that were written, in order. The ids include the id of the pass rule, so
there is at most one. -/
theorem load_writtenLines (q : Quoting) {lines : List Line} {ending : String} (file : Option String)
    (hlines : ∀ l ∈ lines, l.isWritable) (hids : (lines.filterMap Line.id?).Nodup)
    (hending : ∀ c ∈ ending.toList, Text.isBlank c) :
    ∃ g, Grammar.load (writtenLines q lines ++ ending) file = .ok g ∧
      g.rules.map Rule.bare = declaredRules false lines := by
  obtain ⟨spans, hitems, hspans⟩ := items_writtenLines q hlines hending
  obtain ⟨rules, hrules, hbares⟩ := @rulesFrom_lines {} q lines spans hlines hids (.inl rfl) hspans file
  have hnodup : (rules.map Rule.id).Nodup := by
    have hmap : rules.map Rule.id = (rules.map Rule.bare).map Rule.id := by
      rw [List.map_map]
      rfl
    rwa [hmap, hbares, map_id_declaredRules]
  refine ⟨⟨rules, file⟩, ?_, hbares⟩
  rw [Grammar.load, hitems, hrules]
  exact check_eq_ok hnodup file

/-- What looks like a comment, a directive or a definition, in quotes and in classes. -/
def quotedLines : List Line := [
  .definition "doc" "1" (.seq [.literal "/*", .literal "@pass", .literal "[x]", .literal "::=", .ref "item"]),
  .pass (.star (.alt [.charClass " /*'@", .hexRef "#xA"])),
  .terminals,
  .definition "item" "2.a" (.diff (.charClass "a-z") (.alt [.literal "'", .literal "\"", .seq []])),
  .definition "none" "3" (.seq [])]

theorem load_quotedLines : (∀ l ∈ quotedLines, l.isWritable) ∧
    (quotedLines.filterMap Line.id?).Nodup ∧
    ∃ g, Grammar.load (writtenLines .preferDouble quotedLines ++ "\n") none = .ok g ∧
      g.rules.map Rule.bare = declaredRules false quotedLines := by
  have hlines : ∀ l ∈ quotedLines, l.isWritable := by decide
  have hids : (quotedLines.filterMap Line.id?).Nodup := by decide
  have hending : ∀ c ∈ "\n".toList, Text.isBlank c := by simp [Text.isBlank]
  exact ⟨hlines, hids, load_writtenLines .preferDouble none hlines hids hending⟩

example : writtenLines .preferDouble quotedLines =
    "[1] doc ::= \"/*\" \"@pass\" \"[x]\" \"::=\" item\n" ++
    "@pass ( [ /*'@] | #xA ) *\n" ++
    "@terminals\n" ++
    "[2.a] item ::= [a-z] - ( \"'\" | '\"' | ( ) )\n" ++
    "[3] none ::= " := by cbv

end FlatGrammar
