import FlatGrammar.Grammar.Load
import FlatGrammar.Proofs.Source.Lexeme

/-! # Loaded rules

Every rule of a loaded grammar has been read from a span. Only the rule for what passes between tokens
has no symbol, and it is of a kind of its own. Ids differ, and have no star, unlike ids of parts.
-/
namespace FlatGrammar
variable {file : Option String} {r : Rule}

/-- A span that is no directive for terminals gives the next rule. -/
theorem rulesFrom_span_cases {p : Progress} {s : Span} {rest : List Item} {rules : List Rule}
    (h : rulesFrom file p (.span s :: rest) = .ok rules) :
    s.isTerminals ∧ rulesFrom file (p.after file s) rest = .ok rules ∨
      s.isTerminals = false ∧ ∃ t rs, s.rule file p = .ok t ∧
        rulesFrom file (p.after file s) rest = .ok rs ∧ rules = t :: rs := by
  unfold rulesFrom at h
  split at h
  case isTrue hterminals => exact .inl ⟨hterminals, h⟩
  case isFalse hterminals =>
    split at h
    case h_1 => cases h
    case h_2 t ht =>
      split at h
      case h_1 => cases h
      case h_2 rs hrs =>
        exact .inr ⟨Bool.eq_false_iff.mpr hterminals, t, rs, ht, hrs, (Except.ok.inj h).symm⟩

theorem exists_span_of_mem_rulesFrom {p : Progress} {items : List Item} {rules : List Rule}
    (h : rulesFrom file p items = .ok rules) (hr : r ∈ rules) :
    ∃ q s, .span s ∈ items ∧ s.isTerminals = false ∧ Span.rule file q s = .ok r := by
  induction items generalizing p rules with
  | nil =>
    cases h
    cases hr
  | cons item rest ih =>
    have hrest {p : Progress} {rules : List Rule} (h : rulesFrom file p rest = .ok rules)
        (hr : r ∈ rules) : ∃ q s, .span s ∈ item :: rest ∧ s.isTerminals = false ∧
          Span.rule file q s = .ok r := by
      obtain ⟨q, s, hs, hspan⟩ := ih h hr
      exact ⟨q, s, List.mem_cons_of_mem _ hs, hspan⟩
    cases item with
    | stray line text => exact hrest h hr
    | openComment line text => cases h
    | span s =>
      obtain ⟨-, h⟩ | ⟨hterminals, t, rs, ht, hrs, rfl⟩ := rulesFrom_span_cases h
      · exact hrest h hr
      · rcases List.mem_cons.mp hr with rfl | hr
        · exact ⟨p, s, List.mem_cons_self, hterminals, ht⟩
        · exact hrest hrs hr

theorem openComment_notMem_of_rulesFrom {p : Progress} {items : List Item} {rules : List Rule}
    (h : rulesFrom file p items = .ok rules) (line : Nat) (text : List Char) :
    .openComment line text ∉ items := by
  induction items generalizing p rules with
  | nil => exact List.not_mem_nil
  | cons item rest ih =>
    cases item with
    | stray line text => exact List.not_mem_cons_of_ne_of_not_mem nofun (ih h)
    | openComment line text => cases h
    | span s =>
      refine List.not_mem_cons_of_ne_of_not_mem nofun ?_
      obtain ⟨-, h⟩ | ⟨-, t, rs, -, hrs, -⟩ := rulesFrom_span_cases h
      · exact ih h
      · exact ih hrs

/-- A directive declares the pass rule unless there is one, and any other span what it is split into. -/
theorem declaration_eq_ok_iff {p : Progress} {s : Span} {d : Declaration} :
    s.declaration file p = .ok d ↔
      s.isPass ∧ p.pass? = none ∧ d = ⟨none, passId, s.passExpression⟩ ∨
      s.isPass = false ∧ ∃ x, Definition.split? s.text = some x ∧
        d = ⟨some (String.ofList x.symbol), String.ofList x.id, x.rhs⟩ := by
  unfold Span.declaration
  cases s.isPass with
  | true => cases p.pass? <;> simp [eq_comm]
  | false => cases Definition.split? s.text <;> simp [eq_comm]

/-- A span gives a rule if and only if it declares one and the right-hand side can be read. -/
theorem rule_eq_ok_iff {p : Progress} {s : Span} : s.rule file p = .ok r ↔
    ∃ d e, s.declaration file p = .ok d ∧ Expr.parse? d.rhs = .ok e ∧
      r = { symbol := d.symbol, id := d.id, kind := d.kind p.terminals e, expr := e,
            source := some (String.ofList s.text), location := some (s.location file) } := by
  unfold Span.rule
  cases s.declaration file p with
  | error => simp
  | ok d => cases hparse : Expr.parse? d.rhs <;> simp [hparse, eq_comm]

theorem isSome_symbol_of_span {p : Progress} {s : Span} (h : s.rule file p = .ok r)
    (hkind : r.kind ≠ .pass) : r.symbol.isSome := by
  obtain ⟨d, e, -, -, rfl⟩ := rule_eq_ok_iff.mp h
  cases hsymbol : d.symbol with
  | some x => rfl
  | none =>
    simp only [Declaration.kind, hsymbol] at hkind
    exact absurd rfl hkind

theorem isIdChar_of_span {p : Progress} {s : Span} (h : s.rule file p = .ok r) :
    ∀ c ∈ r.id.toList, isIdChar c := by
  obtain ⟨d, e, hd, -, rfl⟩ := rule_eq_ok_iff.mp h
  rcases declaration_eq_ok_iff.mp hd with ⟨-, -, rfl⟩ | ⟨-, x, hsplit, rfl⟩
  · have hpass : passId.toList.all isIdChar := by decide
    exact fun c hc => List.all_eq_true.mp hpass c hc
  · obtain ⟨-, hid, -⟩ := split?_eq_some_iff.mp hsplit
    rwa [String.toList_ofList]

theorem repeatedId?_eq_none_iff {seen rules : List Rule} :
    repeatedId? file seen rules = none ↔
      (rules.map Rule.id).Nodup ∧ ∀ s ∈ seen, ∀ r ∈ rules, s.id ≠ r.id := by
  induction rules generalizing seen with
  | nil => simp [repeatedId?]
  | cons r rules ih =>
    rw [repeatedId?]
    cases hfind : seen.find? (·.id == r.id) with
    | some s =>
      have hid : s.id = r.id := by simpa using List.find?_some hfind
      have hs := List.mem_of_find?_eq_some hfind
      simp only [reduceCtorEq, false_iff]
      exact fun h => h.2 s hs r List.mem_cons_self hid
    | none =>
      have hseen : ∀ s ∈ seen, s.id ≠ r.id := by simpa using hfind
      have hcons : (∀ s ∈ seen, ∀ t ∈ r :: rules, s.id ≠ t.id) ↔
          ∀ s ∈ seen, ∀ t ∈ rules, s.id ≠ t.id := by
        simp only [List.forall_mem_cons]
        exact ⟨fun h s hs => (h s hs).2, fun h s hs => ⟨hseen s hs, h s hs⟩⟩
      have hhead : r.id ∉ rules.map Rule.id ↔ ∀ t ∈ rules, r.id ≠ t.id := by
        simp [eq_comm]
      simp only [ih, hcons, List.map_cons, List.nodup_cons, hhead, List.forall_mem_append,
        List.forall_mem_singleton]
      constructor
      · rintro ⟨hnodup, hbefore, hr⟩
        exact ⟨⟨hr, hnodup⟩, hbefore⟩
      · rintro ⟨⟨hr, hnodup⟩, hbefore⟩
        exact ⟨hnodup, hbefore, hr⟩

theorem check_eq_ok_iff {rules : List Rule} {g : Grammar} :
    Grammar.check rules file = .ok g ↔ (rules.map Rule.id).Nodup ∧ g = ⟨rules, file⟩ := by
  have hnone : repeatedId? file [] rules = none ↔ (rules.map Rule.id).Nodup := by
    simp [repeatedId?_eq_none_iff]
  rw [← hnone, Grammar.check]
  cases repeatedId? file [] rules with
  | none => simp [eq_comm]
  | some fault => simp

theorem check_eq_ok {rules : List Rule} (h : (rules.map Rule.id).Nodup) (file : Option String) :
    Grammar.check rules file = .ok ⟨rules, file⟩ := check_eq_ok_iff.mpr ⟨h, rfl⟩

theorem exists_check_eq_error_iff {rules : List Rule} :
    (∃ fault, Grammar.check rules file = .error fault) ↔ ¬(rules.map Rule.id).Nodup := by
  constructor
  · rintro ⟨fault, hcheck⟩ hnodup
    rw [check_eq_ok hnodup] at hcheck
    cases hcheck
  · intro hrepeated
    cases hcheck : Grammar.check rules file with
    | error fault => exact ⟨fault, rfl⟩
    | ok g => exact absurd (check_eq_ok_iff.mp hcheck).1 hrepeated

section Load
variable {text : String} {g : Grammar}

theorem load_eq_ok_iff : Grammar.load text file = .ok g ↔
    ∃ rules, rulesFrom file {} (items text.toList) = .ok rules ∧ (rules.map Rule.id).Nodup ∧
      g = ⟨rules, file⟩ := by
  rw [Grammar.load]
  cases rulesFrom file {} (items text.toList) with
  | error fault => simp
  | ok rules => simp [check_eq_ok_iff]

variable (h : Grammar.load text file = .ok g)
include h

theorem exists_span_of_load (hr : r ∈ g.rules) : ∃ q s, Span.rule file q s = .ok r := by
  obtain ⟨rules, hrules, -, rfl⟩ := load_eq_ok_iff.mp h
  obtain ⟨q, s, -, -, hspan⟩ := exists_span_of_mem_rulesFrom hrules hr
  exact ⟨q, s, hspan⟩

theorem nodup_ids_of_load : (g.rules.map Rule.id).Nodup := by
  obtain ⟨rules, -, hids, rfl⟩ := load_eq_ok_iff.mp h
  exact hids

theorem isSome_symbol_of_load (hr : r ∈ g.rules) (hkind : r.kind ≠ .pass) : r.symbol.isSome := by
  obtain ⟨p, s, hspan⟩ := exists_span_of_load h hr
  exact isSome_symbol_of_span hspan hkind

theorem star_notMem_of_load (hr : r ∈ g.rules) : '*' ∉ r.id.toList := by
  obtain ⟨p, s, hspan⟩ := exists_span_of_load h hr
  intro hmem
  exact absurd (isIdChar_of_span hspan '*' hmem) (by decide)

end Load

end FlatGrammar
