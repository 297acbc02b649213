import FlatGrammar.Proofs.Grammar.FlatIds

/-! # Source rules among flat rules

Every source rule is among the flat rules under its id, with another right-hand side at most, unless it
is a superseded terminal. Then a terminal of lower id has its right-hand side, and what still refers to
its symbol means another rule of that symbol.
-/
namespace FlatGrammar

section Rules
variable {rules : List Rule} {r : Rule}

theorem filter_id_eq (hids : (rules.map Rule.id).Nodup) (hr : r ∈ rules) :
    rules.filter (·.id = r.id) = [r] := by
  have hnodup : (rules.filter (·.id = r.id)).Nodup := (List.Nodup.of_map Rule.id hids).filter _
  refine List.perm_singleton.mp ((List.perm_ext_iff_of_nodup hnodup (List.nodup_singleton r)).mpr ?_)
  intro t
  rw [List.mem_filter, List.mem_singleton, decide_eq_true_eq]
  constructor
  · rintro ⟨ht, hid⟩
    exact List.inj_on_of_nodup_map hids ht hr hid
  · rintro rfl
    exact ⟨hr, rfl⟩

/-- Names of superseded terminals are not referred to, unless another rule of that name is left. -/
theorem exists_symbol_eq_of_superseded (hids : ((terminals rules).map Rule.id).Nodup) (hr : r ∈ rules)
    (h : Superseded rules r) (hname : r.symbol ∈ referencedNames (mergeTerminals rules)) :
    ∃ u ∈ mergeTerminals rules, u.symbol = r.symbol := by
  rcases referenced_cases hids hname with ⟨-, hleft⟩ | ⟨u, hu, -, hsymbol⟩
  · exact absurd h (hleft r hr rfl)
  · exact ⟨u, hu, hsymbol⟩

end Rules

section Loaded
variable {text : String} {file : Option String} {g h : Grammar} {r : Rule}
  (hload : Grammar.load text file = .ok g)
include hload

theorem mem_flatRules_of_not_superseded (hr : r ∈ g.rules)
    (hleft : ¬Superseded (flattenAll g.rules).rules r) :
    let f := mergeRenaming (flattenAll g.rules).rules
    ∃ e, { r with expr := e } ∈ flatRules g.rules ∧ (r.kind ≠ .rule → e = r.expr.mapNames f) := by
  intro f
  obtain ⟨e, hmem, he⟩ := exists_mem_tail_flattenAll hr
  refine ⟨e.mapNames f, ?_, fun hkind => by rw [he hkind]⟩
  exact mapNames_mem_mergeTerminals (nodup_ids_terminals hload) (List.mem_of_mem_tail hmem)
    fun h => hleft ((superseded_iff_of_expr he).mp h)

/-- If a loaded grammar can be made flat, no source rule is lost. Merging renames nothing but names of
superseded terminals, and those to terminals that are left. -/
theorem flat_source_rules (hflat : g.flat = .ok h) :
    let flat := (flattenAll g.rules).rules
    let f := mergeRenaming flat
    (∀ name, f name ≠ name → (∃ t ∈ flat, Superseded flat t ∧ t.symbol = name) ∧
        ∃ u ∈ h.rules, u.kind = .terminal ∧ u.symbol = f name) ∧
      ∀ r ∈ g.rules,
        (∃ e, h.rules.filter (·.id = r.id) = [{ r with expr := e }] ∧
            (r.kind ≠ .rule → e = r.expr.mapNames f)) ∨
          r.kind = .terminal ∧
            (∃ u ∈ h.rules, u.kind = .terminal ∧ idLt u.id r.id ∧ u.expr = r.expr.mapNames f) ∧
            (r.symbol ∈ referencedNames h.rules → ∃ u ∈ h.rules, u.symbol = r.symbol) := by
  intro flat f
  obtain ⟨-, hnodup, rfl⟩ := flat_eq_ok_iff.mp hflat
  have hids : ((terminals flat).map Rule.id).Nodup := nodup_ids_terminals hload
  constructor
  · intro name hname
    rcases mergeRenaming_cases hids name with ⟨hstay, -⟩ | hmerged
    · exact absurd hstay hname
    · exact hmerged
  · intro r hr
    by_cases hsuperseded : Superseded flat r
    · obtain ⟨e, hmem, he⟩ := exists_mem_tail_flattenAll hr
      obtain rfl := he (by rw [hsuperseded.1]; decide)
      exact .inr ⟨hsuperseded.1, hsuperseded.exists_mem_mergeTerminals,
        exists_symbol_eq_of_superseded hids (List.mem_of_mem_tail hmem) hsuperseded⟩
    · obtain ⟨e, hmem, hexpr⟩ := mem_flatRules_of_not_superseded hload hr hsuperseded
      exact .inl ⟨e, filter_id_eq hnodup hmem, hexpr⟩

end Loaded

/-- The first rule for a symbol is merged with a part of another rule, the second is left. -/
def mixedText : String :=
  "[1] a ::= B* 'x'\n@terminals\n[2] B ::= 'x'\n[3] c ::= B B\n[4] B ::= B 'z'\n@pass B+"

theorem flat_mixedText_source_rules : ∃ g h, Grammar.load mixedText none = .ok g ∧ g.flat = .ok h ∧
    ∀ r ∈ g.rules, (∃ e, h.rules.filter (·.id = r.id) = [{ r with expr := e }]) ∨
      ∃ u ∈ h.rules, u.kind = .terminal ∧ idLt u.id r.id := by
  obtain ⟨g, h, hload, hflat⟩ : ∃ g h, Grammar.load mixedText none = .ok g ∧ g.flat = .ok h :=
    ⟨_, _, rfl, rfl⟩
  refine ⟨g, h, hload, hflat, fun r hr => ?_⟩
  rcases (flat_source_rules hload hflat).2 r hr with ⟨e, hkept, -⟩ | ⟨-, ⟨u, hu, hkind, hlt, -⟩, -⟩
  · exact .inl ⟨e, hkept⟩
  · exact .inr ⟨u, hu, hkind, hlt⟩

end FlatGrammar
