import FlatGrammar.Proofs.Grammar.FlatIds

/-! # References of flat rules

A name without a rule that flat rules refer to has no rule in the source either, and the source refers
to it. A split refers to nothing new but the rules it makes. Merging drops a name's rules only along
with all references to the name, unless others of the same name are left.
-/
namespace FlatGrammar

/-- A name that is referred to but has no rule. -/
def Dangling (rules : List Rule) (name : Option String) : Prop :=
  name ∈ referencedNames rules ∧ ∀ s ∈ definedSymbols rules, name ≠ some s

def IsClosed (rules : List Rule) : Prop :=
  ∀ name ∈ referencedNames rules, ∃ s ∈ definedSymbols rules, name = some s

instance (rules : List Rule) : Decidable (IsClosed rules) :=
  inferInstanceAs (Decidable (∀ name ∈ referencedNames rules, ∃ s ∈ definedSymbols rules, name = some s))

section Rules
variable {rules : List Rule} {name : Option String}

theorem isClosed_iff : IsClosed rules ↔ ∀ name, ¬Dangling rules name := by
  simp only [IsClosed, Dangling, not_and, not_forall, not_not, exists_prop]

theorem referencedNames_emptyRule_cons (rules : List Rule) :
    referencedNames (emptyRule :: rules) = referencedNames rules := by
  simp [referencedNames, Rule.references, emptyRule]

theorem dangling_of_flattenAll (hnamed : Named rules)
    (h : Dangling (flattenAll rules).rules name) : Dangling rules name := by
  obtain ⟨hname, hundefined⟩ := h
  have hsplits := splits_flattenAll hnamed
  rcases hsplits.mem_referencedNames List.mem_cons_self hname with hold | ⟨s, hs, hnew⟩
  · refine ⟨referencedNames_emptyRule_cons rules ▸ hold, fun s hs => hundefined s ?_⟩
    exact hsplits.definedSymbols_subset (List.mem_cons_of_mem emptySymbol hs)
  · exact absurd hnew (hundefined s hs)

theorem dangling_of_mergeTerminals (hids : ((terminals rules).map Rule.id).Nodup)
    (hsymbols : ∀ t ∈ terminals rules, t.symbol.isSome)
    (h : Dangling (mergeTerminals rules) name) : Dangling rules name := by
  obtain ⟨hname, hundefined⟩ := h
  rcases referenced_cases hids hname with ⟨hold, hleft⟩ | ⟨u, hu, hkind, rfl⟩
  · refine ⟨hold, ?_⟩
    rintro s hs rfl
    obtain ⟨r, hr, hsymbol⟩ := mem_definedSymbols.mp hs
    have hmem := mapNames_mem_mergeTerminals hids hr (hleft r hr hsymbol)
    exact hundefined s (mem_definedSymbols.mpr ⟨_, hmem, hsymbol⟩) rfl
  · obtain ⟨r, hr, rfl⟩ := exists_mem_of_mem_mergeTerminals hu
    obtain ⟨s, hs⟩ := Option.isSome_iff_exists.mp (hsymbols r (mem_terminals.mpr ⟨hr, hkind⟩))
    exact absurd hs (hundefined s (mem_definedSymbols.mpr ⟨_, hu, hs⟩))

end Rules

section Loaded
variable {text : String} {file : Option String} {g : Grammar} (hload : Grammar.load text file = .ok g)
include hload

theorem isSome_symbol_of_mem_flattenAll {t : Rule} (ht : t ∈ (flattenAll g.rules).rules)
    (hkind : t.kind ≠ .pass) : t.symbol.isSome := by
  rcases eq_emptyRule_or_of_mem_flattenAll ht with rfl | ⟨r, hr, ht⟩
  · rfl
  by_cases hrkind : r.kind = .pass
  · rw [flatten_of_kind_ne _ r (by rw [hrkind]; decide), List.mem_singleton] at ht
    exact absurd (ht ▸ hrkind) hkind
  · obtain ⟨s, hs⟩ := Option.isSome_iff_exists.mp (isSome_symbol_of_load hload hr hrkind)
    obtain ⟨path, hpath⟩ := (spreads_flatten _ hs).exists_symbol_eq ht
    exact Option.isSome_of_eq_some hpath

/-- Flat rules refer to nothing without a rule that the source does not, so those of a closed grammar
are closed. Symbols may repeat in the source. -/
theorem dangling_of_flatRules : (∀ name, Dangling (flatRules g.rules) name → Dangling g.rules name) ∧
    (IsClosed g.rules → IsClosed (flatRules g.rules)) := by
  have hsymbols : ∀ t ∈ terminals (flattenAll g.rules).rules, t.symbol.isSome := by
    intro t ht
    obtain ⟨ht, hkind⟩ := mem_terminals.mp ht
    exact isSome_symbol_of_mem_flattenAll hload ht (by rw [hkind]; decide)
  have hdangling : ∀ name, Dangling (flatRules g.rules) name → Dangling g.rules name := by
    intro name h
    have hflat := dangling_of_mergeTerminals (nodup_ids_terminals hload) hsymbols h
    exact dangling_of_flattenAll (named_of_load hload) hflat
  refine ⟨hdangling, ?_⟩
  rw [isClosed_iff, isClosed_iff]
  exact fun hclosed name h => hclosed name (hdangling name h)

end Loaded

/-- A terminal whose symbol repeats is merged with a part of another rule. -/
def sharedText : String := "[1] a ::= ('x' | B)+ C\n[2] B ::= 'x'\n[3] C ::= B 'y'\n[4] B ::= 'z'?"

theorem isClosed_flatRules_sharedText : ∃ g, Grammar.load sharedText none = .ok g ∧
    IsClosed g.rules ∧ IsClosed (flatRules g.rules) := by
  obtain ⟨g, hload, hclosed⟩ : ∃ g, Grammar.load sharedText none = .ok g ∧ IsClosed g.rules :=
    ⟨_, rfl, by decide +kernel⟩
  exact ⟨g, hload, hclosed, (dangling_of_flatRules hload).2 hclosed⟩

end FlatGrammar
