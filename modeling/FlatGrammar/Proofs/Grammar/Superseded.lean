import FlatGrammar.Proofs.Grammar.PureRules

/-! # Superseded terminals

A terminal is superseded if, once all names are renamed, one of lower id has the same right-hand side.
Merging drops the superseded terminals and nothing else, and one that is left stands for each of them.
A name is renamed only if a rule of that name is dropped, and then to that of a terminal that is left.
Symbols may repeat in all of this; only the ids of terminals differ.
-/
namespace FlatGrammar

/-- A terminal that merging drops in favour of another. -/
def Superseded (rules : List Rule) (r : Rule) : Prop :=
  r.kind = .terminal ∧ ∃ t ∈ terminals rules, idLt t.id r.id ∧
    t.expr.mapNames (mergeRenaming rules) = r.expr.mapNames (mergeRenaming rules)

instance (rules : List Rule) : DecidablePred (Superseded rules) := fun r =>
  inferInstanceAs (Decidable (r.kind = .terminal ∧ ∃ t ∈ terminals rules, idLt t.id r.id ∧
    t.expr.mapNames (mergeRenaming rules) = r.expr.mapNames (mergeRenaming rules)))

/-- A name that no pair renames stays, and any other becomes the first name of a pair. -/
theorem renamedBy_cases (pairs : List (Keyed × Keyed)) (name : Option String) :
    (renamedBy pairs name = name ∧ ∀ p ∈ pairs, p.2.rule.symbol ≠ name) ∨
      (∃ p ∈ pairs, p.2.rule.symbol = name) ∧ ∃ p ∈ pairs, p.1.rule.symbol = renamedBy pairs name := by
  induction pairs generalizing name with
  | nil => exact .inl ⟨rfl, List.forall_mem_nil _⟩
  | cons p pairs ih =>
    by_cases hp : p.2.rule.symbol = name
    · have hnext : renamedBy (p :: pairs) name = renamedBy pairs p.1.rule.symbol := by
        rw [renamedBy, List.foldl_cons, if_pos hp.symm]
        rfl
      refine .inr ⟨⟨p, List.mem_cons_self, hp⟩, ?_⟩
      rcases ih p.1.rule.symbol with ⟨hstay, -⟩ | ⟨-, q, hq, hname⟩
      · exact ⟨p, List.mem_cons_self, (hnext.trans hstay).symm⟩
      · exact ⟨q, List.mem_cons_of_mem p hq, hname.trans hnext.symm⟩
    · have hnext : renamedBy (p :: pairs) name = renamedBy pairs name := by
        rw [renamedBy, List.foldl_cons, if_neg (Ne.symm hp)]
        rfl
      rw [hnext]
      rcases ih name with ⟨hstay, hnone⟩ | ⟨⟨q, hq, hname⟩, q', hq', hname'⟩
      · exact .inl ⟨hstay, List.forall_mem_cons.mpr ⟨hp, hnone⟩⟩
      · exact .inr ⟨⟨q, List.mem_cons_of_mem p hq, hname⟩, q', List.mem_cons_of_mem p hq', hname'⟩

/-- A rule stands for itself, and a terminal for those that become equal to it and do not come first. -/
def StandsFor (f : Option String → Option String) (u k : Keyed) : Prop :=
  u = k ∨ u.isTerminal ∧ k.isTerminal ∧ u.rule.expr.mapNames f = k.rule.expr.mapNames f ∧
    ¬idLt k.id u.id

namespace StandsFor
variable {f : Option String → Option String} {u v k : Keyed}

theorem comp (h : StandsFor f u k) (g : Option String → Option String) : StandsFor (g ∘ f) u k := by
  rcases h with rfl | ⟨huterminal, hterminal, hexpr, hlow⟩
  · exact .inl rfl
  · refine .inr ⟨huterminal, hterminal, ?_, hlow⟩
    rw [← Expr.mapNames_mapNames, ← Expr.mapNames_mapNames, hexpr]

theorem mapNames_eq (h : StandsFor f u k) : u.rule.expr.mapNames f = k.rule.expr.mapNames f := by
  rcases h with rfl | ⟨-, -, hexpr, -⟩
  · rfl
  · exact hexpr

theorem not_idLt (h : StandsFor f u k) : ¬idLt k.id u.id := by
  rcases h with rfl | ⟨-, -, -, hlow⟩
  · exact idLt_irrefl u.id
  · exact hlow

theorem isTerminal (h : StandsFor f u k) (hk : k.isTerminal) : u.isTerminal := by
  rcases h with rfl | ⟨huterminal, -⟩
  · exact hk
  · exact huterminal

theorem trans (h : StandsFor f u v) (h' : StandsFor f v k) : StandsFor f u k := by
  rcases h with rfl | ⟨huterminal, hvterminal, hexpr, hlow⟩
  · exact h'
  rcases h' with rfl | ⟨-, hterminal, hexpr', hlow'⟩
  · exact .inr ⟨huterminal, hvterminal, hexpr, hlow⟩
  · exact .inr ⟨huterminal, hterminal, hexpr.trans hexpr', not_idLt_trans hlow hlow'⟩

end StandsFor

/-- What holds after any number of passes, even where symbols repeat. -/
structure Standing (source : List Keyed) (keep : Keyed → Bool) (f : Option String → Option String) :
    Prop where
  stands : ∀ k ∈ source, ∃ u ∈ source, keep u ∧ StandsFor f u k
  names : ∀ name, (f name = name ∧ ∀ k ∈ source, k.rule.symbol = name → keep k) ∨
    (∃ t ∈ source, ¬keep t ∧ t.rule.symbol = name) ∧
      ∃ u ∈ source, u.isTerminal ∧ keep u ∧ u.rule.symbol = f name

namespace Standing
variable {source : List Keyed} {keep : Keyed → Bool} {f : Option String → Option String}

theorem start (source : List Keyed) : Standing source (fun _ => true) id where
  stands k hk := ⟨k, hk, rfl, .inl rfl⟩
  names _ := .inl ⟨rfl, fun _ _ _ => rfl⟩

section Step
variable (hkey : ∀ a ∈ source, ∀ b ∈ source, a.key = b.key → a = b) {a b k : Keyed}
include hkey

/-- The first rule of a pair is left, and stands for the second. -/
theorem exists_first (hab : (a, b.mapNames f) ∈ Keyed.duplicates (passed source keep f)) :
    let pairs := Keyed.duplicates (passed source keep f)
    ∃ u ∈ source, u.isTerminal ∧ (keep u && !u.isDropped pairs) ∧ u.rule.symbol = a.rule.symbol ∧
      StandsFor f u b := by
  intro pairs
  obtain ⟨u, hu, -, -, hterminal, hkeep, rfl, -⟩ := exists_sources hab
  obtain ⟨-, -, hexpr, hlow⟩ := Keyed.of_mem_duplicates hab
  have hdropped : ¬u.isDropped pairs := by
    intro hdropped
    obtain ⟨c, hc⟩ := (isDropped_iff hkey hu).mp hdropped
    exact Keyed.notMem_duplicates hab hc
  exact ⟨u, hu, hterminal, by simp [hkeep, hdropped], rfl,
    .inr ⟨hterminal, (Keyed.mem_duplicates.mp hab).2.1, hexpr, hlow⟩⟩

/-- A kept rule is left if no pair renames its symbol. -/
theorem keep_of_forall_ne (hk : k ∈ source) (hkeep : keep k)
    (hnone : ∀ p ∈ Keyed.duplicates (passed source keep f), p.2.rule.symbol ≠ k.rule.symbol) :
    (keep k && !k.isDropped (Keyed.duplicates (passed source keep f))) = true := by
  have hdropped : ¬k.isDropped (Keyed.duplicates (passed source keep f)) := by
    intro hdropped
    obtain ⟨c, hc⟩ := (isDropped_iff hkey hk).mp hdropped
    exact hnone _ hc rfl
  simp [hkeep, hdropped]

theorem step (h : Standing source keep f) :
    let pairs := Keyed.duplicates (passed source keep f)
    Standing source (fun k => keep k && !k.isDropped pairs) (renamedBy pairs ∘ f) := by
  intro pairs
  constructor
  case stands =>
    intro k hk
    obtain ⟨u, hu, hkeep, hstands⟩ := h.stands k hk
    by_cases hdropped : u.isDropped pairs
    · obtain ⟨a, ha⟩ := (isDropped_iff hkey hu).mp hdropped
      obtain ⟨v, hv, -, hvkeep, -, hfirst⟩ := exists_first hkey ha
      exact ⟨v, hv, hvkeep, (hfirst.trans hstands).comp _⟩
    · exact ⟨u, hu, by simp [hkeep, hdropped], hstands.comp _⟩
  case names =>
    intro name
    rcases renamedBy_cases pairs (f name) with
      ⟨hsame, hnone⟩ | ⟨⟨⟨a, b⟩, hab, hname⟩, ⟨c, d⟩, hcd, hfirst⟩
    · rw [Function.comp_apply, hsame]
      rcases h.names name with
        ⟨hstay, hkept⟩ | ⟨⟨t, ht, htkeep, htname⟩, u, hu, hterminal, hkeep, huname⟩
      · refine .inl ⟨hstay, fun k hk hsymbol => ?_⟩
        refine keep_of_forall_ne hkey hk (hkept k hk hsymbol) ?_
        rwa [hsymbol, ← hstay]
      · refine .inr ⟨⟨t, ht, by simp [htkeep], htname⟩, u, hu, hterminal, ?_, huname⟩
        refine keep_of_forall_ne hkey hu hkeep ?_
        rwa [huname]
    · obtain ⟨-, -, second, -, -, -, -, -, rfl⟩ := exists_sources hcd
      obtain ⟨u, hu, hterminal, hkeep, husymbol, -⟩ := exists_first hkey hcd
      refine .inr ⟨?_, u, hu, hterminal, hkeep, husymbol.trans hfirst⟩
      rcases h.names name with ⟨hstay, -⟩ | ⟨⟨t, ht, htkeep, htname⟩, -⟩
      · obtain ⟨-, -, t, ht, -, -, -, -, rfl⟩ := exists_sources hab
        have hdropped : t.isDropped pairs := (isDropped_iff hkey ht).mpr ⟨a, hab⟩
        exact ⟨t, ht, by simp [hdropped], hname.trans hstay⟩
      · exact ⟨t, ht, by simp [htkeep], htname⟩

end Step

end Standing

section Rules
variable {rules : List Rule} {r : Rule}

/-- What every pass keeps holds for the rules left after merging. -/
theorem exists_mergeKeyed {P : (Keyed → Bool) → (Option String → Option String) → Prop}
    (start : P (fun _ => true) id)
    (step : ∀ keep f, P keep f →
      P (fun k => keep k && !k.isDropped (Keyed.duplicates (passed (Keyed.ofList rules) keep f)))
        (renamedBy (Keyed.duplicates (passed (Keyed.ofList rules) keep f)) ∘ f)) :
    let f := mergeRenaming rules
    ∃ keep, P keep f ∧
      (mergeKeyed (Keyed.ofList rules)).kept =
        sortById Keyed.id (passed (Keyed.ofList rules) keep f) ∧
      Keyed.duplicates (passed (Keyed.ofList rules) keep f) = [] := by
  have hlength : (passed (Keyed.ofList rules) (fun _ => true) id).length ≤
      (Keyed.ofList rules).length := by rw [passed_all]
  obtain ⟨keep, h, hkept, hdone⟩ := exists_merged step _ start hlength
  rw [passed_all] at h hkept hdone
  exact ⟨keep, h, congrArg _ hkept, hkept ▸ hdone⟩

theorem exists_standing (rules : List Rule) :
    let f := mergeRenaming rules
    ∃ keep, Standing (Keyed.ofList rules) keep f ∧
      (mergeKeyed (Keyed.ofList rules)).kept =
        sortById Keyed.id (passed (Keyed.ofList rules) keep f) ∧
      Keyed.duplicates (passed (Keyed.ofList rules) keep f) = [] :=
  exists_mergeKeyed (.start _) fun _ _ h => h.step fun _ ha _ hb => eq_of_key_eq ha hb

theorem exists_keyed (hr : r ∈ rules) : ∃ k ∈ Keyed.ofList rules, k.rule = r :=
  List.mem_map.mp ((map_rule_ofList rules).symm ▸ hr)

theorem mem_mergeTerminals_of_keep {keep : Keyed → Bool} {f : Option String → Option String}
    (hkept : (mergeKeyed (Keyed.ofList rules)).kept =
      sortById Keyed.id (passed (Keyed.ofList rules) keep f))
    {k : Keyed} (hk : k ∈ Keyed.ofList rules) (hkeep : keep k) :
    k.rule.mapNames f ∈ mergeTerminals rules := by
  refine List.mem_map.mpr ⟨k.mapNames f, ?_, rfl⟩
  rw [hkept, mem_sortById]
  exact mem_passed.mpr ⟨k, hk, hkeep, rfl⟩

/-- A terminal is left for each one that is superseded. -/
theorem Superseded.exists_mem_mergeTerminals (h : Superseded rules r) :
    ∃ u ∈ mergeTerminals rules, u.kind = .terminal ∧ idLt u.id r.id ∧
      u.expr = r.expr.mapNames (mergeRenaming rules) := by
  obtain ⟨-, t, ht, hlt, hexpr⟩ := h
  obtain ⟨ht, hkind⟩ := mem_terminals.mp ht
  obtain ⟨k, hk, rfl⟩ := exists_keyed ht
  obtain ⟨keep, hstanding, hkept, -⟩ := exists_standing rules
  obtain ⟨u, hu, hkeep, hstands⟩ := hstanding.stands k hk
  refine ⟨_, mem_mergeTerminals_of_keep hkept hu hkeep, ?_, ?_, hstands.mapNames_eq.trans hexpr⟩
  · exact Keyed.isTerminal_iff.mp (hstands.isTerminal (Keyed.isTerminal_iff.mpr hkind))
  · by_contra hnot
    exact not_idLt_trans hnot hstands.not_idLt hlt

variable (hids : ((terminals rules).map Rule.id).Nodup)
include hids

/-- Merging drops the superseded terminals and nothing else. -/
theorem Standing.keep_iff {keep : Keyed → Bool}
    (h : Standing (Keyed.ofList rules) keep (mergeRenaming rules))
    (hdone : Keyed.duplicates (passed (Keyed.ofList rules) keep (mergeRenaming rules)) = [])
    {k : Keyed} (hk : k ∈ Keyed.ofList rules) : keep k ↔ ¬Superseded rules k.rule := by
  constructor
  · rintro hkeep ⟨hkind, t, ht, hlt, hexpr⟩
    obtain ⟨ht, htkind⟩ := mem_terminals.mp ht
    obtain ⟨j, hj, rfl⟩ := exists_keyed ht
    obtain ⟨u, hu, hukeep, hstands⟩ := h.stands j hj
    have huterminal := hstands.isTerminal (Keyed.isTerminal_iff.mpr htkind)
    have hkey : (u.mapNames (mergeRenaming rules)).key = (k.mapNames (mergeRenaming rules)).key :=
      Keyed.key_eq_of_duplicates_nil hdone (mem_passed.mpr ⟨u, hu, hukeep, rfl⟩)
        (mem_passed.mpr ⟨k, hk, hkeep, rfl⟩) huterminal (Keyed.isTerminal_iff.mpr hkind)
        (hstands.mapNames_eq.trans hexpr)
    obtain rfl := eq_of_key_eq hu hk hkey
    exact hstands.not_idLt hlt
  · intro hnot
    by_contra hkeep
    obtain ⟨u, hu, hukeep, rfl | ⟨huterminal, hterminal, hexpr, hlow⟩⟩ := h.stands k hk
    · exact hkeep hukeep
    have hlt : idLt u.id k.id := by
      by_contra hlt
      have hid : u.id = k.id := eq_of_not_idLt hlt hlow
      obtain rfl := eq_of_nodup_terminals hids hu hk huterminal hterminal hid
      exact hkeep hukeep
    have hmem := map_rule_ofList rules ▸ mem_terminals_map hu huterminal
    exact hnot ⟨Keyed.isTerminal_iff.mp hterminal, u.rule, hmem, hlt, hexpr⟩

/-- What is left are the rules that are not superseded, with their names renamed. -/
theorem mergeTerminals_perm : (mergeTerminals rules).Perm
    ((rules.filter fun r => ¬Superseded rules r).map (Rule.mapNames (mergeRenaming rules))) := by
  obtain ⟨keep, hstanding, hkept, hdone⟩ := exists_standing rules
  have hfilter : (Keyed.ofList rules).filter keep =
      (Keyed.ofList rules).filter fun k => ¬Superseded rules k.rule := by
    refine List.filter_congr fun k hk => ?_
    rw [Bool.eq_iff_iff, hstanding.keep_iff hids hdone hk, decide_eq_true_iff]
  have hrules : ((Keyed.ofList rules).filter fun k => ¬Superseded rules k.rule).map Keyed.rule =
      rules.filter fun r => ¬Superseded rules r := by
    conv_rhs => rw [← map_rule_ofList rules, List.filter_map]
    simp only [map_rule_ofList, Function.comp_def]
  rw [mergeTerminals, hkept, ← hrules, ← hfilter, List.map_map]
  refine ((sortById_perm _ _).map Keyed.rule).trans (.of_eq ?_)
  rw [passed, List.map_map]
  rfl

theorem mapNames_mem_mergeTerminals (hr : r ∈ rules) (h : ¬Superseded rules r) :
    r.mapNames (mergeRenaming rules) ∈ mergeTerminals rules := by
  rw [(mergeTerminals_perm hids).mem_iff]
  exact List.mem_map_of_mem (List.mem_filter.mpr ⟨hr, by simpa using h⟩)

/-- A name stays with all its rules, or is that of a superseded terminal and becomes that of one that
is left. -/
theorem mergeRenaming_cases (name : Option String) :
    (mergeRenaming rules name = name ∧ ∀ r ∈ rules, r.symbol = name → ¬Superseded rules r) ∨
      (∃ t ∈ rules, Superseded rules t ∧ t.symbol = name) ∧
        ∃ u ∈ mergeTerminals rules, u.kind = .terminal ∧ u.symbol = mergeRenaming rules name := by
  obtain ⟨keep, hstanding, hkept, hdone⟩ := exists_standing rules
  rcases hstanding.names name with
    ⟨hstay, hall⟩ | ⟨⟨t, ht, htkeep, hname⟩, u, hu, hterminal, hkeep, huname⟩
  · refine .inl ⟨hstay, fun r hr hsymbol => ?_⟩
    obtain ⟨k, hk, rfl⟩ := exists_keyed hr
    exact (hstanding.keep_iff hids hdone hk).mp (hall k hk hsymbol)
  · refine .inr ⟨⟨t.rule, ?_, ?_, hname⟩, _, mem_mergeTerminals_of_keep hkept hu hkeep, ?_, huname⟩
    · exact map_rule_ofList rules ▸ List.mem_map_of_mem ht
    · by_contra hnot
      exact htkeep ((hstanding.keep_iff hids hdone ht).mpr hnot)
    · exact Keyed.isTerminal_iff.mp hterminal

/-- A name that is referred to in the end either was and all its rules are left, or is that of a terminal
that is left. -/
theorem referenced_cases {name : Option String} (h : name ∈ referencedNames (mergeTerminals rules)) :
    (name ∈ referencedNames rules ∧ ∀ r ∈ rules, r.symbol = name → ¬Superseded rules r) ∨
      ∃ u ∈ mergeTerminals rules, u.kind = .terminal ∧ u.symbol = name := by
  obtain ⟨t, ht, hname⟩ := mem_referencedNames.mp h
  obtain ⟨r, hr, rfl⟩ := exists_mem_of_mem_mergeTerminals ht
  rw [Rule.mapNames, Expr.references_mapNames] at hname
  obtain ⟨old, hold, rfl⟩ := List.mem_map.mp hname
  rcases mergeRenaming_cases hids old with ⟨hstay, hleft⟩ | ⟨-, hterminal⟩
  · rw [hstay]
    exact .inl ⟨mem_referencedNames.mpr ⟨r, hr, hold⟩, hleft⟩
  · exact .inr hterminal

end Rules

end FlatGrammar
