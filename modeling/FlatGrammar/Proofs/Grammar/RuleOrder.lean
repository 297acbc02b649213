import FlatGrammar.Proofs.Grammar.Superseded

/-! # The order of source rules

Flat rules do not depend on the order of the source. Reserved ids only matter for which number is free,
which their order does not change, so flattening permutes what it makes. Passes find and rename pairs in
the order of rules, but where they end up is determined: every terminal is renamed to the lowest one it
has to be merged with. Sorting by different ids then leaves no choice.
-/
namespace FlatGrammar

section Reserved
variable {reserved reserved' : List String}

theorem firstFree_eq_of_perm (h : reserved'.Perm reserved) :
    firstFree reserved' = firstFree reserved := by
  funext id n
  simp only [firstFree, h.length_eq, h.contains_eq]

variable (hfree : firstFree reserved' = firstFree reserved)
include hfree

theorem extractTerminals_congr (r : Rule) (n : Nat) (es : List Expr) :
    extractTerminals reserved' r n es = extractTerminals reserved r n es := by
  induction es generalizing n with
  | nil => rfl
  | cons e es ih => simp only [extractTerminals, hfree, ih]

theorem flattenLeaves_congr : flattenLeaves reserved' = flattenLeaves reserved := by
  funext r
  simp only [flattenLeaves, extractTerminals_congr hfree]

theorem flattenStar_congr : flattenStar reserved' = flattenStar reserved := by
  funext r e
  simp only [flattenStar, flattenLeaves_congr hfree]

theorem flattenPlus_congr : flattenPlus reserved' = flattenPlus reserved := by
  funext r n e
  simp only [flattenPlus, hfree, flattenLeaves_congr hfree, flattenStar_congr hfree]

theorem flattenOperator_congr : flattenOperator reserved' = flattenOperator reserved := by
  funext r n
  simp only [flattenOperator, flattenLeaves_congr hfree, flattenStar_congr hfree,
    flattenPlus_congr hfree]

theorem finish_congr (x : Extraction) : x.finish reserved' = x.finish reserved := by
  funext r
  simp only [Extraction.finish, flattenOperator_congr hfree]

theorem extractOperands_congr {es : List Expr}
    (ih : ∀ e ∈ es, flattenExpr reserved' e = flattenExpr reserved e) (r : Rule) (n : Nat) :
    extractOperands reserved' es r n = extractOperands reserved es r n := by
  induction es generalizing n with
  | nil => rfl
  | cons e es ihes =>
    have htail := fun k => ihes (fun o ho => ih o (List.mem_cons_of_mem e ho)) k
    simp only [extractOperands, extractOperand, hfree, ih e List.mem_cons_self, htail]

theorem flattenExpr_congr (e : Expr) : flattenExpr reserved' e = flattenExpr reserved e := by
  induction e using Expr.operands_induction with
  | step e ih =>
    funext r
    rw [flattenExpr_eq, flattenExpr_eq, extractOperands_congr hfree ih, finish_congr hfree]

theorem flatten_congr : Rule.flatten reserved' = Rule.flatten reserved := by
  funext r
  rw [Rule.flatten, Rule.flatten, flattenExpr_congr hfree]

end Reserved

section Merging
variable {rules rules' : List Rule} {f g : Option String → Option String}

/-- Terminals have to be merged alike wherever they stand. -/
theorem merged_congr (h : ∀ t, t ∈ terminals rules' ↔ t ∈ terminals rules) :
    merged rules' = merged rules := by
  have hsame : SameName rules' = SameName rules := by
    funext R a b
    simp only [SameName, h]
  simp only [merged, IsMerging, hsame, h]

theorem RenamesToLowest.congr (h : ∀ t, t ∈ terminals rules' ↔ t ∈ terminals rules)
    (hf : RenamesToLowest rules' f) : RenamesToLowest rules f := by
  have hlowest : IsLowest rules' = IsLowest rules := by
    funext t
    rw [IsLowest, IsLowest, merged_congr h]
    simp only [h]
  have hterminal := hf.terminal
  have hother := hf.other
  rw [hlowest, merged_congr h] at hterminal
  simp only [h] at hterminal hother
  exact ⟨hterminal, hother⟩

/-- There is one way to rename terminals to the lowest they are merged with. -/
theorem RenamesToLowest.eq (hids : ((terminals rules).map Rule.id).Nodup)
    (hf : RenamesToLowest rules f) (hg : RenamesToLowest rules g) : f = g := by
  funext name
  by_cases hname : ∃ t ∈ terminals rules, t.symbol = name
  · obtain ⟨t, ht, rfl⟩ := hname
    obtain ⟨u, hu, htu, hfu⟩ := hf.terminal t ht
    obtain ⟨v, hv, htv, hgv⟩ := hg.terminal t ht
    have huv : merged rules u v := Setoid.trans' _ (Setoid.symm' _ htu) htv
    have hid : u.id = v.id :=
      eq_of_not_idLt (hv.2 u hu.1 (Setoid.symm' _ huv)) (hu.2 v hv.1 huv)
    rw [hfu, hgv, List.inj_on_of_nodup_map hids hu.1 hv.1 hid]
  · have hnone : ∀ t ∈ terminals rules, t.symbol ≠ name := fun t ht hsymbol =>
      hname ⟨t, ht, hsymbol⟩
    rw [hf.other name hnone, hg.other name hnone]

theorem renamesToLowest_mergeRenaming (hsymbols : ((terminals rules).map Rule.symbol).Nodup) :
    RenamesToLowest rules (mergeRenaming rules) := by
  have hapart := apart_ofList hsymbols
  obtain ⟨keep, hpassed, -, hdone⟩ := exists_mergeKeyed (.start _) fun _ _ h => Passed.step hapart h
  have h := hpassed.renamesToLowest hapart hdone
  rwa [map_rule_ofList] at h

/-- What is left after merging is in order, and strictly so if ids differ. -/
theorem pairwise_mergeTerminals (hids : ((mergeTerminals rules).map Rule.id).Nodup) :
    (mergeTerminals rules).Pairwise fun r t => idLt r.id t.id := by
  rw [mergeTerminals, mergeKeyed, List.map_map] at hids
  have hkept := ((sortById_perm Keyed.id _).map Keyed.id).nodup_iff.mp hids
  rw [mergeTerminals, mergeKeyed, List.pairwise_map]
  exact pairwise_sortById hkept

theorem nodup_ids_mergeTerminals (hids : (rules.map Rule.id).Nodup) :
    ((mergeTerminals rules).map Rule.id).Nodup := by
  have hterminals : ((terminals rules).map Rule.id).Nodup :=
    (List.filter_sublist.map Rule.id).nodup hids
  rw [((mergeTerminals_perm hterminals).map Rule.id).nodup_iff, List.map_map]
  exact (List.filter_sublist.map Rule.id).nodup hids

theorem mergeTerminals_eq_of_perm (hperm : rules'.Perm rules) (hids : (rules.map Rule.id).Nodup)
    (hsymbols : ((terminals rules).map Rule.symbol).Nodup) :
    mergeTerminals rules' = mergeTerminals rules := by
  have hterminals : (terminals rules').Perm (terminals rules) := hperm.filter _
  have hmem : ∀ t, t ∈ terminals rules' ↔ t ∈ terminals rules := fun _ => hterminals.mem_iff
  have hids' : (rules'.map Rule.id).Nodup := (hperm.map Rule.id).nodup_iff.mpr hids
  have hterminalIds : ((terminals rules).map Rule.id).Nodup :=
    (List.filter_sublist.map Rule.id).nodup hids
  have hrenaming : mergeRenaming rules' = mergeRenaming rules := by
    have hsymbols' := (hterminals.map Rule.symbol).nodup_iff.mpr hsymbols
    have h' := (renamesToLowest_mergeRenaming hsymbols').congr hmem
    exact h'.eq hterminalIds (renamesToLowest_mergeRenaming hsymbols)
  have hsuperseded : ∀ r, Superseded rules' r ↔ Superseded rules r := fun r => by
    simp only [Superseded, hmem, hrenaming]
  have hleft : (mergeTerminals rules').Perm (mergeTerminals rules) := by
    have hperm' := mergeTerminals_perm ((hterminals.map Rule.id).nodup_iff.mpr hterminalIds)
    simp only [hsuperseded, hrenaming] at hperm'
    exact hperm'.trans (((hperm.filter _).map _).trans (mergeTerminals_perm hterminalIds).symm)
  refine hleft.eq_of_pairwise ?_ (pairwise_mergeTerminals (nodup_ids_mergeTerminals hids'))
    (pairwise_mergeTerminals (nodup_ids_mergeTerminals hids))
  exact fun r t _ _ hrt htr => absurd htr (idLt_asymm hrt)

end Merging

section Rules
variable {rules rules' : List Rule} (hperm : rules'.Perm rules)
include hperm

theorem rules_flattenAll_perm : (flattenAll rules').rules.Perm (flattenAll rules).rules := by
  rw [rules_flattenAll, rules_flattenAll,
    flatten_congr (firstFree_eq_of_perm (hperm.map Rule.id))]
  exact (hperm.flatMap_right _).cons emptyRule

theorem flatBreakdown?_eq_none_of_perm : flatBreakdown? rules' = none ↔ flatBreakdown? rules = none := by
  have hunnamed : flattenBreakdown? rules' = flattenBreakdown? rules := by
    rw [flattenBreakdown?, flattenBreakdown?, hperm.any_eq]
  simp only [flatBreakdown?, Option.or_eq_none_iff, hunnamed, mergeBreakdown?_ofList_eq_none_iff,
    (rules_flattenAll_perm hperm).mem_iff]

/-- The order of source rules does not matter, neither for the flat rules nor for whether there are
any, if flattening makes no id twice and no symbol of a terminal twice. -/
theorem flatRules_eq_of_perm (hids : ((flattenAll rules).rules.map Rule.id).Nodup)
    (hsymbols : ((terminals (flattenAll rules).rules).map Rule.symbol).Nodup) :
    (flatBreakdown? rules' = none ↔ flatBreakdown? rules = none) ∧ flatRules rules' = flatRules rules :=
  ⟨flatBreakdown?_eq_none_of_perm hperm,
    mergeTerminals_eq_of_perm (rules_flattenAll_perm hperm) hids hsymbols⟩

end Rules

/-- Terminals some of which become equal only once others are merged, and a rule without a symbol. -/
def crossedRules : List Rule :=
  [{ symbol := some "a", id := "1", kind := .rule, expr := .opt (.seq [.ref "D", .literal "x"]) },
   { symbol := some "B", id := "4", kind := .terminal, expr := .literal "x" },
   { symbol := some "C", id := "3", kind := .terminal, expr := .seq [.ref "B", .literal "y"] },
   { symbol := some "D", id := "2", kind := .terminal, expr := .seq [.ref "E", .literal "y"] },
   { symbol := some "E", id := "5", kind := .terminal, expr := .literal "x" },
   { symbol := none, id := "0.pass", kind := .pass, expr := .plus (.ref "C") }]

theorem flatRules_reverse_crossedRules :
    ((flattenAll crossedRules).rules.map Rule.id).Nodup ∧
      ((terminals (flattenAll crossedRules).rules).map Rule.symbol).Nodup ∧
      flatRules crossedRules.reverse = flatRules crossedRules := by
  have hids : ((flattenAll crossedRules).rules.map Rule.id).Nodup := by decide +kernel
  have hsymbols : ((terminals (flattenAll crossedRules).rules).map Rule.symbol).Nodup := by
    decide +kernel
  have hperm : crossedRules.reverse.Perm crossedRules := List.reverse_perm crossedRules
  exact ⟨hids, hsymbols, (flatRules_eq_of_perm hperm hids hsymbols).2⟩

end FlatGrammar
