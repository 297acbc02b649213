import FlatGrammar.Proofs.Grammar.Superseded

/-! # Ids of flat rules

Behind the empty rule, all flat rules have different ids, and each starts with the number of a source
id. So a loaded grammar can be made flat unless an id starts with too long a number, or a rule has the
id of the empty rule and is not superseded.
-/
namespace FlatGrammar

section Digits

theorem digitValue?_of_isIdMark {c : Char} (h : isIdMark c) : Text.digitValue? c = none := by
  rcases h with rfl | rfl
  · decide
  · decide

theorem leadingDigits_id (p : PartName) (id : String) :
    Text.leadingDigits (p.id id) = Text.leadingDigits id := by
  obtain ⟨c, cs, hpiece, hmark, -⟩ := marked_idPiece.starts p
  simp only [Text.leadingDigits, toList_id, hpiece, List.takeWhile_append, List.takeWhile_cons,
    digitValue?_of_isIdMark hmark]
  split
  case isTrue h => simpa using h.symm
  case isFalse => rfl

/-- The id of a part starts with the number that the id of its rule starts with. -/
theorem leadingDigits_idAlong (id : String) (path : List PartName) :
    Text.leadingDigits (idAlong id path) = Text.leadingDigits id := by
  induction path generalizing id with
  | nil => rfl
  | cons p path ih => rw [idAlong, ih, leadingDigits_id]

end Digits

section Parts
variable {reserved : List String} {r u t : Rule}

theorem partId_notMem (hr : r.symbol.isSome ∨ ¬r.hasParts) (hstar : ∀ i ∈ reserved, '*' ∉ i.toList)
    (ht : t ∈ r.parts reserved) : t.id ∉ reserved := by
  obtain ⟨path, hnil, hpath, hunreserved⟩ := exists_path_of_mem_parts hr hstar ht
  rw [← List.append_nil path] at hunreserved
  exact hpath ▸ hunreserved.notMem hnil

theorem partId_ne_emptyId (hr : r.symbol.isSome ∨ ¬r.hasParts)
    (hstar : ∀ i ∈ reserved, '*' ∉ i.toList) (ht : t ∈ r.parts reserved) : t.id ≠ emptyId := by
  obtain ⟨path, hnil, hpath, -⟩ := exists_path_of_mem_parts hr hstar ht
  obtain ⟨c, hc, hmark⟩ := exists_isIdMark_idAlong r.id hnil
  rw [← hpath] at hc
  rintro heq
  have hzero : emptyId.toList = ['0'] := by decide
  rw [heq, hzero, List.mem_singleton] at hc
  exact not_isIdMark_of_isDigit (c := c) (by rw [hc]; decide) hmark

/-- All that a rule turns into have ids that start with the same number. -/
theorem leadingDigits_of_mem_flatten (hstar : ∀ i ∈ reserved, '*' ∉ i.toList)
    (ht : t ∈ (r.flatten reserved).rules) : Text.leadingDigits t.id = Text.leadingDigits r.id := by
  obtain ⟨path, hpath, -⟩ := avoids_flattenExpr reserved hstar r.expr r t ht
  rw [hpath, leadingDigits_idAlong]

theorem map_id_flatten (reserved : List String) (r : Rule) :
    (r.flatten reserved).rules.map Rule.id = r.id :: (r.parts reserved).map Rule.id := by
  obtain ⟨e, hrules, -⟩ := exists_flatten_eq_cons reserved r
  rw [hrules, List.map_cons]

/-- Ids of different rules and of all their parts differ. -/
theorem disjoint_ids_flatten (hr : r.symbol.isSome ∨ ¬r.hasParts) (hu : u.symbol.isSome ∨ ¬u.hasParts)
    (hstar : ∀ i ∈ reserved, '*' ∉ i.toList) (hrid : r.id ∈ reserved) (huid : u.id ∈ reserved)
    (hne : r.id ≠ u.id) :
    ((r.flatten reserved).rules.map Rule.id).Disjoint ((u.flatten reserved).rules.map Rule.id) := by
  have hnotMem : ∀ {v : Rule} {i : String}, (v.symbol.isSome ∨ ¬v.hasParts) → i ∈ reserved →
      i ∉ (v.parts reserved).map Rule.id := by
    intro v i hv hi hmem
    obtain ⟨t, ht, rfl⟩ := List.mem_map.mp hmem
    exact partId_notMem hv hstar ht hi
  rw [map_id_flatten, map_id_flatten, List.disjoint_cons_left, List.disjoint_cons_right]
  refine ⟨?_, hnotMem hr huid, disjoint_partIds hr hu hstar hrid huid hne⟩
  rw [List.mem_cons, not_or]
  exact ⟨hne, hnotMem hu hrid⟩

end Parts

section Flat
variable {g h : Grammar}

theorem flat_eq_ok_iff : g.flat = .ok h ↔ flatBreakdown? g.rules = none ∧
    ((flatRules g.rules).map Rule.id).Nodup ∧ h = ⟨flatRules g.rules, g.file⟩ := by
  rw [Grammar.flat]
  cases flatBreakdown? g.rules with
  | some breakdown => simp
  | none =>
    rw [← check_eq_ok_iff]
    cases Grammar.check (flatRules g.rules) g.file with
    | error fault => simp [Except.mapError]
    | ok h => simp [Except.mapError]

/-- Without a breakdown, only ids that repeat are a fault. -/
theorem exists_flat_eq_error_iff : (∃ fault, g.flat = .error (.fault fault)) ↔
    flatBreakdown? g.rules = none ∧ ¬((flatRules g.rules).map Rule.id).Nodup := by
  rw [Grammar.flat]
  cases flatBreakdown? g.rules with
  | some breakdown => simp
  | none =>
    rw [← @exists_check_eq_error_iff g.file]
    cases Grammar.check (flatRules g.rules) g.file with
    | error fault => simp [Except.mapError]
    | ok h => simp [Except.mapError]

end Flat

section FlattenAll
variable {rules : List Rule} {r t : Rule} {e : Expr}

theorem filter_flattenAll (rules : List Rule) {p : Rule → Bool} (hempty : p emptyRule) :
    (flattenAll rules).rules.filter p = emptyRule :: (flattenAll rules).rules.tail.filter p := by
  rw [rules_flattenAll]
  exact List.filter_cons_of_pos hempty

theorem mem_tail_flattenAll : t ∈ (flattenAll rules).rules.tail ↔
    ∃ r ∈ rules, t ∈ (r.flatten (rules.map Rule.id)).rules := by
  rw [rules_flattenAll, List.tail_cons, List.mem_flatMap]

theorem exists_mem_tail_flattenAll (hr : r ∈ rules) :
    ∃ e, { r with expr := e } ∈ (flattenAll rules).rules.tail ∧ (r.kind ≠ .rule → e = r.expr) := by
  obtain ⟨e, hrules, he⟩ := exists_flatten_eq_cons (rules.map Rule.id) r
  exact ⟨e, mem_tail_flattenAll.mpr ⟨r, hr, hrules ▸ List.mem_cons_self⟩, he⟩

/-- Whether a rule is superseded can be told from what it turns into. -/
theorem superseded_iff_of_expr (he : r.kind ≠ .rule → e = r.expr) :
    Superseded rules { r with expr := e } ↔ Superseded rules r := by
  by_cases hkind : r.kind = .terminal
  · obtain rfl := he (by rw [hkind]; decide)
    rfl
  · exact iff_of_false (fun h => hkind h.1) fun h => hkind h.1

end FlattenAll

section Loaded
variable {text : String} {file : Option String} {g : Grammar} {r t : Rule}
  (hload : Grammar.load text file = .ok g)
include hload

theorem isSome_or_not_hasParts_of_load (hr : r ∈ g.rules) : r.symbol.isSome ∨ ¬r.hasParts :=
  isSome_or_not_hasParts (flattenAll?_eq_ok (named_of_load hload)) hr

theorem star_notMem_ids : ∀ i ∈ g.rules.map Rule.id, '*' ∉ i.toList :=
  List.forall_mem_map.mpr fun _ hr => star_notMem_of_load hload hr

/-- Only the id of the empty rule can stand twice among flat rules. -/
theorem nodup_ids_tail : ((flattenAll g.rules).rules.tail.map Rule.id).Nodup := by
  have hok := fun r (hr : r ∈ g.rules) => isSome_or_not_hasParts_of_load hload hr
  have hstar := star_notMem_ids hload
  rw [rules_flattenAll, List.tail_cons, List.map_flatMap, List.nodup_flatMap]
  constructor
  · intro r hr
    rw [map_id_flatten, List.nodup_cons]
    refine ⟨fun hmem => ?_, nodup_partIds (hok r hr)⟩
    obtain ⟨t, ht, hid⟩ := List.mem_map.mp hmem
    exact partId_notMem (hok r hr) hstar ht (hid ▸ List.mem_map_of_mem hr)
  · refine (List.pairwise_map.mp (nodup_ids_of_load hload)).imp_of_mem fun {r u} hr hu hne => ?_
    exact disjoint_ids_flatten (hok r hr) (hok u hu) hstar (List.mem_map_of_mem hr)
      (List.mem_map_of_mem hu) hne

theorem nodup_ids_terminals : ((terminals (flattenAll g.rules).rules).map Rule.id).Nodup := by
  have htail : terminals (flattenAll g.rules).rules = terminals (flattenAll g.rules).rules.tail := by
    rw [rules_flattenAll]
    exact List.filter_cons_of_neg (by decide)
  rw [htail]
  exact (List.filter_sublist.map Rule.id).nodup (nodup_ids_tail hload)

/-- Merging breaks down if and only if a source id starts with too long a number. -/
theorem flatBreakdown?_eq_none_iff : flatBreakdown? g.rules = none ↔
    ∀ r ∈ g.rules, Text.leadingDigits r.id ≤ digitLimit := by
  have hcons : (flattenAll g.rules).rules = emptyRule :: (flattenAll g.rules).rules.tail := by
    rw [rules_flattenAll, List.tail_cons]
  rw [flatBreakdown?, flattenBreakdown?_eq_none (named_of_load hload), Option.none_or,
    mergeBreakdown?_ofList_eq_none_iff, hcons, List.forall_mem_cons]
  constructor
  · rintro ⟨-, hflat⟩ r hr
    obtain ⟨e, hmem, -⟩ := exists_mem_tail_flattenAll hr
    exact hflat { r with expr := e } hmem
  · intro hsource
    refine ⟨by decide, fun t ht => ?_⟩
    obtain ⟨r, hr, ht⟩ := mem_tail_flattenAll.mp ht
    rw [leadingDigits_of_mem_flatten (star_notMem_ids hload) ht]
    exact hsource r hr

/-- Ids repeat unless each rule with the id of the empty rule is superseded. -/
theorem nodup_ids_flatRules_iff : ((flatRules g.rules).map Rule.id).Nodup ↔
    ∀ r ∈ g.rules, r.id = emptyId → Superseded (flattenAll g.rules).rules r := by
  let flat := (flattenAll g.rules).rules
  have hperm := (mergeTerminals_perm (nodup_ids_terminals hload)).map Rule.id
  have hempty : ¬Superseded flat emptyRule := fun h => absurd h.1 (by decide)
  have hleft : flat.filter (fun r => ¬Superseded flat r) =
      emptyRule :: flat.tail.filter fun r => ¬Superseded flat r :=
    filter_flattenAll g.rules (decide_eq_true hempty)
  have hnodup : ((flat.tail.filter fun r => ¬Superseded flat r).map Rule.id).Nodup :=
    (List.filter_sublist.map Rule.id).nodup (nodup_ids_tail hload)
  have hids : Rule.id ∘ Rule.mapNames (mergeRenaming flat) = Rule.id := rfl
  rw [flatRules, hperm.nodup_iff, List.map_map, hids, hleft, List.map_cons, List.nodup_cons,
    and_iff_left hnodup]
  simp only [List.mem_map, List.mem_filter, decide_eq_true_eq]
  constructor
  · intro hfree r hr hid
    by_contra hnot
    obtain ⟨e, hmem, he⟩ := exists_mem_tail_flattenAll hr
    exact hfree ⟨_, ⟨hmem, fun h => hnot ((superseded_iff_of_expr he).mp h)⟩, hid⟩
  · rintro hsuperseded ⟨t, ⟨ht, hnot⟩, hid⟩
    obtain ⟨r, hr, ht⟩ := mem_tail_flattenAll.mp ht
    obtain ⟨e, hrules, he⟩ := exists_flatten_eq_cons (g.rules.map Rule.id) r
    rcases List.mem_cons.mp (hrules ▸ ht) with rfl | ht
    · exact hnot ((superseded_iff_of_expr he).mpr (hsuperseded r hr hid))
    · have hpart := partId_ne_emptyId (isSome_or_not_hasParts_of_load hload hr)
        (star_notMem_ids hload) ht
      exact hpart hid

/-- A loaded grammar can be made flat if and only if no id starts with too long a number and no rule
has the id of the empty rule, save for a superseded terminal. It is the check for repeated ids that
fails in the second case. -/
theorem exists_flat_iff_of_load :
    ((∃ h, g.flat = .ok h) ↔ (∀ r ∈ g.rules, Text.leadingDigits r.id ≤ digitLimit) ∧
        ∀ r ∈ g.rules, r.id = emptyId → Superseded (flattenAll g.rules).rules r) ∧
      ((∃ fault, g.flat = .error (.fault fault)) ↔
        (∀ r ∈ g.rules, Text.leadingDigits r.id ≤ digitLimit) ∧
          ∃ r ∈ g.rules, r.id = emptyId ∧ ¬Superseded (flattenAll g.rules).rules r) := by
  have hdigits := flatBreakdown?_eq_none_iff hload
  have hnodup := nodup_ids_flatRules_iff hload
  constructor
  · simp only [flat_eq_ok_iff, hdigits, hnodup, exists_and_left, exists_eq, and_true]
  · simp only [exists_flat_eq_error_iff, hdigits, hnodup, not_forall, exists_prop]

end Loaded

/-- A terminal with the id of the empty rule, and an equal one in front of it. -/
def zeroText : String := "[.5] A ::= 'x'\n[0] B ::= 'x'\n[1] c ::= (B 'y')?"

theorem exists_flat_zeroText : ∃ g, Grammar.load zeroText none = .ok g ∧
    (∃ r ∈ g.rules, r.id = emptyId) ∧ ∃ h, g.flat = .ok h := by
  obtain ⟨g, hload, hzero, hdigits, hsuperseded⟩ : ∃ g, Grammar.load zeroText none = .ok g ∧
      (∃ r ∈ g.rules, r.id = emptyId) ∧
      (∀ r ∈ g.rules, Text.leadingDigits r.id ≤ digitLimit) ∧
      ∀ r ∈ g.rules, r.id = emptyId → Superseded (flattenAll g.rules).rules r :=
    ⟨_, rfl, by decide, by decide, by decide +kernel⟩
  exact ⟨g, hload, hzero, (exists_flat_iff_of_load hload).1.mpr ⟨hdigits, hsuperseded⟩⟩

/-- Parts take no id of a source rule, but the empty rule has its own whatever the source has. -/
theorem not_exists_flat_of_emptyId : ∃ g, Grammar.load "[0] a ::= b" none = .ok g ∧
    (∃ fault, g.flat = .error (.fault fault)) ∧ ¬∃ h, g.flat = .ok h := by
  refine ⟨_, rfl, ⟨.repeatedId ⟨none, some 1⟩ "0" (some "empty"), ?_⟩, ?_⟩
  · rfl
  · rintro ⟨h, hflat⟩
    cases hflat

end FlatGrammar
