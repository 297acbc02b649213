import FlatGrammar.Proofs.Grammar.FlatNames

/-! # Ids of parts

The id of a part tells the path to it from the id of its rule. The numbers in ids are chosen so that no
path meets the id of a source rule, and a path that steps on a star cannot meet one. So the parts of all
rules together have different ids, none of which a source rule has.
-/
namespace FlatGrammar

/-- The number found is free, since there are more numbers to choose from than reserved ids. -/
theorem firstFree_notMem (reserved : List String) {id : Nat → String} (hid : Function.Injective id)
    (n : Nat) : id (firstFree reserved id n) ∉ reserved := by
  unfold firstFree
  cases hfind : (List.range' n (reserved.length + 1)).find? fun k => !reserved.contains (id k) with
  | some k => simpa using List.find?_some hfind
  | none =>
    let candidates := (List.range' n (reserved.length + 1)).map id
    have hnodup : candidates.Nodup := (List.nodup_range' (h := by decide)).map hid
    have hsubset : candidates ⊆ reserved := by
      intro i hi
      obtain ⟨k, hk, rfl⟩ := List.mem_map.mp hi
      simpa using List.find?_eq_none.mp hfind k hk
    have hlength := (List.subperm_of_subset hnodup hsubset).length_le
    simp [candidates] at hlength

/-- Every step of a path ends on an id that is not reserved. -/
def Unreserved (reserved : List String) : String → List PartName → Prop
  | _, [] => True
  | id, p :: path => p.id id ∉ reserved ∧ Unreserved reserved (p.id id) path

theorem Unreserved.notMem {reserved : List String} {id : String} {first rest : List PartName}
    (h : Unreserved reserved id (first ++ rest)) (hfirst : first ≠ []) :
    idAlong id first ∉ reserved := by
  induction first generalizing id with
  | nil => exact absurd rfl hfirst
  | cons p first ih =>
    by_cases hnil : first = []
    · subst hnil
      exact h.1
    · exact ih h.2 hnil

/-- Rules with ids along paths from the given one that meet no reserved id on their way. -/
def Avoids (reserved : List String) (id : String) (rules : List Rule) : Prop :=
  ∀ t ∈ rules, ∃ path, t.id = idAlong id path ∧ Unreserved reserved id path

namespace Avoids
variable {reserved : List String} {id : String} {t : Rule} {a b : List Rule}

theorem nil : Avoids reserved id [] := nofun

theorem cons (ht : t.id = id) (h : Avoids reserved id a) : Avoids reserved id (t :: a) := by
  intro u hu
  rcases List.mem_cons.mp hu with rfl | hu
  · exact ⟨[], ht, trivial⟩
  · exact h u hu

theorem append (ha : Avoids reserved id a) (hb : Avoids reserved id b) :
    Avoids reserved id (a ++ b) := by
  intro t ht
  rcases List.mem_append.mp ht with ht | ht
  · exact ha t ht
  · exact hb t ht

theorem under {p : PartName} (hp : p.id id ∉ reserved) (h : Avoids reserved (p.id id) a) :
    Avoids reserved id a := by
  intro t ht
  obtain ⟨path, hpath, hunreserved⟩ := h t ht
  exact ⟨p :: path, hpath, hp, hunreserved⟩

end Avoids

section Flattening
variable (reserved : List String) {r : Rule}

theorem PartName.id_injective (id : String) {p q : PartName} (h : p.id id = q.id id) : p = q := by
  have halong : idAlong id [p] = idAlong id [q] := h
  exact (List.cons.inj (idAlong_injective halong)).1

theorem partId_firstFree_notMem (r : Rule) (n : Nat) :
    (PartName.operator (firstFree reserved r.partId n)).id r.id ∉ reserved := by
  have hinjective : Function.Injective r.partId := fun _ _ h =>
    PartName.operator.inj (PartName.id_injective r.id h)
  exact firstFree_notMem reserved hinjective n

theorem terminalId_firstFree_notMem (r : Rule) (n : Nat) :
    (PartName.value (firstFree reserved r.terminalId n)).id r.id ∉ reserved := by
  have hinjective : Function.Injective r.terminalId := fun _ _ h =>
    PartName.value.inj (PartName.id_injective r.id h)
  exact firstFree_notMem reserved hinjective n

theorem avoids_extractTerminals (r : Rule) (n : Nat) (es : List Expr) :
    Avoids reserved r.id (extractTerminals reserved r n es).2 := by
  induction es generalizing n with
  | nil => exact .nil
  | cons e es ih =>
    unfold extractTerminals
    split
    case isTrue =>
      have hfree := terminalId_firstFree_notMem reserved r n
      have hpart : Avoids reserved r.id [r.terminalPart (firstFree reserved r.terminalId n) e] :=
        .under hfree (.cons rfl .nil)
      exact hpart.append (ih _)
    case isFalse => exact ih n

theorem avoids_flattenLeaves (r : Rule) : Avoids reserved r.id (flattenLeaves reserved r).rules := by
  unfold flattenLeaves
  split
  case isTrue => exact .cons rfl (avoids_extractTerminals reserved r 1 _)
  case isFalse => exact .cons rfl .nil

section Stars
variable (hstar : ∀ i ∈ reserved, '*' ∉ i.toList)
include hstar

theorem starId_notMem (id : String) : PartName.star.id id ∉ reserved := by
  intro hmem
  refine hstar _ hmem ?_
  simp [PartName.id, String.toList_append]

theorem avoids_flattenStar (r : Rule) (e : Expr) :
    Avoids reserved r.id (flattenStar reserved r e).rules := by
  unfold flattenStar
  refine .cons rfl (.under (p := .star) (starId_notMem reserved hstar r.id) ?_)
  split
  case isTrue => exact avoids_flattenLeaves reserved _
  case isFalse => exact .cons rfl .nil

theorem avoids_flattenPlus (r : Rule) (n : Nat) (e : Expr) :
    Avoids reserved r.id (flattenPlus reserved r n e).rules := by
  let part := r.operatorPart (firstFree reserved r.partId n) (.star e)
  let parent : Rule := { r with expr := .seq [e, part.symbolRef] }
  have hpart : Avoids reserved part.id
      (if part.kind = .rule then flattenStar reserved part e else .one part).rules := by
    split
    case isTrue => exact avoids_flattenStar reserved hstar part e
    case isFalse => exact .cons rfl .nil
  exact (avoids_flattenLeaves reserved parent).append
    (.under (partId_firstFree_notMem reserved r n) hpart)

theorem avoids_flattenOperator (r : Rule) (n : Nat) :
    Avoids reserved r.id (flattenOperator reserved r n).rules := by
  unfold flattenOperator
  split
  case h_1 e he => exact avoids_flattenLeaves reserved { r with expr := .alt [.ref emptySymbol, e] }
  case h_2 e he => exact avoids_flattenStar reserved hstar r e
  case h_3 e he => exact avoids_flattenPlus reserved hstar r n e
  case h_4 => exact avoids_flattenLeaves reserved r

omit hstar in
theorem avoids_extractOperands (n : Nat) (es : List Expr)
    (ih : ∀ e ∈ es, ∀ t : Rule, Avoids reserved t.id (flattenExpr reserved e t).rules) (r : Rule) :
    Avoids reserved r.id (extractOperands reserved es r n).below.rules := by
  induction es generalizing n with
  | nil => exact .nil
  | cons e es ihes =>
    have htail := fun k => ihes k fun o ho => ih o (List.mem_cons_of_mem e ho)
    simp only [extractOperands, Extraction.join, Flat.rules_append, extractOperand]
    split
    case isTrue =>
      refine .append (.under (partId_firstFree_notMem reserved r n) ?_) (htail _)
      exact ih e List.mem_cons_self (r.operatorPart _ e)
    case isFalse => exact .append .nil (htail _)

theorem avoids_flattenExpr (e : Expr) :
    ∀ r : Rule, Avoids reserved r.id (flattenExpr reserved e r).rules := by
  induction e using Expr.operands_induction with
  | step e ih =>
    intro r
    rw [flattenExpr_eq]
    split
    case isFalse => exact .cons rfl .nil
    case isTrue =>
      have hbelow := avoids_extractOperands reserved 1 e.operands ih r
      generalize extractOperands reserved e.operands r 1 = x at hbelow ⊢
      let parent : Rule := { r with expr := e.withOperands x.operands }
      have hparent := avoids_flattenOperator reserved hstar parent x.nextNumber
      unfold Extraction.finish
      split
      case isTrue => exact hparent
      case isFalse => exact hparent.append hbelow

end Stars

end Flattening

/-- What a rule turns into besides itself. -/
def Rule.parts (reserved : List String) (r : Rule) : List Rule := (r.flatten reserved).rules.tail

section Parts
variable {reserved : List String} {r t u : Rule} {rules : List Rule}

theorem extractOperands_of_leaves {es : List Expr} (h : ∀ e ∈ es, e.isComposite = false) (n : Nat) :
    extractOperands reserved es r n = ⟨es, [], {}, n⟩ := by
  induction es with
  | nil => rfl
  | cons e es ih =>
    have he : extractOperand reserved r n e (flattenExpr reserved e) = ⟨[e], [], {}, n⟩ := by
      simp [extractOperand, h e List.mem_cons_self]
    have hes := ih fun o ho => h o (List.mem_cons_of_mem e ho)
    simp only [extractOperands, he, hes]
    rfl

theorem length_extractOperands (reserved : List String) (r : Rule) (n : Nat)
    (es : List Expr) :
    (extractOperands reserved es r n).operands.length = es.length := by
  induction es generalizing n with
  | nil => rfl
  | cons e es ih =>
    simp only [extractOperands, Extraction.join, extractOperand]
    split
    case isTrue => exact congrArg (· + 1) (ih _)
    case isFalse => exact congrArg (· + 1) (ih n)

/-- Of nested operands only names stay. -/
theorem isComposite_of_mem_extractOperands (reserved : List String) (r : Rule) (n : Nat)
    (es : List Expr) :
    ∀ o ∈ (extractOperands reserved es r n).operands, o.isComposite = false := by
  induction es generalizing n with
  | nil => exact fun _ => nofun
  | cons e es ih =>
    simp only [extractOperands, Extraction.join, extractOperand]
    split
    case isTrue => exact List.forall_mem_cons.mpr ⟨rfl, ih _⟩
    case isFalse he => exact List.forall_mem_cons.mpr ⟨Bool.eq_false_iff.mpr he, ih n⟩

theorem flattenLeaves_of_names (h : ∀ e ∈ r.expr.operands, e.isTerminal = false) :
    flattenLeaves reserved r = .one r := by
  unfold flattenLeaves
  rw [if_neg]
  simpa using h

/-- A rule without parts stays one rule. -/
theorem flatten_of_not_hasParts (reserved : List String) (h : ¬r.hasParts) :
    ∃ e, (r.flatten reserved).rules = [{ r with expr := e }] := by
  rw [Rule.flatten, flattenExpr_eq]
  split
  case isFalse => exact ⟨r.expr, rfl⟩
  case isTrue hr =>
    have hleaves : (∀ o, r.expr ≠ .star o) ∧ (∀ o, r.expr ≠ .plus o) ∧
        ∀ o ∈ r.expr.operands, o.isComposite = false ∧ o.isTerminal = false := by
      simp only [Rule.hasParts, hr.2, beq_self_eq_true, Bool.true_and] at h
      split at h <;> simp_all
    obtain ⟨hstar, hplus, hoperands⟩ := hleaves
    rw [extractOperands_of_leaves fun o ho => (hoperands o ho).1]
    simp only [Extraction.finish, Expr.withOperands_operands, List.isEmpty_nil, if_true]
    unfold flattenOperator
    split
    case h_1 o ho =>
      replace ho : r.expr = .opt o := ho
      have hterminal : o.isTerminal = false := (hoperands o (by simp [ho, Expr.operands])).2
      refine ⟨.alt [.ref emptySymbol, o], ?_⟩
      rw [Flat.rules_after, flattenLeaves_of_names]
      · rfl
      · intro e he
        rcases List.mem_pair.mp he with rfl | rfl
        · rfl
        · exact hterminal
    case h_2 o ho => exact absurd ho (hstar o)
    case h_3 o ho => exact absurd ho (hplus o)
    case h_4 =>
      refine ⟨r.expr, ?_⟩
      rw [flattenLeaves_of_names fun o ho => (hoperands o ho).2]
      rfl

/-- Rules of kind `rule` without a symbol have no parts if all rules can be flattened. -/
theorem isSome_or_not_hasParts {flat : Flat} (hflat : flattenAll? rules = .ok flat) (hr : r ∈ rules) :
    r.symbol.isSome ∨ ¬r.hasParts := by
  by_contra hboth
  obtain ⟨hnone, hparts⟩ := not_or.mp hboth
  have hany : (rules.any fun r => r.symbol.isNone && r.hasParts) = true := by
    rw [List.any_eq_true]
    exact ⟨r, hr, Bool.and_eq_true_iff.mpr ⟨by simpa using hnone, not_not.mp hparts⟩⟩
  simp [flattenAll?, flattenBreakdown?, hany, Breakdown.guard] at hflat

/-- A rule comes first among those it turns into, and the ids of its parts lead to them on different
paths. -/
theorem exists_paths (reserved : List String) (hr : r.symbol.isSome ∨ ¬r.hasParts) :
    ∃ (t : Rule) (paths : List (List PartName)), (r.flatten reserved).rules = t :: r.parts reserved ∧
      t.symbol = r.symbol ∧ t.id = r.id ∧
      (r.parts reserved).map Rule.id = paths.map (idAlong r.id) ∧ paths.Nodup ∧ [] ∉ paths := by
  rcases hr with hs | hparts
  · obtain ⟨s, hs⟩ := Option.isSome_iff_exists.mp hs
    obtain ⟨t, tail, hrules, hsymbol, hid, paths, hnodup, hstart, hplaced⟩ :=
      spreads_flatten reserved hs
    have hids := congrArg (List.map Prod.snd) hplaced
    rw [List.map_map, List.map_map] at hids
    refine ⟨t, paths, ?_, hsymbol.trans hs.symm, hid, ?_, hnodup, ?_⟩
    · rw [Rule.parts, hrules, List.tail_cons]
    · rw [Rule.parts, hrules, List.tail_cons]
      exact hids
    · intro hmem
      obtain ⟨p, rest, heq, -⟩ := hstart [] hmem
      cases heq
  · obtain ⟨e, hrules⟩ := flatten_of_not_hasParts reserved hparts
    refine ⟨{ r with expr := e }, [], ?_, rfl, rfl, ?_, List.nodup_nil, by simp⟩
    · rw [Rule.parts, hrules, List.tail_cons]
    · rw [Rule.parts, hrules, List.tail_cons]
      rfl

theorem nodup_partIds (hr : r.symbol.isSome ∨ ¬r.hasParts) :
    ((r.parts reserved).map Rule.id).Nodup := by
  obtain ⟨t, paths, -, -, -, hids, hnodup, -⟩ := exists_paths reserved hr
  rw [hids]
  exact hnodup.map fun _ _ => idAlong_injective

theorem exists_path_of_mem_parts (hr : r.symbol.isSome ∨ ¬r.hasParts)
    (hstar : ∀ i ∈ reserved, '*' ∉ i.toList) (ht : t ∈ r.parts reserved) :
    ∃ path, path ≠ [] ∧ t.id = idAlong r.id path ∧ Unreserved reserved r.id path := by
  obtain ⟨root, paths, hrules, -, -, hids, -, hnil⟩ := exists_paths reserved hr
  have hflat : t ∈ (r.flatten reserved).rules := hrules ▸ List.mem_cons_of_mem root ht
  obtain ⟨path, hpath, hunreserved⟩ := avoids_flattenExpr reserved hstar r.expr r t hflat
  obtain ⟨path', hpath', heq⟩ := List.mem_map.mp (hids ▸ List.mem_map_of_mem ht)
  obtain rfl := idAlong_injective (heq.trans hpath)
  exact ⟨path', fun h => hnil (h ▸ hpath'), hpath, hunreserved⟩

/-- Parts of different rules have different ids, as the path to one of them would lead through the id
of the other rule. -/
theorem disjoint_partIds (hr : r.symbol.isSome ∨ ¬r.hasParts) (hu : u.symbol.isSome ∨ ¬u.hasParts)
    (hstar : ∀ i ∈ reserved, '*' ∉ i.toList) (hrid : r.id ∈ reserved) (huid : u.id ∈ reserved)
    (hne : r.id ≠ u.id) :
    ((r.parts reserved).map Rule.id).Disjoint ((u.parts reserved).map Rule.id) := by
  intro i hir hiu
  obtain ⟨t, ht, rfl⟩ := List.mem_map.mp hir
  obtain ⟨v, hv, hid⟩ := List.mem_map.mp hiu
  obtain ⟨path, -, hpath, hunreserved⟩ := exists_path_of_mem_parts hr hstar ht
  obtain ⟨rest, -, hrest, hunreserved'⟩ := exists_path_of_mem_parts hu hstar hv
  rcases exists_append_of_idAlong_eq (hpath.symm.trans (hid.symm.trans hrest)) with
    ⟨first, rfl, hfirst⟩ | ⟨first, rfl, hfirst⟩
  · have hnil : first ≠ [] := by
      rintro rfl
      exact hne hfirst
    exact hunreserved.notMem hnil (hfirst ▸ huid)
  · have hnil : first ≠ [] := by
      rintro rfl
      exact hne hfirst.symm
    exact hunreserved'.notMem hnil (hfirst ▸ hrid)

/-- Flattening keeps the symbol and the id of every rule and puts its parts behind it. The ids of all
parts differ from each other, from those of the rules, and from that of the empty rule. -/
theorem nodup_partIds_of_flattenAll? {flat : Flat} (hids : (rules.map Rule.id).Nodup)
    (hstar : ∀ r ∈ rules, '*' ∉ r.id.toList) (hflat : flattenAll? rules = .ok flat) :
    let reserved := rules.map Rule.id
    let parts := rules.flatMap (Rule.parts reserved)
    flat.rules.map (fun t => (t.symbol, t.id)) =
        (some emptySymbol, emptyId) :: rules.flatMap (fun r =>
          (r.symbol, r.id) :: (r.parts reserved).map fun t => (t.symbol, t.id)) ∧
      (parts.map Rule.id).Nodup ∧ ∀ t ∈ parts, t.id ∉ reserved ∧ t.id ≠ emptyId := by
  intro reserved parts
  have hok : ∀ r ∈ rules, r.symbol.isSome ∨ ¬r.hasParts := fun r hr => isSome_or_not_hasParts hflat hr
  have hstar' : ∀ i ∈ reserved, '*' ∉ i.toList := List.forall_mem_map.mpr hstar
  refine ⟨?_, ?_, ?_⟩
  · obtain rfl : flattenAll rules = flat := by
      unfold flattenAll? Breakdown.guard at hflat
      split at hflat
      case h_1 => cases hflat
      case h_2 => exact Except.ok.inj hflat
    rw [rules_flattenAll, List.map_cons, List.map_flatMap]
    refine congrArg _ (List.flatMap_congr fun r hr => ?_)
    obtain ⟨t, paths, hrules, hsymbol, hid, -⟩ := exists_paths reserved (hok r hr)
    rw [hrules, List.map_cons, hsymbol, hid]
  · rw [List.map_flatMap, List.nodup_flatMap]
    refine ⟨fun r hr => nodup_partIds (hok r hr), ?_⟩
    refine (List.pairwise_map.mp hids).imp_of_mem fun {r u} hr hu hne => ?_
    exact disjoint_partIds (hok r hr) (hok u hu) hstar' (List.mem_map_of_mem hr)
      (List.mem_map_of_mem hu) hne
  · intro t ht
    obtain ⟨r, hr, ht⟩ := List.mem_flatMap.mp ht
    obtain ⟨path, hnil, hpath, hunreserved⟩ := exists_path_of_mem_parts (hok r hr) hstar' ht
    rw [hpath]
    have happend : Unreserved reserved r.id (path ++ []) := by rwa [List.append_nil]
    refine ⟨happend.notMem hnil, ?_⟩
    intro hempty
    obtain ⟨c, hc, hmark⟩ := exists_isIdMark_idAlong r.id hnil
    have hzero : emptyId.toList = ['0'] := by decide
    rw [hempty, hzero, List.mem_singleton] at hc
    subst hc
    exact not_isIdMark_of_isDigit (by decide) hmark

/-- Source ids that look like those of parts, at two depths. -/
def dottedRules : List Rule :=
  [{ symbol := some "a", id := "1", kind := .rule,
     expr := .seq [.plus (.alt [.literal "x", .ref "b"]), .star (.diff (.ref "b") (.literal "y"))] },
   { symbol := some "b", id := "1.1", kind := .rule, expr := .opt (.seq [.ref "a", .ref "b"]) },
   { symbol := some "c", id := "1.2.1", kind := .rule, expr := .star (.plus (.literal "z")) }]

theorem nodup_partIds_dottedRules : (dottedRules.map Rule.id).Nodup ∧
    (∀ r ∈ dottedRules, '*' ∉ r.id.toList) ∧ ∃ flat, flattenAll? dottedRules = .ok flat ∧
      ((dottedRules.flatMap (Rule.parts (dottedRules.map Rule.id))).map Rule.id).Nodup ∧
      ∀ t ∈ dottedRules.flatMap (Rule.parts (dottedRules.map Rule.id)),
        t.id ∉ dottedRules.map Rule.id ∧ t.id ≠ emptyId := by
  have hids : (dottedRules.map Rule.id).Nodup := by decide
  have hstar : ∀ r ∈ dottedRules, '*' ∉ r.id.toList := by decide
  have hnamed : Named dottedRules := by
    unfold Named
    decide
  have hflat := flattenAll?_eq_ok hnamed
  exact ⟨hids, hstar, _, hflat, (nodup_partIds_of_flattenAll? hids hstar hflat).2⟩

end Parts

end FlatGrammar
