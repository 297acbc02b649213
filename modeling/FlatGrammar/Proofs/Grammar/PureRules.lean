import FlatGrammar.Proofs.Grammar.LeastMerging
import FlatGrammar.Proofs.Grammar.PartIds

/-! # Pure rules

Whatever a rule nests, the rules it turns into are pure: a reference, or one operator without
quantifiers over references. Only an uppercase symbol keeps a part from being split, and a symbol is
uppercase only if that of its rule is. Merging renames references and changes nothing else.
-/
namespace FlatGrammar

namespace Expr

def isReference : Expr → Bool
  | symbol _ => true
  | _ => false

/-- A pure expression is a reference or one operator without quantifiers over references. -/
def isPure : Expr → Bool
  | repeated _ _ => false
  | terminal _ => false
  | symbol _ => true
  | e => e.operands.all isReference

theorem isPure_of_isReference {e : Expr} (h : e.isReference) : e.isPure := by
  cases e with
  | symbol _ => rfl
  | _ => cases h

theorem isPure_series {op : Series} {es : List Expr} (h : ∀ e ∈ es, e.isReference) :
    (series op es).isPure := List.all_eq_true.mpr h

theorem isReference_or_isTerminal {e : Expr} (h : e.isComposite = false) :
    e.isReference ∨ e.isTerminal := by
  cases e with
  | symbol _ => exact .inl rfl
  | terminal _ => exact .inr rfl
  | series _ _ | diff _ _ | repeated _ _ => cases h

/-- A series or a difference is pure over references. -/
theorem isPure_withOperands {e : Expr} {es : List Expr} (he : e.isComposite)
    (hop : ∀ op o, e ≠ repeated op o) (hlength : es.length = e.operands.length)
    (h : ∀ o ∈ es, o.isReference) : (e.withOperands es).isPure := by
  cases e with
  | symbol _ | terminal _ => cases he
  | series op fs => exact isPure_series h
  | diff l r =>
    obtain ⟨a, b, rfl⟩ := List.length_eq_two.mp hlength
    exact List.all_eq_true.mpr h
  | repeated op o => exact absurd rfl (hop op o)

end Expr

/-- Uppercasing changes the symbol. -/
def hasLowercase : Option String → Bool
  | some symbol => symbol.toList.any (!Text.isUppercase ·)
  | none => false

/-- A rule that is pure, or a terminal. It is a bare value unless the symbol it is named after is
uppercase. -/
def Settled (lower : Prop) (t : Rule) : Prop :=
  t.kind = .rule ∧ t.expr.isPure ∨ t.kind = .terminal ∧ (lower → t.expr.isTerminal)

section Symbols
variable {symbol : Option String}

theorem not_isUppercaseSymbol (h : hasLowercase symbol) : Kind.isUppercaseSymbol symbol = false := by
  cases symbol with
  | none => rfl
  | some s =>
    have hall : s.toList.all Text.isUppercase = false := by
      rw [List.all_eq_not_any_not]
      exact congrArg _ h
    simp [Kind.isUppercaseSymbol, hall]

/-- The name of a part ends on what its rule is named. -/
theorem hasLowercase_partSymbol? (h : hasLowercase symbol) (suffix : String) :
    hasLowercase (partSymbol? symbol suffix) := by
  cases symbol with
  | none => exact h
  | some s =>
    obtain ⟨c, hc, hlower⟩ := List.any_eq_true.mp h
    have hmem : c ∈ (derivedSymbol s suffix).toList := by
      rw [toList_derivedSymbol]
      refine List.mem_append_left _ ?_
      unfold stem
      split
      · exact hc
      · exact List.mem_cons_of_mem _ hc
    exact List.any_eq_true.mpr ⟨c, hmem, hlower⟩

/-- A part that is no bare value is a rule unless its symbol is uppercase, and then so is that of its
rule. -/
theorem kind_part (lower : Prop) (hlower : lower → hasLowercase symbol) (suffix : String) {e : Expr}
    (he : e.isTerminal = false) :
    let kind := Kind.derived (partSymbol? symbol suffix) e
    kind = .rule ∨ kind = .terminal ∧ ¬lower := by
  unfold Kind.derived
  rw [he, Bool.or_false]
  split
  case isFalse => exact .inl rfl
  case isTrue h =>
    refine .inr ⟨rfl, fun hl => ?_⟩
    simp [not_isUppercaseSymbol (hasLowercase_partSymbol? (hlower hl) suffix)] at h

end Symbols

section Leaves
variable (reserved : List String) {r : Rule} {lower : Prop}

theorem extractTerminals_spec (n : Nat) {es : List Expr}
    (hes : ∀ e ∈ es, e.isComposite = false) :
    (extractTerminals reserved r n es).1.length = es.length ∧
      (∀ e ∈ (extractTerminals reserved r n es).1, e.isReference) ∧
      ∀ t ∈ (extractTerminals reserved r n es).2, t.kind = .terminal ∧ t.expr.isTerminal := by
  induction es generalizing n with
  | nil => exact ⟨rfl, nofun, nofun⟩
  | cons e es ih =>
    have htail : ∀ o ∈ es, o.isComposite = false := fun o ho => hes o (List.mem_cons_of_mem e ho)
    unfold extractTerminals
    split
    case isTrue he =>
      obtain ⟨hlength, hnames, hparts⟩ := ih (firstFree reserved r.terminalId n + 1) htail
      refine ⟨congrArg (· + 1) hlength, ?_, ?_⟩
      · exact List.forall_mem_cons.mpr ⟨rfl, hnames⟩
      · exact List.forall_mem_cons.mpr ⟨⟨rfl, he⟩, hparts⟩
    case isFalse he =>
      obtain ⟨hlength, hnames, hparts⟩ := ih n htail
      have href := (Expr.isReference_or_isTerminal (hes e List.mem_cons_self)).resolve_right he
      exact ⟨congrArg (· + 1) hlength, List.forall_mem_cons.mpr ⟨href, hnames⟩, hparts⟩

theorem settled_flattenLeaves (hkind : r.kind = .rule) (hr : r.expr.isComposite)
    (hop : ∀ op o, r.expr ≠ .repeated op o) (hleaves : ∀ e ∈ r.expr.operands, e.isComposite = false) :
    ∀ t ∈ (flattenLeaves reserved r).rules, Settled lower t := by
  unfold flattenLeaves
  split
  case isTrue =>
    obtain ⟨hlength, hnames, hparts⟩ := extractTerminals_spec reserved (r := r) 1 hleaves
    refine List.forall_mem_cons.mpr ⟨.inl ⟨hkind, ?_⟩, ?_⟩
    · exact Expr.isPure_withOperands hr hop hlength hnames
    · exact fun t ht => .inr ⟨(hparts t ht).1, fun _ => (hparts t ht).2⟩
  case isFalse hnone =>
    refine List.forall_mem_cons.mpr ⟨.inl ⟨hkind, ?_⟩, nofun⟩
    rw [← Expr.withOperands_operands r.expr]
    refine Expr.isPure_withOperands hr hop rfl fun o ho => ?_
    refine (Expr.isReference_or_isTerminal (hleaves o ho)).resolve_right fun hterminal => ?_
    exact hnone (List.any_eq_true.mpr ⟨o, ho, hterminal⟩)

theorem settled_one (hkind : r.kind = .rule ∨ r.kind = .terminal ∧ ¬lower) (hr : r.kind ≠ .rule) :
    ∀ t ∈ (Flat.one r).rules, Settled lower t := by
  obtain ⟨hterminal, hlower⟩ := hkind.resolve_left hr
  exact List.forall_mem_cons.mpr ⟨.inr ⟨hterminal, fun h => absurd h hlower⟩, nofun⟩

variable (hkind : r.kind = .rule) (hlower : lower → hasLowercase r.symbol)
include hkind hlower

theorem settled_flattenStar {e : Expr} (he : e.isComposite = false) :
    ∀ t ∈ (flattenStar reserved r e).rules, Settled lower t := by
  unfold flattenStar
  refine List.forall_mem_cons.mpr ⟨.inl ⟨hkind, rfl⟩, ?_⟩
  split
  case isTrue hstar =>
    refine settled_flattenLeaves reserved hstar rfl nofun ?_
    exact List.forall_mem_cons.mpr ⟨he, List.forall_mem_singleton.mpr rfl⟩
  case isFalse hstar => exact settled_one (kind_part lower hlower "star" rfl) hstar

theorem settled_flattenPlus (n : Nat) {e : Expr} (he : e.isComposite = false) :
    ∀ t ∈ (flattenPlus reserved r n e).rules, Settled lower t := by
  let part := r.operatorPart (firstFree reserved r.partId n) (.star e)
  let parent : Rule := { r with expr := .seq [e, part.symbolRef] }
  have hparent : ∀ t ∈ (flattenLeaves reserved parent).rules, Settled lower t := by
    refine settled_flattenLeaves reserved hkind rfl nofun ?_
    exact List.forall_mem_cons.mpr ⟨he, List.forall_mem_singleton.mpr rfl⟩
  have hbelow : ∀ t ∈ (if part.kind = .rule then flattenStar reserved part e
      else .one part).rules, Settled lower t := by
    split
    case isTrue hpart =>
      refine settled_flattenStar reserved hpart (fun h => ?_) he
      exact hasLowercase_partSymbol? (hlower h) _
    case isFalse hpart => exact settled_one (kind_part lower hlower _ rfl) hpart
  exact List.forall_mem_append.mpr ⟨hparent, hbelow⟩

theorem settled_flattenOperator (n : Nat) (hr : r.expr.isComposite)
    (hleaves : ∀ e ∈ r.expr.operands, e.isComposite = false) :
    ∀ t ∈ (flattenOperator reserved r n).rules, Settled lower t := by
  unfold flattenOperator
  split
  case h_1 e he =>
    refine settled_flattenLeaves reserved hkind rfl nofun ?_
    simpa [he, Expr.operands, Expr.isComposite] using hleaves
  case h_2 e he =>
    exact settled_flattenStar reserved hkind hlower (hleaves e (by simp [he, Expr.operands]))
  case h_3 e he =>
    exact settled_flattenPlus reserved hkind hlower n (hleaves e (by simp [he, Expr.operands]))
  case h_4 hopt hstar hplus =>
    refine settled_flattenLeaves reserved hkind hr ?_ hleaves
    rintro (_ | _ | _) o ho
    · exact hopt o ho
    · exact hstar o ho
    · exact hplus o ho

omit hkind in
theorem settled_extractOperands (n : Nat) {es : List Expr}
    (ih : ∀ e ∈ es, ∀ t : Rule, e.isComposite → (t.kind = .rule ∨ t.kind = .terminal ∧ ¬lower) →
      (lower → hasLowercase t.symbol) → ∀ u ∈ (flattenExpr reserved e t).rules, Settled lower u) :
    ∀ t ∈ (extractOperands reserved es r n).below.rules, Settled lower t := by
  induction es generalizing n with
  | nil => exact fun _ => nofun
  | cons e es ihes =>
    have htail := fun k => ihes k fun o ho => ih o (List.mem_cons_of_mem e ho)
    simp only [extractOperands, Extraction.join, Flat.rules_append, extractOperand]
    split
    case isTrue he =>
      refine List.forall_mem_append.mpr ⟨?_, htail (firstFree reserved r.partId n + 1)⟩
      have hterminal : e.isTerminal = false := by
        cases e with
        | terminal _ => cases he
        | _ => rfl
      exact ih e List.mem_cons_self (r.operatorPart _ e) he (kind_part lower hlower _ hterminal)
        fun h => hasLowercase_partSymbol? (hlower h) _
    case isFalse => exact htail n

end Leaves

/-- Composite rules settle, and so do all their parts. -/
theorem settled_flattenExpr (reserved : List String) {lower : Prop} (e : Expr) :
    ∀ r : Rule, e.isComposite → (r.kind = .rule ∨ r.kind = .terminal ∧ ¬lower) →
      (lower → hasLowercase r.symbol) → ∀ t ∈ (flattenExpr reserved e r).rules, Settled lower t := by
  induction e using Expr.operands_induction with
  | step e ih =>
    intro r he hkind hlower
    rw [flattenExpr_eq]
    split
    case isFalse hr => exact settled_one (r := { r with expr := e }) hkind fun h => hr ⟨he, h⟩
    case isTrue hr =>
      have hlength := length_extractOperands reserved r 1 e.operands
      have hleaves := isComposite_of_mem_extractOperands reserved r 1 e.operands
      have hbelow := settled_extractOperands reserved hlower 1 ih
      generalize extractOperands reserved e.operands r 1 = x at hlength hleaves hbelow ⊢
      let parent : Rule := { r with expr := e.withOperands x.operands }
      have hparent : ∀ t ∈ (flattenOperator reserved parent x.nextNumber).rules, Settled lower t := by
        refine settled_flattenOperator reserved (r := parent) hr.2 hlower x.nextNumber ?_ ?_
        · exact (Expr.isComposite_withOperands e _).trans he
        · exact (Expr.operands_withOperands hlength).symm ▸ hleaves
      unfold Extraction.finish
      split
      case isTrue => exact hparent
      case isFalse => exact List.forall_mem_append.mpr ⟨hparent, hbelow⟩

section Merging

/-- Where names end up when terminals are merged. -/
def mergeRenaming (rules : List Rule) : Option String → Option String :=
  renamedBy (mergeKeyed (Keyed.ofList rules)).pairs

theorem Keyed.mapNames_mapNames (f g : Option String → Option String) (k : Keyed) :
    (k.mapNames f).mapNames g = k.mapNames (g ∘ f) := by
  simp [Keyed.mapNames, Rule.mapNames, Expr.mapNames_mapNames]

/-- Passes rename along their pairs and change nothing else. Each pair names two terminals that have
the same right-hand side in the end. -/
theorem mergePasses_spec (n : Nat) (ks : List Keyed) :
    let m := mergePasses n ks
    let f := renamedBy m.pairs
    (∀ k ∈ m.kept, ∃ s ∈ ks, k = s.mapNames f) ∧
      ∀ p ∈ m.pairs, ∃ t ∈ ks, ∃ u ∈ ks, t.isTerminal ∧ u.isTerminal ∧
        t.rule.symbol = p.1.rule.symbol ∧ u.rule.symbol = p.2.rule.symbol ∧
        t.rule.expr.mapNames f = u.rule.expr.mapNames f := by
  have hstart : ∀ k : Keyed, k = k.mapNames (renamedBy []) := fun k => renamePairs_eq [] k
  induction n generalizing ks with
  | zero => exact ⟨fun k hk => ⟨k, hk, hstart k⟩, List.forall_mem_nil _⟩
  | succ n ih =>
    unfold mergePasses
    split
    case h_1 => exact ⟨fun k hk => ⟨k, hk, hstart k⟩, List.forall_mem_nil _⟩
    case h_2 =>
      let pairs := Keyed.duplicates ks
      let g := renamedBy pairs
      let rest := (ks.map (Keyed.renamePairs pairs)).filter fun k => !k.isDropped pairs
      obtain ⟨hkept, hmerged⟩ := ih rest
      have hrest : ∀ k ∈ rest, ∃ s ∈ ks, k = s.mapNames g := by
        intro k hk
        obtain ⟨s, hs, rfl⟩ := List.mem_map.mp (List.mem_of_mem_filter hk)
        exact ⟨s, hs, renamePairs_eq pairs s⟩
      simp only [renamedBy_append]
      refine ⟨?_, List.forall_mem_append.mpr ⟨?_, ?_⟩⟩
      · intro k hk
        obtain ⟨t, ht, rfl⟩ := hkept k hk
        obtain ⟨s, hs, rfl⟩ := hrest t ht
        exact ⟨s, hs, s.mapNames_mapNames _ _⟩
      · rintro ⟨a, b⟩ hab
        obtain ⟨hb, hbterminal, -, -⟩ := Keyed.mem_duplicates.mp hab
        obtain ⟨ha, haterminal, hexpr, -⟩ := Keyed.of_mem_duplicates hab
        exact ⟨a, ha, b, hb, haterminal, hbterminal, rfl, rfl, congrArg _ hexpr⟩
      · intro p hp
        obtain ⟨t, ht, u, hu, hterminal, huterminal, hsymbol, husymbol, hexpr⟩ := hmerged p hp
        obtain ⟨t, htmem, rfl⟩ := hrest t ht
        obtain ⟨u, humem, rfl⟩ := hrest u hu
        refine ⟨t, htmem, u, humem, hterminal, huterminal, hsymbol, husymbol, ?_⟩
        rw [← Expr.mapNames_mapNames, ← Expr.mapNames_mapNames]
        exact hexpr

theorem exists_mem_of_mem_mergeTerminals {rules : List Rule} {t : Rule}
    (ht : t ∈ mergeTerminals rules) : ∃ r ∈ rules, t = r.mapNames (mergeRenaming rules) := by
  obtain ⟨k, hk, rfl⟩ := List.mem_map.mp ht
  obtain ⟨s, hs, rfl⟩ := (mergePasses_spec _ _).1 k (mem_sortById.mp hk)
  exact ⟨s.rule, map_rule_ofList rules ▸ List.mem_map_of_mem hs, rfl⟩

theorem exists_terminals_of_mem_pairs {rules : List Rule} {p : Keyed × Keyed}
    (hp : p ∈ (mergeKeyed (Keyed.ofList rules)).pairs) :
    ∃ t ∈ terminals rules, ∃ u ∈ terminals rules,
      t.symbol = p.1.rule.symbol ∧ u.symbol = p.2.rule.symbol ∧
        t.expr.mapNames (mergeRenaming rules) = u.expr.mapNames (mergeRenaming rules) := by
  obtain ⟨t, ht, u, hu, hterminal, huterminal, hsymbol, husymbol, hexpr⟩ :=
    (mergePasses_spec _ _).2 p hp
  have hsource := map_rule_ofList rules
  exact ⟨t.rule, hsource ▸ mem_terminals_map ht hterminal, u.rule,
    hsource ▸ mem_terminals_map hu huterminal, hsymbol, husymbol, hexpr⟩

end Merging

namespace Expr
variable (f : Option String → Option String) {e : Expr}

theorem mapNames_of_isTerminal (h : e.isTerminal) : e.mapNames f = e := by
  cases e with
  | terminal _ => rfl
  | _ => cases h

theorem isReference_mapNames (h : e.isReference) : (e.mapNames f).isReference := by
  cases e with
  | symbol _ => rfl
  | _ => cases h

theorem isPure_mapNames (h : e.isPure) : (e.mapNames f).isPure := by
  cases e with
  | symbol _ => rfl
  | terminal _ | repeated _ _ => cases h
  | series op es =>
    rw [mapNames, mapNamesList_eq_map]
    have hes : ∀ e ∈ es, e.isReference := List.all_eq_true.mp h
    exact isPure_series (List.forall_mem_map.mpr fun e he => isReference_mapNames f (hes e he))
  | diff l r =>
    obtain ⟨hl, hr⟩ : l.isReference ∧ r.isReference := by simpa [isPure, operands] using h
    simp [mapNames, isPure, operands, isReference_mapNames f hl, isReference_mapNames f hr]

end Expr

section Heads
variable (reserved : List String) (r : Rule)

theorem exists_head?_flattenLeaves :
    ∃ e, (flattenLeaves reserved r).rules.head? = some { r with expr := e } := by
  unfold flattenLeaves
  split
  case isTrue => exact ⟨_, rfl⟩
  case isFalse => exact ⟨r.expr, rfl⟩

theorem exists_head?_flattenOperator (n : Nat) :
    ∃ e, (flattenOperator reserved r n).rules.head? = some { r with expr := e } := by
  unfold flattenOperator
  split
  case h_1 e _ => exact exists_head?_flattenLeaves reserved { r with expr := .alt [.ref emptySymbol, e] }
  case h_2 => exact ⟨_, rfl⟩
  case h_3 e _ =>
    let part := r.operatorPart (firstFree reserved r.partId n) (.star e)
    obtain ⟨e', he'⟩ := exists_head?_flattenLeaves reserved { r with expr := .seq [e, part.symbolRef] }
    exact ⟨e', List.mem_head?_append_of_mem_head? he'⟩
  case h_4 => exact exists_head?_flattenLeaves reserved r

theorem flatten_of_kind_ne (h : r.kind ≠ .rule) : (r.flatten reserved).rules = [r] := by
  rw [Rule.flatten, flattenExpr_eq, if_neg fun hr => h hr.2]
  rfl

/-- A rule keeps all but its right-hand side, and that too if it is of another kind. -/
theorem exists_flatten_eq_cons :
    ∃ e, (r.flatten reserved).rules = { r with expr := e } :: r.parts reserved ∧
      (r.kind ≠ .rule → e = r.expr) := by
  have hhead : ∃ e, (r.flatten reserved).rules.head? = some { r with expr := e } := by
    rw [Rule.flatten, flattenExpr_eq]
    split
    case isFalse => exact ⟨r.expr, rfl⟩
    case isTrue =>
      let x := extractOperands reserved r.expr.operands r 1
      obtain ⟨e, he⟩ := exists_head?_flattenOperator reserved
        { r with expr := r.expr.withOperands x.operands } x.nextNumber
      unfold Extraction.finish
      split
      case isTrue => exact ⟨e, he⟩
      case isFalse => exact ⟨e, List.mem_head?_append_of_mem_head? he⟩
  obtain ⟨e, he⟩ := hhead
  refine ⟨e, (List.cons_head?_tail he).symm, fun hkind => ?_⟩
  rw [flatten_of_kind_ne reserved r hkind] at he
  exact (congrArg Rule.expr (Option.some.inj he)).symm

end Heads

section FlatRules
variable {rules : List Rule} {r t : Rule}

/-- Composite rules of kind `rule` settle, others stay as they are. -/
theorem eq_or_settled_of_mem_flatten (reserved : List String) (lower : Prop)
    (hlower : r.kind = .rule → lower → hasLowercase r.symbol)
    (ht : t ∈ (r.flatten reserved).rules) :
    t = r ∧ (r.kind = .rule → r.expr.isComposite = false) ∨ r.kind = .rule ∧ Settled lower t := by
  by_cases hr : r.expr.isComposite ∧ r.kind = .rule
  · exact .inr ⟨hr.2, settled_flattenExpr reserved r.expr r hr.1 (.inl hr.2) (hlower hr.2) t ht⟩
  · rw [Rule.flatten, flattenExpr_eq, if_neg hr] at ht
    refine .inl ⟨List.mem_singleton.mp ht, fun hkind => ?_⟩
    exact Bool.eq_false_iff.mpr fun he => hr ⟨he, hkind⟩

theorem eq_emptyRule_or_of_mem_flattenAll (ht : t ∈ (flattenAll rules).rules) :
    t = emptyRule ∨ ∃ r ∈ rules, t ∈ (r.flatten (rules.map Rule.id)).rules := by
  rw [rules_flattenAll] at ht
  exact (List.mem_cons.mp ht).imp_right List.mem_flatMap.mp

/-- The rules that are left are pure but for bare values of the source. -/
theorem isPure_of_mem_flatRules (ht : t ∈ flatRules rules) (hkind : t.kind = .rule) :
    t.expr.isPure ∨ t.expr.isTerminal ∧ t ∈ rules := by
  obtain ⟨u, hu, rfl⟩ := exists_mem_of_mem_mergeTerminals ht
  generalize mergeRenaming (flattenAll rules).rules = f at hkind ⊢
  rcases eq_emptyRule_or_of_mem_flattenAll hu with rfl | ⟨r, hr, hu⟩
  · exact .inl rfl
  rcases eq_or_settled_of_mem_flatten _ False (fun _ h => h.elim) hu with
    ⟨rfl, hleaf⟩ | ⟨-, ⟨-, hpure⟩ | ⟨hterminal, -⟩⟩
  · rcases Expr.isReference_or_isTerminal (hleaf hkind) with href | hterminal
    · exact .inl (Expr.isPure_of_isReference (Expr.isReference_mapNames f href))
    · have hsame : u.mapNames f = u := by
        rw [Rule.mapNames, Expr.mapNames_of_isTerminal f hterminal]
      rw [hsame]
      exact .inr ⟨hterminal, hr⟩
  · exact .inl (Expr.isPure_mapNames f hpure)
  · have hne : Kind.terminal ≠ Kind.rule := by decide
    exact absurd (hterminal.symm.trans hkind) hne

/-- The other rules that are left come from the source as they are, or are parts that are bare
values. -/
theorem source_or_part_of_mem_flatRules (hlower : ∀ r ∈ rules, r.kind = .rule → hasLowercase r.symbol)
    (ht : t ∈ flatRules rules) (hkind : t.kind ≠ .rule) :
    (∃ r ∈ rules, r.kind ≠ .rule ∧ t = r.mapNames (mergeRenaming (flattenAll rules).rules)) ∨
      t.kind = .terminal ∧ t.expr.isTerminal ∧
        ∃ r ∈ rules, r.kind = .rule ∧ t ∈ r.parts (rules.map Rule.id) := by
  obtain ⟨u, hu, rfl⟩ := exists_mem_of_mem_mergeTerminals ht
  generalize mergeRenaming (flattenAll rules).rules = f at hkind ⊢
  rcases eq_emptyRule_or_of_mem_flattenAll hu with rfl | ⟨r, hr, hu⟩
  · exact absurd rfl hkind
  rcases eq_or_settled_of_mem_flatten _ True (fun h _ => hlower r hr h) hu with
    ⟨rfl, -⟩ | ⟨hrkind, ⟨hrule, -⟩ | ⟨hterminal, hvalue⟩⟩
  · exact .inl ⟨u, hr, hkind, rfl⟩
  · exact absurd hrule hkind
  · replace hvalue := hvalue trivial
    have hsame : u.mapNames f = u := by
      rw [Rule.mapNames, Expr.mapNames_of_isTerminal f hvalue]
    obtain ⟨e, hrules, -⟩ := exists_flatten_eq_cons (rules.map Rule.id) r
    rw [hsame] at hkind ⊢
    refine .inr ⟨hterminal, hvalue, r, hr, hrkind, ?_⟩
    rw [hrules] at hu
    refine (List.mem_cons.mp hu).resolve_left ?_
    rintro rfl
    exact hkind hrkind

/-- Of the flat rules, those of kind `rule` are pure or bare values that the source has as rules. If
the symbols of the source rules of that kind have lowercase letters, the others are source rules but
for names of merged terminals, or parts that are bare values. -/
theorem flatRules_pure (rules : List Rule) :
    let flat := (flattenAll rules).rules
    let f := mergeRenaming flat
    (∀ p ∈ (mergeKeyed (Keyed.ofList flat)).pairs, ∃ t ∈ terminals flat, ∃ u ∈ terminals flat,
        t.symbol = p.1.rule.symbol ∧ u.symbol = p.2.rule.symbol ∧
          t.expr.mapNames f = u.expr.mapNames f) ∧
      (∀ t ∈ flatRules rules, t.kind = .rule → t.expr.isPure ∨ t.expr.isTerminal ∧ t ∈ rules) ∧
      ((∀ r ∈ rules, r.kind = .rule → hasLowercase r.symbol) →
        ∀ t ∈ flatRules rules, t.kind ≠ .rule →
          (∃ r ∈ rules, r.kind ≠ .rule ∧ t = r.mapNames f) ∨
            t.kind = .terminal ∧ t.expr.isTerminal ∧
              ∃ r ∈ rules, r.kind = .rule ∧ t ∈ r.parts (rules.map Rule.id)) :=
  ⟨fun _ hp => exists_terminals_of_mem_pairs hp, fun _ ht hkind => isPure_of_mem_flatRules ht hkind,
    fun hlower _ ht hkind => source_or_part_of_mem_flatRules hlower ht hkind⟩

/-- Operators nested in a rule and in a terminal, and a terminal that merging renames. -/
def nestedRules : List Rule :=
  [{ symbol := some "a", id := "1", kind := .rule,
     expr := .alt [.seq [.literal "x", .opt (.ref "B")], .plus (.diff (.ref "B") (.literal "y"))] },
   { symbol := some "B", id := "2", kind := .terminal,
     expr := .seq [.ref "C", .star (.alt [.ref "C", .literal "z"])] },
   { symbol := some "C", id := "3", kind := .terminal, expr := .literal "x" }]

theorem flatRules_pure_nestedRules : (∀ r ∈ nestedRules, r.kind = .rule → hasLowercase r.symbol) ∧
    (∀ t ∈ flatRules nestedRules, t.kind = .rule →
      t.expr.isPure ∨ t.expr.isTerminal ∧ t ∈ nestedRules) ∧
    ∀ t ∈ flatRules nestedRules, t.kind ≠ .rule →
      (∃ r ∈ nestedRules, r.kind ≠ .rule ∧
          t = r.mapNames (mergeRenaming (flattenAll nestedRules).rules)) ∨
        t.kind = .terminal ∧ t.expr.isTerminal ∧
          ∃ r ∈ nestedRules, r.kind = .rule ∧ t ∈ r.parts (nestedRules.map Rule.id) := by
  have hlower : ∀ r ∈ nestedRules, r.kind = .rule → hasLowercase r.symbol := by decide
  obtain ⟨-, hpure, hother⟩ := flatRules_pure nestedRules
  exact ⟨hlower, hpure, hother hlower⟩

end FlatRules

end FlatGrammar
