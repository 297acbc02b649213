import FlatGrammar.Proofs.Grammar.FlatLanguage
import FlatGrammar.Proofs.Grammar.Loading
import FlatGrammar.Proofs.Rule.PartPath
import Mathlib.Data.List.Nodup

/-! # Names of flat rules

Flattening turns a rule into one of the same name followed by parts, and no path leads to two of them.
So the parts of one rule never share a symbol, and two rules share one only if their own symbols are
named like parts of each other.
-/
namespace FlatGrammar

theorem le_firstFree (reserved : List String) (id : Nat → String) (n : Nat) :
    n ≤ firstFree reserved id n := by
  unfold firstFree
  cases hfind : (List.range' n (reserved.length + 1)).find? fun k => !reserved.contains (id k) with
  | none => exact Nat.le_refl n
  | some k => exact (List.mem_range'_1.mp (List.mem_of_find?_eq_some hfind)).1

/-- The rules are the parts of a rule with the given symbol and id along the given paths. -/
def Placed (s id : String) (paths : List (List PartName)) (rules : List Rule) : Prop :=
  rules.map (fun t => (t.symbol, t.id)) =
    paths.map fun path => (some (symbolAlong s path), idAlong id path)

/-- Parts along different paths, all of which start in one of the allowed ways. -/
def Parts (s id : String) (ok : PartName → Prop) (rules : List Rule) : Prop :=
  ∃ paths : List (List PartName), paths.Nodup ∧
    (∀ path ∈ paths, ∃ p rest, path = p :: rest ∧ ok p) ∧ Placed s id paths rules

namespace Parts
variable {s id : String} {ok ok' : PartName → Prop} {a b : List Rule}

theorem nil : Parts s id ok [] := ⟨[], List.nodup_nil, by simp, rfl⟩

theorem mono (h : Parts s id ok a) (hok : ∀ p, ok p → ok' p) : Parts s id ok' a := by
  obtain ⟨paths, hnodup, hstart, hplaced⟩ := h
  refine ⟨paths, hnodup, ?_, hplaced⟩
  intro path hpath
  obtain ⟨p, rest, rfl, hp⟩ := hstart path hpath
  exact ⟨p, rest, rfl, hok p hp⟩

theorem append (h : Parts s id ok a) (h' : Parts s id ok' b) (hdisjoint : ∀ p, ok p → ¬ok' p) :
    Parts s id (fun p => ok p ∨ ok' p) (a ++ b) := by
  obtain ⟨paths, hnodup, hstart, hplaced⟩ := h
  obtain ⟨paths', hnodup', hstart', hplaced'⟩ := h'
  have hne : ∀ path ∈ paths, ∀ path' ∈ paths', path ≠ path' := by
    intro path hpath path' hpath' heq
    obtain ⟨p, rest, rfl, hp⟩ := hstart path hpath
    obtain ⟨p', rest', rfl, hp'⟩ := hstart' path' hpath'
    obtain ⟨rfl, _⟩ := List.cons.inj heq
    exact hdisjoint p hp hp'
  refine ⟨paths ++ paths', List.nodup_append.mpr ⟨hnodup, hnodup', hne⟩, ?_, ?_⟩
  · intro path hpath
    rcases List.mem_append.mp hpath with hpath | hpath
    · obtain ⟨p, rest, rfl, hp⟩ := hstart path hpath
      exact ⟨p, rest, rfl, .inl hp⟩
    · obtain ⟨p, rest, rfl, hp⟩ := hstart' path hpath
      exact ⟨p, rest, rfl, .inr hp⟩
  · unfold Placed at hplaced hplaced' ⊢
    rw [List.map_append, List.map_append, hplaced, hplaced']

theorem under {t : Rule} {p : PartName} (hsymbol : t.symbol = some (derivedSymbol s p.suffix))
    (hid : t.id = p.id id) (h : Parts (derivedSymbol s p.suffix) (p.id id) ok a) :
    Parts s id (· = p) (t :: a) := by
  obtain ⟨paths, hnodup, hstart, hplaced⟩ := h
  have hnil : [] ∉ paths := by
    intro hmem
    obtain ⟨q, rest, heq, _⟩ := hstart [] hmem
    simp at heq
  refine ⟨([] :: paths).map (p :: ·), ?_, ?_, ?_⟩
  · exact List.Nodup.map List.cons_injective (List.nodup_cons.mpr ⟨hnil, hnodup⟩)
  · intro path hpath
    obtain ⟨rest, _, rfl⟩ := List.mem_map.mp hpath
    exact ⟨p, rest, rfl, rfl⟩
  · unfold Placed at hplaced ⊢
    simp only [List.map_cons, hplaced, hsymbol, hid, List.map_map]
    rfl

theorem nodup_definedSymbols (h : Parts s id ok a) : (s :: definedSymbols a).Nodup := by
  obtain ⟨paths, hnodup, hstart, hplaced⟩ := h
  have hsymbols : definedSymbols a = paths.map (symbolAlong s) := by
    have hmap := congrArg (List.filterMap Prod.fst) hplaced
    simpa [definedSymbols, List.filterMap_map, Function.comp_def] using hmap
  have hnil : [] ∉ paths := by
    intro hmem
    obtain ⟨q, rest, heq, _⟩ := hstart [] hmem
    simp at heq
  have hcons : s :: definedSymbols a = ([] :: paths).map (symbolAlong s) := by
    rw [hsymbols]
    rfl
  rw [hcons]
  exact List.Nodup.map (fun _ _ => symbolAlong_injective) (List.nodup_cons.mpr ⟨hnil, hnodup⟩)

end Parts

/-- A rule with the given symbol and id, with another right-hand side, and parts of it. -/
def Spreads (s id : String) (ok : PartName → Prop) (rules : List Rule) : Prop :=
  ∃ t tail, rules = t :: tail ∧ t.symbol = some s ∧ t.id = id ∧ Parts s id ok tail

namespace Spreads
variable {s id : String} {ok ok' : PartName → Prop} {a b : List Rule}

theorem mono (h : Spreads s id ok a) (hok : ∀ p, ok p → ok' p) : Spreads s id ok' a := by
  obtain ⟨t, tail, rfl, hsymbol, hid, hparts⟩ := h
  exact ⟨t, tail, rfl, hsymbol, hid, hparts.mono hok⟩

theorem append (h : Spreads s id ok a) (h' : Parts s id ok' b) (hdisjoint : ∀ p, ok p → ¬ok' p) :
    Spreads s id (fun p => ok p ∨ ok' p) (a ++ b) := by
  obtain ⟨t, tail, rfl, hsymbol, hid, hparts⟩ := h
  exact ⟨t, tail ++ b, rfl, hsymbol, hid, hparts.append h' hdisjoint⟩

theorem under {p : PartName} (h : Spreads (derivedSymbol s p.suffix) (p.id id) ok a) :
    Parts s id (· = p) a := by
  obtain ⟨t, tail, rfl, hsymbol, hid, hparts⟩ := h
  exact hparts.under hsymbol hid

theorem nodup_definedSymbols (h : Spreads s id ok a) : (definedSymbols a).Nodup := by
  obtain ⟨t, tail, rfl, hsymbol, hid, hparts⟩ := h
  simpa [definedSymbols, hsymbol] using hparts.nodup_definedSymbols

theorem exists_symbol_eq (h : Spreads s id ok a) {t : Rule} (ht : t ∈ a) :
    ∃ path, t.symbol = some (symbolAlong s path) := by
  obtain ⟨root, tail, rfl, hsymbol, hid, paths, -, -, hplaced⟩ := h
  rcases List.mem_cons.mp ht with rfl | ht
  · exact ⟨[], hsymbol⟩
  · have hmem : (t.symbol, t.id) ∈ tail.map fun u => (u.symbol, u.id) := List.mem_map_of_mem ht
    rw [hplaced] at hmem
    obtain ⟨path, -, hpath⟩ := List.mem_map.mp hmem
    exact ⟨path, (congrArg Prod.fst hpath).symm⟩

theorem exists_symbolAlong (h : Spreads s id ok a) {x : String} (hx : x ∈ definedSymbols a) :
    ∃ path, x = symbolAlong s path := by
  obtain ⟨t, ht, hsymbol⟩ := mem_definedSymbols.mp hx
  obtain ⟨path, hpath⟩ := h.exists_symbol_eq ht
  exact ⟨path, Option.some.inj (hsymbol.symm.trans hpath)⟩

end Spreads

section Leaves
variable (reserved : List String) {r : Rule} {s : String} (hs : r.symbol = some s)
include hs

theorem parts_extractTerminals (n : Nat) (es : List Expr) :
    Parts s r.id (fun p => ∃ k, n ≤ k ∧ p = .value k) (extractTerminals reserved r n es).2 := by
  induction es generalizing n with
  | nil => exact .nil
  | cons e es ih =>
    unfold extractTerminals
    split
    case isTrue =>
      let k := firstFree reserved r.terminalId n
      have hk : n ≤ k := le_firstFree reserved r.terminalId n
      have hpart : Parts s r.id (· = .value k) [r.terminalPart k e] :=
        .under (symbol_part hs ..) rfl (.nil : Parts _ _ (fun _ => True) [])
      refine (hpart.append (ih (k + 1)) ?_).mono ?_
      · rintro p rfl ⟨j, hj, hp⟩
        obtain rfl := PartName.value.inj hp
        omega
      · rintro p (rfl | ⟨j, hj, rfl⟩)
        · exact ⟨k, hk, rfl⟩
        · exact ⟨j, by omega, rfl⟩
    case isFalse => exact ih n

theorem spreads_one (ok : PartName → Prop) : Spreads s r.id ok [r] := ⟨r, [], rfl, hs, rfl, .nil⟩

theorem spreads_flattenLeaves :
    Spreads s r.id (fun p => ∃ k, p = .value k) (flattenLeaves reserved r).rules := by
  unfold flattenLeaves
  split
  case isTrue =>
    refine ⟨_, _, rfl, hs, rfl, (parts_extractTerminals reserved hs 1 r.expr.operands).mono ?_⟩
    rintro p ⟨k, -, rfl⟩
    exact ⟨k, rfl⟩
  case isFalse => exact spreads_one hs _

theorem spreads_flattenStar (e : Expr) :
    Spreads s r.id (· = .star) (flattenStar reserved r e).rules := by
  have hx : partSymbol? r.symbol "star" = some (derivedSymbol s "star") := by
    simp [partSymbol?, hs]
  unfold flattenStar
  refine ⟨_, _, rfl, hs, rfl, ?_⟩
  split
  case isTrue => exact (spreads_flattenLeaves reserved hx).under
  case isFalse => exact (spreads_one hx fun _ => True).under

theorem spreads_flattenPlus (n : Nat) (e : Expr) :
    Spreads s r.id (fun p => (∃ k, p = .value k) ∨ ∃ k, n ≤ k ∧ p = .operator k)
      (flattenPlus reserved r n e).rules := by
  let k := firstFree reserved r.partId n
  have hk : n ≤ k := le_firstFree reserved r.partId n
  let part := r.operatorPart k (.star e)
  have hx : part.symbol = some (derivedSymbol s (PartName.operator k).suffix) := symbol_part hs ..
  let parent : Rule := { r with expr := .seq [e, part.symbolRef] }
  have hleaves := spreads_flattenLeaves reserved (r := parent) hs
  have hpart : Parts s r.id (· = .operator k)
      (if part.kind = .rule then flattenStar reserved part e else .one part).rules := by
    split
    case isTrue => exact (spreads_flattenStar reserved hx e).under
    case isFalse => exact (spreads_one hx fun _ => True).under
  refine (hleaves.append hpart ?_).mono ?_
  · rintro p ⟨j, rfl⟩ hp
    cases hp
  · rintro p (hp | rfl)
    · exact .inl hp
    · exact .inr ⟨k, hk, rfl⟩

theorem spreads_flattenOperator (n : Nat) :
    Spreads s r.id (fun p => ∀ k, p = .operator k → n ≤ k) (flattenOperator reserved r n).rules := by
  have hleaves : ∀ e, Spreads s r.id (fun p => ∀ k, p = .operator k → n ≤ k)
      (flattenLeaves reserved { r with expr := e }).rules := by
    intro e
    refine (spreads_flattenLeaves reserved (r := { r with expr := e }) hs).mono ?_
    rintro p ⟨j, rfl⟩ k hp
    cases hp
  unfold flattenOperator
  split
  case h_1 e he => exact hleaves _
  case h_2 e he =>
    refine (spreads_flattenStar reserved hs e).mono ?_
    rintro p rfl k hp
    cases hp
  case h_3 e he =>
    refine (spreads_flattenPlus reserved hs n e).mono ?_
    rintro p (⟨j, rfl⟩ | ⟨j, hj, rfl⟩) k hp
    · cases hp
    · cases hp
      exact hj
  case h_4 => exact hleaves r.expr

end Leaves

section Operands
variable (reserved : List String) {r : Rule} {s : String}

def FlattensBySpreading (e : Expr) : Prop :=
  ∀ (r : Rule) (s : String), r.symbol = some s →
    Spreads s r.id (fun _ => True) (flattenExpr reserved e r).rules

theorem parts_extractOperands (hs : r.symbol = some s) (n : Nat) (es : List Expr)
    (ih : ∀ e ∈ es, FlattensBySpreading reserved e) :
    n ≤ (extractOperands reserved es r n).nextNumber ∧
      Parts s r.id (fun p => ∃ k, n ≤ k ∧ k < (extractOperands reserved es r n).nextNumber ∧
        p = .operator k) (extractOperands reserved es r n).below.rules := by
  induction es generalizing n with
  | nil => exact ⟨Nat.le_refl n, .nil⟩
  | cons e es ihes =>
    have ihtail : ∀ o ∈ es, FlattensBySpreading reserved o := fun o ho =>
      ih o (List.mem_cons_of_mem e ho)
    by_cases he : e.isComposite
    · simp only [extractOperands, extractOperand, he, if_true, Extraction.join]
      have hk := le_firstFree reserved r.partId n
      generalize firstFree reserved r.partId n = k at hk ⊢
      have hx : (r.operatorPart k e).symbol = some (derivedSymbol s (PartName.operator k).suffix) :=
        symbol_part hs ..
      have hpart : Parts s r.id (· = .operator k)
          (flattenExpr reserved e (r.operatorPart k e)).rules :=
        (ih e List.mem_cons_self _ _ hx).under
      obtain ⟨hle, hrest⟩ := ihes (k + 1) ihtail
      refine ⟨by omega, (hpart.append hrest ?_).mono ?_⟩
      · rintro p rfl ⟨j, hj, -, hp⟩
        obtain rfl := PartName.operator.inj hp
        omega
      · rintro p (rfl | ⟨j, hj, hlt, rfl⟩)
        · exact ⟨k, hk, by omega, rfl⟩
        · exact ⟨j, by omega, hlt, rfl⟩
    · obtain ⟨hle, hrest⟩ := ihes n ihtail
      simp only [extractOperands, extractOperand, he, Extraction.join]
      exact ⟨hle, hrest⟩

theorem flattensBySpreading (e : Expr) : FlattensBySpreading reserved e := by
  induction e using Expr.operands_induction with
  | step e ih =>
    intro r s hs
    rw [flattenExpr_eq]
    split
    case isFalse => exact spreads_one (r := { r with expr := e }) hs _
    case isTrue =>
      obtain ⟨-, hbelow⟩ := parts_extractOperands reserved hs 1 e.operands ih
      generalize extractOperands reserved e.operands r 1 = x at hbelow ⊢
      let parent : Rule := { r with expr := e.withOperands x.operands }
      have hparent := spreads_flattenOperator reserved (r := parent) hs x.nextNumber
      unfold Extraction.finish
      split
      case isTrue => exact hparent.mono fun _ _ => trivial
      case isFalse =>
        refine (hparent.append hbelow ?_).mono fun _ _ => trivial
        rintro p hp ⟨k, -, hk, rfl⟩
        have := hp k rfl
        omega

theorem spreads_flatten (hs : r.symbol = some s) :
    Spreads s r.id (fun _ => True) (r.flatten reserved).rules :=
  flattensBySpreading reserved r.expr r s hs

end Operands

section Symbols
variable {rules : List Rule} {reserved : List String} {r t : Rule} {s x : String}

/-- The symbols that a rule turns into, its own first. -/
def Rule.flatSymbols (reserved : List String) (r : Rule) : List String :=
  definedSymbols (r.flatten reserved).rules

theorem definedSymbols_flattenAll (rules : List Rule) :
    definedSymbols (flattenAll rules).rules =
      emptySymbol :: rules.flatMap (Rule.flatSymbols (rules.map Rule.id)) := by
  rw [rules_flattenAll]
  simp only [definedSymbols, List.filterMap_cons, emptyRule, List.filterMap_flatMap]
  rfl

theorem flatSymbols_of_none (hr : r.kind = .rule → r.symbol.isSome) (hs : r.symbol = none) :
    r.flatSymbols reserved = [] := by
  have hkind : r.kind ≠ .rule := fun h => by simpa [hs] using hr h
  rw [Rule.flatSymbols, Rule.flatten, flattenExpr_eq, if_neg fun h => hkind h.2]
  simp [Flat.one, definedSymbols, hs]

theorem nodup_flatSymbols (hr : r.kind = .rule → r.symbol.isSome) :
    (r.flatSymbols reserved).Nodup := by
  cases hs : r.symbol with
  | none => simp [flatSymbols_of_none hr hs]
  | some s => exact (spreads_flatten reserved hs).nodup_definedSymbols

theorem exists_symbolAlong_of_mem (hr : r.kind = .rule → r.symbol.isSome)
    (hx : x ∈ r.flatSymbols reserved) : ∃ s path, r.symbol = some s ∧ x = symbolAlong s path := by
  cases hs : r.symbol with
  | none => simp [flatSymbols_of_none hr hs] at hx
  | some s =>
    obtain ⟨path, hpath⟩ := (spreads_flatten reserved hs).exists_symbolAlong hx
    exact ⟨s, path, rfl, hpath⟩

theorem emptySymbol_notMem_flatSymbols (hr : r.kind = .rule → r.symbol.isSome)
    (hempty : r.symbol ≠ some emptySymbol) : emptySymbol ∉ r.flatSymbols reserved := by
  intro hmem
  obtain ⟨s, path, hs, hpath⟩ := exists_symbolAlong_of_mem hr hmem
  by_cases hnil : path = []
  · subst hnil
    exact hempty (hs.trans (congrArg some hpath.symm))
  · exact symbolAlong_ne hnil (by decide) hpath.symm

/-- Only rules that turn into the same symbol are in the way of each other. -/
theorem nodup_flattenAll_iff (hnamed : Named rules) (hempty : emptySymbol ∉ definedSymbols rules) :
    (definedSymbols (flattenAll rules).rules).Nodup ↔
      rules.Pairwise fun r t => (r.flatSymbols (rules.map Rule.id)).Disjoint
        (t.flatSymbols (rules.map Rule.id)) := by
  rw [definedSymbols_flattenAll, List.nodup_cons, List.nodup_flatMap]
  constructor
  · rintro ⟨-, -, hdisjoint⟩
    exact hdisjoint
  · intro hdisjoint
    refine ⟨?_, fun r hr => nodup_flatSymbols (hnamed r hr), hdisjoint⟩
    intro hmem
    obtain ⟨r, hr, hx⟩ := List.mem_flatMap.mp hmem
    have hsymbol : r.symbol ≠ some emptySymbol := fun h =>
      hempty (mem_definedSymbols.mpr ⟨r, hr, h⟩)
    exact emptySymbol_notMem_flatSymbols (hnamed r hr) hsymbol hx

/-- Rules turn into the same symbol only if one of them is named like a part of the other. -/
theorem disjoint_flatSymbols (hr : r.kind = .rule → r.symbol.isSome)
    (ht : t.kind = .rule → t.symbol.isSome)
    (hnames : ∀ s u, r.symbol = some s → t.symbol = some u → ¬NamedUnder s u ∧ ¬NamedUnder u s) :
    (r.flatSymbols reserved).Disjoint (t.flatSymbols reserved) := by
  intro x hxr hxt
  obtain ⟨s, path, hs, hpath⟩ := exists_symbolAlong_of_mem hr hxr
  obtain ⟨u, rest, hu, hrest⟩ := exists_symbolAlong_of_mem ht hxt
  obtain ⟨hsu, hus⟩ := hnames s u hs hu
  rcases namedUnder_of_symbolAlong_eq (hpath.symm.trans hrest) with h | h
  · exact hsu h
  · exact hus h

end Symbols

section Loaded
variable {text : String} {file : Option String} {g : Grammar}

theorem named_of_load (hload : Grammar.load text file = .ok g) : Named g.rules := by
  intro r hr hkind
  refine isSome_symbol_of_load hload hr ?_
  rw [hkind]
  decide

/-- Flattening a loaded grammar defines no symbol twice if and only if no two of its rules turn into
the same symbol. It is enough that none of its symbols is named like a part of another. -/
theorem nodup_flattenAll_of_load (hload : Grammar.load text file = .ok g)
    (hempty : emptySymbol ∉ definedSymbols g.rules) :
    flattenAll? g.rules = .ok (flattenAll g.rules) ∧
      ((definedSymbols (flattenAll g.rules).rules).Nodup ↔
        g.rules.Pairwise fun r t => (r.flatSymbols (g.rules.map Rule.id)).Disjoint
          (t.flatSymbols (g.rules.map Rule.id))) ∧
      ((definedSymbols g.rules).Pairwise (fun s u => ¬NamedUnder s u ∧ ¬NamedUnder u s) →
        (definedSymbols (flattenAll g.rules).rules).Nodup) := by
  have hnamed := named_of_load hload
  have hiff := nodup_flattenAll_iff hnamed hempty
  refine ⟨flattenAll?_eq_ok hnamed, hiff, ?_⟩
  intro hnames
  rw [hiff]
  have hpairs := (List.pairwise_filterMap (f := Rule.symbol)).mp hnames
  refine hpairs.imp_of_mem ?_
  intro r t hr ht hrt
  exact disjoint_flatSymbols (hnamed r hr) (hnamed t ht) fun s u hs hu => hrt s hs u hu

def plainText : String := "[1] a ::= 'x' (b | c+)* \n[2] b ::= (a - 'y')?"

theorem disjoint_flatSymbols_plainText : ∃ g, Grammar.load plainText none = .ok g ∧
    emptySymbol ∉ definedSymbols g.rules ∧ flattenAll? g.rules = .ok (flattenAll g.rules) ∧
    (definedSymbols (flattenAll g.rules).rules).Nodup ∧
    g.rules.Pairwise fun r t => (r.flatSymbols (g.rules.map Rule.id)).Disjoint
      (t.flatSymbols (g.rules.map Rule.id)) := by
  obtain ⟨g, hload, hempty, hnodup⟩ : ∃ g, Grammar.load plainText none = .ok g ∧
      emptySymbol ∉ definedSymbols g.rules ∧ (definedSymbols (flattenAll g.rules).rules).Nodup :=
    ⟨_, rfl, by decide, by decide⟩
  obtain ⟨hok, hiff, -⟩ := nodup_flattenAll_of_load hload hempty
  exact ⟨g, hload, hempty, hok, hnodup, hiff.mp hnodup⟩

/-- A rule may have the symbol of a part of another. Ids of parts are chosen apart from those of
rules, symbols are not. -/
theorem not_nodup_flattenAll : ∃ g,
    Grammar.load "[1] a ::= (b c)?\n[2] _a_1 ::= d" none = .ok g ∧
      (definedSymbols g.rules).Nodup ∧ emptySymbol ∉ definedSymbols g.rules ∧
      ¬(definedSymbols (flattenAll g.rules).rules).Nodup := by
  exact ⟨_, rfl, by decide, by decide, by decide⟩

end Loaded

end FlatGrammar
