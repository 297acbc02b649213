import FlatGrammar.Proofs.Grammar.Derivation
import FlatGrammar.Proofs.Grammar.Splitting

/-! # The language of flat rules

A split leaves the words of every symbol as they are, provided that the symbol of a new rule is fresh:
each half is an interpretation of one list of rules made into a model of the other. Runs of splits
inherit this, since symbols are never lost and only fresh ones come to be referred to.
-/
namespace FlatGrammar
open Computability

def referencedNames (rules : List Rule) : List (Option String) := rules.flatMap Rule.references

/-- Symbols that `b` defines on top of `a` are not referred to in `a`. -/
def Fresh (a b : List Rule) : Prop :=
  ∀ s ∈ definedSymbols b, s ∉ definedSymbols a → some s ∉ referencedNames a

theorem mem_definedSymbols {rules : List Rule} {s : String} :
    s ∈ definedSymbols rules ↔ ∃ r ∈ rules, r.symbol = some s := List.mem_filterMap

theorem mem_referencedNames {rules : List Rule} {name : Option String} :
    name ∈ referencedNames rules ↔ ∃ r ∈ rules, name ∈ r.expr.references := List.mem_flatMap

section Models
variable {a b : List Rule}

theorem words_update {env : Interpretation} {e : Expr} {name : Option String}
    {l : Language Letter} (h : name ∉ e.references) :
    e.words (Function.update env name l) = e.words env := by
  apply Expr.words_congr
  intro other hother
  have hne : other ≠ name := by rintro rfl; exact h hother
  exact Function.update_of_ne hne l env

theorem rule_unique {rules : List Rule} (hnodup : (definedSymbols rules).Nodup) {r t : Rule}
    {s : String} (hr : r ∈ rules) (ht : t ∈ rules) (hrs : r.symbol = some s)
    (hts : t.symbol = some s) : r = t := by
  let Agree (r t : Rule) : Prop := ∀ s, r.symbol = some s → t.symbol = some s → r = t
  have hpairwise := List.pairwise_filterMap.mp hnodup
  have hagree : rules.Pairwise Agree :=
    hpairwise.imp fun h s hr ht => absurd rfl (h s hr s ht)
  have hflip : rules.Pairwise (flip Agree) :=
    hpairwise.imp fun h s hr ht => absurd rfl (h s ht s hr)
  exact hagree.forall_of_forall_of_flip (fun _ _ _ _ _ => rfl) hflip hr ht s hrs hts

theorem derived_eq_words {rules : List Rule} (hnodup : (definedSymbols rules).Nodup) {r : Rule}
    {s : String} (hr : r ∈ rules) (hs : r.symbol = some s) :
    derived rules (some s) = r.expr.words (derived rules) := by
  apply le_antisymm _ ((isModel_derived rules).defined r hr s hs)
  intro w hw
  cases hw with
  | defined ht hts h =>
    obtain rfl := rule_unique hnodup hr ht hs hts
    exact derives_iff_mem_words.mp h
  | undefined h => exact absurd rfl (h s (mem_definedSymbols.mpr ⟨r, hr, hs⟩))

/-- Rules with more symbols agree with fewer rules as soon as each list has a model made of the words
of the other. -/
theorem derived_eq_of_models (hfresh : Fresh a b)
    (hsound : ∀ r ∈ a, ∀ s, r.symbol = some s → r.expr.words (derived b) ≤ derived b (some s))
    (env : Interpretation) (hmodel : IsModel b env)
    (henv : ∀ s ∈ definedSymbols a, env (some s) = derived a (some s))
    {s : String} (hs : s ∈ definedSymbols a) : derived b (some s) = derived a (some s) := by
  classical
  -- Names new in `b` may mean anything here, as nothing in `a` refers to them.
  let New (name : Option String) : Prop := ∃ x ∈ definedSymbols b, x ∉ definedSymbols a ∧ name = some x
  let outer : Interpretation := fun name => if New name then ⊤ else derived b name
  have hold : ∀ s ∈ definedSymbols a, outer (some s) = derived b (some s) := by
    intro s hs
    apply if_neg
    rintro ⟨x, _, hx, heq⟩
    obtain rfl := Option.some.inj heq
    exact hx hs
  have houter : IsModel a outer := by
    constructor
    · intro r hr s hrs
      rw [hold s (mem_definedSymbols.mpr ⟨r, hr, hrs⟩)]
      have hwords : r.expr.words outer = r.expr.words (derived b) := by
        apply Expr.words_congr
        intro name hname
        apply if_neg
        rintro ⟨x, hxb, hxa, rfl⟩
        exact hfresh x hxb hxa (mem_referencedNames.mpr ⟨r, hr, hname⟩)
      exact hwords ▸ hsound r hr s hrs
    · intro name hname
      by_cases hnew : New name
      · simp only [outer, if_pos hnew]
        exact Set.mem_univ _
      · simp only [outer, if_neg hnew]
        refine (isModel_derived b).undefined name fun x hx heq => hnew ⟨x, hx, ?_, heq⟩
        exact fun hxa => hname x hxa heq
  apply le_antisymm
  · intro w hw
    exact henv s hs ▸ hmodel.mem_words hw
  · intro w hw
    exact hold s hs ▸ houter.mem_words hw

/-- A fresh symbol may be read as any language that its rules and those rewritten on its account
accept. -/
theorem isModel_update {x : String} {l : Language Letter}
    (hdefs : ∀ t, t ∈ definedSymbols b ↔ t = x ∨ t ∈ definedSymbols a)
    (hxdef : x ∉ definedSymbols a) (hxref : some x ∉ referencedNames a)
    (hnew : ∀ r ∈ b, r ∉ a → ∀ s, r.symbol = some s →
      r.expr.words (Function.update (derived a) (some x) l) ≤
        Function.update (derived a) (some x) l (some s)) :
    IsModel b (Function.update (derived a) (some x) l) := by
  constructor
  · intro r hr s hs
    by_cases hold : r ∈ a
    · have href : some x ∉ r.expr.references := fun h =>
        hxref (mem_referencedNames.mpr ⟨r, hold, h⟩)
      have hne : some s ≠ some x := by
        rintro ⟨⟩
        exact hxdef (mem_definedSymbols.mpr ⟨r, hold, hs⟩)
      rw [words_update href, Function.update_of_ne hne]
      exact (isModel_derived a).defined r hold s hs
    · exact hnew r hr hold s hs
  · intro name hname
    have hne : name ≠ some x := hname x ((hdefs x).mpr (.inl rfl))
    rw [Function.update_of_ne hne]
    exact (isModel_derived a).undefined name fun t ht => hname t ((hdefs t).mpr (.inr ht))

/-- Rules may get fresh symbols on top: the symbols that were there keep their words. -/
theorem derived_eq_of_update {x : String} {l : Language Letter}
    (hdefs : ∀ t, t ∈ definedSymbols b ↔ t = x ∨ t ∈ definedSymbols a)
    (hxdef : x ∉ definedSymbols a) (hxref : some x ∉ referencedNames a)
    (hsound : ∀ r ∈ a, ∀ s, r.symbol = some s → r.expr.words (derived b) ≤ derived b (some s))
    (hnew : ∀ r ∈ b, r ∉ a → ∀ s, r.symbol = some s →
      r.expr.words (Function.update (derived a) (some x) l) ≤
        Function.update (derived a) (some x) l (some s))
    {s : String} (hs : s ∈ definedSymbols a) : derived b (some s) = derived a (some s) := by
  have hfresh : Fresh a b := by
    intro t htb hta
    rcases (hdefs t).mp htb with rfl | ht
    · exact hxref
    · exact absurd ht hta
  refine derived_eq_of_models hfresh hsound _ (isModel_update hdefs hxdef hxref hnew) ?_ hs
  intro t ht
  have hne : some t ≠ some x := by rintro ⟨⟩; exact hxdef ht
  exact Function.update_of_ne hne ..

end Models

section Steps
variable {r part : Rule} {others : List Rule} {e : Expr} {s : String}

theorem derived_eq_in_place
    (hcomplete : e.words (derived (r :: others)) ≤ r.expr.words (derived (r :: others)))
    (hsound : r.expr.words (derived ({ r with expr := e } :: others)) ≤
      e.words (derived ({ r with expr := e } :: others)))
    (hs : s ∈ definedSymbols (r :: others)) :
    derived ({ r with expr := e } :: others) (some s) = derived (r :: others) (some s) := by
  let a := r :: others
  let b := { r with expr := e } :: others
  have hdefs : definedSymbols b = definedSymbols a := rfl
  have hfresh : Fresh a b := fun s hsb hsa => absurd (hdefs ▸ hsb) hsa
  have ha := isModel_derived a
  have hb := isModel_derived b
  refine derived_eq_of_models hfresh ?_ (derived a) ?_ (fun _ _ => rfl) hs
  · intro t ht s hts
    rcases List.mem_cons.mp ht with rfl | ht
    · exact hsound.trans (hb.defined _ List.mem_cons_self s hts)
    · exact hb.defined t (List.mem_cons_of_mem _ ht) s hts
  · constructor
    · intro t ht s hts
      rcases List.mem_cons.mp ht with rfl | ht
      · exact hcomplete.trans (ha.defined r List.mem_cons_self s hts)
      · exact ha.defined t (List.mem_cons_of_mem _ ht) s hts
    · exact ha.undefined

theorem derived_eq_with_part {x : String} (hx : part.symbol = some x)
    (hxdef : x ∉ definedSymbols (r :: others)) (hxref : some x ∉ referencedNames (r :: others))
    {l : Language Letter}
    (hcomplete : ∀ s, r.symbol = some s →
      e.words (Function.update (derived (r :: others)) (some x) l) ≤ derived (r :: others) (some s))
    (hpart : part.expr.words (Function.update (derived (r :: others)) (some x) l) ≤ l)
    (hsound : ∀ s, r.symbol = some s →
      r.expr.words (derived ({ r with expr := e } :: part :: others)) ≤
        derived ({ r with expr := e } :: part :: others) (some s))
    (hs : s ∈ definedSymbols (r :: others)) :
    derived ({ r with expr := e } :: part :: others) (some s) = derived (r :: others) (some s) := by
  have hdefs : ∀ t, t ∈ definedSymbols ({ r with expr := e } :: part :: others) ↔
      t = x ∨ t ∈ definedSymbols (r :: others) := by
    intro t
    simp only [mem_definedSymbols, List.mem_cons, exists_eq_or_imp, hx, Option.some.injEq]
    rw [or_left_comm, eq_comm (a := x)]
  have hb := isModel_derived ({ r with expr := e } :: part :: others)
  refine derived_eq_of_update hdefs hxdef hxref (l := l) ?_ ?_ hs
  · intro t ht u htu
    rcases List.mem_cons.mp ht with rfl | ht
    · exact hsound u htu
    · exact hb.defined t (List.mem_cons_of_mem _ (List.mem_cons_of_mem _ ht)) u htu
  · intro t ht hta u htu
    rcases List.mem_cons.mp ht with rfl | ht
    · have hne : some u ≠ some x := by
        rintro ⟨⟩
        exact hxdef (mem_definedSymbols.mpr ⟨r, List.mem_cons_self, htu⟩)
      rw [Function.update_of_ne hne]
      exact hcomplete u htu
    rcases List.mem_cons.mp ht with rfl | ht
    · obtain rfl := Option.some.inj (hx.symm.trans htu)
      rw [Function.update_self]
      exact hpart
    · exact absurd (List.mem_cons_of_mem r ht) hta

end Steps

theorem derived_empty {rules : List Rule} (hempty : emptyRule ∈ rules)
    (hnodup : (definedSymbols rules).Nodup) : derived rules (some emptySymbol) = 1 := by
  rw [derived_eq_words hnodup hempty rfl]
  simp [emptyRule]

namespace Split
variable {r part : Rule} {out others : List Rule} {s : String}

theorem definedSymbols_perm (h : Split r out) (others : List Rule) :
    ∃ xs, (definedSymbols (out ++ others)).Perm (xs ++ definedSymbols (r :: others)) := by
  have hpart : ∀ (e : Expr) (part : Rule) (x : String), part.symbol = some x →
      (definedSymbols ({ r with expr := e } :: part :: others)).Perm
        ([x] ++ definedSymbols (r :: others)) := by
    intro e part x hx
    have hswap := List.Perm.swap part { r with expr := e } others
    simpa [definedSymbols, List.filterMap_cons, hx] using hswap.filterMap Rule.symbol
  cases h with
  | operand _ hx => exact ⟨_, hpart _ _ _ hx⟩
  | star _ _ _ hx => exact ⟨_, hpart _ _ _ hx⟩
  | opt _ | plus _ => exact ⟨[], .refl _⟩

theorem nodup_of_nodup (h : Split r out) (hnodup : (definedSymbols (out ++ others)).Nodup) :
    (definedSymbols (r :: others)).Nodup := by
  obtain ⟨xs, hperm⟩ := h.definedSymbols_perm others
  exact (List.nodup_append.mp (hperm.nodup_iff.mp hnodup)).2.1

theorem notMem_of_nodup {e : Expr} {x : String} (hx : part.symbol = some x)
    (hnodup : (definedSymbols ({ r with expr := e } :: part :: others)).Nodup) :
    x ∉ definedSymbols (r :: others) := by
  have hperm := (List.Perm.swap part { r with expr := e } others).filterMap Rule.symbol
  have hcons : (definedSymbols (part :: { r with expr := e } :: others)).Nodup :=
    hperm.nodup_iff.mp hnodup
  rw [definedSymbols, List.filterMap_cons_some hx] at hcons
  exact (List.nodup_cons.mp hcons).1

theorem notMem_referencedNames {e : Expr} {x : String} (hx : part.symbol = some x)
    (hnodup : (definedSymbols ({ r with expr := e } :: part :: others)).Nodup)
    (hfresh : Fresh (r :: others) ({ r with expr := e } :: part :: others)) :
    some x ∉ referencedNames (r :: others) := by
  have hmem : x ∈ definedSymbols ({ r with expr := e } :: part :: others) :=
    mem_definedSymbols.mpr ⟨part, List.mem_cons_of_mem _ List.mem_cons_self, hx⟩
  exact hfresh x hmem (notMem_of_nodup hx hnodup)

theorem derived_eq_operand {pre post : List Expr} {x : String}
    (h : r.expr.operands = pre ++ part.expr :: post) (hx : part.symbol = some x)
    (hnodup : (definedSymbols
      ({ r with expr := r.expr.withOperands (pre ++ .ref x :: post) } :: part :: others)).Nodup)
    (hxref : some x ∉ referencedNames (r :: others)) (hs : s ∈ definedSymbols (r :: others)) :
    derived ({ r with expr := r.expr.withOperands (pre ++ .ref x :: post) } :: part :: others)
      (some s) = derived (r :: others) (some s) := by
  let a := r :: others
  let e := r.expr.withOperands (pre ++ .ref x :: post)
  let b := { r with expr := e } :: part :: others
  let l := part.expr.words (derived a)
  let env := Function.update (derived a) (some x) l
  have hname : ∀ name, r.expr ≠ .symbol name := by
    intro name heq
    simp [heq, Expr.operands] at h
  have hkeep : ∀ o ∈ r.expr.operands, o.words env = o.words (derived a) := by
    intro o ho
    apply words_update
    intro href
    exact hxref (mem_referencedNames.mpr
      ⟨r, List.mem_cons_self, Expr.mem_references_of_operand ho href⟩)
  rw [h] at hkeep
  have hpart : part.expr.words env = l := hkeep part.expr (by simp)
  have hrewritten : e.words env = r.expr.words (derived a) := by
    apply Expr.words_withOperands hname
    rw [h]
    simp only [List.map_append, List.map_cons, Expr.words_symbol, env, Function.update_self]
    rw [List.map_congr_left fun o ho => hkeep o (List.mem_append_left _ ho),
      List.map_congr_left fun o ho => hkeep o (List.mem_append_right _ (List.mem_cons_of_mem _ ho))]
  have hback : e.words (derived b) = r.expr.words (derived b) := by
    apply Expr.words_withOperands hname
    have hmem : part ∈ b := List.mem_cons_of_mem _ List.mem_cons_self
    simp [h, derived_eq_words hnodup hmem hx, e, b]
  refine derived_eq_with_part hx (notMem_of_nodup hx hnodup) hxref (l := l) ?_ hpart.le ?_ hs
  · intro t ht
    exact hrewritten.le.trans ((isModel_derived a).defined r List.mem_cons_self t ht)
  · intro t ht
    exact hback.ge.trans ((isModel_derived b).defined _ List.mem_cons_self t ht)

theorem derived_eq_star {e : Expr} {t x : String} (h : r.expr = .star e) (ht : r.symbol = some t)
    (hpart : part.expr = .seq [e, .ref t]) (hx : part.symbol = some x)
    (hempty : emptyRule ∈ others)
    (hnodup : (definedSymbols
      ({ r with expr := .alt [.ref emptySymbol, .ref x] } :: part :: others)).Nodup)
    (hxref : some x ∉ referencedNames (r :: others)) (hs : s ∈ definedSymbols (r :: others)) :
    derived ({ r with expr := .alt [.ref emptySymbol, .ref x] } :: part :: others) (some s) =
      derived (r :: others) (some s) := by
  let a := r :: others
  let b := { r with expr := .alt [.ref emptySymbol, .ref x] } :: part :: others
  let l := e.words (derived a) * derived a (some t)
  let env := Function.update (derived a) (some x) l
  have hxdef := notMem_of_nodup hx hnodup
  have hanodup : (definedSymbols a).Nodup :=
    Split.nodup_of_nodup (.star h ht hpart hx) hnodup
  have hold : ∀ u ∈ definedSymbols a, env (some u) = derived a (some u) := by
    intro u hu
    have hne : some u ≠ some x := by rintro ⟨⟩; exact hxdef hu
    exact Function.update_of_ne hne ..
  have hnew : env (some x) = l := Function.update_self ..
  have hta : derived a (some t) = (e.words (derived a))∗ := by
    rw [derived_eq_words hanodup List.mem_cons_self ht, h, Expr.words_repeated]
    rfl
  have hemptya : derived a (some emptySymbol) = 1 :=
    derived_empty (List.mem_cons_of_mem r hempty) hanodup
  have hemptyb : derived b (some emptySymbol) = 1 :=
    derived_empty (List.mem_cons_of_mem _ (List.mem_cons_of_mem _ hempty)) hnodup
  refine derived_eq_with_part hx hxdef hxref (l := l) ?_ ?_ ?_ hs
  · intro u hu
    obtain rfl := Option.some.inj (ht.symm.trans hu)
    have hmem : emptySymbol ∈ definedSymbols a :=
      mem_definedSymbols.mpr ⟨emptyRule, List.mem_cons_of_mem r hempty, rfl⟩
    have hbody : (Expr.alt [.ref emptySymbol, .ref x]).words env = 1 + l := by
      simp only [Expr.words_alt, List.map_cons, List.map_nil, List.sum_cons, List.sum_nil,
        Expr.words_symbol, add_zero]
      rw [hold _ hmem, hemptya, hnew]
    have hl : l ≤ derived a (some t) := by
      simp only [l, hta]
      exact mul_kstar_le_kstar
    exact hbody.le.trans (add_le (hta ▸ one_le_kstar) hl)
  · have href : some x ∉ e.references := by
      intro hmem
      refine hxref (mem_referencedNames.mpr ⟨r, List.mem_cons_self, ?_⟩)
      simpa [h] using hmem
    have htmem : t ∈ definedSymbols a := mem_definedSymbols.mpr ⟨r, List.mem_cons_self, ht⟩
    simp only [hpart, Expr.words_seq, List.map_cons, List.map_nil, List.prod_cons, List.prod_nil,
      Expr.words_symbol, mul_one]
    rw [words_update href]
    exact (congrArg (e.words (derived a) * ·) (hold t htmem)).le
  · intro u hu
    obtain rfl := Option.some.inj (ht.symm.trans hu)
    have hbody : 1 + derived b (some x) ≤ derived b (some t) := by
      have hrule := (isModel_derived b).defined _ List.mem_cons_self t ht
      simpa [← add_eq_sup, hemptyb, b] using hrule
    have hstep : e.words (derived b) * derived b (some t) ≤ derived b (some x) := by
      have hmem : part ∈ b := List.mem_cons_of_mem _ List.mem_cons_self
      have hrule := (isModel_derived b).defined part hmem x hx
      simpa [hpart] using hrule
    obtain ⟨hone, hxle⟩ := add_le_iff.mp hbody
    rw [h, Expr.words_repeated]
    exact kstar_le_of_mul_le_right hone (hstep.trans hxle)

/-- One split leaves the words of every symbol as they are. -/
theorem derived_eq (h : Split r out) (hempty : emptyRule ∈ others)
    (hnodup : (definedSymbols (out ++ others)).Nodup)
    (hfresh : Fresh (r :: others) (out ++ others)) (hs : s ∈ definedSymbols (r :: others)) :
    derived (out ++ others) (some s) = derived (r :: others) (some s) := by
  cases h with
  | @operand part pre post x h hx =>
    exact derived_eq_operand h hx hnodup (notMem_referencedNames hx hnodup hfresh) hs
  | @star part e t x h ht hpart hx =>
    have hxref := notMem_referencedNames hx hnodup hfresh
    exact derived_eq_star h ht hpart hx hempty hnodup hxref hs
  | @opt e h =>
    have hone : ∀ rules, emptyRule ∈ rules → (definedSymbols rules).Nodup →
        (Expr.alt [.ref emptySymbol, e]).words (derived rules) = r.expr.words (derived rules) := by
      intro rules hmem hnodup
      rw [h, Expr.words_repeated]
      simp [derived_empty hmem hnodup, Repetition.words]
    have hold := hone (r :: others) (List.mem_cons_of_mem r hempty) (nodup_of_nodup (.opt h) hnodup)
    have hnew := hone _ (List.mem_cons_of_mem _ hempty) hnodup
    exact derived_eq_in_place hold.le hnew.ge hs
  | @plus e h =>
    have hunrolled : ∀ rules,
        (Expr.seq [e, .star e]).words (derived rules) = r.expr.words (derived rules) := by
      intro rules
      rw [h, Expr.words_repeated]
      simp [Repetition.words]
    exact derived_eq_in_place (hunrolled _).le (hunrolled _).ge hs

/-- What comes to be referred to is the empty rule or a symbol with a rule. -/
theorem mem_referencedNames (h : Split r out) {name : Option String}
    (hreferred : name ∈ referencedNames (out ++ others)) :
    name ∈ referencedNames (r :: others) ∨ name = some emptySymbol ∨
      ∃ s ∈ definedSymbols (out ++ others), name = some s := by
  obtain ⟨t, ht, hname⟩ := FlatGrammar.mem_referencedNames.mp hreferred
  have hroot : ∀ {name}, name ∈ r.expr.references → name ∈ referencedNames (r :: others) :=
    fun hmem => FlatGrammar.mem_referencedNames.mpr ⟨r, List.mem_cons_self, hmem⟩
  have hdefined : ∀ {t x}, t ∈ out → t.symbol = some x →
      ∃ s ∈ definedSymbols (out ++ others), some x = some s := fun ht hx =>
    ⟨_, mem_definedSymbols.mpr ⟨_, List.mem_append_left _ ht, hx⟩, rfl⟩
  rcases List.mem_append.mp ht with ht | ht
  · cases h with
    | @operand part pre post x h hx =>
      have hkeep : ∀ o ∈ pre ++ part.expr :: post, name ∈ o.references →
          name ∈ referencedNames (r :: others) := fun o ho hmem =>
        hroot (Expr.mem_references_of_operand (h ▸ ho) hmem)
      rcases List.mem_pair.mp ht with rfl | rfl
      · rcases Expr.mem_references_withOperands hname with hmem | ⟨o, ho, hmem⟩
        · exact .inl (hroot hmem)
        · rcases List.mem_append.mp ho with ho | ho
          · exact .inl (hkeep o (List.mem_append_left _ ho) hmem)
          · rcases List.mem_cons.mp ho with rfl | ho
            · obtain rfl : name = some x := by simpa using hmem
              exact .inr (.inr (hdefined (by simp) hx))
            · refine .inl (hkeep o (List.mem_append_right _ ?_) hmem)
              exact List.mem_cons_of_mem _ ho
      · exact .inl (hkeep _ (by simp) hname)
    | @star part e t x h hs hpart hx =>
      rcases List.mem_pair.mp ht with rfl | rfl
      · have hcases : name = some emptySymbol ∨ name = some x := by simpa using hname
        rcases hcases with rfl | rfl
        · exact .inr (.inl rfl)
        · exact .inr (.inr (hdefined (by simp) hx))
      · have hcases : name ∈ e.references ∨ name = some t := by simpa [hpart] using hname
        rcases hcases with hmem | rfl
        · exact .inl (hroot (by simpa [h] using hmem))
        · exact .inr (.inr (hdefined List.mem_cons_self hs))
    | @opt e h =>
      obtain rfl := List.mem_singleton.mp ht
      have hcases : name = some emptySymbol ∨ name ∈ e.references := by simpa using hname
      rcases hcases with rfl | hmem
      · exact .inr (.inl rfl)
      · exact .inl (hroot (by simpa [h] using hmem))
    | @plus e h =>
      obtain rfl := List.mem_singleton.mp ht
      exact .inl (hroot (by simpa [h] using hname))
  · exact .inl (FlatGrammar.mem_referencedNames.mpr ⟨t, List.mem_cons_of_mem r ht, hname⟩)

theorem ne_emptyRule (h : Split r out) : r ≠ emptyRule := by
  rintro rfl
  cases h with
  | operand h _ => simp [emptyRule, Expr.operands] at h
  | star h _ _ _ | opt h | plus h => simp [emptyRule] at h

end Split

namespace Splits
variable {a b : List Rule}

theorem definedSymbols_perm (h : Splits a b) :
    ∃ xs, (definedSymbols b).Perm (xs ++ definedSymbols a) := by
  induction h with
  | perm h => exact ⟨[], (h.filterMap Rule.symbol).symm⟩
  | split h others => exact h.definedSymbols_perm others
  | trans _ _ ih ih' =>
    obtain ⟨xs, hxs⟩ := ih
    obtain ⟨ys, hys⟩ := ih'
    refine ⟨ys ++ xs, hys.trans ?_⟩
    rw [List.append_assoc]
    exact hxs.append_left ys

theorem definedSymbols_subset (h : Splits a b) : definedSymbols a ⊆ definedSymbols b := by
  obtain ⟨xs, hperm⟩ := h.definedSymbols_perm
  exact fun s hs => hperm.mem_iff.mpr (List.mem_append_right xs hs)

theorem nodup_of_nodup (h : Splits a b) (hnodup : (definedSymbols b).Nodup) :
    (definedSymbols a).Nodup := by
  obtain ⟨xs, hperm⟩ := h.definedSymbols_perm
  exact (List.nodup_append.mp (hperm.nodup_iff.mp hnodup)).2.1

theorem emptyRule_mem (h : Splits a b) (hempty : emptyRule ∈ a) : emptyRule ∈ b := by
  induction h with
  | perm h => exact h.mem_iff.mp hempty
  | split h others =>
    rcases List.mem_cons.mp hempty with heq | hmem
    · exact absurd heq.symm h.ne_emptyRule
    · exact List.mem_append_right _ hmem
  | trans _ _ ih ih' => exact ih' (ih hempty)

/-- A name comes to be referred to only with a rule for it. -/
theorem mem_referencedNames (h : Splits a b) (hempty : emptyRule ∈ a) {name : Option String}
    (hname : name ∈ referencedNames b) :
    name ∈ referencedNames a ∨ ∃ s ∈ definedSymbols b, name = some s := by
  induction h with
  | perm h => exact .inl ((h.flatMap_right Rule.references).mem_iff.mpr hname)
  | split h others =>
    rcases h.mem_referencedNames hname with hold | rfl | hnew
    · exact .inl hold
    · have hmem := (Splits.split h others).emptyRule_mem hempty
      exact .inr ⟨emptySymbol, mem_definedSymbols.mpr ⟨emptyRule, hmem, rfl⟩, rfl⟩
    · exact .inr hnew
  | trans h h' ih ih' =>
    rcases ih' (h.emptyRule_mem hempty) hname with hname | hnew
    · rcases ih hempty hname with hold | ⟨s, hs, rfl⟩
      · exact .inl hold
      · exact .inr ⟨s, h'.definedSymbols_subset hs, rfl⟩
    · exact .inr hnew

/-- A run of splits leaves the words of every symbol as they are. -/
theorem derived_eq (h : Splits a b) (hempty : emptyRule ∈ a) (hnodup : (definedSymbols b).Nodup)
    (hfresh : Fresh a b) {s : String} (hs : s ∈ definedSymbols a) :
    derived b (some s) = derived a (some s) := by
  induction h with
  | @perm a b h =>
    have hdefs : ∀ {t}, t ∈ definedSymbols b ↔ t ∈ definedSymbols a :=
      (h.filterMap Rule.symbol).symm.mem_iff
    refine derived_eq_of_models hfresh ?_ (derived a) ?_ (fun _ _ => rfl) hs
    · exact fun r hr => (isModel_derived b).defined r (h.mem_iff.mp hr)
    · exact
        { defined := fun r hr => (isModel_derived a).defined r (h.mem_iff.mpr hr)
          undefined := fun name hname =>
            (isModel_derived a).undefined name fun t ht => hname t (hdefs.mpr ht) }
  | @split r out h others =>
    have hothers : emptyRule ∈ others := by
      rcases List.mem_cons.mp hempty with heq | hmem
      · exact absurd heq.symm h.ne_emptyRule
      · exact hmem
    exact h.derived_eq hothers hnodup hfresh hs
  | @trans a b c h h' ih ih' =>
    have hb : Fresh a b := fun t ht => hfresh t (h'.definedSymbols_subset ht)
    have hc : Fresh b c := by
      intro t ht htb href
      rcases h.mem_referencedNames hempty href with hold | ⟨u, hu, heq⟩
      · exact hfresh t ht (fun hta => htb (h.definedSymbols_subset hta)) hold
      · exact htb (Option.some.inj heq ▸ hu)
    have hlast := ih' (h.emptyRule_mem hempty) hnodup hc (h.definedSymbols_subset hs)
    exact hlast.trans (ih hempty (h'.nodup_of_nodup hnodup) hb hs)

end Splits

theorem derived_cons_emptyRule {rules : List Rule} (hdef : emptySymbol ∉ definedSymbols rules)
    (href : some emptySymbol ∉ referencedNames rules) {s : String} (hs : s ∈ definedSymbols rules) :
    derived (emptyRule :: rules) (some s) = derived rules (some s) := by
  refine derived_eq_of_update (fun t => List.mem_cons) hdef href (l := 1) ?_ ?_ hs
  · exact fun r hr => (isModel_derived (emptyRule :: rules)).defined r (List.mem_cons_of_mem _ hr)
  · intro r hr hrr t ht
    rcases List.mem_cons.mp hr with rfl | hr
    · obtain rfl := Option.some.inj ht
      rw [Function.update_self]
      simp [emptyRule]
    · exact absurd hr hrr

/-- Every symbol of the source derives the same words from the flat rules, as long as no symbol is
defined twice among them and the source refers to none that is made on the way. -/
theorem flattenAll_derives_iff {rules : List Rule} (hnamed : Named rules)
    (hnodup : (definedSymbols (flattenAll rules).rules).Nodup)
    (hfresh : Fresh rules (flattenAll rules).rules) :
    flattenAll? rules = .ok (flattenAll rules) ∧
      ∀ s ∈ definedSymbols rules, ∀ w,
        Derives (flattenAll rules).rules (.ref s) w ↔ Derives rules (.ref s) w := by
  refine ⟨flattenAll?_eq_ok hnamed, ?_⟩
  have hsplits := splits_flattenAll hnamed
  have hcons : (emptySymbol :: definedSymbols rules).Nodup := hsplits.nodup_of_nodup hnodup
  have hempty : emptySymbol ∉ definedSymbols rules := (List.nodup_cons.mp hcons).1
  have hsymbol : emptySymbol ∈ definedSymbols (flattenAll rules).rules :=
    hsplits.definedSymbols_subset List.mem_cons_self
  have href := hfresh emptySymbol hsymbol hempty
  -- The right-hand side of the empty rule refers to nothing.
  have hfresh' : Fresh (emptyRule :: rules) (flattenAll rules).rules := by
    intro t ht htr hmem
    refine hfresh t ht (fun h => htr (List.mem_cons_of_mem _ h)) ?_
    simpa [referencedNames, Rule.references, emptyRule] using hmem
  intro s hs w
  have hflat := hsplits.derived_eq List.mem_cons_self hnodup hfresh' (List.mem_cons_of_mem _ hs)
  have heq := hflat.trans (derived_cons_emptyRule hempty href hs)
  exact Set.ext_iff.mp heq w

/-- Two rules that refer to each other, through every operator but an option. -/
def mutualRules : List Rule :=
  [{ symbol := some "a", id := "1", kind := .rule,
     expr := .seq [.literal "x", .star (.alt [.ref "b", .seq [.ref "a", .literal "y"]])] },
   { symbol := some "b", id := "2", kind := .rule, expr := .plus (.diff (.ref "a") (.ref "c")) }]

theorem flattenAll_mutualRules_derives_iff :
    Named mutualRules ∧ (definedSymbols (flattenAll mutualRules).rules).Nodup ∧
      Fresh mutualRules (flattenAll mutualRules).rules ∧
      ∀ w, Derives (flattenAll mutualRules).rules (.ref "b") w ↔ Derives mutualRules (.ref "b") w := by
  have hnamed : Named mutualRules := by
    unfold Named
    decide
  have hnodup : (definedSymbols (flattenAll mutualRules).rules).Nodup := by decide
  have hfresh : Fresh mutualRules (flattenAll mutualRules).rules := by
    unfold Fresh
    decide +kernel
  exact ⟨hnamed, hnodup, hfresh,
    (flattenAll_derives_iff hnamed hnodup hfresh).2 "b" (by decide)⟩

end FlatGrammar
