import FlatGrammar.Proofs.Grammar.FlatLanguage
import FlatGrammar.Proofs.Grammar.LeastMerging

/-! # The language of merged rules

Merging reads each name as the name it is renamed to. The words that the names derive after merging are
a model of the rules before, as every terminal has the right-hand side of one that is kept. The other
way round, the words that all names behind a kept one derive are a model of the rules left. So both
derive the same words, however the rules refer to each other.
-/
namespace FlatGrammar
open Computability

namespace Expr
variable {env env' : Interpretation}

theorem words_mapNames (f : Option String → Option String) (e : Expr) :
    (e.mapNames f).words env = e.words (env ∘ f) := by
  induction e using operands_induction with
  | step e ih =>
    cases e with
    | symbol _ | terminal _ => rfl
    | series op es =>
      have hes : es.map (words env ∘ mapNames f) = es.map (words (env ∘ f)) := List.map_congr_left ih
      simp only [mapNames, words, wordsList_eq_map, mapNamesList_eq_map, List.map_map, hes]
    | diff l r =>
      simp only [mapNames, words]
      rw [ih l (by simp [operands]), ih r (by simp [operands])]
    | repeated op e =>
      simp only [mapNames, words]
      rw [ih e (by simp [operands])]

theorem words_series_mono {op : Series} {es : List Expr}
    (h : ∀ e ∈ es, e.words env ≤ e.words env') :
    (series op es).words env ≤ (series op es).words env' := by
  induction es with
  | nil => cases op <;> exact le_rfl
  | cons e es ih =>
    obtain ⟨he, hes⟩ := List.forall_mem_cons.mp h
    cases op with
    | seq =>
      rw [words_seq, words_seq, List.map_cons, List.map_cons, List.prod_cons, List.prod_cons]
      exact mul_le_mul' he (by simpa using ih hes)
    | alt =>
      rw [words_alt, words_alt, List.map_cons, List.map_cons, List.sum_cons, List.sum_cons]
      exact add_le_add he (by simpa using ih hes)

/-- The more words names have, the more words an expression has. -/
theorem words_mono (h : ∀ name, env name ≤ env' name) (e : Expr) : e.words env ≤ e.words env' := by
  induction e using operands_induction with
  | step e ih =>
    cases e with
    | symbol name => exact h name
    | terminal _ => exact le_rfl
    | series op es => exact words_series_mono ih
    | diff l r =>
      rintro w ⟨u, hu, v, hv, rfl⟩
      exact ⟨u, ih l (by simp [operands]) hu, v, ih r (by simp [operands]) hv, rfl⟩
    | repeated op e =>
      have he : e.words env ≤ e.words env' := ih e (by simp [operands])
      rw [words_repeated, words_repeated]
      cases op with
      | opt => exact add_le_add le_rfl he
      | star => exact kstar_mono he
      | plus => exact mul_le_mul' he (kstar_mono he)

end Expr

section Models
variable {source : List Keyed} {keep : Keyed → Bool} {f : Option String → Option String}
  {out : List Rule} (hout : ∀ r, r ∈ out ↔ ∃ k ∈ source, keep k ∧ r = k.rule.mapNames f)

include hout in
theorem mem_definedSymbols_out {s : String} :
    s ∈ definedSymbols out ↔ ∃ k ∈ source, keep k ∧ k.rule.symbol = some s := by
  rw [mem_definedSymbols]
  constructor
  · rintro ⟨r, hr, hs⟩
    obtain ⟨k, hk, hkeep, rfl⟩ := (hout r).mp hr
    exact ⟨k, hk, hkeep, hs⟩
  · rintro ⟨k, hk, hkeep, hs⟩
    exact ⟨_, (hout _).mpr ⟨k, hk, hkeep, rfl⟩, hs⟩

namespace Passed
variable (h : Passed source keep f) (hnodup : (definedSymbols (source.map Keyed.rule)).Nodup)
  (hnamed : ∀ t ∈ source, t.isTerminal → t.rule.symbol.isSome)
include h

include hnamed in
theorem name_of_undefined {name : Option String}
    (hname : ∀ s ∈ definedSymbols (source.map Keyed.rule), name ≠ some s) : f name = name := by
  refine h.otherName name fun t ht hterminal hsymbol => ?_
  obtain ⟨s, hs⟩ := Option.isSome_iff_exists.mp (hnamed t ht hterminal)
  have hdef := mem_definedSymbols.mpr ⟨t.rule, List.mem_map_of_mem ht, hs⟩
  exact hname s hdef (hsymbol.symm.trans hs)

include hnodup

/-- Kept rules keep their symbols. -/
theorem name_of_keep {k : Keyed} (hk : k ∈ source) (hkeep : keep k) {s : String}
    (hs : k.rule.symbol = some s) : f (some s) = some s := by
  by_cases hterminal : k.isTerminal
  · exact hs ▸ h.kept k hk hterminal hkeep
  · refine h.otherName (some s) fun t ht htterminal htsymbol => hterminal ?_
    have heq : t.rule = k.rule :=
      rule_unique hnodup (List.mem_map_of_mem ht) (List.mem_map_of_mem hk) htsymbol hs
    unfold Keyed.isTerminal at htterminal ⊢
    rwa [← heq]

include hnamed

/-- Every rule has, up to names, the right-hand side of one that is kept, under the name that its own
is renamed to. -/
theorem exists_standing {k : Keyed} (hk : k ∈ source) {s : String} (hs : k.rule.symbol = some s) :
    ∃ u ∈ source, ∃ t, keep u ∧ u.rule.symbol = some t ∧ f (some s) = some t ∧
      u.rule.expr.mapNames f = k.rule.expr.mapNames f := by
  by_cases hterminal : k.isTerminal
  · obtain ⟨u, hu, huterminal, hkeep, hname, hexpr, -⟩ := h.stands k hk hterminal
    obtain ⟨t, ht⟩ := Option.isSome_iff_exists.mp (hnamed u hu huterminal)
    exact ⟨u, hu, t, hkeep, ht, hs ▸ hname.trans ht, hexpr⟩
  · have hkeep := h.others k hk hterminal
    exact ⟨k, hk, s, hkeep, hs, h.name_of_keep hnodup hk hkeep hs, rfl⟩

include hout

/-- What a kept name derives is enough for all names that are renamed to it. -/
theorem derived_le_passed (name : Option String) :
    derived (source.map Keyed.rule) name ≤ derived out (f name) := by
  let env : Interpretation := derived out ∘ f
  suffices hmodel : IsModel (source.map Keyed.rule) env from fun w hw => hmodel.mem_words hw
  constructor
  case defined =>
    intro r hr s hs
    obtain ⟨k, hk, rfl⟩ := List.mem_map.mp hr
    obtain ⟨u, hu, t, hkeep, ht, hname, hexpr⟩ := h.exists_standing hnodup hnamed hk hs
    have hdefined := (isModel_derived out).defined (u.rule.mapNames f)
      ((hout _).mpr ⟨u, hu, hkeep, rfl⟩) t ht
    calc k.rule.expr.words env
        = (k.rule.expr.mapNames f).words (derived out) :=
          (Expr.words_mapNames f _).symm
      _ = (u.rule.expr.mapNames f).words (derived out) := by rw [hexpr]
      _ ≤ derived out (some t) := hdefined
      _ = env (some s) := congrArg _ hname.symm
  case undefined =>
    intro name hname
    have hsame : env name = derived out name :=
      congrArg (derived out) (h.name_of_undefined hnamed hname)
    rw [hsame]
    refine (isModel_derived _).undefined name fun s hs => hname s ?_
    obtain ⟨k, hk, -, hsymbol⟩ := (mem_definedSymbols_out hout).mp hs
    exact mem_definedSymbols.mpr ⟨k.rule, List.mem_map_of_mem hk, hsymbol⟩

/-- What all names renamed to a kept one derive in common is enough for the kept one. -/
theorem passed_le_derived (name : Option String) :
    derived out (f name) ≤ derived (source.map Keyed.rule) name := by
  let env : Interpretation := fun kept =>
    {w | ∀ n, f n = kept → w ∈ derived (source.map Keyed.rule) n}
  have henv : ∀ n, (env ∘ f) n ≤ derived (source.map Keyed.rule) n := fun n w hw => hw n rfl
  suffices hmodel : IsModel out env from
    fun w hw => henv name (hmodel.mem_words hw)
  constructor
  case defined =>
    intro r hr s hs w hw n hn
    obtain ⟨k, hk, hkeep, rfl⟩ := (hout _).mp hr
    replace hs : k.rule.symbol = some s := hs
    by_cases hdef : ∃ t ∈ definedSymbols (source.map Keyed.rule), n = some t
    · obtain ⟨t, ht, rfl⟩ := hdef
      obtain ⟨r, hr, ht⟩ := mem_definedSymbols.mp ht
      obtain ⟨j, hj, rfl⟩ := List.mem_map.mp hr
      obtain ⟨u, hu, v, -, hv, hname, hexpr⟩ := h.exists_standing hnodup hnamed hj ht
      have heq : u.rule = k.rule := rule_unique hnodup (List.mem_map_of_mem hu)
        (List.mem_map_of_mem hk) (hv.trans (hname.symm.trans hn)) hs
      refine (isModel_derived _).defined _ (List.mem_map_of_mem hj) t ht ?_
      refine Expr.words_mono henv _ ?_
      rw [← Expr.words_mapNames, ← hexpr, heq]
      exact hw
    · have hn' : ∀ t ∈ definedSymbols (source.map Keyed.rule), n ≠ some t :=
        fun t ht hnt => hdef ⟨t, ht, hnt⟩
      have hsame := h.name_of_undefined hnamed hn'
      refine absurd ⟨s, ?_, hsame.symm.trans hn⟩ hdef
      exact mem_definedSymbols.mpr ⟨k.rule, List.mem_map_of_mem hk, hs⟩
  case undefined =>
    rintro kept hkept n rfl
    have hn : ∀ s ∈ definedSymbols (source.map Keyed.rule), n ≠ some s := by
      rintro s hs rfl
      obtain ⟨r, hr, hs⟩ := mem_definedSymbols.mp hs
      obtain ⟨k, hk, rfl⟩ := List.mem_map.mp hr
      obtain ⟨u, hu, t, hkeep, ht, hname, -⟩ := h.exists_standing hnodup hnamed hk hs
      exact hkept t ((mem_definedSymbols_out hout).mpr ⟨u, hu, hkeep, ht⟩) hname
    rw [h.name_of_undefined hnamed hn]
    exact (isModel_derived _).undefined n hn

end Passed

end Models

section Rules
variable {rules : List Rule}

theorem nodup_map_symbol_terminals (hsymbols : (definedSymbols rules).Nodup)
    (hnamed : ∀ t ∈ terminals rules, t.symbol.isSome) :
    ((terminals rules).map Rule.symbol).Nodup := by
  have hpairwise := List.pairwise_filterMap.mp hsymbols
  refine List.pairwise_map.mpr ((hpairwise.sublist List.filter_sublist).imp_of_mem ?_)
  intro r t hr ht hne heq
  obtain ⟨s, hs⟩ := Option.isSome_iff_exists.mp (hnamed r hr)
  exact hne s hs s (heq ▸ hs) rfl

/-- Every symbol derives what the one it is renamed to derives after merging, and that one is kept. No
id may start with a number that is too long. -/
theorem mergeKeyed?_derives_iff (hsymbols : (definedSymbols rules).Nodup)
    (hnamed : ∀ t ∈ terminals rules, t.symbol.isSome)
    (hdigits : ∀ r ∈ rules, Text.leadingDigits r.id ≤ digitLimit) :
    ∃ (m : Merge) (rep : String → String), mergeKeyed? (Keyed.ofList rules) = .ok m ∧
      (∀ s ∈ definedSymbols (m.kept.map Keyed.rule), rep s = s) ∧
      ∀ s ∈ definedSymbols rules, rep s ∈ definedSymbols (m.kept.map Keyed.rule) ∧
        ∀ w, Derives rules (.ref s) w ↔ Derives (m.kept.map Keyed.rule) (.ref (rep s)) w := by
  have hsource : (Keyed.ofList rules).map Keyed.rule = rules := map_rule_ofList rules
  have hsymbols' : (definedSymbols ((Keyed.ofList rules).map Keyed.rule)).Nodup := by
    rwa [hsource]
  have hnamed' : ∀ t ∈ Keyed.ofList rules, t.isTerminal → t.rule.symbol.isSome := by
    intro t ht hterminal
    exact hnamed t.rule (hsource ▸ mem_terminals_map ht hterminal)
  obtain ⟨keep, f, hpassed, hkept, -⟩ :=
    exists_passed_ofList (nodup_map_symbol_terminals hsymbols hnamed)
  let m := mergeKeyed (Keyed.ofList rules)
  have hout : ∀ r, r ∈ m.kept.map Keyed.rule ↔
      ∃ k ∈ Keyed.ofList rules, keep k ∧ r = k.rule.mapNames f := by
    intro r
    rw [hkept, List.mem_map]
    constructor
    · rintro ⟨k, hk, rfl⟩
      obtain ⟨s, hs, hkeep, rfl⟩ := mem_passed.mp (mem_sortById.mp hk)
      exact ⟨s, hs, hkeep, rfl⟩
    · rintro ⟨k, hk, hkeep, rfl⟩
      exact ⟨k.mapNames f, mem_sortById.mpr (mem_passed.mpr ⟨k, hk, hkeep, rfl⟩), rfl⟩
  have hderived : ∀ name, derived rules name = derived (m.kept.map Keyed.rule) (f name) := by
    intro name
    refine le_antisymm ?_ ?_
    · exact hsource ▸ hpassed.derived_le_passed hout hsymbols' hnamed' name
    · exact hsource ▸ hpassed.passed_le_derived hout hsymbols' hnamed' name
  refine ⟨m, fun s => (f (some s)).getD s, mergeKeyed?_eq_ok hdigits, ?_, ?_⟩
  · intro s hs
    obtain ⟨k, hk, hkeep, hks⟩ := (mem_definedSymbols_out hout).mp hs
    simp only [hpassed.name_of_keep hsymbols' hk hkeep hks, Option.getD_some]
  · intro s hs
    obtain ⟨r, hr, hrs⟩ := mem_definedSymbols.mp hs
    obtain ⟨k, hk, rfl⟩ := List.mem_map.mp (hsource.symm ▸ hr)
    obtain ⟨u, hu, t, hkeep, ht, hname, -⟩ := hpassed.exists_standing hsymbols' hnamed' hk hrs
    simp only [hname, Option.getD_some]
    refine ⟨(mem_definedSymbols_out hout).mpr ⟨u, hu, hkeep, ht⟩, fun w => ?_⟩
    have heq := hderived (some s)
    rw [hname] at heq
    exact Set.ext_iff.mp heq w

/-- Terminals that refer to themselves through a rule, and become equal once others are merged. -/
def recursiveTerminals : List Rule :=
  [{ symbol := some "s", id := "1", kind := .rule,
     expr := .seq [.ref "A", .star (.diff (.ref "B") (.ref "x"))] },
   { symbol := some "A", id := "2", kind := .terminal,
     expr := .alt [.literal "x", .seq [.ref "P", .ref "s"]] },
   { symbol := some "B", id := "3", kind := .terminal,
     expr := .alt [.literal "x", .seq [.ref "Q", .ref "s"]] },
   { symbol := some "P", id := "4", kind := .terminal, expr := .opt (.literal "p") },
   { symbol := some "Q", id := "5", kind := .terminal, expr := .opt (.literal "p") }]

theorem mergeKeyed?_recursiveTerminals_derives_iff : (definedSymbols recursiveTerminals).Nodup ∧
    (∀ t ∈ terminals recursiveTerminals, t.symbol.isSome) ∧
    (∀ r ∈ recursiveTerminals, Text.leadingDigits r.id ≤ digitLimit) ∧
    ∃ (m : Merge) (rep : String → String), mergeKeyed? (Keyed.ofList recursiveTerminals) = .ok m ∧
      (∀ s ∈ definedSymbols (m.kept.map Keyed.rule), rep s = s) ∧
      ∀ s ∈ definedSymbols recursiveTerminals, rep s ∈ definedSymbols (m.kept.map Keyed.rule) ∧
        ∀ w, Derives recursiveTerminals (.ref s) w ↔
          Derives (m.kept.map Keyed.rule) (.ref (rep s)) w := by
  have hsymbols : (definedSymbols recursiveTerminals).Nodup := by decide
  have hnamed : ∀ t ∈ terminals recursiveTerminals, t.symbol.isSome := by decide
  have hdigits : ∀ r ∈ recursiveTerminals, Text.leadingDigits r.id ≤ digitLimit := by decide +kernel
  exact ⟨hsymbols, hnamed, hdigits, mergeKeyed?_derives_iff hsymbols hnamed hdigits⟩

example : (mergeTerminals recursiveTerminals).filterMap Rule.symbol = ["s", "A", "P"] := by
  decide +kernel

/-- A rule that refers to itself. -/
def numberedRule (n : Nat) : List Rule :=
  [{ symbol := some "a", id := String.ofList (List.replicate n '1'), kind := .rule,
     expr := .opt (.seq [.literal "x", .ref "a"]) }]

/-- Rules that are no terminals are not compared with each other, but they are put in order, so their
ids may not start with too long a number either. -/
theorem mergeKeyed?_numberedRule : (definedSymbols (numberedRule 4301)).Nodup ∧
    (∀ t ∈ terminals (numberedRule 4301), t.symbol.isSome) ∧
    ¬∃ m, mergeKeyed? (Keyed.ofList (numberedRule 4301)) = .ok m := by
  have hspec : ∀ n, (definedSymbols (numberedRule n)).Nodup ∧
      (∀ t ∈ terminals (numberedRule n), t.symbol.isSome) ∧
      ((∃ m, mergeKeyed? (Keyed.ofList (numberedRule n)) = .ok m) ↔ n ≤ digitLimit) := by
    intro n
    rw [exists_mergeKeyed?_iff]
    simp [numberedRule, definedSymbols, terminals, leadingDigits_replicate]
  obtain ⟨hsymbols, hnamed, hlimit⟩ := hspec 4301
  refine ⟨hsymbols, hnamed, ?_⟩
  rw [hlimit]
  decide

end Rules

end FlatGrammar
