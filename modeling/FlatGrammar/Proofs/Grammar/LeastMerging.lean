import FlatGrammar.Grammar.Merge
import FlatGrammar.Proofs.Expr.Names
import FlatGrammar.Proofs.Rule.IdOrder
import Mathlib.Data.Setoid.Basic

/-! # The least merging of terminals

Terminals are merged as far as they must be and no further: two of them are merged if they are related
by every equivalence that relates terminals with equal right-hand sides, names of related terminals
being equal. A pass renames along pairs of such terminals, and when no pass finds a pair, equal names
are such an equivalence themselves.
-/
namespace FlatGrammar

def terminals (rules : List Rule) : List Rule := rules.filter fun r => r.kind = .terminal

/-- The symbols of related terminals count as the same name. -/
def SameName (rules : List Rule) (R : Setoid Rule) (a b : Option String) : Prop :=
  a = b ∨ ∃ t ∈ terminals rules, ∃ u ∈ terminals rules, t.symbol = a ∧ u.symbol = b ∧ R t u

/-- Terminals are related if their right-hand sides are equal up to names of related terminals. -/
def IsMerging (rules : List Rule) (R : Setoid Rule) : Prop :=
  ∀ t ∈ terminals rules, ∀ u ∈ terminals rules,
    t.expr.Alike (SameName rules R) u.expr → R t u

/-- The least merging relates what all mergings relate. -/
def merged (rules : List Rule) : Setoid Rule := sInf {R | IsMerging rules R}

/-- A terminal that none merged with it comes before. -/
def IsLowest (rules : List Rule) (t : Rule) : Prop :=
  t ∈ terminals rules ∧ ∀ u ∈ terminals rules, merged rules t u → ¬idLt u.id t.id

/-- A renaming of every terminal to the lowest one it is merged with, and of nothing else. -/
structure RenamesToLowest (rules : List Rule) (f : Option String → Option String) : Prop where
  terminal : ∀ t ∈ terminals rules, ∃ u, IsLowest rules u ∧ merged rules t u ∧ f t.symbol = u.symbol
  other : ∀ name, (∀ t ∈ terminals rules, t.symbol ≠ name) → f name = name

def Rule.mapNames (f : Option String → Option String) (r : Rule) : Rule :=
  { r with expr := r.expr.mapNames f }

section Least
variable {rules : List Rule} {r t u : Rule}

theorem mem_terminals : t ∈ terminals rules ↔ t ∈ rules ∧ t.kind = .terminal := by
  simp [terminals]

theorem merged_of_isMerging {R : Setoid Rule} (hR : IsMerging rules R) (h : merged rules t u) :
    R t u := h R hR

theorem isMerging_merged (rules : List Rule) : IsMerging rules (merged rules) := by
  intro t ht u hu halike R hR
  refine hR t ht u hu (Expr.Alike.mono ?_ _ _ halike)
  rintro a b (rfl | ⟨v, hv, w, hw, hva, hwb, hvw⟩)
  · exact .inl rfl
  · exact .inr ⟨v, hv, w, hw, hva, hwb, merged_of_isMerging hR hvw⟩

end Least

namespace Keyed

def mapNames (f : Option String → Option String) (k : Keyed) : Keyed :=
  { k with rule := k.rule.mapNames f }

theorem isTerminal_iff {k : Keyed} : k.isTerminal ↔ k.rule.kind = .terminal := beq_iff_eq

theorem mem_equals {ks : List Keyed} {a b : Keyed} :
    a ∈ equals ks b ↔ a ∈ ks ∧ a.isTerminal ∧ a.rule.expr = b.rule.expr := by
  simp [equals]

theorem mem_duplicates {ks : List Keyed} {a b : Keyed} : (a, b) ∈ duplicates ks ↔
    b ∈ ks ∧ b.isTerminal ∧ canonical? ks b = some a ∧ a.key ≠ b.key := by
  simp only [duplicates, List.mem_filterMap, List.mem_filter, pair?]
  constructor
  · rintro ⟨c, ⟨hc, hterminal⟩, hpair⟩
    split at hpair
    case h_1 first hfirst =>
      split at hpair
      case isTrue => cases hpair
      case isFalse hkey =>
        obtain ⟨rfl, rfl⟩ := Prod.mk.inj (Option.some.inj hpair)
        exact ⟨hc, hterminal, hfirst, by simpa using hkey⟩
    case h_2 => cases hpair
  · rintro ⟨hb, hterminal, hfirst, hkey⟩
    exact ⟨b, ⟨hb, hterminal⟩, by simp [hfirst, hkey]⟩

theorem of_mem_duplicates {ks : List Keyed} {a b : Keyed} (h : (a, b) ∈ duplicates ks) :
    a ∈ ks ∧ a.isTerminal ∧ a.rule.expr = b.rule.expr ∧ ¬idLt b.id a.id := by
  obtain ⟨hb, hterminal, hfirst, -⟩ := mem_duplicates.mp h
  obtain ⟨hmem, hlow⟩ := lowest?_spec hfirst
  obtain ⟨ha, haterminal, hexpr⟩ := mem_equals.mp hmem
  exact ⟨ha, haterminal, hexpr, hlow b (mem_equals.mpr ⟨hb, hterminal, rfl⟩)⟩

theorem canonical?_congr (ks : List Keyed) {a b : Keyed} (h : a.rule.expr = b.rule.expr) :
    canonical? ks a = canonical? ks b := by
  simp [canonical?, equals, h]

theorem notMem_duplicates {ks : List Keyed} {a b c : Keyed} (h : (a, b) ∈ duplicates ks) :
    (c, a) ∉ duplicates ks := by
  intro hc
  obtain ⟨-, -, hfirst, -⟩ := mem_duplicates.mp h
  obtain ⟨-, -, hfirst', hkey⟩ := mem_duplicates.mp hc
  obtain ⟨-, -, hexpr, -⟩ := of_mem_duplicates h
  rw [canonical?_congr ks hexpr, hfirst] at hfirst'
  exact hkey (congrArg key (Option.some.inj hfirst').symm)

/-- Without pairs, no two terminals have the same right-hand side. -/
theorem key_eq_of_duplicates_nil {ks : List Keyed} (h : duplicates ks = []) {a b : Keyed}
    (ha : a ∈ ks) (hb : b ∈ ks) (haterminal : a.isTerminal) (hbterminal : b.isTerminal)
    (hexpr : a.rule.expr = b.rule.expr) : a.key = b.key := by
  have hnone : ∀ p, p ∉ duplicates ks := by simp [h]
  cases hfirst : canonical? ks b with
  | none =>
    have hempty := lowest?_eq_none.mp hfirst
    have hmem : b ∈ equals ks b := mem_equals.mpr ⟨hb, hbterminal, rfl⟩
    simp [hempty] at hmem
  | some first =>
    have hkey : ∀ c ∈ ks, c.isTerminal → c.rule.expr = b.rule.expr → first.key = c.key := by
      intro c hc hcterminal hcexpr
      by_contra hne
      exact hnone (first, c) (mem_duplicates.mpr
        ⟨hc, hcterminal, (canonical?_congr ks hcexpr).trans hfirst, hne⟩)
    exact (hkey a ha haterminal hexpr).symm.trans (hkey b hb hbterminal rfl)

end Keyed

section Renaming

/-- Where a name ends up when pairs are renamed one after another. -/
def renamedBy (pairs : List (Keyed × Keyed)) (name : Option String) : Option String :=
  pairs.foldl (fun n p => if n = p.2.rule.symbol then p.1.rule.symbol else n) name

variable {pairs : List (Keyed × Keyed)} {name : Option String}

theorem renamePairs_eq (pairs : List (Keyed × Keyed)) (k : Keyed) :
    Keyed.renamePairs pairs k = k.mapNames (renamedBy pairs) := by
  induction pairs generalizing k with
  | nil =>
    have hid : renamedBy [] = id := rfl
    simp [Keyed.renamePairs, Keyed.mapNames, Rule.mapNames, hid, Expr.mapNames_id]
  | cons p pairs ih =>
    let next : Keyed := { k with rule := k.rule.rename p.2.rule.symbol p.1.rule.symbol }
    calc Keyed.renamePairs (p :: pairs) k
        = Keyed.renamePairs pairs next := rfl
      _ = next.mapNames (renamedBy pairs) := ih next
      _ = k.mapNames (renamedBy (p :: pairs)) := by
        simp only [next, Keyed.mapNames, Rule.mapNames, Rule.rename, Expr.rename_eq_mapNames,
          Expr.mapNames_mapNames]
        rfl

theorem renamedBy_append (pairs rest : List (Keyed × Keyed)) :
    renamedBy (pairs ++ rest) = renamedBy rest ∘ renamedBy pairs := by
  funext name
  exact List.foldl_append

theorem renamedBy_eq_self (h : ∀ p ∈ pairs, p.2.rule.symbol ≠ name) : renamedBy pairs name = name := by
  induction pairs with
  | nil => rfl
  | cons p pairs ih =>
    have hp := h p List.mem_cons_self
    rw [renamedBy, List.foldl_cons, if_neg (Ne.symm hp)]
    exact ih fun q hq => h q (List.mem_cons_of_mem p hq)

theorem renamedBy_eq {p : Keyed × Keyed} (hp : p ∈ pairs)
    (hsame : ∀ q ∈ pairs, q.2.rule.symbol = p.2.rule.symbol → q.1.rule.symbol = p.1.rule.symbol)
    (hfirst : ∀ q ∈ pairs, q.2.rule.symbol ≠ p.1.rule.symbol) :
    renamedBy pairs p.2.rule.symbol = p.1.rule.symbol := by
  induction pairs with
  | nil => cases hp
  | cons q pairs ih =>
    have hrest : ∀ q' ∈ pairs, q'.2.rule.symbol ≠ p.1.rule.symbol := fun q' hq' =>
      hfirst q' (List.mem_cons_of_mem q hq')
    rw [renamedBy, List.foldl_cons]
    by_cases hq : q.2.rule.symbol = p.2.rule.symbol
    · rw [if_pos hq.symm, hsame q List.mem_cons_self hq]
      exact renamedBy_eq_self hrest
    · rw [if_neg (Ne.symm hq)]
      have hmem : p ∈ pairs := by
        rcases List.mem_cons.mp hp with rfl | hmem
        · exact absurd rfl hq
        · exact hmem
      exact ih hmem (fun q' hq' => hsame q' (List.mem_cons_of_mem q hq')) hrest

end Renaming

section Passes

def passed (source : List Keyed) (keep : Keyed → Bool) (f : Option String → Option String) :
    List Keyed :=
  (source.filter keep).map (Keyed.mapNames f)

/-- What holds after any number of passes. For each terminal another stands that is kept: it has the
same right-hand side, has to be merged with it, and does not come behind it. -/
structure Passed (source : List Keyed) (keep : Keyed → Bool) (f : Option String → Option String) :
    Prop where
  others : ∀ k ∈ source, ¬k.isTerminal → keep k
  otherName : ∀ name, (∀ t ∈ source, t.isTerminal → t.rule.symbol ≠ name) → f name = name
  kept : ∀ t ∈ source, t.isTerminal → keep t → f t.rule.symbol = t.rule.symbol
  stands : ∀ t ∈ source, t.isTerminal → ∃ u ∈ source, u.isTerminal ∧ keep u ∧
    f t.rule.symbol = u.rule.symbol ∧ u.rule.expr.mapNames f = t.rule.expr.mapNames f ∧
    merged (source.map Keyed.rule) t.rule u.rule ∧ ¬idLt t.id u.id

structure Apart (source : List Keyed) : Prop where
  key : ∀ a ∈ source, ∀ b ∈ source, a.key = b.key → a = b
  symbol : ∀ a ∈ source, ∀ b ∈ source, a.isTerminal → b.isTerminal →
    a.rule.symbol = b.rule.symbol → a = b

variable {source : List Keyed} {keep : Keyed → Bool} {f : Option String → Option String}

theorem mem_terminals_map {t : Keyed} (ht : t ∈ source) (hterminal : t.isTerminal) :
    t.rule ∈ terminals (source.map Keyed.rule) :=
  mem_terminals.mpr ⟨List.mem_map_of_mem ht, by simpa [Keyed.isTerminal] using hterminal⟩

theorem Passed.start (source : List Keyed) : Passed source (fun _ => true) id where
  others _ _ _ := rfl
  otherName _ _ := rfl
  kept _ _ _ _ := rfl
  stands t ht hterminal := ⟨t, ht, hterminal, rfl, rfl, rfl, Setoid.refl' _ _, idLt_irrefl _⟩

section Sound
variable (hapart : Apart source) (h : Passed source keep f)
include hapart h

theorem Passed.merged_of_name_eq {t u : Keyed} (ht : t ∈ source) (hu : u ∈ source)
    (hterminal : t.isTerminal) (huterminal : u.isTerminal)
    (hname : f t.rule.symbol = f u.rule.symbol) :
    merged (source.map Keyed.rule) t.rule u.rule := by
  obtain ⟨t', ht', hterminal', -, htname, -, hmerged, -⟩ := h.stands t ht hterminal
  obtain ⟨u', hu', huterminal', -, huname, -, humerged, -⟩ := h.stands u hu huterminal
  obtain rfl := hapart.symbol t' ht' u' hu' hterminal' huterminal'
    (htname.symm.trans (hname.trans huname))
  exact Setoid.trans' _ hmerged (Setoid.symm' _ humerged)

/-- Names that have become equal had to. -/
theorem Passed.sameName {a b : Option String} (hab : f a = f b) :
    SameName (source.map Keyed.rule) (merged (source.map Keyed.rule)) a b := by
  by_cases ha : ∃ t ∈ source, t.isTerminal ∧ t.rule.symbol = a
  · obtain ⟨t, ht, hterminal, rfl⟩ := ha
    obtain ⟨t', ht', hterminal', -, hname, -⟩ := h.stands t ht hterminal
    by_cases hb : ∃ u ∈ source, u.isTerminal ∧ u.rule.symbol = b
    · obtain ⟨u, hu, huterminal, rfl⟩ := hb
      have hmerged := h.merged_of_name_eq hapart ht hu hterminal huterminal hab
      exact .inr ⟨t.rule, mem_terminals_map ht hterminal, u.rule, mem_terminals_map hu huterminal,
        rfl, rfl, hmerged⟩
    · have hother : f b = b := h.otherName b fun u hu huterminal hub =>
        hb ⟨u, hu, huterminal, hub⟩
      exact absurd ⟨t', ht', hterminal', hname.symm.trans (hab.trans hother)⟩ hb
  · have haname : f a = a := h.otherName a fun t ht hterminal hta => ha ⟨t, ht, hterminal, hta⟩
    by_cases hb : ∃ u ∈ source, u.isTerminal ∧ u.rule.symbol = b
    · obtain ⟨u, hu, huterminal, rfl⟩ := hb
      obtain ⟨u', hu', huterminal', -, huname, -⟩ := h.stands u hu huterminal
      exact absurd ⟨u', hu', huterminal', huname.symm.trans (hab.symm.trans haname)⟩ ha
    · have hbname : f b = b := h.otherName b fun u hu huterminal hub =>
        hb ⟨u, hu, huterminal, hub⟩
      exact .inl (haname.symm.trans (hab.trans hbname))

theorem Passed.merged_of_expr_eq {t u : Keyed} (ht : t ∈ source) (hu : u ∈ source)
    (hterminal : t.isTerminal) (huterminal : u.isTerminal)
    (hexpr : t.rule.expr.mapNames f = u.rule.expr.mapNames f) :
    merged (source.map Keyed.rule) t.rule u.rule := by
  have halike := Expr.mapNames_eq_mapNames_iff.mp hexpr
  exact isMerging_merged _ _ (mem_terminals_map ht hterminal) _ (mem_terminals_map hu huterminal)
    (Expr.Alike.mono (fun _ _ hab => h.sameName hapart hab) _ _ halike)

end Sound

theorem mem_passed {k : Keyed} :
    k ∈ passed source keep f ↔ ∃ s ∈ source, keep s ∧ s.mapNames f = k := by
  simp [passed, and_assoc]

theorem passed_filter (pairs : List (Keyed × Keyed)) :
    ((passed source keep f).map (Keyed.renamePairs pairs)).filter (fun k => !k.isDropped pairs) =
      passed source (fun k => keep k && !k.isDropped pairs) (renamedBy pairs ∘ f) := by
  have hmap : Keyed.renamePairs pairs ∘ Keyed.mapNames f = Keyed.mapNames (renamedBy pairs ∘ f) := by
    funext k
    simp [renamePairs_eq, Keyed.mapNames, Rule.mapNames, Expr.mapNames_mapNames]
  rw [passed, List.map_map, hmap, List.filter_map, List.filter_filter, passed]
  congr 2
  funext k
  exact Bool.and_comm _ _

theorem passed_all (source : List Keyed) : passed source (fun _ => true) id = source := by
  have hid : Keyed.mapNames id = id := by
    funext k
    simp [Keyed.mapNames, Rule.mapNames, Expr.mapNames_id]
  simp [passed, hid]

theorem mergePasses_succ {n : Nat} {ks : List Keyed} (h : Keyed.duplicates ks ≠ []) :
    let pairs := Keyed.duplicates ks
    let rest := mergePasses n ((ks.map (Keyed.renamePairs pairs)).filter fun k => !k.isDropped pairs)
    (mergePasses (n + 1) ks).kept = rest.kept ∧
      (mergePasses (n + 1) ks).pairs = pairs ++ rest.pairs := by
  intro pairs rest
  rw [mergePasses]
  split
  case h_1 hnil => exact absurd hnil h
  case h_2 => exact ⟨rfl, rfl⟩

theorem length_passed_lt {pairs : List (Keyed × Keyed)} {b : Keyed}
    (hb : b.mapNames f ∈ passed source keep f) (hdropped : b.isDropped pairs) :
    (passed source (fun k => keep k && !k.isDropped pairs) (renamedBy pairs ∘ f)).length <
      (passed source keep f).length := by
  have hlength : ((passed source keep f).map (Keyed.renamePairs pairs)).length =
      (passed source keep f).length := List.length_map _
  rw [← passed_filter, ← hlength]
  refine List.length_filter_lt_length_iff_exists.mpr
    ⟨_, List.mem_map_of_mem hb, ?_⟩
  simpa [Keyed.renamePairs, Keyed.mapNames, Keyed.isDropped] using hdropped

section Step
variable {a b : Keyed}

theorem exists_sources (hab : (a, b) ∈ Keyed.duplicates (passed source keep f)) :
    ∃ a' ∈ source, ∃ b' ∈ source, a'.isTerminal ∧ keep a' ∧ a'.mapNames f = a ∧ b'.isTerminal ∧
      b'.mapNames f = b := by
  obtain ⟨hb, hbterminal, -, -⟩ := Keyed.mem_duplicates.mp hab
  obtain ⟨ha, haterminal, -, -⟩ := Keyed.of_mem_duplicates hab
  obtain ⟨a', ha', hakeep, rfl⟩ := mem_passed.mp ha
  obtain ⟨b', hb', hbkeep, rfl⟩ := mem_passed.mp hb
  exact ⟨a', ha', b', hb', haterminal, hakeep, rfl, hbterminal, rfl⟩

/-- What every pass keeps holds when no pair is left. There are passes enough, as each drops a rule. -/
theorem exists_merged {P : (Keyed → Bool) → (Option String → Option String) → Prop}
    (step : ∀ keep f, P keep f →
      P (fun k => keep k && !k.isDropped (Keyed.duplicates (passed source keep f)))
        (renamedBy (Keyed.duplicates (passed source keep f)) ∘ f))
    (n : Nat) (h : P keep f) (hn : (passed source keep f).length ≤ n) :
    let m := mergePasses n (passed source keep f)
    ∃ keep', P keep' (renamedBy m.pairs ∘ f) ∧
      m.kept = passed source keep' (renamedBy m.pairs ∘ f) ∧ Keyed.duplicates m.kept = [] := by
  induction n generalizing keep f with
  | zero =>
    refine ⟨keep, h, rfl, ?_⟩
    simp only [mergePasses]
    rw [List.length_eq_zero_iff.mp (Nat.le_zero.mp hn)]
    rfl
  | succ n ih =>
    by_cases hnil : Keyed.duplicates (passed source keep f) = []
    · have hm : mergePasses (n + 1) (passed source keep f) = ⟨passed source keep f, [], []⟩ := by
        unfold mergePasses
        rw [hnil]
      rw [hm]
      exact ⟨keep, h, rfl, hnil⟩
    · obtain ⟨⟨a, b⟩, hab⟩ := List.exists_mem_of_ne_nil _ hnil
      obtain ⟨-, -, b', -, -, -, -, -, rfl⟩ := exists_sources hab
      have hdropped : b'.isDropped (Keyed.duplicates (passed source keep f)) :=
        List.any_eq_true.mpr ⟨_, hab, by simp [Keyed.mapNames]⟩
      have hshorter := length_passed_lt (Keyed.mem_duplicates.mp hab).1 hdropped
      obtain ⟨keep', h', hkept, hdone⟩ := ih (step keep f h) (by omega)
      obtain ⟨hrest, hpairs⟩ := mergePasses_succ (n := n) hnil
      rw [passed_filter] at hrest hpairs
      simp only [hrest, hpairs, renamedBy_append, Function.comp_assoc]
      exact ⟨keep', h', hkept, hdone⟩

/-- A rule is dropped if it is the second of a pair. -/
theorem isDropped_iff (hkey : ∀ a ∈ source, ∀ b ∈ source, a.key = b.key → a = b) {x : Keyed}
    (hx : x ∈ source) :
    x.isDropped (Keyed.duplicates (passed source keep f)) ↔
      ∃ a, (a, x.mapNames f) ∈ Keyed.duplicates (passed source keep f) := by
  constructor
  · intro hdropped
    obtain ⟨⟨a, b⟩, hab, hsame⟩ := List.any_eq_true.mp hdropped
    obtain ⟨-, -, b', hb', -, -, -, -, rfl⟩ := exists_sources hab
    obtain rfl := hkey b' hb' x hx (by simpa [Keyed.mapNames] using hsame)
    exact ⟨a, hab⟩
  · rintro ⟨a, ha⟩
    exact List.any_eq_true.mpr ⟨_, ha, by simp [Keyed.mapNames]⟩

variable (hapart : Apart source)
include hapart

theorem eq_of_symbol_eq {x : Keyed} (hx : x ∈ source) (hterminal : x.isTerminal)
    (hab : (a, b) ∈ Keyed.duplicates (passed source keep f))
    (hsymbol : b.rule.symbol = x.rule.symbol) : b = x.mapNames f := by
  obtain ⟨-, -, b', hb', -, -, -, hbterminal, rfl⟩ := exists_sources hab
  obtain rfl := hapart.symbol b' hb' x hx hbterminal hterminal hsymbol
  rfl

theorem exists_kept {x : Keyed} (hx : x ∈ source) (hterminal : x.isTerminal) (hkeep : keep x) :
    let pairs := Keyed.duplicates (passed source keep f)
    ∃ v ∈ source, v.isTerminal ∧ keep v ∧ ¬v.isDropped pairs ∧
      renamedBy pairs x.rule.symbol = v.rule.symbol ∧
      v.rule.expr.mapNames f = x.rule.expr.mapNames f ∧ ¬idLt x.id v.id := by
  intro pairs
  by_cases hdropped : x.isDropped pairs
  · obtain ⟨a, hax⟩ := (isDropped_iff hapart.key hx).mp hdropped
    obtain ⟨a', ha', -, -, haterminal, hakeep, rfl, -⟩ := exists_sources hax
    obtain ⟨-, -, hexpr, hlow⟩ := Keyed.of_mem_duplicates hax
    have hsecond : ∀ c, (c, a'.mapNames f) ∉ pairs := fun c => Keyed.notMem_duplicates hax
    refine ⟨a', ha', haterminal, hakeep, ?_, ?_, hexpr, hlow⟩
    · intro hadropped
      obtain ⟨c, hc⟩ := (isDropped_iff hapart.key ha').mp hadropped
      exact hsecond c hc
    · refine renamedBy_eq (p := (a'.mapNames f, x.mapNames f)) hax ?_ ?_
      · rintro ⟨c, d⟩ hcd hsymbol
        obtain rfl := eq_of_symbol_eq hapart hx hterminal hcd hsymbol
        obtain ⟨-, -, hfirst, -⟩ := Keyed.mem_duplicates.mp hax
        obtain ⟨-, -, hfirst', -⟩ := Keyed.mem_duplicates.mp hcd
        rw [Option.some.inj (hfirst'.symm.trans hfirst)]
      · rintro ⟨c, d⟩ hcd hsymbol
        obtain rfl := eq_of_symbol_eq hapart ha' haterminal hcd hsymbol
        exact hsecond c hcd
  · refine ⟨x, hx, hterminal, hkeep, hdropped, renamedBy_eq_self ?_, rfl, idLt_irrefl _⟩
    rintro ⟨a, b⟩ hab hsymbol
    obtain rfl := eq_of_symbol_eq hapart hx hterminal hab hsymbol
    exact hdropped ((isDropped_iff hapart.key hx).mpr ⟨a, hab⟩)

theorem Passed.step (h : Passed source keep f) :
    let pairs := Keyed.duplicates (passed source keep f)
    Passed source (fun k => keep k && !k.isDropped pairs) (renamedBy pairs ∘ f) := by
  intro pairs
  constructor
  case others =>
    intro k hk hterminal
    have hdropped : ¬k.isDropped pairs := by
      intro hdropped
      obtain ⟨a, ha⟩ := (isDropped_iff hapart.key hk).mp hdropped
      exact hterminal (Keyed.mem_duplicates.mp ha).2.1
    simp [h.others k hk hterminal, hdropped]
  case otherName =>
    intro name hname
    rw [Function.comp_apply, h.otherName name hname]
    refine renamedBy_eq_self ?_
    rintro ⟨a, b⟩ hab
    obtain ⟨-, -, b', hb', -, -, -, hbterminal, rfl⟩ := exists_sources hab
    exact hname b' hb' hbterminal
  case kept =>
    intro t ht hterminal hkept
    obtain ⟨hkeep, hdropped⟩ : keep t ∧ t.isDropped pairs = false := by simpa using hkept
    rw [Function.comp_apply, h.kept t ht hterminal hkeep]
    refine renamedBy_eq_self ?_
    rintro ⟨a, b⟩ hab hsymbol
    obtain rfl := eq_of_symbol_eq hapart ht hterminal hab hsymbol
    have htrue : t.isDropped pairs := (isDropped_iff hapart.key ht).mpr ⟨a, hab⟩
    simp [hdropped] at htrue
  case stands =>
    intro t ht hterminal
    obtain ⟨u, hu, huterminal, hukeep, hname, hexpr, hmerged, hlow⟩ := h.stands t ht hterminal
    obtain ⟨v, hv, hvterminal, hvkeep, hvdropped, hvname, hvexpr, hvlow⟩ :=
      exists_kept hapart hu huterminal hukeep
    have hmerged' := h.merged_of_expr_eq hapart hu hv huterminal hvterminal hvexpr.symm
    have hvkept : (keep v && !v.isDropped pairs) = true := by
      rw [hvkeep, Bool.eq_false_iff.mpr hvdropped]
      rfl
    refine ⟨v, hv, hvterminal, hvkept, ?_, ?_, Setoid.trans' _ hmerged hmerged',
      not_idLt_trans hvlow hlow⟩
    · rw [Function.comp_apply, hname, hvname]
    · rw [← Expr.mapNames_mapNames, ← Expr.mapNames_mapNames, hvexpr, hexpr]

/-- Passes go on until no two terminals are left with the same right-hand side. -/
theorem exists_passed (n : Nat) (h : Passed source keep f)
    (hn : (passed source keep f).length ≤ n) : ∃ keep' f', Passed source keep' f' ∧
      (mergePasses n (passed source keep f)).kept = passed source keep' f' ∧
      Keyed.duplicates (passed source keep' f') = [] := by
  obtain ⟨keep', h', hkept, hdone⟩ := exists_merged (fun _ _ h => h.step hapart) n h hn
  exact ⟨keep', _, h', hkept, hkept ▸ hdone⟩

end Step

theorem Passed.keep_of_isLowest (h : Passed source keep f)
    (hids : ∀ a ∈ source, ∀ b ∈ source, a.id = b.id → a = b) {t : Keyed} (ht : t ∈ source)
    (hterminal : t.isTerminal) (hlowest : IsLowest (source.map Keyed.rule) t.rule) : keep t := by
  obtain ⟨u, hu, huterminal, hukeep, -, -, hmerged, hlow⟩ := h.stands t ht hterminal
  have hlow' := hlowest.2 u.rule (mem_terminals_map hu huterminal) hmerged
  obtain rfl := hids t ht u hu (eq_of_not_idLt hlow hlow')
  exact hukeep

section Done
variable (hapart : Apart source) (h : Passed source keep f)
  (hdone : Keyed.duplicates (passed source keep f) = [])
include hapart h hdone

/-- In the end, equal names relate terminals as far as they have to be related. -/
theorem Passed.isMerging_ker :
    IsMerging (source.map Keyed.rule) (Setoid.ker fun r => f r.symbol) := by
  intro r hr s hs halike
  obtain ⟨hr, hrkind⟩ := mem_terminals.mp hr
  obtain ⟨hs, hskind⟩ := mem_terminals.mp hs
  obtain ⟨t, ht, rfl⟩ := List.mem_map.mp hr
  obtain ⟨u, hu, rfl⟩ := List.mem_map.mp hs
  obtain ⟨t', ht', hterminal', htkeep, htname, htexpr, -⟩ :=
    h.stands t ht (by simpa [Keyed.isTerminal] using hrkind)
  obtain ⟨u', hu', huterminal', hukeep, huname, huexpr, -⟩ :=
    h.stands u hu (by simpa [Keyed.isTerminal] using hskind)
  have hexpr : t.rule.expr.mapNames f = u.rule.expr.mapNames f := by
    rw [Expr.mapNames_eq_mapNames_iff]
    refine Expr.Alike.mono ?_ _ _ halike
    rintro a b (rfl | ⟨v, -, w, -, rfl, rfl, hvw⟩)
    · rfl
    · exact hvw
  have hkey := Keyed.key_eq_of_duplicates_nil hdone
    (mem_passed.mpr ⟨t', ht', htkeep, rfl⟩) (mem_passed.mpr ⟨u', hu', hukeep, rfl⟩)
    hterminal' huterminal' (htexpr.trans (hexpr.trans huexpr.symm))
  obtain rfl := hapart.key t' ht' u' hu' hkey
  exact htname.trans huname.symm

theorem Passed.name_eq_of_merged {t u : Rule} (hmerged : merged (source.map Keyed.rule) t u) :
    f t.symbol = f u.symbol :=
  merged_of_isMerging (h.isMerging_ker hapart hdone) hmerged

theorem Passed.isLowest {t : Keyed} (ht : t ∈ source) (hterminal : t.isTerminal) (hkeep : keep t) :
    IsLowest (source.map Keyed.rule) t.rule := by
  refine ⟨mem_terminals_map ht hterminal, ?_⟩
  intro r hr hmerged
  obtain ⟨hr, hkind⟩ := mem_terminals.mp hr
  obtain ⟨u, hu, rfl⟩ := List.mem_map.mp hr
  have hname := h.name_eq_of_merged hapart hdone hmerged
  obtain ⟨u', hu', huterminal', -, huname, -, -, hlow⟩ :=
    h.stands u hu (by simpa [Keyed.isTerminal] using hkind)
  have hsymbol : u'.rule.symbol = t.rule.symbol :=
    huname.symm.trans (hname.symm.trans (h.kept t ht hterminal hkeep))
  obtain rfl := hapart.symbol u' hu' t ht huterminal' hterminal hsymbol
  exact hlow

theorem Passed.keep_iff (hids : ∀ a ∈ source, ∀ b ∈ source, a.id = b.id → a = b) {k : Keyed}
    (hk : k ∈ source) :
    keep k ↔ (k.rule.kind = .terminal → IsLowest (source.map Keyed.rule) k.rule) := by
  by_cases hterminal : k.isTerminal
  · have hkind : k.rule.kind = .terminal := by simpa [Keyed.isTerminal] using hterminal
    constructor
    · exact fun hkeep _ => h.isLowest hapart hdone hk hterminal hkeep
    · exact fun hlowest => h.keep_of_isLowest hids hk hterminal (hlowest hkind)
  · have hkind : k.rule.kind ≠ .terminal := by simpa [Keyed.isTerminal] using hterminal
    constructor
    · exact fun _ h => absurd h hkind
    · exact fun _ => h.others k hk hterminal

theorem Passed.renamesToLowest : RenamesToLowest (source.map Keyed.rule) f := by
  constructor
  case terminal =>
    intro r hr
    obtain ⟨hr, hkind⟩ := mem_terminals.mp hr
    obtain ⟨t, ht, rfl⟩ := List.mem_map.mp hr
    obtain ⟨u, hu, huterminal, hukeep, hname, -, hmerged, -⟩ :=
      h.stands t ht (by simpa [Keyed.isTerminal] using hkind)
    exact ⟨u.rule, h.isLowest hapart hdone hu huterminal hukeep, hmerged, hname⟩
  case other =>
    intro name hname
    exact h.otherName name fun t ht hterminal => hname t.rule (mem_terminals_map ht hterminal)

end Done

end Passes

section Rules
variable {rules : List Rule}

theorem map_rule_ofList (rules : List Rule) : (Keyed.ofList rules).map Keyed.rule = rules := by
  simp [Keyed.ofList, Function.comp_def]

theorem mem_ofList {i : Nat} {r : Rule} : ⟨i, r⟩ ∈ Keyed.ofList rules ↔ rules[i]? = some r := by
  simp [Keyed.ofList, List.mem_zipIdx_iff_getElem?]

theorem eq_of_pairwise {P : Rule → Rule → Prop} (hP : rules.Pairwise fun r t => ¬P r t ∧ ¬P t r)
    {a b : Keyed} (ha : a ∈ Keyed.ofList rules) (hb : b ∈ Keyed.ofList rules)
    (h : P a.rule b.rule) : a = b := by
  obtain ⟨i, r⟩ := a
  obtain ⟨j, t⟩ := b
  obtain ⟨hi, rfl⟩ := List.getElem?_eq_some_iff.mp (mem_ofList.mp ha)
  obtain ⟨hj, rfl⟩ := List.getElem?_eq_some_iff.mp (mem_ofList.mp hb)
  rcases Nat.lt_trichotomy i j with hij | rfl | hij
  · exact absurd h (List.pairwise_iff_getElem.mp hP i j hi hj hij).1
  · rfl
  · exact absurd h (List.pairwise_iff_getElem.mp hP j i hj hi hij).2

theorem eq_of_key_eq {a b : Keyed} (ha : a ∈ Keyed.ofList rules) (hb : b ∈ Keyed.ofList rules)
    (hkey : a.key = b.key) : a = b := by
  obtain ⟨i, r⟩ := a
  obtain ⟨j, t⟩ := b
  obtain rfl : i = j := hkey
  have hsome : some r = some t := (mem_ofList.mp ha).symm.trans (mem_ofList.mp hb)
  rw [Option.some.inj hsome]

/-- Terminals are told apart by what differs among them. -/
theorem eq_of_nodup_terminals {α : Type} {g : Rule → α} (h : ((terminals rules).map g).Nodup)
    {a b : Keyed} (ha : a ∈ Keyed.ofList rules) (hb : b ∈ Keyed.ofList rules)
    (hterminal : a.isTerminal) (hbterminal : b.isTerminal) (hg : g a.rule = g b.rule) : a = b := by
  have hpairs : rules.Pairwise fun r t =>
      ¬(r.kind = .terminal ∧ t.kind = .terminal ∧ g r = g t) ∧
        ¬(t.kind = .terminal ∧ r.kind = .terminal ∧ g t = g r) := by
    have hpairwise := List.pairwise_filter.mp (List.pairwise_map.mp h)
    refine hpairwise.imp ?_
    simp only [decide_eq_true_eq]
    intro r t h
    exact ⟨fun hrt => h hrt.1 hrt.2.1 hrt.2.2, fun htr => h htr.2.1 htr.1 htr.2.2.symm⟩
  exact eq_of_pairwise hpairs ha hb
    ⟨by simpa [Keyed.isTerminal] using hterminal, by simpa [Keyed.isTerminal] using hbterminal, hg⟩

theorem apart_ofList (hsymbols : ((terminals rules).map Rule.symbol).Nodup) :
    Apart (Keyed.ofList rules) where
  key _ ha _ hb := eq_of_key_eq ha hb
  symbol _ ha _ hb := eq_of_nodup_terminals hsymbols ha hb

theorem orderBreakdown?_eq_none_iff {ids : List String} :
    orderBreakdown? ids = none ↔ ∀ id ∈ ids, Text.leadingDigits id ≤ digitLimit := by
  simp only [orderBreakdown?, Option.map_eq_none_iff, List.findSome?_eq_none_iff, excessDigits?]
  constructor
  · intro h id hid
    by_contra hlong
    simpa [Nat.not_le.mp hlong] using h id hid
  · intro h id hid
    exact if_neg (Nat.not_lt.mpr (h id hid))

theorem mergeBreakdown?_eq_none_iff {ks : List Keyed} :
    mergeBreakdown? ks = none ↔ ∀ k ∈ ks, Text.leadingDigits k.id ≤ digitLimit := by
  rw [mergeBreakdown?, Option.or_eq_none_iff, orderBreakdown?_eq_none_iff, List.forall_mem_map]
  constructor
  · rintro ⟨-, h⟩
    exact h
  · intro h
    refine ⟨List.findSome?_eq_none_iff.mpr ?_, h⟩
    intro k _
    rw [Keyed.pairBreakdown?, orderBreakdown?_eq_none_iff, List.forall_mem_map]
    intro j hj
    exact h j (Keyed.mem_equals.mp hj).1

theorem mergeBreakdown?_ofList_eq_none_iff : mergeBreakdown? (Keyed.ofList rules) = none ↔
    ∀ r ∈ rules, Text.leadingDigits r.id ≤ digitLimit := by
  rw [mergeBreakdown?_eq_none_iff]
  conv_rhs => rw [← map_rule_ofList rules, List.forall_mem_map]
  rfl

theorem mergeKeyed?_eq_ok (hdigits : ∀ r ∈ rules, Text.leadingDigits r.id ≤ digitLimit) :
    mergeKeyed? (Keyed.ofList rules) = .ok (mergeKeyed (Keyed.ofList rules)) := by
  simp [mergeKeyed?, mergeBreakdown?_ofList_eq_none_iff.mpr hdigits, Breakdown.guard]

/-- Rules can be merged if and only if no id starts with a number that is too long. -/
theorem exists_mergeKeyed?_iff : (∃ m, mergeKeyed? (Keyed.ofList rules) = .ok m) ↔
    ∀ r ∈ rules, Text.leadingDigits r.id ≤ digitLimit := by
  refine ⟨?_, fun hdigits => ⟨_, mergeKeyed?_eq_ok hdigits⟩⟩
  rintro ⟨m, hm⟩
  unfold mergeKeyed? Breakdown.guard at hm
  split at hm
  case h_1 => cases hm
  case h_2 hnone => exact mergeBreakdown?_ofList_eq_none_iff.mp hnone

/-- What is left of rules when merging is done, put in order. -/
theorem exists_passed_ofList (hsymbols : ((terminals rules).map Rule.symbol).Nodup) :
    ∃ keep f, Passed (Keyed.ofList rules) keep f ∧
      (mergeKeyed (Keyed.ofList rules)).kept =
        sortById Keyed.id (passed (Keyed.ofList rules) keep f) ∧
      Keyed.duplicates (passed (Keyed.ofList rules) keep f) = [] := by
  obtain ⟨keep, f, hpassed, hkept, hdone⟩ :=
    exists_passed (apart_ofList hsymbols) (Keyed.ofList rules).length (.start _) (by simp [passed])
  rw [passed_all] at hkept
  exact ⟨keep, f, hpassed, congrArg _ hkept, hdone⟩

theorem isLeast_merged (rules : List Rule) : IsLeast {R | IsMerging rules R} (merged rules) :=
  ⟨isMerging_merged rules, fun _ hR _ _ h => merged_of_isMerging hR h⟩

/-- Of terminals merged with each other the lowest is kept, all other rules are kept, and references
go to what is kept. No id may start with a number that is too long. -/
theorem mergeKeyed?_least (hids : (rules.map Rule.id).Nodup)
    (hsymbols : ((terminals rules).map Rule.symbol).Nodup)
    (hdigits : ∀ r ∈ rules, Text.leadingDigits r.id ≤ digitLimit) :
    ∃ m f, mergeKeyed? (Keyed.ofList rules) = .ok m ∧ RenamesToLowest rules f ∧
      (m.kept.map Keyed.rule).Pairwise (fun r t => idLt r.id t.id) ∧
      ∀ r', r' ∈ m.kept.map Keyed.rule ↔
        ∃ r ∈ rules, (r.kind = .terminal → IsLowest rules r) ∧ r' = r.mapNames f := by
  have hsource : (Keyed.ofList rules).map Keyed.rule = rules := map_rule_ofList rules
  have hapart := apart_ofList hsymbols
  have hdistinct : ∀ a ∈ Keyed.ofList rules, ∀ b ∈ Keyed.ofList rules, a.id = b.id → a = b := by
    intro a ha b hb hab
    refine eq_of_pairwise (P := fun r t => r.id = t.id) ?_ ha hb hab
    exact (List.pairwise_map.mp hids).imp fun h => ⟨h, Ne.symm h⟩
  obtain ⟨keep, f, hpassed, hkept, hdone⟩ := exists_passed_ofList hsymbols
  refine ⟨mergeKeyed (Keyed.ofList rules), f, ?_, ?_, ?_, ?_⟩
  · exact mergeKeyed?_eq_ok hdigits
  · exact hsource ▸ hpassed.renamesToLowest hapart hdone
  · rw [List.pairwise_map, hkept]
    have hsublist : ((passed (Keyed.ofList rules) keep f).map Keyed.id).Sublist
        ((Keyed.ofList rules).map Keyed.id) := by
      rw [passed, List.map_map]
      exact List.filter_sublist.map Keyed.id
    have hkeys : (Keyed.ofList rules).map Keyed.id = rules.map Rule.id := by
      rw [← hsource, List.map_map, hsource]
      rfl
    exact pairwise_sortById (hsublist.nodup (hkeys ▸ hids))
  · intro r'
    rw [List.mem_map, hkept]
    constructor
    · rintro ⟨k, hk, rfl⟩
      obtain ⟨s, hs, hkeep, rfl⟩ := mem_passed.mp (mem_sortById.mp hk)
      have hlowest := (hpassed.keep_iff hapart hdone hdistinct hs).mp hkeep
      exact ⟨s.rule, hsource ▸ List.mem_map_of_mem hs, hsource ▸ hlowest, rfl⟩
    · rintro ⟨r, hr, hlowest, rfl⟩
      obtain ⟨s, hs, rfl⟩ := List.mem_map.mp (hsource.symm ▸ hr)
      have hkeep := (hpassed.keep_iff hapart hdone hdistinct hs).mpr (hsource.symm ▸ hlowest)
      exact ⟨s.mapNames f, mem_sortById.mpr (mem_passed.mpr ⟨s, hs, hkeep, rfl⟩), rfl⟩

/-- Terminals that become equal only once the ones they refer to are merged. -/
def chainedRules : List Rule :=
  [{ symbol := some "D", id := "10", kind := .terminal, expr := .seq [.ref "B", .literal "y"] },
   { symbol := some "A", id := "1", kind := .terminal, expr := .literal "x" },
   { symbol := some "s", id := "3", kind := .rule, expr := .seq [.ref "C", .star (.ref "D")] },
   { symbol := some "C", id := "2", kind := .terminal, expr := .seq [.ref "A", .literal "y"] },
   { symbol := some "B", id := "1.1", kind := .terminal, expr := .literal "x" }]

theorem mergeKeyed?_chainedRules : (chainedRules.map Rule.id).Nodup ∧
    ((terminals chainedRules).map Rule.symbol).Nodup ∧
    (∀ r ∈ chainedRules, Text.leadingDigits r.id ≤ digitLimit) ∧
    ∃ m f, mergeKeyed? (Keyed.ofList chainedRules) = .ok m ∧ RenamesToLowest chainedRules f ∧
      (m.kept.map Keyed.rule).Pairwise (fun r t => idLt r.id t.id) ∧
      ∀ r', r' ∈ m.kept.map Keyed.rule ↔
        ∃ r ∈ chainedRules, (r.kind = .terminal → IsLowest chainedRules r) ∧ r' = r.mapNames f := by
  have hids : (chainedRules.map Rule.id).Nodup := by decide
  have hsymbols : ((terminals chainedRules).map Rule.symbol).Nodup := by decide
  have hdigits : ∀ r ∈ chainedRules, Text.leadingDigits r.id ≤ digitLimit := by decide +kernel
  exact ⟨hids, hsymbols, hdigits, mergeKeyed?_least hids hsymbols hdigits⟩

example : (mergeTerminals chainedRules).map (fun r => (r.symbol, r.expr)) =
    [(some "A", .literal "x"), (some "C", .seq [.ref "A", .literal "y"]),
     (some "s", .seq [.ref "C", .star (.ref "C")])] := by decide +kernel

theorem leadingDigits_replicate (n : Nat) :
    Text.leadingDigits (String.ofList (List.replicate n '1')) = n := by
  have hdigit : (Text.digitValue? '1').isSome := by decide
  simp [Text.leadingDigits, hdigit]

def numberedTerminal (n : Nat) : List Rule :=
  [{ symbol := some "A", id := String.ofList (List.replicate n '1'), kind := .terminal,
     expr := .literal "x" }]

theorem exists_mergeKeyed?_numberedTerminal_iff (n : Nat) :
    (∃ m, mergeKeyed? (Keyed.ofList (numberedTerminal n)) = .ok m) ↔ n ≤ digitLimit := by
  rw [exists_mergeKeyed?_iff]
  simp [numberedTerminal, leadingDigits_replicate]

/-- A terminal cannot even be compared with itself if its id starts with too long a number. -/
theorem mergeKeyed?_numberedTerminal : ((numberedTerminal 4301).map Rule.id).Nodup ∧
    ((numberedTerminal 4301).filterMap Rule.symbol).Nodup ∧
    (∀ t ∈ terminals (numberedTerminal 4301), t.symbol.isSome) ∧
    ¬∃ m, mergeKeyed? (Keyed.ofList (numberedTerminal 4301)) = .ok m := by
  have hspec : ∀ n, ((numberedTerminal n).map Rule.id).Nodup ∧
      ((numberedTerminal n).filterMap Rule.symbol).Nodup ∧
      ∀ t ∈ terminals (numberedTerminal n), t.symbol.isSome := by
    simp [numberedTerminal, terminals]
  obtain ⟨hids, hsymbols, hnamed⟩ := hspec 4301
  refine ⟨hids, hsymbols, hnamed, ?_⟩
  rw [exists_mergeKeyed?_numberedTerminal_iff]
  decide

end Rules

end FlatGrammar
