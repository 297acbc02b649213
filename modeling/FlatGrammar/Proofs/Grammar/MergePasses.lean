import FlatGrammar.Proofs.Grammar.LeastMerging

/-! # Passes of merging

Merging goes on as long as there are two equal terminals. Each pass drops one at least, so there are no
more passes than terminals. What is left has no two equal terminals and is in order, so merging it again
changes nothing. Names and ids may repeat in all of this, and terminals may refer to each other in a
circle.
-/
namespace FlatGrammar

namespace Keyed

/-- The rules left after one pass. -/
def pass (ks : List Keyed) : List Keyed :=
  (ks.map (renamePairs (duplicates ks))).filter fun k => !k.isDropped (duplicates ks)

end Keyed

/-- A run of a number of passes, from some rules to what is left of them once no two terminals are
equal. -/
inductive MergeRun : Nat → List Keyed → List Keyed → Prop
  | done {ks : List Keyed} (h : Keyed.duplicates ks = []) : MergeRun 0 ks ks
  | pass {n : Nat} {ks left : List Keyed} (h : Keyed.duplicates ks ≠ [])
      (hrest : MergeRun n (Keyed.pass ks) left) : MergeRun (n + 1) ks left

/-- No two rules are terminals with the same right-hand side. -/
def NoEqualTerminals (ks : List Keyed) : Prop :=
  ks.Pairwise fun a b => a.isTerminal → b.isTerminal → a.rule.expr ≠ b.rule.expr

section Pass
variable {ks : List Keyed} {k : Keyed}

theorem pass_eq (ks : List Keyed) : Keyed.pass ks =
    passed ks (fun k => !k.isDropped (Keyed.duplicates ks)) (renamedBy (Keyed.duplicates ks)) := by
  have hfilter := @passed_filter ks (fun _ => true) id (Keyed.duplicates ks)
  rw [passed_all] at hfilter
  exact hfilter

/-- A pass changes no key and no id. -/
theorem keys_pass_sublist (ks : List Keyed) :
    ((Keyed.pass ks).map Keyed.key).Sublist (ks.map Keyed.key) := by
  rw [pass_eq, passed, List.map_map]
  exact List.filter_sublist.map Keyed.key

theorem exists_id_eq_of_mem_pass (hk : k ∈ Keyed.pass ks) : ∃ j ∈ ks, j.id = k.id := by
  rw [pass_eq] at hk
  obtain ⟨j, hj, -, rfl⟩ := mem_passed.mp hk
  exact ⟨j, hj, rfl⟩

theorem countP_pass (ks : List Keyed) : (Keyed.pass ks).countP Keyed.isTerminal =
    ((ks.filter Keyed.isTerminal).filter fun k => !k.isDropped (Keyed.duplicates ks)).length := by
  have hterminal (f : Option String → Option String) :
      Keyed.isTerminal ∘ Keyed.mapNames f = Keyed.isTerminal := rfl
  rw [pass_eq, passed, List.countP_map, hterminal, List.countP_eq_length_filter, List.filter_filter,
    List.filter_filter]
  simp only [Bool.and_comm]

/-- As long as there are pairs, a pass drops a terminal. -/
theorem countP_pass_lt (h : Keyed.duplicates ks ≠ []) :
    (Keyed.pass ks).countP Keyed.isTerminal < ks.countP Keyed.isTerminal := by
  obtain ⟨⟨a, b⟩, hab⟩ := List.exists_mem_of_ne_nil _ h
  obtain ⟨hb, hterminal, -⟩ := Keyed.mem_duplicates.mp hab
  have hdropped : b.isDropped (Keyed.duplicates ks) := List.any_eq_true.mpr ⟨_, hab, beq_self_eq_true _⟩
  rw [countP_pass, List.countP_eq_length_filter]
  refine List.length_filter_lt_length_iff_exists.mpr ⟨b, List.mem_filter.mpr ⟨hb, hterminal⟩, ?_⟩
  simpa using hdropped

/-- There are no pairs if and only if equal terminals are the same rule. -/
theorem duplicates_eq_nil_iff : Keyed.duplicates ks = [] ↔ ∀ a ∈ ks, ∀ b ∈ ks, a.isTerminal →
    b.isTerminal → a.rule.expr = b.rule.expr → a.key = b.key := by
  constructor
  · intro h a ha b hb
    exact Keyed.key_eq_of_duplicates_nil h ha hb
  · intro h
    rw [List.eq_nil_iff_forall_not_mem]
    rintro ⟨a, b⟩ hab
    obtain ⟨hb, hbterminal, -, hkey⟩ := Keyed.mem_duplicates.mp hab
    obtain ⟨ha, hterminal, hexpr, -⟩ := Keyed.of_mem_duplicates hab
    exact hkey (h a ha b hb hterminal hbterminal hexpr)

theorem mergePasses_of_duplicates_nil (h : Keyed.duplicates ks = []) (n : Nat) :
    mergePasses n ks = ⟨ks, [], []⟩ := by
  cases n with
  | zero => rfl
  | succ n =>
    unfold mergePasses
    rw [h]

end Pass

section Run
variable {n : Nat} {ks left : List Keyed}

/-- Every run ends, after no more passes than there are terminals. -/
theorem exists_mergeRun (ks : List Keyed) :
    ∃ n left, n ≤ ks.countP Keyed.isTerminal ∧ MergeRun n ks left := by
  induction hcount : ks.countP Keyed.isTerminal using Nat.strongRecOn generalizing ks with
  | _ count ih =>
    subst hcount
    by_cases h : Keyed.duplicates ks = []
    · exact ⟨0, ks, Nat.zero_le _, .done h⟩
    · have hlt := countP_pass_lt h
      obtain ⟨n, left, hn, hrun⟩ := ih _ hlt (Keyed.pass ks) rfl
      exact ⟨n + 1, left, hn.trans_lt hlt, .pass h hrun⟩

theorem MergeRun.kept_eq (h : MergeRun n ks left) {fuel : Nat} (hfuel : n ≤ fuel) :
    (mergePasses fuel ks).kept = left := by
  induction h generalizing fuel with
  | done h => rw [mergePasses_of_duplicates_nil h]
  | pass h _ ih =>
    obtain ⟨fuel, rfl⟩ := Nat.exists_eq_succ_of_ne_zero (Nat.ne_zero_of_lt hfuel)
    rw [(mergePasses_succ h).1]
    exact ih (Nat.le_of_succ_le_succ hfuel)

theorem MergeRun.duplicates_eq_nil (h : MergeRun n ks left) : Keyed.duplicates left = [] := by
  induction h with
  | done h => exact h
  | pass _ _ ih => exact ih

theorem MergeRun.keys_sublist (h : MergeRun n ks left) :
    (left.map Keyed.key).Sublist (ks.map Keyed.key) := by
  induction h with
  | done => exact .refl _
  | pass _ _ ih => exact ih.trans (keys_pass_sublist _)

theorem MergeRun.exists_id_eq (h : MergeRun n ks left) {k : Keyed} (hk : k ∈ left) :
    ∃ j ∈ ks, j.id = k.id := by
  induction h with
  | done => exact ⟨k, hk, rfl⟩
  | pass _ _ ih =>
    obtain ⟨i, hi, hid⟩ := ih hk
    obtain ⟨j, hj, hid'⟩ := exists_id_eq_of_mem_pass hi
    exact ⟨j, hj, hid'.trans hid⟩

theorem kept_mergeKeyed (h : MergeRun n ks left) (hn : n ≤ ks.countP Keyed.isTerminal) :
    (mergeKeyed ks).kept = sortById Keyed.id left :=
  congrArg (sortById Keyed.id) (h.kept_eq (hn.trans List.countP_le_length))

/-- Rules in order without two equal terminals stay as they are. -/
theorem mergeKeyed_of_sorted (hnone : Keyed.duplicates ks = [])
    (hsorted : ks.Pairwise fun a b => ¬idLt b.id a.id) : mergeKeyed ks = ⟨ks, [], []⟩ := by
  have hsort : sortById Keyed.id ks = ks := sortById_eq_self hsorted
  rw [mergeKeyed, mergePasses_of_duplicates_nil hnone]
  simp only [hsort]

theorem mergeKeyed?_of_digits (hdigits : ∀ k ∈ ks, Text.leadingDigits k.id ≤ digitLimit) :
    mergeKeyed? ks = .ok (mergeKeyed ks) := by
  rw [mergeKeyed?, mergeBreakdown?_eq_none_iff.mpr hdigits]
  rfl

theorem noEqualTerminals_of_duplicates_nil (h : Keyed.duplicates ks = [])
    (hkeys : (ks.map Keyed.key).Nodup) : NoEqualTerminals ks := by
  refine (List.pairwise_map.mp hkeys).imp_of_mem ?_
  intro a b ha hb hne hterminal hbterminal hexpr
  exact hne (duplicates_eq_nil_iff.mp h a ha b hb hterminal hbterminal hexpr)

/-- Merging ends after no more passes than there are terminals, at rules in order without two equal
terminals, which merging leaves as they are. No id may start with a number that is too long. -/
theorem mergeKeyed?_fixpoint (hkeys : (ks.map Keyed.key).Nodup)
    (hdigits : ∀ k ∈ ks, Text.leadingDigits k.id ≤ digitLimit) :
    ∃ m n left, mergeKeyed? ks = .ok m ∧ n ≤ ks.countP Keyed.isTerminal ∧ MergeRun n ks left ∧
      m.kept = sortById Keyed.id left ∧ NoEqualTerminals m.kept ∧
      m.kept.Pairwise (fun a b => ¬idLt b.id a.id) ∧ mergeKeyed? m.kept = .ok ⟨m.kept, [], []⟩ := by
  obtain ⟨n, left, hn, hrun⟩ := exists_mergeRun ks
  have hkept := kept_mergeKeyed hrun hn
  have hperm : (mergeKeyed ks).kept.Perm left := hkept ▸ sortById_perm Keyed.id left
  have hsorted : (mergeKeyed ks).kept.Pairwise fun a b => ¬idLt b.id a.id :=
    hkept ▸ pairwise_not_idLt_sortById Keyed.id left
  have hnone : Keyed.duplicates (mergeKeyed ks).kept = [] := by
    have hleft := duplicates_eq_nil_iff.mp hrun.duplicates_eq_nil
    refine duplicates_eq_nil_iff.mpr fun a ha b hb => ?_
    exact hleft a (hperm.mem_iff.mp ha) b (hperm.mem_iff.mp hb)
  have hkeptKeys : ((mergeKeyed ks).kept.map Keyed.key).Nodup :=
    (hperm.map Keyed.key).nodup_iff.mpr (hrun.keys_sublist.nodup hkeys)
  have hkeptDigits : ∀ k ∈ (mergeKeyed ks).kept, Text.leadingDigits k.id ≤ digitLimit := by
    intro k hk
    obtain ⟨j, hj, hid⟩ := hrun.exists_id_eq (hperm.mem_iff.mp hk)
    exact hid ▸ hdigits j hj
  refine ⟨mergeKeyed ks, n, left, mergeKeyed?_of_digits hdigits, hn, hrun, hkept, ?_, hsorted, ?_⟩
  · exact noEqualTerminals_of_duplicates_nil hnone hkeptKeys
  · rw [mergeKeyed?_of_digits hkeptDigits, mergeKeyed_of_sorted hnone hsorted]

end Run

/-- Terminals that repeat symbols and ids, two of which refer to each other, and one to itself. -/
def tangledRules : List Rule :=
  [{ symbol := some "C", id := "3", kind := .terminal, expr := .literal "x" },
   { symbol := some "A", id := "1", kind := .terminal, expr := .seq [.ref "B", .ref "A"] },
   { symbol := some "A", id := "1", kind := .terminal, expr := .seq [.ref "C", .ref "A"] },
   { symbol := some "s", id := "2", kind := .rule, expr := .seq [.ref "C", .opt (.ref "A")] },
   { symbol := some "B", id := "2", kind := .terminal, expr := .literal "x" },
   { symbol := some "D", id := "5", kind := .terminal, expr := .star (.ref "E") },
   { symbol := some "E", id := "4", kind := .terminal, expr := .star (.ref "D") }]

theorem mergeKeyed?_tangledRules_fixpoint : ((Keyed.ofList tangledRules).map Keyed.key).Nodup ∧
    (∀ k ∈ Keyed.ofList tangledRules, Text.leadingDigits k.id ≤ digitLimit) ∧
    ∃ m n left, mergeKeyed? (Keyed.ofList tangledRules) = .ok m ∧
      n ≤ (Keyed.ofList tangledRules).countP Keyed.isTerminal ∧
      MergeRun n (Keyed.ofList tangledRules) left ∧ m.kept = sortById Keyed.id left ∧
      NoEqualTerminals m.kept ∧ m.kept.Pairwise (fun a b => ¬idLt b.id a.id) ∧
      mergeKeyed? m.kept = .ok ⟨m.kept, [], []⟩ := by
  have hkeys : ((Keyed.ofList tangledRules).map Keyed.key).Nodup := by decide
  have hdigits : ∀ k ∈ Keyed.ofList tangledRules, Text.leadingDigits k.id ≤ digitLimit := by
    decide +kernel
  exact ⟨hkeys, hdigits, mergeKeyed?_fixpoint hkeys hdigits⟩

example : (mergeTerminals tangledRules).map (fun r => (r.symbol, r.id, r.expr)) =
    [(some "A", "1", .seq [.ref "B", .ref "A"]), (some "s", "2", .seq [.ref "B", .opt (.ref "A")]),
     (some "B", "2", .literal "x"), (some "E", "4", .star (.ref "D")),
     (some "D", "5", .star (.ref "E"))] := by decide +kernel

/-- Two equal terminals, one of which has an id of so many digits. -/
def numberedPair (n : Nat) : List Rule :=
  [{ symbol := some "A", id := String.ofList (List.replicate n '1'), kind := .terminal,
     expr := .literal "x" },
   { symbol := some "B", id := "2", kind := .terminal, expr := .literal "x" }]

theorem exists_mergeKeyed?_numberedPair_iff (n : Nat) :
    (∃ m, mergeKeyed? (Keyed.ofList (numberedPair n)) = .ok m) ↔ n ≤ digitLimit := by
  have hother : Text.leadingDigits "2" ≤ digitLimit := by decide +kernel
  rw [exists_mergeKeyed?_iff]
  simp [numberedPair, leadingDigits_replicate, hother]

/-- Equal terminals are not merged if one of them cannot be compared. -/
theorem mergeKeyed?_numberedPair : ((Keyed.ofList (numberedPair 4301)).map Keyed.key).Nodup ∧
    (∀ t ∈ terminals (numberedPair 4301), t.symbol.isSome) ∧
    ¬∃ m, mergeKeyed? (Keyed.ofList (numberedPair 4301)) = .ok m := by
  have hspec : ∀ n, ((Keyed.ofList (numberedPair n)).map Keyed.key).Nodup ∧
      ∀ t ∈ terminals (numberedPair n), t.symbol.isSome := by
    simp [numberedPair, terminals, Keyed.ofList]
  obtain ⟨hkeys, hnamed⟩ := hspec 4301
  refine ⟨hkeys, hnamed, ?_⟩
  rw [exists_mergeKeyed?_numberedPair_iff]
  decide

end FlatGrammar
