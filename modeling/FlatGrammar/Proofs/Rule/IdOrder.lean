import FlatGrammar.Rule.Order
import Mathlib.Data.List.Pairwise

/-! # The order of ids

Ids are ordered strictly, so a rule of lowest id is one rule wherever ids differ, and sorting leaves no
choice.
-/
namespace FlatGrammar

section Ids
variable {a b c : String}

theorem idLt_iff : idLt a b ↔ Text.leadingNumber a < Text.leadingNumber b ∨
    Text.leadingNumber a = Text.leadingNumber b ∧ a < b := by
  simp only [idLt, Bool.or_eq_true, Bool.and_eq_true, decide_eq_true_eq, beq_iff_eq]

theorem idLt_irrefl (a : String) : ¬idLt a a := by
  rw [idLt_iff]
  rintro (h | ⟨-, h⟩)
  · omega
  · exact String.lt_irrefl a h

theorem idLt_trans (h : idLt a b) (h' : idLt b c) : idLt a c := by
  rw [idLt_iff] at h h' ⊢
  rcases h with h | ⟨h, hab⟩ <;> rcases h' with h' | ⟨h', hbc⟩
  · exact .inl (by omega)
  · exact .inl (by omega)
  · exact .inl (by omega)
  · exact .inr ⟨h.trans h', String.lt_trans hab hbc⟩

theorem idLt_asymm (h : idLt a b) : ¬idLt b a := fun h' => idLt_irrefl a (idLt_trans h h')

/-- Of two different ids, one comes first. -/
theorem eq_of_not_idLt (h : ¬idLt a b) (h' : ¬idLt b a) : a = b := by
  rw [idLt_iff] at h h'
  have hnumber : Text.leadingNumber a = Text.leadingNumber b := by omega
  have hab : ¬a < b := fun hlt => h (.inr ⟨hnumber, hlt⟩)
  have hba : ¬b < a := fun hlt => h' (.inr ⟨hnumber.symm, hlt⟩)
  exact String.le_antisymm (String.not_lt.mp hba) (String.not_lt.mp hab)

theorem not_idLt_trans (h : ¬idLt b a) (h' : ¬idLt c b) : ¬idLt c a := by
  intro hca
  by_cases hab : idLt a b
  · exact h' (idLt_trans hca hab)
  · obtain rfl := eq_of_not_idLt hab h
    exact h' hca

end Ids

section Entries
variable {α : Type} {id : α → String} {a b : α} {as : List α}

theorem lowest?_eq_none : lowest? id as = none ↔ as = [] := by
  cases as with
  | nil => simp [lowest?]
  | cons a as =>
    unfold lowest?
    split
    case h_1 => simp
    case h_2 => split <;> simp

theorem lowest?_spec (h : lowest? id as = some a) : a ∈ as ∧ ∀ b ∈ as, ¬idLt (id b) (id a) := by
  induction as generalizing a with
  | nil => simp [lowest?] at h
  | cons b bs ih =>
    unfold lowest? at h
    split at h
    case h_1 hnone =>
      obtain rfl := Option.some.inj h
      obtain rfl := lowest?_eq_none.mp hnone
      simp [idLt_irrefl]
    case h_2 c hc =>
      obtain ⟨hmem, hlow⟩ := ih hc
      split at h
      case isTrue hlt =>
        obtain rfl := Option.some.inj h
        refine ⟨List.mem_cons_of_mem b hmem, ?_⟩
        intro d hd
        rcases List.mem_cons.mp hd with rfl | hd
        · exact idLt_asymm hlt
        · exact hlow d hd
      case isFalse hlt =>
        obtain rfl := Option.some.inj h
        refine ⟨List.mem_cons_self, ?_⟩
        intro d hd
        rcases List.mem_cons.mp hd with rfl | hd
        · exact idLt_irrefl _
        · exact not_idLt_trans hlt (hlow d hd)

theorem insertById_perm (id : α → String) (a : α) (as : List α) :
    (insertById id a as).Perm (a :: as) := by
  induction as with
  | nil => exact .refl _
  | cons b bs ih =>
    unfold insertById
    split
    case isTrue => exact (ih.cons b).trans (.swap a b bs)
    case isFalse => exact .refl _

theorem sortById_perm (id : α → String) (as : List α) : (sortById id as).Perm as := by
  induction as with
  | nil => exact .refl _
  | cons a as ih => exact (insertById_perm id a (sortById id as)).trans (ih.cons a)

theorem mem_insertById : b ∈ insertById id a as ↔ b = a ∨ b ∈ as := by
  rw [(insertById_perm id a as).mem_iff, List.mem_cons]

theorem mem_sortById : a ∈ sortById id as ↔ a ∈ as := (sortById_perm id as).mem_iff

theorem pairwise_insertById (hsorted : as.Pairwise fun b c => idLt (id b) (id c))
    (hne : ∀ b ∈ as, id a ≠ id b) :
    (insertById id a as).Pairwise fun b c => idLt (id b) (id c) := by
  induction as with
  | nil => simp [insertById]
  | cons b bs ih =>
    obtain ⟨hb, hbs⟩ := List.pairwise_cons.mp hsorted
    unfold insertById
    split
    case isTrue hlt =>
      refine List.pairwise_cons.mpr ⟨?_, ih hbs fun c hc => hne c (List.mem_cons_of_mem b hc)⟩
      intro c hc
      rcases mem_insertById.mp hc with rfl | hc
      · exact hlt
      · exact hb c hc
    case isFalse hlt =>
      have hab : idLt (id a) (id b) := by
        by_contra hab
        exact hne b List.mem_cons_self (eq_of_not_idLt hab hlt)
      refine List.pairwise_cons.mpr ⟨?_, hsorted⟩
      intro c hc
      rcases List.mem_cons.mp hc with rfl | hc
      · exact hab
      · exact idLt_trans hab (hb c hc)

/-- Entries of different ids are sorted strictly. -/
theorem pairwise_sortById (h : (as.map id).Nodup) :
    (sortById id as).Pairwise fun b c => idLt (id b) (id c) := by
  induction as with
  | nil => simp [sortById]
  | cons a as ih =>
    obtain ⟨ha, has⟩ := List.nodup_cons.mp h
    refine pairwise_insertById (ih has) ?_
    intro b hb heq
    exact ha (List.mem_map.mpr ⟨b, mem_sortById.mp hb, heq.symm⟩)

theorem pairwise_not_idLt_insertById (hsorted : as.Pairwise fun b c => ¬idLt (id c) (id b)) :
    (insertById id a as).Pairwise fun b c => ¬idLt (id c) (id b) := by
  induction as with
  | nil => exact List.pairwise_singleton _ a
  | cons b bs ih =>
    obtain ⟨hb, hbs⟩ := List.pairwise_cons.mp hsorted
    unfold insertById
    split
    case isTrue hlt =>
      refine List.pairwise_cons.mpr ⟨?_, ih hbs⟩
      intro c hc
      rcases mem_insertById.mp hc with rfl | hc
      · exact idLt_asymm hlt
      · exact hb c hc
    case isFalse hlt =>
      refine List.pairwise_cons.mpr ⟨?_, hsorted⟩
      intro c hc
      rcases List.mem_cons.mp hc with rfl | hc
      · exact hlt
      · exact not_idLt_trans hlt (hb c hc)

/-- Entries are sorted even where ids repeat. -/
theorem pairwise_not_idLt_sortById (id : α → String) (as : List α) :
    (sortById id as).Pairwise fun b c => ¬idLt (id c) (id b) := by
  induction as with
  | nil => exact .nil
  | cons a as ih => exact pairwise_not_idLt_insertById ih

/-- Sorting moves nothing that is in order. -/
theorem sortById_eq_self (h : as.Pairwise fun b c => ¬idLt (id c) (id b)) : sortById id as = as := by
  induction as with
  | nil => rfl
  | cons a as ih =>
    obtain ⟨ha, has⟩ := List.pairwise_cons.mp h
    have hinsert : sortById id (a :: as) = insertById id a (sortById id as) := rfl
    rw [hinsert, ih has]
    cases as with
    | nil => rfl
    | cons b bs => exact if_neg (ha b List.mem_cons_self)

end Entries

end FlatGrammar
