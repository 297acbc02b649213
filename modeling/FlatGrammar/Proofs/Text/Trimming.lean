import FlatGrammar.Text.Blank
import Mathlib.Data.List.TakeWhile

/-! # Trimming

What stands at the end of a text is trimmed by recursion on the text: a character stays if it is no blank
or something behind it stays.
-/
namespace FlatGrammar
open Text

variable {c : Char} {cs ds bs : List Char}

theorem trimEnd_cons (c : Char) (cs : List Char) : trimEnd (c :: cs) =
    if trimEnd cs = [] ∧ isBlank c then [] else c :: trimEnd cs := by
  unfold trimEnd
  rw [List.reverse_cons, List.dropWhile_append]
  cases hdrop : cs.reverse.dropWhile isBlank with
  | nil => cases hc : isBlank c <;> simp [hc]
  | cons d ds => simp

theorem exists_trimEnd (cs : List Char) : ∃ bs, cs = trimEnd cs ++ bs ∧ ∀ c ∈ bs, isBlank c := by
  refine ⟨(cs.reverse.takeWhile isBlank).reverse, ?_, fun c hc => ?_⟩
  · rw [trimEnd, ← List.reverse_append, List.takeWhile_append_dropWhile, List.reverse_reverse]
  · exact List.mem_takeWhile_imp (List.mem_reverse.mp hc)

theorem trimEnd_blanks (h : ∀ c ∈ bs, isBlank c) : trimEnd bs = [] := by
  have hdrop : bs.reverse.dropWhile isBlank = [] :=
    List.dropWhile_eq_nil_iff.mpr fun c hc => h c (List.mem_reverse.mp hc)
  rw [trimEnd, hdrop, List.reverse_nil]

/-- Something other than a blank stands at the end. -/
def EndsInked (cs : List Char) : Prop := ∃ ds c, cs = ds ++ [c] ∧ isBlank c = false

theorem EndsInked.append (h : EndsInked cs) (ds : List Char) : EndsInked (ds ++ cs) := by
  obtain ⟨es, c, rfl, hc⟩ := h
  exact ⟨ds ++ es, c, (List.append_assoc ds es [c]).symm, hc⟩

theorem endsInked_of_forall (hne : cs ≠ []) (hall : ∀ c ∈ cs, isBlank c = false) : EndsInked cs := by
  obtain ⟨ds, c, rfl⟩ := List.eq_nil_or_concat cs |>.resolve_left hne
  exact ⟨ds, c, List.concat_eq_append, hall c (by simp)⟩

theorem EndsInked.trimEnd_append (h : EndsInked cs) (ds : List Char) :
    trimEnd (cs ++ ds) = cs ++ trimEnd ds := by
  obtain ⟨es, c, rfl, hc⟩ := h
  induction es with
  | nil =>
    rw [List.nil_append, List.singleton_append, trimEnd_cons, hc]
    simp
  | cons e es ih =>
    have hne : es ++ [c] ++ trimEnd ds ≠ [] := by simp
    rw [List.cons_append, List.cons_append, trimEnd_cons, ih, if_neg fun h => hne h.1]
    rfl

theorem trimEnd_append (hcs : EndsInked cs) (hbs : ∀ c ∈ bs, isBlank c) : trimEnd (cs ++ bs) = cs := by
  rw [hcs.trimEnd_append, trimEnd_blanks hbs, List.append_nil]

end FlatGrammar
