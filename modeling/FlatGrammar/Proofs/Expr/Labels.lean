import FlatGrammar.Expr.Labelled
import FlatGrammar.Proofs.Expr.Fold
import FlatGrammar.Proofs.Text.Legible

/-! # Labelled forms

The labelled form of an expression tells the expression. The title in front of the parenthesis tells the
kind of the node, and the parts inside are legible one after another. The operands of a series end at the
bracket, since no title starts with one.
-/
namespace FlatGrammar

namespace NodeKind

def title : NodeKind → String
  | symbol => "SymbolRef"
  | literal => "Literal"
  | charClass => "CharRange"
  | hexRef => "HexCharRef"
  | series op => op.title
  | diff => "Difference"
  | repeated op => op.title

theorem title_injective : Function.Injective title := by
  have hall : ∀ a ∈ all, ∀ b ∈ all, a.title = b.title → a = b := by decide
  exact fun a b h => hall a a.mem_all b b.mem_all h

theorem paren_notMem_title (k : NodeKind) : '(' ∉ k.title.toList := by
  have hall : ∀ k ∈ all, '(' ∉ k.title.toList := by decide
  exact hall k k.mem_all

theorem exists_title_eq_cons (k : NodeKind) :
    ∃ c cs, k.title.toList = c :: cs ∧ c ≠ ']' ∧ c ≠ 'N' := by
  have hall : ∀ k ∈ all, k.title.toList.headD ']' ∉ [']', 'N'] := by decide
  have hhead := hall k k.mem_all
  cases htitle : k.title.toList with
  | nil => simp [htitle] at hhead
  | cons c cs => exact ⟨c, cs, rfl, by simpa [htitle] using hhead⟩

end NodeKind

namespace Expr

theorem title_nodeKind (e : Expr) : e.nodeKind.title = e.title := by
  cases e with
  | terminal t =>
    cases t with
    | literal _ | charClass _ | hexRef _ => rfl
  | symbol _ | series _ _ | diff _ _ | repeated _ _ => rfl

/-- What stands between the parentheses. -/
def labels : Expr → String
  | symbol name => "name=" ++ Text.quotedOrNone name
  | terminal t => t.label ++ "=" ++ Text.quoted t.text
  | series _ es => "children=[" ++ ", ".intercalate (labelledList es) ++ "]"
  | diff l r => "left=" ++ l.labelled ++ ", right=" ++ r.labelled
  | repeated _ e => "child=" ++ e.labelled

theorem labelled_symbol (name : Option String) :
    (symbol name).labelled = "SymbolRef(name=" ++ Text.quotedOrNone name ++ ")" := rfl

theorem labelled_terminal (t : Terminal) :
    (terminal t).labelled = t.title ++ "(" ++ t.label ++ "=" ++ Text.quoted t.text ++ ")" := rfl

theorem labelled_series (op : Series) (es : List Expr) : (series op es).labelled =
    op.title ++ "(children=[" ++ ", ".intercalate (labelledList es) ++ "])" := rfl

theorem labelled_diff (l r : Expr) : (diff l r).labelled =
    "Difference(left=" ++ l.labelled ++ ", right=" ++ r.labelled ++ ")" := rfl

theorem labelled_repeated (op : Repetition) (e : Expr) :
    (repeated op e).labelled = op.title ++ "(child=" ++ e.labelled ++ ")" := rfl

theorem toList_labelled (e : Expr) :
    e.labelled.toList = e.title.toList ++ '(' :: (e.labels.toList ++ [')']) := by
  cases e with
  | symbol name =>
    rw [labelled_symbol]
    simp [labels, title]
  | terminal t =>
    rw [labelled_terminal]
    simp [labels, title]
  | series op es =>
    rw [labelled_series]
    simp [labels, title]
  | diff l r =>
    rw [labelled_diff]
    simp [labels, title]
  | repeated op e =>
    rw [labelled_repeated]
    simp [labels, title]

theorem labelledList_eq_map (es : List Expr) : labelledList es = es.map labelled := by
  induction es with
  | nil => rfl
  | cons e es ih => exact congrArg (e.labelled :: ·) ih

theorem exists_labelled_eq_cons (e : Expr) :
    ∃ c cs, e.labelled.toList = c :: cs ∧ c ≠ ']' ∧ c ≠ 'N' := by
  obtain ⟨c, cs, hhead, hc⟩ := e.nodeKind.exists_title_eq_cons
  rw [title_nodeKind] at hhead
  exact ⟨c, _, by rw [toList_labelled, hhead, List.cons_append], hc⟩

section Operands
variable {es fs : List Expr} {xs ys : List Char}

theorem separated_labelledList (hne : es ≠ []) :
    ", ".toList ++ (", ".intercalate (labelledList es)).toList =
      es.flatMap fun e => ", ".toList ++ e.labelled.toList := by
  rw [labelledList_eq_map, append_toList_intercalate _ (mt List.map_eq_nil_iff.mp hne), List.flatMap_map]

theorem labelledList_ne_cons (hne : es ≠ []) :
    (", ".intercalate (labelledList es)).toList ++ xs ≠ ']' :: ys := by
  intro h
  cases es with
  | nil => exact hne rfl
  | cons e es =>
    obtain ⟨c, cs, hhead, hc, -⟩ := e.exists_labelled_eq_cons
    rw [← List.append_cancel_left_eq ", ".toList, ← List.append_assoc, separated_labelledList hne,
      List.flatMap_cons, List.append_assoc, List.append_assoc, hhead] at h
    exact hc (List.cons.inj (List.append_cancel_left h)).1

/-- No operand starts with the bracket behind the last one. -/
theorem eq_of_labelledList (hes : ∀ e ∈ es, Legible (fun e => e.labelled.toList) e)
    (h : (", ".intercalate (labelledList es)).toList ++ ']' :: xs =
      (", ".intercalate (labelledList fs)).toList ++ ']' :: ys) : es = fs ∧ xs = ys := by
  by_cases he : es = []
  · by_cases hf : fs = []
    · subst he hf
      exact ⟨rfl, (List.cons.inj h).2⟩
    · subst he
      exact absurd h.symm (labelledList_ne_cons hf)
  · by_cases hf : fs = []
    · subst hf
      exact absurd h (labelledList_ne_cons he)
    · have hpieces : ∀ e ∈ es, Legible (fun e => ", ".toList ++ e.labelled.toList) e :=
        fun e he => (hes e he).append_left _
      have hcomma (e : Expr) : ∃ c cs, ", ".toList ++ e.labelled.toList = c :: cs ∧ c ≠ ']' :=
        ⟨',', _, rfl, by decide⟩
      refine eq_of_flatMap_append hpieces hcomma ?_
      rw [← separated_labelledList he, ← separated_labelledList hf, List.append_assoc,
        List.append_assoc, h]

end Operands

theorem legible_labelled (e : Expr) : Legible (fun e => e.labelled.toList) e := by
  induction e using operands_induction with
  | step e ih =>
    intro f xs ys h
    simp only [toList_labelled, List.append_assoc, List.cons_append, List.nil_append] at h
    have hparen (e : Expr) : '(' ∉ e.title.toList := title_nodeKind e ▸ e.nodeKind.paren_notMem_title
    obtain ⟨htitle, -⟩ := eq_of_append_cons (P := ('(' ∉ ·)) h (hparen e) (hparen f) (by simp) (by simp)
    rw [htitle] at h
    replace h := (List.cons.inj (List.append_cancel_left h)).2
    have hkind : e.nodeKind = f.nodeKind := by
      refine NodeKind.title_injective ?_
      rw [title_nodeKind, title_nodeKind]
      exact String.toList_inj.mp htitle
    suffices hsame : e = f ∧ ')' :: xs = ')' :: ys from ⟨hsame.1, (List.cons.inj hsame.2).2⟩
    cases sameKind_of_nodeKind_eq hkind with
    | symbol name name' =>
      simp only [labels, String.toList_append, List.append_assoc] at h
      obtain ⟨rfl, hrest⟩ := Text.legible_quotedOrNone name (List.append_cancel_left h)
      exact ⟨rfl, hrest⟩
    | literal text | charClass text | hexRef text =>
      simp only [labels, String.toList_append, List.append_assoc] at h
      obtain ⟨rfl, hrest⟩ :=
        Text.legible_quoted text (List.append_cancel_left (List.append_cancel_left h))
      exact ⟨rfl, hrest⟩
    | series op es fs =>
      simp only [labels, String.toList_append, List.append_assoc] at h
      obtain ⟨rfl, hrest⟩ := eq_of_labelledList ih (List.append_cancel_left h)
      exact ⟨rfl, hrest⟩
    | diff l r l' r' =>
      obtain ⟨hl, hr⟩ := List.forall_mem_cons.mp ih
      simp only [labels, String.toList_append, List.append_assoc] at h
      obtain ⟨rfl, hright⟩ := hl (List.append_cancel_left h)
      obtain ⟨rfl, hrest⟩ := hr r List.mem_cons_self (List.append_cancel_left hright)
      exact ⟨rfl, hrest⟩
    | repeated op o o' =>
      simp only [labels, String.toList_append, List.append_assoc] at h
      obtain ⟨rfl, hrest⟩ := ih o List.mem_cons_self (List.append_cancel_left h)
      exact ⟨rfl, hrest⟩

/-- No title starts like the word for no expression. -/
theorem legible_labelledOrNone (e? : Option Expr) :
    Legible (fun e? => (labelledOrNone e?).toList) e? := by
  have hsome (e : Expr) : (labelledOrNone (some e)).toList = e.labelled.toList := rfl
  refine legible_option hsome legible_labelled (fun e xs ys h => ?_) e?
  obtain ⟨c, cs, hhead, -, hc⟩ := e.exists_labelled_eq_cons
  simp only [hhead] at h
  exact hc (List.cons.inj h).1

end Expr
end FlatGrammar
