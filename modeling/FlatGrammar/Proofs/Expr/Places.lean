import FlatGrammar.Proofs.Expr.Fold
import Mathlib.Data.List.Lex

/-! # Places in expressions

A path of positions leads to a node. Whatever stands at its place, the expression around it is the same: it is
a context for the node, and editing the node leaves it alone. From left to right, places are in the
lexicographic order of their paths, and so are the references of an expression.
-/
namespace FlatGrammar

section Positions
variable {α : Type}

theorem position?_natCast {i length : Nat} (h : i < length) : position? i length = some i := by
  have hneg : ¬((i : Int) < 0) := by omega
  have hin : 0 ≤ (i : Int) ∧ (i : Int) < length := by omega
  simp only [position?, hneg, if_false, hin, and_self, if_true, Int.toNat_natCast]

theorem entryAt?_natCast (i : Nat) (xs : List α) : entryAt? i xs = xs[i]?.map fun x => (i, x) := by
  by_cases h : i < xs.length
  · rw [entryAt?, position?_natCast h, Option.bind_some]
  · have hout : ¬(0 ≤ (i : Int) ∧ (i : Int) < xs.length) := by omega
    have hneg : ¬((i : Int) < 0) := by omega
    rw [List.getElem?_eq_none (by omega)]
    simp only [entryAt?, position?, hneg, if_false, hout, Option.bind_none, Option.map_none]

theorem entryAt?_map {β : Type} (f : α → β) (i : Int) (xs : List α) :
    entryAt? i (xs.map f) = (entryAt? i xs).map fun entry => (entry.1, f entry.2) := by
  rw [entryAt?, entryAt?, List.length_map]
  cases position? i xs.length with
  | none => rfl
  | some n =>
    rw [Option.bind_some, Option.bind_some, List.getElem?_map]
    cases xs[n]? <;> rfl

theorem pairwise_zipIdx (xs : List α) : xs.zipIdx.Pairwise fun p q => p.2 < q.2 := by
  have hpositions : (xs.zipIdx.map Prod.snd).Pairwise (· < ·) := by
    rw [List.zipIdx_map_snd]
    exact List.pairwise_lt_range'
  exact List.pairwise_map.mp hpositions

end Positions

namespace Expr
variable {edit : Expr → Except EditFault Expr}

theorem node?_natCast_cons {e o : Expr} {i : Nat} (h : e.operands[i]? = some o) (path : List Int) :
    e.node? ((i : Int) :: path) = o.node? path := by
  rw [node?, entryAt?_natCast, h]
  rfl

theorem node?_append (path more : List Int) (e : Expr) :
    e.node? (path ++ more) = (e.node? path).bind (node? more) := by
  induction path generalizing e with
  | nil => rfl
  | cons i path ih =>
    rw [List.cons_append, node?, node?]
    cases entryAt? i e.operands with
    | none => rfl
    | some entry => exact ih entry.2

theorem editAt_append (path more : List Int) (e : Expr) :
    e.editAt edit (path ++ more) = e.editAt (editAt edit more) path := by
  induction path generalizing e with
  | nil => rfl
  | cons i path ih =>
    rw [List.cons_append, editAt, editAt]
    cases entryAt? i e.operands with
    | none => rfl
    | some entry => simp only [ih]

theorem setOperand_natCast {e : Expr} {i : Nat} (h : i < e.operands.length) (new : Expr) :
    e.setOperand i new = .ok (e.withOperands (e.operands.set i new)) := by
  cases e with
  | symbol _ | terminal _ => cases h
  | series op es =>
    have hposition : position? i es.length = some i := position?_natCast h
    simp only [setOperand, hposition]
    rfl
  | diff l r =>
    match i, h with
    | 0, _ => rfl
    | 1, _ => rfl
  | repeated op o =>
    match i, h with
    | 0, _ => rfl

section References

/-- The places of references below a node have the position of an operand in front. -/
def visitPlaces (e : Expr) (operandPlaces : List (List (List Nat × Option String))) :
    List (List Nat × Option String) :=
  match e with
  | symbol name => [([], name)]
  | _ => operandPlaces.zipIdx.flatMap fun (places, i) => places.map fun (path, name) => (i :: path, name)

/-- The places of references, each with the name that stands there. -/
def referencePlaces (e : Expr) : List (List Nat × Option String) := e.fold visitPlaces

@[simp] theorem referencePlaces_symbol (name : Option String) :
    (symbol name).referencePlaces = [([], name)] := rfl

theorem referencePlaces_of_operands {e : Expr} (h : ∀ name, e ≠ symbol name) :
    e.referencePlaces = e.operands.zipIdx.flatMap fun (o, i) =>
      o.referencePlaces.map fun (path, name) => (i :: path, name) := by
  rw [referencePlaces, fold_eq]
  cases e with
  | symbol name => exact absurd rfl (h name)
  | terminal _ | series _ _ | diff _ _ | repeated _ _ =>
    simp only [visitPlaces, List.zipIdx_map, List.flatMap_map]
    rfl

theorem map_snd_referencePlaces (e : Expr) : e.referencePlaces.map Prod.snd = e.references := by
  induction e using operands_induction with
  | step e ih =>
    obtain ⟨name, rfl⟩ | hnode := e.eq_symbol_or_ne
    · simp
    · rw [referencePlaces_of_operands hnode, references_of_operands hnode, List.map_flatMap]
      conv_rhs => rw [← List.zipIdx_map_fst 0 e.operands, List.flatMap_map]
      refine List.flatMap_congr fun entry hentry => ?_
      rw [List.map_map]
      exact ih entry.1 (List.fst_mem_of_mem_zipIdx hentry)

theorem mem_referencePlaces_iff {e : Expr} {path : List Nat} {name : Option String} :
    (path, name) ∈ e.referencePlaces ↔ e.node? (path.map Int.ofNat) = .ok (symbol name) := by
  induction e using operands_induction generalizing path with
  | step e ih =>
    obtain ⟨name', rfl⟩ | hnode := e.eq_symbol_or_ne
    · cases path with
      | nil => simp [node?, eq_comm]
      | cons i path => simp [node?, operands, entryAt?, position?]
    · rw [referencePlaces_of_operands hnode]
      cases path with
      | nil => simp [node?, hnode]
      | cons i path =>
        have hmem : (i :: path, name) ∈ (e.operands.zipIdx.flatMap fun (o, i) =>
            o.referencePlaces.map fun (path, name) => (i :: path, name)) ↔
              ∃ o, e.operands[i]? = some o ∧ (path, name) ∈ o.referencePlaces := by
          simp [List.mem_zipIdx_iff_getElem?]
        rw [hmem, List.map_cons]
        cases ho : e.operands[i]? with
        | none => simp [node?, entryAt?_natCast, ho]
        | some o =>
          have hpath : e.node? (Int.ofNat i :: path.map Int.ofNat) = o.node? (path.map Int.ofNat) :=
            node?_natCast_cons ho _
          rw [hpath, ← ih o (List.mem_of_getElem? ho)]
          simp

/-- Operands of a node are apart in their positions, and what is below one of them by induction. -/
theorem pairwise_referencePlaces (e : Expr) : e.referencePlaces.Pairwise fun p q => p.1 < q.1 := by
  induction e using operands_induction with
  | step e ih =>
    obtain ⟨name, rfl⟩ | hnode := e.eq_symbol_or_ne
    · exact List.pairwise_singleton _ _
    · rw [referencePlaces_of_operands hnode, List.pairwise_flatMap]
      refine ⟨fun entry hentry => ?_, (pairwise_zipIdx e.operands).imp fun hlt p hp q hq => ?_⟩
      · rw [List.pairwise_map]
        refine (ih entry.1 (List.fst_mem_of_mem_zipIdx hentry)).imp fun h => ?_
        exact List.cons_lt_cons_iff.mpr (.inr ⟨rfl, h⟩)
      · obtain ⟨p, -, rfl⟩ := List.mem_map.mp hp
        obtain ⟨q, -, rfl⟩ := List.mem_map.mp hq
        exact List.cons_lt_cons_iff.mpr (.inl hlt)

end References

end Expr

/-- An expression with a hole at a path, filled with any node. -/
structure Context (path : List Int) (c : Expr → Expr) : Prop where
  node?_fill : ∀ e, (c e).node? path = .ok e
  editAt_fill : ∀ (edit : Expr → Except EditFault Expr) (e : Expr), (c e).editAt edit path = (edit e).map c

namespace Context
variable {path : List Int} {c : Expr → Expr}

theorem root : Context [] id where
  node?_fill _ := rfl
  editAt_fill edit e := by
    change edit e = (edit e).map id
    cases edit e <;> rfl

/-- The place of an operand of the node in the hole. -/
theorem operand (hc : Context path c) {n : Expr} {before after : List Expr}
    (h : n.operands.length = before.length + (after.length + 1)) :
    Context (path ++ [(before.length : Int)]) fun e => c (n.withOperands (before ++ e :: after)) where
  node?_fill e := by
    have hlength : (before ++ e :: after).length = n.operands.length := by simp [h]
    rw [Expr.node?_append, hc.node?_fill]
    refine Expr.node?_natCast_cons ?_ []
    rw [Expr.operands_withOperands hlength]
    simp
  editAt_fill edit e := by
    have hlength (e : Expr) : (before ++ e :: after).length = n.operands.length := by simp [h]
    have hentry : entryAt? before.length (n.withOperands (before ++ e :: after)).operands =
        some (before.length, e) := by
      rw [Expr.operands_withOperands (hlength e), entryAt?_natCast]
      simp
    rw [Expr.editAt_append, hc.editAt_fill]
    simp only [Expr.editAt, hentry]
    cases edit e with
    | error fault => rfl
    | ok new =>
      have hset : (before ++ e :: after).set before.length new = before ++ new :: after := by simp
      simp only [Except.map]
      rw [Expr.operands_withOperands (hlength e), hset,
        Expr.withOperands_withOperands (hlength e) (hlength new)]

end Context

end FlatGrammar
