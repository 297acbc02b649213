import FlatGrammar.Expr.Edit
import FlatGrammar.Expr.Outline
import Mathlib.Data.List.Basic

/-! # Expressions from the leaves up

A walk with frames is a plain fold over the tree, and the references of an expression are those of
its operands in order. Induction goes by operands, so the operators need no cases of their own.
-/
namespace FlatGrammar

namespace Expr

/-- Whatever holds of an expression as soon as it holds of its operands holds of all expressions. -/
theorem operands_induction {P : Expr → Prop} (step : ∀ e : Expr, (∀ o ∈ e.operands, P o) → P e)
    (e : Expr) : P e := by
  induction h : e.size using Nat.strongRecOn generalizing e with
  | _ n ih =>
    apply step
    intro o ho
    apply ih o.size _ o rfl
    have hsum : o.size ≤ sizeList e.operands := by
      generalize e.operands = es at ho
      induction es with
      | nil => simp at ho
      | cons f fs ihf =>
        rcases List.mem_cons.mp ho with rfl | ho
        · simp [sizeList]
        · have := ihf ho
          simp only [sizeList]
          omega
    have := size_eq e
    omega

theorem eq_symbol_or_ne (e : Expr) : (∃ name, e = symbol name) ∨ ∀ name, e ≠ symbol name := by
  cases e with
  | symbol name => exact .inl ⟨name, rfl⟩
  | terminal _ | series _ _ | diff _ _ | repeated _ _ => exact .inr nofun

end Expr

/-- What a node is, whatever it has inside. -/
inductive NodeKind where
  | symbol
  | literal
  | charClass
  | hexRef
  | series (op : Series)
  | diff
  | repeated (op : Repetition)
  deriving DecidableEq

namespace NodeKind

def all : List NodeKind :=
  [symbol, literal, charClass, hexRef, series .seq, series .alt, diff, repeated .opt, repeated .star,
    repeated .plus]

theorem mem_all (k : NodeKind) : k ∈ all := by
  cases k with
  | symbol | literal | charClass | hexRef | diff => decide
  | series op => cases op <;> decide
  | repeated op => cases op <;> decide

end NodeKind

namespace Expr

def nodeKind : Expr → NodeKind
  | symbol _ => .symbol
  | terminal (.literal _) => .literal
  | terminal (.charClass _) => .charClass
  | terminal (.hexRef _) => .hexRef
  | series op _ => .series op
  | diff _ _ => .diff
  | repeated op _ => .repeated op

/-- Nodes of the same kind. -/
inductive SameKind : Expr → Expr → Prop
  | symbol (name name' : Option String) : SameKind (symbol name) (symbol name')
  | literal (text text' : String) : SameKind (terminal (.literal text)) (terminal (.literal text'))
  | charClass (spec spec' : String) : SameKind (terminal (.charClass spec)) (terminal (.charClass spec'))
  | hexRef (spec spec' : String) : SameKind (terminal (.hexRef spec)) (terminal (.hexRef spec'))
  | series (op : Series) (es fs : List Expr) : SameKind (series op es) (series op fs)
  | diff (l r l' r' : Expr) : SameKind (diff l r) (diff l' r')
  | repeated (op : Repetition) (o o' : Expr) : SameKind (repeated op o) (repeated op o')

theorem sameKind_of_nodeKind_eq {e f : Expr} (h : e.nodeKind = f.nodeKind) : e.SameKind f := by
  rcases e with _ | (_ | _ | _) | _ | _ | _
  all_goals
    rcases f with _ | (_ | _ | _) | _ | _ | _
    all_goals cases h
    constructor

section Fold
variable {α : Type} (visit : Expr → List α → α)

mutual

/-- The visitor applied by recursion, each node behind its operands. -/
def fold : Expr → α
  | symbol name => visit (symbol name) []
  | terminal t => visit (terminal t) []
  | series op es => visit (series op es) (foldList es)
  | diff l r => visit (diff l r) [fold l, fold r]
  | repeated op e => visit (repeated op e) [fold e]

def foldList : List Expr → List α
  | [] => []
  | e :: es => fold e :: foldList es

end

theorem foldList_eq_map (es : List Expr) : foldList visit es = es.map (fold visit) := by
  induction es with
  | nil => rfl
  | cons e es ih => simp [foldList, ih]

theorem fold_eq (e : Expr) : e.fold visit = visit e (e.operands.map (fold visit)) := by
  cases e <;> simp [fold, operands, foldList_eq_map]

/-- A node that adds nothing of its own has the values of its operands, one after the other. -/
theorem fold_eq_flatMap {β : Type} {visit : Expr → List (List β) → List β} {e : Expr}
    (h : ∀ values, visit e values = values.flatten) :
    e.fold visit = e.operands.flatMap (fold visit) := by
  rw [fold_eq, h, List.flatMap_def]

/-- The frames below take the result of the one above them, each after what it has done. -/
def unwind (r : α) : List (Frame α) → α
  | [] => r
  | f :: fs => unwind (visit f.node (f.done.reverse ++ r :: f.pending.map (fold visit))) fs

theorem walkFrom_eq_unwind (top : Frame α) (below : List (Frame α)) :
    walkFrom visit top below =
      unwind visit (visit top.node (top.done.reverse ++ top.pending.map (fold visit))) below := by
  fun_induction walkFrom visit top below with
  | case1 top below e rest h ih =>
    rw [ih, h]
    simp [unwind, Frame.start, fold_eq visit e]
  | case2 top h => simp [unwind, Frame.result, h]
  | case3 top h f fs ih =>
    rw [ih]
    simp [unwind, Frame.result, Frame.receive, h]

/-- The walk with frames is the fold. -/
theorem walk_eq_fold (e : Expr) : e.walk visit = e.fold visit := by
  rw [walk, walkFrom_eq_unwind, fold_eq]
  simp [unwind, Frame.start]

end Fold

section References

@[simp] theorem references_symbol (name : Option String) : (symbol name).references = [name] := by
  simp [references, walk_eq_fold, fold, visitNames]

theorem references_of_operands {e : Expr} (h : ∀ name, e ≠ symbol name) :
    e.references = e.operands.flatMap references := by
  have hwalk : references = fold visitNames := funext fun e => walk_eq_fold visitNames e
  rw [hwalk]
  refine fold_eq_flatMap fun values => ?_
  cases e with
  | symbol name => exact absurd rfl (h name)
  | terminal _ | series _ _ | diff _ _ | repeated _ _ => rfl

@[simp] theorem references_terminal (t : Terminal) : (terminal t).references = [] := by
  rw [references_of_operands (by simp)]
  rfl

@[simp] theorem references_series (op : Series) (es : List Expr) :
    (series op es).references = es.flatMap references := by
  rw [references_of_operands (by simp)]
  rfl

@[simp] theorem references_diff (l r : Expr) :
    (diff l r).references = l.references ++ r.references := by
  rw [references_of_operands (by simp)]
  simp [operands]

@[simp] theorem references_repeated (op : Repetition) (e : Expr) :
    (repeated op e).references = e.references := by
  rw [references_of_operands (by simp)]
  simp [operands]

theorem mem_references_of_operand {e o : Expr} (ho : o ∈ e.operands) {name : Option String}
    (h : name ∈ o.references) : name ∈ e.references := by
  rw [references_of_operands (by rintro name rfl; simp [operands] at ho)]
  exact List.mem_flatMap.mpr ⟨o, ho, h⟩

end References

section Operands
variable {e : Expr} {es fs : List Expr}

@[simp] theorem withOperands_operands (e : Expr) : e.withOperands e.operands = e := by
  cases e <;> rfl

theorem isComposite_withOperands (e : Expr) (es : List Expr) :
    (e.withOperands es).isComposite = e.isComposite := by
  unfold withOperands
  split <;> rfl

theorem operands_withOperands (h : es.length = e.operands.length) :
    (e.withOperands es).operands = es := by
  cases e with
  | symbol _ | terminal _ => exact (List.length_eq_zero_iff.mp h).symm
  | series op _ => rfl
  | diff l r => obtain ⟨a, b, rfl⟩ := List.length_eq_two.mp h; rfl
  | repeated op o => obtain ⟨a, rfl⟩ := List.length_eq_one_iff.mp h; rfl

theorem withOperands_withOperands (hes : es.length = e.operands.length)
    (hfs : fs.length = e.operands.length) :
    (e.withOperands es).withOperands fs = e.withOperands fs := by
  cases e with
  | symbol _ | terminal _ => rfl
  | series op _ => rfl
  | diff l r =>
    obtain ⟨a, b, rfl⟩ := List.length_eq_two.mp hes
    obtain ⟨c, d, rfl⟩ := List.length_eq_two.mp hfs
    rfl
  | repeated op o =>
    obtain ⟨a, rfl⟩ := List.length_eq_one_iff.mp hes
    obtain ⟨b, rfl⟩ := List.length_eq_one_iff.mp hfs
    rfl

theorem mem_references_withOperands {name : Option String}
    (h : name ∈ (e.withOperands es).references) :
    name ∈ e.references ∨ ∃ o ∈ es, name ∈ o.references := by
  unfold withOperands at h
  split at h
  case h_1 op fs gs => exact .inr (by simpa using h)
  case h_2 l r a b => exact .inr (by simpa using h)
  case h_3 op o a => exact .inr (by simpa using h)
  case h_4 => exact .inl h

end Operands

end Expr

theorem outline_eq (e : Expr) : e.outline = e.visitOutline (e.operands.map Expr.outline) := by
  have hfold : Expr.outline = Expr.fold Expr.visitOutline :=
    funext fun e => Expr.walk_eq_fold Expr.visitOutline e
  rw [hfold]
  exact Expr.fold_eq Expr.visitOutline e

end FlatGrammar
