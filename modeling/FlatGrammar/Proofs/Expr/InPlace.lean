import FlatGrammar.Proofs.Expr.Names
import FlatGrammar.Proofs.Expr.Places
import FlatGrammar.Rule.Basic
import Mathlib.Computability.StateTransition

/-! # Renaming in place

References can be renamed one by one, by edits of the operands of one node after another. The nodes to come are
kept by their places. Working off the node on top comes to renaming below it and leaves the rest of the
expression and of the places as they are, so the loop ends with all of the expression renamed.
-/
namespace FlatGrammar

open StateTransition

/-- An expression edited in place, and the places of nodes whose operands are still to be looked at, the next
one first. -/
structure Editing where
  expr : Expr
  pending : List (List Int)

namespace Editing
variable (old new : Option String)

/-- A reference of the old name is replaced, and a node is put off. -/
def lookAt (path : List Int) (s : Editing) : Expr × Nat → Except EditFault Editing
  | (.symbol name, i) =>
    if name = old then
      (s.expr.editAt (·.setOperand i (.symbol new)) path).map fun e => { s with expr := e }
    else .ok s
  | (_, i) => .ok { s with pending := (path ++ [(i : Int)]) :: s.pending }

/-- The operands are those that the node has when it is its turn, with their positions. -/
def visit (path : List Int) (s : Editing) : Except EditFault Editing := do
  let node ← s.expr.node? path
  node.operands.zipIdx.foldlM (lookAt old new path) s

/-- A round of the loop, which ends when no place is left or an edit cannot be made. -/
def step : Except EditFault Editing → Option (Except EditFault Editing)
  | .ok ⟨_, []⟩ => none
  | .ok ⟨e, path :: pending⟩ => some (visit old new path ⟨e, pending⟩)
  | .error _ => none

/-- An expression that is a reference has no node to look at. -/
def start : Expr → Editing
  | .symbol name => ⟨.symbol (if name = old then new else name), []⟩
  | e => ⟨e, [[]]⟩

end Editing

namespace Expr
variable (old new : Option String)

/-- An operand behind a round: only a reference is renamed. -/
def renameReference : Expr → Expr
  | symbol name => symbol (if name = old then new else name)
  | e => e

/-- The places on top of which a round puts those of the nodes among the operands, which stand from the position
`i` on. -/
def pushNodes (path : List Int) : (i : Nat) → List Expr → List (List Int) → List (List Int)
  | _, [], pending => pending
  | i, symbol _ :: es, pending => pushNodes path (i + 1) es pending
  | i, _ :: es, pending => pushNodes path (i + 1) es ((path ++ [(i : Int)]) :: pending)

theorem rename_eq_withOperands {e : Expr} (h : ∀ name, e ≠ symbol name) :
    e.rename old new = e.withOperands (e.operands.map (rename old new)) := by
  cases e with
  | symbol name => exact absurd rfl (h name)
  | terminal t => rfl
  | series op es => rw [rename, renameList_eq_map]; rfl
  | diff l r => rfl
  | repeated op o => rfl

end Expr

namespace Editing
variable {old new : Option String} {path : List Int} {c : Expr → Expr} {n : Expr}

theorem lookAt_symbol (hc : Context path c) (before after : List Expr) (name : Option String)
    (pending : List (List Int)) (h : n.operands.length = before.length + (after.length + 1)) :
    lookAt old new path ⟨c (n.withOperands (before ++ .symbol name :: after)), pending⟩
        (.symbol name, before.length) =
      .ok ⟨c (n.withOperands (before ++ .symbol (if name = old then new else name) :: after)), pending⟩ := by
  by_cases hname : name = old
  · have hlength (e : Expr) : (before ++ e :: after).length = n.operands.length := by simp [h]
    have hset : (n.withOperands (before ++ .symbol name :: after)).setOperand before.length (.symbol new) =
        .ok (n.withOperands (before ++ .symbol new :: after)) := by
      have hoperands := Expr.operands_withOperands (hlength (.symbol name))
      rw [Expr.setOperand_natCast (by rw [hoperands]; simp), hoperands,
        Expr.withOperands_withOperands (hlength _) (by simp [h])]
      simp
    simp only [lookAt, hname, if_true]
    rw [← hname, hc.editAt_fill, hset]
    rfl
  · simp only [lookAt, hname, if_false]

/-- Operands that have been looked at, whatever they are now, do not matter for those that follow. -/
theorem foldlM_lookAt (hc : Context path c) (before after : List Expr) (pending : List (List Int))
    (h : n.operands.length = before.length + after.length) :
    (after.zipIdx before.length).foldlM (lookAt old new path)
        ⟨c (n.withOperands (before ++ after)), pending⟩ =
      .ok ⟨c (n.withOperands (before ++ after.map (Expr.renameReference old new))),
        Expr.pushNodes path before.length after pending⟩ := by
  induction after generalizing before pending with
  | nil => rfl
  | cons e es ih =>
    rw [List.length_cons] at h
    rw [List.zipIdx_cons, List.foldlM_cons]
    have hnext (f : Expr) (pending : List (List Int)) :=
      ih (before ++ [f]) pending (by rw [List.length_append, List.length_singleton]; omega)
    simp only [List.append_assoc, List.length_append, List.length_singleton, List.singleton_append] at hnext
    cases e with
    | symbol name =>
      rw [lookAt_symbol hc before es name pending h]
      exact hnext _ _
    | terminal t => exact hnext _ _
    | series op fs => exact hnext _ _
    | diff l r => exact hnext _ _
    | repeated op o => exact hnext _ _

/-- A round renames the operands of the node on top that are references. -/
theorem step_node (hc : Context path c) (n : Expr) (pending : List (List Int)) :
    step old new (.ok ⟨c n, path :: pending⟩) =
      some (.ok ⟨c (n.withOperands (n.operands.map (Expr.renameReference old new))),
        Expr.pushNodes path 0 n.operands pending⟩) := by
  have hfold := @foldlM_lookAt old new path c n hc [] n.operands pending (by simp)
  rw [List.nil_append, Expr.withOperands_operands] at hfold
  rw [step, visit, hc.node?_fill]
  exact congrArg some hfold

/-- Working off a place comes to renaming the node there. -/
def WorksOff (old new : Option String) (e : Expr) : Prop :=
  ∀ {path : List Int} {c : Expr → Expr}, Context path c → ∀ pending : List (List Int),
    Reaches (step old new) (.ok ⟨c e, path :: pending⟩) (.ok ⟨c (e.rename old new), pending⟩)

/-- The nodes that a round has put off are worked off from the last one on. -/
theorem reaches_operands (hc : Context path c) (before after : List Expr) (pending : List (List Int))
    (h : n.operands.length = before.length + after.length)
    (hoperands : ∀ e ∈ after, (∀ name, e ≠ .symbol name) → WorksOff old new e) :
    Reaches (step old new)
      (.ok ⟨c (n.withOperands (before ++ after.map (Expr.renameReference old new))),
        Expr.pushNodes path before.length after pending⟩)
      (.ok ⟨c (n.withOperands (before ++ after.map (Expr.rename old new))), pending⟩) := by
  induction after generalizing before pending with
  | nil => exact .refl
  | cons e es ih =>
    rw [List.length_cons] at h
    obtain ⟨he, hes⟩ := List.forall_mem_cons.mp hoperands
    have hnext (f : Expr) (pending : List (List Int)) := ih (before ++ [f]) pending
      (by rw [List.length_append, List.length_singleton]; omega) hes
    simp only [List.append_assoc, List.length_append, List.length_singleton, List.singleton_append] at hnext
    -- Later operands lie above this one, which is worked off when they are.
    have hnode (hreference : ∀ name, e ≠ .symbol name) : Reaches (step old new)
        (.ok ⟨c (n.withOperands (before ++ e :: es.map (Expr.renameReference old new))),
          Expr.pushNodes path (before.length + 1) es ((path ++ [(before.length : Int)]) :: pending)⟩)
        (.ok ⟨c (n.withOperands (before ++ e.rename old new :: es.map (Expr.rename old new))), pending⟩) :=
      (hnext e _).trans (he hreference (hc.operand (by rw [List.length_map, h])) pending)
    cases e with
    | symbol name => exact hnext _ _
    | terminal t => exact hnode (by simp)
    | series op fs => exact hnode (by simp)
    | diff l r => exact hnode (by simp)
    | repeated op o => exact hnode (by simp)

theorem worksOff {e : Expr} (h : ∀ name, e ≠ .symbol name) : WorksOff old new e := by
  induction e using Expr.operands_induction with
  | step e ih =>
    intro path c hc pending
    have hrest := reaches_operands (n := e) hc [] e.operands pending (by simp) ih
    rw [List.nil_append, List.nil_append, ← Expr.rename_eq_withOperands old new h] at hrest
    exact .head (step_node hc e pending) hrest

/-- The loop ends, and no edit fails. -/
theorem eval_step (old new : Option String) (e : Expr) :
    eval (step old new) (.ok (start old new e)) = Part.some (.ok ⟨e.rename old new, []⟩) := by
  have hreaches : Reaches (step old new) (.ok (start old new e)) (.ok ⟨e.rename old new, []⟩) := by
    cases e with
    | symbol name => exact .refl
    | terminal _ | series _ _ | diff _ _ | repeated _ _ => exact worksOff (by simp) .root []
  exact Part.eq_some_iff.mpr (mem_eval.mpr ⟨hreaches, rfl⟩)

end Editing

/-- The same nodes in the same places, except that references of the old name have the new one. -/
def Expr.RenamedAs (old new : Option String) (e f : Expr) : Prop :=
  ∀ path, match e.node? path with
    | .error fault => f.node? path = .error fault
    | .ok (.symbol name) => f.node? path = .ok (.symbol (if name = old then new else name))
    | .ok n => ∃ es, es.length = n.operands.length ∧ f.node? path = .ok (n.withOperands es)

namespace Expr
variable {old new : Option String}

theorem operands_rename (old new : Option String) (e : Expr) :
    (e.rename old new).operands = e.operands.map (rename old new) := by
  cases e with
  | symbol _ | terminal _ | diff _ _ | repeated _ _ => rfl
  | series op es => exact renameList_eq_map old new es

theorem node?_rename (path : List Int) (e : Expr) :
    (e.rename old new).node? path = (e.node? path).map (rename old new) := by
  induction path generalizing e with
  | nil => rfl
  | cons i path ih =>
    rw [node?, node?, operands_rename, entryAt?_map]
    cases entryAt? i e.operands with
    | none => rfl
    | some entry => exact ih entry.2

theorem renamedAs_rename (e : Expr) : RenamedAs old new e (e.rename old new) := by
  intro path
  rw [node?_rename]
  cases h : e.node? path with
  | error fault => rfl
  | ok n =>
    cases n with
    | symbol name => rfl
    | terminal _ | series _ _ | diff _ _ | repeated _ _ =>
      refine ⟨_, List.length_map (rename old new), ?_⟩
      exact congrArg Except.ok (rename_eq_withOperands old new (by simp))

theorem RenamedAs.exists_operands {e f n : Expr} (h : RenamedAs old new e f) {path : List Int}
    (hn : e.node? path = .ok n) (hname : ∀ name, n ≠ symbol name) :
    ∃ es, es.length = n.operands.length ∧ f.node? path = .ok (n.withOperands es) := by
  have hpath := h path
  rw [hn] at hpath
  cases n with
  | symbol name => exact absurd rfl (hname name)
  | terminal _ | series _ _ | diff _ _ | repeated _ _ => exact hpath

theorem RenamedAs.operand {e f d o : Expr} {i : Nat} (h : RenamedAs old new e f)
    (hd : e.operands[i]? = some d) (ho : f.operands[i]? = some o) : RenamedAs old new d o := by
  intro path
  have hpath := h ((i : Int) :: path)
  rw [node?_natCast_cons hd, node?_natCast_cons ho] at hpath
  exact hpath

theorem RenamedAs.eq {e f : Expr} (h : RenamedAs old new e f) : f = e.rename old new := by
  induction e using operands_induction generalizing f with
  | step e ih =>
    obtain ⟨name, rfl⟩ | hnode := e.eq_symbol_or_ne
    · exact Except.ok.inj (h [])
    · obtain ⟨es, hlength, hf⟩ := h.exists_operands (rfl : e.node? [] = .ok e) hnode
      obtain rfl : f = e.withOperands es := Except.ok.inj hf
      have hes : es = e.operands.map (rename old new) := by
        refine List.ext_getElem (by rw [hlength, List.length_map]) fun i hi hi' => ?_
        rw [List.getElem_map]
        have hi : i < e.operands.length := hlength ▸ hi
        refine ih _ (List.getElem_mem hi) (h.operand (List.getElem?_eq_getElem hi) ?_)
        rw [operands_withOperands hlength]
        exact List.getElem?_eq_getElem _
      rw [hes, rename_eq_withOperands old new hnode]

end Expr

/-- The loop that renames the references of a rule in place ends, with no edit refused, and what it leaves of the
expression is the one with the same nodes in the same places except for the references of the old name. The
references are those from before in the same order, and nothing else of the rule changes. -/
theorem rename_inPlace (old new : Option String) (r : Rule) :
    eval (Editing.step old new) (.ok (Editing.start old new r.expr)) =
        Part.some (.ok ⟨(r.rename old new).expr, []⟩) ∧
      (∀ f, Expr.RenamedAs old new r.expr f ↔ f = (r.rename old new).expr) ∧
      (r.rename old new).references =
        r.references.map (fun name => if name = old then new else name) ∧
      r.rename old new = { r with expr := (r.rename old new).expr } := by
  refine ⟨Editing.eval_step old new r.expr, fun f => ⟨fun h => h.eq, ?_⟩, ?_, rfl⟩
  · rintro rfl
    exact Expr.renamedAs_rename r.expr
  · have hnames := Expr.references_mapNames (fun name => if name = old then new else name) r.expr
    rw [← Expr.rename_eq_mapNames] at hnames
    exact hnames

end FlatGrammar
