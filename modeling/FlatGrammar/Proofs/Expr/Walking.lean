import FlatGrammar.Proofs.Expr.Places
import Mathlib.Computability.StateTransition

/-! # Walks round by round

The walk over an expression as a loop: a round starts the next operand of the topmost frame, or ends the frame
and hands its result to the one below. Starting a node comes to handing over what the fold makes of it, so the
loop ends with the fold of the root. Outlines and references are such folds: no two expressions have the same
outline, and the references stand in the order of their places.
-/
namespace FlatGrammar

open StateTransition

namespace Frame
variable {α : Type}

/-- The frame on top takes a result. -/
def handOver (r : α) : List (Frame α) → List (Frame α)
  | [] => []
  | f :: fs => f.receive r :: fs

/-- A round of the walk, with the frames from the top and the latest result. -/
def step (visit : Expr → List α → α) :
    List (Frame α) × Option α → Option (List (Frame α) × Option α)
  | ([], _) => none
  | (top :: below, latest) =>
    match top.pending with
    | e :: rest => some (.start e :: { top with pending := rest } :: below, latest)
    | [] => some (handOver (top.result visit) below, some (top.result visit))

variable {visit : Expr → List α → α}

theorem reaches_pending {n : Expr} {es : List Expr} (done : List α) (below : List (Frame α))
    (latest : Option α)
    (hes : ∀ e ∈ es, ∀ (below : List (Frame α)) (latest : Option α), Reaches (step visit)
      (.start e :: below, latest) (handOver (e.fold visit) below, some (e.fold visit))) :
    ∃ latest', Reaches (step visit) (⟨n, es, done⟩ :: below, latest)
      (⟨n, [], (es.map (Expr.fold visit)).reverse ++ done⟩ :: below, latest') := by
  induction es generalizing done latest with
  | nil => exact ⟨latest, .refl⟩
  | cons e es ih =>
    obtain ⟨he, hes⟩ := List.forall_mem_cons.mp hes
    obtain ⟨latest', hrest⟩ := ih (e.fold visit :: done) (some (e.fold visit)) hes
    refine ⟨latest', .head (b := (.start e :: ⟨n, es, done⟩ :: below, latest)) rfl ?_⟩
    rw [List.map_cons, List.reverse_cons, List.append_assoc]
    exact (he _ latest).trans hrest

/-- A node that is started is worked off, and its value is handed over. -/
theorem reaches_start (e : Expr) (below : List (Frame α)) (latest : Option α) :
    Reaches (step visit) (.start e :: below, latest)
      (handOver (e.fold visit) below, some (e.fold visit)) := by
  induction e using Expr.operands_induction generalizing below latest with
  | step e ih =>
    obtain ⟨latest', hpending⟩ := reaches_pending (n := e) [] below latest ih
    have hresult : (⟨e, [], (e.operands.map (Expr.fold visit)).reverse ++ []⟩ : Frame α).result visit =
        e.fold visit := by
      rw [Expr.fold_eq, result, List.append_nil, List.reverse_reverse]
    refine .tail hpending ?_
    rw [← hresult]
    rfl

theorem eval_step (visit : Expr → List α → α) (e : Expr) :
    eval (step visit) ([.start e], none) = Part.some ([], some (e.fold visit)) :=
  Part.eq_some_iff.mpr (mem_eval.mpr ⟨reaches_start e [] none, rfl⟩)

end Frame

/-- The text in front of a tuple. -/
def Outline.tag? : Outline → Option String
  | tuple (text tag :: _) => some tag
  | _ => none

namespace NodeKind

/-- The tag of a node, which a reference does not have. -/
def tag? : NodeKind → Option String
  | symbol => none
  | literal => some "'"
  | charClass => some "range"
  | hexRef => some "hex"
  | series op => some op.tag
  | diff => some "diff"
  | repeated op => some op.tag

theorem tag?_injective : Function.Injective tag? := by
  have hall : ∀ a ∈ all, ∀ b ∈ all, a.tag? = b.tag? → a = b := by decide
  exact fun a b h => hall a a.mem_all b b.mem_all h

end NodeKind

namespace Expr

theorem tag?_visitOutline (e : Expr) (parts : List Outline) :
    (e.visitOutline parts).tag? = e.nodeKind.tag? := by
  cases e with
  | symbol name => cases name <;> rfl
  | terminal t =>
    cases t with
    | literal _ | charClass _ | hexRef _ => rfl
  | series _ _ | diff _ _ | repeated _ _ => rfl

/-- Nodes of one outline have the outlines of their operands in common, and are the same but for the operands.
Their tags tell different kinds of nodes apart. -/
theorem visitOutline_inj {a b : Expr} {ps qs : List Outline} (hps : ps.length = a.operands.length)
    (hqs : qs.length = b.operands.length) (h : a.visitOutline ps = b.visitOutline qs) :
    ps = qs ∧ a.withOperands b.operands = b := by
  have hkind : a.nodeKind = b.nodeKind :=
    NodeKind.tag?_injective (by rw [← tag?_visitOutline a ps, h, tag?_visitOutline])
  cases sameKind_of_nodeKind_eq hkind with
  | symbol name name' => cases name <;> cases name' <;> simp_all [visitOutline, operands, withOperands]
  | literal | charClass | hexRef =>
    simp_all [visitOutline, operands, withOperands, Terminal.tag, Terminal.text]
  | series | diff | repeated => exact ⟨(List.cons.inj (Outline.tuple.inj h)).2, rfl⟩

theorem outline_injective : Function.Injective outline := by
  intro a b h
  induction a using operands_induction generalizing b with
  | step a ih =>
    rw [outline_eq, outline_eq b] at h
    obtain ⟨hparts, hnode⟩ := visitOutline_inj (List.length_map _) (List.length_map _) h
    have hoperands : a.operands = b.operands := by
      have hlength : a.operands.length = b.operands.length := by
        simpa using congrArg List.length hparts
      refine List.ext_getElem hlength fun i hi hi' => ?_
      refine ih _ (List.getElem_mem hi) ?_
      have hpart := List.getElem_of_eq hparts (by rwa [List.length_map])
      rwa [List.getElem_map, List.getElem_map] at hpart
    rw [← hnode, ← hoperands, withOperands_operands]

end Expr

/-- The loop of the walk ends on every expression, whatever is visited, with the value of its root: each node is
visited with the values of its operands in their order. Hence outlines encode the structure, no two
expressions having the same one, and the references of an expression are the names at all the places of
references, in the order of the places from left to right. -/
theorem walk_rounds :
    (∀ {α : Type} (visit : Expr → List α → α) (e : Expr),
      eval (Frame.step visit) ([.start e], none) = Part.some ([], some (e.walk visit)) ∧
        e.walk visit = e.fold visit ∧ e.fold visit = visit e (e.operands.map (Expr.fold visit))) ∧
      (∀ e : Expr, e.outline = e.visitOutline (e.operands.map Expr.outline)) ∧
      Function.Injective Expr.outline ∧
      ∀ e : Expr, ∃ places : List (List Nat × Option String),
        places.map Prod.snd = e.references ∧ places.Pairwise (fun p q => p.1 < q.1) ∧
          ∀ path name, (path, name) ∈ places ↔ e.node? (path.map Int.ofNat) = .ok (.symbol name) := by
  refine ⟨fun visit e => ⟨?_, Expr.walk_eq_fold visit e, Expr.fold_eq visit e⟩, outline_eq,
    Expr.outline_injective, fun e => ⟨e.referencePlaces, e.map_snd_referencePlaces,
      e.pairwise_referencePlaces, fun _ _ => Expr.mem_referencePlaces_iff⟩⟩
  rw [Expr.walk_eq_fold]
  exact Frame.eval_step visit e

end FlatGrammar
