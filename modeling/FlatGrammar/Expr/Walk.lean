import FlatGrammar.Expr.Basic

/-! # Walks over expressions

A walk visits a tree from the leaves up and hands each node the results of its operands in order.
It keeps the nodes that are part way through in a list of frames, so the depth of a tree costs no
call depth.
-/
namespace FlatGrammar

/-- A node whose operands are being visited: those still to come, and the results so far with the
latest first. -/
structure Frame (α : Type) where
  node : Expr
  pending : List Expr
  done : List α

namespace Frame

def start {α : Type} (node : Expr) : Frame α := ⟨node, node.operands, []⟩

def result {α : Type} (visit : Expr → List α → α) (f : Frame α) : α := visit f.node f.done.reverse

def receive {α : Type} (f : Frame α) (r : α) : Frame α := { f with done := r :: f.done }

/-- The steps a frame still takes, its own end included. -/
def work {α : Type} (f : Frame α) : Nat := 1 + 2 * Expr.sizeList f.pending

def totalWork {α : Type} : List (Frame α) → Nat
  | [] => 0
  | f :: fs => f.work + totalWork fs

end Frame

namespace Expr

def walkFrom {α : Type} (visit : Expr → List α → α) (top : Frame α) (below : List (Frame α)) : α :=
  match _h : top.pending with
  | e :: rest => walkFrom visit (.start e) ({ top with pending := rest } :: below)
  | [] =>
    match below with
    | [] => top.result visit
    | f :: fs => walkFrom visit (f.receive (top.result visit)) fs
termination_by top.work + Frame.totalWork below
decreasing_by
  · simp only [Frame.work, Frame.totalWork, Frame.start, _h, sizeList]
    have := size_eq e
    omega
  · simp only [Frame.work, Frame.totalWork, Frame.receive, _h, sizeList]
    omega

def walk {α : Type} (visit : Expr → List α → α) (e : Expr) : α := walkFrom visit (.start e) []

def visitNames (e : Expr) (names : List (List (Option String))) : List (Option String) :=
  match e with
  | symbol name => names.flatten ++ [name]
  | _ => names.flatten

def references (e : Expr) : List (Option String) := e.walk visitNames

end Expr

end FlatGrammar
