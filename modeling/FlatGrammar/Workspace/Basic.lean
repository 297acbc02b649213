import FlatGrammar.Grammar.Merge

/-! # Workspaces

A workspace holds rules in numbered cells and documents that list cells. Documents may share cells,
so a rule edited in one of them changes in all. Cells are only ever added.
-/
namespace FlatGrammar

structure Document where
  file : Option String
  cells : List Nat
  deriving DecidableEq, Repr

structure Workspace where
  rules : List Rule := []
  documents : List Document := []

/-- Why a request cannot be met. The workspace is then left as it is. -/
inductive Refusal where
  | fault (fault : Fault)
  | edit (fault : EditFault)
  | breakdown (breakdown : Breakdown)

namespace Workspace

def keyedRules (w : Workspace) (cells : List Nat) : List Keyed :=
  cells.filterMap fun cell => w.rules[cell]?.map fun r => ⟨cell, r⟩

def rulesOf (w : Workspace) (d : Document) : List Rule := (w.keyedRules d.cells).map Keyed.rule

def grammarOf (w : Workspace) (d : Document) : Grammar := ⟨w.rulesOf d, d.file⟩

def document (w : Workspace) (i : Int) : Except Refusal (Nat × Document) :=
  match entryAt? i w.documents with
  | some found => .ok found
  | none => .error (.edit (.ofPosition i .noEntry))

def keyedRule (w : Workspace) (d : Document) (i : Int) : Except Refusal Keyed :=
  match entryAt? i (w.keyedRules d.cells) with
  | some (_, k) => .ok k
  | none => .error (.edit (.ofPosition i .noEntry))

def setRule (w : Workspace) (k : Keyed) : Workspace := { w with rules := w.rules.set k.key k.rule }

def setRules (w : Workspace) (ks : List Keyed) : Workspace := ks.foldl setRule w

def setCells (w : Workspace) (n : Nat) (d : Document) (cells : List Nat) : Workspace :=
  { w with documents := w.documents.set n { d with cells } }

def addRules (w : Workspace) (rules : List Rule) : Workspace × List Nat :=
  ({ w with rules := w.rules ++ rules }, List.range' w.rules.length rules.length)

def addDocument (w : Workspace) (d : Document) : Workspace :=
  { w with documents := w.documents ++ [d] }

def addGrammar (w : Workspace) (g : Grammar) : Workspace :=
  let (w, cells) := w.addRules g.rules
  w.addDocument ⟨g.file, cells⟩

end Workspace

end FlatGrammar
