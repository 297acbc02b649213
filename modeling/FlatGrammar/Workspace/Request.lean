import FlatGrammar.Dump.Listing
import FlatGrammar.Dump.Turtle
import FlatGrammar.Grammar.Load
import FlatGrammar.Workspace.Basic

/-! # Requests to a workspace

What can be asked of a document and of the rules in it. `Workspace.perform` answers one request and
gives the workspace behind it; documents and rules are named by positions, which may count from the
end.
-/
namespace FlatGrammar

inductive RuleRequest where
  | show
  | texts
  | references
  | rename (old new : Option String)
  | operands (path : List Int)
  | setOperand (path : List Int) (operand : Int) (new : Expr)
  | flatten (reserved : List String)
  | appendCopy

inductive DocumentRequest where
  | flat
  | flattenAll
  | recheck
  | rules
  | length
  | symbols
  | find (symbol : Option String)
  | findById (id : String)
  | renameAll (old new : Option String)
  | append (rule : Rule)
  | remove (position : Int)
  | duplicates
  | merge
  | sort
  | compare (a b : Int)
  | sexpr
  | turtle (prefixName namespaceUri : String)
  | listing (colors : Bool)
  | rule (position : Int) (request : RuleRequest)

inductive Request where
  | load (text : String) (file : Option String)
  | create (rules : List Rule) (file : Option String)
  | compareDocuments (a b : Int)
  | document (position : Int) (request : DocumentRequest)

inductive Answer where
  | rules (rules : List Rule)
  | rule (rule : Rule)
  | fullRules (rules : List Rule)
  | fullRule (rule : Option Rule)
  | count (n : Nat)
  | names (names : List String)
  | references (names : List (Option String))
  | operands (operands : List Expr)
  | pairs (pairs : List (Rule × Rule))
  | merged (rules : List Rule) (trace : List String)
  | comparison (agrees sameExpr precedes : Bool)
  | verdict (verdict : Bool)
  | text (text : String)

namespace Workspace

def ofEdit {α : Type} : Except EditFault α → Except Refusal α
  | .ok a => .ok a
  | .error fault => .error (.edit fault)

def ofFault {α : Type} : Except Fault α → Except Refusal α
  | .ok a => .ok a
  | .error fault => .error (.fault fault)

def ofBreakdown {α : Type} : Except Breakdown α → Except Refusal α
  | .ok a => .ok a
  | .error breakdown => .error (.breakdown breakdown)

def ofFlat {α : Type} : Except FlatFailure α → Except Refusal α
  | .ok a => .ok a
  | .error (.fault fault) => .error (.fault fault)
  | .error (.breakdown breakdown) => .error (.breakdown breakdown)

def adding (w : Workspace) (g : Grammar) : Answer × Workspace := (.rules g.rules, w.addGrammar g)

def performRule (w : Workspace) (n : Nat) (d : Document) (k : Keyed) :
    RuleRequest → Except Refusal (Answer × Workspace)
  | .show => return (.fullRule (some k.rule), w)
  | .texts => return (.names [k.rule.text, k.rule.labelled], w)
  | .references => return (.references k.rule.references, w)
  | .rename old new =>
    let r := k.rule.rename old new
    return (.rule r, w.setRule { k with rule := r })
  | .operands path => do
    let node ← ofEdit (k.rule.expr.node? path)
    return (.operands node.operands, w)
  | .setOperand path operand new => do
    let e ← ofEdit (k.rule.expr.editAt (·.setOperand operand new) path)
    let r := { k.rule with expr := e }
    return (.rule r, w.setRule { k with rule := r })
  | .flatten reserved => do
    let flat ← ofBreakdown (k.rule.flatten? reserved)
    return (.fullRules flat.rules, w)
  | .appendCopy =>
    let (w, cells) := w.addRules [k.rule]
    return (.rules (w.rulesOf { d with cells := d.cells ++ cells }),
      w.setCells n d (d.cells ++ cells))

def performDocument (w : Workspace) (n : Nat) (d : Document) :
    DocumentRequest → Except Refusal (Answer × Workspace)
  | .flat => do
    let g ← ofFlat (w.grammarOf d).flat
    return w.adding g
  | .flattenAll => do
    let flat ← ofBreakdown (flattenAll? (w.rulesOf d))
    return w.adding { rules := flat.rules }
  | .recheck => do
    let g ← ofFault (Grammar.check (w.rulesOf d) d.file)
    return (.rules g.rules, w.addDocument d)
  | .rules => return (.rules (w.rulesOf d), w)
  | .length => return (.count d.cells.length, w)
  | .symbols => return (.names (w.grammarOf d).symbols, w)
  | .find symbol => return (.fullRule ((w.grammarOf d).find? symbol), w)
  | .findById id => return (.fullRule ((w.grammarOf d).findById? id), w)
  | .renameAll old new =>
    let renamed := (w.keyedRules d.cells).map fun k => { k with rule := k.rule.rename old new }
    return (.rules (renamed.map Keyed.rule), w.setRules renamed)
  | .append r =>
    let (w, cells) := w.addRules [r]
    return (.rules (w.rulesOf { d with cells := d.cells ++ cells }),
      w.setCells n d (d.cells ++ cells))
  | .remove position =>
    match position? position d.cells.length with
    | none => .error (.edit (.ofPosition position .noSlot))
    | some i =>
      let cells := d.cells.eraseIdx i
      return (.rules (w.rulesOf { d with cells }), w.setCells n d cells)
  | .duplicates => do
    let pairs ← ofBreakdown (Keyed.duplicates? (w.keyedRules d.cells))
    return (.pairs (pairs.map fun (first, second) => (first.rule, second.rule)), w)
  | .merge => do
    let m ← ofBreakdown (mergeKeyed? (w.keyedRules d.cells))
    let w := w.setRules (m.dropped ++ m.kept)
    return (.merged (m.kept.map Keyed.rule) (m.pairs.map pairText),
      w.setCells n d (m.kept.map Keyed.key))
  | .sort => do
    let sorted ← ofBreakdown (Keyed.sort? (w.keyedRules d.cells))
    return (.names (sorted.map Keyed.id), w.setCells n d (sorted.map Keyed.key))
  | .compare a b => do
    let r := (← w.keyedRule d a).rule
    let s := (← w.keyedRule d b).rule
    let precedes ← ofBreakdown (r.precedes? s)
    return (.comparison (r.agrees s) (r.expr == s.expr) precedes, w)
  | .sexpr => do
    let text ← ofBreakdown (w.grammarOf d).sexpr?
    return (.text text, w)
  | .turtle prefixName namespaceUri =>
    return (.text ((w.grammarOf d).turtle prefixName namespaceUri), w)
  | .listing colors =>
    return (.text (String.join (((w.grammarOf d).listing colors).map (printedLine colors))), w)
  | .rule position request => do
    let k ← w.keyedRule d position
    performRule w n d k request

def perform (w : Workspace) : Request → Except Refusal (Answer × Workspace)
  | .load text file => do
    let g ← ofFault (Grammar.load text file)
    return w.adding g
  | .create rules file => do
    let g ← ofFault (Grammar.check rules file)
    return w.adding g
  | .compareDocuments a b => do
    let (_, d) ← w.document a
    let (_, e) ← w.document b
    return (.verdict ((w.grammarOf d).agrees (w.grammarOf e)), w)
  | .document position request => do
    let (n, d) ← w.document position
    performDocument w n d request

/-- The warnings that a request gives rise to, even if it is refused. -/
def warnings : Request → List String
  | .load text file => ((Grammar.loadNotes text file).filter Note.isWarning).map Note.text
  | _ => []

end Workspace

end FlatGrammar
