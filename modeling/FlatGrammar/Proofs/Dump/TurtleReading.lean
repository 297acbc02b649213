import FlatGrammar.Proofs.Dump.TurtleBlocks

/-! # Reading right-hand sides back from Turtle

The first word of a node tells the operator, and the nodes behind it tell the operands. So the block of a
right-hand side tells the right-hand side, except that a class and a hex reference may have one regular
expression. At the outermost level a symbol has the nodes of a series of one operand, but no right-hand
side that has been read is such a series.
-/
namespace FlatGrammar
open Turtle

/-- The same literal, or classes with the same regular expression. -/
inductive Terminal.Interchangeable : Terminal → Terminal → Prop
  | literal (text : String) : Interchangeable (.literal text) (.literal text)
  | classes {s t : Terminal} (hs : s.isClass) (ht : t.isClass)
      (h : classRegex s.text = classRegex t.text) : Interchangeable s t

mutual

/-- Equal but for classes with the same regular expression. -/
inductive Interchangeable : Expr → Expr → Prop
  | symbol (name : Option String) : Interchangeable (.symbol name) (.symbol name)
  | terminal {s t : Terminal} (h : s.Interchangeable t) : Interchangeable (.terminal s) (.terminal t)
  | series (op : Series) {es fs : List Expr} (h : InterchangeableAll es fs) :
      Interchangeable (.series op es) (.series op fs)
  | diff {a b c d : Expr} (h : Interchangeable a c) (h' : Interchangeable b d) :
      Interchangeable (.diff a b) (.diff c d)
  | repeated (op : Repetition) {e f : Expr} (h : Interchangeable e f) :
      Interchangeable (.repeated op e) (.repeated op f)

inductive InterchangeableAll : List Expr → List Expr → Prop
  | nil : InterchangeableAll [] []
  | cons {e f : Expr} {es fs : List Expr} (h : Interchangeable e f) (hs : InterchangeableAll es fs) :
      InterchangeableAll (e :: es) (f :: fs)

end

inductive Operator where
  | series (op : Series)
  | diff
  | repeated (op : Repetition)
  deriving DecidableEq, Repr

def Operator.tag : Operator → String
  | series op => op.tag
  | diff => "diff"
  | repeated op => op.tag

def operators : List Operator :=
  [.series .seq, .series .alt, .diff, .repeated .opt, .repeated .star, .repeated .plus]

def Expr.operator? : Expr → Option Operator
  | symbol _ => none
  | terminal _ => none
  | series op _ => some (.series op)
  | diff _ _ => some .diff
  | repeated op _ => some (.repeated op)

/-- The operator that the first word of a node stands for. -/
def Turtle.Node.operator? (namespaceName : String) : Node → Option Operator
  | .group .square (.word text :: _) => operators.find? fun p => operatorName namespaceName p.tag == text
  | _ => none

/-- The node that has a statement between its brackets. A string has none. -/
def nodeOfStatement : List Node → Node
  | [.string text] => .string text
  | nodes => .group .square nodes

section Trees
variable {namespaceName : String} {nested : Bool} {d e : Expr}

theorem refName_inj {a b : Option String} (ha : IsName a) (hb : IsName b) (h : refName a = refName b) :
    a = b := by
  have hne (name : Option String) : ":" ++ symbolText name ≠ "g:empty" := by
    intro heq
    have hhead := congrArg (fun s => s.toList.head?) heq
    simp at hhead
  unfold refName at h
  split at h
  case isTrue hempty =>
    split at h
    case isTrue hempty' => exact (beq_iff_eq.mp hempty).trans (beq_iff_eq.mp hempty').symm
    case isFalse => exact (hne b h.symm).elim
  case isFalse =>
    split at h
    case isTrue => exact (hne a h).elim
    case isFalse =>
      cases a with
      | none => exact ha.elim
      | some a =>
        cases b with
        | none => exact hb.elim
        | some b => exact congrArg some (by simpa [symbolText] using h)

theorem Terminal.interchangeable_of_node_eq {s t : Terminal} (h : s.node = t.node) :
    s.Interchangeable t := by
  have hclasses {a b : String} (h : Node.group .square [.word "re:matches", .string (classRegex a)] =
      .group .square [.word "re:matches", .string (classRegex b)]) : classRegex a = classRegex b := by
    simpa using h
  cases s with
  | literal a =>
    cases t with
    | literal b =>
      obtain rfl := Node.string.inj h
      exact .literal a
    | charClass _ | hexRef _ => cases h
  | charClass a | hexRef a =>
    cases t with
    | literal _ => cases h
    | charClass b | hexRef b => exact .classes rfl rfl (hclasses h)

theorem mem_operators (p : Operator) : p ∈ operators := by
  cases p with
  | series op => cases op <;> decide
  | diff => decide
  | repeated op => cases op <;> decide

/-- The first word of a node tells its operator from the others and from the word for classes. -/
theorem Expr.operator?_node (hnamespace : namespaceName = "g" ∨ namespaceName = "re") (e : Expr) :
    (e.node namespaceName).operator? namespaceName = e.operator? := by
  have hoperator : ∀ p ∈ operators, (operators.find? fun q =>
      operatorName namespaceName q.tag == operatorName namespaceName p.tag) = some p := by
    rcases hnamespace with rfl | rfl <;> decide
  have hclass : (operators.find? fun q => operatorName namespaceName q.tag == "re:matches") = none := by
    rcases hnamespace with rfl | rfl <;> decide
  rw [node_eq]
  cases e with
  | symbol _ => rfl
  | terminal t =>
    cases t with
    | literal _ => rfl
    | charClass _ | hexRef _ => exact hclass
  | series op _ => exact hoperator (.series op) (mem_operators _)
  | diff _ _ => exact hoperator .diff (mem_operators _)
  | repeated op _ => exact hoperator (.repeated op) (mem_operators _)

theorem Expr.operator?_eq_series_iff {op : Series} :
    e.operator? = some (.series op) ↔ ∃ es, e = .series op es := by
  cases e <;> simp [operator?]

theorem Expr.operator?_eq_diff_iff : e.operator? = some .diff ↔ ∃ l r, e = .diff l r := by
  cases e <;> simp [operator?]

theorem Expr.operator?_eq_repeated_iff {op : Repetition} :
    e.operator? = some (.repeated op) ↔ ∃ o, e = .repeated op o := by
  cases e <;> simp [operator?]

theorem interchangeableAll_of_map_eq {value : Expr → Node} {es fs : List Expr}
    (h : ∀ e ∈ es, ∀ f ∈ fs, value e = value f → Interchangeable e f)
    (heq : es.map value = fs.map value) : InterchangeableAll es fs := by
  induction es generalizing fs with
  | nil =>
    obtain rfl := List.map_eq_nil_iff.mp heq.symm
    exact .nil
  | cons e es ih =>
    cases fs with
    | nil => cases heq
    | cons f fs =>
      obtain ⟨he, hes⟩ := List.cons.inj heq
      refine .cons (h e List.mem_cons_self f List.mem_cons_self he) (ih (fun e he f hf => ?_) hes)
      exact h e (List.mem_cons_of_mem _ he) f (List.mem_cons_of_mem _ hf)

/-- A node tells the operator and the nodes of the operands. -/
theorem interchangeable_of_node_eq (hnamespace : namespaceName = "g" ∨ namespaceName = "re")
    (hd : d.HasNames) (he : e.HasNames) (h : d.node namespaceName = e.node namespaceName) :
    Interchangeable d e := by
  induction d using Expr.operands_induction generalizing e with
  | step d ih =>
    have hoperator := congrArg (Node.operator? namespaceName) h
    rw [Expr.operator?_node hnamespace, Expr.operator?_node hnamespace] at hoperator
    have hall : d.operands.map (Expr.node namespaceName) = e.operands.map (Expr.node namespaceName) →
        InterchangeableAll d.operands e.operands :=
      interchangeableAll_of_map_eq fun o ho p hp => ih o ho (hd.of_operand ho) (he.of_operand hp)
    rw [Expr.node_eq, Expr.node_eq e] at h
    cases d with
    | symbol a =>
      cases e with
      | symbol b =>
        obtain rfl := refName_inj (hd a (by simp)) (he b (by simp)) (Node.word.inj h)
        exact .symbol a
      | terminal t => cases t <;> cases h
      | series _ _ | diff _ _ | repeated _ _ => cases h
    | terminal s =>
      cases e with
      | symbol b => cases s <;> cases h
      | terminal t => exact .terminal (Terminal.interchangeable_of_node_eq h)
      | series _ _ | diff _ _ | repeated _ _ => cases hoperator
    | series op es =>
      obtain ⟨fs, rfl⟩ := Expr.operator?_eq_series_iff.mp hoperator.symm
      exact .series op (hall (by simpa [Expr.visitNode, Expr.statement] using h))
    | diff a b =>
      obtain ⟨c, d, rfl⟩ := Expr.operator?_eq_diff_iff.mp hoperator.symm
      obtain ⟨⟩ | ⟨hac, ⟨⟩ | ⟨hbd, -⟩⟩ := hall (by simpa [Expr.visitNode, Expr.statement] using h)
      exact .diff hac hbd
    | repeated op o =>
      obtain ⟨p, rfl⟩ := Expr.operator?_eq_repeated_iff.mp hoperator.symm
      obtain ⟨⟩ | ⟨hop, -⟩ := hall (by simpa [Expr.visitNode, Expr.statement] using h)
      exact .repeated op hop

theorem nodeOfStatement_eq (h : ∀ name, e ≠ .symbol name) :
    nodeOfStatement (e.statement namespaceName (e.operands.map (Expr.node namespaceName))) =
      e.node namespaceName := by
  rw [Expr.node_eq]
  cases e with
  | symbol name => exact absurd rfl (h name)
  | terminal t => cases t <;> rfl
  | series _ _ | diff _ _ | repeated _ _ => rfl

/-- At the outermost level only a series of one operand could be taken for a symbol. -/
theorem nodes_ne_symbol {name : Option String} (hnamespace : namespaceName = "g" ∨ namespaceName = "re")
    (he : ∀ op f, e ≠ .series op [f]) (hsymbol : ∀ name, e ≠ .symbol name) :
    e.nodes namespaceName false ≠ (Expr.symbol name).nodes namespaceName false := by
  have hsame : (Expr.symbol name).nodes namespaceName false =
      [.word "g:seq", .group .round [.word (refName name)]] := rfl
  rw [hsame, Expr.nodes_false]
  intro h
  cases e with
  | symbol name => exact hsymbol name rfl
  | terminal t => cases t <;> simp [Expr.statement, Terminal.statement] at h
  | series op es =>
    have hone : es.map (Expr.node namespaceName) = [.word (refName name)] := by
      simpa [Expr.statement, Expr.operands] using (List.cons.inj h).2
    obtain ⟨f, rfl, -⟩ := List.map_eq_singleton_iff.mp hone
    exact he op f rfl
  | diff l r => simp [Expr.statement, Expr.operands] at h
  | repeated op o =>
    have hword := Node.word.inj (List.cons.inj h).1
    rcases hnamespace with rfl | rfl <;> cases op <;> exact absurd hword (by decide)

theorem interchangeable_of_nodes_eq (hnamespace : namespaceName = "g" ∨ namespaceName = "re")
    (hd : d.HasNames) (he : e.HasNames) (hone : ∀ op f, d ≠ .series op [f])
    (hone' : ∀ op f, e ≠ .series op [f]) (h : d.nodes namespaceName nested = e.nodes namespaceName nested) :
    Interchangeable d e := by
  cases nested with
  | true => exact interchangeable_of_node_eq hnamespace hd he (List.singleton_inj.mp h)
  | false =>
    -- Only a symbol has more nodes at the outermost level than its own.
    by_cases hsymbol : ∃ a, d = .symbol a
    · obtain ⟨a, rfl⟩ := hsymbol
      by_cases hsymbol' : ∃ b, e = .symbol b
      · obtain ⟨b, rfl⟩ := hsymbol'
        have hname : refName a = refName b := by simpa [Expr.nodes, Expr.statement] using h
        obtain rfl := refName_inj (hd a (by simp)) (he b (by simp)) hname
        exact .symbol a
      · exact (nodes_ne_symbol hnamespace hone' (not_exists.mp hsymbol') h.symm).elim
    · by_cases hsymbol' : ∃ b, e = .symbol b
      · obtain ⟨b, rfl⟩ := hsymbol'
        exact (nodes_ne_symbol hnamespace hone (not_exists.mp hsymbol) h).elim
      · have hnode : nodeOfStatement (d.nodes namespaceName false) =
            nodeOfStatement (e.nodes namespaceName false) := congrArg nodeOfStatement h
        refine interchangeable_of_node_eq hnamespace hd he ?_
        rwa [Expr.nodes_false, Expr.nodes_false, nodeOfStatement_eq (not_exists.mp hsymbol),
          nodeOfStatement_eq (not_exists.mp hsymbol')] at hnode

mutual

theorem Interchangeable.turtleLines_eq (namespaceName : String) (depth : Int) (nested : Bool) :
    ∀ {d e : Expr}, Interchangeable d e →
      d.turtleLines namespaceName depth nested = e.turtleLines namespaceName depth nested
  | _, _, .symbol name => rfl
  | _, _, .terminal (.literal text) => rfl
  | _, _, .terminal (.classes hs ht h) => by
    rw [Expr.turtleLines, Expr.turtleLines, Terminal.turtleLine_of_isClass hs,
      Terminal.turtleLine_of_isClass ht, h]
  | _, _, .series op h => by rw [Expr.turtleLines, Expr.turtleLines, h.turtleOperands_eq]
  | _, _, .diff h h' => by
    rw [Expr.turtleLines, Expr.turtleLines, h.turtleLines_eq, h'.turtleLines_eq]
  | _, _, .repeated op h => by rw [turtleLines_repeated, turtleLines_repeated, h.turtleLines_eq]

theorem InterchangeableAll.turtleOperands_eq (namespaceName : String) (depth : Int) :
    ∀ {es fs : List Expr}, InterchangeableAll es fs →
      Expr.turtleOperands namespaceName depth es = Expr.turtleOperands namespaceName depth fs
  | _, _, .nil => rfl
  | _, _, .cons h hs => by
    rw [Expr.turtleOperands, Expr.turtleOperands, h.turtleLines_eq, hs.turtleOperands_eq]

end

end Trees

section Parse
variable {namespaceName : String} {nested : Bool} {d e : Expr} {s t : List Char}

theorem ne_series_singleton_of_parse? (h : Expr.parse? s = .ok e) : ∀ op f, e ≠ .series op [f] := by
  obtain ⟨ts, es, rest, hphrase, rfl, -⟩ := exists_phrase_of_parse? h
  exact Expr.join_ne_series_singleton hphrase.ne_series_singleton

theorem isWord_namespace (h : namespaceName = "g" ∨ namespaceName = "re") : IsWord namespaceName := by
  rcases h with rfl | rfl <;> decide

theorem stop_not_mem_operatorName (h : namespaceName = "g" ∨ namespaceName = "re") (p : Operator) :
    '.' ∉ (operatorName namespaceName p.tag).toList := by
  have hall : ∀ p ∈ operators, '.' ∉ (operatorName namespaceName p.tag).toList := by
    rcases h with rfl | rfl <;> decide
  exact hall p (mem_operators p)

theorem stop_not_mem_of_mem_nodes (h : namespaceName = "g" ∨ namespaceName = "re") (he : e.HasNames)
    {w : String} (hw : .word w ∈ e.nodes namespaceName false) : '.' ∉ w.toList := by
  rw [Expr.nodes_false] at hw
  cases e with
  | symbol name =>
    obtain rfl : w = "g:seq" := by simpa [Expr.statement] using hw
    decide
  | terminal t =>
    cases t with
    | literal _ => simp [Expr.statement, Terminal.statement] at hw
    | charClass _ | hexRef _ =>
      obtain rfl : w = "re:matches" := by simpa [Expr.statement, Terminal.statement] using hw
      decide
  | series op es =>
    obtain rfl : w = operatorName namespaceName op.tag := by simpa [Expr.statement] using hw
    exact stop_not_mem_operatorName h (.series op)
  | diff l r =>
    obtain rfl : w = operatorName namespaceName "diff" := by simpa [Expr.statement] using hw
    exact stop_not_mem_operatorName h .diff
  | repeated op o =>
    have hcases : w = operatorName namespaceName op.tag ∨ .word w = o.node namespaceName := by
      simpa [Expr.statement, Expr.operands] using hw
    rcases hcases with rfl | hoperand
    · exact stop_not_mem_operatorName h (.repeated op)
    · -- An operand that is a word is a reference.
      rw [Expr.node_eq] at hoperand
      cases o with
      | symbol name =>
        obtain rfl := Node.word.inj hoperand
        exact not_mem_refName (he name (by simp)) (by decide) (by decide)
      | terminal t => cases t <;> cases hoperand
      | series _ _ | diff _ _ | repeated _ _ => cases hoperand

/-- The block of a right-hand side that has been read has one reading as nodes of Turtle. Brackets are
closed in order there, and strings end with the first quotation mark that is not escaped. The reading tells
the right-hand side, but for classes with the same regular expression. At the outermost level the block ends
with a full stop, which stands in no brackets, and no other word that stands in none has one. -/
theorem turtleBlock_unambiguous (hd : Expr.parse? s = .ok d) (he : Expr.parse? t = .ok e)
    (hnamespace : namespaceName = "g" ∨ namespaceName = "re") (depth : Int) (nested : Bool) :
    (d.turtleBlock namespaceName depth nested = e.turtleBlock namespaceName depth nested ↔
        Interchangeable d e) ∧
      (∀ nodes, NodesOf (d.turtleBlock namespaceName depth nested).toList nodes ↔
        nodes = d.blockNodes namespaceName nested) ∧
      (nested = false → ∃ front, d.turtleBlock namespaceName depth nested = front ++ " ." ∧
        NodesOf front.toList (d.nodes namespaceName nested) ∧
        ∀ w, .word w ∈ d.nodes namespaceName nested → '.' ∉ w.toList) := by
  have hword := isWord_namespace hnamespace
  have hreading := nodesOf_turtleBlock hword (hasNames_of_parse? hd) depth nested
  refine ⟨⟨fun heq => ?_, fun h => ?_⟩, fun nodes => ⟨fun h => ?_, ?_⟩, ?_⟩
  · have hreading' := nodesOf_turtleBlock hword (hasNames_of_parse? he) depth nested
    have hnodes := (hreading.unique hreading' closes_nil closes_nil (by rw [heq])).1
    exact interchangeable_of_nodes_eq hnamespace (hasNames_of_parse? hd) (hasNames_of_parse? he)
      (ne_series_singleton_of_parse? hd) (ne_series_singleton_of_parse? he)
      (List.append_cancel_right hnodes)
  · rw [Expr.turtleBlock, Expr.turtleBlock, h.turtleLines_eq]
  · exact (h.unique hreading closes_nil closes_nil rfl).1
  · rintro rfl
    exact hreading
  · rintro rfl
    have hnames := hasNames_of_parse? hd
    obtain ⟨front, hblock, hnodes⟩ := exists_nodesOf_turtleBlock hword hnames depth false
    exact ⟨front, hblock, hnodes, fun w => stop_not_mem_of_mem_nodes hnamespace hnames⟩

end Parse

/-- Brackets, a quotation mark and a line break in a literal, and a class. -/
def classText : String := "'[(\"\n' ([#x41] - b)? | ()"

/-- The same with a hex reference in place of the class. -/
def hexRefText : String := "'[(\"\n' (#x41 - b)? | ()"

theorem turtleBlock_classText : ∃ d e, Expr.parse? classText.toList = .ok d ∧
    Expr.parse? hexRefText.toList = .ok e ∧ d ≠ e ∧
    d.turtleBlock "re" (-1) false = e.turtleBlock "re" (-1) false ∧
    (∀ nodes, NodesOf (d.turtleBlock "re" (-1) false).toList nodes ↔ nodes = d.blockNodes "re" false) ∧
    ∃ front, d.turtleBlock "re" (-1) false = front ++ " ." ∧
      NodesOf front.toList (d.nodes "re" false) := by
  let right (t : Terminal) : Expr :=
    .alt [.seq [.literal "[(\"\n", .opt (.diff (.terminal t) (.ref "b"))], .seq []]
  have hd : Expr.parse? classText.toList = .ok (right (.charClass "#x41")) := by decide +kernel
  have he : Expr.parse? hexRefText.toList = .ok (right (.hexRef "#x41")) := by decide +kernel
  have hclass : Interchangeable (right (.charClass "#x41")) (right (.hexRef "#x41")) :=
    .series .alt (.cons (.series .seq (.cons (.terminal (.literal _))
      (.cons (.repeated .opt (.diff (.terminal (.classes rfl rfl rfl)) (.symbol _))) .nil)))
        (.cons (.series .seq .nil) .nil))
  obtain ⟨hsame, hreading, hend⟩ := turtleBlock_unambiguous hd he (.inr rfl) (-1) false
  obtain ⟨front, hfront, hnodes, -⟩ := hend rfl
  exact ⟨_, _, hd, he, by decide, hsame.mpr hclass, hreading, front, hfront, hnodes⟩

end FlatGrammar
