import FlatGrammar.Proofs.Dump.TurtleNodes
import FlatGrammar.Proofs.Dump.TurtleTerminals
import FlatGrammar.Proofs.Text.Legible

/-! # Right-hand sides as nodes of Turtle

The lines for an expression have the nodes of the expression. One that is nested is a single node, with
brackets of its own unless it is a word or a string. The outermost one has no brackets, a symbol is
written as a sequence of one there, and a full stop follows.
-/
namespace FlatGrammar
open Turtle

def Expr.turtleBlock (namespaceName : String) (depth : Int) (nested : Bool) (e : Expr) : String :=
  "\n".intercalate (e.turtleLines namespaceName depth nested)

def Terminal.isClass : Terminal → Bool
  | .literal _ => false
  | _ => true

section Nodes
variable (namespaceName : String)

def operatorName (tag : String) : String := namespaceName ++ ":" ++ tag

def Terminal.statement : Terminal → List Node
  | .literal text => [.string text]
  | t => [.word "re:matches", .string (classRegex t.text)]

def Terminal.node : Terminal → Node
  | .literal text => .string text
  | t => .group .square t.statement

/-- What is said of a subject, given the nodes of the operands. -/
def Expr.statement (e : Expr) (operands : List Node) : List Node :=
  match e with
  | symbol name => [.word "g:seq", .group .round [.word (refName name)]]
  | terminal t => t.statement
  | series op _ => [.word (operatorName namespaceName op.tag), .group .round operands]
  | diff _ _ => [.word (operatorName namespaceName "diff"), .group .round operands]
  | repeated op _ => .word (operatorName namespaceName op.tag) :: operands

def Expr.visitNode (e : Expr) (operands : List Node) : Node :=
  match e with
  | symbol name => .word (refName name)
  | terminal t => t.node
  | e => .group .square (e.statement namespaceName operands)

/-- The node of an operand. -/
def Expr.node (e : Expr) : Node := e.fold (visitNode namespaceName)

/-- An expression that is nested is one node. The outermost one is said of the subject before it. -/
def Expr.nodes (nested : Bool) (e : Expr) : List Node :=
  if nested then [e.node namespaceName]
  else e.statement namespaceName (e.operands.map (node namespaceName))

/-- The nodes of the lines for an expression. A full stop ends what is said of a subject. -/
def Expr.blockNodes (nested : Bool) (e : Expr) : List Node :=
  e.nodes namespaceName nested ++ if nested then [] else [.word "."]

end Nodes

/-- Lines with the line breaks in front of them. -/
def linesText (lines : List String) : List Char := lines.flatMap fun line => "\n".toList ++ line.toList

def bracketed (nested : Bool) (nodes : List Node) : List Node :=
  if nested then [.group .square nodes] else nodes

section Lines
variable {namespaceName tag line : String} {depth : Int} {nested : Bool} {lines operands : List String}
  {cs : List Char} {nodes : List Node} {e : Expr}

theorem leading_linesText (lines : List String) : leading (linesText lines) ≠ .inner := by
  cases lines with
  | nil => decide
  | cons => exact leading_blank rfl _

theorem linesText_closeStatement (h : lines ≠ []) :
    linesText (closeStatement lines) = linesText lines ++ " .".toList := by
  induction lines with
  | nil => exact absurd rfl h
  | cons line lines ih =>
    cases lines with
    | nil => simp [linesText, closeStatement]
    | cons next lines =>
      have hne : next :: lines ≠ [] := List.cons_ne_nil next lines
      rw [closeStatement, linesText, List.flatMap_cons, ← linesText, ih hne]
      · simp [linesText]
      · exact hne

theorem isBlank_of_mem_indent (depth : Int) : ∀ c ∈ (Text.indent depth).toList, role c = .blank := by
  rw [Text.indent, String.toList_ofList]
  intro c hc
  rw [List.eq_of_mem_replicate hc]
  rfl

theorem nodesOf_line (depth : Int) (h : NodesOf (line.toList ++ linesText lines) nodes) :
    NodesOf (linesText ((Text.indent depth ++ line) :: lines)) nodes := by
  have hline : NodesOf ('\n' :: ((Text.indent depth).toList ++ (line.toList ++ linesText lines))) nodes :=
    .blank rfl (h.blanks (isBlank_of_mem_indent depth))
  simpa [linesText] using hline

theorem nodesOf_singleton (depth : Int) (h : NodesOf line.toList nodes) :
    NodesOf (linesText [Text.indent depth ++ line]) nodes := by
  refine nodesOf_line depth ?_
  rwa [linesText, List.flatMap_nil, List.append_nil]

theorem nodesOf_bracketed (h : NodesOf cs nodes) (nested : Bool) :
    NodesOf ((brackets nested).1.toList ++ (cs ++ (brackets nested).2.toList))
      (bracketed nested nodes) := by
  cases nested with
  | false => simpa [brackets, bracketed] using h
  | true =>
    have hinner : NodesOf (' ' :: cs ++ [' ']) nodes := (NodesOf.blank rfl h).concat_space
    simpa [brackets, bracketed, Bracket.opening, Bracket.closing] using hinner.enclosed .square

theorem isWord_operatorName (hnamespace : IsWord namespaceName) (htag : IsWord tag) :
    IsWord (operatorName namespaceName tag) := by
  have hcolon : IsWord ":" := by decide
  simp only [operatorName, IsWord, String.toList_append, List.forall_mem_append]
  exact ⟨by simp, ⟨hnamespace.2, hcolon.2⟩, htag.2⟩

/-- What stands in front of a closing bracket in the last line. -/
theorem nodesOf_append_indent (h : NodesOf cs nodes) (depth : Int) :
    NodesOf (cs ++ ('\n' :: (Text.indent depth).toList ++ [' '])) nodes := by
  have hindent := NodesOf.blanks (isBlank_of_mem_indent depth) .nil
  rw [List.append_nil] at hindent
  have hline : NodesOf ('\n' :: (Text.indent depth).toList ++ [' ']) [] :=
    (NodesOf.blank rfl hindent).concat_space
  have happend := h.append hline (leading_blank rfl _)
  rwa [List.append_nil] at happend

/-- A list is a word and a group, with its lines between the brackets. -/
theorem nodesOf_listLines (depth : Int) (nested : Bool)
    (hword : IsWord (operatorName namespaceName tag)) (h : NodesOf (linesText operands) nodes) :
    NodesOf (linesText (listLines namespaceName tag depth nested operands))
      (bracketed nested [.word (operatorName namespaceName tag), .group .round nodes]) := by
  have hgroup := (nodesOf_append_indent h depth).enclosed .round
  have hlines : listLines namespaceName tag depth nested operands =
      (Text.indent depth ++ ((brackets nested).1 ++ (operatorName namespaceName tag ++ " ("))) ::
        (operands ++ [Text.indent depth ++ (" )" ++ (brackets nested).2)]) := by
    simp [listLines, operatorName, String.append_assoc]
  rw [hlines]
  refine nodesOf_line depth ?_
  simpa [linesText, Bracket.opening, Bracket.closing] using
    nodesOf_bracketed (hgroup.cons_word hword) nested

/-- The operand of a quantifier follows its word. Only if there are brackets, they are closed in a line of
their own. -/
theorem nodesOf_repeatedLines (depth : Int) (nested : Bool)
    (hword : IsWord (operatorName namespaceName tag)) (h : NodesOf (linesText operands) nodes) :
    NodesOf (linesText
        ((Text.indent depth ++ (brackets nested).1 ++ namespaceName ++ ":" ++ tag ++ " ") ::
          (operands ++ if nested then [Text.indent depth ++ " " ++ (brackets nested).2] else [])))
      (bracketed nested (.word (operatorName namespaceName tag) :: nodes)) := by
  have hfirst : Text.indent depth ++ (brackets nested).1 ++ namespaceName ++ ":" ++ tag ++ " " =
      Text.indent depth ++ ((brackets nested).1 ++ (operatorName namespaceName tag ++ " ")) := by
    simp [operatorName, String.append_assoc]
  rw [hfirst]
  refine nodesOf_line depth ?_
  cases nested with
  | false => simpa [linesText, brackets] using nodesOf_bracketed (h.cons_word hword) false
  | true =>
    have hoperand := (nodesOf_append_indent h depth).cons_word hword
    simpa [linesText] using nodesOf_bracketed hoperand true

theorem Expr.node_eq (e : Expr) :
    e.node namespaceName = e.visitNode namespaceName (e.operands.map (node namespaceName)) :=
  fold_eq _ e

theorem Expr.nodes_false (e : Expr) : e.nodes namespaceName false =
    e.statement namespaceName (e.operands.map (node namespaceName)) :=
  rfl

theorem Expr.nodes_of_isComposite (nested : Bool) (h : e.isComposite) : e.nodes namespaceName nested =
    bracketed nested (e.statement namespaceName (e.operands.map (node namespaceName))) := by
  cases nested with
  | false => rfl
  | true =>
    rw [nodes, if_pos rfl, node_eq]
    cases e with
    | symbol _ | terminal _ => cases h
    | series _ _ | diff _ _ | repeated _ _ => rfl

theorem isWord_refName {name : Option String} (h : IsName name) : IsWord (refName name) := by
  have hinner {c : Char} (hc : Text.isWord c) : role c = .inner := by
    unfold role
    split
    case h_8 => rfl
    all_goals exact absurd hc (by decide)
  refine ⟨?_, fun c hc => ?_⟩
  · unfold refName
    split <;> simp
  · rcases colon_or_isWord_of_mem_refName h c hc with rfl | hc
    · rfl
    · exact hinner hc

/-- A symbol is a word, or at the outermost level a sequence of one. -/
theorem nodesOf_reference {name : Option String} (h : IsWord (refName name)) (nested : Bool) :
    NodesOf (if nested then refName name else "g:seq ( " ++ refName name ++ " )").toList
      ((Expr.symbol name).nodes namespaceName nested) := by
  cases nested with
  | true => exact nodesOf_word h
  | false =>
    show NodesOf _ [.word "g:seq", .group .round [.word (refName name)]]
    have hinner := (NodesOf.blank (c := ' ') rfl (nodesOf_word h)).concat_space
    have hword := (hinner.enclosed .round).cons_word (by decide : IsWord "g:seq")
    simpa [Bracket.opening, Bracket.closing] using hword

theorem nodesOf_inQuotes (text : String) : NodesOf (inQuotes (escaped text)).toList [.string text] :=
  nodesOf_string (isString_inQuotes rfl (.inl rfl))

theorem Terminal.turtleLine_of_isClass {t : Terminal} (h : t.isClass) (nested : Bool) :
    t.turtleLine nested = (brackets nested).1 ++ " re:matches " ++ inQuotes (escaped (classRegex t.text)) ++
      " " ++ (brackets nested).2 := by
  cases t with
  | literal _ => cases h
  | charClass _ | hexRef _ => rfl

theorem Terminal.nodesOf_turtleLine (nested : Bool) (t : Terminal) :
    NodesOf (t.turtleLine nested).toList ((Expr.terminal t).nodes namespaceName nested) := by
  have hclass {t : Terminal} (ht : t.isClass) : NodesOf (t.turtleLine nested).toList
      (bracketed nested [.word "re:matches", .string (classRegex t.text)]) := by
    have hstring := (nodesOf_inQuotes (classRegex t.text)).concat_space
    have hword := hstring.cons_word (by decide : IsWord "re:matches")
    rw [turtleLine_of_isClass ht]
    simpa using nodesOf_bracketed (NodesOf.blank (c := ' ') rfl hword) nested
  cases t with
  | literal text => cases nested <;> exact nodesOf_inQuotes text
  | charClass _ | hexRef _ => exact hclass rfl

theorem nodesOf_operands {es : List Expr}
    (h : ∀ e ∈ es, NodesOf (linesText (e.turtleLines namespaceName depth true)) [e.node namespaceName]) :
    NodesOf (linesText (es.flatMap (Expr.turtleLines namespaceName depth true)))
      (es.map (Expr.node namespaceName)) := by
  induction es with
  | nil => exact .nil
  | cons e es ih =>
    obtain ⟨he, hes⟩ := List.forall_mem_cons.mp h
    rw [List.flatMap_cons, List.map_cons, linesText, List.flatMap_append]
    exact he.append (ih hes) (leading_linesText _)

/-- Apart from the full stop that ends them, the lines for an expression have its nodes. -/
theorem exists_nodesOf_turtleLines (hnamespace : IsWord namespaceName) (he : e.HasNames) (depth : Int)
    (nested : Bool) : ∃ body, body ≠ [] ∧
      e.turtleLines namespaceName depth nested = finishLines nested body ∧
      NodesOf (linesText body) (e.nodes namespaceName nested) := by
  induction e using Expr.operands_induction generalizing depth nested with
  | step e ih =>
    have hoperands : NodesOf
        (linesText (e.operands.flatMap (Expr.turtleLines namespaceName (depth + 1) true)))
        (e.operands.map (Expr.node namespaceName)) := by
      refine nodesOf_operands fun o ho => ?_
      obtain ⟨body, -, hlines, hnodes⟩ := ih o ho (he.of_operand ho) (depth + 1) true
      rw [hlines]
      exact hnodes
    cases e with
    | symbol name =>
      have hname := isWord_refName (he name (by simp))
      exact ⟨_, List.cons_ne_nil _ _, rfl, nodesOf_singleton depth (nodesOf_reference hname nested)⟩
    | terminal t =>
      exact ⟨_, List.cons_ne_nil _ _, rfl, nodesOf_singleton depth (t.nodesOf_turtleLine nested)⟩
    | series op es =>
      rw [Expr.turtleLines, turtleOperands_eq_flatMap, Expr.nodes_of_isComposite nested rfl]
      have htag : IsWord op.tag := by cases op <;> decide
      exact ⟨_, by simp [listLines], rfl,
        nodesOf_listLines depth nested (isWord_operatorName hnamespace htag) hoperands⟩
    | diff l r =>
      rw [Expr.turtleLines, Expr.nodes_of_isComposite nested rfl]
      refine ⟨_, by simp [listLines], rfl,
        nodesOf_listLines depth nested (isWord_operatorName hnamespace (by decide)) ?_⟩
      simpa [Expr.operands] using hoperands
    | repeated op e =>
      rw [turtleLines_repeated, Expr.nodes_of_isComposite nested rfl]
      have htag : IsWord op.tag := by cases op <;> decide
      refine ⟨_, List.cons_ne_nil _ _, rfl,
        nodesOf_repeatedLines depth nested (isWord_operatorName hnamespace htag) ?_⟩
      simpa [Expr.operands] using hoperands

theorem closeStatement_ne_nil (h : lines ≠ []) : closeStatement lines ≠ [] := by
  intro heq
  have hlines := linesText_closeStatement h
  rw [heq] at hlines
  simp [linesText] at hlines

/-- The full stop follows the last line. -/
theorem intercalate_closeStatement (h : lines ≠ []) :
    "\n".intercalate (closeStatement lines) = "\n".intercalate lines ++ " ." := by
  have hlines := linesText_closeStatement h
  rw [linesText, linesText, ← append_toList_intercalate "\n" h, ← append_toList_intercalate "\n" (closeStatement_ne_nil h),
    List.append_assoc] at hlines
  have htext := List.append_cancel_left hlines
  rw [← String.toList_append] at htext
  exact String.toList_inj.mp htext

theorem nodesOf_intercalate (h : lines ≠ []) (hnodes : NodesOf (linesText lines) nodes) :
    NodesOf ("\n".intercalate lines).toList nodes := by
  rw [linesText, ← append_toList_intercalate "\n" h] at hnodes
  exact NodesOf.of_blank rfl hnodes

/-- A block has the nodes of the expression, and at the outermost level a full stop behind them. -/
theorem exists_nodesOf_turtleBlock (hnamespace : IsWord namespaceName) (he : e.HasNames) (depth : Int)
    (nested : Bool) : ∃ front, e.turtleBlock namespaceName depth nested =
        front ++ (if nested then "" else " .") ∧ NodesOf front.toList (e.nodes namespaceName nested) := by
  obtain ⟨body, hbody, hlines, hnodes⟩ := exists_nodesOf_turtleLines hnamespace he depth nested
  refine ⟨"\n".intercalate body, ?_, nodesOf_intercalate hbody hnodes⟩
  rw [Expr.turtleBlock, hlines]
  cases nested with
  | false => exact intercalate_closeStatement hbody
  | true => exact String.append_empty.symm

theorem nodesOf_turtleBlock (hnamespace : IsWord namespaceName) (he : e.HasNames) (depth : Int)
    (nested : Bool) : NodesOf (e.turtleBlock namespaceName depth nested).toList
      (e.blockNodes namespaceName nested) := by
  obtain ⟨front, hblock, hnodes⟩ := exists_nodesOf_turtleBlock hnamespace he depth nested
  rw [hblock, String.toList_append]
  refine hnodes.append ?_ ?_
  · cases nested with
    | false => exact .blank rfl (nodesOf_word (by decide : IsWord "."))
    | true => exact .nil
  · cases nested <;> decide

/-- The bracket in the string closes nothing. -/
example : (Expr.opt (.literal "]")).turtleBlock "g" 0 true = "[ g:opt \n  \"]\"\n  ]" ∧
    (Expr.opt (.literal "]")).blockNodes "g" true =
      [.group .square [.word "g:opt", .string "]"]] := by
  constructor <;> rfl

end Lines

end FlatGrammar
