import FlatGrammar.Proofs.Dump.ClassRegex
import FlatGrammar.Proofs.Grammar.Spelling

/-! # Terminals in Turtle

The lines that are written for the right-hand side of a rule hold one string for each of its terminals, in
order, and no other quotation marks. Such a string has its quotation marks and backslashes escaped and
nothing else, so it is one string of Turtle unless the terminal has a line break in it.
-/
namespace FlatGrammar

/-- What the string of a terminal stands for: its text, or the regular expression for a class. -/
def Terminal.turtleValue : Terminal → String
  | .literal text => text
  | t => classRegex t.text

def Terminal.turtleString (t : Terminal) : String := inQuotes (escaped t.turtleValue)

def Expr.visitTerminals (e : Expr) (values : List (List Terminal)) : List Terminal :=
  match e with
  | terminal t => [t]
  | _ => values.flatten

/-- The terminals of an expression, from left to right. -/
def Expr.terminals (e : Expr) : List Terminal := e.fold visitTerminals

namespace Turtle

/-- Lines with these strings in them, at most one in a line, and with no quotation marks elsewhere. -/
inductive Holds : List String → List String → Prop
  | nil : Holds [] []
  | bare {line : String} {lines strings : List String} (h : '"' ∉ line.toList)
      (hrest : Holds lines strings) : Holds (line :: lines) strings
  | string {front string after : String} {lines strings : List String} (hfront : '"' ∉ front.toList)
      (hafter : '"' ∉ after.toList) (hrest : Holds lines strings) :
      Holds ((front ++ string ++ after) :: lines) (string :: strings)

section Holding
variable {lines lines' strings strings' : List String} {line : String}

theorem Holds.append (h : Holds lines strings) (h' : Holds lines' strings') :
    Holds (lines ++ lines') (strings ++ strings') := by
  induction h with
  | nil => exact h'
  | bare hline _ ih => exact .bare hline ih
  | string hfront hafter _ ih => exact .string hfront hafter ih

theorem holds_singleton (h : '"' ∉ line.toList) : Holds [line] [] := .bare h .nil

theorem Holds.closeStatement (h : Holds lines strings) : Holds (closeStatement lines) strings := by
  have hdot {s : String} (hs : '"' ∉ s.toList) : '"' ∉ (s ++ " .").toList := by
    rw [String.toList_append, List.mem_append, not_or]
    exact ⟨hs, by decide⟩
  induction h with
  | nil => exact .nil
  | @bare line lines strings hline hrest ih =>
    cases lines with
    | nil =>
      cases hrest
      exact holds_singleton (hdot hline)
    | cons => exact .bare hline ih
  | @string front string after lines strings hfront hafter hrest ih =>
    cases lines with
    | nil =>
      cases hrest
      rw [FlatGrammar.closeStatement, String.append_assoc]
      exact .string hfront (hdot hafter) .nil
    | cons => exact .string hfront hafter ih

theorem Holds.finishLines (nested : Bool) (h : Holds lines strings) :
    Holds (finishLines nested lines) strings := by
  cases nested with
  | false => exact h.closeStatement
  | true => exact h

end Holding

end Turtle

section Lines
open Turtle
variable {namespaceName : String} {e : Expr} {nested : Bool}

theorem Expr.terminals_of_operands (h : e.isTerminal = false) :
    e.terminals = e.operands.flatMap terminals := by
  refine fold_eq_flatMap fun values => ?_
  cases e with
  | terminal t => cases h
  | symbol _ | series _ _ | diff _ _ | repeated _ _ => rfl

theorem turtleOperands_eq_flatMap (namespaceName : String) (depth : Int) (es : List Expr) :
    Expr.turtleOperands namespaceName depth es =
      es.flatMap (Expr.turtleLines namespaceName depth true) := by
  induction es with
  | nil => rfl
  | cons e es ih => rw [Expr.turtleOperands, List.flatMap_cons, ih]

theorem turtleLines_repeated (namespaceName : String) (depth : Int) (nested : Bool) (op : Repetition)
    (e : Expr) : (Expr.repeated op e).turtleLines namespaceName depth nested =
      finishLines nested
        ((Text.indent depth ++ (brackets nested).1 ++ namespaceName ++ ":" ++ op.tag ++ " ") ::
          (e.turtleLines namespaceName (depth + 1) true ++
            if nested then [Text.indent depth ++ " " ++ (brackets nested).2] else [])) := by
  cases nested <;> rfl

theorem quote_not_mem_brackets (nested : Bool) :
    '"' ∉ (brackets nested).1.toList ∧ '"' ∉ (brackets nested).2.toList := by
  cases nested <;> decide

theorem quote_not_mem_indent (depth : Int) : '"' ∉ (Text.indent depth).toList := by
  rw [Text.indent, String.toList_ofList]
  exact fun h => absurd (List.eq_of_mem_replicate h) (by decide)

theorem colon_or_isWord_of_mem_refName {name : Option String} (h : IsName name) :
    ∀ c ∈ (refName name).toList, c = ':' ∨ Text.isWord c := by
  cases name with
  | none => exact h.elim
  | some name =>
    unfold refName
    split
    · have hempty : "g:empty".toList = 'g' :: ':' :: emptySymbol.toList := by decide
      rw [hempty, List.forall_mem_cons, List.forall_mem_cons]
      exact ⟨.inr (by decide), .inl rfl, fun c hc => .inr (isName_emptySymbol.2 c hc)⟩
    · rw [symbolText, String.toList_append, List.forall_mem_append]
      exact ⟨fun c hc => .inl (List.mem_singleton.mp hc), fun c hc => .inr (h.2 c hc)⟩

theorem not_mem_refName {name : Option String} {c : Char} (h : IsName name) (hcolon : c ≠ ':')
    (hword : Text.isWord c = false) : c ∉ (refName name).toList := by
  intro hmem
  rcases colon_or_isWord_of_mem_refName h c hmem with hc | hc
  · exact hcolon hc
  · exact ne_of_isWord hc hword rfl

/-- A list is written between two lines of its own. -/
theorem holds_listLines {tag : String} {operands strings : List String} (depth : Int)
    (hnamespace : '"' ∉ namespaceName.toList) (htag : '"' ∉ tag.toList)
    (hoperands : Holds operands strings) :
    Holds (listLines namespaceName tag depth nested operands) strings := by
  obtain ⟨hopening, hclosing⟩ := quote_not_mem_brackets nested
  have hfirst : '"' ∉
      (Text.indent depth ++ (brackets nested).1 ++ namespaceName ++ ":" ++ tag ++ " (").toList := by
    simp [quote_not_mem_indent, hopening, hnamespace, htag]
  have hlast : '"' ∉ (Text.indent depth ++ " )" ++ (brackets nested).2).toList := by
    simp [quote_not_mem_indent, hclosing]
  have hlines := (Holds.bare hfirst hoperands).append (holds_singleton hlast)
  rwa [List.append_nil] at hlines

/-- The line of a terminal has its string in it. -/
theorem Terminal.exists_turtleLine_eq (nested : Bool) (t : Terminal) :
    ∃ front after, '"' ∉ front.toList ∧ '"' ∉ after.toList ∧
      t.turtleLine nested = front ++ t.turtleString ++ after := by
  obtain ⟨hopening, hclosing⟩ := quote_not_mem_brackets nested
  have hclass (spec : String) : ∃ front after, '"' ∉ front.toList ∧ '"' ∉ after.toList ∧
      (brackets nested).1 ++ " re:matches " ++ inQuotes (escaped (classRegex spec)) ++ " " ++
          (brackets nested).2 = front ++ inQuotes (escaped (classRegex spec)) ++ after := by
    refine ⟨(brackets nested).1 ++ " re:matches ", " " ++ (brackets nested).2, ?_, ?_, ?_⟩
    · simp [hopening]
    · simp [hclosing]
    · simp only [String.append_assoc]
  cases t with
  | literal text => exact ⟨"", "", by simp, by simp, by simp [turtleLine, turtleString, turtleValue]⟩
  | charClass spec => exact hclass spec
  | hexRef spec => exact hclass spec

/-- The strings that are written for an expression are those of its terminals. -/
theorem holds_turtleLines (hnamespace : '"' ∉ namespaceName.toList) (he : e.HasNames) (depth : Int)
    (nested : Bool) :
    Holds (e.turtleLines namespaceName depth nested) (e.terminals.map Terminal.turtleString) := by
  induction e using Expr.operands_induction generalizing depth nested with
  | step e ih =>
    have hoperands : Holds (e.operands.flatMap (Expr.turtleLines namespaceName (depth + 1) true))
        ((e.operands.flatMap Expr.terminals).map Terminal.turtleString) := by
      have hall : ∀ o ∈ e.operands, Holds (o.turtleLines namespaceName (depth + 1) true)
          (o.terminals.map Terminal.turtleString) :=
        fun o ho => ih o ho (he.of_operand ho) (depth + 1) true
      generalize e.operands = es at hall
      induction es with
      | nil => exact .nil
      | cons o es ihes =>
        obtain ⟨ho, hes⟩ := List.forall_mem_cons.mp hall
        rw [List.flatMap_cons, List.flatMap_cons, List.map_append]
        exact ho.append (ihes hes)
    cases e with
    | terminal t =>
      obtain ⟨front, after, hfront, hafter, hline⟩ := t.exists_turtleLine_eq nested
      have hindented : '"' ∉ (Text.indent depth ++ front).toList := by
        simp [quote_not_mem_indent, hfront]
      rw [Expr.turtleLines, hline, ← String.append_assoc, ← String.append_assoc]
      exact (Holds.string hindented hafter .nil).finishLines nested
    | symbol name =>
      have hname := not_mem_refName (c := '"') (he name (by simp)) (by decide) (by decide)
      rw [Expr.turtleLines]
      refine (holds_singleton ?_).finishLines nested
      cases nested <;> simp [quote_not_mem_indent, hname]
    | series op es =>
      rw [Expr.turtleLines, turtleOperands_eq_flatMap, Expr.terminals_of_operands rfl]
      refine (holds_listLines depth hnamespace ?_ hoperands).finishLines nested
      cases op <;> decide
    | diff l r =>
      rw [Expr.turtleLines, Expr.terminals_of_operands rfl]
      refine (holds_listLines depth hnamespace (by decide) ?_).finishLines nested
      simpa [Expr.operands] using hoperands
    | repeated op e =>
      rw [turtleLines_repeated, Expr.terminals_of_operands rfl]
      obtain ⟨hopening, hclosing⟩ := quote_not_mem_brackets nested
      have htag : '"' ∉ op.tag.toList := by cases op <;> decide
      have hend : Holds (if nested then [Text.indent depth ++ " " ++ (brackets nested).2] else []) [] := by
        split
        · exact holds_singleton (by simp [quote_not_mem_indent, hclosing])
        · exact .nil
      have hlines := hoperands.append hend
      rw [List.append_nil] at hlines
      refine Holds.finishLines nested (.bare ?_ ?_)
      · simp [quote_not_mem_indent, hopening, hnamespace, htag]
      · simpa [Expr.operands] using hlines

end Lines

section Strings
open Turtle
variable {d : Delimiter} {x : Char} {cs value : List Char} {text : String}

theorem mem_escapeChars_of_mem {cs : List Char} (h : x ∈ cs) : x ∈ escapeChars cs := by
  refine List.mem_flatMap.mpr ⟨x, h, ?_⟩
  split <;> simp

theorem tail_escapeChars (hd : d.quotes = 1)
    (hcs : d.breaks ∨ ∀ c ∈ cs, c ≠ '\n' ∧ c ≠ '\r') : Tail d (escapeChars cs ++ d.text) cs := by
  induction cs with
  | nil => exact .close
  | cons c cs ih =>
    have hrest : Tail d (escapeChars cs ++ d.text) cs :=
      ih (hcs.imp_right fun hall => (List.forall_mem_cons.mp hall).2)
    have hpiece : Piece d (if c == '\\' || c == '"' then ['\\', c] else [c]) c := by
      split
      case isTrue hc =>
        have hmark : c = '\\' ∨ c = '"' := by simpa using hc
        rcases hmark with rfl | rfl
        all_goals exact .escape rfl
      case isFalse hc =>
        have hplain : c ≠ '\\' ∧ c ≠ '"' := by simpa using hc
        exact .plain hplain.2 hplain.1 (hcs.imp_right fun hall => hall c List.mem_cons_self)
    rw [escapeChars, List.flatMap_cons, List.append_assoc]
    exact .single (by rw [hd]; decide) hpiece hrest

theorem isString_inQuotes (hd : d.quotes = 1)
    (htext : d.breaks ∨ ∀ c ∈ text.toList, c ≠ '\n' ∧ c ≠ '\r') :
    IsString d (inQuotes (escaped text)).toList text.toList := by
  have hstring := IsString.intro (tail_escapeChars hd htext)
  rw [Delimiter.text, hd] at hstring
  simpa [inQuotes, escaped] using hstring

/-- Whatever the text is, it can be told from the string if lines may break in it. -/
theorem isString_relaxed_iff :
    IsString short.relaxed (inQuotes (escaped text)).toList value ↔ value = text.toList := by
  have hstring : IsString short.relaxed (inQuotes (escaped text)).toList text.toList :=
    isString_inQuotes rfl (.inl rfl)
  constructor
  · intro h
    have hsame : (inQuotes (escaped text)).toList ++ [] = (inQuotes (escaped text)).toList ++ [] := rfl
    exact (h.unique hstring hsame).2
  · rintro rfl
    exact hstring

/-- Line breaks are left as they are, which is no string. -/
theorem isString_short_iff : IsString short (inQuotes (escaped text)).toList value ↔
    value = text.toList ∧ '\n' ∉ text.toList ∧ '\r' ∉ text.toList := by
  constructor
  · intro h
    have hnone {x : Char} (hx : x = '\n' ∨ x = '\r') : x ∉ text.toList := by
      intro hmem
      refine h.not_mem_of_break rfl hx ?_
      simp [inQuotes, escaped, mem_escapeChars_of_mem hmem]
    -- A short string is a relaxed one too, and these are known to stand for the text.
    exact ⟨isString_relaxed_iff.mp h.relaxed, hnone (.inl rfl), hnone (.inr rfl)⟩
  · rintro ⟨rfl, hfeed, hreturn⟩
    refine isString_inQuotes rfl (.inr fun c hc => ⟨?_, ?_⟩)
    · rintro rfl
      exact hfeed hc
    · rintro rfl
      exact hreturn hc

theorem mem_turtleValue_iff (hx : x = '\n' ∨ x = '\r') (t : Terminal) :
    x ∈ t.turtleValue.toList ↔ x ∈ t.text.toList := by
  have hclass (spec : String) : x ∈ (classRegex spec).toList ↔ x ∈ spec.toList := by
    have hothers : x ≠ '[' ∧ x ≠ ']' ∧ x ≠ '#' ∧ x ≠ '\\' ∧ Text.isWord x = false := by
      rcases hx with rfl | rfl <;> decide
    obtain ⟨hopen, hclose, hhash, hback, hword⟩ := hothers
    exact mem_classRegex_iff hopen hclose hhash hback hword
  cases t with
  | literal => exact .rfl
  | charClass spec => exact hclass spec
  | hexRef spec => exact hclass spec

/-- The string of a terminal is a short one if and only if the terminal is written on one line. -/
theorem Terminal.isString_turtleString_iff (t : Terminal) :
    IsString short t.turtleString.toList value ↔
      value = t.turtleValue.toList ∧ '\n' ∉ t.text.toList ∧ '\r' ∉ t.text.toList := by
  rw [turtleString, isString_short_iff, mem_turtleValue_iff (.inl rfl), mem_turtleValue_iff (.inr rfl)]

end Strings

section Load
open Turtle
variable {file : Option String} {text : String} {r : Rule} {g : Grammar}

/-- The lines of a loaded rule hold the strings of its terminals, in order. Each has its quotation marks
and backslashes escaped and stands for the text of a literal or the regular expression for a class. It is
a string of Turtle exactly where there is no line break in the terminal, since none is escaped. -/
theorem holds_turtleLines_of_load (h : Grammar.load text file = .ok g) (hr : r ∈ g.rules) :
    Holds (r.expr.turtleLines r.turtleNamespace 1 false) (r.expr.terminals.map Terminal.turtleString) ∧
      ∀ t ∈ r.expr.terminals, ∀ value,
        (IsString short.relaxed t.turtleString.toList value ↔ value = t.turtleValue.toList) ∧
          (IsString short t.turtleString.toList value ↔
            value = t.turtleValue.toList ∧ '\n' ∉ t.text.toList ∧ '\r' ∉ t.text.toList) := by
  refine ⟨holds_turtleLines ?_ ((Obtained.load h).isSpelled r hr).expr 1 false, fun t _ value => ?_⟩
  · unfold Rule.turtleNamespace
    split <;> decide
  · exact ⟨isString_relaxed_iff, t.isString_turtleString_iff⟩

end Load

/-- Quotation marks, backslashes and hex references, in a literal, in a class and alone. -/
def quotingText : String := "[1] a ::= '\"\\n' [^#x22\\\"] #x5C"

theorem isString_quotingText : ∃ g, Grammar.load quotingText none = .ok g ∧ ∃ r ∈ g.rules,
    Turtle.Holds (r.expr.turtleLines r.turtleNamespace 1 false)
        (r.expr.terminals.map Terminal.turtleString) ∧
      r.expr.terminals.map Terminal.turtleValue = ["\"\\n", "[^\\u0022\\\"]", "[\\u005C]"] ∧
      ∀ t ∈ r.expr.terminals, Turtle.IsString Turtle.short t.turtleString.toList t.turtleValue.toList := by
  obtain ⟨g, hload, r, hr, hvalues, hlines⟩ : ∃ g, Grammar.load quotingText none = .ok g ∧
      ∃ r ∈ g.rules,
        r.expr.terminals.map Terminal.turtleValue = ["\"\\n", "[^\\u0022\\\"]", "[\\u005C]"] ∧
        ∀ t ∈ r.expr.terminals, '\n' ∉ t.text.toList ∧ '\r' ∉ t.text.toList :=
    ⟨_, rfl, _, List.mem_cons_self, by decide +kernel, by decide +kernel⟩
  obtain ⟨hholds, hstrings⟩ := holds_turtleLines_of_load hload hr
  exact ⟨g, hload, r, hr, hholds, hvalues, fun t ht => (hstrings t ht _).2.mpr ⟨rfl, hlines t ht⟩⟩

/-- A literal on two lines. -/
def foldedText : String := "[1] a ::= 'b\nc'"

theorem not_isString_foldedText : ∃ g, Grammar.load foldedText none = .ok g ∧ ∃ r ∈ g.rules,
    r.expr = .literal "b\nc" ∧ r.expr.turtleLines r.turtleNamespace 1 false = ["  \"b\nc\" ."] ∧
      ∀ t ∈ r.expr.terminals, ¬∃ value, Turtle.IsString Turtle.short t.turtleString.toList value := by
  refine ⟨_, rfl, _, List.mem_cons_self, by decide +kernel, by decide +kernel, ?_⟩
  rintro t ht ⟨value, hvalue⟩
  obtain ⟨-, hfeed, -⟩ := t.isString_turtleString_iff.mp hvalue
  have hmem : ∀ t ∈ (Expr.literal "b\nc").terminals, '\n' ∈ t.text.toList := by decide +kernel
  exact hfeed (hmem t ht)

end FlatGrammar
