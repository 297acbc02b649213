import FlatGrammar.Dump.SExpr
import FlatGrammar.Proofs.Grammar.Spelling

/-! # Reading S-expressions back

The reader takes one character after another. It keeps the tuples that are open, and an atom goes on until
something ends it. Atoms and quoted texts come out as the same, and no rule but a pass rule lacks a symbol,
so a symbol is never mistaken for a missing one. What is written for a grammar is read back as the
structure of the grammar, so nothing of that is lost.
-/
namespace FlatGrammar

def Rule.outline (r : Rule) : Outline :=
  .tuple [r.symbol.elim .nothing .text, .text r.id, .text r.kind.name, r.expr.outline]

/-- The structure of a rule that has the word for a missing symbol in its place. -/
def Rule.wordedOutline (r : Rule) : Outline :=
  .tuple [.text (r.symbol.getD "nil"), .text r.id, .text r.kind.name, r.expr.outline]

/-- The structure of the rules, in order. -/
def Grammar.outlines (g : Grammar) : List Outline := g.rules.map Rule.outline

/-- What the next character goes on with. The characters of a text come latest first. -/
inductive ReaderMode where
  | between
  | atom (chars : List Char)
  | quoted (chars : List Char)
  | escape (chars : List Char)
  deriving DecidableEq, Repr

/-- What has been read of the tuples that are open, the innermost tuple and the latest parts first. -/
structure SExprReader where
  mode : ReaderMode
  opened : List (List Outline)

namespace SExprReader

def isDelimiter (c : Char) : Bool := c == ' ' || c == '\n' || c == '(' || c == ')' || c == '"'

/-- A text that need not be quoted. -/
def isAtom (text : String) : Bool := !text.toList.isEmpty && text.toList.all (!isDelimiter ·)

def value (chars : List Char) : Outline := .text (String.ofList chars.reverse)

def receive (part : Outline) : List (List Outline) → Option SExprReader
  | [] => none
  | parts :: outer => some ⟨.between, (part :: parts) :: outer⟩

def close : List (List Outline) → Option SExprReader
  | [] => none
  | parts :: outer => receive (.tuple parts.reverse) outer

def begin (opened : List (List Outline)) (c : Char) : Option SExprReader :=
  if c == ' ' || c == '\n' then some ⟨.between, opened⟩
  else if c == '(' then some ⟨.between, [] :: opened⟩
  else if c == ')' then close opened
  else if c == '"' then some ⟨.quoted [], opened⟩
  else some ⟨.atom [c], opened⟩

def step (s : SExprReader) (c : Char) : Option SExprReader :=
  match s.mode with
  | .between => begin s.opened c
  | .atom chars =>
    if isDelimiter c then (receive (value chars) s.opened).bind fun s => begin s.opened c
    else some ⟨.atom (c :: chars), s.opened⟩
  | .quoted chars =>
    if c == '\\' then some ⟨.escape chars, s.opened⟩
    else if c == '"' then receive (value chars) s.opened
    else some ⟨.quoted (c :: chars), s.opened⟩
  | .escape chars => some ⟨.quoted (c :: chars), s.opened⟩

def run : List Char → SExprReader → Option SExprReader
  | [], s => some s
  | c :: cs, s => (s.step c).bind (run cs)

/-- The end of a text counts as a line break. -/
def read? (text : String) : Option Outline :=
  match run (text.toList ++ ['\n']) ⟨.between, [[]]⟩ with
  | some ⟨.between, [[part]]⟩ => some part
  | _ => none

/-- A pass rule has no symbol. -/
def rule (o : Outline) : Outline :=
  match o with
  | .tuple [_, id, .text kind, e] =>
    if kind = Kind.pass.name then .tuple [.nothing, id, .text kind, e] else o
  | _ => o

def grammar? (text : String) : Option (List Outline) :=
  match read? text with
  | some (.tuple rules) => some (rules.map rule)
  | _ => none

/-- Up to the next delimiter, characters are read as the given parts of the innermost tuple. -/
def ReadsBack (cs : List Char) (parts : List Outline) : Prop :=
  ∀ (c : Char) (rest : List Char) (before : List Outline) (outer : List (List Outline)),
    isDelimiter c → run (cs ++ c :: rest) ⟨.between, before :: outer⟩ =
      run (c :: rest) ⟨.between, (parts.reverse ++ before) :: outer⟩

section Pieces
variable {cs ds bs : List Char} {os ps : List Outline} {opened : List (List Outline)}

theorem readsBack_nil : ReadsBack [] [] := fun _ _ _ _ _ => rfl

theorem ReadsBack.append (h : ReadsBack cs os) (h' : ReadsBack ds ps)
    (hds : ∀ d ∈ ds.head?, isDelimiter d) : ReadsBack (cs ++ ds) (os ++ ps) := by
  intro c rest before outer hc
  rw [List.append_assoc, List.reverse_append, List.append_assoc, ← h' _ _ _ _ hc]
  cases ds with
  | nil => exact h _ _ _ _ hc
  | cons d ds => exact h _ _ _ _ (hds d rfl)

theorem run_blanks (hbs : ∀ b ∈ bs, b = ' ' ∨ b = '\n') (rest : List Char) :
    run (bs ++ rest) ⟨.between, opened⟩ = run rest ⟨.between, opened⟩ := by
  induction bs with
  | nil => rfl
  | cons b bs ih =>
    obtain ⟨hb, hblanks⟩ := List.forall_mem_cons.mp hbs
    rw [List.cons_append, run]
    rcases hb with rfl | rfl
    · exact ih hblanks
    · exact ih hblanks

/-- Parts with blanks between them are read one after the other. -/
theorem ReadsBack.spaced (h : ReadsBack cs os) (h' : ReadsBack ds ps) (hne : bs ≠ [])
    (hbs : ∀ b ∈ bs, b = ' ' ∨ b = '\n') : ReadsBack (cs ++ (bs ++ ds)) (os ++ ps) := by
  refine h.append ?_ ?_
  · intro c rest before outer hc
    rw [List.append_assoc, run_blanks hbs]
    exact h' _ _ _ _ hc
  · obtain ⟨b, bs, rfl⟩ := List.exists_cons_of_ne_nil hne
    intro d hd
    obtain rfl := Option.some.inj hd
    rcases hbs b List.mem_cons_self with rfl | rfl
    all_goals rfl

theorem run_atom {chars : List Char} (hcs : ∀ c ∈ cs, isDelimiter c = false) (rest : List Char) :
    run (cs ++ rest) ⟨.atom chars, opened⟩ = run rest ⟨.atom (cs.reverse ++ chars), opened⟩ := by
  induction cs generalizing chars with
  | nil => rfl
  | cons c cs ih =>
    obtain ⟨hc, hcs⟩ := List.forall_mem_cons.mp hcs
    rw [List.cons_append, run, step, hc, List.reverse_cons, List.append_assoc]
    exact ih hcs

theorem readsBack_atom {text : String} (htext : isAtom text) : ReadsBack text.toList [.text text] := by
  intro c rest before outer hc
  simp only [isAtom, Bool.and_eq_true, List.all_eq_true, Bool.not_eq_true'] at htext
  obtain ⟨hne, hall⟩ := htext
  obtain ⟨d, ds, htoList⟩ := List.exists_cons_of_ne_nil (List.isEmpty_eq_false_iff.mp hne)
  rw [htoList] at hall
  obtain ⟨hd, hds⟩ := List.forall_mem_cons.mp hall
  have hbegin : begin (before :: outer) d = some ⟨.atom [d], before :: outer⟩ := by
    simp only [isDelimiter, Bool.or_eq_false_iff] at hd
    simp [begin, hd]
  have hvalue : value (ds.reverse ++ [d]) = .text text := by
    rw [value, List.reverse_append, List.reverse_reverse, List.reverse_singleton,
      List.singleton_append, ← htoList, String.ofList_toList]
  rw [htoList, List.cons_append, run, step]
  simp only [hbegin, Option.bind_some]
  rw [run_atom hds, run, run, step, step]
  simp only [hc, if_true, hvalue, receive]
  rfl

theorem run_escapeChars {chars : List Char} (cs rest : List Char) :
    run (escapeChars cs ++ rest) ⟨.quoted chars, opened⟩ =
      run rest ⟨.quoted (cs.reverse ++ chars), opened⟩ := by
  induction cs generalizing chars with
  | nil => rfl
  | cons c cs ih =>
    rw [List.reverse_cons, List.append_assoc, List.singleton_append, ← ih, escapeChars, List.flatMap_cons,
      List.append_assoc]
    split
    case isTrue => rfl
    case isFalse hc =>
      simp only [Bool.or_eq_true, not_or, Bool.not_eq_true] at hc
      rw [List.singleton_append, run, step]
      simp only [hc]
      rfl

/-- A text in quotes is read back whatever its characters are. -/
theorem readsBack_quoted (text : String) :
    ReadsBack (inQuotes (escaped text)).toList [.text text] := by
  intro c rest before outer _
  have htext : (inQuotes (escaped text)).toList = '"' :: (escapeChars text.toList ++ ['"']) := by
    simp [inQuotes, escaped]
  have hvalue : value (text.toList.reverse ++ []) = .text text := by
    rw [value, List.append_nil, List.reverse_reverse, String.ofList_toList]
  have hopen : run (('"' :: (escapeChars text.toList ++ ['"'])) ++ c :: rest)
      ⟨.between, before :: outer⟩ =
        run (escapeChars text.toList ++ '"' :: c :: rest) ⟨.quoted [], before :: outer⟩ := by
    rw [List.cons_append, List.append_assoc]
    rfl
  rw [htext, hopen, run_escapeChars, run, step]
  exact congrArg (fun part => (receive part (before :: outer)).bind (run (c :: rest))) hvalue

theorem ReadsBack.tuple (h : ReadsBack cs os) : ReadsBack ('(' :: (cs ++ [')'])) [.tuple os] := by
  intro c rest before outer _
  have hopen : run (('(' :: (cs ++ [')'])) ++ c :: rest) ⟨.between, before :: outer⟩ =
      run (cs ++ ')' :: c :: rest) ⟨.between, [] :: before :: outer⟩ := by
    rw [List.cons_append, List.append_assoc]
    rfl
  have hclose : run (')' :: c :: rest) ⟨.between, (os.reverse ++ []) :: before :: outer⟩ =
      run (c :: rest) ⟨.between, (.tuple os :: before) :: outer⟩ := by
    rw [List.append_nil, run]
    simp [step, begin, close, receive]
  rw [hopen, h _ _ _ _ rfl, hclose]
  rfl

theorem read?_of_readsBack {text : String} {part : Outline} (h : ReadsBack text.toList [part]) :
    read? text = some part := by
  rw [read?, h _ _ _ _ rfl]
  rfl

end Pieces

section Written
variable {cs : List Char} {os : List Outline} {e : Expr} {r : Rule}

theorem isDelimiter_of_isWord {c : Char} (h : Text.isWord c) : isDelimiter c = false := by
  have hne {d : Char} (hd : Text.isWord d = false) : (c == d) = false :=
    beq_false_of_ne (ne_of_isWord h hd)
  simp only [isDelimiter, Bool.or_eq_false_iff]
  refine ⟨⟨⟨⟨?_, ?_⟩, ?_⟩, ?_⟩, ?_⟩ <;> exact hne (by decide)

theorem isAtom_of_isName {name : String} (h : IsName (some name)) : isAtom name := by
  simp only [isAtom, Bool.and_eq_true, List.all_eq_true, Bool.not_eq_true']
  exact ⟨List.isEmpty_eq_false_iff.mpr h.1, fun c hc => isDelimiter_of_isWord (h.2 c hc)⟩

theorem readsBack_sexprRest {es : List Expr} (h : ReadsBack cs os)
    (hes : ∀ e ∈ es, ReadsBack e.sexpr.toList [e.outline]) :
    ReadsBack (cs ++ (Expr.sexprRest es).toList) (os ++ es.map Expr.outline) := by
  induction es generalizing cs os with
  | nil =>
    rw [Expr.sexprRest, List.map_nil, List.append_nil]
    exact (List.append_nil cs).symm ▸ h
  | cons e es ih =>
    obtain ⟨he, hes⟩ := List.forall_mem_cons.mp hes
    have htext : cs ++ (Expr.sexprRest (e :: es)).toList =
        cs ++ ([' '] ++ e.sexpr.toList) ++ (Expr.sexprRest es).toList := by simp [Expr.sexprRest]
    have hparts : os ++ (e :: es).map Expr.outline =
        os ++ [e.outline] ++ es.map Expr.outline := by simp
    rw [htext, hparts]
    exact ih (h.spaced he (by simp) (by simp)) hes

theorem isAtom_tag (t : Terminal) : isAtom t.tag := by
  cases t with
  | literal => exact (by decide : isAtom "'" = true)
  | charClass => exact (by decide : isAtom "range" = true)
  | hexRef => exact (by decide : isAtom "hex" = true)

/-- A node is written with its tag in front of its operands. -/
theorem readsBack_node {tag : String} (htag : isAtom tag) {es : List Expr}
    (hes : ∀ e ∈ es, ReadsBack e.sexpr.toList [e.outline]) :
    ReadsBack ("(" ++ tag ++ Expr.sexprRest es ++ ")").toList
      [.tuple (.text tag :: es.map Expr.outline)] := by
  have htext : ("(" ++ tag ++ Expr.sexprRest es ++ ")").toList =
      '(' :: (tag.toList ++ (Expr.sexprRest es).toList ++ [')']) := by simp
  rw [htext]
  exact (readsBack_sexprRest (readsBack_atom htag) hes).tuple

/-- An expression with names is read back as its structure. -/
theorem readsBack_sexpr (h : e.HasNames) : ReadsBack e.sexpr.toList [e.outline] := by
  induction e using Expr.operands_induction with
  | step e ih =>
    have hoperands : ∀ o ∈ e.operands, ReadsBack o.sexpr.toList [o.outline] := fun o ho =>
      ih o ho (h.of_operand ho)
    cases e with
    | symbol name =>
      have hname : IsName name := h name (by simp)
      cases name with
      | none => exact hname.elim
      | some name =>
        rw [outline_eq]
        exact readsBack_atom (isAtom_of_isName hname)
    | terminal t =>
      have htag : ReadsBack t.tag.toList [.text t.tag] := readsBack_atom (isAtom_tag t)
      have hparts : ReadsBack (t.tag.toList ++ ([' '] ++ (inQuotes (escaped t.text)).toList))
          [.text t.tag, .text t.text] := htag.spaced (readsBack_quoted t.text) (by simp) (by simp)
      have htext : (Expr.terminal t).sexpr.toList =
          '(' :: (t.tag.toList ++ ([' '] ++ (inQuotes (escaped t.text)).toList) ++ [')']) := by
        simp [Expr.sexpr]
      rw [htext, outline_eq]
      exact hparts.tuple
    | series op es =>
      have htag : isAtom op.tag := by cases op <;> rfl
      rw [outline_eq]
      exact readsBack_node htag hoperands
    | diff l r =>
      have htag : isAtom "diff" := rfl
      have htext : (Expr.diff l r).sexpr.toList =
          ("(" ++ "diff" ++ Expr.sexprRest [l, r] ++ ")").toList := by
        simp [Expr.sexpr, Expr.sexprRest]
      rw [outline_eq, htext]
      exact readsBack_node htag hoperands
    | repeated op e =>
      have htag : isAtom op.tag := by cases op <;> rfl
      have htext : (Expr.repeated op e).sexpr = "(" ++ op.tag ++ Expr.sexprRest [e] ++ ")" := by
        simp [Expr.sexpr, Expr.sexprRest, String.append_assoc]
      rw [outline_eq, htext]
      exact readsBack_node htag hoperands

theorem escapeChars_eq_self {cs : List Char} (h : ∀ c ∈ cs, c ≠ '\\' ∧ c ≠ '"') :
    escapeChars cs = cs := by
  induction cs with
  | nil => rfl
  | cons c cs ih =>
    obtain ⟨⟨hback, hquote⟩, hcs⟩ := List.forall_mem_cons.mp h
    rw [escapeChars, List.flatMap_cons, ← escapeChars, ih hcs]
    simp [hback, hquote]

theorem readsBack_id (hr : r.IsSpelled) : ReadsBack (inQuotes r.id).toList [.text r.id] := by
  have hescaped : escaped r.id = r.id := by
    have hid : ∀ c ∈ r.id.toList, c ≠ '\\' ∧ c ≠ '"' := by
      intro c hc
      rcases hr.id c hc with hidChar | rfl
      · constructor
        · rintro rfl
          exact absurd hidChar (by decide)
        · rintro rfl
          exact absurd hidChar (by decide)
      · decide
    rw [escaped, escapeChars_eq_self hid, String.ofList_toList]
  have hquoted := readsBack_quoted r.id
  rwa [hescaped] at hquoted

theorem isAtom_symbol (hr : r.IsSpelled) : isAtom (r.symbol.getD "nil") := by
  rcases hr.symbol with ⟨-, hnone⟩ | ⟨-, hname⟩
  · rw [hnone]
    decide
  · cases hs : r.symbol with
    | none =>
      rw [hs] at hname
      exact hname.elim
    | some s =>
      rw [hs] at hname
      exact isAtom_of_isName hname

theorem isAtom_kind (hr : r.IsSpelled) : isAtom r.kind.name := by
  rcases hr.symbol with ⟨hpass, -⟩ | ⟨hkind, -⟩
  · rw [hpass]
    decide
  · simp only [List.mem_cons, List.not_mem_nil, or_false] at hkind
    rcases hkind with hrule | hterminal
    · rw [hrule]
      decide
    · rw [hterminal]
      decide

theorem readsBack_rule (hr : r.IsSpelled) : ReadsBack r.sexpr.toList [r.wordedOutline] := by
  have hspace : ∀ b ∈ [' '], b = ' ' ∨ b = '\n' := by simp
  have hparts := (((readsBack_atom (isAtom_symbol hr)).spaced (readsBack_id hr) (by simp) hspace).spaced
    (readsBack_atom (isAtom_kind hr)) (by simp) hspace).spaced (readsBack_sexpr hr.expr) (by simp) hspace
  have htext : r.sexpr.toList = '(' :: ((r.symbol.getD "nil").toList ++
      ([' '] ++ (inQuotes r.id).toList) ++ ([' '] ++ r.kind.name.toList) ++
      ([' '] ++ r.expr.sexpr.toList) ++ [')']) := by
    simp [Rule.sexpr]
  rw [htext]
  exact hparts.tuple

theorem rule_wordedOutline (hr : r.IsSpelled) : rule r.wordedOutline = r.outline := by
  unfold Rule.wordedOutline Rule.outline rule
  rcases hr.symbol with ⟨hpass, hnone⟩ | ⟨hkind, hname⟩
  · rw [hpass, hnone]
    exact if_pos rfl
  · have hother : r.kind.name ≠ Kind.pass.name := by
      simp only [List.mem_cons, List.not_mem_nil, or_false] at hkind
      rcases hkind with hkind | hkind
      · rw [hkind]
        decide
      · rw [hkind]
        decide
    cases hs : r.symbol with
    | none =>
      rw [hs] at hname
      exact hname.elim
    | some s => exact if_neg hother

theorem readsBack_intercalate {rules : List Rule} (hrules : ∀ r ∈ rules, r.IsSpelled) :
    ReadsBack ("\n ".intercalate (rules.map Rule.sexpr)).toList (rules.map Rule.wordedOutline) := by
  induction rules with
  | nil => exact readsBack_nil
  | cons r rules ih =>
    obtain ⟨hr, hrest⟩ := List.forall_mem_cons.mp hrules
    cases rules with
    | nil => exact readsBack_rule hr
    | cons t rules =>
      have htext : ("\n ".intercalate ((r :: t :: rules).map Rule.sexpr)).toList = r.sexpr.toList ++
          (['\n', ' '] ++ ("\n ".intercalate ((t :: rules).map Rule.sexpr)).toList) := by
        simp [String.intercalate_cons_cons]
      rw [htext]
      exact (readsBack_rule hr).spaced (ih hrest) (by simp) (by simp)

theorem unnamedAmong?_eq_none {es : List Expr} (h : ∀ o ∈ es, o.HasNames) :
    Expr.unnamedAmong? es = none := by
  rw [Expr.unnamedAmong?, Option.map_eq_none_iff, List.findIdx?_eq_none_iff]
  intro o ho
  refine decide_eq_false ?_
  rintro rfl
  exact h _ ho none (by simp)

theorem unnamedBelow?_eq_none {es : List Expr} (h : ∀ o ∈ es, o.unnamedOperand? = none) :
    Expr.unnamedBelow? es = none := by
  induction es with
  | nil => rfl
  | cons e es ih =>
    obtain ⟨he, hes⟩ := List.forall_mem_cons.mp h
    rw [Expr.unnamedBelow?, he, ih hes]
    rfl

theorem unnamedOperand?_eq_none (h : e.HasNames) : e.unnamedOperand? = none := by
  induction e using Expr.operands_induction with
  | step e ih =>
    have hamong : Expr.unnamedAmong? e.operands = none :=
      unnamedAmong?_eq_none fun o ho => h.of_operand ho
    have hbelow : ∀ o ∈ e.operands, o.unnamedOperand? = none := fun o ho => ih o ho (h.of_operand ho)
    cases e with
    | symbol _ | terminal _ => rfl
    | series op es =>
      have hes : Expr.unnamedBelow? es = none := unnamedBelow?_eq_none hbelow
      rw [Expr.unnamedOperand?, hes]
      exact hamong
    | diff l r =>
      obtain ⟨hl, hr⟩ := List.forall_mem_cons.mp hbelow
      rw [Expr.unnamedOperand?, hl, hr r List.mem_cons_self]
      exact hamong
    | repeated op e =>
      rw [Expr.unnamedOperand?, hbelow e List.mem_cons_self]
      exact hamong

theorem sexpr?_eq_ok {g : Grammar} (h : ∀ r ∈ g.rules, r.IsSpelled) : g.sexpr? = .ok g.sexpr := by
  have hnone : g.rules.findSome? (·.expr.sexprBreakdown?) = none := by
    refine List.findSome?_eq_none_iff.mpr fun r hr => ?_
    rw [Expr.sexprBreakdown?, unnamedOperand?_eq_none (h r hr).expr]
    rfl
  rw [Grammar.sexpr?, hnone]
  rfl

theorem grammar?_sexpr {g : Grammar} (h : ∀ r ∈ g.rules, r.IsSpelled) :
    grammar? g.sexpr = some g.outlines := by
  have htext : g.sexpr.toList =
      '(' :: (("\n ".intercalate (g.rules.map Rule.sexpr)).toList ++ [')']) := by
    simp [Grammar.sexpr]
  have hread : ReadsBack g.sexpr.toList [.tuple (g.rules.map Rule.wordedOutline)] := by
    rw [htext]
    exact (readsBack_intercalate h).tuple
  rw [grammar?, read?_of_readsBack hread]
  simp only [List.map_map, Grammar.outlines]
  exact congrArg some (List.map_congr_left fun r hr => rule_wordedOutline (h r hr))

end Written

end SExprReader

/-- The structure of a grammar is read back from its S-expression, so no two grammars of different
structure are written alike, whatever their literals and classes contain. -/
theorem sexpr?_lossless {g h : Grammar} (hg : Obtained g) (hh : Obtained h) :
    (∃ text, g.sexpr? = .ok text ∧ SExprReader.grammar? text = some g.outlines) ∧
      (g.sexpr? = h.sexpr? → g.outlines = h.outlines) := by
  have hread := SExprReader.grammar?_sexpr hg.isSpelled
  have hread' := SExprReader.grammar?_sexpr hh.isSpelled
  rw [SExprReader.sexpr?_eq_ok hg.isSpelled, SExprReader.sexpr?_eq_ok hh.isSpelled]
  refine ⟨⟨g.sexpr, rfl, hread⟩, fun heq => ?_⟩
  rw [← Except.ok.inj heq, hread] at hread'
  exact Option.some.inj hread'

/-- Text with quotes, parentheses and line breaks in it, and a symbol like the word for a missing one. -/
def escapedText : String := "[1] nil ::= '\"\\(\n)' [\\\"x]*\n[2] pass ::= nil\n@pass '\\'"

theorem sexpr?_lossless_escapedText : ∃ g h, Grammar.load escapedText none = .ok g ∧ g.flat = .ok h ∧
    (∃ text, h.sexpr? = .ok text ∧ SExprReader.grammar? text = some h.outlines) ∧
    (h.sexpr? = g.sexpr? → h.outlines = g.outlines) := by
  obtain ⟨g, h, hload, hflat⟩ : ∃ g h, Grammar.load escapedText none = .ok g ∧ g.flat = .ok h :=
    ⟨_, _, rfl, rfl⟩
  have hg : Obtained g := .load hload
  exact ⟨g, h, hload, hflat, sexpr?_lossless (hg.flat hflat) hg⟩

end FlatGrammar
