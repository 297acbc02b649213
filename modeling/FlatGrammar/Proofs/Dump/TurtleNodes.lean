import FlatGrammar.Proofs.Dump.TurtleString
import FlatGrammar.Proofs.Expr.Writing

/-! # Nodes of Turtle

Turtle is made of words, of strings and of groups between brackets. Brackets are closed in the order in
which they are open, except that those in strings are characters like any others. A text has one reading at
most, since the first character of what is left tells what comes next.
-/
namespace FlatGrammar
namespace Turtle

inductive Bracket where
  | round
  | square
  deriving DecidableEq, Repr

def Bracket.opening : Bracket → Char
  | round => '('
  | square => '['

def Bracket.closing : Bracket → Char
  | round => ')'
  | square => ']'

/-- What comes next in a text, as its first character has it. -/
inductive Role where
  | finish
  | blank
  | quote
  | opening (bracket : Bracket)
  | closing (bracket : Bracket)
  | inner
  deriving DecidableEq, Repr

def role : Char → Role
  | ' ' => .blank
  | '\n' => .blank
  | '"' => .quote
  | '(' => .opening .round
  | '[' => .opening .square
  | ')' => .closing .round
  | ']' => .closing .square
  | _ => .inner

def leading : List Char → Role
  | [] => .finish
  | c :: _ => role c

/-- The nodes of Turtle. A string stands for the text that it holds. -/
inductive Node where
  | word (text : String)
  | string (text : String)
  | group (bracket : Bracket) (nodes : List Node)
  deriving Repr

def IsWord (text : String) : Prop := text.toList ≠ [] ∧ ∀ c ∈ text.toList, role c = .inner

instance (text : String) : Decidable (IsWord text) :=
  decidable_of_iff (text.toList ≠ [] ∧ text.toList.all (role · == .inner))
    (by simp only [IsWord, List.all_eq_true, beq_iff_eq])

/-- The nodes of a text. A word is as long as it can be. -/
inductive NodesOf : List Char → List Node → Prop
  | nil : NodesOf [] []
  | blank {c : Char} {cs : List Char} {ns : List Node} (hc : role c = .blank) (h : NodesOf cs ns) :
      NodesOf (c :: cs) ns
  | word {text : String} {cs : List Char} {ns : List Node} (hword : IsWord text)
      (hstop : leading cs ≠ .inner) (h : NodesOf cs ns) : NodesOf (text.toList ++ cs) (.word text :: ns)
  | string {text : String} {cs rest : List Char} {ns : List Node}
      (hstring : IsString short.relaxed cs text.toList) (h : NodesOf rest ns) :
      NodesOf (cs ++ rest) (.string text :: ns)
  | group {b : Bracket} {cs rest : List Char} {ns ms : List Node} (hinner : NodesOf cs ns)
      (h : NodesOf rest ms) : NodesOf (b.opening :: (cs ++ b.closing :: rest)) (.group b ns :: ms)

/-- How a text starts that has the given nodes, and what role its first character has. -/
def StartsAs (cs : List Char) (ns : List Node) : Role → Prop
  | .blank => ∃ c rest, cs = c :: rest ∧ NodesOf rest ns
  | .inner => ∃ text rest ms, cs = text.toList ++ rest ∧ ns = .word text :: ms ∧
      IsWord text ∧ leading rest ≠ .inner ∧ NodesOf rest ms
  | .quote => ∃ string text rest ms, cs = string ++ rest ∧ ns = .string text :: ms ∧
      IsString short.relaxed string text.toList ∧ NodesOf rest ms
  | .opening b => ∃ inner rest ns' ms, cs = b.opening :: (inner ++ b.closing :: rest) ∧
      ns = .group b ns' :: ms ∧ NodesOf inner ns' ∧ NodesOf rest ms
  | _ => cs = [] ∧ ns = []

/-- The text is at its end or goes on with a bracket that closes. -/
def Closes (cs : List Char) : Prop := leading cs = .finish ∨ ∃ b, leading cs = .closing b

@[simp] theorem role_opening (b : Bracket) : role b.opening = .opening b := by cases b <;> rfl

@[simp] theorem role_closing (b : Bracket) : role b.closing = .closing b := by cases b <;> rfl

section Leading
variable {cs ds value x y : List Char} {ns ms : List Node} {text : String}

theorem leading_append (h : cs ≠ []) (ds : List Char) : leading (cs ++ ds) = leading cs := by
  obtain ⟨c, cs, rfl⟩ := List.exists_cons_of_ne_nil h
  rfl

theorem leading_append_ne {r : Role} (hcs : leading cs ≠ r) (hds : leading ds ≠ r) :
    leading (cs ++ ds) ≠ r := by
  cases cs with
  | nil => exact hds
  | cons c cs => exact hcs

theorem leading_blank {c : Char} (hc : role c = .blank) (cs : List Char) : leading (c :: cs) ≠ .inner := by
  rw [leading, hc]
  nofun

theorem leading_word (h : IsWord text) (rest : List Char) : leading (text.toList ++ rest) = .inner := by
  obtain ⟨hne, hall⟩ := h
  rw [leading_append hne]
  obtain ⟨c, cs, htext⟩ := List.exists_cons_of_ne_nil hne
  rw [htext] at hall ⊢
  exact hall c List.mem_cons_self

theorem leading_string (h : IsString short.relaxed cs value) (rest : List Char) :
    leading (cs ++ rest) = .quote := by
  cases h
  rfl

theorem Closes.startsAs_iff (h : Closes x) : StartsAs cs ns (leading x) ↔ cs = [] ∧ ns = [] := by
  rcases h with h | ⟨b, h⟩
  · rw [h]
    rfl
  · rw [h]
    rfl

theorem Closes.leading_ne_inner (h : Closes x) : leading x ≠ .inner := by
  intro hinner
  rcases h with h | ⟨b, h⟩ <;> cases h.symm.trans hinner

theorem closes_nil : Closes [] := .inl rfl

theorem closes_closing (b : Bracket) (cs : List Char) : Closes (b.closing :: cs) :=
  .inr ⟨b, role_closing b⟩

/-- The first character tells how the nodes start. -/
theorem NodesOf.startsAs (h : NodesOf cs ns) (hx : Closes x) : StartsAs cs ns (leading (cs ++ x)) := by
  cases h with
  | nil => exact hx.startsAs_iff.mpr ⟨rfl, rfl⟩
  | blank hc h =>
    rw [List.cons_append, leading, hc]
    exact ⟨_, _, rfl, h⟩
  | word hword hstop h =>
    rw [List.append_assoc, leading_word hword]
    exact ⟨_, _, _, rfl, rfl, hword, hstop, h⟩
  | string hstring h =>
    rw [List.append_assoc, leading_string hstring]
    exact ⟨_, _, _, _, rfl, rfl, hstring, h⟩
  | group hinner h =>
    rw [List.cons_append, leading, role_opening]
    exact ⟨_, _, _, _, rfl, rfl, hinner, h⟩

theorem NodesOf.of_blank {c : Char} (hc : role c = .blank) (h : NodesOf (c :: cs) ns) : NodesOf cs ns := by
  have hstarts := h.startsAs closes_nil
  rw [List.append_nil, leading, hc] at hstarts
  obtain ⟨c, rest, heq, hrest⟩ := hstarts
  obtain ⟨rfl, rfl⟩ := List.cons.inj heq
  exact hrest

/-- A word ends where it ends. -/
theorem word_unique {text' : String} (h : IsWord text) (h' : IsWord text') (hcs : leading cs ≠ .inner)
    (hds : leading ds ≠ .inner) (heq : text.toList ++ cs = text'.toList ++ ds) :
    text = text' ∧ cs = ds := by
  let isInner (c : Char) : Bool := role c == .inner
  have hall {text : String} (h : IsWord text) : ∀ c ∈ text.toList, isInner c :=
    fun c hc => beq_iff_eq.mpr (h.2 c hc)
  have hstop {cs : List Char} (hcs : leading cs ≠ .inner) : ∀ c ∈ cs.head?, isInner c = false := by
    cases cs with
    | nil => nofun
    | cons c cs =>
      exact forall_head?_cons (P := fun c => isInner c = false) (beq_eq_false_iff_ne.mpr hcs) cs
  obtain ⟨htext, hrest⟩ := takeWhile_run (hall h) (hstop hcs)
  obtain ⟨htext', hrest'⟩ := takeWhile_run (hall h') (hstop hds)
  rw [heq] at htext hrest
  exact ⟨String.toList_inj.mp (htext.symm.trans htext'), hrest.symm.trans hrest'⟩

/-- Up to its end, or to a bracket that closes one before, a text has one reading at most. -/
theorem NodesOf.unique (h : NodesOf cs ns) (h' : NodesOf ds ms) (hx : Closes x) (hy : Closes y)
    (heq : cs ++ x = ds ++ y) : ns = ms ∧ x = y := by
  induction h generalizing ds ms x y with
  | nil =>
    have hstarts := h'.startsAs hy
    rw [← heq, List.nil_append, hx.startsAs_iff] at hstarts
    obtain ⟨rfl, rfl⟩ := hstarts
    exact ⟨rfl, heq⟩
  | blank hc _ ih =>
    have hstarts := h'.startsAs hy
    rw [← heq, List.cons_append, leading, hc] at hstarts
    obtain ⟨c, rest, rfl, hafter⟩ := hstarts
    exact ih hafter hx hy (List.cons.inj heq).2
  | word hword hstop _ ih =>
    have hstarts := h'.startsAs hy
    rw [← heq, List.append_assoc, leading_word hword] at hstarts
    obtain ⟨text, rest, ms, rfl, rfl, hword', hstop', hafter⟩ := hstarts
    rw [List.append_assoc, List.append_assoc] at heq
    obtain ⟨rfl, hrest⟩ := word_unique hword hword' (leading_append_ne hstop hx.leading_ne_inner)
      (leading_append_ne hstop' hy.leading_ne_inner) heq
    obtain ⟨rfl, rfl⟩ := ih hafter hx hy hrest
    exact ⟨rfl, rfl⟩
  | string hstring _ ih =>
    have hstarts := h'.startsAs hy
    rw [← heq, List.append_assoc, leading_string hstring] at hstarts
    obtain ⟨string, text, rest, ms, rfl, rfl, hstring', hafter⟩ := hstarts
    rw [List.append_assoc, List.append_assoc] at heq
    obtain ⟨rfl, htext⟩ := hstring.unique hstring' heq
    obtain ⟨rfl, rfl⟩ := ih hafter hx hy (List.append_cancel_left heq)
    exact ⟨by rw [String.toList_inj.mp htext], rfl⟩
  | @group b _ _ _ _ _ _ ihinner ih =>
    have hstarts := h'.startsAs hy
    rw [← heq, List.cons_append, leading, role_opening] at hstarts
    obtain ⟨inner, rest, ns', ms, rfl, rfl, hinner', hafter⟩ := hstarts
    rw [List.cons_append, List.cons_append, List.append_assoc, List.append_assoc] at heq
    -- The nodes in the group end in front of its closing bracket, whichever way they are read.
    obtain ⟨rfl, hclosing⟩ :=
      ihinner hinner' (closes_closing b _) (closes_closing b _) (List.cons.inj heq).2
    obtain ⟨rfl, rfl⟩ := ih hafter hx hy (List.cons.inj hclosing).2
    exact ⟨rfl, rfl⟩

end Leading

section Pieces
variable {bs cs ds : List Char} {ns ms : List Node} {text : String}

theorem NodesOf.append (h : NodesOf cs ns) (h' : NodesOf ds ms) (hds : leading ds ≠ .inner) :
    NodesOf (cs ++ ds) (ns ++ ms) := by
  induction h with
  | nil => exact h'
  | blank hc _ ih => exact .blank hc ih
  | word hword hstop _ ih =>
    rw [List.append_assoc]
    exact .word hword (leading_append_ne hstop hds) ih
  | string hstring _ ih =>
    rw [List.append_assoc]
    exact .string hstring ih
  | group hinner _ _ ih =>
    rw [List.cons_append, List.append_assoc]
    exact .group hinner ih

theorem NodesOf.blanks (hbs : ∀ b ∈ bs, role b = .blank) (h : NodesOf cs ns) :
    NodesOf (bs ++ cs) ns := by
  induction bs with
  | nil => exact h
  | cons b bs ih =>
    obtain ⟨hb, hbs⟩ := List.forall_mem_cons.mp hbs
    exact .blank hb (ih hbs)

theorem nodesOf_space : NodesOf [' '] [] := .blank rfl .nil

theorem NodesOf.concat_space (h : NodesOf cs ns) : NodesOf (cs ++ [' ']) ns := by
  have happend := h.append nodesOf_space (leading_blank rfl [])
  rwa [List.append_nil] at happend

theorem nodesOf_word (h : IsWord text) : NodesOf text.toList [.word text] := by
  have hword := NodesOf.word h (by decide : leading [] ≠ .inner) .nil
  rwa [List.append_nil] at hword

/-- A word and a space in front of other nodes. -/
theorem NodesOf.cons_word (hword : IsWord text) (h : NodesOf cs ns) :
    NodesOf (text.toList ++ ' ' :: cs) (.word text :: ns) :=
  .word hword (leading_blank rfl cs) (.blank rfl h)

theorem nodesOf_string (h : IsString short.relaxed cs text.toList) : NodesOf cs [.string text] := by
  have hstring := NodesOf.string h .nil
  rwa [List.append_nil] at hstring

theorem NodesOf.enclosed (h : NodesOf cs ns) (b : Bracket) :
    NodesOf (b.opening :: (cs ++ [b.closing])) [.group b ns] := .group h .nil

end Pieces

end Turtle

end FlatGrammar
