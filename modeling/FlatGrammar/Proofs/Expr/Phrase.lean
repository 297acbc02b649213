import FlatGrammar.Expr.Production
import Mathlib.Data.List.Infix
import Mathlib.Data.Finset.Insert

/-! # Phrases

The productions of right-hand sides as a grammar of tokens, apart from any way to read them. The strict
grammar closes every group. The tolerant one, which is what the readers follow, may leave groups open,
and the number of parentheses tells whether it has.
-/
namespace FlatGrammar

/-- The kinds of phrases, from the loosest to the tightest. Alternatives and members are lists. -/
inductive Form where
  | alternatives
  | members
  | difference
  | quantified
  | primary

/-- The trees of a run of tokens. Only if tolerant, a group may stay open. -/
inductive Phrase (tolerant : Bool) : Form → List Token → List Expr → Prop
  | last {ts : List Token} {es : List Expr} (h : Phrase tolerant .members ts es) :
      Phrase tolerant .alternatives ts [.join .seq es]
  | bar {ts us : List Token} {es fs : List Expr} (h : Phrase tolerant .members ts es)
      (h' : Phrase tolerant .alternatives us fs) :
      Phrase tolerant .alternatives (ts ++ .bar :: us) (.join .seq es :: fs)
  | done : Phrase tolerant .members [] []
  | member {ts us : List Token} {e : Expr} {es : List Expr}
      (h : Phrase tolerant .difference ts [e]) (h' : Phrase tolerant .members us es) :
      Phrase tolerant .members (ts ++ us) (e :: es)
  | plain {ts : List Token} {e : Expr} (h : Phrase tolerant .quantified ts [e]) :
      Phrase tolerant .difference ts [e]
  | minus {ts us : List Token} {e f : Expr} (h : Phrase tolerant .quantified ts [e])
      (h' : Phrase tolerant .primary us [f]) :
      Phrase tolerant .difference (ts ++ .minus :: us) [.diff e f]
  | once {ts : List Token} {e : Expr} (h : Phrase tolerant .primary ts [e]) :
      Phrase tolerant .quantified ts [e]
  | repeated {ts : List Token} {t : Token} {e : Expr} {op : Repetition}
      (h : Phrase tolerant .primary ts [e]) (ht : t.repetition? = some op) :
      Phrase tolerant .quantified (ts ++ [t]) [.repeated op e]
  | leaf {t : Token} {e : Expr} (h : t.leaf? = some e) : Phrase tolerant .primary [t] [e]
  | group {ts : List Token} {es : List Expr} (h : Phrase tolerant .alternatives ts es) :
      Phrase tolerant .primary (.opening :: ts ++ [.closing]) [.join .alt es]
  | openGroup {ts : List Token} {es : List Expr} (htolerant : tolerant)
      (h : Phrase tolerant .alternatives ts es) :
      Phrase tolerant .primary (.opening :: ts) [.join .alt es]

/-- No closing parenthesis without an opening one before it, and no opening one without a closing one. -/
def Balanced (ts : List Token) : Prop :=
  (∀ us ∈ ts.inits, us.count .closing ≤ us.count .opening) ∧ ts.count .closing = ts.count .opening

instance (ts : List Token) : Decidable (Balanced ts) := inferInstanceAs (Decidable (_ ∧ _))

theorem Token.ne_of_leaf? {t : Token} {e : Expr} (h : t.leaf? = some e) :
    t ≠ .opening ∧ t ≠ .closing := by
  constructor <;> rintro rfl <;> cases h

theorem Token.ne_of_repetition? {t : Token} {op : Repetition} (h : t.repetition? = some op) :
    t ≠ .opening ∧ t ≠ .closing := by
  constructor <;> rintro rfl <;> cases h

theorem Token.leaf?_of_repetition? {t : Token} {op : Repetition} (h : t.repetition? = some op) :
    t.leaf? = none := by
  cases t
  case question | star | plus => rfl
  all_goals cases h

/-- What a series takes over from its operands, a single operand without a series has too. -/
theorem Expr.join_eq_flatMap {α : Type} {values : Expr → List α} {op : Series} {es : List Expr}
    (h : values (.series op es) = es.flatMap values) : values (.join op es) = es.flatMap values := by
  unfold join
  split
  case h_1 e => exact (List.flatMap_singleton values e).symm
  case h_2 => exact h

/-- A single operand is joined by no series. -/
theorem Expr.join_ne_series_singleton {op : Series} {es : List Expr}
    (h : ∀ e ∈ es, ∀ op f, e ≠ .series op [f]) : ∀ op' f, Expr.join op es ≠ .series op' [f] := by
  unfold join
  split
  case h_1 e => exact h e List.mem_cons_self
  case h_2 hes =>
    rintro op' f heq
    obtain ⟨-, rfl⟩ := Expr.series.inj heq
    exact hes f rfl

theorem count_around {t u : Token} (h : u ≠ t) (ts us : List Token) :
    (ts ++ u :: us).count t = ts.count t + us.count t := by
  rw [List.count_append, List.count_cons_of_ne h]

namespace Phrase
variable {tolerant : Bool} {form : Form} {ts : List Token} {es : List Expr}

/-- A run with as many closing parentheses as opening ones has no open group. -/
theorem count_le (h : Phrase tolerant form ts es) :
    ts.count .closing ≤ ts.count .opening ∧
      (ts.count .closing = ts.count .opening → Phrase false form ts es) := by
  induction h with
  | last _ ih => exact ⟨ih.1, fun heq => .last (ih.2 heq)⟩
  | @bar ts us es fs _ _ ih ih' =>
    rw [count_around (t := .closing) (u := .bar) (by decide), count_around (by decide)]
    refine ⟨by omega, fun heq => .bar (ih.2 ?_) (ih'.2 ?_)⟩
    · omega
    · omega
  | done => exact ⟨Nat.le_refl _, fun _ => .done⟩
  | member _ _ ih ih' =>
    rw [List.count_append, List.count_append]
    refine ⟨by omega, fun heq => .member (ih.2 ?_) (ih'.2 ?_)⟩
    · omega
    · omega
  | plain _ ih => exact ⟨ih.1, fun heq => .plain (ih.2 heq)⟩
  | @minus ts us e f _ _ ih ih' =>
    rw [count_around (t := .closing) (u := .minus) (by decide), count_around (by decide)]
    refine ⟨by omega, fun heq => .minus (ih.2 ?_) (ih'.2 ?_)⟩
    · omega
    · omega
  | once _ ih => exact ⟨ih.1, fun heq => .once (ih.2 heq)⟩
  | @repeated ts t e op _ ht ih =>
    obtain ⟨hopening, hclosing⟩ := Token.ne_of_repetition? ht
    rw [List.count_append, List.count_append, List.count_singleton, List.count_singleton]
    simp only [beq_iff_eq, hopening, hclosing, if_false, Nat.add_zero]
    exact ⟨ih.1, fun heq => .repeated (ih.2 heq) ht⟩
  | @leaf t e ht =>
    obtain ⟨hopening, hclosing⟩ := Token.ne_of_leaf? ht
    rw [List.count_singleton, List.count_singleton]
    simp only [beq_iff_eq, hopening, hclosing, if_false]
    exact ⟨Nat.le_refl _, fun _ => .leaf ht⟩
  | @group ts es _ ih =>
    have hopening : (Token.opening :: ts ++ [Token.closing]).count .opening =
        ts.count .opening + 1 := by simp
    have hclosing : (Token.opening :: ts ++ [Token.closing]).count .closing =
        ts.count .closing + 1 := by simp
    rw [hopening, hclosing]
    refine ⟨by omega, fun heq => .group (ih.2 ?_)⟩
    omega
  | @openGroup ts es _ _ ih =>
    have hopening : (Token.opening :: ts).count .opening = ts.count .opening + 1 := by simp
    have hclosing : (Token.opening :: ts).count .closing = ts.count .closing := by simp
    rw [hopening, hclosing]
    refine ⟨by omega, fun heq => ?_⟩
    omega

theorem ne_series_singleton (h : Phrase tolerant form ts es) : ∀ e ∈ es, ∀ op f, e ≠ .series op [f] := by
  induction h with
  | last _ ih => exact List.forall_mem_singleton.mpr (Expr.join_ne_series_singleton ih)
  | bar _ _ ih ih' => exact List.forall_mem_cons.mpr ⟨Expr.join_ne_series_singleton ih, ih'⟩
  | done => exact List.forall_mem_nil _
  | member _ _ ih ih' => exact List.forall_mem_cons.mpr ⟨List.forall_mem_singleton.mp ih, ih'⟩
  | plain _ ih | once _ ih => exact ih
  | minus | repeated => exact List.forall_mem_singleton.mpr nofun
  | @leaf t e ht =>
    refine List.forall_mem_singleton.mpr ?_
    rintro op f rfl
    cases t <;> cases ht
  | group _ ih | openGroup _ _ ih =>
    exact List.forall_mem_singleton.mpr (Expr.join_ne_series_singleton ih)

section Values
variable {α : Type} {values : Expr → List α} {value? : Token → Option α}

/-- Values that the tokens of leaves have, and that nodes take over from their operands in order, are those
of the tokens of a phrase. -/
theorem flatMap_eq (hseries : ∀ op es, values (.series op es) = es.flatMap values)
    (hdiff : ∀ l r, values (.diff l r) = values l ++ values r)
    (hrepeated : ∀ op e, values (.repeated op e) = values e)
    (hleaf : ∀ {t e}, t.leaf? = some e → values e = (value? t).toList)
    (hother : ∀ {t : Token}, t.leaf? = none → value? t = none) (h : Phrase tolerant form ts es) :
    es.flatMap values = ts.filterMap value? := by
  have hjoin (op : Series) (es : List Expr) : values (.join op es) = es.flatMap values :=
    Expr.join_eq_flatMap (hseries op es)
  have hmark (t : Token) (ht : t.leaf? = none) (us : List Token) :
      (t :: us).filterMap value? = us.filterMap value? := by
    rw [List.filterMap_cons, hother ht]
  induction h with
  | last _ ih => rw [List.flatMap_singleton, hjoin, ih]
  | bar _ _ ih ih' => rw [List.flatMap_cons, hjoin, ih, ih', List.filterMap_append, hmark _ rfl]
  | done => rfl
  | member _ _ ih ih' =>
    rw [List.flatMap_cons, ih', List.filterMap_append, ← ih, List.flatMap_singleton]
  | plain _ ih | once _ ih => exact ih
  | minus _ _ ih ih' =>
    rw [List.flatMap_singleton] at ih ih' ⊢
    rw [hdiff, ih, ih', List.filterMap_append, hmark _ rfl]
  | repeated _ ht ih =>
    rw [List.flatMap_singleton] at ih ⊢
    rw [hrepeated, ih, List.filterMap_append, hmark _ (Token.leaf?_of_repetition? ht)]
    exact (List.append_nil _).symm
  | @leaf t _ ht =>
    rw [List.flatMap_singleton, hleaf ht, List.filterMap_cons]
    cases value? t <;> rfl
  | group _ ih =>
    rw [List.flatMap_singleton, hjoin, ih, List.cons_append, hmark _ rfl, List.filterMap_append,
      hmark _ rfl]
    exact (List.append_nil _).symm
  | openGroup _ _ ih => rw [List.flatMap_singleton, hjoin, ih, hmark _ rfl]

end Values

end Phrase

end FlatGrammar
