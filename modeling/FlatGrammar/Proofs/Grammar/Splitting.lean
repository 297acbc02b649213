import FlatGrammar.Grammar.Flatten
import FlatGrammar.Proofs.Expr.Fold
import Mathlib.Data.List.Perm.Basic

/-! # Flattening as single splits

Every way of flattening a rule is a run of four kinds of splits: an operand moves into a rule of its
own, an option becomes a choice, a star becomes a recursion, and a plus is unrolled once. A split says
nothing about the numbers in names, only that a new rule has a symbol.
-/
namespace FlatGrammar

/-- One split of a rule. The rule itself comes first, with another right-hand side. -/
inductive Split : Rule → List Rule → Prop
  | operand {r part : Rule} {pre post : List Expr} {x : String}
      (h : r.expr.operands = pre ++ part.expr :: post) (hx : part.symbol = some x) :
      Split r [{ r with expr := r.expr.withOperands (pre ++ .ref x :: post) }, part]
  | opt {r : Rule} {e : Expr} (h : r.expr = .opt e) :
      Split r [{ r with expr := .alt [.ref emptySymbol, e] }]
  | star {r part : Rule} {e : Expr} {s x : String} (h : r.expr = .star e) (hs : r.symbol = some s)
      (hpart : part.expr = .seq [e, .ref s]) (hx : part.symbol = some x) :
      Split r [{ r with expr := .alt [.ref emptySymbol, .ref x] }, part]
  | plus {r : Rule} {e : Expr} (h : r.expr = .plus e) :
      Split r [{ r with expr := .seq [e, .star e] }]

/-- Runs of splits among other rules. The order of rules does not matter. -/
inductive Splits : List Rule → List Rule → Prop
  | perm {a b : List Rule} (h : a.Perm b) : Splits a b
  | split {r : Rule} {out : List Rule} (h : Split r out) (others : List Rule) :
      Splits (r :: others) (out ++ others)
  | trans {a b c : List Rule} (h : Splits a b) (h' : Splits b c) : Splits a c

namespace Splits
variable {a b c d : List Rule}

theorem refl (a : List Rule) : Splits a a := .perm (.refl a)

theorem append_right (h : Splits a b) (c : List Rule) : Splits (a ++ c) (b ++ c) := by
  induction h with
  | perm h => exact .perm (h.append_right c)
  | split h others => simpa using Splits.split h (others ++ c)
  | trans _ _ ih ih' => exact ih.trans ih'

theorem append (h : Splits a b) (h' : Splits c d) : Splits (a ++ c) (b ++ d) := by
  have hcomm : Splits (b ++ c) (c ++ b) := .perm List.perm_append_comm
  have hright := (h.append_right c).trans (hcomm.trans (h'.append_right b))
  exact hright.trans (.perm List.perm_append_comm)

theorem cons (r : Rule) (h : Splits a b) : Splits (r :: a) (r :: b) := (refl [r]).append h

theorem of_split {r : Rule} {out : List Rule} (h : Split r out) : Splits [r] out := by
  simpa using Splits.split h []

theorem flatMap {f : Rule → List Rule} {rules : List Rule} (h : ∀ r ∈ rules, Splits [r] (f r)) :
    Splits rules (rules.flatMap f) := by
  induction rules with
  | nil => exact refl []
  | cons r rules ih =>
    have htail := ih fun t ht => h t (List.mem_cons_of_mem r ht)
    exact (h r List.mem_cons_self).append htail

end Splits

section Parts
variable {r part : Rule} {s : String}

theorem symbolRef_part (hs : r.symbol = some s) (suffix id : String) (kind? : Option Kind)
    (e : Expr) : (r.part suffix id kind? e).symbolRef = .ref (derivedSymbol s suffix) := by
  simp [Rule.part, Rule.symbolRef, partSymbol?, hs]

theorem symbol_part (hs : r.symbol = some s) (suffix id : String) (kind? : Option Kind)
    (e : Expr) : (r.part suffix id kind? e).symbol = some (derivedSymbol s suffix) := by
  simp [Rule.part, partSymbol?, hs]

def Rule.withRest (r : Rule) (pre es : List Expr) : Rule :=
  { r with expr := r.expr.withOperands (pre ++ es) }

theorem split_withRest (pre post : List Expr) {x : String} (hx : part.symbol = some x)
    (hlength : (pre ++ part.expr :: post).length = r.expr.operands.length) :
    Splits [r.withRest pre (part.expr :: post)] [r.withRest (pre ++ [.ref x]) post, part] := by
  have hoperands := Expr.operands_withOperands hlength
  have hsplit := Split.operand (r := r.withRest pre (part.expr :: post)) hoperands hx
  have heq : (r.withRest pre (part.expr :: post)).expr.withOperands (pre ++ .ref x :: post) =
      r.expr.withOperands (pre ++ .ref x :: post) :=
    Expr.withOperands_withOperands hlength (by simpa using hlength)
  rw [heq] at hsplit
  simpa [Rule.withRest] using Splits.of_split hsplit

end Parts

section Leaves
variable (reserved : List String) {r : Rule} {s : String} (hs : r.symbol = some s)
include hs

theorem splits_extractTerminals (n : Nat) (pre es : List Expr)
    (hlength : (pre ++ es).length = r.expr.operands.length) :
    Splits [r.withRest pre es]
      (r.withRest pre (extractTerminals reserved r n es).1 ::
        (extractTerminals reserved r n es).2) := by
  induction es generalizing n pre with
  | nil => exact .refl _
  | cons e es ih =>
    unfold extractTerminals
    split
    case isTrue =>
      let k := firstFree reserved r.terminalId n
      let part := r.terminalPart k e
      have hx : part.symbol = some (derivedSymbol s ("term" ++ toString k)) := symbol_part hs ..
      have hsplit := split_withRest pre es hx hlength
      have hrest := ih (k + 1) (pre ++ [.ref (derivedSymbol s ("term" ++ toString k))])
        (by simpa using hlength)
      have hmoved := hsplit.trans (hrest.append_right [part])
      have href : part.symbolRef = .ref (derivedSymbol s ("term" ++ toString k)) :=
        symbolRef_part hs ..
      refine hmoved.trans (.perm ?_)
      simp only [Rule.withRest, List.append_assoc, List.cons_append]
      rw [← href]
      exact .cons _ List.perm_append_comm
    case isFalse =>
      have hrest := ih n (pre ++ [e]) (by simpa using hlength)
      simpa [Rule.withRest] using hrest

theorem splits_flattenLeaves : Splits [r] (flattenLeaves reserved r).rules := by
  unfold flattenLeaves
  split
  case isTrue =>
    have h := splits_extractTerminals reserved hs 1 [] r.expr.operands rfl
    simpa [Rule.withRest] using h
  case isFalse => exact .refl [r]

theorem splits_flattenStar {e : Expr} (he : r.expr = .star e) :
    Splits [r] (flattenStar reserved r e).rules := by
  let recursion := Expr.seq [e, .ref s]
  let x := derivedSymbol s "star"
  let part : Rule :=
    { symbol := some x, id := r.id ++ "*", kind := .derived (some x) recursion, expr := recursion,
      location := r.location }
  have href : r.symbolRef = .ref s := by simp [Rule.symbolRef, hs]
  have hx : partSymbol? r.symbol "star" = some x := by simp [partSymbol?, hs, x]
  have hsplit : Split r [_, part] := .star he hs rfl rfl
  unfold flattenStar
  simp only [href, hx]
  refine (Splits.of_split hsplit).trans (.cons _ ?_)
  split
  case isTrue => exact splits_flattenLeaves reserved rfl
  case isFalse => exact .refl _

theorem splits_flattenPlus (n : Nat) {e : Expr} (he : r.expr = .plus e) :
    Splits [r] (flattenPlus reserved r n e).rules := by
  unfold flattenPlus
  let k := firstFree reserved r.partId n
  let part := r.operatorPart k (.star e)
  have hx : part.symbol = some (derivedSymbol s (toString k)) := symbol_part hs ..
  have href : part.symbolRef = .ref (derivedSymbol s (toString k)) := symbolRef_part hs ..
  let doubled : Rule := { r with expr := .seq [e, .star e] }
  have hdoubled : Splits [r] [doubled] := .of_split (.plus he)
  have hmoved := split_withRest (r := doubled) [e] [] hx rfl
  rw [← href] at hmoved
  refine hdoubled.trans (hmoved.trans ?_)
  refine Splits.append (a := [_]) (splits_flattenLeaves reserved hs) ?_
  split
  case isTrue => exact splits_flattenStar reserved hx rfl
  case isFalse => exact .refl _

theorem splits_flattenOperator (n : Nat) : Splits [r] (flattenOperator reserved r n).rules := by
  unfold flattenOperator
  split
  case h_1 e he =>
    exact (Splits.of_split (.opt he)).trans (splits_flattenLeaves reserved hs)
  case h_2 e he => exact splits_flattenStar reserved hs he
  case h_3 e he => exact splits_flattenPlus reserved hs n he
  case h_4 => exact splits_flattenLeaves reserved hs

end Leaves

section Operands
variable (reserved : List String) {r : Rule} {s : String}

theorem Extraction.join_nil (x : Extraction) : x.join ⟨[], [], {}, x.nextNumber⟩ = x := by
  rcases x with ⟨operands, rules, ⟨below, steps⟩, n⟩
  simp only [Extraction.join, List.append_nil, Extraction.mk.injEq, true_and, and_true]
  exact congrArg₂ Flat.mk (List.append_nil below) (List.append_nil steps)

/-- All composite expressions are flattened in one way, whatever their operator. -/
theorem flattenExpr_eq (e : Expr) (r : Rule) :
    flattenExpr reserved e r =
      if e.isComposite ∧ r.kind = .rule then
        (extractOperands reserved e.operands r 1).finish reserved { r with expr := e }
      else .one { r with expr := e } := by
  cases e with
  | symbol _ | terminal _ => simp [flattenExpr, Expr.isComposite]
  | series op es => simp [flattenExpr, Expr.isComposite, Expr.operands]
  | diff left right =>
    simp only [flattenExpr, Expr.isComposite, Expr.operands, extractOperands, true_and]
    rw [Extraction.join_nil]
  | repeated op e =>
    simp only [flattenExpr, Expr.isComposite, Expr.operands, extractOperands, true_and]
    rw [Extraction.join_nil]

def FlattensBySplits (e : Expr) : Prop :=
  ∀ (r : Rule) (s : String), r.symbol = some s → r.expr = e →
    Splits [r] (flattenExpr reserved e r).rules

theorem splits_extractOperands (hs : r.symbol = some s) (n : Nat) (pre es : List Expr)
    (ih : ∀ e ∈ es, FlattensBySplits reserved e)
    (hlength : (pre ++ es).length = r.expr.operands.length) :
    Splits [r.withRest pre es]
        (r.withRest pre (extractOperands reserved es r n).operands ::
          (extractOperands reserved es r n).rules) ∧
      Splits (extractOperands reserved es r n).rules
        (extractOperands reserved es r n).below.rules := by
  induction es generalizing n pre with
  | nil => exact ⟨.refl _, .refl _⟩
  | cons e es ihes =>
    have ihtail : ∀ o ∈ es, FlattensBySplits reserved o := fun o ho =>
      ih o (List.mem_cons_of_mem e ho)
    by_cases he : e.isComposite
    · let k := firstFree reserved r.partId n
      let part := r.operatorPart k e
      have hx : part.symbol = some (derivedSymbol s (toString k)) := symbol_part hs ..
      have href : part.symbolRef = .ref (derivedSymbol s (toString k)) := symbolRef_part hs ..
      have hsplit := split_withRest pre es hx hlength
      obtain ⟨hrest, hbelow⟩ :=
        ihes (k + 1) (pre ++ [part.symbolRef]) ihtail (by simpa using hlength)
      have hpart := ih e List.mem_cons_self part _ hx rfl
      simp only [extractOperands, extractOperand, he, if_true, Extraction.join]
      rw [← href] at hsplit
      constructor
      · refine (hsplit.trans (hrest.append_right [part])).trans (.perm ?_)
        simp only [Rule.withRest, List.append_assoc, List.cons_append]
        exact .cons _ List.perm_append_comm
      · exact hpart.append hbelow
    · obtain ⟨hrest, hbelow⟩ := ihes n (pre ++ [e]) ihtail (by simpa using hlength)
      simp only [extractOperands, extractOperand, he, Extraction.join]
      exact ⟨by simpa [Rule.withRest] using hrest, hbelow⟩

theorem splits_finish (hs : r.symbol = some s) {x : Extraction}
    (hmoved : Splits [r] ({ r with expr := r.expr.withOperands x.operands } :: x.rules))
    (hbelow : Splits x.rules x.below.rules) : Splits [r] (x.finish reserved r).rules := by
  let parent : Rule := { r with expr := r.expr.withOperands x.operands }
  have hparent : Splits [parent] (flattenOperator reserved parent x.nextNumber).rules :=
    splits_flattenOperator reserved (r := parent) hs x.nextNumber
  refine hmoved.trans ?_
  unfold Extraction.finish
  split
  case isTrue hempty =>
    rw [List.isEmpty_iff.mp hempty]
    exact hparent
  case isFalse => exact hparent.append hbelow

theorem flattensBySplits (e : Expr) : FlattensBySplits reserved e := by
  induction e using Expr.operands_induction with
  | step e ih =>
    intro r s hs hr
    subst hr
    rw [flattenExpr_eq]
    split
    case isTrue =>
      obtain ⟨hmoved, hbelow⟩ := splits_extractOperands reserved hs 1 [] r.expr.operands ih rfl
      exact splits_finish reserved hs (by simpa [Rule.withRest] using hmoved) hbelow
    case isFalse => exact .refl [r]

theorem splits_flatten (hr : r.kind = .rule → r.symbol.isSome) :
    Splits [r] (r.flatten reserved).rules := by
  by_cases hkind : r.kind = .rule
  · obtain ⟨s, hs⟩ := Option.isSome_iff_exists.mp (hr hkind)
    exact flattensBySplits reserved r.expr r s hs rfl
  · rw [Rule.flatten, flattenExpr_eq, if_neg fun h => hkind h.2]
    exact .refl [r]

end Operands

/-- Rules of kind `rule` have symbols, after which their parts can be named. -/
def Named (rules : List Rule) : Prop := ∀ r ∈ rules, r.kind = .rule → r.symbol.isSome

theorem rules_flattenAll (rules : List Rule) : (flattenAll rules).rules =
    emptyRule :: rules.flatMap fun r => (r.flatten (rules.map Rule.id)).rules := by
  simp [flattenAll, Flat.one, Flat.join, List.flatMap_map]

/-- Flattening all rules is a run of splits behind the empty rule. -/
theorem splits_flattenAll {rules : List Rule} (hnamed : Named rules) :
    Splits (emptyRule :: rules) (flattenAll rules).rules := by
  rw [rules_flattenAll]
  exact .cons _ (.flatMap fun r hr => splits_flatten _ (hnamed r hr))

theorem flattenBreakdown?_eq_none {rules : List Rule} (hnamed : Named rules) :
    flattenBreakdown? rules = none := by
  unfold flattenBreakdown?
  rw [if_neg]
  simp only [List.any_eq_true, Bool.and_eq_true, not_exists, not_and]
  intro r hr hs hparts
  have hkind : r.kind = .rule := by
    simp only [Rule.hasParts, Bool.and_eq_true, beq_iff_eq] at hparts
    exact hparts.1
  have := hnamed r hr hkind
  simp_all

theorem flattenAll?_eq_ok {rules : List Rule} (hnamed : Named rules) :
    flattenAll? rules = .ok (flattenAll rules) := by
  simp [flattenAll?, flattenBreakdown?_eq_none hnamed, Breakdown.guard]

end FlatGrammar
