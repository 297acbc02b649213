import FlatGrammar.Proofs.Grammar.Rewriting

/-! # The number of flat rules

Each operator of a rule makes at most three flat rules and each terminal value at most two, so flat rules
are no more than in proportion to the rule. Only leaves are doubled: when a plus is unrolled, its operand
has long moved out.
-/
namespace FlatGrammar

namespace Expr

/-- The nodes of one kind in a tree. -/
def countNodes (p : Expr → Bool) (e : Expr) : Nat :=
  e.fold fun node counts => counts.sum + if p node then 1 else 0

def operatorCount (e : Expr) : Nat := e.countNodes isComposite

def valueCount (e : Expr) : Nat := e.countNodes isTerminal

/-- How many flat rules there may be for a right-hand side. -/
def flatBound (e : Expr) : Nat := 3 * e.operatorCount + 2 * e.valueCount

theorem countNodes_eq (p : Expr → Bool) (e : Expr) :
    e.countNodes p = (e.operands.map (countNodes p)).sum + if p e then 1 else 0 := by
  rw [countNodes, fold_eq]
  rfl

theorem flatBound_eq (e : Expr) : e.flatBound = (e.operands.map flatBound).sum +
    (3 * (if e.isComposite then 1 else 0) + 2 * if e.isTerminal then 1 else 0) := by
  have hsum : (e.operands.map flatBound).sum =
      3 * (e.operands.map operatorCount).sum + 2 * (e.operands.map valueCount).sum := by
    induction e.operands with
    | nil => rfl
    | cons o os ih =>
      simp only [List.map_cons, List.sum_cons, ih, flatBound]
      omega
  have hoperators : e.operatorCount = (e.operands.map operatorCount).sum +
      if e.isComposite then 1 else 0 := countNodes_eq isComposite e
  have hvalues : e.valueCount = (e.operands.map valueCount).sum + if e.isTerminal then 1 else 0 :=
    countNodes_eq isTerminal e
  rw [hsum, flatBound, hoperators, hvalues]
  omega

theorem flatBound_of_isComposite {e : Expr} (he : e.isComposite) :
    e.flatBound = 3 + (e.operands.map flatBound).sum := by
  have hterminal : e.isTerminal = false := by
    cases e with
    | terminal _ => cases he
    | _ => rfl
  rw [flatBound_eq, he, hterminal]
  simp [Nat.add_comm]

theorem countP_isTerminal_le_flatBound {e : Expr} (he : e.isComposite = false) :
    2 * [e].countP isTerminal ≤ e.flatBound := by
  cases e with
  | symbol _ => exact Nat.zero_le _
  | terminal _ => exact le_rfl
  | series _ _ | diff _ _ | repeated _ _ => cases he

end Expr

section Leaves
variable (reserved : List String) (r : Rule)

theorem length_extractTerminals (n : Nat) (es : List Expr) :
    (extractTerminals reserved r n es).2.length = es.countP Expr.isTerminal := by
  induction es generalizing n with
  | nil => rfl
  | cons e es ih =>
    unfold extractTerminals
    split
    case isTrue he =>
      rw [List.countP_cons_of_pos he]
      exact congrArg (· + 1) (ih _)
    case isFalse he =>
      rw [List.countP_cons_of_neg he]
      exact ih n

theorem length_flattenLeaves :
    (flattenLeaves reserved r).rules.length = 1 + r.expr.operands.countP Expr.isTerminal := by
  unfold flattenLeaves
  split
  case isTrue =>
    rw [List.length_cons, length_extractTerminals]
    exact Nat.add_comm _ _
  case isFalse hnone =>
    have hzero : r.expr.operands.countP Expr.isTerminal = 0 := by
      simpa [List.countP_eq_zero] using hnone
    rw [hzero]
    rfl

/-- A name beside a leaf is no value. -/
theorem length_flattenLeaves_pair {e : Expr} {name : Option String}
    (hr : r.expr.operands = [e, .symbol name] ∨ r.expr.operands = [.symbol name, e]) :
    (flattenLeaves reserved r).rules.length = 1 + [e].countP Expr.isTerminal := by
  rw [length_flattenLeaves]
  rcases hr with hr | hr
  · simp [hr, List.countP_cons, Expr.isTerminal]
  · simp [hr, List.countP_cons, Expr.isTerminal]

theorem length_flattenStar_le (e : Expr) :
    (flattenStar reserved r e).rules.length ≤ 2 + [e].countP Expr.isTerminal := by
  let part := r.starPart e
  let parent := r.withExpr (.alt [.ref emptySymbol, part.symbolRef])
  have hrules : (flattenStar reserved r e).rules = parent ::
      (if part.kind = .rule then flattenLeaves reserved part else .one part).rules := rfl
  rw [hrules, List.length_cons]
  split
  case isTrue =>
    rw [length_flattenLeaves_pair reserved part (.inl rfl)]
    omega
  case isFalse => exact Nat.le_add_right 2 _

theorem length_flattenPlus_le (n : Nat) (e : Expr) :
    (flattenPlus reserved r n e).rules.length ≤ 3 + 2 * [e].countP Expr.isTerminal := by
  let part := r.operatorPart (firstFree reserved r.partId n) (.star e)
  let parent := r.withExpr (.seq [e, part.symbolRef])
  have hrules : (flattenPlus reserved r n e).rules = (flattenLeaves reserved parent).rules ++
      (if part.kind = .rule then flattenStar reserved part e else .one part).rules := rfl
  have hparent := length_flattenLeaves_pair reserved parent (.inl rfl)
  have hpart : (if part.kind = .rule then flattenStar reserved part e else .one part).rules.length ≤
      2 + [e].countP Expr.isTerminal := by
    split
    case isTrue => exact length_flattenStar_le reserved part e
    case isFalse => exact Nat.le_add_right_of_le (by decide : 1 ≤ 2)
  rw [hrules, List.length_append]
  omega

theorem length_flattenOperator_le (n : Nat) : (flattenOperator reserved r n).rules.length ≤
    3 + 2 * r.expr.operands.countP Expr.isTerminal := by
  unfold flattenOperator
  split
  case h_1 e he =>
    let parent := r.withExpr (.alt [.ref emptySymbol, e])
    have hparent := length_flattenLeaves_pair reserved parent (.inr rfl)
    rw [he]
    change (flattenLeaves reserved parent).rules.length ≤ 3 + 2 * [e].countP Expr.isTerminal
    omega
  case h_2 e he =>
    have hstar := length_flattenStar_le reserved r e
    rw [he]
    change _ ≤ 3 + 2 * [e].countP Expr.isTerminal
    omega
  case h_3 e he =>
    rw [he]
    exact length_flattenPlus_le reserved r n e
  case h_4 =>
    rw [length_flattenLeaves]
    omega

end Leaves

section Operands
variable {reserved : List String} {r : Rule}

/-- Values stay among the operands, and each operand that moves out makes as many rules as it may. -/
theorem length_extractOperands_le (n : Nat) {es : List Expr}
    (ih : ∀ o ∈ es, ∀ t : Rule, o.isComposite →
      (flattenExpr reserved o t).rules.length ≤ o.flatBound) :
    let x := extractOperands reserved es r n
    2 * x.operands.countP Expr.isTerminal + x.below.rules.length ≤ (es.map Expr.flatBound).sum := by
  induction es generalizing n with
  | nil => exact le_rfl
  | cons e es ihes =>
    have htail := fun k => ihes k fun o ho => ih o (List.mem_cons_of_mem e ho)
    simp only [extractOperands, Extraction.join, Flat.rules_append, extractOperand, List.map_cons,
      List.sum_cons, List.length_append, List.countP_append]
    split
    case isTrue he =>
      let part := r.operatorPart (firstFree reserved r.partId n) e
      have hbound := htail (firstFree reserved r.partId n + 1)
      have hpart := ih e List.mem_cons_self part he
      have hname : [part.symbolRef].countP Expr.isTerminal = 0 := rfl
      simp only [part] at hname hpart
      simp only [hname]
      omega
    case isFalse he =>
      have hbound := htail n
      have hleaf := Expr.countP_isTerminal_le_flatBound (Bool.eq_false_iff.mpr he)
      simp only [List.length_nil]
      omega

theorem length_finish_le (x : Extraction) : (x.finish reserved r).rules.length ≤
    (flattenOperator reserved (r.withExpr (r.expr.withOperands x.operands)) x.nextNumber).rules.length +
      x.below.rules.length := by
  unfold Extraction.finish
  split
  case isTrue => exact Nat.le_add_right _ _
  case isFalse => exact List.length_append.le

theorem length_flattenExpr_le (e : Expr) : ∀ r : Rule, e.isComposite →
    (flattenExpr reserved e r).rules.length ≤ e.flatBound := by
  induction e using Expr.operands_induction with
  | step e ih =>
    intro r he
    rw [flattenExpr_eq, Expr.flatBound_of_isComposite he]
    split
    case isFalse => exact Nat.le_add_right_of_le (by decide : 1 ≤ 3)
    case isTrue =>
      have hlength := length_extractOperands reserved r 1 e.operands
      have hbound := length_extractOperands_le (r := r) 1 ih
      generalize extractOperands reserved e.operands r 1 = x at hlength hbound ⊢
      let parent := r.withExpr (e.withOperands x.operands)
      have hfinish : (x.finish reserved (r.withExpr e)).rules.length ≤
          (flattenOperator reserved parent x.nextNumber).rules.length + x.below.rules.length :=
        length_finish_le x
      have hparent := length_flattenOperator_le reserved parent x.nextNumber
      have hoperands : parent.expr.operands = x.operands := Expr.operands_withOperands hlength
      rw [hoperands] at hparent
      refine hfinish.trans ?_
      omega

end Operands

/-- Flattening ends, with the rule itself if there is nothing to flatten, and otherwise with no more rules
than its operators and values allow. -/
theorem exists_flatten?_length_le (reserved : List String) (r : Rule)
    (hr : r.kind = .rule → r.symbol.isSome) :
    ∃ flat, r.flatten? reserved = .ok flat ∧ Normalizes reserved r 1 flat.rules ∧
      (r.kind ≠ .rule ∨ r.expr.isComposite = false → flat.rules = [r]) ∧
      (r.kind = .rule → r.expr.isComposite →
        flat.rules.length ≤ 3 * r.expr.operatorCount + 2 * r.expr.valueCount) := by
  have hnamed : Named [r] := List.forall_mem_singleton.mpr hr
  refine ⟨r.flatten reserved, ?_, normalizes_flatten reserved r, fun hwhole => ?_, fun _ he => ?_⟩
  · rw [Rule.flatten?, flattenBreakdown?_eq_none hnamed]
    rfl
  · rw [Rule.flatten, flattenExpr_eq, if_neg]
    · rfl
    · rintro ⟨he, hkind⟩
      rcases hwhole with hother | hleaf
      · exact hother hkind
      · exact absurd he (Bool.eq_false_iff.mp hleaf)
  · exact length_flattenExpr_le r.expr r he

/-- A repeated choice with an option in it, among rules that take the first numbers of its parts. -/
def repeatedChoice : Rule :=
  { symbol := some "a", id := "1", kind := .rule,
    expr := .plus (.alt [.opt (.literal "x"), .plus (.charClass "yz"), .ref "b"]) }

theorem flatten?_repeatedChoice_length_le :
    (repeatedChoice.kind = .rule → repeatedChoice.symbol.isSome) ∧
    ∃ flat, repeatedChoice.flatten? ["1", "1.1", "1.1.1", "2"] = .ok flat ∧
      Normalizes ["1", "1.1", "1.1.1", "2"] repeatedChoice 1 flat.rules ∧
      (repeatedChoice.kind ≠ .rule ∨ repeatedChoice.expr.isComposite = false →
        flat.rules = [repeatedChoice]) ∧
      (repeatedChoice.kind = .rule → repeatedChoice.expr.isComposite → flat.rules.length ≤
        3 * repeatedChoice.expr.operatorCount + 2 * repeatedChoice.expr.valueCount) := by
  have hnamed : repeatedChoice.kind = .rule → repeatedChoice.symbol.isSome := fun _ => rfl
  exact ⟨hnamed, exists_flatten?_length_le _ repeatedChoice hnamed⟩

/-- The bound is reached by a plus of one value. -/
example : ((({ repeatedChoice with expr := .plus (.literal "x") } : Rule).flatten []).rules.length,
    (Expr.plus (.literal "x")).flatBound) = (5, 5) := by decide +kernel

end FlatGrammar
