import FlatGrammar.Proofs.Grammar.PartIds

/-! # Flattening as rewriting

A rule is flattened by rewriting it until nothing applies any more: nested operators move out, then an
option, a star or a plus becomes something else under the same symbol, and in the end terminal values
move out. Rewriting is no recursion on the right-hand side: a plus grows, and a star leads back to its own
rule. It ends for every rule all the same, and ends at the flat rules.
-/
namespace FlatGrammar

/-- Numbers are tried one after another until one gives an id that is not reserved. -/
inductive Tries (reserved : List String) (id : Nat → String) : Nat → Nat → Prop
  | free {n : Nat} (h : id n ∉ reserved) : Tries reserved id n n
  | skip {n k : Nat} (h : id n ∈ reserved) (hrest : Tries reserved id (n + 1) k) :
      Tries reserved id n k

/-- Operands of which the chosen ones move into parts, with numbers from the first one on, and the next
number. -/
inductive Moves (reserved : List String) (chosen : Expr → Bool) (id : Nat → String)
    (part : Nat → Expr → Rule) : Nat → List Expr → List Expr → List Rule → Nat → Prop
  | nil (n : Nat) : Moves reserved chosen id part n [] [] [] n
  | stay {n m : Nat} {e : Expr} {es fs : List Expr} {parts : List Rule} (he : chosen e = false)
      (h : Moves reserved chosen id part n es fs parts m) :
      Moves reserved chosen id part n (e :: es) (e :: fs) parts m
  | move {n k m : Nat} {e : Expr} {es fs : List Expr} {parts : List Rule} (he : chosen e)
      (hk : Tries reserved id n k) (h : Moves reserved chosen id part (k + 1) es fs parts m) :
      Moves reserved chosen id part n (e :: es) ((part k e).symbolRef :: fs) (part k e :: parts) m

abbrev MovesOperators (reserved : List String) (r : Rule) :=
  Moves reserved Expr.isComposite r.partId r.operatorPart

abbrev MovesValues (reserved : List String) (r : Rule) :=
  Moves reserved Expr.isTerminal r.terminalId r.terminalPart

/-- The rule that a star of a leaf recurs through. -/
def Rule.starPart (r : Rule) (e : Expr) : Rule :=
  r.part "star" (r.id ++ "*") none (.seq [e, r.symbolRef])

def Rule.withExpr (r : Rule) (e : Expr) : Rule := { r with expr := e }

/-- One operator without quantifiers over leaves. -/
def Expr.isLevel (e : Expr) : Bool := e.isComposite && e.isFlat

mutual

/-- What a rule comes to when it is rewritten, its parts being numbered from `n` on. -/
inductive Normalizes (reserved : List String) : Rule → Nat → List Rule → Prop
  | whole {r : Rule} {n : Nat} (h : r.kind ≠ .rule ∨ r.expr.isComposite = false) :
      Normalizes reserved r n [r]
  | operators {r : Rule} {n m : Nat} {es : List Expr} {parts out below : List Rule}
      (hkind : r.kind = .rule) (hnested : r.expr.operands.any Expr.isComposite)
      (hmoves : MovesOperators reserved r n r.expr.operands es parts m)
      (hparent : Normalizes reserved (r.withExpr (r.expr.withOperands es)) m out)
      (hparts : NormalizesAll reserved parts below) : Normalizes reserved r n (out ++ below)
  | opt {r : Rule} {n : Nat} {e : Expr} {out : List Rule} (hkind : r.kind = .rule)
      (hr : r.expr = .opt e) (he : e.isComposite = false)
      (h : Normalizes reserved (r.withExpr (.alt [.ref emptySymbol, e])) n out) :
      Normalizes reserved r n out
  | star {r : Rule} {n : Nat} {e : Expr} {out below : List Rule} (hkind : r.kind = .rule)
      (hr : r.expr = .star e) (he : e.isComposite = false)
      (hparent : Normalizes reserved
        (r.withExpr (.alt [.ref emptySymbol, (r.starPart e).symbolRef])) n out)
      (hpart : Normalizes reserved (r.starPart e) 1 below) : Normalizes reserved r n (out ++ below)
  | plus {r : Rule} {n : Nat} {e : Expr} {out : List Rule} (hkind : r.kind = .rule)
      (hr : r.expr = .plus e) (he : e.isComposite = false)
      (h : Normalizes reserved (r.withExpr (.seq [e, .star e])) n out) : Normalizes reserved r n out
  | values {r : Rule} {n m : Nat} {es : List Expr} {parts : List Rule} (hkind : r.kind = .rule)
      (hr : r.expr.isLevel) (hvalue : r.expr.operands.any Expr.isTerminal)
      (hmoves : MovesValues reserved r 1 r.expr.operands es parts m) :
      Normalizes reserved r n (r.withExpr (r.expr.withOperands es) :: parts)
  | pure {r : Rule} {n : Nat} (hkind : r.kind = .rule) (hr : r.expr.isLevel)
      (hnone : r.expr.operands.any Expr.isTerminal = false) : Normalizes reserved r n [r]

/-- What several rules come to, one after another. -/
inductive NormalizesAll (reserved : List String) : List Rule → List Rule → Prop
  | nil : NormalizesAll reserved [] []
  | cons {r : Rule} {rules out below : List Rule} (h : Normalizes reserved r 1 out)
      (hrules : NormalizesAll reserved rules below) :
      NormalizesAll reserved (r :: rules) (out ++ below)

end

section Numbers
variable {reserved : List String} {id : Nat → String} {n k : Nat}

theorem tries_of_forall (hnk : n ≤ k) (hfree : id k ∉ reserved)
    (hbefore : ∀ j, n ≤ j → j < k → id j ∈ reserved) : Tries reserved id n k := by
  induction hnk using Nat.decreasingInduction with
  | self => exact .free hfree
  | of_succ j hj ih => exact .skip (hbefore j le_rfl hj) (ih fun i hi => hbefore i (by omega))

/-- The trials end, and at the first number that is free. -/
theorem tries_firstFree (reserved : List String) (hid : Function.Injective id) (n : Nat) :
    Tries reserved id n (firstFree reserved id n) := by
  have hfree := firstFree_notMem reserved hid n
  unfold firstFree at hfree ⊢
  cases hfind : (List.range' n (reserved.length + 1)).find? fun k => !reserved.contains (id k) with
  | none =>
    rw [hfind] at hfree
    exact .free hfree
  | some k =>
    rw [hfind] at hfree
    obtain ⟨-, hmem, hbefore⟩ := List.find?_range'_eq_some.mp hfind
    refine tries_of_forall (List.mem_range'_1.mp hmem).1 hfree fun j hnj hjk => ?_
    simpa using hbefore j hnj hjk

theorem tries_partId (reserved : List String) (r : Rule) (n : Nat) :
    Tries reserved r.partId n (firstFree reserved r.partId n) :=
  tries_firstFree reserved
    (fun _ _ h => PartName.operator.inj (PartName.id_injective r.id h)) n

theorem tries_terminalId (reserved : List String) (r : Rule) (n : Nat) :
    Tries reserved r.terminalId n (firstFree reserved r.terminalId n) :=
  tries_firstFree reserved
    (fun _ _ h => PartName.value.inj (PartName.id_injective r.id h)) n

end Numbers

section Leaves
variable {reserved : List String} {r : Rule} {e : Expr}

theorem Expr.isLevel_iff : e.isLevel ↔ e.isComposite ∧ (∀ op o, e ≠ .repeated op o) ∧
    ∀ o ∈ e.operands, o.isComposite = false := by
  cases e <;> simp [isLevel, isComposite, isFlat, operands]

theorem Expr.isLevel_series {op : Series} {es : List Expr} (h : ∀ o ∈ es, o.isComposite = false) :
    (series op es).isLevel := isLevel_iff.mpr ⟨rfl, nofun, h⟩

theorem moves_extractTerminals (reserved : List String) (r : Rule) (n : Nat) (es : List Expr) :
    ∃ m, MovesValues reserved r n es (extractTerminals reserved r n es).1
      (extractTerminals reserved r n es).2 m := by
  induction es generalizing n with
  | nil => exact ⟨n, .nil n⟩
  | cons e es ih =>
    unfold extractTerminals
    split
    case isTrue he =>
      obtain ⟨m, h⟩ := ih (firstFree reserved r.terminalId n + 1)
      exact ⟨m, .move he (tries_terminalId reserved r n) h⟩
    case isFalse he =>
      obtain ⟨m, h⟩ := ih n
      exact ⟨m, .stay (Bool.eq_false_iff.mpr he) h⟩

variable (hkind : r.kind = .rule)
include hkind

theorem normalizes_flattenLeaves (hr : r.expr.isLevel) (n : Nat) :
    Normalizes reserved r n (flattenLeaves reserved r).rules := by
  unfold flattenLeaves
  split
  case isTrue hvalue =>
    obtain ⟨m, hmoves⟩ := moves_extractTerminals reserved r 1 r.expr.operands
    exact .values hkind hr hvalue hmoves
  case isFalse hnone => exact .pure hkind hr (Bool.eq_false_iff.mpr hnone)

theorem normalizes_flattenStar (hr : r.expr = .star e) (he : e.isComposite = false) (n : Nat) :
    Normalizes reserved r n (flattenStar reserved r e).rules := by
  have hparent : Normalizes reserved
      (r.withExpr (.alt [.ref emptySymbol, (r.starPart e).symbolRef])) n
      [r.withExpr (.alt [.ref emptySymbol, (r.starPart e).symbolRef])] := .pure hkind rfl rfl
  refine .star hkind hr he hparent ?_
  split
  case isTrue hpart =>
    have hlevel : (r.starPart e).expr.isLevel :=
      Expr.isLevel_series (List.forall_mem_cons.mpr ⟨he, List.forall_mem_singleton.mpr rfl⟩)
    exact normalizes_flattenLeaves hpart hlevel 1
  case isFalse hpart => exact .whole (.inl hpart)

theorem normalizes_flattenPlus (hr : r.expr = .plus e) (he : e.isComposite = false) (n : Nat) :
    Normalizes reserved r n (flattenPlus reserved r n e).rules := by
  let part := r.operatorPart (firstFree reserved r.partId n) (.star e)
  have hmoves : MovesOperators reserved r n [e, .star e] [e, part.symbolRef] [part]
      (firstFree reserved r.partId n + 1) :=
    .stay he (.move rfl (tries_partId reserved r n) (.nil _))
  let parent := r.withExpr (.seq [e, part.symbolRef])
  have hlevel : parent.expr.isLevel :=
    Expr.isLevel_series (List.forall_mem_cons.mpr ⟨he, List.forall_mem_singleton.mpr rfl⟩)
  have hparent : Normalizes reserved parent (firstFree reserved r.partId n + 1)
      (flattenLeaves reserved parent).rules :=
    normalizes_flattenLeaves (r := parent) hkind hlevel _
  have hpart : Normalizes reserved part 1
      (if part.kind = .rule then flattenStar reserved part e else .one part).rules := by
    split
    case isTrue hpart => exact normalizes_flattenStar hpart rfl he 1
    case isFalse hpart => exact .whole (.inl hpart)
  refine .plus hkind hr he (.operators hkind ?_ hmoves hparent ?_)
  · simp [Rule.withExpr, Expr.operands, Expr.isComposite]
  · simpa using NormalizesAll.cons hpart .nil

theorem normalizes_flattenOperator (hr : r.expr.isComposite)
    (hleaves : ∀ o ∈ r.expr.operands, o.isComposite = false) (n : Nat) :
    Normalizes reserved r n (flattenOperator reserved r n).rules := by
  unfold flattenOperator
  split
  case h_1 e he =>
    have hleaf : e.isComposite = false := hleaves e (by simp [he, Expr.operands])
    let parent := r.withExpr (.alt [.ref emptySymbol, e])
    have hlevel : parent.expr.isLevel :=
      Expr.isLevel_series (List.forall_mem_cons.mpr ⟨rfl, List.forall_mem_singleton.mpr hleaf⟩)
    exact .opt hkind he hleaf (normalizes_flattenLeaves (r := parent) hkind hlevel n)
  case h_2 e he => exact normalizes_flattenStar hkind he (hleaves e (by simp [he, Expr.operands])) n
  case h_3 e he => exact normalizes_flattenPlus hkind he (hleaves e (by simp [he, Expr.operands])) n
  case h_4 hopt hstar hplus =>
    refine normalizes_flattenLeaves hkind (Expr.isLevel_iff.mpr ⟨hr, ?_, hleaves⟩) n
    rintro (_ | _ | _) o ho
    · exact hopt o ho
    · exact hstar o ho
    · exact hplus o ho

end Leaves

section Operands
variable {reserved : List String} {r : Rule} {e : Expr}

/-- Operands move out only if they are nested, and without any nothing changes. -/
theorem Moves.parts_eq_nil_iff {chosen : Expr → Bool} {id : Nat → String} {part : Nat → Expr → Rule}
    {n m : Nat} {es fs : List Expr} {parts : List Rule}
    (h : Moves reserved chosen id part n es fs parts m) :
    (parts = [] ↔ es.any chosen = false) ∧ (parts = [] → fs = es ∧ m = n) := by
  induction h with
  | nil n => simp
  | stay he _ ih =>
    refine ⟨by simp [he, ih.1], fun hnil => ?_⟩
    obtain ⟨rfl, rfl⟩ := ih.2 hnil
    exact ⟨rfl, rfl⟩
  | move he => simp [he]

theorem moves_extractOperands (n : Nat) {es : List Expr}
    (ih : ∀ o ∈ es, ∀ t : Rule, t.expr = o →
      Normalizes reserved t 1 (flattenExpr reserved o t).rules) :
    let x := extractOperands reserved es r n
    MovesOperators reserved r n es x.operands x.rules x.nextNumber ∧
      NormalizesAll reserved x.rules x.below.rules := by
  induction es generalizing n with
  | nil => exact ⟨.nil n, .nil⟩
  | cons e es ihes =>
    have htail := fun k => ihes k fun o ho => ih o (List.mem_cons_of_mem e ho)
    simp only [extractOperands, Extraction.join, extractOperand]
    split
    case isTrue he =>
      let part := r.operatorPart (firstFree reserved r.partId n) e
      obtain ⟨hmoves, hbelow⟩ := htail (firstFree reserved r.partId n + 1)
      have hpart := ih e List.mem_cons_self part rfl
      exact ⟨.move he (tries_partId reserved r n) hmoves, .cons hpart hbelow⟩
    case isFalse he =>
      obtain ⟨hmoves, hbelow⟩ := htail n
      exact ⟨.stay (Bool.eq_false_iff.mpr he) hmoves, hbelow⟩

theorem normalizes_flattenExpr (e : Expr) :
    ∀ r : Rule, r.expr = e → Normalizes reserved r 1 (flattenExpr reserved e r).rules := by
  induction e using Expr.operands_induction with
  | step e ih =>
    intro r hr
    subst hr
    rw [flattenExpr_eq]
    split
    case isFalse hwhole =>
      refine .whole ?_
      rw [not_and_or, Bool.not_eq_true] at hwhole
      exact hwhole.symm
    case isTrue hcomposite =>
      have hlength := length_extractOperands reserved r 1 r.expr.operands
      have hleaves := isComposite_of_mem_extractOperands reserved r 1 r.expr.operands
      obtain ⟨hmoves, hbelow⟩ := moves_extractOperands (r := r) 1 ih
      generalize extractOperands reserved r.expr.operands r 1 = x at hmoves hlength hleaves hbelow ⊢
      obtain ⟨hnil, hsame⟩ := hmoves.parts_eq_nil_iff
      let parent := r.withExpr (r.expr.withOperands x.operands)
      have hparent : Normalizes reserved parent x.nextNumber
          (flattenOperator reserved parent x.nextNumber).rules := by
        refine normalizes_flattenOperator (r := parent) hcomposite.2 ?_ ?_ x.nextNumber
        · exact (Expr.isComposite_withOperands r.expr _).trans hcomposite.1
        · exact (Expr.operands_withOperands hlength).symm ▸ hleaves
      unfold Extraction.finish
      split
      case isTrue hempty =>
        obtain ⟨hoperands, hnumber⟩ := hsame (List.isEmpty_iff.mp hempty)
        have hsameRule : parent = r := by
          simp only [parent, Rule.withExpr, hoperands, Expr.withOperands_operands]
        rw [hsameRule, hnumber] at hparent
        rw [hoperands, hnumber, Expr.withOperands_operands]
        exact hparent
      case isFalse hsome =>
        refine .operators hcomposite.2 ?_ hmoves hparent hbelow
        rw [List.isEmpty_iff, hnil, Bool.not_eq_false] at hsome
        exact hsome

/-- Rewriting ends for every rule, and at its flat rules. -/
theorem normalizes_flatten (reserved : List String) (r : Rule) :
    Normalizes reserved r 1 (r.flatten reserved).rules := normalizes_flattenExpr r.expr r rfl

end Operands

end FlatGrammar
