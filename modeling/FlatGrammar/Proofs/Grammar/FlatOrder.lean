import FlatGrammar.Proofs.Grammar.Rewriting
import FlatGrammar.Proofs.Grammar.RuleOrder
import FlatGrammar.Proofs.Grammar.SourceRules

/-! # The order of flat rules

Flat rules are sorted strictly, since their ids differ. A part extends the id of the rule it is made from
by a mark that is no digit, so it starts with the same number and sorts behind that rule. Only terminals
are merged away, and no part is made from a terminal, so that rule is left. The id of a part tells which
rule it is made from.
-/
namespace FlatGrammar

/-- A rule that is made from another, up to its right-hand side: an operand, what a star recurs through,
or a terminal value. -/
inductive MadeFrom (p : Rule) : Rule → Prop
  | operand (n : Nat) (e f : Expr) : MadeFrom p ((p.operatorPart n e).withExpr f)
  | star (e f : Expr) : MadeFrom p ((p.starPart e).withExpr f)
  | value (n : Nat) (e f : Expr) : MadeFrom p ((p.terminalPart n e).withExpr f)

/-- Rules that go back to one of them: each of the others is made from a rule among them. -/
structure GrownFrom (r : Rule) (out : List Rule) : Prop where
  root : ∃ e, r.withExpr e ∈ out
  made : ∀ t ∈ out, (∃ e, t = r.withExpr e) ∨ ∃ p ∈ out, p.kind = .rule ∧ MadeFrom p t

section Ids

theorem readNumber_append {c : Char} (hc : Text.digitValue? c = none) (cs ds : List Char) (n : Nat) :
    Text.readNumber n (cs ++ c :: ds) = Text.readNumber n cs := by
  induction cs generalizing n with
  | nil => simp [Text.readNumber, hc]
  | cons d cs ih =>
    simp only [List.cons_append, Text.readNumber]
    split
    · exact ih _
    · rfl

theorem leadingNumber_id (x : PartName) (id : String) :
    Text.leadingNumber (x.id id) = Text.leadingNumber id := by
  obtain ⟨c, cs, hpiece, hmark, -⟩ := marked_idPiece.starts x
  rw [Text.leadingNumber, toList_id, hpiece]
  exact readNumber_append (digitValue?_of_isIdMark hmark) id.toList cs 0

/-- A part comes behind the rule that it is made from. -/
theorem idLt_id (x : PartName) (id : String) : idLt id (x.id id) := by
  obtain ⟨c, cs, hpiece, -⟩ := marked_idPiece.starts x
  refine idLt_iff.mpr (.inr ⟨(leadingNumber_id x id).symm, ?_⟩)
  rw [String.lt_iff_toList_lt, toList_id, hpiece]
  induction id.toList with
  | nil => exact List.Lex.nil
  | cons d ds ih => exact List.Lex.cons ih

/-- Marks stand only where a step starts, so the last step of an id can be taken back in one way. -/
theorem eq_of_id_eq {x y : PartName} {id id' : String} (h : x.id id = y.id id') : id = id' := by
  have hpaths : idAlong id [x] = idAlong id' [y] := h
  rcases exists_append_of_idAlong_eq hpaths with ⟨first, hfirst, hid⟩ | ⟨first, hfirst, hid⟩
  · obtain rfl : first = [] := by
      have hlength := congrArg List.length hfirst
      simpa using hlength
    exact hid
  · obtain rfl : first = [] := by
      have hlength := congrArg List.length hfirst
      simpa using hlength
    exact hid.symm

end Ids

section Made
variable {p q t : Rule}

theorem MadeFrom.exists_id (h : MadeFrom p t) : ∃ x : PartName, t.id = x.id p.id := by
  cases h with
  | operand n e f => exact ⟨.operator n, rfl⟩
  | star e f => exact ⟨.star, rfl⟩
  | value n e f => exact ⟨.value n, rfl⟩

theorem MadeFrom.source_eq_none (h : MadeFrom p t) : t.source = none := by cases h <;> rfl

/-- Right-hand sides do not matter, neither that of the part nor that of its rule. -/
theorem MadeFrom.withExpr (h : MadeFrom p t) (e f : Expr) :
    MadeFrom (p.withExpr e) (t.withExpr f) := by
  cases h with
  | operand n o _ => exact .operand n o f
  | star o _ =>
    have hpart : (p.starPart o).withExpr f = ((p.withExpr e).starPart o).withExpr f := rfl
    exact hpart ▸ .star o f
  | value n o _ => exact .value n o f

theorem MadeFrom.id_eq (h : MadeFrom p t) (h' : MadeFrom q t) : q.id = p.id := by
  obtain ⟨x, hx⟩ := h.exists_id
  obtain ⟨y, hy⟩ := h'.exists_id
  exact eq_of_id_eq (hy.symm.trans hx)

theorem MadeFrom.idLt (h : MadeFrom p t) : idLt p.id t.id := by
  obtain ⟨x, hx⟩ := h.exists_id
  exact hx ▸ idLt_id x p.id

theorem MadeFrom.leadingNumber_eq (h : MadeFrom p t) :
    Text.leadingNumber t.id = Text.leadingNumber p.id := by
  obtain ⟨x, hx⟩ := h.exists_id
  rw [hx, leadingNumber_id]

theorem not_madeFrom_emptyRule (p : Rule) : ¬MadeFrom p emptyRule := by
  intro h
  obtain ⟨x, hx⟩ := h.exists_id
  obtain ⟨c, hc, hmark⟩ := exists_isIdMark_idAlong p.id (List.cons_ne_nil x [])
  have hzero : emptyRule.id.toList = ['0'] := by decide
  rw [idAlong, idAlong, ← hx, hzero, List.mem_singleton] at hc
  exact not_isIdMark_of_isDigit (c := c) (by rw [hc]; decide) hmark

end Made

section Growing
variable {reserved : List String} {r p : Rule} {n m : Nat} {out below rules : List Rule}

theorem GrownFrom.one (r : Rule) : GrownFrom r [r] :=
  ⟨⟨r.expr, List.mem_singleton.mpr rfl⟩, List.forall_mem_singleton.mpr (.inl ⟨r.expr, rfl⟩)⟩

theorem GrownFrom.of_withExpr {e : Expr} (h : GrownFrom (r.withExpr e) out) : GrownFrom r out :=
  ⟨h.root, h.made⟩

/-- What is made from a rule may be added to what that rule has become. -/
theorem GrownFrom.append (hkind : r.kind = .rule) (h : GrownFrom r out)
    (hbelow : ∀ t ∈ below, MadeFrom r t ∨ ∃ p ∈ below, p.kind = .rule ∧ MadeFrom p t) :
    GrownFrom r (out ++ below) := by
  obtain ⟨e, he⟩ := h.root
  refine ⟨⟨e, List.mem_append_left _ he⟩, List.forall_mem_append.mpr ⟨?_, ?_⟩⟩
  · intro t ht
    refine (h.made t ht).imp_right ?_
    rintro ⟨p, hp, hmade⟩
    exact ⟨p, List.mem_append_left _ hp, hmade⟩
  · intro t ht
    refine .inr ?_
    rcases hbelow t ht with hmade | ⟨p, hp, hmade⟩
    · exact ⟨r.withExpr e, List.mem_append_left _ he, hkind, hmade.withExpr e t.expr⟩
    · exact ⟨p, List.mem_append_right _ hp, hmade⟩

theorem GrownFrom.madeFrom (h : GrownFrom r out) (hr : MadeFrom p r) :
    ∀ t ∈ out, MadeFrom p t ∨ ∃ q ∈ out, q.kind = .rule ∧ MadeFrom q t := by
  intro t ht
  refine (h.made t ht).imp_left ?_
  rintro ⟨e, rfl⟩
  exact hr.withExpr p.expr e

theorem Moves.madeFrom {chosen : Expr → Bool} {id : Nat → String} {part : Nat → Expr → Rule}
    {es fs : List Expr} {parts : List Rule} (h : Moves reserved chosen id part n es fs parts m)
    (hpart : ∀ k e, MadeFrom p (part k e)) : ∀ t ∈ parts, MadeFrom p t := by
  induction h with
  | nil => exact List.forall_mem_nil _
  | stay _ _ ih => exact ih
  | move _ _ _ ih => exact List.forall_mem_cons.mpr ⟨hpart _ _, ih⟩

mutual

theorem Normalizes.grownFrom {r : Rule} {n : Nat} {out : List Rule}
    (h : Normalizes reserved r n out) : GrownFrom r out := by
  match h with
  | .whole _ => exact .one r
  | .operators hkind _ hmoves hparent hparts =>
    have hmade := hmoves.madeFrom (p := r) fun k e => .operand k e e
    exact hparent.grownFrom.of_withExpr.append hkind (hparts.madeFrom hmade)
  | .opt _ _ _ h => exact h.grownFrom.of_withExpr
  | .star (e := e) hkind _ _ hparent hpart =>
    have hmade : MadeFrom r (r.starPart e) := .star e (r.starPart e).expr
    exact hparent.grownFrom.of_withExpr.append hkind (hpart.grownFrom.madeFrom hmade)
  | .plus _ _ _ h => exact h.grownFrom.of_withExpr
  | .values hkind _ _ hmoves =>
    have hmade := hmoves.madeFrom (p := r) fun k e => .value k e e
    exact (GrownFrom.one (r.withExpr _)).of_withExpr.append hkind fun t ht => .inl (hmade t ht)
  | .pure _ _ _ => exact .one r

theorem NormalizesAll.madeFrom {p : Rule} {rules out : List Rule}
    (h : NormalizesAll reserved rules out) (hrules : ∀ r ∈ rules, MadeFrom p r) :
    ∀ t ∈ out, MadeFrom p t ∨ ∃ q ∈ out, q.kind = .rule ∧ MadeFrom q t := by
  match h with
  | .nil => exact List.forall_mem_nil _
  | .cons h hrest =>
    obtain ⟨hr, hrules⟩ := List.forall_mem_cons.mp hrules
    refine List.forall_mem_append.mpr ⟨fun t ht => ?_, fun t ht => ?_⟩
    · refine (h.grownFrom.madeFrom hr t ht).imp_right ?_
      rintro ⟨q, hq, hmade⟩
      exact ⟨q, List.mem_append_left _ hq, hmade⟩
    · refine (hrest.madeFrom hrules t ht).imp_right ?_
      rintro ⟨q, hq, hmade⟩
      exact ⟨q, List.mem_append_right _ hq, hmade⟩

end

theorem grownFrom_flatten (reserved : List String) (r : Rule) :
    GrownFrom r (r.flatten reserved).rules := (normalizes_flatten reserved r).grownFrom

end Growing

section Sorted
variable {rules : List Rule} {r t : Rule}

/-- Where rules are in order, the one of lower id stands in front. -/
theorem sublist_of_idLt (h : rules.Pairwise fun r t => idLt r.id t.id) (hr : r ∈ rules)
    (ht : t ∈ rules) (hlt : idLt r.id t.id) : [r, t].Sublist rules := by
  induction rules with
  | nil => cases hr
  | cons u rules ih =>
    obtain ⟨hu, hrules⟩ := List.pairwise_cons.mp h
    rcases List.mem_cons.mp hr with rfl | hr' <;> rcases List.mem_cons.mp ht with rfl | ht'
    · exact absurd hlt (idLt_irrefl _)
    · exact (List.singleton_sublist.mpr ht').cons_cons _
    · exact absurd (hu r hr') (idLt_asymm hlt)
    · exact (ih hrules hr' ht').cons _

end Sorted

section Loaded
variable {text : String} {file : Option String} {g h : Grammar} {r : Rule}

theorem isSome_source_of_span {q : Progress} {s : Span} (h : s.rule file q = .ok r) :
    r.source.isSome := by
  obtain ⟨d, e, -, -, rfl⟩ := rule_eq_ok_iff.mp h
  rfl

variable (hload : Grammar.load text file = .ok g)
include hload

theorem not_madeFrom_of_load (hr : r ∈ g.rules) (p : Rule) (e : Expr) : ¬MadeFrom p (r.withExpr e) := by
  intro h
  obtain ⟨q, s, hspan⟩ := exists_span_of_load hload hr
  have hsource := isSome_source_of_span hspan
  have hnone : r.source = none := h.source_eq_none
  simp [hnone] at hsource

/-- A rule that something is made from is not merged away. -/
theorem mapNames_mem_flatRules (hr : r ∈ (flattenAll g.rules).rules) (hkind : r.kind = .rule) :
    r.mapNames (mergeRenaming (flattenAll g.rules).rules) ∈ flatRules g.rules := by
  refine mapNames_mem_mergeTerminals (nodup_ids_terminals hload) hr fun hsuperseded => ?_
  rw [hsuperseded.1] at hkind
  exact absurd hkind (by decide)

/-- Flat rules are in strict order. Those that are made from a rule stand behind that one rule, and their
ids start with the same number. -/
theorem flat_order (hflat : g.flat = .ok h) :
    h.rules.Pairwise (fun r t => idLt r.id t.id) ∧
      ∀ t ∈ h.rules,
        (t = emptyRule ∨ ∃ r ∈ g.rules, ∃ e, t = r.withExpr e) ∧ (∀ q, ¬MadeFrom q t) ∨
        ∃ p ∈ h.rules, MadeFrom p t ∧ (∀ q, MadeFrom q t → q.id = p.id) ∧
          Text.leadingNumber t.id = Text.leadingNumber p.id ∧ [p, t].Sublist h.rules := by
  obtain ⟨-, hnodup, rfl⟩ := flat_eq_ok_iff.mp hflat
  have hsorted : (flatRules g.rules).Pairwise fun r t => idLt r.id t.id :=
    pairwise_mergeTerminals hnodup
  refine ⟨hsorted, fun t ht => ?_⟩
  obtain ⟨u, hu, rfl⟩ := exists_mem_of_mem_mergeTerminals ht
  rcases eq_emptyRule_or_of_mem_flattenAll hu with rfl | ⟨r, hr, hur⟩
  · exact .inl ⟨.inl rfl, not_madeFrom_emptyRule⟩
  rcases (grownFrom_flatten _ r).made u hur with ⟨e, rfl⟩ | ⟨p, hp, hkind, hmade⟩
  · exact .inl ⟨.inr ⟨r, hr, _, rfl⟩, fun q => not_madeFrom_of_load hload hr q _⟩
  · have hmade := hmade.withExpr
      (p.expr.mapNames (mergeRenaming (flattenAll g.rules).rules))
      (u.expr.mapNames (mergeRenaming (flattenAll g.rules).rules))
    have hmem := mapNames_mem_flatRules hload
      (List.mem_of_mem_tail (mem_tail_flattenAll.mpr ⟨r, hr, hp⟩)) hkind
    exact .inr ⟨_, hmem, hmade, fun q hq => hmade.id_eq hq, hmade.leadingNumber_eq,
      sublist_of_idLt hsorted hmem ht hmade.idLt⟩

end Loaded

/-- Ids with dots, one of them that of a part, and a terminal that is merged with one of lower id. -/
def dottedText : String :=
  "[2.5] a ::= ('x' b | C+)* D\n[2.5.1] b ::= a?\n@terminals\n[10] C ::= 'x'\n[9] D ::= 'z'"

theorem flat_order_dottedText : ∃ g h, Grammar.load dottedText none = .ok g ∧ g.flat = .ok h ∧
    h.rules.map Rule.id = ["0", "2.5", "2.5.1", "2.5.2", "2.5.2*", "2.5.2.1", "2.5.2.1.1",
      "2.5.2.1.1.term1", "2.5.2.1.2", "2.5.2.1.2.1", "2.5.2.1.2.1*", "9"] ∧
    h.rules.Pairwise (fun r t => idLt r.id t.id) ∧
    ∀ t ∈ h.rules, t.source = none → t = emptyRule ∨ ∃ p ∈ h.rules, MadeFrom p t ∧
      [p, t].Sublist h.rules := by
  obtain ⟨g, h, hload, hflat, hids, hsource⟩ : ∃ g h, Grammar.load dottedText none = .ok g ∧
      g.flat = .ok h ∧ h.rules.map Rule.id = ["0", "2.5", "2.5.1", "2.5.2", "2.5.2*", "2.5.2.1",
        "2.5.2.1.1", "2.5.2.1.1.term1", "2.5.2.1.2", "2.5.2.1.2.1", "2.5.2.1.2.1*", "9"] ∧
      ∀ r ∈ g.rules, r.source ≠ none :=
    ⟨_, _, rfl, rfl, by decide +kernel, by decide⟩
  obtain ⟨hsorted, hmade⟩ := flat_order hload hflat
  refine ⟨g, h, hload, hflat, hids, hsorted, fun t ht hnone => ?_⟩
  rcases hmade t ht with ⟨rfl | ⟨r, hr, e, rfl⟩, -⟩ | ⟨p, hp, hfrom, -, -, hfront⟩
  · exact .inl rfl
  · exact absurd hnone (hsource r hr)
  · exact .inr ⟨p, hp, hfrom, hfront⟩

end FlatGrammar
