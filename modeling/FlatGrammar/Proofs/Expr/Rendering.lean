import FlatGrammar.Proofs.Expr.Writing

/-! # Renderings of right-hand sides

An expression has many renderings: pairs of parentheses may stand around any part, and must stand around
an operand whose operator does not bind tighter than the one it belongs to; blanks may stand between
tokens, and must where the tokens would run into each other. Each rendering is read back as the
expression.
-/
namespace FlatGrammar

/-- How tight an operator binds, from the loosest up. -/
def Series.binding : Series → Nat
  | .alt => 0
  | .seq => 1

/-- How tight the outermost operator binds. Leaves are tighter than any operator. -/
def Expr.binding : Expr → Nat
  | series op _ => op.binding
  | diff _ _ => 2
  | repeated _ _ => 3
  | _ => 4

def Series.run : Series → List (List Token) → List Token
  | .alt, tss => [.bar].intercalate tss
  | .seq, tss => tss.flatten

mutual

/-- The runs of tokens for an expression, with or without parentheses around the whole. -/
inductive Renders : Expr → Bool → List Token → Prop
  | symbol (name : String) : Renders (.ref name) false [.symbol name]
  | terminal (t : Terminal) : Renders (.terminal t) false [t.token]
  | series {op : Series} {es : List Expr} {tss : List (List Token)} (h : RendersAll op es tss) :
      Renders (.series op es) false (op.run tss)
  | diff {l r : Expr} {b c : Bool} {ts us : List Token} (hl : Renders l b ts) (hr : Renders r c us)
      (hleft : b ∨ (Expr.diff l r).binding < l.binding) (hright : c ∨ ¬r.isComposite) :
      Renders (.diff l r) false (ts ++ .minus :: us)
  | repeated {op : Repetition} {e : Expr} {b : Bool} {ts : List Token} (h : Renders e b ts)
      (hoperand : b ∨ (Expr.repeated op e).binding < e.binding) :
      Renders (.repeated op e) false (ts ++ [op.token])
  | enclosed {e : Expr} {b : Bool} {ts : List Token} (h : Renders e b ts) :
      Renders e true (.opening :: ts ++ [.closing])

/-- The runs of tokens for the operands of a series, each of them tighter or in parentheses. -/
inductive RendersAll : Series → List Expr → List (List Token) → Prop
  | nil (op : Series) : RendersAll op [] []
  | cons {op : Series} {e : Expr} {b : Bool} {ts : List Token} {es : List Expr}
      {tss : List (List Token)} (h : Renders e b ts) (hoperand : b ∨ op.binding < e.binding)
      (hs : RendersAll op es tss) : RendersAll op (e :: es) (ts :: tss)

end

/-- Tokens that would run into each other. -/
def Token.isTight : Token → Bool
  | literal _ => true
  | hexRef _ => true
  | symbol _ => true
  | _ => false

/-- A text with the given tokens, blanks between them, and any choice of quotes. -/
inductive Spaced : List Token → List Char → Prop
  | nil {bs : List Char} (hbs : ∀ c ∈ bs, Text.isBlank c) : Spaced [] bs
  | cons {t : Token} {ts : List Token} {bs cs : List Char} (q : Quoting)
      (hbs : ∀ c ∈ bs, Text.isBlank c)
      (hgap : ∀ u ∈ ts.head?, t.isTight → u.isTight → StartsBlank cs) (h : Spaced ts cs) :
      Spaced (t :: ts) (bs ++ ((t.written q).toList ++ cs))

namespace Expr

/-- The node is one that reading can make: a single operand has no series around it, an alternation has
alternatives, and a leaf can be written. -/
def isProper : Expr → Bool
  | symbol (some name) => (Token.symbol name).isReadable
  | symbol none => false
  | terminal t => t.token.isReadable
  | series .seq es => es.length != 1
  | series .alt es => 2 ≤ es.length
  | _ => true

def isReadable (e : Expr) : Bool := e.fold fun o readable => o.isProper && readable.all id

theorem isReadable_iff {e : Expr} :
    e.isReadable ↔ e.isProper ∧ ∀ o ∈ e.operands, o.isReadable := by
  rw [isReadable, fold_eq, Bool.and_eq_true_iff, List.all_eq_true, List.forall_mem_map]
  rfl

theorem le_binding_of_leaf {e : Expr} (h : ¬e.isComposite) : 4 ≤ e.binding := by
  cases e with
  | symbol _ | terminal _ => exact Nat.le_refl 4
  | series _ _ | diff _ _ | repeated _ _ => exact absurd rfl h

end Expr

theorem Series.forall_mem_run {P : Token → Prop} {op : Series} {tss : List (List Token)}
    (hbar : P .bar) (h : ∀ ts ∈ tss, ∀ t ∈ ts, P t) : ∀ t ∈ op.run tss, P t := by
  cases op with
  | alt => exact forall_mem_intercalate hbar h
  | seq =>
    intro t ht
    obtain ⟨ts, hts, ht⟩ := List.mem_flatten.mp ht
    exact h ts hts t ht

theorem Repetition.isReadable_token (op : Repetition) : op.token.isReadable := by
  cases op <;> rfl

section Trees
variable {e : Expr} {es : List Expr} {op : Series} {b : Bool} {n m : Nat} {ts : List Token}
  {tss : List (List Token)}

/-- The tokens are a phrase where operators have to bind at least as tight as the given one. -/
def StandsAt (e : Expr) (ts : List Token) : Nat → Prop
  | 0 => ∃ es, Phrase false .alternatives ts es ∧ .join .alt es = e
  | 1 => ∃ es, Phrase false .members ts es ∧ .join .seq es = e
  | 2 => Phrase false .difference ts [e]
  | 3 => Phrase false .quantified ts [e]
  | _ => Phrase false .primary ts [e]

theorem StandsAt.of_succ (h : StandsAt e ts (n + 1)) : StandsAt e ts n :=
  match n, h with
  | 0, ⟨_, hphrase, hjoin⟩ => ⟨_, .last hphrase, hjoin⟩
  | 1, h => ⟨_, phrase_member h, rfl⟩
  | 2, h => .plain h
  | 3, h => .once h
  | _ + 4, h => h

theorem StandsAt.of_le (h : StandsAt e ts m) (hle : n ≤ m) : StandsAt e ts n :=
  Nat.decreasingInduction (fun _ _ h => h.of_succ) h hle

/-- Parentheses make a place for any operator. -/
theorem StandsAt.enclosed (h : StandsAt e ts 0) : StandsAt e (.opening :: ts ++ [.closing]) 4 := by
  obtain ⟨es, hphrase, rfl⟩ := h
  exact .group hphrase

theorem StandsAt.series (hop : (Expr.series op es).isProper)
    (h : List.Forall₂ (fun e ts => StandsAt e ts (op.binding + 1)) es tss) :
    StandsAt (.series op es) (op.run tss) op.binding := by
  cases op with
  | alt =>
    have hlength : 2 ≤ es.length := by simpa [Expr.isProper] using hop
    have hne : es ≠ [] := List.ne_nil_of_length_pos (by omega)
    exact ⟨es, phrase_bars h hne, Expr.join_of_length_ne_one (by omega)⟩
  | seq =>
    have hlength : es.length ≠ 1 := by simpa [Expr.isProper] using hop
    exact ⟨es, phrase_members h, Expr.join_of_length_ne_one hlength⟩

/-- What an operand stands for at its place. -/
theorem StandsAt.operand (h : StandsAt e ts (if b then 4 else e.binding)) (hn : n ≤ 4)
    (htight : b ∨ n ≤ e.binding) : StandsAt e ts n := by
  refine h.of_le ?_
  cases b with
  | true => exact hn
  | false => exact htight.resolve_left nofun

mutual

/-- Parentheses make an operand as tight as a leaf. -/
theorem standsAt_of_renders : ∀ {e : Expr} {b : Bool} {ts : List Token}, Renders e b ts →
    e.isReadable → StandsAt e ts (if b then 4 else e.binding)
  | _, _, _, .symbol _, _ => .leaf rfl
  | _, _, _, .terminal t, _ => by cases t <;> exact .leaf rfl
  | _, _, _, .series hs, h => by
    obtain ⟨hproper, hoperands⟩ := Expr.isReadable_iff.mp h
    exact .series hproper (standsAt_of_rendersAll hs hoperands)
  | _, _, _, .diff hl hr hleft hright, h => by
    obtain ⟨-, hoperands⟩ := Expr.isReadable_iff.mp h
    have hl' := hoperands _ List.mem_cons_self
    have hr' := hoperands _ (List.mem_cons_of_mem _ List.mem_cons_self)
    have hquantified := (standsAt_of_renders hl hl').operand (Nat.le_succ 3) hleft
    have hprimary := (standsAt_of_renders hr hr').operand (Nat.le_refl 4)
      (hright.imp_right Expr.le_binding_of_leaf)
    exact .minus hquantified hprimary
  | _, _, _, .repeated ho hoperand, h => by
    obtain ⟨-, hoperands⟩ := Expr.isReadable_iff.mp h
    have hprimary := (standsAt_of_renders ho (hoperands _ List.mem_cons_self)).operand
      (Nat.le_refl 4) hoperand
    exact .repeated hprimary (Repetition.repetition?_token _)
  | _, _, _, .enclosed ho, h => ((standsAt_of_renders ho h).of_le (Nat.zero_le _)).enclosed

theorem standsAt_of_rendersAll : ∀ {op : Series} {es : List Expr} {tss : List (List Token)},
    RendersAll op es tss → (∀ e ∈ es, e.isReadable) →
      List.Forall₂ (fun e ts => StandsAt e ts (op.binding + 1)) es tss
  | _, _, _, .nil _, _ => .nil
  | op, _, _, .cons he hoperand hs, h => by
    obtain ⟨hreadable, hes⟩ := List.forall_mem_cons.mp h
    have hn : op.binding + 1 ≤ 4 := by cases op <;> decide
    exact .cons ((standsAt_of_renders he hreadable).operand hn hoperand)
      (standsAt_of_rendersAll hs hes)

end

mutual

theorem isReadable_of_mem_renders : ∀ {e : Expr} {b : Bool} {ts : List Token}, Renders e b ts →
    e.isReadable → ∀ t ∈ ts, t.isReadable
  | _, _, _, .symbol _, h | _, _, _, .terminal _, h =>
    List.forall_mem_singleton.mpr (Expr.isReadable_iff.mp h).1
  | _, _, _, .series hs, h => by
    have hruns := isReadable_of_mem_rendersAll hs (Expr.isReadable_iff.mp h).2
    exact Series.forall_mem_run rfl hruns
  | _, _, _, .diff hl hr _ _, h => by
    obtain ⟨-, hoperands⟩ := Expr.isReadable_iff.mp h
    have hl' := isReadable_of_mem_renders hl (hoperands _ List.mem_cons_self)
    have hr' := isReadable_of_mem_renders hr (hoperands _ (List.mem_cons_of_mem _ List.mem_cons_self))
    exact List.forall_mem_append.mpr ⟨hl', List.forall_mem_cons.mpr ⟨rfl, hr'⟩⟩
  | _, _, _, .repeated ho _, h => by
    obtain ⟨-, hoperands⟩ := Expr.isReadable_iff.mp h
    refine List.forall_mem_append.mpr ⟨?_, List.forall_mem_singleton.mpr ?_⟩
    · exact isReadable_of_mem_renders ho (hoperands _ List.mem_cons_self)
    · exact Repetition.isReadable_token _
  | _, _, _, .enclosed ho, h => by
    have hinner := isReadable_of_mem_renders ho h
    exact List.forall_mem_append.mpr
      ⟨List.forall_mem_cons.mpr ⟨rfl, hinner⟩, List.forall_mem_singleton.mpr rfl⟩

theorem isReadable_of_mem_rendersAll : ∀ {op : Series} {es : List Expr} {tss : List (List Token)},
    RendersAll op es tss → (∀ e ∈ es, e.isReadable) → ∀ ts ∈ tss, ∀ t ∈ ts, t.isReadable
  | _, _, _, .nil _, _ => List.forall_mem_nil _
  | _, _, _, .cons he _ hs, h => by
    obtain ⟨hreadable, hes⟩ := List.forall_mem_cons.mp h
    exact List.forall_mem_cons.mpr
      ⟨isReadable_of_mem_renders he hreadable, isReadable_of_mem_rendersAll hs hes⟩

end

end Trees

section Texts
variable {t : Token} {ts : List Token} {cs : List Char}

/-- A token that is not tight starts with a character that goes on with no other token. -/
theorem exists_written_of_loose (q : Quoting) (h : t.isReadable) (hloose : ¬t.isTight) :
    ∃ c ds, (t.written q).toList = c :: ds ∧ Text.isWord c = false ∧ c ≠ '\'' ∧ c ≠ '"' := by
  rcases exists_operator?_of_isReadable h with
    ⟨text, rfl⟩ | ⟨spec, rfl⟩ | ⟨spec, rfl⟩ | ⟨name, rfl⟩ | ⟨c, hc⟩
  · exact absurd rfl hloose
  · exact ⟨'[', _, Token.toList_written_charClass q spec, by decide⟩
  · exact absurd rfl hloose
  · exact absurd rfl hloose
  · refine ⟨c, [], Token.toList_written_operator q hc, ?_⟩
    rcases Token.eq_of_operator? hc with rfl | rfl | rfl | rfl | rfl | rfl | rfl <;> decide

theorem Spaced.stops (h : Spaced ts cs) (hts : ∀ u ∈ ts, u.isReadable)
    (hgap : ∀ u ∈ ts.head?, t.isTight → u.isTight → StartsBlank cs) : t.Stops cs := by
  cases h with
  | @nil bs hbs =>
    have hblank : StartsBlank cs := fun c hc => hbs c (List.mem_of_mem_head? hc)
    exact hblank.stops t
  | @cons u us bs cs q hbs _ _ =>
    cases bs with
    | cons b bs =>
      have hblank : StartsBlank (b :: bs ++ ((u.written q).toList ++ cs)) := by
        refine forall_head?_cons ?_ _
        exact hbs b List.mem_cons_self
      exact hblank.stops t
    | nil =>
      by_cases ht : t.isTight
      · by_cases hu : u.isTight
        · exact (hgap u rfl ht hu).stops t
        · obtain ⟨c, ds, hwritten, hc⟩ := exists_written_of_loose q (hts u List.mem_cons_self) hu
          refine t.stops_of_head ?_
          rw [hwritten]
          refine forall_head?_cons ?_ _
          exact hc
      · cases t with
        | literal _ | hexRef _ | symbol _ => exact absurd rfl ht
        | _ => trivial

theorem next?_blanks {bs : List Char} (hbs : ∀ c ∈ bs, Text.isBlank c) (rest : List Char) :
    Token.next? (bs ++ rest) = Token.next? rest := by
  rw [← next?_trimStart, Text.trimStart, List.dropWhile_append_of_pos hbs]
  exact next?_trimStart rest

/-- The tokens of a text are read one by one. -/
theorem reads_of_spaced (h : Spaced ts cs) (hts : ∀ t ∈ ts, t.isReadable) :
    ∃ rest, Reads cs ts rest ∧ rest.all Text.isBlank := by
  induction h with
  | @nil bs hbs => exact ⟨bs, .nil bs, List.all_eq_true.mpr hbs⟩
  | @cons t ts bs cs q hbs hgap h ih =>
    obtain ⟨ht, hts⟩ := List.forall_mem_cons.mp hts
    obtain ⟨rest, hreads, hrest⟩ := ih hts
    have hnext : Token.next? (bs ++ ((t.written q).toList ++ cs)) = .ok (t, cs) := by
      rw [next?_blanks hbs, next?_of_stops q ht (h.stops hts hgap)]
    have hfinish : t ≠ .finish := by
      rintro rfl
      cases ht
    exact ⟨rest, .cons hnext hfinish hreads, hrest⟩

/-- Every rendering of an expression is read back as the expression. -/
theorem parse?_of_renders {e : Expr} {b : Bool} (h : e.isReadable) (hts : Renders e b ts)
    (hcs : Spaced ts cs) : Expr.parse? cs = .ok e := by
  obtain ⟨rest, hreads, hrest⟩ := reads_of_spaced hcs (isReadable_of_mem_renders hts h)
  obtain ⟨es, hphrase, rfl⟩ := (standsAt_of_renders hts h).of_le (Nat.zero_le _)
  exact parse?_of_phrase hphrase hreads hrest

theorem parse?_renders_parenthesized :
    let e : Expr := .alt [.seq [], .diff (.literal "a'\n") (.star (.ref "b")),
      .seq [.ref "c", .hexRef "#x0"]]
    let ts : List Token := [.bar, .opening, .literal "a'\n", .closing, .minus, .opening, .symbol "b",
      .star, .closing, .bar, .symbol "c", .hexRef "#x0"]
    let cs := "|(\"a'\n\") - (b*)|c #x0 ".toList
    e.isReadable ∧ Renders e false ts ∧ Spaced ts cs ∧ Expr.parse? cs = .ok e := by
  intro e ts cs
  have hreadable : e.isReadable := by decide
  have hempty : Renders (.seq []) false [] := .series (.nil .seq)
  have hstar : Renders (.star (.ref "b")) true [.opening, .symbol "b", .star, .closing] :=
    .enclosed (.repeated (.symbol "b") (.inr (by decide)))
  have hdiff : Renders (.diff (.literal "a'\n") (.star (.ref "b"))) false
      [.opening, .literal "a'\n", .closing, .minus, .opening, .symbol "b", .star, .closing] :=
    .diff (.enclosed (.terminal (.literal "a'\n"))) hstar (.inl rfl) (.inl rfl)
  have hseq : Renders (.seq [.ref "c", .hexRef "#x0"]) false [.symbol "c", .hexRef "#x0"] :=
    .series (.cons (.symbol "c") (.inr (by decide))
      (.cons (.terminal (.hexRef "#x0")) (.inr (by decide)) (.nil .seq)))
  have hts : Renders e false ts :=
    .series (.cons hempty (.inr (by decide)) (.cons hdiff (.inr (by decide))
      (.cons hseq (.inr (by decide)) (.nil .alt))))
  have hcs : Spaced ts cs := by
    let q := Quoting.preferDouble
    have hnone : ∀ c ∈ ([] : List Char), Text.isBlank c := List.forall_mem_nil _
    have hspace : ∀ c ∈ [' '], Text.isBlank c := List.forall_mem_singleton.mpr rfl
    have hloose : ∀ {t : Token} {us : List Token} {ds : List Char}, t.isTight = false →
        ∀ u ∈ us.head?, t.isTight → u.isTight → StartsBlank ds :=
      fun ht _ _ htight => absurd htight (by rw [ht]; nofun)
    have hhex := Spaced.cons (t := .hexRef "#x0") q hspace (fun _ hu => by cases hu) (.nil hspace)
    have hname := Spaced.cons (t := .symbol "c") q hnone
      (fun _ _ _ _ => forall_head?_cons (by decide) _) hhex
    have hstar := Spaced.cons (t := .star) q hnone (hloose rfl)
      (.cons (t := .closing) q hnone (hloose rfl) (.cons (t := .bar) q hnone (hloose rfl) hname))
    have hoperand := Spaced.cons (t := .opening) q hspace (hloose rfl)
      (.cons (t := .symbol "b") q hnone (forall_head?_cons nofun _) hstar)
    have hliteral := Spaced.cons (t := .literal "a'\n") q hnone (forall_head?_cons nofun _)
      (.cons (t := .closing) q hnone (hloose rfl) (.cons (t := .minus) q hspace (hloose rfl) hoperand))
    have hall : Spaced ts _ :=
      .cons q hnone (hloose rfl) (.cons (t := .opening) q hnone (hloose rfl) hliteral)
    refine Eq.mp (congrArg (Spaced ts) ?_) hall
    decide +kernel
  exact ⟨hreadable, hts, hcs, parse?_of_renders hreadable hts hcs⟩

end Texts

end FlatGrammar
