import FlatGrammar.Proofs.Expr.Phrase
import FlatGrammar.Proofs.Token

/-! # What the productions read

Whatever a production returns is a phrase of the tolerant grammar, read from the start of the text. In
the other direction, a phrase of the strict grammar is read as a whole, with its own tree, if the token
behind it cannot go on with it and calls may nest deep enough.
-/
namespace FlatGrammar

theorem bind_eq_ok {ε α β : Type} {x : Except ε α} {f : α → Except ε β} {b : β} :
    x >>= f = .ok b ↔ ∃ a, x = .ok a ∧ f a = .ok b := by
  cases x <;> simp [bind, Except.bind]

/-- The phrase of a form that a reader has found, or nothing. -/
def Found (form : Form) (text : List Char) : Option Expr → List Char → Prop
  | some e, rest => ∃ ts, Phrase true form ts [e] ∧ Reads text ts rest
  | none, rest => rest = text

/-- Readers of phrases of the tolerant grammar. -/
structure Sound (p : Productions (Except Misreading)) : Prop where
  group : ∀ {text e rest}, p.group text = .ok (e, rest) →
    ∃ ts es, Phrase true .alternatives ts es ∧ e = .join .alt es ∧
      (Reads text ts rest ∨ Reads text (ts ++ [.closing]) rest)
  alternation : ∀ {text e rest}, p.alternation text = .ok (e, rest) →
    ∃ ts es, Phrase true .alternatives ts es ∧ e = .join .alt es ∧ Reads text ts rest
  sequence : ∀ {text e rest}, p.sequence text = .ok (e, rest) →
    ∃ ts es, Phrase true .members ts es ∧ e = .join .seq es ∧ Reads text ts rest
  difference : ∀ {text e? rest}, p.difference text = .ok (e?, rest) → Found .difference text e? rest
  quantified : ∀ {text e? rest}, p.quantified text = .ok (e?, rest) → Found .quantified text e? rest
  primary : ∀ {text e? rest}, p.primary text = .ok (e?, rest) → Found .primary text e? rest

namespace Productions

theorem token_eq (text : List Char) :
    (token text : Except Misreading (Token × List Char)) = Token.next? text := by
  unfold token
  cases Token.next? text <;> rfl

end Productions

namespace Sound
variable {p : Productions (Except Misreading)} (hp : Sound p) {text rest : List Char} {e : Expr}
include hp

theorem readGroup (h : p.readGroup text = .ok (e, rest)) :
    ∃ ts es, Phrase true .alternatives ts es ∧ e = .join .alt es ∧
      (Reads text ts rest ∨ Reads text (ts ++ [.closing]) rest) := by
  obtain ⟨⟨e', middle⟩, halternation, h⟩ := bind_eq_ok.mp h
  obtain ⟨⟨t, after⟩, htoken, h⟩ := bind_eq_ok.mp h
  obtain ⟨rfl, hrest⟩ := Prod.mk.inj (Except.ok.inj h)
  obtain ⟨ts, es, hphrase, rfl, hreads⟩ := hp.alternation halternation
  rw [Productions.token_eq] at htoken
  refine ⟨ts, es, hphrase, rfl, ?_⟩
  split at hrest
  case isTrue ht =>
    subst ht hrest
    exact .inr (hreads.append (.single htoken nofun))
  case isFalse =>
    subst hrest
    exact .inl hreads

/-- Every alternative but the last leaves less text, so their number is not exhausted. -/
theorem alternatives {n : Nat} {es : List Expr} (hn : text.length < n)
    (h : p.alternatives n text = .ok (es, rest)) :
    ∃ ts, Phrase true .alternatives ts es ∧ Reads text ts rest := by
  induction n generalizing text es rest with
  | zero => omega
  | succ n ih =>
    obtain ⟨⟨e, middle⟩, hsequence, h⟩ := bind_eq_ok.mp h
    obtain ⟨⟨t, after⟩, htoken, h⟩ := bind_eq_ok.mp h
    obtain ⟨ts, fs, hphrase, rfl, hreads⟩ := hp.sequence hsequence
    rw [Productions.token_eq] at htoken
    by_cases ht : t = .bar
    · subst ht
      obtain ⟨⟨gs, last⟩, hmore, h⟩ := bind_eq_ok.mp h
      obtain ⟨rfl, rfl⟩ := Prod.mk.inj (Except.ok.inj h)
      have hlt := Token.length_lt_of_next? htoken nofun
      have hle := hreads.length_le
      obtain ⟨us, hmorephrase, hmorereads⟩ := ih (by omega) hmore
      exact ⟨ts ++ .bar :: us, .bar hphrase hmorephrase,
        hreads.append (.cons htoken nofun hmorereads)⟩
    · simp only [ht, if_false] at h
      obtain ⟨rfl, rfl⟩ := Prod.mk.inj (Except.ok.inj h)
      exact ⟨ts, .last hphrase, hreads⟩

theorem members {n : Nat} {es : List Expr} (h : p.members n text = .ok (es, rest)) :
    ∃ ts, Phrase true .members ts es ∧ Reads text ts rest := by
  induction n generalizing text es rest with
  | zero =>
    obtain ⟨rfl, rfl⟩ := Prod.mk.inj (Except.ok.inj h)
    exact ⟨[], .done, .nil text⟩
  | succ n ih =>
    obtain ⟨⟨e?, middle⟩, hdifference, h⟩ := bind_eq_ok.mp h
    cases e? with
    | none =>
      obtain ⟨rfl, rfl⟩ := Prod.mk.inj (Except.ok.inj h)
      exact ⟨[], .done, .nil text⟩
    | some e =>
      obtain ⟨⟨fs, last⟩, hmore, h⟩ := bind_eq_ok.mp h
      obtain ⟨rfl, rfl⟩ := Prod.mk.inj (Except.ok.inj h)
      obtain ⟨ts, hphrase, hreads⟩ := hp.difference hdifference
      obtain ⟨us, hmorephrase, hmorereads⟩ := ih hmore
      exact ⟨ts ++ us, .member hphrase hmorephrase, hreads.append hmorereads⟩

theorem readDifference {e? : Option Expr} (h : p.readDifference text = .ok (e?, rest)) :
    Found .difference text e? rest := by
  obtain ⟨⟨left?, middle⟩, hquantified, h⟩ := bind_eq_ok.mp h
  cases left? with
  | none =>
    obtain ⟨rfl, rfl⟩ := Prod.mk.inj (Except.ok.inj h)
    exact hp.quantified hquantified
  | some left =>
    obtain ⟨ts, hphrase, hreads⟩ := hp.quantified hquantified
    obtain ⟨⟨t, after⟩, htoken, h⟩ := bind_eq_ok.mp h
    rw [Productions.token_eq] at htoken
    by_cases ht : t = .minus
    · subst ht
      obtain ⟨⟨right?, last⟩, hprimary, h⟩ := bind_eq_ok.mp h
      cases right? with
      | none => cases h
      | some right =>
        obtain ⟨rfl, rfl⟩ := Prod.mk.inj (Except.ok.inj h)
        obtain ⟨us, hright, hrightreads⟩ := hp.primary hprimary
        exact ⟨ts ++ .minus :: us, .minus hphrase hright,
          hreads.append (.cons htoken nofun hrightreads)⟩
    · simp only [ht, if_false] at h
      obtain ⟨rfl, rfl⟩ := Prod.mk.inj (Except.ok.inj h)
      exact ⟨ts, .plain hphrase, hreads⟩

theorem readQuantified {e? : Option Expr} (h : p.readQuantified text = .ok (e?, rest)) :
    Found .quantified text e? rest := by
  obtain ⟨⟨e?, middle⟩, hprimary, h⟩ := bind_eq_ok.mp h
  cases e? with
  | none =>
    obtain ⟨rfl, rfl⟩ := Prod.mk.inj (Except.ok.inj h)
    exact hp.primary hprimary
  | some e =>
    obtain ⟨ts, hphrase, hreads⟩ := hp.primary hprimary
    obtain ⟨⟨t, after⟩, htoken, h⟩ := bind_eq_ok.mp h
    rw [Productions.token_eq] at htoken
    cases hop : t.repetition? with
    | none =>
      simp only [hop] at h
      obtain ⟨rfl, rfl⟩ := Prod.mk.inj (Except.ok.inj h)
      exact ⟨ts, .once hphrase, hreads⟩
    | some op =>
      simp only [hop] at h
      obtain ⟨rfl, rfl⟩ := Prod.mk.inj (Except.ok.inj h)
      have ht : t ≠ .finish := by
        rintro rfl
        cases hop
      exact ⟨ts ++ [t], .repeated hphrase hop, hreads.append (.single htoken ht)⟩

theorem readPrimary {e? : Option Expr} (h : p.readPrimary text = .ok (e?, rest)) :
    Found .primary text e? rest := by
  obtain ⟨⟨t, after⟩, htoken, h⟩ := bind_eq_ok.mp h
  rw [Productions.token_eq] at htoken
  cases hleaf : t.leaf? with
  | some leaf =>
    simp only [hleaf] at h
    obtain ⟨rfl, rfl⟩ := Prod.mk.inj (Except.ok.inj h)
    have ht : t ≠ .finish := by
      rintro rfl
      cases hleaf
    exact ⟨[t], .leaf hleaf, .single htoken ht⟩
  | none =>
    simp only [hleaf] at h
    by_cases ht : t = .opening
    · subst ht
      obtain ⟨⟨e, last⟩, hgroup, h⟩ := bind_eq_ok.mp h
      obtain ⟨rfl, rfl⟩ := Prod.mk.inj (Except.ok.inj h)
      obtain ⟨ts, es, hphrase, rfl, hreads | hreads⟩ := hp.group hgroup
      · exact ⟨.opening :: ts, .openGroup rfl hphrase, .cons htoken nofun hreads⟩
      · exact ⟨.opening :: ts ++ [.closing], .group hphrase, .cons htoken nofun hreads⟩
    · simp only [ht, if_false] at h
      obtain ⟨rfl, rfl⟩ := Prod.mk.inj (Except.ok.inj h)
      rfl

theorem next : Sound p.next where
  group h := hp.readGroup h
  alternation h := by
    obtain ⟨⟨es, last⟩, halternatives, h⟩ := bind_eq_ok.mp h
    obtain ⟨rfl, rfl⟩ := Prod.mk.inj (Except.ok.inj h)
    obtain ⟨ts, hphrase, hreads⟩ := hp.alternatives (Nat.lt_succ_self _) halternatives
    exact ⟨ts, es, hphrase, rfl, hreads⟩
  sequence h := by
    obtain ⟨⟨es, last⟩, hmembers, h⟩ := bind_eq_ok.mp h
    obtain ⟨rfl, rfl⟩ := Prod.mk.inj (Except.ok.inj h)
    obtain ⟨ts, hphrase, hreads⟩ := hp.members hmembers
    exact ⟨ts, es, hphrase, rfl, hreads⟩
  difference h := hp.readDifference h
  quantified h := hp.readQuantified h
  primary h := hp.readPrimary h

end Sound

theorem sound_nothing : Sound Productions.nothing where
  group h := by
    obtain ⟨rfl, rfl⟩ := Prod.mk.inj (Except.ok.inj h)
    exact ⟨[], [.seq []], .last .done, rfl, .inl (.nil _)⟩
  alternation h := by
    obtain ⟨rfl, rfl⟩ := Prod.mk.inj (Except.ok.inj h)
    exact ⟨[], [.seq []], .last .done, rfl, .nil _⟩
  sequence h := by
    obtain ⟨rfl, rfl⟩ := Prod.mk.inj (Except.ok.inj h)
    exact ⟨[], [], .done, rfl, .nil _⟩
  difference h := by
    obtain ⟨rfl, rfl⟩ := Prod.mk.inj (Except.ok.inj h)
    rfl
  quantified h := by
    obtain ⟨rfl, rfl⟩ := Prod.mk.inj (Except.ok.inj h)
    rfl
  primary h := by
    obtain ⟨rfl, rfl⟩ := Prod.mk.inj (Except.ok.inj h)
    rfl

theorem sound_within (n : Nat) : Sound (Productions.within id n) := by
  induction n with
  | zero => exact sound_nothing
  | succ n ih => exact ih.next

/-- The tokens that cannot go on with a phrase they stand behind. -/
def Token.EndsForm : Form → Token → Prop
  | .alternatives, t => t = .closing ∨ t = .finish
  | .members, t => t = .bar ∨ t = .closing ∨ t = .finish
  | .difference, t => t.repetition? = none ∧ t ≠ .minus
  | .quantified, t => t.repetition? = none
  | .primary, _ => True

def Form.depth : Form → Nat
  | .alternatives => 4
  | .members => 3
  | .difference => 3
  | .quantified => 2
  | .primary => 1

/-- The reader for a form returns the given trees and rest. Lists take enough rounds. -/
def ReadsAs (p : Productions (Except Misreading)) :
    Form → List Char → List Expr → List Char → Prop
  | .alternatives, text, es, rest => ∀ k, text.length < k → p.alternatives k text = .ok (es, rest)
  | .members, text, es, rest => ∀ k, text.length < k → p.members k text = .ok (es, rest)
  | .difference, text, es, rest => p.difference text = .ok (es.head?, rest)
  | .quantified, text, es, rest => p.quantified text = .ok (es.head?, rest)
  | .primary, text, es, rest => p.primary text = .ok (es.head?, rest)

def Token.isStart (t : Token) : Bool := t.leaf?.isSome || t == .opening

theorem Token.endsForm_of_isStart {t : Token} (h : t.isStart) : t.EndsForm .difference := by
  cases t
  case literal | charClass | hexRef | symbol | opening => exact ⟨rfl, nofun⟩
  all_goals cases h

theorem Token.endsForm_difference {t : Token} (h : t.EndsForm .members) : t.EndsForm .difference := by
  rcases h with rfl | rfl | rfl
  all_goals exact ⟨rfl, nofun⟩

theorem Phrase.isStart {tolerant : Bool} {form : Form} {ts : List Token} {es : List Expr}
    (h : Phrase tolerant form ts es) :
    match form with
    | .alternatives => True
    | .members => ∀ t ∈ ts.head?, t.isStart
    | _ => ∃ t us, ts = t :: us ∧ t.isStart := by
  induction h with
  | last | bar => trivial
  | done => simp
  | member _ _ ih =>
    obtain ⟨t, us, rfl, ht⟩ := ih
    simpa using ht
  | plain _ ih | once _ ih => exact ih
  | minus _ _ ih =>
    obtain ⟨t, us, rfl, ht⟩ := ih
    exact ⟨t, _, rfl, ht⟩
  | repeated _ _ ih =>
    obtain ⟨t, us, rfl, ht⟩ := ih
    exact ⟨t, _, rfl, ht⟩
  | @leaf t e ht => exact ⟨t, [], rfl, by simp [Token.isStart, ht]⟩
  | group | openGroup => exact ⟨.opening, _, rfl, rfl⟩

section Rounds
variable {p : Productions (Except Misreading)} {text middle rest after : List Char} {t : Token}
  {e f : Expr} {es : List Expr} {k : Nat}

theorem alternatives_last (h : p.sequence text = .ok (e, rest))
    (hnext : Token.next? rest = .ok (t, after)) (ht : t ≠ .bar) :
    p.alternatives (k + 1) text = .ok ([e], rest) := by
  refine bind_eq_ok.mpr ⟨(e, rest), h, bind_eq_ok.mpr ⟨(t, after), ?_, ?_⟩⟩
  · rw [Productions.token_eq, hnext]
  · simp only [ht, if_false]
    rfl

theorem alternatives_bar (h : p.sequence text = .ok (e, middle))
    (hnext : Token.next? middle = .ok (.bar, after)) (hmore : p.alternatives k after = .ok (es, rest)) :
    p.alternatives (k + 1) text = .ok (e :: es, rest) := by
  refine bind_eq_ok.mpr ⟨(e, middle), h, bind_eq_ok.mpr ⟨(.bar, after), ?_, ?_⟩⟩
  · rw [Productions.token_eq, hnext]
  · exact bind_eq_ok.mpr ⟨(es, rest), hmore, rfl⟩

theorem members_done (h : p.difference text = .ok (none, middle)) :
    p.members (k + 1) text = .ok ([], text) :=
  bind_eq_ok.mpr ⟨(none, middle), h, rfl⟩

theorem members_member (h : p.difference text = .ok (some e, middle))
    (hmore : p.members k middle = .ok (es, rest)) : p.members (k + 1) text = .ok (e :: es, rest) :=
  bind_eq_ok.mpr ⟨(some e, middle), h, bind_eq_ok.mpr ⟨(es, rest), hmore, rfl⟩⟩

theorem readSequence_of_members (h : ReadsAs p .members text es rest) :
    p.readSequence text = .ok (.join .seq es, rest) :=
  bind_eq_ok.mpr ⟨(es, rest), h _ (Nat.lt_succ_self _), rfl⟩

theorem readAlternation_of_alternatives (h : ReadsAs p .alternatives text es rest) :
    p.readAlternation text = .ok (.join .alt es, rest) :=
  bind_eq_ok.mpr ⟨(es, rest), h _ (Nat.lt_succ_self _), rfl⟩

theorem readDifference_plain (h : p.quantified text = .ok (some e, rest))
    (hnext : Token.next? rest = .ok (t, after)) (ht : t ≠ .minus) :
    p.readDifference text = .ok (some e, rest) := by
  refine bind_eq_ok.mpr ⟨(some e, rest), h, bind_eq_ok.mpr ⟨(t, after), ?_, ?_⟩⟩
  · rw [Productions.token_eq, hnext]
  · simp only [ht, if_false]
    rfl

theorem readDifference_minus (h : p.quantified text = .ok (some e, middle))
    (hnext : Token.next? middle = .ok (.minus, after))
    (hright : p.primary after = .ok (some f, rest)) :
    p.readDifference text = .ok (some (.diff e f), rest) := by
  refine bind_eq_ok.mpr ⟨(some e, middle), h, bind_eq_ok.mpr ⟨(.minus, after), ?_, ?_⟩⟩
  · rw [Productions.token_eq, hnext]
  · exact bind_eq_ok.mpr ⟨(some f, rest), hright, rfl⟩

theorem readQuantified_once (h : p.primary text = .ok (some e, rest))
    (hnext : Token.next? rest = .ok (t, after)) (ht : t.repetition? = none) :
    p.readQuantified text = .ok (some e, rest) := by
  refine bind_eq_ok.mpr ⟨(some e, rest), h, bind_eq_ok.mpr ⟨(t, after), ?_, ?_⟩⟩
  · rw [Productions.token_eq, hnext]
  · simp only [ht]
    rfl

theorem readQuantified_repeated {op : Repetition} (h : p.primary text = .ok (some e, middle))
    (hnext : Token.next? middle = .ok (t, rest)) (ht : t.repetition? = some op) :
    p.readQuantified text = .ok (some (.repeated op e), rest) := by
  refine bind_eq_ok.mpr ⟨(some e, middle), h, bind_eq_ok.mpr ⟨(t, rest), ?_, ?_⟩⟩
  · rw [Productions.token_eq, hnext]
  · simp only [ht]
    rfl

theorem readPrimary_leaf (hnext : Token.next? text = .ok (t, rest)) (ht : t.leaf? = some e) :
    p.readPrimary text = .ok (some e, rest) := by
  refine bind_eq_ok.mpr ⟨(t, rest), ?_, ?_⟩
  · rw [Productions.token_eq, hnext]
  · simp only [ht]
    rfl

theorem readPrimary_group (hnext : Token.next? text = .ok (.opening, middle))
    (h : p.group middle = .ok (e, rest)) : p.readPrimary text = .ok (some e, rest) := by
  refine bind_eq_ok.mpr ⟨(.opening, middle), ?_, ?_⟩
  · rw [Productions.token_eq, hnext]
  · exact bind_eq_ok.mpr ⟨(e, rest), h, rfl⟩

theorem readPrimary_none (hnext : Token.next? text = .ok (t, after)) (ht : ¬t.isStart) :
    p.readPrimary text = .ok (none, text) := by
  have hleaf : t.leaf? = none := by
    cases hleaf : t.leaf? with
    | none => rfl
    | some e => simp [Token.isStart, hleaf] at ht
  have hopening : t ≠ .opening := by
    rintro rfl
    exact ht rfl
  refine bind_eq_ok.mpr ⟨(t, after), ?_, ?_⟩
  · rw [Productions.token_eq, hnext]
  · simp only [hleaf, hopening, if_false]
    rfl

theorem readGroup_closed (h : p.alternation text = .ok (e, middle))
    (hnext : Token.next? middle = .ok (.closing, rest)) : p.readGroup text = .ok (e, rest) := by
  refine bind_eq_ok.mpr ⟨(e, middle), h, bind_eq_ok.mpr ⟨(.closing, rest), ?_, rfl⟩⟩
  rw [Productions.token_eq, hnext]

end Rounds

section Complete
open Productions
variable {n : Nat} {text rest after : List Char} {t : Token}

theorem difference_none (hnext : Token.next? text = .ok (t, after)) (ht : ¬t.isStart) :
    (within id (n + 3) : Productions (Except Misreading)).difference text = .ok (none, text) := by
  have hprimary := readPrimary_none (p := within id n) hnext ht
  have hquantified : (within id (n + 2) : Productions (Except Misreading)).quantified text =
      .ok (none, text) := bind_eq_ok.mpr ⟨(none, text), hprimary, rfl⟩
  exact bind_eq_ok.mpr ⟨(none, text), hquantified, rfl⟩

/-- Phrases of the strict grammar are read as they are. -/
theorem Phrase.readsAs {form : Form} {ts : List Token} {es : List Expr}
    (h : Phrase false form ts es) (hreads : Reads text ts rest)
    (hnext : Token.next? rest = .ok (t, after)) (ht : t.EndsForm form)
    (hn : form.depth + 6 * ts.count .opening ≤ n) : ReadsAs (within id n) form text es rest := by
  induction h generalizing n text rest after t with
  | @last ts es _ ih =>
    simp only [Form.depth] at ih hn
    rintro (_ | k) hk
    · omega
    obtain ⟨n, rfl⟩ : ∃ m, n = m + 1 := ⟨n - 1, by omega⟩
    have hmembers := ih (n := n) hreads hnext (.inr ht) (by omega)
    refine alternatives_last (readSequence_of_members hmembers) hnext ?_
    rintro rfl
    rcases ht with ht | ht <;> cases ht
  | @bar ts us es fs _ _ ih ih' =>
    simp only [Form.depth] at ih ih' hn
    rw [count_around (by decide)] at hn
    rintro (_ | k) hk
    · omega
    obtain ⟨n, rfl⟩ : ∃ m, n = m + 1 := ⟨n - 1, by omega⟩
    obtain ⟨middle, hts, hmore⟩ := hreads.exists_of_append
    cases hmore with
    | @cons _ behind _ _ _ hbar _ hus =>
      have hmembers := ih (n := n) hts hbar (.inl rfl) (by omega)
      have hshorter := Token.length_lt_of_next? hbar nofun
      have hle := hts.length_le
      exact alternatives_bar (readSequence_of_members hmembers) hbar
        (ih' hus hnext ht (by omega) k (by omega))
  | done =>
    simp only [Form.depth] at hn
    rintro (_ | k) hk
    · omega
    obtain ⟨n, rfl⟩ : ∃ m, n = m + 3 := ⟨n - 3, by omega⟩
    cases hreads with
    | nil =>
      have hstart : ¬t.isStart := by rcases ht with rfl | rfl | rfl <;> decide
      exact members_done (difference_none hnext hstart)
  | @member ts us e es h h' ih ih' =>
    simp only [Form.depth] at ih ih' hn
    rw [List.count_append] at hn
    rintro (_ | k) hk
    · omega
    obtain ⟨middle, hts, hus⟩ := hreads.exists_of_append
    obtain ⟨u, vs, rfl, -⟩ := h.isStart
    have hle := hts.length_le
    rw [List.length_cons] at hle
    -- Behind a member comes the next one or what ends the sequence.
    obtain ⟨v, behind, hv, hends⟩ : ∃ v behind, Token.next? middle = .ok (v, behind) ∧
        v.EndsForm .difference := by
      cases hus with
      | nil => exact ⟨t, after, hnext, Token.endsForm_difference ht⟩
      | @cons _ behind _ v _ hv => 
        exact ⟨v, behind, hv, Token.endsForm_of_isStart (h'.isStart v rfl)⟩
    exact members_member (ih hts hv hends (by omega)) (ih' hus hnext ht (by omega) k (by omega))
  | @plain ts e _ ih =>
    simp only [Form.depth] at ih hn
    obtain ⟨n, rfl⟩ : ∃ m, n = m + 1 := ⟨n - 1, by omega⟩
    exact readDifference_plain (ih (n := n) hreads hnext ht.1 (by omega)) hnext ht.2
  | @minus ts us e f _ _ ih ih' =>
    simp only [Form.depth] at ih ih' hn
    rw [count_around (by decide)] at hn
    obtain ⟨n, rfl⟩ : ∃ m, n = m + 1 := ⟨n - 1, by omega⟩
    obtain ⟨middle, hts, hmore⟩ := hreads.exists_of_append
    cases hmore with
    | cons hminus _ hus =>
      exact readDifference_minus (ih (n := n) hts hminus rfl (by omega)) hminus
        (ih' (n := n) hus hnext trivial (by omega))
  | @once ts e _ ih =>
    simp only [Form.depth] at ih hn
    obtain ⟨n, rfl⟩ : ∃ m, n = m + 1 := ⟨n - 1, by omega⟩
    exact readQuantified_once (ih (n := n) hreads hnext trivial (by omega)) hnext ht
  | @repeated ts u e op _ hop ih =>
    simp only [Form.depth] at ih hn
    rw [List.count_append] at hn
    obtain ⟨n, rfl⟩ : ∃ m, n = m + 1 := ⟨n - 1, by omega⟩
    obtain ⟨middle, hts, hmore⟩ := hreads.exists_of_append
    cases hmore with
    | cons hu _ hnil =>
      cases hnil
      exact readQuantified_repeated (ih (n := n) hts hu trivial (by omega)) hu hop
  | leaf hleaf =>
    simp only [Form.depth] at hn
    obtain ⟨n, rfl⟩ : ∃ m, n = m + 1 := ⟨n - 1, by omega⟩
    cases hreads with
    | cons hu _ hnil =>
      cases hnil
      exact readPrimary_leaf hu hleaf
  | @group ts es _ ih =>
    simp only [Form.depth] at ih hn
    have hcount : (Token.opening :: ts ++ [Token.closing]).count .opening =
        ts.count .opening + 1 := by simp
    rw [hcount] at hn
    obtain ⟨n, rfl⟩ : ∃ m, n = m + 3 := ⟨n - 3, by omega⟩
    cases hreads with
    | cons hopening _ hbody =>
      obtain ⟨middle, hts, hmore⟩ := hbody.exists_of_append
      cases hmore with
      | cons hclosing _ hnil =>
        cases hnil
        have halternatives := ih (n := n) hts hclosing (.inl rfl) (by omega)
        have halternation := readAlternation_of_alternatives halternatives
        exact readPrimary_group hopening (readGroup_closed (p := within id (n + 1)) halternation hclosing)
  | openGroup htolerant => cases htolerant

end Complete

end FlatGrammar
