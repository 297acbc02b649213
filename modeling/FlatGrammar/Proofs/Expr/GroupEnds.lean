import FlatGrammar.Proofs.Expr.Reading

/-! # Where groups end

A group may end before its own closing parenthesis, at any token that cannot go on with it, and one
closing parenthesis may be left over at the end. Where parentheses are balanced the one comes with the
other: a right-hand side is a phrase of the strict grammar if and only if nothing is left over.
-/
namespace FlatGrammar
open Productions

variable {text rest : List Char} {ts : List Token} {e : Expr} {es : List Expr}

/-- The outermost alternation leaves nothing behind, so no closing parenthesis is discarded. -/
def Expr.ReadsWhole (text : List Char) (e : Expr) : Prop :=
  ∃ rest, Expr.read .alternation text = .ok (some e, rest) ∧ rest.all Text.isBlank

theorem alternation_of_phrase (h : Phrase false .alternatives ts es) (hreads : Reads text ts rest)
    (hend : rest.all Text.isBlank) {n : Nat} (hn : 5 + 6 * ts.count .opening ≤ n) :
    (within id n : Productions (Except Misreading)).alternation text = .ok (.join .alt es, rest) := by
  obtain ⟨n, rfl⟩ : ∃ m, n = m + 1 := ⟨n - 1, by omega⟩
  have hfinish := Token.next?_finish_iff.mpr ⟨hend, rfl⟩
  have hdepth : Form.alternatives.depth + 6 * ts.count .opening ≤ n := by
    simp only [Form.depth]
    omega
  exact readAlternation_of_alternatives (h.readsAs hreads hfinish (.inr rfl) hdepth)

theorem callDepth_of_reads (hreads : Reads text ts rest) :
    6 + 6 * ts.count .opening ≤ callDepth text := by
  have hcount := List.count_le_length (a := Token.opening) (l := ts)
  have hlength := hreads.length_le
  rw [callDepth]
  omega

theorem readsWhole_of_phrase (h : Phrase false .alternatives ts es) (hreads : Reads text ts rest)
    (hend : rest.all Text.isBlank) : Expr.ReadsWhole text (.join .alt es) := by
  have hdepth := callDepth_of_reads hreads
  have halternation := alternation_of_phrase h hreads hend (n := callDepth text) (by omega)
  exact ⟨rest, by rw [Expr.read, Expr.reading, halternation]; rfl, hend⟩

/-- A run of tokens that is a phrase of the strict grammar is parsed to its tree. -/
theorem parse?_of_phrase (h : Phrase false .alternatives ts es) (hreads : Reads text ts rest)
    (hend : rest.all Text.isBlank) : Expr.parse? text = .ok (.join .alt es) := by
  have hdepth := callDepth_of_reads hreads
  obtain ⟨n, hn⟩ : ∃ n, callDepth text = n + 1 := ⟨callDepth text - 1, by omega⟩
  have halternation := alternation_of_phrase h hreads hend (n := n) (by omega)
  have hfinish := Token.next?_finish_iff.mpr ⟨hend, rfl⟩
  have hgroup : (Expr.reading text).group text = .ok (.join .alt es, rest) := by
    rw [Expr.reading, hn]
    refine bind_eq_ok.mpr ⟨(.join .alt es, rest), halternation, bind_eq_ok.mpr ⟨(.finish, []), ?_, rfl⟩⟩
    rw [token_eq, hfinish]
  rw [Expr.parse?, hgroup]
  simp [Expr.whole, hend]

theorem alternation_of_read (h : Expr.read .alternation text = .ok (some e, rest)) :
    (Expr.reading text).alternation text = .ok (e, rest) := by
  unfold Expr.read at h
  cases hread : (Expr.reading text).alternation text with
  | error m => simp [hread, Except.map] at h
  | ok read =>
    obtain ⟨e', rest'⟩ := read
    simp only [hread, Except.map, Except.ok.injEq, Prod.mk.injEq, Option.some.injEq] at h
    obtain ⟨rfl, rfl⟩ := h
    rfl

theorem group_of_parse? (h : Expr.parse? text = .ok e) :
    ∃ rest, (Expr.reading text).group text = .ok (e, rest) ∧ rest.all Text.isBlank := by
  unfold Expr.parse? at h
  cases hread : (Expr.reading text).group text with
  | error m => simp [hread, Expr.whole] at h
  | ok read =>
    obtain ⟨e', rest⟩ := read
    rw [hread] at h
    unfold Expr.whole at h
    simp only at h
    split at h
    case isTrue hend =>
      obtain rfl := Except.ok.inj h
      exact ⟨rest, rfl, hend⟩
    case isFalse => cases h

/-- Nothing is open in a balanced text that is read as a whole. -/
theorem phrase_of_readsWhole (hreads : Reads text ts rest) (hend : rest.all Text.isBlank)
    (hbalanced : Balanced ts) (h : Expr.ReadsWhole text e) :
    ∃ es, Phrase false .alternatives ts es ∧ e = .join .alt es := by
  obtain ⟨rest', hread, hend'⟩ := h
  obtain ⟨ts', es, hphrase, rfl, hreads'⟩ :=
    (sound_within _).alternation (alternation_of_read hread)
  obtain ⟨rfl, -⟩ := hreads.unique hreads' hend hend'
  exact ⟨es, hphrase.count_le.2 hbalanced.2, rfl⟩

/-- A balanced right-hand side that is parsed has that tree by the strict grammar if and only if it is
read as a whole. Otherwise one group ended early, and the parenthesis at the end was discarded. -/
theorem parse?_phrase_iff (htokens : (tokens text).obstacle = none)
    (hts : (tokens text).tokens = ts ++ [.finish]) (hbalanced : Balanced ts)
    (hparse : Expr.parse? text = .ok e) :
    ((∃ es, Phrase false .alternatives ts es ∧ e = .join .alt es) ↔ Expr.ReadsWhole text e) ∧
      (¬Expr.ReadsWhole text e → ∃ us es, ts = us ++ [.closing] ∧
        us.count .opening = us.count .closing + 1 ∧ Phrase true .alternatives us es ∧
        e = .join .alt es) := by
  obtain ⟨last, hreads, hend⟩ := reads_of_tokensWithin htokens hts
  have hiff : (∃ es, Phrase false .alternatives ts es ∧ e = .join .alt es) ↔
      Expr.ReadsWhole text e := by
    constructor
    · rintro ⟨es, hphrase, rfl⟩
      exact readsWhole_of_phrase hphrase hreads hend
    · exact phrase_of_readsWhole hreads hend hbalanced
  refine ⟨hiff, ?_⟩
  intro hwhole
  obtain ⟨rest, hgroup, hrest⟩ := group_of_parse? hparse
  obtain ⟨us, es, hphrase, rfl, hus | hus⟩ := (sound_within _).group hgroup
  · obtain ⟨rfl, -⟩ := hreads.unique hus hend hrest
    exact absurd (hiff.mp ⟨es, hphrase.count_le.2 hbalanced.2, rfl⟩) hwhole
  · obtain ⟨rfl, -⟩ := hreads.unique hus hend hrest
    refine ⟨us, es, rfl, ?_, hphrase, rfl⟩
    have hcount := hbalanced.2
    simpa [List.count_append] using hcount.symm

theorem parse?_grouped_phrase :
    let text := "(a - 'b')* | c d?".toList
    let ts : List Token := [.opening, .symbol "a", .minus, .literal "b", .closing, .star, .bar,
      .symbol "c", .symbol "d", .question]
    let e : Expr := .alt [.star (.diff (.ref "a") (.literal "b")), .seq [.ref "c", .opt (.ref "d")]]
    (tokens text).obstacle = none ∧ (tokens text).tokens = ts ++ [.finish] ∧ Balanced ts ∧
      Expr.parse? text = .ok e ∧ ∃ es, Phrase false .alternatives ts es ∧ e = .join .alt es := by
  intro text ts e
  have htokens : (tokens text).obstacle = none := by decide +kernel
  have hts : (tokens text).tokens = ts ++ [.finish] := by decide +kernel
  have hbalanced : Balanced ts := by decide
  have hparse : Expr.parse? text = .ok e := by decide +kernel
  have hread : Expr.read .alternation text = .ok (some e, []) := by decide +kernel
  have hwhole : Expr.ReadsWhole text e := ⟨[], hread, rfl⟩
  exact ⟨htokens, hts, hbalanced, hparse,
    (parse?_phrase_iff htokens hts hbalanced hparse).1.mpr hwhole⟩

/-- The first star ends the group, the second goes with it, and the parenthesis is discarded. -/
theorem parse?_starred_twice :
    let text := "(a**)".toList
    let ts : List Token := [.opening, .symbol "a", .star, .star, .closing]
    let e : Expr := .star (.star (.ref "a"))
    (tokens text).obstacle = none ∧ (tokens text).tokens = ts ++ [.finish] ∧ Balanced ts ∧
      Expr.parse? text = .ok e ∧ ¬∃ es, Phrase false .alternatives ts es ∧ e = .join .alt es := by
  intro text ts e
  have htokens : (tokens text).obstacle = none := by decide
  have hts : (tokens text).tokens = ts ++ [.finish] := by decide
  refine ⟨htokens, hts, by decide, by decide, ?_⟩
  rintro ⟨es, hphrase, -⟩
  obtain ⟨last, hreads, hend⟩ := reads_of_tokensWithin htokens hts
  obtain ⟨rest, hread, hblank⟩ := readsWhole_of_phrase hphrase hreads hend
  have hread' : Expr.read .alternation text = .ok (some e, [')']) := by decide
  rw [hread'] at hread
  obtain ⟨-, rfl⟩ := Prod.mk.inj (Except.ok.inj hread)
  exact absurd hblank (by decide)

end FlatGrammar
