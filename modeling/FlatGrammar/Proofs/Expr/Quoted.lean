import FlatGrammar.Proofs.Expr.Writing

/-! # Quoted values

Literals and classes are written between two characters. Those of a tree are those of the tokens it has
been read from, in order. Where such a token is read, nothing in front of it opens another one, and its
value goes on up to the first character that closes it.
-/
namespace FlatGrammar

/-- The pairs of characters that a value may be written between. -/
def Terminal.enclosures : Terminal → List (Char × Char)
  | .literal _ => [('\'', '\''), ('"', '"')]
  | .charClass _ => [('[', ']')]
  | .hexRef _ => []

/-- The character that closes what another one opens. -/
def closing? : Char → Option Char
  | '\'' => some '\''
  | '"' => some '"'
  | '[' => some ']'
  | _ => none

def Token.quoted? : Token → Option Terminal
  | literal text => some (.literal text)
  | charClass spec => some (.charClass spec)
  | _ => none

def Expr.visitQuoted (e : Expr) (values : List (List Terminal)) : List Terminal :=
  match e with
  | terminal (.hexRef _) => []
  | terminal t => [t]
  | _ => values.flatten

/-- The literals and classes of an expression, from left to right. -/
def Expr.quoted (e : Expr) : List Terminal := e.fold visitQuoted

section Trees

namespace Expr

theorem quoted_series (op : Series) (es : List Expr) :
    (series op es).quoted = es.flatMap Expr.quoted := fold_eq_flatMap fun _ => rfl

theorem quoted_diff (l r : Expr) : (diff l r).quoted = l.quoted ++ r.quoted := by
  rw [Expr.quoted, fold_eq_flatMap fun _ => rfl]
  simp [operands, Expr.quoted]

theorem quoted_repeated (op : Repetition) (e : Expr) : (repeated op e).quoted = e.quoted := by
  rw [Expr.quoted, fold_eq_flatMap fun _ => rfl]
  simp [operands, Expr.quoted]

theorem quoted_join (op : Series) (es : List Expr) : (join op es).quoted = es.flatMap Expr.quoted :=
  join_eq_flatMap (quoted_series op es)

theorem quoted_of_leaf? {t : Token} {e : Expr} (h : t.leaf? = some e) : e.quoted = t.quoted?.toList := by
  cases t
  case literal | charClass | hexRef | symbol =>
    obtain rfl := Option.some.inj h
    rfl
  all_goals cases h

end Expr

theorem Token.quoted?_eq_none {t : Token} (h : t.leaf? = none) : t.quoted? = none := by
  cases t
  case literal | charClass => cases h
  all_goals rfl

/-- A phrase has the quoted values of its tokens. -/
theorem Phrase.quoted {tolerant : Bool} {form : Form} {ts : List Token} {es : List Expr}
    (h : Phrase tolerant form ts es) : es.flatMap Expr.quoted = ts.filterMap Token.quoted? :=
  h.flatMap_eq Expr.quoted_series Expr.quoted_diff Expr.quoted_repeated Expr.quoted_of_leaf?
    Token.quoted?_eq_none

/-- A right-hand side is the phrase of tokens that stand at its start. -/
theorem exists_phrase_of_parse? {text : List Char} {e : Expr} (h : Expr.parse? text = .ok e) :
    ∃ ts es rest, Phrase true .alternatives ts es ∧ e = .join .alt es ∧ Reads text ts rest := by
  obtain ⟨rest, hgroup, -⟩ := group_of_parse? h
  obtain ⟨ts, es, hphrase, rfl, hreads | hreads⟩ := (sound_within _).group hgroup
  · exact ⟨ts, es, rest, hphrase, rfl, hreads⟩
  · obtain ⟨rest, hreads, -⟩ := hreads.exists_of_append
    exact ⟨ts, es, rest, hphrase, rfl, hreads⟩

theorem exists_reads_of_parse? {text : List Char} {e : Expr} (h : Expr.parse? text = .ok e) :
    ∃ ts rest, Reads text ts rest ∧ e.quoted = ts.filterMap Token.quoted? := by
  obtain ⟨ts, es, rest, hphrase, rfl, hreads⟩ := exists_phrase_of_parse? h
  exact ⟨ts, rest, hreads, by rw [Expr.quoted_join, hphrase.quoted]⟩

end Trees

section Tokens
variable {text cs after inner rest : List Char} {c a b : Char} {t : Token}

theorem closing?_eq_some_iff : closing? a = some b ↔
    (a, b) = ('\'', '\'') ∨ (a, b) = ('"', '"') ∨ (a, b) = ('[', ']') := by
  unfold closing?
  split <;> simp_all [eq_comm]

theorem closing?_of_mem_enclosures {v : Terminal} (h : (a, b) ∈ v.enclosures) :
    closing? a = some b := by
  rw [closing?_eq_some_iff]
  cases v with
  | literal =>
    have hquote : (a, b) = ('\'', '\'') ∨ (a, b) = ('"', '"') := by
      simpa [Terminal.enclosures] using h
    exact hquote.imp_right .inl
  | charClass => exact .inr (.inr (List.mem_singleton.mp h))
  | hexRef => cases h

/-- Characters of one kind open nothing if quotes and the bracket are not of this kind. -/
theorem closing?_eq_none {p : Char → Bool} (hsingle : p '\'' = false) (hdouble : p '"' = false)
    (hbracket : p '[' = false) (hc : p c) : closing? c = none := by
  cases h : closing? c with
  | none => rfl
  | some b =>
    have hother : p c = false := by
      rcases closing?_eq_some_iff.mp h with heq | heq | heq
      all_goals
        obtain ⟨rfl, -⟩ := Prod.mk.inj heq
        assumption
    rw [hother] at hc
    cases hc

/-- What a reader passes over in front of what it leaves: characters that open nothing, and at their end
a quoted value if the token is one. -/
def ReadsOver (t : Token) (text after : List Char) : Prop :=
  ∃ front, (∀ c ∈ front, closing? c = none) ∧
    match t.quoted? with
    | none => text = front ++ after
    | some v => ∃ a b, (a, b) ∈ v.enclosures ∧ b ∉ v.text.toList ∧
        text = front ++ a :: (v.text.toList ++ b :: after)

theorem ReadsOver.prepend (bs : List Char) (hbs : ∀ c ∈ bs, closing? c = none)
    (h : ReadsOver t text after) : ReadsOver t (bs ++ text) after := by
  obtain ⟨front, hfront, h⟩ := h
  refine ⟨bs ++ front, List.forall_mem_append.mpr ⟨hbs, hfront⟩, ?_⟩
  split at h
  case h_1 => rw [h, List.append_assoc]
  case h_2 =>
    obtain ⟨a, b, hab, hb, rfl⟩ := h
    exact ⟨a, b, hab, hb, (List.append_assoc ..).symm⟩

theorem readsOver_front (ht : t.quoted? = none) (front : List Char)
    (hfront : ∀ c ∈ front, closing? c = none) : ReadsOver t (front ++ after) after := by
  refine ⟨front, hfront, ?_⟩
  rw [ht]

theorem closing?_of_isWord (h : Text.isWord c) : closing? c = none :=
  closing?_eq_none (by decide) (by decide) (by decide) h

theorem closing?_of_isBlank (h : Text.isBlank c) : closing? c = none :=
  closing?_eq_none rfl rfl rfl h

theorem readsOver_readFrom (h : t.ReadFrom text after) : ReadsOver t text after := by
  cases h with
  | @literal quote inner _ hquote hinner =>
    refine ⟨[], List.forall_mem_nil _, quote, quote, ?_, ?_, ?_⟩
    · rcases hquote with rfl | rfl
      all_goals simp [Terminal.enclosures]
    · simpa [Terminal.text] using hinner
    · simp [Terminal.text]
  | charClass hinner =>
    refine ⟨[], List.forall_mem_nil _, '[', ']', ?_, ?_, ?_⟩
    · simp [Terminal.enclosures]
    · simpa [Terminal.text] using hinner
    · simp [Terminal.text]
  | @hexRef digits _ hall =>
    refine readsOver_front rfl ('#' :: 'x' :: digits) ?_
    simp only [List.forall_mem_cons]
    exact ⟨rfl, rfl, fun c hc => closing?_of_isWord (isWord_of_isHexDigit (hall c hc))⟩
  | @symbol c cs _ hc hall =>
    refine readsOver_front rfl (c :: cs) (List.forall_mem_cons.mpr ⟨?_, ?_⟩)
    · rcases hc with hletter | rfl
      · exact closing?_of_isWord (isWord_of_isLetter hletter)
      · rfl
    · exact fun c hc => closing?_of_isWord (hall c hc)
  | @atRef mark word _ hmark hall =>
    rw [← List.append_assoc]
    refine readsOver_front rfl ('@' :: (mark ++ word)) ?_
    simp only [List.forall_mem_cons, List.forall_mem_append]
    refine ⟨rfl, ?_, fun c hc => closing?_of_isWord (hall c hc)⟩
    rcases hmark with rfl | rfl
    · exact List.forall_mem_nil _
    · exact List.forall_mem_singleton.mpr rfl
  | @operator c _ _ hop =>
    unfold Token.operator? at hop
    split at hop
    case h_8 => cases hop
    all_goals
      obtain rfl := Option.some.inj hop
      exact readsOver_front rfl [_] (List.forall_mem_singleton.mpr rfl)

theorem readsOver_next? (h : Token.next? text = .ok (t, after)) : ReadsOver t text after := by
  have hsplit : text.takeWhile Text.isBlank ++ Text.trimStart text = text :=
    List.takeWhile_append_dropWhile
  have hblank : ∀ c ∈ text.takeWhile Text.isBlank, closing? c = none := fun c hc =>
    closing?_of_isBlank (List.mem_takeWhile_imp hc)
  rw [← hsplit]
  refine ReadsOver.prepend _ hblank ?_
  unfold Token.next? at h
  split at h
  case h_1 htrim =>
    obtain ⟨rfl, rfl⟩ := Prod.mk.inj (Except.ok.inj h)
    rw [htrim]
    exact readsOver_front rfl [] (List.forall_mem_nil _)
  case h_2 c cs htrim =>
    rw [htrim]
    exact readsOver_readFrom (Token.readFrom_read h)

end Tokens

end FlatGrammar
