import FlatGrammar.Proofs.Expr.Quoted
import FlatGrammar.Proofs.Grammar.Loading
import FlatGrammar.Proofs.Source.Passages
import FlatGrammar.Proofs.Text.Trimming

/-! # Quoted text in rules

The text of a span is read by tokens, while the text it has been cut from is made of lexemes. Both are
runs over the same marks: a mark is a character of the span and the text it stands for, itself or a whole
comment. The literals and classes of a rule stand in the marks of its passage one behind the other. A
comment is among the marks of one of them only if a quote or a bracket of the passage is left open on its
line, so that tokens and lexemes part.
-/
namespace FlatGrammar

/-- A character of a span, and the text that it stands for. -/
structure Mark where
  char : Char
  origin : List Char
  deriving DecidableEq, Repr

namespace Mark

def own (c : Char) : Mark := ⟨c, [c]⟩

/-- The character stands for itself, and not for a comment. -/
def isOwn (m : Mark) : Bool := m.origin == [m.char]

end Mark

def Lexeme.marks (l : Lexeme) : List Mark :=
  if l.kind = .comment then [⟨' ', l.text⟩] else l.text.map Mark.own

def Passage.marks (p : Passage) : List Mark := p.lexemes.flatMap Lexeme.marks

/-- A quote or a bracket that nothing closes on its line. -/
def Lexeme.isOpen (l : Lexeme) : Bool := l.kind == .text && l.text.head?.any fun c => (closing? c).isSome

/-- Every quote and every bracket is closed on its line. -/
def Passage.isClosed (p : Passage) : Bool := p.body.all (!·.isOpen)

/-- Values that stand in marks one behind the other, each between two characters that enclose it. A value
is what its marks stand for if none of them stands for a comment, which none does if `clean` holds. -/
inductive Enclosed (clean : Prop) : List Terminal → List Mark → Prop
  | nil (ms : List Mark) : Enclosed clean [] ms
  | cons {v : Terminal} {vs : List Terminal} {a b : Char} {before inside after : List Mark}
      (hab : (a, b) ∈ v.enclosures) (hv : v.text.toList = inside.map Mark.char)
      (hown : v.text.toList = inside.flatMap Mark.origin ↔ ∀ m ∈ inside, m.isOwn)
      (hclean : clean → ∀ m ∈ inside, m.isOwn) (h : Enclosed clean vs after) :
      Enclosed clean (v :: vs) (before ++ .own a :: (inside ++ .own b :: after))

/-- Marks in which whatever is opened is closed, with no comment inside. -/
inductive Tidy : List Mark → Prop
  | nil : Tidy []
  | mark {m : Mark} {ms : List Mark} (hm : closing? m.char = none) (h : Tidy ms) : Tidy (m :: ms)
  | quoted {a b : Char} {inner : List Char} {ms : List Mark} (hab : closing? a = some b)
      (hb : b ∉ inner) (h : Tidy ms) : Tidy (.own a :: (inner.map Mark.own ++ .own b :: ms))

/-- A mark stands for its character or for a longer text in place of a space. -/
def Mark.IsSound (m : Mark) : Prop := m.isOwn ∨ m.char = ' ' ∧ 1 < m.origin.length

section Marks
variable {m : Mark} {ms : List Mark} {l : Lexeme} {c : Char} {cs rest : List Char}

theorem map_char_marks (l : Lexeme) : l.marks.map Mark.char = l.spanText := by
  unfold Lexeme.marks Lexeme.spanText
  split
  case isTrue => rfl
  case isFalse => exact (List.map_map).trans (List.map_id _)

theorem flatMap_origin_marks (l : Lexeme) : l.marks.flatMap Mark.origin = l.text := by
  unfold Lexeme.marks
  split
  case isTrue => exact List.flatMap_singleton _ _
  case isFalse => exact (List.flatMap_map ..).trans (List.flatMap_singleton' _)

theorem map_char_flatMap_marks (ls : List Lexeme) :
    (ls.flatMap Lexeme.marks).map Mark.char = ls.flatMap Lexeme.spanText := by
  rw [List.map_flatMap]
  exact List.flatMap_congr fun l _ => map_char_marks l

theorem flatMap_origin_flatMap_marks (ls : List Lexeme) :
    (ls.flatMap Lexeme.marks).flatMap Mark.origin = ls.flatMap Lexeme.text := by
  rw [List.flatMap_assoc]
  exact List.flatMap_congr fun l _ => flatMap_origin_marks l

theorem Mark.eq_own (h : m.IsSound) (hc : m.char ≠ ' ') : m = .own m.char := by
  obtain hown | ⟨hspace, -⟩ := h
  · exact congrArg (Mark.mk m.char) (eq_of_beq hown)
  · exact absurd hspace hc

theorem length_le_flatMap_origin (h : ∀ m ∈ ms, m.IsSound) :
    ms.length ≤ (ms.flatMap Mark.origin).length := by
  induction ms with
  | nil => exact Nat.le_refl _
  | cons m ms ih =>
    obtain ⟨hm, hms⟩ := List.forall_mem_cons.mp h
    have hle := ih hms
    have hone : 1 ≤ m.origin.length := by
      obtain hown | ⟨-, hlt⟩ := hm
      · rw [eq_of_beq hown]
        exact Nat.le_refl 1
      · exact Nat.le_of_lt hlt
    rw [List.flatMap_cons, List.length_append, List.length_cons]
    omega

/-- Characters are what they stand for if and only if none of them stands for a comment. -/
theorem map_char_eq_flatMap_origin_iff (h : ∀ m ∈ ms, m.IsSound) :
    ms.map Mark.char = ms.flatMap Mark.origin ↔ ∀ m ∈ ms, m.isOwn := by
  induction ms with
  | nil => exact iff_of_true rfl (List.forall_mem_nil _)
  | cons m ms ih =>
    obtain ⟨hm, hms⟩ := List.forall_mem_cons.mp h
    rw [List.map_cons, List.flatMap_cons, List.forall_mem_cons, ← ih hms]
    obtain hown | ⟨-, hlt⟩ := hm
    · rw [eq_of_beq hown, List.singleton_append, List.cons_inj_right, and_iff_right hown]
    · have hle := length_le_flatMap_origin hms
      refine iff_of_false (fun heq => ?_) fun hown => ?_
      · have hlength := congrArg List.length heq
        rw [List.length_append, List.length_cons, List.length_map] at hlength
        omega
      · rw [eq_of_beq hown.1] at hlt
        exact absurd hlt (Nat.lt_irrefl 1)

theorem CutOff.isSound_marks (h : CutOff l rest) : ∀ m ∈ l.marks, m.IsSound := by
  intro m hm
  unfold Lexeme.marks at hm
  split at hm
  case isTrue hkind =>
    obtain rfl := List.mem_singleton.mp hm
    cases h with
    | comment => exact .inr ⟨rfl, Nat.succ_lt_succ (Nat.succ_pos _)⟩
    | _ => cases hkind
  case isFalse =>
    obtain ⟨c, -, rfl⟩ := List.mem_map.mp hm
    exact .inl (beq_self_eq_true _)

end Marks

section Tidiness
variable {ms ns : List Mark} {l : Lexeme} {rest : List Char}

theorem append_cons_inj {α : Type} {x : α} {xs xs' ys ys' : List α} (hx : x ∉ xs) (hx' : x ∉ xs')
    (h : xs ++ x :: ys = xs' ++ x :: ys') : xs = xs' ∧ ys = ys' := by
  induction xs generalizing xs' with
  | nil =>
    cases xs' with
    | nil => exact ⟨rfl, (List.cons.inj h).2⟩
    | cons z zs =>
      obtain ⟨rfl, -⟩ := List.cons.inj h
      exact absurd List.mem_cons_self hx'
  | cons y xs ih =>
    cases xs' with
    | nil =>
      obtain ⟨rfl, -⟩ := List.cons.inj h
      exact absurd List.mem_cons_self hx
    | cons z zs =>
      obtain ⟨rfl, htail⟩ := List.cons.inj h
      obtain ⟨rfl, hys⟩ := ih (mt (List.mem_cons_of_mem y) hx) (mt (List.mem_cons_of_mem y) hx') htail
      exact ⟨rfl, hys⟩

theorem Tidy.prepend (hns : ∀ m ∈ ns, closing? m.char = none) (h : Tidy ms) : Tidy (ns ++ ms) := by
  induction ns with
  | nil => exact h
  | cons n ns ih =>
    obtain ⟨hn, hns⟩ := List.forall_mem_cons.mp hns
    exact .mark hn (ih hns)

theorem Tidy.prepend_own {cs : List Char} (hcs : ∀ c ∈ cs, closing? c = none) (h : Tidy ms) :
    Tidy (cs.map Mark.own ++ ms) := by
  refine h.prepend fun m hm => ?_
  obtain ⟨c, hc, rfl⟩ := List.mem_map.mp hm
  exact hcs c hc

theorem Tidy.of_append (hns : ∀ m ∈ ns, closing? m.char = none) (h : Tidy (ns ++ ms)) : Tidy ms := by
  induction ns with
  | nil => exact h
  | cons n ns ih =>
    obtain ⟨hn, hns⟩ := List.forall_mem_cons.mp hns
    rw [List.cons_append] at h
    generalize hmarks : n :: (ns ++ ms) = marks at h
    cases h with
    | nil => cases hmarks
    | mark _ h =>
      obtain ⟨rfl, rfl⟩ := List.cons.inj hmarks
      exact ih hns h
    | quoted hab =>
      obtain ⟨rfl, -⟩ := List.cons.inj hmarks
      have hnone := hab.symm.trans hn
      cases hnone

/-- What has been opened goes on up to the first character that closes it. -/
theorem Tidy.exists_quoted {a b : Char} {inside : List Mark} (hab : closing? a = some b)
    (hinside : b ∉ inside.map Mark.char) (h : Tidy (.own a :: (inside ++ .own b :: ms))) :
    (∀ m ∈ inside, m.isOwn) ∧ Tidy ms := by
  generalize hmarks : Mark.own a :: (inside ++ .own b :: ms) = marks at h
  cases h with
  | nil => cases hmarks
  | mark hm =>
    obtain ⟨rfl, -⟩ := List.cons.inj hmarks
    have hnone := hab.symm.trans hm
    cases hnone
  | @quoted a' b' inner ns hab' hb h =>
    obtain ⟨ha, hbody⟩ := List.cons.inj hmarks
    obtain ⟨rfl, -⟩ := Mark.mk.inj ha
    obtain rfl := Option.some.inj (hab.symm.trans hab')
    have hfirst : Mark.own b ∉ inside := fun hmem => hinside (List.mem_map.mpr ⟨_, hmem, rfl⟩)
    have hfirst' : Mark.own b ∉ inner.map Mark.own := by
      intro hmem
      obtain ⟨c, hc, heq⟩ := List.mem_map.mp hmem
      obtain ⟨rfl, -⟩ := Mark.mk.inj heq
      exact hb hc
    obtain ⟨rfl, rfl⟩ := append_cons_inj hfirst hfirst' hbody
    refine ⟨fun m hm => ?_, h⟩
    obtain ⟨c, -, rfl⟩ := List.mem_map.mp hm
    exact beq_self_eq_true _

theorem isPlain_closing? {c : Char} (h : isPlain c) : closing? c = none :=
  closing?_eq_none rfl rfl rfl h

theorem CutOff.tidy (h : CutOff l rest) (hstarts : l.starts = false) (hopen : l.isOpen = false)
    (hms : Tidy ms) : Tidy (l.marks ++ ms) := by
  cases h with
  | blank _ hall => exact hms.prepend_own fun c hc => closing?_of_isBlank (hall c hc)
  | plain _ hall => exact hms.prepend_own fun c hc => isPlain_closing? (hall c hc)
  | comment => exact .mark rfl hms
  | slash | atSign => exact .mark rfl hms
  | charClass hclosing =>
    have hquoted : Tidy (.own '[' :: (_ ++ .own ']' :: ms)) := .quoted rfl hclosing hms
    simpa [Lexeme.marks] using hquoted
  | @literal quote _ _ hquote hinner =>
    have hclosing : closing? quote = some quote := by
      rcases hquote with rfl | rfl
      all_goals rfl
    simpa [Lexeme.marks] using Tidy.quoted hclosing hinner hms
  | bracket => cases hopen
  | quote hquote =>
    rcases hquote with rfl | rfl
    all_goals cases hopen
  | openComment | terminals | pass | header => cases hstarts

end Tidiness

section Runs
variable {clean : Prop} {text rest tail : List Char} {ts : List Token} {vs : List Terminal}
  {ms : List Mark} {a b : Char}

theorem Enclosed.prepend (ns : List Mark) (h : Enclosed clean vs ms) : Enclosed clean vs (ns ++ ms) := by
  cases h with
  | nil => exact .nil _
  | cons hab hv hown hclean h =>
    rw [← List.append_assoc]
    exact .cons hab hv hown hclean h

theorem ne_space_of_enclosure {v : Terminal} (h : (a, b) ∈ v.enclosures) : a ≠ ' ' ∧ b ≠ ' ' := by
  rcases closing?_eq_some_iff.mp (closing?_of_mem_enclosures h) with heq | heq | heq
  all_goals
    obtain ⟨rfl, rfl⟩ := Prod.mk.inj heq
    decide

/-- The quoted values of a run of tokens stand in the marks that it reads. -/
theorem enclosed_of_reads (h : Reads text ts rest) (hms : ms.map Mark.char = text ++ tail)
    (hsound : ∀ m ∈ ms, m.IsSound) (hclean : clean → Tidy ms) :
    Enclosed clean (ts.filterMap Token.quoted?) ms := by
  induction h generalizing ms with
  | nil => exact .nil ms
  | @cons text after rest t ts hnext _ _ ih =>
    obtain ⟨front, hfront, hover⟩ := readsOver_next? hnext
    have hfront' {ns : List Mark} (hns : ns.map Mark.char = front) :
        ∀ m ∈ ns, closing? m.char = none := fun m hm =>
      hfront m.char (hns ▸ List.mem_map.mpr ⟨m, hm, rfl⟩)
    rw [List.filterMap_cons]
    cases hquoted : t.quoted? with
    | none =>
      rw [hquoted] at hover
      rw [hover, List.append_assoc] at hms
      obtain ⟨ns, ms, rfl, hns, hms⟩ := List.map_eq_append_iff.mp hms
      have hsound' := (List.forall_mem_append.mp hsound).2
      exact (ih hms hsound' fun h => (hclean h).of_append (hfront' hns)).prepend ns
    | some v =>
      rw [hquoted] at hover
      obtain ⟨a, b, hab, hb, hover⟩ := hover
      rw [hover, List.append_assoc, List.cons_append, List.append_assoc, List.cons_append] at hms
      obtain ⟨ns, ms, rfl, hns, hopened⟩ := List.map_eq_append_iff.mp hms
      obtain ⟨m, ms, rfl, ha, hvalue⟩ := List.map_eq_cons_iff.mp hopened
      obtain ⟨inside, ms, rfl, hinside, hclosed⟩ := List.map_eq_append_iff.mp hvalue
      obtain ⟨m', ms, rfl, hb', hbehind⟩ := List.map_eq_cons_iff.mp hclosed
      simp only [List.forall_mem_append, List.forall_mem_cons] at hsound
      obtain ⟨-, hm, hsoundInside, hm', hsoundBehind⟩ := hsound
      obtain ⟨hspace, hspace'⟩ := ne_space_of_enclosure hab
      obtain rfl : m = .own a := ha ▸ Mark.eq_own hm (ha ▸ hspace)
      obtain rfl : m' = .own b := hb' ▸ Mark.eq_own hm' (hb' ▸ hspace')
      rw [← hinside] at hb
      have htidy (h : clean) := ((hclean h).of_append (hfront' hns)).exists_quoted
        (closing?_of_mem_enclosures hab) hb
      refine .cons hab hinside.symm ?_ (fun h => (htidy h).1) (ih hbehind hsoundBehind fun h => (htidy h).2)
      rw [← hinside]
      exact map_char_eq_flatMap_origin_iff hsoundInside

/-- Where no mark stands for a comment, a value is found between its enclosing characters. -/
theorem Enclosed.exists_infix (h : Enclosed clean vs ms) (hclean : clean) : ∀ v ∈ vs,
    ∃ a b, (a, b) ∈ v.enclosures ∧ a :: (v.text.toList ++ [b]) <:+: ms.flatMap Mark.origin := by
  induction h with
  | nil => exact List.forall_mem_nil _
  | @cons v vs a b before inside after hab _ hown hinside _ ih =>
    have hmarks : (before ++ Mark.own a :: (inside ++ Mark.own b :: after)).flatMap Mark.origin =
        before.flatMap Mark.origin ++ a :: (v.text.toList ++ [b]) ++ after.flatMap Mark.origin := by
      rw [hown.mpr (hinside hclean)]
      simp [List.flatMap_append, List.flatMap_cons, Mark.own]
    rw [hmarks]
    refine List.forall_mem_cons.mpr ⟨⟨a, b, hab, _, _, rfl⟩, fun w hw => ?_⟩
    obtain ⟨c, d, hcd, hinfix⟩ := ih w hw
    exact ⟨c, d, hcd, hinfix.trans (List.suffix_append _ _).isInfix⟩

end Runs

section Load
variable {file : Option String} {text : String} {g : Grammar} {r : Rule} {p : Passage} {q : Progress}

/-- A rule has been read from a passage that starts with an id or with the directive for it. -/
theorem exists_passage_of_load (h : Grammar.load text file = .ok g) (hr : r ∈ g.rules) :
    ∃ q, ∃ p ∈ passages text.toList, p.start.kind ∈ [.header, .pass] ∧
      (p.span text.toList).rule file q = .ok r := by
  obtain ⟨rules, hrules, -, rfl⟩ := load_eq_ok_iff.mp h
  have hclosed : ∀ l ∈ lexemes text.toList, l.kind ≠ .openComment := by
    intro l hl hkind
    obtain ⟨line, cs, hmem⟩ := exists_openComment_mem_itemsFrom hl hkind false 1
    exact openComment_notMem_of_rulesFrom hrules line cs hmem
  obtain ⟨q, s, hs, hterminals, hrule⟩ := exists_span_of_mem_rulesFrom hrules hr
  have hspan : s ∈ (items text.toList).filterMap Item.span? := List.mem_filterMap.mpr ⟨_, hs, rfl⟩
  rw [(filterMap_items hclosed).1] at hspan
  obtain ⟨p, hp, rfl⟩ := List.mem_map.mp hspan
  refine ⟨q, p, hp, ?_, hrule⟩
  have hkind := kind_start_of_mem_passages hclosed hp
  have hmem := mem_lexemes_of_passage hp _ List.mem_cons_self
  obtain ⟨rest, hcut⟩ := (scanned_lexemes _).exists_cutOff hmem
  have hne : p.start.kind ≠ .terminals := by
    intro hstart
    have htext : (p.span text.toList).text = p.start.text := if_pos (beq_iff_eq.mpr hstart)
    rw [Span.isTerminals, htext, hcut.text_of_terminals hstart] at hterminals
    cases hterminals
  simp only [List.mem_cons, List.not_mem_nil, or_false] at hkind ⊢
  tauto

theorem declaration_header {s : Span} {d : Declaration} {id rest : List Char} (hne : id ≠ [])
    (hall : ∀ c ∈ id, isIdChar c) (hs : s.text = '[' :: (id ++ ']' :: rest))
    (hd : s.declaration file q = .ok d) :
    ∃ front, rest = front ++ d.rhs ∧ ∀ c ∈ front, closing? c = none := by
  rcases declaration_eq_ok_iff.mp hd with ⟨hpass, -, -⟩ | ⟨-, x, hsplit, rfl⟩
  · rw [Span.isPass, hs] at hpass
    cases hpass
  unfold Definition.split? at hsplit
  rw [hs, readId?_run hall hne] at hsplit
  simp only at hsplit
  split at hsplit
  case h_1 => cases hsplit
  case h_2 symbol rhs hsymbol =>
    obtain rfl := Option.some.inj hsplit
    obtain ⟨bs, ds, hbs, -, hword, hds, rfl⟩ := readSymbol?_eq_some_iff.mp hsymbol
    refine ⟨bs ++ (symbol ++ (ds ++ [':', ':', '='])), by simp, ?_⟩
    simp only [List.forall_mem_append]
    exact ⟨fun c hc => closing?_of_isBlank (hbs c hc),
      fun c hc => closing?_of_isWord (hword c hc), fun c hc => closing?_of_isBlank (hds c hc),
      by simp [closing?]⟩

theorem declaration_pass {s : Span} {d : Declaration} {rest : List Char}
    (hs : s.text = Lexeme.passName ++ rest) (hd : s.declaration file q = .ok d) :
    ∃ front, rest = front ++ d.rhs ∧ ∀ c ∈ front, closing? c = none := by
  have hpass : s.isPass := by
    rw [Span.isPass, hs]
    exact List.isPrefixOf_iff_prefix.mpr (List.prefix_append _ _)
  have hblank : ∀ c ∈ rest.takeWhile Text.isBlank, closing? c = none := fun c hc =>
    closing?_of_isBlank (List.mem_takeWhile_imp hc)
  have hrest : rest.takeWhile Text.isBlank ++ Text.trimStart rest = rest :=
    List.takeWhile_append_dropWhile
  rcases declaration_eq_ok_iff.mp hd with ⟨-, -, rfl⟩ | ⟨hother, -⟩
  · simp only [Span.passExpression, hs, List.drop_left]
    split
    case h_1 rhs htrim =>
      refine ⟨rest.takeWhile Text.isBlank ++ [':', ':', '='], ?_, ?_⟩
      · rw [List.append_assoc]
        exact (htrim ▸ hrest).symm
      · exact List.forall_mem_append.mpr ⟨hblank, by simp [closing?]⟩
    case h_2 => exact ⟨rest.takeWhile Text.isBlank, hrest.symm, hblank⟩
  · rw [hpass] at hother
    cases hother

theorem spanText_of_start {rest : List Char} (hcut : CutOff p.start rest)
    (hkind : p.start.kind ∈ [.header, .pass]) :
    p.spanText = p.start.text ++ Text.trimEnd (p.body.flatMap Lexeme.spanText) := by
  have hinked : EndsInked p.start.text := by
    generalize p.start = start at hcut hkind
    cases hcut with
    | @header id => exact ⟨'[' :: id, ']', rfl, by decide⟩
    | pass => exact ⟨['@', 'p', 'a', 's'], 's', rfl, by decide⟩
    | _ => simp at hkind
  have hterminals : ¬p.isTerminals := by
    intro h
    rw [eq_of_beq h] at hkind
    simp at hkind
  have htext : p.start.spanText = p.start.text := if_neg fun h => by simp [h] at hkind
  have hhead : ∀ c ∈ (p.start.text ++ p.body.flatMap Lexeme.spanText).head?, Text.isBlank c = false :=
    hcut.head_not_isBlank (fun h => by simp [h] at hkind) _
  have hstart : Text.trimStart (p.start.text ++ p.body.flatMap Lexeme.spanText) =
      p.start.text ++ p.body.flatMap Lexeme.spanText :=
    (takeWhile_run (List.forall_mem_nil _) hhead).2
  rw [Passage.spanText, if_neg hterminals, Passage.lexemes, List.flatMap_cons, htext, Text.trimChars,
    hstart, hinked.trimEnd_append]

/-- What stands between the start of a passage and the right-hand side opens nothing. -/
theorem exists_front_of_declaration {d : Declaration} {rest : List Char}
    (hcut : CutOff p.start rest) (hkind : p.start.kind ∈ [.header, .pass])
    (hd : (p.span text.toList).declaration file q = .ok d) :
    ∃ front, Text.trimEnd (p.body.flatMap Lexeme.spanText) = front ++ d.rhs ∧
      ∀ c ∈ front, closing? c = none := by
  have hspan : (p.span text.toList).text =
      p.start.text ++ Text.trimEnd (p.body.flatMap Lexeme.spanText) := spanText_of_start hcut hkind
  generalize p.start = start at hcut hkind hspan
  cases hcut with
  | header hne hall =>
    refine declaration_header hne hall ?_ hd
    rw [hspan]
    simp
  | pass => exact declaration_pass hspan hd
  | _ => simp at hkind

theorem tidy_flatMap_marks {ls : List Lexeme} (hcut : ∀ l ∈ ls, ∃ rest, CutOff l rest)
    (hstarts : ∀ l ∈ ls, l.starts = false) (hopen : ∀ l ∈ ls, l.isOpen = false) :
    Tidy (ls.flatMap Lexeme.marks) := by
  induction ls with
  | nil => exact .nil
  | cons l ls ih =>
    simp only [List.forall_mem_cons] at hcut hstarts hopen
    obtain ⟨⟨rest, hl⟩, hcut⟩ := hcut
    exact hl.tidy hstarts.1 hopen.1 (ih hcut hstarts.2 hopen.2)

/-- The quoted values of a rule stand in the passage that it has been read from. -/
theorem enclosed_of_rule (hp : p ∈ passages text.toList) (hkind : p.start.kind ∈ [.header, .pass])
    (hrule : (p.span text.toList).rule file q = .ok r) : Enclosed p.isClosed r.expr.quoted p.marks := by
  have hcut : ∀ l ∈ p.lexemes, ∃ rest, CutOff l rest := fun l hl =>
    (scanned_lexemes _).exists_cutOff (mem_lexemes_of_passage hp l hl)
  obtain ⟨⟨rest, hstart⟩, hbody⟩ := List.forall_mem_cons.mp hcut
  have hsound : ∀ m ∈ p.body.flatMap Lexeme.marks, m.IsSound := by
    intro m hm
    obtain ⟨l, hl, hm⟩ := List.mem_flatMap.mp hm
    obtain ⟨rest, hl⟩ := hbody l hl
    exact hl.isSound_marks m hm
  have htidy (hclosed : p.isClosed) : Tidy (p.body.flatMap Lexeme.marks) := by
    refine tidy_flatMap_marks hbody ((isTiling _).body p hp) ?_
    simpa [Passage.isClosed] using hclosed
  obtain ⟨d, e, hd, he, rfl⟩ := rule_eq_ok_iff.mp hrule
  obtain ⟨front, hfront, hnone⟩ := exists_front_of_declaration hstart hkind hd
  obtain ⟨bs, hbs, -⟩ := exists_trimEnd (p.body.flatMap Lexeme.spanText)
  obtain ⟨ts, rest, hreads, hquoted⟩ := exists_reads_of_parse? he
  have hchars : (p.body.flatMap Lexeme.marks).map Mark.char = front ++ (d.rhs ++ bs) := by
    rw [map_char_flatMap_marks, hbs, hfront, List.append_assoc]
  obtain ⟨ns, ms, hmarks, hns, hms⟩ := List.map_eq_append_iff.mp hchars
  rw [hmarks] at hsound htidy
  have hns' : ∀ m ∈ ns, closing? m.char = none := fun m hm =>
    hnone m.char (hns ▸ List.mem_map.mpr ⟨m, hm, rfl⟩)
  have henclosed := enclosed_of_reads hreads hms (List.forall_mem_append.mp hsound).2
    fun hclosed => (htidy hclosed).of_append hns'
  rw [← hquoted] at henclosed
  rw [Passage.marks, Passage.lexemes, List.flatMap_cons, hmarks]
  exact (henclosed.prepend ns).prepend p.start.marks

/-- Every literal and every class of a loaded rule stands in the text between the characters that enclose
it, with a space for each comment inside. It stands there as it is if no comment is inside, and none is
where every quote and every bracket is closed on its line. -/
theorem enclosed_quoted_of_load (h : Grammar.load text file = .ok g) (hr : r ∈ g.rules) :
    ∃ p ∈ passages text.toList, r.source = some (String.ofList p.spanText) ∧
      r.location = some ⟨file, some (lineAt text.toList p.position)⟩ ∧
      p.marks.flatMap Mark.origin <:+: text.toList ∧
      Enclosed p.isClosed r.expr.quoted p.marks ∧
      (p.isClosed → ∀ v ∈ r.expr.quoted, ∃ a b, (a, b) ∈ v.enclosures ∧
        a :: (v.text.toList ++ [b]) <:+: text.toList) := by
  obtain ⟨q, p, hp, hkind, hrule⟩ := exists_passage_of_load h hr
  have henclosed := enclosed_of_rule hp hkind hrule
  have hinfix : p.marks.flatMap Mark.origin <:+: text.toList := by
    obtain ⟨before, after, hps⟩ := List.append_of_mem hp
    have htext : p.marks.flatMap Mark.origin = p.text := flatMap_origin_flatMap_marks p.lexemes
    rw [htext, (isTiling _).text_eq_slice hps]
    exact (List.take_prefix _ _).isInfix.trans (List.drop_suffix _ _).isInfix
  have hsource : r.source = some (String.ofList p.spanText) ∧
      r.location = some ⟨file, some (lineAt text.toList p.position)⟩ := by
    unfold Span.rule at hrule
    split at hrule
    case h_1 => cases hrule
    case h_2 =>
      split at hrule
      case h_1 => cases hrule
      case h_2 =>
        obtain rfl := Except.ok.inj hrule
        exact ⟨rfl, rfl⟩
  refine ⟨p, hp, hsource.1, hsource.2, hinfix, henclosed, fun hclosed v hv => ?_⟩
  obtain ⟨a, b, hab, hvalue⟩ := henclosed.exists_infix hclosed v hv
  exact ⟨a, b, hab, hvalue.trans hinfix⟩

end Load

def commentedText : String := "[1] a ::= '/* b */' /* c */ [d]"

theorem exists_infix_commentedText : ∃ g, Grammar.load commentedText none = .ok g ∧
    ∃ r ∈ g.rules, r.expr.quoted = [.literal "/* b */", .charClass "d"] ∧ ∀ v ∈ r.expr.quoted,
      ∃ a b, (a, b) ∈ v.enclosures ∧ a :: (v.text.toList ++ [b]) <:+: commentedText.toList := by
  obtain ⟨g, hload, hclosed, r, hr, hquoted⟩ : ∃ g, Grammar.load commentedText none = .ok g ∧
      (∀ p ∈ passages commentedText.toList, p.isClosed) ∧
      ∃ r ∈ g.rules, r.expr.quoted = [.literal "/* b */", .charClass "d"] :=
    ⟨_, rfl, by decide +kernel, _, List.mem_cons_self, by decide +kernel⟩
  obtain ⟨p, hp, -, -, -, -, hinfix⟩ := enclosed_quoted_of_load hload hr
  exact ⟨g, hload, r, hr, hquoted, hinfix (hclosed p hp)⟩

/-- The tokens of this text have one literal on two lines, its lexemes have a comment on the second. -/
def brokenText : String := "[1] a ::= 'b\n/* c */d'"

theorem not_infix_brokenText : ∃ g, Grammar.load brokenText none = .ok g ∧
    ∃ r ∈ g.rules, r.expr = .literal "b\n d" ∧ ∀ v ∈ r.expr.quoted, ∀ ab ∈ v.enclosures,
      ¬ab.1 :: (v.text.toList ++ [ab.2]) <:+: brokenText.toList :=
  ⟨_, rfl, _, List.mem_cons_self, by decide +kernel, by decide +kernel⟩

end FlatGrammar
