import FlatGrammar.Proofs.Source.Lexeme

/-! # Passages

Every start in a text begins a passage, which goes on up to the next start. Passages tile the text behind
its heading, and each is one span: all of it, or the start alone where that is the directive in front of
the terminals. What such a directive has behind it, and the heading, are gaps; what they hold is stray.
-/
namespace FlatGrammar

/-- The line on which a position of a text is. -/
def lineAt (text : List Char) (n : Nat) : Nat := 1 + (text.take n).count '\n'

/-- The text from one position up to another. -/
def slice (text : List Char) (p q : Nat) : List Char := (text.drop p).take (q - p)

/-- A start, the position where it stands, and the lexemes behind it up to the next start. -/
structure Passage where
  position : Nat
  start : Lexeme
  body : List Lexeme
  deriving DecidableEq, Repr

/-- Lexemes that no span takes, and the position where they stand. -/
structure Gap where
  position : Nat
  lexemes : List Lexeme
  deriving DecidableEq, Repr

/-- The lexemes in front of the first start, and the passages from there on. -/
def cutFrom (n : Nat) : List Lexeme → List Lexeme × List Passage
  | [] => ([], [])
  | l :: ls =>
    let behind := cutFrom (n + l.text.length) ls
    if l.starts then ([], ⟨n, l, behind.1⟩ :: behind.2) else (l :: behind.1, behind.2)

def heading (text : List Char) : List Lexeme := (cutFrom 0 (lexemes text)).1

def passages (text : List Char) : List Passage := (cutFrom 0 (lexemes text)).2

namespace Passage

def lexemes (p : Passage) : List Lexeme := p.start :: p.body

def text (p : Passage) : List Char := p.lexemes.flatMap Lexeme.text

def isTerminals (p : Passage) : Bool := p.start.kind == .terminals

/-- A comment leaves a blank. -/
def spanText (p : Passage) : List Char :=
  if p.isTerminals then p.start.text else Text.trimChars (p.lexemes.flatMap Lexeme.spanText)

def span (text : List Char) (p : Passage) : Span := ⟨p.spanText, lineAt text p.position⟩

def gap (p : Passage) : Gap := ⟨p.position + p.start.text.length, p.body⟩

end Passage

def gaps (text : List Char) : List Gap :=
  ⟨0, heading text⟩ :: ((passages text).filter Passage.isTerminals).map Passage.gap

def Lexeme.isVoid (l : Lexeme) : Bool := l.kind == .blank || l.kind == .comment

/-- Stray text starts at the first lexeme that is not void, on the line where that stands. -/
def strayFrom? (text : List Char) (n : Nat) : List Lexeme → Option (Nat × List Char)
  | [] => none
  | l :: ls =>
    if l.isVoid then strayFrom? text (n + l.text.length) ls
    else some (lineAt text n, (l :: ls).flatMap Lexeme.strayText)

def Gap.stray? (text : List Char) (g : Gap) : Option (Nat × List Char) :=
  strayFrom? text g.position g.lexemes

/-- The text of a gap without its comments. -/
def Gap.text (g : Gap) : List Char := (g.lexemes.filter (·.kind != .comment)).flatMap Lexeme.text

/-- What is left of a text without its blanks. -/
def inked (cs : List Char) : List Char := cs.filter fun c => !Text.isBlank c

def Item.stray? : Item → Option (Nat × List Char)
  | stray line text => some (line, text)
  | _ => none

def Gap.items (text : List Char) (g : Gap) : List Item :=
  (g.stray? text).toList.map fun (line, cs) => .stray line cs

/-- What the passage adds to the items of its text. -/
def Passage.items (text : List Char) (p : Passage) : List Item :=
  .span (p.span text) :: if p.isTerminals then p.gap.items text else []

/-- A passage in front of lexemes: its start is cut off there, and it goes on up to the next start. -/
structure Passage.Stands (p : Passage) (ls : List Lexeme) : Prop where
  cutOff : CutOff p.start (ls.flatMap Lexeme.text)
  scanned : Scanned ls
  body : p.body = ls.takeWhile (!·.starts)

/-- A heading and passages that tile a text. -/
structure IsTiling (text : List Char) (front : List Lexeme) (ps : List Passage) : Prop where
  lexemes_eq : lexemes text = front ++ ps.flatMap Passage.lexemes
  heading : ∀ l ∈ front, l.starts = false
  start : ∀ p ∈ ps, p.start.starts
  body : ∀ p ∈ ps, ∀ l ∈ p.body, l.starts = false
  position : ∀ {before p after}, ps = before ++ p :: after →
    p.position = ((front ++ before.flatMap Passage.lexemes).flatMap Lexeme.text).length

/-- How a text is divided: its lexemes cover it, its passages are the spans, and what its gaps hold is
stray, blanks and comments apart. -/
structure IsDivision (text : List Char) (spans : List Span) (strays : List (Nat × List Char)) :
    Prop where
  cover : (lexemes text).flatMap Lexeme.text = text
  ne_nil : ∀ l ∈ lexemes text, l.text ≠ []
  tiling : IsTiling text (heading text) (passages text)
  kind : ∀ p ∈ passages text, p.start.kind ∈ [.header, .pass, .terminals]
  text_eq : ∀ {before p after}, passages text = before ++ p :: after →
    p.text = slice text p.position ((after.head?.map Passage.position).getD text.length)
  spans_eq : spans = (passages text).map (Passage.span text)
  strays_eq : strays = (gaps text).filterMap (Gap.stray? text)
  inked_eq : inked (strays.flatMap Prod.snd) = inked ((gaps text).flatMap Gap.text)

section Cutting
variable {l : Lexeme} {ls : List Lexeme} {n : Nat} {p : Passage}

theorem cutFrom_start (h : l.starts) (ls : List Lexeme) (n : Nat) : cutFrom n (l :: ls) =
    ([], ⟨n, l, (cutFrom (n + l.text.length) ls).1⟩ :: (cutFrom (n + l.text.length) ls).2) := by
  simp only [cutFrom, h, if_true]

theorem cutFrom_other (h : l.starts = false) (ls : List Lexeme) (n : Nat) : cutFrom n (l :: ls) =
    (l :: (cutFrom (n + l.text.length) ls).1, (cutFrom (n + l.text.length) ls).2) := by
  simp [cutFrom, h]

theorem lexemes_cutFrom (n : Nat) (ls : List Lexeme) :
    (cutFrom n ls).1 ++ (cutFrom n ls).2.flatMap Passage.lexemes = ls := by
  induction ls generalizing n with
  | nil => rfl
  | cons l ls ih =>
    cases h : l.starts with
    | true =>
      rw [cutFrom_start h]
      exact congrArg (l :: ·) (ih _)
    | false =>
      rw [cutFrom_other h]
      exact congrArg (l :: ·) (ih _)

theorem fst_cutFrom (n : Nat) (ls : List Lexeme) :
    (cutFrom n ls).1 = ls.takeWhile (!·.starts) := by
  induction ls generalizing n with
  | nil => rfl
  | cons l ls ih =>
    cases h : l.starts with
    | true =>
      rw [cutFrom_start h, List.takeWhile_cons_of_neg]
      simp [h]
    | false =>
      rw [cutFrom_other h, List.takeWhile_cons_of_pos, ih]
      simp [h]

theorem forall_mem_fst_cutFrom (n : Nat) (ls : List Lexeme) :
    ∀ l ∈ (cutFrom n ls).1, l.starts = false := by
  intro l hl
  rw [fst_cutFrom] at hl
  simpa using List.mem_takeWhile_imp hl

theorem forall_mem_snd_cutFrom (n : Nat) (ls : List Lexeme) :
    ∀ p ∈ (cutFrom n ls).2, p.start.starts ∧ ∀ l ∈ p.body, l.starts = false := by
  induction ls generalizing n with
  | nil => exact List.forall_mem_nil _
  | cons l ls ih =>
    cases h : l.starts with
    | true =>
      rw [cutFrom_start h]
      exact List.forall_mem_cons.mpr ⟨⟨h, forall_mem_fst_cutFrom _ ls⟩, ih _⟩
    | false =>
      rw [cutFrom_other h]
      exact ih _

theorem position_cutFrom {before after : List Passage}
    (h : (cutFrom n ls).2 = before ++ p :: after) :
    p.position =
      n + (((cutFrom n ls).1 ++ before.flatMap Passage.lexemes).flatMap Lexeme.text).length := by
  induction ls generalizing n before with
  | nil => simp [cutFrom] at h
  | cons l ls ih =>
    cases hl : l.starts with
    | true =>
      rw [cutFrom_start hl] at h ⊢
      cases before with
      | nil =>
        obtain ⟨rfl, -⟩ := List.cons.inj h
        rfl
      | cons b before =>
        obtain ⟨rfl, htail⟩ := List.cons.inj h
        have hposition := ih htail
        simp only [List.flatMap_append, List.flatMap_cons, List.nil_append, List.cons_append,
          List.length_append, Passage.lexemes] at hposition ⊢
        omega
    | false =>
      rw [cutFrom_other hl] at h ⊢
      have hposition := ih h
      simp only [List.flatMap_append, List.flatMap_cons, List.cons_append, List.length_append]
        at hposition ⊢
      omega

theorem isTiling (text : List Char) : IsTiling text (heading text) (passages text) where
  lexemes_eq := (lexemes_cutFrom 0 (lexemes text)).symm
  heading := forall_mem_fst_cutFrom 0 (lexemes text)
  start p hp := (forall_mem_snd_cutFrom 0 (lexemes text) p hp).1
  body p hp := (forall_mem_snd_cutFrom 0 (lexemes text) p hp).2
  position h := by
    have hposition := position_cutFrom h
    rwa [Nat.zero_add] at hposition

end Cutting

section Items
variable {text : List Char} {l : Lexeme} {ls : List Lexeme} {n : Nat}

theorem lineAt_add {cs rest : List Char} (h : text.drop n = cs ++ rest) :
    lineAt text (n + cs.length) = lineAt text n + cs.count '\n' := by
  rw [lineAt, lineAt, List.take_add, h, List.take_left, List.count_append, Nat.add_assoc]

theorem drop_add {cs rest : List Char} (h : text.drop n = cs ++ rest) :
    text.drop (n + cs.length) = rest := by
  rw [← List.drop_drop, h, List.drop_left]

theorem region?_of_closed (h : ∀ l ∈ ls, l.kind ≠ .openComment) (n : Nat) :
    region? ls = some (cutFrom n ls).1 := by
  rw [fst_cutFrom]
  unfold region?
  split
  case h_1 hfind => exact absurd rfl (h _ (List.mem_of_find?_eq_some hfind))
  case h_2 => rfl

theorem strayFrom?_void (h : l.isVoid) (ls : List Lexeme) :
    strayFrom? text n (l :: ls) = strayFrom? text (n + l.text.length) ls := by
  rw [strayFrom?, if_pos h]

/-- Where no comment is open, the items are those of the passages, and before them what is stray in front
of the first one, unless a span covers it. -/
theorem itemsFrom_eq (covered : Bool) (hclosed : ∀ l ∈ ls, l.kind ≠ .openComment)
    (htext : text.drop n = ls.flatMap Lexeme.text) : itemsFrom covered (lineAt text n) ls =
      (if covered then [] else (⟨n, (cutFrom n ls).1⟩ : Gap).items text) ++
        (cutFrom n ls).2.flatMap (Passage.items text) := by
  induction ls generalizing n covered with
  | nil => cases covered <;> rfl
  | cons l ls ih =>
    obtain ⟨hl, hls⟩ := List.forall_mem_cons.mp hclosed
    have hline := lineAt_add htext
    have hnext (covered : Bool) := ih covered hls (drop_add htext)
    have hregion := region?_of_closed hls (n + l.text.length)
    obtain ⟨kind, cs⟩ := l
    simp only at hl hline hnext hregion
    unfold itemsFrom
    simp only [← hline, hnext]
    cases kind with
    | openComment => exact absurd rfl hl
    | terminals =>
      rw [cutFrom_start rfl]
      cases covered <;> rfl
    | header | pass =>
      rw [cutFrom_start rfl]
      simp only [spanItem?, hregion]
      cases covered <;> rfl
    | blank | comment =>
      rw [cutFrom_other rfl]
      cases covered <;> rfl
    | literal | charClass | text =>
      rw [cutFrom_other rfl]
      simp only [strayItem?, hregion]
      cases covered <;> rfl

theorem items_eq (hclosed : ∀ l ∈ lexemes text, l.kind ≠ .openComment) : items text =
    (⟨0, heading text⟩ : Gap).items text ++ (passages text).flatMap (Passage.items text) := by
  have htext : text.drop 0 = (lexemes text).flatMap Lexeme.text := (flatMap_text_lexemes text).symm
  exact itemsFrom_eq false hclosed htext

theorem eq_of_region? {body : List Lexeme} (h : region? ls = some body) :
    body = ls.takeWhile (!·.starts) := by
  unfold region? at h
  split at h
  case h_1 => cases h
  case h_2 => exact (Option.some.inj h).symm

theorem itemsFrom_openComment (hl : l.kind = .openComment) (covered : Bool) (line : Nat)
    (ls : List Lexeme) : itemsFrom covered line (l :: ls) = [.openComment line l.text] := by
  unfold itemsFrom
  simp only [hl]

/-- A lexeme adds what is stray or the span that it starts, and leaves the comment without an end to the
lexemes behind it. -/
theorem exists_itemsFrom_cons (hl : l.kind ≠ .openComment) (covered : Bool) (line : Nat)
    (ls : List Lexeme) : ∃ made covered',
      itemsFrom covered line (l :: ls) =
        made ++ itemsFrom covered' (line + l.text.count '\n') ls ∧
      ∀ item ∈ made, (∃ n cs, item = .stray n cs) ∨ l.kind ∈ [.header, .pass, .terminals] ∧
        item = .span ⟨(⟨0, l, ls.takeWhile (!·.starts)⟩ : Passage).spanText, line⟩ := by
  obtain ⟨kind, cs⟩ := l
  cases kind with
  | openComment => exact absurd rfl hl
  | terminals =>
    refine ⟨[.span ⟨cs, line⟩], false, rfl, List.forall_mem_singleton.mpr (.inr ⟨?_, rfl⟩)⟩
    exact List.mem_of_elem_eq_true rfl
  | header | pass =>
    refine ⟨_, true, rfl, fun item hitem => .inr ⟨List.mem_of_elem_eq_true rfl, ?_⟩⟩
    obtain ⟨body, hregion, rfl⟩ := Option.map_eq_some_iff.mp (Option.mem_toList.mp hitem)
    rw [eq_of_region? hregion]
    rfl
  | blank | comment => exact ⟨[], covered, rfl, List.forall_mem_nil _⟩
  | literal | charClass | text =>
    cases covered with
    | true => exact ⟨[], true, rfl, List.forall_mem_nil _⟩
    | false =>
      refine ⟨_, true, rfl, fun item hitem => .inl ?_⟩
      obtain ⟨body, -, rfl⟩ := Option.map_eq_some_iff.mp (Option.mem_toList.mp hitem)
      exact ⟨_, _, rfl⟩

theorem snd_cutFrom_subset (n : Nat) (l : Lexeme) (ls : List Lexeme) :
    (cutFrom (n + l.text.length) ls).2 ⊆ (cutFrom n (l :: ls)).2 := by
  cases h : l.starts with
  | true =>
    rw [cutFrom_start h]
    exact List.subset_cons_self _ _
  | false =>
    rw [cutFrom_other h]
    exact List.Subset.refl _

/-- Every span is that of a passage, even where a comment behind it has no end. -/
theorem exists_passage_of_mem_itemsFrom (hls : Scanned ls) {covered : Bool} {s : Span}
    (htext : text.drop n = ls.flatMap Lexeme.text)
    (hs : .span s ∈ itemsFrom covered (lineAt text n) ls) : ∃ p ∈ (cutFrom n ls).2,
      s = p.span text ∧ p.start.kind ∈ [.header, .pass, .terminals] ∧
        p.start.text <+: text.drop p.position ∧ ∃ ms, p.Stands ms := by
  induction hls generalizing covered n with
  | nil => cases hs
  | @cons l ls hcut hls ih =>
    by_cases hl : l.kind = .openComment
    · rw [itemsFrom_openComment hl] at hs
      cases List.mem_singleton.mp hs
    obtain ⟨made, covered', hitems, hmade⟩ := exists_itemsFrom_cons hl covered (lineAt text n) ls
    rw [hitems] at hs
    rcases List.mem_append.mp hs with hs | hs
    case inr =>
      rw [← lineAt_add htext] at hs
      obtain ⟨p, hp, hspan⟩ := ih (drop_add htext) hs
      exact ⟨p, snd_cutFrom_subset n l ls hp, hspan⟩
    rcases hmade _ hs with ⟨_, _, heq⟩ | ⟨hkind, heq⟩
    case inl => cases heq
    obtain rfl := Item.span.inj heq
    have hstarts : l.starts := by
      simp only [List.mem_cons, List.not_mem_nil, or_false] at hkind
      rcases hkind with hkind | hkind | hkind <;> simp [Lexeme.starts, hkind]
    refine ⟨⟨n, l, ls.takeWhile (!·.starts)⟩, ?_, rfl, hkind, ?_, ls, ⟨hcut, hls, rfl⟩⟩
    · rw [cutFrom_start hstarts, fst_cutFrom]
      exact List.mem_cons_self
    · rw [htext]
      exact List.prefix_append _ _

theorem exists_passage_of_mem_items {s : Span} (hs : .span s ∈ items text) : ∃ p ∈ passages text,
    s = p.span text ∧ p.start.kind ∈ [.header, .pass, .terminals] ∧
      p.start.text <+: text.drop p.position ∧ ∃ ms, p.Stands ms := by
  have htext : text.drop 0 = (lexemes text).flatMap Lexeme.text := (flatMap_text_lexemes text).symm
  exact exists_passage_of_mem_itemsFrom (scanned_lexemes text) htext hs

theorem exists_openComment_mem_itemsFrom (hl : l ∈ ls) (hkind : l.kind = .openComment)
    (covered : Bool) (line : Nat) : ∃ n cs, Item.openComment n cs ∈ itemsFrom covered line ls := by
  induction ls generalizing covered line with
  | nil => cases hl
  | cons m ls ih =>
    by_cases hm : m.kind = .openComment
    · rw [itemsFrom_openComment hm]
      exact ⟨line, m.text, List.mem_singleton_self _⟩
    · have hl : l ∈ ls := (List.mem_cons.mp hl).resolve_left fun heq => hm (heq ▸ hkind)
      obtain ⟨made, covered', hitems, -⟩ := exists_itemsFrom_cons hm covered line ls
      obtain ⟨n, cs, hmem⟩ := ih hl covered' (line + m.text.count '\n')
      rw [hitems]
      exact ⟨n, cs, List.mem_append_right made hmem⟩

/-- A comment without an end is the last item, and the last lexeme too. -/
theorem exists_of_itemsFrom_openComment {before after : List Item} {cs : List Char}
    (hls : Scanned ls) {covered : Bool} {line : Nat}
    (h : itemsFrom covered line ls = before ++ .openComment n cs :: after) : after = [] ∧
      ∃ front, ls = front ++ [⟨.openComment, cs⟩] ∧
        n = line + (front.flatMap Lexeme.text).count '\n' := by
  induction hls generalizing covered line before with
  | nil => simp [itemsFrom] at h
  | @cons l ls hcut hls ih =>
    by_cases hl : l.kind = .openComment
    · rw [itemsFrom_openComment hl] at h
      obtain ⟨rfl, heq⟩ | ⟨-, hnil⟩ := List.singleton_eq_append_iff.mp h
      · obtain ⟨hopen, rfl⟩ := List.cons.inj heq
        obtain ⟨rfl, rfl⟩ := Item.openComment.inj hopen
        obtain rfl := hls.eq_nil (hcut.rest_eq_nil hl)
        refine ⟨rfl, [], ?_, rfl⟩
        rw [← hl]
        rfl
      · cases hnil
    · obtain ⟨made, covered', hitems, hmade⟩ := exists_itemsFrom_cons hl covered line ls
      have hbehind : ∃ before', itemsFrom covered' (line + l.text.count '\n') ls =
          before' ++ .openComment n cs :: after := by
        obtain ⟨before', -, hbefore⟩ | ⟨made', hmade', hafter⟩ :=
          List.append_eq_append_iff.mp (hitems ▸ h)
        · exact ⟨before', hbefore⟩
        · cases made' with
          | nil => exact ⟨[], hafter.symm⟩
          | cons item made' =>
            obtain ⟨rfl, -⟩ := List.cons.inj hafter
            rcases hmade _ (hmade' ▸ List.mem_append_right before List.mem_cons_self) with
              ⟨_, _, heq⟩ | ⟨-, heq⟩
            all_goals cases heq
      obtain ⟨before', hbefore⟩ := hbehind
      obtain ⟨hafter, front, hfront, hn⟩ := ih hbefore
      refine ⟨hafter, l :: front, congrArg (l :: ·) hfront, ?_⟩
      rw [hn, List.flatMap_cons, List.count_append, Nat.add_assoc]

theorem Gap.filterMap_items (text : List Char) (g : Gap) :
    (g.items text).filterMap Item.span? = [] ∧
      (g.items text).filterMap Item.stray? = (g.stray? text).toList := by
  unfold Gap.items
  cases g.stray? text with
  | none => exact ⟨rfl, rfl⟩
  | some _ => exact ⟨rfl, rfl⟩

theorem Passage.filterMap_items (text : List Char) (p : Passage) :
    (p.items text).filterMap Item.span? = [p.span text] ∧
      (p.items text).filterMap Item.stray? =
        if p.isTerminals then (p.gap.stray? text).toList else [] := by
  obtain ⟨hspan, hstray⟩ := p.gap.filterMap_items text
  unfold Passage.items
  cases p.isTerminals with
  | true => exact ⟨congrArg (p.span text :: ·) hspan, hstray⟩
  | false => exact ⟨rfl, rfl⟩

theorem filterMap_items_passages (text : List Char) (ps : List Passage) :
    (ps.flatMap (Passage.items text)).filterMap Item.span? = ps.map (Passage.span text) ∧
      (ps.flatMap (Passage.items text)).filterMap Item.stray? =
        ((ps.filter Passage.isTerminals).map Passage.gap).filterMap (Gap.stray? text) := by
  induction ps with
  | nil => exact ⟨rfl, rfl⟩
  | cons p ps ih =>
    obtain ⟨hspan, hstray⟩ := p.filterMap_items text
    rw [List.flatMap_cons, List.filterMap_append, List.filterMap_append, hspan, hstray, ih.1, ih.2]
    refine ⟨rfl, ?_⟩
    cases hterminals : p.isTerminals with
    | true =>
      rw [List.filter_cons_of_pos hterminals, List.map_cons, List.filterMap_cons]
      cases p.gap.stray? text with
      | none => rfl
      | some _ => rfl
    | false =>
      rw [List.filter_cons_of_neg (Bool.eq_false_iff.mp hterminals)]
      rfl

theorem filterMap_items (hclosed : ∀ l ∈ lexemes text, l.kind ≠ .openComment) :
    (items text).filterMap Item.span? = (passages text).map (Passage.span text) ∧
      (items text).filterMap Item.stray? = (gaps text).filterMap (Gap.stray? text) := by
  obtain ⟨hspan, hstray⟩ := (⟨0, heading text⟩ : Gap).filterMap_items text
  obtain ⟨hspans, hstrays⟩ := filterMap_items_passages text (passages text)
  rw [items_eq hclosed, List.filterMap_append, List.filterMap_append, hspan, hstray, hspans, hstrays,
    gaps, List.filterMap_cons]
  refine ⟨rfl, ?_⟩
  cases (⟨0, heading text⟩ : Gap).stray? text with
  | none => rfl
  | some _ => rfl

theorem fault?_of_mem_items {file : Option String} {item : Item}
    (hclosed : ∀ l ∈ lexemes text, l.kind ≠ .openComment) (hitem : item ∈ items text) :
    item.fault? file = none := by
  have hgap (g : Gap) (hmem : item ∈ g.items text) : item.fault? file = none := by
    obtain ⟨_, -, rfl⟩ := List.mem_map.mp hmem
    rfl
  rw [items_eq hclosed] at hitem
  rcases List.mem_append.mp hitem with hheading | hpassage
  · exact hgap _ hheading
  · obtain ⟨p, -, hmem⟩ := List.mem_flatMap.mp hpassage
    rcases List.mem_cons.mp hmem with rfl | hmem
    · rfl
    · split at hmem
      case isTrue => exact hgap _ hmem
      case isFalse => cases hmem

/-- A text is divided if every comment has an end, and the spans are those of its passages. -/
theorem spans?_eq_ok_iff {file : Option String} {spans : List Span} : spans? file text = .ok spans ↔
    (∀ l ∈ lexemes text, l.kind ≠ .openComment) ∧
      spans = (passages text).map (Passage.span text) := by
  have hok (hclosed : ∀ l ∈ lexemes text, l.kind ≠ .openComment) :
      spans? file text = .ok ((passages text).map (Passage.span text)) := by
    have hnone : (items text).findSome? (Item.fault? file) = none :=
      List.findSome?_eq_none_iff.mpr fun item hitem => fault?_of_mem_items hclosed hitem
    unfold spans?
    rw [hnone, (filterMap_items hclosed).1]
  constructor
  · intro h
    have hclosed : ∀ l ∈ lexemes text, l.kind ≠ .openComment := by
      intro l hl hkind
      obtain ⟨n, cs, hmem⟩ := exists_openComment_mem_itemsFrom hl hkind false 1
      unfold spans? at h
      split at h
      case h_1 => cases h
      case h_2 hnone => cases List.findSome?_eq_none_iff.mp hnone _ hmem
    rw [hok hclosed] at h
    exact ⟨hclosed, (Except.ok.inj h).symm⟩
  · rintro ⟨hclosed, rfl⟩
    exact hok hclosed

end Items

section Texts
variable {text : List Char} {front : List Lexeme} {ps before after : List Passage} {p : Passage}

theorem flatMap_text_passages (ps : List Passage) :
    (ps.flatMap Passage.lexemes).flatMap Lexeme.text = ps.flatMap Passage.text :=
  List.flatMap_assoc

/-- A passage goes on up to the position of the next one, the last one up to the end. -/
theorem IsTiling.text_eq_slice (h : IsTiling text front ps) (hps : ps = before ++ p :: after) :
    p.text = slice text p.position ((after.head?.map Passage.position).getD text.length) := by
  have hposition := h.position hps
  have htext : text = (front ++ before.flatMap Passage.lexemes).flatMap Lexeme.text ++
      (p.text ++ after.flatMap Passage.text) := by
    have hlexemes : lexemes text =
        (front ++ before.flatMap Passage.lexemes) ++ (p :: after).flatMap Passage.lexemes := by
      rw [h.lexemes_eq, hps, List.flatMap_append, List.append_assoc]
    have hpassages : ((p :: after).flatMap Passage.lexemes).flatMap Lexeme.text =
        p.text ++ after.flatMap Passage.text := flatMap_text_passages (p :: after)
    rw [← hpassages, ← List.flatMap_append, ← hlexemes, flatMap_text_lexemes]
  have hend : (after.head?.map Passage.position).getD text.length =
      p.position + p.text.length := by
    cases after with
    | nil =>
      have hlength := congrArg List.length htext
      simp only [List.flatMap_nil, List.append_nil, List.length_append] at hlength
      rw [hposition]
      exact hlength
    | cons q after =>
      have hnext : ps = (before ++ [p]) ++ q :: after := by simp [hps]
      have hposition' := h.position hnext
      simp only [List.flatMap_append, List.flatMap_singleton, List.length_append]
        at hposition hposition'
      simp only [List.head?_cons, Option.map_some, Option.getD_some, Passage.text]
      omega
  rw [hend, slice, Nat.add_sub_cancel_left]
  conv_rhs => rw [htext, hposition, List.drop_left, List.take_left]

theorem inked_append (cs ds : List Char) : inked (cs ++ ds) = inked cs ++ inked ds :=
  List.filter_append cs ds

theorem inked_eq_nil {cs : List Char} (h : ∀ c ∈ cs, Text.isBlank c) : inked cs = [] := by
  refine List.filter_eq_nil_iff.mpr fun c hc => ?_
  rw [h c hc]
  nofun

/-- A void lexeme leaves nothing but blanks, whether it is taken as stray text or as part of a gap. -/
theorem inked_void {l : Lexeme} (hl : l.kind = .blank → ∀ c ∈ l.text, Text.isBlank c)
    (hvoid : l.isVoid) (ls : List Lexeme) (n : Nat) :
    inked (Gap.text ⟨n, l :: ls⟩) = inked (Gap.text ⟨n, ls⟩) := by
  obtain ⟨kind, cs⟩ := l
  cases kind with
  | comment => rfl
  | blank =>
    have hcons : Gap.text ⟨n, ⟨.blank, cs⟩ :: ls⟩ = cs ++ Gap.text ⟨n, ls⟩ := rfl
    rw [hcons, inked_append, inked_eq_nil (hl rfl), List.nil_append]
  | _ => cases hvoid

theorem inked_strayText {ls : List Lexeme}
    (hblank : ∀ l ∈ ls, l.kind = .blank → ∀ c ∈ l.text, Text.isBlank c) (n : Nat) :
    inked (ls.flatMap Lexeme.strayText) = inked (Gap.text ⟨n, ls⟩) := by
  induction ls with
  | nil => rfl
  | cons l ls ih =>
    obtain ⟨hl, hls⟩ := List.forall_mem_cons.mp hblank
    cases hvoid : l.isVoid with
    | true =>
      have hspace : l.strayText = [' '] := by
        refine if_pos ?_
        simpa [Lexeme.isVoid, or_comm] using hvoid
      rw [inked_void hl hvoid, List.flatMap_cons, hspace, inked_append, ih hls]
      rfl
    | false =>
      obtain ⟨hkind, hcomment⟩ : l.kind ≠ .blank ∧ l.kind ≠ .comment := by
        simpa [Lexeme.isVoid] using hvoid
      have htext : l.strayText = l.text := if_neg (not_or.mpr ⟨hcomment, hkind⟩)
      have hgap : Gap.text ⟨n, l :: ls⟩ = l.text ++ Gap.text ⟨n, ls⟩ := by
        have hkept : (l :: ls).filter (·.kind != .comment) = l :: ls.filter (·.kind != .comment) :=
          List.filter_cons_of_pos (bne_iff_ne.mpr hcomment)
        unfold Gap.text
        rw [hkept, List.flatMap_cons]
      rw [List.flatMap_cons, htext, hgap, inked_append, inked_append, ih hls]

/-- Stray text is the text of its gap, up to blanks and comments. -/
theorem inked_strayFrom? {ls : List Lexeme}
    (hblank : ∀ l ∈ ls, l.kind = .blank → ∀ c ∈ l.text, Text.isBlank c) (n : Nat) :
    inked ((strayFrom? text n ls).toList.flatMap Prod.snd) = inked (Gap.text ⟨n, ls⟩) := by
  induction ls generalizing n with
  | nil => rfl
  | cons l ls ih =>
    obtain ⟨hl, hls⟩ := List.forall_mem_cons.mp hblank
    cases hvoid : l.isVoid with
    | true =>
      rw [strayFrom?_void hvoid, inked_void hl hvoid]
      exact ih hls _
    | false =>
      rw [strayFrom?, if_neg (Bool.eq_false_iff.mp hvoid)]
      rw [← inked_strayText hblank n]
      simp only [Option.toList_some, List.flatMap_singleton]

theorem mem_lexemes_of_passage (hp : p ∈ passages text) : ∀ l ∈ p.lexemes, l ∈ lexemes text := by
  intro l hl
  rw [(isTiling text).lexemes_eq]
  exact List.mem_append_right _ (List.mem_flatMap.mpr ⟨p, hp, hl⟩)

theorem mem_lexemes_of_gap {g : Gap} (hg : g ∈ gaps text) : ∀ l ∈ g.lexemes, l ∈ lexemes text := by
  intro l hl
  rcases List.mem_cons.mp hg with rfl | hg
  · rw [(isTiling text).lexemes_eq]
    exact List.mem_append_left _ hl
  · obtain ⟨p, hp, rfl⟩ := List.mem_map.mp hg
    exact mem_lexemes_of_passage (List.mem_filter.mp hp).1 l (List.mem_cons_of_mem _ hl)

theorem inked_strays {gs : List Gap}
    (hblank : ∀ g ∈ gs, ∀ l ∈ g.lexemes, l.kind = .blank → ∀ c ∈ l.text, Text.isBlank c) :
    inked ((gs.filterMap (Gap.stray? text)).flatMap Prod.snd) = inked (gs.flatMap Gap.text) := by
  induction gs with
  | nil => rfl
  | cons g gs ih =>
    obtain ⟨hg, hgs⟩ := List.forall_mem_cons.mp hblank
    have hstray : (g :: gs).filterMap (Gap.stray? text) =
        (g.stray? text).toList ++ gs.filterMap (Gap.stray? text) := by
      rw [List.filterMap_cons]
      cases g.stray? text with
      | none => rfl
      | some _ => rfl
    rw [hstray, List.flatMap_append, List.flatMap_cons, inked_append, inked_append, ih hgs]
    exact congrArg (· ++ _) (inked_strayFrom? hg g.position)

theorem warnings_eq (file : Option String) (its : List Item) : its.filterMap (Item.warning? file) =
    (its.filterMap Item.stray?).map fun (line, cs) => strayWarning ⟨file, some line⟩ cs := by
  rw [List.map_filterMap]
  refine congrArg (List.filterMap · its) (funext fun item => ?_)
  cases item with
  | span _ => rfl
  | stray _ _ => rfl
  | openComment _ _ => rfl

theorem kind_start_of_mem_passages (hclosed : ∀ l ∈ lexemes text, l.kind ≠ .openComment)
    (hp : p ∈ passages text) : p.start.kind ∈ [.header, .pass, .terminals] := by
  have hstart := (isTiling text).start p hp
  have hkind := hclosed _ (mem_lexemes_of_passage hp _ List.mem_cons_self)
  unfold Lexeme.starts at hstart
  split at hstart
  case h_1 h => simp [h]
  case h_2 h => simp [h]
  case h_3 h => simp [h]
  case h_4 h => exact absurd h hkind
  case h_5 => cases hstart

/-- Nothing of a text is lost or taken twice: every text that has spans is divided into them and what the
warnings tell to be stray. -/
theorem isDivision_of_spans? {file : Option String} {spans : List Span}
    (h : spans? file text = .ok spans) :
    IsDivision text spans ((items text).filterMap Item.stray?) ∧
      (items text).filterMap (Item.warning? file) = ((items text).filterMap Item.stray?).map
        fun (line, cs) => strayWarning ⟨file, some line⟩ cs := by
  obtain ⟨hclosed, hspans⟩ := spans?_eq_ok_iff.mp h
  obtain ⟨-, hstrays⟩ := filterMap_items hclosed
  have htiling := isTiling text
  have hscanned := scanned_lexemes text
  have hcut {l : Lexeme} (hl : l ∈ lexemes text) : ∃ rest, CutOff l rest := hscanned.exists_cutOff hl
  refine ⟨⟨flatMap_text_lexemes text, ?_, htiling, fun p => kind_start_of_mem_passages hclosed,
    htiling.text_eq_slice, hspans, hstrays, ?_⟩, warnings_eq file (items text)⟩
  · intro l hl
    obtain ⟨_, hl⟩ := hcut hl
    exact hl.ne_nil
  · rw [hstrays]
    refine inked_strays fun g hg l hl hkind => ?_
    obtain ⟨_, hl⟩ := hcut (mem_lexemes_of_gap hg l hl)
    exact hl.isBlank hkind

end Texts

/-- A heading, a rule with a comment on two lines, the terminals with text behind them, and what passes. -/
theorem isDivision_heading_terminals :
    let text := "Lines /* of text */\n[1] a ::= '[2]' /* one\n*/ b\n@terminals here\n@pass c".toList
    let spans : List Span := [⟨"[1] a ::= '[2]'   b".toList, 2⟩, ⟨"@terminals".toList, 4⟩,
      ⟨"@pass c".toList, 5⟩]
    let strays : List (Nat × List Char) := [(1, "Lines   ".toList), (4, "here ".toList)]
    spans? none text = .ok spans ∧ IsDivision text spans strays := by
  intro text spans strays
  have hspans : spans? none text = .ok spans := by decide +kernel
  have hstrays : (items text).filterMap Item.stray? = strays := by decide +kernel
  refine ⟨hspans, ?_⟩
  rw [← hstrays]
  exact (isDivision_of_spans? hspans).1

end FlatGrammar
