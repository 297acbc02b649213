import FlatGrammar.Proofs.Source.Passages
import FlatGrammar.Proofs.Text.Trimming

/-! # Comments as blanks

A text whose comments are made blank is cut into the same lexemes, runs of blanks and comments apart,
which become one blank each. One kind of lexeme looks past comments without skipping them: a class that
could be the id of a rule is one only if no comment stands between it and the sign of definition. So the
spans of the two texts are the same, up to blanks, if there is no such class.
-/
namespace FlatGrammar

/-- A blank in place of a comment, and the line breaks in it. -/
def Lexeme.blanked (l : Lexeme) : List Char :=
  if l.kind = .comment then ' ' :: l.text.filter (· == '\n') else l.text

def blanked (text : List Char) : List Char := (lexemes text).flatMap Lexeme.blanked

/-- A class that would be the id of a rule if the comments behind it were blank. -/
def Lexeme.hides (l : Lexeme) (ls : List Lexeme) : Bool :=
  l.kind == .charClass && (headerLength? (l.text ++ ls.flatMap Lexeme.blanked)).isSome

def hiddenHeaders : List Lexeme → List Lexeme
  | [] => []
  | l :: ls => if l.hides ls then l :: hiddenHeaders ls else hiddenHeaders ls

/-- A single space, unless there is one in front. -/
def spaced : List Char → List Char
  | ' ' :: cs => ' ' :: cs
  | cs => ' ' :: cs

/-- A text with a single space in place of each run of blanks. -/
def collapsed : List Char → List Char
  | [] => []
  | c :: cs => if Text.isBlank c then spaced (collapsed cs) else c :: collapsed cs

def Span.collapsed (s : Span) : Span := { s with text := FlatGrammar.collapsed s.text }

/-- The spans of a text up to blanks, `none` if it cannot be divided. -/
def collapsedSpans? (file : Option String) (text : List Char) : Option (List Span) :=
  (spans? file text).toOption.map (List.map Span.collapsed)

/-- Blanks in front of lexemes, joined with those that are there. -/
def addBlanks (cs : List Char) : List Lexeme → List Lexeme
  | ⟨.blank, ds⟩ :: ls => ⟨.blank, cs ++ ds⟩ :: ls
  | ls => ⟨.blank, cs⟩ :: ls

/-- The lexemes that are left when comments are blank. -/
def blankedLexemes : List Lexeme → List Lexeme
  | [] => []
  | l :: ls =>
    if l.isVoid then addBlanks l.blanked (blankedLexemes ls)
    else if l.hides ls then ⟨.header, l.text⟩ :: blankedLexemes ls
    else l :: blankedLexemes ls

/-- Pieces that start with a slash are faded to a blank and their line breaks. -/
inductive Faded : List Char → List Char → Prop
  | nil : Faded [] []
  | same (c : Char) {cs ds : List Char} (h : Faded cs ds) : Faded (c :: cs) (c :: ds)
  | piece (body : List Char) {cs ds : List Char} (h : Faded cs ds) :
      Faded ('/' :: (body ++ cs)) (' ' :: (body.filter (· == '\n') ++ ds))

section Collapsing
open Text
variable {c : Char} {bs cs ds : List Char}

theorem collapsed_blank (h : isBlank c) (cs : List Char) :
    collapsed (c :: cs) = spaced (collapsed cs) := if_pos h

theorem collapsed_inked (h : isBlank c = false) (cs : List Char) :
    collapsed (c :: cs) = c :: collapsed cs := if_neg (Bool.eq_false_iff.mp h)

theorem spaced_eq_cons (h : cs.head? ≠ some ' ') : spaced cs = ' ' :: cs := by
  unfold spaced
  split
  case h_1 => exact absurd rfl h
  case h_2 => rfl

theorem spaced_spaced (cs : List Char) : spaced (spaced cs) = spaced cs := by
  by_cases h : cs.head? = some ' '
  · obtain ⟨ds, rfl⟩ := List.head?_eq_some_iff.mp h
    rfl
  · rw [spaced_eq_cons h]
    rfl

theorem collapsed_blanks (hne : bs ≠ []) (hall : ∀ c ∈ bs, isBlank c) (cs : List Char) :
    collapsed (bs ++ cs) = spaced (collapsed cs) := by
  induction bs with
  | nil => exact absurd rfl hne
  | cons b bs ih =>
    obtain ⟨hb, hbs⟩ := List.forall_mem_cons.mp hall
    rw [List.cons_append, collapsed_blank hb]
    rcases eq_or_ne bs [] with rfl | hne
    · rfl
    · rw [ih hne hbs, spaced_spaced]

theorem collapsed_append_congr (bs : List Char) (h : collapsed cs = collapsed ds) :
    collapsed (bs ++ cs) = collapsed (bs ++ ds) := by
  induction bs with
  | nil => exact h
  | cons b bs ih =>
    cases hb : isBlank b with
    | true => rw [List.cons_append, List.cons_append, collapsed_blank hb, collapsed_blank hb, ih]
    | false => rw [List.cons_append, List.cons_append, collapsed_inked hb, collapsed_inked hb, ih]

theorem trimStart_spaced (cs : List Char) : trimStart (spaced cs) = trimStart cs := by
  unfold spaced
  split
  case h_1 => rfl
  case h_2 => rfl

theorem collapsed_trimStart (cs : List Char) : collapsed (trimStart cs) = trimStart (collapsed cs) := by
  induction cs with
  | nil => rfl
  | cons c cs ih =>
    cases hc : isBlank c with
    | true =>
      have htrim : trimStart (c :: cs) = trimStart cs := List.dropWhile_cons_of_pos hc
      rw [htrim, collapsed_blank hc, trimStart_spaced, ih]
    | false =>
      have htrim (ds : List Char) : trimStart (c :: ds) = c :: ds :=
        List.dropWhile_cons_of_neg (Bool.eq_false_iff.mp hc)
      rw [htrim, collapsed_inked hc, htrim]

theorem trimEnd_spaced (cs : List Char) :
    trimEnd (spaced cs) = if trimEnd cs = [] then [] else spaced (trimEnd cs) := by
  have hspace : isBlank ' ' := by decide
  cases cs with
  | nil => rfl
  | cons c cs =>
    rcases eq_or_ne c ' ' with rfl | hc
    · have hspaced : spaced (' ' :: cs) = ' ' :: cs := rfl
      rw [hspaced, trimEnd_cons]
      split
      case isTrue => rw [if_pos rfl]
      case isFalse => rfl
    · have hhead (ds : List Char) : (c :: ds).head? ≠ some ' ' := mt Option.some.inj hc
      rw [spaced_eq_cons (hhead cs), trimEnd_cons]
      simp only [hspace, and_true]
      split
      case isTrue => rfl
      case isFalse hne =>
        rw [trimEnd_cons c cs] at hne ⊢
        split at hne
        case isTrue => exact absurd rfl hne
        case isFalse hstays => rw [if_neg hstays, spaced_eq_cons (hhead _)]

theorem collapsed_eq_nil_iff : collapsed cs = [] ↔ cs = [] := by
  constructor
  · intro h
    cases cs with
    | nil => rfl
    | cons c cs =>
      cases hc : isBlank c with
      | true =>
        rw [collapsed_blank hc] at h
        unfold spaced at h
        split at h <;> cases h
      | false =>
        rw [collapsed_inked hc] at h
        cases h
  · rintro rfl
    rfl

theorem collapsed_trimEnd (cs : List Char) : collapsed (trimEnd cs) = trimEnd (collapsed cs) := by
  induction cs with
  | nil => rfl
  | cons c cs ih =>
    cases hc : isBlank c with
    | true =>
      rw [collapsed_blank hc, trimEnd_spaced, ← ih, trimEnd_cons]
      simp only [hc, and_true, collapsed_eq_nil_iff]
      split
      case isTrue => rfl
      case isFalse => exact collapsed_blank hc _
    | false =>
      have hstays (ds : List Char) : trimEnd (c :: ds) = c :: trimEnd ds := by
        rw [trimEnd_cons, hc]
        simp
      rw [hstays, collapsed_inked hc, collapsed_inked hc, hstays, ih]

theorem collapsed_trimChars_congr (h : collapsed cs = collapsed ds) :
    collapsed (trimChars cs) = collapsed (trimChars ds) := by
  unfold trimChars
  rw [collapsed_trimEnd, collapsed_trimEnd, collapsed_trimStart, collapsed_trimStart, h]

end Collapsing

section Fading
variable {xs ys zs cs ds : List Char}

theorem Faded.append (xs : List Char) (h : Faded cs ds) : Faded (xs ++ cs) (xs ++ ds) := by
  induction xs with
  | nil => exact h
  | cons x xs ih => exact .same x ih

theorem Faded.head? (h : Faded cs ds) :
    ds.head? = cs.head? ∨ cs.head? = some '/' ∧ ds.head? = some ' ' := by
  cases h with
  | nil => exact .inl rfl
  | same c h => exact .inl rfl
  | piece body h => exact .inr ⟨rfl, rfl⟩

/-- What has no slash does not fade. -/
theorem Faded.exists_of_append_left (hslash : '/' ∉ xs) (h : Faded (xs ++ ys) ds) :
    ∃ zs, ds = xs ++ zs ∧ Faded ys zs := by
  induction xs generalizing ds with
  | nil => exact ⟨ds, rfl, h⟩
  | cons x xs ih =>
    obtain ⟨hx, hxs⟩ := not_or.mp (mt List.mem_cons.mpr hslash)
    rw [List.cons_append] at h
    generalize hcs : x :: (xs ++ ys) = cs at h
    cases h with
    | nil => cases hcs
    | same c h =>
      obtain ⟨rfl, rfl⟩ := List.cons.inj hcs
      obtain ⟨zs, rfl, hzs⟩ := ih hxs h
      exact ⟨zs, rfl, hzs⟩
    | piece => exact absurd (List.cons.inj hcs).1.symm hx

/-- What has no space has not been faded. -/
theorem Faded.exists_of_append_right (hspace : ' ' ∉ xs) (h : Faded cs (xs ++ zs)) :
    ∃ ys, cs = xs ++ ys ∧ Faded ys zs := by
  induction xs generalizing cs with
  | nil => exact ⟨cs, rfl, h⟩
  | cons x xs ih =>
    obtain ⟨hx, hxs⟩ := not_or.mp (mt List.mem_cons.mpr hspace)
    rw [List.cons_append] at h
    generalize hds : x :: (xs ++ zs) = ds at h
    cases h with
    | nil => cases hds
    | same c h =>
      obtain ⟨rfl, rfl⟩ := List.cons.inj hds
      obtain ⟨ys, rfl, hys⟩ := ih hxs h
      exact ⟨ys, rfl, hys⟩
    | piece => exact absurd (List.cons.inj hds).1.symm hx

theorem Faded.forall_head? {p : Char → Bool} (hspace : p ' ' = false) (h : Faded cs ds)
    (hcs : ∀ c ∈ cs.head?, p c = false) : ∀ c ∈ ds.head?, p c = false := by
  intro c hc
  rcases h.head? with hhead | ⟨-, hhead⟩
  · exact hcs c (hhead ▸ hc)
  · rw [hhead] at hc
    obtain rfl := Option.some.inj hc
    exact hspace

theorem Faded.forall_head?_of {p : Char → Bool} (hslash : p '/' = false) (h : Faded cs ds)
    (hds : ∀ c ∈ ds.head?, p c = false) : ∀ c ∈ cs.head?, p c = false := by
  intro c hc
  rcases h.head? with hhead | ⟨hhead, -⟩
  · exact hds c (hhead ▸ hc)
  · rw [hhead] at hc
    obtain rfl := Option.some.inj hc
    exact hslash

theorem Faded.startsDirective {name : List Char} (hspace : ' ' ∉ name) (h : Faded cs ds)
    (hds : startsDirective name ds) : startsDirective name cs := by
  obtain ⟨zs, rfl, hzs⟩ := startsDirective_iff.mp hds
  obtain ⟨ys, rfl, hys⟩ := h.exists_of_append_right hspace
  exact startsDirective_iff.mpr ⟨ys, rfl, hys.forall_head?_of (by decide) hzs⟩

theorem Faded.readSymbol?_isSome (h : Faded cs ds) (hcs : (readSymbol? cs).isSome) :
    (readSymbol? ds).isSome := by
  obtain ⟨⟨symbol, ys⟩, hread⟩ := Option.isSome_iff_exists.mp hcs
  obtain ⟨bs, es, hbs, hne, hall, hes, rfl⟩ := readSymbol?_eq_some_iff.mp hread
  have hslash : '/' ∉ bs ++ (symbol ++ (es ++ [':', ':', '='])) := by
    have hbs' : '/' ∉ bs := fun hmem => absurd (hbs _ hmem) (by decide)
    have hes' : '/' ∉ es := fun hmem => absurd (hes _ hmem) (by decide)
    have hsymbol : '/' ∉ symbol := fun hmem => absurd (hall _ hmem) (by decide)
    simp [hbs', hes', hsymbol]
  have hassoc (zs : List Char) : bs ++ (symbol ++ (es ++ ':' :: ':' :: '=' :: zs)) =
      (bs ++ (symbol ++ (es ++ [':', ':', '=']))) ++ zs := by simp
  rw [hassoc] at h
  obtain ⟨zs, rfl, -⟩ := h.exists_of_append_left hslash
  rw [← hassoc, readSymbol?_eq_some_iff.mpr ⟨bs, es, hbs, hne, hall, hes, rfl⟩]
  rfl

theorem closedLength?_eq_none_of_append {closing : Char} (hline : '\n' ∉ xs)
    (h : closedLength? closing (xs ++ ys) = none) : closedLength? closing ys = none := by
  induction xs with
  | nil => exact h
  | cons x xs ih =>
    obtain ⟨hx, hxs⟩ := not_or.mp (mt List.mem_cons.mpr hline)
    have hbreak : ¬(x == '\n') := fun heq => hx (eq_of_beq heq).symm
    rw [List.cons_append, closedLength?, if_neg hbreak] at h
    split at h
    case isTrue => cases h
    case isFalse => exact ih hxs (Option.map_eq_none_iff.mp h)

theorem Faded.closedLength?_eq_none {closing : Char} (hspace : closing ≠ ' ') (hbreak : closing ≠ '\n')
    (h : Faded cs ds) (hcs : closedLength? closing cs = none) : closedLength? closing ds = none := by
  have hskip (zs : List Char) (hzs : closedLength? closing zs = none) :
      closedLength? closing (' ' :: zs) = none := by
    simp [closedLength?, hzs, Ne.symm hspace]
  induction h with
  | nil => exact hcs
  | @same c cs ds h ih =>
    rw [closedLength?] at hcs ⊢
    split at hcs
    case isTrue => cases hcs
    case isFalse hc =>
      rw [if_neg hc]
      split
      case isTrue => rfl
      case isFalse hline =>
        rw [if_neg hline] at hcs
        exact Option.map_eq_none_iff.mpr (ih (Option.map_eq_none_iff.mp hcs))
  | @piece body cs ds h ih =>
    refine hskip _ ?_
    by_cases hline : '\n' ∈ body
    · have hmem : '\n' ∈ body.filter (· == '\n') := List.mem_filter.mpr ⟨hline, rfl⟩
      obtain ⟨c, breaks, hfilter⟩ := List.exists_cons_of_ne_nil (List.ne_nil_of_mem hmem)
      have hc : c ∈ body.filter (· == '\n') := hfilter ▸ List.mem_cons_self
      obtain rfl : c = '\n' := eq_of_beq (List.mem_filter.mp hc).2
      rw [hfilter]
      simp [closedLength?, Ne.symm hbreak]
    · have hfilter : body.filter (· == '\n') = [] := by
        refine List.filter_eq_nil_iff.mpr fun c hc heq => hline ?_
        rwa [← eq_of_beq heq]
      rw [hfilter]
      have hslash : closedLength? closing ('/' :: body ++ cs) = none := hcs
      exact ih (closedLength?_eq_none_of_append (by simpa using hline) hslash)

end Fading

section Lexemes
variable {l : Lexeme} {ls : List Lexeme} {cs rest rest' : List Char}

theorem Lexeme.blanked_of_not_isVoid (h : l.isVoid = false) : l.blanked = l.text := by
  refine if_neg fun hkind => ?_
  simp [Lexeme.isVoid, hkind] at h

theorem Lexeme.hides_iff : l.hides ls ↔
    l.kind = .charClass ∧ (headerLength? (l.text ++ ls.flatMap Lexeme.blanked)).isSome := by
  simp [Lexeme.hides]

theorem text_addBlanks (cs : List Char) (ls : List Lexeme) :
    (addBlanks cs ls).flatMap Lexeme.text = cs ++ ls.flatMap Lexeme.text := by
  unfold addBlanks
  split
  case h_1 => exact List.append_assoc _ _ _
  case h_2 => rfl

theorem text_blankedLexemes (ls : List Lexeme) :
    (blankedLexemes ls).flatMap Lexeme.text = ls.flatMap Lexeme.blanked := by
  induction ls with
  | nil => rfl
  | cons l ls ih =>
    rw [blankedLexemes, List.flatMap_cons]
    split
    case isTrue => rw [text_addBlanks, ih]
    case isFalse hvoid =>
      rw [Lexeme.blanked_of_not_isVoid (Bool.eq_false_iff.mpr hvoid)]
      split
      case isTrue => rw [List.flatMap_cons, ih]
      case isFalse => rw [List.flatMap_cons, ih]

theorem Lexeme.count_blanked (l : Lexeme) : l.blanked.count '\n' = l.text.count '\n' := by
  unfold Lexeme.blanked
  split
  case isTrue =>
    rw [List.count_cons_of_ne (by decide)]
    exact List.count_filter rfl
  case isFalse => rfl

theorem faded_of_scanned (h : Scanned ls) :
    Faded (ls.flatMap Lexeme.text) (ls.flatMap Lexeme.blanked) := by
  induction h with
  | nil => exact .nil
  | @cons l ls hcut _ ih =>
    rw [List.flatMap_cons, List.flatMap_cons]
    by_cases hkind : l.kind = .comment
    · generalize ls.flatMap Lexeme.text = rest at hcut ih ⊢
      cases hcut with
      | @comment body => exact .piece ('*' :: body) ih
      | _ => cases hkind
    · have hblanked : l.blanked = l.text := if_neg hkind
      rw [hblanked]
      exact ih.append l.text

/-- What a void lexeme leaves are blanks. -/
theorem CutOff.blanks_of_isVoid (h : CutOff l rest) (hvoid : l.isVoid) :
    (l.blanked ≠ [] ∧ ∀ c ∈ l.blanked, Text.isBlank c) ∧
      (l.spanText ≠ [] ∧ ∀ c ∈ l.spanText, Text.isBlank c) := by
  cases h with
  | blank hne hall => exact ⟨⟨hne, hall⟩, hne, hall⟩
  | comment =>
    have hspan : ∀ c ∈ [' '], Text.isBlank c := List.forall_mem_singleton.mpr rfl
    refine ⟨⟨List.cons_ne_nil _ _, ?_⟩, List.cons_ne_nil _ _, hspan⟩
    refine List.forall_mem_cons.mpr ⟨by decide, fun c hc => ?_⟩
    obtain rfl := eq_of_beq (List.mem_filter.mp hc).2
    decide
  | _ => cases hvoid

theorem scanned_addBlanks (hne : cs ≠ []) (hall : ∀ c ∈ cs, Text.isBlank c) (h : Scanned ls) :
    Scanned (addBlanks cs ls) := by
  cases h with
  | nil => exact .cons (.blank hne hall nofun) .nil
  | @cons l ls hcut hs =>
    by_cases hkind : l.kind = .blank
    · have hblanks := hcut.isBlank hkind
      have hstops := hcut.not_isBlank_of_isBlank hkind
      obtain ⟨_, ds⟩ := l
      obtain rfl := hkind
      refine .cons (.blank (List.append_ne_nil_of_left_ne_nil hne ds) ?_ hstops) hs
      exact List.forall_mem_append.mpr ⟨hall, hblanks⟩
    · have hadd : addBlanks cs (l :: ls) = ⟨.blank, cs⟩ :: l :: ls := by
        unfold addBlanks
        split
        case h_1 heq =>
          obtain ⟨rfl, -⟩ := List.cons.inj heq
          exact absurd rfl hkind
        case h_2 => rfl
      rw [hadd]
      exact .cons (.blank hne hall (hcut.head_not_isBlank hkind _)) (.cons hcut hs)

/-- Only a class can be cut off in another way when what stands behind it is faded. -/
theorem CutOff.faded (h : CutOff l rest) (hvoid : l.isVoid = false) (hfaded : Faded rest rest')
    (hheader : l.kind = .charClass → headerLength? (l.text ++ rest') = none) : CutOff l rest' := by
  cases h with
  | blank | comment => cases hvoid
  | plain hne hall hrest => exact .plain hne hall (hfaded.forall_head? (by decide) hrest)
  | openComment hopen =>
    cases hfaded
    exact .openComment hopen
  | slash hstar =>
    refine .slash fun hhead => ?_
    rcases hfaded.head? with hsame | ⟨-, hspace⟩
    · exact hstar (hsame ▸ hhead)
    · rw [hspace] at hhead
      cases hhead
  | terminals hword => exact .terminals (hfaded.forall_head? (by decide) hword)
  | pass hword => exact .pass (hfaded.forall_head? (by decide) hword)
  | atSign hterminals hpass =>
    have hsign := hfaded.append ['@']
    refine .atSign (Bool.eq_false_iff.mpr fun hstarts => ?_) (Bool.eq_false_iff.mpr fun hstarts => ?_)
    · have hstarts' := hsign.startsDirective (by decide) hstarts
      exact Bool.eq_false_iff.mp hterminals hstarts'
    · have hstarts' := hsign.startsDirective (by decide) hstarts
      exact Bool.eq_false_iff.mp hpass hstarts'
  | header hne hall hsymbol => exact .header hne hall (hfaded.readSymbol?_isSome hsymbol)
  | charClass hclosing hline =>
    refine .charClass hclosing hline ?_
    simpa using hheader rfl
  | bracket hclosed =>
    exact .bracket (hfaded.closedLength?_eq_none (by decide) (by decide) hclosed)
  | literal hquote hinner hline => exact .literal hquote hinner hline
  | quote hquote hclosed =>
    refine .quote hquote (hfaded.closedLength?_eq_none ?_ ?_ hclosed)
    all_goals rcases hquote with rfl | rfl <;> decide

theorem CutOff.header_of_isSome (h : CutOff l rest) (hkind : l.kind = .charClass)
    (hheader : (headerLength? (l.text ++ rest')).isSome) : CutOff ⟨.header, l.text⟩ rest' := by
  cases h with
  | @charClass inner _ hclosing =>
    obtain ⟨n, hn⟩ := Option.isSome_iff_exists.mp hheader
    obtain ⟨id, behind, hne, hall, heq, hsymbol, -⟩ := headerLength?_eq_some_iff.mp hn
    have hread := readId?_eq_some_iff.mpr ⟨hne, hall, heq⟩
    have htext : '[' :: (inner ++ [']']) ++ rest' = '[' :: (inner ++ ']' :: rest') := by simp
    rw [htext] at hread
    rcases readId?_closed hclosing rest' with hnone | hsome
    · rw [hnone] at hread
      cases hread
    · rw [hsome] at hread
      obtain ⟨rfl, rfl⟩ := Prod.mk.inj (Option.some.inj hread)
      exact .header hne hall hsymbol
  | _ => cases hkind

theorem scanned_blankedLexemes (h : Scanned ls) : Scanned (blankedLexemes ls) := by
  induction h with
  | nil => exact .nil
  | @cons l ls hcut hs ih =>
    have hfaded := faded_of_scanned hs
    have htext := text_blankedLexemes ls
    rw [blankedLexemes]
    split
    case isTrue hvoid =>
      obtain ⟨⟨hne, hall⟩, -⟩ := hcut.blanks_of_isVoid hvoid
      exact scanned_addBlanks hne hall ih
    case isFalse hvoid =>
      split
      case isTrue hhides =>
        obtain ⟨hkind, hheader⟩ := Lexeme.hides_iff.mp hhides
        refine .cons ?_ ih
        rw [htext]
        exact hcut.header_of_isSome hkind hheader
      case isFalse hhides =>
        refine .cons ?_ ih
        rw [htext]
        refine hcut.faded (Bool.eq_false_iff.mpr hvoid) hfaded fun hkind => ?_
        cases hheader : headerLength? (l.text ++ ls.flatMap Lexeme.blanked) with
        | none => rfl
        | some n => exact absurd (Lexeme.hides_iff.mpr ⟨hkind, by rw [hheader]; rfl⟩) hhides

theorem lexemes_blanked (text : List Char) : lexemes (blanked text) = blankedLexemes (lexemes text) := by
  rw [blanked, ← text_blankedLexemes]
  exact lexemes_of_scanned (scanned_blankedLexemes (scanned_lexemes text))

end Lexemes

section Counting
variable {ls : List Lexeme} {p : LexemeKind → Bool}

theorem countP_addBlanks (hblank : p .blank = false) (cs : List Char) (ls : List Lexeme) :
    (addBlanks cs ls).countP (p ·.kind) = ls.countP (p ·.kind) := by
  unfold addBlanks
  split
  case h_1 => simp [hblank]
  case h_2 => simp [hblank]

/-- Each kind has as many lexemes as before, but for the headers that come to light. -/
theorem countP_blankedLexemes (hblank : p .blank = false) (hcomment : p .comment = false)
    (hclass : p .charClass = false) (ls : List Lexeme) : (blankedLexemes ls).countP (p ·.kind) =
      ls.countP (p ·.kind) + if p .header then (hiddenHeaders ls).length else 0 := by
  induction ls with
  | nil => cases p .header <;> rfl
  | cons l ls ih =>
    have hvoidHides (hvoid : l.isVoid) : l.hides ls = false := by
      obtain ⟨kind, cs⟩ := l
      cases kind with
      | charClass => cases hvoid
      | _ => rfl
    rw [blankedLexemes, hiddenHeaders]
    split
    case isTrue hvoid =>
      have hl : p l.kind = false := by
        obtain ⟨kind, cs⟩ := l
        cases kind with
        | blank => exact hblank
        | comment => exact hcomment
        | _ => cases hvoid
      rw [countP_addBlanks hblank, ih, hvoidHides hvoid, List.countP_cons_of_neg]
      · rfl
      · simp [hl]
    case isFalse hvoid =>
      cases hhides : l.hides ls with
      | true =>
        have hl : p l.kind = false := by rw [(Lexeme.hides_iff.mp hhides).1, hclass]
        simp only [if_true, List.countP_cons, ih, hl, List.length_cons]
        cases p .header with
        | true => simp only [if_true, Bool.false_eq_true, if_false]; omega
        | false => rfl
      | false =>
        simp only [Bool.false_eq_true, if_false, List.countP_cons, ih]
        omega

theorem length_snd_cutFrom (n : Nat) (ls : List Lexeme) :
    (cutFrom n ls).2.length = ls.countP Lexeme.starts := by
  induction ls generalizing n with
  | nil => rfl
  | cons l ls ih =>
    cases h : l.starts with
    | true => rw [cutFrom_start h, List.countP_cons_of_pos h, List.length_cons, ih]
    | false =>
      rw [cutFrom_other h, List.countP_cons_of_neg (Bool.eq_false_iff.mp h), ih]

theorem length_passages_blanked (text : List Char) : (passages (blanked text)).length =
    (passages text).length + (hiddenHeaders (lexemes text)).length := by
  have hcount := countP_blankedLexemes (p := fun kind => Lexeme.starts ⟨kind, []⟩) rfl rfl rfl
    (lexemes text)
  rw [passages, passages, length_snd_cutFrom, length_snd_cutFrom, lexemes_blanked]
  exact hcount

theorem exists_openComment_blanked_iff (text : List Char) :
    (∃ l ∈ lexemes (blanked text), l.kind = .openComment) ↔
      ∃ l ∈ lexemes text, l.kind = .openComment := by
  have hcount := countP_blankedLexemes (p := (· == .openComment)) rfl rfl rfl (lexemes text)
  have hpos (ls : List Lexeme) : (∃ l ∈ ls, l.kind = .openComment) ↔
      0 < ls.countP (·.kind == .openComment) := by
    simp [List.countP_pos_iff]
  rw [hpos, hpos, lexemes_blanked, hcount]
  rfl

end Counting

section Spans
variable {text text' : List Char} {ls : List Lexeme} {n n' : Nat}

theorem cutFrom_addBlanks (n : Nat) (cs : List Char) (ls : List Lexeme) :
    (cutFrom n (addBlanks cs ls)).1.flatMap Lexeme.spanText =
        cs ++ (cutFrom (n + cs.length) ls).1.flatMap Lexeme.spanText ∧
      (cutFrom n (addBlanks cs ls)).2 = (cutFrom (n + cs.length) ls).2 := by
  unfold addBlanks
  split
  case h_1 ds ls =>
    rw [cutFrom_other rfl, cutFrom_other rfl, List.length_append, Nat.add_assoc]
    exact ⟨List.append_assoc _ _ _, rfl⟩
  case h_2 =>
    rw [cutFrom_other rfl]
    exact ⟨rfl, rfl⟩

/-- A span is read up to blanks from its start, its line and the rest of its text up to blanks. -/
theorem Passage.collapsed_span_congr {l : Lexeme} {ms ms' : List Lexeme}
    (hline : lineAt text n = lineAt text' n')
    (hbody : collapsed (ms.flatMap Lexeme.spanText) = collapsed (ms'.flatMap Lexeme.spanText)) :
    ((⟨n, l, ms⟩ : Passage).span text).collapsed = ((⟨n', l, ms'⟩ : Passage).span text').collapsed := by
  have htext : collapsed (⟨n, l, ms⟩ : Passage).spanText = collapsed (⟨n', l, ms'⟩ : Passage).spanText := by
    unfold Passage.spanText Passage.isTerminals
    split
    case isTrue => rfl
    case isFalse => exact collapsed_trimChars_congr (collapsed_append_congr l.spanText hbody)
  simp only [Passage.span, Span.collapsed, htext, hline]

theorem collapsed_cutFrom (hs : Scanned ls) (hnone : hiddenHeaders ls = [])
    (hline : lineAt text n = lineAt text' n') (htext : text.drop n = ls.flatMap Lexeme.text)
    (htext' : text'.drop n' = ls.flatMap Lexeme.blanked) :
    collapsed ((cutFrom n ls).1.flatMap Lexeme.spanText) =
        collapsed ((cutFrom n' (blankedLexemes ls)).1.flatMap Lexeme.spanText) ∧
      (cutFrom n ls).2.map (fun p => (p.span text).collapsed) =
        (cutFrom n' (blankedLexemes ls)).2.map (fun p => (p.span text').collapsed) := by
  induction hs generalizing n n' with
  | nil => exact ⟨rfl, rfl⟩
  | @cons l ls hcut _ ih =>
    rw [hiddenHeaders] at hnone
    split at hnone
    case isTrue => cases hnone
    case isFalse hhides =>
      rw [List.flatMap_cons] at htext htext'
      have hnext : lineAt text (n + l.text.length) = lineAt text' (n' + l.blanked.length) := by
        rw [lineAt_add htext, lineAt_add htext', hline, l.count_blanked]
      obtain ⟨hfront, hspans⟩ := ih hnone hnext (drop_add htext) (drop_add htext')
      rw [blankedLexemes]
      split
      case isTrue hvoid =>
        obtain ⟨⟨hne, hall⟩, hne', hall'⟩ := hcut.blanks_of_isVoid hvoid
        obtain ⟨hbody, htail⟩ := cutFrom_addBlanks n' l.blanked (blankedLexemes ls)
        have hstarts : l.starts = false := by
          obtain ⟨kind, cs⟩ := l
          cases kind with
          | blank | comment => rfl
          | _ => cases hvoid
        rw [cutFrom_other hstarts, hbody, htail, List.flatMap_cons, collapsed_blanks hne hall,
          collapsed_blanks hne' hall', hfront]
        exact ⟨rfl, hspans⟩
      case isFalse hvoid =>
        rw [Lexeme.blanked_of_not_isVoid (Bool.eq_false_iff.mpr hvoid)] at hfront hspans
        cases hstarts : l.starts with
        | true =>
          rw [cutFrom_start hstarts, cutFrom_start hstarts, List.map_cons, List.map_cons, hspans,
            Passage.collapsed_span_congr hline hfront]
          exact ⟨rfl, rfl⟩
        | false =>
          rw [cutFrom_other hstarts, cutFrom_other hstarts]
          exact ⟨collapsed_append_congr l.spanText hfront, hspans⟩

theorem collapsedSpans?_of_closed (file : Option String)
    (h : ∀ l ∈ lexemes text, l.kind ≠ .openComment) : collapsedSpans? file text =
      some ((passages text).map fun p => (p.span text).collapsed) := by
  rw [collapsedSpans?, spans?_eq_ok_iff.mpr ⟨h, rfl⟩]
  exact congrArg some List.map_map

theorem collapsedSpans?_of_open (file : Option String)
    (h : ∃ l ∈ lexemes text, l.kind = .openComment) : collapsedSpans? file text = none := by
  cases hspans : spans? file text with
  | error fault => rw [collapsedSpans?, hspans]; rfl
  | ok spans =>
    obtain ⟨l, hl, hkind⟩ := h
    exact absurd hkind ((spans?_eq_ok_iff.mp hspans).1 l hl)

/-- A text has the spans that it has when its comments are blank, up to blanks, if and only if it cannot
be divided or no comment hides the id of a rule. -/
theorem collapsedSpans?_blanked_iff (file : Option String) (text : List Char) :
    collapsedSpans? file (blanked text) = collapsedSpans? file text ↔
      (∃ l ∈ lexemes text, l.kind = .openComment) ∨ hiddenHeaders (lexemes text) = [] := by
  by_cases hopen : ∃ l ∈ lexemes text, l.kind = .openComment
  · have hopen' := (exists_openComment_blanked_iff text).mpr hopen
    rw [collapsedSpans?_of_open file hopen, collapsedSpans?_of_open file hopen']
    exact iff_of_true rfl (.inl hopen)
  · have hclosed (ds : List Char) (h : ¬∃ l ∈ lexemes ds, l.kind = .openComment) :
        ∀ l ∈ lexemes ds, l.kind ≠ .openComment := fun l hl hkind => h ⟨l, hl, hkind⟩
    have hopen' := mt (exists_openComment_blanked_iff text).mp hopen
    rw [collapsedSpans?_of_closed file (hclosed _ hopen),
      collapsedSpans?_of_closed file (hclosed _ hopen'), or_iff_right hopen]
    constructor
    · intro h
      have hlength := congrArg List.length (Option.some.inj h)
      rw [List.length_map, List.length_map, length_passages_blanked] at hlength
      exact List.length_eq_zero_iff.mp (by omega)
    · intro hnone
      have htext : text.drop 0 = (lexemes text).flatMap Lexeme.text := (flatMap_text_lexemes text).symm
      have hblanked : (blanked text).drop 0 = (lexemes text).flatMap Lexeme.blanked := rfl
      have hline : lineAt text 0 = lineAt (blanked text) 0 := rfl
      obtain ⟨-, hspans⟩ := collapsed_cutFrom (scanned_lexemes text) hnone hline htext hblanked
      rw [passages, passages, lexemes_blanked, hspans]

/-- A comment behind an id hides it: there is a rule only when the comment is blank. -/
theorem collapsedSpans?_hiddenId :
    let text := "[1] /* c */ a ::= b".toList
    collapsedSpans? none text = some [] ∧
      collapsedSpans? none (blanked text) = some [⟨"[1] a ::= b".toList, 1⟩] := by
  decide +kernel

end Spans

end FlatGrammar
