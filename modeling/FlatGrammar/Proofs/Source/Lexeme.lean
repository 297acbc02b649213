import FlatGrammar.Proofs.Source.Cutting

/-! # What lexemes are

Each kind of lexeme has its texts, and its own demand on what stands behind it. The lexemes of a text are
the one way to cut it so that every demand is met.
-/
namespace FlatGrammar

/-- A lexeme as it is cut off in front of the rest of a text. -/
inductive CutOff : Lexeme → List Char → Prop
  | blank {cs rest : List Char} (hne : cs ≠ []) (hall : ∀ c ∈ cs, Text.isBlank c)
      (hrest : ∀ c ∈ rest.head?, Text.isBlank c = false) : CutOff ⟨.blank, cs⟩ rest
  | plain {cs rest : List Char} (hne : cs ≠ []) (hall : ∀ c ∈ cs, isPlain c)
      (hrest : ∀ c ∈ rest.head?, isPlain c = false) : CutOff ⟨.text, cs⟩ rest
  | comment {body rest : List Char} (h : commentLength? (body ++ rest) = some body.length) :
      CutOff ⟨.comment, '/' :: '*' :: body⟩ rest
  | openComment {body : List Char} (h : commentLength? body = none) :
      CutOff ⟨.openComment, '/' :: '*' :: body⟩ []
  | slash {rest : List Char} (h : rest.head? ≠ some '*') : CutOff ⟨.text, ['/']⟩ rest
  | terminals {rest : List Char} (h : ∀ c ∈ rest.head?, Text.isWord c = false) :
      CutOff ⟨.terminals, Lexeme.terminalsName⟩ rest
  | pass {rest : List Char} (h : ∀ c ∈ rest.head?, Text.isWord c = false) :
      CutOff ⟨.pass, Lexeme.passName⟩ rest
  | atSign {rest : List Char} (hterminals : startsDirective Lexeme.terminalsName ('@' :: rest) = false)
      (hpass : startsDirective Lexeme.passName ('@' :: rest) = false) : CutOff ⟨.text, ['@']⟩ rest
  | header {id rest : List Char} (hne : id ≠ []) (hall : ∀ c ∈ id, isIdChar c)
      (h : (readSymbol? rest).isSome) : CutOff ⟨.header, '[' :: (id ++ [']'])⟩ rest
  | charClass {inner rest : List Char} (hclosing : ']' ∉ inner) (hline : '\n' ∉ inner)
      (h : headerLength? ('[' :: (inner ++ ']' :: rest)) = none) :
      CutOff ⟨.charClass, '[' :: (inner ++ [']'])⟩ rest
  | bracket {rest : List Char} (h : closedLength? ']' rest = none) : CutOff ⟨.text, ['[']⟩ rest
  | literal {quote : Char} {inner rest : List Char} (hquote : quote = '\'' ∨ quote = '"')
      (h : quote ∉ inner) (hline : '\n' ∉ inner) : CutOff ⟨.literal, quote :: (inner ++ [quote])⟩ rest
  | quote {quote : Char} {rest : List Char} (hquote : quote = '\'' ∨ quote = '"')
      (h : closedLength? quote rest = none) : CutOff ⟨.text, [quote]⟩ rest

/-- A definition as a text spells it: an id in brackets, the symbol between blanks, the sign of definition
and the right-hand side. -/
inductive Definition.Written (d : Definition) : List Char → Prop
  | intro {bs ds : List Char} (hbs : ∀ c ∈ bs, Text.isBlank c) (hds : ∀ c ∈ ds, Text.isBlank c) :
      Written d ('[' :: (d.id ++ ']' :: (bs ++ (d.symbol ++ (ds ++ ':' :: ':' :: '=' :: d.rhs)))))

theorem CutOff.ne_nil {l : Lexeme} {rest : List Char} (h : CutOff l rest) : l.text ≠ [] := by
  cases h with
  | blank hne | plain hne => exact hne
  | _ => exact List.cons_ne_nil _ _

section Lengths
variable {cs rest name : List Char} {n : Nat}

theorem commentLength?_le (h : commentLength? cs = some n) : n ≤ cs.length := by
  induction cs generalizing n with
  | nil => cases h
  | cons c cs ih =>
    unfold commentLength? at h
    split at h
    case h_1 heq => cases heq
    case h_2 heq =>
      obtain ⟨-, rfl⟩ := List.cons.inj heq
      obtain rfl := Option.some.inj h
      simp
    case h_3 heq =>
      obtain ⟨-, rfl⟩ := List.cons.inj heq
      obtain ⟨m, hm, rfl⟩ := Option.map_eq_some_iff.mp h
      exact Nat.succ_le_succ (ih hm)

theorem commentLength?_eq_none_iff : commentLength? cs = none ↔ ¬['*', '/'] <:+: cs := by
  induction cs with
  | nil => exact iff_of_true rfl (by decide)
  | cons c cs ih =>
    rw [List.infix_cons_iff, not_or]
    unfold commentLength?
    split
    case h_1 heq => cases heq
    case h_2 rest heq =>
      rw [heq]
      exact iff_of_false nofun fun h => h.1 (List.prefix_append ['*', '/'] rest)
    case h_3 hstart heq =>
      obtain ⟨rfl, rfl⟩ := List.cons.inj heq
      rw [Option.map_eq_none_iff, ih]
      refine (and_iff_right ?_).symm
      rintro ⟨rest, hrest⟩
      obtain ⟨rfl, rfl⟩ := List.cons.inj hrest
      exact hstart rest rfl rfl

theorem exists_of_closedLength? {closing : Char} (h : closedLength? closing cs = some n) :
    ∃ inner rest, cs = inner ++ closing :: rest ∧ closing ∉ inner ∧ '\n' ∉ inner ∧
      n = inner.length + 1 := by
  induction cs generalizing n with
  | nil => cases h
  | cons c cs ih =>
    unfold closedLength? at h
    split at h
    case isTrue hc =>
      obtain rfl := Option.some.inj h
      obtain rfl := eq_of_beq hc
      exact ⟨[], cs, rfl, List.not_mem_nil, List.not_mem_nil, rfl⟩
    case isFalse hc =>
      split at h
      case isTrue => cases h
      case isFalse hline =>
        obtain ⟨m, hm, rfl⟩ := Option.map_eq_some_iff.mp h
        obtain ⟨inner, rest, rfl, hclosing, hinner, rfl⟩ := ih hm
        refine ⟨c :: inner, rest, rfl, ?_, ?_, rfl⟩
        · exact mt List.mem_cons.mp (not_or.mpr ⟨fun heq => hc (beq_iff_eq.mpr heq.symm), hclosing⟩)
        · exact mt List.mem_cons.mp (not_or.mpr ⟨fun heq => hline (beq_iff_eq.mpr heq.symm), hinner⟩)

theorem startsDirective_iff : startsDirective name cs ↔
    ∃ rest, cs = name ++ rest ∧ ∀ c ∈ rest.head?, Text.isWord c = false := by
  rw [startsDirective, Bool.and_eq_true_iff, List.isPrefixOf_iff_prefix]
  constructor
  · rintro ⟨⟨rest, rfl⟩, hword⟩
    rw [List.drop_left] at hword
    refine ⟨rest, rfl, fun c hc => ?_⟩
    rw [hc] at hword
    simpa using hword
  · rintro ⟨rest, rfl, hrest⟩
    refine ⟨List.prefix_append name rest, ?_⟩
    rw [List.drop_left]
    cases hhead : rest.head? with
    | none => rfl
    | some c => simp [hrest c hhead]

theorem readId?_eq_some_iff {id : List Char} : readId? cs = some (id, rest) ↔
    id ≠ [] ∧ (∀ c ∈ id, isIdChar c) ∧ cs = '[' :: (id ++ ']' :: rest) := by
  constructor
  · intro h
    unfold readId? at h
    split at h
    case h_2 => cases h
    case h_1 cs =>
      split at h
      case h_2 => cases h
      case h_1 c id rest htake hdrop =>
        obtain ⟨rfl, rfl⟩ := Prod.mk.inj (Option.some.inj h)
        refine ⟨List.cons_ne_nil c id, ?_, ?_⟩
        · rw [← htake]
          exact fun c hc => List.mem_takeWhile_imp hc
        · rw [← htake, ← hdrop, List.takeWhile_append_dropWhile]
  · rintro ⟨hne, hall, rfl⟩
    exact readId?_run hall hne rest

theorem readSymbol?_eq_some_iff {symbol : List Char} : readSymbol? cs = some (symbol, rest) ↔
    ∃ bs ds, (∀ c ∈ bs, Text.isBlank c) ∧ symbol ≠ [] ∧ (∀ c ∈ symbol, Text.isWord c) ∧
      (∀ c ∈ ds, Text.isBlank c) ∧ cs = bs ++ (symbol ++ (ds ++ ':' :: ':' :: '=' :: rest)) := by
  constructor
  · intro h
    unfold readSymbol? at h
    extract_lets start at h
    split at h
    case h_2 => cases h
    case h_1 c word rest hsymbol hsign =>
      obtain ⟨rfl, rfl⟩ := Prod.mk.inj (Option.some.inj h)
      refine ⟨cs.takeWhile Text.isBlank, (start.dropWhile Text.isWord).takeWhile Text.isBlank,
        fun c hc => List.mem_takeWhile_imp hc, List.cons_ne_nil c word, ?_,
        fun c hc => List.mem_takeWhile_imp hc, ?_⟩
      · rw [← hsymbol]
        exact fun c hc => List.mem_takeWhile_imp hc
      · rw [← hsign, Text.trimStart, List.takeWhile_append_dropWhile, ← hsymbol,
          List.takeWhile_append_dropWhile]
        exact List.takeWhile_append_dropWhile.symm
  · rintro ⟨bs, ds, hbs, hne, hall, hds, rfl⟩
    obtain ⟨c, word, rfl⟩ := List.exists_cons_of_ne_nil hne
    have hc : Text.isBlank c = false := isBlank_eq_false_of_isWord (hall c List.mem_cons_self)
    have hinked : ∀ d ∈ (c :: word ++ (ds ++ ':' :: ':' :: '=' :: rest)).head?,
        Text.isBlank d = false := by
      refine forall_head?_cons ?_ _
      exact hc
    have hstart : Text.trimStart (bs ++ (c :: word ++ (ds ++ ':' :: ':' :: '=' :: rest))) =
        c :: word ++ (ds ++ ':' :: ':' :: '=' :: rest) := (takeWhile_run hbs hinked).2
    have hstop : ∀ d ∈ (ds ++ ':' :: ':' :: '=' :: rest).head?, Text.isWord d = false := by
      intro d hd
      cases hword : Text.isWord d with
      | false => rfl
      | true =>
        have hblank := isBlank_eq_false_of_isWord hword
        cases ds with
        | nil =>
          obtain rfl := Option.some.inj hd
          exact absurd hword (by decide)
        | cons b ds =>
          obtain rfl := Option.some.inj hd
          rw [hds b List.mem_cons_self] at hblank
          cases hblank
    obtain ⟨htake, hdrop⟩ := takeWhile_run hall hstop
    have hsign : Text.trimStart (ds ++ ':' :: ':' :: '=' :: rest) = ':' :: ':' :: '=' :: rest :=
      (takeWhile_run hds (forall_head?_cons (by decide) _)).2
    unfold readSymbol?
    simp only [hstart, htake, hdrop, hsign]

/-- Splitting finds a definition if and only if the text is written like one. -/
theorem split?_eq_some_iff {d : Definition} : Definition.split? cs = some d ↔
    d.id ≠ [] ∧ (∀ c ∈ d.id, isIdChar c) ∧ d.symbol ≠ [] ∧ (∀ c ∈ d.symbol, Text.isWord c) ∧
      d.Written cs := by
  constructor
  · intro h
    unfold Definition.split? at h
    split at h
    case h_1 => cases h
    case h_2 id rest hid =>
      split at h
      case h_1 => cases h
      case h_2 symbol rhs hsymbol =>
        obtain rfl := Option.some.inj h
        obtain ⟨hne, hall, rfl⟩ := readId?_eq_some_iff.mp hid
        obtain ⟨bs, ds, hbs, hsymbolne, hword, hds, rfl⟩ := readSymbol?_eq_some_iff.mp hsymbol
        exact ⟨hne, hall, hsymbolne, hword, .intro hbs hds⟩
  · rintro ⟨hne, hall, hsymbolne, hword, @⟨bs, ds, hbs, hds⟩⟩
    have hsymbol : readSymbol? (bs ++ (d.symbol ++ (ds ++ ':' :: ':' :: '=' :: d.rhs))) =
        some (d.symbol, d.rhs) :=
      readSymbol?_eq_some_iff.mpr ⟨bs, ds, hbs, hsymbolne, hword, hds, rfl⟩
    unfold Definition.split?
    rw [readId?_run hall hne]
    simp only [hsymbol]

theorem headerLength?_eq_some_iff : headerLength? cs = some n ↔
    ∃ id rest, id ≠ [] ∧ (∀ c ∈ id, isIdChar c) ∧ cs = '[' :: (id ++ ']' :: rest) ∧
      (readSymbol? rest).isSome ∧ n = id.length + 2 := by
  unfold headerLength?
  constructor
  · intro h
    split at h
    case h_2 => cases h
    case h_1 id rest hid =>
      obtain ⟨hne, hall, hcs⟩ := readId?_eq_some_iff.mp hid
      split at h
      case isFalse => cases h
      case isTrue hsymbol => exact ⟨id, rest, hne, hall, hcs, hsymbol, (Option.some.inj h).symm⟩
  · rintro ⟨id, rest, hne, hall, rfl, hsymbol, rfl⟩
    simp only [readId?_run hall hne rest, hsymbol]
    rfl

end Lengths

section Scanning
variable {c : Char} {cs rest : List Char} {l : Lexeme} {ls : List Lexeme}

/-- The character that a lexeme starts with decides what kinds it may be of. -/
theorem start_cases (c : Char) : Text.isBlank c ∨ isPlain c ∨ c = '/' ∨ c = '@' ∨ c = '[' ∨
    c = '\'' ∨ c = '"' := by
  unfold isPlain
  by_cases hblank : Text.isBlank c
  · exact .inl hblank
  · simp only [hblank, Bool.false_or, Bool.not_eq_true', Bool.or_eq_false_iff, beq_eq_false_iff_ne]
    tauto

/-- A run of characters is cut off as a whole. -/
theorem exists_run (p : Char → Bool) (hc : p c) (cs : List Char) : ∃ ds rest, c :: cs = ds ++ rest ∧
    ds.length = 1 + (cs.takeWhile p).length ∧ ds ≠ [] ∧ (∀ d ∈ ds, p d) ∧
      ∀ d ∈ rest.head?, p d = false := by
  refine ⟨c :: cs.takeWhile p, cs.dropWhile p, ?_, ?_, List.cons_ne_nil _ _, ?_, ?_⟩
  · rw [List.cons_append, List.takeWhile_append_dropWhile]
  · rw [List.length_cons, Nat.add_comm]
  · exact List.forall_mem_cons.mpr ⟨hc, fun d hd => List.mem_takeWhile_imp hd⟩
  · intro d hd
    have hstop := List.head?_dropWhile_not p cs
    rw [Option.mem_def.mp hd] at hstop
    simpa using hstop

theorem exists_cutOff (c : Char) (cs : List Char) : ∃ text rest, c :: cs = text ++ rest ∧
    text.length = (Lexeme.measure c cs).2 ∧ CutOff ⟨(Lexeme.measure c cs).1, text⟩ rest := by
  rcases start_cases c with hblank | hplain | rfl | rfl | rfl | hquote
  · obtain ⟨text, rest, heq, hlength, hne, hall, hrest⟩ := exists_run Text.isBlank hblank cs
    rw [measure_blank hblank]
    exact ⟨text, rest, heq, hlength, .blank hne hall hrest⟩
  · obtain ⟨text, rest, heq, hlength, hne, hall, hrest⟩ := exists_run isPlain hplain cs
    rw [measure_plain hplain]
    exact ⟨text, rest, heq, hlength, .plain hne hall hrest⟩
  · rw [measure_slash]
    split
    case h_1 body =>
      cases hcomment : commentLength? body with
      | some n =>
        have hle := commentLength?_le hcomment
        have hlength : (body.take n).length = n := List.length_take_of_le hle
        refine ⟨'/' :: '*' :: body.take n, body.drop n, ?_, ?_, .comment ?_⟩
        · simp
        · simp [hlength]
        · rw [List.take_append_drop, hcomment, hlength]
      | none => exact ⟨_, [], (List.append_nil _).symm, rfl, .openComment hcomment⟩
    case h_2 hstar =>
      refine ⟨['/'], cs, rfl, rfl, .slash fun hhead => ?_⟩
      obtain ⟨ds, rfl⟩ := List.head?_eq_some_iff.mp hhead
      exact hstar ds rfl
  · rw [measure_at]
    split
    case isTrue hterminals =>
      obtain ⟨rest, heq, hrest⟩ := startsDirective_iff.mp hterminals
      exact ⟨_, rest, heq, rfl, .terminals hrest⟩
    case isFalse hterminals =>
      split
      case isTrue hpass =>
        obtain ⟨rest, heq, hrest⟩ := startsDirective_iff.mp hpass
        exact ⟨_, rest, heq, rfl, .pass hrest⟩
      case isFalse hpass =>
        exact ⟨['@'], cs, rfl, rfl, .atSign (Bool.eq_false_iff.mpr hterminals)
          (Bool.eq_false_iff.mpr hpass)⟩
  · rw [measure_bracket]
    split
    case h_1 n _ hheader =>
      obtain ⟨id, rest, hne, hall, heq, hsymbol, rfl⟩ := headerLength?_eq_some_iff.mp hheader
      refine ⟨'[' :: (id ++ [']']), rest, ?_, ?_, .header hne hall hsymbol⟩
      · simp [heq]
      · simp
    case h_2 n hheader hclosed =>
      obtain ⟨inner, rest, rfl, hclosing, hline, rfl⟩ := exists_of_closedLength? hclosed
      refine ⟨'[' :: (inner ++ [']']), rest, ?_, ?_, .charClass hclosing hline hheader⟩
      · simp
      · simp
    case h_3 hheader hclosed => exact ⟨['['], cs, rfl, rfl, .bracket hclosed⟩
  · rw [measure_quote hquote]
    split
    case h_1 n hclosed =>
      obtain ⟨inner, rest, rfl, hclosing, hline, rfl⟩ := exists_of_closedLength? hclosed
      refine ⟨c :: (inner ++ [c]), rest, ?_, ?_, .literal hquote hclosing hline⟩
      · simp
      · simp
    case h_2 hclosed => exact ⟨[c], cs, rfl, rfl, .quote hquote hclosed⟩

/-- The first lexeme of a text is cut off in front of the others. -/
theorem scan_cons (c : Char) (cs : List Char) : ∃ l rest, c :: cs = l.text ++ rest ∧ CutOff l rest ∧
    Lexeme.scan 0 (c :: cs) = l :: Lexeme.scan 0 rest := by
  obtain ⟨text, rest, heq, hlength, hcut⟩ := exists_cutOff c cs
  refine ⟨_, rest, heq, hcut, ?_⟩
  have htake : (c :: cs).take (Lexeme.measure c cs).2 = text := by
    rw [heq, ← hlength, List.take_left]
  have hdrop : cs.drop ((Lexeme.measure c cs).2 - 1) = rest := by
    have hone := Lexeme.one_le_measure c cs
    have hcons : (c :: cs).drop (Lexeme.measure c cs).2 = rest := by
      rw [heq, ← hlength, List.drop_left]
    obtain ⟨n, hn⟩ : ∃ n, (Lexeme.measure c cs).2 = n + 1 := ⟨_, (Nat.sub_add_cancel hone).symm⟩
    rw [hn] at hcons ⊢
    exact hcons
  have hscan : Lexeme.scan 0 (c :: cs) =
      ⟨(Lexeme.measure c cs).1, (c :: cs).take (Lexeme.measure c cs).2⟩ ::
        Lexeme.scan ((Lexeme.measure c cs).2 - 1) cs := rfl
  rw [hscan, scan_eq_drop, hdrop, htake]

theorem headerLength?_eq_none_of_open (h : closedLength? ']' cs = none) :
    headerLength? ('[' :: cs) = none := by
  cases hheader : headerLength? ('[' :: cs) with
  | none => rfl
  | some n =>
    obtain ⟨id, rest, -, hall, heq, -, -⟩ := headerLength?_eq_some_iff.mp hheader
    obtain rfl := (List.cons.inj heq).2
    have hclosing : ']' ∉ id := fun hmem => absurd (hall _ hmem) (by decide)
    have hline : '\n' ∉ id := fun hmem => absurd (hall _ hmem) (by decide)
    rw [closedLength?_append hclosing hline] at h
    cases h

theorem scan_of_cutOff (h : CutOff l rest) :
    Lexeme.scan 0 (l.text ++ rest) = l :: Lexeme.scan 0 rest := by
  cases h with
  | blank hne hall hrest => exact (quiet_blanks hall hne hrest).scan
  | plain hne hall hrest => exact (quiet_plain hall hne hrest).scan
  | @comment body rest hcomment =>
    refine scan_of_measure ?_
    rw [measure_slash, List.cons_append]
    simp only [hcomment]
    rfl
  | @openComment body hcomment =>
    refine scan_of_measure ?_
    rw [measure_slash, List.append_nil]
    simp only [hcomment]
    rfl
  | slash hstar =>
    refine scan_of_measure ?_
    rw [measure_slash, List.nil_append]
    split
    case h_1 => exact absurd rfl hstar
    case h_2 => rfl
  | terminals hword =>
    have hmeasure : Lexeme.measure '@' (['t', 'e', 'r', 'm', 'i', 'n', 'a', 'l', 's'] ++ rest) =
        (.terminals, 10) := by
      rw [measure_at]
      exact if_pos (startsDirective_iff.mpr ⟨rest, rfl, hword⟩)
    exact scan_of_measure hmeasure
  | pass hword =>
    have hother : startsDirective Lexeme.terminalsName (Lexeme.passName ++ rest) = false := rfl
    have hmeasure : Lexeme.measure '@' (['p', 'a', 's', 's'] ++ rest) = (.pass, 5) := by
      rw [measure_at]
      refine (if_neg (Bool.eq_false_iff.mp hother)).trans (if_pos ?_)
      exact startsDirective_iff.mpr ⟨rest, rfl, hword⟩
    exact scan_of_measure hmeasure
  | atSign hterminals hpass =>
    refine scan_of_measure ?_
    rw [measure_at, List.nil_append, hterminals, hpass]
    rfl
  | @header id _ hne hall hsymbol =>
    have hheader : headerLength? ('[' :: (id ++ ']' :: rest)) = some (id.length + 2) :=
      headerLength?_eq_some_iff.mpr ⟨id, rest, hne, hall, rfl, hsymbol, rfl⟩
    refine scan_of_measure ?_
    rw [measure_bracket, List.append_assoc, List.singleton_append, hheader, List.length_append]
    rfl
  | charClass hclosing hline hheader =>
    refine scan_of_measure ?_
    rw [measure_bracket, List.append_assoc, List.singleton_append, hheader,
      closedLength?_append hclosing hline, List.length_append, List.length_singleton]
  | bracket hclosed =>
    refine scan_of_measure ?_
    rw [measure_bracket, List.nil_append, headerLength?_eq_none_of_open hclosed, hclosed]
    rfl
  | literal hquote hclosing hline => exact (quiet_quoted hquote hclosing hline rest).scan
  | quote hquote hclosed =>
    refine scan_of_measure ?_
    rw [measure_quote hquote, List.nil_append]
    simp only [hclosed]
    rfl

/-- Lexemes, each cut off in front of those behind it. -/
inductive Scanned : List Lexeme → Prop
  | nil : Scanned []
  | cons {l : Lexeme} {ls : List Lexeme} (h : CutOff l (ls.flatMap Lexeme.text)) (hs : Scanned ls) :
      Scanned (l :: ls)

theorem scanned_lexemes (text : List Char) : Scanned (lexemes text) := by
  induction hn : text.length using Nat.strongRecOn generalizing text with
  | _ n ih =>
    subst hn
    cases text with
    | nil => exact .nil
    | cons c cs =>
      obtain ⟨l, rest, heq, hcut, hscan⟩ := scan_cons c cs
      have hrest : (Lexeme.scan 0 rest).flatMap Lexeme.text = rest := flatMap_text_lexemes rest
      have hlt : rest.length < (c :: cs).length := by
        have hne := List.length_pos_of_ne_nil hcut.ne_nil
        rw [heq, List.length_append]
        omega
      rw [lexemes, hscan]
      exact .cons (by rwa [hrest]) (ih _ hlt rest rfl)

theorem lexemes_of_scanned (h : Scanned ls) : lexemes (ls.flatMap Lexeme.text) = ls := by
  induction h with
  | nil => rfl
  | cons hcut _ ih =>
    rw [List.flatMap_cons, lexemes, scan_of_cutOff hcut]
    exact congrArg _ ih

theorem Scanned.exists_cutOff (h : Scanned ls) (hl : l ∈ ls) : ∃ rest, CutOff l rest := by
  induction h with
  | nil => cases hl
  | cons hcut _ ih =>
    rcases List.mem_cons.mp hl with rfl | hl
    · exact ⟨_, hcut⟩
    · exact ih hl

theorem Scanned.eq_nil (h : Scanned ls) (htext : ls.flatMap Lexeme.text = []) : ls = [] := by
  rw [← lexemes_of_scanned h, htext]
  rfl

theorem CutOff.rest_eq_nil (h : CutOff l rest) (hkind : l.kind = .openComment) : rest = [] := by
  cases h with
  | openComment => rfl
  | _ => cases hkind

theorem CutOff.isBlank (h : CutOff l rest) (hkind : l.kind = .blank) : ∀ c ∈ l.text, Text.isBlank c := by
  cases h with
  | blank _ hall => exact hall
  | _ => cases hkind

theorem CutOff.head_not_isBlank (h : CutOff l rest) (hkind : l.kind ≠ .blank) (cs : List Char) :
    ∀ c ∈ (l.text ++ cs).head?, Text.isBlank c = false := by
  cases h with
  | blank => exact absurd rfl hkind
  | @plain ds _ hne hall =>
    obtain ⟨d, ds, rfl⟩ := List.exists_cons_of_ne_nil hne
    refine forall_head?_cons ?_ _
    exact not_isBlank_of_isPlain (hall d List.mem_cons_self)
  | literal hquote | quote hquote =>
    refine forall_head?_cons ?_ _
    rcases hquote with rfl | rfl
    all_goals decide
  | _ =>
    refine forall_head?_cons ?_ _
    decide

theorem CutOff.not_isBlank_of_isBlank (h : CutOff l rest) (hkind : l.kind = .blank) :
    ∀ c ∈ rest.head?, Text.isBlank c = false := by
  cases h with
  | blank _ _ hrest => exact hrest
  | _ => cases hkind

theorem CutOff.text_of_terminals (h : CutOff l rest) (hkind : l.kind = .terminals) :
    l.text = Lexeme.terminalsName := by
  cases h with
  | terminals => rfl
  | _ => cases hkind

theorem CutOff.text_of_pass (h : CutOff l rest) (hkind : l.kind = .pass) : l.text = Lexeme.passName := by
  cases h with
  | pass => rfl
  | _ => cases hkind

end Scanning

end FlatGrammar
