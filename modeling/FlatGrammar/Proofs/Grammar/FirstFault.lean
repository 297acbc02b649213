import FlatGrammar.Proofs.Grammar.QuotedText
import FlatGrammar.Proofs.Text.Legible

/-! # The first fault

Loading reads each span as soon as it is complete, while the rest of the text is still to be divided. So
the first faulty span in the text decides what is reported, before a comment without an end behind it, and
ids are compared last. What a span declares does not depend on the spans in front of it, apart from a pass
directive, which may be the second: the faults of a text are told from its declarations alone.
-/
namespace FlatGrammar

/-- The spans that a text gives until it ends or a comment in it has no end. -/
def completeSpans (text : List Char) : List Span := (items text).filterMap Item.span?

/-- What a span declares wherever it stands, `none` for the directive that starts the terminals. -/
def Span.declares? (s : Span) : Option Declaration :=
  if s.isTerminals then none
  else if s.isPass then some ⟨none, passId, s.passExpression⟩
  else (Definition.split? s.text).map fun d =>
    ⟨some (String.ofList d.symbol), String.ofList d.id, d.rhs⟩

/-- A declaration and the span that makes it. -/
structure Declared extends Declaration where
  span : Span
  deriving DecidableEq, Repr

namespace Declared
variable (file : Option String)

def isPass (d : Declared) : Bool := d.span.isPass

def location (d : Declared) : Location := d.span.location file

/-- The fault of a declaration behind others. A second pass directive is one whatever its expression. -/
inductive Faulty (before : List Declared) (d : Declared) : Fault → Prop
  | repeatedPass {first : Declared} (hd : d.isPass) (hfirst : before.find? isPass = some first) :
      Faulty before d (.repeatedPass (d.location file) (first.location file))
  | unreadable {m : Misreading} (hd : d.isPass → ∀ e ∈ before, e.isPass = false)
      (hm : Expr.parse? d.rhs = .error m) : Faulty before d (.unreadable (d.location file) m)

end Declared

def declared (spans : List Span) : List Declared :=
  spans.filterMap fun s => s.declares?.map fun d => ⟨d, s⟩

/-- No declaration is faulty. -/
structure AllSound (ds : List Declared) : Prop where
  readable : ∀ d ∈ ds, ∃ e, Expr.parse? d.rhs = .ok e
  onePass : ds.countP Declared.isPass ≤ 1

/-- A comment that nothing ends, with the line it starts on, and all the text from there on. -/
inductive OpenComment (text : List Char) : Nat → List Char → Prop
  | intro {front : List Lexeme} {body : List Char}
      (hlexemes : lexemes text = front ++ [⟨.openComment, '/' :: '*' :: body⟩])
      (hbody : ¬['*', '/'] <:+: body) :
      OpenComment text (lineAt text (front.flatMap Lexeme.text).length) ('/' :: '*' :: body)

/-- The fault that is reported for a text. -/
inductive FirstFault (file : Option String) (text : List Char) : Fault → Prop
  | declared {before after : List Declared} {d : Declared} {fault : Fault}
      (hds : declared (completeSpans text) = before ++ d :: after) (hbefore : AllSound before)
      (hd : d.Faulty file before fault) : FirstFault file text fault
  | openComment {line : Nat} {rest : List Char} (hds : AllSound (declared (completeSpans text)))
      (hopen : OpenComment text line rest) :
      FirstFault file text (.unreadable ⟨file, some line⟩ ⟨.openComment, rest⟩)
  | repeatedId {before after : List Declared} {first d : Declared}
      (hsound : AllSound (declared (completeSpans text)))
      (hclosed : ∀ line rest, ¬OpenComment text line rest)
      (hds : declared (completeSpans text) = before ++ d :: after)
      (hbefore : (before.map (·.id)).Nodup) (hfirst : first ∈ before) (hid : first.id = d.id) :
      FirstFault file text (.repeatedId (d.location file) d.id first.symbol)

/-- A text that has none of the faults. -/
structure Faultless (text : List Char) : Prop where
  sound : AllSound (declared (completeSpans text))
  closed : ∀ line rest, ¬OpenComment text line rest
  ids : ((declared (completeSpans text)).map (·.id)).Nodup

section Spans
variable {front rest : List Char} {l : Lexeme} {ls : List Lexeme} {s : Span}

theorem CutOff.spanText_of_head {c : Char} (h : CutOff l rest) (hhead : l.text.head? = some c)
    (hc : Text.isBlank c ∨ isPlain c) : l.starts = false ∧ l.spanText = l.text := by
  have hno {d : Char} (hd : some d = some c) (hblank : Text.isBlank d = false)
      (hplain : isPlain d = false) : False := by
    obtain rfl := Option.some.inj hd
    simp [hblank, hplain] at hc
  cases h with
  | comment | openComment | terminals | pass | header => exact (hno hhead rfl rfl).elim
  | _ => exact ⟨rfl, rfl⟩

/-- Runs of blanks and plain text start nothing, and no comment is inside. -/
theorem exists_spanText_append (hls : Scanned ls) (hfront : ∀ c ∈ front, Text.isBlank c ∨ isPlain c)
    (h : ls.flatMap Lexeme.text = front ++ rest) :
    ∃ rest', (ls.takeWhile (!·.starts)).flatMap Lexeme.spanText = front ++ rest' := by
  induction hls generalizing front with
  | nil =>
    obtain ⟨rfl, -⟩ := List.append_eq_nil_iff.mp h.symm
    exact ⟨[], rfl⟩
  | @cons l ls hcut hls ih =>
    cases front with
    | nil => exact ⟨_, rfl⟩
    | cons c front =>
      have hhead : l.text.head? = some c := by
        obtain ⟨d, ds, hl⟩ := List.exists_cons_of_ne_nil hcut.ne_nil
        rw [List.flatMap_cons, hl] at h
        rw [hl, (List.cons.inj h).1]
        rfl
      obtain ⟨hstarts, htext⟩ := hcut.spanText_of_head hhead (hfront c List.mem_cons_self)
      rw [List.takeWhile_cons_of_pos (by simp [hstarts]), List.flatMap_cons, htext]
      rw [List.flatMap_cons] at h
      obtain ⟨front', hfront', hrest⟩ | ⟨rest', hl, -⟩ := List.append_eq_append_iff.mp h
      · rw [hfront'] at hfront ⊢
        obtain ⟨rest', hbody⟩ := ih (List.forall_mem_append.mp hfront).2 hrest
        exact ⟨rest', by rw [hbody, List.append_assoc]⟩
      · exact ⟨rest' ++ _, by rw [hl, List.append_assoc]⟩

theorem isBlank_or_isPlain_of_definition {bs symbol ds : List Char} (hbs : ∀ c ∈ bs, Text.isBlank c)
    (hsymbol : ∀ c ∈ symbol, Text.isWord c) (hds : ∀ c ∈ ds, Text.isBlank c) :
    ∀ c ∈ bs ++ (symbol ++ (ds ++ [':', ':', '='])), Text.isBlank c ∨ isPlain c := by
  have hcolon : isPlain ':' := by decide
  have hequals : isPlain '=' := by decide
  simp only [List.forall_mem_append]
  exact ⟨fun c hc => .inl (hbs c hc), fun c hc => .inr (isPlain_of_isWord (hsymbol c hc)),
    fun c hc => .inl (hds c hc), by simp [hcolon, hequals]⟩

/-- A lexeme that starts a rule is seen to do so in the span too, and with its id. -/
theorem Passage.Stands.exists_split? {p : Passage} (hp : p.Stands ls) (hkind : p.start.kind = .header) :
    ∃ d, Definition.split? p.spanText = some d ∧ p.start.text = '[' :: (d.id ++ [']']) := by
  have hcut := hp.cutOff
  rw [spanText_of_start hcut (by simp [hkind]), hp.body]
  generalize p.start = start at hcut hkind
  generalize htext : ls.flatMap Lexeme.text = text at hcut
  cases hcut with
  | @header id _ hne hid hsymbol =>
    obtain ⟨⟨symbol, rhs⟩, hread⟩ := Option.isSome_iff_exists.mp hsymbol
    obtain ⟨bs, ds, hbs, hsymbol, hword, hds, htext'⟩ := readSymbol?_eq_some_iff.mp hread
    have hfront : text = (bs ++ (symbol ++ (ds ++ [':', ':', '=']))) ++ rhs := by simp [htext']
    obtain ⟨rest, hspan⟩ := exists_spanText_append hp.scanned
      (isBlank_or_isPlain_of_definition hbs hword hds) (htext.trans hfront)
    have hinked : EndsInked (bs ++ (symbol ++ (ds ++ [':', ':', '=']))) :=
      ⟨bs ++ (symbol ++ (ds ++ [':', ':'])), '=', by simp, by decide⟩
    let d : Definition := ⟨id, symbol, Text.trimEnd rest⟩
    have hwritten : d.Written
        ('[' :: (id ++ ']' :: (bs ++ (symbol ++ (ds ++ ':' :: ':' :: '=' :: Text.trimEnd rest))))) :=
      .intro hbs hds
    refine ⟨d, split?_eq_some_iff.mpr ⟨hne, hid, hsymbol, hword, ?_⟩, rfl⟩
    rw [hspan, hinked.trimEnd_append]
    simpa using hwritten
  | _ => cases hkind

theorem Passage.Stands.isPass {p : Passage} (hp : p.Stands ls) (hkind : p.start.kind = .pass) :
    Lexeme.passName <+: p.spanText := by
  rw [spanText_of_start hp.cutOff (by simp [hkind]), hp.cutOff.text_of_pass hkind]
  exact List.prefix_append _ _

theorem Passage.Stands.isTerminals {p : Passage} (hp : p.Stands ls)
    (hkind : p.start.kind = .terminals) : p.spanText = Lexeme.terminalsName := by
  have htext : p.spanText = p.start.text := if_pos (beq_iff_eq.mpr hkind)
  rw [htext, hp.cutOff.text_of_terminals hkind]

/-- A start with what is behind it is a span that declares something, or one that starts the terminals. -/
theorem Passage.Stands.declares? {p : Passage} (hp : p.Stands ls)
    (hkind : p.start.kind ∈ [.header, .pass, .terminals]) (text : List Char) :
    (p.span text).isTerminals ∨ (p.span text).declares?.isSome := by
  have hdeclares (h : (p.span text).isPass ∨ (Definition.split? p.spanText).isSome) :
      (p.span text).isTerminals ∨ (p.span text).declares?.isSome := by
    by_cases hterminals : (p.span text).isTerminals
    · exact .inl hterminals
    · refine .inr ?_
      rw [Span.declares?, if_neg hterminals]
      by_cases hpass : (p.span text).isPass
      · rw [if_pos hpass]
        rfl
      · rw [if_neg hpass, Option.isSome_map]
        exact h.resolve_left hpass
  simp only [List.mem_cons, List.not_mem_nil, or_false] at hkind
  rcases hkind with hheader | hpass | hterminals
  · obtain ⟨d, hsplit, -⟩ := hp.exists_split? hheader
    exact hdeclares (.inr (hsplit ▸ rfl))
  · exact hdeclares (.inl (List.isPrefixOf_iff_prefix.mpr (hp.isPass hpass)))
  · exact .inl (beq_iff_eq.mpr (hp.isTerminals hterminals))

theorem declares?_of_mem_items {text : List Char} (hs : .span s ∈ items text) :
    s.isTerminals ∨ s.declares?.isSome := by
  obtain ⟨p, -, rfl, hkind, -, ls, hp⟩ := exists_passage_of_mem_items hs
  exact hp.declares? hkind text

end Spans

/-- What of a rule is told by its declaration. -/
def Declared.heading (file : Option String) (d : Declared) : String × Option String × Option Location :=
  (d.id, d.symbol, some (d.location file))

def Rule.heading (r : Rule) : String × Option String × Option Location := (r.id, r.symbol, r.location)

/-- What the rules of items are read to, behind declarations that have been seen. -/
inductive Reading (file : Option String) (seen : List Declared) (its : List Item) :
    Except Fault (List Rule) → Prop
  | ok {rules : List Rule}
      (hrules : rules.map Rule.heading =
        (declared (its.filterMap Item.span?)).map (Declared.heading file))
      (hsound : AllSound (seen ++ declared (its.filterMap Item.span?)))
      (hclosed : ∀ line rest, .openComment line rest ∉ its) : Reading file seen its (.ok rules)
  | openComment {before after : List Item} {line : Nat} {rest : List Char}
      (hits : its = before ++ .openComment line rest :: after)
      (hsound : AllSound (seen ++ declared (before.filterMap Item.span?))) :
      Reading file seen its (.error (.unreadable ⟨file, some line⟩ ⟨.openComment, rest⟩))
  | faulty {before after : List Declared} {d : Declared} {fault : Fault}
      (hds : declared (its.filterMap Item.span?) = before ++ d :: after)
      (hsound : AllSound (seen ++ before)) (hd : d.Faulty file (seen ++ before) fault) :
      Reading file seen its (.error fault)

section Declarations
variable {spans : List Span} {s : Span} {d : Declaration} {before after : List Declared}
  {e : Declared} {fault : Fault} {file : Option String}

theorem declared_cons (s : Span) (spans : List Span) : declared (s :: spans) =
    (s.declares?.map fun d => (⟨d, s⟩ : Declared)).toList ++ declared spans := by
  unfold declared
  rw [List.filterMap_cons]
  cases s.declares? with
  | none => rfl
  | some d => rfl

theorem AllSound.not_faulty (h : AllSound (before ++ e :: after)) : ¬e.Faulty file before fault := by
  intro hfault
  cases hfault with
  | repeatedPass he hfirst =>
    have hone := h.onePass
    have hbefore : 0 < before.countP Declared.isPass :=
      List.countP_pos_iff.mpr ⟨_, List.mem_of_find?_eq_some hfirst, List.find?_some hfirst⟩
    rw [List.countP_append, List.countP_cons_of_pos he] at hone
    omega
  | unreadable _ hm =>
    obtain ⟨x, hx⟩ := h.readable e (List.mem_append_right before List.mem_cons_self)
    rw [hx] at hm
    cases hm

theorem Declared.Faulty.eq {fault' : Fault} (h : e.Faulty file before fault)
    (h' : e.Faulty file before fault') : fault = fault' := by
  cases h with
  | repeatedPass he hfirst =>
    cases h' with
    | repeatedPass _ hfirst' =>
      obtain rfl := Option.some.inj (hfirst.symm.trans hfirst')
      rfl
    | unreadable he' =>
      have hnone := he' he _ (List.mem_of_find?_eq_some hfirst)
      rw [List.find?_some hfirst] at hnone
      cases hnone
  | unreadable he hm =>
    cases h' with
    | repeatedPass he' hfirst =>
      have hnone := he he' _ (List.mem_of_find?_eq_some hfirst)
      rw [List.find?_some hfirst] at hnone
      cases hnone
    | unreadable _ hm' =>
      obtain rfl := Except.error.inj (hm.symm.trans hm')
      rfl

end Declarations

section Runs
variable {file : Option String} {seen : List Declared} {item : Item} {its : List Item}
  {result : Except Fault (List Rule)} {p : Progress} {s : Span} {d : Declaration}

theorem declared_filterMap_cons (item : Item) (its : List Item) :
    declared ((item :: its).filterMap Item.span?) =
      declared item.span?.toList ++ declared (its.filterMap Item.span?) := by
  rw [List.filterMap_cons]
  cases item.span? with
  | none => rfl
  | some s =>
    rw [Option.toList_some, declared_cons, declared_cons]
    exact congrArg (· ++ _) (List.append_nil _).symm

theorem declared_filterMap_span_cons (hs : s.declares? = some d) (its : List Item) :
    declared ((.span s :: its).filterMap Item.span?) =
      ⟨d, s⟩ :: declared (its.filterMap Item.span?) := by
  rw [declared_filterMap_cons, Item.span?, Option.toList_some, declared_cons, hs]
  rfl

/-- An item that declares nothing changes nothing. -/
theorem Reading.skip (h : Reading file seen its result) (hitem : declared item.span?.toList = [])
    (hclosed : ∀ line rest, .openComment line rest ≠ item) :
    Reading file seen (item :: its) result := by
  have hcons (its : List Item) : declared ((item :: its).filterMap Item.span?) =
      declared (its.filterMap Item.span?) := by
    rw [declared_filterMap_cons, hitem, List.nil_append]
  cases h with
  | ok hrules hsound hits =>
    rw [← hcons] at hrules hsound
    exact .ok hrules hsound fun line rest =>
      List.not_mem_cons_of_ne_of_not_mem (hclosed line rest) (hits line rest)
  | openComment hits hsound =>
    rw [← hcons] at hsound
    exact .openComment (congrArg (item :: ·) hits) hsound
  | faulty hds hsound hd =>
    rw [← hcons] at hds
    exact .faulty hds hsound hd

theorem Reading.cons {r : Rule} (h : Reading file (seen ++ [⟨d, s⟩]) its result)
    (hs : s.declares? = some d) (hr : r.heading = Declared.heading file ⟨d, s⟩) :
    Reading file seen (.span s :: its) (result.map (r :: ·)) := by
  have hcons := declared_filterMap_span_cons hs
  have happend (ds : List Declared) : seen ++ ⟨d, s⟩ :: ds = seen ++ [⟨d, s⟩] ++ ds := by simp
  cases h with
  | ok hrules hsound hits =>
    rw [← happend, ← hcons] at hsound
    refine .ok ?_ hsound fun line rest => List.not_mem_cons_of_ne_of_not_mem nofun (hits line rest)
    rw [hcons, List.map_cons, List.map_cons, hrules, hr]
  | openComment hits hsound =>
    rw [← happend, ← hcons] at hsound
    exact .openComment (congrArg (_ :: ·) hits) hsound
  | @faulty before after e _ hds hsound he =>
    rw [← happend] at hsound he
    have hbefore : declared ((.span s :: its).filterMap Item.span?) =
        ⟨d, s⟩ :: before ++ e :: after := by
      rw [hcons, hds, List.cons_append]
    exact .faulty hbefore hsound he

/-- The progress that declarations make. -/
def Progress.Follows (file : Option String) (p : Progress) (seen : List Declared) : Prop :=
  p.pass? = (seen.find? Declared.isPass).map (Declared.location file)

theorem isTerminals_eq_false_of_declares? (hs : s.declares? = some d) : s.isTerminals = false := by
  unfold Span.declares? at hs
  split at hs
  case isTrue => cases hs
  case isFalse h => exact Bool.eq_false_iff.mpr h

theorem declaration_of_declares? (hs : s.declares? = some d) (hp : s.isPass → p.pass? = none) :
    s.declaration file p = .ok d := by
  rw [Span.declares?, isTerminals_eq_false_of_declares? hs] at hs
  unfold Span.declaration
  cases hpass : s.isPass with
  | true =>
    rw [hpass] at hs hp
    obtain rfl := Option.some.inj hs
    rw [hp rfl]
    rfl
  | false =>
    rw [hpass] at hs
    obtain ⟨definition, hsplit, rfl⟩ := Option.map_eq_some_iff.mp hs
    rw [hsplit]
    rfl

theorem countP_append_of_find? {e : Declared} (hseen : AllSound seen)
    (he : e.isPass → seen.find? Declared.isPass = none) :
    (seen ++ [e]).countP Declared.isPass ≤ 1 := by
  rw [List.countP_append, List.countP_singleton]
  split
  case isTrue h =>
    have hzero : seen.countP Declared.isPass = 0 :=
      List.countP_eq_zero.mpr (List.find?_eq_none.mp (he h))
    omega
  case isFalse => exact hseen.onePass

/-- A declaration behind sound ones gives a rule, or it is the first that is faulty. -/
theorem rule_cases (hp : p.Follows file seen) (hseen : AllSound seen) (hs : s.declares? = some d) :
    (∃ r, s.rule file p = .ok r ∧ r.heading = Declared.heading file ⟨d, s⟩ ∧
      AllSound (seen ++ [⟨d, s⟩])) ∨
    ∃ fault, s.rule file p = .error fault ∧ Declared.Faulty file seen ⟨d, s⟩ fault := by
  unfold Span.rule
  by_cases hsecond : s.isPass ∧ (seen.find? Declared.isPass).isSome
  · obtain ⟨hpass, hsome⟩ := hsecond
    obtain ⟨first, hfirst⟩ := Option.isSome_iff_exists.mp hsome
    refine .inr ⟨_, ?_, .repeatedPass hpass hfirst⟩
    have hplace : p.pass? = some (first.location file) := by rw [hp, hfirst, Option.map_some]
    rw [Span.declaration, if_pos hpass, hplace]
    rfl
  · have hfirst (hpass : s.isPass) : seen.find? Declared.isPass = none :=
      Option.not_isSome_iff_eq_none.mp fun hsome => hsecond ⟨hpass, hsome⟩
    have hpass (hpass : s.isPass) : p.pass? = none := by rw [hp, hfirst hpass, Option.map_none]
    simp only [declaration_of_declares? hs hpass]
    cases hparse : Expr.parse? d.rhs with
    | error m =>
      refine .inr ⟨_, rfl, .unreadable (fun hpass e he => ?_) hparse⟩
      exact Bool.eq_false_iff.mpr (List.find?_eq_none.mp (hfirst hpass) e he)
    | ok e =>
      refine .inl ⟨_, rfl, rfl, ?_, countP_append_of_find? hseen hfirst⟩
      exact List.forall_mem_append.mpr
        ⟨hseen.readable, List.forall_mem_singleton.mpr ⟨e, hparse⟩⟩

theorem Progress.Follows.after (hp : p.Follows file seen) (hs : s.declares? = some d)
    (hsound : AllSound (seen ++ [⟨d, s⟩])) : (p.after file s).Follows file (seen ++ [⟨d, s⟩]) := by
  have hdeclared : Declared.isPass ⟨d, s⟩ = s.isPass := rfl
  unfold Progress.Follows at hp ⊢
  rw [Progress.after, isTerminals_eq_false_of_declares? hs, List.find?_append]
  cases hpass : s.isPass with
  | true =>
    have hnone : seen.find? Declared.isPass = none := by
      refine List.find?_eq_none.mpr fun e he hfirst => ?_
      have hone := hsound.onePass
      have hseen : 0 < seen.countP Declared.isPass := List.countP_pos_iff.mpr ⟨e, he, hfirst⟩
      rw [List.countP_append, List.countP_singleton, if_pos (hdeclared.trans hpass)] at hone
      omega
    rw [hnone, Option.none_or, List.find?_cons_of_pos (hdeclared.trans hpass)]
    rfl
  | false =>
    rw [List.find?_cons_of_neg (Bool.eq_false_iff.mp (hdeclared.trans hpass)), List.find?_nil,
      Option.or_none, ← hp]
    rfl

theorem reading_terminals (hs : s.isTerminals)
    (h : Reading file seen its (rulesFrom file (p.after file s) its)) :
    Reading file seen (.span s :: its) (rulesFrom file p (.span s :: its)) := by
  rw [rulesFrom, if_pos hs]
  refine h.skip ?_ (by simp)
  rw [Item.span?, Option.toList_some, declared_cons, Span.declares?, if_pos hs]
  rfl

/-- A span that declares something is read, or it is the first that is faulty, whatever follows. -/
theorem reading_declaration (hp : p.Follows file seen) (hseen : AllSound seen)
    (hs : s.declares? = some d)
    (h : AllSound (seen ++ [⟨d, s⟩]) →
      Reading file (seen ++ [⟨d, s⟩]) its (rulesFrom file (p.after file s) its)) :
    Reading file seen (.span s :: its) (rulesFrom file p (.span s :: its)) := by
  rw [rulesFrom, if_neg (Bool.eq_false_iff.mp (isTerminals_eq_false_of_declares? hs))]
  rcases rule_cases hp hseen hs with ⟨r, hr, hheading, hsound⟩ | ⟨fault, hr, hfault⟩
  · have hrun := (h hsound).cons hs hheading
    rw [hr]
    generalize rulesFrom file (p.after file s) its = result at hrun
    cases result with
    | error fault => exact hrun
    | ok rs => exact hrun
  · rw [hr]
    have hfirst : declared ((.span s :: its).filterMap Item.span?) =
        [] ++ ⟨d, s⟩ :: declared (its.filterMap Item.span?) := declared_filterMap_span_cons hs its
    refine .faulty hfirst ?_ ?_
    · rwa [List.append_nil]
    · rwa [List.append_nil]

theorem reading_rulesFrom (hdeclares : ∀ s, .span s ∈ its → s.isTerminals ∨ s.declares?.isSome)
    (hp : p.Follows file seen) (hseen : AllSound seen) :
    Reading file seen its (rulesFrom file p its) := by
  induction its generalizing p seen with
  | nil =>
    refine .ok rfl ?_ fun _ _ => List.not_mem_nil
    exact (List.append_nil seen).symm ▸ hseen
  | cons item its ih =>
    have hits : ∀ s, .span s ∈ its → s.isTerminals ∨ s.declares?.isSome := fun s hs =>
      hdeclares s (List.mem_cons_of_mem item hs)
    cases item with
    | stray line text => exact (ih hits hp hseen).skip rfl (by simp)
    | openComment line text =>
      have hsound : AllSound (seen ++ declared ([].filterMap Item.span?)) :=
        (List.append_nil seen).symm ▸ hseen
      exact .openComment rfl hsound
    | span s =>
      rcases hdeclares s List.mem_cons_self with hterminals | hsome
      · have hafter : (p.after file s).Follows file seen := by
          rw [Progress.after, if_pos hterminals]
          exact hp
        exact reading_terminals hterminals (ih hits hafter hseen)
      · obtain ⟨d, hs⟩ := Option.isSome_iff_exists.mp hsome
        exact reading_declaration hp hseen hs fun hsound => ih hits (hp.after hs hsound) hsound

end Runs

section Ids
variable {file : Option String} {seen rules : List Rule} {ds : List Declared} {fault : Fault}

theorem exists_of_repeatedId? (hseen : (seen.map Rule.id).Nodup)
    (h : repeatedId? file seen rules = some fault) :
    ∃ before r after first, rules = before ++ r :: after ∧ ((seen ++ before).map Rule.id).Nodup ∧
      first ∈ seen ++ before ∧ first.id = r.id ∧
      fault = .repeatedId (r.location.getD ⟨file, none⟩) r.id first.symbol := by
  induction rules generalizing seen with
  | nil => cases h
  | cons r rules ih =>
    rw [repeatedId?] at h
    cases hfind : seen.find? (·.id == r.id) with
    | some first =>
      rw [hfind] at h
      have hfirst := List.mem_of_find?_eq_some hfind
      have hid : first.id = r.id := by simpa using List.find?_some hfind
      refine ⟨[], r, rules, first, rfl, ?_, ?_, hid, (Option.some.inj h).symm⟩
      · rwa [List.append_nil]
      · rwa [List.append_nil]
    | none =>
      rw [hfind] at h
      have hnew : r.id ∉ seen.map Rule.id := by simpa using hfind
      have hseen' : ((seen ++ [r]).map Rule.id).Nodup := by
        rw [List.map_append]
        exact List.nodup_append.mpr ⟨hseen, List.nodup_singleton _, by simpa using hnew⟩
      obtain ⟨before, s, after, first, rfl, hbefore, hfirst, hid, hfault⟩ := ih hseen' h
      rw [List.append_assoc, List.singleton_append] at hbefore hfirst
      exact ⟨r :: before, s, after, first, rfl, hbefore, hfirst, hid, hfault⟩

theorem map_id_eq (h : rules.map Rule.heading = ds.map (Declared.heading file)) :
    rules.map Rule.id = ds.map (·.id) := by
  have hids := congrArg (List.map Prod.fst) h
  rwa [List.map_map, List.map_map] at hids

/-- Where rules repeat an id, so do the declarations that they have been read from. -/
theorem exists_declared_of_repeatedId? (h : repeatedId? file [] rules = some fault)
    (hrules : rules.map Rule.heading = ds.map (Declared.heading file)) :
    ∃ before d after first, ds = before ++ d :: after ∧ (before.map (·.id)).Nodup ∧ first ∈ before ∧
      first.id = d.id ∧ fault = .repeatedId (d.location file) d.id first.symbol := by
  have hseen : (([] : List Rule).map Rule.id).Nodup := List.nodup_nil
  obtain ⟨before, r, after, first, rfl, hbefore, hfirst, hid, rfl⟩ := exists_of_repeatedId? hseen h
  rw [List.nil_append] at hbefore hfirst
  rw [List.map_append, List.map_cons] at hrules
  obtain ⟨ds₁, ds₂, rfl, hds₁, hds₂⟩ := List.map_eq_append_iff.mp hrules.symm
  obtain ⟨d, ds₃, rfl, hd, -⟩ := List.map_eq_cons_iff.mp hds₂
  have hmem : first.heading ∈ ds₁.map (Declared.heading file) := hds₁ ▸ List.mem_map_of_mem hfirst
  obtain ⟨e, he, hheading⟩ := List.mem_map.mp hmem
  simp only [Declared.heading, Rule.heading, Prod.mk.injEq] at hd hheading
  obtain ⟨hdid, -, hlocation⟩ := hd
  obtain ⟨heid, hsymbol, -⟩ := hheading
  refine ⟨ds₁, d, ds₃, e, rfl, ?_, he, ?_, ?_⟩
  · rwa [← map_id_eq hds₁.symm]
  · rw [heid, hid, hdid]
  · rw [← hlocation, ← hdid, ← hsymbol]
    rfl

end Ids

section Load
variable {file : Option String} {text : List Char} {fault : Fault}

theorem openComment_of_items {before after : List Item} {line : Nat} {rest : List Char}
    (h : items text = before ++ .openComment line rest :: after) :
    after = [] ∧ OpenComment text line rest := by
  obtain ⟨hafter, front, hlexemes, rfl⟩ := exists_of_itemsFrom_openComment (scanned_lexemes text) h
  refine ⟨hafter, ?_⟩
  have hlast : (⟨.openComment, rest⟩ : Lexeme) ∈ lexemes text := by simp [hlexemes]
  obtain ⟨_, hcut⟩ := (scanned_lexemes text).exists_cutOff hlast
  cases hcut with
  | @openComment body hbody =>
    have hopen := OpenComment.intro hlexemes (commentLength?_eq_none_iff.mp hbody)
    have htext : text = front.flatMap Lexeme.text ++ '/' :: '*' :: body := by
      conv_lhs => rw [← flatMap_text_lexemes text, hlexemes, List.flatMap_append]
      rw [List.flatMap_singleton]
    have hline : lineAt text (front.flatMap Lexeme.text).length =
        1 + (front.flatMap Lexeme.text).count '\n' := by
      conv_lhs => rw [lineAt, htext, List.take_left]
    rwa [hline] at hopen

theorem not_openComment_of_items (h : ∀ line rest, .openComment line rest ∉ items text) :
    ∀ line rest, ¬OpenComment text line rest := by
  rintro _ _ ⟨hlexemes, -⟩
  have hlast : (⟨.openComment, _⟩ : Lexeme) ∈ lexemes text :=
    hlexemes ▸ List.mem_append_right _ (List.mem_singleton_self _)
  obtain ⟨n, cs, hmem⟩ := exists_openComment_mem_itemsFrom hlast rfl false 1
  exact h n cs hmem

theorem load_cases (text : String) (file : Option String) :
    (∃ g, Grammar.load text file = .ok g) ∧ Faultless text.toList ∨
      ∃ fault, Grammar.load text file = .error fault ∧ FirstFault file text.toList fault := by
  have hrun : Reading file [] (items text.toList) (rulesFrom file {} (items text.toList)) :=
    reading_rulesFrom (fun s hs => declares?_of_mem_items hs) rfl
      ⟨List.forall_mem_nil _, Nat.zero_le 1⟩
  rw [Grammar.load]
  generalize rulesFrom file {} (items text.toList) = result at hrun
  cases hrun with
  | @ok rules hrules hsound hclosed =>
    have hclosed := not_openComment_of_items hclosed
    cases hrepeated : repeatedId? file [] rules with
    | none =>
      have hids := (repeatedId?_eq_none_iff.mp hrepeated).1
      rw [map_id_eq hrules] at hids
      refine .inl ⟨⟨⟨rules, file⟩, ?_⟩, hsound, hclosed, hids⟩
      simp only [Grammar.check, hrepeated]
    | some fault =>
      obtain ⟨before, d, after, first, hds, hbefore, hfirst, hid, rfl⟩ :=
        exists_declared_of_repeatedId? hrepeated hrules
      refine .inr ⟨_, ?_, .repeatedId hsound hclosed hds hbefore hfirst hid⟩
      simp only [Grammar.check, hrepeated]
  | @openComment before after line rest hits hsound =>
    obtain ⟨rfl, hopen⟩ := openComment_of_items hits
    refine .inr ⟨_, rfl, .openComment ?_ hopen⟩
    rw [completeSpans, hits, List.filterMap_append]
    exact (List.append_nil _).symm ▸ hsound
  | faulty hds hsound hd => exact .inr ⟨_, rfl, .declared hds hsound hd⟩

theorem not_nodup_of_mem {before : List Declared} {first d : Declared} (hfirst : first ∈ before)
    (hid : first.id = d.id) (rest : List Declared) : ¬((before ++ d :: rest).map (·.id)).Nodup := by
  intro hnodup
  rw [List.map_append, List.map_cons, List.nodup_append] at hnodup
  exact hnodup.2.2 _ (List.mem_map_of_mem hfirst) _ List.mem_cons_self hid

theorem FirstFault.eq {fault' : Fault} (h : FirstFault file text fault)
    (h' : FirstFault file text fault') : fault = fault' := by
  cases h with
  | @declared before after d _ hds hbefore hd =>
    cases h' with
    | @declared before' after' d' _ hds' hbefore' hd' =>
      obtain ⟨rfl, rfl⟩ := eq_of_append_cons (hds.symm.trans hds') hbefore hbefore'
        (fun rest hsound => hsound.not_faulty hd) (fun rest hsound => hsound.not_faulty hd')
      exact hd.eq hd'
    | openComment hsound | repeatedId hsound => exact absurd hd (hds ▸ hsound).not_faulty
  | openComment hsound hopen =>
    cases h' with
    | declared hds _ hd => exact absurd hd (hds ▸ hsound).not_faulty
    | openComment _ hopen' =>
      obtain ⟨hlexemes, -⟩ := hopen
      obtain ⟨hlexemes', -⟩ := hopen'
      obtain ⟨rfl, hlast⟩ := List.append_inj' (hlexemes.symm.trans hlexemes') rfl
      obtain ⟨-, htext⟩ := Lexeme.mk.inj (List.cons.inj hlast).1
      rw [htext]
    | repeatedId _ hclosed => exact absurd hopen (hclosed _ _)
  | @repeatedId before after first d hsound hclosed hds hbefore hfirst hid =>
    cases h' with
    | declared hds' _ hd => exact absurd hd (hds' ▸ hsound).not_faulty
    | openComment _ hopen => exact absurd hopen (hclosed _ _)
    | @repeatedId before' after' first' d' _ _ hds' hbefore' hfirst' hid' =>
      obtain ⟨rfl, rfl⟩ := eq_of_append_cons (P := fun ds => (ds.map (·.id)).Nodup)
        (hds.symm.trans hds') hbefore hbefore' (not_nodup_of_mem hfirst hid)
        (not_nodup_of_mem hfirst' hid')
      obtain rfl := List.inj_on_of_nodup_map hbefore hfirst hfirst' (hid.trans hid'.symm)
      rfl

/-- The span in front of a comment without an end is not complete, and nothing is said of it. -/
example : Grammar.load "[1] a ::= 'b'\n[2] c ::= )\n/* d" none =
    .error (.unreadable ⟨none, some 3⟩ ⟨.openComment, "/* d".toList⟩) := by
  decide +kernel

end Load

end FlatGrammar
