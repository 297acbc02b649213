import FlatGrammar.Expr.Trace
import FlatGrammar.Proofs.Expr.Labels
import FlatGrammar.Proofs.Expr.Stopping

/-! # What a trace shows

Reading with a recorder comes to the same as reading without one. The lines of a trace tell what has
happened, and they are nested: what happens between the entry of a production and its return stands one
level deeper. An obstacle leaves the productions that it was met in without a return, and the text left over
at the end is noticed when all of them have returned.
-/
namespace FlatGrammar

/-- A line starts with a mark, and with a blank for each production that is open around it. -/
def margin (mark : String) (depth : Nat) : String := mark ++ String.ofList (List.replicate depth ' ')

def entryLine (mark : String) (depth : Nat) (production : Production) (text : List Char) : String :=
  margin mark depth ++ (production.name ++ "(" ++ Text.quoted (String.ofList text) ++ ")")

def returnLine (mark : String) (depth : Nat) (production : Production) (value : Option Expr)
    (rest : List Char) : String :=
  margin mark depth ++ ("=> " ++ production.name ++ " returned (" ++ Expr.labelledOrNone value ++ ", " ++
    Text.quoted (String.ofList rest) ++ ")")

/-- Lines in which every production that is entered returns at its own depth, with the productions that it
calls one level deeper in between. -/
inductive Nested (mark : String) : Nat → List String → Prop
  | nil {depth : Nat} : Nested mark depth []
  | call {depth : Nat} {production : Production} {text rest : List Char} {value : Option Expr}
      {inner after : List String} (hinner : Nested mark (depth + 1) inner)
      (hafter : Nested mark depth after) :
      Nested mark depth (entryLine mark depth production text ::
        (inner ++ returnLine mark depth production value rest :: after))

/-- Nested lines that break off, maybe within productions that have been entered. -/
inductive Halted (mark : String) : Nat → List String → Prop
  | between {depth : Nat} {lines : List String} (h : Nested mark depth lines) : Halted mark depth lines
  | within {depth : Nat} {production : Production} {text : List Char} {before inner : List String}
      (hbefore : Nested mark depth before) (hinner : Halted mark (depth + 1) inner) :
      Halted mark depth (before ++ entryLine mark depth production text :: inner)

/-- The line of a return, which is told by the sign behind its margin. -/
def isReturnLine (mark line : String) : Bool :=
  ((line.toList.drop mark.toList.length).dropWhile (· == ' ')).head? == some '='

section Lines
variable {mark : String} {depth : Nat} {lines more : List String}

theorem Nested.append (h : Nested mark depth lines) (h' : Nested mark depth more) :
    Nested mark depth (lines ++ more) := by
  induction h with
  | nil => exact h'
  | call hinner _ _ ih =>
    rw [List.cons_append, List.append_assoc, List.cons_append]
    exact .call hinner (ih h')

theorem Halted.append (h : Nested mark depth lines) (h' : Halted mark depth more) :
    Halted mark depth (lines ++ more) := by
  cases h' with
  | between h' => exact .between (h.append h')
  | within hbefore hinner =>
    rw [← List.append_assoc]
    exact .within (h.append hbefore) hinner

/-- Whatever has been entered can still return. -/
theorem Halted.exists_nested (h : Halted mark depth lines) :
    ∃ more, Nested mark depth (lines ++ more) := by
  induction h with
  | between h => exact ⟨[], by rwa [List.append_nil]⟩
  | @within depth production text before inner hbefore _ ih =>
    obtain ⟨more, hmore⟩ := ih
    refine ⟨more ++ [returnLine mark depth production none []], ?_⟩
    rw [List.append_assoc, List.cons_append, ← List.append_assoc inner]
    exact hbefore.append (.call hmore .nil)

theorem isReturnLine_margin (mark : String) (depth : Nat) (text : String) :
    isReturnLine mark (margin mark depth ++ text) =
      ((text.toList.dropWhile (· == ' ')).head? == some '=') := by
  simp [isReturnLine, margin]

theorem isReturnLine_entryLine (mark : String) (depth : Nat) (production : Production)
    (text : List Char) : isReturnLine mark (entryLine mark depth production text) = false := by
  rw [entryLine, isReturnLine_margin]
  cases production
  all_goals simp [Production.name]

theorem isReturnLine_returnLine (mark : String) (depth : Nat) (production : Production)
    (value : Option Expr) (rest : List Char) :
    isReturnLine mark (returnLine mark depth production value rest) = true := by
  rw [returnLine, isReturnLine_margin]
  simp

/-- Nested lines have as many returns as entries. -/
theorem Nested.countP_eq (h : Nested mark depth lines) :
    lines.countP (isReturnLine mark) = lines.countP (!isReturnLine mark ·) := by
  induction h with
  | nil => rfl
  | call _ _ ih ih' =>
    simp only [List.countP_cons, List.countP_append, isReturnLine_entryLine, isReturnLine_returnLine]
    simp
    omega

theorem Halted.countP_le (h : Halted mark depth lines) :
    lines.countP (isReturnLine mark) ≤ lines.countP (!isReturnLine mark ·) := by
  induction h with
  | between h => exact h.countP_eq.le
  | within hbefore _ ih =>
    have := hbefore.countP_eq
    simp only [List.countP_cons, List.countP_append, isReturnLine_entryLine]
    simp
    omega

/-- A production that has been entered and has not returned is missed. -/
theorem Halted.not_nested {production : Production} {text : List Char}
    (h : Halted mark (depth + 1) lines) :
    ¬Nested mark depth (entryLine mark depth production text :: lines) := by
  intro hnested
  have hle := h.countP_le
  have heq := hnested.countP_eq
  simp only [List.countP_cons, isReturnLine_entryLine] at heq
  simp at heq
  omega

end Lines

namespace Production

def all : List Production := [.group, .alternation, .sequence, .difference, .quantified, .primary]

theorem mem_all (p : Production) : p ∈ all := by
  cases p with
  | group | alternation | sequence | difference | quantified | primary => decide

theorem name_injective : Function.Injective name := by
  have hall : ∀ p ∈ all, ∀ q ∈ all, p.name = q.name → p = q := by decide
  exact fun p q h => hall p p.mem_all q q.mem_all h

theorem notMem_name (p : Production) : ' ' ∉ p.name.toList ∧ '(' ∉ p.name.toList := by
  have hall : ∀ p ∈ all, ' ' ∉ p.name.toList ∧ '(' ∉ p.name.toList := by decide
  exact hall p p.mem_all

/-- A name ends at the first character that no name has. -/
theorem eq_of_name_append {p q : Production} {stop : Char} {xs ys : List Char}
    (hstop : ∀ p : Production, stop ∉ p.name.toList)
    (h : p.name.toList ++ stop :: xs = q.name.toList ++ stop :: ys) : p = q ∧ xs = ys := by
  obtain ⟨hname, -⟩ := eq_of_append_cons (P := (stop ∉ ·)) h (hstop p) (hstop q) (by simp) (by simp)
  obtain rfl := name_injective (String.toList_inj.mp hname)
  exact ⟨rfl, (List.cons.inj (List.append_cancel_left h)).2⟩

end Production

section Events
variable {mark : String} {depth depth' : Nat} {production production' : Production}
  {text text' rest rest' : List Char} {value value' : Option Expr}

theorem eq_of_margin_append {s s' : String} (hs : s.toList.dropWhile (· == ' ') = s.toList)
    (hs' : s'.toList.dropWhile (· == ' ') = s'.toList)
    (h : margin mark depth ++ s = margin mark depth' ++ s') : depth = depth' ∧ s.toList = s'.toList := by
  have hchars : List.replicate depth ' ' ++ s.toList = List.replicate depth' ' ' ++ s'.toList := by
    have hlines := congrArg String.toList h
    simp only [margin, String.toList_append, String.toList_ofList, List.append_assoc] at hlines
    exact List.append_cancel_left hlines
  have hbody : s.toList = s'.toList := by
    simpa [hs, hs'] using congrArg (List.dropWhile (· == ' ')) hchars
  have hlength := congrArg List.length hchars
  rw [hbody] at hlength
  exact ⟨by simpa using hlength, hbody⟩

theorem entryLine_inj (h : entryLine mark depth production text =
    entryLine mark depth' production' text') :
    depth = depth' ∧ production = production' ∧ text = text' := by
  have hstart (p : Production) (s : String) : (p.name ++ "(" ++ s ++ ")").toList.dropWhile (· == ' ') =
      (p.name ++ "(" ++ s ++ ")").toList := by
    cases p
    all_goals simp [Production.name]
  obtain ⟨hdepth, hbody⟩ := eq_of_margin_append (hstart _ _) (hstart _ _) h
  have hname : production.name.toList ++ '(' :: ((Text.quoted (String.ofList text)).toList ++ [')']) =
      production'.name.toList ++ '(' :: ((Text.quoted (String.ofList text')).toList ++ [')']) := by
    simpa using hbody
  obtain ⟨rfl, hinput⟩ := Production.eq_of_name_append (fun p => p.notMem_name.2) hname
  obtain ⟨htext, -⟩ := Text.legible_quoted (String.ofList text) hinput
  exact ⟨hdepth, rfl, String.ofList_injective htext⟩

theorem returnLine_inj (h : returnLine mark depth production value rest =
    returnLine mark depth' production' value' rest') :
    depth = depth' ∧ production = production' ∧ value = value' ∧ rest = rest' := by
  obtain ⟨hdepth, hbody⟩ := eq_of_margin_append (by simp) (by simp) h
  have hname : production.name.toList ++ ' ' :: ("returned (".toList ++
      ((Expr.labelledOrNone value).toList ++ (", ".toList ++
        ((Text.quoted (String.ofList rest)).toList ++ [')'])))) =
      production'.name.toList ++ ' ' :: ("returned (".toList ++
        ((Expr.labelledOrNone value').toList ++ (", ".toList ++
          ((Text.quoted (String.ofList rest')).toList ++ [')'])))) := by
    simpa using hbody
  obtain ⟨rfl, hresult⟩ := Production.eq_of_name_append (fun p => p.notMem_name.1) hname
  obtain ⟨rfl, hcomma⟩ := Expr.legible_labelledOrNone value (List.append_cancel_left hresult)
  obtain ⟨hrest, -⟩ := Text.legible_quoted (String.ofList rest) (List.append_cancel_left hcomma)
  exact ⟨hdepth, rfl, rfl, String.ofList_injective hrest⟩

theorem lineMark_eq (line : Option Int) : lineMark line = "[" ++ line.elim "?" toString ++ "]" := by
  cases line with
  | none => rfl
  | some n => rfl

variable {line : Option Int}

theorem text_entered : (Event.entered production depth text).text line =
    entryLine (lineMark line) depth production text := rfl

theorem text_returned : (Event.returned production depth value rest).text line =
    returnLine (lineMark line) depth production value rest := rfl

theorem text_injective (line : Option Int) : Function.Injective (Event.text line) := by
  intro e e' h
  cases e with
  | entered =>
    cases e' with
    | entered =>
      obtain ⟨rfl, rfl, rfl⟩ := entryLine_inj h
      rfl
    | returned =>
      have hreturn := congrArg (isReturnLine (lineMark line)) h
      rw [text_entered, text_returned, isReturnLine_entryLine, isReturnLine_returnLine] at hreturn
      cases hreturn
  | returned =>
    cases e' with
    | entered =>
      have hreturn := congrArg (isReturnLine (lineMark line)) h
      rw [text_entered, text_returned, isReturnLine_entryLine, isReturnLine_returnLine] at hreturn
      cases hreturn
    | returned =>
      obtain ⟨rfl, rfl, rfl, rfl⟩ := returnLine_inj h
      rfl

end Events

/-- The lines of a reading go with its outcome. -/
def Told {α : Type} (mark : String) (depth : Nat) (lines : List String) : Except Misreading α → Prop
  | .ok _ => Nested mark depth lines
  | .error m => m.obstacle ≠ .leftover ∧ Halted mark depth lines

/-- A recording reading that has the outcome of a plain one and adds to the events only. -/
def Records {α : Type} (x : Recording α) (y : Except Misreading α) : Prop :=
  ∀ r : Recorder, ∃ events : List Event,
    x.run.run r = (y, { r with events := events.reverse ++ r.events }) ∧
      ∀ line, Told (lineMark line) r.depth (events.map (Event.text line)) y

section Readings
variable {α β : Type}

theorem run_bind (x : Recording α) (f : α → Recording β) (r : Recorder) :
    (x >>= f).run.run r = match x.run.run r with
      | (.ok a, after) => (f a).run.run after
      | (.error m, after) => (.error m, after) := by
  rw [ExceptT.run_bind, StateT.run_bind]
  obtain ⟨y, after⟩ := x.run.run r
  cases y <;> rfl

theorem run_recorded (production : Production) (value : α → Option Expr)
    (read : List Char → Recording (α × List Char)) (text : List Char) (r : Recorder) :
    (recorded production value read text).run.run r =
      match (read text).run.run (r.enter production text) with
      | (.ok (a, rest), after) => (.ok (a, rest), after.leave production (value a) rest)
      | (.error m, after) => (.error m, after.abandon) := rfl

theorem records_pure (a : α) : Records (pure a) (pure a) := fun _ => ⟨[], rfl, fun _ => .nil⟩

theorem records_throw {m : Misreading} (h : m.obstacle ≠ .leftover) :
    Records (throw m : Recording α) (throw m) :=
  fun _ => ⟨[], rfl, fun _ => ⟨h, .between .nil⟩⟩

theorem Records.bind {x : Recording α} {y : Except Misreading α} {f : α → Recording β}
    {g : α → Except Misreading β} (h : Records x y) (hf : ∀ a, Records (f a) (g a)) :
    Records (x >>= f) (y >>= g) := by
  intro r
  obtain ⟨events, hx, htold⟩ := h r
  rw [run_bind, hx]
  cases y with
  | error m => exact ⟨events, rfl, htold⟩
  | ok a =>
    obtain ⟨more, hfa, hmore⟩ := hf a { r with events := events.reverse ++ r.events }
    refine ⟨events ++ more, ?_, fun line => ?_⟩
    · rw [List.reverse_append, List.append_assoc]
      exact hfa
    · rw [List.map_append]
      have hfirst : Nested (lineMark line) r.depth (events.map (Event.text line)) := htold line
      have hlast := hmore line
      change Told (lineMark line) r.depth _ (g a)
      cases hga : g a with
      | ok b =>
        rw [hga] at hlast
        exact hfirst.append hlast
      | error m =>
        rw [hga] at hlast
        exact ⟨hlast.1, .append hfirst hlast.2⟩

theorem records_token (text : List Char) :
    Records (Productions.token text) (Productions.token text) := by
  rw [Productions.token_eq]
  unfold Productions.token
  cases h : Token.next? text with
  | ok read => exact records_pure read
  | error m =>
    refine records_throw ?_
    intro hm
    have hlexical := (Token.next?_eq_error h).1
    rw [hm] at hlexical
    cases hlexical

/-- A recorded production is entered, and returns unless there is an obstacle. -/
theorem Records.exists_events {text : List Char} {read : List Char → Recording (α × List Char)}
    {y : Except Misreading (α × List Char)} (h : Records (read text) y) (production : Production)
    (value : α → Option Expr) (r : Recorder) : ∃ events : List Event,
      (recorded production value read text).run.run r =
          (y, { r with events := events.reverse ++ r.events }) ∧
        events.head? = some (.entered production r.depth text) ∧
        ∀ line, let lines := events.map (Event.text line)
          Told (lineMark line) r.depth lines y ∧
            ∀ m, y = .error m → ¬Nested (lineMark line) r.depth lines := by
  obtain ⟨events, hread, htold⟩ := h (r.enter production text)
  rw [run_recorded, hread]
  cases y with
  | ok result =>
    obtain ⟨a, rest⟩ := result
    refine ⟨.entered production r.depth text ::
      (events ++ [.returned production r.depth (value a) rest]), ?_, rfl, fun line => ⟨?_, nofun⟩⟩
    · simp [Recorder.enter, Recorder.leave]
    · rw [List.map_cons, List.map_append]
      exact .call (htold line) .nil
  | error m =>
    refine ⟨.entered production r.depth text :: events, ?_, rfl, fun line => ?_⟩
    · simp [Recorder.enter, Recorder.abandon]
    · obtain ⟨hm, hhalted⟩ := htold line
      have hopened : Halted (lineMark line) r.depth
          ([] ++ (Event.entered production r.depth text).text line :: events.map (Event.text line)) :=
        .within .nil hhalted
      exact ⟨⟨hm, hopened⟩, fun _ _ => hhalted.not_nested⟩

theorem Records.recorded {production : Production} {value : α → Option Expr} {text : List Char}
    {read : List Char → Recording (α × List Char)} {y : Except Misreading (α × List Char)}
    (h : Records (read text) y) : Records (recorded production value read text) y := by
  intro r
  obtain ⟨events, hrun, -, htold⟩ := h.exists_events production value r
  exact ⟨events, hrun, fun line => (htold line).1⟩

end Readings

/-- Recording readers beside plain ones. -/
structure RecordsAll (p : Productions Recording) (q : Productions (Except Misreading)) : Prop where
  group : ∀ text, Records (p.group text) (q.group text)
  alternation : ∀ text, Records (p.alternation text) (q.alternation text)
  sequence : ∀ text, Records (p.sequence text) (q.sequence text)
  difference : ∀ text, Records (p.difference text) (q.difference text)
  quantified : ∀ text, Records (p.quantified text) (q.quantified text)
  primary : ∀ text, Records (p.primary text) (q.primary text)

theorem recordsAll_nothing : RecordsAll Productions.nothing Productions.nothing where
  group _ := records_pure _
  alternation _ := records_pure _
  sequence _ := records_pure _
  difference _ := records_pure _
  quantified _ := records_pure _
  primary _ := records_pure _

namespace RecordsAll
variable {p : Productions Recording} {q : Productions (Except Misreading)} (h : RecordsAll p q)
  (text : List Char)
include h

theorem readGroup : Records (p.readGroup text) (q.readGroup text) := by
  refine (h.alternation text).bind fun (e, rest) => ?_
  refine (records_token rest).bind fun (t, after) => ?_
  exact records_pure _

theorem alternatives (n : Nat) : Records (p.alternatives n text) (q.alternatives n text) := by
  induction n generalizing text with
  | zero => exact records_pure _
  | succ n ih =>
    refine (h.sequence text).bind fun (e, rest) => ?_
    refine (records_token rest).bind fun (t, after) => ?_
    by_cases ht : t = .bar
    · simp only [ht, if_true]
      exact (ih after).bind fun (es, last) => records_pure _
    · simp only [ht, if_false]
      exact records_pure _

theorem members (n : Nat) : Records (p.members n text) (q.members n text) := by
  induction n generalizing text with
  | zero => exact records_pure _
  | succ n ih =>
    refine (h.difference text).bind fun (e?, rest) => ?_
    cases e? with
    | none => exact records_pure _
    | some e => exact (ih rest).bind fun (es, last) => records_pure _

theorem readAlternation : Records (p.readAlternation text) (q.readAlternation text) :=
  (h.alternatives text _).bind fun _ => records_pure _

theorem readSequence : Records (p.readSequence text) (q.readSequence text) :=
  (h.members text _).bind fun _ => records_pure _

theorem readDifference : Records (p.readDifference text) (q.readDifference text) := by
  refine (h.quantified text).bind fun (left?, rest) => ?_
  cases left? with
  | none => exact records_pure _
  | some left =>
    refine (records_token rest).bind fun (t, after) => ?_
    by_cases ht : t = .minus
    · simp only [ht, if_true]
      refine (h.primary after).bind fun (right?, last) => ?_
      cases right? with
      | none => exact records_throw (m := ⟨.missingOperand, last⟩) nofun
      | some right => exact records_pure _
    · simp only [ht, if_false]
      exact records_pure _

theorem readQuantified : Records (p.readQuantified text) (q.readQuantified text) := by
  refine (h.primary text).bind fun (e?, rest) => ?_
  cases e? with
  | none => exact records_pure _
  | some e =>
    refine (records_token rest).bind fun (t, after) => ?_
    dsimp only
    cases t.repetition? with
    | none => exact records_pure _
    | some op => exact records_pure _

theorem readPrimary : Records (p.readPrimary text) (q.readPrimary text) := by
  refine (records_token text).bind fun (t, rest) => ?_
  dsimp only
  cases t.leaf? with
  | some leaf => exact records_pure _
  | none =>
    by_cases ht : t = .opening
    · simp only [ht, if_true]
      exact (h.group rest).bind fun (e, last) => records_pure _
    · simp only [ht, if_false]
      exact records_pure _

theorem recorded_next : RecordsAll p.next.recorded q.next where
  group text := (h.readGroup text).recorded
  alternation text := (h.readAlternation text).recorded
  sequence text := (h.readSequence text).recorded
  difference text := (h.readDifference text).recorded
  quantified text := (h.readQuantified text).recorded
  primary text := (h.readPrimary text).recorded

end RecordsAll

theorem recordsAll_within (n : Nat) :
    RecordsAll (Productions.within Productions.recorded n) (Productions.within id n) := by
  induction n with
  | zero => exact recordsAll_nothing
  | succ n ih => exact ih.recorded_next

/-- Reading with a recorder has the outcome of reading without one, whatever has been recorded before, and
leaves the depth as it was. The lines that it adds start with the outermost group and are nested, or they are
the start of nested lines if there is an obstacle; only text left over at the end leaves them complete. No two
events have the same line, and productions are called by their names. -/
theorem nested_parseRecorded :
    (∀ line, Function.Injective (Event.text line)) ∧
      Production.all.map Production.name =
        ["group", "alternation", "sequence", "difference", "postfix", "primary"] ∧
      ∀ (text : List Char) (r : Recorder), ∃ events : List Event,
        Expr.parseRecorded text r =
            (Expr.parse? text, { r with events := events.reverse ++ r.events }) ∧
          events.head? = some (.entered .group r.depth text) ∧
          ∀ line : Option Int,
            let mark := "[" ++ line.elim "?" toString ++ "]"
            let lines := events.map (Event.text line)
            lines.head? = some (entryLine mark r.depth .group text) ∧
              (∃ more, Nested mark r.depth (lines ++ more)) ∧
              (Nested mark r.depth lines ↔
                ∀ m, Expr.parse? text = .error m → m.obstacle = .leftover) := by
  refine ⟨text_injective, rfl, fun text r => ?_⟩
  obtain ⟨n, hn⟩ : ∃ n, Productions.callDepth text = n + 1 := ⟨_, rfl⟩
  obtain ⟨events, hrun, hhead, htold⟩ :=
    ((recordsAll_within n).readGroup text).exists_events .group some r
  have hparse : Expr.parseRecorded text r =
      (Expr.parse? text, { r with events := events.reverse ++ r.events }) := by
    rw [Expr.parseRecorded, Expr.parse?, Expr.reading, hn]
    exact congrArg (fun p => (Expr.whole p.1, p.2)) hrun
  refine ⟨events, hparse, hhead, fun line => ?_⟩
  obtain ⟨hlines, hopen⟩ := htold line
  have hread : Expr.parse? text =
      Expr.whole ((Productions.within id n : Productions (Except Misreading)).readGroup text) := by
    rw [Expr.parse?, Expr.reading, hn]
    rfl
  rw [hread, ← lineMark_eq]
  refine ⟨by rw [List.head?_map, hhead]; rfl, ?_⟩
  cases hgroup : (Productions.within id n : Productions (Except Misreading)).readGroup text with
  | ok result =>
    rw [hgroup] at hlines
    have hnested : Nested (lineMark line) r.depth (events.map (Event.text line)) := hlines
    refine ⟨⟨[], by rwa [List.append_nil]⟩, iff_of_true hnested fun m hm => ?_⟩
    -- Once all productions have returned, only what is left over can be in the way.
    simp only [Expr.whole] at hm
    split at hm
    case isTrue => cases hm
    case isFalse =>
      obtain rfl := Except.error.inj hm
      rfl
  | error m =>
    rw [hgroup] at hlines
    have hhalted : m.obstacle ≠ .leftover ∧
        Halted (lineMark line) r.depth (events.map (Event.text line)) := hlines
    exact ⟨hhalted.2.exists_nested, iff_of_false (hopen m hgroup) fun hall => hhalted.1 (hall m rfl)⟩

end FlatGrammar
