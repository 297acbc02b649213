import FlatGrammar.Proofs.Expr.Reading

/-! # Progress of productions

The productions call each other, and the rounds of a list go on, as long as a text makes them. Here they do so
without the bounds that the readers keep: a call has an outcome only if all the calls that it makes have one.
Every call has exactly one, which is what the readers return, because a production that finds something takes
at least a token, and a group is called behind its parenthesis.
-/
namespace FlatGrammar

/-- What can be called: a production, or the rounds that a list still has to come. -/
inductive Call where
  | group
  | alternation
  | sequence
  | difference
  | quantified
  | primary
  | alternatives
  | members

/-- What a call returns in front of the rest of a text. -/
def Call.Value : Call → Type
  | group | alternation | sequence => Expr
  | difference | quantified | primary => Option Expr
  | alternatives | members => List Expr

/-- A computation that is done, or waits for the outcome of a call. -/
inductive Calling (α : Type) where
  | done (value : α)
  | wait (call : Call) (text : List Char)
      (next : Except Misreading (call.Value × List Char) → Calling α)

namespace Calling

def bind {α β : Type} : Calling α → (α → Calling β) → Calling β
  | done value, f => f value
  | wait call text next, f => wait call text fun outcome => (next outcome).bind f

instance : Monad Calling where
  pure := done
  bind := bind

end Calling

/-- A computation with calls that an obstacle ends. -/
abbrev Program := ExceptT Misreading Calling

namespace Call

def perform (call : Call) (text : List Char) : Program (call.Value × List Char) :=
  ExceptT.mk (.wait call text .done)

/-- The productions, each of them called. -/
def productions : Productions Program where
  group := perform group
  alternation := perform alternation
  sequence := perform sequence
  difference := perform difference
  quantified := perform quantified
  primary := perform primary

/-- What a call does. Lists go on to their next round by another call. -/
def body : (call : Call) → List Char → Program (call.Value × List Char)
  | group, text => productions.readGroup text
  | alternation, text => do
    let (es, rest) ← perform alternatives text
    return (Expr.join .alt es, rest)
  | sequence, text => do
    let (es, rest) ← perform members text
    return (Expr.join .seq es, rest)
  | difference, text => productions.readDifference text
  | quantified, text => productions.readQuantified text
  | primary, text => productions.readPrimary text
  | alternatives, text => do
    let (e, rest) ← productions.sequence text
    let (t, after) ← Productions.token rest
    if t = .bar then
      let (es, last) ← perform alternatives after
      return (e :: es, last)
    else return ([e], rest)
  | members, text => do
    let (e?, rest) ← productions.difference text
    match e? with
    | none => return ([], text)
    | some e =>
      let (es, last) ← perform members rest
      return (e :: es, last)

end Call

/-- Computations that come to an end, with the value that they come to. Each call that one waits for has come to
an end before, so no chain of calls goes on for ever. -/
inductive Runs : {α : Type} → Calling α → α → Prop
  | done {α : Type} (value : α) : Runs (.done value) value
  | wait {α : Type} {value : α} {call : Call} {text : List Char}
      {next : Except Misreading (call.Value × List Char) → Calling α}
      {outcome : Except Misreading (call.Value × List Char)} (hcall : Runs (call.body text).run outcome)
      (hnext : Runs (next outcome) value) : Runs (.wait call text next) value

namespace Runs
variable {α β : Type}

theorem unique {x : Calling α} {a b : α} (h : Runs x a) (h' : Runs x b) : a = b := by
  induction h with
  | done =>
    cases h'
    rfl
  | wait _ _ ihcall ihnext =>
    cases h' with
    | wait hcall hnext =>
      obtain rfl := ihcall hcall
      exact ihnext hnext

theorem andThen {x : Calling α} {a : α} {f : α → Calling β} {b : β} (h : Runs x a) (hf : Runs (f a) b) :
    Runs (x >>= f) b := by
  induction h with
  | done => exact hf
  | wait hcall _ _ ihnext => exact .wait hcall (ihnext hf)

theorem pure (a : α) : Runs (Pure.pure a : Program α).run (Pure.pure a) := .done _

theorem throw (m : Misreading) : Runs (MonadExcept.throw m : Program α).run (MonadExcept.throw m) := .done _

theorem token (text : List Char) :
    Runs (Productions.token text : Program _).run (Productions.token text) := by
  rw [Productions.token_eq]
  unfold Productions.token
  cases Token.next? text with
  | ok read => exact .done _
  | error m => exact .done _

theorem perform {call : Call} {text : List Char} {outcome : Except Misreading (call.Value × List Char)}
    (h : Runs (call.body text).run outcome) : Runs (call.perform text).run outcome :=
  .wait h (.done _)

/-- A computation goes on like a plain one that has had the same outcome so far. -/
theorem bind {x : Program α} {y : Except Misreading α} {f : α → Program β} {g : α → Except Misreading β}
    (h : Runs x.run y) (hf : ∀ a, y = .ok a → Runs (f a).run (g a)) : Runs (x >>= f).run (y >>= g) := by
  rw [ExceptT.run_bind]
  refine h.andThen ?_
  cases y with
  | error m => exact .done _
  | ok a => exact hf a rfl

end Runs

/-- A phrase that is no list takes at least a token. -/
theorem Found.length_lt {form : Form} {text rest : List Char} {e : Expr}
    (hform : form = .difference ∨ form = .quantified ∨ form = .primary)
    (h : Found form text (some e) rest) : rest.length < text.length := by
  obtain ⟨ts, hphrase, hreads⟩ := h
  have hstart := hphrase.isStart
  obtain ⟨t, us, rfl, -⟩ : ∃ t us, ts = t :: us ∧ t.isStart := by
    rcases hform with rfl | rfl | rfl
    all_goals exact hstart
  have hle := hreads.length_le
  rw [List.length_cons] at hle
  omega

/-- Readers that return what the calls come to, if a text takes at most `n` nested calls. Six of them take a
parenthesis. -/
structure Performs (n : Nat) (p : Productions (Except Misreading)) : Prop extends Sound p where
  groupRuns : ∀ {text : List Char}, 6 * text.length + 6 ≤ n →
    Runs (Call.group.body text).run (p.group text)
  alternationRuns : ∀ {text : List Char}, 6 * text.length + 5 ≤ n →
    Runs (Call.alternation.body text).run (p.alternation text)
  sequenceRuns : ∀ {text : List Char}, 6 * text.length + 4 ≤ n →
    Runs (Call.sequence.body text).run (p.sequence text)
  differenceRuns : ∀ {text : List Char}, 6 * text.length + 3 ≤ n →
    Runs (Call.difference.body text).run (p.difference text)
  quantifiedRuns : ∀ {text : List Char}, 6 * text.length + 2 ≤ n →
    Runs (Call.quantified.body text).run (p.quantified text)
  primaryRuns : ∀ {text : List Char}, 6 * text.length + 1 ≤ n →
    Runs (Call.primary.body text).run (p.primary text)

namespace Performs
variable {n : Nat} {p : Productions (Except Misreading)} (hp : Performs n p) {text : List Char}
include hp

theorem readGroup (hn : 6 * text.length + 5 ≤ n) :
    Runs (Call.group.body text).run (p.readGroup text) := by
  refine (Runs.perform (hp.alternationRuns hn)).bind fun (e, rest) _ => ?_
  refine (Runs.token rest).bind fun (t, after) _ => ?_
  exact .pure _

/-- Every alternative but the last takes a bar, so rounds that the length bounds are enough. -/
theorem alternatives {k : Nat} (hk : text.length < k) (hn : 6 * text.length + 4 ≤ n) :
    Runs (Call.alternatives.body text).run (p.alternatives k text) := by
  induction k generalizing text with
  | zero => omega
  | succ k ih =>
    refine (Runs.perform (hp.sequenceRuns hn)).bind fun (e, rest) hsequence => ?_
    refine (Runs.token rest).bind fun (t, after) htoken => ?_
    rw [Productions.token_eq] at htoken
    obtain ⟨ts, es, -, -, hreads⟩ := hp.sequence hsequence
    by_cases ht : t = .bar
    · have hle := hreads.length_le
      have hlt := Token.length_lt_of_next? htoken (ht ▸ nofun)
      simp only [ht, if_true]
      refine (Runs.perform (ih (by omega) (by omega))).bind fun (es, last) _ => ?_
      exact .pure _
    · simp only [ht, if_false]
      exact .pure _

/-- Every member takes a token, so rounds that the length bounds are enough. -/
theorem members {k : Nat} (hk : text.length < k) (hn : 6 * text.length + 3 ≤ n) :
    Runs (Call.members.body text).run (p.members k text) := by
  induction k generalizing text with
  | zero => omega
  | succ k ih =>
    refine (Runs.perform (hp.differenceRuns hn)).bind fun (e?, rest) hdifference => ?_
    cases e? with
    | none => exact .pure _
    | some e =>
      have hlt := (hp.difference hdifference).length_lt (.inl rfl)
      refine (Runs.perform (ih (by omega) (by omega))).bind fun (es, last) _ => ?_
      exact .pure _

theorem readAlternation (hn : 6 * text.length + 4 ≤ n) :
    Runs (Call.alternation.body text).run (p.readAlternation text) :=
  (Runs.perform (hp.alternatives (Nat.lt_succ_self _) hn)).bind fun _ _ => .pure _

theorem readSequence (hn : 6 * text.length + 3 ≤ n) :
    Runs (Call.sequence.body text).run (p.readSequence text) :=
  (Runs.perform (hp.members (Nat.lt_succ_self _) hn)).bind fun _ _ => .pure _

theorem readDifference (hn : 6 * text.length + 2 ≤ n) :
    Runs (Call.difference.body text).run (p.readDifference text) := by
  refine (Runs.perform (hp.quantifiedRuns hn)).bind fun (left?, rest) hquantified => ?_
  cases left? with
  | none => exact .pure _
  | some left =>
    have hlt := (hp.quantified hquantified).length_lt (.inr (.inl rfl))
    refine (Runs.token rest).bind fun (t, after) htoken => ?_
    rw [Productions.token_eq] at htoken
    by_cases ht : t = .minus
    · have hlt' := Token.length_lt_of_next? htoken (ht ▸ nofun)
      simp only [ht, if_true]
      refine (Runs.perform (hp.primaryRuns (by omega))).bind fun (right?, last) _ => ?_
      cases right? with
      | none => exact .throw _
      | some right => exact .pure _
    · simp only [ht, if_false]
      exact .pure _

theorem readQuantified (hn : 6 * text.length + 1 ≤ n) :
    Runs (Call.quantified.body text).run (p.readQuantified text) := by
  refine (Runs.perform (hp.primaryRuns hn)).bind fun (e?, rest) _ => ?_
  cases e? with
  | none => exact .pure _
  | some e =>
    refine (Runs.token rest).bind fun (t, after) _ => ?_
    dsimp only
    cases t.repetition? with
    | none => exact .pure _
    | some op => exact .pure _

/-- The group within a primary starts behind a parenthesis. -/
theorem readPrimary (hn : 6 * text.length ≤ n) :
    Runs (Call.primary.body text).run (p.readPrimary text) := by
  refine (Runs.token text).bind fun (t, rest) htoken => ?_
  rw [Productions.token_eq] at htoken
  dsimp only
  cases t.leaf? with
  | some leaf => exact .pure _
  | none =>
    by_cases ht : t = .opening
    · have hlt := Token.length_lt_of_next? htoken (ht ▸ nofun)
      simp only [ht, if_true]
      refine (Runs.perform (hp.groupRuns (by omega))).bind fun (e, last) _ => ?_
      exact .pure _
    · simp only [ht, if_false]
      exact .pure _

theorem next : Performs (n + 1) p.next where
  toSound := hp.toSound.next
  groupRuns h := hp.readGroup (by omega)
  alternationRuns h := hp.readAlternation (by omega)
  sequenceRuns h := hp.readSequence (by omega)
  differenceRuns h := hp.readDifference (by omega)
  quantifiedRuns h := hp.readQuantified (by omega)
  primaryRuns h := hp.readPrimary (by omega)

end Performs

theorem performs_within (n : Nat) : Performs n (Productions.within id n) := by
  induction n with
  | zero =>
    refine ⟨sound_nothing, ?_, ?_, ?_, ?_, ?_, ?_⟩
    all_goals
      intro text h
      omega
  | succ n ih => exact ih.next

/-- The productions that may find nothing. -/
def Production.isOptional : Production → Bool
  | .group | .alternation | .sequence => false
  | .difference | .quantified | .primary => true

/-- The result of a production that always finds something, beside those of the others. -/
def Program.found (x : Program (Expr × List Char)) : Program (Option Expr × List Char) := do
  let (e, rest) ← x
  return (some e, rest)

def Production.called (production : Production) (text : List Char) :
    Program (Option Expr × List Char) :=
  match production with
  | .group => .found (Call.productions.group text)
  | .alternation => .found (Call.productions.alternation text)
  | .sequence => .found (Call.productions.sequence text)
  | .difference => Call.productions.difference text
  | .quantified => Call.productions.quantified text
  | .primary => Call.productions.primary text

theorem Runs.found {x : Program (Expr × List Char)} {y : Except Misreading (Expr × List Char)}
    (h : Runs x.run y) : Runs (Program.found x).run (y.map fun (e, rest) => (some e, rest)) := by
  have hmap : y.map (fun (e, rest) => (some e, rest)) = y >>= fun (e, rest) => .ok (some e, rest) := by
    cases y <;> rfl
  rw [hmap]
  exact h.bind fun _ _ => .pure _

/-- What a production leaves of a text, behind a run of tokens. One that finds nothing leaves all of it, and one
that finds something although it need not takes some of it. -/
structure Leaves (optional : Bool) (text : List Char) (e? : Option Expr) (rest : List Char) : Prop where
  reads : ∃ ts, Reads text ts rest
  nothing : e? = none → optional ∧ rest = text
  something : e?.isSome → optional → rest.length < text.length

section Read
variable {text rest : List Char} {e? : Option Expr}

theorem Found.leaves {form : Form} (hform : form = .difference ∨ form = .quantified ∨ form = .primary)
    (h : Found form text e? rest) : Leaves true text e? rest := by
  cases e? with
  | none =>
    obtain rfl : rest = text := h
    exact ⟨⟨[], .nil _⟩, fun _ => ⟨rfl, rfl⟩, nofun⟩
  | some e =>
    have hlt := h.length_lt hform
    obtain ⟨ts, -, hreads⟩ := h
    exact ⟨⟨ts, hreads⟩, nofun, fun _ _ => hlt⟩

theorem leaves_of_map {x : Except Misreading (Expr × List Char)}
    (hx : ∀ {e rest}, x = .ok (e, rest) → ∃ ts, Reads text ts rest)
    (h : (x.map fun (e, rest) => (some e, rest)) = .ok (e?, rest)) : Leaves false text e? rest := by
  cases x with
  | error m => cases h
  | ok result =>
    obtain ⟨rfl, rfl⟩ := Prod.mk.inj (Except.ok.inj h)
    exact ⟨hx rfl, nofun, nofun⟩

theorem leaves_of_read {production : Production} (h : Expr.read production text = .ok (e?, rest)) :
    Leaves production.isOptional text e? rest := by
  have hp := sound_within (Productions.callDepth text)
  cases production with
  | group =>
    refine leaves_of_map (fun h => ?_) h
    obtain ⟨ts, -, -, -, hreads | hreads⟩ := hp.group h
    · exact ⟨ts, hreads⟩
    · exact ⟨ts ++ [.closing], hreads⟩
  | alternation =>
    refine leaves_of_map (fun h => ?_) h
    obtain ⟨ts, -, -, -, hreads⟩ := hp.alternation h
    exact ⟨ts, hreads⟩
  | sequence =>
    refine leaves_of_map (fun h => ?_) h
    obtain ⟨ts, -, -, -, hreads⟩ := hp.sequence h
    exact ⟨ts, hreads⟩
  | difference => exact (hp.difference h).leaves (.inl rfl)
  | quantified => exact (hp.quantified h).leaves (.inr (.inl rfl))
  | primary => exact (hp.primary h).leaves (.inr (.inr rfl))

/-- The depth of calls that the length of a text bounds is enough. -/
theorem runs_read (production : Production) (text : List Char) :
    Runs (production.called text).run (Expr.read production text) := by
  have hp := performs_within (Productions.callDepth text)
  have hdepth : Productions.callDepth text = 6 * text.length + 6 := rfl
  cases production with
  | group => exact (Runs.perform (hp.groupRuns (by omega))).found
  | alternation => exact (Runs.perform (hp.alternationRuns (by omega))).found
  | sequence => exact (Runs.perform (hp.sequenceRuns (by omega))).found
  | difference => exact .perform (hp.differenceRuns (by omega))
  | quantified => exact .perform (hp.quantifiedRuns (by omega))
  | primary => exact .perform (hp.primaryRuns (by omega))

theorem exists_runs_body (call : Call) (text : List Char) :
    ∃ outcome, Runs (call.body text).run outcome := by
  have hp := performs_within (Productions.callDepth text)
  have hdepth : Productions.callDepth text = 6 * text.length + 6 := rfl
  cases call with
  | group => exact ⟨_, hp.groupRuns (by omega)⟩
  | alternation => exact ⟨_, hp.alternationRuns (by omega)⟩
  | sequence => exact ⟨_, hp.sequenceRuns (by omega)⟩
  | difference => exact ⟨_, hp.differenceRuns (by omega)⟩
  | quantified => exact ⟨_, hp.quantifiedRuns (by omega)⟩
  | primary => exact ⟨_, hp.primaryRuns (by omega)⟩
  | alternatives => exact ⟨_, hp.alternatives (Nat.lt_succ_self _) (by omega)⟩
  | members => exact ⟨_, hp.members (Nat.lt_succ_self _) (by omega)⟩

/-- Every production, and every list of alternatives or members, comes to an end on every text, with one outcome.
A production that returns leaves what is behind a run of tokens: all of the text if it finds nothing, as only
differences, quantified expressions and primaries may, and less of it if one of them finds something. Thus
every text is read as a right-hand side, or there is a fault of reading. -/
theorem read_progress (text : List Char) :
    (∀ call : Call, ∃! outcome, Runs (call.body text).run outcome) ∧
      (∀ production outcome,
        Runs (Production.called production text).run outcome ↔ Expr.read production text = outcome) ∧
      (∀ production e? rest, Expr.read production text = .ok (e?, rest) →
        rest <:+ text ∧ (∃ ts, Reads text ts rest) ∧
          (e? = none → production.isOptional ∧ rest = text) ∧
          (e?.isSome → production.isOptional → rest.length < text.length)) ∧
      ∃ outcome, Runs (Call.group.body text).run outcome ∧ Expr.parse? text = Expr.whole outcome ∧
        ∀ location, (∃ e, Fault.placing location (Expr.parse? text) = .ok e) ∨
          ∃ m, Fault.placing location (Expr.parse? text) = .error (.unreadable location m) := by
  refine ⟨fun call => ?_, fun production outcome => ?_, fun production e? rest h => ?_, ?_⟩
  · obtain ⟨outcome, hruns⟩ := exists_runs_body call text
    exact ⟨outcome, hruns, fun _ h => h.unique hruns⟩
  · have hruns := runs_read production text
    exact ⟨fun h => hruns.unique h, fun h => h ▸ hruns⟩
  · have hleaves := leaves_of_read h
    obtain ⟨ts, hreads⟩ := hleaves.reads
    exact ⟨hreads.isSuffix, ⟨ts, hreads⟩, hleaves.nothing, hleaves.something⟩
  · refine ⟨(Expr.reading text).group text,
      (performs_within (Productions.callDepth text)).groupRuns le_rfl, rfl, fun location => ?_⟩
    cases Expr.parse? text with
    | ok e => exact .inl ⟨e, rfl⟩
    | error m => exact .inr ⟨m, rfl⟩

/-- A group that stays open is read up to the end of the text. -/
theorem read_progress_openGroup :
    let text := "(a - b | c".toList
    Expr.read .primary text =
        .ok (some (.alt [.diff (.ref "a") (.ref "b"), .ref "c"]), []) ∧
      [] <:+ text ∧ (∃ ts, Reads text ts []) ∧ ([] : List Char).length < text.length := by
  intro text
  have hread : Expr.read .primary text =
      .ok (some (.alt [.diff (.ref "a") (.ref "b"), .ref "c"]), []) := by decide +kernel
  obtain ⟨-, -, hleaves, -⟩ := read_progress text
  obtain ⟨hsuffix, hreads, -, hlt⟩ := hleaves .primary _ _ hread
  exact ⟨hread, hsuffix, hreads, hlt rfl rfl⟩

end Read

end FlatGrammar
