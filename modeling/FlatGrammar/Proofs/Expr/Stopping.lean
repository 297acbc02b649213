import FlatGrammar.Proofs.Expr.Reading

/-! # Where reading stops

Reading a right-hand side stops behind a run of tokens: at text that no token starts, where a minus has no
operand, or at text that is left over in the end. Nothing else is in its way.
-/
namespace FlatGrammar

/-- What may be wrong with a single token. -/
def Obstacle.isLexical : Obstacle → Bool
  | openLiteral | embeddedQuote _ | openCharClass | badHexRef | badAtRef | unknownToken => true
  | missingOperand | leftover | openComment | noDefinition => false

/-- How reading stops that has started at a text. -/
inductive Stops (text : List Char) : Misreading → Prop
  | token {ts : List Token} {rest : List Char} {m : Misreading} (hreads : Reads text ts rest)
      (h : Token.next? rest = .error m) : Stops text m
  | missingOperand {ts : List Token} {rest : List Char} (hreads : Reads text (ts ++ [.minus]) rest) :
      Stops text ⟨.missingOperand, rest⟩
  | leftover {ts : List Token} {rest : List Char} (hreads : Reads text ts rest)
      (h : rest.all Text.isBlank = false) : Stops text ⟨.leftover, rest⟩

theorem bind_eq_error {ε α β : Type} {x : Except ε α} {f : α → Except ε β} {m : ε} :
    x >>= f = .error m ↔ x = .error m ∨ ∃ a, x = .ok a ∧ f a = .error m := by
  cases x <;> simp [bind, Except.bind]

section Tokens
variable {text body cs : List Char} {c : Char} {m : Misreading}

/-- The obstacle of a token that cannot be read from the start of a text. -/
def Misreading.IsLexical (m : Misreading) (text : List Char) : Prop :=
  m.obstacle.isLexical ∧ m.rest = text

namespace Token

theorem readLiteral_eq_error (h : readLiteral c body = .error m) : m.IsLexical (c :: body) := by
  unfold readLiteral at h
  split at h
  case h_1 =>
    obtain rfl := Except.error.inj h
    exact ⟨rfl, rfl⟩
  case h_2 =>
    split at h
    case isTrue =>
      obtain rfl := Except.error.inj h
      exact ⟨rfl, rfl⟩
    case isFalse => cases h

theorem readCharClass_eq_error (h : readCharClass body = .error m) : m.IsLexical ('[' :: body) := by
  unfold readCharClass at h
  split at h
  case h_1 =>
    obtain rfl := Except.error.inj h
    exact ⟨rfl, rfl⟩
  case h_2 => cases h

theorem readHexRef_eq_error (h : readHexRef body = .error m) : m.IsLexical ('#' :: body) := by
  unfold readHexRef at h
  split at h
  case h_1 =>
    split at h
    case h_1 =>
      obtain rfl := Except.error.inj h
      exact ⟨rfl, rfl⟩
    case h_2 => cases h
  case h_2 =>
    obtain rfl := Except.error.inj h
    exact ⟨rfl, rfl⟩

theorem readAtRef_eq_error (h : readAtRef body = .error m) : m.IsLexical ('@' :: body) := by
  unfold readAtRef at h
  split at h
  split at h
  case h_1 =>
    obtain rfl := Except.error.inj h
    exact ⟨rfl, rfl⟩
  case h_2 => cases h

theorem read_eq_error (h : read c cs = .error m) : m.IsLexical (c :: cs) := by
  unfold read at h
  split at h
  case isTrue => exact readLiteral_eq_error h
  case isFalse =>
    split at h
    case isTrue hbracket =>
      obtain rfl := eq_of_beq hbracket
      exact readCharClass_eq_error h
    case isFalse =>
      split at h
      case isTrue hsign =>
        obtain rfl := eq_of_beq hsign
        exact readHexRef_eq_error h
      case isFalse =>
        split at h
        case isTrue => cases h
        case isFalse =>
          split at h
          case isTrue hat =>
            obtain rfl := eq_of_beq hat
            exact readAtRef_eq_error h
          case isFalse =>
            split at h
            case h_1 => cases h
            case h_2 =>
              obtain rfl := Except.error.inj h
              exact ⟨rfl, rfl⟩

theorem next?_eq_error (h : next? text = .error m) : m.IsLexical (Text.trimStart text) := by
  unfold next? at h
  split at h
  case h_1 => cases h
  case h_2 c cs htrim => exact htrim ▸ read_eq_error h

end Token

end Tokens

theorem Stops.of_reads {text middle : List Char} {ts : List Token} {m : Misreading}
    (hreads : Reads text ts middle) (h : Stops middle m) : Stops text m := by
  cases h with
  | token hmore h => exact .token (hreads.append hmore) h
  | missingOperand hmore =>
    have hall := hreads.append hmore
    rw [← List.append_assoc] at hall
    exact .missingOperand hall
  | leftover hmore h => exact .leftover (hreads.append hmore) h

/-- Readers that stop as described. -/
structure Stopping (p : Productions (Except Misreading)) : Prop extends Sound p where
  groupStops : ∀ {text m}, p.group text = .error m → Stops text m
  alternationStops : ∀ {text m}, p.alternation text = .error m → Stops text m
  sequenceStops : ∀ {text m}, p.sequence text = .error m → Stops text m
  differenceStops : ∀ {text m}, p.difference text = .error m → Stops text m
  quantifiedStops : ∀ {text m}, p.quantified text = .error m → Stops text m
  primaryStops : ∀ {text m}, p.primary text = .error m → Stops text m

namespace Stopping
variable {p : Productions (Except Misreading)} (hp : Stopping p) {text : List Char} {m : Misreading}
include hp

theorem readGroup (h : p.readGroup text = .error m) : Stops text m := by
  rcases bind_eq_error.mp h with h | ⟨⟨e, middle⟩, halternation, h⟩
  · exact hp.alternationStops h
  · obtain ⟨ts, es, -, -, hreads⟩ := hp.alternation halternation
    rcases bind_eq_error.mp h with htoken | ⟨⟨t, after⟩, -, h⟩
    · rw [Productions.token_eq] at htoken
      exact .token hreads htoken
    · cases h

theorem alternatives {n : Nat} (h : p.alternatives n text = .error m) : Stops text m := by
  induction n generalizing text with
  | zero => cases h
  | succ n ih =>
    rcases bind_eq_error.mp h with h | ⟨⟨e, middle⟩, hsequence, h⟩
    · exact hp.sequenceStops h
    obtain ⟨ts, es, -, -, hreads⟩ := hp.sequence hsequence
    rcases bind_eq_error.mp h with htoken | ⟨⟨t, after⟩, htoken, h⟩
    · rw [Productions.token_eq] at htoken
      exact .token hreads htoken
    rw [Productions.token_eq] at htoken
    by_cases ht : t = .bar
    · subst ht
      rcases bind_eq_error.mp h with h | ⟨_, -, h⟩
      · exact .of_reads (hreads.append (.single htoken nofun)) (ih h)
      · cases h
    · simp only [ht, if_false] at h
      cases h

theorem members {n : Nat} (h : p.members n text = .error m) : Stops text m := by
  induction n generalizing text with
  | zero => cases h
  | succ n ih =>
    rcases bind_eq_error.mp h with h | ⟨⟨e?, middle⟩, hdifference, h⟩
    · exact hp.differenceStops h
    cases e? with
    | none => cases h
    | some e =>
      obtain ⟨ts, -, hreads⟩ := hp.difference hdifference
      rcases bind_eq_error.mp h with h | ⟨_, -, h⟩
      · exact .of_reads hreads (ih h)
      · cases h

theorem readDifference (h : p.readDifference text = .error m) : Stops text m := by
  rcases bind_eq_error.mp h with h | ⟨⟨left?, middle⟩, hquantified, h⟩
  · exact hp.quantifiedStops h
  cases left? with
  | none => cases h
  | some left =>
    obtain ⟨ts, -, hreads⟩ := hp.quantified hquantified
    rcases bind_eq_error.mp h with htoken | ⟨⟨t, after⟩, htoken, h⟩
    · rw [Productions.token_eq] at htoken
      exact .token hreads htoken
    rw [Productions.token_eq] at htoken
    by_cases ht : t = .minus
    · subst ht
      have hminus := hreads.append (.single htoken nofun)
      rcases bind_eq_error.mp h with h | ⟨⟨right?, last⟩, hprimary, h⟩
      · exact .of_reads hminus (hp.primaryStops h)
      cases right? with
      | some right => cases h
      | none =>
        obtain rfl := Except.error.inj h
        -- A primary that finds nothing leaves the text behind the minus.
        obtain rfl : last = after := hp.primary hprimary
        exact .missingOperand hminus
    · simp only [ht, if_false] at h
      cases h

theorem readQuantified (h : p.readQuantified text = .error m) : Stops text m := by
  rcases bind_eq_error.mp h with h | ⟨⟨e?, middle⟩, hprimary, h⟩
  · exact hp.primaryStops h
  cases e? with
  | none => cases h
  | some e =>
    obtain ⟨ts, -, hreads⟩ := hp.primary hprimary
    rcases bind_eq_error.mp h with htoken | ⟨⟨t, after⟩, -, h⟩
    · rw [Productions.token_eq] at htoken
      exact .token hreads htoken
    · cases hop : t.repetition? <;> simp only [hop] at h <;> cases h

theorem readPrimary (h : p.readPrimary text = .error m) : Stops text m := by
  rcases bind_eq_error.mp h with htoken | ⟨⟨t, rest⟩, htoken, h⟩
  · rw [Productions.token_eq] at htoken
    exact .token (.nil text) htoken
  rw [Productions.token_eq] at htoken
  cases hleaf : t.leaf? with
  | some leaf =>
    simp only [hleaf] at h
    cases h
  | none =>
    simp only [hleaf] at h
    by_cases ht : t = .opening
    · subst ht
      rcases bind_eq_error.mp h with h | ⟨_, -, h⟩
      · exact .of_reads (.single htoken nofun) (hp.groupStops h)
      · cases h
    · simp only [ht, if_false] at h
      cases h

theorem next : Stopping p.next where
  toSound := hp.toSound.next
  groupStops h := hp.readGroup h
  alternationStops h := by
    rcases bind_eq_error.mp h with h | ⟨_, -, h⟩
    · exact hp.alternatives h
    · cases h
  sequenceStops h := by
    rcases bind_eq_error.mp h with h | ⟨_, -, h⟩
    · exact hp.members h
    · cases h
  differenceStops h := hp.readDifference h
  quantifiedStops h := hp.readQuantified h
  primaryStops h := hp.readPrimary h

end Stopping

theorem stopping_within (n : Nat) : Stopping (Productions.within id n) := by
  induction n with
  | zero =>
    refine ⟨sound_nothing, ?_, ?_, ?_, ?_, ?_, ?_⟩
    all_goals
      intro text m h
      cases h
  | succ n ih => exact ih.next

/-- A right-hand side that cannot be read is read up to where something is in the way. -/
theorem stops_of_parse? {text : List Char} {m : Misreading} (h : Expr.parse? text = .error m) :
    Stops text m := by
  have hstopping := stopping_within (Productions.callDepth text)
  unfold Expr.parse? Expr.whole at h
  split at h
  case h_1 hgroup =>
    obtain rfl := Except.error.inj h
    exact hstopping.groupStops hgroup
  case h_2 hgroup =>
    obtain ⟨ts, es, -, -, hreads⟩ := hstopping.group hgroup
    split at h
    case isTrue => cases h
    case isFalse hblank =>
      obtain rfl := Except.error.inj h
      rcases hreads with hreads | hreads
      · exact .leftover hreads (Bool.eq_false_iff.mpr hblank)
      · exact .leftover hreads (Bool.eq_false_iff.mpr hblank)

theorem Stops.ne_noDefinition {text : List Char} {m : Misreading} (h : Stops text m) :
    m.obstacle ≠ .noDefinition := by
  cases h with
  | token _ h =>
    intro hm
    have hlexical := (Token.next?_eq_error h).1
    rw [hm] at hlexical
    cases hlexical
  | missingOperand => nofun
  | leftover => nofun

/-- Where reading stops, something is left of the text: tokens have been read up to there, blanks aside. -/
theorem Stops.exists_reads {text : List Char} {m : Misreading} (h : Stops text m) :
    m.rest <:+ text ∧ ∃ ts rest, Reads text ts rest ∧ Text.trimStart rest = Text.trimStart m.rest := by
  cases h with
  | @token ts rest _ hreads h =>
    have hrest : m.rest = Text.trimStart rest := (Token.next?_eq_error h).2
    have htrim : Text.trimStart (Text.trimStart rest) = Text.trimStart rest :=
      List.dropWhile_idempotent Text.isBlank rest
    rw [hrest, htrim]
    exact ⟨(List.dropWhile_suffix _).trans hreads.isSuffix, ts, rest, hreads, rfl⟩
  | missingOperand hreads => exact ⟨hreads.isSuffix, _, _, hreads, rfl⟩
  | leftover hreads => exact ⟨hreads.isSuffix, _, _, hreads, rfl⟩

/-- An obstacle within a token stands in the way of reading it again from where it was met. -/
theorem Stops.next?_eq_error {text : List Char} {m : Misreading} (h : Stops text m)
    (hm : m.obstacle.isLexical) : Token.next? m.rest = .error m := by
  cases h with
  | token _ h =>
    rw [(Token.next?_eq_error h).2, next?_trimStart]
    exact h
  | missingOperand | leftover => cases hm

theorem Stops.obstacle_cases {text : List Char} {m : Misreading} (h : Stops text m) :
    m.obstacle.isLexical ∨
      m.obstacle = .missingOperand ∧ (∃ ts, Reads text (ts ++ [.minus]) m.rest) ∨
      m.obstacle = .leftover ∧ m.rest.all Text.isBlank = false := by
  cases h with
  | token _ h => exact .inl (Token.next?_eq_error h).1
  | missingOperand hreads => exact .inr (.inl ⟨rfl, _, hreads⟩)
  | leftover _ h => exact .inr (.inr ⟨rfl, h⟩)

theorem placing_eq_error {α : Type} {location : Location} {x : Except Misreading α} {f : Fault}
    (h : Fault.placing location x = .error f) : ∃ m, x = .error m ∧ f = .unreadable location m := by
  cases x with
  | ok a => cases h
  | error m => exact ⟨m, rfl, (Except.error.inj h).symm⟩

/-- A fault of a right-hand side is reported at its location, with the text from where reading stopped. That
is what a number of tokens leave, blanks aside; a token that cannot be read cannot be read from there either,
and what is left over is not blank. -/
theorem fault_of_parse? {location : Location} {text : List Char} {f : Fault}
    (h : Fault.placing location (Expr.parse? text) = .error f) : ∃ m : Misreading,
    (∀ colors, f.report colors =
        { location, kind := .unreadable (some (String.ofList m.rest)),
          message := m.obstacle.message }) ∧
      m.rest <:+ text ∧
      (∃ ts rest, Reads text ts rest ∧ Text.trimStart rest = Text.trimStart m.rest) ∧
      (m.obstacle.isLexical ∧ Token.next? m.rest = .error m ∨
        m.obstacle = .missingOperand ∧ (∃ ts, Reads text (ts ++ [.minus]) m.rest) ∨
        m.obstacle = .leftover ∧ m.rest.all Text.isBlank = false) := by
  obtain ⟨m, hparse, rfl⟩ := placing_eq_error h
  have hstops := stops_of_parse? hparse
  obtain ⟨hsuffix, hreads⟩ := hstops.exists_reads
  exact ⟨m, fun _ => rfl, hsuffix, hreads,
    hstops.obstacle_cases.imp_left fun hm => ⟨hm, hstops.next?_eq_error hm⟩⟩

/-- The minus within two groups has no operand, and the blank behind it is left. -/
theorem fault_of_parse?_nestedMinus :
    let location : Location := ⟨some "g.ebnf", some 3⟩
    let text := "(a | (b - | c))".toList
    let f : Fault := .unreadable location ⟨.missingOperand, " | c))".toList⟩
    Fault.placing location (Expr.parse? text) = .error f ∧ ∃ m : Misreading,
      (∀ colors, f.report colors =
          { location, kind := .unreadable (some (String.ofList m.rest)),
            message := m.obstacle.message }) ∧
        m.rest <:+ text ∧
        (∃ ts rest, Reads text ts rest ∧ Text.trimStart rest = Text.trimStart m.rest) ∧
        (m.obstacle.isLexical ∧ Token.next? m.rest = .error m ∨
          m.obstacle = .missingOperand ∧ (∃ ts, Reads text (ts ++ [.minus]) m.rest) ∨
          m.obstacle = .leftover ∧ m.rest.all Text.isBlank = false) := by
  intro location text f
  have hparse : Fault.placing location (Expr.parse? text) = .error f := by decide +kernel
  exact ⟨hparse, fault_of_parse? hparse⟩

end FlatGrammar
