import FlatGrammar.Proofs.Expr.Stopping
import FlatGrammar.Proofs.Grammar.FirstFault

/-! # The forms of spans

What starts a span is decided by looking ahead in the text, and what it says is read from the span, in
which comments are blank and the ends are trimmed. Both agree: blanks, words and the sign of definition
are the same in the span, so a rule that has been started can be split. Hence no text fails to load
because a definition was expected.
-/
namespace FlatGrammar

/-- The forms of a span behind its start. -/
inductive Span.HasForm (s : Span) : Lexeme → Prop
  | terminals {cs : List Char} (h : s.text = Lexeme.terminalsName) : HasForm s ⟨.terminals, cs⟩
  | pass {cs : List Char} (h : Lexeme.passName <+: s.text) : HasForm s ⟨.pass, cs⟩
  | definition {d : Definition} (hsplit : Definition.split? s.text = some d) (h : d.Written s.text) :
      HasForm s ⟨.header, '[' :: (d.id ++ [']'])⟩

theorem Passage.Stands.hasForm {p : Passage} {ls : List Lexeme} (hp : p.Stands ls)
    (hkind : p.start.kind ∈ [.header, .pass, .terminals]) (text : List Char) :
    (p.span text).HasForm p.start := by
  have hstart (kind : LexemeKind) (h : p.start.kind = kind) : p.start = ⟨kind, p.start.text⟩ := by
    rw [← h]
  simp only [List.mem_cons, List.not_mem_nil, or_false] at hkind
  rcases hkind with hheader | hpass | hterminals
  · obtain ⟨d, hsplit, hid⟩ := hp.exists_split? hheader
    obtain ⟨-, -, -, -, hwritten⟩ := split?_eq_some_iff.mp hsplit
    rw [hstart .header hheader, hid]
    exact .definition hsplit hwritten
  · rw [hstart .pass hpass]
    exact .pass (hp.isPass hpass)
  · rw [hstart .terminals hterminals]
    exact .terminals (hp.isTerminals hterminals)

theorem FirstFault.ne_noDefinition {file : Option String} {text rest : List Char} {location : Location} :
    ¬FirstFault file text (.unreadable location ⟨.noDefinition, rest⟩) := by
  intro h
  cases h with
  | declared _ _ hd =>
    cases hd with
    | unreadable _ hm => exact (stops_of_parse? hm).ne_noDefinition rfl

/-- Every span of a text starts the terminals, tells what passes, or is a definition with the id that it
has been started by. So a definition that cannot be split is no fault of any text. -/
theorem spans_hasForm (text : String) :
    (∀ s ∈ completeSpans text.toList, ∃ p ∈ passages text.toList, s = p.span text.toList ∧
        p.start.text <+: text.toList.drop p.position ∧ s.HasForm p.start) ∧
      ∀ file location rest,
        Grammar.load text file ≠ .error (.unreadable location ⟨.noDefinition, rest⟩) := by
  refine ⟨fun s hs => ?_, fun file location rest hload => ?_⟩
  · obtain ⟨item, hitem, hspan⟩ := List.mem_filterMap.mp hs
    cases item with
    | stray | openComment => cases hspan
    | span t =>
      obtain rfl := Option.some.inj hspan
      obtain ⟨p, hp, rfl, hkind, hposition, ls, hstands⟩ := exists_passage_of_mem_items hitem
      exact ⟨p, hp, rfl, hposition, hstands.hasForm hkind _⟩
  · rcases load_cases text file with ⟨⟨g, hg⟩, -⟩ | ⟨fault, hfault, hfirst⟩
    · rw [hload] at hg
      cases hg
    · obtain rfl := Except.error.inj (hload.symm.trans hfault)
      exact FirstFault.ne_noDefinition hfirst

/-- A comment behind the id takes the look of a definition from it, a comment behind the sign does not. -/
example : completeSpans "[1]/* a */ b ::= c\n[2]\td\n::=/* e */f".toList =
    [⟨"[2]\td\n::= f".toList, 2⟩] := by
  decide +kernel

end FlatGrammar
