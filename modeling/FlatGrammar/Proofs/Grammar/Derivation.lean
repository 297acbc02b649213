import FlatGrammar.Proofs.Expr.Fold
import FlatGrammar.Rule.Basic
import Mathlib

/-! # Derivations of rules

Rules as a grammar over letters. Terminal values and names without a definition stand for themselves,
and a difference pairs a word of each side in one letter, so that both sides can be told from it. The
words of a symbol are the least interpretation under which every rule holds.
-/
namespace FlatGrammar
open Computability

inductive Letter where
  | terminal (value : Terminal)
  | name (name : Option String)
  | pair (left right : List Letter)

def definedSymbols (rules : List Rule) : List String := rules.filterMap Rule.symbol

/-- The words that an expression derives when its references are read as the rules say. -/
inductive Derives (rules : List Rule) : Expr → List Letter → Prop
  | terminal (t : Terminal) : Derives rules (.terminal t) [.terminal t]
  | defined {r : Rule} {s : String} {w : List Letter} (hr : r ∈ rules) (hs : r.symbol = some s)
      (h : Derives rules r.expr w) : Derives rules (.ref s) w
  | undefined {name : Option String} (h : ∀ s ∈ definedSymbols rules, name ≠ some s) :
      Derives rules (.symbol name) [.name name]
  | seqNil : Derives rules (.seq []) []
  | seqCons {e : Expr} {es : List Expr} {v w : List Letter} (he : Derives rules e v)
      (hes : Derives rules (.seq es) w) : Derives rules (.seq (e :: es)) (v ++ w)
  | alt {e : Expr} {es : List Expr} {w : List Letter} (he : e ∈ es) (h : Derives rules e w) :
      Derives rules (.alt es) w
  | optNone {e : Expr} : Derives rules (.opt e) []
  | optSome {e : Expr} {w : List Letter} (h : Derives rules e w) : Derives rules (.opt e) w
  | starNil {e : Expr} : Derives rules (.star e) []
  | starCons {e : Expr} {v w : List Letter} (h : Derives rules e v)
      (hs : Derives rules (.star e) w) : Derives rules (.star e) (v ++ w)
  | plus {e : Expr} {v w : List Letter} (h : Derives rules e v)
      (hs : Derives rules (.star e) w) : Derives rules (.plus e) (v ++ w)
  | diff {l r : Expr} {v w : List Letter} (hl : Derives rules l v) (hr : Derives rules r w) :
      Derives rules (.diff l r) [.pair v w]

abbrev Interpretation := Option String → Language Letter

/-- The one-letter words that pair a word of each language. -/
def pairs (l m : Language Letter) : Language Letter := {w | ∃ u ∈ l, ∃ v ∈ m, w = [.pair u v]}

def Repetition.words (l : Language Letter) : Repetition → Language Letter
  | .opt => 1 + l
  | .star => l∗
  | .plus => l * l∗

def Series.words (ls : List (Language Letter)) : Series → Language Letter
  | .seq => ls.prod
  | .alt => ls.sum

namespace Expr
variable (env : Interpretation)

mutual

def words : Expr → Language Letter
  | symbol name => env name
  | terminal t => {[.terminal t]}
  | series op es => op.words (wordsList es)
  | diff l r => pairs l.words r.words
  | repeated op e => op.words e.words

def wordsList : List Expr → List (Language Letter)
  | [] => []
  | e :: es => e.words :: wordsList es

end

theorem wordsList_eq_map (es : List Expr) : wordsList env es = es.map (words env) := by
  induction es with
  | nil => rfl
  | cons e es ih => simp [wordsList, ih]

@[simp] theorem words_seq (es : List Expr) : (seq es).words env = (es.map (words env)).prod := by
  simp [words, wordsList_eq_map, Series.words]

@[simp] theorem words_alt (es : List Expr) : (alt es).words env = (es.map (words env)).sum := by
  simp [words, wordsList_eq_map, Series.words]

@[simp] theorem words_symbol (name : Option String) : (symbol name).words env = env name := by
  simp [words]

@[simp] theorem words_repeated (op : Repetition) (e : Expr) :
    (repeated op e).words env = op.words (e.words env) := by
  simp [words]

theorem mem_words_alt {es : List Expr} {w : List Letter} :
    w ∈ (alt es).words env ↔ ∃ e ∈ es, w ∈ e.words env := by
  rw [words_alt]
  induction es with
  | nil => simp [Language.notMem_zero]
  | cons e es ih =>
    rw [List.map_cons, List.sum_cons, Language.mem_add, ih]
    simp

variable {env}

/-- The words depend on the interpretation of the names referred to alone. -/
theorem words_congr {env' : Interpretation} {e : Expr}
    (h : ∀ name ∈ e.references, env name = env' name) : e.words env = e.words env' := by
  induction e using operands_induction with
  | step e ih =>
    have hmap : ∀ o ∈ e.operands, o.words env = o.words env' := fun o ho =>
      ih o ho fun name hname => h name (mem_references_of_operand ho hname)
    cases e with
    | symbol name => simpa using h name (by simp)
    | terminal t => rfl
    | series op es =>
      simp only [words, wordsList_eq_map]
      exact congrArg (fun ls => op.words ls) (List.map_congr_left hmap)
    | diff l r =>
      simp only [words]
      rw [hmap l (by simp [operands]), hmap r (by simp [operands])]
    | repeated op e =>
      simp only [words]
      rw [hmap e (by simp [operands])]

theorem words_withOperands {env' : Interpretation} {e : Expr} {es : List Expr}
    (hname : ∀ name, e ≠ symbol name)
    (h : es.map (words env') = e.operands.map (words env)) :
    (e.withOperands es).words env' = e.words env := by
  have hlength : es.length = e.operands.length := by simpa using congrArg List.length h
  cases e with
  | symbol name => exact absurd rfl (hname name)
  | terminal t => rfl
  | series op fs =>
    simp only [withOperands, words, wordsList_eq_map]
    rw [h]
    rfl
  | diff l r =>
    obtain ⟨a, b, rfl⟩ := List.length_eq_two.mp hlength
    obtain ⟨ha, hb⟩ : a.words env' = l.words env ∧ b.words env' = r.words env := by
      simpa [operands] using h
    simp [withOperands, words, ha, hb]
  | repeated op o =>
    obtain ⟨a, rfl⟩ := List.length_eq_one_iff.mp hlength
    have ha : a.words env' = o.words env := by simpa [operands] using h
    simp [withOperands, words, ha]

end Expr

/-- The words that each name derives. -/
def derived (rules : List Rule) : Interpretation := fun name => {w | Derives rules (.symbol name) w}

theorem Derives.star_flatten {rules : List Rule} {e : Expr} {ws : List (List Letter)}
    (h : ∀ w ∈ ws, Derives rules e w) : Derives rules (.star e) ws.flatten := by
  induction ws with
  | nil => exact .starNil
  | cons w ws ih =>
    exact .starCons (h w List.mem_cons_self) (ih fun v hv => h v (List.mem_cons_of_mem w hv))

theorem derives_of_mem_words {rules : List Rule} {e : Expr} {w : List Letter}
    (h : w ∈ e.words (derived rules)) : Derives rules e w := by
  induction e using Expr.operands_induction generalizing w with
  | step e ih =>
    cases e with
    | symbol name => exact h
    | terminal t => obtain rfl := h; exact .terminal t
    | series op es =>
      cases op with
      | seq =>
        rw [Expr.words_seq] at h
        replace ih : ∀ o ∈ es, ∀ {w}, w ∈ o.words (derived rules) → Derives rules o w := ih
        induction es generalizing w with
        | nil => obtain rfl := h; exact .seqNil
        | cons e es ihes =>
          obtain ⟨u, hu, v, hv, rfl⟩ := Language.mem_mul.mp h
          exact .seqCons (ih e List.mem_cons_self hu)
            (ihes hv fun o ho => ih o (List.mem_cons_of_mem e ho))
      | alt =>
        obtain ⟨e, he, hw⟩ := (Expr.mem_words_alt _).mp h
        exact .alt he (ih e he hw)
    | diff l r =>
      obtain ⟨u, hu, v, hv, rfl⟩ := h
      exact .diff (ih l (by simp [Expr.operands]) hu) (ih r (by simp [Expr.operands]) hv)
    | repeated op e =>
      replace ih : ∀ {w}, w ∈ e.words (derived rules) → Derives rules e w :=
        ih e (by simp [Expr.operands])
      cases op with
      | opt =>
        rcases h with h | h
        · obtain rfl := h
          exact .optNone
        · exact .optSome (ih h)
      | star =>
        obtain ⟨ws, rfl, hws⟩ := Language.mem_kstar.mp h
        exact .star_flatten fun w hw => ih (hws w hw)
      | plus =>
        obtain ⟨u, hu, v, hv, rfl⟩ := Language.mem_mul.mp h
        obtain ⟨ws, rfl, hws⟩ := Language.mem_kstar.mp hv
        exact .plus (ih hu) (.star_flatten fun w hw => ih (hws w hw))

/-- An interpretation under which every rule holds, and names without a definition stand for
themselves. -/
structure IsModel (rules : List Rule) (env : Interpretation) : Prop where
  defined : ∀ r ∈ rules, ∀ s, r.symbol = some s → r.expr.words env ≤ env (some s)
  undefined : ∀ name, (∀ s ∈ definedSymbols rules, name ≠ some s) → [.name name] ∈ env name

theorem isModel_derived (rules : List Rule) : IsModel rules (derived rules) where
  defined _ hr _ hs _ hw := .defined hr hs (derives_of_mem_words hw)
  undefined _ h := .undefined h

/-- No derivation leaves a model. -/
theorem IsModel.mem_words {rules : List Rule} {env : Interpretation} (hm : IsModel rules env)
    {e : Expr} {w : List Letter} (h : Derives rules e w) : w ∈ e.words env := by
  induction h with
  | terminal t => rfl
  | defined hr hs _ ih => exact hm.defined _ hr _ hs ih
  | undefined h => exact hm.undefined _ h
  | seqNil => simp
  | seqCons _ _ ihe ihes =>
    rw [Expr.words_seq] at ihes ⊢
    exact Language.append_mem_mul ihe ihes
  | alt he _ ih => exact (Expr.mem_words_alt _).mpr ⟨_, he, ih⟩
  | optNone => exact .inl rfl
  | optSome _ ih => exact .inr ih
  | starNil => exact Language.nil_mem_kstar _
  | @starCons e _ _ _ _ ih ihs =>
    have hstar : e.words env * (e.words env)∗ ≤ (e.words env)∗ := mul_kstar_le_kstar
    exact hstar (Language.append_mem_mul ih ihs)
  | plus _ _ ih ihs => exact Language.append_mem_mul ih ihs
  | diff _ _ ihl ihr => exact ⟨_, ihl, _, ihr, rfl⟩

theorem derives_iff_mem_words {rules : List Rule} {e : Expr} {w : List Letter} :
    Derives rules e w ↔ w ∈ e.words (derived rules) :=
  ⟨(isModel_derived rules).mem_words, derives_of_mem_words⟩

end FlatGrammar
