import FlatGrammar.Rule.Name
import Mathlib.Data.List.Basic

/-! # Paths to parts

The symbol of a part is that of its rule followed by one suffix for each step down to it. Suffixes have
no underscore, which stands in front of each of them, so a symbol tells its path once the rule is known.
Two rules can share a symbol among their parts only if one of them is named like a part of the other.
Ids of parts are written in the same way, with a dot or a star where a step starts.
-/
namespace FlatGrammar

/-- How a part is told from the others of its rule. -/
inductive PartName where
  | operator (n : Nat)
  | value (n : Nat)
  | star
  deriving DecidableEq

namespace PartName

def suffix : PartName → String
  | operator n => toString n
  | value n => "term" ++ toString n
  | star => "star"

def id (base : String) : PartName → String
  | operator n => base ++ "." ++ toString n
  | value n => base ++ ".term" ++ toString n
  | star => base ++ "*"

theorem toList_toString (n : Nat) : (toString n).toList = Nat.toDigits 10 n := Nat.toList_repr

theorem underscore_notMem_suffix (p : PartName) : '_' ∉ p.suffix.toList := by
  cases p with
  | operator n =>
    simp only [suffix, toList_toString]
    exact Nat.underscore_not_in_toDigits
  | value n =>
    simp only [suffix, String.toList_append, toList_toString, List.mem_append, not_or]
    exact ⟨by decide, Nat.underscore_not_in_toDigits⟩
  | star => decide

theorem toDigits_injective {m n : Nat} (h : Nat.toDigits 10 m = Nat.toDigits 10 n) : m = n := by
  have hm := Nat.ofDigitChars_ten_toDigits (n := m)
  rwa [h, Nat.ofDigitChars_ten_toDigits, eq_comm] at hm

theorem suffix_injective {p q : PartName} (h : p.suffix = q.suffix) : p = q := by
  have hchars := congrArg String.toList h
  have hdigit : ∀ (n : Nat) (c : Char) (cs : List Char), c.isDigit = false →
      Nat.toDigits 10 n ≠ c :: cs := by
    intro n c cs hc heq
    have hmem : c ∈ Nat.toDigits 10 n := heq ▸ List.mem_cons_self
    simp [Nat.isDigit_of_mem_toDigits (by decide) (by decide) hmem] at hc
  have hterm : "term".toList = ['t', 'e', 'r', 'm'] := by decide
  have hstar : "star".toList = ['s', 't', 'a', 'r'] := by decide
  cases p <;> cases q <;>
    simp only [suffix, String.toList_append, toList_toString, hterm, hstar] at hchars
  case operator.operator m n => rw [toDigits_injective hchars]
  case operator.value m n => exact absurd hchars (hdigit m _ _ (by decide))
  case operator.star m => exact absurd hchars (hdigit m _ _ (by decide))
  case value.operator m n => exact absurd hchars.symm (hdigit n _ _ (by decide))
  case value.value m n => rw [toDigits_injective (List.append_cancel_left hchars)]
  case value.star m => simp at hchars
  case star.operator n => exact absurd hchars.symm (hdigit n _ _ (by decide))
  case star.value n => simp at hchars
  case star.star => rfl

end PartName

/-- Pieces that can be told apart where they are written one after another: each starts with a mark,
and no mark stands further inside. -/
structure Marked (mark : Char → Prop) (piece : PartName → List Char) : Prop where
  starts : ∀ p, ∃ c cs, piece p = c :: cs ∧ mark c ∧ ∀ d ∈ cs, ¬mark d
  injective : ∀ {p q}, piece p = piece q → p = q

namespace Marked
variable {mark : Char → Prop} {piece : PartName → List Char} {path rest : List PartName}
  {cs ds : List Char}

theorem eq_nil_of_flatMap (hpiece : Marked mark piece) (h : path.flatMap piece = []) : path = [] := by
  cases path with
  | nil => rfl
  | cons p path =>
    obtain ⟨c, cs, hp, -⟩ := hpiece.starts p
    simp [hp] at h

theorem eq_nil_of_flatMap_eq (hpiece : Marked mark piece) (h : path.flatMap piece = cs ++ ds)
    (hcs : ∀ c ∈ cs, ¬mark c) : cs = [] := by
  cases cs with
  | nil => rfl
  | cons c cs =>
    cases path with
    | nil => simp at h
    | cons p path =>
      obtain ⟨d, ds, hp, hmark, -⟩ := hpiece.starts p
      rw [List.flatMap_cons, hp] at h
      obtain ⟨rfl, -⟩ := List.cons.inj h
      exact absurd hmark (hcs d List.mem_cons_self)

/-- What stands in front of the pieces of a path within the pieces of another is the pieces of a path
that leads from the one to the other. -/
theorem exists_eq_append (hpiece : Marked mark piece)
    (h : path.flatMap piece = cs ++ rest.flatMap piece) :
    ∃ first, path = first ++ rest ∧ cs = first.flatMap piece := by
  induction path generalizing cs rest with
  | nil =>
    obtain ⟨rfl, hrest⟩ := List.append_eq_nil_iff.mp h.symm
    obtain rfl := hpiece.eq_nil_of_flatMap hrest
    exact ⟨[], rfl, rfl⟩
  | cons p path ih =>
    obtain ⟨c, body, hp, -, hbody⟩ := hpiece.starts p
    rw [List.flatMap_cons, hp] at h
    cases cs with
    | nil =>
      cases rest with
      | nil => simp at h
      | cons q rest =>
        obtain ⟨d, body', hq, -, hbody'⟩ := hpiece.starts q
        rw [List.flatMap_cons, hq] at h
        obtain ⟨rfl, htail⟩ := List.cons.inj h
        -- The marks behind the two first pieces stand at the same place.
        obtain ⟨rfl, hpaths⟩ : body = body' ∧ path.flatMap piece = [] ++ rest.flatMap piece := by
          rcases List.append_eq_append_iff.mp htail with ⟨as, rfl, hpath⟩ | ⟨as, rfl, hrest⟩
          · obtain rfl := hpiece.eq_nil_of_flatMap_eq hpath fun a ha =>
              hbody' a (List.mem_append_right _ ha)
            exact ⟨(List.append_nil _).symm, hpath⟩
          · obtain rfl := hpiece.eq_nil_of_flatMap_eq hrest fun a ha =>
              hbody a (List.mem_append_right _ ha)
            exact ⟨List.append_nil _, hrest.symm⟩
        obtain rfl := hpiece.injective (hp.trans hq.symm)
        obtain ⟨first, rfl, hfirst⟩ := ih hpaths
        obtain rfl := hpiece.eq_nil_of_flatMap hfirst.symm
        exact ⟨[], rfl, rfl⟩
    | cons d cs =>
      obtain ⟨rfl, htail⟩ := List.cons.inj h
      rcases List.append_eq_append_iff.mp htail with ⟨as, rfl, hpath⟩ | ⟨as, hcut, hrest⟩
      · obtain ⟨first, rfl, rfl⟩ := ih hpath
        exact ⟨p :: first, rfl, by rw [List.flatMap_cons, hp, List.cons_append]⟩
      · obtain rfl := hpiece.eq_nil_of_flatMap_eq hrest fun a ha =>
          hbody a (hcut ▸ List.mem_append_right _ ha)
        have hpath : path.flatMap piece = [] ++ rest.flatMap piece := hrest.symm
        obtain ⟨first, rfl, hfirst⟩ := ih hpath
        exact ⟨p :: first, rfl, by simp [hp, hcut, ← hfirst]⟩

theorem flatMap_injective (hpiece : Marked mark piece) (h : path.flatMap piece = rest.flatMap piece) :
    path = rest := by
  have hnil : path.flatMap piece = [] ++ rest.flatMap piece := h
  obtain ⟨first, rfl, hfirst⟩ := hpiece.exists_eq_append hnil
  obtain rfl := hpiece.eq_nil_of_flatMap hfirst.symm
  rfl

end Marked

/-- The symbol of the part reached along a path. -/
def symbolAlong (s : String) : List PartName → String
  | [] => s
  | p :: path => symbolAlong (derivedSymbol s p.suffix) path

def idAlong (id : String) : List PartName → String
  | [] => id
  | p :: path => idAlong (p.id id) path

/-- What the symbols of all parts of a rule start with. -/
def stem (s : String) : List Char :=
  if s.toList.head? == some '_' then s.toList else '_' :: s.toList

def trail (path : List PartName) : List Char := path.flatMap fun p => '_' :: p.suffix.toList

@[simp] theorem trail_nil : trail [] = [] := rfl

@[simp] theorem trail_cons (p : PartName) (path : List PartName) :
    trail (p :: path) = '_' :: p.suffix.toList ++ trail path := rfl

theorem toList_derivedSymbol (s suffix : String) :
    (derivedSymbol s suffix).toList = stem s ++ '_' :: suffix.toList := by
  unfold derivedSymbol stem
  split <;> simp

theorem head?_stem (s : String) : (stem s).head? = some '_' := by
  unfold stem
  split
  case isTrue h => simpa using h
  case isFalse => rfl

theorem stem_derivedSymbol (s suffix : String) :
    stem (derivedSymbol s suffix) = stem s ++ '_' :: suffix.toList := by
  have hhead : (derivedSymbol s suffix).toList.head? = some '_' := by
    rw [toList_derivedSymbol, List.head?_append, head?_stem]
    rfl
  rw [← toList_derivedSymbol]
  simp [stem, hhead]

theorem stem_symbolAlong (s : String) (path : List PartName) :
    stem (symbolAlong s path) = stem s ++ trail path := by
  induction path generalizing s with
  | nil => simp [symbolAlong]
  | cons p path ih =>
    rw [symbolAlong, ih, stem_derivedSymbol, trail_cons, List.append_assoc]

theorem toList_symbolAlong (s : String) {path : List PartName} (hpath : path ≠ []) :
    (symbolAlong s path).toList = stem s ++ trail path := by
  obtain ⟨p, path, rfl⟩ := List.exists_cons_of_ne_nil hpath
  rw [← stem_symbolAlong]
  induction path generalizing s p with
  | nil => rw [symbolAlong, symbolAlong, toList_derivedSymbol, stem_derivedSymbol]
  | cons q path ih =>
    rw [symbolAlong]
    exact ih (derivedSymbol s p.suffix) q (by simp)

theorem marked_suffix : Marked (· = '_') fun p => '_' :: p.suffix.toList where
  starts p := ⟨'_', _, rfl, rfl, fun _ hd hmark => p.underscore_notMem_suffix (hmark ▸ hd)⟩
  injective h := PartName.suffix_injective (String.toList_injective (List.cons.inj h).2)

theorem trail_injective {path rest : List PartName} (h : trail path = trail rest) : path = rest :=
  marked_suffix.flatMap_injective h

/-- What stands in front of a trail within a trail is itself a trail. -/
theorem exists_trail_eq {path rest : List PartName} {cs : List Char}
    (h : trail path = cs ++ trail rest) : ∃ first, cs = trail first := by
  obtain ⟨first, -, hcs⟩ := marked_suffix.exists_eq_append h
  exact ⟨first, hcs⟩

/-- Within one rule, different paths lead to different symbols. -/
theorem symbolAlong_injective {s : String} {path rest : List PartName}
    (h : symbolAlong s path = symbolAlong s rest) : path = rest := by
  have hstem := congrArg stem h
  rw [stem_symbolAlong, stem_symbolAlong] at hstem
  exact trail_injective (List.append_cancel_left hstem)

/-- A symbol is named like a part of another if a path leads from stem to stem. The empty path counts:
an underscore in front is not part of the name. -/
def NamedUnder (s t : String) : Prop := ∃ path, stem t = stem s ++ trail path

theorem namedUnder_of_symbolAlong_eq {s t : String} {path rest : List PartName}
    (h : symbolAlong s path = symbolAlong t rest) : NamedUnder s t ∨ NamedUnder t s := by
  have hstem := congrArg stem h
  rw [stem_symbolAlong, stem_symbolAlong] at hstem
  rcases List.append_eq_append_iff.mp hstem with ⟨cs, ht, htrail⟩ | ⟨cs, hs, htrail⟩
  · obtain ⟨first, rfl⟩ := exists_trail_eq htrail
    exact .inl ⟨first, ht⟩
  · obtain ⟨first, rfl⟩ := exists_trail_eq htrail
    exact .inr ⟨first, hs⟩

theorem symbolAlong_ne {s t : String} {path : List PartName} (hpath : path ≠ [])
    (ht : t.toList.head? ≠ some '_') : symbolAlong s path ≠ t := by
  rintro rfl
  rw [toList_symbolAlong s hpath, List.head?_append, head?_stem] at ht
  exact ht rfl

/-- What the id of a part has behind that of its rule. -/
def PartName.idPiece : PartName → List Char
  | operator n => '.' :: Nat.toDigits 10 n
  | value n => '.' :: "term".toList ++ Nat.toDigits 10 n
  | star => ['*']

def isIdMark (c : Char) : Prop := c = '.' ∨ c = '*'

theorem toList_id (p : PartName) (id : String) : (p.id id).toList = id.toList ++ p.idPiece := by
  cases p <;> simp [PartName.id, PartName.idPiece, String.toList_append]

theorem toList_idAlong (id : String) (path : List PartName) :
    (idAlong id path).toList = id.toList ++ path.flatMap PartName.idPiece := by
  induction path generalizing id with
  | nil => simp [idAlong]
  | cons p path ih => rw [idAlong, ih, toList_id, List.flatMap_cons, List.append_assoc]

theorem not_isIdMark_of_isDigit {c : Char} (h : c.isDigit) : ¬isIdMark c := by
  rintro (rfl | rfl) <;> exact absurd h (by decide)

theorem isDigit_of_mem {n : Nat} {c : Char} (h : c ∈ Nat.toDigits 10 n) : c.isDigit :=
  Nat.isDigit_of_mem_toDigits (by decide) (by decide) h

theorem marked_idPiece : Marked isIdMark PartName.idPiece where
  starts p := by
    cases p with
    | operator n =>
      exact ⟨'.', _, rfl, .inl rfl, fun c hc => not_isIdMark_of_isDigit (isDigit_of_mem hc)⟩
    | value n =>
      refine ⟨'.', _, rfl, .inl rfl, fun c hc => ?_⟩
      rcases List.mem_append.mp hc with hc | hc
      · have hword : ∀ c ∈ "term".toList, ¬(c = '.' ∨ c = '*') := by simp
        exact hword c hc
      · exact not_isIdMark_of_isDigit (isDigit_of_mem hc)
    | star => exact ⟨'*', [], rfl, .inr rfl, nofun⟩
  injective {p q} h := by
    have hletter : ∀ m n, Nat.toDigits 10 m ≠ "term".toList ++ Nat.toDigits 10 n := by
      intro m n heq
      have hmem : 't' ∈ Nat.toDigits 10 m := heq ▸ List.mem_append_left _ (by decide)
      exact absurd (isDigit_of_mem hmem) (by decide)
    cases p <;> cases q <;> simp only [PartName.idPiece, List.cons.injEq, List.cons_append] at h
    case operator.operator m n => rw [PartName.toDigits_injective h.2]
    case operator.value m n => exact absurd h.2 (hletter m n)
    case operator.star m => exact absurd h.1 (by decide)
    case value.operator m n => exact absurd h.2.symm (hletter n m)
    case value.value m n => rw [PartName.toDigits_injective (List.append_cancel_left h.2)]
    case value.star m => exact absurd h.1 (by decide)
    case star.operator n => exact absurd h.1 (by decide)
    case star.value n => exact absurd h.1 (by decide)
    case star.star => rfl

/-- Within one rule, different paths lead to different ids. -/
theorem idAlong_injective {id : String} {path rest : List PartName}
    (h : idAlong id path = idAlong id rest) : path = rest := by
  have hchars := congrArg String.toList h
  rw [toList_idAlong, toList_idAlong] at hchars
  exact marked_idPiece.flatMap_injective (List.append_cancel_left hchars)

/-- Where parts of two rules share an id, the path to one of them leads through the id of the other
rule. -/
theorem exists_append_of_idAlong_eq {id id' : String} {path rest : List PartName}
    (h : idAlong id path = idAlong id' rest) :
    (∃ first, path = first ++ rest ∧ idAlong id first = id') ∨
      ∃ first, rest = first ++ path ∧ idAlong id' first = id := by
  have hchars := congrArg String.toList h
  rw [toList_idAlong, toList_idAlong] at hchars
  rcases List.append_eq_append_iff.mp hchars with ⟨cs, hid, hpath⟩ | ⟨cs, hid, hrest⟩
  · obtain ⟨first, hfirst, rfl⟩ := marked_idPiece.exists_eq_append hpath
    exact .inl ⟨first, hfirst, String.toList_injective (by rw [toList_idAlong, hid])⟩
  · obtain ⟨first, hfirst, rfl⟩ := marked_idPiece.exists_eq_append hrest
    exact .inr ⟨first, hfirst, String.toList_injective (by rw [toList_idAlong, hid])⟩

/-- The id of a part has a mark, unlike an id of digits alone. -/
theorem exists_isIdMark_idAlong (id : String) {path : List PartName} (hpath : path ≠ []) :
    ∃ c ∈ (idAlong id path).toList, isIdMark c := by
  obtain ⟨p, path, rfl⟩ := List.exists_cons_of_ne_nil hpath
  obtain ⟨c, cs, hp, hmark, -⟩ := marked_idPiece.starts p
  refine ⟨c, ?_, hmark⟩
  rw [toList_idAlong, List.flatMap_cons, hp]
  simp

end FlatGrammar
