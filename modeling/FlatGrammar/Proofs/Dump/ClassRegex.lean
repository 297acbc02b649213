import FlatGrammar.Dump.CharClass
import FlatGrammar.Proofs.Dump.TurtleComment
import FlatGrammar.Proofs.Expr.Writing

/-! # Classes of regular expressions

A class is made of hex references, each as long as it can be, and of other characters. The regular
expression has an escape of the same value for each reference of at most eight digits and all else as it is.
A backslash of the class is left as it is too. There it is a character like any other, but in a regular
expression it escapes what stands behind it, be it an escape or the bracket that closes the class.
-/
namespace FlatGrammar
open Turtle

/-- A part of a class: a character of its own, or a hex reference with its digits. -/
inductive ClassPart where
  | char (c : Char)
  | ref (digits : List Char) (hne : digits ≠ []) (hall : ∀ d ∈ digits, isHexDigit d)

def ClassPart.text : ClassPart → List Char
  | char c => [c]
  | ref digits _ _ => '#' :: 'x' :: digits

/-- The parts of a class. No digit stands behind a reference, and no reference starts at a character. -/
inductive PartsOf : List Char → List ClassPart → Prop
  | nil : PartsOf [] []
  | char {c : Char} {cs : List Char} {ps : List ClassPart}
      (hc : ∀ d rest, c :: cs = '#' :: 'x' :: d :: rest → isHexDigit d = false) (h : PartsOf cs ps) :
      PartsOf (c :: cs) (.char c :: ps)
  | ref {digits cs : List Char} {ps : List ClassPart} (hne : digits ≠ [])
      (hall : ∀ d ∈ digits, isHexDigit d) (hstop : ∀ d ∈ cs.head?, isHexDigit d = false)
      (h : PartsOf cs ps) : PartsOf ('#' :: 'x' :: (digits ++ cs)) (.ref digits hne hall :: ps)

/-- How a part is written in a regular expression. -/
inductive ClassPart.WrittenAs : ClassPart → List Char → Prop
  | char (c : Char) : WrittenAs (.char c) [c]
  | short {digits code : List Char} {hne : digits ≠ []} {hall : ∀ d ∈ digits, isHexDigit d}
      (h : digits.length ≤ 4) (hlength : code.length = 4) (hcode : ∀ d ∈ code, isHexDigit d)
      (hvalue : hexValue code = hexValue digits) :
      WrittenAs (.ref digits hne hall) ('\\' :: 'u' :: code)
  | long {digits code : List Char} {hne : digits ≠ []} {hall : ∀ d ∈ digits, isHexDigit d}
      (hshort : 4 < digits.length) (h : digits.length ≤ 8) (hlength : code.length = 8)
      (hcode : ∀ d ∈ code, isHexDigit d) (hvalue : hexValue code = hexValue digits) :
      WrittenAs (.ref digits hne hall) ('\\' :: 'U' :: code)
  | overlong {digits : List Char} {hne : digits ≠ []} {hall : ∀ d ∈ digits, isHexDigit d}
      (h : 8 < digits.length) : WrittenAs (.ref digits hne hall) ('#' :: 'x' :: digits)

/-- A class between brackets, of which only the last one that closes is not escaped. -/
def IsClosedClass (regex : List Char) : Prop :=
  ∃ body, regex = '[' :: (body ++ [']']) ∧ trailingBackslashes ('[' :: body) % 2 = 0 ∧
    ∀ before after, '[' :: body = before ++ ']' :: after → trailingBackslashes before % 2 = 1

section Parts
variable {cs ds digits out xs ys : List Char} {ps qs : List ClassPart} {outs : List (List Char)}
  {p : ClassPart} {x : Char}

theorem hexRefDigits?_eq_some_iff : hexRefDigits? cs = some digits ↔
    ∃ rest, cs = '#' :: 'x' :: (digits ++ rest) ∧ digits ≠ [] ∧ (∀ d ∈ digits, isHexDigit d) ∧
      ∀ d ∈ rest.head?, isHexDigit d = false := by
  constructor
  · intro h
    unfold hexRefDigits? at h
    split at h
    case h_2 => cases h
    case h_1 cs =>
      split at h
      case h_1 => cases h
      case h_2 hne =>
        obtain rfl := Option.some.inj h
        refine ⟨cs.dropWhile isHexDigit, ?_, hne, fun d hd => List.mem_takeWhile_imp hd, fun d hd => ?_⟩
        · rw [List.takeWhile_append_dropWhile]
        · have hstop := List.head?_dropWhile_not isHexDigit cs
          rw [hd] at hstop
          simpa using hstop
  · rintro ⟨rest, rfl, hne, hall, hstop⟩
    simp only [hexRefDigits?, (takeWhile_run hall hstop).1]

theorem PartsOf.unique (h : PartsOf cs ps) (h' : PartsOf ds qs) (heq : cs = ds) : ps = qs := by
  have hclash {c : Char} {cs digits rest : List Char}
      (hc : ∀ d rest, c :: cs = '#' :: 'x' :: d :: rest → isHexDigit d = false) (hne : digits ≠ [])
      (hall : ∀ d ∈ digits, isHexDigit d) (heq : c :: cs = '#' :: 'x' :: (digits ++ rest)) : False := by
    obtain ⟨d, digits, rfl⟩ := List.exists_cons_of_ne_nil hne
    have hfalse := hc d (digits ++ rest) heq
    rw [hall d List.mem_cons_self] at hfalse
    cases hfalse
  induction h generalizing ds qs with
  | nil =>
    subst heq
    cases h'
    rfl
  | char hc _ ih =>
    cases h' with
    | nil => cases heq
    | char _ h' =>
      obtain ⟨rfl, hcs⟩ := List.cons.inj heq
      rw [ih h' hcs]
    | ref hne hall => exact (hclash hc hne hall heq).elim
  | ref hne hall hstop _ ih =>
    cases h' with
    | nil => cases heq
    | char hc => exact (hclash hc hne hall heq.symm).elim
    | ref _ hall' hstop' h' =>
      have hrest := (List.cons.inj (List.cons.inj heq).2).2
      obtain ⟨hdigits, hmore⟩ := takeWhile_run hall hstop
      obtain ⟨hdigits', hmore'⟩ := takeWhile_run hall' hstop'
      rw [hrest] at hdigits hmore
      obtain rfl := hdigits'.symm.trans hdigits
      rw [ih h' (hmore.symm.trans hmore')]

theorem hexValue_replicate_zero (n : Nat) (ds : List Char) :
    hexValue (List.replicate n '0' ++ ds) = hexValue ds := by
  induction n with
  | zero => rfl
  | succ n ih => exact ih

theorem writtenAs_hexEscape (hne : digits ≠ []) (hall : ∀ d ∈ digits, isHexDigit d) :
    ClassPart.WrittenAs (.ref digits hne hall) (hexEscape digits) := by
  have hpadded (width : Nat) : ∀ d ∈ paddedDigits width digits, isHexDigit d := by
    refine List.forall_mem_append.mpr ⟨fun d hd => ?_, hall⟩
    obtain rfl := List.eq_of_mem_replicate hd
    rfl
  have hlength {width : Nat} (h : digits.length ≤ width) : (paddedDigits width digits).length = width := by
    rw [paddedDigits, List.length_append, List.length_replicate]
    omega
  unfold hexEscape
  split
  case isTrue h => exact .short h (hlength h) (hpadded 4) (hexValue_replicate_zero _ _)
  case isFalse hshort =>
    split
    case isTrue h => exact .long (by omega) h (hlength h) (hpadded 8) (hexValue_replicate_zero _ _)
    case isFalse h => exact .overlong (by omega)

/-- A class is written part by part. -/
theorem exists_partsOf (n : Nat) (cs : List Char) : ∃ ps outs, PartsOf (cs.drop n) ps ∧
    List.Forall₂ ClassPart.WrittenAs ps outs ∧ escapeHexRefs n cs = outs.flatten := by
  fun_induction escapeHexRefs n cs with
  | case1 n => exact ⟨[], [], by rw [List.drop_nil]; exact .nil, .nil, rfl⟩
  | case2 n c cs ih => exact ih
  | case3 c cs digits hsome ih =>
    obtain ⟨rest, hcs, hne, hall, hstop⟩ := hexRefDigits?_eq_some_iff.mp hsome
    obtain ⟨rfl, rfl⟩ := List.cons.inj hcs
    obtain ⟨ps, outs, hps, houts, hflat⟩ := ih
    -- What is skipped behind the number sign is the rest of the reference.
    have hdrop : ('x' :: (digits ++ rest)).drop (digits.length + 1) = rest := by simp
    rw [hdrop] at hps
    exact ⟨_, _, .ref hne hall hstop hps, .cons (writtenAs_hexEscape hne hall) houts, by rw [hflat]; rfl⟩
  | case4 c cs hnone ih =>
    obtain ⟨ps, outs, hps, houts, hflat⟩ := ih
    refine ⟨_, _, .char (fun d rest heq => ?_) hps, .cons (.char c) houts, by rw [hflat]; rfl⟩
    cases hd : isHexDigit d with
    | false => rfl
    | true => simp [heq, hexRefDigits?, hd] at hnone

/-- A character that neither references nor escapes have in them is written wherever it stands, and nowhere
else. -/
theorem mem_written_iff (h : p.WrittenAs out) (hhash : x ≠ '#') (hback : x ≠ '\\')
    (hword : Text.isWord x = false) : x ∈ out ↔ x ∈ p.text := by
  have hne {c : Char} (hc : Text.isWord c) : x ≠ c := (ne_of_isWord hc hword).symm
  have hdigits {ds : List Char} (hds : ∀ d ∈ ds, isHexDigit d) : x ∉ ds := fun hmem =>
    hne (isWord_of_isHexDigit (hds x hmem)) rfl
  cases h with
  | char | overlong => exact .rfl
  | @short _ _ _ hall _ _ hcode =>
    simp [ClassPart.text, hback, hhash, hne (c := 'u') (by decide), hne (c := 'x') (by decide),
      hdigits hcode, hdigits hall]
  | @long _ _ _ hall _ _ _ hcode =>
    simp [ClassPart.text, hback, hhash, hne (c := 'U') (by decide), hne (c := 'x') (by decide),
      hdigits hcode, hdigits hall]

theorem trailingBackslashes_concat (xs : List Char) (c : Char) :
    trailingBackslashes (xs ++ [c]) = if c = '\\' then trailingBackslashes xs + 1 else 0 := by
  unfold trailingBackslashes
  by_cases hc : c = '\\'
  · simp [hc]
  · simp [hc]

theorem trailingBackslashes_digits (hne : ds ≠ []) (hds : ∀ d ∈ ds, isHexDigit d) (xs : List Char) :
    trailingBackslashes (xs ++ ds) = 0 := by
  obtain ⟨es, d, rfl⟩ := (List.eq_nil_or_concat' ds).resolve_left hne
  rw [← List.append_assoc, trailingBackslashes_concat, if_neg]
  rintro rfl
  exact absurd (hds '\\' (by simp)) (by decide)

/-- A part leaves as many backslashes at the end as it has itself. -/
theorem trailingBackslashes_part (h : p.WrittenAs out)
    (heq : trailingBackslashes xs = trailingBackslashes ys) :
    trailingBackslashes (xs ++ out) = trailingBackslashes (ys ++ p.text) := by
  have hmarked {ds : List Char} (a b : Char) (hne : ds ≠ []) (hds : ∀ d ∈ ds, isHexDigit d)
      (zs : List Char) : trailingBackslashes (zs ++ a :: b :: ds) = 0 := by
    have hzs : zs ++ a :: b :: ds = (zs ++ [a, b]) ++ ds := by simp
    rw [hzs, trailingBackslashes_digits hne hds]
  have hcoded {code : List Char} {n : Nat} (h : code.length = n + 1) : code ≠ [] := by
    rintro rfl
    cases h
  cases h with
  | char c => rw [ClassPart.text, trailingBackslashes_concat, trailingBackslashes_concat, heq]
  | @short _ _ hne hall _ hlength hcode =>
    rw [ClassPart.text, hmarked _ _ hne hall, hmarked _ _ (hcoded hlength) hcode]
  | @long _ _ hne hall _ _ hlength hcode =>
    rw [ClassPart.text, hmarked _ _ hne hall, hmarked _ _ (hcoded hlength) hcode]
  | @overlong _ hne hall => rw [ClassPart.text, hmarked _ _ hne hall, hmarked _ _ hne hall]

theorem trailingBackslashes_flatten (h : List.Forall₂ ClassPart.WrittenAs ps outs)
    (heq : trailingBackslashes xs = trailingBackslashes ys) :
    trailingBackslashes (xs ++ outs.flatten) =
      trailingBackslashes (ys ++ ps.flatMap ClassPart.text) := by
  induction h generalizing xs ys with
  | nil => simpa using heq
  | cons hp _ ih =>
    rw [List.flatten_cons, List.flatMap_cons, ← List.append_assoc, ← List.append_assoc]
    exact ih (trailingBackslashes_part hp heq)

theorem PartsOf.flatMap_text (h : PartsOf cs ps) : ps.flatMap ClassPart.text = cs := by
  induction h with
  | nil => rfl
  | char _ _ ih => rw [List.flatMap_cons, ih]; rfl
  | ref _ _ _ _ ih => rw [List.flatMap_cons, ih]; rfl

theorem mem_flatten_iff (h : List.Forall₂ ClassPart.WrittenAs ps outs) (hhash : x ≠ '#')
    (hback : x ≠ '\\') (hword : Text.isWord x = false) :
    x ∈ outs.flatten ↔ x ∈ ps.flatMap ClassPart.text := by
  induction h with
  | nil => rfl
  | cons hp _ ih =>
    rw [List.flatten_cons, List.flatMap_cons, List.mem_append, List.mem_append, ih,
      mem_written_iff hp hhash hback hword]

end Parts

section Classes
variable {spec : String} {x : Char}

/-- A class is written part by part between brackets. -/
theorem exists_parts_classRegex (spec : String) : ∃ ps outs, PartsOf spec.toList ps ∧
    List.Forall₂ ClassPart.WrittenAs ps outs ∧
      (classRegex spec).toList = '[' :: (outs.flatten ++ [']']) := by
  obtain ⟨ps, outs, hps, houts, hflat⟩ := exists_partsOf 0 spec.toList
  exact ⟨ps, outs, hps, houts, by simp [classRegex, hflat]⟩

theorem mem_classRegex_iff (hopen : x ≠ '[') (hclose : x ≠ ']') (hhash : x ≠ '#') (hback : x ≠ '\\')
    (hword : Text.isWord x = false) : x ∈ (classRegex spec).toList ↔ x ∈ spec.toList := by
  obtain ⟨ps, outs, hps, houts, hregex⟩ := exists_parts_classRegex spec
  have hmem := mem_flatten_iff houts hhash hback hword
  rw [hps.flatMap_text] at hmem
  simp [hregex, hopen, hclose, hmem]

/-- The bracket at the end closes the class unless it is escaped. -/
theorem isClosedClass_iff {body : List Char} (h : ']' ∉ body) :
    IsClosedClass ('[' :: (body ++ [']'])) ↔ trailingBackslashes ('[' :: body) % 2 = 0 := by
  constructor
  · rintro ⟨body', heq, heven, -⟩
    obtain rfl := List.append_cancel_right (List.cons.inj heq).2
    exact heven
  · intro heven
    refine ⟨body, rfl, heven, fun before after heq => ?_⟩
    have hmem : ']' ∈ '[' :: body := by rw [heq]; simp
    rcases List.mem_cons.mp hmem with hmem | hmem
    · cases hmem
    · exact absurd hmem h

/-- The regular expression for a class has an escape of the same value for each of its hex references, if
this has at most eight digits, and all else in its place. It is closed by its last bracket if and only if the
class does not end with an odd number of backslashes. In front of every part there are as many backslashes as
in the class, so an escape is one to its reader unless that number is odd. -/
theorem classRegex_parts (h : ']' ∉ spec.toList) :
    (IsClosedClass (classRegex spec).toList ↔ trailingBackslashes spec.toList % 2 = 0) ∧
      ∃ ps outs, (∀ qs, PartsOf spec.toList qs ↔ qs = ps) ∧
        List.Forall₂ ClassPart.WrittenAs ps outs ∧
        (classRegex spec).toList = '[' :: (outs.flatten ++ [']']) ∧ ']' ∉ outs.flatten ∧
        ∀ n, trailingBackslashes ('[' :: (outs.take n).flatten) =
          trailingBackslashes ((ps.take n).flatMap ClassPart.text) := by
  obtain ⟨ps, outs, hps, houts, hregex⟩ := exists_parts_classRegex spec
  have hinner : ']' ∉ outs.flatten := by
    rwa [mem_flatten_iff houts (by decide) (by decide) (by decide), hps.flatMap_text]
  have hopened : trailingBackslashes ['['] = trailingBackslashes [] := by decide
  have hfront (n : Nat) := trailingBackslashes_flatten (List.forall₂_take n houts) hopened
  have hall := trailingBackslashes_flatten houts hopened
  rw [List.nil_append, hps.flatMap_text] at hall
  refine ⟨?_, ps, outs, fun qs => ⟨fun hqs => hqs.unique hps rfl, ?_⟩, houts, hregex, hinner, hfront⟩
  · rw [hregex, isClosedClass_iff hinner, ← hall]
    rfl
  · rintro rfl
    exact hps

end Classes

/-- References of every kind of length, and backslashes in front of them and at the end. -/
def backslashedClass : String := "^\\\\#x5D-#x10FFFF#x123456789\\\\"

theorem classRegex_backslashedClass :
    ']' ∉ backslashedClass.toList ∧
      classRegex backslashedClass = "[^\\\\\\u005D-\\U0010FFFF#x123456789\\\\]" ∧
      IsClosedClass (classRegex backslashedClass).toList ∧
      ∃ ps outs, (∀ qs, PartsOf backslashedClass.toList qs ↔ qs = ps) ∧
        List.Forall₂ ClassPart.WrittenAs ps outs ∧
        (classRegex backslashedClass).toList = '[' :: (outs.flatten ++ [']']) := by
  have hclass : ']' ∉ backslashedClass.toList := by decide
  obtain ⟨hclosed, ps, outs, hps, houts, hregex, -⟩ := classRegex_parts hclass
  exact ⟨hclass, by decide +kernel, hclosed.mpr (by decide), ps, outs, hps, houts, hregex⟩

/-- The only backslash escapes the only bracket that could close the class. -/
theorem not_isClosedClass_backslash :
    ']' ∉ "\\".toList ∧ classRegex "\\" = "[\\]" ∧ ¬IsClosedClass (classRegex "\\").toList := by
  have hregex : classRegex "\\" = "[\\]" := by decide +kernel
  have hbody : "[\\]".toList = '[' :: (['\\'] ++ [']']) := by decide
  refine ⟨by decide, hregex, ?_⟩
  rw [hregex, hbody, isClosedClass_iff (by decide)]
  decide

end FlatGrammar
