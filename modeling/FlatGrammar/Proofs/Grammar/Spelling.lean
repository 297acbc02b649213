import FlatGrammar.Proofs.Expr.Quoted
import FlatGrammar.Proofs.Grammar.FlatIds
import FlatGrammar.Proofs.Grammar.Rewriting

/-! # How rules are spelled

Symbols and names of references are words, and ids are made of what ids may be made of in a text and of
stars. Only a pass rule has no symbol, and every reference has a name. Loaded rules are so because of what
their texts are read as; flattening adds words to symbols, and merging gives a reference the symbol of a
terminal.
-/
namespace FlatGrammar

/-- A word of one character at least. -/
def IsName : Option String → Prop
  | some name => name.toList ≠ [] ∧ ∀ c ∈ name.toList, Text.isWord c
  | none => False

def Expr.HasNames (e : Expr) : Prop := ∀ name ∈ e.references, IsName name

structure Rule.IsSpelled (r : Rule) : Prop where
  symbol : r.kind = .pass ∧ r.symbol = none ∨ r.kind ∈ [.rule, .terminal] ∧ IsName r.symbol
  id : ∀ c ∈ r.id.toList, isIdChar c ∨ c = '*'
  expr : r.expr.HasNames

/-- What a token refers to. -/
def Token.reference? : Token → Option (Option String)
  | symbol name => some (some name)
  | _ => none

/-- Grammars that have been loaded, or made flat any number of times since. -/
inductive Obtained : Grammar → Prop
  | load {text : String} {file : Option String} {g : Grammar} (h : Grammar.load text file = .ok g) :
      Obtained g
  | flat {g h : Grammar} (hg : Obtained g) (hflat : g.flat = .ok h) : Obtained h

section Names
variable {e : Expr} {s : String}

theorem hasNames_symbol {name : Option String} (h : IsName name) : (Expr.symbol name).HasNames := by
  intro x hx
  rw [Expr.references_symbol] at hx
  rwa [List.mem_singleton.mp hx]

theorem isWord_of_isAlpha {c : Char} (h : c.isAlpha) : Text.isWord c :=
  isWord_of_isLetter (by simp [Text.isLetter, h])

theorem isWord_of_isDigit {c : Char} (h : c.isDigit) : Text.isWord c := by
  simp [Text.isWord, Text.isNumeral, h]

theorem isName_emptySymbol : IsName (some emptySymbol) := by
  have halpha : emptySymbol.toList.all Char.isAlpha := by decide
  exact ⟨by decide, fun c hc => isWord_of_isAlpha (List.all_eq_true.mp halpha c hc)⟩

theorem Expr.HasNames.of_operand {o : Expr} (h : e.HasNames) (ho : o ∈ e.operands) : o.HasNames :=
  fun name hname => h name (mem_references_of_operand ho hname)

theorem Expr.HasNames.withOperands {es : List Expr} (h : e.HasNames) (hes : ∀ o ∈ es, o.HasNames) :
    (e.withOperands es).HasNames := by
  intro name hname
  rcases mem_references_withOperands hname with hname | ⟨o, ho, hname⟩
  · exact h name hname
  · exact hes o ho name hname

theorem hasNames_series {op : Series} {es : List Expr} (h : ∀ e ∈ es, e.HasNames) :
    (Expr.series op es).HasNames := by
  intro name hname
  rw [Expr.references_series] at hname
  obtain ⟨e, he, hname⟩ := List.mem_flatMap.mp hname
  exact h e he name hname

theorem hasNames_pair {op : Series} {a b : Expr} (ha : a.HasNames) (hb : b.HasNames) :
    (Expr.series op [a, b]).HasNames :=
  hasNames_series (List.forall_mem_cons.mpr ⟨ha, List.forall_mem_singleton.mpr hb⟩)

theorem isDigit_of_mem_toString {n : Nat} {c : Char} (h : c ∈ (toString n).toList) : c.isDigit := by
  rw [PartName.toList_toString] at h
  exact Nat.isDigit_of_mem_toDigits (by decide) (by decide) h

theorem PartName.isWord_of_mem_suffix (p : PartName) : ∀ c ∈ p.suffix.toList, Text.isWord c := by
  intro c hc
  cases p with
  | operator n => exact isWord_of_isDigit (isDigit_of_mem_toString hc)
  | value n =>
    rw [suffix, String.toList_append] at hc
    rcases List.mem_append.mp hc with hc | hc
    · have hterm : "term".toList.all Char.isAlpha := by decide
      exact isWord_of_isAlpha (List.all_eq_true.mp hterm c hc)
    · exact isWord_of_isDigit (isDigit_of_mem_toString hc)
  | star =>
    have hstar : "star".toList.all Char.isAlpha := by decide
    exact isWord_of_isAlpha (List.all_eq_true.mp hstar c hc)

theorem isIdChar_of_isWord {c : Char} (h : Text.isWord c) : isIdChar c := by simp [isIdChar, h]

theorem PartName.isIdChar_of_mem_id (p : PartName) {base : String}
    (hbase : ∀ c ∈ base.toList, isIdChar c ∨ c = '*') :
    ∀ c ∈ (p.id base).toList, isIdChar c ∨ c = '*' := by
  have hword {cs : List Char} (hcs : ∀ c ∈ cs, Text.isWord c) : ∀ c ∈ cs, isIdChar c ∨ c = '*' :=
    fun c hc => .inl (isIdChar_of_isWord (hcs c hc))
  have hdot : ∀ c ∈ ['.'], isIdChar c ∨ c = '*' := List.forall_mem_singleton.mpr (.inl rfl)
  cases p with
  | operator n =>
    rw [id, String.toList_append, String.toList_append]
    simp only [List.forall_mem_append]
    exact ⟨⟨hbase, hdot⟩, hword (operator n).isWord_of_mem_suffix⟩
  | value n =>
    have hid : ((value n).id base).toList = base.toList ++ (['.'] ++ (value n).suffix.toList) := by
      simp [id, suffix]
    rw [hid]
    simp only [List.forall_mem_append]
    exact ⟨hbase, hdot, hword (value n).isWord_of_mem_suffix⟩
  | star =>
    rw [id, String.toList_append]
    exact List.forall_mem_append.mpr ⟨hbase, List.forall_mem_singleton.mpr (.inr rfl)⟩

theorem isName_derivedSymbol (hs : IsName (some s)) {suffix : String}
    (hsuffix : ∀ c ∈ suffix.toList, Text.isWord c) : IsName (some (derivedSymbol s suffix)) := by
  have hmark : ∀ c ∈ "_".toList, Text.isWord c := List.forall_mem_singleton.mpr (by decide)
  have hbase {base : String} (hbase : ∀ c ∈ base.toList, Text.isWord c) :
      IsName (some (base ++ "_" ++ suffix)) := by
    refine ⟨by simp, ?_⟩
    simp only [String.toList_append, List.forall_mem_append]
    exact ⟨⟨hbase, hmark⟩, hsuffix⟩
  unfold derivedSymbol
  split
  · exact hbase hs.2
  · refine hbase ?_
    rw [String.toList_append]
    exact List.forall_mem_append.mpr ⟨hmark, hs.2⟩

end Names

section Parts
variable {reserved : List String} {r : Rule} {e : Expr} {n m : Nat} {out : List Rule}

theorem Rule.IsSpelled.isName_symbol (hr : r.IsSpelled) (hkind : r.kind ≠ .pass) : IsName r.symbol := by
  rcases hr.symbol with ⟨hpass, -⟩ | ⟨-, hname⟩
  · exact absurd hpass hkind
  · exact hname

theorem Rule.IsSpelled.withExpr (hr : r.IsSpelled) (he : e.HasNames) : (r.withExpr e).IsSpelled :=
  ⟨hr.symbol, hr.id, he⟩

theorem Kind.derived_mem (symbol : Option String) (e : Expr) :
    Kind.derived symbol e ∈ [Kind.rule, Kind.terminal] := by
  unfold derived
  split <;> simp

/-- What a part is made from is a rule with a symbol, and it gets one itself. -/
theorem Rule.IsSpelled.part (hr : r.IsSpelled) (hkind : r.kind = .rule) (p : PartName)
    {kind? : Option Kind} (hkind? : ∀ k ∈ kind?, k = .terminal) (he : e.HasNames) :
    (r.part p.suffix (p.id r.id) kind? e).IsSpelled ∧
      IsName (r.part p.suffix (p.id r.id) kind? e).symbol := by
  have hname : IsName (r.part p.suffix (p.id r.id) kind? e).symbol := by
    have hr := hr.isName_symbol (by rw [hkind]; decide)
    cases hs : r.symbol with
    | none =>
      rw [hs] at hr
      exact hr.elim
    | some s =>
      rw [hs] at hr
      rw [symbol_part hs]
      exact isName_derivedSymbol hr p.isWord_of_mem_suffix
  refine ⟨⟨.inr ⟨?_, hname⟩, p.isIdChar_of_mem_id hr.id, he⟩, hname⟩
  cases kind? with
  | none => exact Kind.derived_mem _ e
  | some k =>
    obtain rfl := hkind? k rfl
    exact List.mem_of_elem_eq_true rfl

theorem Moves.isSpelled {chosen : Expr → Bool} {id : Nat → String} {part : Nat → Expr → Rule}
    {es fs : List Expr} {parts : List Rule} (h : Moves reserved chosen id part n es fs parts m)
    (hes : ∀ e ∈ es, e.HasNames)
    (hpart : ∀ k e, e.HasNames → (part k e).IsSpelled ∧ IsName (part k e).symbol) :
    (∀ t ∈ parts, t.IsSpelled) ∧ ∀ f ∈ fs, f.HasNames := by
  induction h with
  | nil => exact ⟨List.forall_mem_nil _, List.forall_mem_nil _⟩
  | stay _ _ ih =>
    obtain ⟨he, hes⟩ := List.forall_mem_cons.mp hes
    obtain ⟨hparts, hfs⟩ := ih hes
    exact ⟨hparts, List.forall_mem_cons.mpr ⟨he, hfs⟩⟩
  | @move _ k _ e _ _ _ _ _ _ ih =>
    obtain ⟨he, hes⟩ := List.forall_mem_cons.mp hes
    obtain ⟨hparts, hfs⟩ := ih hes
    obtain ⟨hspelled, hname⟩ := hpart k e he
    exact ⟨List.forall_mem_cons.mpr ⟨hspelled, hparts⟩,
      List.forall_mem_cons.mpr ⟨hasNames_symbol hname, hfs⟩⟩

mutual

theorem Normalizes.isSpelled {r : Rule} {n : Nat} {out : List Rule} (h : Normalizes reserved r n out)
    (hr : r.IsSpelled) : ∀ t ∈ out, t.IsSpelled := by
  match h with
  | .whole _ => exact List.forall_mem_singleton.mpr hr
  | .operators hkind _ hmoves hparent hparts =>
    obtain ⟨hspelled, hnames⟩ := hmoves.isSpelled (fun o ho => hr.expr.of_operand ho)
      fun k e he => hr.part hkind (.operator k) (by simp) he
    refine List.forall_mem_append.mpr ⟨?_, hparts.isSpelled hspelled⟩
    exact hparent.isSpelled (hr.withExpr (hr.expr.withOperands hnames))
  | .opt (e := e) _ hexpr _ h =>
    have he : e.HasNames := hr.expr.of_operand (by simp [hexpr, Expr.operands])
    exact h.isSpelled (hr.withExpr (hasNames_pair (hasNames_symbol isName_emptySymbol) he))
  | .star (e := e) hkind hexpr _ hparent hpart =>
    have he : e.HasNames := hr.expr.of_operand (by simp [hexpr, Expr.operands])
    have hself := hasNames_symbol (hr.isName_symbol (by rw [hkind]; decide))
    obtain ⟨hspelled, hname⟩ : (r.starPart e).IsSpelled ∧ IsName (r.starPart e).symbol :=
      hr.part hkind .star nofun (hasNames_pair he hself)
    refine List.forall_mem_append.mpr ⟨?_, hpart.isSpelled hspelled⟩
    exact hparent.isSpelled
      (hr.withExpr (hasNames_pair (hasNames_symbol isName_emptySymbol) (hasNames_symbol hname)))
  | .plus (e := e) _ hexpr _ h =>
    have he : e.HasNames := hr.expr.of_operand (by simp [hexpr, Expr.operands])
    have hstar : (Expr.star e).HasNames := by
      intro name hname
      rw [Expr.references_repeated] at hname
      exact he name hname
    exact h.isSpelled (hr.withExpr (hasNames_pair he hstar))
  | .values hkind _ _ hmoves =>
    obtain ⟨hspelled, hnames⟩ := hmoves.isSpelled (fun o ho => hr.expr.of_operand ho)
      fun k e he => hr.part hkind (.value k) (by simp) he
    exact List.forall_mem_cons.mpr ⟨hr.withExpr (hr.expr.withOperands hnames), hspelled⟩
  | .pure _ _ _ => exact List.forall_mem_singleton.mpr hr

theorem NormalizesAll.isSpelled {rules out : List Rule} (h : NormalizesAll reserved rules out)
    (hrules : ∀ r ∈ rules, r.IsSpelled) : ∀ t ∈ out, t.IsSpelled := by
  match h with
  | .nil => exact List.forall_mem_nil _
  | .cons h hrest =>
    obtain ⟨hr, hrules⟩ := List.forall_mem_cons.mp hrules
    exact List.forall_mem_append.mpr ⟨h.isSpelled hr, hrest.isSpelled hrules⟩

end

theorem isSpelled_flattenAll {rules : List Rule} (hrules : ∀ r ∈ rules, r.IsSpelled) :
    ∀ t ∈ (flattenAll rules).rules, t.IsSpelled := by
  rw [rules_flattenAll]
  refine List.forall_mem_cons.mpr ⟨⟨.inr ?_, ?_, ?_⟩, ?_⟩
  · exact ⟨List.mem_cons_self, isName_emptySymbol⟩
  · have hdigit : emptyId.toList.all Char.isDigit := by decide
    exact fun c hc => .inl (isIdChar_of_isWord (isWord_of_isDigit (List.all_eq_true.mp hdigit c hc)))
  · exact hasNames_series (List.forall_mem_nil _)
  · intro t ht
    obtain ⟨r, hr, ht⟩ := List.mem_flatMap.mp ht
    exact (normalizes_flatten _ r).isSpelled (hrules r hr) t ht

end Parts

section Merging
variable {r : Rule} {f : Option String → Option String} {ks : List Keyed}
  {pairs : List (Keyed × Keyed)}

theorem Rule.IsSpelled.mapNames (hr : r.IsSpelled) (hf : ∀ name, IsName name → IsName (f name)) :
    (r.mapNames f).IsSpelled := by
  refine ⟨hr.symbol, hr.id, fun name hname => ?_⟩
  rw [Rule.mapNames, Expr.references_mapNames] at hname
  obtain ⟨old, hold, rfl⟩ := List.mem_map.mp hname
  exact hf old (hr.expr old hold)

theorem isName_renamedBy (hpairs : ∀ p ∈ pairs, IsName p.1.rule.symbol) {name : Option String}
    (h : IsName name) : IsName (renamedBy pairs name) := by
  induction pairs generalizing name with
  | nil => exact h
  | cons p pairs ih =>
    obtain ⟨hp, hpairs⟩ := List.forall_mem_cons.mp hpairs
    rw [renamedBy, List.foldl_cons]
    split
    · exact ih hpairs hp
    · exact ih hpairs h

/-- A pass renames nothing but to symbols of terminals. -/
theorem isSpelled_renamePairs (hks : ∀ k ∈ ks, k.rule.IsSpelled) :
    ∀ k ∈ ks.map (Keyed.renamePairs (Keyed.duplicates ks)), k.rule.IsSpelled := by
  refine List.forall_mem_map.mpr fun k hk => ?_
  rw [renamePairs_eq]
  refine (hks k hk).mapNames fun name => isName_renamedBy fun p hp => ?_
  obtain ⟨hfirst, hterminal, -⟩ := Keyed.of_mem_duplicates hp
  refine (hks p.1 hfirst).isName_symbol ?_
  rw [Keyed.isTerminal_iff.mp hterminal]
  decide

theorem isSpelled_mergePasses (n : Nat) (hks : ∀ k ∈ ks, k.rule.IsSpelled) :
    ∀ k ∈ (mergePasses n ks).kept, k.rule.IsSpelled := by
  induction n generalizing ks with
  | zero => exact hks
  | succ n ih =>
    by_cases hnil : Keyed.duplicates ks = []
    · rw [mergePasses, hnil]
      exact hks
    · rw [(mergePasses_succ hnil).1]
      exact ih fun k hk => isSpelled_renamePairs hks k (List.mem_of_mem_filter hk)

theorem isSpelled_mergeTerminals {rules : List Rule} (hrules : ∀ r ∈ rules, r.IsSpelled) :
    ∀ r ∈ mergeTerminals rules, r.IsSpelled := by
  refine List.forall_mem_map.mpr fun k hk => ?_
  have hks : ∀ k ∈ Keyed.ofList rules, k.rule.IsSpelled := by
    refine List.forall_mem_map.mpr fun p hp => ?_
    exact hrules p.1 (List.fst_mem_of_mem_zipIdx hp)
  exact isSpelled_mergePasses _ hks k (mem_sortById.mp hk)

end Merging

section Loading
variable {file : Option String} {text : List Char} {r : Rule} {g : Grammar}

/-- A phrase refers to the symbols among its tokens. -/
theorem Phrase.references {tolerant : Bool} {form : Form} {ts : List Token} {es : List Expr}
    (h : Phrase tolerant form ts es) :
    es.flatMap Expr.references = ts.filterMap Token.reference? := by
  refine h.flatMap_eq Expr.references_series Expr.references_diff Expr.references_repeated ?_ ?_
  · intro t e ht
    cases t
    case literal | charClass | hexRef =>
      obtain rfl := Option.some.inj ht
      exact Expr.references_terminal _
    case symbol =>
      obtain rfl := Option.some.inj ht
      exact Expr.references_symbol _
    all_goals cases ht
  · intro t ht
    cases t
    case symbol => cases ht
    all_goals rfl

theorem isName_of_next? {rest : List Char} {s : String}
    (h : Token.next? text = .ok (.symbol s, rest)) : IsName (some s) := by
  unfold Token.next? at h
  split at h
  case h_1 => cases h
  case h_2 c cs _ =>
    cases Token.readFrom_read h with
    | symbol hc hall =>
      refine ⟨by simp, ?_⟩
      rw [String.toList_ofList]
      refine List.forall_mem_cons.mpr ⟨?_, hall⟩
      rcases hc with hletter | rfl
      · exact isWord_of_isLetter hletter
      · decide
    | operator hop =>
      unfold Token.operator? at hop
      split at hop
      all_goals cases hop

theorem isName_of_reads {ts : List Token} {rest : List Char} (h : Reads text ts rest) :
    ∀ name ∈ ts.filterMap Token.reference?, IsName name := by
  induction h with
  | nil => exact List.forall_mem_nil _
  | @cons text after rest t ts hnext _ _ ih =>
    rw [List.filterMap_cons]
    split
    case h_1 => exact ih
    case h_2 name hname =>
      refine List.forall_mem_cons.mpr ⟨?_, ih⟩
      cases t
      case symbol s =>
        obtain rfl := Option.some.inj hname
        exact isName_of_next? hnext
      all_goals cases hname

theorem hasNames_of_parse? {e : Expr} (h : Expr.parse? text = .ok e) : e.HasNames := by
  obtain ⟨ts, es, rest, hphrase, rfl, hreads⟩ := exists_phrase_of_parse? h
  have hnames := isName_of_reads hreads
  rw [← hphrase.references] at hnames
  rwa [Expr.HasNames, Expr.join_eq_flatMap (Expr.references_series .alt es)]

theorem isName_of_split? {d : Definition} (h : Definition.split? text = some d) :
    IsName (some (String.ofList d.symbol)) := by
  obtain ⟨-, -, hne, hall, -⟩ := split?_eq_some_iff.mp h
  rw [IsName, String.toList_ofList]
  exact ⟨hne, hall⟩

theorem isSpelled_of_span {q : Progress} {s : Span} (h : s.rule file q = .ok r) : r.IsSpelled := by
  have hid := isIdChar_of_span h
  obtain ⟨d, e, hd, he, rfl⟩ := rule_eq_ok_iff.mp h
  refine ⟨?_, fun c hc => .inl (hid c hc), hasNames_of_parse? he⟩
  rcases declaration_eq_ok_iff.mp hd with ⟨-, -, rfl⟩ | ⟨-, x, hsplit, rfl⟩
  · exact .inl ⟨rfl, rfl⟩
  · refine .inr ⟨?_, isName_of_split? hsplit⟩
    simp only [Declaration.kind]
    split
    · exact List.mem_of_elem_eq_true rfl
    · exact Kind.derived_mem _ e

theorem Obtained.isSpelled (h : Obtained g) : ∀ r ∈ g.rules, r.IsSpelled := by
  induction h with
  | load h =>
    intro r hr
    obtain ⟨q, s, hspan⟩ := exists_span_of_load h hr
    exact isSpelled_of_span hspan
  | flat _ hflat ih =>
    obtain ⟨-, -, rfl⟩ := flat_eq_ok_iff.mp hflat
    exact isSpelled_mergeTerminals (isSpelled_flattenAll ih)

end Loading

end FlatGrammar
