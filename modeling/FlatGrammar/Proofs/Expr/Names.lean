import FlatGrammar.Proofs.Expr.Fold

/-! # Names in expressions

Renaming all references of an expression at once, and expressions that are equal but for names that
count as the same. Renaming one name after another is renaming all of them at once by a composed map.
-/
namespace FlatGrammar.Expr

mutual

def mapNames (f : Option String → Option String) : Expr → Expr
  | symbol name => symbol (f name)
  | terminal t => terminal t
  | series op es => series op (mapNamesList f es)
  | diff l r => diff (l.mapNames f) (r.mapNames f)
  | repeated op e => repeated op (e.mapNames f)

def mapNamesList (f : Option String → Option String) : List Expr → List Expr
  | [] => []
  | e :: es => e.mapNames f :: mapNamesList f es

end

mutual

/-- Equal but for names that count as the same. -/
def Alike (same : Option String → Option String → Prop) : Expr → Expr → Prop
  | symbol a, symbol b => same a b
  | terminal s, terminal t => s = t
  | series p as, series q bs => p = q ∧ AlikeList same as bs
  | diff a b, diff c d => Alike same a c ∧ Alike same b d
  | repeated p a, repeated q b => p = q ∧ Alike same a b
  | _, _ => False

def AlikeList (same : Option String → Option String → Prop) : List Expr → List Expr → Prop
  | [], [] => True
  | a :: as, b :: bs => Alike same a b ∧ AlikeList same as bs
  | _, _ => False

end

section MapNames
variable (f g : Option String → Option String)

theorem mapNamesList_eq_map (es : List Expr) : mapNamesList f es = es.map (mapNames f) := by
  induction es with
  | nil => rfl
  | cons e es ih => simp [mapNamesList, ih]

theorem mapNames_mapNames (e : Expr) : (e.mapNames f).mapNames g = e.mapNames (g ∘ f) := by
  induction e using operands_induction with
  | step e ih =>
    cases e with
    | symbol _ | terminal _ => rfl
    | series op es => simpa [mapNames, mapNamesList_eq_map, operands] using ih
    | diff l r => simp [mapNames, ih l (by simp [operands]), ih r (by simp [operands])]
    | repeated op e => simp [mapNames, ih e (by simp [operands])]

theorem mapNames_id (e : Expr) : e.mapNames id = e := by
  induction e using operands_induction with
  | step e ih =>
    cases e with
    | symbol _ | terminal _ => rfl
    | series op es =>
      have hes : es.map (mapNames id) = es.map id := List.map_congr_left ih
      rw [mapNames, mapNamesList_eq_map, hes, List.map_id]
    | diff l r => simp [mapNames, ih l (by simp [operands]), ih r (by simp [operands])]
    | repeated op e => simp [mapNames, ih e (by simp [operands])]

theorem rename_eq_mapNames (old new : Option String) (e : Expr) :
    e.rename old new = e.mapNames fun name => if name = old then new else name := by
  induction e using operands_induction with
  | step e ih =>
    cases e with
    | symbol _ | terminal _ => rfl
    | series op es => simpa [rename, mapNames, renameList_eq_map, mapNamesList_eq_map, operands] using ih
    | diff l r => simp [rename, mapNames, ih l (by simp [operands]), ih r (by simp [operands])]
    | repeated op e => simp [rename, mapNames, ih e (by simp [operands])]

theorem references_mapNames (e : Expr) : (e.mapNames f).references = e.references.map f := by
  induction e using operands_induction with
  | step e ih =>
    cases e with
    | symbol _ | terminal _ => simp [mapNames]
    | series op es =>
      rw [mapNames, mapNamesList_eq_map, references_series, references_series, List.flatMap_map,
        List.map_flatMap]
      exact List.flatMap_congr ih
    | diff l r => simp [mapNames, ih l (by simp [operands]), ih r (by simp [operands])]
    | repeated op e => simp [mapNames, ih e (by simp [operands])]

end MapNames

section Alike
variable {same same' : Option String → Option String → Prop} {g : Option String → Option String}

mutual

theorem alike_eq_iff : ∀ e f : Expr, Alike Eq e f ↔ e = f
  | symbol _, f => by cases f <;> simp [Alike]
  | terminal _, f => by cases f <;> simp [Alike]
  | series _ es, f => by cases f <;> simp [Alike, alikeList_eq_iff es]
  | diff a b, f => by cases f <;> simp [Alike, alike_eq_iff a, alike_eq_iff b]
  | repeated _ e, f => by cases f <;> simp [Alike, alike_eq_iff e]

theorem alikeList_eq_iff : ∀ es fs : List Expr, AlikeList Eq es fs ↔ es = fs
  | [], fs => by cases fs <;> simp [AlikeList]
  | e :: es, fs => by cases fs <;> simp [AlikeList, alike_eq_iff e, alikeList_eq_iff es]

end

mutual

theorem alike_mapNames_iff : ∀ e f : Expr, Alike same (e.mapNames g) (f.mapNames g) ↔
    Alike (fun a b => same (g a) (g b)) e f
  | symbol _, f => by cases f <;> simp [Alike, mapNames]
  | terminal _, f => by cases f <;> simp [Alike, mapNames]
  | series _ es, f => by cases f <;> simp [Alike, mapNames, alikeList_mapNames_iff es]
  | diff a b, f => by
    cases f <;> simp [Alike, mapNames, alike_mapNames_iff a, alike_mapNames_iff b]
  | repeated _ e, f => by cases f <;> simp [Alike, mapNames, alike_mapNames_iff e]

theorem alikeList_mapNames_iff : ∀ es fs : List Expr,
    AlikeList same (mapNamesList g es) (mapNamesList g fs) ↔
      AlikeList (fun a b => same (g a) (g b)) es fs
  | [], fs => by cases fs <;> simp [AlikeList, mapNamesList]
  | e :: es, fs => by
    cases fs <;> simp [AlikeList, mapNamesList, alike_mapNames_iff e, alikeList_mapNames_iff es]

end

mutual

theorem Alike.mono (h : ∀ a b, same a b → same' a b) :
    ∀ e f : Expr, Alike same e f → Alike same' e f
  | symbol _, f => by cases f <;> simp_all [Alike]
  | terminal _, f => by cases f <;> simp [Alike]
  | series _ es, f => by
    cases f <;> simp only [Alike, imp_self]
    exact And.imp_right (AlikeList.mono h es _)
  | diff a b, f => by
    cases f <;> simp only [Alike, imp_self]
    exact And.imp (Alike.mono h a _) (Alike.mono h b _)
  | repeated _ e, f => by
    cases f <;> simp only [Alike, imp_self]
    exact And.imp_right (Alike.mono h e _)

theorem AlikeList.mono (h : ∀ a b, same a b → same' a b) :
    ∀ es fs : List Expr, AlikeList same es fs → AlikeList same' es fs
  | [], fs => by cases fs <;> simp [AlikeList]
  | e :: es, fs => by
    cases fs <;> simp only [AlikeList, imp_self]
    exact And.imp (Alike.mono h e _) (AlikeList.mono h es _)

end

/-- A renaming makes expressions equal if and only if they are equal but for names that it makes
equal. -/
theorem mapNames_eq_mapNames_iff {e f : Expr} :
    e.mapNames g = f.mapNames g ↔ Alike (fun a b => g a = g b) e f := by
  rw [← alike_eq_iff, alike_mapNames_iff]

end Alike

end FlatGrammar.Expr
