import Mathlib.Data.List.Forall2
import TypedLisp.Check.Rules
import TypedLisp.Proofs.Forms
import TypedLisp.Proofs.TypeExpr.Renaming

namespace TypedLisp

open Datum Text TypeExpr

/-- One name in place of another. -/
def renameTo (old new name : String) : Option String :=
  if name = old then some new else none

/-- The texts of the written types of a function. -/
def FunctionParts.typeTexts (f : FunctionParts) : List String :=
  f.resultText :: f.params.map Param.typeText

/-- Replace names in the written types of a function and in its body. -/
def FunctionParts.retyped (actual : String → Option String) (f : FunctionParts) : FunctionParts :=
  ⟨f.params.map fun p => ⟨p.name, specializeSymbol actual p.typeText⟩,
    specializeSymbol actual f.resultText, f.body.specialize actual⟩

def FunctionParts.specialize (actual : String → Option String) (f : FunctionParts) :
    FunctionParts :=
  ⟨f.params.map fun p => ⟨specializeSymbol actual p.name, specializeSymbol actual p.typeText⟩,
    specializeSymbol actual f.resultText, f.body.specialize actual⟩

namespace Form

/-- A generic function: a definition, or a lambda if it has no name. -/
def generic (name : Option String) (list : String) (f : FunctionParts) : Form :=
  match name with
  | some n => .define n (some list) f
  | none => .lambda (some list) f

def genericWord : Option String → Keyword
  | some _ => .define
  | none => .lambda

variable {name : Option String} {list : String} {f : FunctionParts}

theorem toDatum_generic (name : Option String) (list : String) (f : FunctionParts) :
    (generic name list f).toDatum =
      special (genericWord name) (listItems name ++ .symbol list :: f.items) := by
  cases name <;> rfl

theorem classify_generic (hlist : isTypeList list = true) :
    classify (generic name list f).toDatum = .ok (generic name list f) := by
  refine classify_toDatum ?_
  cases name with
  | some n =>
      rintro l ⟨⟩
      exact hlist
  | none =>
      rintro l ⟨⟩
      exact hlist

end Form

section Replacing

variable {actual : String → Option String} {name : Option String} {list : String}
  {f : FunctionParts}

theorem specialize_special (k : Keyword) (hk : specializeSymbol actual k.text = k.text)
    (items : List Datum) :
    (Form.special k items).specialize actual = Form.special k (items.map (specialize actual)) := by
  rw [Form.special, specialize, specializeAll_eq_map, List.map_cons, specialize, hk]
  rfl

theorem specialize_items (harrow : specializeSymbol actual "->" = "->") :
    f.items.map (specialize actual) = (f.specialize actual).items := by
  simp [FunctionParts.items, FunctionParts.specialize, specialize, specializeAll_eq_map, harrow,
    Param.toDatum]

theorem specialize_generic
    (hword : specializeSymbol actual (Form.genericWord name).text = (Form.genericWord name).text)
    (harrow : specializeSymbol actual "->" = "->") :
    (Form.generic name list f).toDatum.specialize actual =
      (Form.generic (name.map (specializeSymbol actual)) (specializeSymbol actual list)
        (f.specialize actual)).toDatum := by
  rw [Form.toDatum_generic, Form.toDatum_generic, specialize_special _ hword, List.map_append,
    List.map_cons, specialize, specialize_items harrow]
  cases name <;> simp [Form.genericWord, Form.listItems, specialize]

theorem isTypeList_specializeSymbol (hactual : Replaces actual) (hempty : actual "" = none)
    (hlist : isTypeList list = true) {p : String} (hp : p ∈ partsOf list)
    (hne : (actual p).getD p ≠ "") : isTypeList (specializeSymbol actual list) = true := by
  obtain ⟨inner, -, hinner⟩ := isTypeList_iff.mp hlist
  have hopening : isMark '<' = true := by decide
  have hclosing : isMark '>' = true := by decide
  have hnothing : replaceParts actual [] [] = [] := by
    simp [replaceParts, replaceParts.replaced, hempty]
  have hreplaced : (specializeSymbol actual list).toList =
      '<' :: (replaceParts actual [] inner ++ ['>']) := by
    rw [specializeSymbol_of_opening hactual (by simp [hinner]), String.toList_ofList, hinner,
      ← List.nil_append ('<' :: _), replaceParts_append_mark actual hopening,
      replaceParts_append_mark actual hclosing, hnothing]
    rfl
  refine isTypeList_iff.mpr ⟨_, fun hnil => ?_, hreplaced⟩
  have hpne : p ≠ "" := by
    rintro rfl
    exact hne (by rw [hempty]; rfl)
  have hmem : p ∈ partsFrom [] inner := by
    rw [partsOf, hinner, ← List.nil_append ('<' :: _), partsFrom_append_mark hopening,
      partsFrom_append_mark hclosing] at hp
    simpa [partsFrom, hpne] using hp
  have hsubset := subset_replaceParts actual hmem
  rw [hnil, List.subset_nil] at hsubset
  exact hne (String.toList_eq_nil_iff.mp hsubset)

end Replacing

/-- A generic function in which a type parameter can be given another name. -/
structure Renamable (old new : String) (name : Option String) (list : String) (f : FunctionParts) :
    Prop where
  isTypeList : TypeExpr.isTypeList list = true
  binds : old ∈ partsOf list
  /-- The type parameter is no other name of the function. -/
  typeOnly : ∀ text ∈ (Form.genericWord name).text :: (name.toList ++ f.params.map Param.name),
    old ∉ partsOf text
  /-- Types are written without blanks, as they are where they are read. -/
  tidy : ∀ text ∈ list :: f.typeTexts, ∀ c ∈ text.toList, isBlank c = false
  fresh : ¬(Form.generic name list f).toDatum.Mentions new

/-- Names other than two are replaced by texts without blanks in which these two do not stand. -/
structure Avoids (old new : String) (actual : String → Option String) : Prop where
  names : ∀ p r, actual p = some r → IsName p ∧ p ∉ [old, new]
  texts : ∀ p r, actual p = some r →
    (∀ c ∈ r.toList, isBlank c = false) ∧ old ∉ partsOf r ∧ new ∉ partsOf r

namespace Avoids

variable {old new : String} {actual : String → Option String} (h : Avoids old new actual)

include h

theorem replaces : Replaces actual :=
  fun p r hr => (h.names p r hr).1.1.markFree

theorem eq_none {p : String} (hp : ¬IsName p ∨ p ∈ [old, new]) : actual p = none := by
  refine Option.eq_none_iff_forall_not_mem.mpr fun r hr => ?_
  obtain ⟨hname, hother⟩ := h.names p r hr
  exact hp.elim (fun hp => hp hname) hother

theorem empty : actual "" = none :=
  h.eq_none (.inl fun hname => hname.1.1 rfl)

end Avoids

theorem specializeSymbol_word {actual : String → Option String} {name : Option String}
    (hword : actual (Form.genericWord name).text = none) :
    specializeSymbol actual (Form.genericWord name).text = (Form.genericWord name).text := by
  have hfree : MarkFree (Form.genericWord name).text.toList := by
    cases name with
    | some n => exact (by decide : MarkFree Keyword.define.text.toList)
    | none => exact (by decide : MarkFree Keyword.lambda.text.toList)
  rw [specializeSymbol_of_markFree hfree, hword, Option.getD_none]

theorem specializeSymbol_arrow {actual : String → Option String} (h : Replaces actual) :
    specializeSymbol actual "->" = "->" :=
  specializeSymbol_of_mark h (by decide) (by decide)

section Names

variable {old new : String} (hold : IsName old) (hnew : IsName new)

include hold hnew

theorem renames_renameTo : Renames (renameTo old new) := by
  intro n m hm
  rw [renameTo] at hm
  split at hm
  · next hn =>
      obtain rfl := Option.some.inj hm
      exact ⟨hn ▸ hold, hnew⟩
  · cases hm

/-- It does not matter which is done first. -/
theorem specialize_comm {actual : String → Option String} (h : Avoids old new actual) (d : Datum) :
    (d.specialize (renameTo old new)).specialize actual =
      (d.specialize actual).specialize (renameTo old new) := by
  have hrename := (renames_renameTo hold hnew).replaces
  let both (name : String) : Option String := if name = old then some new else actual name
  have hboth : Replaces both := by
    intro p r hr
    simp only [both] at hr
    split at hr
    · next hp => exact hp ▸ hold.1.markFree
    · exact h.replaces p r hr
  have hfirst : (d.specialize (renameTo old new)).specialize actual = d.specialize both := by
    refine specialize_specialize hrename h.replaces hboth fun p hp => .of_markFree ?_ ?_
    · by_cases hpold : p = old
      · simpa [renameTo, hpold] using hnew.1.markFree
      · simpa [renameTo, hpold] using hp.markFree
    · by_cases hpold : p = old
      · simp [renameTo, both, hpold, h.eq_none (p := new) (.inr (by simp))]
      · simp [renameTo, both, hpold]
  have hafter : (d.specialize actual).specialize (renameTo old new) = d.specialize both := by
    refine specialize_specialize h.replaces hrename hboth fun p hp => ?_
    cases hr : actual p with
    | none =>
        refine .of_markFree (by simpa [hr] using hp.markFree) ?_
        by_cases hpold : p = old
        · simp [renameTo, both, hpold, h.eq_none (p := old) (.inr (by simp))]
        · simp [renameTo, both, hpold, hr]
    | some r =>
        have hkept : ∀ q ∈ partsOf r, renameTo old new q = none := by
          intro q hq
          have hqold : q ≠ old := fun hqold => (h.texts p r hr).2.1 (hqold ▸ hq)
          simp [renameTo, hqold]
        have hpold : p ≠ old := fun hpold => (h.names p r hr).2 (by simp [hpold])
        refine ⟨?_, ?_⟩
        · simp [both, hpold, hr, specializeSymbol_eq_self hrename hkept]
        · simp [both, hpold, hr, replaceParts_eq_append _ hkept]
  rw [hfirst, hafter]

end Names

namespace Renamable

variable {old new : String} {name : Option String} {list : String} {f : FunctionParts}
  (h : Renamable old new name list f)

include h

theorem opening : '<' ∈ list.toList := by
  obtain ⟨inner, -, hinner⟩ := isTypeList_iff.mp h.isTypeList
  simp [hinner]

theorem specialize (hold : IsName old) {actual : String → Option String}
    (hactual : Avoids old new actual) (hkeyword : actual (Form.genericWord name).text = none) :
    Renamable old new (name.map (specializeSymbol actual)) (specializeSymbol actual list)
      (f.specialize actual) := by
  have holdNone : actual old = none := hactual.eq_none (.inr (by simp))
  have htext {text : String} (ht : old ∉ partsOf text) :
      old ∉ partsOf (specializeSymbol actual text) := by
    intro hmem
    rcases mem_parts_of_mem_specializeSymbol hactual.replaces hmem with hmem | ⟨p, r, hr, hmem⟩
    · exact ht hmem
    · exact (hactual.texts p r hr).2.1 hmem
  have hblanks {text : String} (ht : ∀ c ∈ text.toList, isBlank c = false) :
      ∀ c ∈ (specializeSymbol actual text).toList, isBlank c = false := by
    intro c hc
    rcases mem_of_mem_specializeSymbol hactual.replaces hc with hc | ⟨p, r, hr, hc⟩
    · exact ht c hc
    · exact (hactual.texts p r hr).1 c hc
  have hword : Form.genericWord (name.map (specializeSymbol actual)) = Form.genericWord name := by
    cases name <;> rfl
  obtain ⟨hwordOnly, hnames⟩ := List.forall_mem_cons.mp h.typeOnly
  obtain ⟨hnameOnly, hparamsOnly⟩ := List.forall_mem_append.mp hnames
  obtain ⟨hlist, htypes⟩ := List.forall_mem_cons.mp h.tidy
  obtain ⟨hresult, hparams⟩ := List.forall_mem_cons.mp htypes
  constructor
  · exact isTypeList_specializeSymbol hactual.replaces hactual.empty h.isTypeList h.binds
      (by simpa [holdNone] using hold.1.ne_empty)
  · exact mem_parts_specializeSymbol hactual.replaces h.opening h.binds holdNone
  · rw [hword]
    refine List.forall_mem_cons.mpr ⟨hwordOnly, List.forall_mem_append.mpr ⟨?_, ?_⟩⟩
    · intro text ht
      obtain ⟨n, hn, rfl⟩ : ∃ n, n ∈ name ∧ specializeSymbol actual n = text := by simpa using ht
      exact htext (hnameOnly n (by simpa using hn))
    · intro text ht
      obtain ⟨p, hp, rfl⟩ : ∃ p ∈ f.params, specializeSymbol actual p.name = text := by
        simpa [FunctionParts.specialize] using ht
      exact htext (hparamsOnly _ (List.mem_map_of_mem hp))
  · refine List.forall_mem_cons.mpr ⟨hblanks hlist, List.forall_mem_cons.mpr ⟨hblanks hresult, ?_⟩⟩
    intro text ht
    obtain ⟨p, hp, rfl⟩ : ∃ p ∈ f.params, specializeSymbol actual p.typeText = text := by
      simpa [FunctionParts.specialize] using ht
    exact hblanks (hparams _ (List.mem_map_of_mem hp))
  · rw [← specialize_generic (specializeSymbol_word hkeyword)
      (specializeSymbol_arrow hactual.replaces)]
    intro hmem
    rcases hmem.of_specialize hactual.replaces with hmem | ⟨p, r, hr, hmem⟩
    · exact h.fresh hmem
    · exact (hactual.texts p r hr).2.2 hmem

section Renaming

variable (hold : IsName old) (hnew : IsName new)

include hold hnew

theorem isTypeList_renameTo :
    TypeExpr.isTypeList (specializeSymbol (renameTo old new) list) = true := by
  have hrenames := renames_renameTo hold hnew
  refine isTypeList_specializeSymbol hrenames.replaces hrenames.empty h.isTypeList h.binds ?_
  simpa [renameTo] using hnew.1.ne_empty

theorem specialize_renameTo :
    (Form.generic name list f).toDatum.specialize (renameTo old new) =
      (Form.generic name (specializeSymbol (renameTo old new) list)
        (f.retyped (renameTo old new))).toDatum := by
  have hreplaces := (renames_renameTo hold hnew).replaces
  have hkept {text : String} (ht : old ∉ partsOf text) :
      specializeSymbol (renameTo old new) text = text := by
    refine specializeSymbol_eq_self hreplaces fun p hp => if_neg ?_
    rintro rfl
    exact ht hp
  obtain ⟨hword, hnames⟩ := List.forall_mem_cons.mp h.typeOnly
  obtain ⟨hname, hparams⟩ := List.forall_mem_append.mp hnames
  have hsame : name.map (specializeSymbol (renameTo old new)) = name := by
    cases name with
    | none => rfl
    | some n => exact congrArg some (hkept (hname n (by simp)))
  rw [specialize_generic (hkept hword) (specializeSymbol_arrow hreplaces), hsame,
    FunctionParts.specialize, FunctionParts.retyped]
  congr 3
  refine List.map_congr_left fun p hp => ?_
  rw [hkept (hparams _ (List.mem_map_of_mem hp))]

theorem new_mem_parts : new ∈ partsOf (specializeSymbol (renameTo old new) list) := by
  rw [specializeSymbol_of_opening (renames_renameTo hold hnew).replaces h.opening, partsOf,
    String.toList_ofList, partsFrom_replaceParts]
  refine List.mem_flatMap.mpr ⟨old, h.binds, ?_⟩
  simp [renameTo, parts_of_markFree hnew.1.markFree]

end Renaming

end Renamable

/-- A generic function of a word, with one of some names among what its type list holds. -/
def Form.binds (word : Keyword) (names : List String) : Form → Bool
  | .define _ (some typeList) _ =>
      word == .define && names.any fun name => name ∈ partsOf typeList
  | .lambda (some typeList) _ =>
      word == .lambda && names.any fun name => name ∈ partsOf typeList
  | _ => false

namespace Datum

mutual

/-- There is such a generic function in an expression. -/
def binds (word : Keyword) (names : List String) : Datum → Bool
  | list items =>
      (match Form.classify (list items) with
        | .ok form => form.binds word names
        | .error _ => false) || someBinds word names items
  | _ => false

def someBinds (word : Keyword) (names : List String) : List Datum → Bool
  | [] => false
  | d :: ds => binds word names d || someBinds word names ds

end

variable {word : Keyword} {names : List String}

theorem someBinds_of_mem {e : Datum} {items : List Datum} (he : e ∈ items)
    (h : e.binds word names = true) : someBinds word names items = true := by
  induction items with
  | nil => cases he
  | cons d items ih =>
      rw [someBinds, Bool.or_eq_true]
      rcases List.mem_cons.mp he with rfl | he
      · exact .inl h
      · exact .inr (ih he)

theorem binds_list_of_mem {e : Datum} {items : List Datum} (he : e ∈ items)
    (h : e.binds word names = true) : (list items).binds word names = true := by
  rw [binds, someBinds_of_mem he h, Bool.or_true]

theorem binds_generic {name : Option String} {list : String} {f : FunctionParts}
    (hlist : isTypeList list = true) {n : String} (hn : n ∈ names) (hmem : n ∈ partsOf list) :
    (Form.generic name list f).toDatum.binds (Form.genericWord name) names = true := by
  have hclassify : Form.classify (Form.generic name list f).toDatum =
      .ok (Form.generic name list f) := Form.classify_generic hlist
  have hany : (names.any fun name => name ∈ partsOf list) = true :=
    List.any_eq_true.mpr ⟨n, hn, by simpa using hmem⟩
  rw [Form.toDatum_generic, Form.special] at hclassify ⊢
  rw [binds, hclassify, Bool.or_eq_true]
  refine .inl ?_
  cases name with
  | some m => simpa [Form.generic, Form.genericWord, Form.binds] using hany
  | none => simpa [Form.generic, Form.genericWord, Form.binds] using hany

end Datum

/-- The same expression, but for generic functions in it that have one name in place of the other
for a type parameter. -/
inductive Renamed (old new : String) : Datum → Datum → Prop where
  | same (d : Datum) : Renamed old new d d
  | list {items items' : List Datum} (hlength : items.length = items'.length)
      (h : ∀ e e', (e, e') ∈ items.zip items' → Renamed old new e e') :
      Renamed old new (.list items) (.list items')
  | forth {name : Option String} {list : String} {f : FunctionParts}
      (h : Renamable old new name list f) :
      Renamed old new (Form.generic name list f).toDatum
        ((Form.generic name list f).toDatum.specialize (renameTo old new))
  | back {name : Option String} {list : String} {f : FunctionParts}
      (h : Renamable old new name list f) :
      Renamed old new ((Form.generic name list f).toDatum.specialize (renameTo old new))
        (Form.generic name list f).toDatum

namespace Renamed

variable {old new : String} {d d' : Datum}

theorem of_forall₂ {items items' : List Datum} (h : List.Forall₂ (Renamed old new) items items') :
    Renamed old new (.list items) (.list items') :=
  .list h.length_eq fun _ _ he => (List.forall₂_iff_zip.mp h).2 he

theorem symm (h : Renamed old new d d') : Renamed old new d' d := by
  induction h with
  | same d => exact .same d
  | list hlength _ ih =>
      have hitems := List.forall₂_iff_zip.mpr ⟨hlength, fun he => ih _ _ he⟩
      exact of_forall₂ hitems.flip
  | forth h => exact .back h
  | back h => exact .forth h

theorem specialize (hold : IsName old) (hnew : IsName new) {actual : String → Option String}
    (hactual : Avoids old new actual) (h : Renamed old new d d')
    (hwords : ∀ word, d.binds word [old, new] = true → actual word.text = none) :
    Renamed old new (d.specialize actual) (d'.specialize actual) := by
  have hgeneric {name : Option String} (hkeyword : actual (Form.genericWord name).text = none)
      (typeList : String) (f : FunctionParts) :
      (Form.generic name typeList f).toDatum.specialize actual =
        (Form.generic (name.map (specializeSymbol actual)) (specializeSymbol actual typeList)
          (f.specialize actual)).toDatum :=
    specialize_generic (specializeSymbol_word hkeyword) (specializeSymbol_arrow hactual.replaces)
  induction h with
  | same d => exact .same _
  | @list items items' hlength _ ih =>
      rw [Datum.specialize, Datum.specialize, specializeAll_eq_map, specializeAll_eq_map]
      have hitems := List.forall₂_iff_zip.mpr ⟨hlength, fun he => ih _ _ he fun word hbinds =>
        hwords word (binds_list_of_mem (List.of_mem_zip he).1 hbinds)⟩
      refine of_forall₂ ?_
      rwa [List.forall₂_map_left_iff, List.forall₂_map_right_iff]
  | forth h =>
      have hkeyword := hwords _ (binds_generic h.isTypeList List.mem_cons_self h.binds)
      rw [specialize_comm hold hnew hactual, hgeneric hkeyword]
      exact .forth (h.specialize hold hactual hkeyword)
  | back h =>
      rw [h.specialize_renameTo hold hnew] at hwords
      have hkeyword := hwords _ (binds_generic (h.isTypeList_renameTo hold hnew) (by simp)
        (h.new_mem_parts hold hnew))
      rw [specialize_comm hold hnew hactual, hgeneric hkeyword]
      exact .back (h.specialize hold hactual hkeyword)

theorem eq_or_binds (hold : IsName old) (hnew : IsName new) (h : Renamed old new d d') :
    d' = d ∨ ∃ word, d.binds word [old, new] = true := by
  induction h with
  | same d => exact .inl rfl
  | @list items items' hlength _ ih =>
      by_cases hbinds : ∃ e ∈ items, ∃ word, e.binds word [old, new] = true
      · obtain ⟨e, he, word, hbinds⟩ := hbinds
        exact .inr ⟨word, binds_list_of_mem he hbinds⟩
      · refine .inl (congrArg Datum.list (List.forall₂_eq_eq_eq ▸ ?_))
        refine (List.forall₂_iff_zip.mpr ⟨hlength, fun {e e'} he => ?_⟩).flip
        refine (ih e e' he).resolve_right fun hbound => hbinds ⟨e, ?_, hbound⟩
        exact (List.of_mem_zip he).1
  | forth h => exact .inr ⟨_, binds_generic h.isTypeList List.mem_cons_self h.binds⟩
  | back h =>
      rw [h.specialize_renameTo hold hnew]
      exact .inr ⟨_, binds_generic (h.isTypeList_renameTo hold hnew) (by simp)
        (h.new_mem_parts hold hnew)⟩

theorem eq_or_lists (h : Renamed old new d d') :
    d' = d ∨ ∃ items items', d = .list items ∧ d' = .list items' := by
  cases h with
  | same => exact .inl rfl
  | list => exact .inr ⟨_, _, rfl, rfl⟩
  | forth | back =>
      rw [Form.toDatum_generic, Form.special, Datum.specialize]
      exact .inr ⟨_, _, rfl, rfl⟩

theorem eq_symbol {n : String} (h : Renamed old new (.symbol n) d') : d' = .symbol n := by
  rcases h.eq_or_lists with rfl | ⟨_, _, hlist, -⟩
  · rfl
  · cases hlist

theorem eq_text {text : String} (h : Renamed old new (.text text) d') : d' = .text text := by
  rcases h.eq_or_lists with rfl | ⟨_, _, hlist, -⟩
  · rfl
  · cases hlist

section Inside

variable (hold : IsName old) (hnew : IsName new) {items : List Datum}

include hold hnew

theorem exists_items (h : Renamed old new (.list items) d')
    (hgeneric : ∀ name typeList f, Datum.list items ≠ (Form.generic name typeList f).toDatum) :
    ∃ items', d' = .list items' ∧ List.Forall₂ (Renamed old new) items items' := by
  generalize hd : Datum.list items = d at h hgeneric
  cases h with
  | same =>
      subst hd
      exact ⟨items, rfl, List.forall₂_same.mpr fun e _ => .same e⟩
  | list hlength h =>
      cases hd
      exact ⟨_, rfl, List.forall₂_iff_zip.mpr ⟨hlength, fun he => h _ _ he⟩⟩
  | forth => exact absurd rfl (hgeneric _ _ _)
  | back h => exact absurd (h.specialize_renameTo hold hnew) (hgeneric _ _ _)

theorem exists_items_of_length (h : Renamed old new (.list items) d') (hlength : items.length < 6) :
    ∃ items', d' = .list items' ∧ List.Forall₂ (Renamed old new) items items' := by
  -- A generic function has at least six items.
  refine h.exists_items hold hnew fun name typeList f heq => ?_
  rw [Form.toDatum_generic, Form.special] at heq
  rw [Datum.list.inj heq] at hlength
  simp only [FunctionParts.items, List.length_cons, List.length_append, List.length_nil] at hlength
  omega

theorem eq_pair {n t : String} (h : Renamed old new (.list [.symbol n, .symbol t]) d') :
    d' = .list [.symbol n, .symbol t] := by
  obtain ⟨items', rfl, hitems⟩ := h.exists_items_of_length hold hnew (by simp)
  rcases hitems with _ | ⟨hn, _ | ⟨ht, _ | _⟩⟩
  rw [hn.eq_symbol, ht.eq_symbol]

theorem eq_params {params : List Param}
    (h : Renamed old new (.list (params.map Param.toDatum)) d') :
    d' = .list (params.map Param.toDatum) := by
  obtain ⟨items', rfl, hitems⟩ := h.exists_items hold hnew fun name typeList f heq => by
    rw [Form.toDatum_generic, Form.special] at heq
    cases params <;> simp [Param.toDatum] at heq
  refine congrArg Datum.list (List.forall₂_eq_eq_eq ▸ ?_)
  rw [List.forall₂_map_left_iff] at hitems
  rw [List.forall₂_map_right_iff]
  exact (hitems.imp fun p d hp => hp.eq_pair hold hnew).flip

theorem eq_base {base : TypeBase} (h : Renamed old new base.toDatum d') : d' = base.toDatum := by
  cases base with
  | aliasOf text => exact h.eq_symbol
  | union options =>
      obtain ⟨items', rfl, hitems⟩ := h.exists_items hold hnew fun name typeList f heq => by
        rw [Form.toDatum_generic, Form.special] at heq
        have hword := (List.cons.inj (Datum.list.inj heq)).1
        cases name with
        | some n => exact absurd (Datum.symbol.inj hword) (by decide : "or" ≠ Keyword.define.text)
        | none => exact absurd (Datum.symbol.inj hword) (by decide : "or" ≠ Keyword.lambda.text)
      obtain ⟨_, options', hor, hoptions, rfl⟩ := List.forall₂_cons_left_iff.mp hitems
      rw [hor.eq_symbol]
      refine congrArg (fun options => Datum.list (.symbol "or" :: options))
        (List.forall₂_eq_eq_eq ▸ ?_)
      rw [List.forall₂_map_left_iff] at hoptions
      rw [List.forall₂_map_right_iff]
      exact (hoptions.imp fun _ _ ho => ho.eq_symbol).flip

theorem eq_of_narrowing? {guard : String × String} (h : Renamed old new d d')
    (hguard : CheckM.narrowing? d = some guard) : d' = d := by
  rw [CheckM.narrowing?.eq_def] at hguard
  split at hguard
  · obtain ⟨items', rfl, hitems⟩ := h.exists_items_of_length hold hnew (by simp)
    rcases hitems with _ | ⟨hop, _ | ⟨hname, _ | ⟨htype, _ | _⟩⟩⟩
    rw [hop.eq_symbol, hname.eq_pair hold hnew, htype.eq_text]
  · cases hguard

theorem narrowing?_eq (h : Renamed old new d d') :
    CheckM.narrowing? d' = CheckM.narrowing? d := by
  cases hguard : CheckM.narrowing? d with
  | some guard => rw [h.eq_of_narrowing? hold hnew hguard, hguard]
  | none =>
      refine Option.eq_none_iff_forall_not_mem.mpr fun guard hguard' => ?_
      rw [h.symm.eq_of_narrowing? hold hnew hguard', hguard'] at hguard
      cases hguard

end Inside

end Renamed

end TypedLisp
