import TypedLisp.Datum.Specialize

namespace TypedLisp.Datum

open TypedLisp.TypeExpr (isMark)

/-- The parts between marks. `part` holds the characters of the current part, last first. -/
def partsFrom (part : List Char) : List Char → List String
  | [] => [String.ofList part.reverse]
  | c :: cs =>
      if isMark c then String.ofList part.reverse :: partsFrom [] cs else partsFrom (c :: part) cs

def partsOf (name : String) : List String :=
  partsFrom [] name.toList

def MarkFree (cs : List Char) : Prop :=
  ∀ c ∈ cs, isMark c = false

instance (cs : List Char) : Decidable (MarkFree cs) :=
  decidable_of_iff ((cs.all fun c => !isMark c) = true) (by simp [MarkFree])

theorem markFree_nil : MarkFree [] := by
  simp [MarkFree]

/-- Only texts without marks are replaced. -/
def Replaces (actual : String → Option String) : Prop :=
  ∀ p r, actual p = some r → MarkFree p.toList

/-- A name is in an expression, as a part of one of its symbols. -/
inductive Mentions (name : String) : Datum → Prop where
  | symbol {text : String} (h : name ∈ partsOf text) : Mentions name (.symbol text)
  | list {d : Datum} {items : List Datum} (hd : d ∈ items) (h : Mentions name d) :
      Mentions name (.list items)

@[simp]
theorem mentions_symbol {name text : String} : (symbol text).Mentions name ↔ name ∈ partsOf text :=
  ⟨fun | .symbol h => h, .symbol⟩

@[simp]
theorem mentions_list {name : String} {items : List Datum} :
    (list items).Mentions name ↔ ∃ d ∈ items, d.Mentions name :=
  ⟨fun | .list hd h => ⟨_, hd, h⟩, fun ⟨_, hd, h⟩ => .list hd h⟩

@[simp]
theorem not_mentions_text {name text : String} : ¬(Datum.text text).Mentions name := by
  intro h
  cases h

section Characters

variable (actual : String → Option String) {part cs : List Char}

theorem partsFrom_append_mark {c : Char} (hc : isMark c = true) (part cs rest : List Char) :
    partsFrom part (cs ++ c :: rest) = partsFrom part cs ++ partsFrom [] rest := by
  induction cs generalizing part with
  | nil => simp [partsFrom, hc]
  | cons d cs ih =>
      rw [List.cons_append, partsFrom, partsFrom]
      split
      · rw [ih, List.cons_append]
      · exact ih _

theorem replaceParts_append_mark {c : Char} (hc : isMark c = true) (part cs rest : List Char) :
    replaceParts actual part (cs ++ c :: rest) =
      replaceParts actual part cs ++ c :: replaceParts actual [] rest := by
  induction cs generalizing part with
  | nil => simp [replaceParts, hc]
  | cons d cs ih =>
      rw [List.cons_append, replaceParts, replaceParts]
      split
      · rw [ih, List.append_assoc, List.cons_append]
      · exact ih _

theorem partsFrom_of_markFree (h : MarkFree cs) :
    partsFrom part cs = [String.ofList (part.reverse ++ cs)] := by
  induction cs generalizing part with
  | nil => simp [partsFrom]
  | cons c cs ih =>
      obtain ⟨hc, hcs⟩ := List.forall_mem_cons.mp h
      simp [partsFrom, hc, ih hcs]

theorem replaceParts_of_markFree (h : MarkFree cs) :
    replaceParts actual part cs = ((actual (String.ofList (part.reverse ++ cs))).getD
      (String.ofList (part.reverse ++ cs))).toList := by
  induction cs generalizing part with
  | nil => simp [replaceParts, replaceParts.replaced]
  | cons c cs ih =>
      obtain ⟨hc, hcs⟩ := List.forall_mem_cons.mp h
      simp [replaceParts, hc, ih hcs]

theorem markFree_of_mem_partsFrom (hpart : MarkFree part) {p : String}
    (hp : p ∈ partsFrom part cs) :
    MarkFree p.toList := by
  have hreverse : MarkFree (String.ofList part.reverse).toList := by
    intro c hc
    exact hpart c (by simpa using hc)
  induction cs generalizing part with
  | nil =>
      obtain rfl := List.mem_singleton.mp hp
      exact hreverse
  | cons c cs ih =>
      rw [partsFrom] at hp
      split at hp
      · rcases List.mem_cons.mp hp with rfl | hp
        · exact hreverse
        · exact ih markFree_nil hp markFree_nil
      · next hc =>
          have hnext : MarkFree (c :: part) :=
            List.forall_mem_cons.mpr ⟨Bool.not_eq_true _ ▸ hc, hpart⟩
          exact ih hnext hp fun a ha => hnext a (by simpa [or_comm] using ha)

theorem mem_replaceParts_of_isMark {c : Char} (hc : isMark c = true) (h : c ∈ cs) :
    c ∈ replaceParts actual part cs := by
  obtain ⟨before, rest, rfl⟩ := List.append_of_mem h
  rw [replaceParts_append_mark actual hc]
  simp

theorem mem_of_mem_replaceParts {c : Char} (h : c ∈ replaceParts actual part cs) :
    c ∈ part ∨ c ∈ cs ∨ ∃ p r, actual p = some r ∧ c ∈ r.toList := by
  have hreplaced (part : List Char) (h : c ∈ replaceParts.replaced actual part) :
      c ∈ part ∨ ∃ p r, actual p = some r ∧ c ∈ r.toList := by
    rw [replaceParts.replaced] at h
    cases hr : actual (String.ofList part.reverse) with
    | none => exact .inl (by simpa [hr] using h)
    | some r => exact .inr ⟨_, r, hr, by simpa [hr] using h⟩
  induction cs generalizing part with
  | nil =>
      rcases hreplaced part h with h | h
      · exact .inl h
      · exact .inr (.inr h)
  | cons d cs ih =>
      rw [replaceParts] at h
      split at h
      · rcases List.mem_append.mp h with h | h
        · rcases hreplaced part h with h | h
          · exact .inl h
          · exact .inr (.inr h)
        · rcases List.mem_cons.mp h with rfl | h
          · exact .inr (.inl List.mem_cons_self)
          · rcases ih h with h | h | h
            · cases h
            · exact .inr (.inl (List.mem_cons_of_mem _ h))
            · exact .inr (.inr h)
      · rcases ih h with h | h | h
        · rcases List.mem_cons.mp h with rfl | h
          · exact .inr (.inl List.mem_cons_self)
          · exact .inl h
        · exact .inr (.inl (List.mem_cons_of_mem _ h))
        · exact .inr (.inr h)

theorem partsFrom_replaceParts :
    partsFrom [] (replaceParts actual part cs) =
      (partsFrom part cs).flatMap fun p => partsOf ((actual p).getD p) := by
  induction cs generalizing part with
  | nil => simp [partsFrom, replaceParts, replaceParts.replaced, partsOf]
  | cons c cs ih =>
      rw [replaceParts, partsFrom]
      split
      · next hc =>
          rw [partsFrom_append_mark hc, ih, List.flatMap_cons]
          rfl
      · exact ih

theorem subset_replaceParts {p : String} (hp : p ∈ partsFrom part cs) :
    ((actual p).getD p).toList ⊆ replaceParts actual part cs := by
  induction cs generalizing part with
  | nil =>
      obtain rfl := List.mem_singleton.mp hp
      exact List.Subset.refl _
  | cons c cs ih =>
      rw [partsFrom] at hp
      rw [replaceParts]
      split
      · next hc =>
          rw [if_pos hc] at hp
          rcases List.mem_cons.mp hp with rfl | hp
          · exact List.subset_append_left _ _
          · exact fun a ha => List.mem_append_right _ (List.mem_cons_of_mem _ (ih hp ha))
      · next hc =>
          rw [if_neg hc] at hp
          exact ih hp

theorem replaceParts_eq_append (h : ∀ p ∈ partsFrom part cs, actual p = none) :
    replaceParts actual part cs = part.reverse ++ cs := by
  have hreplaced (part : List Char) (h : actual (String.ofList part.reverse) = none) :
      replaceParts.replaced actual part = part.reverse := by
    simp [replaceParts.replaced, h]
  induction cs generalizing part with
  | nil =>
      rw [replaceParts, hreplaced part (h _ (by simp [partsFrom])), List.append_nil]
  | cons c cs ih =>
      rw [partsFrom] at h
      rw [replaceParts]
      split
      · next hc =>
          rw [if_pos hc] at h
          obtain ⟨hfirst, hrest⟩ := List.forall_mem_cons.mp h
          rw [hreplaced part hfirst, ih hrest, List.reverse_nil, List.nil_append]
      · next hc =>
          rw [if_neg hc] at h
          rw [ih h, List.reverse_cons, List.append_assoc, List.singleton_append]

theorem replaceParts_replaceParts {after both : String → Option String}
    (h : ∀ p ∈ partsFrom part cs, replaceParts after [] ((actual p).getD p).toList =
      ((both p).getD p).toList) :
    replaceParts after [] (replaceParts actual part cs) = replaceParts both part cs := by
  induction cs generalizing part with
  | nil => exact h _ (by simp [partsFrom])
  | cons c cs ih =>
      rw [partsFrom] at h
      rw [replaceParts, replaceParts]
      split
      · next hc =>
          rw [if_pos hc] at h
          obtain ⟨hfirst, hrest⟩ := List.forall_mem_cons.mp h
          rw [replaceParts_append_mark after hc, ih hrest, replaceParts.replaced, hfirst]
          rfl
      · next hc =>
          rw [if_neg hc] at h
          exact ih h

end Characters

section Symbols

variable {actual : String → Option String} {name : String}

theorem markFree_of_mem_parts {p : String} (hp : p ∈ partsOf name) : MarkFree p.toList :=
  markFree_of_mem_partsFrom markFree_nil hp

theorem parts_of_markFree (h : MarkFree name.toList) : partsOf name = [name] := by
  simp [partsOf, partsFrom_of_markFree h]

theorem not_opening_mem (h : MarkFree name.toList) : name.toList.contains '<' = false := by
  rw [Bool.eq_false_iff]
  intro hopening
  exact Bool.noConfusion ((h '<' (by simpa using hopening)).symm.trans
    (by decide : isMark '<' = true))

theorem specializeSymbol_of_markFree (h : MarkFree name.toList) :
    specializeSymbol actual name = (actual name).getD name := by
  rw [specializeSymbol]
  cases actual name with
  | some r => rfl
  | none => simp only [not_opening_mem h, Bool.false_eq_true, if_false, Option.getD_none]

theorem replaceParts_toList_of_markFree (h : MarkFree name.toList) :
    replaceParts actual [] name.toList = ((actual name).getD name).toList := by
  simp [replaceParts_of_markFree actual h]

variable (hactual : Replaces actual)

include hactual

theorem specializeSymbol_of_opening (h : '<' ∈ name.toList) :
    specializeSymbol actual name = String.ofList (replaceParts actual [] name.toList) := by
  have hnone : actual name = none := by
    refine Option.eq_none_iff_forall_not_mem.mpr fun r hr => ?_
    exact Bool.noConfusion ((hactual name r hr _ h).symm.trans (by decide : isMark '<' = true))
  rw [specializeSymbol, hnone]
  simp [h]

theorem specializeSymbol_of_mark (hmark : ¬MarkFree name.toList) (h : '<' ∉ name.toList) :
    specializeSymbol actual name = name := by
  have hnone : actual name = none :=
    Option.eq_none_iff_forall_not_mem.mpr fun r hr => hmark (hactual name r hr)
  rw [specializeSymbol, hnone]
  simp [h]

theorem mem_parts_of_mem_specializeSymbol {q : String}
    (hq : q ∈ partsOf (specializeSymbol actual name)) :
    q ∈ partsOf name ∨ ∃ p r, actual p = some r ∧ q ∈ partsOf r := by
  have hpart {p : String} (hp : p ∈ partsOf name) (hq : q ∈ partsOf ((actual p).getD p)) :
      q ∈ partsOf name ∨ ∃ p r, actual p = some r ∧ q ∈ partsOf r := by
    cases hr : actual p with
    | some r => exact .inr ⟨p, r, hr, by simpa [hr] using hq⟩
    | none =>
        rw [hr, Option.getD_none, parts_of_markFree (markFree_of_mem_parts hp)] at hq
        exact .inl (List.mem_singleton.mp hq ▸ hp)
  by_cases hfree : MarkFree name.toList
  · rw [specializeSymbol_of_markFree hfree] at hq
    exact hpart (by simp [parts_of_markFree hfree]) hq
  · by_cases hopening : '<' ∈ name.toList
    · rw [specializeSymbol_of_opening hactual hopening, partsOf, String.toList_ofList,
        partsFrom_replaceParts] at hq
      obtain ⟨p, hp, hq⟩ := List.mem_flatMap.mp hq
      exact hpart hp hq
    · rw [specializeSymbol_of_mark hactual hfree hopening] at hq
      exact .inl hq

theorem mem_parts_specializeSymbol (hopening : '<' ∈ name.toList) {p : String}
    (hp : p ∈ partsOf name) (hnone : actual p = none) :
    p ∈ partsOf (specializeSymbol actual name) := by
  rw [specializeSymbol_of_opening hactual hopening, partsOf, String.toList_ofList,
    partsFrom_replaceParts]
  refine List.mem_flatMap.mpr ⟨p, hp, ?_⟩
  rw [hnone, Option.getD_none, parts_of_markFree (markFree_of_mem_parts hp)]
  exact List.mem_singleton.mpr rfl

theorem mem_of_mem_specializeSymbol {c : Char} (hc : c ∈ (specializeSymbol actual name).toList) :
    c ∈ name.toList ∨ ∃ p r, actual p = some r ∧ c ∈ r.toList := by
  by_cases hfree : MarkFree name.toList
  · rw [specializeSymbol_of_markFree hfree] at hc
    cases hr : actual name with
    | some r => exact .inr ⟨name, r, hr, by simpa [hr] using hc⟩
    | none => exact .inl (by simpa [hr] using hc)
  · by_cases hopening : '<' ∈ name.toList
    · rw [specializeSymbol_of_opening hactual hopening, String.toList_ofList] at hc
      rcases mem_of_mem_replaceParts actual hc with hc | hc
      · cases hc
      · exact hc
    · rw [specializeSymbol_of_mark hactual hfree hopening] at hc
      exact .inl hc

theorem specializeSymbol_eq_self (h : ∀ p ∈ partsOf name, actual p = none) :
    specializeSymbol actual name = name := by
  by_cases hfree : MarkFree name.toList
  · rw [specializeSymbol_of_markFree hfree, h name (by simp [parts_of_markFree hfree]),
      Option.getD_none]
  · by_cases hopening : '<' ∈ name.toList
    · rw [specializeSymbol_of_opening hactual hopening, replaceParts_eq_append actual h,
        List.reverse_nil, List.nil_append, String.ofList_toList]
    · exact specializeSymbol_of_mark hactual hfree hopening

end Symbols

theorem Mentions.markFree {name : String} {d : Datum} (h : d.Mentions name) :
    MarkFree name.toList := by
  induction h with
  | symbol h => exact markFree_of_mem_parts h
  | list _ _ ih => exact ih

theorem Mentions.of_specialize {actual : String → Option String} (hactual : Replaces actual)
    {name : String} {d : Datum} (h : (d.specialize actual).Mentions name) :
    d.Mentions name ∨ ∃ p r, actual p = some r ∧ name ∈ partsOf r := by
  induction d using inductionInto with
  | symbol text =>
      rw [specialize] at h
      cases h with
      | symbol h =>
          rcases mem_parts_of_mem_specializeSymbol hactual h with h | h
          · exact .inl (.symbol h)
          · exact .inr h
  | list items ih =>
      rw [specialize, specializeAll_eq_map] at h
      cases h with
      | list hd h =>
          obtain ⟨e, he, rfl⟩ := List.mem_map.mp hd
          rcases ih e he h with h | h
          · exact .inl (.list he h)
          · exact .inr h
  | number | text | boolean =>
      rw [specialize] at h
      cases h

/-- On a part, one replacement after another does what a third does. -/
def Follow (first after both : String → Option String) (p : String) : Prop :=
  specializeSymbol after ((first p).getD p) = (both p).getD p ∧
    replaceParts after [] ((first p).getD p).toList = ((both p).getD p).toList

theorem Follow.of_markFree {first after both : String → Option String} {p : String}
    (hfree : MarkFree ((first p).getD p).toList)
    (h : (after ((first p).getD p)).getD ((first p).getD p) = (both p).getD p) :
    Follow first after both p :=
  ⟨(specializeSymbol_of_markFree hfree).trans h,
    (replaceParts_toList_of_markFree hfree).trans (congrArg String.toList h)⟩

section Twice

variable {first after both : String → Option String} (hfirst : Replaces first)
  (hafter : Replaces after) (hboth : Replaces both)

include hfirst hafter hboth

theorem specializeSymbol_specializeSymbol {name : String}
    (h : ∀ p ∈ partsOf name, Follow first after both p) :
    specializeSymbol after (specializeSymbol first name) = specializeSymbol both name := by
  by_cases hfree : MarkFree name.toList
  · rw [specializeSymbol_of_markFree hfree, specializeSymbol_of_markFree hfree]
    exact (h name (by simp [parts_of_markFree hfree])).1
  · by_cases hopening : '<' ∈ name.toList
    · have hkept : '<' ∈ (String.ofList (replaceParts first [] name.toList)).toList := by
        rw [String.toList_ofList]
        exact mem_replaceParts_of_isMark first (by decide) hopening
      rw [specializeSymbol_of_opening hfirst hopening, specializeSymbol_of_opening hafter hkept,
        specializeSymbol_of_opening hboth hopening, String.toList_ofList,
        replaceParts_replaceParts first fun p hp => (h p hp).2]
    · rw [specializeSymbol_of_mark hfirst hfree hopening,
        specializeSymbol_of_mark hafter hfree hopening,
        specializeSymbol_of_mark hboth hfree hopening]

theorem specialize_specialize {d : Datum} (h : ∀ p, d.Mentions p → Follow first after both p) :
    (d.specialize first).specialize after = d.specialize both := by
  induction d using inductionInto with
  | symbol name =>
      rw [specialize, specialize, specialize]
      exact congrArg symbol
        (specializeSymbol_specializeSymbol hfirst hafter hboth fun p hp => h p (.symbol hp))
  | list items ih =>
      rw [specialize, specialize, specialize, specializeAll_eq_map, specializeAll_eq_map,
        specializeAll_eq_map, List.map_map]
      exact congrArg list (List.map_congr_left fun e he => ih e he fun p hp => h p (.list he hp))
  | number | text | boolean => simp only [specialize]

end Twice

end TypedLisp.Datum
