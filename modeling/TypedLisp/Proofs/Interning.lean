import Mathlib.Data.Finset.Card
import TypedLisp.Proofs.Names

namespace TypedLisp.Interner

/-- Intern names in turn; the result is the symbol of each. -/
def internEach (i : Interner) : List String → List Symbol × Interner
  | [] => ([], i)
  | name :: names =>
      let (s, i) := i.intern name
      let (symbols, i) := i.internEach names
      (s :: symbols, i)

variable {i : Interner} {given : List String}

theorem extends_internEach (i : Interner) (names : List String) :
    i.Extends (i.internEach names).2 := by
  induction names generalizing i with
  | nil => exact .refl i
  | cons name names ih => exact (i.extends_intern name).trans (ih _)

theorem forall₂_internEach (i : Interner) (names : List String) :
    List.Forall₂ (fun name s => ∀ j, (i.internEach names).2.Extends j → j.get? name = some s)
      names (i.internEach names).1 := by
  induction names generalizing i with
  | nil => exact .nil
  | cons name names ih =>
      refine .cons (fun j hj => ?_) (ih _)
      exact ((extends_internEach _ names).trans hj).get? (i.get?_intern name)

theorem nodup_names (i : Interner) : i.names.toList.Nodup := by
  rw [List.nodup_iff_getElem?_ne_getElem?]
  intro k l hkl hl hsame
  rw [Array.getElem?_toList, Array.getElem?_toList] at hsame
  have hl : i.resolve? ⟨l⟩ = some i.names[l] := Array.getElem?_eq_getElem hl
  have hk : i.resolve? ⟨k⟩ = some i.names[l] := hsame.trans hl
  -- Both numbers are the symbol of one name.
  have hsymbols := (get?_eq_some_iff.mpr hk).symm.trans (get?_eq_some_iff.mpr hl)
  obtain rfl := Symbol.mk.inj (Option.some.inj hsymbols)
  exact Nat.lt_irrefl _ hkl

/-- An interner holds the names given so far, each once, in the order in which they came first. -/
def Holds (i : Interner) (given : List String) : Prop :=
  i.names.toList = given.eraseDups

theorem holds_empty : empty.Holds [] := rfl

namespace Holds

theorem resolve?_eq (h : i.Holds given) (s : Symbol) :
    i.resolve? s = given.eraseDups[s.index]? := by
  rw [← h, Array.getElem?_toList, resolve?]

theorem size_eq (h : i.Holds given) : i.size = given.toFinset.card := by
  have hsame : given.toFinset = i.names.toList.toFinset := by
    ext name
    rw [List.mem_toFinset, List.mem_toFinset, h, List.mem_eraseDups]
  rw [hsame, List.toFinset_card_of_nodup i.nodup_names, Array.length_toList, size]

theorem isSome_get?_iff (h : i.Holds given) (name : String) :
    (i.get? name).isSome = true ↔ name ∈ given := by
  rw [← List.mem_eraseDups, List.mem_iff_getElem?, Option.isSome_iff_exists]
  constructor
  · rintro ⟨s, hs⟩
    exact ⟨s.index, by rw [← h.resolve?_eq, get?_eq_some_iff.mp hs]⟩
  · rintro ⟨k, hk⟩
    exact ⟨⟨k⟩, get?_eq_some_iff.mpr (by rw [h.resolve?_eq, hk])⟩

theorem intern (h : i.Holds given) (name : String) :
    (i.intern name).2.Holds (given ++ [name]) := by
  rw [Holds, List.eraseDups_append, List.removeAll]
  cases hname : i.get? name with
  | some s =>
      have hmem : name ∈ given := (h.isSome_get?_iff name).mp (by rw [hname]; rfl)
      rw [intern_of_get? hname, h]
      simp [hmem]
  | none =>
      have hnew : name ∉ given := by
        rw [← h.isSome_get?_iff, hname]
        simp
      rw [intern_of_get?_none hname, add, Array.toList_push, h]
      simp [hnew, List.eraseDups_cons]

theorem internEach (h : i.Holds given) (names : List String) :
    (i.internEach names).2.Holds (given ++ names) := by
  induction names generalizing i given with
  | nil => rwa [List.append_nil]
  | cons name names ih =>
      rw [List.append_cons]
      exact ih (h.intern name)

end Holds

theorem holds_internEach (names : List String) : (empty.internEach names).2.Holds names :=
  holds_empty.internEach names

theorem Holds.get?_eq (h : i.Holds given) (name : String) :
    i.get? name =
      if name ∈ given then some ⟨(given.takeWhile (· != name)).toFinset.card⟩ else none := by
  split
  · next hname =>
      obtain ⟨before, after, rfl, hbefore⟩ := List.eq_append_cons_of_mem hname
      have htake : (before ++ name :: after).takeWhile (· != name) = before := by
        rw [List.takeWhile_append_of_pos]
        · simp
        · intro other hother
          have hne : other ≠ name := fun heq => hbefore (heq ▸ hother)
          simpa using hne
      have hcount : before.eraseDups.length = before.toFinset.card := by
        rw [← (holds_internEach before).size_eq, ← holds_internEach before, Array.length_toList,
          size]
      rw [htake, get?_eq_some_iff, h.resolve?_eq, List.eraseDups_append, ← hcount,
        List.getElem?_append_right (Nat.le_refl _), Nat.sub_self, List.removeAll,
        List.filter_cons_of_pos (by simpa using hbefore), List.eraseDups_cons]
      rfl
  · next hname =>
      rw [← h.isSome_get?_iff, Option.not_isSome_iff_eq_none] at hname
      exact hname

/-- After any names have been given to a fresh interner, a name has a symbol exactly if the symbol
has that name; the symbols in use are the numbers below the size, which is the number of distinct
names, so that 32 bits suffice for fewer than `2 ^ 32` of them; each name is numbered by the distinct
names given before it; and every symbol that was handed out is the symbol of its name then and after
any more names. -/
theorem internEach_bijective (given : List String) :
    let run := empty.internEach given
    (∀ name s, run.2.get? name = some s ↔ run.2.resolve? s = some name) ∧
      (∀ s, (run.2.resolve? s).isSome = true ↔ s.index < run.2.size) ∧
      run.2.size = given.toFinset.card ∧
      (∀ name, run.2.get? name =
        if name ∈ given then some ⟨(given.takeWhile (· != name)).toFinset.card⟩ else none) ∧
      List.Forall₂ (fun name s => ∀ later,
        let i := (run.2.internEach later).2
        i.resolve? s = some name ∧ i.intern name = (s, i)) given run.1 := by
  have hholds := holds_internEach given
  refine ⟨fun _ _ => get?_eq_some_iff, fun s => ?_, hholds.size_eq, hholds.get?_eq, ?_⟩
  · simp [resolve?, size]
  · refine (empty.forall₂_internEach given).imp fun name s hs later => ?_
    have hname := hs _ (extends_internEach _ later)
    exact ⟨get?_eq_some_iff.mp hname, intern_of_get? hname⟩

/-- Of five names three are distinct, and the first to come again has its symbol still. -/
example : (empty.internEach ["b", "a", "b", "c", "a"]).1.map Symbol.index = [0, 1, 0, 2, 1] := by
  decide

end TypedLisp.Interner
