import TypedLisp.Context
import TypedLisp.TypeExpr.Parser

namespace TypedLisp

namespace Interner

/-- All symbols keep their names. -/
def Extends (i j : Interner) : Prop :=
  ∀ s name, i.resolve? s = some name → j.resolve? s = some name

theorem Extends.refl (i : Interner) : i.Extends i :=
  fun _ _ h => h

theorem Extends.trans {i j k : Interner} (hij : i.Extends j) (hjk : j.Extends k) : i.Extends k :=
  fun s name h => hjk s name (hij s name h)

theorem extends_intern (i : Interner) (name : String) : i.Extends (i.intern name).2 :=
  fun _ _ h => resolve?_intern_of_resolve? name h

theorem Extends.get? {i j : Interner} (h : i.Extends j) {name : String} {s : Symbol}
    (hs : i.get? name = some s) : j.get? name = some s :=
  get?_eq_some_iff.mpr (h s name (get?_eq_some_iff.mp hs))

theorem get?_intern (i : Interner) (name : String) :
    (i.intern name).2.get? name = some (i.intern name).1 :=
  get?_eq_some_iff.mpr (resolve?_intern i name)

theorem Extends.get?_bind {i j : Interner} {α : Type} {f : Symbol → Option α} (h : i.Extends j)
    (hf : ∀ s, (f s).isSome → (i.resolve? s).isSome) (name : String) :
    (j.get? name).bind f = (i.get? name).bind f := by
  cases hi : i.get? name with
  | some s => rw [h.get? hi]
  | none =>
      cases hj : j.get? name with
      | none => rfl
      | some s =>
          cases hs : f s with
          | none => simp [hs]
          | some a =>
              obtain ⟨old, hold⟩ := Option.isSome_iff_exists.mp (hf s (by rw [hs]; rfl))
              have hname : old = name := by
                have := (h s old hold).symm.trans (get?_eq_some_iff.mp hj)
                exact Option.some.inj this
              rw [get?_eq_some_iff.mpr (hname ▸ hold)] at hi
              cases hi

end Interner

namespace Context

/-- Types are registered under interned names only. -/
def Indexed (c : Context) : Prop :=
  ∀ s, (c.registry.get? s).isSome → (c.interner.resolve? s).isSome

theorem intern_context (c : Context) (name : String) :
    (c.intern name).2 = { c with interner := (c.interner.intern name).2 } := rfl

theorem indexed_intern {c : Context} (hc : c.Indexed) (name : String) :
    (c.intern name).2.Indexed := by
  intro s hs
  obtain ⟨old, hold⟩ := Option.isSome_iff_exists.mp (hc s hs)
  rw [intern_context, Interner.resolve?_intern_of_resolve? name hold]
  rfl

@[simp]
theorem registered?_intern {c : Context} (hc : c.Indexed) (name text : String) :
    (c.intern name).2.registered? text = c.registered? text :=
  (c.interner.extends_intern name).get?_bind hc text

def enter (c : Context) (name : String) (t : Ty) : Context :=
  { (c.intern name).2 with registry := ⟨c.registry.types.insert (c.intern name).1 t⟩ }

theorem registry_get?_enter (c : Context) (name : String) (t : Ty) (s : Symbol) :
    (c.enter name t).registry.get? s =
      if (c.intern name).1 = s then some t else c.registry.get? s := by
  simp [enter, Registry.get?, Std.TreeMap.getElem?_insert]

theorem indexed_enter {c : Context} (hc : c.Indexed) (name : String) (t : Ty) :
    (c.enter name t).Indexed := by
  intro s hs
  rw [registry_get?_enter] at hs
  split at hs
  · next h =>
      have : (c.enter name t).interner.resolve? s = some name := h ▸ c.interner.resolve?_intern name
      rw [this]
      rfl
  · exact indexed_intern hc name s hs

theorem registered?_enter {c : Context} (hc : c.Indexed) (name text : String) (t : Ty) :
    (c.enter name t).registered? text = if name = text then some t else c.registered? text := by
  have hname : (c.intern name).2.interner.get? name = some (c.intern name).1 :=
    c.interner.get?_intern name
  by_cases h : name = text
  · subst h
    rw [if_pos rfl]
    show ((c.intern name).2.interner.get? name).bind (c.enter name t).registry.get? = some t
    rw [hname, Option.bind_some, registry_get?_enter, if_pos rfl]
  · rw [if_neg h, ← registered?_intern hc name text]
    show ((c.intern name).2.interner.get? text).bind (c.enter name t).registry.get? =
      ((c.intern name).2.interner.get? text).bind c.registry.get?
    cases htext : (c.intern name).2.interner.get? text with
    | none => rfl
    | some s =>
        have hs : (c.intern name).1 ≠ s := by
          rintro rfl
          rw [Interner.get?_eq_some_iff] at hname htext
          exact h (Option.some.inj (hname.symm.trans htext))
        rw [Option.bind_some, Option.bind_some, registry_get?_enter, if_neg hs]

theorem registered?_enter_of_some {c : Context} {text : String} {u : Ty}
    (h : c.registered? text = some u) {name : String} (hnew : c.registered? name = none) {t : Ty} :
    (c.enter name t).registered? text = some u := by
  obtain ⟨s, hs, hu⟩ := Option.bind_eq_some_iff.mp h
  have hs' : (c.enter name t).interner.get? text = some s :=
    (c.interner.extends_intern name).get? hs
  have hother : (c.intern name).1 ≠ s := by
    rintro rfl
    have hname : (c.interner.intern name).2.resolve? (c.intern name).1 = some name :=
      c.interner.resolve?_intern name
    have heq : name = text :=
      Option.some.inj (hname.symm.trans (Interner.get?_eq_some_iff.mp hs'))
    exact nomatch (heq ▸ h).symm.trans hnew
  rw [registered?, hs', Option.bind_some, registry_get?_enter, if_neg hother]
  exact hu

theorem intern_of_registered? {c : Context} {name : String} {t : Ty}
    (h : c.registered? name = some t) : (c.intern name).2 = c := by
  obtain ⟨s, hs, -⟩ := Option.bind_eq_some_iff.mp h
  rw [intern, Interner.intern_of_get? hs]

theorem registry_get?_intern {c : Context} (hc : c.Indexed) (name : String) :
    c.registry.get? (c.intern name).1 = c.registered? name := by
  have hname : (c.intern name).2.interner.get? name = some (c.intern name).1 :=
    c.interner.get?_intern name
  rw [← registered?_intern hc name name, registered?, hname]
  rfl

theorem cache_of_none {c : Context} (hc : c.Indexed) {name : String}
    (h : c.registered? name = none) (t : Ty) : c.cache name t = (t, c.enter name t) := by
  have hget : (c.intern name).2.registry.get? (c.intern name).1 = none :=
    (registry_get?_intern hc name).trans h
  simp only [cache, Registry.cache, hget]
  rfl

theorem cache_of_some {c : Context} (hc : c.Indexed) {name : String} {old : Ty}
    (h : c.registered? name = some old) (t : Ty) : c.cache name t = (old, (c.intern name).2) := by
  have hget : (c.intern name).2.registry.get? (c.intern name).1 = some old :=
    (registry_get?_intern hc name).trans h
  simp only [cache, Registry.cache, hget]

theorem registered?_cache {c : Context} (hc : c.Indexed) (name : String) (t : Ty) :
    (c.cache name t).2.registered? name = some (c.cache name t).1 := by
  cases h : c.registered? name with
  | none => rw [cache_of_none hc h, registered?_enter hc, if_pos rfl]
  | some old => rw [cache_of_some hc h, registered?_intern hc, h]

theorem declare_of_none {c : Context} (hc : c.Indexed) {name : String}
    (h : c.registered? name = none) (t : Ty) : c.declare name t = (none, c.enter name t) := by
  have hget : (c.intern name).2.registry.get? (c.intern name).1 = none :=
    (registry_get?_intern hc name).trans h
  simp only [declare, Registry.declare, hget]
  rfl

theorem declare_of_some {c : Context} (hc : c.Indexed) {name : String} {old : Ty}
    (h : c.registered? name = some old) (t : Ty) :
    c.declare name t = (some old, (c.intern name).2) := by
  have hget : (c.intern name).2.registry.get? (c.intern name).1 = some old :=
    (registry_get?_intern hc name).trans h
  simp only [declare, Registry.declare, hget]

end Context

end TypedLisp
