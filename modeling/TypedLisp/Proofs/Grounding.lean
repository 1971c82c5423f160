import TypedLisp.Proofs.Search
import TypedLisp.Proofs.Simulation.Expressions

namespace TypedLisp

open CheckM

/-- A type without templates, all its classes having tables. -/
inductive Ty.Built (IsTable : ScopeId → Prop) : Ty → Prop where
  | primitive (p : Primitive) : Built IsTable (.primitive p)
  | function {params : List Ty} {result : Ty} (hparams : ∀ p ∈ params, Built IsTable p)
      (hresult : Built IsTable result) : Built IsTable (.function params result)
  | aliasOf {name : String} {parent : Ty} (hparent : Built IsTable parent) :
      Built IsTable (.aliasOf name parent)
  | union {id : Nat} {name : String} {options : List Ty}
      (hoptions : ∀ o ∈ options, Built IsTable o) : Built IsTable (.union id name options)
  | ofClass {c : ClassTy} (hrows : ∀ row ∈ c.row :: c.ancestors, IsTable row.fields) :
      Built IsTable (.ofClass c)

namespace Ty.Built

variable {IsTable IsTable' : ScopeId → Prop} {t : Ty}

theorem mono (h : t.Built IsTable) (himp : ∀ {s}, IsTable s → IsTable' s) : t.Built IsTable' := by
  induction h with
  | primitive p => exact .primitive p
  | function _ _ ihparams ihresult => exact .function ihparams ihresult
  | aliasOf _ ih => exact .aliasOf ih
  | union _ ih => exact .union ih
  | ofClass hrows => exact .ofClass fun row hrow => himp (hrows row hrow)

theorem function_iff {params : List Ty} {result : Ty} :
    (Ty.function params result).Built IsTable ↔
      (∀ p ∈ params, p.Built IsTable) ∧ result.Built IsTable := by
  constructor
  · rintro (_ | ⟨hparams, hresult⟩)
    exact ⟨hparams, hresult⟩
  · exact fun h => .function h.1 h.2

theorem aliasOf_iff {name : String} {parent : Ty} :
    (Ty.aliasOf name parent).Built IsTable ↔ parent.Built IsTable := by
  constructor
  · rintro (_ | _ | hparent)
    exact hparent
  · exact .aliasOf

theorem rows {c : ClassTy} (h : (Ty.ofClass c).Built IsTable) :
    ∀ row ∈ c.row :: c.ancestors, IsTable row.fields := by
  cases h with
  | ofClass hrows => exact hrows

theorem superclass? {c parent : ClassTy} (h : (Ty.ofClass c).Built IsTable)
    (hparent : c.superclass? = some parent) : (Ty.ofClass parent).Built IsTable := by
  obtain ⟨row, ancestors⟩ := c
  cases ancestors with
  | nil => cases hparent
  | cons next ancestors =>
      obtain rfl := Option.some.inj hparent
      exact .ofClass fun r hr => h.rows r (List.mem_cons_of_mem _ hr)

theorem fields {parent : Option ClassTy} (h : ∀ c ∈ parent, (Ty.ofClass c).Built IsTable) :
    ∀ p ∈ parent.map ClassTy.fields, IsTable p := by
  intro p hp
  obtain ⟨c, hc, rfl⟩ := Option.map_eq_some_iff.mp hp
  exact (h c hc).rows c.row List.mem_cons_self

theorem extending (name : String) {fields : ScopeId} (hfields : IsTable fields)
    {parent : Option ClassTy} (hparent : ∀ c ∈ parent, (Ty.ofClass c).Built IsTable) :
    (Ty.ofClass (.extending name fields parent)).Built IsTable := by
  cases parent with
  | none => exact .ofClass (by simpa [ClassTy.extending] using hfields)
  | some c => exact .ofClass (List.forall_mem_cons.mpr ⟨hfields, (hparent c rfl).rows⟩)

end Ty.Built

namespace Context

/-- A template that was made in the context: it closes over an open scope, and its parameters have
names. -/
structure Closes (c : Context) (g : Template) : Prop where
  closure : g.closure.index < c.scopes.size
  params : ∀ p ∈ g.params, (c.interner.resolve? p.1).isSome = true

/-- A type that expressions can have. -/
def Holds (c : Context) (t : Ty) : Prop :=
  t.Built c.scopes.IsTable ∨ ∃ g, t = .template g ∧ c.Closes g

/-- All that a context has bound is of one kind, and all that it has registered or recorded is of
another. -/
structure HasOnly (c : Context) (Bound : Symbol → Ty → Prop) (Held : Ty → Prop) : Prop where
  indexed : c.Indexed
  bound : ∀ {q x t}, c.scopes.binding? q x = some t → Bound x t
  registered : ∀ {x t}, c.registry.get? x = some t → Held t
  recorded : ∀ {key s}, c.instance? key = some s → Held s.toTy

/-- A context in which all is named and all scopes are open. -/
structure Laid (c : Context) : Prop extends
    c.HasOnly (fun x t => (c.interner.resolve? x).isSome = true ∧ c.Holds t)
      (Ty.Built c.scopes.IsTable) where
  rooted : c.scopes.Rooted

/-- What a context has of names and scopes, a later one has. -/
structure Precedes (c d : Context) : Prop where
  names : c.interner.Extends d.interner
  size : c.scopes.size ≤ d.scopes.size
  tables : ∀ {s}, c.scopes.IsTable s → d.scopes.IsTable s
  kept : ∀ {q x}, (c.scopes.binding? q x).isSome = true → (d.scopes.binding? q x).isSome = true

variable {c d e : Context} {t : Ty}

theorem Precedes.refl (c : Context) : c.Precedes c :=
  ⟨.refl _, Nat.le_refl _, id, id⟩

theorem Precedes.trans (hcd : c.Precedes d) (hde : d.Precedes e) : c.Precedes e :=
  ⟨hcd.names.trans hde.names, Nat.le_trans hcd.size hde.size, fun h => hde.tables (hcd.tables h),
    fun h => hde.kept (hcd.kept h)⟩

theorem Precedes.of_scopes (hnames : c.interner.Extends d.interner) (h : d.scopes = c.scopes) :
    c.Precedes d :=
  ⟨hnames, Nat.le_of_eq (by rw [h]), fun ht => by rwa [h], fun hb => by rwa [h]⟩

theorem Precedes.isSome_resolve? (h : c.Precedes d) {x : Symbol}
    (hx : (c.interner.resolve? x).isSome = true) : (d.interner.resolve? x).isSome = true := by
  obtain ⟨name, hname⟩ := Option.isSome_iff_exists.mp hx
  rw [h.names x name hname]
  rfl

theorem Closes.later {g : Template} (hg : c.Closes g) (h : c.Precedes d) : d.Closes g :=
  ⟨Nat.lt_of_lt_of_le hg.closure h.size, fun p hp => h.isSome_resolve? (hg.params p hp)⟩

theorem Holds.closes {g : Template} (h : c.Holds (.template g)) : c.Closes g := by
  rcases h with hbuilt | ⟨g', heq, hg'⟩
  · cases hbuilt
  · exact Ty.template.inj heq ▸ hg'

theorem Holds.later (h : c.Holds t) (hcd : c.Precedes d) : d.Holds t := by
  rcases h with ht | ⟨g, rfl, hg⟩
  · exact .inl (ht.mono hcd.tables)
  · exact .inr ⟨g, rfl, hg.later hcd⟩

theorem precedes_intern (c : Context) (name : String) : c.Precedes (c.intern name).2 :=
  .of_scopes (c.interner.extends_intern name) rfl

theorem isSome_resolve?_intern (c : Context) (name : String) :
    ((c.intern name).2.interner.resolve? (c.intern name).1).isSome = true := by
  have hname : (c.intern name).2.interner.resolve? (c.intern name).1 = some name :=
    c.interner.resolve?_intern name
  rw [hname]
  rfl

theorem precedes_enter (c : Context) (name : String) (t : Ty) : c.Precedes (c.enter name t) :=
  .of_scopes (c.interner.extends_intern name) rfl

theorem precedes_bind {q : ScopeId} (hq : q.index < c.scopes.size) (x : Symbol) (t : Ty) :
    c.Precedes (c.bind q x t) := by
  refine ⟨.refl _, Nat.le_of_eq (by simp [Context.bind]), fun hs => hs.define q x t, ?_⟩
  intro q' x' hb
  rw [Context.bind, Arena.binding?_define _ _ _ _ _ _ hq]
  split
  · rfl
  · exact hb

/-- The context with one more scope. -/
def openScope (c : Context) (parent outer : Option ScopeId) : Context :=
  { c with scopes := (c.scopes.openScope { parent, outer }).2 }

theorem precedes_openScope (c : Context) (parent outer : Option ScopeId) :
    c.Precedes (c.openScope parent outer) := by
  refine ⟨.refl _, by simp [openScope], fun hs => hs.openScope _, ?_⟩
  intro q x hb
  obtain ⟨t, ht⟩ := Option.isSome_iff_exists.mp hb
  rwa [openScope, Arena.binding?_openScope, if_neg (Nat.ne_of_lt (Arena.index_lt_of_binding? ht))]

theorem child_lt_size (c : Context) (s : ScopeId) :
    (c.child s).1.index < (c.child s).2.scopes.size := by
  simp [child, Arena.child, Arena.openScope, Arena.size]

theorem isTable_memberTable (c : Context) (parent : Option ScopeId) (s : ScopeId) :
    (c.memberTable parent s).2.scopes.IsTable (c.memberTable parent s).1 := by
  rw [memberTable, Arena.memberTable, Arena.IsTable, Arena.outer?_openScope, if_pos]
  · rfl
  · rfl

theorem binding?_blank (options : Options) (q : ScopeId) (x : Symbol) :
    (blank options).scopes.binding? q x = none := by
  refine Option.bind_eq_none_iff.mpr fun scope hscope => ?_
  rw [getElem?_empty hscope]
  exact Std.TreeMap.getElem?_emptyc

/-- A change of a context that adds nothing but types of two kinds. -/
inductive Change (Bound : Symbol → Ty → Prop) (Held : Ty → Prop) (c : Context) :
    Context → Prop where
  | intern (name : String) : Change Bound Held c (c.intern name).2
  | bind (q : ScopeId) {x : Symbol} {t : Ty} (ht : Bound x t) : Change Bound Held c (c.bind q x t)
  | openScope (parent outer : Option ScopeId) : Change Bound Held c (c.openScope parent outer)
  | enter (name : String) {t : Ty} (ht : Held t) : Change Bound Held c (c.enter name t)
  | newTemplate : Change Bound Held c c.newTemplate.2
  | record (key : InstanceKey) {s : Signature} (hs : Held s.toTy) :
      Change Bound Held c (c.record key s)
  | forget (key : InstanceKey) : Change Bound Held c (c.forget key)

section Changes

variable {Bound Bound' : Symbol → Ty → Prop} {Held Held' : Ty → Prop}

theorem HasOnly.mono (h : c.HasOnly Bound Held) (hbound : ∀ {x t}, Bound x t → Bound' x t)
    (hheld : ∀ {t}, Held t → Held' t) : c.HasOnly Bound' Held' :=
  ⟨h.indexed, fun ht => hbound (h.bound ht), fun ht => hheld (h.registered ht),
    fun hs => hheld (h.recorded hs)⟩

theorem HasOnly.change (h : c.HasOnly Bound Held) (hd : Change Bound Held c d) :
    d.HasOnly Bound Held := by
  cases hd with
  | intern name => exact { h with indexed := indexed_intern h.indexed name }
  | newTemplate => exact { h with }
  | @bind q x t ht =>
      refine { h with bound := fun {q' x' t'} hb => ?_ }
      rcases Arena.binding?_define_cases hb with ⟨rfl, rfl⟩ | hold
      · exact ht
      · exact h.bound hold
  | openScope parent outer =>
      refine { h with bound := fun {q x t} hb => h.bound (q := q) ?_ }
      rwa [Context.openScope, Arena.binding?_openScope_blank] at hb
  | @enter name t ht =>
      refine { h with indexed := indexed_enter h.indexed name t, registered := fun {x u} hu => ?_ }
      rw [registry_get?_enter] at hu
      split at hu
      · exact Option.some.inj hu ▸ ht
      · exact h.registered hu
  | @record key s hs =>
      refine { h with recorded := fun {other s'} hs' => ?_ }
      rw [instance?_record] at hs'
      split at hs'
      · exact Option.some.inj hs' ▸ hs
      · exact h.recorded hs'
  | forget key =>
      refine { h with recorded := fun {other s'} hs' => ?_ }
      rw [instance?_forget] at hs'
      split at hs'
      · cases hs'
      · exact h.recorded hs'

theorem declare_cases (hc : c.Indexed) (name : String) (t : Ty) :
    (c.declare name t).2 = c.enter name t ∨ (c.declare name t).2 = (c.intern name).2 := by
  cases hold : c.registered? name with
  | none => exact .inl (by rw [declare_of_none hc hold])
  | some u => exact .inr (by rw [declare_of_some hc hold])

theorem cache_cases (hc : c.Indexed) (name : String) (t : Ty) :
    c.cache name t = (t, c.enter name t) ∨
      ∃ u, c.registered? name = some u ∧ c.cache name t = (u, (c.intern name).2) := by
  cases hold : c.registered? name with
  | none => exact .inl (cache_of_none hc hold t)
  | some u => exact .inr ⟨u, rfl, cache_of_some hc hold t⟩

theorem HasOnly.held_of_registered? (h : c.HasOnly Bound Held) {text : String}
    (ht : c.registered? text = some t) : Held t := by
  obtain ⟨x, -, hx⟩ := Option.bind_eq_some_iff.mp ht
  exact h.registered hx

theorem HasOnly.bound_of_lookup? (h : c.HasOnly Bound Held) {s : ScopeId} {name : String}
    (ht : c.lookup? s name = some t) : ∃ x, Bound x t := by
  obtain ⟨x, -, hx⟩ := Option.bind_eq_some_iff.mp ht
  obtain ⟨q, hq⟩ := Arena.exists_binding?_of_lookup? hx
  exact ⟨x, h.bound hq⟩

theorem HasOnly.bound_of_member? (h : c.HasOnly Bound Held) {s : ScopeId} {name : String}
    (ht : c.member? s name = some t) : ∃ x, Bound x t := by
  obtain ⟨x, -, hx⟩ := Option.bind_eq_some_iff.mp ht
  obtain ⟨q, hq⟩ := Arena.exists_binding?_of_member? hx
  exact ⟨x, h.bound hq⟩

theorem hasOnly_blank (options : Options) : (blank options).HasOnly Bound Held where
  indexed := (wellFormed_blank options).indexed
  bound ht := by simp [binding?_blank] at ht
  registered ht := by simp [blank, Registry.get?] at ht
  recorded hs := by simp [blank, instance?] at hs

end Changes

namespace Laid

variable (h : c.Laid)

include h

theorem named {q : ScopeId} {x : Symbol} (hx : (c.scopes.binding? q x).isSome = true) :
    (c.interner.resolve? x).isSome = true := by
  obtain ⟨t, ht⟩ := Option.isSome_iff_exists.mp hx
  exact (h.bound ht).1

/-- A later context is laid if it comes of a change that adds nothing else. -/
theorem change (hcd : c.Precedes d) (hrooted : d.scopes.Rooted)
    (hd : Change (fun x t => (d.interner.resolve? x).isSome = true ∧ d.Holds t)
      (Ty.Built d.scopes.IsTable) c d) : d.Laid :=
  ⟨(h.mono (fun ht => ⟨hcd.isSome_resolve? ht.1, ht.2.later hcd⟩)
    fun ht => ht.mono hcd.tables).change hd, hrooted⟩

theorem intern (name : String) : (c.intern name).2.Laid :=
  h.change (precedes_intern c name) h.rooted (.intern name)

theorem bind {q : ScopeId} (hq : q.index < c.scopes.size) {x : Symbol}
    (hx : (c.interner.resolve? x).isSome = true) (ht : c.Holds t) : (c.bind q x t).Laid :=
  h.change (precedes_bind hq x t) (h.rooted.define q x t)
    (.bind q ⟨hx, ht.later (precedes_bind hq x t)⟩)

theorem child {s : ScopeId} (hs : s.index < c.scopes.size) : (c.child s).2.Laid :=
  h.change (precedes_openScope c (some s) none)
    (h.rooted.openScope (by simpa using hs) (by simp) (.inr rfl) (by simp)) (.openScope _ _)

theorem memberTable {parent : Option ScopeId} {s : ScopeId} (hs : s.index < c.scopes.size)
    (hparent : ∀ p ∈ parent, c.scopes.IsTable p) : (c.memberTable parent s).2.Laid :=
  h.change (precedes_openScope c parent (some s))
    (h.rooted.openScope (fun p hp => (hparent p hp).index_lt) (by simpa using hs) (.inl rfl)
      fun _ => hparent) (.openScope _ _)

theorem enter (name : String) (ht : t.Built c.scopes.IsTable) : (c.enter name t).Laid :=
  h.change (precedes_enter c name t) h.rooted (.enter name ht)

theorem newTemplate : c.newTemplate.2.Laid :=
  h.change (.of_scopes (.refl _) rfl) h.rooted .newTemplate

theorem record (key : InstanceKey) {s : Signature} (hs : s.toTy.Built c.scopes.IsTable) :
    (c.record key s).Laid :=
  h.change (.of_scopes (.refl _) rfl) h.rooted (.record key hs)

theorem forget (key : InstanceKey) : (c.forget key).Laid :=
  h.change (.of_scopes (.refl _) rfl) h.rooted (.forget key)

theorem define {q : ScopeId} (hq : q.index < c.scopes.size) (name : String) (ht : c.Holds t) :
    (c.define q name t).Laid :=
  (h.intern name).bind hq (isSome_resolve?_intern c name) (ht.later (precedes_intern c name))

theorem declare (name : String) (ht : t.Built c.scopes.IsTable) :
    (c.declare name t).2.Laid ∧ c.Precedes (c.declare name t).2 := by
  rcases declare_cases h.indexed name t with hnew | hold
  · rw [hnew]
    exact ⟨h.enter name ht, precedes_enter c name t⟩
  · rw [hold]
    exact ⟨h.intern name, precedes_intern c name⟩

theorem cache (name : String) (ht : t.Built c.scopes.IsTable) :
    (c.cache name t).2.Laid ∧ c.Precedes (c.cache name t).2 ∧
      (c.cache name t).1.Built c.scopes.IsTable := by
  rcases cache_cases h.indexed name t with hnew | ⟨u, hu, hold⟩
  · rw [hnew]
    exact ⟨h.enter name ht, precedes_enter c name t, ht⟩
  · rw [hold]
    exact ⟨h.intern name, precedes_intern c name, h.held_of_registered? hu⟩

theorem holds_of_lookup? {s : ScopeId} {name : String} (ht : c.lookup? s name = some t) :
    c.Holds t := by
  obtain ⟨_, -, hholds⟩ := h.bound_of_lookup? ht
  exact hholds

theorem holds_of_member? {s : ScopeId} {name : String} (ht : c.member? s name = some t) :
    c.Holds t := by
  obtain ⟨_, -, hholds⟩ := h.bound_of_member? ht
  exact hholds

theorem lookup?_global_of_none {s : ScopeId} (hs : s.index < c.scopes.size) {name : String}
    (hnone : c.lookup? s name = none) : c.lookup? Arena.global name = none := by
  cases hx : c.interner.get? name with
  | none => rw [lookup?, hx, Option.bind_none]
  | some x =>
      rw [lookup?, hx, Option.bind_some] at hnone ⊢
      rw [← Option.not_isSome_iff_eq_none] at hnone ⊢
      exact fun hglobal => hnone (h.rooted.isSome_lookup?_of_global hs hglobal)

theorem lookup?_global_kept (hd : d.Laid) (hcd : c.Precedes d) {name : String}
    (hnone : d.lookup? Arena.global name = none) : c.lookup? Arena.global name = none := by
  cases hx : c.interner.get? name with
  | none => rw [lookup?, hx, Option.bind_none]
  | some x =>
      -- A later context has the name under the same symbol.
      rw [lookup?, hcd.names.get? hx, Option.bind_some, hd.rooted.lookup?_global] at hnone
      rw [lookup?, hx, Option.bind_some, h.rooted.lookup?_global]
      rw [← Option.not_isSome_iff_eq_none] at hnone ⊢
      exact fun hbound => hnone (hcd.kept hbound)

end Laid

theorem laid_blank (options : Options) : (blank options).Laid :=
  ⟨hasOnly_blank options, Arena.rooted_empty⟩

theorem built_prelude (IsTable : ScopeId → Prop) : ∀ e ∈ prelude, e.2.Built IsTable := by
  have hnumber : Ty.number.Built IsTable := .primitive .number
  have hstring : Ty.string.Built IsTable := .primitive .string
  have hany : Ty.any.Built IsTable := .primitive .any
  simp [prelude, Ty.Built.function_iff, hnumber, hstring, hany]

theorem laid_bare (options : Options) : (bare options).Laid := by
  rw [bare_eq]
  exact List.foldlRecOn _ _ (laid_blank options) fun c hc p _ => hc.enter p.name (.primitive p)

theorem laid_new (options : Options) : (new options).Laid := by
  rw [new]
  split
  · refine List.foldlRecOn _ _ (laid_bare options) fun c hc entry hentry => ?_
    exact hc.define hc.rooted.nonempty entry.1 (.inl (built_prelude _ entry hentry))
  · exact laid_bare options

end Context

/-- A checker by itself, with a laid context. -/
def grounding : Simulation where
  State := { σ : Session // σ.context.Laid }
  left σ := σ.1
  right σ := σ.1
  Later σ τ := σ.1.context.Precedes τ.1.context
  Opens σ s := s.index < σ.1.context.scopes.size
  Named σ x y := y = x ∧ (σ.1.context.interner.resolve? x).isSome = true
  Plain σ t := t.Built σ.1.context.scopes.IsTable
  MayDeclare _ _ := True
  MayLack σ name := σ.1.context.lookup? Arena.global name = none
  Tracked := True

namespace grounding

variable {w : grounding.State} {c : Context} {t : Ty}

theorem moves (hc : c.Laid) (hlater : w.1.context.Precedes c) {post : grounding.State → Prop}
    (hpost : post ⟨{ w.1 with context := c }, hc⟩) : grounding.Moves w c c post :=
  ⟨⟨{ w.1 with context := c }, hc⟩, rfl, rfl, hlater, hpost⟩

theorem made_of_closes {g : Template} (hg : w.1.context.Closes g) : grounding.Made w g g := by
  refine ⟨⟨rfl, rfl, rfl, ?_, rfl, rfl, rfl⟩, hg.closure⟩
  exact List.forall₂_same.mpr fun p hp => ⟨⟨rfl, hg.params p hp⟩, rfl⟩

theorem alike_of_holds (ht : w.1.context.Holds t) : grounding.Alike w t t := by
  rcases ht with ht | ⟨g, rfl, hg⟩
  · exact .inl ⟨rfl, ht⟩
  · exact .inr ⟨g, g, rfl, rfl, made_of_closes hg⟩

theorem holds_of_alike {t' : Ty} (ht : grounding.Alike w t t') : w.1.context.Holds t := by
  rcases ht with ⟨-, ht⟩ | ⟨g, g', rfl, -, hlike, hg⟩
  · exact .inl ht
  · refine .inr ⟨g, rfl, hg, fun p hp => ?_⟩
    obtain ⟨p', -, hnamed, -⟩ := exists_mem_of_forall₂ hlike.params hp
    exact hnamed.2

theorem lawful : grounding.Lawful where
  refl _ := .refl _
  trans := .trans
  opens hv hs := Nat.lt_of_lt_of_le hs hv.size
  named hv hxy := ⟨hxy.1, hv.isSome_resolve? hxy.2⟩
  plain hv ht := ht.mono hv.tables
  mayDeclare _ _ := trivial
  agrees _ _ := trivial
  kindred := .of_likes fun hv hxy => ⟨hxy.1, hv.isSome_resolve? hxy.2⟩
  plain_primitive _ p := .primitive p
  plain_function := Ty.Built.function_iff
  plain_aliasOf := Ty.Built.aliasOf_iff.mp
  plain_union hoptions := .union hoptions
  plain_superclass hc hparent := hc.superclass? hparent
  plain_template hg := by cases hg
  lookup? {w _ _ _} _ ht := ⟨_, ht, alike_of_holds (w.2.holds_of_lookup? ht)⟩
  lookup?_none {w _ _} hs hnone := w.2.lookup?_global_of_none hs hnone
  member? {w _ _ _} _ ht := ⟨_, ht, alike_of_holds (w.2.holds_of_member? ht)⟩
  registered? _ _ := rfl
  plain_registered {w _ _} ht := w.2.held_of_registered? ht
  registrySize _ := rfl
  instance? _ _ := rfl
  plain_instance {w _ _} hs := w.2.recorded hs
  strict _ h := h
  emit {w e e'} he := by
    obtain rfl := he.eq And.left
    exact ⟨⟨{ w.1 with events := w.1.events.push e' }, w.2⟩, rfl, rfl, .refl _,
      fun _ _ _ _ hg => Simulation.readies_of_like hg.1 fun _ _ _ _ _ => trivial⟩
  intern w name := moves (w.2.intern name) (Context.precedes_intern _ name)
    ⟨rfl, Context.isSome_resolve?_intern _ name⟩
  bind {w s x y t t'} hs hxy ht := by
    have hholds := holds_of_alike ht
    obtain ⟨rfl, hx⟩ := hxy
    obtain rfl := ht.eq And.left
    exact moves (w.2.bind hs hx hholds) (Context.precedes_bind hs y t') trivial
  child {w s} hs := moves (w.2.child hs) (Context.precedes_openScope _ (some s) none)
    ⟨rfl, Context.child_lt_size _ s⟩
  memberTable {w s parent} name hs hparent := by
    have hlater := Context.precedes_openScope w.1.context (parent.map ClassTy.fields) (some s)
    have htable := Context.isTable_memberTable w.1.context (parent.map ClassTy.fields) s
    refine moves (w.2.memberTable hs (Ty.Built.fields hparent)) hlater
      ⟨rfl, htable.index_lt, ?_⟩
    exact .extending name htable fun c hc => (hparent c hc).mono hlater.tables
  declare {w name t} _ ht := by
    have ht := ht.plain Ty.Built.aliasOf_iff.mpr
    obtain ⟨hlaid, hlater⟩ := w.2.declare name ht
    exact moves hlaid hlater fun h => ⟨h, ht.mono hlater.tables⟩
  cache {w text t} _ ht := by
    obtain ⟨hlaid, hlater, hresult⟩ := w.2.cache text ht
    exact moves hlaid hlater ⟨rfl, hresult.mono hlater.tables⟩
  newTemplate w := moves w.2.newTemplate (.of_scopes (.refl _) rfl) rfl
  record {w s} key hs := moves (w.2.record key hs) (.of_scopes (.refl _) rfl) trivial
  forget {w} key _ := moves (w.2.forget key) (.of_scopes (.refl _) rfl) fun _ h => h

theorem pairs : grounding.Pairs :=
  .of_same lawful

/-- What a check leaves, however it ends: a laid context, which has what the check ends with. If it
is stopped for a name that is not defined, the global scope does not bind that name. -/
theorem run_laid {m : CheckM Ty} (hm : grounding.Follows w m m fun v t _ => v.1.context.Holds t) :
    (w.1.run m).2.context.Laid ∧ w.1.context.Precedes (w.1.run m).2.context ∧
      (∀ t, (w.1.run m).1 = .ok t → (w.1.run m).2.context.Holds t) ∧
      ∀ halt name, (w.1.run m).1 = .error halt → halt.undefined? = some name →
        (w.1.run m).2.context.lookup? Arena.global name = none := by
  obtain ⟨outcome, σ, hrun⟩ : ∃ outcome σ, w.1.run m = (outcome, σ) := ⟨_, _, rfl⟩
  rw [hrun]
  cases outcome with
  | ok t =>
      obtain ⟨_, v, rfl, -, hlater, hholds⟩ := hm.ok hrun
      refine ⟨v.2, hlater, fun t' ht' => ?_, by simp⟩
      obtain rfl := Except.ok.inj ht'
      exact hholds
  | error halt =>
      obtain ⟨v, rfl, hlater, hlacks⟩ := hm.stop hrun trivial
      refine ⟨v.2, hlater, by simp, fun halt' name hhalt hname => ?_⟩
      obtain rfl := Except.error.inj hhalt
      exact hlacks name hname

end grounding

end TypedLisp
