import TypedLisp.Proofs.ScopeSafety
import TypedLisp.Proofs.Visibility

namespace TypedLisp

open CheckM

namespace ClassTy

variable {c d e : ClassTy}

/-- The classes given by the rows of a class and of those above it. -/
def ofRows : List ClassRow → List ClassTy
  | [] => []
  | row :: rows => ⟨row, rows⟩ :: ofRows rows

/-- A class, its superclass, the superclass of that and so on. -/
def lineage (c : ClassTy) : List ClassTy :=
  c :: ofRows c.ancestors

theorem lineage_of_none (h : c.superclass? = none) : c.lineage = [c] := by
  obtain ⟨row, ancestors⟩ := c
  cases ancestors with
  | nil => rfl
  | cons next ancestors => cases h

theorem lineage_of_some (h : c.superclass? = some d) : c.lineage = c :: d.lineage := by
  obtain ⟨row, ancestors⟩ := c
  cases ancestors with
  | nil => cases h
  | cons next ancestors =>
      obtain rfl := Option.some.inj h
      rfl

/-- What holds of a class if it holds of its superclass, holds of all. -/
theorem induction_up {P : ClassTy → Prop} (h : ∀ c, (∀ d, c.superclass? = some d → P d) → P c)
    (c : ClassTy) : P c := by
  obtain ⟨row, ancestors⟩ := c
  induction ancestors generalizing row with
  | nil => exact h _ fun d hd => by cases hd
  | cons next ancestors ih =>
      refine h _ fun d hd => ?_
      obtain rfl := Option.some.inj hd
      exact ih next

theorem mem_lineage_iff :
    d ∈ c.lineage ↔ d = c ∨ ∃ p, c.superclass? = some p ∧ d ∈ p.lineage := by
  cases h : c.superclass? with
  | none => simp [lineage_of_none h]
  | some p => simp [lineage_of_some h]

theorem mem_lineage_self (c : ClassTy) : c ∈ c.lineage :=
  List.mem_cons_self

theorem superclass?_extending (name : String) (fields : ScopeId) (parent : Option ClassTy) :
    (extending name fields parent).superclass? = parent := by
  cases parent <;> rfl

end ClassTy

namespace Arena

variable {α : Type} {a : Arena α} {classes : List ClassTy} {c d : ClassTy}

/-- The tables of the classes are linked as the classes are, and lead to tables opened before. -/
structure Mirrors (a : Arena α) (classes : List ClassTy) : Prop where
  isOpen : ∀ {c}, c ∈ classes → c.fields.index < a.size
  parent? : ∀ {c}, c ∈ classes → a.parent? c.fields = c.superclass?.map ClassTy.fields
  superclass? : ∀ {c p}, c ∈ classes → c.superclass? = some p →
    p ∈ classes ∧ p.fields.index < c.fields.index
  distinct : ∀ {c d}, c ∈ classes → d ∈ classes → c.fields = d.fields → c = d

namespace Mirrors

theorem define (h : a.Mirrors classes) (s : ScopeId) (name : Symbol) (value : α) :
    (a.define s name value).Mirrors classes where
  isOpen hc := by simpa using h.isOpen hc
  parent? hc := by
    rw [parent?_define]
    exact h.parent? hc
  superclass? := h.superclass?
  distinct := h.distinct

theorem openScope (h : a.Mirrors classes) (scope : Scope α) :
    (a.openScope scope).2.Mirrors classes where
  isOpen hc := by
    rw [size_openScope]
    exact Nat.lt_succ_of_lt (h.isOpen hc)
  parent? hc := by
    rw [parent?_openScope, if_neg (Nat.ne_of_lt (h.isOpen hc))]
    exact h.parent? hc
  superclass? := h.superclass?
  distinct := h.distinct

theorem memberTable (h : a.Mirrors classes) (name : String) {parent : Option ClassTy}
    (hparent : ∀ p ∈ parent, p ∈ classes) (outer : ScopeId) :
    (a.memberTable (parent.map ClassTy.fields) outer).2.Mirrors
      (.extending name (a.memberTable (parent.map ClassTy.fields) outer).1 parent :: classes) := by
  have hkept : (a.memberTable (parent.map ClassTy.fields) outer).2.Mirrors classes := h.openScope _
  generalize hnew : ClassTy.extending name _ parent = c
  have hfields : c.fields = ⟨a.size⟩ := by rw [← hnew, ClassTy.fields_extending]; rfl
  have hsuperclass : c.superclass? = parent := by rw [← hnew, ClassTy.superclass?_extending]
  -- The new table is not open yet, so no class has it.
  have hfresh {d : ClassTy} (hd : d ∈ classes) : d.fields ≠ c.fields := by
    intro heq
    have hlt := h.isOpen hd
    rw [heq, hfields] at hlt
    exact Nat.lt_irrefl _ hlt
  constructor
  · intro d hd
    rcases List.mem_cons.mp hd with rfl | hd
    · rw [hfields, Arena.memberTable, size_openScope]
      exact Nat.lt_succ_self _
    · exact hkept.isOpen hd
  · intro d hd
    rcases List.mem_cons.mp hd with rfl | hd
    · rw [hfields, hsuperclass, Arena.memberTable, parent?_openScope, if_pos rfl]
    · exact hkept.parent? hd
  · intro d p hd hp
    rcases List.mem_cons.mp hd with rfl | hd
    · have hmem := hparent p (hsuperclass ▸ hp)
      rw [hfields]
      exact ⟨List.mem_cons_of_mem _ hmem, h.isOpen hmem⟩
    · obtain ⟨hmem, hlt⟩ := h.superclass? hd hp
      exact ⟨List.mem_cons_of_mem _ hmem, hlt⟩
  · intro d e hd he heq
    rcases List.mem_cons.mp hd with rfl | hold <;> rcases List.mem_cons.mp he with rfl | hold'
    · rfl
    · exact absurd heq.symm (hfresh hold')
    · exact absurd heq (hfresh hold)
    · exact h.distinct hold hold' heq

theorem parentChain (h : a.Mirrors classes) (hc : c ∈ classes) :
    a.parentChain c.fields = c.lineage.map ClassTy.fields := by
  induction c using ClassTy.induction_up with
  | h c ih =>
      rw [Arena.parentChain, h.parent? hc]
      cases hp : c.superclass? with
      | none => rw [ClassTy.lineage_of_none hp]; rfl
      | some p =>
          obtain ⟨hmem, hlt⟩ := h.superclass? hc hp
          simp only [Option.map_some]
          rw [if_pos hlt, ih p hp hmem, ClassTy.lineage_of_some hp, List.map_cons]

theorem mem_of_mem_lineage (h : a.Mirrors classes) (hc : c ∈ classes) (hd : d ∈ c.lineage) :
    d ∈ classes := by
  induction c using ClassTy.induction_up with
  | h c ih =>
      rcases ClassTy.mem_lineage_iff.mp hd with rfl | ⟨p, hp, hd⟩
      · exact hc
      · exact ih p hp (h.superclass? hc hp).1 hd

end Mirrors

end Arena

/-- A class, or one above it, is a part of a type. -/
inductive Ty.Mentions : Ty → ClassTy → Prop where
  | param {params : List Ty} {p result : Ty} {c : ClassTy} (hp : p ∈ params) (h : Mentions p c) :
      Mentions (.function params result) c
  | result {params : List Ty} {result : Ty} {c : ClassTy} (h : Mentions result c) :
      Mentions (.function params result) c
  | parent {name : String} {parent : Ty} {c : ClassTy} (h : Mentions parent c) :
      Mentions (.aliasOf name parent) c
  | option {id : Nat} {name : String} {options : List Ty} {o : Ty} {c : ClassTy} (ho : o ∈ options)
      (h : Mentions o c) : Mentions (.union id name options) c
  | lineage {c d : ClassTy} (h : d ∈ c.lineage) : Mentions (.ofClass c) d

/-- All classes that are parts of a type are among some. -/
def Ty.Within (classes : List ClassTy) (t : Ty) : Prop :=
  ∀ c, t.Mentions c → c ∈ classes

namespace Ty.Within

variable {classes more : List ClassTy} {t : Ty}

theorem mono (h : t.Within classes) (hsub : classes ⊆ more) : t.Within more :=
  fun c hc => hsub (h c hc)

theorem primitive (p : Primitive) : (Ty.primitive p).Within classes := by
  intro c hc
  cases hc

theorem template (g : Template) : (Ty.template g).Within classes := by
  intro c hc
  cases hc

theorem function_iff {params : List Ty} {result : Ty} :
    (Ty.function params result).Within classes ↔
      (∀ p ∈ params, p.Within classes) ∧ result.Within classes := by
  constructor
  · exact fun h => ⟨fun p hp c hc => h c (.param hp hc), fun c hc => h c (.result hc)⟩
  · rintro ⟨hparams, hresult⟩ c (⟨hp, hc⟩ | hc)
    · exact hparams _ hp c hc
    · exact hresult c hc

theorem aliasOf_iff {name : String} {parent : Ty} :
    (Ty.aliasOf name parent).Within classes ↔ parent.Within classes := by
  constructor
  · exact fun h c hc => h c (.parent hc)
  · rintro h c (_ | _ | hc)
    exact h c hc

theorem union {id : Nat} {name : String} {options : List Ty}
    (h : ∀ o ∈ options, o.Within classes) : (Ty.union id name options).Within classes := by
  rintro c (_ | _ | _ | ⟨ho, hc⟩)
  exact h _ ho c hc

theorem mem {c : ClassTy} (h : (Ty.ofClass c).Within classes) : c ∈ classes :=
  h c (.lineage c.mem_lineage_self)

theorem superclass? {c p : ClassTy} (h : (Ty.ofClass c).Within classes)
    (hp : c.superclass? = some p) : (Ty.ofClass p).Within classes := by
  rintro d (_ | _ | _ | _ | hd)
  exact h d (.lineage (ClassTy.mem_lineage_iff.mpr (.inr ⟨p, hp, hd⟩)))

theorem ofClass {α : Type} {a : Arena α} (ha : a.Mirrors classes) {c : ClassTy} (hc : c ∈ classes) :
    (Ty.ofClass c).Within classes := by
  rintro d (_ | _ | _ | _ | hd)
  exact ha.mem_of_mem_lineage hc hd

end Ty.Within

namespace Context

variable {c d : Context} {classes : List ClassTy} {t : Ty}

/-- The classes have their tables, and no others are parts of types in the context. -/
structure Mirrors (c : Context) (classes : List ClassTy) : Prop extends
    c.HasOnly (fun _ t => t.Within classes) (Ty.Within classes) where
  tables : c.scopes.Mirrors classes

namespace Mirrors

variable (h : c.Mirrors classes)

include h

theorem within_of_lookup? {s : ScopeId} {name : String} (ht : c.lookup? s name = some t) :
    t.Within classes := by
  obtain ⟨_, hwithin⟩ := h.bound_of_lookup? ht
  exact hwithin

theorem within_of_member? {s : ScopeId} {name : String} (ht : c.member? s name = some t) :
    t.Within classes := by
  obtain ⟨_, hwithin⟩ := h.bound_of_member? ht
  exact hwithin

theorem change {more : List ClassTy} (hsub : classes ⊆ more) (htables : d.scopes.Mirrors more)
    (hd : Change (fun _ t => t.Within more) (Ty.Within more) c d) : d.Mirrors more :=
  ⟨(h.mono (fun ht => ht.mono hsub) fun ht => ht.mono hsub).change hd, htables⟩

theorem intern (name : String) : (c.intern name).2.Mirrors classes :=
  h.change (List.Subset.refl _) h.tables (.intern name)

theorem bind (q : ScopeId) (x : Symbol) (ht : t.Within classes) : (c.bind q x t).Mirrors classes :=
  h.change (List.Subset.refl _) (h.tables.define q x t) (.bind q ht)

theorem memberTable (name : String) {parent : Option ClassTy} (hparent : ∀ p ∈ parent, p ∈ classes)
    (s : ScopeId) :
    (c.memberTable (parent.map ClassTy.fields) s).2.Mirrors
      (.extending name (c.memberTable (parent.map ClassTy.fields) s).1 parent :: classes) :=
  h.change (List.subset_cons_self _ _) (h.tables.memberTable name hparent s) (.openScope _ _)

theorem enter (name : String) (ht : t.Within classes) : (c.enter name t).Mirrors classes :=
  h.change (List.Subset.refl _) h.tables (.enter name ht)

theorem declare (name : String) (ht : t.Within classes) :
    (c.declare name t).2.Mirrors classes := by
  rcases declare_cases h.indexed name t with hnew | hold
  · exact hnew ▸ h.enter name ht
  · exact hold ▸ h.intern name

theorem cache (name : String) (ht : t.Within classes) :
    (c.cache name t).2.Mirrors classes ∧ (c.cache name t).1.Within classes := by
  rcases cache_cases h.indexed name t with hnew | ⟨u, hu, hold⟩
  · rw [hnew]
    exact ⟨h.enter name ht, ht⟩
  · rw [hold]
    exact ⟨h.intern name, h.held_of_registered? hu⟩

end Mirrors

theorem mirrors_blank (options : Options) : (blank options).Mirrors [] :=
  ⟨hasOnly_blank options, by simp, by simp, by simp, by simp⟩

theorem within_prelude : ∀ e ∈ prelude, e.2.Within [] := by
  have hprimitive (p : Primitive) : (Ty.primitive p).Within [] := .primitive p
  simp [prelude, Ty.Within.function_iff, Ty.number, Ty.string, Ty.any, hprimitive]

theorem mirrors_new (options : Options) : (new options).Mirrors [] := by
  have hbare : (bare options).Mirrors [] := by
    rw [bare_eq]
    exact List.foldlRecOn (motive := fun c : Context => c.Mirrors []) _ _ (mirrors_blank options)
      fun c hc p _ => hc.enter p.name (.primitive p)
  rw [new]
  split
  · refine List.foldlRecOn (motive := fun c : Context => c.Mirrors []) _ _ hbare
      fun c hc entry hentry => ?_
    exact (hc.intern entry.1).bind _ _ (within_prelude entry hentry)
  · exact hbare

end Context

/-- A checker by itself, with the classes declared so far. -/
def mirroring : Simulation where
  State := { w : Session × List ClassTy // w.1.context.Mirrors w.2 }
  left w := w.1.1
  right w := w.1.1
  Later w v := w.1.2 ⊆ v.1.2
  Opens _ _ := True
  Named _ x y := y = x
  Plain w t := t.Within w.1.2
  MayDeclare _ _ := True
  MayLack _ _ := True
  Tracked := True

namespace mirroring

variable {w : mirroring.State} {c : Context} {t : Ty}

theorem moves {more : List ClassTy} (hc : c.Mirrors more) (hlater : w.1.2 ⊆ more)
    {post : mirroring.State → Prop} (hpost : post ⟨({ w.1.1 with context := c }, more), hc⟩) :
    mirroring.Moves w c c post :=
  ⟨⟨({ w.1.1 with context := c }, more), hc⟩, rfl, rfl, hlater, hpost⟩

theorem stays (hc : Context.Change (fun _ t => t.Within w.1.2) (Ty.Within w.1.2) w.1.1.context c)
    (htables : c.scopes.Mirrors w.1.2)
    {post : mirroring.State → Prop} (hpost : ∀ v, post v) : mirroring.Moves w c c post :=
  moves (w.2.change (List.Subset.refl _) htables hc) (List.Subset.refl _) (hpost _)

theorem made (g : Template) : mirroring.Made w g g :=
  Simulation.made_self (fun _ => rfl) trivial

theorem within_of_alike {t' : Ty} (ht : mirroring.Alike w t t') : t.Within w.1.2 := by
  rcases ht with ⟨-, ht⟩ | ⟨g, g', rfl, -⟩
  · exact ht
  · exact .template g

theorem lawful : mirroring.Lawful where
  refl _ := List.Subset.refl _
  trans := List.Subset.trans
  opens _ _ := trivial
  named _ h := h
  plain hv ht := ht.mono hv
  mayDeclare _ _ := trivial
  agrees _ _ := trivial
  kindred := .of_likes fun _ h => h
  plain_primitive _ p := .primitive p
  plain_function := Ty.Within.function_iff
  plain_aliasOf := Ty.Within.aliasOf_iff.mp
  plain_union hoptions := .union hoptions
  plain_superclass hc hp := hc.superclass? hp
  plain_template _ := made _
  lookup? {w _ _ _} _ ht := ⟨_, ht, .inl ⟨rfl, w.2.within_of_lookup? ht⟩⟩
  lookup?_none _ _ := trivial
  member? {w _ _ _} _ ht := ⟨_, ht, .inl ⟨rfl, w.2.within_of_member? ht⟩⟩
  registered? _ _ := rfl
  plain_registered {w _ _} ht := w.2.held_of_registered? ht
  registrySize _ := rfl
  instance? _ _ := rfl
  plain_instance {w _ _} hs := w.2.recorded hs
  strict _ h := h
  emit {w e e'} he := by
    obtain rfl := he.eq id
    exact ⟨⟨({ w.1.1 with events := w.1.1.events.push e' }, w.1.2), w.2⟩, rfl, rfl,
      List.Subset.refl _,
      fun _ _ _ _ hg => Simulation.readies_of_like hg.1 fun _ _ _ _ _ => trivial⟩
  intern w name := stays (.intern name) w.2.tables fun _ => rfl
  bind {w s x y t t'} _ hxy ht := by
    have hwithin := within_of_alike ht
    obtain rfl := hxy
    obtain rfl := ht.eq id
    exact stays (.bind s hwithin) (w.2.tables.define s y t') fun _ => trivial
  child {w s} _ := stays (.openScope (some s) none) (w.2.tables.openScope _) fun _ => ⟨rfl, trivial⟩
  memberTable {w s parent} name _ hparent := by
    have hc := w.2.memberTable name (fun p hp => (hparent p hp).mem) s
    exact moves hc (List.subset_cons_self _ _)
      ⟨rfl, trivial, .ofClass hc.tables List.mem_cons_self⟩
  declare {w name t} _ ht := by
    have ht := ht.plain Ty.Within.aliasOf_iff.mpr
    exact moves (w.2.declare name ht) (List.Subset.refl _) fun h => ⟨h, ht⟩
  cache {w text t} _ ht := by
    obtain ⟨hc, hresult⟩ := w.2.cache text ht
    exact moves hc (List.Subset.refl _) ⟨rfl, hresult⟩
  newTemplate w := stays .newTemplate w.2.tables fun _ => rfl
  record {w s} key hs := stays (.record key hs) w.2.tables fun _ => trivial
  forget {w} key _ := stays (.forget key) w.2.tables fun _ _ h => h

theorem pairs : mirroring.Pairs :=
  .of_same lawful

theorem exists_mirrors {α : Type} {m : CheckM α} {post : mirroring.State → α → α → Prop}
    (hm : mirroring.Follows w m m post) : ∃ classes, (w.1.1.run m).2.context.Mirrors classes := by
  obtain ⟨outcome, σ, hrun⟩ : ∃ outcome σ, w.1.1.run m = (outcome, σ) := ⟨_, _, rfl⟩
  rw [hrun]
  cases outcome with
  | ok a =>
      obtain ⟨_, v, rfl, -⟩ := hm.ok hrun
      exact ⟨v.1.2, v.2⟩
  | error halt =>
      obtain ⟨v, rfl, -⟩ := hm.stop hrun trivial
      exact ⟨v.1.2, v.2⟩

end mirroring

namespace Workspace

variable {u v : Workspace}

theorem exists_mirrors_of_operation {classes : List ClassTy} (hu : u.context.Mirrors classes)
    (h : Operation u v) : ∃ more, v.context.Mirrors more := by
  have hbodies (depth : Nat) := Simulation.Follows.bodyWithin mirroring.lawful mirroring.pairs depth
  have hexpr (depth : Nat) := Simulation.Follows.checkExpr mirroring.lawful mirroring.pairs
    (hbodies depth)
  let start (events : Array Event) : mirroring.State := ⟨(⟨u.context, events⟩, classes), hu⟩
  have hmatches (events : Array Event) (d : Datum) : mirroring.Matches (start events) d d :=
    ⟨rfl, fun _ _ => trivial⟩
  cases h with
  | expr depth d hs events =>
      exact mirroring.exists_mirrors
        (hexpr depth d (start events) d _ trivial (hmatches events d))
  | body depth d hs events =>
      exact mirroring.exists_mirrors
        (hbodies (depth + 1) (start events) d d _ trivial (hmatches events d))
  | block depth ds hs events =>
      exact mirroring.exists_mirrors (Simulation.Follows.checkBlock (w := start events)
        mirroring.lawful mirroring.pairs (fun d _ => hexpr depth d) trivial
        (List.forall₂_same.mpr fun d _ => hmatches events d))
  | resolve text expr events =>
      exact mirroring.exists_mirrors (w := start events)
        (Simulation.Follows.resolve mirroring.lawful text expr expr)
  | instantiate depth hg list expr events =>
      exact mirroring.exists_mirrors (w := start events)
        (Simulation.Follows.instantiate mirroring.lawful mirroring.pairs (hbodies depth)
          (mirroring.made _) list expr expr)

theorem Arises.exists_mirrors (hu : u.Arises) : ∃ classes, u.context.Mirrors classes := by
  obtain ⟨options, hoperations⟩ := hu
  induction hoperations with
  | refl => exact ⟨[], Context.mirrors_new options⟩
  | tail _ hoperation ih =>
      obtain ⟨classes, hclasses⟩ := ih
      exact exists_mirrors_of_operation hclasses hoperation

/-- A class that is a part of a type in the workspace, or is above one. -/
def Knows (u : Workspace) (c : ClassTy) : Prop :=
  ∃ t, u.Contains t ∧ t.Mentions c

theorem Knows.mem {classes : List ClassTy} (hu : u.context.Mirrors classes) {c : ClassTy}
    (hc : u.Knows c) : c ∈ classes := by
  obtain ⟨t, ht, hc⟩ := hc
  cases ht with
  | bound h => exact hu.bound h c hc
  | registered h => exact hu.registered h c hc
  | recorded h => exact hu.recorded h c hc
  | template h => cases hc

end Workspace

end TypedLisp
