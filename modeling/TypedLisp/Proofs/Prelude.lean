import TypedLisp.Proofs.Grounding
import TypedLisp.Proofs.Visibility

/-!
The prelude takes nothing away. Two checkers that differ in what the global scope binds in addition
take the same steps for as long as the poorer one goes on: the global scope is searched last,
members are not looked up in it, and no rule asks for a name to be unbound.
-/

namespace TypedLisp

open CheckM

namespace Arena

variable {α : Type} {a b : Arena α} {s : ScopeId}

theorem SameLinks.isTable (h : a.SameLinks b) (hs : a.IsTable s) : b.IsTable s := by
  rwa [IsTable, h.outer?]

end Arena

namespace Context

variable {c d e f : Context} {q s : ScopeId} {name : String} {t t' : Ty}

theorem Laid.bound?_of_extends (h : c.Laid) (hnames : c.interner.Extends d.interner)
    (hscopes : d.scopes = c.scopes) (q : ScopeId) (name : String) :
    d.bound? q name = c.bound? q name := by
  rw [bound?, hscopes]
  exact hnames.get?_bind (fun _ hx => h.named hx) name

theorem bound?_openScope (c : Context) (parent outer : Option ScopeId) (q : ScopeId)
    (name : String) : (c.openScope parent outer).bound? q name = c.bound? q name := by
  unfold bound?
  exact congrArg _ (funext fun x => c.scopes.binding?_openScope_blank parent outer q x)

theorem Laid.bound?_define (h : c.Laid) (hs : s.index < c.scopes.size) (name : String) (t : Ty)
    (q : ScopeId) (other : String) :
    (c.define s name t).bound? q other =
      if s = q ∧ name = other then some t else c.bound? q other := by
  have hintern := h.bound?_of_extends (c.interner.extends_intern name)
    (d := (c.intern name).2) rfl q other
  rw [← hintern]
  exact bound?_bind (c := (c.intern name).2) hs (c.interner.resolve?_intern name) t q other

theorem registrySize_enter (hc : c.Indexed) (hname : c.registered? name = none) (t : Ty) :
    (c.enter name t).registry.size = c.registry.size + 1 := by
  have hget : c.registry.types[(c.intern name).1]? = none := (registry_get?_intern hc name).trans hname
  rw [enter, Registry.size, Std.TreeMap.size_insert, if_neg]
  · rfl
  · rw [Std.TreeMap.contains_eq_isSome_getElem?, hget]
    simp

/-- Symbols of one name, each in its own context. -/
def SameName (c d : Context) (x y : Symbol) : Prop :=
  ∃ name, c.interner.resolve? x = some name ∧ d.interner.resolve? y = some name

/-- Types that the two contexts have for the same thing: one type, or templates that are equal up to
the numbering of names. -/
def Matches (c d : Context) (t t' : Ty) : Prop :=
  (t' = t ∧ t.Built c.scopes.IsTable) ∨
    ∃ g g', t = .template g ∧ t' = .template g' ∧ g.Like (c.SameName d) g' ∧
      g.closure.index < c.scopes.size

theorem SameName.later {x y : Symbol} (h : c.SameName d x y) (hc : c.Precedes e)
    (hd : d.Precedes f) : e.SameName f x y := by
  obtain ⟨name, hx, hy⟩ := h
  exact ⟨name, hc.names x name hx, hd.names y name hy⟩

theorem Matches.later (h : c.Matches d t t') (hc : c.Precedes e) (hd : d.Precedes f) :
    e.Matches f t t' := by
  rcases h with ⟨rfl, ht⟩ | ⟨g, g', rfl, rfl, hlike, hopen⟩
  · exact .inl ⟨rfl, ht.mono hc.tables⟩
  · refine .inr ⟨g, g', rfl, rfl, { hlike with params := ?_ }, Nat.lt_of_lt_of_le hopen hc.size⟩
    exact hlike.params.imp fun _ _ hp => ⟨hp.1.later hc hd, hp.2⟩

theorem Matches.rel_later {left right : Option Ty} (h : Option.Rel (c.Matches d) left right)
    (hc : c.Precedes e) (hd : d.Precedes f) : Option.Rel (e.Matches f) left right := by
  cases h with
  | none => exact .none
  | some hmatch => exact .some (hmatch.later hc hd)

theorem Matches.holds (h : c.Matches d t t') (hd : c.scopes.SameLinks d.scopes) :
    c.Holds t ∧ d.Holds t' := by
  rcases h with ⟨rfl, ht⟩ | ⟨g, g', rfl, rfl, hlike, hopen⟩
  · exact ⟨.inl ht, .inl (ht.mono hd.isTable)⟩
  · refine ⟨.inr ⟨g, rfl, hopen, fun p hp => ?_⟩, .inr ⟨g', rfl, ?_, fun p' hp' => ?_⟩⟩
    · obtain ⟨p', -, ⟨name, hname, -⟩, -⟩ := exists_mem_of_forall₂ hlike.params hp
      rw [hname]
      rfl
    · rwa [hlike.closure, hd.size]
    · obtain ⟨p, -, ⟨name, -, hname⟩, -⟩ := exists_mem_of_forall₂ hlike.params.flip hp'
      rw [hname]
      rfl

/-- The second context binds more in the global scope, and numbers names in its own way. -/
structure Widened (c d : Context) : Prop where
  left : c.Laid
  right : d.Laid
  strict : d.options.strictOperands = c.options.strictOperands
  links : c.scopes.SameLinks d.scopes
  inner : ∀ {q} name, q ≠ Arena.global →
    Option.Rel (c.Matches d) (c.bound? q name) (d.bound? q name)
  outer : ∀ {name t}, c.bound? Arena.global name = some t →
    ∃ t', d.bound? Arena.global name = some t' ∧ c.Matches d t t'
  registered? : ∀ name, d.registered? name = c.registered? name
  registrySize : d.registry.size = c.registry.size
  instance? : ∀ key, d.instance? key = c.instance? key
  nextTemplate : d.nextTemplate = c.nextTemplate

namespace Widened

variable (h : c.Widened d)

include h

theorem found {order : List ScopeId} (horder : Arena.global ∉ order) (name : String) :
    Option.Rel (c.Matches d) (order.findSome? fun q => c.bound? q name)
      (order.findSome? fun q => d.bound? q name) :=
  Arena.rel_findSome? fun _ hq => h.inner name fun hglobal => horder (hglobal ▸ hq)

theorem lookup? (hs : s.index < c.scopes.size) (ht : c.lookup? s name = some t) :
    ∃ t', d.lookup? s name = some t' ∧ c.Matches d t t' := by
  obtain ⟨before, hbefore, hglobal⟩ := h.left.rooted.searchOrder_eq_concat hs
  have hfound := h.found hglobal name
  rw [lookup?_eq_findSome?, hbefore, List.findSome?_append] at ht
  rw [lookup?_eq_findSome?, h.links.searchOrder, hbefore, List.findSome?_append]
  generalize (before.findSome? fun q => c.bound? q name) = left,
    (before.findSome? fun q => d.bound? q name) = right at hfound ht ⊢
  cases hfound with
  | some hmatch =>
      obtain rfl := Option.some.inj ht
      exact ⟨_, rfl, hmatch⟩
  | none =>
      -- Only the global scope is left.
      have hglobal : c.bound? Arena.global name = some t := by simpa using ht
      obtain ⟨t', ht', hmatch⟩ := h.outer hglobal
      exact ⟨t', by simp [ht'], hmatch⟩

theorem member? (hs : c.scopes.IsTable s) (ht : c.member? s name = some t) :
    ∃ t', d.member? s name = some t' ∧ c.Matches d t t' := by
  have hfound := h.found (h.left.rooted.global_not_mem_parentChain hs) name
  rw [← member?_eq_findSome?, ← h.links.parentChain, ← member?_eq_findSome?, ht] at hfound
  generalize d.member? s name = right at hfound ⊢
  cases hfound with
  | some hmatch => exact ⟨_, rfl, hmatch⟩

theorem extend (hc : c.Precedes e) (hd : d.Precedes f) (hleft : e.Laid) (hright : f.Laid)
    (hstrict : f.options.strictOperands = e.options.strictOperands)
    (hlinks : e.scopes.SameLinks f.scopes)
    (hbound : ∀ q name, e.bound? q name = c.bound? q name)
    (hbound' : ∀ q name, f.bound? q name = d.bound? q name)
    (hregistered : ∀ name, f.registered? name = e.registered? name)
    (hsize : f.registry.size = e.registry.size)
    (hinstance : ∀ key, f.instance? key = e.instance? key)
    (hnext : f.nextTemplate = e.nextTemplate) : e.Widened f where
  left := hleft
  right := hright
  strict := hstrict
  links := hlinks
  inner {q} name hq := by
    rw [hbound, hbound']
    exact Matches.rel_later (h.inner name hq) hc hd
  outer {name t} ht := by
    rw [hbound] at ht
    rw [hbound']
    obtain ⟨t', ht', hmatch⟩ := h.outer ht
    exact ⟨t', ht', hmatch.later hc hd⟩
  registered? := hregistered
  registrySize := hsize
  instance? := hinstance
  nextTemplate := hnext

theorem intern (name : String) : (c.intern name).2.Widened (d.intern name).2 :=
  h.extend (precedes_intern c name) (precedes_intern d name) (h.left.intern name)
    (h.right.intern name) h.strict h.links
    (h.left.bound?_of_extends (c.interner.extends_intern name) rfl)
    (h.right.bound?_of_extends (d.interner.extends_intern name) rfl)
    (fun text => by
      rw [registered?_intern h.left.indexed, registered?_intern h.right.indexed, h.registered?])
    h.registrySize h.instance? h.nextTemplate

theorem openScope (parent outer : Option ScopeId) (hleft : (c.openScope parent outer).Laid)
    (hright : (d.openScope parent outer).Laid) :
    (c.openScope parent outer).Widened (d.openScope parent outer) :=
  h.extend (precedes_openScope c parent outer) (precedes_openScope d parent outer) hleft hright
    h.strict (h.links.openScope _) (bound?_openScope c parent outer)
    (bound?_openScope d parent outer) h.registered? h.registrySize h.instance? h.nextTemplate

theorem enter (hname : c.registered? name = none) (ht : t.Built c.scopes.IsTable) :
    (c.enter name t).Widened (d.enter name t) := by
  have hname' : d.registered? name = none := (h.registered? name).trans hname
  refine h.extend (precedes_enter c name t) (precedes_enter d name t) (h.left.enter name ht)
    (h.right.enter name (ht.mono h.links.isTable)) h.strict h.links
    (h.left.bound?_of_extends (c.interner.extends_intern name) rfl)
    (h.right.bound?_of_extends (d.interner.extends_intern name) rfl) ?_ ?_ h.instance? h.nextTemplate
  · intro text
    rw [registered?_enter h.left.indexed, registered?_enter h.right.indexed, h.registered?]
  · rw [registrySize_enter h.left.indexed hname, registrySize_enter h.right.indexed hname',
      h.registrySize]

theorem bind (hs : s.index < c.scopes.size) {x y : Symbol} (hxy : c.SameName d x y)
    (ht : c.Matches d t t') : (c.bind s x t).Widened (d.bind s y t') := by
  obtain ⟨name, hx, hy⟩ := hxy
  have hs' : s.index < d.scopes.size := h.links.size.symm ▸ hs
  obtain ⟨hholds, hholds'⟩ := ht.holds h.links
  have hc := precedes_bind hs x t
  have hd := precedes_bind hs' y t'
  exact
    { left := h.left.bind hs (by rw [hx]; rfl) hholds
      right := h.right.bind hs' (by rw [hy]; rfl) hholds'
      strict := h.strict
      links := (h.links.define_right s y t').define_left s x t
      inner := fun {q} other hq => by
        rw [bound?_bind hs hx, bound?_bind hs' hy]
        split
        · exact .some (ht.later hc hd)
        · exact Matches.rel_later (h.inner other hq) hc hd
      outer := fun {other u} hu => by
        rw [bound?_bind hs hx] at hu
        rw [bound?_bind hs' hy]
        split
        · next hsame =>
            rw [if_pos hsame] at hu
            obtain rfl := Option.some.inj hu
            exact ⟨t', rfl, ht.later hc hd⟩
        · next hother =>
            rw [if_neg hother] at hu
            obtain ⟨u', hu', hmatch⟩ := h.outer hu
            exact ⟨u', hu', hmatch.later hc hd⟩
      registered? := h.registered?
      registrySize := h.registrySize
      instance? := h.instance?
      nextTemplate := h.nextTemplate }

theorem define_right (hname : c.bound? Arena.global name = none) (ht : t.Built d.scopes.IsTable) :
    c.Widened (d.define Arena.global name t) := by
  have hglobal : Arena.global.index < d.scopes.size := h.right.rooted.nonempty
  have hbound := h.right.bound?_define hglobal name t
  have hd : d.Precedes (d.define Arena.global name t) :=
    (precedes_intern d name).trans (precedes_bind (c := (d.intern name).2) hglobal _ t)
  exact
    { left := h.left
      right := h.right.define hglobal name (.inl ht)
      strict := h.strict
      links := h.links.define_right _ _ _
      inner := fun {q} other hq => by
        rw [hbound, if_neg fun hsame => hq hsame.1.symm]
        exact Matches.rel_later (h.inner other hq) (.refl c) hd
      outer := fun {other u} hu => by
        have hne : name ≠ other := by
          rintro rfl
          cases hname.symm.trans hu
        rw [hbound, if_neg fun hsame => hne hsame.2]
        obtain ⟨u', hu', hmatch⟩ := h.outer hu
        exact ⟨u', hu', hmatch.later (.refl c) hd⟩
      registered? := fun text => (registered?_intern h.right.indexed name text).trans
        (h.registered? text)
      registrySize := h.registrySize
      instance? := h.instance?
      nextTemplate := h.nextTemplate }

theorem declare (name : String) (ht : t.Built c.scopes.IsTable) :
    (c.declare name t).2.Widened (d.declare name t).2 ∧
      (d.declare name t).1 = (c.declare name t).1 := by
  have hsame := h.registered? name
  cases hold : c.registered? name with
  | none =>
      rw [hold] at hsame
      rw [declare_of_none h.left.indexed hold, declare_of_none h.right.indexed hsame]
      exact ⟨h.enter hold ht, rfl⟩
  | some u =>
      rw [hold] at hsame
      rw [declare_of_some h.left.indexed hold, declare_of_some h.right.indexed hsame]
      exact ⟨h.intern name, rfl⟩

theorem cache (name : String) (ht : t.Built c.scopes.IsTable) :
    (c.cache name t).2.Widened (d.cache name t).2 ∧ (d.cache name t).1 = (c.cache name t).1 := by
  have hsame := h.registered? name
  cases hold : c.registered? name with
  | none =>
      rw [hold] at hsame
      rw [cache_of_none h.left.indexed hold, cache_of_none h.right.indexed hsame]
      exact ⟨h.enter hold ht, rfl⟩
  | some u =>
      rw [hold] at hsame
      rw [cache_of_some h.left.indexed hold, cache_of_some h.right.indexed hsame]
      exact ⟨h.intern name, rfl⟩

theorem newTemplate : c.newTemplate.2.Widened d.newTemplate.2 :=
  { h with
    left := h.left.newTemplate
    right := h.right.newTemplate
    nextTemplate := congrArg (· + 1) h.nextTemplate }

theorem record (key : InstanceKey) {s : Signature} (hs : s.toTy.Built c.scopes.IsTable) :
    (c.record key s).Widened (d.record key s) :=
  { h with
    left := h.left.record key hs
    right := h.right.record key (hs.mono h.links.isTable)
    instance? := fun other => by rw [instance?_record, instance?_record, h.instance?] }

end Widened

theorem bound?_bare (options : Options) (q : ScopeId) (name : String) :
    (bare options).bound? q name = none :=
  Option.bind_eq_none_iff.mpr fun x _ => binding?_blank options q x

theorem widened_new (strict : Bool) : (new ⟨strict, false⟩).Widened (new ⟨strict, true⟩) := by
  have hbare : (bare ⟨strict, false⟩).Widened (bare ⟨strict, true⟩) :=
    { left := laid_bare _
      right := laid_bare _
      strict := rfl
      links := .refl _
      inner := fun name _ => by
        rw [bound?_bare, bound?_bare]
        exact .none
      outer := fun ht => by
        rw [bound?_bare] at ht
        cases ht
      registered? := fun _ => rfl
      registrySize := rfl
      instance? := fun _ => rfl
      nextTemplate := rfl }
  rw [new, new, if_neg (by simp), if_pos rfl]
  refine List.foldlRecOn prelude _ hbare fun d hd entry hentry => ?_
  exact hd.define_right (bound?_bare _ _ _) (built_prelude _ entry hentry)

end Context

/-- A checker, and one whose global scope binds more. -/
def widening : Simulation where
  State := { p : Session × Session // p.1.context.Widened p.2.context }
  left p := p.1.1
  right p := p.1.2
  Later p q := p.1.1.context.Precedes q.1.1.context ∧ p.1.2.context.Precedes q.1.2.context
  Opens p s := s.index < p.1.1.context.scopes.size
  Named p x y := p.1.1.context.SameName p.1.2.context x y
  Plain p t := t.Built p.1.1.context.scopes.IsTable
  MayDeclare _ _ := True
  MayLack _ _ := True
  Tracked := False

namespace widening

variable {w : widening.State} {c d : Context}

theorem moves (h : c.Widened d) (hc : w.1.1.context.Precedes c) (hd : w.1.2.context.Precedes d)
    {post : widening.State → Prop}
    (hpost : post ⟨({ w.1.1 with context := c }, { w.1.2 with context := d }), h⟩) :
    widening.Moves w c d post :=
  ⟨⟨({ w.1.1 with context := c }, { w.1.2 with context := d }), h⟩, rfl, rfl, ⟨hc, hd⟩, hpost⟩

theorem lawful : widening.Lawful where
  refl _ := ⟨.refl _, .refl _⟩
  trans hv hu := ⟨hv.1.trans hu.1, hv.2.trans hu.2⟩
  opens hv hs := Nat.lt_of_lt_of_le hs hv.1.size
  named hv hxy := hxy.later hv.1 hv.2
  plain hv ht := ht.mono hv.1.tables
  mayDeclare _ _ := trivial
  agrees _ _ := trivial
  kindred := .of_likes fun hv hxy => hxy.later hv.1 hv.2
  plain_primitive _ p := .primitive p
  plain_function := Ty.Built.function_iff
  plain_aliasOf := Ty.Built.aliasOf_iff.mp
  plain_union hoptions := .union hoptions
  plain_superclass hc hparent := hc.superclass? hparent
  plain_template hg := by cases hg
  lookup? {w _ _ _} hs ht := w.2.lookup? hs ht
  lookup?_none _ _ := trivial
  member? {w c _ _} hc ht := w.2.member? (hc.rows c.row List.mem_cons_self) ht
  registered? w text := w.2.registered? text
  plain_registered {w _ _} ht := w.2.left.held_of_registered? ht
  registrySize w := w.2.registrySize
  instance? w key := w.2.instance? key
  plain_instance {w _ _} hs := w.2.left.recorded hs
  strict w h := w.2.strict ▸ h
  emit {w e e'} _ := ⟨⟨({ w.1.1 with events := w.1.1.events.push e },
      { w.1.2 with events := w.1.2.events.push e' }), w.2⟩, rfl, rfl, ⟨.refl _, .refl _⟩,
    fun _ _ _ _ hg => Simulation.readies_of_like hg.1 fun _ _ _ _ _ => trivial⟩
  intern w name := moves (w.2.intern name) (Context.precedes_intern _ name)
    (Context.precedes_intern _ name)
    ⟨name, Interner.resolve?_intern _ name, Interner.resolve?_intern _ name⟩
  bind {w s x y t t'} hs hxy ht := moves (w.2.bind hs hxy ht) (Context.precedes_bind hs x t)
    (Context.precedes_bind (w.2.links.size.symm ▸ hs) y t') trivial
  child {w s} hs := by
    have hs' : s.index < w.1.2.context.scopes.size := w.2.links.size.symm ▸ hs
    refine moves (w.2.openScope (some s) none (w.2.left.child hs) (w.2.right.child hs'))
      (Context.precedes_openScope _ (some s) none) (Context.precedes_openScope _ (some s) none)
      ⟨?_, Context.child_lt_size _ s⟩
    exact congrArg ScopeId.mk w.2.links.size
  memberTable {w s parent} name hs hparent := by
    have hs' : s.index < w.1.2.context.scopes.size := w.2.links.size.symm ▸ hs
    have hfields := Ty.Built.fields hparent
    have hlater := Context.precedes_openScope w.1.1.context (parent.map ClassTy.fields) (some s)
    have htable := Context.isTable_memberTable w.1.1.context (parent.map ClassTy.fields) s
    refine moves (w.2.openScope _ (some s) (w.2.left.memberTable hs hfields)
        (w.2.right.memberTable hs' fun p hp => w.2.links.isTable (hfields p hp)))
      hlater (Context.precedes_openScope _ _ (some s)) ⟨?_, htable.index_lt, ?_⟩
    · exact congrArg ScopeId.mk w.2.links.size
    · exact .extending name htable fun c hc => (hparent c hc).mono hlater.tables
  declare {w name t} _ ht := by
    have ht := ht.plain Ty.Built.aliasOf_iff.mpr
    obtain ⟨hwidened, hsame⟩ := w.2.declare name ht
    have hlater := (w.2.left.declare name ht).2
    exact moves hwidened hlater (w.2.right.declare name (ht.mono w.2.links.isTable)).2
      fun h => ⟨hsame.trans h, ht.mono hlater.tables⟩
  cache {w text t} _ ht := by
    obtain ⟨hwidened, hsame⟩ := w.2.cache text ht
    obtain ⟨-, hlater, hresult⟩ := w.2.left.cache text ht
    exact moves hwidened hlater (w.2.right.cache text (ht.mono w.2.links.isTable)).2.1
      ⟨hsame, hresult.mono hlater.tables⟩
  newTemplate w := moves w.2.newTemplate (.of_scopes (.refl _) rfl) (.of_scopes (.refl _) rfl)
    w.2.nextTemplate
  record {w s} key hs := moves (w.2.record key hs) (.of_scopes (.refl _) rfl)
    (.of_scopes (.refl _) rfl) trivial
  forget _ h := h.elim

theorem pairs : widening.Pairs :=
  .of_same lawful

theorem checkProgram (ds : List Datum) (w : widening.State) :
    widening.Repeats w (Session.checkProgram ds) :=
  .bind lawful (.emit_same lawful _) fun v _ _ _ _ =>
    .checkBlock lawful pairs
      (fun d _ => .checkExpr lawful pairs (.bodyWithin lawful pairs Session.depthLimit) d)
      v.2.left.rooted.nonempty (List.forall₂_same.mpr fun _ _ => ⟨rfl, fun _ _ => trivial⟩)

end widening

/-- If a program is accepted without the prelude, it is accepted with it, whatever names it declares
itself. The type is the same, but for the numbering of names in a template. -/
theorem prelude_conservative {strict : Bool} {ds : List Datum} {t : Ty} {σ : Session}
    (hrun : (Session.start ⟨strict, false⟩).run (Session.checkProgram ds) = (.ok t, σ)) :
    ∃ t' σ', (Session.start ⟨strict, true⟩).run (Session.checkProgram ds) = (.ok t', σ') ∧
      t'.kind = t.kind ∧ t'.name = t.name ∧ ((∀ g, t ≠ .template g) → t' = t) := by
  let start : widening.State :=
    ⟨(Session.start ⟨strict, false⟩, Session.start ⟨strict, true⟩), Context.widened_new strict⟩
  obtain ⟨t', v, -, hright, -, halike⟩ := (widening.checkProgram ds start).ok hrun
  refine ⟨t', _, hright, ?_⟩
  rcases halike with ⟨rfl, -⟩ | ⟨g, g', rfl, rfl, hlike, -⟩
  · exact ⟨rfl, rfl, fun _ => rfl⟩
  · exact ⟨rfl, hlike.shown, fun hnot => absurd rfl (hnot g)⟩

/-- A program with a type, a class, a member, a parameter, a template and a variable that are named
as in the prelude. -/
def preludeNames : List Datum :=
  [.list [.symbol "type", .symbol "typeof", .symbol "string"],
    .list [.symbol "class", .symbol "sum", .symbol "null",
      .list [.symbol "var", .symbol "VERSION", .text "left"]],
    .list [.symbol "def", .symbol "square", .symbol "<T>",
      .list [.list [.symbol "VERSION", .symbol "T"]], .symbol "->", .symbol "T",
      .symbol "VERSION"],
    .list [.symbol "var", .symbol "VERSION",
      .list [.symbol "square", .symbol "<string>", .text "side"]],
    .symbol "square"]

/-- The kind and the name of what a program ends with. -/
def endsWith? (prelude : Bool) (ds : List Datum) : Option (String × String) :=
  ((Session.start ⟨true, prelude⟩).run (Session.checkProgram ds)).1.toOption.map
    fun t => (t.kind, t.name)

/-- Without the prelude, the program ends with its template; so it does with the prelude. -/
theorem prelude_conservative_of_names :
    endsWith? false preludeNames = some ("generic function", "square <T>") ∧
      endsWith? true preludeNames = some ("generic function", "square <T>") := by
  have hends : endsWith? false preludeNames = some ("generic function", "square <T>") := by
    decide +kernel
  refine ⟨hends, ?_⟩
  obtain ⟨outcome, σ, hrun⟩ : ∃ outcome σ,
      (Session.start ⟨true, false⟩).run (Session.checkProgram preludeNames) = (outcome, σ) :=
    ⟨_, _, rfl⟩
  rw [endsWith?, hrun] at hends
  cases outcome with
  | error halt => cases hends
  | ok t =>
      obtain ⟨t', σ', hrun', hkind, hname, -⟩ := prelude_conservative hrun
      rw [endsWith?, hrun', ← hends]
      simp [Except.toOption, hkind, hname]

end TypedLisp
