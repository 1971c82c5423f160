import TypedLisp.Proofs.Frame
import TypedLisp.Proofs.Instances.Quiet
import TypedLisp.Proofs.Instances.Requests

/-!
Checks that declare nothing. Such a check leaves the scopes that are open as they are, and adds to a
context only names, function types that can be made anyway, scopes of its own, templates of its own
and instances. So all contexts reached from one, its base, look alike from the base's scopes.
-/

namespace TypedLisp

open World

/-- A well-formed context whose templates have different ids, those of them that may be used, and
whether others may be made. -/
structure Base where
  context : Context
  made : List Template
  wellFormed : World.WellFormed ⟨context, made⟩
  room : context.nextTemplate ≤ Template.idCount
  involved : Template → Prop
  makes : Prop

namespace Base

variable (b : Base)

def size : Nat := b.context.scopes.size

def next : Nat := b.context.nextTemplate

/-- A request for a template that may be used, at types that resolve. -/
structure Request (g : Template) (list : String) (actuals : List TypeExpr) : Prop where
  bound : ∃ name, b.context.BindsTo name g
  involved : b.involved g
  parsed : TypeExpr.parseList? list = some (.ok actuals)
  length : actuals.length = g.typeParams.length
  resolved : (b.context.resolvedEach? actuals).isSome

def keyOf (g : Template) (actuals : List TypeExpr) : InstanceKey :=
  ⟨g.id, actuals.map TypeExpr.shown⟩

/-- What an instance recorded under a key has to be. -/
def Instance (key : InstanceKey) (s : Signature) : Prop :=
  ∃ g list actuals, b.Request g list actuals ∧ key = keyOf g actuals ∧
    b.context.actualSignature? g actuals = some s

/-- A context is reached from the base without declarations. -/
structure Over (x : Context) : Prop where
  caches : b.context.Caches x
  options : x.options = b.context.options
  scopes : b.context.scopes.Prefix x.scopes
  ordered : x.scopes.Ordered
  bound : ∀ {q s t}, x.scopes.binding? q s = some t → (x.interner.resolve? s).isSome
  next : b.next ≤ x.nextTemplate
  room : x.nextTemplate ≤ Template.idCount
  kept : ∀ {key s}, b.context.instance? key = some s → x.instance? key = some s
  recorded : ∀ {key s}, x.instance? key = some s → key.template < x.nextTemplate ∧
    (b.context.instance? key = some s ∨ b.next ≤ key.template ∨ b.Instance key s)

/-- The keys of the base's templates that a context has instances for. -/
def granted (x : Context) : Finset InstanceKey :=
  (x.instances.keys.filter fun key => key.template < b.next).toFinset

end Base

/-- What is open in one context is open in another, and looks the same. -/
structure Context.Before (x y : Context) : Prop where
  interner : x.interner.Extends y.interner
  scopes : x.scopes.Prefix y.scopes
  nextTemplate : x.nextTemplate ≤ y.nextTemplate

/-- The names seen from an open scope, and their types. -/
structure Sees (x : Context) (s : ScopeId) (env : String → Option Ty) : Prop where
  opened : s.index < x.scopes.size
  lookup : ∀ name, x.lookup? s name = env name

/-- Besides, of the templates that the check itself makes, those numbered below `old` get no
instances. -/
structure Base.Before (b : Base) (old : Nat) (x y : Context) : Prop extends x.Before y where
  kept : ∀ key, b.next ≤ key.template → key.template < old → y.instance? key = x.instance? key

namespace Context.Before

variable {x y z : Context}

theorem refl (x : Context) : x.Before x :=
  ⟨.refl _, .refl _, Nat.le_refl _⟩

theorem trans (hxy : x.Before y) (hyz : y.Before z) : x.Before z :=
  ⟨hxy.interner.trans hyz.interner, hxy.scopes.trans hyz.scopes,
    Nat.le_trans hxy.nextTemplate hyz.nextTemplate⟩

theorem of_agrees (h : x.Agrees y) : x.Before y :=
  ⟨h.interner, h.scopes ▸ .refl _, Nat.le_of_eq h.nextTemplate.symm⟩

end Context.Before

namespace Base.Before

variable {b : Base} {old : Nat} {x y z : Context}

theorem refl (x : Context) : b.Before old x x :=
  ⟨.refl x, fun _ _ _ => rfl⟩

theorem trans (hxy : b.Before old x y) (hyz : b.Before old y z) : b.Before old x z :=
  ⟨hxy.toBefore.trans hyz.toBefore, fun key hkey hold =>
    (hyz.kept key hkey hold).trans (hxy.kept key hkey hold)⟩

theorem weaken {old' : Nat} (h : b.Before old' x y) (hold : old ≤ old') : b.Before old x y :=
  ⟨h.toBefore, fun key hkey hlt => h.kept key hkey (Nat.lt_of_lt_of_le hlt hold)⟩

theorem of_instances (h : x.Before y) (hinstances : y.instances = x.instances) :
    b.Before old x y :=
  ⟨h, fun _ _ _ => by rw [Context.instance?, Context.instance?, hinstances]⟩

theorem of_agrees (h : x.Agrees y) : b.Before old x y :=
  of_instances (.of_agrees h) h.instances

theorem record {key : InstanceKey} {sig : Signature} (h : key.template < b.next ∨ old ≤ key.template) :
    b.Before old x (x.record key sig) := by
  refine ⟨⟨.refl _, .refl _, Nat.le_refl _⟩, ?_⟩
  intro other hother hold
  rw [Context.instance?_record, if_neg]
  rintro rfl
  omega

theorem forget {key : InstanceKey} (h : key.template < b.next ∨ old ≤ key.template) :
    b.Before old x (x.forget key) := by
  refine ⟨⟨.refl _, .refl _, Nat.le_refl _⟩, ?_⟩
  intro other hother hold
  rw [Context.instance?_forget, if_neg]
  rintro rfl
  omega

end Base.Before

/-- The context with one more scope, in which names are bound. -/
def Context.withScope (x : Context) (parent : ScopeId) (bindings : List (Symbol × Ty)) : Context :=
  { x with scopes := (x.scopes.child parent).2.defineAll ⟨x.scopes.size⟩ bindings }

namespace Context

variable (x : Context) (parent q : ScopeId) (bindings : List (Symbol × Ty))

theorem parent?_withScope : (x.withScope parent bindings).scopes.parent? q =
    if q.index = x.scopes.size then some parent else x.scopes.parent? q := by
  rw [withScope, Arena.parent?_defineAll, Arena.child, Arena.parent?_openScope]

theorem outer?_withScope : (x.withScope parent bindings).scopes.outer? q =
    if q.index = x.scopes.size then none else x.scopes.outer? q := by
  rw [withScope, Arena.outer?_defineAll, Arena.child, Arena.outer?_openScope]

theorem binding?_withScope (s : Symbol) : (x.withScope parent bindings).scopes.binding? q s =
    if q.index = x.scopes.size then Arena.lastBound? s bindings else x.scopes.binding? q s := by
  have hopen : (⟨x.scopes.size⟩ : ScopeId).index < (x.scopes.child parent).2.size := by
    simp [Arena.child]
  have hq : (⟨x.scopes.size⟩ : ScopeId) = q ↔ q.index = x.scopes.size := by
    cases q
    simp [eq_comm]
  rw [withScope, Arena.binding?_defineAll hopen, Arena.child, Arena.binding?_openScope]
  by_cases h : q.index = x.scopes.size
  · simp [hq, h]
  · simp [hq, h]

theorem before_withScope : x.Before (x.withScope parent bindings) :=
  ⟨.refl _, Arena.Prefix.defineAll (.openScope _ _) (Nat.le_refl _) bindings, Nat.le_refl _⟩

end Context

/-- Names seen behind others. -/
def extendEnv (env : String → Option Ty) (names : List String) (types : List Ty) :
    String → Option Ty :=
  fun name => (lastPaired? name names types).or (env name)

namespace Base

variable {b : Base} {x y : Context}

theorem mem_granted {key : InstanceKey} :
    key ∈ b.granted x ↔ key.template < b.next ∧ (x.instance? key).isSome := by
  rw [granted, List.mem_toFinset, List.mem_filter, Std.TreeMap.mem_keys,
    Std.TreeMap.mem_iff_isSome_getElem?, decide_eq_true_eq, and_comm]
  rfl

theorem made_of_bindsTo {name : String} {g : Template} (h : b.context.BindsTo name g) :
    g ∈ b.made := by
  obtain ⟨q, s, -, hbinding⟩ := h
  rcases (b.wellFormed.bound hbinding).2 with hwritten | ⟨g', hg', heq⟩
  · cases hwritten
  · cases heq
    exact hg'

theorem id_of_made {g : Template} (hg : g ∈ b.made) : g.id = g.serial :=
  Template.id_eq_serial (Nat.lt_of_lt_of_le (b.wellFormed.numbered hg) b.room)

theorem Request.made {g : Template} {list : String} {actuals : List TypeExpr}
    (h : b.Request g list actuals) : g ∈ b.made :=
  h.bound.elim fun _ hname => made_of_bindsTo hname

theorem Request.wellNamed {g : Template} {list : String} {actuals : List TypeExpr}
    (h : b.Request g list actuals) : ∀ e ∈ actuals, e.WellNamed :=
  TypeExpr.wellNamed_of_parseList h.parsed

theorem map_shown_injective {es es' : List TypeExpr} (hes : ∀ e ∈ es, e.WellNamed)
    (hes' : ∀ e ∈ es', e.WellNamed) (h : es.map TypeExpr.shown = es'.map TypeExpr.shown) :
    es = es' := by
  induction es generalizing es' with
  | nil =>
      cases es' with
      | nil => rfl
      | cons e' es' => cases h
  | cons e es ih =>
      cases es' with
      | nil => cases h
      | cons e' es' =>
          obtain ⟨hhead, htail⟩ := List.cons.inj h
          obtain rfl := TypeExpr.shown_injective (hes e (by simp)) (hes' e' (by simp)) hhead
          rw [ih (fun u hu => hes u (List.mem_cons_of_mem _ hu))
            (fun u hu => hes' u (List.mem_cons_of_mem _ hu)) htail]

theorem Request.eq_of_keyOf_eq {g g' : Template} {list list' : String}
    {actuals actuals' : List TypeExpr} (h : b.Request g list actuals)
    (h' : b.Request g' list' actuals') (hkey : keyOf g actuals = keyOf g' actuals') :
    g = g' ∧ actuals = actuals' := by
  obtain ⟨hid, hactuals⟩ := InstanceKey.mk.inj hkey
  rw [id_of_made h.made, id_of_made h'.made] at hid
  exact ⟨b.wellFormed.unique h.made h'.made hid,
    map_shown_injective h.wellNamed h'.wellNamed hactuals⟩

theorem Instance.signature_eq {g : Template} {list : String} {actuals : List TypeExpr}
    {s s' : Signature} (h : b.Instance (keyOf g actuals) s) (hrequest : b.Request g list actuals)
    (hs' : b.context.actualSignature? g actuals = some s') : s = s' := by
  obtain ⟨g', list', actuals', hrequest', hkey, hs⟩ := h
  obtain ⟨rfl, rfl⟩ := hrequest.eq_of_keyOf_eq hrequest' hkey
  exact Option.some.inj (hs.symm.trans hs')

theorem over_base (b : Base) : b.Over b.context where
  caches := .refl b.wellFormed.indexed
  options := rfl
  scopes := .refl _
  ordered := ⟨b.wellFormed.parents, b.wellFormed.outers⟩
  bound h := by
    obtain ⟨⟨name, hname⟩, -⟩ := b.wellFormed.bound h
    exact Option.isSome_iff_exists.mpr ⟨name, hname⟩
  next := Nat.le_refl _
  room := b.room
  kept h := h
  recorded h := ⟨(b.wellFormed.recorded h).1, .inl h⟩

namespace Over

theorem agrees (hx : b.Over x) (hcaches : b.context.Caches y) (hagrees : x.Agrees y) :
    b.Over y where
  caches := hcaches
  options := hagrees.options.trans hx.options
  scopes := hagrees.scopes ▸ hx.scopes
  ordered := hagrees.scopes ▸ hx.ordered
  bound h := by
    obtain ⟨name, hname⟩ := Option.isSome_iff_exists.mp (hx.bound (hagrees.scopes ▸ h))
    exact Option.isSome_iff_exists.mpr ⟨name, hagrees.interner _ _ hname⟩
  next := hagrees.nextTemplate ▸ hx.next
  room := hagrees.nextTemplate ▸ hx.room
  kept h := by
    rw [Context.instance?, hagrees.instances]
    exact hx.kept h
  recorded h := by
    rw [Context.instance?, hagrees.instances] at h
    rw [hagrees.nextTemplate]
    exact hx.recorded h

theorem intern (hx : b.Over x) (name : String) : b.Over (x.intern name).2 :=
  hx.agrees (hx.caches.intern name) (Context.agrees_intern x name)

theorem withScope (hx : b.Over x) {parent : ScopeId} (hparent : parent.index < x.scopes.size)
    {bindings : List (Symbol × Ty)}
    (hbindings : ∀ entry ∈ bindings, (x.interner.resolve? entry.1).isSome) :
    b.Over (x.withScope parent bindings) where
  caches := ⟨hx.caches.interner, hx.caches.indexed, hx.caches.registered⟩
  options := hx.options
  scopes := (hx.scopes.trans (.openScope _ _)).defineAll hx.scopes.size bindings
  ordered := by
    refine ⟨?_, ?_⟩
    · intro q p hp
      rw [Context.parent?_withScope] at hp
      split at hp
      · next hq =>
          obtain rfl := Option.some.inj hp
          exact hq ▸ hparent
      · exact hx.ordered.parents hp
    · intro q o ho
      rw [Context.outer?_withScope] at ho
      split at ho
      · cases ho
      · exact hx.ordered.outers ho
  bound := by
    intro q s t ht
    rw [Context.binding?_withScope] at ht
    split at ht
    · obtain ⟨entry, hentry, rfl⟩ := Arena.exists_mem_of_lastBound? ht
      exact hbindings entry hentry
    · exact hx.bound ht
  next := hx.next
  room := hx.room
  kept := hx.kept
  recorded := hx.recorded

end Over

end Base

variable {b : Base} {x y : Context}

theorem Sees.before {s : ScopeId} {env : String → Option Ty} (h : Sees x s env) (hx : b.Over x)
    (hxy : x.Before y) : Sees y s env where
  opened := Nat.lt_of_lt_of_le h.opened hxy.scopes.size
  lookup name := by
    rw [← h.lookup name, Context.lookup?, funext (hxy.scopes.lookup? h.opened)]
    refine hxy.interner.get?_bind ?_ name
    intro symbol hsymbol
    obtain ⟨t, ht⟩ := Option.isSome_iff_exists.mp hsymbol
    obtain ⟨q, hq⟩ := Arena.exists_binding?_of_lookup? ht
    exact hx.bound hq

namespace Base

/-- From the scopes of the base, the same is seen in all contexts over it. -/
theorem Over.sees (hx : b.Over x) {s : ScopeId} (hs : s.index < b.size) :
    Sees x s (b.context.lookup? s) :=
  Sees.before ⟨hs, fun _ => rfl⟩ b.over_base ⟨hx.caches.interner, hx.scopes, hx.next⟩

theorem Over.member? (hx : b.Over x) {fields : ScopeId} (hfields : fields.index < b.size)
    (name : String) : x.member? fields name = b.context.member? fields name := by
  rw [Context.member?, funext (hx.scopes.member? hfields)]
  refine hx.caches.interner.get?_bind ?_ name
  intro symbol hsymbol
  obtain ⟨t, ht⟩ := Option.isSome_iff_exists.mp hsymbol
  obtain ⟨q, hq⟩ := Arena.exists_binding?_of_member? ht
  exact b.over_base.bound hq

theorem lastBound?_eq_lastPaired? {i : Interner} {symbols : List Symbol} {names : List String}
    (h : List.Forall₂ (fun s name => i.resolve? s = some name) symbols names) {symbol : Symbol}
    {name : String} (hsymbol : i.get? name = some symbol) (types : List Ty) :
    Arena.lastBound? symbol (symbols.zip types) = lastPaired? name names types := by
  induction h generalizing types with
  | nil => rfl
  | @cons s n symbols names hs _ ih =>
      cases types with
      | nil => rfl
      | cons t types =>
          have hiff : s = symbol ↔ n = name := by
            rw [Interner.get?_eq_some_iff] at hsymbol
            constructor
            · rintro rfl
              exact Option.some.inj (hs.symm.trans hsymbol)
            · rintro rfl
              have := (Interner.get?_eq_some_iff.mpr hs).symm.trans
                (Interner.get?_eq_some_iff.mpr hsymbol)
              exact Option.some.inj this
          rw [List.zip_cons_cons, Arena.lastBound?, lastPaired?, ih]
          simp only [hiff]

theorem sees_withScope (hx : b.Over x) {parent : ScopeId} {env : String → Option Ty}
    (hparent : Sees x parent env) {symbols : List Symbol} {names : List String}
    (hnames : List.Forall₂ (fun s name => x.interner.resolve? s = some name) symbols names)
    (types : List Ty) :
    Sees (x.withScope parent (symbols.zip types)) ⟨x.scopes.size⟩
      (extendEnv env names types) := by
  have hinterned : ∀ entry ∈ symbols.zip types, (x.interner.resolve? entry.1).isSome := by
    intro entry hentry
    obtain ⟨name, -, hname⟩ := exists_mem_of_forall₂ hnames (List.of_mem_zip hentry).1
    rw [hname]
    rfl
  have hover := hx.withScope hparent.opened hinterned
  have hbehind := hparent.before hx (x.before_withScope parent (symbols.zip types))
  refine ⟨by simp [Context.withScope, Arena.child], ?_⟩
  intro name
  rw [extendEnv, ← hbehind.lookup name, Context.lookup?, Context.lookup?]
  cases hsymbol : (x.withScope parent (symbols.zip types)).interner.get? name with
  | none =>
      have hmem : name ∉ names := by
        intro hmem
        obtain ⟨s, -, hs⟩ := exists_mem_of_forall₂ hnames.flip hmem
        have := Interner.get?_eq_some_iff.mpr hs
        rw [show x.interner.get? name = none from hsymbol] at this
        cases this
      rw [lastPaired?_eq_none hmem]
      rfl
  | some s =>
      have hlink : (x.withScope parent (symbols.zip types)).scopes.parent? ⟨x.scopes.size⟩ =
          some parent := by
        rw [Context.parent?_withScope, if_pos rfl]
      have houter : (x.withScope parent (symbols.zip types)).scopes.outer? ⟨x.scopes.size⟩ =
          none := by
        rw [Context.outer?_withScope, if_pos rfl]
      rw [Option.bind_some, Option.bind_some, hover.ordered.lookup?_child hlink houter,
        Context.binding?_withScope, if_pos rfl, lastBound?_eq_lastPaired? hnames hsymbol]

theorem Over.newTemplate (hx : b.Over x) (hroom : x.nextTemplate < Template.idCount) :
    b.Over x.newTemplate.2 where
  caches := ⟨hx.caches.interner, hx.caches.indexed, hx.caches.registered⟩
  options := hx.options
  scopes := hx.scopes
  ordered := hx.ordered
  bound := hx.bound
  next := Nat.le_succ_of_le hx.next
  room := hroom
  kept := hx.kept
  recorded h := ⟨Nat.lt_succ_of_lt (hx.recorded h).1, (hx.recorded h).2⟩

theorem Over.id_eq_serial (hx : b.Over x) {g : Template} (hg : g.serial < x.nextTemplate) :
    g.id = g.serial :=
  Template.id_eq_serial (Nat.lt_of_lt_of_le hg hx.room)

theorem Over.record (hx : b.Over x) {key : InstanceKey} {s : Signature}
    (hkey : key.template < x.nextTemplate) (hnew : b.context.instance? key = none)
    (hs : b.next ≤ key.template ∨ b.Instance key s) : b.Over (x.record key s) where
  caches := ⟨hx.caches.interner, hx.caches.indexed, hx.caches.registered⟩
  options := hx.options
  scopes := hx.scopes
  ordered := hx.ordered
  bound := hx.bound
  next := hx.next
  room := hx.room
  kept := by
    intro other s' hs'
    rw [Context.instance?_record, if_neg, hx.kept hs']
    rintro rfl
    rw [hnew] at hs'
    cases hs'
  recorded := by
    intro other s' hs'
    rw [Context.instance?_record] at hs'
    split at hs'
    · next heq =>
        subst heq
        obtain rfl := Option.some.inj hs'
        exact ⟨hkey, .inr hs⟩
    · exact hx.recorded hs'

theorem Over.forget (hx : b.Over x) {key : InstanceKey} (hnew : b.context.instance? key = none) :
    b.Over (x.forget key) where
  caches := ⟨hx.caches.interner, hx.caches.indexed, hx.caches.registered⟩
  options := hx.options
  scopes := hx.scopes
  ordered := hx.ordered
  bound := hx.bound
  next := hx.next
  room := hx.room
  kept := by
    intro other s' hs'
    rw [Context.instance?_forget, if_neg, hx.kept hs']
    rintro rfl
    rw [hnew] at hs'
    cases hs'
  recorded := by
    intro other s' hs'
    rw [Context.instance?_forget] at hs'
    split at hs'
    · cases hs'
    · exact hx.recorded hs'

theorem granted_of_instances (h : y.instances = x.instances) : b.granted y = b.granted x := by
  rw [granted, granted, h]

theorem granted_record {key : InstanceKey} (hkey : key.template < b.next) (s : Signature) :
    b.granted (x.record key s) = insert key (b.granted x) := by
  ext other
  rw [Finset.mem_insert, mem_granted, mem_granted, Context.instance?_record]
  by_cases h : key = other
  · subst h
    simp [hkey]
  · simp [h, Ne.symm h]

theorem granted_record_of_le {key : InstanceKey} (hkey : b.next ≤ key.template) (s : Signature) :
    b.granted (x.record key s) = b.granted x := by
  ext other
  rw [mem_granted, mem_granted, Context.instance?_record]
  by_cases h : key = other
  · subst h
    simp [Nat.not_lt.mpr hkey]
  · simp [h]

theorem granted_forget (key : InstanceKey) :
    b.granted (x.forget key) = (b.granted x).erase key := by
  ext other
  rw [Finset.mem_erase, mem_granted, mem_granted, Context.instance?_forget]
  by_cases h : key = other
  · subst h
    simp
  · simp [h, Ne.symm h]

theorem not_mem_granted_of_le {key : InstanceKey} (hkey : b.next ≤ key.template) :
    key ∉ b.granted x := by
  rw [mem_granted]
  exact fun h => absurd h.1 (Nat.not_lt.mpr hkey)

end Base

end TypedLisp
