import TypedLisp.Proofs.FunctionTypes
import TypedLisp.Proofs.Scopes

/-!
How checking changes a context. Every change is one of six steps, or forgets an instance that was
not there before, and what a context keeps along all checks follows from what one step keeps. A
world is a context together with the templates made so far, which are known by their numbers.
-/

namespace TypedLisp

theorem exists_mem_of_forall₂ {α β : Type} {R : α → β → Prop} {as : List α} {bs : List β}
    (h : List.Forall₂ R as bs) {a : α} (ha : a ∈ as) : ∃ b ∈ bs, R a b := by
  induction h with
  | nil => cases ha
  | @cons a' b' _ _ hab _ ih =>
      rcases List.mem_cons.mp ha with rfl | ha
      · exact ⟨b', List.mem_cons_self, hab⟩
      · obtain ⟨b, hb, hab⟩ := ih ha
        exact ⟨b, List.mem_cons_of_mem _ hb, hab⟩

/-- A type without templates, its classes having their members among the first scopes. -/
inductive Ty.Written (size : Nat) : Ty → Prop where
  | primitive (p : Primitive) : Written size (.primitive p)
  | function {params : List Ty} {result : Ty} (hparams : ∀ p ∈ params, Written size p)
      (hresult : Written size result) : Written size (.function params result)
  | aliasOf {name : String} {parent : Ty} (hparent : Written size parent) :
      Written size (.aliasOf name parent)
  | union {id : Nat} {name : String} {options : List Ty} (hoptions : ∀ o ∈ options, Written size o) :
      Written size (.union id name options)
  | ofClass {c : ClassTy} (hrows : ∀ row ∈ c.row :: c.ancestors, row.fields.index < size) :
      Written size (.ofClass c)

structure Signature.Written (size : Nat) (s : Signature) : Prop where
  params : ∀ p ∈ s.params, p.Written size
  result : s.result.Written size

namespace Ty.Written

variable {size : Nat} {t : Ty}

theorem mono {size' : Nat} (h : t.Written size) (hsize : size ≤ size') : t.Written size' := by
  induction h with
  | primitive p => exact .primitive p
  | function _ _ ihparams ihresult => exact .function ihparams ihresult
  | aliasOf _ ih => exact .aliasOf ih
  | union _ ih => exact .union ih
  | ofClass hrows => exact .ofClass fun row hrow => Nat.lt_of_lt_of_le (hrows row hrow) hsize

theorem class? (h : t.Written size) {c : ClassTy} (hc : t.class? = some c) :
    ∀ row ∈ c.row :: c.ancestors, row.fields.index < size := by
  induction h with
  | primitive | function | union => simp [Ty.class?] at hc
  | aliasOf _ ih => exact ih (by simpa [Ty.class?] using hc)
  | ofClass hrows =>
      obtain rfl : _ = c := by simpa [Ty.class?] using hc
      exact hrows

theorem signature? (h : t.Written size) {s : Signature} (hs : t.signature? = some s) :
    s.Written size := by
  induction h with
  | primitive | union | ofClass => simp [Ty.signature?] at hs
  | function hparams hresult =>
      obtain rfl : _ = s := by simpa [Ty.signature?] using hs
      exact ⟨hparams, hresult⟩
  | aliasOf _ ih => exact ih (by simpa [Ty.signature?] using hs)

end Ty.Written

theorem Signature.Written.mono {size size' : Nat} {s : Signature} (h : s.Written size)
    (hsize : size ≤ size') : s.Written size' :=
  ⟨fun p hp => (h.params p hp).mono hsize, h.result.mono hsize⟩

theorem Signature.Written.toTy {size : Nat} {s : Signature} (h : s.Written size) :
    s.toTy.Written size :=
  .function h.params h.result

/-- A type has the name it is registered under, or that name is another spelling of it. -/
def Ty.NamedBy (t : Ty) (text : String) : Prop :=
  t.name = text ∨ ∃ e, TypeExpr.parse text = .ok e ∧ e.isNamed = false ∧ t.name = e.shown

theorem Ty.NamedBy.name_eq {t : Ty} {e : TypeExpr} (h : t.NamedBy e.shown) (he : e.WellNamed) :
    t.name = e.shown := by
  rcases h with h | ⟨e', hparse, -, h⟩
  · exact h
  · cases hparse.symm.trans (TypeExpr.parse_shown he)
    exact h

/-- At actual types, the written types of a template are registered as the types of a signature. -/
structure Context.Settles (c : Context) (g : Template) (actuals : List TypeExpr) (s : Signature) :
    Prop where
  params : List.Forall₂ (fun e t => c.registered? e.shown = some t)
    (g.params.map fun p => p.2.substitute fun name => lastPaired? name g.typeParams actuals) s.params
  result : c.registered?
    (g.result.substitute fun name => lastPaired? name g.typeParams actuals).shown = some s.result

structure World where
  context : Context
  made : List Template

namespace World

def size (w : World) : Nat := w.context.scopes.size

def Names (w : World) (s : Symbol) (name : String) : Prop :=
  w.context.interner.resolve? s = some name

/-- The types that expressions can have: written types, and templates that were made. -/
def Knows (w : World) (t : Ty) : Prop :=
  t.Written w.size ∨ ∃ g ∈ w.made, t = .template g

/-- The parts of a template: its closure is open, its parameters have names, its types are read. -/
structure Holds (w : World) (g : Template) : Prop where
  closure : g.closure.index < w.size
  params : ∀ p ∈ g.params, (∃ name, w.Names p.1 name) ∧ p.2.WellNamed
  result : g.result.WellNamed

structure WellFormed (w : World) : Prop where
  indexed : w.context.Indexed
  bound : ∀ {q s t}, w.context.scopes.binding? q s = some t → (∃ name, w.Names s name) ∧ w.Knows t
  parents : ∀ {q p}, w.context.scopes.parent? q = some p → p.index < q.index
  outers : ∀ {q o}, w.context.scopes.outer? q = some o → o.index < q.index
  registered : ∀ {text t}, w.context.registered? text = some t → t.Written w.size ∧ t.NamedBy text
  recorded : ∀ {key s}, w.context.instance? key = some s →
    key.template < w.context.nextTemplate ∧ s.Written w.size
  numbered : ∀ {g}, g ∈ w.made → g.serial < w.context.nextTemplate
  unique : ∀ {g g'}, g ∈ w.made → g' ∈ w.made → g.serial = g'.serial → g = g'
  made : ∀ {g}, g ∈ w.made → w.Holds g

/-- One change of a context, where `may q name` says which names can be bound in which scopes. -/
inductive Step (may : ScopeId → String → Prop) (w : World) : World → Prop where
  | name {c : Context} (hcaches : w.context.Caches c) (hagrees : w.context.Agrees c)
      (hcomposed : w.context.Composed → c.Composed) : Step may w ⟨c, w.made⟩
  | bind {q : ScopeId} {s : Symbol} {name : String} {t : Ty} (hq : q.index < w.size)
      (hname : w.Names s name) (hmay : may q name) (ht : w.Knows t) :
      Step may w ⟨w.context.bind q s t, w.made⟩
  | openScope (parent outer : Option ScopeId) (hparent : ∀ p ∈ parent, p.index < w.size)
      (houter : ∀ o ∈ outer, o.index < w.size) :
      Step may w
        ⟨{ w.context with scopes := (w.context.scopes.openScope { parent, outer }).2 }, w.made⟩
  | enter {name : String} {t : Ty} (hnew : w.context.registered? name = none)
      (ht : t.Written w.size) (hname : t.name = name) (hkind : t.isFunction = false) :
      Step may w ⟨w.context.enter name t, w.made⟩
  | make {g : Template} (hserial : g.serial = w.context.nextTemplate) (hg : w.Holds g) :
      Step may w ⟨w.context.newTemplate.2, g :: w.made⟩
  | record {g : Template} {actuals : List TypeExpr} {s : Signature} (hg : g ∈ w.made)
      (hactuals : ∀ e ∈ actuals, e.WellNamed) (hlength : actuals.length = g.typeParams.length)
      (hs : w.context.Settles g actuals s)
      (hnew : w.context.instance? ⟨g.id, actuals.map TypeExpr.shown⟩ = none) :
      Step may w ⟨w.context.record ⟨g.id, actuals.map TypeExpr.shown⟩ s, w.made⟩

/-- What a world has, a later one keeps. -/
structure Later (w v : World) : Prop where
  size : w.size ≤ v.size
  names : w.context.interner.Extends v.context.interner
  made : ∀ g ∈ w.made, g ∈ v.made
  registered : ∀ {text t}, w.context.registered? text = some t →
    v.context.registered? text = some t

variable {may : ScopeId → String → Prop} {w v : World}

theorem Later.refl (w : World) : w.Later w :=
  ⟨Nat.le_refl _, .refl _, fun _ h => h, fun h => h⟩

theorem Later.trans {u : World} (hwv : w.Later v) (hvu : v.Later u) : w.Later u :=
  ⟨Nat.le_trans hwv.size hvu.size, hwv.names.trans hvu.names, fun g hg => hvu.made g (hwv.made g hg),
    fun h => hvu.registered (hwv.registered h)⟩

theorem Knows.later {t : Ty} (h : w.Knows t) (hv : w.Later v) : v.Knows t := by
  rcases h with h | ⟨g, hg, rfl⟩
  · exact .inl (h.mono hv.size)
  · exact .inr ⟨g, hv.made g hg, rfl⟩

theorem Knows.mem_made {g : Template} (h : w.Knows (.template g)) : g ∈ w.made := by
  rcases h with hwritten | ⟨g', hg', heq⟩
  · cases hwritten
  · obtain rfl := Ty.template.inj heq
    exact hg'

theorem Holds.later {g : Template} (h : w.Holds g) (hv : w.Later v) : v.Holds g where
  closure := Nat.lt_of_lt_of_le h.closure hv.size
  params p hp := by
    obtain ⟨⟨name, hname⟩, hwell⟩ := h.params p hp
    exact ⟨⟨name, hv.names p.1 name hname⟩, hwell⟩
  result := h.result

theorem Step.later (h : Step may w v) : w.Later v := by
  cases h with
  | name hcaches hagrees =>
      have hsize : w.size = _ := congrArg Arena.size hagrees.scopes.symm
      exact ⟨Nat.le_of_eq hsize, hagrees.interner, fun _ hg => hg, hcaches.registered?_of_some⟩
  | bind => exact ⟨by simp [World.size, Context.bind], .refl _, fun _ hg => hg, fun h => h⟩
  | openScope => exact ⟨by simp [World.size], .refl _, fun _ hg => hg, fun h => h⟩
  | enter hnew =>
      exact ⟨Nat.le_refl _, Interner.extends_intern _ _, fun _ hg => hg,
        fun h => Context.registered?_enter_of_some h hnew⟩
  | make => exact ⟨Nat.le_refl _, .refl _, fun _ hg => List.mem_cons_of_mem _ hg, fun h => h⟩
  | record => exact ⟨Nat.le_refl _, .refl _, fun _ hg => hg, fun h => h⟩

theorem written_of_forall₂ {es : List TypeExpr} {ts : List Ty}
    (h : List.Forall₂ (fun e t => w.context.resolved? e = some t) es ts)
    (hes : ∀ e ∈ es, ∀ t, w.context.resolved? e = some t → t.Written w.size ∧ t.name = e.shown) :
    (∀ t ∈ ts, t.Written w.size) ∧ ts.map Ty.name = es.map TypeExpr.shown := by
  induction h with
  | nil => simp
  | @cons e t es ts ht _ ih =>
      obtain ⟨hwritten, hname⟩ := hes e (by simp) t ht
      obtain ⟨hall, hnames⟩ := ih fun e' he' => hes e' (List.mem_cons_of_mem _ he')
      exact ⟨List.forall_mem_cons.mpr ⟨hwritten, hall⟩, by simp [hname, hnames]⟩

theorem WellFormed.resolved? (hw : w.WellFormed) {e : TypeExpr} (he : e.WellNamed) {t : Ty}
    (ht : w.context.resolved? e = some t) : t.Written w.size ∧ t.name = e.shown := by
  induction he generalizing t with
  | named hname =>
      obtain ⟨hwritten, hnamed⟩ := hw.registered ht
      exact ⟨hwritten, hnamed.name_eq (e := .named _) (.named hname)⟩
  | @function params result hparams hresult ihparams ihresult =>
      cases hreg : w.context.registered? (TypeExpr.function params result).shown with
      | some u =>
          rw [Context.resolved?, hreg] at ht
          obtain rfl := Option.some.inj ht
          obtain ⟨hwritten, hnamed⟩ := hw.registered hreg
          exact ⟨hwritten, hnamed.name_eq (.function hparams hresult)⟩
      | none =>
          rw [Context.resolved?_function_of_none hreg] at ht
          obtain ⟨ps, hps, ht⟩ := Option.bind_eq_some_iff.mp ht
          obtain ⟨r, hr, rfl⟩ := Option.map_eq_some_iff.mp ht
          obtain ⟨hrwritten, hrname⟩ := ihresult hr
          obtain ⟨hpswritten, hpsnames⟩ := written_of_forall₂
            (Context.resolvedEach?_eq_some_iff.mp hps) fun p hp _ hu => ihparams p hp hu
          refine ⟨.function hpswritten hrwritten, ?_⟩
          rw [Ty.name, TypeExpr.shown, Ty.nameEach_eq_map, TypeExpr.shownEach_eq_map, hpsnames,
            hrname]

theorem WellFormed.names_of_registered (hw : w.WellFormed) {es : List TypeExpr} {ts : List Ty}
    (hes : ∀ e ∈ es, e.WellNamed)
    (h : List.Forall₂ (fun e t => w.context.registered? e.shown = some t) es ts) :
    ts.map Ty.name = es.map TypeExpr.shown := by
  induction h with
  | nil => rfl
  | @cons e t es ts ht _ ih =>
      rw [List.map_cons, List.map_cons, ih fun e' he' => hes e' (List.mem_cons_of_mem _ he'),
        (hw.registered ht).2.name_eq (hes e List.mem_cons_self)]

theorem WellFormed.settles (hw : w.WellFormed) {g : Template} {actuals : List TypeExpr}
    {s : Signature} (hs : w.context.Settles g actuals s) : s.Written w.size := by
  refine ⟨fun t ht => ?_, (hw.registered hs.result).1⟩
  obtain ⟨e, -, he⟩ := exists_mem_of_forall₂ hs.params.flip ht
  exact (hw.registered he).1

theorem WellFormed.resolvedEach? (hw : w.WellFormed) {es : List TypeExpr} {ts : List Ty}
    (hes : ∀ e ∈ es, e.WellNamed) (hts : w.context.resolvedEach? es = some ts) :
    (∀ t ∈ ts, t.Written w.size) ∧ ts.map Ty.name = es.map TypeExpr.shown :=
  written_of_forall₂ (Context.resolvedEach?_eq_some_iff.mp hts)
    fun e he _ ht => hw.resolved? (hes e he) ht

theorem WellFormed.resolvedText? (hw : w.WellFormed) {text : String} {t : Ty}
    (ht : w.context.resolvedText? text = some t) : t.Written w.size := by
  rw [Context.resolvedText?] at ht
  rcases Option.or_eq_some_iff.mp ht with hreg | ⟨-, ht⟩
  · exact (hw.registered hreg).1
  · obtain ⟨e, he, hresolved⟩ := Option.bind_eq_some_iff.mp ht
    have hnamed := TypeExpr.wellNamed_of_parse (TypeExpr.parse_of_toOption he)
    exact (hw.resolved? hnamed hresolved).1

theorem WellFormed.resolvedTexts? (hw : w.WellFormed) {texts : List String} {ts : List Ty}
    (hts : w.context.resolvedTexts? texts = some ts) : ∀ t ∈ ts, t.Written w.size := by
  induction texts generalizing ts with
  | nil =>
      obtain rfl := Option.some.inj hts
      simp
  | cons text texts ih =>
      rw [Context.resolvedTexts?] at hts
      obtain ⟨t, ht, hts⟩ := Option.bind_eq_some_iff.mp hts
      obtain ⟨us, hus, rfl⟩ := Option.map_eq_some_iff.mp hts
      exact List.forall_mem_cons.mpr ⟨hw.resolvedText? ht, ih hus⟩

theorem WellFormed.lookup? (hw : w.WellFormed) {scope : ScopeId} {name : String} {t : Ty}
    (ht : w.context.lookup? scope name = some t) : w.Knows t := by
  obtain ⟨s, -, hs⟩ := Option.bind_eq_some_iff.mp ht
  obtain ⟨q, hq⟩ := Arena.exists_binding?_of_lookup? hs
  exact (hw.bound hq).2

theorem WellFormed.member? (hw : w.WellFormed) {fields : ScopeId} {name : String} {t : Ty}
    (ht : w.context.member? fields name = some t) : w.Knows t := by
  obtain ⟨s, -, hs⟩ := Option.bind_eq_some_iff.mp ht
  obtain ⟨q, hq⟩ := Arena.exists_binding?_of_member? hs
  exact (hw.bound hq).2

theorem WellFormed.extend (hw : w.WellFormed) (hlater : w.Later v) (hindexed : v.context.Indexed)
    (hnext : w.context.nextTemplate ≤ v.context.nextTemplate)
    (hbound : ∀ {q s t}, v.context.scopes.binding? q s = some t →
      w.context.scopes.binding? q s = some t ∨ (∃ name, v.Names s name) ∧ v.Knows t)
    (hparents : ∀ {q p}, v.context.scopes.parent? q = some p →
      w.context.scopes.parent? q = some p ∨ p.index < q.index)
    (houters : ∀ {q o}, v.context.scopes.outer? q = some o →
      w.context.scopes.outer? q = some o ∨ o.index < q.index)
    (hregistered : ∀ {text t}, v.context.registered? text = some t →
      w.context.registered? text = some t ∨ t.Written v.size ∧ t.NamedBy text)
    (hrecorded : ∀ {key s}, v.context.instance? key = some s →
      w.context.instance? key = some s ∨
        key.template < v.context.nextTemplate ∧ s.Written v.size)
    (hmade : v.made = w.made ∨ ∃ g, v.made = g :: w.made ∧ g.serial = w.context.nextTemplate ∧
      w.context.nextTemplate < v.context.nextTemplate ∧ v.Holds g) : v.WellFormed where
  indexed := hindexed
  bound h := by
    rcases hbound h with h | h
    · obtain ⟨⟨name, hname⟩, ht⟩ := hw.bound h
      exact ⟨⟨name, hlater.names _ _ hname⟩, ht.later hlater⟩
    · exact h
  parents h := (hparents h).elim hw.parents id
  outers h := (houters h).elim hw.outers id
  registered h := by
    rcases hregistered h with h | h
    · obtain ⟨hwritten, hnamed⟩ := hw.registered h
      exact ⟨hwritten.mono hlater.size, hnamed⟩
    · exact h
  recorded h := by
    rcases hrecorded h with h | h
    · obtain ⟨hkey, hs⟩ := hw.recorded h
      exact ⟨Nat.lt_of_lt_of_le hkey hnext, hs.mono hlater.size⟩
    · exact h
  numbered hg := by
    rcases hmade with hsame | ⟨new, hcons, hserial, hlt, -⟩
    · exact Nat.lt_of_lt_of_le (hw.numbered (hsame ▸ hg)) hnext
    · rcases List.mem_cons.mp (hcons ▸ hg) with rfl | hg
      · exact hserial ▸ hlt
      · exact Nat.lt_of_lt_of_le (hw.numbered hg) hnext
  unique hg hg' hserial := by
    rcases hmade with hsame | ⟨new, hcons, hnew, -, -⟩
    · exact hw.unique (hsame ▸ hg) (hsame ▸ hg') hserial
    · -- The new template is numbered above all others.
      rcases List.mem_cons.mp (hcons ▸ hg) with rfl | hg <;>
        rcases List.mem_cons.mp (hcons ▸ hg') with rfl | hg'
      · rfl
      · exact absurd (hserial.symm.trans hnew) (Nat.ne_of_lt (hw.numbered hg'))
      · exact absurd (hserial.trans hnew) (Nat.ne_of_lt (hw.numbered hg))
      · exact hw.unique hg hg' hserial
  made hg := by
    rcases hmade with hsame | ⟨new, hcons, -, -, hnew⟩
    · exact (hw.made (hsame ▸ hg)).later hlater
    · rcases List.mem_cons.mp (hcons ▸ hg) with rfl | hg
      · exact hnew
      · exact (hw.made hg).later hlater

theorem WellFormed.step (hw : w.WellFormed) (h : Step may w v) : v.WellFormed := by
  have hlater := h.later
  cases h with
  | @name c hcaches hagrees =>
      refine hw.extend hlater hcaches.indexed (Nat.le_of_eq hagrees.nextTemplate.symm)
        (fun hb => .inl (hagrees.scopes ▸ hb)) (fun hp => .inl (hagrees.scopes ▸ hp))
        (fun ho => .inl (hagrees.scopes ▸ ho)) ?_ ?_ (.inl rfl)
      · intro text t ht
        rcases hcaches.registered text with hsame | ⟨-, e, u, hparse, hfunction, hu, htext⟩
        · exact .inl (hsame ▸ ht)
        · obtain rfl := Option.some.inj (ht.symm.trans htext)
          obtain ⟨hwritten, hname⟩ := hw.resolved? (TypeExpr.wellNamed_of_parse hparse) hu
          exact .inr ⟨hwritten.mono hlater.size, .inr ⟨e, hparse, hfunction, hname⟩⟩
      · intro key s hs
        exact .inl (by rwa [Context.instance?, hagrees.instances] at hs)
  | @bind q s name t hq hname hmay ht =>
      refine hw.extend hlater hw.indexed (Nat.le_refl _) ?_ ?_ ?_ .inl .inl (.inl rfl)
      · intro q' s' t' hb
        rw [Context.bind, Arena.binding?_define _ _ _ _ _ _ hq] at hb
        split at hb
        · next heq =>
            obtain rfl := heq.2
            obtain rfl := Option.some.inj hb
            exact .inr ⟨⟨name, hname⟩, ht.later hlater⟩
        · exact .inl hb
      · intro q' p hp
        exact .inl (by rwa [Context.bind, Arena.parent?_define] at hp)
      · intro q' o ho
        exact .inl (by rwa [Context.bind, Arena.outer?_define] at ho)
  | openScope parent outer hparent houter =>
      refine hw.extend hlater hw.indexed (Nat.le_refl _) ?_ ?_ ?_ .inl .inl (.inl rfl)
      · intro q s t hb
        rw [Arena.binding?_openScope] at hb
        split at hb
        · simp at hb
        · exact .inl hb
      · intro q p hp
        rw [Arena.parent?_openScope] at hp
        split at hp
        · next hq => exact .inr (hq ▸ hparent p hp)
        · exact .inl hp
      · intro q o ho
        rw [Arena.outer?_openScope] at ho
        split at ho
        · next hq => exact .inr (hq ▸ houter o ho)
        · exact .inl ho
  | @enter name t hnew ht hname =>
      refine hw.extend hlater (Context.indexed_enter hw.indexed name t) (Nat.le_refl _) .inl .inl
        .inl ?_ .inl (.inl rfl)
      intro text u hu
      rw [Context.registered?_enter hw.indexed] at hu
      split at hu
      · next htext =>
          obtain rfl := Option.some.inj hu
          exact .inr ⟨ht, .inl (hname.trans htext)⟩
      · exact .inl hu
  | @make g hserial hg =>
      exact hw.extend hlater hw.indexed (Nat.le_succ _) .inl .inl .inl .inl .inl
        (.inr ⟨g, rfl, hserial, Nat.lt_succ_self _, hg.later hlater⟩)
  | @record g actuals s hg hactuals hlength hs hnew =>
      refine hw.extend hlater hw.indexed (Nat.le_refl _) .inl .inl .inl .inl ?_ (.inl rfl)
      intro other s' hs'
      rw [Context.instance?_record] at hs'
      split at hs'
      · next heq =>
          obtain rfl := Option.some.inj hs'
          exact .inr ⟨heq ▸ Nat.lt_of_le_of_lt g.id_le (hw.numbered hg), hw.settles hs⟩
      · exact .inl hs'

theorem later_forget (w : World) (key : InstanceKey) :
    w.Later ⟨w.context.forget key, w.made⟩ :=
  ⟨Nat.le_refl _, .refl _, fun _ hg => hg, fun h => h⟩

theorem WellFormed.forget (hw : w.WellFormed) (key : InstanceKey) :
    WellFormed ⟨w.context.forget key, w.made⟩ := by
  refine hw.extend (w.later_forget key) hw.indexed (Nat.le_refl _) .inl .inl .inl .inl ?_ (.inl rfl)
  intro other s' hs'
  rw [Context.instance?_forget] at hs'
  split at hs'
  · exact nomatch hs'
  · exact .inl hs'

/-- Steps one after the other. An instance can be forgotten if it was not there at their start. -/
inductive Steps (may : ScopeId → String → Prop) (w : World) : World → Prop where
  | refl : Steps may w w
  | tail {v u : World} (h : Steps may w v) (hstep : Step may v u) : Steps may w u
  | drop {v : World} (h : Steps may w v) {key : InstanceKey}
      (hnew : w.context.instance? key = none) : Steps may w ⟨v.context.forget key, v.made⟩

theorem Step.instances (h : Step may w v) {key : InstanceKey} {s : Signature}
    (hs : w.context.instance? key = some s) : v.context.instance? key = some s := by
  cases h with
  | name _ hagrees => rwa [Context.instance?, hagrees.instances]
  | record _ _ _ _ hnew =>
      rw [Context.instance?_record, if_neg]
      · exact hs
      · rintro rfl
        cases hs.symm.trans hnew
  | bind | openScope | enter | make => exact hs

/-- No steps lose an instance that was there at their start. -/
theorem Steps.instances (h : Steps may w v) {key : InstanceKey} {s : Signature}
    (hs : w.context.instance? key = some s) : v.context.instance? key = some s := by
  induction h with
  | refl => exact hs
  | tail _ hstep ih => exact hstep.instances ih
  | drop _ hnew ih =>
      rw [Context.instance?_forget, if_neg]
      · exact ih
      · rintro rfl
        exact nomatch hs.symm.trans hnew

theorem Step.options (h : Step may w v) : v.context.options = w.context.options := by
  cases h with
  | name _ hagrees => exact hagrees.options
  | bind | openScope | enter | make | record => rfl

theorem Steps.options (h : Steps may w v) : v.context.options = w.context.options := by
  induction h with
  | refl => rfl
  | tail _ hstep ih => exact hstep.options.trans ih
  | drop _ _ ih => exact ih

theorem Steps.single (h : Step may w v) : Steps may w v :=
  .tail .refl h

theorem Steps.trans {u : World} (hwv : Steps may w v) (hvu : Steps may v u) : Steps may w u := by
  induction hvu with
  | refl => exact hwv
  | tail _ hstep ih => exact .tail ih hstep
  | @drop x _ key hnew ih =>
      refine .drop ih ?_
      -- What is there at the first start is there at the second.
      cases hw : w.context.instance? key with
      | none => rfl
      | some s => exact nomatch (hwv.instances hw).symm.trans hnew

theorem Steps.head {u : World} (hstep : Step may w v) (h : Steps may v u) : Steps may w u :=
  (single hstep).trans h

theorem Steps.later (h : Steps may w v) : w.Later v := by
  induction h with
  | refl => exact .refl w
  | tail _ hstep ih => exact ih.trans hstep.later
  | drop _ _ ih => exact ih.trans (later_forget _ _)

theorem WellFormed.steps (hw : w.WellFormed) (h : Steps may w v) : v.WellFormed := by
  induction h with
  | refl => exact hw
  | tail _ hstep ih => exact ih.step hstep
  | drop _ _ ih => exact ih.forget _

/-- What changes do to the scopes that were open before: links stay, no binding is lost, and where
one differs its name could be bound there. -/
structure Keeps (may : ScopeId → String → Prop) (w v : World) : Prop where
  parent : ∀ {q}, q.index < w.size → v.context.scopes.parent? q = w.context.scopes.parent? q
  outer : ∀ {q}, q.index < w.size → v.context.scopes.outer? q = w.context.scopes.outer? q
  kept : ∀ {q s}, (w.context.scopes.binding? q s).isSome → (v.context.scopes.binding? q s).isSome
  changed : ∀ {q s}, q.index < w.size →
    v.context.scopes.binding? q s ≠ w.context.scopes.binding? q s →
    ∃ name, v.Names s name ∧ may q name

theorem Keeps.of_scopes (h : v.context.scopes = w.context.scopes) : Keeps may w v where
  parent _ := by rw [h]
  outer _ := by rw [h]
  kept hb := by rwa [h]
  changed _ hne := absurd (by rw [h]) hne

theorem Keeps.trans {u : World} (hwv : Keeps may w v) (hvu : Keeps may v u) (hlater : w.Later v)
    (hlater' : v.Later u) : Keeps may w u where
  parent hq := (hvu.parent (Nat.lt_of_lt_of_le hq hlater.size)).trans (hwv.parent hq)
  outer hq := (hvu.outer (Nat.lt_of_lt_of_le hq hlater.size)).trans (hwv.outer hq)
  kept hb := hvu.kept (hwv.kept hb)
  changed := by
    intro q s hq hne
    by_cases hfirst : v.context.scopes.binding? q s = w.context.scopes.binding? q s
    · exact hvu.changed (Nat.lt_of_lt_of_le hq hlater.size) (hfirst ▸ hne)
    · obtain ⟨name, hname, hmay⟩ := hwv.changed hq hfirst
      exact ⟨name, hlater'.names _ _ hname, hmay⟩

theorem Step.keeps (h : Step may w v) : Keeps may w v := by
  cases h with
  | name _ hagrees => exact .of_scopes hagrees.scopes
  | @bind q s name t hq hname hmay ht =>
      refine ⟨fun _ => Arena.parent?_define .., fun _ => Arena.outer?_define .., ?_, ?_⟩
      · intro q' s' hb
        rw [Context.bind, Arena.binding?_define _ _ _ _ _ _ hq]
        split
        · rfl
        · exact hb
      · intro q' s' _ hne
        rw [Context.bind, Arena.binding?_define _ _ _ _ _ _ hq] at hne
        split at hne
        · next heq =>
            obtain ⟨rfl, rfl⟩ := heq
            exact ⟨name, hname, hmay⟩
        · exact absurd rfl hne
  | openScope =>
      have hopen {q : ScopeId} (hq : q.index < w.size) : q.index ≠ w.context.scopes.size :=
        Nat.ne_of_lt hq
      refine ⟨?_, ?_, ?_, ?_⟩
      · intro q hq
        rw [Arena.parent?_openScope, if_neg (hopen hq)]
      · intro q hq
        rw [Arena.outer?_openScope, if_neg (hopen hq)]
      · intro q s hb
        obtain ⟨t, ht⟩ := Option.isSome_iff_exists.mp hb
        rwa [Arena.binding?_openScope, if_neg (hopen (Arena.index_lt_of_binding? ht))]
      · intro q s hq hne
        rw [Arena.binding?_openScope, if_neg (hopen hq)] at hne
        exact absurd rfl hne
  | enter | make | record => exact .of_scopes rfl

theorem Steps.keeps (h : Steps may w v) : Keeps may w v := by
  induction h with
  | refl => exact .of_scopes rfl
  | tail hsteps hstep ih => exact ih.trans hstep.keeps (Steps.later hsteps) hstep.later
  | drop hsteps _ ih =>
      exact ih.trans (.of_scopes rfl) (Steps.later hsteps) (later_forget _ _)

end World

end TypedLisp
