import TypedLisp.Proofs.Simulation.Expressions

namespace TypedLisp

open CheckM

/-- Among the events from the `k`-th on, a template is instantiated that can declare a type of the
name. -/
def Session.InstanceDeclares (σ : Session) (k : Nat) (name : String) : Prop :=
  ∃ i g sig names, k ≤ i ∧ σ.events[i]? = some (.instantiated g sig) ∧
    DeclaresType (actualBody g names) name

namespace Context

variable {c x : Context} {may may' : String → Prop} {text : String}

/-- A context `x` registers what `c` does, and besides only texts of function types and names that
can be declared. -/
structure Adds (c : Context) (may : String → Prop) (x : Context) : Prop where
  indexed : x.Indexed
  registered : ∀ text, x.registered? text = c.registered? text ∨
    c.registered? text = none ∧ (TypeExpr.IsFunctionText text ∨ may text)

theorem Adds.refl (hc : c.Indexed) (may : String → Prop) : c.Adds may c :=
  ⟨hc, fun _ => .inl rfl⟩

theorem Adds.mono (h : c.Adds may x) (himp : ∀ text, may text → may' text) : c.Adds may' x where
  indexed := h.indexed
  registered text := by
    rcases h.registered text with hsame | ⟨hnone, hfunction | hmay⟩
    · exact .inl hsame
    · exact .inr ⟨hnone, .inl hfunction⟩
    · exact .inr ⟨hnone, .inr (himp text hmay)⟩

theorem Adds.intern (h : c.Adds may x) (name : String) : c.Adds may (x.intern name).2 where
  indexed := indexed_intern h.indexed name
  registered text := by
    rw [registered?_intern h.indexed]
    exact h.registered text

theorem Adds.enter (h : c.Adds may x) (hnone : x.registered? text = none)
    (htext : TypeExpr.IsFunctionText text ∨ may text) (t : Ty) : c.Adds may (x.enter text t) where
  indexed := indexed_enter h.indexed text t
  registered other := by
    rw [registered?_enter h.indexed]
    split
    · next hsame =>
        subst hsame
        rcases h.registered text with hold | ⟨hold, -⟩
        · exact .inr ⟨hold.symm.trans hnone, htext⟩
        · exact .inr ⟨hold, htext⟩
    · exact h.registered other

theorem Adds.declare (h : c.Adds may x) (hname : may text) (t : Ty) :
    c.Adds may (x.declare text t).2 := by
  cases hold : x.registered? text with
  | none =>
      rw [declare_of_none h.indexed hold]
      exact h.enter hold (.inr hname) t
  | some u =>
      rw [declare_of_some h.indexed hold]
      exact h.intern text

theorem Adds.cache (h : c.Adds may x) (htext : TypeExpr.IsFunctionText text) (t : Ty) :
    c.Adds may (x.cache text t).2 := by
  cases hold : x.registered? text with
  | none =>
      rw [cache_of_none h.indexed hold]
      exact h.enter hold (.inl htext) t
  | some u =>
      rw [cache_of_some h.indexed hold]
      exact h.intern text

end Context

/-- A checker by itself, in comparison with the context `c` that it had at its `k`-th event. -/
def registering (c : Context) (k : Nat) (declared : String → Prop) : Simulation where
  State := { σ : Session // k ≤ σ.events.size ∧
    c.Adds (fun name => declared name ∨ σ.InstanceDeclares k name) σ.context }
  left σ := σ.1
  right σ := σ.1
  Later σ τ := ∀ (i : Nat) (e : Event), σ.1.events[i]? = some e → τ.1.events[i]? = some e
  Opens _ _ := True
  Named _ x y := y = x
  Plain _ _ := True
  MayDeclare σ name := declared name ∨ σ.1.InstanceDeclares k name
  MayLack _ _ := True
  Tracked := True

namespace registering

variable {c : Context} {k : Nat} {declared : String → Prop} {w : (registering c k declared).State}

theorem moves {x : Context}
    (hx : c.Adds (fun name => declared name ∨ w.1.InstanceDeclares k name) x)
    {post : (registering c k declared).State → Prop} (hpost : ∀ v, post v) :
    (registering c k declared).Moves w x x post :=
  ⟨⟨{ w.1 with context := x }, w.2.1, hx⟩, rfl, rfl, fun _ _ h => h, hpost _⟩

theorem moves_unregistered (x : Context) (hnames : x.interner = w.1.context.interner)
    (htypes : x.registry = w.1.context.registry) {post : (registering c k declared).State → Prop}
    (hpost : ∀ v, post v) : (registering c k declared).Moves w x x post := by
  refine moves ⟨?_, fun text => ?_⟩ hpost
  · rw [Context.Indexed, hnames, htypes]
    exact w.2.2.indexed
  · rw [Context.registered?, hnames, htypes]
    exact w.2.2.registered text

theorem instanceDeclares_later {σ τ : Session} {name : String}
    (hlater : ∀ (i : Nat) (e : Event), σ.events[i]? = some e → τ.events[i]? = some e)
    (h : declared name ∨ σ.InstanceDeclares k name) :
    declared name ∨ τ.InstanceDeclares k name := by
  rcases h with h | ⟨i, g, sig, names, hi, hevent, hdeclares⟩
  · exact .inl h
  · exact .inr ⟨i, g, sig, names, hi, hlater i _ hevent, hdeclares⟩

theorem lawful : (registering c k declared).Lawful where
  refl _ _ _ h := h
  trans hv hu i e h := hu i e (hv i e h)
  opens _ _ := trivial
  named _ h := h
  plain _ _ := trivial
  mayDeclare hv h := instanceDeclares_later hv h
  agrees _ _ := trivial
  kindred := .of_likes fun _ h => h
  plain_primitive _ _ := trivial
  plain_function := ⟨fun _ => ⟨fun _ _ => trivial, trivial⟩, fun _ => trivial⟩
  plain_aliasOf _ := trivial
  plain_union _ := trivial
  plain_superclass _ _ := trivial
  plain_template _ := Simulation.made_self (fun _ => rfl) trivial
  lookup? _ h := ⟨_, h, .inl ⟨rfl, trivial⟩⟩
  lookup?_none _ _ := trivial
  member? _ h := ⟨_, h, .inl ⟨rfl, trivial⟩⟩
  registered? _ _ := rfl
  plain_registered _ := trivial
  registrySize _ := rfl
  instance? _ _ := rfl
  plain_instance _ := trivial
  strict _ h := h
  emit {w e e'} h := by
    obtain rfl := h.eq id
    have hlater : ∀ (i : Nat) (e : Event), w.1.events[i]? = some e →
        (w.1.events.push e')[i]? = some e := by
      intro i e he
      rw [Array.getElem?_push, if_neg, he]
      rintro rfl
      simp at he
    have hlast : (w.1.events.push e')[w.1.events.size]? = some e' := by simp
    refine ⟨⟨{ w.1 with events := w.1.events.push e' }, ?_, ?_⟩, rfl, rfl, hlater, ?_⟩
    · simpa using Nat.le_succ_of_le w.2.1
    · exact w.2.2.mono fun name => instanceDeclares_later hlater
    · -- The template just reported is among the events from now on.
      rintro g g' sig rfl hg
      refine Simulation.readies_of_like hg.1 fun u names hu name hname => ?_
      exact .inr ⟨_, g, sig, names, w.2.1, hu _ _ hlast, hname⟩
  intern w name := moves (w.2.2.intern name) fun _ => rfl
  bind {w s x y t t'} _ hxy ht := by
    obtain rfl := hxy
    obtain rfl := ht.eq id
    exact moves_unregistered (w.1.context.bind s y t') rfl rfl fun _ => trivial
  child {w s} _ := moves_unregistered (w.1.context.child s).2 rfl rfl fun _ => ⟨rfl, trivial⟩
  memberTable {w s parent} _ _ _ :=
    moves_unregistered (w.1.context.memberTable (parent.map ClassTy.fields) s).2 rfl rfl
      fun _ => ⟨rfl, trivial, trivial⟩
  declare {w name t} hname _ := moves (w.2.2.declare hname t) fun _ h => ⟨h, trivial⟩
  cache {w text t} htext _ := moves (w.2.2.cache htext t) fun _ => ⟨rfl, trivial⟩
  newTemplate w := moves_unregistered w.1.context.newTemplate.2 rfl rfl fun _ => rfl
  record {w s} key _ := moves_unregistered (w.1.context.record key s) rfl rfl fun _ => trivial
  forget {w} key _ := moves_unregistered (w.1.context.forget key) rfl rfl fun _ _ _ => trivial

theorem pairs : (registering c k declared).Pairs :=
  .of_same lawful

end registering

/-- Whether it is accepted or not, a check registers only texts of function types, the types that the
expression declares, and those that are declared by the templates it instantiates. -/
theorem Session.adds_checkExpr (σ : Session) (hσ : σ.context.Indexed) (depth : Nat) (d : Datum)
    (s : ScopeId) :
    σ.context.Adds
      (fun name => DeclaresType d name ∨
        (σ.run (checkExpr (bodyWithin depth) d s)).2.InstanceDeclares σ.events.size name)
      (σ.run (checkExpr (bodyWithin depth) d s)).2.context := by
  let start : (registering σ.context σ.events.size (DeclaresType d)).State :=
    ⟨σ, Nat.le_refl _, .refl hσ _⟩
  have hfollows := Simulation.Follows.checkExpr registering.lawful registering.pairs
    (.bodyWithin registering.lawful registering.pairs depth) d start d s trivial
    ⟨rfl, fun _ hname => .inl hname⟩
  obtain ⟨outcome, σ', hrun⟩ : ∃ outcome σ', σ.run (checkExpr (bodyWithin depth) d s) =
      (outcome, σ') := ⟨_, _, rfl⟩
  rw [hrun]
  cases outcome with
  | ok t =>
      obtain ⟨_, v, rfl, -⟩ := hfollows.ok hrun
      exact v.2.2
  | error halt =>
      obtain ⟨v, rfl, -⟩ := hfollows.stop hrun trivial
      exact v.2.2

end TypedLisp
