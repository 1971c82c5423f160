import TypedLisp.Proofs.Arguments
import TypedLisp.Proofs.Forms
import TypedLisp.Proofs.Instances.Cache
import TypedLisp.Proofs.Log

namespace TypedLisp

open CheckM

/-- The context with other instances. -/
def Context.withInstances (c : Context) (instances : Std.TreeMap InstanceKey Signature) : Context :=
  { c with instances }

/-- Run in a context, a check of written types ends the same way whatever the instances, the log and
the expression that an unknown type is reported in, and it keeps the instances and the log. -/
def Uniform {α : Type} (c : Context) (m : Datum → CheckM α) : Prop :=
  ∃ after : Context,
    (∃ a, ∀ expr instances events, Session.run ⟨c.withInstances instances, events⟩ (m expr) =
      (.ok a, ⟨after.withInstances instances, events⟩)) ∨
    ∃ name, ∀ expr instances events, Session.run ⟨c.withInstances instances, events⟩ (m expr) =
      (.error (.rejected (.unknownType name expr)), ⟨after.withInstances instances, events⟩)

namespace Uniform

variable {α β : Type} {c : Context}

theorem pure (a : α) : Uniform c fun _ => pure a :=
  ⟨c, .inl ⟨a, fun _ _ _ => rfl⟩⟩

theorem bind {m : Datum → CheckM α} {f : Datum → α → CheckM β} (hm : Uniform c m)
    (hf : ∀ a after, Uniform after fun expr => f expr a) :
    Uniform c fun expr => m expr >>= f expr := by
  obtain ⟨after, ⟨a, hrun⟩ | ⟨name, hrun⟩⟩ := hm
  · obtain ⟨after', ⟨b, hrun'⟩ | ⟨name, hrun'⟩⟩ := hf a after
    · refine ⟨after', .inl ⟨b, fun expr instances events => ?_⟩⟩
      rw [Session.run_bind_of_ok _ (hrun expr instances events), hrun']
    · refine ⟨after', .inr ⟨name, fun expr instances events => ?_⟩⟩
      rw [Session.run_bind_of_ok _ (hrun expr instances events), hrun']
  · refine ⟨after, .inr ⟨name, fun expr instances events => ?_⟩⟩
    rw [Session.run_bind_of_error _ (hrun expr instances events)]

theorem registered (text : String) {m : Datum → CheckM Ty} (hm : Uniform c m) :
    Uniform c fun expr => (do
      match (← context).registered? text with
      | some t => return t
      | none => m expr) := by
  have hsame (instances : Std.TreeMap InstanceKey Signature) :
      (c.withInstances instances).registered? text = c.registered? text := rfl
  cases htext : c.registered? text with
  | some t =>
      refine ⟨c, .inl ⟨t, fun expr instances events => ?_⟩⟩
      rw [Session.run_bind_of_ok _ (Session.run_context _)]
      simp only [hsame, htext, Session.run_pure]
  | none =>
      refine hm.imp fun after hrun => ?_
      have hrest (expr : Datum) (instances : Std.TreeMap InstanceKey Signature)
          (events : Array Event) : Session.run ⟨c.withInstances instances, events⟩ (do
            match (← context).registered? text with
            | some t => return t
            | none => m expr) = Session.run ⟨c.withInstances instances, events⟩ (m expr) := by
        rw [Session.run_bind_of_ok _ (Session.run_context _)]
        simp only [hsame, htext]
      simpa only [hrest] using hrun

mutual

theorem resolveExpr (c : Context) : ∀ e, Uniform c fun expr => resolveExpr expr e
  | .named name => by
      simp only [CheckM.resolveExpr]
      exact registered name ⟨c, .inr ⟨name, fun _ _ _ => rfl⟩⟩
  | .function params result => by
      simp only [CheckM.resolveExpr]
      refine registered _ (bind (resolveExprs c params) fun ps c₁ => ?_)
      refine bind (resolveExpr c₁ result) fun r c₂ => ?_
      exact ⟨(c₂.cache _ _).2, .inl ⟨(c₂.cache _ _).1, fun _ _ _ => rfl⟩⟩

theorem resolveExprs (c : Context) : ∀ es, Uniform c fun expr => resolveExprs expr es
  | [] => pure []
  | e :: es => by
      simp only [CheckM.resolveExprs]
      refine bind (resolveExpr c e) fun first c₁ => ?_
      exact bind (resolveExprs c₁ es) fun others _ => pure _

end

theorem actualSignature (c : Context) (g : Template) (actuals : List TypeExpr) :
    Uniform c fun expr => actualSignature g actuals expr := by
  refine bind (resolveExprs c _) fun params c₁ => ?_
  exact bind (resolveExpr c₁ _) fun result _ => pure _

end Uniform

namespace Session

variable {σ : Session} {e : TypeExpr}

theorem run_resolveAll_shown {es : List TypeExpr} (hes : ∀ e ∈ es, e.WellNamed)
    (hσ : σ.context.Indexed) (expr : Datum) :
    σ.run (resolveAll expr (es.map TypeExpr.shown)) = σ.run (resolveExprs expr es) := by
  induction es generalizing σ with
  | nil => rfl
  | cons e es ih =>
      have he := hes e List.mem_cons_self
      rw [List.map_cons, resolveAll, resolveExprs]
      refine run_bind_congr (run_resolve_shown he hσ expr) fun t σ' hrun => ?_
      have hσ' := (Resolves.resolveExpr he (.refl hσ) expr).indexed hrun
      exact run_bind_congr (ih (fun e' he' => hes e' (List.mem_cons_of_mem _ he')) hσ')
        fun _ _ _ => rfl

theorem run_internAll {names : List String} {symbols : List Symbol}
    (h : List.Forall₂ (fun name s => σ.context.interner.get? name = some s) names symbols) :
    σ.run (internAll names) = (.ok symbols, σ) := by
  induction h with
  | nil => rfl
  | @cons name s names symbols hs _ ih =>
      have hintern : σ.context.intern name = (s, σ.context) := by
        rw [Context.intern, Interner.intern_of_get? hs]
      have hfirst : σ.run (change fun c => c.intern name) = (.ok s, σ) := by
        rw [run_change, hintern]
      rw [internAll, run_bind_of_ok _ hfirst, run_bind_of_ok _ ih, run_pure]

theorem run_checkFunction {params : List Param} {symbols : List Symbol}
    (h : List.Forall₂ (fun name s => σ.context.interner.get? name = some s) (params.map Param.name)
      symbols) (inBody : Datum → ScopeId → CheckM Ty) (s : Signature) (body expr : Datum)
    (closure : ScopeId) :
    σ.run (checkFunction inBody params s body expr closure) =
      σ.run (checkFunctionBody (checkBody inBody) closure (symbols.zip s.params) body s.result
        expr) := by
  rw [checkFunction, run_bind_of_ok _ (run_internAll h), checkFunctionBody]

end Session

namespace Form

theorem classify_lambda (parts : FunctionParts) :
    classify (lambda none parts).toDatum = .ok (.lambda none parts) := by
  refine classify_toDatum ?_
  rintro list ⟨⟩

end Form

/-- The plain function that a template is at actual types: its written types with the actual types in
place of the type parameters, and its body with their names put in. -/
def Template.specialized (g : Template) (i : Interner) (actuals : List TypeExpr)
    (names : List String) : FunctionParts :=
  let actual name := lastPaired? name g.typeParams actuals
  ⟨g.params.map fun p => ⟨(i.resolve? p.1).getD "", (p.2.substitute actual).shown⟩,
    (g.result.substitute actual).shown, actualBody g names⟩

def Template.lambdaAt (g : Template) (i : Interner) (actuals : List TypeExpr)
    (names : List String) : Datum :=
  (Form.lambda none (g.specialized i actuals names)).toDatum

/-- Instantiating to a signature ends as checking a plain function with this signature does: both are
accepted and leave the same context, or both are stopped for the same kind of reason, and
instantiating forgets the instance. -/
inductive EndsAs (key : InstanceKey) (s : Signature) :
    Except Halt Signature × Session → Except Halt Ty × Session → Prop where
  | accepted {c : Context} {events events' : Array Event} :
      EndsAs key s (.ok s, ⟨c, events⟩) (.ok s.toTy, ⟨c, events'⟩)
  | stopped {halt halt' : Halt} {c : Context} {events events' : Array Event}
      (h : halt.kind = halt'.kind) :
      EndsAs key s (.error halt, ⟨c.forget key, events⟩) (.error halt', ⟨c, events'⟩)

namespace Session

variable {σ : Session} {inBody : Datum → ScopeId → CheckM Ty} {g : Template}
  {actuals : List TypeExpr}

theorem run_signature_specialized (hparams : ∀ p ∈ g.params, p.2.WellNamed)
    (hresult : g.result.WellNamed) (hactuals : ∀ e ∈ actuals, e.WellNamed)
    (hσ : σ.context.Indexed) (i : Interner) (names : List String) (expr : Datum) :
    σ.run (signature (g.specialized i actuals names) expr) =
      σ.run (actualSignature g actuals expr) := by
  have heach : ∀ e ∈ g.params.map fun p =>
      p.2.substitute fun name => lastPaired? name g.typeParams actuals, e.WellNamed := by
    intro e he
    obtain ⟨p, hp, rfl⟩ := List.mem_map.mp he
    exact (hparams p hp).substitute_actuals hactuals g.typeParams
  have htexts : (g.specialized i actuals names).params.map Param.typeText =
      (g.params.map fun p => p.2.substitute fun name =>
        lastPaired? name g.typeParams actuals).map TypeExpr.shown := by
    simp [Template.specialized]
  rw [signature, actualSignature, htexts]
  refine run_bind_congr (run_resolveAll_shown heach hσ expr) fun params σ' hrun => ?_
  have hσ' := (Resolves.resolveExprs heach (.refl hσ) expr).indexed hrun
  have hlast := hresult.substitute_actuals hactuals g.typeParams
  exact run_bind_congr (run_resolve_shown hlast hσ' expr) fun _ _ _ => rfl

theorem run_checkExpr_lambda (parts : FunctionParts) (s : ScopeId) :
    σ.run (checkExpr inBody (Form.lambda none parts).toDatum s) =
      Session.run { σ with
        events := σ.events.push (.checking (Form.lambda none parts).toDatum s) } (do
          let sig ← signature parts (Form.lambda none parts).toDatum
          checkFunction inBody parts.params sig parts.body (Form.lambda none parts).toDatum s
          return sig.toTy) := by
  rw [checkExpr]
  split
  · next h => cases (Form.classify_lambda parts).symm.trans h
  · next form h =>
      cases (Form.classify_lambda parts).symm.trans h
      rw [run_bind_of_ok _ (run_emit σ _)]

theorem run_checkFunctionBody_cases (hbody : ∀ d s, IgnoresLog (inBody d s)) (c : Context)
    (closure : ScopeId) (bindings : List (Symbol × Ty)) (body : Datum) (result : Ty) :
    ∃ after : Context,
      (∀ expr events, ∃ events', Session.run ⟨c, events⟩
        (checkFunctionBody inBody closure bindings body result expr) =
          (.ok (), ⟨after, events'⟩)) ∨
      ∃ halt : Datum → Halt, (∀ expr expr', (halt expr).kind = (halt expr').kind) ∧
        ∀ expr events, ∃ events', Session.run ⟨c, events⟩
          (checkFunctionBody inBody closure bindings body result expr) =
            (.error (halt expr), ⟨after, events'⟩) := by
  obtain ⟨outcome, after, hrun⟩ :=
    ((IgnoresLog.openFunction closure bindings).bind fun scope => hbody body scope).alike c
  have hsplit (expr : Datum) : checkFunctionBody inBody closure bindings body result expr =
      (do let scope ← openFunction closure bindings
          inBody body scope) >>= fun t => expect t result body expr := by
    rw [checkFunctionBody, bind_assoc]
  cases outcome with
  | error halt =>
      refine ⟨after, .inr ⟨fun _ => halt, fun _ _ => rfl, fun expr events => ?_⟩⟩
      obtain ⟨events', hrun⟩ := hrun events
      exact ⟨events', by rw [hsplit, run_bind_of_error _ hrun]⟩
  | ok t =>
      cases hfits : t.equals result with
      | true =>
          refine ⟨after, .inl fun expr events => ?_⟩
          obtain ⟨events', hrun⟩ := hrun events
          exact ⟨events', by rw [hsplit, run_bind_of_ok _ hrun, run_expect, hfits]; rfl⟩
      | false =>
          refine ⟨after, .inr ⟨fun expr => .rejected (.typeMismatch result.name t.name body expr),
            fun _ _ => rfl, fun expr events => ?_⟩⟩
          obtain ⟨events', hrun⟩ := hrun events
          refine ⟨events', ?_⟩
          rw [hsplit, run_bind_of_ok _ hrun, run_expect, hfits, if_neg Bool.false_ne_true]

theorem run_instantiateAt_of_signature {c x : Context} {key : InstanceKey}
    (hnew : c.instance? key = none) {expr : Datum} {events : Array Event} {s : Signature}
    (hs : Session.run ⟨c, events⟩ (actualSignature g actuals expr) = (.ok s, ⟨x, events⟩)) :
    Session.run ⟨c, events⟩ (instantiateAt inBody g actuals key expr) =
      Session.run ⟨x, events.push (.instantiated g s)⟩ (provisionally key s
        (checkFunctionBody inBody g.closure ((g.params.map Prod.fst).zip s.params)
          (actualBody g key.actuals) s.result expr)) := by
  rw [instantiateAt, run_bind_of_ok _ (run_context _)]
  simp only [hnew]
  rw [run_bind_of_ok _ hs, run_bind_of_ok _ (run_emit _ _)]

theorem run_lambdaAt_of_signature (inBody : Datum → ScopeId → CheckM Ty) {x y : Context}
    {i : Interner} (hi : i.Extends y.interner)
    (hnames : ∀ p ∈ g.params, ∃ name, i.resolve? p.1 = some name) {names : List String}
    (events : Array Event) {s : Signature}
    (hs : ∀ events, Session.run ⟨x, events⟩ (signature (g.specialized i actuals names)
      (g.lambdaAt i actuals names)) = (.ok s, ⟨y, events⟩)) :
    ∃ events', Session.run ⟨x, events⟩
        (checkExpr inBody (g.lambdaAt i actuals names) g.closure) =
      Session.run ⟨y, events'⟩ (do
        checkFunctionBody (checkBody inBody) g.closure ((g.params.map Prod.fst).zip s.params)
          (actualBody g names) s.result (g.lambdaAt i actuals names)
        return s.toTy) := by
  have hsymbols : List.Forall₂ (fun name s => y.interner.get? name = some s)
      ((g.specialized i actuals names).params.map Param.name) (g.params.map Prod.fst) := by
    rw [Template.specialized, List.map_map, List.forall₂_map_left_iff, List.forall₂_map_right_iff,
      List.forall₂_same]
    intro p hp
    obtain ⟨name, hname⟩ := hnames p hp
    show y.interner.get? ((i.resolve? p.1).getD "") = some p.1
    rw [hname]
    exact Interner.get?_eq_some_iff.mpr (hi p.1 name hname)
  refine ⟨events.push (.checking (g.lambdaAt i actuals names) g.closure), ?_⟩
  rw [Template.lambdaAt, run_checkExpr_lambda, ← Template.lambdaAt, run_bind_of_ok _ (hs _),
    run_bind, run_bind, run_checkFunction hsymbols]
  rfl

section Specializing

variable (hbody : ∀ d s, IgnoresLog (inBody d s)) {c : Context} (hc : c.Indexed) {i : Interner}
  (hi : i.Extends c.interner)
  (hparams : ∀ p ∈ g.params, (∃ name, i.resolve? p.1 = some name) ∧ p.2.WellNamed)
  (hresult : g.result.WellNamed) (hactuals : ∀ e ∈ actuals, e.WellNamed) {key : InstanceKey}
  (hnew : c.instance? key = none)

include hc hparams hresult hactuals

theorem run_signature_lambdaAt (instances : Std.TreeMap InstanceKey Signature)
    (names : List String) (events : Array Event) :
    Session.run ⟨c.withInstances instances, events⟩
        (signature (g.specialized i actuals names) (g.lambdaAt i actuals names)) =
      Session.run ⟨c.withInstances instances, events⟩
        (actualSignature g actuals (g.lambdaAt i actuals names)) :=
  have hindexed : (c.withInstances instances).Indexed := hc
  run_signature_specialized (fun p hp => (hparams p hp).2) hresult hactuals hindexed i names _

include hbody hi hnew

theorem run_instantiateAt_endsAs {after : Context} {s : Signature}
    (hrun : ∀ expr instances events,
      Session.run ⟨c.withInstances instances, events⟩ (actualSignature g actuals expr) =
        (.ok s, ⟨after.withInstances instances, events⟩))
    (expr : Datum) (events events' : Array Event) :
    EndsAs key s
      (Session.run ⟨c, events⟩ (instantiateAt (checkBody inBody) g actuals key expr))
      (Session.run ⟨c.record key s, events'⟩
        (checkExpr inBody (g.lambdaAt i actuals key.actuals) g.closure)) := by
  have hbodies (d : Datum) (s : ScopeId) : IgnoresLog (checkBody inBody d s) :=
    .checkBody hbody d s
  have hinstance : Session.run ⟨c, events⟩ (actualSignature g actuals expr) =
      (.ok s, ⟨after.withInstances c.instances, events⟩) := hrun expr c.instances events
  obtain ⟨_, y, hrun', -, hagrees, -⟩ :=
    Resolves.actualSignature (.refl hc) (fun p hp => (hparams p hp).2) hresult hactuals expr events
  obtain rfl := (Session.mk.inj (Prod.mk.inj (hrun'.symm.trans hinstance)).2).1
  have hextends : i.Extends ((after.withInstances c.instances).record key s).interner :=
    hi.trans hagrees.interner
  obtain ⟨events'', hlambda⟩ := run_lambdaAt_of_signature inBody hextends
    (fun p hp => (hparams p hp).1) events' fun events =>
      (run_signature_lambdaAt hc hparams hresult hactuals (c.instances.insert key s) _ events).trans
        (hrun _ _ events)
  show EndsAs key s _ (Session.run ⟨c.withInstances (c.instances.insert key s), events'⟩ _)
  rw [run_instantiateAt_of_signature hnew hinstance, run_provisionally, hlambda]
  obtain ⟨after', hchecked | ⟨halt, hkind, hstopped⟩⟩ :=
    run_checkFunctionBody_cases hbodies ((after.withInstances c.instances).record key s)
      g.closure ((g.params.map Prod.fst).zip s.params) (actualBody g key.actuals) s.result
  · obtain ⟨_, hfirst⟩ := hchecked expr (events.push (.instantiated g s))
    obtain ⟨_, hsecond⟩ := hchecked (g.lambdaAt i actuals key.actuals) events''
    rw [hfirst, run_bind_of_ok _ hsecond]
    exact .accepted
  · obtain ⟨_, hfirst⟩ := hstopped expr (events.push (.instantiated g s))
    obtain ⟨_, hsecond⟩ := hstopped (g.lambdaAt i actuals key.actuals) events''
    rw [hfirst, run_bind_of_error _ hsecond]
    exact .stopped (hkind _ _)

/-- Instantiating at resolved types ends as checking the lambda with the instance recorded, or a type
of the signature is unknown and both say so. -/
theorem run_instantiateAt_cases (expr : Datum) (events : Array Event) :
    (∃ s, (Session.run ⟨c, events⟩ (actualSignature g actuals expr)).1 = .ok s ∧
      ∀ events', EndsAs key s
        (Session.run ⟨c, events⟩ (instantiateAt (checkBody inBody) g actuals key expr))
        (Session.run ⟨c.record key s, events'⟩
          (checkExpr inBody (g.lambdaAt i actuals key.actuals) g.closure))) ∨
    ∃ name, (Session.run ⟨c, events⟩ (instantiateAt (checkBody inBody) g actuals key expr)).1 =
        .error (.rejected (.unknownType name expr)) ∧
      ∀ events', (Session.run ⟨c, events'⟩
        (checkExpr inBody (g.lambdaAt i actuals key.actuals) g.closure)).1 =
          .error (.rejected (.unknownType name (g.lambdaAt i actuals key.actuals))) := by
  obtain ⟨after, ⟨s, hrun⟩ | ⟨name, hrun⟩⟩ := Uniform.actualSignature c g actuals
  · left
    refine ⟨s, congrArg Prod.fst (hrun expr c.instances events), ?_⟩
    exact run_instantiateAt_endsAs hbody hc hi hparams hresult hactuals hnew hrun expr events
  · right
    have hunknown (expr : Datum) (events : Array Event) :
        Session.run ⟨c, events⟩ (actualSignature g actuals expr) =
          (.error (.rejected (.unknownType name expr)),
            ⟨after.withInstances c.instances, events⟩) := hrun expr c.instances events
    refine ⟨name, ?_, fun events' => ?_⟩
    · rw [instantiateAt, run_bind_of_ok _ (run_context _)]
      simp only [hnew]
      rw [run_bind_of_error _ (hunknown expr events)]
    · have hsignature := run_signature_lambdaAt hc hparams hresult hactuals c.instances key.actuals
        (events'.push (.checking (g.lambdaAt i actuals key.actuals) g.closure))
      rw [Template.lambdaAt, run_checkExpr_lambda, ← Template.lambdaAt]
      exact congrArg Prod.fst (run_bind_of_error _ (hsignature.trans (hunknown _ _)))

end Specializing

end Session

theorem exists_forall₂_registered {c : Context} {es : List TypeExpr}
    (h : ∀ e ∈ es, (c.registered? e.shown).isSome) :
    ∃ ts, List.Forall₂ (fun e t => c.registered? e.shown = some t) es ts := by
  induction es with
  | nil => exact ⟨[], .nil⟩
  | cons e es ih =>
      obtain ⟨t, ht⟩ := Option.isSome_iff_exists.mp (h e List.mem_cons_self)
      obtain ⟨ts, hts⟩ := ih fun e' he' => h e' (List.mem_cons_of_mem _ he')
      exact ⟨t :: ts, .cons ht hts⟩

theorem Context.Reachable.exists_made {c : Context} (hc : c.Reachable) :
    ∃ made, World.WellFormed ⟨c, made⟩ ∧ c.Made made := by
  obtain ⟨options, made, hreached⟩ := hc.steps
  have hw := (Context.wellFormed_blank options).steps hreached
  exact ⟨made, hw, hreached.numbered rfl, fun h => (hw.bound h).2.mem_made⟩

/-- Instantiating a template at a written list, whose types are known and at which it has no instance
yet, ends as checking the lambda that is written with these types: in the template's closure, where
the types are resolved and the instance is recorded. If a type of its signature is unknown, both say
so. Resolving the types changes nothing if all of them, as the names among them, are registered. -/
theorem instantiation_is_specialization {c : Context} (hc : c.Reachable) (depth : Nat) :
    (∃ made, c.Made made ∧ ∀ g ∈ made, World.Holds ⟨c, made⟩ g) ∧
    ∀ made g, World.Holds ⟨c, made⟩ g → ∀ list actuals,
      TypeExpr.parseList? list = some (.ok actuals) → actuals.length = g.typeParams.length →
      ∀ expr events types c₁ events₁,
        Session.run ⟨c, events⟩ (resolveExprs expr actuals) = (.ok types, ⟨c₁, events₁⟩) →
        let key : InstanceKey := ⟨g.id, types.map Ty.name⟩
        let lambda := g.lambdaAt c.interner actuals key.actuals
        let instantiated :=
          Session.run ⟨c, events⟩ (instantiate (bodyWithin (depth + 1)) g list expr)
        let checkedIn (x : Context) (events' : Array Event) :=
          Session.run ⟨x, events'⟩ (checkExpr (bodyWithin depth) lambda g.closure)
        c.instance? key = none →
        ((∀ e ∈ actuals, (c.registered? e.shown).isSome) → c₁ = c) ∧
          ((∃ s, (Session.run ⟨c₁, events₁⟩ (actualSignature g actuals expr)).1 = .ok s ∧
            ∀ events', EndsAs key s instantiated (checkedIn (c₁.record key s) events')) ∨
          ∃ name, instantiated.1 = .error (.rejected (.unknownType name expr)) ∧
            ∀ events', (checkedIn c₁ events').1 =
              .error (.rejected (.unknownType name lambda))) := by
  obtain ⟨made, hw, hmade⟩ := hc.exists_made
  refine ⟨⟨made, hmade, fun g hg => hw.made hg⟩, ?_⟩
  intro _ g hg list actuals hparsed hlength expr events types c₁ events₁ hresolved key lambda
    instantiated checkedIn hnew
  have hactuals := TypeExpr.wellNamed_of_parseList hparsed
  refine ⟨fun hregistered => ?_, ?_⟩
  · obtain ⟨ts, hts⟩ := exists_forall₂_registered hregistered
    have hsame := Session.run_resolveExprs_of_registered? (σ := ⟨c, events⟩) hts expr
    exact (Session.mk.inj (Prod.mk.inj (hresolved.symm.trans hsame)).2).1
  · obtain ⟨_, y, hrun, hcaches, hagrees, -⟩ :=
      Resolves.resolveExprs hactuals (.refl hw.indexed) expr events
    obtain rfl := (Session.mk.inj (Prod.mk.inj (hresolved.symm.trans hrun)).2).1
    have hnew₁ : c₁.instance? key = none := by rwa [Context.instance?, hagrees.instances]
    have hinstantiated : instantiated = Session.run ⟨c₁, events₁⟩
        (instantiateAt (checkBody (bodyWithin depth)) g actuals key expr) := by
      show Session.run _ _ = _
      rw [Session.run_instantiate_of_parseList? hparsed hlength,
        Session.run_bind_of_ok _ hresolved]
      rfl
    rw [hinstantiated]
    exact Session.run_instantiateAt_cases (IgnoresLog.bodyWithin depth) hcaches.indexed
      hagrees.interner hg.params hg.result hactuals hnew₁ expr events₁

theorem Context.Made.mem_of_templateNamed? {c : Context} {made : List Template} (h : c.Made made)
    {name : String} {g : Template} (hg : c.templateNamed? name = some g) : g ∈ made := by
  have hlookup : c.lookup? Arena.global name = some (.template g) := by
    unfold Context.templateNamed? at hg
    split at hg
    · next hlookup => rw [hlookup, Option.some.inj hg]
    · cases hg
  obtain ⟨s, -, hs⟩ := Option.bind_eq_some_iff.mp hlookup
  obtain ⟨q, hq⟩ := Arena.exists_binding?_of_lookup? hs
  exact h.bound hq

/-- The identity at strings is checked as the lambda `(lambda ((x string)) -> string x)`. -/
theorem instantiation_is_specialization_of_identity :
    withIdentity.Reachable ∧ ∃ g s, withIdentity.templateNamed? "same" = some g ∧
      EndsAs ⟨0, ["string"]⟩ s
        (Session.run ⟨withIdentity, #[]⟩
          (instantiate (bodyWithin 2) g "<string>" identityAtText))
        (Session.run ⟨withIdentity.record ⟨0, ["string"]⟩ s, #[]⟩ (checkExpr (bodyWithin 1)
          (g.lambdaAt withIdentity.interner [.named "string"] ["string"]) g.closure)) := by
  have hreachable : withIdentity.Reachable := .expr (.new {}) 1 identityTemplate Nat.one_pos #[]
  have hmaking : ((withIdentity.templateNamed? "same").map fun g =>
      (g.id, g.typeParams.length, (Session.run ⟨withIdentity, #[]⟩
        (instantiate (bodyWithin 2) g "<string>" identityAtText)).1.toBool)) =
      some (0, 1, true) := by
    decide +kernel
  obtain ⟨g, hg, hfacts⟩ := Option.map_eq_some_iff.mp hmaking
  obtain ⟨hid, hlength, haccepted⟩ : g.id = 0 ∧ g.typeParams.length = 1 ∧
      (Session.run ⟨withIdentity, #[]⟩
        (instantiate (bodyWithin 2) g "<string>" identityAtText)).1.toBool = true := by
    simpa using hfacts
  have hregistered : (withIdentity.registered? "string").map Ty.name = some "string" := by
    decide +kernel
  obtain ⟨t, ht, hnamed⟩ := Option.map_eq_some_iff.mp hregistered
  have hresolved : Session.run ⟨withIdentity, #[]⟩ (resolveExprs identityAtText [.named "string"]) =
      (.ok [t], ⟨withIdentity, #[]⟩) :=
    Session.run_resolveExprs_of_registered? (.cons ht .nil) identityAtText
  have hnew : withIdentity.instance? ⟨g.id, [t].map Ty.name⟩ = none := by
    rw [List.map_singleton, hnamed, hid]
    exact Option.isNone_iff_eq_none.mp (by decide +kernel)
  obtain ⟨⟨made, hmade, hheld⟩, hspecialized⟩ := instantiation_is_specialization hreachable 1
  have hends := (hspecialized made g (hheld g (hmade.mem_of_templateNamed? hg)) "<string>"
    [.named "string"] (by cbv) hlength.symm identityAtText #[] [t] withIdentity #[] hresolved
    hnew).2
  rw [List.map_singleton, hnamed, hid] at hends
  rcases hends with ⟨s, -, hends⟩ | ⟨name, hunknown, -⟩
  · exact ⟨hreachable, g, s, hg, hends #[]⟩
  · rw [hunknown] at haccepted
    cases haccepted

/-- A template whose body makes an object of its actual type, and the context that declares it. -/
def makerTemplate : Datum :=
  .list [.symbol "def", .symbol "mk", .symbol "<T>", .list [], .symbol "->", .symbol "number",
    .list [.symbol "begin", .list [.symbol "new", .symbol "T"], .number ⟨0x3ff0000000000000⟩]]

def withMaker : Context :=
  (Session.run ⟨Context.new {}, #[]⟩
    (checkExpr (bodyWithin 1) makerTemplate Arena.global)).2.context

def makerCall : Datum :=
  .list [.symbol "mk", .symbol "<Fn<string>>"]

/-- Where the actual type is not resolved before, the lambda does not find it as a class, while the
instance finds a type that is no class. -/
theorem instantiation_not_specialization_unresolved :
    withMaker.Reachable ∧ ∃ g, withMaker.templateNamed? "mk" = some g ∧
      rejection? (Session.run ⟨withMaker, #[]⟩
        (instantiate (bodyWithin 2) g "<Fn<string>>" makerCall)).1 = some "not a class" ∧
      rejection? (Session.run ⟨withMaker.record ⟨g.id, ["Fn<string>"]⟩ ⟨[], .number⟩, #[]⟩
        (checkExpr (bodyWithin 1) (g.lambdaAt withMaker.interner
          [.function [] (.named "string")] ["Fn<string>"]) g.closure)).1 =
            some "unknown class" := by
  have hchecked : ((withMaker.templateNamed? "mk").map fun g =>
      (rejection? (Session.run ⟨withMaker, #[]⟩
        (instantiate (bodyWithin 2) g "<Fn<string>>" makerCall)).1,
      rejection? (Session.run ⟨withMaker.record ⟨g.id, ["Fn<string>"]⟩ ⟨[], .number⟩, #[]⟩
        (checkExpr (bodyWithin 1) (g.lambdaAt withMaker.interner
          [.function [] (.named "string")] ["Fn<string>"]) g.closure)).1)) =
      some (some "not a class", some "unknown class") := by
    decide +kernel
  obtain ⟨g, hg, hkinds⟩ := Option.map_eq_some_iff.mp hchecked
  obtain ⟨hinstance, hlambda⟩ := Prod.mk.inj hkinds
  exact ⟨.expr (.new {}) 1 makerTemplate Nat.one_pos #[], g, hg, hinstance, hlambda⟩

end TypedLisp
