import TypedLisp.Proofs.Instances.Bodies

/-!
What a rejected expression does to later calls of templates. Instances that were recorded while it
was checked stay, also those that relied on one withdrawn since; so a later call can be accepted that
would not have been before.
-/

namespace TypedLisp

open CheckM

namespace Session

variable (σ σ' : Session)

/-- Within some depth of nested bodies, a check gives a result. -/
def Gives {α : Type} (check : Nat → CheckM α) (a : α) : Prop :=
  ∃ depth τ, σ.run (check depth) = (.ok a, τ)

def Refuses {α : Type} (check : Nat → CheckM α) : Prop :=
  ∃ depth e τ, σ.run (check depth) = (.error (.rejected e), τ)

def Accepts (s : ScopeId) (d : Datum) (t : Ty) : Prop :=
  σ.Gives (fun depth => checkExpr (bodyWithin depth) d s) t

def Rejects (s : ScopeId) (d : Datum) : Prop :=
  σ.Refuses fun depth => checkExpr (bodyWithin depth) d s

def Grants (g : Template) (list : String) (sig : Signature) : Prop :=
  ∃ expr, σ.Gives (fun depth => instantiate (bodyWithin depth) g list expr) sig

/-- However deep bodies may nest, a check makes no more templates than there are ids. -/
def HasRoom {α : Type} (check : Nat → CheckM α) : Prop :=
  ∀ depth, (σ.run (check depth)).2.context.nextTemplate ≤ Template.idCount

/-- There is room for a call to be checked, and for templates that are involved to be instantiated. -/
structure HasRoomFor (involved : Template → Prop) (s : ScopeId) (call : Datum) : Prop where
  call : σ.HasRoom fun depth => checkExpr (bodyWithin depth) call s
  instances : ∀ g, involved g → ∀ list expr,
    σ.HasRoom fun depth => instantiate (bodyWithin depth) g list expr

/-- An instance of a template made before is there only after. -/
def LeftOver (key : InstanceKey) : Prop :=
  key.template < σ.context.nextTemplate ∧ σ.context.instance? key = none ∧
    (σ'.context.instance? key).isSome

/-- An instance is recorded on the way to some signature that is granted. -/
def Earns (involved : Template → Prop) (key : InstanceKey) : Prop :=
  ∃ g name, σ.context.BindsTo name g ∧ involved g ∧ ∃ depth list expr sig τ,
    σ.run (instantiate (bodyWithin depth) g list expr) = (.ok sig, τ) ∧
      (τ.context.instance? key).isSome

variable {σ} in
theorem HasRoom.le {α : Type} {check : Nat → CheckM α} [∀ depth, CountsUp (check depth)]
    (h : σ.HasRoom check) : σ.context.nextTemplate ≤ Template.idCount :=
  Nat.le_trans (CountsUp.le (m := check 0) σ) (h 0)

end Session

open Requests (make Asks Closed)

/-- Run in a session, within any depth, a check goes by a plan and gives what the plan says. -/
def Base.Follows {α : Type} (b : Base) (σ : Session) (m : Nat → CheckM α) (p : Plan α) : Prop :=
  ∀ depth, Ends False b 0 σ.context (fun u a _ => a = u)
    (make b.requestBodies depth (b.granted σ.context) p.items) p.value (σ.run (m depth))

namespace Base.Follows

variable {α : Type} {b : Base} {m : Nat → CheckM α} {p : Plan α} {σ σ' : Session}

theorem hasRoom (h : b.Follows σ m p) : σ.HasRoom m :=
  fun depth => (h depth).room

theorem accepted_iff (h : b.Follows σ m p) {a : α} :
    σ.Gives m a ↔ p.value = some a ∧ ∃ depth keys,
      make b.requestBodies depth (b.granted σ.context) p.items = .granted keys := by
  constructor
  · rintro ⟨depth, τ, hrun⟩
    have hends := h depth
    rw [hrun] at hends
    generalize hmake : make b.requestBodies depth (b.granted σ.context) p.items = progress at hends
    generalize hvalue : p.value = value at hends
    cases hends with
    | accepted hy _ hpost => exact ⟨congrArg some hpost.symm, depth, _, hmake⟩
    | overrun h => exact h.elim
  · rintro ⟨hvalue, depth, keys, hmake⟩
    have hends := h depth
    rw [hmake, hvalue] at hends
    generalize hrun : σ.run (m depth) = result at hends
    cases hends with
    | accepted hy _ hpost =>
        obtain rfl := hpost
        exact ⟨depth, _, hrun⟩
    | overrun h => exact h.elim

theorem make_of_accepted (h : b.Follows σ m p) {depth : Nat} {a : α}
    (hrun : σ.run (m depth) = (.ok a, σ')) :
    make b.requestBodies depth (b.granted σ.context) p.items = .granted (b.granted σ'.context) := by
  have hends := h depth
  rw [hrun] at hends
  generalize make b.requestBodies depth (b.granted σ.context) p.items = progress at hends ⊢
  generalize p.value = value at hends
  cases hends with
  | accepted => rfl
  | overrun h => exact h.elim

theorem rejected_iff (h : b.Follows σ m p) :
    σ.Refuses m ↔ ∃ depth keys,
      make b.requestBodies depth (b.granted σ.context) p.items = .denied keys ∨
        p.value = none ∧
          make b.requestBodies depth (b.granted σ.context) p.items = .granted keys := by
  constructor
  · rintro ⟨depth, e, τ, hrun⟩
    have hends := h depth
    rw [hrun] at hends
    generalize hmake : make b.requestBodies depth (b.granted σ.context) p.items = progress at hends
    generalize hvalue : p.value = value at hends
    cases hends with
    | refused => exact ⟨depth, _, .inr ⟨rfl, hmake⟩⟩
    | denied => exact ⟨depth, _, .inl hmake⟩
    | overrun h => exact h.elim
  · rintro ⟨depth, keys, hmake⟩
    have hends := h depth
    generalize hrun : σ.run (m depth) = result at hends
    rcases hmake with hmake | ⟨hvalue, hmake⟩
    · rw [hmake] at hends
      generalize p.value = value at hends
      cases hends with
      | denied => exact ⟨depth, _, _, hrun⟩
      | overrun h => exact h.elim
    · rw [hmake, hvalue] at hends
      cases hends with
      | refused => exact ⟨depth, _, _, hrun⟩
      | overrun h => exact h.elim

theorem not_rejected (h : b.Follows σ m p) {a : α} (ha : σ.Gives m a) : ¬σ.Refuses m := by
  intro hrefuses
  obtain ⟨hvalue, depth, keys, hmake⟩ := h.accepted_iff.mp ha
  obtain ⟨depth', keys', hmake' | ⟨hnone, -⟩⟩ := h.rejected_iff.mp hrefuses
  · have hsettled : make b.requestBodies depth (b.granted σ.context) p.items ≠ .deep := by
      simp [hmake]
    have hsettled' : make b.requestBodies depth' (b.granted σ.context) p.items ≠ .deep := by
      simp [hmake']
    cases hmake.symm.trans ((Requests.make_unique hsettled hsettled').trans hmake')
  · cases hvalue.symm.trans hnone

theorem accepted_of_subset (h : b.Follows σ m p) (h' : b.Follows σ' m p)
    (hsub : b.granted σ.context ⊆ b.granted σ'.context) {a : α}
    (ha : σ.Gives m a) : σ'.Gives m a := by
  obtain ⟨hvalue, depth, keys, hmake⟩ := h.accepted_iff.mp ha
  exact h'.accepted_iff.mpr ⟨hvalue, Requests.granted_of_subset hmake hsub⟩

/-- If the instances that are granted on one side only support each other, verdicts agree. -/
theorem verdicts_agree (h : b.Follows σ m p) (h' : b.Follows σ' m p) {keys : Finset InstanceKey}
    (hclosed : Closed b.requestBodies (b.granted σ.context) keys)
    (hsub : b.granted σ.context ⊆ b.granted σ'.context)
    (hsup : b.granted σ'.context ⊆ b.granted σ.context ∪ keys) :
    (∀ a, σ'.Gives m a ↔ σ.Gives m a) ∧ (σ'.Refuses m ↔ σ.Refuses m) := by
  have hagree : Requests.AgreeBut keys (b.granted σ.context) (b.granted σ'.context) := by
    intro key hkey
    refine ⟨fun hmem => hsub hmem, fun hmem => ?_⟩
    exact (Finset.mem_union.mp (hsup hmem)).resolve_right hkey
  have hrefl := Finset.Subset.refl (b.granted σ.context)
  refine ⟨fun a => ⟨fun ha => ?_, h.accepted_of_subset h' hsub⟩, ?_, ?_⟩
  · obtain ⟨hvalue, depth, finish, hmake⟩ := h'.accepted_iff.mp ha
    exact h.accepted_iff.mpr
      ⟨hvalue, Requests.granted_of_agreeBut hclosed hsub hrefl hagree.symm hmake⟩
  · intro hrejected
    obtain ⟨depth, finish, hmake | ⟨hvalue, hmake⟩⟩ := h'.rejected_iff.mp hrejected
    · obtain ⟨depth', finish', hmake'⟩ :=
        Requests.denied_of_agreeBut hclosed hsub hrefl hagree.symm hmake
      exact h.rejected_iff.mpr ⟨depth', finish', .inl hmake'⟩
    · obtain ⟨depth', finish', hmake'⟩ :=
        Requests.granted_of_agreeBut hclosed hsub hrefl hagree.symm hmake
      exact h.rejected_iff.mpr ⟨depth', finish', .inr ⟨hvalue, hmake'⟩⟩
  · intro hrejected
    obtain ⟨depth, finish, hmake | ⟨hvalue, hmake⟩⟩ := h.rejected_iff.mp hrejected
    · obtain ⟨depth', finish', hmake'⟩ :=
        Requests.denied_of_agreeBut hclosed hrefl hsub hagree hmake
      exact h'.rejected_iff.mpr ⟨depth', finish', .inl hmake'⟩
    · obtain ⟨depth', finish', hmake'⟩ :=
        Requests.granted_of_agreeBut hclosed hrefl hsub hagree hmake
      exact h'.rejected_iff.mpr ⟨depth', finish', .inr ⟨hvalue, hmake'⟩⟩

end Base.Follows

namespace Base

variable {b : Base} {σ σ' : Session} {s : ScopeId} {d : Datum} {g : Template} {name list : String}

theorem granted_subset {x : Context} (hx : b.Over x) : b.granted b.context ⊆ b.granted x := by
  intro key hkey
  obtain ⟨hlt, hsome⟩ := mem_granted.mp hkey
  obtain ⟨sig, hsig⟩ := Option.isSome_iff_exists.mp hsome
  exact mem_granted.mpr ⟨hlt, Option.isSome_iff_exists.mpr ⟨sig, hx.kept hsig⟩⟩

theorem plan_of_request {actuals : List TypeExpr} {sig : Signature}
    (hrequest : b.Request g list actuals)
    (hsig : b.context.actualSignature? g actuals = some sig)
    (hnone : b.context.instance? (keyOf g actuals) = none) :
    (Plan.ofAnswer (b.actuals? g.typeParams.length list)).bind (b.instancePlan g) =
      ⟨[.ask 0 (keyOf g actuals)], some sig⟩ := by
  have hactuals : b.actuals? g.typeParams.length list = some actuals :=
    actuals?_eq_some_iff.mpr ⟨hrequest.parsed, hrequest.length, hrequest.resolved⟩
  rw [hactuals, Plan.ofAnswer, Plan.bind]
  simp [instancePlan, hnone, hsig, Plan.ofAnswer, Plan.bind]

section

variable (hpermits : ∀ g, b.involved g → ∀ names, b.Permits (actualBody g names))

include hpermits

theorem follows_call {callee : Callee} {args : List Datum} (hs : s.index < b.size)
    (hd : Form.classify d = .ok (.call callee args)) (h : b.Permits d) (hσ : b.Over σ.context)
    (hroom : b.makes → σ.HasRoom fun depth => checkExpr (bodyWithin depth) d s) :
    b.Follows σ (fun depth => checkExpr (bodyWithin depth) d s)
      (b.callPlan (b.context.lookup? s) args callee) := by
  intro depth
  have hstarts : Starts b b.requestBodies depth 0 (b.context.lookup? s) s σ.context :=
    ⟨correct hpermits depth, b.envOk_lookup? s, hσ, hσ.sees hs, Nat.zero_le _⟩
  have hperforms := (Performs.call hstarts hd h (plannedInside_of_permits h)).mono
    fun _ _ _ _ _ _ ht => ht.1
  exact (hperforms σ.events).of_room fun hmakes => hroom hmakes depth

theorem follows_instantiate (hbound : b.context.BindsTo name g) (hinvolved : b.involved g)
    (list : String) (expr : Datum) (hσ : b.Over σ.context)
    (hroom : b.makes → σ.HasRoom fun depth => instantiate (bodyWithin depth) g list expr) :
    b.Follows σ (fun depth => instantiate (bodyWithin depth) g list expr)
      ((Plan.ofAnswer (b.actuals? g.typeParams.length list)).bind (b.instancePlan g)) := by
  intro depth
  have hperforms : Performs b.makes b b.requestBodies depth 0 σ.context
      (instantiate (bodyWithin depth) g list expr)
      ((Plan.ofAnswer (b.actuals? g.typeParams.length list)).bind (b.instancePlan g))
      fun u a _ => a = u := by
    refine Performs.instantiate hσ list expr fun actuals y hactuals _ hy => ?_
    obtain ⟨hlist, hlength, hresolved⟩ := actuals?_eq_some_iff.mp hactuals
    exact (Performs.instantiateAt_known (correct hpermits depth) hy (Nat.zero_le _)
      ⟨⟨name, hbound⟩, hinvolved, hlist, hlength, hresolved⟩ expr).mono fun _ _ _ _ _ _ h => h.1
  exact (hperforms σ.events).of_room fun hmakes => hroom hmakes depth

theorem over_of_rejected (hs : s.index < b.size) (h : b.Permits d) {events : Array Event}
    {depth : Nat} {e : TypeError}
    (hrun : Session.run ⟨b.context, events⟩ (checkExpr (bodyWithin depth) d s) =
      (.error (.rejected e), σ'))
    (hroom : b.makes → σ'.context.nextTemplate ≤ Template.idCount) : b.Over σ'.context := by
  have hends := planned_of_permits h (b.context.lookup? s) (b.envOk_lookup? s) b.requestBodies depth
    (correct hpermits depth) b.context s b.over_base (b.over_base.sees hs) events
  rw [hrun] at hends
  generalize make b.requestBodies depth _ _ = progress at hends
  generalize (b.plan d _).value = value at hends
  cases hends with
  | refused hy => exact hy
  | denied hy => exact hy
  | overrun hmakes h => exact absurd (hroom hmakes) (Nat.not_le.mpr h)

variable {events : Array Event}
  (hroom : ∀ g, b.involved g → ∀ list expr, Session.HasRoom ⟨b.context, events⟩
    fun depth => instantiate (bodyWithin depth) g list expr)

include hroom

theorem closed_of_earns {key : InstanceKey} (hkey : key.template < b.next)
    (hnone : b.context.instance? key = none)
    (h : Session.Earns ⟨b.context, events⟩ b.involved key) :
    ∃ keys, Closed b.requestBodies (b.granted b.context) keys ∧ key ∈ keys := by
  obtain ⟨g, name, hbound, hinvolved, depth, list, expr, sig, τ, hrun, hsome⟩ := h
  have hmake := (follows_instantiate (σ := ⟨b.context, events⟩) hpermits hbound hinvolved list expr
    b.over_base fun _ => hroom g hinvolved list expr).make_of_accepted hrun
  refine ⟨_, Requests.closed_of_granted hmake, Finset.mem_sdiff.mpr ⟨?_, ?_⟩⟩
  · exact mem_granted.mpr ⟨hkey, hsome⟩
  · rw [mem_granted, hnone]
    simp

theorem earns_of_grants {actuals : List TypeExpr} {sig : Signature}
    (hrequest : b.Request g list actuals)
    (hsig : b.context.actualSignature? g actuals = some sig)
    (hnone : b.context.instance? (keyOf g actuals) = none)
    (h : Session.Grants ⟨b.context, events⟩ g list sig) :
    Session.Earns ⟨b.context, events⟩ b.involved (keyOf g actuals) := by
  obtain ⟨expr, depth, τ, hrun⟩ := h
  obtain ⟨name, hbound⟩ := hrequest.bound
  have hmake := (follows_instantiate (σ := ⟨b.context, events⟩) hpermits hbound hrequest.involved
    list expr b.over_base fun _ => hroom g hrequest.involved list expr).make_of_accepted hrun
  rw [plan_of_request hrequest hsig hnone] at hmake
  have hmem := (Requests.supported_of_granted hmake).2.1 (keyOf g actuals) ⟨0, List.mem_cons_self⟩
  exact ⟨g, name, hbound, hrequest.involved, depth, list, expr, sig, τ, hrun,
    (mem_granted.mp hmem).2⟩

theorem closed_of_leftOver
    (h : ∀ key, Session.LeftOver ⟨b.context, events⟩ σ' key →
      Session.Earns ⟨b.context, events⟩ b.involved key) :
    ∃ keys, Closed b.requestBodies (b.granted b.context) keys ∧
      b.granted σ'.context ⊆ b.granted b.context ∪ keys := by
  have hnew : ∀ key ∈ b.granted σ'.context \ b.granted b.context,
      ∃ keys, Closed b.requestBodies (b.granted b.context) keys ∧ key ∈ keys := by
    intro key hkey
    obtain ⟨hafter, hbefore⟩ := Finset.mem_sdiff.mp hkey
    obtain ⟨hlt, hsome⟩ := mem_granted.mp hafter
    have hnone : b.context.instance? key = none := by
      by_contra hne
      exact hbefore (mem_granted.mpr ⟨hlt, Option.isSome_iff_ne_none.mpr hne⟩)
    exact closed_of_earns hpermits hroom hlt hnone (h key ⟨hlt, hnone, hsome⟩)
  obtain ⟨keys, hclosed, hkeys⟩ := Requests.exists_closed hnew
  refine ⟨keys, hclosed, ?_⟩
  intro key hkey
  by_cases hbefore : key ∈ b.granted b.context
  · exact Finset.mem_union_left _ hbefore
  · exact Finset.mem_union_right _ (hkeys (Finset.mem_sdiff.mpr ⟨hkey, hbefore⟩))

end

end Base

/-- After an expression is rejected, every call that was accepted before is accepted with the same
type. If every instance left over is also recorded on the way to a signature granted before, then all
calls have the same verdict as before; and this condition is what it takes for all templates to get
the same signatures as before. All this as long as there are ids for the templates that are made. -/
theorem verdict_after_rejected {σ σ' : Session} (hσ : σ.context.Reachable)
    {involved : Template → Prop}
    (hbodies : ∀ g, involved g → ∀ names, Quiet σ.context involved (actualBody g names))
    {s : ScopeId} (hs : s.index < σ.context.scopes.size) {rejected call : Datum}
    (hrejected : Quiet σ.context involved rejected) (hcall : Quiet σ.context involved call)
    {callee : Callee} {args : List Datum} (hform : Form.classify call = .ok (.call callee args))
    {depth : Nat} {e : TypeError}
    (hrun : σ.run (checkExpr (bodyWithin depth) rejected s) = (.error (.rejected e), σ'))
    (hroom : σ.HasRoomFor involved s call) (hroom' : σ'.HasRoomFor involved s call) :
    (∀ t, σ.Accepts s call t → σ'.Accepts s call t) ∧
      ((∀ key, σ.LeftOver σ' key → σ.Earns involved key) →
        (∀ t, σ'.Accepts s call t ↔ σ.Accepts s call t) ∧ (σ'.Rejects s call ↔ σ.Rejects s call)) ∧
      ((∀ g name, σ.context.BindsTo name g → involved g →
          ∀ list sig, σ'.Grants g list sig ↔ σ.Grants g list sig) ↔
        ∀ key, σ.LeftOver σ' key → σ.Earns involved key) := by
  obtain ⟨made, hw⟩ := hσ.wellFormed
  let b : Base := ⟨σ.context, made, hw, hroom.call.le, involved, True⟩
  have hpermits (d : Datum) (hd : Quiet σ.context involved d) : b.Permits d :=
    ⟨hd, fun _ => trivial⟩
  have hpermitted : ∀ g, b.involved g → ∀ names, b.Permits (actualBody g names) :=
    fun g hg names => hpermits _ (hbodies g hg names)
  have hbefore : b.Over σ.context := b.over_base
  have hafter : b.Over σ'.context := Base.over_of_rejected (b := b) hpermitted hs
    (hpermits _ hrejected) hrun fun _ => hroom'.call.le
  have hsub : b.granted σ.context ⊆ b.granted σ'.context := Base.granted_subset hafter
  have hfollows := Base.follows_call (b := b) hpermitted hs hform (hpermits _ hcall) hbefore
    fun _ => hroom.call
  have hfollows' := Base.follows_call (b := b) hpermitted hs hform (hpermits _ hcall) hafter
    fun _ => hroom'.call
  refine ⟨fun t => hfollows.accepted_of_subset hfollows' hsub, ?_, ?_, ?_⟩
  · intro hearned
    obtain ⟨keys, hclosed, hsup⟩ :=
      Base.closed_of_leftOver (b := b) hpermitted hroom.instances hearned
    exact hfollows.verdicts_agree hfollows' hclosed hsub hsup
  · rintro hagree key ⟨hlt, hnone, hsome⟩
    obtain ⟨sig, hsig⟩ := Option.isSome_iff_exists.mp hsome
    rcases (hafter.recorded hsig).2 with h | h | ⟨g, list, actuals, hrequest, rfl, hactual⟩
    · cases hnone.symm.trans h
    · exact absurd hlt (Nat.not_lt.mpr h)
    · -- The instance left over answers a request at once.
      obtain ⟨name, hbound⟩ := hrequest.bound
      have hplan := Base.plan_of_request hrequest hactual hnone
      have hmem : Base.keyOf g actuals ∈ b.granted σ'.context := Base.mem_granted.mpr ⟨hlt, hsome⟩
      have hgrants : σ'.Grants g list sig := by
        refine ⟨call, (Base.follows_instantiate (b := b) hpermitted hbound hrequest.involved list
          call hafter fun _ => hroom'.instances g hrequest.involved list call).accepted_iff.mpr ?_⟩
        rw [hplan]
        exact ⟨rfl, 0, _, by rw [make, if_pos hmem, make]⟩
      exact Base.earns_of_grants (b := b) hpermitted hroom.instances hrequest hactual hnone
        ((hagree g name hbound hrequest.involved list sig).mp hgrants)
  · intro hearned g name hbound hinvolved list sig
    obtain ⟨keys, hclosed, hsup⟩ :=
      Base.closed_of_leftOver (b := b) hpermitted hroom.instances hearned
    refine exists_congr fun expr => ?_
    have hinstantiate := Base.follows_instantiate (b := b) hpermitted hbound hinvolved list expr
      hbefore fun _ => hroom.instances g hinvolved list expr
    have hinstantiate' := Base.follows_instantiate (b := b) hpermitted hbound hinvolved list expr
      hafter fun _ => hroom'.instances g hinvolved list expr
    exact (hinstantiate.verdicts_agree hinstantiate' hclosed hsub hsup).1 sig

def genericSource (name result : String) (body : Datum) : Datum :=
  .list [.symbol "def", .symbol name, .symbol "<T>", .list [.list [.symbol "x", .symbol "T"]],
    .symbol "->", .symbol result, body]

/-- The body of a template that calls `g` and does not have the type it should. -/
def wrongBody : Datum :=
  .list [.symbol "begin", .list [.symbol "g", .symbol "<T>", .symbol "x"], .boolean true]

def callingBody : Datum :=
  .list [.symbol "f", .symbol "<T>", .symbol "x"]

/-- Two templates that call each other, and one that stands on its own. -/
def withTemplates : Session :=
  ((Session.start {}).run (checkBlock (bodyWithin 1)
    [genericSource "f" "number" wrongBody, genericSource "g" "number" callingBody,
      genericSource "h" "T" (.symbol "x")] Arena.global)).2

def Context.Binds (c : Context) (g : Template) : Prop :=
  ∃ name, c.BindsTo name g

/-- An expression declares nothing, with the bodies of the templates that are bound. -/
abbrev Context.DeclaresNothing (c : Context) : Datum → Prop :=
  Quiet c c.Binds

theorem Context.allows_binds (c : Context) (name : String) : c.Allows c.Binds name :=
  fun _ h => ⟨name, h⟩

def isFromSource : Ty → Bool
  | .template ⟨_, _, ["T"], _, _, .list [.symbol "begin", .list [.symbol "g", .symbol "<T>",
      .symbol "x"], .boolean true], _⟩ => true
  | .template ⟨_, _, ["T"], _, _, .list [.symbol "f", .symbol "<T>", .symbol "x"], _⟩ => true
  | .template ⟨_, _, ["T"], _, _, .symbol "x", _⟩ => true
  | .template _ => false
  | _ => true

theorem body_of_isFromSource {g : Template} (h : isFromSource (.template g) = true) :
    g.typeParams = ["T"] ∧ (g.body = wrongBody ∨ g.body = callingBody ∨ g.body = .symbol "x") := by
  rw [isFromSource.eq_def] at h
  split at h
  · next heq =>
      cases heq
      exact ⟨rfl, .inl rfl⟩
  · next heq =>
      cases heq
      exact ⟨rfl, .inr (.inl rfl)⟩
  · next heq =>
      cases heq
      exact ⟨rfl, .inr (.inr rfl)⟩
  · cases h
  · next hother => exact absurd rfl (hother g)

theorem isFromSource_of_binds {g : Template} (h : withTemplates.context.Binds g) :
    isFromSource (.template g) = true := by
  obtain ⟨name, q, s, -, hbinding⟩ := h
  have hall : withTemplates.context.scopes.scopes.toList.all (fun scope =>
      scope.bindings.toList.all fun entry => isFromSource entry.2) = true := by
    decide +kernel
  obtain ⟨scope, hscope, hentry⟩ := Arena.exists_mem_of_binding? hbinding
  exact List.all_eq_true.mp (List.all_eq_true.mp hall scope hscope) _ hentry

def atString (name : String) (arg : Datum) : Datum :=
  .list [.symbol name, .symbol "<string>", arg]

namespace Session

variable {σ : Session} {d : Datum}

def after (σ : Session) (d : Datum) : Session :=
  (σ.run (checkExpr (bodyWithin 3) d Arena.global)).2

def rejects (σ : Session) (d : Datum) : Bool :=
  match (σ.run (checkExpr (bodyWithin 3) d Arena.global)).1 with
  | .error (.rejected _) => true
  | _ => false

def acceptsNumber (σ : Session) (d : Datum) : Bool :=
  match (σ.run (checkExpr (bodyWithin 3) d Arena.global)).1 with
  | .ok (.primitive .number) => true
  | _ => false

/-- The instance of a template at a written list of types is recorded on its own. -/
def earns (σ : Session) (name list : String) (key : InstanceKey) : Bool :=
  match σ.context.lookup? Arena.global name with
  | some (.template g) =>
      match σ.run (instantiate (bodyWithin 3) g list (.symbol name)) with
      | (.ok _, τ) => (τ.context.instance? key).isSome
      | _ => false
  | _ => false

theorem run_of_rejects (h : σ.rejects d = true) :
    ∃ e, σ.run (checkExpr (bodyWithin 3) d Arena.global) = (.error (.rejected e), σ.after d) := by
  rw [rejects] at h
  split at h
  · next e he => exact ⟨e, Prod.ext he rfl⟩
  · cases h

theorem accepts_of_acceptsNumber (h : σ.acceptsNumber d = true) :
    σ.Accepts Arena.global d .number := by
  rw [acceptsNumber] at h
  split at h
  · next ht => exact ⟨3, σ.after d, Prod.ext ht rfl⟩
  · cases h

theorem earns_of_instantiate {name list : String} {key : InstanceKey}
    (h : σ.earns name list key = true) : σ.Earns σ.context.Binds key := by
  rw [earns] at h
  split at h
  · next g hg =>
      split at h
      · next sig τ hrun =>
          obtain ⟨symbol, hsymbol, hg⟩ := Option.bind_eq_some_iff.mp hg
          obtain ⟨q, hq⟩ := Arena.exists_binding?_of_lookup? hg
          have hbound : σ.context.BindsTo name g :=
            ⟨q, symbol, Interner.get?_eq_some_iff.mp hsymbol, hq⟩
          exact ⟨g, name, hbound, ⟨name, hbound⟩, 3, list, _, sig, τ, hrun, h⟩
      · cases h
  · cases h

end Session

theorem reachable_withTemplates : withTemplates.context.Reachable :=
  .block (.new {}) 1 _ Nat.one_pos _

theorem global_lt_size : Arena.global.index < withTemplates.context.scopes.size := by
  decide +kernel

/-- Over these templates, of which none makes another. -/
noncomputable def templatesBase : Base where
  context := withTemplates.context
  made := reachable_withTemplates.wellFormed.choose
  wellFormed := reachable_withTemplates.wellFormed.choose_spec
  room := by decide +kernel
  involved := withTemplates.context.Binds
  makes := False

theorem permits_of_binds (g : Template) (h : withTemplates.context.Binds g) (names : List String) :
    templatesBase.Permits (actualBody g names) := by
  have hnames := withTemplates.context.allows_binds
  have hsame : ∀ name, "T" ≠ name → name.toList.contains '<' = false →
      Datum.specializeSymbol (fun n => lastPaired? n ["T"] names) name = name := by
    intro name hname hplain
    have hnone : lastPaired? name ["T"] names = none := by
      cases names <;> simp [lastPaired?, hname]
    rw [Datum.specializeSymbol, hnone, hplain]
    rfl
  obtain ⟨hparams, hbody | hbody | hbody⟩ := body_of_isFromSource (isFromSource_of_binds h)
  · rw [actualBody, hparams, hbody, wrongBody]
    simp only [Datum.specialize, Datum.specializeAll, hsame "begin" (by decide) (by decide),
      hsame "g" (by decide) (by decide)]
    refine .block (Base.Permits.pair ?_ (.boolean true))
    exact .apply rfl rfl rfl (hnames _) (Base.Permits.pair (.symbol (hnames _)) (.symbol (hnames _)))
  · rw [actualBody, hparams, hbody, callingBody]
    simp only [Datum.specialize, Datum.specializeAll, hsame "f" (by decide) (by decide)]
    exact .apply rfl rfl rfl (hnames _) (Base.Permits.pair (.symbol (hnames _)) (.symbol (hnames _)))
  · rw [actualBody, hparams, hbody]
    exact .symbol (hnames _)

theorem permits_atString {name : String} (hname : name ∈ ["f", "g", "h"]) {arg : Datum}
    (harg : templatesBase.Permits arg) : templatesBase.Permits (atString name arg) := by
  have hallows := withTemplates.context.allows_binds
  have hplain : Operator.ofText? name = none ∧ Keyword.ofText? name = none ∧
      Word.splitFused? name = none := by
    revert name
    decide
  exact .apply hplain.1 hplain.2.1 hplain.2.2 (hallows _)
    (Base.Permits.pair (.symbol (hallows _)) harg)

theorem over_after {d : Datum} (hd : templatesBase.Permits d)
    (hrejects : withTemplates.rejects d = true) :
    templatesBase.Over (withTemplates.after d).context := by
  obtain ⟨e, hrun⟩ := Session.run_of_rejects hrejects
  exact Base.over_of_rejected permits_of_binds global_lt_size hd hrun False.elim

theorem hasRoomFor_of_permits {σ : Session} (hσ : templatesBase.Over σ.context) {call : Datum}
    (hcall : templatesBase.Permits call) {callee : Callee} {args : List Datum}
    (hform : Form.classify call = .ok (.call callee args)) :
    σ.HasRoomFor withTemplates.context.Binds Arena.global call where
  call := (Base.follows_call permits_of_binds global_lt_size hform hcall hσ False.elim).hasRoom
  instances := by
    rintro g ⟨name, hbound⟩ list expr
    exact (Base.follows_instantiate (b := templatesBase) permits_of_binds hbound ⟨name, hbound⟩ list
      expr hσ False.elim).hasRoom

/-- The argument is no string, which shows only after the instance is recorded. -/
def wrongArgument : Datum :=
  atString "h" (.boolean true)

/-- The instance of `h` is left over, and would have been recorded anyway. -/
theorem verdict_after_wrongArgument :
    withTemplates.Rejects Arena.global wrongArgument ∧
      withTemplates.LeftOver (withTemplates.after wrongArgument) ⟨2, ["string"]⟩ ∧
      (∀ t, (withTemplates.after wrongArgument).Accepts Arena.global (atString "h" (.text "a")) t ↔
        withTemplates.Accepts Arena.global (atString "h" (.text "a")) t) ∧
      ((withTemplates.after wrongArgument).Rejects Arena.global (atString "h" (.text "a")) ↔
        withTemplates.Rejects Arena.global (atString "h" (.text "a"))) := by
  have hrejects : withTemplates.rejects wrongArgument = true := by decide +kernel
  obtain ⟨e, hrun⟩ := Session.run_of_rejects hrejects
  have hleft : withTemplates.LeftOver (withTemplates.after wrongArgument) ⟨2, ["string"]⟩ :=
    ⟨by decide +kernel, Option.isNone_iff_eq_none.mp (by decide +kernel), by decide +kernel⟩
  have hkeys : (withTemplates.after wrongArgument).context.instances.keys =
      [⟨2, ["string"]⟩] := by
    decide +kernel
  have hearns : withTemplates.earns "h" "<string>" ⟨2, ["string"]⟩ = true := by decide +kernel
  have hall : ∀ key, withTemplates.LeftOver (withTemplates.after wrongArgument) key →
      withTemplates.Earns withTemplates.context.Binds key := by
    rintro key ⟨-, -, hsome⟩
    have hmem : key ∈ (withTemplates.after wrongArgument).context.instances.keys :=
      Std.TreeMap.mem_keys.mpr (Std.TreeMap.mem_iff_isSome_getElem?.mpr hsome)
    rw [hkeys, List.mem_singleton] at hmem
    exact hmem ▸ Session.earns_of_instantiate hearns
  have hwrong : templatesBase.Permits wrongArgument := permits_atString (by decide) (.boolean true)
  have hcall : templatesBase.Permits (atString "h" (.text "a")) :=
    permits_atString (by decide) (.text "a")
  have hverdict := verdict_after_rejected reachable_withTemplates
    (fun g hg names => (permits_of_binds g hg names).quiet) global_lt_size hwrong.quiet hcall.quiet
    rfl hrun (hasRoomFor_of_permits templatesBase.over_base hcall rfl)
    (hasRoomFor_of_permits (over_after hwrong hrejects) hcall rfl)
  exact ⟨⟨3, e, _, hrun⟩, hleft, hverdict.2.1 hall⟩

/-- The instance of `f` is withdrawn with its call, but that of `g`, which relied on it, stays. -/
theorem verdict_changed_by_rejected :
    withTemplates.context.Reachable ∧
      (∀ g, withTemplates.context.Binds g → ∀ names,
        withTemplates.context.DeclaresNothing (actualBody g names)) ∧
      withTemplates.context.DeclaresNothing (atString "f" (.text "a")) ∧
      withTemplates.context.DeclaresNothing (atString "g" (.text "a")) ∧
      withTemplates.Rejects Arena.global (atString "f" (.text "a")) ∧
      withTemplates.Rejects Arena.global (atString "g" (.text "a")) ∧
      (withTemplates.after (atString "f" (.text "a"))).Accepts Arena.global
        (atString "g" (.text "a")) .number ∧
      ¬(withTemplates.after (atString "f" (.text "a"))).Rejects Arena.global
        (atString "g" (.text "a")) := by
  have hrejects : withTemplates.rejects (atString "f" (.text "a")) = true := by decide +kernel
  obtain ⟨e, hrun⟩ := Session.run_of_rejects hrejects
  have hrejectsLater : withTemplates.rejects (atString "g" (.text "a")) = true := by
    decide +kernel
  obtain ⟨e', hrun'⟩ := Session.run_of_rejects hrejectsLater
  have haccepts := Session.accepts_of_acceptsNumber
    (show (withTemplates.after (atString "f" (.text "a"))).acceptsNumber
      (atString "g" (.text "a")) = true by decide +kernel)
  have hcall : templatesBase.Permits (atString "f" (.text "a")) :=
    permits_atString (by decide) (.text "a")
  have hlater : templatesBase.Permits (atString "g" (.text "a")) :=
    permits_atString (by decide) (.text "a")
  have hfollows := Base.follows_call permits_of_binds global_lt_size rfl hlater
    (over_after hcall hrejects) False.elim
  exact ⟨reachable_withTemplates, fun g hg names => (permits_of_binds g hg names).quiet, hcall.quiet,
    hlater.quiet, ⟨3, e, _, hrun⟩, ⟨3, e', _, hrun'⟩, haccepts, hfollows.not_rejected haccepts⟩

end TypedLisp
