import TypedLisp.Proofs.Stepwise

namespace TypedLisp

open CheckM

/-- All instances recorded in a session are recorded in another. -/
def Session.Keeps (σ τ : Session) : Prop :=
  ∀ key sig, σ.context.instance? key = some sig → τ.context.instance? key = some sig

namespace Session.Keeps

variable {σ τ υ : Session}

theorem refl (σ : Session) : σ.Keeps σ :=
  fun _ _ h => h

theorem trans (hστ : σ.Keeps τ) (hτυ : τ.Keeps υ) : σ.Keeps υ :=
  fun key sig h => hτυ key sig (hστ key sig h)

theorem of_retains {makes : Prop} (h : σ.context.Retains makes τ.context) : σ.Keeps τ := by
  intro key sig hkey
  rw [Context.instance?, h.instances]
  exact hkey

theorem forget (h : σ.Keeps τ) {key : InstanceKey} (hkey : σ.context.instance? key = none) :
    σ.Keeps { τ with context := τ.context.forget key } := by
  intro other sig hother
  have hne : key ≠ other := by
    rintro rfl
    cases hother.symm.trans hkey
  rw [Context.instance?_forget, if_neg hne]
  exact h other sig hother

end Session.Keeps

/-- The checks of bodies keep what is recorded, however they end. -/
def KeepsAll (inBody : BodyChecker) : Prop :=
  ∀ {d s} {σ σ' : Session} {outcome}, σ.run (inBody d s) = (outcome, σ') → σ.Keeps σ'

/-- A request for an instance of a template, once the types it is made at are resolved. -/
structure InstanceRequest where
  template : Template
  actuals : List TypeExpr
  key : InstanceKey
  expr : Datum

namespace InstanceRequest

variable (r : InstanceRequest) {τ : Session}

def instantiate (inBody : BodyChecker) : CheckM Signature :=
  instantiateAt inBody r.template r.actuals r.key r.expr

/-- A request is answered by a check of a body that starts in a session: if that is stopped, so is
the request, for the same cause. -/
def Checks (τ : Session) (body : Datum) (scope : ScopeId) (σ : Session) : Prop :=
  ∀ (inBody : BodyChecker) halt σ', σ.run (inBody body scope) = (.error halt, σ') →
    ∃ σ'', τ.run (r.instantiate inBody) = (.error halt, σ'')

/-- What comes of a request that is answered by a check of a body. -/
structure Opens (τ : Session) (sig : Signature) (body : Datum) (scope : ScopeId) (σ : Session) :
    Prop where
  fresh : τ.context.instance? r.key = none
  instances : σ.context.instances = τ.context.instances.insert r.key sig
  nextTemplate : σ.context.nextTemplate = τ.context.nextTemplate
  stopped : ∀ {inBody : BodyChecker} {halt σ'}, σ.run (inBody body scope) = (.error halt, σ') →
    τ.run (r.instantiate inBody) = (.error halt, { σ' with context := σ'.context.forget r.key })
  typed : ∀ t σ', ∃ result, (result = (.ok sig, σ') ∨ ∃ e, result =
      (.error (.rejected e), { σ' with context := σ'.context.forget r.key })) ∧
    ∀ inBody : BodyChecker, σ.run (inBody body scope) = (.ok t, σ') →
      τ.run (r.instantiate inBody) = result

theorem run_instantiate_of_recorded {sig : Signature}
    (h : τ.context.instance? r.key = some sig) (inBody : BodyChecker) :
    τ.run (r.instantiate inBody) = (.ok sig, τ) := by
  rw [instantiate, instantiateAt, Session.run_bind_of_ok _ (Session.run_context τ), h]
  rfl

theorem run_instantiate_of_fresh (h : τ.context.instance? r.key = none) (inBody : BodyChecker) :
    τ.run (r.instantiate inBody) = τ.run (do
      let sig ← actualSignature r.template r.actuals r.expr
      emit (.instantiated r.template sig)
      provisionally r.key sig (checkFunctionBody inBody r.template.closure
        ((r.template.params.map Prod.fst).zip sig.params) (actualBody r.template r.key.actuals)
        sig.result r.expr)) := by
  rw [instantiate, instantiateAt, Session.run_bind_of_ok _ (Session.run_context τ), h]

theorem exists_opens {τ' : Session} {sig : Signature} (h : τ.context.instance? r.key = none)
    (hretains : τ.context.Retains False τ'.context)
    (hsig : τ.run (actualSignature r.template r.actuals r.expr) = (.ok sig, τ')) :
    ∃ body scope σ, r.Opens τ sig body scope σ := by
  let body := actualBody r.template r.key.actuals
  let bindings := (r.template.params.map Prod.fst).zip sig.params
  let reported : Session := { τ' with events := τ'.events.push (.instantiated r.template sig) }
  let recorded : Session := { reported with context := reported.context.record r.key sig }
  obtain ⟨scope, σ, hopened⟩ : ∃ scope σ,
      recorded.run (openFunction r.template.closure bindings) = (.ok scope, σ) := ⟨_, _, rfl⟩
  have hlocal : Local False (openFunction r.template.closure bindings) := .openFunction _ _
  obtain ⟨_, _, -, hkept, hopened'⟩ := hlocal.run recorded
  cases hopened.symm.trans hopened'
  let check (inBody : BodyChecker) : CheckM Unit :=
    checkFunctionBody inBody r.template.closure bindings body sig.result r.expr
  have hrequest (inBody : BodyChecker) : τ.run (r.instantiate inBody) =
      reported.run (provisionally r.key sig (check inBody)) := by
    rw [run_instantiate_of_fresh r h, Session.run_bind_of_ok _ hsig,
      Session.run_bind_of_ok _ (Session.run_emit τ' _)]
  have hcheck (inBody : BodyChecker) : recorded.run (check inBody) =
      σ.run (inBody body scope >>= fun t => expect t sig.result body r.expr) :=
    Session.run_bind_of_ok _ hopened
  refine ⟨body, scope, σ, h, ?_, ?_, fun {inBody} _ _ hstopped => ?_, fun t σ' => ?_⟩
  · rw [hkept.instances]
    exact congrArg (·.insert r.key sig) hretains.instances
  · have hfirst := hkept.nextTemplate.resolve_left And.left
    exact hfirst.trans (hretains.nextTemplate.resolve_left And.left)
  · refine (hrequest inBody).trans (run_provisionally_of_error ?_)
    exact (hcheck inBody).trans (Session.run_bind_of_error _ hstopped)
  · by_cases hfits : t.equals sig.result = true
    · refine ⟨_, .inl rfl, fun inBody htyped => ?_⟩
      refine (hrequest inBody).trans (run_provisionally_of_ok ((hcheck inBody).trans ?_))
      rw [Session.run_bind_of_ok _ htyped, expect, if_pos hfits, Session.run_pure]
    · refine ⟨_, .inr ⟨.typeMismatch sig.result.name t.name body r.expr, rfl⟩,
        fun inBody htyped => ?_⟩
      refine (hrequest inBody).trans (run_provisionally_of_error ((hcheck inBody).trans ?_))
      rw [Session.run_bind_of_ok _ htyped, expect, if_neg hfits, Session.run_reject]

theorem answered (τ : Session) :
    (∃ outcome τ', outcome ≠ .error .tooDeep ∧ τ.context.Retains False τ'.context ∧
      ∀ inBody, τ.run (r.instantiate inBody) = (outcome, τ')) ∨
    ∃ sig body scope σ, r.Opens τ sig body scope σ := by
  cases hkey : τ.context.instance? r.key with
  | some sig =>
      exact .inl ⟨.ok sig, τ, by simp, .refl _ _, run_instantiate_of_recorded r hkey⟩
  | none =>
      have hlocal : Local False (actualSignature r.template r.actuals r.expr) :=
        .actualSignature _ _ _
      obtain ⟨outcome, τ', hdeep, hretains, hsig⟩ := hlocal.run τ
      cases outcome with
      | error halt =>
          refine .inl ⟨.error halt, τ', by simpa using hdeep, hretains, fun inBody => ?_⟩
          rw [run_instantiate_of_fresh r hkey, Session.run_bind_of_error _ hsig]
      | ok sig => exact .inr ⟨sig, exists_opens r hkey hretains hsig⟩

variable {r}

namespace Opens

variable {sig : Signature} {body : Datum} {scope : ScopeId} {σ : Session}

theorem checks (h : r.Opens τ sig body scope σ) : r.Checks τ body scope σ :=
  fun _ _ _ hstopped => ⟨_, h.stopped hstopped⟩

/-- The request ends as the check of the body does, or is rejected if the body has another type than
the signature says. -/
theorem run_cases (h : r.Opens τ sig body scope σ) (inBody : BodyChecker) :
    ∃ σ', (∃ halt, σ.run (inBody body scope) = (.error halt, σ') ∧ τ.run (r.instantiate inBody) =
        (.error halt, { σ' with context := σ'.context.forget r.key })) ∨
      ∃ t, σ.run (inBody body scope) = (.ok t, σ') ∧
        (τ.run (r.instantiate inBody) = (.ok sig, σ') ∨ ∃ e, τ.run (r.instantiate inBody) =
          (.error (.rejected e), { σ' with context := σ'.context.forget r.key })) := by
  obtain ⟨checked, σ', hchecked⟩ : ∃ checked σ', σ.run (inBody body scope) = (checked, σ') :=
    ⟨_, _, rfl⟩
  refine ⟨σ', ?_⟩
  cases checked with
  | error halt => exact .inl ⟨halt, hchecked, h.stopped hchecked⟩
  | ok t =>
      obtain ⟨result, hresult, htyped⟩ := h.typed t σ'
      refine .inr ⟨t, hchecked, ?_⟩
      rw [htyped inBody hchecked]
      exact hresult

theorem recorded (h : r.Opens τ sig body scope σ) : σ.context.instance? r.key = some sig := by
  rw [Context.instance?, h.instances]
  exact Std.TreeMap.getElem?_insert_self

theorem keeps (h : r.Opens τ sig body scope σ) : τ.Keeps σ := by
  intro key other hkey
  have hne : r.key ≠ key := by
    rintro rfl
    cases hkey.symm.trans h.fresh
  rw [Context.instance?, h.instances]
  exact (Context.instance?_record τ.context r.key key sig).trans ((if_neg hne).trans hkey)

end Opens

open Classical in
theorem Checks.opens {body : Datum} {scope : ScopeId} {σ : Session}
    (h : r.Checks τ body scope σ) : ∃ sig, r.Opens τ sig body scope σ := by
  -- By a checker that only this check stops for depth; for another cause, all others do.
  let e : TypeError := .unknownType "" r.expr
  let only : BodyChecker := fun d s τ' =>
    if (d, s, τ') = (body, scope, σ) then (.error .tooDeep, τ') else (.error (.rejected e), τ')
  obtain ⟨_, honly⟩ := h only .tooDeep σ (if_pos rfl)
  obtain ⟨outcome, τ', -, -, hrun⟩ | ⟨sig, body', scope', σ', hopens⟩ := r.answered τ
  · obtain ⟨_, hother⟩ := h (fun _ _ => reject e) (.rejected e) σ rfl
    cases (hrun only).symm.trans honly
    cases (hrun _).symm.trans hother
  · by_cases heq : (body', scope', σ') = (body, scope, σ)
    · cases heq
      exact ⟨sig, hopens⟩
    · have hother : σ'.run (only body' scope') = (.error (.rejected e), σ') := if_neg heq
      cases (hopens.stopped hother).symm.trans honly

theorem keeps {inBody : BodyChecker} (hbody : KeepsAll inBody) {τ' : Session}
    {outcome : Except Halt Signature} (h : τ.run (r.instantiate inBody) = (outcome, τ')) :
    τ.Keeps τ' := by
  obtain ⟨_, _, -, hretains, hrun⟩ | ⟨sig, body, scope, σ, hopens⟩ := r.answered τ
  · cases (hrun inBody).symm.trans h
    exact .of_retains hretains
  · obtain ⟨σ', ⟨halt, hchecked, hrun⟩ | ⟨t, hchecked, hrun⟩⟩ := hopens.run_cases inBody
    · cases hrun.symm.trans h
      exact (hopens.keeps.trans (hbody hchecked)).forget hopens.fresh
    · rcases hrun with hrun | ⟨e, hrun⟩
      · cases hrun.symm.trans h
        exact hopens.keeps.trans (hbody hchecked)
      · cases hrun.symm.trans h
        exact (hopens.keeps.trans (hbody hchecked)).forget hopens.fresh

end InstanceRequest

/-- A check keeps what is recorded if the checks of bodies do, however it ends. -/
theorem Stepwise.keeps {makes : Prop} {α : Type} {m : BodyChecker → CheckM α}
    (hm : Stepwise makes m) {inBody : BodyChecker} (hbody : KeepsAll inBody) {σ σ' : Session}
    {outcome : Except Halt α} (h : σ.run (m inBody) = (outcome, σ')) : σ.Keeps σ' := by
  induction hm generalizing σ σ' with
  | rule hm =>
      obtain ⟨_, _, -, hretains, hrun⟩ := hm.run σ
      cases hrun.symm.trans h
      exact .of_retains hretains
  | @bind _ _ m f _ _ ihm ihf =>
      obtain ⟨first, σ₁, hfirst⟩ : ∃ first σ₁, σ.run (m inBody) = (first, σ₁) := ⟨_, _, rfl⟩
      cases first with
      | error halt =>
          cases (Session.run_bind_of_error _ hfirst).symm.trans h
          exact ihm hfirst
      | ok a => exact (ihm hfirst).trans (ihf a ((Session.run_bind_of_ok _ hfirst).symm.trans h))
  | instantiateAt g actuals key expr =>
      exact InstanceRequest.keeps (r := ⟨g, actuals, key, expr⟩) hbody h

theorem stepwise_checkBody (d : Datum) (s : ScopeId) :
    Stepwise True fun inBody => checkBody inBody d s :=
  .checkBody d (fun _ => trivial) s

theorem keepsAll_bodyWithin (depth : Nat) : KeepsAll (bodyWithin depth) := by
  induction depth with
  | zero =>
      intro d s σ σ' outcome h
      cases h
      exact .refl σ
  | succ depth ih => exact fun {d s} _ _ _ h => (stepwise_checkBody d s).keeps ih h

/-- Run from `σ`, with bodies checked by `inBody`, a check comes to a request in the session `τ`. -/
inductive Reaches (inBody : BodyChecker) (r : InstanceRequest) (τ : Session) :
    {α : Type} → Session → (BodyChecker → CheckM α) → Prop where
  | here : Reaches inBody r τ τ r.instantiate
  | first {α β : Type} {σ : Session} {m : BodyChecker → CheckM α} {f : α → BodyChecker → CheckM β}
      (h : Reaches inBody r τ σ m) (hf : ∀ a, Stepwise True (f a)) :
      Reaches inBody r τ σ fun inBody => m inBody >>= fun a => f a inBody
  | next {α β : Type} {σ σ' : Session} {m : BodyChecker → CheckM α}
      {f : α → BodyChecker → CheckM β} {a : α} (hm : Stepwise True m)
      (hrun : σ.run (m inBody) = (.ok a, σ')) (h : Reaches inBody r τ σ' (f a)) :
      Reaches inBody r τ σ fun inBody => m inBody >>= fun a => f a inBody

theorem Reaches.keeps {inBody : BodyChecker} (hbody : KeepsAll inBody)
    {r : InstanceRequest} {σ τ : Session} {α : Type} {m : BodyChecker → CheckM α}
    (h : Reaches inBody r τ σ m) : σ.Keeps τ := by
  induction h with
  | here => exact .refl τ
  | first _ _ ih => exact ih
  | next hm hrun _ ih => exact (hm.keeps hbody hrun).trans ih

theorem Reaches.run_instantiate {depth : Nat} {r : InstanceRequest} {σ τ : Session} {α : Type}
    {m : BodyChecker → CheckM α} (h : Reaches (bodyWithin depth) r τ σ m) {sig : Signature}
    (hsig : σ.context.instance? r.key = some sig) (inBody : BodyChecker) :
    τ.run (r.instantiate inBody) = (.ok sig, τ) :=
  r.run_instantiate_of_recorded (h.keeps (keepsAll_bodyWithin depth) _ _ hsig) inBody

/-- A check under way, and the session that it started in. -/
structure Ongoing where
  session : Session
  check : BodyChecker → CheckM Ty

/-- In the course of a check, bodies of instances are being checked one inside the other: the keys
of the instances, from the innermost on, and the check of the innermost body. -/
inductive Nested (start : Ongoing) : List InstanceKey → Ongoing → Prop where
  | start : Nested start [] start
  | inside {keys : List InstanceKey} {q : Ongoing} {depth : Nat} {r : InstanceRequest}
      {σ τ : Session} {body : Datum} {scope : ScopeId} (h : Nested start keys q)
      (hr : Reaches (bodyWithin depth) r τ q.session q.check) (hbody : r.Checks τ body scope σ) :
      Nested start (r.key :: keys) ⟨σ, fun inBody => checkBody inBody body scope⟩

namespace Nested

variable {start q : Ongoing} {keys : List InstanceKey}

theorem stepwise (h : Nested start keys q) (hstart : Stepwise True start.check) :
    Stepwise True q.check := by
  cases h with
  | start => exact hstart
  | inside _ _ _ => exact stepwise_checkBody _ _

theorem recorded (h : Nested start keys q) {key : InstanceKey} (hkey : key ∈ keys) :
    ∃ sig, q.session.context.instance? key = some sig := by
  induction h with
  | start => cases hkey
  | inside _ hr hbody ih =>
      obtain ⟨sig, hopens⟩ := hbody.opens
      rcases List.mem_cons.mp hkey with rfl | hkey
      · exact ⟨sig, hopens.recorded⟩
      · obtain ⟨sig', hsig'⟩ := ih hkey
        exact ⟨sig', hopens.keeps _ _ (hr.keeps (keepsAll_bodyWithin _) _ _ hsig')⟩

/-- No body is being checked inside itself. -/
theorem nodup (h : Nested start keys q) : keys.Nodup := by
  induction h with
  | start => exact List.nodup_nil
  | inside h hr hbody ih =>
      refine List.nodup_cons.mpr ⟨fun hkey => ?_, ih⟩
      obtain ⟨sig, hsig⟩ := h.recorded hkey
      obtain ⟨_, hopens⟩ := hbody.opens
      cases (hr.keeps (keepsAll_bodyWithin _) _ _ hsig).symm.trans hopens.fresh

end Nested

end TypedLisp
