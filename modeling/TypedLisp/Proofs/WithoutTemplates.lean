import TypedLisp.Proofs.Frame
import TypedLisp.Proofs.Nesting
import TypedLisp.Proofs.Unions

namespace TypedLisp

open CheckM World

/-- No name is bound to a template. -/
def Context.HoldsNoTemplate (c : Context) : Prop :=
  ∀ q s g, c.scopes.binding? q s ≠ some (.template g)

theorem Context.Reachable.holdsNoTemplate {c : Context} (hc : c.Reachable)
    (hnone : c.nextTemplate = 0) : c.HoldsNoTemplate := by
  intro q s g h
  obtain ⟨made, hw⟩ := hc.wellFormed
  exact Nat.not_lt_zero g.serial (hnone ▸ hw.numbered (hw.bound h).2.mem_made)

/-- Where no name is bound to a template, those that were made can be left out of account. -/
theorem World.WellFormed.without_templates {w : World} (hw : w.WellFormed)
    (hnone : w.context.HoldsNoTemplate) : WellFormed ⟨w.context, []⟩ where
  indexed := hw.indexed
  bound h := by
    refine ⟨(hw.bound h).1, ?_⟩
    rcases (hw.bound h).2 with hwritten | ⟨g, -, rfl⟩
    · exact .inl hwritten
    · exact absurd h (hnone _ _ g)
  parents h := hw.parents h
  outers h := hw.outers h
  registered h := hw.registered h
  recorded h := hw.recorded h
  numbered h := by cases h
  unique h := by cases h
  made h := by cases h

section Steps

variable {may : ScopeId → String → Prop} {w v : World} {key : InstanceKey} {sig : Signature}

theorem World.Step.count (h : Step may w v) :
    v.context.nextTemplate + w.made.length = w.context.nextTemplate + v.made.length := by
  cases h with
  | name _ hagrees => rw [hagrees.nextTemplate]
  | make => exact Nat.add_right_comm ..
  | bind | openScope | enter | record => rfl

theorem World.Steps.count (h : Steps may w v) :
    v.context.nextTemplate + w.made.length = w.context.nextTemplate + v.made.length := by
  induction h with
  | refl => rfl
  | tail _ hstep ih =>
      have := hstep.count
      omega
  | drop _ _ ih => exact ih

theorem World.Step.made_eq_nil (h : Step may w v) (hmade : v.made = []) : w.made = [] := by
  refine List.eq_nil_iff_forall_not_mem.mpr fun g hg => ?_
  have := h.later.made g hg
  simp [hmade] at this

theorem World.Steps.instance?_of_made_nil (h : Steps may w v) (hmade : v.made = [])
    (hsig : v.context.instance? key = some sig) : w.context.instance? key = some sig := by
  induction h with
  | refl => exact hsig
  | tail _ hstep ih =>
      refine ih (hstep.made_eq_nil hmade) ?_
      cases hstep with
      | name _ hagrees => rwa [Context.instance?, hagrees.instances] at hsig
      | record hg =>
          rw [hmade] at hg
          cases hg
      | bind | openScope | enter | make => exact hsig
  | drop _ _ ih =>
      rw [Context.instance?_forget] at hsig
      split at hsig
      · cases hsig
      · exact ih hmade hsig

end Steps

section Accepting

variable {key : InstanceKey} {σ σ' : Session} {sig : Signature}

/-- A checker of bodies that takes each for what the signature of a given instance says, if this is
recorded. So the instance stays recorded once a check comes to it. -/
def accepting (key : InstanceKey) : BodyChecker := fun _ _ => do
  match (← context).instance? key with
  | some sig => return sig.result
  | none => throw .tooDeep

theorem run_accepting_of_recorded (h : σ.context.instance? key = some sig) (d : Datum)
    (s : ScopeId) : σ.run (accepting key d s) = (.ok sig.result, σ) := by
  rw [accepting, Session.run_bind_of_ok _ (Session.run_context σ), h]
  rfl

theorem eq_of_run_accepting {d : Datum} {s : ScopeId} {outcome : Except Halt Ty}
    (h : σ.run (accepting key d s) = (outcome, σ')) : σ' = σ := by
  rw [accepting, Session.run_bind_of_ok _ (Session.run_context σ)] at h
  split at h
  · exact (Prod.mk.inj h).2.symm
  · exact (Prod.mk.inj h).2.symm

theorem keepsAll_accepting (key : InstanceKey) : KeepsAll (accepting key) := by
  intro d s σ σ' outcome h
  rw [eq_of_run_accepting h]
  exact .refl σ

theorem bodiesEvolve_accepting (key : InstanceKey) :
    BodiesEvolve (fun _ _ => True) (accepting key) := by
  intro d w s _ _ _
  refine Evolves.wellFormed fun hw => Evolves.context_bind ?_
  split
  · next hsig => exact Evolves.pure (.inl (hw.recorded hsig).2.result)
  · exact Evolves.throw _

end Accepting

namespace InstanceRequest

variable (r : InstanceRequest) {τ τ' : Session}

theorem run_instantiate_accepting {sig : Signature} (hkey : τ.context.instance? r.key = none)
    (hsig : τ.run (actualSignature r.template r.actuals r.expr) = (.ok sig, τ')) :
    ∃ σ, τ.run (r.instantiate (accepting r.key)) = (.ok sig, σ) ∧
      σ.context.instance? r.key = some sig := by
  let bindings := (r.template.params.map Prod.fst).zip sig.params
  let recorded : Session := ⟨τ'.context.record r.key sig,
    τ'.events.push (.instantiated r.template sig)⟩
  obtain ⟨scope, σ, hopened⟩ : ∃ scope σ,
      recorded.run (openFunction r.template.closure bindings) = (.ok scope, σ) := ⟨_, _, rfl⟩
  have hlocal : Local False (openFunction r.template.closure bindings) := .openFunction _ _
  obtain ⟨_, _, -, hretains, hopened'⟩ := hlocal.run recorded
  cases hopened.symm.trans hopened'
  have hkept : σ.context.instance? r.key = some sig := by
    rw [Context.instance?, hretains.instances]
    exact Std.TreeMap.getElem?_insert_self
  refine ⟨σ, ?_, hkept⟩
  rw [run_instantiate_of_fresh r hkey, Session.run_bind_of_ok _ hsig,
    Session.run_bind_of_ok _ (Session.run_emit τ' _)]
  refine run_provisionally_of_ok ((Session.run_bind_of_ok _ hopened).trans ?_)
  rw [Session.run_bind_of_ok _ (run_accepting_of_recorded hkept _ scope), expect,
    if_pos (Ty.equals_self sig.result), Session.run_pure]

theorem answered_or_recorded (τ : Session) :
    (∃ outcome τ', outcome ≠ .error .tooDeep ∧ ∀ inBody,
      τ.run (r.instantiate inBody) = (outcome, τ')) ∨
    τ.context.instance? r.key = none ∧ ∃ sig τ',
      τ.run (r.instantiate (accepting r.key)) = (.ok sig, τ') ∧
        τ'.context.instance? r.key = some sig := by
  cases hkey : τ.context.instance? r.key with
  | some sig => exact .inl ⟨.ok sig, τ, by simp, run_instantiate_of_recorded r hkey⟩
  | none =>
      have hlocal : Local False (actualSignature r.template r.actuals r.expr) :=
        .actualSignature _ _ _
      obtain ⟨outcome, τ', hdeep, -, hsig⟩ := hlocal.run τ
      cases outcome with
      | error halt =>
          refine .inl ⟨.error halt, τ', by simpa using hdeep, fun inBody => ?_⟩
          rw [run_instantiate_of_fresh r hkey, Session.run_bind_of_error _ hsig]
      | ok sig => exact .inr ⟨rfl, sig, r.run_instantiate_accepting hkey hsig⟩

end InstanceRequest

namespace Stepwise

variable {α : Type} {m : BodyChecker → CheckM α} {σ σ' : Session} {key : InstanceKey}

theorem nextTemplate_of_accepting (hm : Stepwise False m) {outcome : Except Halt α}
    (h : σ.run (m (accepting key)) = (outcome, σ')) :
    σ'.context.nextTemplate = σ.context.nextTemplate := by
  induction hm generalizing σ σ' with
  | rule hm =>
      obtain ⟨_, _, -, hretains, hrun⟩ := hm.run σ
      cases hrun.symm.trans h
      exact hretains.nextTemplate.resolve_left And.left
  | @bind _ _ m f _ _ ihm ihf =>
      obtain ⟨first, σ₁, hfirst⟩ : ∃ first σ₁, σ.run (m (accepting key)) = (first, σ₁) :=
        ⟨_, _, rfl⟩
      cases first with
      | error halt =>
          cases (Session.run_bind_of_error _ hfirst).symm.trans h
          exact ihm hfirst
      | ok a => exact (ihf a ((Session.run_bind_of_ok _ hfirst).symm.trans h)).trans (ihm hfirst)
  | instantiateAt g actuals other expr =>
      let r : InstanceRequest := ⟨g, actuals, other, expr⟩
      obtain ⟨_, _, -, hretains, hrun⟩ | ⟨sig, body, scope, τ, hopens⟩ := r.answered σ
      · cases (hrun (accepting key)).symm.trans h
        exact hretains.nextTemplate.resolve_left And.left
      · obtain ⟨τ', ⟨halt, hchecked, hrun⟩ | ⟨t, hchecked, hrun | ⟨e, hrun⟩⟩⟩ :=
          hopens.run_cases (accepting key)
        all_goals
          cases hrun.symm.trans h
          rw [eq_of_run_accepting hchecked]
          exact hopens.nextTemplate

theorem settled_or_recorded (hm : Stepwise False m) (σ : Session) :
    (∃ outcome σ', outcome ≠ .error .tooDeep ∧ ∀ inBody, σ.run (m inBody) = (outcome, σ')) ∨
    ∃ key, σ.context.instance? key = none ∧ ∀ {outcome σ'},
      σ.run (m (accepting key)) = (outcome, σ') → σ'.context.instance? key ≠ none := by
  induction hm generalizing σ with
  | rule hm =>
      obtain ⟨outcome, σ', hdeep, -, hrun⟩ := hm.run σ
      exact .inl ⟨outcome, σ', hdeep, fun _ => hrun⟩
  | @bind _ _ m f hm hf ihm ihf =>
      obtain ⟨outcome, σ₁, hdeep, hfirst⟩ | ⟨key, hnone, hrecorded⟩ := ihm σ
      · cases outcome with
        | error halt =>
            exact .inl ⟨.error halt, σ₁, by simpa using hdeep, fun inBody =>
              Session.run_bind_of_error _ (hfirst inBody)⟩
        | ok a =>
            obtain ⟨outcome, σ₂, hdeep, hnext⟩ | ⟨key, hnone, hrecorded⟩ := ihf a σ₁
            · exact .inl ⟨outcome, σ₂, hdeep, fun inBody =>
                (Session.run_bind_of_ok _ (hfirst inBody)).trans (hnext inBody)⟩
            · refine .inr ⟨key, ?_, fun hrun => ?_⟩
              · have hkept := hm.keeps (keepsAll_accepting key) (hfirst (accepting key)) key
                refine Option.eq_none_iff_forall_ne_some.mpr fun sig hsig => ?_
                cases hnone.symm.trans (hkept sig hsig)
              · exact hrecorded ((Session.run_bind_of_ok _ (hfirst _)).symm.trans hrun)
      · refine .inr ⟨key, hnone, fun {outcome σ'} hrun => ?_⟩
        -- What the first step records is still recorded after the second.
        obtain ⟨first, σ₁, hfirst⟩ : ∃ first σ₁, σ.run (m (accepting key)) = (first, σ₁) :=
          ⟨_, _, rfl⟩
        cases first with
        | error halt =>
            cases (Session.run_bind_of_error _ hfirst).symm.trans hrun
            exact hrecorded hfirst
        | ok a =>
            obtain ⟨sig, hsig⟩ := Option.ne_none_iff_exists'.mp (hrecorded hfirst)
            have hkept := (hf a).keeps (keepsAll_accepting key)
              ((Session.run_bind_of_ok _ hfirst).symm.trans hrun) key sig hsig
            exact Option.ne_none_iff_exists'.mpr ⟨sig, hkept⟩
  | instantiateAt g actuals key expr =>
      let r : InstanceRequest := ⟨g, actuals, key, expr⟩
      obtain hanswered | ⟨hnone, sig, τ, hrun, hrecorded⟩ := r.answered_or_recorded σ
      · exact .inl hanswered
      · refine .inr ⟨key, hnone, fun hrun' => ?_⟩
        cases hrun.symm.trans hrun'
        exact Option.ne_none_iff_exists'.mpr ⟨sig, hrecorded⟩

/-- In a world without templates a check that makes none goes one way however bodies are checked. If
it came to a body, then with that body accepted an instance would be new, though no template is. -/
theorem settled (hm : Stepwise False m) (hw : WellFormed ⟨σ.context, []⟩)
    {post : α → World → Prop}
    (hevolves : ∀ {inBody}, BodiesEvolve (fun _ _ => True) inBody →
      Evolves (fun _ _ => True) ⟨σ.context, []⟩ (m inBody) post) :
    ∃ outcome σ', outcome ≠ .error .tooDeep ∧ ∀ inBody, σ.run (m inBody) = (outcome, σ') := by
  refine (hm.settled_or_recorded σ).resolve_right ?_
  rintro ⟨key, hnone, hrecorded⟩
  obtain ⟨_, v, _, hrun, hsteps, -⟩ := hevolves (bodiesEvolve_accepting key) hw σ.events
  have hmade : v.made = [] := by
    have hcount := hsteps.count
    have hnext : v.context.nextTemplate = σ.context.nextTemplate :=
      hm.nextTemplate_of_accepting hrun
    refine List.length_eq_zero_iff.mp ?_
    simp only [List.length_nil] at hcount
    omega
  obtain ⟨sig, hsig⟩ := Option.ne_none_iff_exists'.mp (hrecorded hrun)
  cases hnone.symm.trans (hsteps.instance?_of_made_nil hmade hsig)

end Stepwise

end TypedLisp
