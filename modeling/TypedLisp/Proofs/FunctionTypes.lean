import TypedLisp.Proofs.Resolution

namespace TypedLisp

def Ty.isFunction : Ty → Bool
  | .function _ _ => true
  | _ => false

theorem Ty.exists_of_isFunction {t : Ty} (h : t.isFunction = true) : ∃ ps r, t = .function ps r := by
  cases t with
  | function ps r => exact ⟨ps, r, rfl⟩
  | primitive | aliasOf | union | ofClass | template => cases h

namespace Context

variable {c d : Context} {es : List TypeExpr} {e : TypeExpr} {ps : List Ty} {r : Ty}

/-- A function type and its parts are registered under the written forms of an expression's. -/
structure Assembles (c : Context) (es : List TypeExpr) (e : TypeExpr) (ps : List Ty) (r : Ty) :
    Prop where
  whole : c.registered? (TypeExpr.function es e).shown = some (.function ps r)
  params : List.Forall₂ (fun e t => c.registered? e.shown = some t) es ps
  result : c.registered? e.shown = some r

theorem Assembles.mono (h : c.Assembles es e ps r)
    (hkept : ∀ {text t}, c.registered? text = some t → d.registered? text = some t) :
    d.Assembles es e ps r :=
  ⟨hkept h.whole, h.params.imp fun _ _ hp => hkept hp, hkept h.result⟩

/-- Every function type is registered together with what it is made of. -/
structure Composed (c : Context) : Prop where
  indexed : c.Indexed
  functions : ∀ {text ps r}, c.registered? text = some (.function ps r) →
    ∃ es e, TypeExpr.parse text = .ok (.function es e) ∧ c.Assembles es e ps r

theorem Composed.of_registered? (h : c.Composed) (hindexed : d.Indexed)
    (hsame : ∀ text, d.registered? text = c.registered? text) : d.Composed where
  indexed := hindexed
  functions ht := by
    rw [hsame] at ht
    obtain ⟨es, e, hparse, hparts⟩ := h.functions ht
    refine ⟨es, e, hparse, hparts.mono fun hu => ?_⟩
    rwa [hsame]

theorem Composed.intern (h : c.Composed) (name : String) : (c.intern name).2.Composed :=
  h.of_registered? (indexed_intern h.indexed name) fun text => registered?_intern h.indexed name text

theorem Composed.enter (h : c.Composed) {name : String} (hnew : c.registered? name = none) {t : Ty}
    (ht : ∀ ps r, t = .function ps r → ∃ es e, TypeExpr.parse name = .ok (.function es e) ∧
      (c.enter name t).Assembles es e ps r) : (c.enter name t).Composed where
  indexed := indexed_enter h.indexed name t
  functions := by
    intro text ps r htext
    rw [registered?_enter h.indexed] at htext
    split at htext
    · next hname =>
        subst hname
        exact ht ps r (Option.some.inj htext)
    · obtain ⟨es, e, hparse, hparts⟩ := h.functions htext
      exact ⟨es, e, hparse, hparts.mono fun hu => registered?_enter_of_some hu hnew⟩

theorem Composed.cache (h : c.Composed) {name : String} {t : Ty}
    (ht : c.registered? name = none → ∀ ps r, t = .function ps r →
      ∃ es e, TypeExpr.parse name = .ok (.function es e) ∧ (c.enter name t).Assembles es e ps r) :
    (c.cache name t).2.Composed := by
  cases hname : c.registered? name with
  | some old =>
      rw [cache_of_some h.indexed hname]
      exact h.intern name
  | none =>
      rw [cache_of_none h.indexed hname]
      exact h.enter hname (ht hname)

end Context

namespace Session

open CheckM

variable {α β : Type} {σ : Session}

/-- Run in a session, a check keeps function types together with what they are made of. -/
def Composes (σ : Session) (m : CheckM α) : Prop :=
  σ.context.Composed → (σ.run m).2.context.Composed

namespace Composes

theorem pure (a : α) : σ.Composes (pure a : CheckM α) := id

theorem reject (e : TypeError) : σ.Composes (reject e : CheckM α) := id

theorem bind {m : CheckM α} {f : α → CheckM β} (hm : σ.Composes m)
    (hf : ∀ a σ', σ.run m = (.ok a, σ') → σ.context.Composed → σ'.context.Composed →
      σ'.Composes (f a)) : σ.Composes (m >>= f) := by
  intro hσ
  have hmid := hm hσ
  obtain ⟨outcome, σ', hrun⟩ : ∃ outcome σ', σ.run m = (outcome, σ') := ⟨_, _, rfl⟩
  rw [hrun] at hmid
  cases outcome with
  | error halt =>
      rw [run_bind_of_error f hrun]
      exact hmid
  | ok a =>
      rw [run_bind_of_ok f hrun]
      exact hf a σ' hrun hσ hmid hmid

theorem context_bind {f : Context → CheckM β} (h : σ.Composes (f σ.context)) :
    σ.Composes (CheckM.context >>= f) := h

theorem parseType (text : String) (expr : Datum) : σ.Composes (parseType text expr) := by
  rw [CheckM.parseType]
  split
  · exact pure _
  · exact reject _

theorem resolveExprs_of {es : List TypeExpr} {expr : Datum}
    (hes : ∀ e ∈ es, ∀ {σ : Session}, σ.Composes (resolveExpr expr e)) :
    σ.Composes (resolveExprs expr es) := by
  induction es generalizing σ with
  | nil =>
      rw [resolveExprs]
      exact pure []
  | cons e es ih =>
      rw [resolveExprs]
      refine (hes e List.mem_cons_self).bind fun first σ₁ _ _ _ => ?_
      exact (ih fun u hu => hes u (List.mem_cons_of_mem _ hu)).bind fun others σ₂ _ _ _ => pure _

theorem resolveExpr {e : TypeExpr} (he : e.WellNamed) (expr : Datum) :
    σ.Composes (resolveExpr expr e) := by
  induction he generalizing σ with
  | named =>
      rw [CheckM.resolveExpr]
      refine context_bind ?_
      split
      · exact pure _
      · exact reject _
  | @function params result hparams hresult ihparams ihresult =>
      rw [CheckM.resolveExpr]
      refine context_bind ?_
      split
      · exact pure _
      · refine (resolveExprs_of fun p hp => ihparams p hp).bind fun ps σ₁ hps hσ hσ₁ => ?_
        refine ihresult.bind fun r σ₂ hr _ hσ₂ _ => ?_
        -- Both parts are registered by now, and stay so while the whole is registered.
        have hkept := (Resolves.resolveExpr hresult (.refl hσ₁.indexed) expr).caches hr
        refine hσ₂.cache fun hnew ps' r' heq => ?_
        obtain ⟨rfl, rfl⟩ := Ty.function.inj heq
        refine ⟨params, result, TypeExpr.parse_shown (.function hparams hresult), ?_, ?_, ?_⟩
        · rw [Context.registered?_enter hσ₂.indexed, if_pos rfl]
        · refine (registered?_of_run_resolveExprs hparams hσ.indexed hps).imp fun _ _ hp => ?_
          exact Context.registered?_enter_of_some (hkept.registered?_of_some hp) hnew
        · exact Context.registered?_enter_of_some
            (registered?_of_run_resolveExpr hresult hσ₁.indexed hr) hnew

theorem resolveExprs {es : List TypeExpr} (hes : ∀ e ∈ es, e.WellNamed) (expr : Datum) :
    σ.Composes (resolveExprs expr es) :=
  resolveExprs_of fun e he => resolveExpr (hes e he) expr

theorem resolve (text : String) (expr : Datum) : σ.Composes (resolve text expr) := by
  rw [CheckM.resolve]
  refine context_bind ?_
  split
  · exact pure _
  · refine (parseType text expr).bind fun e σ₁ hrun hσ _ => ?_
    obtain ⟨hparse, rfl⟩ := parse_of_run_parseType hrun
    have he := TypeExpr.wellNamed_of_parse hparse
    refine (resolveExpr he expr).bind fun t σ₂ ht _ hσ₂ => ?_
    split
    · exact pure t
    · refine bind (fun _ => hσ₂.cache fun hnew ps r hfunction => ?_) fun _ _ _ _ _ => pure t
      -- The text is another spelling of what is registered under its written form.
      subst hfunction
      have hwhole := registered?_of_run_resolveExpr he hσ.indexed ht
      obtain ⟨es, e', hparse', hparts⟩ := hσ₂.functions hwhole
      cases (TypeExpr.parse_shown he).symm.trans hparse'
      exact ⟨es, e', hparse, hparts.mono fun hu => Context.registered?_enter_of_some hu hnew⟩

theorem resolveAll (texts : List String) (expr : Datum) : σ.Composes (resolveAll expr texts) := by
  induction texts generalizing σ with
  | nil =>
      rw [CheckM.resolveAll]
      exact pure []
  | cons text texts ih =>
      rw [CheckM.resolveAll]
      exact (resolve text expr).bind fun _ _ _ _ _ => ih.bind fun _ _ _ _ _ => pure _

end Composes

end Session

end TypedLisp
