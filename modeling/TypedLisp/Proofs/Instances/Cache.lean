import Mathlib.Data.List.Nodup
import TypedLisp.Proofs.Frame

namespace TypedLisp

open CheckM

namespace World

variable {may : ScopeId → String → Prop} {w v : World}

/-- An instance recorded under a key comes from a template and actual types, at which the template's
written types are registered. -/
def Stems (w : World) (key : InstanceKey) (s : Signature) : Prop :=
  ∃ g ∈ w.made, ∃ actuals : List TypeExpr, key = ⟨g.id, actuals.map TypeExpr.shown⟩ ∧
    actuals.length = g.typeParams.length ∧ w.context.Settles g actuals s

theorem Stems.later {key : InstanceKey} {s : Signature} (h : w.Stems key s) (hv : w.Later v) :
    v.Stems key s := by
  obtain ⟨g, hg, actuals, hkey, hlength, hs⟩ := h
  refine ⟨g, hv.made g hg, actuals, hkey, hlength, ?_⟩
  exact ⟨hs.params.imp fun _ _ hp => hv.registered hp, hv.registered hs.result⟩

theorem Step.stems (h : Step may w v) {key : InstanceKey} {s : Signature}
    (hs : v.context.instance? key = some s) : w.context.instance? key = some s ∨ w.Stems key s := by
  cases h with
  | name _ hagrees => exact .inl (by rwa [Context.instance?, hagrees.instances] at hs)
  | bind | openScope | enter | make => exact .inl hs
  | @record g actuals s' hg _ hlength hsettled _ =>
      rw [Context.instance?_record] at hs
      split at hs
      · next hkey =>
          obtain rfl := Option.some.inj hs
          exact .inr ⟨g, hg, actuals, hkey.symm, hlength, hsettled⟩
      · exact .inl hs

theorem Steps.stems (h : Steps may w v)
    (hw : ∀ {key s}, w.context.instance? key = some s → w.Stems key s) {key : InstanceKey}
    {s : Signature} (hs : v.context.instance? key = some s) : v.Stems key s := by
  induction h with
  | refl => exact hw hs
  | tail _ hstep ih =>
      rcases hstep.stems hs with hold | hnew
      · exact (ih hold).later hstep.later
      · exact hnew.later hstep.later
  | drop _ _ ih =>
      rw [Context.instance?_forget] at hs
      split at hs
      · exact nomatch hs
      · exact (ih hs).later (later_forget _ _)

/-- Templates are numbered in the order they are made; the last one comes first. -/
def Numbered (w : World) : Prop :=
  w.made.map Template.serial = (List.range w.context.nextTemplate).reverse

theorem Step.numbered (h : Step may w v) (hw : w.Numbered) : v.Numbered := by
  cases h with
  | name _ hagrees => rwa [Numbered, hagrees.nextTemplate]
  | bind | openScope | enter | record => exact hw
  | @make g hserial =>
      show g.serial :: w.made.map Template.serial =
        (List.range (w.context.nextTemplate + 1)).reverse
      rw [hw, hserial, List.range_succ, List.reverse_concat]

theorem Steps.numbered (h : Steps may w v) (hw : w.Numbered) : v.Numbered := by
  induction h with
  | refl => exact hw
  | tail _ hstep ih => exact hstep.numbered ih
  | drop _ _ ih => exact ih

theorem Steps.made_suffix (h : Steps may w v) : w.made <:+ v.made := by
  induction h with
  | refl => exact List.suffix_rfl
  | tail _ hstep ih =>
      cases hstep with
      | make => exact ih.trans (List.suffix_cons _ _)
      | name | bind | openScope | enter | record => exact ih
  | drop _ _ ih => exact ih

theorem Numbered.pairwise_iff (hw : w.Numbered) :
    (w.made.Pairwise fun g g' => g.id ≠ g'.id) ↔ w.context.nextTemplate ≤ Template.idCount := by
  have hids : w.made.map Template.id =
      ((List.range w.context.nextTemplate).map Template.idOf).reverse := by
    rw [← List.map_reverse, ← hw, List.map_map]
    rfl
  rw [← List.pairwise_map (R := (· ≠ ·)), ← List.nodup_iff_pairwise_ne, hids, List.nodup_reverse,
    List.nodup_map_iff_inj_on List.nodup_range]
  constructor
  · -- The first id is handed out again after all the others.
    intro hinjective
    by_contra hlt
    have hmany : Template.idCount < w.context.nextTemplate := Nat.lt_of_not_le hlt
    have hsame : Template.idOf 0 = Template.idOf Template.idCount := by decide
    have := hinjective 0 (List.mem_range.mpr (Nat.zero_lt_of_lt hmany)) Template.idCount
      (List.mem_range.mpr hmany) hsame
    cases this
  · intro hroom m hm n hn hsame
    rw [List.mem_range] at hm hn
    rwa [Template.idOf, Template.idOf, Nat.mod_eq_of_lt (Nat.lt_of_lt_of_le hm hroom),
      Nat.mod_eq_of_lt (Nat.lt_of_lt_of_le hn hroom)] at hsame

end World

namespace Session

theorem run_resolveExprs_of_registered? {σ : Session} {es : List TypeExpr} {ts : List Ty}
    (h : List.Forall₂ (fun e t => σ.context.registered? e.shown = some t) es ts) (expr : Datum) :
    σ.run (resolveExprs expr es) = (.ok ts, σ) := by
  induction h with
  | nil => rfl
  | cons ht _ ih =>
      rw [resolveExprs, run_bind_of_ok _ (run_resolveExpr_of_registered? ht expr),
        run_bind_of_ok _ ih, run_pure]

theorem run_actualSignature_of_settles {σ : Session} {g : Template} {actuals : List TypeExpr}
    {s : Signature} (h : σ.context.Settles g actuals s) (expr : Datum) :
    σ.run (actualSignature g actuals expr) = (.ok s, σ) := by
  rw [actualSignature, run_bind_of_ok _ (run_resolveExprs_of_registered? h.params expr),
    run_bind_of_ok _ (run_resolveExpr_of_registered? h.result expr), run_pure]

/-- Instantiating a template at a written list gets as far as its key. -/
def FormsKey (σ : Session) (g : Template) (list : String) (expr : Datum) (key : InstanceKey) :
    Prop :=
  ∃ actuals types, TypeExpr.parseList? list = some (.ok actuals) ∧
    actuals.length = g.typeParams.length ∧
    (σ.run (resolveExprs expr actuals)).1 = .ok types ∧ key = ⟨g.id, types.map Ty.name⟩

/-- What an attempt to instantiate a template leaves in the cache under its key. -/
structure CachesAttempts (σ : Session) (depth : Nat) (g : Template) : Prop where
  accepted : ∀ {list expr s σ'}, σ.run (instantiate (bodyWithin depth) g list expr) = (.ok s, σ') →
    ∃ key, σ.FormsKey g list expr key ∧ σ'.context.instance? key = some s
  refused : ∀ {list expr halt σ' key},
    σ.run (instantiate (bodyWithin depth) g list expr) = (.error halt, σ') →
    σ.FormsKey g list expr key → σ'.context.instance? key = none

variable {σ σ' : Session} {inBody : Datum → ScopeId → CheckM Ty} {g : Template} {list : String}
  {expr : Datum} {actuals : List TypeExpr}

theorem run_instantiate_of_parseList? (hparsed : TypeExpr.parseList? list = some (.ok actuals))
    (hlength : actuals.length = g.typeParams.length) :
    σ.run (instantiate inBody g list expr) = σ.run (do
      let types ← resolveExprs expr actuals
      instantiateAt inBody g actuals ⟨g.id, types.map Ty.name⟩ expr) := by
  have hparse : σ.run (parseTypeList list expr) = (.ok actuals, σ) := by
    rw [parseTypeList, hparsed, run_pure]
  rw [instantiate_eq, run_bind_of_ok _ hparse, if_neg (not_not_intro hlength)]

theorem parseList?_of_run_instantiate {s : Signature}
    (h : σ.run (instantiate inBody g list expr) = (.ok s, σ')) :
    ∃ actuals, TypeExpr.parseList? list = some (.ok actuals) ∧
      actuals.length = g.typeParams.length := by
  rw [instantiate_eq] at h
  obtain ⟨actuals, σ₁, hparse, h⟩ := run_bind_eq_ok.mp h
  refine ⟨actuals, ?_, ?_⟩
  · rw [parseTypeList] at hparse
    split at hparse
    · next hparsed => rw [hparsed, Except.ok.inj (Prod.mk.inj hparse).1]
    · cases hparse
    · cases hparse
  · by_contra hlength
    rw [if_pos hlength] at h
    cases h

/-- An attempt that is stopped leaves nothing under its key. -/
theorem instance?_of_run_instantiateAt_error (hparams : ∀ p ∈ g.params, p.2.WellNamed)
    (hresult : g.result.WellNamed) (hactuals : ∀ e ∈ actuals, e.WellNamed)
    (hσ : σ.context.Indexed) {key : InstanceKey} {halt : Halt}
    (h : σ.run (instantiateAt inBody g actuals key expr) = (.error halt, σ')) :
    σ'.context.instance? key = none := by
  rw [instantiateAt, run_bind_of_ok _ (run_context σ)] at h
  cases hkey : σ.context.instance? key with
  | some s =>
      rw [hkey] at h
      cases h
  | none =>
      obtain ⟨outcome, c, hrun, -, hagrees, -⟩ :=
        Resolves.actualSignature (.refl hσ) hparams hresult hactuals expr σ.events
      simp only [hkey] at h
      cases outcome with
      | error e =>
          rw [run_bind_of_error _ hrun] at h
          obtain ⟨-, rfl⟩ := Prod.mk.inj h
          rwa [Context.instance?, hagrees.instances]
      | ok s =>
          rw [run_bind_of_ok _ hrun, run_bind_of_ok _ (run_emit _ _), run_provisionally] at h
          split at h
          · cases h
          · obtain ⟨-, rfl⟩ := Prod.mk.inj h
            rw [Context.instance?_forget, if_pos rfl]

end Session

namespace World

variable {w : World}

theorem WellFormed.exists_resolved (hw : w.WellFormed) {actuals : List TypeExpr} {types : List Ty}
    (hactuals : ∀ e ∈ actuals, e.WellNamed) {expr : Datum} {events : Array Event} {σ : Session}
    (hrun : Session.run ⟨w.context, events⟩ (resolveExprs expr actuals) = (.ok types, σ)) :
    ∃ v : World, v.context = σ.context ∧ v.WellFormed ∧ w.Later v ∧
      types.map Ty.name = actuals.map TypeExpr.shown := by
  have hresolves : Evolves (fun _ _ => True) w (resolveExprs expr actuals) _ :=
    Evolves.resolveExprs hactuals expr
  obtain ⟨outcome, v, events', hrun', hsteps, hpost⟩ := hresolves hw events
  obtain ⟨houtcome, rfl⟩ := Prod.mk.inj (hrun.symm.trans hrun')
  have hv := hw.steps hsteps
  exact ⟨v, rfl, hv, hsteps.later,
    hv.names_of_registered hactuals (hpost types houtcome.symm).1⟩

theorem WellFormed.cachesAttempts (hw : w.WellFormed) {g : Template} (hg : g ∈ w.made)
    (depth : Nat) (events : Array Event) : Session.CachesAttempts ⟨w.context, events⟩ depth g := by
  have hbody : BodiesEvolve (fun _ _ => True) (bodyWithin depth) := Evolves.bodyWithin depth
  constructor
  · intro list expr s σ' h
    obtain ⟨actuals, hparsed, hlength⟩ := Session.parseList?_of_run_instantiate h
    have hactuals := TypeExpr.wellNamed_of_parseList hparsed
    rw [Session.run_instantiate_of_parseList? hparsed hlength] at h
    obtain ⟨types, ⟨c, events'⟩, hrun, h⟩ := Session.run_bind_eq_ok.mp h
    obtain ⟨v, rfl, hv, hlater, hnames⟩ := hw.exists_resolved hactuals hrun
    refine ⟨_, ⟨actuals, types, hparsed, hlength, by rw [hrun], rfl⟩, ?_⟩
    rw [hnames] at h ⊢
    obtain ⟨outcome, u, events'', hrun', -, hpost⟩ := Evolves.instantiateAt hbody
      (fun _ _ _ => trivial) (hlater.made g hg) hactuals hlength expr hv events'
    obtain ⟨houtcome, rfl⟩ := Prod.mk.inj (h.symm.trans hrun')
    exact (hpost s houtcome.symm).2
  · rintro list expr halt σ' _ h ⟨actuals, types, hparsed, hlength, htypes, rfl⟩
    have hactuals := TypeExpr.wellNamed_of_parseList hparsed
    obtain ⟨⟨c, events'⟩, hrun⟩ : ∃ σ₁,
        Session.run ⟨w.context, events⟩ (resolveExprs expr actuals) = (.ok types, σ₁) :=
      ⟨_, Prod.ext htypes rfl⟩
    obtain ⟨v, rfl, hv, hlater, -⟩ := hw.exists_resolved hactuals hrun
    rw [Session.run_instantiate_of_parseList? hparsed hlength,
      Session.run_bind_of_ok _ hrun] at h
    have hholds := hv.made (hlater.made g hg)
    exact Session.instance?_of_run_instantiateAt_error (fun p hp => (hholds.params p hp).2)
      hholds.result hactuals hv.indexed h

end World

/-- The templates that a context has made, the last one first, and among them all that are bound. -/
structure Context.Made (c : Context) (made : List Template) : Prop where
  numbered : made.map Template.serial = (List.range c.nextTemplate).reverse
  bound : ∀ {q s g}, c.scopes.binding? q s = some (.template g) → g ∈ made

/-- What a check does to the cache, with the templates made up to its end. -/
structure CacheDiscipline (before : Context) (templates : List Template) (outcome : Except Halt Ty)
    (after : Context) : Prop where
  kept : ∀ {key s}, before.instance? key = some s → after.instance? key = some s
  made : after.Made templates
  returned : ∀ {g}, outcome = .ok (.template g) → g ∈ templates
  distinct : (templates.Pairwise fun g g' => g.id ≠ g'.id) ↔
    after.nextTemplate ≤ Template.idCount
  current : ∀ {key s}, after.instance? key = some s → ∃ g ∈ templates,
    ∃ actuals : List TypeExpr, key = ⟨g.id, actuals.map TypeExpr.shown⟩ ∧
      actuals.length = g.typeParams.length ∧
      ∀ expr events, (Session.run ⟨after, events⟩ (actualSignature g actuals expr)).1 = .ok s

/-- Checking an expression, whatever it ends with, keeps every cached instance, and every cached
signature is what the written types of a template with the key's id resolve to at the actual types,
in the context that the check leaves. This is one template as long as there are no more templates
than ids; from then on ids are shared. In every well-formed world, so at every call that a check
makes on its way, an attempt to instantiate leaves its signature under its key if it succeeds, and
nothing if it fails. -/
theorem instance_cache_discipline {c : Context} (hc : c.Reachable) (depth : Nat) (d : Datum)
    {s : ScopeId} (hs : s.index < c.scopes.size) (events : Array Event) :
    (∃ made new, World.WellFormed ⟨c, made⟩ ∧ c.Made made ∧
      CacheDiscipline c (new ++ made)
        (Session.run ⟨c, events⟩ (checkExpr (bodyWithin depth) d s)).1
        (Session.run ⟨c, events⟩ (checkExpr (bodyWithin depth) d s)).2.context) ∧
    ∀ w : World, w.WellFormed → ∀ g ∈ w.made, ∀ events,
      Session.CachesAttempts ⟨w.context, events⟩ depth g := by
  refine ⟨?_, fun w hw g hg events => hw.cachesAttempts hg depth events⟩
  obtain ⟨options, made, hreached⟩ := hc.steps
  have hw := (Context.wellFormed_blank options).steps hreached
  obtain ⟨outcome, v, events', hrun, hsteps, hpost⟩ := Evolves.checkExpr_open depth d hs hw events
  have hv := hw.steps hsteps
  have hblank : World.Numbered ⟨Context.blank options, []⟩ := rfl
  have hnumbered := (hreached.trans hsteps).numbered hblank
  obtain ⟨new, hnew⟩ := hsteps.made_suffix
  have hmade : v.made = new ++ made := hnew.symm
  refine ⟨made, new, hw, ⟨hreached.numbered hblank, fun h => (hw.bound h).2.mem_made⟩, ?_⟩
  rw [hrun, ← hmade]
  refine ⟨hsteps.instances, ⟨hnumbered, fun h => (hv.bound h).2.mem_made⟩,
    fun hg => (hpost _ hg).mem_made, hnumbered.pairwise_iff, ?_⟩
  intro key sig hsig
  have hnone : ∀ {key s}, (Context.blank options).instance? key = some s →
      World.Stems ⟨Context.blank options, []⟩ key s := by
    intro key s h
    simp [Context.instance?, Context.blank] at h
  obtain ⟨g, hg, actuals, hkey, hlength, hsettled⟩ := (hreached.trans hsteps).stems hnone hsig
  refine ⟨g, hg, actuals, hkey, hlength, fun expr events => ?_⟩
  rw [Session.run_actualSignature_of_settles (σ := ⟨v.context, events⟩) hsettled]

theorem instance_cache_discipline_of_identity :
    withIdentity.Reachable ∧ 0 < withIdentity.scopes.size ∧
      ∃ g actuals sig,
        (Session.run ⟨withIdentity, #[]⟩
          (checkExpr (bodyWithin 1) identityAtText Arena.global)).2.context.instance?
            ⟨0, ["string"]⟩ = some sig ∧
        (⟨0, ["string"]⟩ : InstanceKey) = ⟨g.id, actuals.map TypeExpr.shown⟩ ∧
        ∀ expr events, (Session.run ⟨(Session.run ⟨withIdentity, #[]⟩
          (checkExpr (bodyWithin 1) identityAtText Arena.global)).2.context, events⟩
            (actualSignature g actuals expr)).1 = .ok sig := by
  have hreachable : withIdentity.Reachable := .expr (.new {}) 1 identityTemplate Nat.one_pos #[]
  have hopen : Arena.global.index < withIdentity.scopes.size := by decide +kernel
  have hcached : ((Session.run ⟨withIdentity, #[]⟩
      (checkExpr (bodyWithin 1) identityAtText Arena.global)).2.context.instance?
        ⟨0, ["string"]⟩).isSome = true := by
    decide +kernel
  obtain ⟨sig, hsig⟩ := Option.isSome_iff_exists.mp hcached
  obtain ⟨made, new, -, -, hdiscipline⟩ :=
    (instance_cache_discipline hreachable 1 identityAtText hopen #[]).1
  obtain ⟨g, -, actuals, hkey, -, hcurrent⟩ := hdiscipline.current hsig
  exact ⟨hreachable, hopen, g, actuals, sig, hsig, hkey, hcurrent⟩

/-- A generic function without parameters. Checking it makes a template and nothing else. -/
def constantTemplate : Datum :=
  .list [.symbol "lambda", .symbol "<T>", .list [], .symbol "->", .symbol "number",
    .number ⟨0x3ff0000000000000⟩]

def Template.constant (serial : Nat) (closure : ScopeId) : Template :=
  ⟨serial, "lambda", ["T"], [], .named "number", .number ⟨0x3ff0000000000000⟩, closure⟩

theorem Session.run_constantTemplate (σ : Session) (depth : Nat) (s : ScopeId) :
    σ.run (checkExpr (bodyWithin depth) constantTemplate s) =
      (.ok (.template (.constant σ.context.nextTemplate s)),
        ⟨σ.context.newTemplate.2, σ.events.push (.checking constantTemplate s)⟩) := by
  have hform : Form.classify constantTemplate =
      .ok (.lambda (some "<T>") ⟨[], "number", .number ⟨0x3ff0000000000000⟩⟩) := rfl
  have hlist : TypeExpr.parseList? "<T>" = some (.ok (["T"].map .named)) := by cbv
  have hresult : TypeExpr.parse "number" = .ok (.named "number") :=
    TypeExpr.parse_of_ofTokens (by cbv)
  -- No parameter is interned, so the counter is all that changes.
  rw [checkExpr_of_classify hform, run_bind_of_ok _ (run_emit σ _), checkForm,
    run_makeTemplate _ hlist hresult]
  rfl

theorem Context.Reachable.makeTemplates {c : Context} (hc : c.Reachable)
    (hopen : Arena.global.index < c.scopes.size) (n : Nat) :
    Context.Reachable { c with nextTemplate := c.nextTemplate + n } := by
  induction n with
  | zero => exact hc
  | succ n ih =>
      have hnext := ih.expr 1 constantTemplate (s := Arena.global) hopen #[]
      rwa [Session.run_constantTemplate] at hnext

/-- The context in which the identity has its instance at strings, once all ids are given out. -/
def withAllIds : Context :=
  { (Session.run ⟨withIdentity, #[]⟩
      (checkExpr (bodyWithin 1) identityAtText Arena.global)).2.context with
    nextTemplate := Template.idCount }

theorem reachable_withAllIds : withAllIds.Reachable := by
  have hcached : (Session.run ⟨withIdentity, #[]⟩
      (checkExpr (bodyWithin 1) identityAtText Arena.global)).2.context.Reachable :=
    .expr (.expr (.new {}) 1 identityTemplate Nat.one_pos #[]) 1 identityAtText
      (by decide +kernel) #[]
  have hmade := hcached.makeTemplates (by decide +kernel) (Template.idCount - 1)
  have hcount : (Session.run ⟨withIdentity, #[]⟩ (checkExpr (bodyWithin 1) identityAtText
      Arena.global)).2.context.nextTemplate + (Template.idCount - 1) = Template.idCount := by
    decide +kernel
  rwa [hcount] at hmade

def constantAtText : Datum :=
  .list [constantTemplate, .symbol "<string>"]

/-- The next template gets the id of the identity, and so the signature that is cached for the
identity at strings. This is not its own, and a call is refused that was accepted before. -/
theorem cached_for_another_template :
    withAllIds.Reachable ∧ ∃ g g' s s', withAllIds.templateNamed? "same" = some g ∧
      (Session.run ⟨withAllIds, #[]⟩
        (checkExpr (bodyWithin 2) constantTemplate Arena.global)).1 = .ok (.template g') ∧
      g'.serial ≠ g.serial ∧ g'.id = g.id ∧
      withAllIds.instance? ⟨g'.id, ["string"]⟩ = some s ∧
      (∀ expr events, (Session.run ⟨withAllIds, events⟩
        (actualSignature g' [.named "string"] expr)).1 = .ok s') ∧ s ≠ s' ∧
      (Session.run ⟨withIdentity, #[]⟩
        (checkExpr (bodyWithin 2) constantAtText Arena.global)).1.toBool = true ∧
      rejection? (Session.run ⟨withAllIds, #[]⟩
        (checkExpr (bodyWithin 2) constantAtText Arena.global)).1 = some "arity mismatch" := by
  have hidentity : (withAllIds.templateNamed? "same").map Template.serial = some 0 := by
    decide +kernel
  have hcached : (withAllIds.instance? ⟨0, ["string"]⟩).map (fun s => s.params.length) =
      some 1 := by
    decide +kernel
  have hnumber : (withAllIds.registered? "number").isSome = true := by decide +kernel
  obtain ⟨g, hg, hserial⟩ := Option.map_eq_some_iff.mp hidentity
  obtain ⟨s, hs, hlength⟩ := Option.map_eq_some_iff.mp hcached
  obtain ⟨t, ht⟩ := Option.isSome_iff_exists.mp hnumber
  have hsettled : withAllIds.Settles (.constant Template.idCount Arena.global) [.named "string"]
      ⟨[], t⟩ := ⟨.nil, ht⟩
  have hrun : (Session.run ⟨withAllIds, #[]⟩
      (checkExpr (bodyWithin 2) constantTemplate Arena.global)).1 =
        .ok (.template (.constant Template.idCount Arena.global)) := by
    rw [Session.run_constantTemplate]
    rfl
  refine ⟨reachable_withAllIds, g, _, s, ⟨[], t⟩, hg, hrun, ?_, ?_, hs, fun expr events => ?_, ?_,
    by decide +kernel, by decide +kernel⟩
  · rw [hserial]
    decide
  · rw [g.id_eq_serial (by rw [hserial]; decide), hserial]
    decide
  · rw [Session.run_actualSignature_of_settles (σ := ⟨withAllIds, events⟩) hsettled]
  · rintro rfl
    cases hlength

end TypedLisp
