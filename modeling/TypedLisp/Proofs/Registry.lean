import Mathlib.Logic.Relation
import TypedLisp.Proofs.Frame
import TypedLisp.Proofs.TypeExpr.Grammar

namespace TypedLisp

open CheckM TypedLisp.Text

section Operations

open World

/-- A context in use, and the templates that checks in it have ended with. -/
structure Workspace where
  context : Context
  templates : List Template

namespace Workspace

variable {u v : Workspace}

def new (options : Options) : Workspace := ⟨Context.new options, []⟩

/-- A template at hand: one that a check has ended with, or that is bound. -/
def Has (u : Workspace) (g : Template) : Prop :=
  g ∈ u.templates ∨ ∃ q s, u.context.scopes.binding? q s = some (.template g)

/-- The workspace after a check, whatever it ends with. -/
def after (u : Workspace) (m : CheckM Ty) (events : Array Event) : Workspace where
  context := (Session.run ⟨u.context, events⟩ m).2.context
  templates :=
    match (Session.run ⟨u.context, events⟩ m).1 with
    | .ok (.template g) => g :: u.templates
    | _ => u.templates

/-- One operation: an expression, a body or a block is checked in an open scope, a text is resolved,
or a template at hand is instantiated. -/
inductive Operation (u : Workspace) : Workspace → Prop where
  | expr (depth : Nat) (d : Datum) {s : ScopeId} (hs : s.index < u.context.scopes.size)
      (events : Array Event) : Operation u (u.after (checkExpr (bodyWithin depth) d s) events)
  | body (depth : Nat) (d : Datum) {s : ScopeId} (hs : s.index < u.context.scopes.size)
      (events : Array Event) : Operation u (u.after (checkBody (bodyWithin depth) d s) events)
  | block (depth : Nat) (ds : List Datum) {s : ScopeId} (hs : s.index < u.context.scopes.size)
      (events : Array Event) : Operation u (u.after (checkBlock (bodyWithin depth) ds s) events)
  | resolve (text : String) (expr : Datum) (events : Array Event) :
      Operation u (u.after (resolve text expr) events)
  | instantiate (depth : Nat) {g : Template} (hg : u.Has g) (list : String) (expr : Datum)
      (events : Array Event) :
      Operation u ⟨(Session.run ⟨u.context, events⟩
        (instantiate (bodyWithin depth) g list expr)).2.context, u.templates⟩

/-- Any number of operations, one after the other. -/
abbrev Operations : Workspace → Workspace → Prop := Relation.ReflTransGen Operation

/-- The workspaces that operations lead to from a new one. -/
def Arises (u : Workspace) : Prop := ∃ options, (new options).Operations u

/-- A workspace is that of a world in which all its templates were made. -/
structure Of (u : Workspace) (w : World) : Prop where
  context : w.context = u.context
  made : ∀ g ∈ u.templates, g ∈ w.made

theorem Of.mem_made {w : World} (hu : u.Of w) (hw : w.WellFormed) {g : Template} (hg : u.Has g) :
    g ∈ w.made := by
  rcases hg with hg | ⟨q, s, hbound⟩
  · exact hu.made g hg
  · rw [← hu.context] at hbound
    exact (hw.bound hbound).2.mem_made

theorem Of.after {w : World} (hu : u.Of w) (hw : w.WellFormed) {m : CheckM Ty}
    (hm : Evolves (fun _ _ => True) w m fun t v => v.Knows t) (events : Array Event) :
    ∃ v, Steps (fun _ _ => True) w v ∧ (u.after m events).Of v := by
  obtain ⟨outcome, v, events', hrun, hsteps, hpost⟩ := hm hw events
  rw [hu.context] at hrun
  refine ⟨v, hsteps, ?_, ?_⟩
  · rw [Workspace.after, hrun]
  · intro g hg
    have hkept : g ∈ u.templates → g ∈ v.made := fun hg => hsteps.later.made g (hu.made g hg)
    rw [Workspace.after, hrun] at hg
    dsimp only at hg
    split at hg
    · rcases List.mem_cons.mp hg with rfl | hg
      · exact (hpost _ rfl).mem_made
      · exact hkept hg
    · exact hkept hg

theorem Operation.steps (h : Operation u v) {w : World} (hu : u.Of w) (hw : w.WellFormed) :
    ∃ x, Steps (fun _ _ => True) w x ∧ v.Of x := by
  have hopen {s : ScopeId} (hs : s.index < u.context.scopes.size) : s.index < w.size := by
    rwa [World.size, hu.context]
  cases h with
  | expr depth d hs events => exact hu.after hw (Evolves.checkExpr_open depth d (hopen hs)) events
  | body depth d hs events => exact hu.after hw (Evolves.checkBody_open depth d (hopen hs)) events
  | block depth ds hs events =>
      exact hu.after hw (Evolves.checkBlock_open depth ds (hopen hs)) events
  | resolve text expr events =>
      exact hu.after hw ((Evolves.resolve text expr).mono fun _ _ _ ht => .inl ht) events
  | instantiate depth hg list expr events =>
      obtain ⟨_, x, _, hrun, hsteps, -⟩ := Evolves.instantiate (Evolves.bodyWithin depth)
        (fun _ _ _ => trivial) (hu.mem_made hw hg) list expr hw events
      rw [hu.context] at hrun
      refine ⟨x, hsteps, by rw [hrun], fun g hg => ?_⟩
      exact hsteps.later.made g (hu.made g hg)

theorem Operations.steps (h : u.Operations v) {w : World} (hu : u.Of w) (hw : w.WellFormed) :
    ∃ x, Steps (fun _ _ => True) w x ∧ v.Of x := by
  induction h with
  | refl => exact ⟨w, .refl, hu⟩
  | tail _ hoperation ih =>
      obtain ⟨x, hsteps, hx⟩ := ih
      obtain ⟨y, hsteps', hy⟩ := hoperation.steps hx (hw.steps hsteps)
      exact ⟨y, hsteps.trans hsteps', hy⟩

theorem Arises.steps (hu : u.Arises) :
    ∃ options w, Steps (fun _ _ => True) ⟨Context.blank options, []⟩ w ∧ u.Of w := by
  obtain ⟨options, hoperations⟩ := hu
  have hnew := Context.steps_new options
  have hformed := (Context.wellFormed_blank options).steps hnew
  obtain ⟨w, hsteps, hw⟩ := Operations.steps hoperations ⟨rfl, by simp [new]⟩ hformed
  exact ⟨options, w, hnew.trans hsteps, hw⟩

theorem Arises.wellFormed (hu : u.Arises) : ∃ w, w.WellFormed ∧ u.Of w := by
  obtain ⟨options, w, hsteps, hw⟩ := hu.steps
  exact ⟨w, (Context.wellFormed_blank options).steps hsteps, hw⟩

end Workspace

end Operations

section Naming

/-- Expressions that come from texts: those that are read, and what putting such expressions for
names makes of them. -/
inductive TypeExpr.FromText : TypeExpr → Prop where
  | parsed {text : String} {e : TypeExpr} (h : parse text = .ok e) : FromText e
  | substituted {e : TypeExpr} {actual : String → Option TypeExpr} (he : FromText e)
      (hactual : ∀ name u, actual name = some u → FromText u) : FromText (e.substitute actual)

theorem TypeExpr.FromText.wellNamed {e : TypeExpr} (h : e.FromText) : e.WellNamed := by
  induction h with
  | parsed h => exact wellNamed_of_parse h
  | substituted _ _ ihe ihactual => exact ihe.substitute ihactual

end Naming

section Composition

variable {may : ScopeId → String → Prop} {w v : World} {c y : Context} {es : List TypeExpr}
  {e : TypeExpr} {t : Ty} {text : String}

theorem World.Step.composed (h : Step may w v) (hw : w.context.Composed) : v.context.Composed := by
  cases h with
  | name _ _ hcomposed => exact hcomposed hw
  | @enter name t hnew _ _ hkind =>
      refine hw.enter hnew fun ps r hfunction => ?_
      subst hfunction
      cases hkind
  | bind | openScope | make | record => exact hw.of_registered? hw.indexed fun _ => rfl

theorem World.Steps.composed (h : Steps may w v) (hw : w.context.Composed) :
    v.context.Composed := by
  induction h with
  | refl => exact hw
  | tail _ hstep ih => exact hstep.composed ih
  | drop _ _ ih => exact ih.of_registered? ih.indexed fun _ => rfl

theorem Workspace.Arises.composed {u : Workspace} (hu : u.Arises) : u.context.Composed := by
  obtain ⟨options, w, hsteps, hw⟩ := hu.steps
  rw [← hw.context]
  refine hsteps.composed ⟨(Context.wellFormed_blank options).indexed, fun h => ?_⟩
  rw [Context.registered?_blank] at h
  cases h

namespace Context

/-- In a context, an expression is resolved to a type. -/
def ResolvesTo (c : Context) (e : TypeExpr) (t : Ty) : Prop :=
  ∀ expr events, (Session.run ⟨c, events⟩ (resolveExpr expr e)).1 = .ok t

/-- A function type, each part of it being what the part written there is resolved to. -/
def MadeOf (c : Context) (es : List TypeExpr) (e : TypeExpr) (t : Ty) : Prop :=
  ∃ ps r, t = .function ps r ∧ List.Forall₂ c.ResolvesTo es ps ∧ c.ResolvesTo e r

/-- The type declared under a name: one that is registered there and is no function type. -/
def declared? (c : Context) (name : String) : Option Ty :=
  (c.registered? name).filter fun t => !t.isFunction

theorem Caches.resolvesTo_iff (h : c.Caches y) (he : e.WellNamed) :
    y.ResolvesTo e t ↔ c.resolved? e = some t := by
  constructor
  · intro ht
    exact (Resolves.resolveExpr he h (.symbol "")).ok_iff.mp (ht _ #[])
  · intro ht expr events
    exact (Resolves.resolveExpr he h expr).ok_iff.mpr ht

theorem Caches.madeOf_iff (h : c.Caches y) (hes : ∀ p ∈ es, p.WellNamed) (he : e.WellNamed) :
    y.MadeOf es e t ↔
      ∃ ps r, t = .function ps r ∧ c.resolvedEach? es = some ps ∧ c.resolved? e = some r := by
  have hparts {ps : List Ty} :
      List.Forall₂ y.ResolvesTo es ps ↔ c.resolvedEach? es = some ps := by
    rw [resolvedEach?_eq_some_iff]
    induction es generalizing ps with
    | nil => rw [List.forall₂_nil_left_iff, List.forall₂_nil_left_iff]
    | cons p es ih =>
        obtain ⟨hp, hes⟩ := List.forall_mem_cons.mp hes
        simp only [List.forall₂_cons_left_iff, h.resolvesTo_iff hp, ih hes]
  simp only [MadeOf, hparts, h.resolvesTo_iff he]

theorem declared?_of_isFunction (ht : c.registered? text = some t) (hkind : t.isFunction = true) :
    c.declared? text = none := by
  simp [declared?, ht, hkind]

theorem declared?_of_not_isFunction (ht : c.registered? text = some t)
    (hkind : t.isFunction = false) : c.declared? text = some t := by
  simp [declared?, ht, hkind]

theorem declared?_of_none (h : c.registered? text = none) : c.declared? text = none := by
  simp [declared?, h]

theorem Assembles.madeOf {ps : List Ty} {r : Ty} (h : c.Assembles es e ps r) :
    c.MadeOf es e (.function ps r) := by
  have hresolves {e : TypeExpr} {t : Ty} (ht : c.registered? e.shown = some t) :
      c.ResolvesTo e t := by
    intro expr events
    rw [Session.run_resolveExpr_of_registered? (σ := ⟨c, events⟩) ht]
  exact ⟨ps, r, rfl, h.params.imp fun _ _ hp => hresolves hp, hresolves h.result⟩

/-- What is registered under a text that is read as a function type: the function type of its parts,
which its written form has as well, or a declared type. -/
theorem Composed.madeOf_or_declared (hc : c.Composed)
    (hparse : TypeExpr.parse text = .ok (.function es e)) (ht : c.registered? text = some t) :
    (c.MadeOf es e t ∧ c.declared? text = none ∧
      c.declared? (TypeExpr.function es e).shown = none) ∨
    (¬c.MadeOf es e t ∧ c.declared? text = some t) := by
  cases hkind : t.isFunction with
  | true =>
      obtain ⟨ps, r, rfl⟩ := Ty.exists_of_isFunction hkind
      obtain ⟨es', e', hparse', hparts⟩ := hc.functions ht
      cases hparse.symm.trans hparse'
      -- Under the written form there is the same type, so nothing is declared there either.
      exact .inl ⟨hparts.madeOf, declared?_of_isFunction ht hkind,
        declared?_of_isFunction hparts.whole hkind⟩
  | false =>
      refine .inr ⟨?_, declared?_of_not_isFunction ht hkind⟩
      rintro ⟨ps, r, rfl, -⟩
      cases hkind

theorem Composed.madeOf_or_declared_of_resolved (hc : c.Composed)
    (hparse : TypeExpr.parse text = .ok (.function es e)) (ht : c.resolvedText? text = some t) :
    (c.MadeOf es e t ∧ c.declared? text = none ∧
      c.declared? (TypeExpr.function es e).shown = none) ∨
    (¬c.MadeOf es e t ∧ (c.declared? text = some t ∨
      c.declared? (TypeExpr.function es e).shown = some t)) := by
  have hnamed := TypeExpr.wellNamed_of_parse hparse
  cases htext : c.registered? text with
  | some t' =>
      rw [resolvedText?, htext] at ht
      obtain rfl := Option.some.inj ht
      exact (hc.madeOf_or_declared hparse htext).imp id fun h => ⟨h.1, .inl h.2⟩
  | none =>
      rw [resolvedText?, htext, hparse] at ht
      change c.resolved? (.function es e) = some t at ht
      cases hshown : c.registered? (TypeExpr.function es e).shown with
      | some t' =>
          rw [resolved?, hshown] at ht
          obtain rfl := Option.some.inj ht
          refine (hc.madeOf_or_declared (TypeExpr.parse_shown hnamed) hshown).imp ?_ ?_
          · exact fun h => ⟨h.1, declared?_of_none htext, h.2.2⟩
          · exact fun h => ⟨h.1, .inr h.2⟩
      | none =>
          -- Neither text is registered, so the type is made now.
          rw [resolved?_function_of_none hshown] at ht
          obtain ⟨ps, hps, ht⟩ := Option.bind_eq_some_iff.mp ht
          obtain ⟨r, hr, rfl⟩ := Option.map_eq_some_iff.mp ht
          cases hnamed with
          | function hes he =>
              exact .inl ⟨((Caches.refl hc.indexed).madeOf_iff hes he).mpr ⟨ps, r, rfl, hps, hr⟩,
                declared?_of_none htext, declared?_of_none hshown⟩

end Context

/-- If the text of a function type resolves, its type is the function type of what its parts resolve
to, in the context before as in the one after, exactly if neither the text nor its written form is
the name of a declared type. Otherwise it is the type declared there. -/
theorem function_text_composes_iff {u : Workspace} (hu : u.Arises) {text : String}
    {es : List TypeExpr} {e : TypeExpr} (hparse : TypeExpr.parse text = .ok (.function es e))
    {expr : Datum} {events : Array Event} {t : Ty} {σ : Session}
    (hrun : Session.run ⟨u.context, events⟩ (resolve text expr) = (.ok t, σ)) :
    (u.context.MadeOf es e t ↔ u.context.declared? text = none ∧
      u.context.declared? (TypeExpr.function es e).shown = none) ∧
    (σ.context.MadeOf es e t ↔ u.context.MadeOf es e t) ∧
    (¬u.context.MadeOf es e t → u.context.declared? text = some t ∨
      u.context.declared? (TypeExpr.function es e).shown = some t) := by
  have hcomposed := hu.composed
  have hself : u.context.Caches u.context := .refl hcomposed.indexed
  have hresolves := Resolves.resolve hself text expr
  have hanswer : u.context.resolvedText? text = some t := hresolves.ok_iff.mp (by rw [hrun])
  have hafter : σ.context.MadeOf es e t ↔ u.context.MadeOf es e t := by
    cases TypeExpr.wellNamed_of_parse hparse with
    | function hes he =>
        rw [(hresolves.caches hrun).madeOf_iff hes he, hself.madeOf_iff hes he]
  rcases hcomposed.madeOf_or_declared_of_resolved hparse hanswer with ⟨hmade, hnone⟩ | ⟨hnot, hsome⟩
  · exact ⟨iff_of_true hmade hnone, hafter, fun hnot => absurd hmade hnot⟩
  · refine ⟨iff_of_false hnot ?_, hafter, fun _ => hsome⟩
    rintro ⟨htext, hshown⟩
    rcases hsome with hsome | hsome
    · rw [htext] at hsome
      cases hsome
    · rw [hshown] at hsome
      cases hsome

/-- An alias that is named as a function type is written, and the workspace that has it. -/
def functionAlias : Datum :=
  .list [.symbol "type", .symbol "Fn<number>", .symbol "string"]

def withFunctionAlias : Workspace :=
  (Workspace.new {}).after (checkBlock (bodyWithin 1) [functionAlias] Arena.global) #[]

theorem arises_withFunctionAlias : withFunctionAlias.Arises :=
  ⟨{}, .single (.block 1 [functionAlias] Nat.one_pos #[])⟩

/-- What a text is resolved to next to the alias. -/
def resolvedWithAlias (text : String) : Except Halt Ty :=
  (Session.run ⟨withFunctionAlias.context, #[]⟩ (resolve text (.symbol "here"))).1

/-- Another spelling of its name stands for the alias, while a function type that takes the alias is
made of its parts. -/
theorem function_text_composes_iff_of_alias :
    withFunctionAlias.Arises ∧
      (∃ t, resolvedWithAlias "Fn< number >" = .ok t ∧
        ¬withFunctionAlias.context.MadeOf [] (.named "number") t) ∧
      ∃ t, resolvedWithAlias "Fn<string<Fn<number>>>" = .ok t ∧
        withFunctionAlias.context.MadeOf [.function [] (.named "number")] (.named "string") t := by
  have hspelled : (resolvedWithAlias "Fn< number >").toBool = true := by decide +kernel
  have hnested : (resolvedWithAlias "Fn<string<Fn<number>>>").toBool = true := by decide +kernel
  have hdeclared : (withFunctionAlias.context.declared? "Fn<number>").isSome = true := by
    decide +kernel
  have hfree : withFunctionAlias.context.declared? "Fn<string<Fn<number>>>" = none :=
    Option.isNone_iff_eq_none.mp (by decide +kernel)
  obtain ⟨s, hs⟩ := exists_ok_of_toBool hspelled
  obtain ⟨t, ht⟩ := exists_ok_of_toBool hnested
  refine ⟨arises_withFunctionAlias, ⟨s, hs, fun hmade => ?_⟩, t, ht, ?_⟩
  · have hread : TypeExpr.parse "Fn< number >" = .ok (.function [] (.named "number")) :=
      TypeExpr.parse_of_ofTokens (by cbv)
    have hnone := ((function_text_composes_iff arises_withFunctionAlias hread
      (Prod.ext hs rfl)).1.mp hmade).2
    rw [show (TypeExpr.function [] (.named "number")).shown = "Fn<number>" by cbv] at hnone
    rw [hnone] at hdeclared
    cases hdeclared
  · have hread : TypeExpr.parse "Fn<string<Fn<number>>>" =
        .ok (.function [.function [] (.named "number")] (.named "string")) :=
      TypeExpr.parse_of_ofTokens (by cbv)
    refine (function_text_composes_iff arises_withFunctionAlias hread
      (Prod.ext ht rfl)).1.mpr ⟨hfree, ?_⟩
    rwa [show (TypeExpr.function [.function [] (.named "number")] (.named "string")).shown =
      "Fn<string<Fn<number>>>" by cbv]

theorem function_text_not_composed :
    withFunctionAlias.Arises ∧
      TypeExpr.parse "Fn<number>" = .ok (.function [] (.named "number")) ∧
      ∃ t, resolvedWithAlias "Fn<number>" = .ok t ∧
        ¬withFunctionAlias.context.MadeOf [] (.named "number") t := by
  have hresolved : (resolvedWithAlias "Fn<number>").toBool = true := by decide +kernel
  have hkind : ((resolvedWithAlias "Fn<number>").map Ty.isFunction).toOption = some false := by
    decide +kernel
  obtain ⟨t, ht⟩ := exists_ok_of_toBool hresolved
  refine ⟨arises_withFunctionAlias, TypeExpr.parse_of_ofTokens (by cbv), t, ht, ?_⟩
  rintro ⟨ps, r, rfl, -⟩
  rw [ht] at hkind
  cases hkind

end Composition

section Growth

/-- What is interned and registered in a context is so in a later one, as the same symbols and types. -/
structure Context.Grows (c d : Context) : Prop where
  interned : ∀ {name s}, c.interner.get? name = some s → d.interner.get? name = some s
  registered : ∀ {name t}, c.registered? name = some t → d.registered? name = some t

theorem Workspace.Operations.grows {u v : Workspace} (h : u.Operations v) (hu : u.Arises) :
    u.context.Grows v.context := by
  obtain ⟨w, hw, hof⟩ := hu.wellFormed
  obtain ⟨x, hsteps, hx⟩ := Operations.steps h hof hw
  have hlater := hsteps.later
  rw [← hof.context, ← hx.context]
  exact ⟨hlater.names.get?, hlater.registered⟩

theorem Session.registered?_of_run_resolve {σ σ' : Session} (hσ : σ.context.Indexed)
    {text : String} (htext : ∀ c ∈ text.toList, isBlank c = false) {expr : Datum} {t : Ty}
    (h : σ.run (resolve text expr) = (.ok t, σ')) : σ'.context.registered? text = some t := by
  cases hknown : σ.context.registered? text with
  | some t' =>
      obtain ⟨ht, rfl⟩ := Prod.mk.inj ((run_resolve_of_registered? hknown expr).symm.trans h)
      rw [hknown, Except.ok.inj ht]
  | none =>
      have hanswer := (Resolves.resolve (.refl hσ) text expr).ok_iff.mp (congrArg Prod.fst h)
      rw [Context.resolvedText?, hknown, Option.none_or] at hanswer
      obtain ⟨e, he, -⟩ := Option.bind_eq_some_iff.mp hanswer
      have hparse := TypeExpr.parse_of_toOption he
      have hnamed := TypeExpr.wellNamed_of_parse hparse
      obtain rfl := TypeExpr.eq_shown_of_parse hparse htext
      rw [run_resolve_shown hnamed hσ] at h
      exact registered?_of_run_resolveExpr hnamed hσ h

/-- No operation, whatever it ends with, loses or changes what is interned or registered. So a text
without blanks that was resolved to a type is resolved to it after any operations, and this changes
nothing. -/
theorem registry_append_only {u : Workspace} (hu : u.Arises) :
    (∀ v, u.Operations v → u.context.Grows v.context) ∧
    ∀ text, (∀ c ∈ text.toList, isBlank c = false) → ∀ expr events t,
      (Session.run ⟨u.context, events⟩ (resolve text expr)).1 = .ok t →
      ∀ v, (u.after (resolve text expr) events).Operations v → ∀ expr' events',
        Session.run ⟨v.context, events'⟩ (resolve text expr') = (.ok t, ⟨v.context, events'⟩) := by
  refine ⟨fun v h => h.grows hu, ?_⟩
  intro text htext expr events t ht v hv expr' events'
  have hafter : (u.after (resolve text expr) events).Arises :=
    hu.imp fun _ hoperations => hoperations.tail (.resolve text expr events)
  obtain ⟨w, hw, hof⟩ := hu.wellFormed
  have hregistered : (u.after (resolve text expr) events).context.registered? text = some t :=
    Session.registered?_of_run_resolve (hof.context ▸ hw.indexed) htext (Prod.ext ht rfl)
  exact Session.run_resolve_of_registered? ((hv.grows hafter).registered hregistered) expr'

/-- A declaration that is refused, as its name is the text of a function type resolved before. -/
def lateAlias : Datum :=
  .list [.symbol "type", .symbol "Fn<string>", .symbol "number"]

def afterFunctionText : Workspace :=
  (Workspace.new {}).after (resolve "Fn<string>" (.symbol "here")) #[]

def afterLateAlias : Workspace :=
  afterFunctionText.after (checkBlock (bodyWithin 1) [lateAlias] Arena.global) #[]

/-- The text stands for its function type also after the declaration. -/
theorem registry_append_only_of_late_alias :
    (Workspace.new {}).Arises ∧
      (Session.run ⟨afterFunctionText.context, #[]⟩
        (checkBlock (bodyWithin 1) [lateAlias] Arena.global)).1.toBool = false ∧
      ∃ t, (Session.run ⟨Context.new {}, #[]⟩ (resolve "Fn<string>" (.symbol "here"))).1 = .ok t ∧
        Session.run ⟨afterLateAlias.context, #[]⟩ (resolve "Fn<string>" (.symbol "later")) =
          (.ok t, ⟨afterLateAlias.context, #[]⟩) := by
  have harises : (Workspace.new {}).Arises := ⟨{}, .refl⟩
  have hopen : Arena.global.index < afterFunctionText.context.scopes.size := by decide +kernel
  have hrefused : (Session.run ⟨afterFunctionText.context, #[]⟩
      (checkBlock (bodyWithin 1) [lateAlias] Arena.global)).1.toBool = false := by
    decide +kernel
  have hresolved : (Session.run ⟨Context.new {}, #[]⟩
      (resolve "Fn<string>" (.symbol "here"))).1.toBool = true := by
    decide +kernel
  obtain ⟨t, ht⟩ := exists_ok_of_toBool hresolved
  have hall : ("Fn<string>".toList.all fun c => !isBlank c) = true := by decide
  have hplain : ∀ c ∈ "Fn<string>".toList, isBlank c = false := by
    simpa only [List.all_eq_true, Bool.not_eq_true'] using hall
  refine ⟨harises, hrefused, t, ht, ?_⟩
  exact (registry_append_only harises).2 "Fn<string>" hplain (.symbol "here") #[] t ht
    afterLateAlias (.single (.block 1 [lateAlias] hopen #[])) (.symbol "later") #[]

end Growth

end TypedLisp
