import Mathlib.Data.List.Forall2
import TypedLisp.Check.Instantiate
import TypedLisp.Proofs.Names
import TypedLisp.Proofs.Run
import TypedLisp.Proofs.TypeExpr.RoundTrip

/-!
What written types resolve to. The answer is a function of the context: a written type is what is
registered under its text, or else a function type made of what its parts resolve to. Resolving
registers the function types it makes, and no answer depends on which of them are registered already.
-/

namespace TypedLisp

theorem TypeExpr.parse_of_toOption {text : String} {e : TypeExpr}
    (h : (parse text).toOption = some e) : parse text = .ok e := by
  cases hparse : parse text with
  | error m =>
      rw [hparse] at h
      cases h
  | ok t =>
      rw [hparse] at h
      exact congrArg Except.ok (Option.some.inj h)

theorem TypeExpr.parseList?_of_toOption {list : String} {es : List TypeExpr}
    (h : (parseList? list).bind Except.toOption = some es) : parseList? list = some (.ok es) := by
  obtain ⟨parsed, hparsed, h⟩ := Option.bind_eq_some_iff.mp h
  cases parsed with
  | error m => cases h
  | ok es' =>
      obtain rfl := Option.some.inj h
      exact hparsed

namespace Context

mutual

/-- The type that an expression stands for. -/
def resolved? (c : Context) : TypeExpr → Option Ty
  | .named name => c.registered? name
  | .function params result =>
      (c.registered? (TypeExpr.function params result).shown).or
        ((resolvedEach? c params).bind fun ps => (resolved? c result).map (.function ps))

def resolvedEach? (c : Context) : List TypeExpr → Option (List Ty)
  | [] => some []
  | t :: ts => (resolved? c t).bind fun first => (resolvedEach? c ts).map (first :: ·)

end

theorem resolvedEach?_eq_some_iff {c : Context} {es : List TypeExpr} {ts : List Ty} :
    c.resolvedEach? es = some ts ↔ List.Forall₂ (fun e t => c.resolved? e = some t) es ts := by
  induction es generalizing ts with
  | nil =>
      rw [resolvedEach?, List.forall₂_nil_left_iff]
      exact ⟨fun h => (Option.some.inj h).symm, fun h => congrArg some h.symm⟩
  | cons e es ih =>
      rw [resolvedEach?, List.forall₂_cons_left_iff, Option.bind_eq_some_iff]
      constructor
      · rintro ⟨t, ht, h⟩
        obtain ⟨us, hus, rfl⟩ := Option.map_eq_some_iff.mp h
        exact ⟨t, us, ht, ih.mp hus, rfl⟩
      · rintro ⟨t, us, ht, hus, rfl⟩
        exact ⟨t, ht, by rw [ih.mpr hus]; rfl⟩

def resolvedText? (c : Context) (text : String) : Option Ty :=
  (c.registered? text).or ((TypeExpr.parse text).toOption.bind c.resolved?)

def resolvedTexts? (c : Context) : List String → Option (List Ty)
  | [] => some []
  | text :: texts =>
      (c.resolvedText? text).bind fun first => (c.resolvedTexts? texts).map (first :: ·)

def signature? (c : Context) (parts : FunctionParts) : Option Signature :=
  (c.resolvedTexts? (parts.params.map Param.typeText)).bind fun params =>
    (c.resolvedText? parts.resultText).map fun result => ⟨params, result⟩

def actualSignature? (c : Context) (g : Template) (actuals : List TypeExpr) : Option Signature :=
  let actual name := lastPaired? name g.typeParams actuals
  (c.resolvedEach? (g.params.map fun p => p.2.substitute actual)).bind fun params =>
    (c.resolved? (g.result.substitute actual)).map fun result => ⟨params, result⟩

/-- A context `x` registers what `c` does, and besides only function types that `c` can make, under
texts that are read as these types. -/
structure Caches (c x : Context) : Prop where
  interner : c.interner.Extends x.interner
  indexed : x.Indexed
  registered : ∀ text, x.registered? text = c.registered? text ∨
    c.registered? text = none ∧ ∃ e t, TypeExpr.parse text = .ok e ∧ e.isNamed = false ∧
      c.resolved? e = some t ∧ x.registered? text = some t

/-- Two contexts differ in names and registered types only. -/
structure Agrees (x y : Context) : Prop where
  interner : x.interner.Extends y.interner
  options : y.options = x.options
  scopes : y.scopes = x.scopes
  instances : y.instances = x.instances
  nextTemplate : y.nextTemplate = x.nextTemplate

theorem Agrees.refl (x : Context) : x.Agrees x :=
  ⟨.refl _, rfl, rfl, rfl, rfl⟩

theorem Agrees.trans {x y z : Context} (hxy : x.Agrees y) (hyz : y.Agrees z) : x.Agrees z where
  interner := hxy.interner.trans hyz.interner
  options := hyz.options.trans hxy.options
  scopes := hyz.scopes.trans hxy.scopes
  instances := hyz.instances.trans hxy.instances
  nextTemplate := hyz.nextTemplate.trans hxy.nextTemplate

theorem agrees_intern (x : Context) (name : String) : x.Agrees (x.intern name).2 :=
  ⟨x.interner.extends_intern name, rfl, rfl, rfl, rfl⟩

theorem agrees_enter (x : Context) (name : String) (t : Ty) : x.Agrees (x.enter name t) :=
  ⟨x.interner.extends_intern name, rfl, rfl, rfl, rfl⟩

theorem Caches.refl {c : Context} (hc : c.Indexed) : c.Caches c :=
  ⟨.refl _, hc, fun _ => .inl rfl⟩

theorem Caches.intern {c x : Context} (h : c.Caches x) (name : String) :
    c.Caches (x.intern name).2 where
  interner := h.interner.trans (x.interner.extends_intern name)
  indexed := indexed_intern h.indexed name
  registered text := by
    rw [registered?_intern h.indexed]
    exact h.registered text

theorem Caches.registered?_name {c x : Context} (h : c.Caches x) {name : String}
    (hname : TypeExpr.IsName name) : x.registered? name = c.registered? name := by
  rcases h.registered name with hsame | ⟨-, e, t, hparse, hfunction, -, -⟩
  · exact hsame
  · have hnamed := TypeExpr.parse_shown (.named hname)
    rw [TypeExpr.shown] at hnamed
    cases hparse.symm.trans hnamed
    cases hfunction

/-- A text that has no type in `c` has in `x` at most the type it is read as. -/
theorem Caches.eq_of_registered? {c x : Context} (h : c.Caches x) {text : String} {t : Ty}
    (hc : c.registered? text = none) (hx : x.registered? text = some t) :
    ∃ e, TypeExpr.parse text = .ok e ∧ c.resolved? e = some t := by
  rcases h.registered text with hsame | ⟨-, e, u, hparse, -, hresolved, hu⟩
  · rw [hsame, hc] at hx
    cases hx
  · obtain rfl := Option.some.inj (hx.symm.trans hu)
    exact ⟨e, hparse, hresolved⟩

theorem Caches.registered?_of_none {c x : Context} (h : c.Caches x) {text : String}
    (hx : x.registered? text = none) : c.registered? text = none := by
  rcases h.registered text with hsame | ⟨hc, -⟩
  · rw [← hsame, hx]
  · exact hc

theorem Caches.registered?_of_some {c x : Context} (h : c.Caches x) {text : String} {t : Ty}
    (hc : c.registered? text = some t) : x.registered? text = some t := by
  rcases h.registered text with hsame | ⟨hnone, -⟩
  · rw [hsame, hc]
  · rw [hnone] at hc
    cases hc

theorem resolved?_function_of_none {c : Context} {params : List TypeExpr} {result : TypeExpr}
    (h : c.registered? (TypeExpr.function params result).shown = none) :
    c.resolved? (.function params result) =
      (c.resolvedEach? params).bind fun ps => (c.resolved? result).map (.function ps) := by
  rw [resolved?, h, Option.none_or]

theorem Caches.resolvedText?_of_registered? {c x : Context} (h : c.Caches x) {text : String}
    {t : Ty} (hx : x.registered? text = some t) : c.resolvedText? text = some t := by
  cases hc : c.registered? text with
  | some u =>
      rw [h.registered?_of_some hc] at hx
      rw [resolvedText?, hc, hx]
      rfl
  | none =>
      obtain ⟨e, hparse, hresolved⟩ := h.eq_of_registered? hc hx
      rw [resolvedText?, hc, hparse]
      exact hresolved

theorem Caches.resolved?_of_registered? {c x : Context} (h : c.Caches x) {e : TypeExpr} {t : Ty}
    (hparse : TypeExpr.parse e.shown = .ok e) (hfunction : e.isNamed = false)
    (hx : x.registered? e.shown = some t) : c.resolved? e = some t := by
  have htext := h.resolvedText?_of_registered? hx
  rw [resolvedText?, hparse] at htext
  cases hc : c.registered? e.shown with
  | none => rwa [hc] at htext
  | some u =>
      rw [hc] at htext
      cases e with
      | named => cases hfunction
      | function params result =>
          rw [resolved?, hc]
          exact htext

theorem Caches.cache {c x : Context} (h : c.Caches x) {text : String} {e : TypeExpr} {t : Ty}
    (hparse : TypeExpr.parse text = .ok e) (hfunction : e.isNamed = false)
    (hc : c.registered? text = none) (ht : c.resolved? e = some t) :
    (x.cache text t).1 = t ∧ c.Caches (x.cache text t).2 ∧ x.Agrees (x.cache text t).2 := by
  cases hx : x.registered? text with
  | some u =>
      obtain ⟨e', hparse', hu⟩ := h.eq_of_registered? hc hx
      cases hparse.symm.trans hparse'
      rw [cache_of_some h.indexed hx]
      exact ⟨Option.some.inj (hu.symm.trans ht), h.intern text, agrees_intern x text⟩
  | none =>
      rw [cache_of_none h.indexed hx]
      refine ⟨rfl, ⟨h.interner.trans (x.interner.extends_intern text),
        indexed_enter h.indexed text t, ?_⟩, agrees_enter x text t⟩
      intro other
      rw [registered?_enter h.indexed]
      split
      · next hother =>
          subst hother
          exact .inr ⟨hc, e, t, hparse, hfunction, ht, rfl⟩
      · exact h.registered other

end Context

theorem mem_of_lastPaired? {α : Type} {name : String} {names : List String} {values : List α}
    {a : α} (h : lastPaired? name names values = some a) : a ∈ values := by
  induction names generalizing values with
  | nil => cases h
  | cons n names ih =>
      cases values with
      | nil => cases h
      | cons b values =>
          rw [lastPaired?] at h
          rcases Option.or_eq_some_iff.mp h with h | ⟨-, h⟩
          · exact List.mem_cons_of_mem _ (ih h)
          · split at h
            · obtain rfl := Option.some.inj h
              exact List.mem_cons_self
            · cases h

theorem lastPaired?_eq_none {α : Type} {name : String} {names : List String} (h : name ∉ names)
    (values : List α) : lastPaired? name names values = none := by
  induction names generalizing values with
  | nil => rfl
  | cons n names ih =>
      cases values with
      | nil => rfl
      | cons a values =>
          rw [List.mem_cons, not_or] at h
          rw [lastPaired?, ih h.2, if_neg (Ne.symm h.1)]
          rfl

theorem TypeExpr.WellNamed.substitute_actuals {e : TypeExpr} (he : e.WellNamed)
    {actuals : List TypeExpr} (hactuals : ∀ u ∈ actuals, u.WellNamed) (typeParams : List String) :
    (e.substitute fun name => lastPaired? name typeParams actuals).WellNamed :=
  he.substitute fun _ u hu => hactuals u (mem_of_lastPaired? hu)

/-- A run ends with the answer, or is rejected if there is none. -/
def Answers {α : Type} (answer : Option α) (outcome : Except Halt α) : Prop :=
  match answer with
  | some a => outcome = .ok a
  | none => ∃ e, outcome = .error (.rejected e)

/-- Run in `x`, a check ends with an answer and changes nothing but what `c` lets be added. -/
def Resolves {α : Type} (c x : Context) (m : CheckM α) (answer : Option α) : Prop :=
  ∀ events, ∃ outcome y, Session.run ⟨x, events⟩ m = (outcome, ⟨y, events⟩) ∧
    c.Caches y ∧ x.Agrees y ∧ Answers answer outcome

namespace Resolves

open CheckM

variable {α β : Type} {c x : Context}

theorem pure (hx : c.Caches x) (a : α) : Resolves c x (pure a) (some a) :=
  fun _ => ⟨.ok a, x, Session.run_pure _ a, hx, .refl x, rfl⟩

theorem reject (hx : c.Caches x) (e : TypeError) : Resolves c x (reject e : CheckM α) none :=
  fun _ => ⟨_, x, Session.run_reject _ e, hx, .refl x, e, rfl⟩

theorem bind {m : CheckM α} {f : α → CheckM β} {answer : Option α} {next : α → Option β}
    (hm : Resolves c x m answer)
    (hf : ∀ a y, answer = some a → c.Caches y → Resolves c y (f a) (next a)) :
    Resolves c x (m >>= f) (answer.bind next) := by
  intro events
  obtain ⟨outcome, y, hrun, hy, hagrees, hanswer⟩ := hm events
  cases answer with
  | none =>
      obtain ⟨e, rfl⟩ := hanswer
      exact ⟨_, y, Session.run_bind_of_error f hrun, hy, hagrees, e, rfl⟩
  | some a =>
      obtain rfl := hanswer
      obtain ⟨outcome, z, hrun', hz, hagrees', hanswer'⟩ := hf a y rfl hy events
      exact ⟨outcome, z, (Session.run_bind_of_ok f hrun).trans hrun', hz, hagrees.trans hagrees',
        hanswer'⟩

theorem map {m : CheckM α} {f : α → β} {answer : Option α} (hm : Resolves c x m answer) :
    Resolves c x (m >>= fun a => Pure.pure (f a)) (answer.map f) := by
  rw [Option.map_eq_bind]
  exact hm.bind fun a y _ hy => pure hy (f a)

theorem context_bind {f : Context → CheckM β} {answer : Option β} (h : Resolves c x (f x) answer) :
    Resolves c x (CheckM.context >>= f) answer :=
  fun events => h events

theorem parseType (hx : c.Caches x) (text : String) (expr : Datum) :
    Resolves c x (parseType text expr) (TypeExpr.parse text).toOption := by
  rw [CheckM.parseType]
  split
  · next h => rw [h]; exact pure hx _
  · next h => rw [h]; exact reject hx _

theorem cache (hx : c.Caches x) {text : String} {e : TypeExpr} {t : Ty}
    (hparse : TypeExpr.parse text = .ok e) (hfunction : e.isNamed = false)
    (hc : c.registered? text = none) (ht : c.resolved? e = some t) :
    Resolves c x (change fun c => c.cache text t) (some t) := by
  intro events
  obtain ⟨hfound, hcaches, hagrees⟩ := hx.cache hparse hfunction hc ht
  exact ⟨_, _, Session.run_change _ _, hcaches, hagrees, congrArg Except.ok hfound⟩

theorem resolveExprs_of {ts : List TypeExpr} {expr : Datum}
    (hts : ∀ t ∈ ts, ∀ {x}, c.Caches x → Resolves c x (CheckM.resolveExpr expr t) (c.resolved? t))
    (hx : c.Caches x) : Resolves c x (CheckM.resolveExprs expr ts) (c.resolvedEach? ts) := by
  induction ts generalizing x with
  | nil =>
      rw [CheckM.resolveExprs, Context.resolvedEach?]
      exact pure hx []
  | cons t ts ih =>
      rw [CheckM.resolveExprs, Context.resolvedEach?]
      refine (hts t (by simp) hx).bind fun first y _ hy => ?_
      exact (ih (fun u hu => hts u (List.mem_cons_of_mem _ hu)) hy).map

theorem resolveExpr {e : TypeExpr} (he : e.WellNamed) (hx : c.Caches x) (expr : Datum) :
    Resolves c x (CheckM.resolveExpr expr e) (c.resolved? e) := by
  induction he generalizing x with
  | @named name hname =>
      rw [CheckM.resolveExpr, Context.resolved?, ← hx.registered?_name hname]
      refine context_bind ?_
      split
      · next t ht => rw [ht]; exact pure hx t
      · next h => rw [h]; exact reject hx _
  | @function params result hparams hresult ihparams ihresult =>
      have hparse := TypeExpr.parse_shown (.function hparams hresult)
      rw [CheckM.resolveExpr]
      refine context_bind ?_
      split
      · next t ht =>
          rw [hx.resolved?_of_registered? hparse rfl ht]
          exact pure hx t
      · next h =>
          have hc := hx.registered?_of_none h
          rw [Context.resolved?_function_of_none hc]
          refine (resolveExprs_of (fun p hp _ hy => ihparams p hp hy) hx).bind
            fun ps y hps hy => ?_
          rw [Option.map_eq_bind]
          refine (ihresult hy).bind fun r z hr hz => ?_
          refine cache hz hparse rfl hc ?_
          rw [Context.resolved?_function_of_none hc, hps, hr]
          rfl

theorem resolveExprs {ts : List TypeExpr} (hts : ∀ t ∈ ts, t.WellNamed) (hx : c.Caches x)
    (expr : Datum) : Resolves c x (CheckM.resolveExprs expr ts) (c.resolvedEach? ts) :=
  resolveExprs_of (fun t ht _ hy => resolveExpr (hts t ht) hy expr) hx

theorem resolve (hx : c.Caches x) (text : String) (expr : Datum) :
    Resolves c x (CheckM.resolve text expr) (c.resolvedText? text) := by
  rw [CheckM.resolve]
  refine context_bind ?_
  split
  · next t ht =>
      rw [hx.resolvedText?_of_registered? ht]
      exact pure hx t
  · next h =>
      have hc := hx.registered?_of_none h
      rw [Context.resolvedText?, hc, Option.none_or]
      refine (parseType hx text expr).bind fun e y he hy => ?_
      have hparse := TypeExpr.parse_of_toOption he
      have hnamed := TypeExpr.wellNamed_of_parse hparse
      rw [← Option.bind_fun_some (c.resolved? e)]
      refine (resolveExpr hnamed hy expr).bind fun t z ht hz => ?_
      cases hfunction : e.isNamed with
      | true => exact pure hz t
      | false => exact (cache hz hparse hfunction hc ht).map

theorem resolveAll (hx : c.Caches x) (texts : List String) (expr : Datum) :
    Resolves c x (CheckM.resolveAll expr texts) (c.resolvedTexts? texts) := by
  induction texts generalizing x with
  | nil =>
      rw [CheckM.resolveAll, Context.resolvedTexts?]
      exact pure hx []
  | cons text texts ih =>
      rw [CheckM.resolveAll, Context.resolvedTexts?]
      exact (resolve hx text expr).bind fun first y _ hy => (ih hy).map

theorem signature (hx : c.Caches x) (parts : FunctionParts) (expr : Datum) :
    Resolves c x (CheckM.signature parts expr) (c.signature? parts) :=
  (resolveAll hx _ expr).bind fun _ _ _ hy => (resolve hy parts.resultText expr).map

theorem parseTypeList (hx : c.Caches x) (text : String) (expr : Datum) :
    Resolves c x (CheckM.parseTypeList text expr)
      ((TypeExpr.parseList? text).bind Except.toOption) := by
  rw [CheckM.parseTypeList]
  split
  · next h => rw [h]; exact pure hx _
  · next h => rw [h]; exact reject hx _
  · next h => rw [h]; exact reject hx _

theorem actualSignature (hx : c.Caches x) {g : Template} (hparams : ∀ p ∈ g.params, p.2.WellNamed)
    (hresult : g.result.WellNamed) {actuals : List TypeExpr}
    (hactuals : ∀ e ∈ actuals, e.WellNamed) (expr : Datum) :
    Resolves c x (CheckM.actualSignature g actuals expr) (c.actualSignature? g actuals) := by
  refine (resolveExprs ?_ hx expr).bind fun _ _ _ hy =>
    (resolveExpr (hresult.substitute_actuals hactuals g.typeParams) hy expr).map
  intro e he
  obtain ⟨p, hp, rfl⟩ := List.mem_map.mp he
  exact (hparams p hp).substitute_actuals hactuals g.typeParams

theorem caches {m : CheckM α} {answer : Option α} (h : Resolves c x m answer) {y : Context}
    {events events' : Array Event} {outcome : Except Halt α}
    (hrun : Session.run ⟨x, events⟩ m = (outcome, ⟨y, events'⟩)) : c.Caches y := by
  obtain ⟨_, y', hrun', hcaches, -⟩ := h events
  obtain ⟨-, hy⟩ := Prod.mk.inj (hrun.symm.trans hrun')
  obtain rfl := (Session.mk.inj hy).1
  exact hcaches

theorem indexed {m : CheckM α} {answer : Option α} (h : Resolves c x m answer) {y : Context}
    {events events' : Array Event} {outcome : Except Halt α}
    (hrun : Session.run ⟨x, events⟩ m = (outcome, ⟨y, events'⟩)) : y.Indexed :=
  (h.caches hrun).indexed

/-- A check ends with what is its answer, and with nothing else. -/
theorem ok_iff {m : CheckM α} {answer : Option α} (h : Resolves c x m answer)
    {events : Array Event} {a : α} :
    (Session.run ⟨x, events⟩ m).1 = .ok a ↔ answer = some a := by
  obtain ⟨outcome, y, hrun, -, -, hanswer⟩ := h events
  rw [hrun]
  cases answer with
  | none =>
      obtain ⟨e, rfl⟩ := hanswer
      simp
  | some b =>
      obtain rfl := hanswer
      exact ⟨fun h => congrArg some (Except.ok.inj h), fun h => congrArg Except.ok (Option.some.inj h)⟩

end Resolves

namespace Session

open CheckM

variable {σ : Session} {e : TypeExpr} {t : Ty}

theorem run_resolveExpr_of_registered? (h : σ.context.registered? e.shown = some t) (expr : Datum) :
    σ.run (resolveExpr expr e) = (.ok t, σ) := by
  cases e with
  | named name =>
      rw [TypeExpr.shown] at h
      rw [resolveExpr, run_bind_of_ok _ (run_context σ), h]
      rfl
  | function params result =>
      rw [resolveExpr, run_bind_of_ok _ (run_context σ)]
      simp only [h]
      rfl

theorem registered?_of_run_resolveExpr (he : e.WellNamed) (hσ : σ.context.Indexed) {expr : Datum}
    {σ' : Session} (h : σ.run (resolveExpr expr e) = (.ok t, σ')) :
    σ'.context.registered? e.shown = some t := by
  cases ht : σ.context.registered? e.shown with
  | some u =>
      obtain ⟨hu, rfl⟩ := Prod.mk.inj ((run_resolveExpr_of_registered? ht expr).symm.trans h)
      rw [ht, Except.ok.inj hu]
  | none =>
      cases he with
      | named hname =>
          rw [TypeExpr.shown] at ht
          rw [resolveExpr, run_bind_of_ok _ (run_context σ), ht] at h
          cases h
      | function hparams hresult =>
          rw [resolveExpr, run_bind_of_ok _ (run_context σ)] at h
          simp only [ht] at h
          obtain ⟨ps, σ₁, hps, h⟩ := run_bind_eq_ok.mp h
          obtain ⟨r, σ₂, hr, h⟩ := run_bind_eq_ok.mp h
          have hσ₁ := (Resolves.resolveExprs hparams (.refl hσ) expr).indexed hps
          have hσ₂ := (Resolves.resolveExpr hresult (.refl hσ₁) expr).indexed hr
          rw [run_change] at h
          obtain ⟨hcached, rfl⟩ := Prod.mk.inj h
          rw [← Except.ok.inj hcached]
          exact Context.registered?_cache hσ₂ _ _

theorem registered?_of_run_resolveExprs {es : List TypeExpr} {ts : List Ty}
    (hes : ∀ e ∈ es, e.WellNamed) (hσ : σ.context.Indexed) {expr : Datum} {σ' : Session}
    (h : σ.run (resolveExprs expr es) = (.ok ts, σ')) :
    List.Forall₂ (fun e t => σ'.context.registered? e.shown = some t) es ts := by
  induction es generalizing σ ts with
  | nil =>
      rw [resolveExprs] at h
      obtain rfl := Except.ok.inj (Prod.mk.inj h).1
      exact .nil
  | cons e es ih =>
      obtain ⟨he, hes⟩ := List.forall_mem_cons.mp hes
      rw [resolveExprs] at h
      obtain ⟨t, σ₁, ht, h⟩ := run_bind_eq_ok.mp h
      obtain ⟨us, σ₂, hus, h⟩ := run_bind_eq_ok.mp h
      obtain ⟨hcons, rfl⟩ := Prod.mk.inj h
      obtain rfl := Except.ok.inj hcons
      have hσ₁ := (Resolves.resolveExpr he (.refl hσ) expr).indexed ht
      have hkept := (Resolves.resolveExprs hes (.refl hσ₁) expr).caches hus
      exact .cons (hkept.registered?_of_some (registered?_of_run_resolveExpr he hσ ht))
        (ih hes hσ₁ hus)

theorem run_resolve_of_registered? {text : String} (h : σ.context.registered? text = some t)
    (expr : Datum) : σ.run (resolve text expr) = (.ok t, σ) := by
  rw [resolve, run_bind_of_ok _ (run_context σ)]
  simp only [h, run_pure]

theorem run_resolve_shown (he : e.WellNamed) (hσ : σ.context.Indexed) (expr : Datum) :
    σ.run (resolve e.shown expr) = σ.run (resolveExpr expr e) := by
  cases hshown : σ.context.registered? e.shown with
  | some t =>
      rw [run_resolveExpr_of_registered? hshown, run_resolve_of_registered? hshown]
  | none =>
      have hparse : σ.run (parseType e.shown expr) = (.ok e, σ) := by
        rw [parseType, TypeExpr.parse_shown he, run_pure]
      rw [resolve, run_bind_of_ok _ (run_context σ)]
      simp only [hshown]
      rw [run_bind_of_ok _ hparse]
      obtain ⟨outcome, σ', hrun⟩ : ∃ outcome σ', σ.run (resolveExpr expr e) = (outcome, σ') :=
        ⟨_, _, rfl⟩
      cases outcome with
      | error halt => rw [run_bind_of_error _ hrun, hrun]
      | ok t =>
          rw [run_bind_of_ok _ hrun, hrun]
          split
          · rfl
          · -- The type is registered by now, so it is not registered again.
            have hregistered := registered?_of_run_resolveExpr he hσ hrun
            have hσ' := (Resolves.resolveExpr he (.refl hσ) expr).indexed hrun
            rw [run_bind_of_ok _ (run_change _ _), Context.cache_of_some hσ' hregistered,
              Context.intern_of_registered? hregistered]
            rfl

theorem parse_of_run_parseType {text : String} {expr : Datum} {σ' : Session}
    (h : σ.run (parseType text expr) = (.ok e, σ')) : TypeExpr.parse text = .ok e ∧ σ' = σ := by
  rw [parseType] at h
  split at h
  · next hparse =>
      obtain ⟨he, rfl⟩ := Prod.mk.inj h
      exact ⟨hparse.trans (congrArg _ (Except.ok.inj he)), rfl⟩
  · cases h

end Session

end TypedLisp
