import TypedLisp.Proofs.Instances.Values

namespace TypedLisp

namespace Base

variable {b : Base} {env : String → Option Ty} {name : String} {t : Ty}

theorem written_or_bindsTo {q : ScopeId} {symbol : Symbol}
    (hsymbol : b.context.interner.get? name = some symbol)
    (ht : b.context.scopes.binding? q symbol = some t) :
    t.Written b.size ∨ ∃ g, t = .template g ∧ b.context.BindsTo name g := by
  rcases (b.wellFormed.bound ht).2 with hwritten | ⟨g, -, rfl⟩
  · exact .inl hwritten
  · exact .inr ⟨g, rfl, q, symbol, Interner.get?_eq_some_iff.mp hsymbol, ht⟩

theorem envOk_lookup? (b : Base) (s : ScopeId) : b.EnvOk (b.context.lookup? s) := by
  intro name t ht
  obtain ⟨symbol, hsymbol, ht⟩ := Option.bind_eq_some_iff.mp ht
  obtain ⟨q, hq⟩ := Arena.exists_binding?_of_lookup? ht
  exact written_or_bindsTo hsymbol hq

theorem EnvOk.extend (henv : b.EnvOk env) (names : List String) {types : List Ty}
    (htypes : ∀ t ∈ types, t.Written b.size) : b.EnvOk (extendEnv env names types) := by
  intro name t ht
  rcases Option.or_eq_some_iff.mp ht with ht | ⟨-, ht⟩
  · exact .inl (htypes t (mem_of_lastPaired? ht))
  · exact henv name t ht

theorem Known.of_allows (hname : b.context.Allows b.involved name)
    (h : t.Written b.size ∨ ∃ g, t = .template g ∧ b.context.BindsTo name g) : b.Known t := by
  rcases h with hwritten | ⟨g, rfl, hbinds⟩
  · exact .inl hwritten
  · exact .inr ⟨g, rfl, hname g hbinds, name, hbinds⟩

theorem known_of_member? (hname : b.context.Allows b.involved name) {fields : ScopeId}
    (ht : b.context.member? fields name = some t) : b.Known t := by
  obtain ⟨symbol, hsymbol, ht⟩ := Option.bind_eq_some_iff.mp ht
  obtain ⟨q, hq⟩ := Arena.exists_binding?_of_member? ht
  exact .of_allows hname (written_or_bindsTo hsymbol hq)

theorem Known.rows {c : ClassTy} (h : b.Known t) (hc : t.class? = some c) :
    ∀ row ∈ c.row :: c.ancestors, row.fields.index < b.size := by
  rcases h with hwritten | ⟨g, rfl, -⟩
  · exact hwritten.class? hc
  · simp [Ty.class?] at hc

def class? (b : Base) (name : String) : Option ClassTy :=
  (b.context.registered? name).bind Ty.class?

theorem rows_of_class? {c : ClassTy} (h : b.class? name = some c) :
    ∀ row ∈ c.row :: c.ancestors, row.fields.index < b.size := by
  obtain ⟨t, ht, hc⟩ := Option.bind_eq_some_iff.mp h
  exact (b.wellFormed.registered ht).1.class? hc

def superclass? (b : Base) (name : String) : Option Ty :=
  (b.class? name).map fun c =>
    match c.superclass? with
    | some parent => .ofClass parent
    | none => .null

def constructor? (b : Base) (name : String) : Option (ClassTy × Signature) :=
  (b.class? name).bind fun c =>
    ((b.context.member? c.fields CheckM.constructorName).bind Ty.signature?).map (c, ·)

theorem written_of_superclass? (h : b.superclass? name = some t) : t.Written b.size := by
  obtain ⟨c, hc, rfl⟩ := Option.map_eq_some_iff.mp h
  have hrows := rows_of_class? hc
  obtain ⟨row, ancestors⟩ := c
  cases ancestors with
  | nil => exact .primitive .null
  | cons parent ancestors => exact .ofClass fun r hr => hrows r (List.mem_cons_of_mem _ hr)

theorem written_of_constructor? {c : ClassTy} {sig : Signature}
    (h : b.constructor? name = some (c, sig)) :
    (Ty.ofClass c).Written b.size ∧ sig.Written b.size := by
  obtain ⟨c', hc, h⟩ := Option.bind_eq_some_iff.mp h
  obtain ⟨sig', hsig, heq⟩ := Option.map_eq_some_iff.mp h
  cases heq
  refine ⟨.ofClass (rows_of_class? hc), ?_⟩
  obtain ⟨t, ht, hsig⟩ := Option.bind_eq_some_iff.mp hsig
  rcases b.wellFormed.member? ht with hwritten | ⟨g, -, rfl⟩
  · exact hwritten.signature? hsig
  · simp [Ty.signature?] at hsig

theorem written_of_signature? {parts : FunctionParts} {sig : Signature}
    (h : b.context.signature? parts = some sig) : sig.Written b.size := by
  obtain ⟨params, hparams, h⟩ := Option.bind_eq_some_iff.mp h
  obtain ⟨result, hresult, rfl⟩ := Option.map_eq_some_iff.mp h
  exact ⟨b.wellFormed.resolvedTexts? hparams, b.wellFormed.resolvedText? hresult⟩

/-- The environment of the branch that a condition guards. -/
def narrowed? (b : Base) (env : String → Option Ty) (condition : Datum) :
    Option (String → Option Ty) :=
  match CheckM.narrowing? condition with
  | none => some env
  | some (name, text) => (b.context.resolvedText? text).map fun t => extendEnv env [name] [t]

theorem EnvOk.narrowed (henv : b.EnvOk env) {env' : String → Option Ty} {condition : Datum}
    (h : b.narrowed? env condition = some env') : b.EnvOk env' := by
  rw [narrowed?] at h
  split at h
  · obtain rfl := Option.some.inj h
    exact henv
  · obtain ⟨t, ht, rfl⟩ := Option.map_eq_some_iff.mp h
    refine henv.extend _ ?_
    rintro u hu
    obtain rfl := List.mem_singleton.mp hu
    exact b.wellFormed.resolvedText? ht

end Base

namespace Value

def field? (b : Base) (field : String) : Value → Option Ty
  | known t => t.class?.bind fun c => b.context.member? c.fields field
  | generic _ => none

def allowed (b : Base) (op : Operator) : Value → Bool
  | known t => t.allowedAs op.allowed
  | generic d => op.allowed.any fun t => accepted b (.generic d) (.known t)

def operated? (b : Base) (op : Operator) (left right : Value) : Option Value :=
  if !op.isComparison && b.context.options.strictOperands && !left.allowed b op then none
  else if accepted b right left then some (if op.isComparison then .known .boolean else left)
  else none

/-- Whether values are accepted for parameters, of which `any` takes every value. -/
def acceptedEach (b : Base) : List Ty → List Value → Bool
  | param :: params, v :: vs => (param.isAny || accepted b v (.known param)) && acceptedEach b params vs
  | _, _ => true

def acceptedAt (b : Base) (s : Signature) (vs : List Value) : Bool :=
  decide (s.arity = vs.length) && acceptedEach b s.params vs

variable {b : Base} {x : Context}

theorem Is.allowedAs {v : Value} {t : Ty} (h : v.Is b x t) (op : Operator) :
    t.allowedAs op.allowed = v.allowed b op := by
  cases v with
  | known u =>
      obtain ⟨rfl, -⟩ := h
      rfl
  | generic d =>
      obtain ⟨g, rfl, hname, hserial, -, hg⟩ := h
      have hequals (p : Primitive) : (Ty.template g).equals (.primitive p) =
          accepted b (.generic d) (.known (.primitive p)) :=
        (equals_of_known hname hg.typeParams hserial (.inl (.primitive p))).1
      cases op <;> simp [Ty.allowedAs, allowed, Operator.allowed, Ty.number, Ty.string, hequals]

theorem known_of_field? {v : Value} {field : String} {t : Ty}
    (hfield : b.context.Allows b.involved field) (h : v.field? b field = some t) : b.Known t := by
  cases v with
  | known u =>
      obtain ⟨c, -, hmember⟩ := Option.bind_eq_some_iff.mp h
      exact Base.known_of_member? hfield hmember
  | generic d => cases h

theorem Is.class? {v : Value} {t : Ty} (h : v.Is b x t) (hx : b.Over x) (field : String) :
    (t.class?.bind fun c => x.member? c.fields field) = v.field? b field := by
  cases v with
  | known u =>
      obtain ⟨rfl, hu⟩ := h
      cases hc : t.class? with
      | none => simp [field?, hc]
      | some c =>
          have hmember : x.member? c.fields field = b.context.member? c.fields field :=
            hx.member? (hu.rows hc c.row (by simp)) field
          simp [field?, hc, hmember]
  | generic d =>
      obtain ⟨g, rfl, -⟩ := h
      simp [field?, Ty.class?]

end Value

namespace Performs

open CheckM

variable {makes : Prop} {b : Base} {bodies : InstanceKey → Requests.Body InstanceKey}
  {depth old : Nat} {x : Context} {env : String → Option Ty} {s : ScopeId} {t t' : Ty} {v w : Value}

theorem expect (hx : b.Over x) {c : Bool} (h : t.equals t' = c) (expr within : Datum) :
    Performs makes b bodies depth old x (CheckM.expect t t' expr within) (.require c)
      fun _ _ y => y = x := by
  refine of_run hx fun events => ?_
  rw [CheckM.expect, h]
  cases c with
  | true => exact ⟨_, events, rfl, (), rfl, rfl⟩
  | false => exact ⟨_, events, rfl, _, rfl⟩

theorem lookup (hx : b.Over x) (hs : Sees x s env) (name : String) (expr : Datum) :
    Performs makes b bodies depth old x (CheckM.lookup s name expr) (.ofAnswer (env name))
      fun u t y => t = u ∧ y = x := by
  rw [← hs.lookup name, CheckM.lookup]
  refine context_bind ?_
  cases x.lookup? s name with
  | some t => exact pure hx ⟨rfl, rfl⟩
  | none => exact reject hx _

theorem fieldType (hx : b.Over x) (hv : v.Is b x t) (field : String) (expr : Datum) :
    Performs makes b bodies depth old x (CheckM.fieldType t field expr) (.ofAnswer (v.field? b field))
      fun u t y => t = u ∧ y = x := by
  rw [← hv.class? hx field, CheckM.fieldType]
  cases t.class? with
  | none => exact reject hx _
  | some c =>
      refine context_bind ?_
      rw [Option.bind_some]
      cases x.member? c.fields field with
      | some u => exact pure hx ⟨rfl, rfl⟩
      | none => exact reject hx _

theorem operate (hx : b.Over x) (op : Operator) (hv : v.Is b x t) (hw : w.Is b x t')
    (hne : ∀ d d' g g', w = .generic d → v = .generic d' → t' = .template g → t = .template g' →
      g.serial ≠ g'.serial) (left right expr : Datum) :
    Performs makes b bodies depth old x (CheckM.operate op left right t t' expr)
      (.ofAnswer (v.operated? b op w))
      fun u t'' y => (u = .known .boolean ∧ t'' = .boolean ∨ u = v ∧ t'' = t) ∧ y = x := by
  rw [CheckM.operate, Value.operated?, ← hv.allowedAs op, ← hx.options]
  refine context_bind ?_
  dsimp only
  split
  · exact reject hx _
  · rw [← Plan.require_bind_ofAnswer]
    refine (expect hx (hw.equals hv hne) _ _).bind ?_
    rintro _ _ y - - hy rfl
    refine pure hy ⟨?_, rfl⟩
    split
    · exact .inl ⟨rfl, rfl⟩
    · exact .inr ⟨rfl, rfl⟩

theorem intern (hx : b.Over x) (name : String) :
    Performs makes b bodies depth old x (CheckM.change fun c => c.intern name) (.ofAnswer (some ()))
      fun _ symbol y => y.interner.resolve? symbol = some name :=
  of_ok (fun events => ⟨events, rfl⟩) (hx.intern name) (.of_agrees (x.agrees_intern name)) rfl
    (x.interner.resolve?_intern name)

theorem narrow (hx : b.Over x) (hs : Sees x s env) (condition : Datum) :
    Performs makes b bodies depth old x (CheckM.narrow condition s)
      (.ofAnswer (b.narrowed? env condition)) fun env' branch y => Sees y branch env' := by
  rw [CheckM.narrow, Base.narrowed?]
  cases narrowing? condition with
  | none => exact pure hx hs
  | some guarded =>
      obtain ⟨name, text⟩ := guarded
      dsimp only
      rw [Option.map_eq_bind]
      refine (of_resolves hx (.resolve hx.caches text condition)).answer_bind ?_
      rintro _ t y - hxy hy ⟨rfl, -⟩
      have hagrees := y.agrees_intern name
      have hsees := hs.before hx (hxy.toBefore.trans (.of_agrees hagrees))
      have hover := hy.intern name
      have hsymbol := y.interner.resolve?_intern name
      have hscope := Base.sees_withScope hover hsees (.cons hsymbol .nil) [t]
      refine of_ok (fun events => ⟨_, rfl⟩) ?_ ?_ ?_ hscope
      · refine hover.withScope hsees.opened ?_
        rintro entry hentry
        obtain rfl := List.mem_singleton.mp hentry
        exact Option.isSome_iff_exists.mpr ⟨name, hsymbol⟩
      · exact .of_instances
          ((Context.Before.of_agrees hagrees).trans (Context.before_withScope ..)) rfl
      · rfl

theorem internAll (hx : b.Over x) (names : List String) :
    Performs makes b bodies depth old x (CheckM.internAll names) (.ofAnswer (some ()))
      fun _ symbols y => List.Forall₂ (fun s name => y.interner.resolve? s = some name) symbols
        names := by
  induction names generalizing makes x with
  | nil => exact pure hx .nil
  | cons name names ih =>
      refine (intern hx name).ok_bind fun symbol y _ hy hsymbol => ?_
      refine (ih hy).ok_bind fun symbols z hyz hz hsymbols => ?_
      exact pure hz (.cons (hyz.interner _ _ hsymbol) hsymbols)

theorem foldl_bind_eq (c : Context) (scope : ScopeId) (bindings : List (Symbol × Ty)) :
    bindings.foldl (fun c (s, t) => c.bind scope s t) c =
      { c with scopes := c.scopes.defineAll scope bindings } := by
  induction bindings generalizing c with
  | nil => rfl
  | cons entry bindings ih => rw [List.foldl_cons, ih, Arena.defineAll_cons]; rfl

theorem openFunction (hx : b.Over x) {closure : ScopeId} (hclosure : Sees x closure env)
    {symbols : List Symbol} {names : List String}
    (hnames : List.Forall₂ (fun s name => x.interner.resolve? s = some name) symbols names)
    (types : List Ty) :
    Performs makes b bodies depth old x (CheckM.openFunction closure (symbols.zip types))
      (.ofAnswer (some ())) fun _ scope y => Sees y scope (extendEnv env names types) := by
  refine of_ok (y := x.withScope closure (symbols.zip types)) ?_ ?_
    (.of_instances (Context.before_withScope ..) rfl) rfl (Base.sees_withScope hx hclosure hnames types)
  · intro events
    refine ⟨events, ?_⟩
    have hbind := foldl_bind_eq (x.child closure).2 ⟨x.scopes.size⟩ (symbols.zip types)
    exact congrArg (fun c => (Except.ok (⟨x.scopes.size⟩ : ScopeId), Session.mk c events)) hbind
  · refine hx.withScope hclosure.opened ?_
    intro entry hentry
    obtain ⟨name, -, hname⟩ := exists_mem_of_forall₂ hnames (List.of_mem_zip hentry).1
    exact Option.isSome_iff_exists.mpr ⟨name, hname⟩

theorem child (hx : b.Over x) (hs : Sees x s env) :
    Performs makes b bodies depth old x (CheckM.change fun c => c.child s) (.ofAnswer (some ()))
      fun _ inner y => Sees y inner env :=
  of_ok (fun events => ⟨events, rfl⟩) (hx.withScope hs.opened (by simp))
    (.of_instances (Context.before_withScope x s []) rfl) rfl (Base.sees_withScope hx hs .nil [])

theorem classNamed (hx : b.Over x) {name : String}
    (hname : b.context.FindsClass name) (expr : Datum) :
    Performs makes b bodies depth old x (CheckM.classNamed name expr) (.ofAnswer (b.class? name))
      fun c c' y => c' = c ∧ y = x := by
  rw [CheckM.classNamed, Base.class?]
  refine context_bind ?_
  rcases hx.caches.registered name with hsame | ⟨hnone, e, t, hparse, hfunction, ht, hx'⟩
  · rw [hsame]
    cases b.context.registered? name with
    | none => exact reject hx _
    | some t =>
        rw [Option.bind_some]
        dsimp only
        cases t.class? with
        | none => exact reject hx _
        | some c => exact pure hx ⟨rfl, rfl⟩
  · -- The name is registered since, as a function type.
    rw [hnone, hx']
    have hclass : t.class? = none := by
      cases e with
      | named => cases hfunction
      | function params result =>
          cases hshown : b.context.registered? (TypeExpr.function params result).shown with
          | some u =>
              rw [Context.resolved?, hshown] at ht
              obtain rfl := Option.some.inj ht
              rcases hname _ hparse rfl with heq | hnoclass
              · rw [heq, hnone] at hshown
                cases hshown
              · rw [hshown] at hnoclass
                exact hnoclass
          | none =>
              rw [Context.resolved?_function_of_none hshown] at ht
              obtain ⟨ps, -, ht⟩ := Option.bind_eq_some_iff.mp ht
              obtain ⟨r, -, rfl⟩ := Option.map_eq_some_iff.mp ht
              simp [Ty.class?]
    dsimp only
    rw [hclass]
    exact reject hx _

theorem superclass (hx : b.Over x) {name : String}
    (hname : b.context.FindsClass name) (expr : Datum) :
    Performs makes b bodies depth old x (CheckM.superclass name expr) (.ofAnswer (b.superclass? name))
      fun u t y => t = u ∧ y = x := by
  rw [CheckM.superclass, Base.superclass?, Option.map_eq_bind]
  refine (classNamed hx hname expr).answer_bind ?_
  rintro c _ y - - hy ⟨rfl, rfl⟩
  exact pure hy ⟨rfl, rfl⟩

theorem constructorOf (hx : b.Over x) {name : String}
    (hname : b.context.FindsClass name) (expr : Datum) :
    Performs makes b bodies depth old x (CheckM.constructorOf name expr)
      (.ofAnswer (b.constructor? name)) fun u t y => t = u ∧ y = x := by
  rw [CheckM.constructorOf, Base.constructor?]
  refine (classNamed hx hname expr).answer_bind ?_
  rintro _ c y hc - hy ⟨rfl, rfl⟩
  refine context_bind ?_
  have hmember : y.member? c.fields constructorName = b.context.member? c.fields constructorName :=
    hy.member? (Base.rows_of_class? hc c.row (by simp)) constructorName
  rw [hmember]
  cases (b.context.member? c.fields constructorName).bind Ty.signature? with
  | none => exact reject hy _
  | some sig => exact pure hy ⟨rfl, rfl⟩

theorem acceptEach (hx : b.Over x) {params : List Ty} (hparams : ∀ p ∈ params, p.Written b.size)
    {vs : List Value} {args : List (Datum × Ty)}
    (hargs : List.Forall₂ (fun v arg => v.Is b x arg.2) vs args) (expr : Datum) :
    Performs makes b bodies depth old x (CheckM.acceptEach expr params args)
      (.require (Value.acceptedEach b params vs)) fun _ _ y => y = x := by
  induction hargs generalizing params with
  | nil =>
      cases params with
      | nil => exact pure hx rfl
      | cons param params => exact pure hx rfl
  | @cons v arg vs args hv _ ih =>
      cases params with
      | nil => exact pure hx rfl
      | cons param params =>
          obtain ⟨d, t⟩ := arg
          obtain ⟨hparam, hothers⟩ := List.forall_mem_cons.mp hparams
          have hrest := ih hothers
          rw [CheckM.acceptEach, Value.acceptedEach]
          cases hany : param.isAny with
          | true => simpa using hrest
          | false =>
              rw [Bool.false_or, ← Plan.require_bind]
              refine (expect hx (hv.equals_known (.inl hparam)) d expr).bind ?_
              rintro _ _ y - - - rfl
              exact hrest

theorem acceptArguments (hx : b.Over x) {sig : Signature}
    (hparams : ∀ p ∈ sig.params, p.Written b.size) {vs : List Value} {args : List (Datum × Ty)}
    (hargs : List.Forall₂ (fun v arg => v.Is b x arg.2) vs args) (callee : String) (expr : Datum) :
    Performs makes b bodies depth old x (CheckM.acceptArguments sig callee args expr)
      (.require (Value.acceptedAt b sig vs)) fun _ _ y => y = x := by
  rw [CheckM.acceptArguments, Value.acceptedAt, hargs.length_eq]
  by_cases harity : sig.arity = args.length
  · rw [if_neg (not_not.mpr harity), decide_eq_true harity, Bool.true_and]
    exact acceptEach hx hparams hargs expr
  · rw [if_pos harity, decide_eq_false harity, Bool.false_and]
    exact reject hx _

/-- Whether an environment knows what a call begins with, if that looks like an operator. -/
def knowsOperator (env : String → Option Ty) : Datum → Bool
  | .symbol name => !(Word.isOperatorLike name && (env name).isNone)
  | _ => true

theorem rejectUnknownOperator (hx : b.Over x) (hs : Sees x s env) (head expr : Datum) :
    Performs makes b bodies depth old x (CheckM.rejectUnknownOperator head expr s)
      (.require (knowsOperator env head)) fun _ _ y => y = x := by
  rw [CheckM.rejectUnknownOperator.eq_def]
  cases head with
  | symbol name =>
      refine context_bind ?_
      rw [knowsOperator, hs.lookup name]
      cases hlike : Word.isOperatorLike name with
      | false => exact pure hx rfl
      | true =>
          cases env name with
          | some t => exact pure hx rfl
          | none => exact reject hx _
  | list | number | text | boolean => exact pure hx rfl

end Performs

end TypedLisp
