import TypedLisp.Session

namespace TypedLisp

theorem exists_ok_of_toBool {α : Type} {outcome : Except Halt α} (h : outcome.toBool = true) :
    ∃ a, outcome = .ok a := by
  cases outcome with
  | ok a => exact ⟨a, rfl⟩
  | error halt => simp [Except.toBool] at h

/-- The kind of reason a check stops for. -/
def Halt.kind : Halt → Option String
  | rejected e => some e.description
  | tooDeep => none

/-- The kind of error that a check is rejected with. -/
def rejection? {α : Type} : Except Halt α → Option String
  | .ok _ => none
  | .error halt => halt.kind

namespace Session

open CheckM

variable {α β : Type}

@[simp]
theorem run_pure (σ : Session) (a : α) : σ.run (pure a) = (.ok a, σ) := rfl

@[simp]
theorem run_throw (σ : Session) (h : Halt) :
    σ.run (throw h : CheckM α) = (.error h, σ) := rfl

@[simp]
theorem run_reject (σ : Session) (e : TypeError) :
    σ.run (reject e : CheckM α) = (.error (.rejected e), σ) := rfl

@[simp]
theorem run_emit (σ : Session) (e : Event) :
    σ.run (emit e) = (.ok (), { σ with events := σ.events.push e }) := rfl

@[simp]
theorem run_context (σ : Session) : σ.run CheckM.context = (.ok σ.context, σ) := rfl

@[simp]
theorem run_change (σ : Session) (f : Context → α × Context) :
    σ.run (change f) = (.ok (f σ.context).1, { σ with context := (f σ.context).2 }) := rfl

@[simp]
theorem run_update (σ : Session) (f : Context → Context) :
    σ.run (update f) = (.ok (), { σ with context := f σ.context }) := rfl

theorem run_bind (σ : Session) (m : CheckM α) (f : α → CheckM β) :
    σ.run (m >>= f) =
      match σ.run m with
      | (.ok a, σ') => σ'.run (f a)
      | (.error h, σ') => (.error h, σ') := by
  unfold Session.run ExceptT.run StateT.run
  simp only [bind, ExceptT.bind, ExceptT.mk, StateT.bind]
  generalize m σ = outcome
  obtain ⟨result, σ'⟩ := outcome
  cases result <;> rfl

theorem run_bind_of_ok {σ σ' : Session} {m : CheckM α} {a : α} (f : α → CheckM β)
    (h : σ.run m = (.ok a, σ')) : σ.run (m >>= f) = σ'.run (f a) := by
  rw [run_bind, h]

theorem run_bind_of_error {σ σ' : Session} {m : CheckM α} {e : Halt} (f : α → CheckM β)
    (h : σ.run m = (.error e, σ')) : σ.run (m >>= f) = (.error e, σ') := by
  rw [run_bind, h]

theorem run_bind_eq_ok {σ σ' : Session} {m : CheckM α} {f : α → CheckM β} {b : β} :
    σ.run (m >>= f) = (.ok b, σ') ↔
      ∃ a σ₁, σ.run m = (.ok a, σ₁) ∧ σ₁.run (f a) = (.ok b, σ') := by
  constructor
  · intro h
    obtain ⟨outcome, σ₁, hm⟩ : ∃ outcome σ₁, σ.run m = (outcome, σ₁) := ⟨_, _, rfl⟩
    cases outcome with
    | ok a => exact ⟨a, σ₁, hm, (run_bind_of_ok f hm).symm.trans h⟩
    | error halt => exact nomatch (run_bind_of_error f hm).symm.trans h
  · rintro ⟨a, σ₁, hm, hf⟩
    exact (run_bind_of_ok f hm).trans hf

theorem run_bind_eq_error {σ σ' : Session} {m : CheckM α} {f : α → CheckM β} {halt : Halt} :
    σ.run (m >>= f) = (.error halt, σ') ↔ σ.run m = (.error halt, σ') ∨
      ∃ a σ₁, σ.run m = (.ok a, σ₁) ∧ σ₁.run (f a) = (.error halt, σ') := by
  constructor
  · intro h
    obtain ⟨outcome, σ₁, hm⟩ : ∃ outcome σ₁, σ.run m = (outcome, σ₁) := ⟨_, _, rfl⟩
    cases outcome with
    | ok a => exact .inr ⟨a, σ₁, hm, (run_bind_of_ok f hm).symm.trans h⟩
    | error halt' =>
        cases (run_bind_of_error f hm).symm.trans h
        exact .inl hm
  · rintro (hm | ⟨a, σ₁, hm, hf⟩)
    · exact run_bind_of_error f hm
    · exact (run_bind_of_ok f hm).trans hf

theorem run_bind_congr {σ : Session} {m m' : CheckM α} {f f' : α → CheckM β}
    (hm : σ.run m = σ.run m')
    (hf : ∀ a σ', σ.run m' = (.ok a, σ') → σ'.run (f a) = σ'.run (f' a)) :
    σ.run (m >>= f) = σ.run (m' >>= f') := by
  rw [run_bind, run_bind, hm]
  rcases hrun : σ.run m' with ⟨outcome, σ'⟩
  cases outcome with
  | error halt => rfl
  | ok a => exact hf a σ' hrun

theorem run_tryCatch (σ : Session) (m : CheckM α) (handle : Halt → CheckM α) :
    σ.run (tryCatch m handle) =
      match σ.run m with
      | (.ok a, σ') => (.ok a, σ')
      | (.error h, σ') => σ'.run (handle h) := by
  unfold Session.run ExceptT.run StateT.run
  simp only [tryCatch, tryCatchThe, MonadExceptOf.tryCatch, ExceptT.tryCatch, ExceptT.mk, bind,
    StateT.bind]
  generalize m σ = outcome
  obtain ⟨result, σ'⟩ := outcome
  cases result <;> rfl

end Session

namespace CheckM

/-- Record an instance for as long as a check runs, and keep it if the check is accepted. -/
def provisionally (key : InstanceKey) (sig : Signature) (check : CheckM Unit) :
    CheckM Signature := do
  update fun c => c.record key sig
  tryCatch check fun halt => do
    update fun c => c.forget key
    throw halt
  return sig

/-- Instantiating at types that are resolved. -/
def instantiateAt (inBody : Datum → ScopeId → CheckM Ty) (g : Template) (actuals : List TypeExpr)
    (key : InstanceKey) (expr : Datum) : CheckM Signature := do
  match (← context).instance? key with
  | some s => return s
  | none =>
      let s ← actualSignature g actuals expr
      emit (.instantiated g s)
      provisionally key s
        (checkFunctionBody inBody g.closure ((g.params.map Prod.fst).zip s.params)
          (actualBody g key.actuals) s.result expr)

theorem instantiate_eq (inBody : Datum → ScopeId → CheckM Ty) (g : Template) (list : String)
    (expr : Datum) :
    instantiate inBody g list expr = (do
      let actuals ← parseTypeList list expr
      if actuals.length ≠ g.typeParams.length then
        reject (.arityMismatch g.shown g.typeParams.length actuals.length expr)
      else
        let types ← resolveExprs expr actuals
        instantiateAt inBody g actuals ⟨g.id, types.map Ty.name⟩ expr) :=
  rfl

/-- The superclass that a class is declared with. -/
def parentNamed (superclass : String) (expr : Datum) : CheckM (Option ClassTy) :=
  if superclass = rootWord then pure none else some <$> classNamed superclass expr

/-- Declare a class once its superclass is known. -/
def declareBelow (name : String) (parent : Option ClassTy) (superclass : String) (expr : Datum)
    (scope : ScopeId) : CheckM ClassTy := do
  let fields ← change fun c => c.memberTable (parent.map ClassTy.fields) scope
  let c := ClassTy.extending name fields parent
  declare name (.ofClass c) expr
  let _ ← define scope name (.ofClass c)
  emit (.classDeclared name superclass)
  return c

theorem declareClass_eq (name superclass : String) (expr : Datum) (scope : ScopeId) :
    declareClass name superclass expr scope = (do
      ensureUndeclared name expr
      let parent ← parentNamed superclass expr
      declareBelow name parent superclass expr scope) := by
  rw [declareClass, parentNamed]
  split <;> rfl

section Forms

variable {inBody : Datum → ScopeId → CheckM Ty} {d : Datum} {s : ScopeId}

/-- How an expression of a known form is checked. -/
def checkForm (inBody : Datum → ScopeId → CheckM Ty) (d : Datum) (scope : ScopeId) :
    Form → CheckM Ty
  | .number _ => return .number
  | .text _ => return .string
  | .boolean _ => return .boolean
  | .name n => lookup scope n d
  | .binary op [left, right] => do
      let leftType ← checkExpr inBody left scope
      let rightType ← checkExpr inBody right scope
      operate op left right leftType rightType d
  | .binary op operands => reject (.arityMismatch op.text 2 operands.length d)
  | .var n typeText value => do
      let t ← checkExpr inBody value scope
      declareVar n typeText value t d scope
  | .assign (.name n) value => do
      let declared ← lookup scope n d
      let t ← checkExpr inBody value scope
      expect t declared value d
      return declared
  | .assign (.field object field) value => do
      let objectType ← checkExpr inBody object scope
      let declared ← fieldType objectType field d
      let t ← checkExpr inBody value scope
      expect t declared value d
      return declared
  | .block body => do
      let inner ← change fun c => c.child scope
      checkBlock inBody body inner
  | .cond condition whenTrue whenFalse => do
      let t ← checkExpr inBody condition scope
      expect t .boolean condition d
      let branch ← narrow condition scope
      let trueType ← checkExpr inBody whenTrue branch
      let falseType ← checkExpr inBody whenFalse scope
      expect falseType trueType whenFalse d
      return trueType
  | .loop condition body => do
      let t ← checkExpr inBody condition scope
      expect t .boolean condition d
      checkExpr inBody body scope
  | .define n (some typeList) parts => do
      let t ← makeTemplate n typeList parts d scope
      emit (.templateDeclared t)
      define scope n t
  | .define n none parts => do
      let sig ← signature parts d
      let _ ← define scope n sig.toTy
      checkFunction inBody parts.params sig parts.body d scope
      emit (.functionDeclared n sig.toTy)
      define scope n sig.toTy
  | .lambda (some typeList) parts => makeTemplate "lambda" typeList parts d scope
  | .lambda none parts => do
      let sig ← signature parts d
      checkFunction inBody parts.params sig parts.body d scope
      return sig.toTy
  | .typeDecl n base => declareType n base d
  | .classDecl n parent body => do
      let c ← declareClass n parent d scope
      let _ ← checkBody inBody body c.fields
      return .ofClass c
  | .new className args => do
      let (c, sig) ← constructorOf className d
      let types ← checkEach inBody args scope
      let self := (Datum.symbol className, Ty.ofClass c)
      acceptArguments sig (className ++ " " ++ constructorName) (self :: args.zip types) d
      return .ofClass c
  | .super className => superclass className d
  | .prop object field => do
      let t ← checkExpr inBody object scope
      fieldType t field d
  | .call (.plain head typeArgs) args => do
      rejectUnknownOperator head d scope
      let callee ← checkExpr inBody head scope
      let sig ← calledSignature inBody callee head.shown typeArgs d
      let types ← checkEach inBody args scope
      acceptArguments sig head.shown (args.zip types) d
      return sig.result
  | .call (.fused n typeArgs) args => do
      let callee ← lookup scope n d
      let sig ← calledSignature inBody callee n (some typeArgs) d
      let types ← checkEach inBody args scope
      acceptArguments sig n (args.zip types) d
      return sig.result

theorem checkExpr_of_error {m : Misshapen} (h : Form.classify d = .error m) :
    checkExpr inBody d s = reject (.malformedForm m.form m.fault d) := by
  rw [checkExpr]
  split
  · next h' =>
      cases h.symm.trans h'
      rfl
  · next h' => cases h.symm.trans h'

theorem checkExpr_of_classify {form : Form} (h : Form.classify d = .ok form) :
    checkExpr inBody d s = (do
      emit (.checking d s)
      checkForm inBody d s form) := by
  rw [checkExpr]
  split
  · next h' => cases h.symm.trans h'
  · next h' =>
      cases h.symm.trans h'
      split <;> rw [checkForm]
      assumption

end Forms

theorem plainNames?_named (names : List String) :
    plainNames? (names.map .named) = some names := by
  induction names with
  | nil => rfl
  | cons name names ih => rw [List.map_cons, plainNames?, ih, Option.map_some]

theorem run_makeTemplate (σ : Session) {list result : String} {names : List String} {t : TypeExpr}
    (hlist : TypeExpr.parseList? list = some (.ok (names.map .named)))
    (hresult : TypeExpr.parse result = .ok t) (name : String) (body expr : Datum)
    (closure : ScopeId) :
    σ.run (makeTemplate name list ⟨[], result, body⟩ expr closure) =
      (.ok (.template ⟨σ.context.nextTemplate, name, names, [], t, body, closure⟩),
        { σ with context := σ.context.newTemplate.2 }) := by
  have hparse : σ.run (parseTypeList list expr) = (.ok (names.map .named), σ) := by
    rw [parseTypeList, hlist, Session.run_pure]
  have hparseResult : σ.run (parseType result expr) = (.ok t, σ) := by
    rw [parseType, hresult, Session.run_pure]
  rw [makeTemplate, Session.run_bind_of_ok _ hparse]
  simp only [plainNames?_named, templateParams, pure_bind]
  rw [Session.run_bind_of_ok _ hparseResult, Session.run_bind_of_ok _ (Session.run_change σ _),
    Session.run_pure]
  rfl

theorem run_provisionally (σ : Session) (key : InstanceKey) (sig : Signature)
    (check : CheckM Unit) :
    σ.run (provisionally key sig check) =
      match Session.run { σ with context := σ.context.record key sig } check with
      | (.ok _, σ') => (.ok sig, σ')
      | (.error halt, σ') => (.error halt, { σ' with context := σ'.context.forget key }) := by
  rw [provisionally, Session.run_bind, Session.run_update]
  dsimp only
  rw [Session.run_bind, Session.run_tryCatch]
  generalize Session.run _ check = result
  obtain ⟨outcome, σ'⟩ := result
  cases outcome <;> rfl

theorem nextTemplate_run_provisionally (σ : Session) (key : InstanceKey) (sig : Signature)
    (check : CheckM Unit) :
    (σ.run (provisionally key sig check)).2.context.nextTemplate =
      (Session.run { σ with context := σ.context.record key sig } check).2.context.nextTemplate := by
  rw [run_provisionally]
  generalize Session.run _ check = result
  obtain ⟨outcome, σ'⟩ := result
  cases outcome <;> rfl

theorem run_provisionally_of_ok {σ σ' : Session} {key : InstanceKey} {sig : Signature}
    {check : CheckM Unit}
    (h : Session.run { σ with context := σ.context.record key sig } check = (.ok (), σ')) :
    σ.run (provisionally key sig check) = (.ok sig, σ') := by
  rw [run_provisionally, h]

theorem run_provisionally_of_error {σ σ' : Session} {key : InstanceKey} {sig : Signature}
    {check : CheckM Unit} {halt : Halt}
    (h : Session.run { σ with context := σ.context.record key sig } check = (.error halt, σ')) :
    σ.run (provisionally key sig check) =
      (.error halt, { σ' with context := σ'.context.forget key }) := by
  rw [run_provisionally, h]

end CheckM

end TypedLisp
