import TypedLisp.Proofs.Run

namespace TypedLisp

/-- What a rule that checks no body keeps of a context: the instances and, unless it makes one, the
number of templates. -/
structure Context.Retains (makes : Prop) (c d : Context) : Prop where
  instances : d.instances = c.instances
  nextTemplate : makes ∧ c.nextTemplate ≤ d.nextTemplate ∨ d.nextTemplate = c.nextTemplate

theorem Context.Retains.refl (makes : Prop) (c : Context) : c.Retains makes c :=
  ⟨rfl, .inr rfl⟩

theorem Context.Retains.le {makes : Prop} {c d : Context} (h : c.Retains makes d) :
    c.nextTemplate ≤ d.nextTemplate := by
  rcases h.nextTemplate with ⟨-, hle⟩ | hsame
  · exact hle
  · exact Nat.le_of_eq hsame.symm

theorem Context.Retains.trans {makes : Prop} {c d e : Context} (hcd : c.Retains makes d)
    (hde : d.Retains makes e) : c.Retains makes e where
  instances := hde.instances.trans hcd.instances
  nextTemplate := by
    rcases hcd.nextTemplate with ⟨hmakes, -⟩ | hsame
    · exact .inl ⟨hmakes, Nat.le_trans hcd.le hde.le⟩
    · rw [← hsame]
      exact hde.nextTemplate

/-- A rule that checks no body: it reads and changes the context, leaving the instances there were,
reports, and may reject. It does not look at the log and is not stopped for depth. -/
inductive Local (makes : Prop) : {α : Type} → CheckM α → Prop where
  | pure {α : Type} (a : α) : Local makes (pure a)
  | reject {α : Type} (e : TypeError) : Local makes (CheckM.reject e : CheckM α)
  | emit (e : Event) : Local makes (CheckM.emit e)
  | context : Local makes CheckM.context
  | change {α : Type} {f : Context → α × Context} (hf : ∀ c : Context, c.Retains makes (f c).2) :
      Local makes (CheckM.change f)
  | update {f : Context → Context} (hf : ∀ c : Context, c.Retains makes (f c)) :
      Local makes (CheckM.update f)
  | bind {α β : Type} {m : CheckM α} {f : α → CheckM β} (hm : Local makes m)
      (hf : ∀ a, Local makes (f a)) : Local makes (m >>= f)
  | tryCatch {α : Type} {m : CheckM α} {handle : Halt → CheckM α} (hm : Local makes m)
      (hhandle : ∀ e, Local makes (handle (.rejected e)))
      (hdeep : handle .tooDeep = throw .tooDeep) : Local makes (tryCatch m handle)

namespace Local

open CheckM

variable {makes : Prop} {α β : Type}

theorem run {m : CheckM α} (hm : Local makes m) (σ : Session) :
    ∃ outcome σ', outcome ≠ .error .tooDeep ∧ σ.context.Retains makes σ'.context ∧
      σ.run m = (outcome, σ') := by
  induction hm generalizing σ with
  | pure a => exact ⟨.ok a, σ, by simp, .refl _ _, rfl⟩
  | reject e => exact ⟨.error (.rejected e), σ, by simp, .refl _ _, rfl⟩
  | emit e =>
      exact ⟨.ok (), { σ with events := σ.events.push e }, by simp, .refl _ _, Session.run_emit σ e⟩
  | context => exact ⟨.ok σ.context, σ, by simp, .refl _ _, rfl⟩
  | change hf => exact ⟨.ok _, _, by simp, hf σ.context, Session.run_change σ _⟩
  | update hf => exact ⟨.ok (), _, by simp, hf σ.context, Session.run_update σ _⟩
  | @bind _ _ _ f _ _ ihm ihf =>
      obtain ⟨outcome, σ₁, hdeep, hfirst, hrun⟩ := ihm σ
      cases outcome with
      | error halt =>
          exact ⟨.error halt, σ₁, by simpa using hdeep, hfirst, Session.run_bind_of_error f hrun⟩
      | ok a =>
          obtain ⟨outcome', σ₂, hdeep', hsecond, hrun'⟩ := ihf a σ₁
          exact ⟨outcome', σ₂, hdeep', hfirst.trans hsecond,
            (Session.run_bind_of_ok f hrun).trans hrun'⟩
  | tryCatch _ _ _ ihm ihhandle =>
      obtain ⟨outcome, σ₁, hdeep, hfirst, hrun⟩ := ihm σ
      rw [Session.run_tryCatch, hrun]
      rcases outcome with (e | -) | a
      · obtain ⟨outcome', σ₂, hdeep', hsecond, hrun'⟩ := ihhandle e σ₁
        exact ⟨outcome', σ₂, hdeep', hfirst.trans hsecond, hrun'⟩
      · exact absurd rfl hdeep
      · exact ⟨.ok a, σ₁, by simp, hfirst, rfl⟩

theorem define (scope : ScopeId) (name : String) (t : Ty) :
    Local makes (define scope name t) := by
  refine (update fun c => ?_).bind fun _ => pure t
  exact ⟨rfl, .inr rfl⟩

theorem lookup (scope : ScopeId) (name : String) (expr : Datum) :
    Local makes (lookup scope name expr) := by
  refine context.bind fun c => ?_
  split
  · exact pure _
  · exact reject _

theorem parseType (text : String) (expr : Datum) : Local makes (parseType text expr) := by
  rw [CheckM.parseType]
  split
  · exact pure _
  · exact reject _

theorem parseTypeList (text : String) (expr : Datum) : Local makes (parseTypeList text expr) := by
  rw [CheckM.parseTypeList]
  split
  · exact pure _
  · exact reject _
  · exact reject _

theorem each {m : β → CheckM α} (loop : List β → CheckM (List α)) (hnil : loop [] = Pure.pure [])
    (hcons : ∀ b bs, loop (b :: bs) = do
      let first ← m b
      let others ← loop bs
      return first :: others) {bs : List β} (hm : ∀ b ∈ bs, Local makes (m b)) :
    Local makes (loop bs) := by
  induction bs with
  | nil =>
      rw [hnil]
      exact pure []
  | cons b bs ih =>
      rw [hcons]
      refine (hm b List.mem_cons_self).bind fun first => ?_
      exact (ih fun b' hb' => hm b' (List.mem_cons_of_mem _ hb')).bind fun others => pure _

mutual

theorem resolveExpr (expr : Datum) : ∀ e, Local makes (resolveExpr expr e)
  | .named name => by
      rw [CheckM.resolveExpr]
      refine context.bind fun c => ?_
      split
      · exact pure _
      · exact reject _
  | .function params result => by
      rw [CheckM.resolveExpr]
      refine context.bind fun c => ?_
      split
      · exact pure _
      · refine (resolveExprs expr params).bind fun ps => ?_
        exact (resolveExpr expr result).bind fun r => change fun _ => ⟨rfl, .inr rfl⟩

theorem resolveExprs (expr : Datum) : ∀ es, Local makes (resolveExprs expr es)
  | [] => by
      rw [CheckM.resolveExprs]
      exact pure []
  | e :: es => by
      rw [CheckM.resolveExprs]
      refine (resolveExpr expr e).bind fun first => ?_
      exact (resolveExprs expr es).bind fun others => pure _

end

theorem actualSignature (g : Template) (actuals : List TypeExpr) (expr : Datum) :
    Local makes (actualSignature g actuals expr) :=
  (resolveExprs expr _).bind fun _ => (resolveExpr expr _).bind fun _ => pure _

theorem resolve (text : String) (expr : Datum) : Local makes (resolve text expr) := by
  refine context.bind fun c => ?_
  split
  · exact pure _
  · refine (parseType text expr).bind fun parsed => ?_
    refine (resolveExpr expr parsed).bind fun t => ?_
    dsimp only
    split
    · exact pure t
    · exact (change fun _ => ⟨rfl, .inr rfl⟩).bind fun _ => pure t

theorem resolveAll (expr : Datum) (texts : List String) : Local makes (resolveAll expr texts) :=
  each (CheckM.resolveAll expr) rfl (fun _ _ => rfl) fun text _ => resolve text expr

theorem expect (actual expected : Ty) (expr within : Datum) :
    Local makes (expect actual expected expr within) := by
  rw [CheckM.expect]
  split
  · exact pure _
  · exact reject _

theorem operate (op : Operator) (left right : Datum) (leftType rightType : Ty) (expr : Datum) :
    Local makes (operate op left right leftType rightType expr) := by
  refine context.bind fun c => ?_
  dsimp only
  split
  · exact reject _
  · exact (expect _ _ _ _).bind fun _ => pure _

theorem declareVar (name : String) (typeText : Option String) (value : Datum) (valueType : Ty)
    (expr : Datum) (scope : ScopeId) :
    Local makes (declareVar name typeText value valueType expr scope) := by
  rw [CheckM.declareVar.eq_def]
  split
  · exact define _ _ _
  · refine (resolve _ expr).bind fun declared => ?_
    exact (expect _ _ _ _).bind fun _ => define _ _ _

theorem narrow (condition : Datum) (scope : ScopeId) : Local makes (narrow condition scope) := by
  rw [CheckM.narrow.eq_def]
  split
  · exact pure _
  · refine (resolve _ condition).bind fun t => ?_
    refine (change fun _ => ⟨rfl, .inr rfl⟩).bind fun branch => ?_
    exact (emit _).bind fun _ => (define _ _ _).bind fun _ => pure _

theorem signature (parts : FunctionParts) (expr : Datum) : Local makes (signature parts expr) :=
  (resolveAll expr _).bind fun _ => (resolve _ expr).bind fun _ => pure _

theorem internAll (names : List String) : Local makes (internAll names) :=
  each CheckM.internAll rfl (fun _ _ => rfl) fun _ _ =>
    change fun _ => ⟨rfl, .inr rfl⟩

theorem openFunction (closure : ScopeId) (bindings : List (Symbol × Ty)) :
    Local makes (openFunction closure bindings) := by
  refine (change fun _ => ⟨rfl, .inr rfl⟩).bind fun scope => ?_
  refine (update fun c => ?_).bind fun _ => pure scope
  induction bindings generalizing c with
  | nil => exact .refl makes c
  | cons b bindings ih =>
      have hbind : c.Retains makes (c.bind scope b.1 b.2) := ⟨rfl, .inr rfl⟩
      exact hbind.trans (ih _)

theorem templateParams (expr : Datum) (params : List Param) :
    Local makes (templateParams expr params) := by
  induction params with
  | nil => exact pure []
  | cons p params ih =>
      refine (parseType _ expr).bind fun t => ?_
      refine (change fun _ => ⟨rfl, .inr rfl⟩).bind fun s => ?_
      exact ih.bind fun others => pure _

theorem makeTemplate (hmakes : makes) (name typeList : String) (parts : FunctionParts)
    (expr : Datum) (closure : ScopeId) :
    Local makes (makeTemplate name typeList parts expr closure) := by
  refine (parseTypeList typeList expr).bind fun names => ?_
  split
  · exact reject _
  · refine (templateParams expr _).bind fun params => ?_
    refine (parseType _ expr).bind fun result => ?_
    exact (change fun _ => ⟨rfl, .inl ⟨hmakes, Nat.le_succ _⟩⟩).bind fun serial => pure _

theorem ensureUndeclared (name : String) (expr : Datum) :
    Local makes (ensureUndeclared name expr) := by
  refine context.bind fun c => ?_
  split
  · exact reject _
  · exact pure _

theorem declare (name : String) (t : Ty) (expr : Datum) : Local makes (declare name t expr) := by
  refine (change fun c => ?_).bind fun existing => ?_
  · rw [Context.declare]
    dsimp only
    split
    · exact ⟨rfl, .inr rfl⟩
    · exact ⟨rfl, .inr rfl⟩
  split
  · exact reject _
  · exact pure _

theorem resolveBase (text : String) (expr : Datum) : Local makes (resolveBase text expr) := by
  refine (resolve text expr).tryCatch (fun e => ?_) rfl
  split
  · exact reject _
  · exact reject e

theorem baseType (name : String) (base : TypeBase) (expr : Datum) :
    Local makes (baseType name base expr) := by
  rw [CheckM.baseType.eq_def]
  split
  · exact (resolveBase _ expr).bind fun parent => pure _
  · have hoptions (texts : List String) : Local makes (resolveBases expr texts) :=
      each (resolveBases expr) rfl (fun _ _ => rfl) fun text _ => resolveBase text expr
    exact (hoptions _).bind fun options => context.bind fun c => pure _

theorem declareType (name : String) (base : TypeBase) (expr : Datum) :
    Local makes (declareType name base expr) := by
  refine (ensureUndeclared name expr).bind fun _ => ?_
  refine (baseType name base expr).bind fun t => ?_
  exact (declare name t expr).bind fun _ => (emit _).bind fun _ => pure t

theorem classNamed (name : String) (expr : Datum) : Local makes (classNamed name expr) := by
  refine context.bind fun c => ?_
  split
  · exact reject _
  · split
    · exact pure _
    · exact reject _

theorem parentNamed (superclass : String) (expr : Datum) :
    Local makes (parentNamed superclass expr) := by
  rw [CheckM.parentNamed]
  split
  · exact pure none
  · exact (classNamed superclass expr).bind fun c => pure (some c)

theorem declareBelow (name : String) (parent : Option ClassTy) (superclass : String) (expr : Datum)
    (scope : ScopeId) : Local makes (declareBelow name parent superclass expr scope) := by
  refine (change fun _ => ⟨rfl, .inr rfl⟩).bind fun fields => ?_
  refine (declare name _ expr).bind fun _ => ?_
  exact (define _ _ _).bind fun _ => (emit _).bind fun _ => pure _

theorem declareClass (name superclass : String) (expr : Datum) (scope : ScopeId) :
    Local makes (declareClass name superclass expr scope) := by
  rw [declareClass_eq]
  refine (ensureUndeclared name expr).bind fun _ => ?_
  refine (parentNamed superclass expr).bind fun parent => ?_
  exact declareBelow name parent superclass expr scope

theorem superclass (name : String) (expr : Datum) : Local makes (superclass name expr) :=
  (classNamed name expr).bind fun _ => pure _

theorem fieldType (object : Ty) (field : String) (expr : Datum) :
    Local makes (fieldType object field expr) := by
  rw [CheckM.fieldType.eq_def]
  split
  · exact reject _
  · refine context.bind fun c => ?_
    split
    · exact pure _
    · exact reject _

theorem constructorOf (className : String) (expr : Datum) :
    Local makes (constructorOf className expr) := by
  refine (classNamed className expr).bind fun c => context.bind fun _ => ?_
  split
  · exact pure _
  · exact reject _

theorem acceptEach (expr : Datum) (params : List Ty) (args : List (Datum × Ty)) :
    Local makes (acceptEach expr params args) := by
  induction params generalizing args with
  | nil => exact pure _
  | cons param params ih =>
      cases args with
      | nil => exact pure _
      | cons arg args =>
          rw [CheckM.acceptEach]
          dsimp only
          split
          · exact ih args
          · exact (expect _ _ _ _).bind fun _ => ih args

theorem acceptArguments (s : Signature) (callee : String) (args : List (Datum × Ty))
    (expr : Datum) : Local makes (acceptArguments s callee args expr) := by
  rw [CheckM.acceptArguments]
  split
  · exact reject _
  · exact acceptEach _ _ _

theorem rejectUnknownOperator (head expr : Datum) (scope : ScopeId) :
    Local makes (rejectUnknownOperator head expr scope) := by
  rw [CheckM.rejectUnknownOperator.eq_def]
  split
  · refine context.bind fun c => ?_
    split
    · exact reject _
    · exact pure _
  · exact pure _

end Local

end TypedLisp
