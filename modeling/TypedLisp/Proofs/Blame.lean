import TypedLisp.Proofs.Log

namespace TypedLisp

namespace TypeError

def isMismatch : TypeError → Bool
  | typeMismatch _ _ _ _ => true
  | _ => false

/-- The expression that a rule was applied to: the one that its error is about or, of a mismatch, the
one around it. -/
def site : TypeError → Datum
  | typeMismatch _ _ _ context => context
  | e => e.expr

/-- The error of the same rule applied to another expression. -/
def movedTo (d : Datum) : TypeError → TypeError
  | undefinedName name _ => undefinedName name d
  | duplicateType name existing _ => duplicateType name existing d
  | unknownBaseType name _ => unknownBaseType name d
  | unknownType name _ => unknownType name d
  | malformedType text reason _ => malformedType text reason d
  | arityMismatch callee expected found _ => arityMismatch callee expected found d
  | typeMismatch expected actual e _ => typeMismatch expected actual e d
  | unknownOperator op _ => unknownOperator op d
  | missingActualTypes callee _ => missingActualTypes callee d
  | unknownClass name _ => unknownClass name d
  | missingConstructor className _ => missingConstructor className d
  | notCallable type _ => notCallable type d
  | notAClass type _ => notAClass type d
  | unknownField className field _ => unknownField className field d
  | malformedForm form fault _ => malformedForm form fault d

theorem description_movedTo (e : TypeError) (d : Datum) :
    (e.movedTo d).description = e.description := by
  cases e <;> rfl

end TypeError

/-- The errors of a rule that is applied to `d` and to `d'`; a mismatch is about one of the given
parts. -/
structure Moved (parts : List Datum) (d d' : Datum) (e e' : TypeError) : Prop where
  site : e.site = d
  moved : e' = e.movedTo d'
  part : e.isMismatch = true → e.expr ∈ parts

/-- Outcomes that differ in the errors at most, which are related. -/
inductive OutcomesAlike {α : Type} (R : TypeError → TypeError → Prop) :
    Except Halt α → Except Halt α → Prop where
  | ok (a : α) : OutcomesAlike R (.ok a) (.ok a)
  | rejected {e e' : TypeError} (h : R e e') :
      OutcomesAlike R (.error (.rejected e)) (.error (.rejected e'))
  | tooDeep : OutcomesAlike R (.error .tooDeep) (.error .tooDeep)

/-- In every context the two checks leave the same context and end alike, whatever was reported. -/
def Parallel {α : Type} (R : TypeError → TypeError → Prop) (m m' : CheckM α) : Prop :=
  ∀ c events events', ∃ outcome outcome' after reported reported',
    Session.run ⟨c, events⟩ m = (outcome, ⟨after, reported⟩) ∧
      Session.run ⟨c, events'⟩ m' = (outcome', ⟨after, reported'⟩) ∧
      OutcomesAlike R outcome outcome'

namespace Parallel

open CheckM

variable {α β : Type} {R Q : TypeError → TypeError → Prop} {m m' : CheckM α}

theorem pure (a : α) : Parallel R (pure a) (pure a) :=
  fun c events events' => ⟨_, _, c, events, events', rfl, rfl, .ok a⟩

theorem reject {e e' : TypeError} (h : R e e') :
    Parallel R (reject e : CheckM α) (reject e') :=
  fun c events events' => ⟨_, _, c, events, events', rfl, rfl, .rejected h⟩

theorem tooDeep : Parallel R (throw .tooDeep : CheckM α) (throw .tooDeep) :=
  fun c events events' => ⟨_, _, c, events, events', rfl, rfl, .tooDeep⟩

theorem emit (e e' : Event) : Parallel R (emit e) (emit e') :=
  fun c _ _ => ⟨_, _, c, _, _, Session.run_emit _ e, Session.run_emit _ e', .ok ()⟩

theorem context : Parallel R CheckM.context CheckM.context :=
  fun c events events' => ⟨_, _, c, events, events', rfl, rfl, .ok c⟩

theorem change (f : Context → α × Context) : Parallel R (change f) (change f) :=
  fun c events events' => ⟨_, _, (f c).2, events, events', rfl, rfl, .ok (f c).1⟩

theorem update (f : Context → Context) : Parallel R (update f) (update f) :=
  fun c events events' => ⟨_, _, f c, events, events', rfl, rfl, .ok ()⟩

theorem bind {f f' : α → CheckM β} (hm : Parallel R m m') (hf : ∀ a, Parallel R (f a) (f' a)) :
    Parallel R (m >>= f) (m' >>= f') := by
  intro c events events'
  obtain ⟨_, _, after, reported, reported', hrun, hrun', halike⟩ := hm c events events'
  cases halike with
  | ok a =>
      rw [Session.run_bind_of_ok f hrun, Session.run_bind_of_ok f' hrun']
      exact hf a after reported reported'
  | rejected h =>
      exact ⟨_, _, after, reported, reported', Session.run_bind_of_error f hrun,
        Session.run_bind_of_error f' hrun', .rejected h⟩
  | tooDeep =>
      exact ⟨_, _, after, reported, reported', Session.run_bind_of_error f hrun,
        Session.run_bind_of_error f' hrun', .tooDeep⟩

theorem tryCatch {handle handle' : Halt → CheckM α} (hm : Parallel Q m m')
    (hhandle : ∀ e e', Q e e' → Parallel R (handle (.rejected e)) (handle' (.rejected e')))
    (hdeep : Parallel R (handle .tooDeep) (handle' .tooDeep)) :
    Parallel R (tryCatch m handle) (tryCatch m' handle') := by
  intro c events events'
  obtain ⟨_, _, after, reported, reported', hrun, hrun', halike⟩ := hm c events events'
  rw [Session.run_tryCatch, Session.run_tryCatch, hrun, hrun']
  cases halike with
  | ok a => exact ⟨_, _, after, reported, reported', rfl, rfl, .ok a⟩
  | rejected h => exact hhandle _ _ h after reported reported'
  | tooDeep => exact hdeep after reported reported'

theorem mono (hm : Parallel Q m m') (h : ∀ {e e'}, Q e e' → R e e') : Parallel R m m' := by
  intro c events events'
  obtain ⟨_, _, after, reported, reported', hrun, hrun', halike⟩ := hm c events events'
  refine ⟨_, _, after, reported, reported', hrun, hrun', ?_⟩
  cases halike with
  | ok a => exact .ok a
  | rejected hq => exact .rejected (h hq)
  | tooDeep => exact .tooDeep

theorem of_ignoresLog (hm : IgnoresLog m) (hR : ∀ e, R e e) : Parallel R m m := by
  intro c events events'
  obtain ⟨outcome, after, hrun⟩ := hm.alike c
  obtain ⟨reported, hreported⟩ := hrun events
  obtain ⟨reported', hreported'⟩ := hrun events'
  refine ⟨outcome, outcome, after, reported, reported', hreported, hreported', ?_⟩
  rcases outcome with (e | -) | a
  · exact .rejected (hR e)
  · exact .tooDeep
  · exact .ok a

theorem each {f f' : β → CheckM α} (loop loop' : List β → CheckM (List α))
    (hnil : loop [] = Pure.pure []) (hnil' : loop' [] = Pure.pure [])
    (hcons : ∀ b bs, loop (b :: bs) = do
      let first ← f b
      let others ← loop bs
      return first :: others)
    (hcons' : ∀ b bs, loop' (b :: bs) = do
      let first ← f' b
      let others ← loop' bs
      return first :: others)
    {bs : List β} (hf : ∀ b ∈ bs, Parallel R (f b) (f' b)) : Parallel R (loop bs) (loop' bs) := by
  induction bs with
  | nil =>
      rw [hnil, hnil']
      exact pure []
  | cons b bs ih =>
      rw [hcons, hcons']
      refine (hf b List.mem_cons_self).bind fun first => ?_
      exact (ih fun b' hb' => hf b' (List.mem_cons_of_mem _ hb')).bind fun others => pure _

theorem define (scope : ScopeId) (name : String) (t : Ty) :
    Parallel R (define scope name t) (define scope name t) :=
  (update _).bind fun _ => pure t

theorem internAll (names : List String) : Parallel R (internAll names) (internAll names) :=
  each CheckM.internAll CheckM.internAll rfl rfl (fun _ _ => rfl) (fun _ _ => rfl) fun _ _ =>
    change _

theorem openFunction (closure : ScopeId) (bindings : List (Symbol × Ty)) :
    Parallel R (openFunction closure bindings) (openFunction closure bindings) :=
  (change _).bind fun scope => (update _).bind fun _ => pure scope

section Rules

variable {parts : List Datum} (d d' : Datum)

theorem rejectAt (e : TypeError) (hkind : e.isMismatch = false) :
    Parallel (Moved parts e.site d') (CheckM.reject e : CheckM α) (CheckM.reject (e.movedTo d')) :=
  reject ⟨rfl, rfl, fun h => absurd (hkind.symm.trans h) Bool.false_ne_true⟩

theorem expect (actual expected : Ty) {x : Datum} (hx : x ∈ parts) :
    Parallel (Moved parts d d') (expect actual expected x d) (expect actual expected x d') := by
  unfold CheckM.expect
  split
  · exact pure _
  · exact reject ⟨rfl, rfl, fun _ => hx⟩

theorem lookup (scope : ScopeId) (name : String) :
    Parallel (Moved parts d d') (lookup scope name d) (lookup scope name d') := by
  refine context.bind fun c => ?_
  cases c.lookup? scope name with
  | some t => exact pure t
  | none => exact rejectAt d' (.undefinedName name d) rfl

theorem parseType (text : String) :
    Parallel (Moved parts d d') (parseType text d) (parseType text d') := by
  unfold CheckM.parseType
  cases TypeExpr.parse text with
  | ok t => exact pure t
  | error m => exact rejectAt d' (.malformedType m.text m.reason d) rfl

theorem parseTypeList (text : String) :
    Parallel (Moved parts d d') (parseTypeList text d) (parseTypeList text d') := by
  unfold CheckM.parseTypeList
  rcases TypeExpr.parseList? text with - | (m | ts)
  · exact rejectAt d' (.malformedType text .notAList d) rfl
  · exact rejectAt d' (.malformedType m.text m.reason d) rfl
  · exact pure ts

mutual

theorem resolveExpr : ∀ e, Parallel (Moved parts d d') (resolveExpr d e) (resolveExpr d' e)
  | .named name => by
      rw [CheckM.resolveExpr, CheckM.resolveExpr]
      refine context.bind fun c => ?_
      cases c.registered? name with
      | some t => exact pure t
      | none => exact rejectAt d' (.unknownType name d) rfl
  | .function params result => by
      rw [CheckM.resolveExpr, CheckM.resolveExpr]
      refine context.bind fun c => ?_
      cases c.registered? (TypeExpr.function params result).shown with
      | some t => exact pure t
      | none =>
          refine (resolveExprs params).bind fun ps => ?_
          exact (resolveExpr result).bind fun r => change _

theorem resolveExprs : ∀ es, Parallel (Moved parts d d') (resolveExprs d es) (resolveExprs d' es)
  | [] => by
      rw [CheckM.resolveExprs, CheckM.resolveExprs]
      exact pure []
  | e :: es => by
      rw [CheckM.resolveExprs, CheckM.resolveExprs]
      refine (resolveExpr e).bind fun first => ?_
      exact (resolveExprs es).bind fun others => pure _

end

theorem actualSignature (g : Template) (actuals : List TypeExpr) :
    Parallel (Moved parts d d') (actualSignature g actuals d) (actualSignature g actuals d') :=
  (resolveExprs d d' _).bind fun _ => (resolveExpr d d' _).bind fun _ => pure _

theorem resolve (text : String) :
    Parallel (Moved parts d d') (resolve text d) (resolve text d') := by
  refine context.bind fun c => ?_
  cases c.registered? text with
  | some t => exact pure t
  | none =>
      refine (parseType d d' text).bind fun parsed => ?_
      refine (resolveExpr d d' parsed).bind fun t => ?_
      dsimp only
      split
      · exact pure t
      · exact (change _).bind fun _ => pure t

theorem resolveAll (texts : List String) :
    Parallel (Moved parts d d') (resolveAll d texts) (resolveAll d' texts) :=
  each (CheckM.resolveAll d) (CheckM.resolveAll d') rfl rfl (fun _ _ => rfl) (fun _ _ => rfl)
    fun text _ => resolve d d' text

theorem operate (op : Operator) {left right : Datum} (leftType rightType : Ty)
    (hleft : left ∈ parts) (hright : right ∈ parts) :
    Parallel (Moved parts d d') (operate op left right leftType rightType d)
      (operate op left right leftType rightType d') := by
  refine context.bind fun c => ?_
  dsimp only
  split
  · exact reject ⟨rfl, rfl, fun _ => hleft⟩
  · exact (expect d d' _ _ hright).bind fun _ => pure _

theorem declareVar (name : String) (typeText : Option String) {value : Datum} (valueType : Ty)
    (scope : ScopeId) (hvalue : value ∈ parts) :
    Parallel (Moved parts d d') (declareVar name typeText value valueType d scope)
      (declareVar name typeText value valueType d' scope) := by
  cases typeText with
  | none => exact define scope name valueType
  | some text =>
      refine (resolve d d' text).bind fun declared => ?_
      exact (expect d d' _ _ hvalue).bind fun _ => define scope name declared

theorem narrow (condition : Datum) (scope : ScopeId) :
    Parallel (Moved parts condition condition) (narrow condition scope)
      (narrow condition scope) := by
  rw [CheckM.narrow.eq_def]
  split
  · exact pure scope
  · refine (resolve condition condition _).bind fun t => (change _).bind fun branch => ?_
    exact (emit _ _).bind fun _ => (define branch _ t).bind fun _ => pure branch

theorem signature (f : FunctionParts) :
    Parallel (Moved parts d d') (signature f d) (signature f d') :=
  (resolveAll d d' _).bind fun _ => (resolve d d' _).bind fun _ => pure _

theorem templateParams (params : List Param) :
    Parallel (Moved parts d d') (templateParams d params) (templateParams d' params) := by
  induction params with
  | nil => exact pure []
  | cons p params ih =>
      refine (parseType d d' _).bind fun t => (change _).bind fun s => ?_
      exact ih.bind fun others => pure _

theorem makeTemplate (name typeList : String) (f : FunctionParts) (closure : ScopeId) :
    Parallel (Moved parts d d') (makeTemplate name typeList f d closure)
      (makeTemplate name typeList f d' closure) := by
  refine (parseTypeList d d' typeList).bind fun names => ?_
  cases plainNames? names with
  | none => exact rejectAt d' (.malformedType typeList .notPlainNames d) rfl
  | some typeParams =>
      refine (templateParams d d' _).bind fun params => (parseType d d' _).bind fun result => ?_
      exact (change _).bind fun id => pure _

theorem ensureUndeclared (name : String) :
    Parallel (Moved parts d d') (ensureUndeclared name d) (ensureUndeclared name d') := by
  refine context.bind fun c => ?_
  cases c.registered? name with
  | some existing => exact rejectAt d' (.duplicateType name existing.name d) rfl
  | none => exact pure _

theorem declare (name : String) (t : Ty) :
    Parallel (Moved parts d d') (declare name t d) (declare name t d') := by
  refine (change _).bind fun existing => ?_
  cases existing with
  | some existing => exact rejectAt d' (.duplicateType name existing.name d) rfl
  | none => exact pure _

theorem resolveBase (text : String) :
    Parallel (Moved parts d d') (resolveBase text d) (resolveBase text d') := by
  have hresolve : Parallel (Moved parts d d') (CheckM.resolve text d) (CheckM.resolve text d') :=
    resolve d d' text
  refine hresolve.tryCatch (fun e e' he => ?_) tooDeep
  obtain ⟨rfl, rfl, hpart⟩ := he
  cases e with
  | unknownType name x => exact rejectAt d' (.unknownBaseType name x) rfl
  | undefinedName | duplicateType | unknownBaseType | malformedType | arityMismatch | typeMismatch
  | unknownOperator | missingActualTypes | unknownClass | missingConstructor | notCallable
  | notAClass | unknownField | malformedForm => exact reject ⟨rfl, rfl, hpart⟩

theorem baseType (name : String) (base : TypeBase) :
    Parallel (Moved parts d d') (baseType name base d) (baseType name base d') := by
  cases base with
  | aliasOf text => exact (resolveBase d d' text).bind fun parent => pure _
  | union texts =>
      have hoptions : Parallel (Moved parts d d') (resolveBases d texts) (resolveBases d' texts) :=
        each (resolveBases d) (resolveBases d') rfl rfl (fun _ _ => rfl) (fun _ _ => rfl)
          fun text _ => resolveBase d d' text
      exact hoptions.bind fun options => context.bind fun c => pure _

theorem declareType (name : String) (base : TypeBase) :
    Parallel (Moved parts d d') (declareType name base d) (declareType name base d') := by
  refine (ensureUndeclared d d' name).bind fun _ => (baseType d d' name base).bind fun t => ?_
  exact (declare d d' name t).bind fun _ => (emit _ _).bind fun _ => pure t

theorem classNamed (name : String) :
    Parallel (Moved parts d d') (classNamed name d) (classNamed name d') := by
  refine context.bind fun c => ?_
  cases c.registered? name with
  | none => exact rejectAt d' (.unknownClass name d) rfl
  | some t =>
      dsimp only
      cases t.class? with
      | some c => exact pure c
      | none => exact rejectAt d' (.notAClass t.name d) rfl

theorem parentNamed (superclass : String) :
    Parallel (Moved parts d d') (parentNamed superclass d) (parentNamed superclass d') := by
  rw [CheckM.parentNamed, CheckM.parentNamed]
  split
  · exact pure none
  · exact (classNamed d d' superclass).bind fun c => pure (some c)

theorem declareBelow (name : String) (parent : Option ClassTy) (superclass : String)
    (scope : ScopeId) :
    Parallel (Moved parts d d') (declareBelow name parent superclass d scope)
      (declareBelow name parent superclass d' scope) := by
  refine (change _).bind fun fields => (declare d d' name _).bind fun _ => ?_
  exact (define scope name _).bind fun _ => (emit _ _).bind fun _ => pure _

theorem declareClass (name superclass : String) (scope : ScopeId) :
    Parallel (Moved parts d d') (declareClass name superclass d scope)
      (declareClass name superclass d' scope) := by
  rw [declareClass_eq, declareClass_eq]
  refine (ensureUndeclared d d' name).bind fun _ => ?_
  refine (parentNamed d d' superclass).bind fun parent => ?_
  exact declareBelow d d' name parent superclass scope

theorem superclass (name : String) :
    Parallel (Moved parts d d') (superclass name d) (superclass name d') :=
  (classNamed d d' name).bind fun _ => pure _

theorem fieldType (object : Ty) (field : String) :
    Parallel (Moved parts d d') (fieldType object field d) (fieldType object field d') := by
  unfold CheckM.fieldType
  cases object.class? with
  | none => exact rejectAt d' (.notAClass object.name d) rfl
  | some c =>
      refine context.bind fun x => ?_
      cases x.member? c.fields field with
      | some t => exact pure t
      | none => exact rejectAt d' (.unknownField c.name field d) rfl

theorem constructorOf (className : String) :
    Parallel (Moved parts d d') (constructorOf className d) (constructorOf className d') := by
  refine (classNamed d d' className).bind fun c => context.bind fun x => ?_
  cases (x.member? c.fields constructorName).bind Ty.signature? with
  | some s => exact pure (c, s)
  | none => exact rejectAt d' (.missingConstructor className d) rfl

theorem acceptEach (params : List Ty) {args : List (Datum × Ty)}
    (hargs : ∀ arg ∈ args, arg.1 ∈ parts) :
    Parallel (Moved parts d d') (acceptEach d params args) (acceptEach d' params args) := by
  induction params generalizing args with
  | nil => exact pure _
  | cons param params ih =>
      cases args with
      | nil => exact pure _
      | cons arg args =>
          obtain ⟨harg, hargs⟩ := List.forall_mem_cons.mp hargs
          rw [CheckM.acceptEach, CheckM.acceptEach]
          dsimp only
          split
          · exact ih hargs
          · exact (expect d d' _ _ harg).bind fun _ => ih hargs

theorem acceptArguments (s : Signature) (callee : String) {args : List (Datum × Ty)}
    (hargs : ∀ arg ∈ args, arg.1 ∈ parts) :
    Parallel (Moved parts d d') (acceptArguments s callee args d)
      (acceptArguments s callee args d') := by
  unfold CheckM.acceptArguments
  split
  · exact rejectAt d' (.arityMismatch callee s.arity args.length d) rfl
  · exact acceptEach d d' s.params hargs

theorem rejectUnknownOperator (head : Datum) (scope : ScopeId) :
    Parallel (Moved parts d d') (rejectUnknownOperator head d scope)
      (rejectUnknownOperator head d' scope) := by
  cases head with
  | symbol name =>
      refine context.bind fun c => ?_
      split
      · exact rejectAt d' (.unknownOperator name d) rfl
      · exact pure _
  | number | text | boolean | list => exact pure _

end Rules

section Calls

variable {inBody : BodyChecker} {d d' : Datum}

/-- Instantiating goes in parallel, as far as checking the body against the result type does. -/
theorem instantiateAt (hmoved : ∀ {e e'}, Moved [] d d' e e' → R e e')
    (hbody : ∀ body scope result, Parallel R
      (inBody body scope >>= fun t => CheckM.expect t result body d)
      (inBody body scope >>= fun t => CheckM.expect t result body d'))
    (g : Template) (actuals : List TypeExpr) (key : InstanceKey) :
    Parallel R (instantiateAt inBody g actuals key d) (instantiateAt inBody g actuals key d') := by
  refine context.bind fun c => ?_
  cases c.instance? key with
  | some s => exact pure s
  | none =>
      refine ((actualSignature d d' g actuals).mono hmoved).bind fun s => (emit _ _).bind fun _ => ?_
      refine (update _).bind fun _ => (tryCatch (Q := R) ?_ (fun e e' he => ?_) ?_).bind fun _ =>
        pure s
      · exact (openFunction _ _).bind fun scope => hbody _ scope s.result
      · exact (update _).bind fun _ => reject he
      · exact (update _).bind fun _ => tooDeep

theorem calledSignature (hmoved : ∀ {e e'}, Moved [] d d' e e' → R e e')
    (hbody : ∀ body scope result, Parallel R
      (inBody body scope >>= fun t => CheckM.expect t result body d)
      (inBody body scope >>= fun t => CheckM.expect t result body d'))
    (callee : Ty) (name : String) (typeArgs : Option String) :
    Parallel R (calledSignature inBody callee name typeArgs d)
      (calledSignature inBody callee name typeArgs d') := by
  have hrejects (e : TypeError) (hsite : e.site = d) (hkind : e.isMismatch = false) :
      Parallel R (CheckM.reject e : CheckM Signature) (CheckM.reject (e.movedTo d')) := by
    subst hsite
    exact (rejectAt d' e hkind).mono hmoved
  unfold CheckM.calledSignature
  split
  · next g list =>
      rw [instantiate_eq, instantiate_eq]
      refine ((parseTypeList d d' list).mono hmoved).bind fun actuals => ?_
      split
      · exact hrejects (.arityMismatch _ _ _ d) rfl rfl
      · refine ((resolveExprs d d' actuals).mono hmoved).bind fun types => ?_
        exact instantiateAt hmoved hbody g actuals _
  · exact hrejects (.missingActualTypes _ d) rfl rfl
  · exact hrejects (.malformedForm name .notGeneric d) rfl rfl
  · cases callee.signature? with
    | some s => exact pure s
    | none => exact hrejects (.notCallable _ d) rfl rfl

end Calls

end Parallel

end TypedLisp
