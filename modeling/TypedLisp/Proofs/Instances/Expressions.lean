import TypedLisp.Proofs.Instances.Templates

namespace TypedLisp

def beginItems? : Datum → Option (List Datum)
  | .list (.symbol tag :: items) => if tag = Keyword.begin.text then some items else none
  | _ => none

theorem eq_of_beginItems? {e : Datum} {items : List Datum} (h : beginItems? e = some items) :
    e = .list (.symbol Keyword.begin.text :: items) := by
  rw [beginItems?.eq_def] at h
  split at h
  · split at h
    · next htag =>
        obtain rfl := Option.some.inj h
        rw [htag]
    · cases h
  · cases h

theorem CheckM.checkBody_eq (inBody : Datum → ScopeId → CheckM Ty) (e : Datum) (s : ScopeId) :
    checkBody inBody e s =
      match beginItems? e with
      | some items => checkBlock inBody items s
      | none => checkExpr inBody e s := by
  rw [checkBody.eq_def]
  split
  · next tag items =>
      rw [beginItems?]
      by_cases htag : tag = Keyword.begin.text
      · rw [if_pos htag, if_pos htag]
      · rw [if_neg htag, if_neg htag]
  · next hother =>
      rw [beginItems?]
      exact hother

/-- An expression declares nothing and uses no template it may not; nor does it make one, unless that is
allowed. -/
structure Base.Permits (b : Base) (d : Datum) : Prop where
  quiet : Quiet b.context b.involved d
  makes : MakesTemplate d → b.makes

namespace Base.Permits

variable {b : Base} {d e : Datum}

theorem inside (h : b.Permits d) (he : Inside e d) : b.Permits e where
  quiet := h.quiet.inside he
  makes hmakes := by
    cases he with
    | part hd he => exact h.makes (.inside hd he hmakes)
    | body hd => exact h.makes (.here hd rfl)

theorem transGen (h : b.Permits d) (he : Relation.TransGen Inside e d) : b.Permits e := by
  induction he with
  | single he => exact h.inside he
  | tail _ he ih => exact ih (h.inside he)

theorem of_form {f : Form} (hd : Form.classify d = .ok f) (hform : f.Quiet b.context b.involved)
    (hplain : f.isGeneric = false) (hparts : ∀ e ∈ f.parts, b.Permits e) : b.Permits d where
  quiet := by
    refine .intro ?_ ?_
    · intro f' hd'
      cases hd.symm.trans hd'
      exact hform
    · rintro e (⟨hd', he⟩ | ⟨hd', -, -⟩)
      · cases hd.symm.trans hd'
        exact (hparts e he).quiet
      · cases hd.symm.trans hd'
        cases hplain
  makes hmakes := by
    by_contra hnone
    refine not_makesTemplate_of_parts hd hplain (fun e he h => ?_) hmakes
    exact hnone ((hparts e he).makes h)

theorem symbol {n : String} (h : b.context.Allows b.involved n) : b.Permits (.symbol n) :=
  of_form (f := .name n) rfl h rfl nofun

theorem boolean (value : Bool) : b.Permits (.boolean value) :=
  of_form (f := .boolean value) rfl trivial rfl nofun

theorem text (value : String) : b.Permits (.text value) :=
  of_form (f := .text value) rfl trivial rfl nofun

theorem block {items : List Datum} (h : ∀ e ∈ items, b.Permits e) :
    b.Permits (.list (.symbol "begin" :: items)) :=
  of_form (f := .block items) rfl trivial rfl h

theorem pair (hd : b.Permits d) (he : b.Permits e) : ∀ x ∈ [d, e], b.Permits x :=
  List.forall_mem_cons.mpr ⟨hd, List.forall_mem_singleton.mpr he⟩

theorem apply {tag : String} {rest : List Datum} (hoperator : Operator.ofText? tag = none)
    (hkeyword : Keyword.ofText? tag = none) (hfused : Word.splitFused? tag = none)
    (htag : b.context.Allows b.involved tag) (hrest : ∀ e ∈ rest, b.Permits e) :
    b.Permits (.list (.symbol tag :: rest)) := by
  have hclassify : Form.classify (.list (.symbol tag :: rest)) =
      .ok (Form.plainCall (.symbol tag) rest) := by
    rw [Form.classify, Form.ofTagged, hoperator, hkeyword, hfused]
  refine of_form hclassify trivial rfl ?_
  intro e he
  rcases List.mem_cons.mp he with rfl | he
  · exact symbol htag
  · have hitems : Form.listItems (Form.splitTypeList rest).1 ++ (Form.splitTypeList rest).2 = rest :=
      Form.append_of_splitTypeList rfl
    exact hrest e (hitems ▸ List.mem_append_right _ he)

end Base.Permits

namespace Base

variable (b : Base) (env : String → Option Ty)

/-- Where an environment is seen, checking an expression goes as planned. -/
def Goes (e : Datum) (p : Plan Value) : Prop :=
  ∀ bodies depth, b.Correct bodies depth → ∀ x s, b.Over x → Sees x s env →
    Performs b.makes b bodies depth x.nextTemplate x (CheckM.checkExpr (CheckM.bodyWithin depth) e s) p
      (Value.Yields b e x)

open Classical in
/-- A plan of an expression, if it has one. -/
noncomputable def plan (e : Datum) (env : String → Option Ty) : Plan Value :=
  if h : ∃ p, b.Goes env e p then h.choose else .ofAnswer none

/-- An expression has a plan in every environment of names that the base knows. -/
def Planned (e : Datum) : Prop :=
  ∀ env, b.EnvOk env → b.Goes env e (b.plan e env)

noncomputable def blockPlan : List Datum → Plan Value
  | [] => .ofAnswer (some (.known .null))
  | [e] => b.plan e env
  | e :: next :: es => (b.plan e env).bind fun _ => blockPlan (next :: es)

noncomputable def bodyPlan (e : Datum) (env : String → Option Ty) : Plan Value :=
  match beginItems? e with
  | some items => b.blockPlan env items
  | none => b.plan e env

noncomputable def eachPlan : List Datum → Plan (List Value)
  | [] => .ofAnswer (some [])
  | e :: es => (b.plan e env).bind fun v => (eachPlan es).bind fun vs => .ofAnswer (some (v :: vs))

noncomputable def argumentsPlan (sig : Signature) (args : List Datum) : Plan Ty :=
  (b.eachPlan env args).bind fun vs =>
    (Plan.require (Value.acceptedAt b sig vs)).bind fun _ => .ofAnswer (some sig.result)

noncomputable def callPlan (args : List Datum) : Callee → Plan Ty
  | .plain head typeArgs =>
      (Plan.require (Performs.knowsOperator env head)).bind fun _ =>
        (b.plan head env).bind fun v => (b.calledPlan b.bodyPlan v typeArgs).bind fun sig =>
          b.argumentsPlan env sig args
  | .fused n typeArgs =>
      (Plan.ofAnswer (env n)).bind fun t =>
        (b.calledPlan b.bodyPlan (.known t) (some typeArgs)).bind fun sig =>
          b.argumentsPlan env sig args

noncomputable def assignPlan (value : Datum) (declared : Ty) : Plan Value :=
  (b.plan value env).bind fun v =>
    (Plan.require (v.accepted b (.known declared))).bind fun _ => .ofAnswer (some (.known declared))

/-- What a form asks for and answers. Declarations are out of the question here. -/
noncomputable def formPlan : Form → Plan Value
  | .number _ => .ofAnswer (some (.known .number))
  | .text _ => .ofAnswer (some (.known .string))
  | .boolean _ => .ofAnswer (some (.known .boolean))
  | .name n => (Plan.ofAnswer (env n)).map .known
  | .binary op [left, right] =>
      (b.plan left env).bind fun v => (b.plan right env).bind fun w =>
        .ofAnswer (v.operated? b op w)
  | .binary _ _ => .ofAnswer none
  | .assign (.name n) value => (Plan.ofAnswer (env n)).bind (b.assignPlan env value)
  | .assign (.field object field) value =>
      (b.plan object env).bind fun o =>
        (Plan.ofAnswer (o.field? b field)).bind (b.assignPlan env value)
  | .block body => b.blockPlan env body
  | .cond condition whenTrue whenFalse =>
      (b.plan condition env).bind fun c =>
        (Plan.require (c.accepted b (.known .boolean))).bind fun _ =>
          (Plan.ofAnswer (b.narrowed? env condition)).bind fun env' =>
            (b.plan whenTrue env').bind fun v => (b.plan whenFalse env).bind fun w =>
              (Plan.require (w.accepted b v)).bind fun _ => .ofAnswer (some v)
  | .loop condition body =>
      (b.plan condition env).bind fun c =>
        (Plan.require (c.accepted b (.known .boolean))).bind fun _ => b.plan body env
  | .lambda (some list) parts => (Plan.ofAnswer (Generic.ofParts? env list parts)).map .generic
  | .lambda none parts =>
      (Plan.ofAnswer (b.context.signature? parts)).bind fun sig =>
        ((b.bodyPlan parts.body (extendEnv env (parts.params.map Param.name) sig.params)).returning b
          sig.result).bind fun _ => .ofAnswer (some (.known sig.toTy))
  | .new className args =>
      (Plan.ofAnswer (b.constructor? className)).bind fun cs =>
        (b.eachPlan env args).bind fun vs =>
          (Plan.require (Value.acceptedAt b cs.2 (.known (.ofClass cs.1) :: vs))).bind fun _ =>
            .ofAnswer (some (.known (.ofClass cs.1)))
  | .super className => (Plan.ofAnswer (b.superclass? className)).map .known
  | .prop object field =>
      (b.plan object env).bind fun o => (Plan.ofAnswer (o.field? b field)).map .known
  | .call callee args => (b.callPlan env args callee).map .known
  | .var .. | .define .. | .typeDecl .. | .classDecl .. => .ofAnswer none

theorem goes_plan {b : Base} {env : String → Option Ty} {e : Datum} {p : Plan Value}
    (h : b.Goes env e p) : b.Goes env e (b.plan e env) := by
  have hexists : ∃ p, b.Goes env e p := ⟨p, h⟩
  rw [plan, dif_pos hexists]
  exact hexists.choose_spec

end Base

/-- A check in a scope of a context over the base, where bodies go as given. -/
structure Starts (b : Base) (bodies : InstanceKey → Requests.Body InstanceKey) (depth old : Nat)
    (env : String → Option Ty) (s : ScopeId) (x : Context) : Prop where
  correct : b.Correct bodies depth
  envOk : b.EnvOk env
  standing : b.Over x
  sees : Sees x s env
  old : old ≤ x.nextTemplate

variable {b : Base} {bodies : InstanceKey → Requests.Body InstanceKey} {depth old : Nat}
  {env : String → Option Ty} {s : ScopeId} {x y : Context} {d e : Datum}

theorem Starts.before (h : Starts b bodies depth old env s x) (hy : b.Over y)
    (hxy : x.Before y) : Starts b bodies depth old env s y where
  correct := h.correct
  envOk := h.envOk
  standing := hy
  sees := h.sees.before h.standing hxy
  old := Nat.le_trans h.old hxy.nextTemplate

namespace Performs

open CheckM

theorem checkExpr (h : Starts b bodies depth old env s x) (he : b.Planned e) :
    Performs b.makes b bodies depth old x (CheckM.checkExpr (bodyWithin depth) e s) (b.plan e env)
      fun v t y => Value.Yields b e x v t y ∧ b.Before x.nextTemplate x y :=
  ((he env h.envOk bodies depth h.correct x s h.standing h.sees).mono
    fun _ _ _ _ hxy _ hv => ⟨hv, hxy⟩).weaken h.old

theorem checkBlock {ds : List Datum} (h : Starts b bodies depth old env s x)
    (hds : ∀ e ∈ ds, b.Planned e) (hinside : ∀ e ∈ ds, Inside e d) {x₀ : Context}
    (hx₀ : x₀.Before x) :
    Performs b.makes b bodies depth old x (CheckM.checkBlock (bodyWithin depth) ds s)
      (b.blockPlan env ds) (Value.Yields b d x₀) := by
  induction ds generalizing x with
  | nil =>
      rw [CheckM.checkBlock, Base.blockPlan]
      exact pure h.standing (.known (.inl (.primitive .null)))
  | cons e es ih =>
      have he := checkExpr h (hds e (by simp))
      cases es with
      | nil =>
          rw [CheckM.checkBlock, Base.blockPlan]
          exact he.mono fun _ _ _ _ _ _ hv => hv.1.inside (hinside e (by simp)) hx₀
      | cons next es =>
          rw [CheckM.checkBlock, Base.blockPlan]
          refine he.andThen fun _ _ y _ hxy hy _ => ?_
          exact ih (h.before hy hxy.toBefore) (fun i hi => hds i (List.mem_cons_of_mem _ hi))
            (fun i hi => hinside i (List.mem_cons_of_mem _ hi)) (hx₀.trans hxy.toBefore)

theorem checkEach {ds : List Datum} (h : Starts b bodies depth old env s x)
    (hds : ∀ e ∈ ds, b.Planned e) :
    Performs b.makes b bodies depth old x (CheckM.checkEach (bodyWithin depth) ds s) (b.eachPlan env ds)
      fun vs ts y => List.Forall₂ (fun v arg => v.Is b y arg.2) vs (ds.zip ts) := by
  induction ds generalizing x with
  | nil =>
      rw [CheckM.checkEach, Base.eachPlan]
      exact pure h.standing .nil
  | cons e es ih =>
      rw [CheckM.checkEach, Base.eachPlan]
      refine (checkExpr h (hds e (by simp))).andThen fun v t y _ hxy hy hv => ?_
      refine (ih (h.before hy hxy.toBefore) fun i hi => hds i (List.mem_cons_of_mem _ hi)).andThen
        fun vs ts z _ hyz hz hvs => ?_
      exact pure hz (.cons (hv.1.is.before hy hyz.toBefore) hvs)

end Performs

theorem Base.bodyGoes (he : b.Planned e) (hinside : ∀ i, Inside i e → b.Planned i)
    (henv : b.EnvOk env) : b.BodyGoes e env (b.bodyPlan e env) := by
  intro bodies depth hcorrect x s hx hs
  have hstarts : Starts b bodies depth x.nextTemplate env s x :=
    ⟨hcorrect, henv, hx, hs, Nat.le_refl _⟩
  rw [CheckM.checkBody_eq, Base.bodyPlan]
  cases hitems : beginItems? e with
  | none => exact (Performs.checkExpr hstarts he).mono fun _ _ _ _ _ _ hv => hv.1
  | some items =>
      obtain rfl := eq_of_beginItems? hitems
      have hitem : ∀ i ∈ items, Inside i (.list (.symbol Keyword.begin.text :: items)) :=
        fun i hi => .part (Form.classify_begin items) hi
      exact Performs.checkBlock hstarts (fun i hi => hinside i (hitem i hi)) hitem (.refl x)

namespace Performs

open CheckM

theorem binary {left right : Datum} (h : Starts b bodies depth old env s x)
    (hleft : b.Planned left) (hright : b.Planned right) (hinside : Inside left d)
    (op : Operator) :
    Performs b.makes b bodies depth old x (do
        let leftType ← CheckM.checkExpr (bodyWithin depth) left s
        let rightType ← CheckM.checkExpr (bodyWithin depth) right s
        CheckM.operate op left right leftType rightType d)
      (b.formPlan env (.binary op [left, right])) (Value.Yields b d x) := by
  rw [Base.formPlan]
  refine (checkExpr h hleft).andThen fun v t y _ hxy hy hv => ?_
  refine (checkExpr (h.before hy hxy.toBefore) hright).andThen fun w t' z _ _ hz hw => ?_
  have hkept := hv.1.later hy hw.2
  refine (operate hz op hkept.is hw.1.is (hv.1.ne hw.1) left right d).mono ?_
  rintro u t'' _ - - - ⟨⟨rfl, rfl⟩ | ⟨rfl, rfl⟩, rfl⟩
  · exact .known (.inl (.primitive .boolean))
  · exact hkept.inside hinside (.refl x)

theorem assign {value : Datum} {declared : Ty} (h : Starts b bodies depth old env s x)
    (hvalue : b.Planned value) (hdeclared : b.Known declared) {x₀ : Context} :
    Performs b.makes b bodies depth old x (do
        let t ← CheckM.checkExpr (bodyWithin depth) value s
        CheckM.expect t declared value d
        return declared)
      (b.assignPlan env value declared) (Value.Yields b d x₀) := by
  refine (checkExpr h hvalue).andThen fun v t y _ _ hy hv => ?_
  refine (expect hy (hv.1.is.equals_known hdeclared) value d).bind fun _ _ z _ _ hz _ => ?_
  exact pure hz (.known hdeclared)

theorem cond {condition whenTrue whenFalse : Datum} (h : Starts b bodies depth old env s x)
    (hcondition : b.Planned condition) (htrue : b.Planned whenTrue) (hfalse : b.Planned whenFalse)
    (hinside : Inside whenTrue d) :
    Performs b.makes b bodies depth old x (do
        let t ← CheckM.checkExpr (bodyWithin depth) condition s
        CheckM.expect t .boolean condition d
        let branch ← CheckM.narrow condition s
        let trueType ← CheckM.checkExpr (bodyWithin depth) whenTrue branch
        let falseType ← CheckM.checkExpr (bodyWithin depth) whenFalse s
        CheckM.expect falseType trueType whenFalse d
        return trueType)
      (b.formPlan env (.cond condition whenTrue whenFalse)) (Value.Yields b d x) := by
  have hboolean : b.Known .boolean := .inl (.primitive .boolean)
  rw [Base.formPlan]
  refine (checkExpr h hcondition).andThen fun c t y _ hxy hy hc => ?_
  refine (expect hy (hc.1.is.equals_known hboolean) condition d).bind ?_
  rintro _ _ _ - - - rfl
  have hstarts := h.before hy hxy.toBefore
  refine (narrow hy hstarts.sees condition).bind fun env' branch z henv' hyz hz hbranch => ?_
  have hstarts' : Starts b bodies depth old env' branch z :=
    ⟨h.correct, h.envOk.narrowed henv', hz, hbranch, (hstarts.before hz hyz.toBefore).old⟩
  refine (checkExpr hstarts' htrue).andThen fun v t z' _ hzz' hz' hv => ?_
  have hxz' := (hxy.toBefore.trans hyz.toBefore).trans hzz'.toBefore
  refine (checkExpr (h.before hz' hxz') hfalse).andThen fun w t' u _ _ hu hw => ?_
  have hkept := hv.1.later hz' hw.2
  refine (expect hu (hw.1.is.equals hkept.is (hv.1.ne hw.1)) whenFalse d).bind ?_
  rintro _ _ _ - - - rfl
  exact pure hu (hkept.inside hinside (hxy.toBefore.trans hyz.toBefore))

theorem loop {condition body : Datum} (h : Starts b bodies depth old env s x)
    (hcondition : b.Planned condition) (hbody : b.Planned body) (hinside : Inside body d) :
    Performs b.makes b bodies depth old x (do
        let t ← CheckM.checkExpr (bodyWithin depth) condition s
        CheckM.expect t .boolean condition d
        CheckM.checkExpr (bodyWithin depth) body s)
      (b.formPlan env (.loop condition body)) (Value.Yields b d x) := by
  have hboolean : b.Known .boolean := .inl (.primitive .boolean)
  rw [Base.formPlan]
  refine (checkExpr h hcondition).andThen fun c t y _ hxy hy hc => ?_
  refine (expect hy (hc.1.is.equals_known hboolean) condition d).bind ?_
  rintro _ _ _ - - - rfl
  exact (checkExpr (h.before hy hxy.toBefore) hbody).mono
    fun _ _ _ _ _ _ hv => hv.1.inside hinside hxy.toBefore

theorem plainFunction {parts : FunctionParts} (h : Starts b bodies depth old env s x)
    (hbody : ∀ env, b.EnvOk env → b.BodyGoes parts.body env (b.bodyPlan parts.body env)) :
    Performs b.makes b bodies depth old x (do
        let sig ← CheckM.signature parts d
        CheckM.checkFunction (bodyWithin depth) parts.params sig parts.body d s
        return sig.toTy)
      (b.formPlan env (.lambda none parts)) (Value.Yields b d x) := by
  rw [Base.formPlan]
  refine (of_resolves h.standing (.signature h.standing.caches parts d)).bind ?_
  rintro _ sig y hsig hxy hy ⟨rfl, -⟩
  have hwritten := Base.written_of_signature? hsig
  have hstarts := h.before hy hxy.toBefore
  have hfunction : Performs b.makes b bodies depth old y
      (CheckM.checkFunction (bodyWithin depth) parts.params sig parts.body d s)
      ((b.bodyPlan parts.body (extendEnv env (parts.params.map Param.name) sig.params)).returning b
        sig.result) fun _ _ _ => True := by
    rw [CheckM.checkFunction]
    refine (internAll hy _).ok_bind fun symbols z hyz hz hsymbols => ?_
    have hstarts' := hstarts.before hz hyz.toBefore
    exact checkFunctionBody (hbody _ (h.envOk.extend _ hwritten.params)) h.correct hz hstarts'.old
      hstarts'.sees hsymbols hwritten.result d
  refine hfunction.andThen fun _ _ z _ _ hz _ => ?_
  exact pure hz (.known (.inl hwritten.toTy))

theorem construct {className : String} {args : List Datum} (h : Starts b bodies depth old env s x)
    (hname : b.context.FindsClass className)
    (hargs : ∀ e ∈ args, b.Planned e) :
    Performs b.makes b bodies depth old x (do
        let cs ← CheckM.constructorOf className d
        let types ← CheckM.checkEach (bodyWithin depth) args s
        let self := (Datum.symbol className, Ty.ofClass cs.1)
        CheckM.acceptArguments cs.2 (className ++ " " ++ constructorName) (self :: args.zip types) d
        return .ofClass cs.1)
      (b.formPlan env (.new className args)) (Value.Yields b d x) := by
  rw [Base.formPlan]
  refine (constructorOf h.standing hname d).bind ?_
  rintro _ cs y hcs hxy hy ⟨rfl, rfl⟩
  obtain ⟨hclass, hsig⟩ := Base.written_of_constructor? hcs
  refine (checkEach h hargs).andThen fun vs types z _ _ hz hvs => ?_
  have hself : (Value.known (.ofClass cs.1)).Is b z (.ofClass cs.1) := ⟨rfl, .inl hclass⟩
  refine (acceptArguments hz hsig.params (.cons hself hvs) _ d).bind ?_
  rintro _ _ _ - - - rfl
  exact pure hz (.known (.inl hclass))

theorem arguments {sig : Signature} {args : List Datum} (h : Starts b bodies depth old env s x)
    (hargs : ∀ e ∈ args, b.Planned e) (hsig : sig.Written b.size) (callee : String) :
    Performs b.makes b bodies depth old x (do
        let types ← CheckM.checkEach (bodyWithin depth) args s
        CheckM.acceptArguments sig callee (args.zip types) d
        return sig.result)
      (b.argumentsPlan env sig args) fun u t _ => t = u ∧ u.Written b.size := by
  refine (checkEach h hargs).andThen fun vs types y _ _ hy hvs => ?_
  refine (acceptArguments hy hsig.params hvs callee d).bind ?_
  rintro _ _ _ - - - rfl
  exact pure hy ⟨rfl, hsig.result⟩

theorem callPlain {head : Datum} {typeArgs : Option String} {args : List Datum}
    (h : Starts b bodies depth old env s x) (hhead : b.Planned head)
    (hargs : ∀ e ∈ args, b.Planned e)
    (hbodies : ∀ e env, Relation.TransGen Inside e head → b.EnvOk env →
      b.BodyGoes e env (b.bodyPlan e env)) :
    Performs b.makes b bodies depth old x (do
        CheckM.rejectUnknownOperator head d s
        let callee ← CheckM.checkExpr (bodyWithin depth) head s
        let sig ← CheckM.calledSignature (bodyWithin depth) callee head.shown typeArgs d
        let types ← CheckM.checkEach (bodyWithin depth) args s
        CheckM.acceptArguments sig head.shown (args.zip types) d
        return sig.result)
      (b.callPlan env args (.plain head typeArgs)) fun u t _ => t = u ∧ u.Written b.size := by
  rw [Base.callPlan]
  refine (rejectUnknownOperator h.standing h.sees head d).bind ?_
  rintro _ _ _ - - - rfl
  refine (checkExpr h hhead).andThen fun v t y _ hxy hy hv => ?_
  refine (calledSignature h.correct hy hv.1 hxy.nextTemplate h.old hbodies head.shown typeArgs
    d).andThen ?_
  rintro _ sig z - hyz hz ⟨rfl, hsig⟩
  exact arguments (h.before hz (hxy.toBefore.trans hyz.toBefore)) hargs hsig head.shown

theorem callFused {n typeArgs : String} {args : List Datum}
    (h : Starts b bodies depth old env s x) (hname : b.context.Allows b.involved n)
    (hargs : ∀ e ∈ args, b.Planned e)
    (hbodies : ∀ e env, Relation.TransGen Inside e d → b.EnvOk env →
      b.BodyGoes e env (b.bodyPlan e env)) :
    Performs b.makes b bodies depth old x (do
        let callee ← CheckM.lookup s n d
        let sig ← CheckM.calledSignature (bodyWithin depth) callee n (some typeArgs) d
        let types ← CheckM.checkEach (bodyWithin depth) args s
        CheckM.acceptArguments sig n (args.zip types) d
        return sig.result)
      (b.callPlan env args (.fused n typeArgs)) fun u t _ => t = u ∧ u.Written b.size := by
  rw [Base.callPlan]
  refine (lookup h.standing h.sees n d).bind ?_
  rintro _ t y ht - - ⟨rfl, rfl⟩
  have hknown : b.Known t := .of_allows hname (h.envOk n t ht)
  refine (calledSignature h.correct h.standing (.known (e := d) (x := y) hknown) (Nat.le_refl _) h.old
    hbodies n (some typeArgs) d).andThen ?_
  rintro _ sig z - hyz hz ⟨rfl, hsig⟩
  exact arguments (h.before hz hyz.toBefore) hargs hsig n

end Performs

/-- All that is inside an expression has plans. -/
def Base.PlannedInside (b : Base) (d : Datum) : Prop :=
  ∀ e, Relation.TransGen Inside e d → b.Planned e

namespace Base.PlannedInside

theorem part (h : b.PlannedInside d) {form : Form} (hd : Form.classify d = .ok form)
    (he : e ∈ form.parts) : b.Planned e :=
  h e (.single (.part hd he))

theorem bodyGoes (h : b.PlannedInside d) (he : Relation.TransGen Inside e d) (henv : b.EnvOk env) :
    b.BodyGoes e env (b.bodyPlan e env) :=
  Base.bodyGoes (h e he) (fun i hi => h i (.head hi he)) henv

end Base.PlannedInside

namespace Performs

open CheckM

/-- A call gives a type of the base, and the same one in all contexts over it. -/
theorem call {callee : Callee} {args : List Datum} (h : Starts b bodies depth old env s x)
    (hd : Form.classify d = .ok (.call callee args)) (hpermits : b.Permits d)
    (hinside : b.PlannedInside d) :
    Performs b.makes b bodies depth old x (CheckM.checkExpr (bodyWithin depth) d s)
      (b.callPlan env args callee) fun u t _ => t = u ∧ u.Written b.size := by
  rw [CheckM.checkExpr]
  split
  · next hd' => cases hd.symm.trans hd'
  · next hd' =>
      cases hd.symm.trans hd'
      refine emit_bind ?_
      cases callee with
      | plain head typeArgs =>
          have hhead : Inside head d := .part hd List.mem_cons_self
          refine callPlain h (hinside _ (.single hhead))
            (fun e he => hinside.part hd (List.mem_cons_of_mem _ he)) ?_
          exact fun e env he henv => hinside.bodyGoes (he.tail hhead) henv
      | fused n typeArgs =>
          exact callFused h (hpermits.quiet.form hd) (fun e he => hinside.part hd he)
            fun e env he henv => hinside.bodyGoes he henv

theorem form {form : Form} (h : Starts b bodies depth old env s x)
    (hd : Form.classify d = .ok form) (hpermits : b.Permits d)
    (hinside : b.PlannedInside d) :
    Performs b.makes b bodies depth old x (CheckM.checkExpr (bodyWithin depth) d s) (b.formPlan env form)
      (Value.Yields b d x) := by
  by_cases hcall : ∃ callee args, form = .call callee args
  · obtain ⟨callee, args, rfl⟩ := hcall
    refine (call h hd hpermits hinside).map ?_
    rintro u t y - - ⟨rfl, hu⟩
    exact .known (.inl hu)
  have hplanned {e : Datum} (he : e ∈ form.parts) : b.Planned e := hinside.part hd he
  have hpart {e : Datum} (he : e ∈ form.parts) : Inside e d := .part hd he
  have hform := hpermits.quiet.form hd
  have hx := h.standing
  rw [CheckM.checkExpr]
  split
  · next hd' => cases hd.symm.trans hd'
  · next hd' =>
      cases hd.symm.trans hd'
      refine emit_bind ?_
      split
      · exact pure hx (.known (.inl (.primitive .number)))
      · exact pure hx (.known (.inl (.primitive .string)))
      · exact pure hx (.known (.inl (.primitive .boolean)))
      · next n =>
          rw [Base.formPlan]
          refine ((lookup hx h.sees n d).mono fun _ _ _ hn _ _ ht => And.intro hn ht).map ?_
          rintro u t _ - - ⟨hn, rfl, rfl⟩
          exact .known (.of_allows hform (h.envOk n t hn))
      · next op left right =>
          exact binary h (hplanned (by simp [Form.parts])) (hplanned (by simp [Form.parts]))
            (hpart (by simp [Form.parts])) op
      · next op operands hother =>
          rw [Base.formPlan]
          · exact reject hx _
          · exact hother
      · exact hform.elim
      · next n value =>
          rw [Base.formPlan]
          refine (lookup hx h.sees n d).bind ?_
          rintro _ declared _ hn - - ⟨rfl, rfl⟩
          exact assign h (hplanned (by simp [Form.parts])) (.of_allows hform (h.envOk n declared hn))
      · next object field value =>
          rw [Base.formPlan]
          refine (checkExpr h (hplanned (by simp [Form.parts]))).andThen fun o t y _ hxy hy ho => ?_
          refine (fieldType hy ho.1.is field d).bind ?_
          rintro _ declared _ hfield - - ⟨rfl, rfl⟩
          exact assign (h.before hy hxy.toBefore) (hplanned (by simp [Form.parts]))
            (Value.known_of_field? hform hfield)
      · next body =>
          refine (child hx h.sees).ok_bind fun inner y hxy hy hinner => ?_
          have hstarts : Starts b bodies depth old env inner y :=
            ⟨h.correct, h.envOk, hy, hinner, (h.before hy hxy.toBefore).old⟩
          exact checkBlock hstarts (fun e he => hplanned he) (fun e he => hpart he) hxy.toBefore
      · next condition whenTrue whenFalse =>
          exact cond h (hplanned (by simp [Form.parts])) (hplanned (by simp [Form.parts]))
            (hplanned (by simp [Form.parts])) (hpart (by simp [Form.parts]))
      · next condition body =>
          exact loop h (hplanned (by simp [Form.parts])) (hplanned (by simp [Form.parts]))
            (hpart (by simp [Form.parts]))
      · exact hform.elim
      · exact hform.elim
      · next list parts =>
          rw [Base.formPlan]
          have hmakes := hpermits.makes (.here hd rfl)
          exact (makeTemplate hd hmakes h.envOk hx h.sees).map fun _ _ _ _ _ ht => ht
      · next parts =>
          refine plainFunction h fun env henv => ?_
          exact hinside.bodyGoes (.single (hpart (by simp [Form.parts]))) henv
      · exact hform.elim
      · exact hform.elim
      · next className args => exact construct h hform fun e he => hplanned he
      · next className =>
          rw [Base.formPlan]
          refine ((superclass hx hform d).mono fun _ _ _ hn _ _ ht => And.intro hn ht).map ?_
          rintro u t _ - - ⟨hsuper, rfl, rfl⟩
          exact .known (.inl (Base.written_of_superclass? hsuper))
      · next object field =>
          rw [Base.formPlan]
          refine (checkExpr h (hplanned (by simp [Form.parts]))).andThen fun o t y _ hxy hy ho => ?_
          refine ((fieldType hy ho.1.is field d).mono fun _ _ _ hn _ _ ht => And.intro hn ht).map ?_
          rintro u t _ - - ⟨hfield, rfl, rfl⟩
          exact .known (Value.known_of_field? hform hfield)
      · exact absurd ⟨_, _, rfl⟩ hcall
      · exact absurd ⟨_, _, rfl⟩ hcall

end Performs

namespace Base

theorem planned_of_permits (h : b.Permits d) : b.Planned d := by
  have hacc := h.quiet.acc.transGen
  -- On what is inside the expression: its parts, but also the bodies of its generic functions at any
  -- types, which are not smaller.
  induction hacc with
  | intro d _ ih =>
      intro env henv
      have hinside : b.PlannedInside d := fun e he => ih e he (h.transGen he)
      cases hd : Form.classify d with
      | error m =>
          refine goes_plan (p := .ofAnswer none) fun bodies depth _ x s hx _ => ?_
          rw [CheckM.checkExpr]
          split
          · exact Performs.reject hx _
          · next hd' => cases hd.symm.trans hd'
      | ok form =>
          refine goes_plan (p := b.formPlan env form) fun bodies depth hcorrect x s hx hs => ?_
          exact Performs.form ⟨hcorrect, henv, hx, hs, Nat.le_refl _⟩ hd h hinside

theorem plannedInside_of_permits (h : b.Permits d) : b.PlannedInside d :=
  fun _ he => planned_of_permits (h.transGen he)

end Base

end TypedLisp
