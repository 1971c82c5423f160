import TypedLisp.Proofs.LocalRules

/-!
Checks in terms of how the bodies of templates are checked. Each check is composed of rules that
check no body and of requests for instances. So what passes from steps to sequences of steps is
shown of all checks by an induction with these two as its base.
-/

namespace TypedLisp

/-- A function with type parameters. -/
def Form.isGeneric : Form → Bool
  | .define _ (some _) _ | .lambda (some _) _ => true
  | _ => false

/-- A template is made by an expression or by one inside it. -/
inductive MakesTemplate : Datum → Prop where
  | here {d : Datum} {f : Form} (hd : Form.classify d = .ok f) (hf : f.isGeneric = true) :
      MakesTemplate d
  | inside {d part : Datum} {f : Form} (hd : Form.classify d = .ok f) (hpart : part ∈ f.parts)
      (h : MakesTemplate part) : MakesTemplate d

theorem not_makesTemplate_of_parts {d : Datum} {f : Form} (hd : Form.classify d = .ok f)
    (hf : f.isGeneric = false) (hparts : ∀ part ∈ f.parts, ¬MakesTemplate part) :
    ¬MakesTemplate d := by
  intro h
  cases h with
  | here hd' hf' =>
      cases hd.symm.trans hd'
      exact Bool.false_ne_true (hf.symm.trans hf')
  | inside hd' hpart h =>
      cases hd.symm.trans hd'
      exact hparts _ hpart h

/-- How the bodies of templates are checked. -/
abbrev BodyChecker := Datum → ScopeId → CheckM Ty

/-- A check goes step by step if it is composed of rules, which make templates or do not, and of
requests for instances. -/
inductive Stepwise (makes : Prop) : {α : Type} → (BodyChecker → CheckM α) → Prop where
  | rule {α : Type} {m : CheckM α} (hm : Local makes m) : Stepwise makes fun _ => m
  | bind {α β : Type} {m : BodyChecker → CheckM α} {f : α → BodyChecker → CheckM β}
      (hm : Stepwise makes m) (hf : ∀ a, Stepwise makes (f a)) :
      Stepwise makes fun inBody => m inBody >>= fun a => f a inBody
  | instantiateAt (g : Template) (actuals : List TypeExpr) (key : InstanceKey) (expr : Datum) :
      Stepwise makes fun inBody => CheckM.instantiateAt inBody g actuals key expr

namespace Stepwise

open CheckM

variable {makes : Prop}

theorem after {α β : Type} {m : CheckM α} {f : α → BodyChecker → CheckM β} (hm : Local makes m)
    (hf : ∀ a, Stepwise makes (f a)) : Stepwise makes fun inBody => m >>= fun a => f a inBody :=
  bind (rule hm) hf

theorem instantiate (g : Template) (list : String) (expr : Datum) :
    Stepwise makes fun inBody => instantiate inBody g list expr := by
  refine after (.parseTypeList list expr) fun actuals => ?_
  by_cases hlength : actuals.length ≠ g.typeParams.length
  · simp only [if_pos hlength]
    exact rule (.reject _)
  · simp only [if_neg hlength]
    exact after (.resolveExprs expr actuals) fun types => instantiateAt g actuals _ expr

theorem calledSignature (callee : Ty) (calleeName : String) (typeArgs : Option String)
    (expr : Datum) :
    Stepwise makes fun inBody => calledSignature inBody callee calleeName typeArgs expr := by
  rw [funext fun inBody => CheckM.calledSignature.eq_def inBody callee calleeName typeArgs expr]
  split
  · exact instantiate _ _ expr
  · exact rule (.reject _)
  · exact rule (.reject _)
  · split
    · exact rule (.pure _)
    · exact rule (.reject _)

/-- An expression goes step by step, in every scope. -/
def OfExpr (makes : Prop) (d : Datum) : Prop :=
  ∀ s, Stepwise makes fun inBody => CheckM.checkExpr inBody d s

theorem checkEach_of_exprs {ds : List Datum} (hds : ∀ d ∈ ds, OfExpr makes d) (s : ScopeId) :
    Stepwise makes fun inBody => CheckM.checkEach inBody ds s := by
  induction ds with
  | nil =>
      simp only [CheckM.checkEach]
      exact rule (.pure [])
  | cons d ds ih =>
      simp only [CheckM.checkEach]
      refine bind (hds d List.mem_cons_self s) fun first => ?_
      exact bind (ih fun e he => hds e (List.mem_cons_of_mem _ he)) fun others =>
        rule (.pure _)

theorem checkBlock_of_exprs {ds : List Datum} (hds : ∀ d ∈ ds, OfExpr makes d) (s : ScopeId) :
    Stepwise makes fun inBody => checkBlock inBody ds s := by
  induction ds with
  | nil =>
      simp only [CheckM.checkBlock]
      exact rule (.pure _)
  | cons d ds ih =>
      have hd := hds d List.mem_cons_self s
      cases ds with
      | nil =>
          simp only [CheckM.checkBlock]
          exact hd
      | cons next ds =>
          simp only [CheckM.checkBlock]
          exact bind hd fun _ => ih fun e he => hds e (List.mem_cons_of_mem _ he)

theorem checkBody_of_exprs {d : Datum} (hd : OfExpr makes d)
    (hitems : ∀ items, d = .list (.symbol Keyword.begin.text :: items) →
      ∀ e ∈ items, OfExpr makes e) (s : ScopeId) :
    Stepwise makes fun inBody => checkBody inBody d s := by
  rw [funext fun inBody => CheckM.checkBody.eq_def inBody d s]
  split
  · next tag items =>
      split
      · next htag => exact checkBlock_of_exprs (hitems items (by rw [htag])) s
      · exact hd s
  · exact hd s

theorem checkFunction_of_body {body : Datum}
    (hbody : ∀ s, Stepwise makes fun inBody => CheckM.checkBody inBody body s) (params : List Param)
    (sig : Signature) (expr : Datum) (closure : ScopeId) :
    Stepwise makes fun inBody => checkFunction inBody params sig body expr closure := by
  simp only [CheckM.checkFunction]
  refine after (.internAll _) fun symbols => after (.openFunction _ _) fun scope => ?_
  exact bind (hbody scope) fun t => rule (.expect _ _ _ _)

theorem arguments {args : List Datum} (hargs : ∀ e ∈ args, OfExpr makes e) (s : ScopeId)
    (sig : Signature) (callee : String) (pairs : List Ty → List (Datum × Ty)) (expr : Datum)
    (t : Ty) :
    Stepwise makes fun inBody => do
      let types ← CheckM.checkEach inBody args s
      CheckM.acceptArguments sig callee (pairs types) expr
      return t :=
  bind (checkEach_of_exprs hargs s) fun _ =>
    after (.acceptArguments _ _ _ _) fun _ => rule (.pure t)

theorem checkExpr (d : Datum) (hmakes : MakesTemplate d → makes) : OfExpr makes d := by
  -- On the size of the expression; the bodies of templates are not inside it.
  induction hsize : sizeOf d using Nat.strongRecOn generalizing d with
  | ind size ih =>
      subst hsize
      intro s
      rw [funext fun inBody => CheckM.checkExpr.eq_def inBody d s]
      split
      · exact rule (.reject _)
      · next form hd =>
          have hpart {p : Datum} (hp : p ∈ form.parts) : OfExpr makes p :=
            ih _ (Form.sizeOf_lt_of_classify hd hp) p (fun h => hmakes (.inside hd hp h)) rfl
          have hinside {p : Datum} (hp : p ∈ form.parts) (s : ScopeId) :
              Stepwise makes fun inBody => CheckM.checkBody inBody p s := by
            refine checkBody_of_exprs (hpart hp) ?_ s
            rintro items rfl e he
            refine ih _ (Nat.lt_trans ?_ (Form.sizeOf_lt_of_classify hd hp)) e (fun h => ?_) rfl
            · exact Datum.sizeOf_lt_of_mem (List.mem_cons_of_mem _ he)
            · exact hmakes (.inside hd hp (.inside (Form.classify_begin items) he h))
          refine after (.emit _) fun _ => ?_
          split
          · exact rule (.pure _)
          · exact rule (.pure _)
          · exact rule (.pure _)
          · exact rule (.lookup s _ d)
          · next op left right =>
              refine bind (hpart (p := left) (by simp [Form.parts]) s) fun leftType => ?_
              refine bind (hpart (p := right) (by simp [Form.parts]) s) fun rightType => ?_
              exact rule (.operate op left right leftType rightType d)
          · exact rule (.reject _)
          · next n typeText value =>
              refine bind (hpart (p := value) (by simp [Form.parts]) s) fun t => ?_
              exact rule (.declareVar n typeText value t d s)
          · next n value =>
              refine after (.lookup s n d) fun declared => ?_
              refine bind (hpart (p := value) (by simp [Form.parts]) s) fun t => ?_
              exact rule ((Local.expect _ _ _ _).bind fun _ => .pure declared)
          · next object field value =>
              refine bind (hpart (p := object) (by simp [Form.parts]) s) fun objectType => ?_
              refine after (.fieldType objectType field d) fun declared => ?_
              refine bind (hpart (p := value) (by simp [Form.parts]) s) fun t => ?_
              exact rule ((Local.expect _ _ _ _).bind fun _ => .pure declared)
          · next body =>
              refine after (.change fun _ => ⟨rfl, .inr rfl⟩) fun inner => ?_
              exact checkBlock_of_exprs (fun e he => hpart he) inner
          · next condition whenTrue whenFalse =>
              refine bind (hpart (p := condition) (by simp [Form.parts]) s) fun t => ?_
              refine after (.expect _ _ _ _) fun _ => ?_
              refine after (.narrow condition s) fun branch => ?_
              refine bind (hpart (p := whenTrue) (by simp [Form.parts]) branch) fun trueType => ?_
              refine bind (hpart (p := whenFalse) (by simp [Form.parts]) s) fun falseType => ?_
              exact rule ((Local.expect _ _ _ _).bind fun _ => .pure trueType)
          · next condition body =>
              refine bind (hpart (p := condition) (by simp [Form.parts]) s) fun t => ?_
              exact after (.expect _ _ _ _) fun _ => hpart (by simp [Form.parts]) s
          · next n typeList parts =>
              have hgeneric : makes := hmakes (.here hd rfl)
              refine after (.makeTemplate hgeneric n typeList parts d s) fun t => ?_
              exact rule ((Local.emit _).bind fun _ => .define s n t)
          · next n parts =>
              refine after (.signature parts d) fun sig => after (.define _ _ _) fun _ => ?_
              have hbody := hinside (p := parts.body) (by simp [Form.parts])
              refine bind (checkFunction_of_body hbody _ sig d s) fun _ => ?_
              exact rule ((Local.emit _).bind fun _ => .define _ _ _)
          · next typeList parts =>
              exact rule (.makeTemplate (hmakes (.here hd rfl)) "lambda" typeList parts d s)
          · next parts =>
              refine after (.signature parts d) fun sig => ?_
              have hbody := hinside (p := parts.body) (by simp [Form.parts])
              exact bind (checkFunction_of_body hbody _ sig d s) fun _ => rule (.pure _)
          · next n base => exact rule (.declareType n base d)
          · next n parent body =>
              refine after (.declareClass n parent d s) fun c => ?_
              exact bind (hinside (by simp [Form.parts]) c.fields) fun _ => rule (.pure _)
          · next className args =>
              refine after (.constructorOf className d) fun cs => ?_
              exact arguments (fun e he => hpart he) s cs.2 _
                (fun types => (Datum.symbol className, Ty.ofClass cs.1) :: args.zip types) d _
          · next className => exact rule (.superclass className d)
          · next object field =>
              refine bind (hpart (p := object) (by simp [Form.parts]) s) fun t => ?_
              exact rule (.fieldType t field d)
          · next head typeArgs args =>
              refine after (.rejectUnknownOperator head d s) fun _ => ?_
              refine bind (hpart (p := head) (by simp [Form.parts]) s) fun callee => ?_
              refine bind (calledSignature callee head.shown typeArgs d) fun sig => ?_
              exact arguments (fun e he => hpart (List.mem_cons_of_mem _ he)) s sig _ args.zip d _
          · next n typeArgs args =>
              refine after (.lookup s n d) fun callee => ?_
              refine bind (calledSignature callee n (some typeArgs) d) fun sig => ?_
              exact arguments (fun e he => hpart he) s sig n args.zip d _

theorem checkBlock (ds : List Datum) (hmakes : ∀ d ∈ ds, MakesTemplate d → makes) (s : ScopeId) :
    Stepwise makes fun inBody => checkBlock inBody ds s :=
  checkBlock_of_exprs (fun d hd => checkExpr d (hmakes d hd)) s

theorem checkBody (d : Datum) (hmakes : MakesTemplate d → makes) (s : ScopeId) :
    Stepwise makes fun inBody => checkBody inBody d s := by
  refine checkBody_of_exprs (checkExpr d hmakes) ?_ s
  rintro items rfl e he
  exact checkExpr e fun h => hmakes (.inside (Form.classify_begin items) he h)

end Stepwise

end TypedLisp
