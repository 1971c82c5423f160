import TypedLisp.Proofs.Stepwise

namespace TypedLisp

open CheckM

/-- However the check ends, it has unmade no template. -/
class CountsUp {α : Type} (m : CheckM α) : Prop where
  le (σ : Session) : σ.context.nextTemplate ≤ (σ.run m).2.context.nextTemplate

theorem Local.countsUp {makes : Prop} {α : Type} {m : CheckM α} (hm : Local makes m) :
    CountsUp m where
  le σ := by
    obtain ⟨outcome, σ', -, hretains, hrun⟩ := hm.run σ
    rw [hrun]
    exact hretains.le

namespace CountsUp

variable {α β : Type}

instance pure (a : α) : CountsUp (Pure.pure a : CheckM α) where
  le _ := Nat.le_refl _

instance bind (m : CheckM α) (f : α → CheckM β) [CountsUp m] [∀ a, CountsUp (f a)] :
    CountsUp (m >>= f) where
  le σ := by
    have hfirst := le (m := m) σ
    rcases hrun : σ.run m with ⟨outcome, σ'⟩
    rw [hrun] at hfirst
    cases outcome with
    | error halt =>
        rw [Session.run_bind_of_error f hrun]
        exact hfirst
    | ok a =>
        rw [Session.run_bind_of_ok f hrun]
        exact Nat.le_trans hfirst (le (m := f a) σ')

instance expect (actual expected : Ty) (expr within : Datum) :
    CountsUp (expect actual expected expr within) :=
  (Local.expect _ _ _ _ : Local True _).countsUp

instance operate (op : Operator) (left right : Datum) (leftType rightType : Ty) (expr : Datum) :
    CountsUp (operate op left right leftType rightType expr) :=
  (Local.operate _ _ _ _ _ _ : Local True _).countsUp

instance fieldType (object : Ty) (field : String) (expr : Datum) :
    CountsUp (fieldType object field expr) :=
  (Local.fieldType _ _ _ : Local True _).countsUp

instance narrow (condition : Datum) (s : ScopeId) : CountsUp (narrow condition s) :=
  (Local.narrow _ _ : Local True _).countsUp

instance acceptArguments (sig : Signature) (callee : String) (args : List (Datum × Ty))
    (expr : Datum) : CountsUp (acceptArguments sig callee args expr) :=
  (Local.acceptArguments _ _ _ _ : Local True _).countsUp

instance provisionally (key : InstanceKey) (sig : Signature) (check : CheckM Unit)
    [CountsUp check] : CountsUp (provisionally key sig check) where
  le σ := by
    rw [nextTemplate_run_provisionally]
    exact le (m := check) { σ with context := σ.context.record key sig }

theorem instantiateAt {inBody : BodyChecker} (hbody : ∀ d s, CountsUp (inBody d s)) (g : Template)
    (actuals : List TypeExpr) (key : InstanceKey) (expr : Datum) :
    CountsUp (instantiateAt inBody g actuals key expr) where
  le σ := by
    have hsignature : CountsUp (CheckM.actualSignature g actuals expr) :=
      (Local.actualSignature g actuals expr : Local True _).countsUp
    have hopen (bindings : List (Symbol × Ty)) : CountsUp (CheckM.openFunction g.closure bindings) :=
      (Local.openFunction g.closure bindings : Local True _).countsUp
    have hemit (e : Event) : CountsUp (CheckM.emit e) := (Local.emit e : Local True _).countsUp
    rw [CheckM.instantiateAt, Session.run_bind_of_ok _ (Session.run_context σ)]
    cases σ.context.instance? key with
    | some sig => exact Nat.le_refl _
    | none =>
        simp only [CheckM.checkFunctionBody]
        exact le σ

end CountsUp

theorem Stepwise.countsUp {makes : Prop} {α : Type} {m : BodyChecker → CheckM α}
    (hm : Stepwise makes m) {inBody : BodyChecker} (hbody : ∀ d s, CountsUp (inBody d s)) :
    CountsUp (m inBody) := by
  induction hm with
  | rule hm => exact hm.countsUp
  | bind _ _ ihm ihf => exact .bind _ _
  | instantiateAt g actuals key expr => exact .instantiateAt hbody g actuals key expr

namespace CountsUp

instance bodyWithin (depth : Nat) (d : Datum) (s : ScopeId) : CountsUp (bodyWithin depth d s) := by
  induction depth generalizing d s with
  | zero => exact ⟨fun _ => Nat.le_refl _⟩
  | succ depth ih => exact (Stepwise.checkBody d (fun _ => trivial) s).countsUp ih

variable (depth : Nat)

instance checkExpr (d : Datum) (s : ScopeId) :
    CountsUp (checkExpr (CheckM.bodyWithin depth) d s) :=
  (Stepwise.checkExpr d (fun _ => trivial) s).countsUp (bodyWithin depth)

instance checkBlock (ds : List Datum) (s : ScopeId) :
    CountsUp (checkBlock (CheckM.bodyWithin depth) ds s) :=
  (Stepwise.checkBlock ds (fun _ _ _ => trivial) s).countsUp (bodyWithin depth)

instance checkEach (ds : List Datum) (s : ScopeId) :
    CountsUp (checkEach (CheckM.bodyWithin depth) ds s) :=
  (Stepwise.checkEach_of_exprs (fun d _ => Stepwise.checkExpr d fun _ => trivial) s).countsUp
    (bodyWithin depth)

instance calledSignature (callee : Ty) (name : String) (typeArgs : Option String) (expr : Datum) :
    CountsUp (calledSignature (CheckM.bodyWithin depth) callee name typeArgs expr) :=
  (Stepwise.calledSignature callee name typeArgs expr : Stepwise True _).countsUp (bodyWithin depth)

end CountsUp

end TypedLisp
