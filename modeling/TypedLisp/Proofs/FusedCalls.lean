import TypedLisp.Proofs.Blame
import TypedLisp.Proofs.Forms
import TypedLisp.Proofs.Simulation.Expressions

namespace TypedLisp

open CheckM TypeExpr

/-- A name that calls can be written with in both spellings. -/
structure Word.Callable (name : String) : Prop where
  nonempty : name ≠ ""
  plain : '<' ∉ name.toList
  keyword : ∀ k : Keyword, k.text ≠ name
  operator : isOperatorLike name = false

section Forms

variable {name list : String} (hname : Word.Callable name) (hlist : isTypeList list = true)

include hname hlist

theorem Word.Callable.fuses : Word.Fuses name list :=
  ⟨hname.nonempty, hname.plain, hlist⟩

theorem Form.classify_fused (args : List Datum) :
    classify (.list (.symbol (name ++ list) :: args)) = .ok (.call (.fused name list) args) :=
  classify_eq_ok_iff.mpr ⟨hname.fuses hlist, rfl⟩

omit hlist in
theorem Word.Callable.headsCall : (Datum.symbol name).HeadsCall := by
  refine ⟨?_, hname.keyword, ?_⟩
  · rintro op rfl
    have hlike : Word.isOperatorLike op.text = true := by cases op <;> decide
    exact Bool.false_ne_true (hname.operator.symm.trans hlike)
  · rintro n l hfused rfl
    exact hname.plain hfused.mem_toList

theorem Form.classify_separate (args : List Datum) :
    classify (.list (.symbol name :: .symbol list :: args)) =
      .ok (.call (.plain (.symbol name) (some list)) args) :=
  classify_eq_ok_iff.mpr ⟨⟨hname.headsCall, hlist⟩, rfl⟩

end Forms

def TypeError.SameKind (e e' : TypeError) : Prop :=
  e.description = e'.description

theorem Moved.sameKind {parts : List Datum} {d d' : Datum} {e e' : TypeError}
    (h : Moved parts d d' e e') : e.SameKind e' := by
  rw [TypeError.SameKind, h.moved, TypeError.description_movedTo]

theorem OutcomesAlike.mapError_kind {α : Type} {outcome outcome' : Except Halt α}
    (h : OutcomesAlike TypeError.SameKind outcome outcome') :
    outcome.mapError Halt.kind = outcome'.mapError Halt.kind := by
  cases h with
  | ok a => rfl
  | rejected h => exact congrArg (fun kind => Except.error (some kind)) h
  | tooDeep => rfl

namespace Parallel

variable {α β : Type} {R : TypeError → TypeError → Prop} {m : CheckM α}

theorem skip {quiet : CheckM β} {b : β} {f : β → CheckM α} (hm : Parallel R m (f b))
    (hquiet : ∀ c events, ∃ events',
      Session.run ⟨c, events⟩ quiet = (.ok b, ⟨c, events'⟩)) :
    Parallel R m (quiet >>= f) := by
  intro c events events'
  obtain ⟨skipped, hskipped⟩ := hquiet c events'
  rw [Session.run_bind_of_ok f hskipped]
  exact hm c events skipped

theorem skip_emit {e : Event} {f : Unit → CheckM α} (hm : Parallel R m (f ())) :
    Parallel R m (CheckM.emit e >>= f) :=
  hm.skip fun _ _ => ⟨_, Session.run_emit _ e⟩

end Parallel

section Calls

variable {inBody : BodyChecker} {name : String}

theorem Datum.shown_symbol (name : String) : (Datum.symbol name).shown = name := by
  simp [Datum.shown, Datum.toChars, Datum.charsBefore]

theorem checkExpr_symbol (name : String) (s : ScopeId) :
    checkExpr inBody (.symbol name) s = (do
      emit (.checking (.symbol name) s)
      lookup s name (.symbol name)) := by
  have hsymbol : Form.classify (.symbol name) = .ok (.name name) := rfl
  rw [checkExpr_of_classify hsymbol, checkForm]

theorem Word.Callable.run_rejectUnknownOperator (hname : Word.Callable name) (expr : Datum)
    (s : ScopeId) (σ : Session) :
    σ.run (rejectUnknownOperator (.symbol name) expr s) = (.ok (), σ) := by
  rw [rejectUnknownOperator, Session.run_bind_of_ok _ (Session.run_context σ), if_neg]
  · rfl
  · simp [hname.operator]

theorem IgnoresLog.checkEach (hbody : ∀ d s, IgnoresLog (inBody d s)) (ds : List Datum)
    (s : ScopeId) : IgnoresLog (CheckM.checkEach inBody ds s) :=
  of_stepwise (.checkEach_of_exprs (fun d _ => .checkExpr d fun _ => trivial) s) hbody

/-- The two spellings go in parallel. Where the name is looked up the second reports an expression
more; after that both do the same, each for the call that it is given. -/
theorem Word.Callable.parallel (hname : Word.Callable name) {list : String}
    (hlist : isTypeList list = true) (hbody : ∀ d s, IgnoresLog (inBody d s)) (args : List Datum)
    (s : ScopeId) :
    Parallel TypeError.SameKind
      (checkExpr inBody (.list (.symbol (name ++ list) :: args)) s)
      (checkExpr inBody (.list (.symbol name :: .symbol list :: args)) s) := by
  have hself {α : Type} {m : CheckM α} (hm : IgnoresLog m) : Parallel TypeError.SameKind m m :=
    .of_ignoresLog hm fun _ => rfl
  rw [checkExpr_of_classify (Form.classify_fused hname hlist args),
    checkExpr_of_classify (Form.classify_separate hname hlist args), checkForm, checkForm,
    checkExpr_symbol, Datum.shown_symbol, bind_assoc]
  generalize Datum.list (.symbol (name ++ list) :: args) = d
  generalize Datum.list (.symbol name :: .symbol list :: args) = d'
  refine (Parallel.emit _ _).bind fun _ => ?_
  refine Parallel.skip (Parallel.skip_emit ?_)
    fun c events => ⟨events, hname.run_rejectUnknownOperator d' s ⟨c, events⟩⟩
  refine ((@Parallel.lookup [] d _ s name).mono Moved.sameKind).bind fun callee => ?_
  refine (Parallel.calledSignature Moved.sameKind (fun body scope result => ?_) callee name
    (some list)).bind fun sig => (hself (.checkEach hbody args s)).bind fun types => ?_
  · refine (hself (hbody body scope)).bind fun t => ?_
    exact (Parallel.expect d d' t result (List.mem_singleton_self body)).mono Moved.sameKind
  · have hparts : ∀ arg ∈ args.zip types, arg.1 ∈ args := fun _ harg => (List.of_mem_zip harg).1
    exact ((Parallel.acceptArguments d d' sig name hparts).mono Moved.sameKind).bind
      fun _ => .pure _

end Calls

/-- A call with the type list fused onto the name of the function, and the call with the list by
itself, have the same type or are stopped for errors of the same kind, and leave the same context. -/
theorem spellings_agree {name list : String} (hname : Word.Callable name)
    (hlist : isTypeList list = true) (c : Context) (s : ScopeId) (args : List Datum) (depth : Nat)
    (events events' : Array Event) :
    let fused := Session.run ⟨c, events⟩
      (checkExpr (bodyWithin depth) (.list (.symbol (name ++ list) :: args)) s)
    let separate := Session.run ⟨c, events'⟩
      (checkExpr (bodyWithin depth) (.list (.symbol name :: .symbol list :: args)) s)
    fused.1.mapError Halt.kind = separate.1.mapError Halt.kind ∧
      fused.2.context = separate.2.context := by
  obtain ⟨outcome, outcome', after, reported, reported', hfused, hseparate, halike⟩ :=
    hname.parallel hlist (IgnoresLog.bodyWithin depth) args s c events events'
  dsimp only
  rw [hfused, hseparate]
  exact ⟨halike.mapError_kind, rfl⟩

/-- The identity at numbers does not take a string, in either spelling. -/
theorem spellings_agree_of_identity :
    Word.Callable "same" ∧ isTypeList "<number>" = true ∧
      rejection? (Session.run ⟨withIdentity, #[]⟩ (checkExpr (bodyWithin 1)
        (.list [.symbol "same<number>", .text "a"]) Arena.global)).1 = some "type mismatch" ∧
      rejection? (Session.run ⟨withIdentity, #[]⟩ (checkExpr (bodyWithin 1)
        (.list [.symbol "same", .symbol "<number>", .text "a"]) Arena.global)).1 =
          some "type mismatch" := by
  have hname : Word.Callable "same" :=
    ⟨by decide, by decide, fun k => by cases k <;> decide, by decide⟩
  have hfused : rejection? (Session.run ⟨withIdentity, #[]⟩ (checkExpr (bodyWithin 1)
      (.list [.symbol "same<number>", .text "a"]) Arena.global)).1 = some "type mismatch" := by
    decide +kernel
  have hkind : ∀ {outcome outcome' : Except Halt Ty},
      outcome.mapError Halt.kind = outcome'.mapError Halt.kind →
        rejection? outcome = rejection? outcome' := by
    rintro (halt | t) (halt' | t') h
    · exact Except.error.inj h
    · cases h
    · cases h
    · rfl
  refine ⟨hname, by decide, hfused, ?_⟩
  rw [← hfused]
  exact (hkind (spellings_agree hname (by decide) withIdentity Arena.global [.text "a"] 1 #[]
    #[]).1).symm

end TypedLisp
