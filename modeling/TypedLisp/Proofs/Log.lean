import TypedLisp.Proofs.Stepwise

namespace TypedLisp

/-- A check is composed of steps that read and change the context, report, stop, or go on after a
stop. None of them looks at the log. -/
inductive IgnoresLog : {α : Type} → CheckM α → Prop where
  | pure {α : Type} (a : α) : IgnoresLog (pure a)
  | throw {α : Type} (halt : Halt) : IgnoresLog (throw halt : CheckM α)
  | emit (e : Event) : IgnoresLog (CheckM.emit e)
  | context : IgnoresLog CheckM.context
  | change {α : Type} (f : Context → α × Context) : IgnoresLog (CheckM.change f)
  | update (f : Context → Context) : IgnoresLog (CheckM.update f)
  | bind {α β : Type} {m : CheckM α} {f : α → CheckM β} (hm : IgnoresLog m)
      (hf : ∀ a, IgnoresLog (f a)) : IgnoresLog (m >>= f)
  | tryCatch {α : Type} {m : CheckM α} {handle : Halt → CheckM α} (hm : IgnoresLog m)
      (hhandle : ∀ halt, IgnoresLog (handle halt)) : IgnoresLog (tryCatch m handle)

/-- A logger lets an event through. -/
def Logger.lets (l : Logger) (e : Event) : Bool :=
  l.enabled e.level

/-- Report an event if a logger lets it through. -/
def CheckM.emitThrough (l : Logger) (e : Event) : CheckM Unit :=
  if l.lets e then emit e else pure ()

/-- The second check goes by the same steps as the first and reports through a logger. -/
inductive Guarded (l : Logger) : {α : Type} → CheckM α → CheckM α → Prop where
  | pure {α : Type} (a : α) : Guarded l (pure a) (pure a)
  | throw {α : Type} (halt : Halt) : Guarded l (throw halt : CheckM α) (throw halt)
  | emit (e : Event) : Guarded l (CheckM.emit e) (CheckM.emitThrough l e)
  | context : Guarded l CheckM.context CheckM.context
  | change {α : Type} (f : Context → α × Context) : Guarded l (CheckM.change f) (CheckM.change f)
  | update (f : Context → Context) : Guarded l (CheckM.update f) (CheckM.update f)
  | bind {α β : Type} {m m' : CheckM α} {f f' : α → CheckM β} (hm : Guarded l m m')
      (hf : ∀ a, Guarded l (f a) (f' a)) : Guarded l (m >>= f) (m' >>= f')
  | tryCatch {α : Type} {m m' : CheckM α} {handle handle' : Halt → CheckM α} (hm : Guarded l m m')
      (hhandle : ∀ halt, Guarded l (handle halt) (handle' halt)) :
      Guarded l (tryCatch m handle) (tryCatch m' handle')

section

variable {α β : Type} {l : Logger} {c after after' : Context} {m m' : CheckM α}
  {reported reported' : Array Event}

/-- What a check ends with, leaves and reports, whatever the log, and beside it the check that
reports through a logger. -/
def ReportsThrough (l : Logger) (c : Context) (m m' : CheckM α)
    (outcome : Except Halt α) (after : Context) (reported : Array Event) : Prop :=
  ∀ events, Session.run ⟨c, events⟩ m = (outcome, ⟨after, events ++ reported⟩) ∧
    Session.run ⟨c, events⟩ m' = (outcome, ⟨after, events ++ reported.filter l.lets⟩)

theorem ReportsThrough.bind {f f' : α → CheckM β} {a : α} {outcome : Except Halt β}
    (hm : ReportsThrough l c m m' (.ok a) after reported)
    (hf : ReportsThrough l after (f a) (f' a) outcome after' reported') :
    ReportsThrough l c (m >>= f) (m' >>= f') outcome after' (reported ++ reported') := by
  intro events
  rw [Session.run_bind_of_ok f (hm events).1, Session.run_bind_of_ok f' (hm events).2, (hf _).1,
    (hf _).2, Array.filter_append Array.size_append, Array.append_assoc, Array.append_assoc]
  exact ⟨rfl, rfl⟩

theorem ReportsThrough.handled {handle handle' : Halt → CheckM α} {halt : Halt}
    {outcome : Except Halt α} (hm : ReportsThrough l c m m' (.error halt) after reported)
    (hhandle : ReportsThrough l after (handle halt) (handle' halt) outcome after' reported') :
    ReportsThrough l c (tryCatch m handle) (tryCatch m' handle') outcome after'
      (reported ++ reported') := by
  intro events
  rw [Session.run_tryCatch, Session.run_tryCatch, (hm events).1, (hm events).2]
  dsimp only
  rw [(hhandle _).1, (hhandle _).2, Array.filter_append Array.size_append, Array.append_assoc,
    Array.append_assoc]
  exact ⟨rfl, rfl⟩

/-- Guarding the reports leaves out of the log what the logger does not let through, and does nothing
else. -/
theorem Guarded.reportsThrough (h : Guarded l m m') (c : Context) :
    ∃ outcome after reported, ReportsThrough l c m m' outcome after reported := by
  induction h generalizing c with
  | pure a => exact ⟨.ok a, c, #[], fun events => by simp⟩
  | throw halt => exact ⟨.error halt, c, #[], fun events => by simp⟩
  | emit e =>
      refine ⟨.ok (), c, #[e], fun events => ?_⟩
      cases hlets : l.lets e <;> simp [CheckM.emitThrough, hlets]
  | context => exact ⟨.ok c, c, #[], fun events => by simp⟩
  | change f => exact ⟨.ok (f c).1, (f c).2, #[], fun events => by simp⟩
  | update f => exact ⟨.ok (), f c, #[], fun events => by simp⟩
  | @bind _ _ _ _ f f' _ _ ihm ihf =>
      obtain ⟨outcome, after, reported, hfirst⟩ := ihm c
      cases outcome with
      | error halt =>
          refine ⟨.error halt, after, reported, fun events => ?_⟩
          exact ⟨Session.run_bind_of_error f (hfirst events).1,
            Session.run_bind_of_error f' (hfirst events).2⟩
      | ok a =>
          obtain ⟨outcome, after', reported', hsecond⟩ := ihf a after
          exact ⟨outcome, after', _, hfirst.bind hsecond⟩
  | tryCatch _ _ ihm ihhandle =>
      obtain ⟨outcome, after, reported, hfirst⟩ := ihm c
      cases outcome with
      | ok a =>
          refine ⟨.ok a, after, reported, fun events => ?_⟩
          rw [Session.run_tryCatch, Session.run_tryCatch, (hfirst events).1, (hfirst events).2]
          exact ⟨rfl, rfl⟩
      | error halt =>
          obtain ⟨outcome, after', reported', hsecond⟩ := ihhandle halt after
          exact ⟨outcome, after', _, hfirst.handled hsecond⟩

end

namespace IgnoresLog

open CheckM

variable {α β : Type}

theorem exists_guarded {m : CheckM α} (hm : IgnoresLog m) (l : Logger) : ∃ m', Guarded l m m' := by
  induction hm with
  | pure a => exact ⟨_, .pure a⟩
  | throw halt => exact ⟨_, .throw halt⟩
  | emit e => exact ⟨_, .emit e⟩
  | context => exact ⟨_, .context⟩
  | change f => exact ⟨_, .change f⟩
  | update f => exact ⟨_, .update f⟩
  | bind _ _ ihm ihf =>
      obtain ⟨m', hm'⟩ := ihm
      obtain ⟨f', hf'⟩ := Classical.axiomOfChoice ihf
      exact ⟨_, .bind hm' hf'⟩
  | tryCatch _ _ ihm ihhandle =>
      obtain ⟨m', hm'⟩ := ihm
      obtain ⟨handle', hhandle'⟩ := Classical.axiomOfChoice ihhandle
      exact ⟨_, .tryCatch hm' hhandle'⟩

theorem alike {m : CheckM α} (hm : IgnoresLog m) (c : Context) :
    ∃ outcome after, ∀ events, ∃ events',
      Session.run ⟨c, events⟩ m = (outcome, ⟨after, events'⟩) := by
  obtain ⟨m', hm'⟩ := hm.exists_guarded {}
  obtain ⟨outcome, after, reported, hends⟩ := hm'.reportsThrough c
  exact ⟨outcome, after, fun events => ⟨_, (hends events).1⟩⟩

theorem of_local {m : CheckM α} (hm : Local True m) : IgnoresLog m := by
  induction hm with
  | pure a => exact pure a
  | reject e => exact throw (.rejected e)
  | emit e => exact emit e
  | context => exact context
  | change _ => exact change _
  | update _ => exact update _
  | bind _ _ ihm ihf => exact ihm.bind ihf
  | tryCatch _ _ hdeep ihm ihhandle =>
      refine ihm.tryCatch fun halt => ?_
      cases halt with
      | rejected e => exact ihhandle e
      | tooDeep =>
          rw [hdeep]
          exact throw .tooDeep

theorem openFunction (closure : ScopeId) (bindings : List (Symbol × Ty)) :
    IgnoresLog (openFunction closure bindings) :=
  of_local (.openFunction closure bindings)

theorem instantiateAt {inBody : BodyChecker} (hbody : ∀ d s, IgnoresLog (inBody d s))
    (g : Template) (actuals : List TypeExpr) (key : InstanceKey) (expr : Datum) :
    IgnoresLog (instantiateAt inBody g actuals key expr) := by
  refine context.bind fun c => ?_
  split
  · exact pure _
  · refine (of_local (.actualSignature g actuals expr)).bind fun s => ?_
    refine (emit _).bind fun _ => (update _).bind fun _ => ?_
    refine (tryCatch ?_ fun halt => (update _).bind fun _ => throw halt).bind fun _ => pure s
    refine (openFunction _ _).bind fun scope => (hbody _ scope).bind fun t => ?_
    exact of_local (.expect _ _ _ _)

theorem of_stepwise {m : BodyChecker → CheckM α} (hm : Stepwise True m) {inBody : BodyChecker}
    (hbody : ∀ d s, IgnoresLog (inBody d s)) : IgnoresLog (m inBody) := by
  induction hm with
  | rule hm => exact of_local hm
  | bind _ _ ihm ihf => exact ihm.bind ihf
  | instantiateAt g actuals key expr => exact instantiateAt hbody g actuals key expr

theorem checkBlock {inBody : BodyChecker} (hbody : ∀ d s, IgnoresLog (inBody d s))
    (ds : List Datum) (s : ScopeId) : IgnoresLog (checkBlock inBody ds s) :=
  of_stepwise (.checkBlock ds (fun _ _ _ => trivial) s) hbody

theorem checkBody {inBody : BodyChecker} (hbody : ∀ d s, IgnoresLog (inBody d s)) (d : Datum)
    (s : ScopeId) : IgnoresLog (checkBody inBody d s) :=
  of_stepwise (.checkBody d (fun _ => trivial) s) hbody

theorem bodyWithin (depth : Nat) (d : Datum) (s : ScopeId) : IgnoresLog (bodyWithin depth d s) := by
  induction depth generalizing d s with
  | zero => exact throw .tooDeep
  | succ depth ih => exact checkBody ih d s

end IgnoresLog

end TypedLisp
