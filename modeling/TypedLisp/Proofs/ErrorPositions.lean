import Mathlib.Logic.Relation
import TypedLisp.Proofs.Blame
import TypedLisp.Proofs.Registry
import TypedLisp.Proofs.Simulation.Expressions
import TypedLisp.Proofs.WithoutTemplates

namespace TypedLisp

open CheckM

namespace Datum

/-- An item of a list. -/
def ItemOf (x d : Datum) : Prop :=
  ∃ items, d = .list items ∧ x ∈ items

/-- An expression inside another. -/
abbrev ProperPartOf : Datum → Datum → Prop :=
  Relation.TransGen ItemOf

/-- An expression inside another, or that itself. -/
abbrev PartOf : Datum → Datum → Prop :=
  Relation.ReflTransGen ItemOf

theorem properPartOf_of_mem {d : Datum} {items : List Datum} (h : d ∈ items) :
    d.ProperPartOf (.list items) :=
  .single ⟨items, rfl, h⟩

end Datum

theorem Form.properPartOf_of_mem_parts {d p : Datum} {f : Form} (hd : classify d = .ok f)
    (hp : p ∈ f.parts) : p.ProperPartOf d := by
  obtain ⟨items, hitems, hp | ⟨inner, hinner, hp⟩⟩ := exists_items_of_mem_parts hp
  · rw [← toDatum_of_classify hd, hitems]
    exact Datum.properPartOf_of_mem hp
  · rw [← toDatum_of_classify hd, hitems]
    exact (Datum.properPartOf_of_mem hp).trans (Datum.properPartOf_of_mem hinner)

/-- An error points into an expression: it is about a part of it, and a mismatch has around it
another part of it. -/
structure TypeError.PointsInto (e : TypeError) (d : Datum) : Prop where
  expr : e.expr.PartOf d
  around : ∀ {expected actual : String} {x context : Datum},
    e = .typeMismatch expected actual x context → context.PartOf d ∧ x.ProperPartOf context

theorem TypeError.PointsInto.widen {e : TypeError} {p d : Datum} (h : e.PointsInto p)
    (hp : p.PartOf d) : e.PointsInto d where
  expr := h.expr.trans hp
  around he := ⟨(h.around he).1.trans hp, (h.around he).2⟩

theorem Moved.pointsInto {parts : List Datum} {d d' : Datum} {e e' : TypeError}
    (h : Moved parts d d' e e') (hparts : ∀ p ∈ parts, p.ProperPartOf d) : e.PointsInto d := by
  obtain ⟨rfl, -, hpart⟩ := h
  cases e with
  | typeMismatch expected actual x context =>
      have hx : x.ProperPartOf context := hparts x (hpart rfl)
      refine ⟨hx.to_reflTransGen, ?_⟩
      rintro _ _ _ _ ⟨⟩
      exact ⟨.refl, hx⟩
  | undefinedName | duplicateType | unknownBaseType | unknownType | malformedType | arityMismatch
  | unknownOperator | missingActualTypes | unknownClass | missingConstructor | notCallable
  | notAClass | unknownField | malformedForm =>
      refine ⟨.refl, ?_⟩
      rintro _ _ _ _ ⟨⟩

/-- All errors of a check point into an expression. -/
abbrev Blames {α : Type} (d : Datum) (m : CheckM α) : Prop :=
  Parallel (fun e _ => e.PointsInto d) m m

namespace Blames

variable {α : Type} {d : Datum} {m : CheckM α} {inBody : BodyChecker}

theorem widen {p : Datum} (h : Blames p m) (hp : p.PartOf d) : Blames d m :=
  Parallel.mono h fun he => he.widen hp

theorem of_moved {parts : List Datum} (h : Parallel (Moved parts d d) m m)
    (hparts : ∀ p ∈ parts, p.ProperPartOf d) : Blames d m :=
  Parallel.mono h fun he => he.pointsInto hparts

theorem checkEach {ds : List Datum} {s : ScopeId}
    (hds : ∀ e ∈ ds, Blames d (checkExpr inBody e s)) : Blames d (checkEach inBody ds s) := by
  induction ds with
  | nil =>
      rw [CheckM.checkEach]
      exact .pure []
  | cons e ds ih =>
      rw [CheckM.checkEach]
      refine (hds e List.mem_cons_self).bind fun first => ?_
      exact (ih fun x hx => hds x (List.mem_cons_of_mem _ hx)).bind fun others => .pure _

theorem checkBlock {ds : List Datum} {s : ScopeId}
    (hds : ∀ e ∈ ds, Blames d (checkExpr inBody e s)) : Blames d (checkBlock inBody ds s) := by
  induction ds with
  | nil =>
      rw [CheckM.checkBlock]
      exact .pure _
  | cons e ds ih =>
      cases ds with
      | nil =>
          rw [CheckM.checkBlock]
          exact hds e List.mem_cons_self
      | cons next ds =>
          rw [CheckM.checkBlock]
          refine (hds e List.mem_cons_self).bind fun _ => ?_
          exact ih fun x hx => hds x (List.mem_cons_of_mem _ hx)

theorem checkBody {body : Datum} {s : ScopeId} (hbody : Blames d (checkExpr inBody body s))
    (hitems : ∀ items, body = .list (.symbol Keyword.begin.text :: items) →
      ∀ e ∈ items, Blames d (checkExpr inBody e s)) : Blames d (checkBody inBody body s) := by
  rw [CheckM.checkBody.eq_def]
  split
  · split
    · next htag => exact checkBlock (hitems _ (by rw [htag]))
    · exact hbody
  · exact hbody

theorem checkFunction {params : List Param} {sig : Signature} {body : Datum} {closure : ScopeId}
    (hbody : ∀ s, Blames d (CheckM.checkBody inBody body s)) (hpart : body.ProperPartOf d) :
    Blames d (checkFunction inBody params sig body d closure) := by
  rw [CheckM.checkFunction]
  refine (Parallel.internAll _).bind fun symbols => (Parallel.openFunction _ _).bind fun s => ?_
  refine (hbody s).bind fun t => of_moved (Parallel.expect d d _ _ (List.mem_singleton_self body)) ?_
  exact List.forall_mem_singleton.mpr hpart

theorem calledSignature (callee : Ty) (name : String) (typeArgs : Option String) :
    Blames d (calledSignature (bodyWithin 0) callee name typeArgs d) :=
  Parallel.calledSignature (fun he => he.pointsInto (by simp))
    (fun _ _ _ c events events' => ⟨_, _, c, events, events', rfl, rfl, .tooDeep⟩) callee name
    typeArgs

theorem arguments {args : List Datum} {s : ScopeId}
    (hargs : ∀ e ∈ args, Blames d (checkExpr inBody e s)) {parts : List Datum}
    {pairs : List Ty → List (Datum × Ty)} (hpairs : ∀ types, ∀ arg ∈ pairs types, arg.1 ∈ parts)
    (hparts : ∀ p ∈ parts, p.ProperPartOf d) (sig : Signature) (callee : String) (t : Ty) :
    Blames d (do
      let types ← CheckM.checkEach inBody args s
      CheckM.acceptArguments sig callee (pairs types) d
      return t) := by
  refine (checkEach hargs).bind fun types => ?_
  exact (of_moved (Parallel.acceptArguments d d sig callee (hpairs types)) hparts).bind
    fun _ => .pure t

theorem assign {value : Datum} {s : ScopeId} (hvalue : Blames d (CheckM.checkExpr inBody value s))
    (hpart : value.ProperPartOf d) (declared : Ty) :
    Blames d (do
      let t ← CheckM.checkExpr inBody value s
      CheckM.expect t declared value d
      return declared) := by
  refine hvalue.bind fun t => ?_
  refine (of_moved (Parallel.expect d d _ _ (List.mem_singleton_self value)) ?_).bind
    fun _ => .pure declared
  exact List.forall_mem_singleton.mpr hpart

theorem cond {condition whenTrue whenFalse : Datum} {s : ScopeId}
    (hparts : ∀ p ∈ [condition, whenTrue, whenFalse], p.ProperPartOf d)
    (hchecks : ∀ p ∈ [condition, whenTrue, whenFalse], ∀ s,
      Blames d (CheckM.checkExpr inBody p s)) :
    Blames d (do
      let t ← CheckM.checkExpr inBody condition s
      CheckM.expect t .boolean condition d
      let branch ← CheckM.narrow condition s
      let trueType ← CheckM.checkExpr inBody whenTrue branch
      let falseType ← CheckM.checkExpr inBody whenFalse s
      CheckM.expect falseType trueType whenFalse d
      return trueType) := by
  have hguard : Blames d (CheckM.narrow condition s) :=
    (of_moved (@Parallel.narrow [] condition s) (by simp)).widen
      (hparts condition (by simp)).to_reflTransGen
  refine (hchecks condition (by simp) s).bind fun t => ?_
  refine (of_moved (Parallel.expect d d _ _ (by simp)) hparts).bind fun _ => ?_
  refine hguard.bind fun branch => (hchecks whenTrue (by simp) branch).bind fun trueType => ?_
  refine (hchecks whenFalse (by simp) s).bind fun falseType => ?_
  exact (of_moved (Parallel.expect d d _ _ (by simp)) hparts).bind fun _ => .pure trueType

theorem newObject {className : String} {args : List Datum} {s : ScopeId}
    (hd : Form.classify d = .ok (.new className args))
    (hargs : ∀ e ∈ args, Blames d (CheckM.checkExpr inBody e s)) (c : ClassTy) (sig : Signature) :
    Blames d (do
      let types ← CheckM.checkEach inBody args s
      CheckM.acceptArguments sig (className ++ " " ++ constructorName)
        ((.symbol className, .ofClass c) :: args.zip types) d
      return Ty.ofClass c) := by
  have hname : (Datum.symbol className).ProperPartOf d := by
    rw [← Form.toDatum_of_classify hd]
    exact Datum.properPartOf_of_mem (by simp)
  have hpairs (types : List Ty) : ∀ arg ∈ (Datum.symbol className, Ty.ofClass c) :: args.zip types,
      arg.1 ∈ Datum.symbol className :: args := by
    intro arg harg
    rcases List.mem_cons.mp harg with rfl | harg
    · exact List.mem_cons_self
    · exact List.mem_cons_of_mem _ (List.of_mem_zip harg).1
  refine arguments hargs hpairs (List.forall_mem_cons.mpr ⟨hname, fun p hp => ?_⟩) sig _ _
  exact Form.properPartOf_of_mem_parts hd hp

theorem checkExpr (d : Datum) (s : ScopeId) :
    Blames d (CheckM.checkExpr (bodyWithin 0) d s) := by
  -- On the size of the expression: what a part blames is inside that part, and the rule for the
  -- form blames the expression itself.
  induction hsize : sizeOf d using Nat.strongRecOn generalizing d s with
  | ind size ih =>
      subst hsize
      cases hd : Form.classify d with
      | error m =>
          rw [checkExpr_of_error hd]
          exact of_moved (@Parallel.rejectAt _ [] d (.malformedForm m.form m.fault d) rfl) (by simp)
      | ok form =>
          have hinside : ∀ p ∈ form.parts, p.ProperPartOf d :=
            fun p hp => Form.properPartOf_of_mem_parts hd hp
          have hpart {p : Datum} (hp : p ∈ form.parts) (s : ScopeId) :
              Blames d (CheckM.checkExpr (bodyWithin 0) p s) :=
            (ih _ (Form.sizeOf_lt_of_classify hd hp) p s rfl).widen (hinside p hp).to_reflTransGen
          have hbody {p : Datum} (hp : p ∈ form.parts) (s : ScopeId) :
              Blames d (CheckM.checkBody (bodyWithin 0) p s) := by
            refine checkBody (hpart hp s) ?_
            rintro items rfl e he
            have hitem : e ∈ .symbol Keyword.begin.text :: items := List.mem_cons_of_mem _ he
            refine (ih _ (Nat.lt_trans ?_ (Form.sizeOf_lt_of_classify hd hp)) e s rfl).widen ?_
            · exact Datum.sizeOf_lt_of_mem hitem
            · exact ((Datum.properPartOf_of_mem hitem).trans (hinside _ hp)).to_reflTransGen
          have hrule {α : Type} {m : CheckM α} (hm : Parallel (Moved form.parts d d) m m) :
              Blames d m := of_moved hm hinside
          rw [checkExpr_of_classify hd]
          refine (Parallel.emit _ _).bind fun _ => ?_
          cases form with
          | number | text | boolean => exact .pure _
          | name n => exact hrule (.lookup d d s n)
          | binary op operands =>
              rcases operands with - | ⟨left, - | ⟨right, - | ⟨third, others⟩⟩⟩
              · exact hrule (.rejectAt d (.arityMismatch op.text 2 _ d) rfl)
              · exact hrule (.rejectAt d (.arityMismatch op.text 2 _ d) rfl)
              · refine (hpart (p := left) (by simp [Form.parts]) s).bind fun leftType => ?_
                refine (hpart (p := right) (by simp [Form.parts]) s).bind fun rightType => ?_
                exact hrule (.operate d d op _ _ (by simp [Form.parts]) (by simp [Form.parts]))
              · exact hrule (.rejectAt d (.arityMismatch op.text 2 _ d) rfl)
          | var n typeText value =>
              refine (hpart (p := value) (by simp [Form.parts]) s).bind fun t => ?_
              exact hrule (.declareVar d d n typeText t s (by simp [Form.parts]))
          | assign target value =>
              cases target with
              | name n =>
                  refine (hrule (.lookup d d s n)).bind fun declared => ?_
                  exact assign (hpart (by simp [Form.parts]) s) (hinside _ (by simp [Form.parts])) _
              | field object field =>
                  refine (hpart (p := object) (by simp [Form.parts]) s).bind fun objectType => ?_
                  refine (hrule (.fieldType d d objectType field)).bind fun declared => ?_
                  exact assign (hpart (by simp [Form.parts]) s) (hinside _ (by simp [Form.parts])) _
          | block body =>
              exact (Parallel.change _).bind fun inner => checkBlock fun e he => hpart he inner
          | cond condition whenTrue whenFalse => exact cond hinside (fun _ hp => hpart hp)
          | loop condition body =>
              refine (hpart (p := condition) (by simp [Form.parts]) s).bind fun t => ?_
              refine (hrule (.expect d d _ _ (by simp [Form.parts]))).bind fun _ => ?_
              exact hpart (by simp [Form.parts]) s
          | define n typeParams f =>
              cases typeParams with
              | some list =>
                  refine (hrule (.makeTemplate d d n list f s)).bind fun t => ?_
                  exact (Parallel.emit _ _).bind fun _ => .define s n t
              | none =>
                  refine (hrule (.signature d d f)).bind fun sig => ?_
                  refine (Parallel.define s n _).bind fun _ => ?_
                  refine (checkFunction (hbody (by simp [Form.parts]))
                    (hinside f.body (by simp [Form.parts]))).bind fun _ => ?_
                  exact (Parallel.emit _ _).bind fun _ => .define s n _
          | lambda typeParams f =>
              cases typeParams with
              | some list => exact hrule (.makeTemplate d d "lambda" list f s)
              | none =>
                  refine (hrule (.signature d d f)).bind fun sig => ?_
                  exact (checkFunction (hbody (by simp [Form.parts]))
                    (hinside f.body (by simp [Form.parts]))).bind fun _ => .pure _
          | typeDecl n base => exact hrule (.declareType d d n base)
          | classDecl n parent body =>
              refine (hrule (.declareClass d d n parent s)).bind fun c => ?_
              exact (hbody (by simp [Form.parts]) c.fields).bind fun _ => .pure _
          | new className args =>
              refine (hrule (.constructorOf d d className)).bind fun cs => ?_
              exact newObject hd (fun e he => hpart he s) cs.1 cs.2
          | super className => exact hrule (.superclass d d className)
          | prop object field =>
              refine (hpart (p := object) (by simp [Form.parts]) s).bind fun t => ?_
              exact hrule (.fieldType d d t field)
          | call callee args =>
              cases callee with
              | plain head typeArgs =>
                  refine (hrule (.rejectUnknownOperator d d head s)).bind fun _ => ?_
                  refine (hpart (p := head) (by simp [Form.parts]) s).bind fun callee => ?_
                  refine (calledSignature callee head.shown typeArgs).bind fun sig => ?_
                  exact arguments (fun e he => hpart (List.mem_cons_of_mem _ he) s)
                    (fun types arg harg => List.mem_cons_of_mem head (List.of_mem_zip harg).1)
                    hinside sig _ _
              | fused n typeArgs =>
                  refine (hrule (.lookup d d s n)).bind fun callee => ?_
                  refine (calledSignature callee n (some typeArgs)).bind fun sig => ?_
                  exact arguments (fun e he => hpart he s)
                    (fun types arg harg => (List.of_mem_zip harg).1) hinside sig n _

end Blames

/-- Where no name is bound to a template and the expression makes none, a check of it that fails is
rejected with an error that points into it. -/
theorem errors_point_into_program {u : Workspace} (hu : u.Arises)
    (hnone : u.context.HoldsNoTemplate) {s : ScopeId} (hs : s.index < u.context.scopes.size)
    {d : Datum} (hd : ¬MakesTemplate d) (depth : Nat) (events : Array Event) {halt : Halt}
    {σ : Session}
    (hrun : Session.run ⟨u.context, events⟩ (checkExpr (bodyWithin depth) d s) =
      (.error halt, σ)) :
    ∃ e, halt = .rejected e ∧ e.PointsInto d := by
  obtain ⟨w, hw, hcontext, -⟩ := hu.wellFormed
  rw [← hcontext] at hnone hs hrun
  have hcheck : Stepwise False fun inBody => checkExpr inBody d s := .checkExpr d hd s
  obtain ⟨outcome, σ', hdeep, hsettled⟩ := hcheck.settled (σ := ⟨w.context, events⟩)
    (hw.without_templates hnone) fun hbody => Evolves.checkExpr hbody d _ s
      ⟨hs, fun _ _ _ => trivial⟩ fun _ _ => trivial
  obtain ⟨_, _, _, _, _, hblames, -, halike⟩ := Blames.checkExpr d s w.context events events
  cases (hsettled (bodyWithin depth)).symm.trans hrun
  cases (hsettled (bodyWithin 0)).symm.trans hblames
  cases halike with
  | rejected h => exact ⟨_, rfl, h⟩
  | tooDeep => exact absurd rfl hdeep

/-- A function that is declared with a string as its result and returns its number. -/
def misdeclared : Datum :=
  .list [.symbol "def", .symbol "show", .list [.list [.symbol "x", .symbol "number"]],
    .symbol "->", .symbol "string", .list [.symbol "begin", .symbol "x"]]

theorem not_makesTemplate_misdeclared : ¬MakesTemplate misdeclared := by
  have hname : ¬MakesTemplate (.symbol "x") :=
    not_makesTemplate_of_parts (f := .name "x") rfl rfl (by simp [Form.parts])
  have hbody : ¬MakesTemplate (.list [.symbol "begin", .symbol "x"]) :=
    not_makesTemplate_of_parts (f := .block [.symbol "x"]) rfl rfl (by simp [Form.parts, hname])
  exact not_makesTemplate_of_parts
    (f := .define "show" none ⟨[⟨"x", "number"⟩], "string", .list [.symbol "begin", .symbol "x"]⟩)
    rfl rfl (by simp [Form.parts, hbody])

/-- The body of the function is blamed, in its definition. -/
theorem errors_point_into_misdeclared :
    (Workspace.new {}).Arises ∧ (Workspace.new {}).context.HoldsNoTemplate ∧
      ¬MakesTemplate misdeclared ∧ ∃ e σ,
        Session.run ⟨(Workspace.new {}).context, #[]⟩
          (checkExpr (bodyWithin 1) misdeclared Arena.global) =
            (.error (.rejected e), σ) ∧
        e.description = "type mismatch" ∧ e.PointsInto misdeclared := by
  have harises : (Workspace.new {}).Arises := ⟨{}, .refl⟩
  have hnone : (Workspace.new {}).context.HoldsNoTemplate :=
    Context.Reachable.holdsNoTemplate (.new {}) rfl
  have hkind : rejection? (Session.run ⟨(Workspace.new {}).context, #[]⟩
      (checkExpr (bodyWithin 1) misdeclared Arena.global)).1 = some "type mismatch" := by
    decide +kernel
  refine ⟨harises, hnone, not_makesTemplate_misdeclared, ?_⟩
  rcases hrun : Session.run ⟨(Workspace.new {}).context, #[]⟩
    (checkExpr (bodyWithin 1) misdeclared Arena.global) with ⟨halt | t, σ⟩
  · obtain ⟨e, rfl, he⟩ := errors_point_into_program harises hnone Nat.one_pos
      not_makesTemplate_misdeclared 1 #[] hrun
    rw [hrun] at hkind
    exact ⟨e, σ, rfl, Option.some.inj hkind, he⟩
  · rw [hrun] at hkind
    cases hkind

end TypedLisp
