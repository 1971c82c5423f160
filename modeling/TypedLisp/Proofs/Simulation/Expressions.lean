import TypedLisp.Proofs.Frame
import TypedLisp.Proofs.Simulation.Rules

namespace TypedLisp

namespace CheckM

variable {inBody : Datum → ScopeId → CheckM Ty} {d : Datum} {s : ScopeId}

theorem checkBody_of_block {items : List Datum} (h : Form.classify d = .ok (.block items)) :
    checkBody inBody d s = checkBlock inBody items s := by
  obtain rfl := Form.toDatum_of_classify h
  rw [Form.toDatum, Form.special, checkBody, if_pos rfl]

theorem checkBody_eq_checkExpr (h : ∀ items, Form.classify d ≠ .ok (.block items)) :
    checkBody inBody d s = checkExpr inBody d s := by
  rw [checkBody.eq_def]
  split
  · next tag items =>
      split
      · next htag =>
          subst htag
          exact absurd (Form.classify_begin items) (h items)
      · rfl
  · rfl

end CheckM

namespace Simulation

open CheckM

variable {S : Simulation} {w v : S.State} {inBody : Datum → ScopeId → CheckM Ty}

theorem Admits.part {d part : Datum} {form : Form} (hd : S.Admits w d)
    (hform : Form.classify d = .ok form) (hpart : part ∈ form.parts) : S.Admits w part :=
  fun name hname => hd name (.inside hform hpart hname)

/-- Generic functions of which the templates belong together. -/
def Makes (S : Simulation) (w : S.State) (list : String) (parts : FunctionParts) (list' : String)
    (parts' : FunctionParts) : Prop :=
  ∀ (v : S.State) (name : String) (expr expr' : Datum) (closure : ScopeId), S.Later w v →
    S.Opens v closure → S.Follows v (makeTemplate name list parts expr closure)
      (makeTemplate name list' parts' expr' closure) S.Alike

/-- Forms of expressions that match. The parts match in turn, and all else is the same, but for what
templates are made from. -/
inductive FormMatches (S : Simulation) (w : S.State) : Form → Form → Prop where
  | number (x : Binary64) : FormMatches S w (.number x) (.number x)
  | text (text : String) : FormMatches S w (.text text) (.text text)
  | boolean (b : Bool) : FormMatches S w (.boolean b) (.boolean b)
  | name (n : String) : FormMatches S w (.name n) (.name n)
  | binary (op : Operator) {operands operands' : List Datum}
      (h : List.Forall₂ (S.Matches w) operands operands') :
      FormMatches S w (.binary op operands) (.binary op operands')
  | var (n : String) (typeText : Option String) {value value' : Datum}
      (h : S.Matches w value value') :
      FormMatches S w (.var n typeText value) (.var n typeText value')
  | assignName (n : String) {value value' : Datum} (h : S.Matches w value value') :
      FormMatches S w (.assign (.name n) value) (.assign (.name n) value')
  | assignField (field : String) {object object' value value' : Datum}
      (hobject : S.Matches w object object') (h : S.Matches w value value') :
      FormMatches S w (.assign (.field object field) value) (.assign (.field object' field) value')
  | block {body body' : List Datum} (h : List.Forall₂ (S.Matches w) body body') :
      FormMatches S w (.block body) (.block body')
  | cond {condition condition' whenTrue whenTrue' whenFalse whenFalse' : Datum}
      (hcondition : S.Matches w condition condition')
      (hnarrowing : narrowing? condition' = narrowing? condition)
      (htrue : S.Matches w whenTrue whenTrue') (hfalse : S.Matches w whenFalse whenFalse') :
      FormMatches S w (.cond condition whenTrue whenFalse) (.cond condition' whenTrue' whenFalse')
  | loop {condition condition' body body' : Datum} (hcondition : S.Matches w condition condition')
      (hbody : S.Matches w body body') :
      FormMatches S w (.loop condition body) (.loop condition' body')
  | defineGeneric (n : String) {list list' : String} {parts parts' : FunctionParts}
      (h : S.Makes w list parts list' parts') :
      FormMatches S w (.define n (some list) parts) (.define n (some list') parts')
  | define (n : String) {parts parts' : FunctionParts} (hparams : parts'.params = parts.params)
      (hresult : parts'.resultText = parts.resultText)
      (hbody : S.Matches w parts.body parts'.body) :
      FormMatches S w (.define n none parts) (.define n none parts')
  | lambdaGeneric {list list' : String} {parts parts' : FunctionParts}
      (h : S.Makes w list parts list' parts') :
      FormMatches S w (.lambda (some list) parts) (.lambda (some list') parts')
  | lambda {parts parts' : FunctionParts} (hparams : parts'.params = parts.params)
      (hresult : parts'.resultText = parts.resultText)
      (hbody : S.Matches w parts.body parts'.body) :
      FormMatches S w (.lambda none parts) (.lambda none parts')
  | typeDecl {n : String} (hname : S.MayDeclare w n) (base : TypeBase) :
      FormMatches S w (.typeDecl n base) (.typeDecl n base)
  | classDecl {n : String} (hname : S.MayDeclare w n) (superclass : String) {body body' : Datum}
      (hbody : S.Matches w body body') :
      FormMatches S w (.classDecl n superclass body) (.classDecl n superclass body')
  | new (className : String) {args args' : List Datum}
      (h : List.Forall₂ (S.Matches w) args args') :
      FormMatches S w (.new className args) (.new className args')
  | super (className : String) : FormMatches S w (.super className) (.super className)
  | prop (field : String) {object object' : Datum} (h : S.Matches w object object') :
      FormMatches S w (.prop object field) (.prop object' field)
  | call (typeArgs : Option String) {head head' : Datum} {args args' : List Datum}
      (hhead : S.Matches w head head') (hsymbol : head'.symbol? = head.symbol?)
      (h : List.Forall₂ (S.Matches w) args args') :
      FormMatches S w (.call (.plain head typeArgs) args) (.call (.plain head' typeArgs) args')
  | callFused (n typeArgs : String) {args args' : List Datum}
      (h : List.Forall₂ (S.Matches w) args args') :
      FormMatches S w (.call (.fused n typeArgs) args) (.call (.fused n typeArgs) args')

/-- Expressions that match have forms that match. -/
structure Pairs (S : Simulation) : Prop where
  later : ∀ {w v d d'}, S.Later w v → S.Matches w d d' → S.Matches v d d'
  form : ∀ {w d d' form}, S.Matches w d d' → Form.classify d = .ok form →
    ∃ form', Form.classify d' = .ok form' ∧ S.FormMatches w form form'

theorem Makes.of_bodies (hS : S.Lawful) {parts parts' : FunctionParts}
    (hparams : parts'.params = parts.params) (hresult : parts'.resultText = parts.resultText)
    (hkin : ∀ {v g g'}, g.Like (S.Named v) { g' with body := g.body } → g.body = parts.body →
      g'.body = parts'.body → S.Kin v g g') (list : String) : S.Makes w list parts list parts' := by
  intro v name expr expr' closure _ hclosure
  have hread (text : String) : TypeExpr.ReadAs (fun e e' => e' = e) text text :=
    fun e he => ⟨e, he, rfl⟩
  have hread' : List.Forall₂ (Param.ReadAs fun e e' => e' = e) parts.params parts'.params := by
    rw [hparams]
    exact List.forall₂_same.mpr fun p _ => ⟨rfl, hread _⟩
  refine .makeTemplate hS (fun names names' => names' = names) (fun e e' => e' = e) name
    (fun es hes => ⟨es, hes, fun names hnames => ⟨names, hnames, rfl⟩⟩) hread'
    (by rw [hresult]; exact hread _) (fun hnames hparams hresult => ?_) expr expr' hclosure
  exact hkin ⟨rfl, rfl, hnames, hparams, hresult, rfl, rfl⟩ rfl rfl

theorem FormMatches.refl (hS : S.Lawful) {form : Form}
    (hparts : ∀ p ∈ form.parts, S.Matches w p p)
    (hname : ∀ n, form.declaredType? = some n → S.MayDeclare w n) : S.FormMatches w form form := by
  have hmakes (list : String) (parts : FunctionParts) : S.Makes w list parts list parts := by
    refine .of_bodies hS rfl rfl (fun hlike hbody hbody' => hS.kindred.of_like ?_) list
    rwa [hbody, ← hbody'] at hlike
  cases form with
  | number x => exact .number x
  | text text => exact .text text
  | boolean b => exact .boolean b
  | name n => exact .name n
  | binary op operands => exact .binary op (List.forall₂_same.mpr hparts)
  | var n typeText value => exact .var n typeText (hparts _ (by simp [Form.parts]))
  | assign target value =>
      cases target with
      | name n => exact .assignName n (hparts _ (by simp [Form.parts]))
      | field object f =>
          exact .assignField f (hparts _ (by simp [Form.parts])) (hparts _ (by simp [Form.parts]))
  | block body => exact .block (List.forall₂_same.mpr hparts)
  | cond condition whenTrue whenFalse =>
      exact .cond (hparts _ (by simp [Form.parts])) rfl (hparts _ (by simp [Form.parts]))
        (hparts _ (by simp [Form.parts]))
  | loop condition body =>
      exact .loop (hparts _ (by simp [Form.parts])) (hparts _ (by simp [Form.parts]))
  | define n typeParams parts =>
      cases typeParams with
      | some list => exact .defineGeneric n (hmakes list parts)
      | none => exact .define n rfl rfl (hparts _ (by simp [Form.parts]))
  | lambda typeParams parts =>
      cases typeParams with
      | some list => exact .lambdaGeneric (hmakes list parts)
      | none => exact .lambda rfl rfl (hparts _ (by simp [Form.parts]))
  | typeDecl n base => exact .typeDecl (hname n rfl) base
  | classDecl n superclass body =>
      exact .classDecl (hname n rfl) superclass (hparts _ (by simp [Form.parts]))
  | new className args => exact .new className (List.forall₂_same.mpr hparts)
  | super className => exact .super className
  | prop object field => exact .prop field (hparts _ (by simp [Form.parts]))
  | call callee args =>
      cases callee with
      | plain head typeArgs =>
          obtain ⟨hhead, hargs⟩ := List.forall_mem_cons.mp hparts
          exact .call typeArgs hhead rfl (List.forall₂_same.mpr hargs)
      | fused n typeArgs => exact .callFused n typeArgs (List.forall₂_same.mpr hparts)

theorem Pairs.of_same (hS : S.Lawful)
    (hsame : ∀ {w d d'}, S.Matches w d d' ↔ d' = d ∧ S.Admits w d := by exact Iff.rfl) :
    S.Pairs where
  later hv h := by
    rw [hsame] at h ⊢
    exact ⟨h.1, hS.admits hv h.2⟩
  form h hd := by
    obtain ⟨rfl, hadmits⟩ := hsame.mp h
    refine ⟨_, hd, .refl hS (fun p hp => hsame.mpr ⟨rfl, hadmits.part hd hp⟩) fun n hn => ?_⟩
    exact hadmits n (.here hd hn)

namespace Follows

/-- An expression is checked as each that matches it, from every state on. -/
def OfExpr (S : Simulation) (inBody : Datum → ScopeId → CheckM Ty) (d : Datum) : Prop :=
  ∀ (w : S.State) (d' : Datum) (s : ScopeId), S.Opens w s → S.Matches w d d' →
    S.Follows w (checkExpr inBody d s) (checkExpr inBody d' s) S.Alike

/-- The same of bodies. -/
def OfBodies (S : Simulation) (inBody : Datum → ScopeId → CheckM Ty) : Prop :=
  ∀ (w : S.State) (d d' : Datum) (s : ScopeId), S.Opens w s → S.Matches w d d' →
    S.Follows w (inBody d s) (inBody d' s) S.Alike

/-- From a state on, expressions are checked alike in a scope. -/
def Checks (S : Simulation) (inBody : Datum → ScopeId → CheckM Ty) (w : S.State) (s : ScopeId)
    (d d' : Datum) : Prop :=
  ∀ v, S.Later w v → S.Follows v (checkExpr inBody d s) (checkExpr inBody d' s) S.Alike

/-- From a state on, bodies are checked alike in every scope. -/
def ChecksBody (S : Simulation) (inBody : Datum → ScopeId → CheckM Ty) (w : S.State)
    (d d' : Datum) : Prop :=
  ∀ v s, S.Later w v → S.Opens v s →
    S.Follows v (checkBody inBody d s) (checkBody inBody d' s) S.Alike

variable (hS : S.Lawful) {s : ScopeId} {d d' : Datum}

include hS

theorem Checks.later (h : Checks S inBody w s d d') (hv : S.Later w v) :
    Checks S inBody v s d d' :=
  fun u hu => h u (hS.trans hv hu)

theorem ChecksBody.later (h : ChecksBody S inBody w d d') (hv : S.Later w v) :
    ChecksBody S inBody v d d' :=
  fun u s hu hs => h u s (hS.trans hv hu) hs

theorem checkFunction {body body' : Datum} (params : List Param) {sig : Signature}
    (hsig : S.Plain w sig.toTy) (expr expr' : Datum) {closure : ScopeId}
    (hclosure : S.Opens w closure) (hbody : ChecksBody S inBody w body body') :
    S.Follows w (checkFunction inBody params sig body expr closure)
      (checkFunction inBody params sig body' expr' closure) fun _ _ _ => True := by
  rw [CheckM.checkFunction, CheckM.checkFunction]
  refine bind hS (internAll hS _) fun v symbols symbols' hv hsymbols => ?_
  have hparts := hS.plain_function.mp (hS.plain hv hsig)
  refine bind hS (openFunction hS (hS.opens hv hclosure) hsymbols hparts.1)
    fun u _ scope hu hscope => ?_
  obtain ⟨rfl, hscope⟩ := hscope
  refine bind hS (hbody u scope (hS.trans hv hu) hscope) fun x t t' hx ht => ?_
  exact expect hS ht (alike_of_plain (hS.plain (hS.trans hu hx) hparts.2)) body body' expr expr'

omit hS in
theorem forall₂_zip_alike {args args' : List Datum} (hlength : args.length = args'.length)
    {types types' : List Ty} (htypes : List.Forall₂ (S.Alike w) types types') :
    List.Forall₂ (fun a a' => S.Alike w a.2 a'.2) (args.zip types) (args'.zip types') := by
  induction htypes generalizing args args' with
  | nil => simp
  | cons ht _ ih =>
      cases args with
      | nil =>
          obtain rfl := List.eq_nil_of_length_eq_zero hlength.symm
          exact .nil
      | cons arg args =>
          obtain ⟨arg', args', rfl⟩ := List.exists_cons_of_length_eq_add_one hlength.symm
          exact .cons ht (ih (Nat.succ.inj hlength))

theorem binary {left left' right right' : Datum} (hleft : Checks S inBody w s left left')
    (hright : Checks S inBody w s right right') (op : Operator) (expr expr' : Datum) :
    S.Follows w
      (do let leftType ← CheckM.checkExpr inBody left s
          let rightType ← CheckM.checkExpr inBody right s
          CheckM.operate op left right leftType rightType expr)
      (do let leftType ← CheckM.checkExpr inBody left' s
          let rightType ← CheckM.checkExpr inBody right' s
          CheckM.operate op left' right' leftType rightType expr') S.Alike := by
  refine bind hS (hleft w (hS.refl w)) fun v t t' hv ht => ?_
  refine bind hS (hright v hv) fun u r r' hu hr => ?_
  exact operate hS op left left' right right' (hS.alike hu ht) hr expr expr'

theorem assign {value value' : Datum} (hvalue : Checks S inBody w s value value')
    {declared declared' : Ty} (hdeclared : S.Alike w declared declared') (expr expr' : Datum) :
    S.Follows w
      (do let t ← CheckM.checkExpr inBody value s
          CheckM.expect t declared value expr
          return declared)
      (do let t ← CheckM.checkExpr inBody value' s
          CheckM.expect t declared' value' expr'
          return declared') S.Alike := by
  refine bind hS (hvalue w (hS.refl w)) fun v t t' hv ht => ?_
  have hdeclared := hS.alike hv hdeclared
  refine bind hS (expect hS ht hdeclared value value' expr expr') fun u _ _ hu _ => ?_
  exact pure hS (hS.alike hu hdeclared)

theorem guarded {condition condition' : Datum}
    (hcondition : Checks S inBody w s condition condition') (expr expr' : Datum) {m m' : CheckM Ty}
    (hm : ∀ v, S.Later w v → S.Follows v m m' S.Alike) :
    S.Follows w
      (do let t ← CheckM.checkExpr inBody condition s
          CheckM.expect t .boolean condition expr
          m)
      (do let t ← CheckM.checkExpr inBody condition' s
          CheckM.expect t .boolean condition' expr'
          m') S.Alike := by
  refine bind hS (hcondition w (hS.refl w)) fun v t t' hv ht => ?_
  refine bind hS (expect hS ht (alike_of_plain (hS.plain_primitive v .boolean)) _ _ expr expr')
    fun u _ _ hu _ => ?_
  exact hm u (hS.trans hv hu)

theorem branches {condition condition' whenTrue whenTrue' whenFalse whenFalse' : Datum}
    (hs : S.Opens w s) (hcondition : narrowing? condition' = narrowing? condition)
    (htrue : ∀ v branch, S.Later w v → S.Opens v branch →
      S.Follows v (CheckM.checkExpr inBody whenTrue branch)
        (CheckM.checkExpr inBody whenTrue' branch) S.Alike)
    (hfalse : Checks S inBody w s whenFalse whenFalse') (expr expr' : Datum) :
    S.Follows w
      (do let branch ← CheckM.narrow condition s
          let trueType ← CheckM.checkExpr inBody whenTrue branch
          let falseType ← CheckM.checkExpr inBody whenFalse s
          CheckM.expect falseType trueType whenFalse expr
          return trueType)
      (do let branch ← CheckM.narrow condition' s
          let trueType ← CheckM.checkExpr inBody whenTrue' branch
          let falseType ← CheckM.checkExpr inBody whenFalse' s
          CheckM.expect falseType trueType whenFalse' expr'
          return trueType) S.Alike := by
  refine bind hS (narrow hS hcondition hs) fun v _ branch hv hbranch => ?_
  obtain ⟨rfl, hbranch⟩ := hbranch
  refine bind hS (htrue v branch hv hbranch) fun u t t' hu ht => ?_
  refine bind hS (hfalse u (hS.trans hv hu)) fun x r r' hx hr => ?_
  have ht := hS.alike hx ht
  refine bind hS (expect hS hr ht whenFalse whenFalse' expr expr') fun y _ _ hy _ => ?_
  exact pure hS (hS.alike hy ht)

section Functions

variable {parts parts' : FunctionParts} (hparams : parts'.params = parts.params)
  (hresult : parts'.resultText = parts.resultText) (hs : S.Opens w s)
  (hbody : ChecksBody S inBody w parts.body parts'.body)

include hparams hresult hs hbody

theorem defineFunction (name : String) (expr expr' : Datum) :
    S.Follows w
      (do let sig ← CheckM.signature parts expr
          let _ ← CheckM.define s name sig.toTy
          CheckM.checkFunction inBody parts.params sig parts.body expr s
          CheckM.emit (.functionDeclared name sig.toTy)
          CheckM.define s name sig.toTy)
      (do let sig ← CheckM.signature parts' expr'
          let _ ← CheckM.define s name sig.toTy
          CheckM.checkFunction inBody parts'.params sig parts'.body expr' s
          CheckM.emit (.functionDeclared name sig.toTy)
          CheckM.define s name sig.toTy) S.Alike := by
  refine bind hS (signature hS hparams hresult expr expr') fun v _ sig hv hsig => ?_
  obtain ⟨rfl, hsig⟩ := hsig
  refine bind hS (define hS (hS.opens hv hs) name (alike_of_plain hsig)) fun u _ _ hu _ => ?_
  have hwu := hS.trans hv hu
  rw [hparams]
  refine bind hS (checkFunction hS parts.params (hS.plain hu hsig) expr expr' (hS.opens hwu hs)
    (hbody.later hS hwu)) fun x _ _ hx _ => ?_
  refine bind hS (emit_same hS _) fun y _ _ hy _ => ?_
  have hy := hS.trans hx hy
  exact define hS (hS.opens (hS.trans hwu hy) hs) name
    (alike_of_plain (hS.plain (hS.trans hu hy) hsig))

theorem plainFunction (expr expr' : Datum) :
    S.Follows w
      (do let sig ← CheckM.signature parts expr
          CheckM.checkFunction inBody parts.params sig parts.body expr s
          return sig.toTy)
      (do let sig ← CheckM.signature parts' expr'
          CheckM.checkFunction inBody parts'.params sig parts'.body expr' s
          return sig.toTy) S.Alike := by
  refine bind hS (signature hS hparams hresult expr expr') fun v _ sig hv hsig => ?_
  obtain ⟨rfl, hsig⟩ := hsig
  rw [hparams]
  refine bind hS (checkFunction hS parts.params hsig expr expr' (hS.opens hv hs)
    (hbody.later hS hv)) fun u _ _ hu _ => ?_
  exact pure hS (alike_of_plain (hS.plain hu hsig))

end Functions

theorem classBody {body body' : Datum} {name : String} (hs : S.Opens w s)
    (hbody : ChecksBody S inBody w body body') (hname : S.MayDeclare w name) (superclass : String)
    (expr expr' : Datum) :
    S.Follows w
      (do let c ← CheckM.declareClass name superclass expr s
          let _ ← CheckM.checkBody inBody body c.fields
          return .ofClass c)
      (do let c ← CheckM.declareClass name superclass expr' s
          let _ ← CheckM.checkBody inBody body' c.fields
          return .ofClass c) S.Alike := by
  refine bind hS (declareClass hS hname superclass expr expr' hs) fun v _ c hv hc => ?_
  obtain ⟨rfl, hfields, hclass⟩ := hc
  refine bind hS (hbody v c.fields hv hfields) fun u _ _ hu _ => ?_
  exact pure hS (alike_of_plain (hS.plain hu hclass))

theorem actualSignature {g g' : Template} (hg : S.Kin w g g') {actuals : List TypeExpr}
    (hactuals : actuals.length = g.typeParams.length) (expr expr' : Datum) :
    S.Follows w (actualSignature g actuals expr) (actualSignature g' actuals expr')
      fun v s s' => s' = s ∧ S.Plain v s.toTy := by
  rw [actualSignature_eq, actualSignature_eq, hS.kindred.typesAt hg hactuals]
  refine bind hS (resolveExprs hS expr expr' w _) fun v _ params _ hparams => ?_
  obtain ⟨⟨rfl, hparams⟩, -⟩ := hparams
  refine bind hS (resolveExpr hS expr expr' v _) fun u _ result hu hresult => ?_
  obtain ⟨rfl, hresult⟩ := hresult
  exact pure hS ⟨rfl, hS.plain_function.mpr ⟨fun p hp => hS.plain hu (hparams p hp), hresult⟩⟩

variable (hD : S.Pairs)

include hD

theorem checkEach {ds ds' : List Datum} (hds : ∀ d ∈ ds, OfExpr S inBody d) (hs : S.Opens w s)
    (hmatches : List.Forall₂ (S.Matches w) ds ds') :
    S.Follows w (checkEach inBody ds s) (checkEach inBody ds' s)
      fun v => List.Forall₂ (S.Alike v) := by
  refine @each S w hS Ty Datum (fun d => CheckM.checkExpr inBody d s)
    (fun d => CheckM.checkExpr inBody d s) (fun ds => CheckM.checkEach inBody ds s)
    (fun ds => CheckM.checkEach inBody ds s) ?_ (fun d ds => ?_) S.Alike hS.alike ds ds' ?_
  · rw [CheckM.checkEach]
    exact ⟨rfl, rfl⟩
  · rw [CheckM.checkEach]
    exact ⟨rfl, rfl⟩
  · refine List.forall₂_iff_get.mpr ⟨hmatches.length_eq, fun i hi hi' v hv => ?_⟩
    exact hds _ (List.get_mem ds ⟨i, hi⟩) v _ s (hS.opens hv hs)
      (hD.later hv (hmatches.get hi hi'))

theorem checkBlock {ds ds' : List Datum} (hds : ∀ d ∈ ds, OfExpr S inBody d) (hs : S.Opens w s)
    (hmatches : List.Forall₂ (S.Matches w) ds ds') :
    S.Follows w (checkBlock inBody ds s) (checkBlock inBody ds' s) S.Alike := by
  induction ds generalizing w ds' with
  | nil =>
      cases hmatches
      rw [CheckM.checkBlock]
      exact pure hS (alike_of_plain (hS.plain_primitive w .null))
  | cons d ds ih =>
      obtain ⟨d', ds', hd, hrest, rfl⟩ := List.forall₂_cons_left_iff.mp hmatches
      have hfirst := hds d List.mem_cons_self w d' s hs hd
      cases hrest with
      | nil =>
          rw [CheckM.checkBlock, CheckM.checkBlock]
          exact hfirst
      | cons hnext hmore =>
          rw [CheckM.checkBlock, CheckM.checkBlock]
          refine bind hS hfirst fun v _ _ hv _ => ?_
          exact ih (fun e he => hds e (List.mem_cons_of_mem _ he)) (hS.opens hv hs)
            ((List.Forall₂.cons hnext hmore).imp fun _ _ => hD.later hv)

theorem checkBody (hd : OfExpr S inBody d)
    (hitems : ∀ items, Form.classify d = .ok (.block items) → ∀ e ∈ items, OfExpr S inBody e)
    (hs : S.Opens w s) (hmatches : S.Matches w d d') :
    S.Follows w (checkBody inBody d s) (checkBody inBody d' s) S.Alike := by
  cases hform : Form.classify d with
  | error m =>
      rw [checkBody_eq_checkExpr (by simp [hform]), checkExpr_of_error hform]
      exact reject hS rfl _ _
  | ok form =>
      obtain ⟨form', hform', hforms⟩ := hD.form hmatches hform
      by_cases hblock : ∃ items, form = .block items
      · obtain ⟨items, rfl⟩ := hblock
        cases hforms with
        | block hbody =>
            rw [checkBody_of_block hform, checkBody_of_block hform']
            exact checkBlock hS hD (hitems items hform) hs hbody
      · have hblock' (items : List Datum) : form' ≠ .block items := by
          rintro rfl
          cases hforms with
          | block => exact hblock ⟨_, rfl⟩
        rw [checkBody_eq_checkExpr (by simpa [hform] using hblock),
          checkBody_eq_checkExpr (by simpa [hform'] using hblock')]
        exact hd w d' s hs hmatches

theorem arguments {args args' : List Datum} (hargs : ∀ e ∈ args, OfExpr S inBody e)
    (hs : S.Opens w s) (hmatches : List.Forall₂ (S.Matches w) args args') {sig : Signature}
    (hsig : S.Plain w sig.toTy) (callee callee' : String) (before : List (Datum × Ty))
    (hbefore : ∀ a ∈ before, S.Plain w a.2) (expr expr' : Datum) {t : Ty} (ht : S.Plain w t) :
    S.Follows w
      (do let types ← CheckM.checkEach inBody args s
          CheckM.acceptArguments sig callee (before ++ args.zip types) expr
          return t)
      (do let types ← CheckM.checkEach inBody args' s
          CheckM.acceptArguments sig callee' (before ++ args'.zip types) expr'
          return t) S.Alike := by
  refine bind hS (checkEach hS hD hargs hs hmatches) fun v types types' hv htypes => ?_
  have hpairs : List.Forall₂ (fun a a' => S.Alike v a.2 a'.2) (before ++ args.zip types)
      (before ++ args'.zip types') := by
    refine List.rel_append (List.forall₂_same.mpr fun a ha => ?_)
      (forall₂_zip_alike hmatches.length_eq htypes)
    exact alike_of_plain (hS.plain hv (hbefore a ha))
  refine bind hS (acceptArguments hS (hS.plain hv hsig) callee callee' hpairs expr expr')
    fun u _ _ hu _ => ?_
  exact pure hS (alike_of_plain (hS.plain (hS.trans hv hu) ht))

section Templates

variable (hbodies : OfBodies S inBody)

include hbodies

/-- The body of an instance is checked as that of the other. If the two do not match, the second
checker is left behind, and the first is followed on its own. -/
theorem checkFunctionBody {g g' : Template} {names : List String}
    (hbody : S.Matches w (actualBody g names) (actualBody g' names) ∨
      ¬S.Agrees w ∧ S.Matches w (actualBody g names) (actualBody g names))
    (hg : S.Made w g g') {sig : Signature} (hsig : S.Plain w sig.toTy) (expr expr' : Datum) :
    S.Follows w
      (checkFunctionBody inBody g.closure ((g.params.map Prod.fst).zip sig.params)
        (actualBody g names) sig.result expr)
      (checkFunctionBody inBody g'.closure ((g'.params.map Prod.fst).zip sig.params)
        (actualBody g' names) sig.result expr') fun _ _ _ => True := by
  have hparts := hS.plain_function.mp hsig
  have hmatching {b : Datum} (hb : S.Matches w (actualBody g names) b) :
      S.Follows w
        (CheckM.checkFunctionBody inBody g.closure ((g.params.map Prod.fst).zip sig.params)
          (actualBody g names) sig.result expr)
        (CheckM.checkFunctionBody inBody g'.closure ((g'.params.map Prod.fst).zip sig.params)
          b sig.result expr') fun _ _ _ => True := by
    rw [CheckM.checkFunctionBody, CheckM.checkFunctionBody, hS.kindred.closure hg.1]
    refine bind hS (openFunction hS hg.2 (hS.kindred.symbols hg.1) hparts.1)
      fun v _ scope hv hscope => ?_
    obtain ⟨rfl, hscope⟩ := hscope
    refine bind hS (hbodies v _ _ scope hscope (hD.later hv hb)) fun u t t' hu ht => ?_
    exact expect hS ht (alike_of_plain (hS.plain (hS.trans hv hu) hparts.2)) _ _ expr expr'
  rcases hbody with hbody | ⟨hleft, hbody⟩
  · exact hmatching hbody
  · refine ⟨fun hrun => ?_, (hmatching hbody).stop⟩
    obtain ⟨_, v, hv, -, hlater, -⟩ := (hmatching hbody).ends hrun
    exact ⟨(), v, hv, fun hagrees => absurd (hS.agrees hlater hagrees) hleft, hlater, trivial⟩

theorem instantiateAt {g g' : Template} (hg : S.Made w g g') {actuals : List TypeExpr}
    (hactuals : actuals.length = g.typeParams.length) {key : InstanceKey}
    (hid : key.template = g.id) (hnames : key.actuals.length = g.typeParams.length)
    (expr expr' : Datum) :
    S.Follows w (instantiateAt inBody g actuals key expr)
      (instantiateAt inBody g' actuals key expr') fun v s s' => s' = s ∧ S.Plain v s.toTy := by
  refine context_bind ?_
  rw [hS.instance? w key]
  cases h : (S.here w).instance? key with
  | some sig => exact pure hS ⟨rfl, hS.plain_instance h⟩
  | none =>
      refine bind hS (actualSignature hS hg.1 hactuals expr expr') fun v _ sig hv hsig => ?_
      obtain ⟨rfl, hsig⟩ := hsig
      have hmade := hS.made hv hg
      refine bind hS (emit hS (.instantiated hmade sig)) fun u _ _ hu hreadies => ?_
      have hreadies := hreadies g g' sig rfl hmade
      refine provisionally hS (hS.plain hu hsig) fun x hx hrecorded => ?_
      refine checkFunctionBody hS hD hbodies ?_ (hS.made (hS.trans hu hx) hmade)
        (hS.plain (hS.trans hu hx) hsig) expr expr'
      exact hreadies w x key (hS.trans hv hu) h hx hrecorded hid hnames

theorem instantiate {g g' : Template} (hg : S.Made w g g') (typeList : String)
    (expr expr' : Datum) :
    S.Follows w (instantiate inBody g typeList expr) (instantiate inBody g' typeList expr')
      fun v s s' => s' = s ∧ S.Plain v s.toTy := by
  rw [instantiate_eq, instantiate_eq]
  refine bind hS (parseTypeList hS (fun es hes => ⟨es, hes, rfl⟩) expr expr')
    fun v actuals actuals' hv (hactuals : actuals = actuals') => ?_
  subst hactuals
  rw [hS.kindred.arity hg.1, hS.kindred.id hg.1]
  split
  · exact reject hS rfl _ _
  · next hlength =>
      have hlength := Decidable.not_not.mp hlength
      refine bind hS (resolveExprs hS expr expr' v actuals) fun u _ types hu htypes => ?_
      obtain ⟨⟨rfl, -⟩, htypes⟩ := htypes
      exact instantiateAt hS hD hbodies (hS.made (hS.trans hv hu) hg) hlength rfl
        (by rw [List.length_map, htypes, hlength]) expr expr'

theorem calledSignature {callee callee' : Ty} (hcallee : S.Alike w callee callee')
    (calleeName calleeName' : String) (typeArgs : Option String) (expr expr' : Datum) :
    S.Follows w (calledSignature inBody callee calleeName typeArgs expr)
      (calledSignature inBody callee' calleeName' typeArgs expr')
      fun v s s' => s' = s ∧ S.Plain v s.toTy := by
  rcases hcallee with ⟨rfl, hcallee⟩ | ⟨g, g', rfl, rfl, hg⟩
  · rw [CheckM.calledSignature.eq_def, CheckM.calledSignature.eq_def]
    split
    · next list => exact instantiate hS hD hbodies (hS.plain_template hcallee) list expr expr'
    · exact reject hS rfl _ _
    · exact reject hS rfl _ _
    · split
      · next sig hsig => exact pure hS ⟨rfl, hS.plain_signature? hcallee hsig⟩
      · exact reject hS rfl _ _
  · cases typeArgs with
    | some list => exact instantiate hS hD hbodies hg list expr expr'
    | none => exact reject hS rfl _ _

theorem call {args args' : List Datum} (hargs : ∀ e ∈ args, OfExpr S inBody e) (hs : S.Opens w s)
    (hmatches : List.Forall₂ (S.Matches w) args args') {callee callee' : Ty}
    (hcallee : S.Alike w callee callee') (calleeName calleeName' : String)
    (typeArgs : Option String) (expr expr' : Datum) :
    S.Follows w
      (do let sig ← CheckM.calledSignature inBody callee calleeName typeArgs expr
          let types ← CheckM.checkEach inBody args s
          CheckM.acceptArguments sig calleeName (args.zip types) expr
          return sig.result)
      (do let sig ← CheckM.calledSignature inBody callee' calleeName' typeArgs expr'
          let types ← CheckM.checkEach inBody args' s
          CheckM.acceptArguments sig calleeName' (args'.zip types) expr'
          return sig.result) S.Alike := by
  refine bind hS (calledSignature hS hD hbodies hcallee calleeName calleeName' typeArgs expr expr')
    fun v _ sig hv hsig => ?_
  obtain ⟨rfl, hsig⟩ := hsig
  exact arguments hS hD hargs (hS.opens hv hs) (hmatches.imp fun _ _ => hD.later hv) hsig
    calleeName calleeName' [] (by simp) expr expr' (hS.plain_function.mp hsig).2

end Templates

theorem checkExpr (hbodies : OfBodies S inBody) (d : Datum) : OfExpr S inBody d := by
  -- On the size of the expression of the first checker; that of the second follows it.
  induction hsize : sizeOf d using Nat.strongRecOn generalizing d with
  | ind size ih =>
      subst hsize
      intro w₀ d' s hs hmatches
      cases hd : Form.classify d with
      | error m =>
          rw [checkExpr_of_error hd]
          exact reject hS rfl _ _
      | ok form =>
          obtain ⟨form', hd', -⟩ := hD.form hmatches hd
          rw [checkExpr_of_classify hd, checkExpr_of_classify hd']
          refine bind hS (emit hS (.checking hmatches s)) fun w _ _ hw _ => ?_
          obtain ⟨_, hd'', hforms⟩ := hD.form (hD.later hw hmatches) hd
          cases hd'.symm.trans hd''
          have hs := hS.opens hw hs
          have hsmaller {p : Datum} (hp : p ∈ form.parts) : OfExpr S inBody p :=
            ih _ (Form.sizeOf_lt_of_classify hd hp) p rfl
          have hpart {p p' : Datum} (hp : p ∈ form.parts) (hm : S.Matches w p p') :
              Checks S inBody w s p p' :=
            fun v hv => hsmaller hp v p' s (hS.opens hv hs) (hD.later hv hm)
          have hinside {p p' : Datum} (hp : p ∈ form.parts) (hm : S.Matches w p p') :
              ChecksBody S inBody w p p' := by
            intro v q hv hq
            refine checkBody hS hD (hsmaller hp) (fun items hitems e he => ?_) hq (hD.later hv hm)
            refine ih _ (Nat.lt_trans ?_ (Form.sizeOf_lt_of_classify hd hp)) e rfl
            exact Form.sizeOf_lt_of_classify hitems he
          cases hforms with
          | number x => exact pure hS (alike_of_plain (hS.plain_primitive w .number))
          | text text => exact pure hS (alike_of_plain (hS.plain_primitive w .string))
          | boolean b => exact pure hS (alike_of_plain (hS.plain_primitive w .boolean))
          | name n => exact lookup hS hs n d d'
          | binary op hoperands =>
              rcases hoperands with _ | ⟨hleft, _ | ⟨hright, _ | ⟨_, _⟩⟩⟩
              · exact reject hS rfl _ _
              · exact reject hS rfl _ _
              · exact binary hS (hpart (by simp [Form.parts]) hleft)
                  (hpart (by simp [Form.parts]) hright) op d d'
              · exact reject hS rfl _ _
          | @var n typeText value value' hvalue =>
              refine bind hS (hpart (by simp [Form.parts]) hvalue w (hS.refl w))
                fun v t t' hv ht => ?_
              exact declareVar hS n typeText value value' ht d d' (hS.opens hv hs)
          | assignName n hvalue =>
              refine bind hS (lookup hS hs n d d') fun v _ _ hv hdeclared => ?_
              exact assign hS ((hpart (by simp [Form.parts]) hvalue).later hS hv) hdeclared d d'
          | assignField field hobject hvalue =>
              refine bind hS (hpart (by simp [Form.parts]) hobject w (hS.refl w))
                fun v _ _ hv hobject => ?_
              refine bind hS (fieldType hS hobject field d d') fun u _ _ hu hdeclared => ?_
              exact assign hS ((hpart (by simp [Form.parts]) hvalue).later hS (hS.trans hv hu))
                hdeclared d d'
          | block hbody =>
              refine bind hS (child hS hs) fun v _ inner hv hinner => ?_
              obtain ⟨rfl, hinner⟩ := hinner
              exact checkBlock hS hD (fun e he => hsmaller he) hinner
                (hbody.imp fun _ _ => hD.later hv)
          | cond hcondition hnarrowing htrue hfalse =>
              refine guarded hS (hpart (by simp [Form.parts]) hcondition) d d' fun v hv => ?_
              refine branches hS (hS.opens hv hs) hnarrowing (fun u branch hu hbranch => ?_)
                ((hpart (by simp [Form.parts]) hfalse).later hS hv) d d'
              exact hsmaller (by simp [Form.parts]) u _ branch hbranch
                (hD.later (hS.trans hv hu) htrue)
          | loop hcondition hbody =>
              exact guarded hS (hpart (by simp [Form.parts]) hcondition) d d'
                (hpart (by simp [Form.parts]) hbody)
          | defineGeneric n hmakes =>
              refine bind hS (hmakes w n d d' s (hS.refl w) hs) fun v t t' hv ht => ?_
              refine bind hS (emit_typed hS .templateDeclared ht) fun u _ _ hu _ => ?_
              exact define hS (hS.opens (hS.trans hv hu) hs) n (hS.alike hu ht)
          | define n hparams hresult hbody =>
              exact defineFunction hS hparams hresult hs (hinside (by simp [Form.parts]) hbody) n
                d d'
          | lambdaGeneric hmakes => exact hmakes w "lambda" d d' s (hS.refl w) hs
          | lambda hparams hresult hbody =>
              exact plainFunction hS hparams hresult hs (hinside (by simp [Form.parts]) hbody) d d'
          | typeDecl hname base => exact declareType hS hname base d d'
          | classDecl hname superclass hbody =>
              exact classBody hS hs (hinside (by simp [Form.parts]) hbody) hname superclass d d'
          | new className hargs =>
              refine bind hS (constructorOf hS className d d') fun v _ cs hv hcs => ?_
              obtain ⟨rfl, hclass, hsig⟩ := hcs
              exact arguments hS hD (fun e he => hsmaller he) (hS.opens hv hs)
                (hargs.imp fun _ _ => hD.later hv) hsig _ _
                [(Datum.symbol className, Ty.ofClass cs.1)] (by simpa using hclass) d d' hclass
          | super className => exact superclass hS className d d'
          | prop field hobject =>
              refine bind hS (hpart (by simp [Form.parts]) hobject w (hS.refl w))
                fun v _ _ _ hobject => ?_
              exact fieldType hS hobject field d d'
          | @call typeArgs head head' args args' hhead hsymbol hargs =>
              refine bind hS (rejectUnknownOperator hS hsymbol d d' hs) fun v _ _ hv _ => ?_
              refine bind hS (hpart (by simp [Form.parts]) hhead v hv) fun u _ _ hu hcallee => ?_
              have hu := hS.trans hv hu
              exact call hS hD hbodies (fun e he => hsmaller (List.mem_cons_of_mem _ he))
                (hS.opens hu hs) (hargs.imp fun _ _ => hD.later hu) hcallee head.shown head'.shown
                typeArgs d d'
          | callFused n typeArgs hargs =>
              refine bind hS (lookup hS hs n d d') fun v _ _ hv hcallee => ?_
              exact call hS hD hbodies (fun e he => hsmaller he) (hS.opens hv hs)
                (hargs.imp fun _ _ => hD.later hv) hcallee n n (some typeArgs) d d'

theorem bodyWithin (depth : Nat) : OfBodies S (bodyWithin depth) := by
  induction depth with
  | zero => exact fun w d d' s _ _ => throw hS (by simp [Halt.undefined?]) _ _
  | succ depth ih =>
      intro w d d' s hs hmatches
      exact checkBody hS hD (checkExpr hS hD ih d) (fun _ _ e _ => checkExpr hS hD ih e) hs hmatches

end Follows

end Simulation

end TypedLisp
