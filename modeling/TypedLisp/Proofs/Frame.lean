import TypedLisp.Proofs.Evolution
import TypedLisp.Proofs.Visibility

namespace TypedLisp

/-- The name that a form itself declares in its scope. -/
def Form.declared? : Form → Option String
  | .var n _ _ | .define n _ _ | .classDecl n _ _ => some n
  | _ => none

/-- A name is declared by an expression or by one inside it. -/
inductive Declares : Datum → String → Prop where
  | here {d : Datum} {f : Form} {name : String} (hd : Form.classify d = .ok f)
      (hname : f.declared? = some name) : Declares d name
  | inside {d part : Datum} {f : Form} {name : String} (hd : Form.classify d = .ok f)
      (hpart : part ∈ f.parts) (h : Declares part name) : Declares d name

/-- A check can start in a scope that is open. -/
structure World.Ready (w : World) (may : ScopeId → String → Prop) (s : ScopeId) : Prop where
  opened : s.index < w.size
  unbound : w.Unbound may

theorem World.Ready.later {w v : World} {may : ScopeId → String → Prop} {s : ScopeId}
    (h : w.Ready may s) (hv : w.Later v) : v.Ready may s :=
  ⟨Nat.lt_of_lt_of_le h.opened hv.size, h.unbound.later hv⟩

namespace Evolves

open World CheckM

variable {may : ScopeId → String → Prop} {inBody : Datum → ScopeId → CheckM Ty} {w v : World}
  {s : ScopeId} {d body : Datum}

/-- Checking an expression evolves every world, in a scope where its names can be bound. -/
def OfExpr (may : ScopeId → String → Prop) (inBody : Datum → ScopeId → CheckM Ty) (d : Datum) :
    Prop :=
  ∀ w s, w.Ready may s → (∀ name, Declares d name → may s name) →
    Evolves may w (checkExpr inBody d s) fun t v => v.Knows t

/-- The same of a body, in a scope of its own. -/
def OfBody (may : ScopeId → String → Prop) (inBody : Datum → ScopeId → CheckM Ty) (d : Datum) :
    Prop :=
  ∀ w s, w.Ready may s → (∀ name, may s name) →
    Evolves may w (checkBody inBody d s) fun t v => v.Knows t

/-- From a world on, an expression can be checked in a scope. -/
def Checks (may : ScopeId → String → Prop) (inBody : Datum → ScopeId → CheckM Ty) (w : World)
    (s : ScopeId) (d : Datum) : Prop :=
  ∀ v, w.Later v → Evolves may v (checkExpr inBody d s) fun t u => u.Knows t

theorem OfExpr.checks (h : OfExpr may inBody d) (hw : w.Ready may s)
    (hnames : ∀ name, Declares d name → may s name) : Checks may inBody w s d :=
  fun v hv => h v s (hw.later hv) hnames

theorem Checks.later (h : Checks may inBody w s d) (hv : w.Later v) : Checks may inBody v s d :=
  fun u hu => h u (hv.trans hu)

theorem checkEach {ds : List Datum} (hds : ∀ d ∈ ds, Checks may inBody w s d) :
    Evolves may w (checkEach inBody ds s) fun ts v => ∀ t ∈ ts, v.Knows t := by
  induction ds generalizing w with
  | nil =>
      rw [CheckM.checkEach]
      exact pure (by simp)
  | cons d ds ih =>
      rw [CheckM.checkEach]
      refine (hds d List.mem_cons_self w (.refl w)).bind fun t v hv _ ht => ?_
      refine (ih fun e he => (hds e (List.mem_cons_of_mem _ he)).later hv).bind
        fun ts u hu _ hts => pure ?_
      exact List.forall_mem_cons.mpr ⟨ht.later hu, hts⟩

theorem checkBlock {ds : List Datum} (hds : ∀ d ∈ ds, Checks may inBody w s d) :
    Evolves may w (checkBlock inBody ds s) fun t v => v.Knows t := by
  induction ds generalizing w with
  | nil =>
      rw [CheckM.checkBlock]
      exact pure (.inl (.primitive .null))
  | cons d ds ih =>
      have hd := hds d List.mem_cons_self w (.refl w)
      cases ds with
      | nil =>
          rw [CheckM.checkBlock]
          exact hd
      | cons next ds =>
          rw [CheckM.checkBlock]
          refine hd.bind fun _ v hv _ _ => ?_
          exact ih fun e he => (hds e (List.mem_cons_of_mem _ he)).later hv

theorem checkBody (hd : OfExpr may inBody d)
    (hitems : ∀ items, d = .list (.symbol Keyword.begin.text :: items) →
      ∀ e ∈ items, OfExpr may inBody e)
    (hw : w.Ready may s) (hnames : ∀ name, Declares d name → may s name) :
    Evolves may w (checkBody inBody d s) fun t v => v.Knows t := by
  rw [CheckM.checkBody.eq_def]
  split
  · next tag items =>
      split
      · next htag =>
          subst htag
          refine checkBlock fun e he => (hitems items rfl e he).checks hw ?_
          intro name hname
          exact hnames name (.inside (Form.classify_begin items) he hname)
      · exact hd w s hw hnames
  · exact hd w s hw hnames

theorem checkFunction (hbody : OfBody may inBody body) (params : List Param) {sig : Signature}
    (expr : Datum) {closure : ScopeId} (hw : w.Ready may closure) (hsig : sig.Written w.size) :
    Evolves may w (checkFunction inBody params sig body expr closure) fun _ v => w.Later v := by
  rw [CheckM.checkFunction]
  refine (internAll _).bind fun symbols v hv _ hsymbols => ?_
  have hbindings : ∀ b ∈ symbols.zip sig.params, (∃ name, v.Names b.1 name) ∧ v.Knows b.2 := by
    intro b hb
    obtain ⟨hsymbol, htype⟩ := List.of_mem_zip hb
    exact ⟨hsymbols _ hsymbol, .inl ((hsig.params _ htype).mono hv.size)⟩
  have hready := hw.later hv
  refine (openFunction hready.opened hready.unbound hbindings).bind fun scope u hu _ hscope => ?_
  refine (hbody u scope ⟨hscope.1, hready.unbound.later hu⟩
    fun name => hready.unbound scope name hscope.2).bind fun t x hx _ _ => ?_
  exact (expect _ _ _ _).mono fun _ y hy _ => ((hv.trans hu).trans hx).trans hy

theorem rejectUnknownOperator (head expr : Datum) (s : ScopeId) :
    Evolves may w (rejectUnknownOperator head expr s) fun _ _ => True := by
  rw [CheckM.rejectUnknownOperator.eq_def]
  split
  · refine context_bind ?_
    split
    · exact reject _
    · exact pure trivial
  · exact pure trivial

theorem binary {left right : Datum} (hleft : Checks may inBody w s left)
    (hright : Checks may inBody w s right) (op : Operator) (expr : Datum) :
    Evolves may w (do
        let leftType ← CheckM.checkExpr inBody left s
        let rightType ← CheckM.checkExpr inBody right s
        CheckM.operate op left right leftType rightType expr)
      fun t v => v.Knows t := by
  refine (hleft w (.refl w)).bind fun leftType v hv _ hleftType => ?_
  refine (hright v hv).bind fun _ u hu _ _ => ?_
  exact operate op left right _ expr (hleftType.later hu)

theorem assign {value : Datum} (hvalue : Checks may inBody w s value) {declared : Ty}
    (hdeclared : w.Knows declared) (expr : Datum) :
    Evolves may w (do
        let t ← CheckM.checkExpr inBody value s
        CheckM.expect t declared value expr
        return declared)
      fun t v => v.Knows t := by
  refine (hvalue w (.refl w)).bind fun _ v hv _ _ => ?_
  refine (expect _ _ _ _).bind fun _ u hu _ _ => pure ?_
  exact hdeclared.later (hv.trans hu)

theorem cond {condition whenTrue whenFalse : Datum} (hw : w.Ready may s)
    (hcondition : Checks may inBody w s condition) (htrue : OfExpr may inBody whenTrue)
    (hnames : ∀ name, Declares whenTrue name → may s name)
    (hfalse : Checks may inBody w s whenFalse) (expr : Datum) :
    Evolves may w (do
        let t ← CheckM.checkExpr inBody condition s
        CheckM.expect t .boolean condition expr
        let branch ← CheckM.narrow condition s
        let trueType ← CheckM.checkExpr inBody whenTrue branch
        let falseType ← CheckM.checkExpr inBody whenFalse s
        CheckM.expect falseType trueType whenFalse expr
        return trueType)
      fun t v => v.Knows t := by
  refine (hcondition w (.refl w)).bind fun _ v hv _ _ => ?_
  refine (expect _ _ _ _).bind fun _ u hu _ _ => ?_
  have hready := hw.later (hv.trans hu)
  refine (narrow condition hready.opened hready.unbound).bind fun branch x hx _ hbranch => ?_
  -- The branch is checked in the scope itself or in one opened for it.
  have hbranchNames : ∀ name, Declares whenTrue name → may branch name := by
    rcases hbranch.2 with rfl | hnew
    · exact hnames
    · exact fun name _ => hready.unbound branch name hnew
  have hwx := (hv.trans hu).trans hx
  refine (htrue x branch ⟨hbranch.1, hready.unbound.later hx⟩ hbranchNames).bind
    fun trueType y hy _ htrueType => ?_
  refine (hfalse y (hwx.trans hy)).bind fun _ z hz _ _ => ?_
  refine (expect _ _ _ _).bind fun _ z' hz' _ _ => pure ?_
  exact htrueType.later (hz.trans hz')

theorem defineFunction {name : String} {parts : FunctionParts} (hw : w.Ready may s)
    (hbody : OfBody may inBody parts.body) (hname : may s name) (expr : Datum) :
    Evolves may w (do
        let sig ← CheckM.signature parts expr
        let _ ← CheckM.define s name sig.toTy
        CheckM.checkFunction inBody parts.params sig parts.body expr s
        CheckM.emit (.functionDeclared name sig.toTy)
        CheckM.define s name sig.toTy)
      fun t v => v.Knows t := by
  refine (signature parts expr).bind fun sig v hv _ hsig => ?_
  refine (define (hw.later hv).opened hname (.inl hsig.toTy)).bind fun _ u hu _ _ => ?_
  refine (checkFunction hbody parts.params expr (hw.later (hv.trans hu)) (hsig.mono hu.size)).bind
    fun _ x hx _ _ => ?_
  have hvx := hu.trans hx
  refine emit_bind ?_
  refine (define (hw.later (hv.trans hvx)).opened hname (.inl (hsig.toTy.mono hvx.size))).mono ?_
  rintro _ _ _ ⟨rfl, hknows⟩
  exact hknows

theorem plainFunction {parts : FunctionParts} (hw : w.Ready may s)
    (hbody : OfBody may inBody parts.body) (expr : Datum) :
    Evolves may w (do
        let sig ← CheckM.signature parts expr
        CheckM.checkFunction inBody parts.params sig parts.body expr s
        return sig.toTy)
      fun t v => v.Knows t := by
  refine (signature parts expr).bind fun sig v hv _ hsig => ?_
  refine (checkFunction hbody parts.params expr (hw.later hv) hsig).bind fun _ u hu _ _ => pure ?_
  exact .inl (hsig.toTy.mono hu.size)

theorem classBody {name : String} (superclass : String) (hw : w.Ready may s)
    (hbody : OfBody may inBody body) (hname : may s name) (expr : Datum) :
    Evolves may w (do
        let c ← CheckM.declareClass name superclass expr s
        let _ ← CheckM.checkBody inBody body c.fields
        return .ofClass c)
      fun t v => v.Knows t := by
  refine (declareClass superclass expr hw.opened hname).bind fun c v hv _ hc => ?_
  refine (hbody v c.fields ⟨hc.1 c.row List.mem_cons_self, hw.unbound.later hv⟩
    fun name => hw.unbound c.fields name hc.2).bind fun _ u hu _ _ => pure ?_
  exact .inl ((Ty.Written.ofClass hc.1).mono hu.size)

theorem arguments {args : List Datum} (hargs : ∀ e ∈ args, Checks may inBody w s e)
    (sig : Signature) (callee : String) (pairs : List Ty → List (Datum × Ty)) (expr : Datum)
    {t : Ty} (ht : t.Written w.size) :
    Evolves may w (do
        let types ← CheckM.checkEach inBody args s
        CheckM.acceptArguments sig callee (pairs types) expr
        return t)
      fun t v => v.Knows t := by
  refine (checkEach hargs).bind fun types v hv _ _ => ?_
  refine (acceptArguments _ _ _ _).bind fun _ u hu _ _ => pure ?_
  exact .inl (ht.mono (hv.trans hu).size)

theorem checkExpr (hbody : BodiesEvolve may inBody) (d : Datum) : OfExpr may inBody d := by
  -- On the size of the expression, which is greater than that of the parts of its form.
  induction hsize : sizeOf d using Nat.strongRecOn generalizing d with
  | ind size ih =>
      subst hsize
      intro w s hw hnames
      rw [CheckM.checkExpr]
      split
      · exact reject _
      · next form hd =>
          have hsmaller {p : Datum} (hp : p ∈ form.parts) : OfExpr may inBody p :=
            ih _ (Form.sizeOf_lt_of_classify hd hp) p rfl
          have hdeclared {p : Datum} (hp : p ∈ form.parts) (name : String)
              (hname : Declares p name) : may s name :=
            hnames name (.inside hd hp hname)
          have hpart {p : Datum} (hp : p ∈ form.parts) : Checks may inBody w s p :=
            (hsmaller hp).checks hw (hdeclared hp)
          have hinside {p : Datum} (hp : p ∈ form.parts) : OfBody may inBody p := by
            intro v q hv hall
            refine checkBody (hsmaller hp) ?_ hv fun name _ => hall name
            rintro items rfl e he
            refine ih _ (Nat.lt_trans ?_ (Form.sizeOf_lt_of_classify hd hp)) e rfl
            exact Datum.sizeOf_lt_of_mem (List.mem_cons_of_mem _ he)
          have hname (name : String) (h : form.declared? = some name) : may s name :=
            hnames name (.here hd h)
          refine emit_bind ?_
          split
          · exact pure (.inl (.primitive .number))
          · exact pure (.inl (.primitive .string))
          · exact pure (.inl (.primitive .boolean))
          · exact lookup s _ d
          · next op left right =>
              exact binary (hpart (by simp [Form.parts])) (hpart (by simp [Form.parts])) op d
          · exact reject _
          · next n typeText value =>
              refine (hpart (p := value) (by simp [Form.parts]) w (.refl w)).bind
                fun t v hv _ ht => ?_
              exact declareVar typeText value d (hw.later hv).opened (hname n rfl) ht
          · next n value =>
              refine (lookup s n d).bind fun declared v hv _ hknown => ?_
              exact assign ((hpart (by simp [Form.parts])).later hv) hknown d
          · next object field value =>
              refine (hpart (p := object) (by simp [Form.parts]) w (.refl w)).bind
                fun objectType v hv _ _ => ?_
              refine (fieldType objectType field d).bind fun declared u hu _ hknown => ?_
              exact assign ((hpart (by simp [Form.parts])).later (hv.trans hu)) hknown d
          · next body =>
              refine (child hw.opened).bind fun inner v hv _ hinner => ?_
              refine checkBlock fun e he => (hsmaller he).checks ⟨hinner.1, hw.unbound.later hv⟩ ?_
              exact fun name _ => hw.unbound inner name hinner.2
          · next condition whenTrue whenFalse =>
              exact cond hw (hpart (by simp [Form.parts])) (hsmaller (by simp [Form.parts]))
                (hdeclared (by simp [Form.parts])) (hpart (by simp [Form.parts])) d
          · next condition body =>
              refine (hpart (p := condition) (by simp [Form.parts]) w (.refl w)).bind
                fun _ v hv _ _ => ?_
              refine (expect _ _ _ _).bind fun _ u hu _ _ => ?_
              exact hpart (p := body) (by simp [Form.parts]) u (hv.trans hu)
          · next n typeList parts =>
              refine (makeTemplate n typeList parts d hw.opened).bind fun t v hv _ ht => ?_
              refine emit_bind ?_
              refine (define (hw.later hv).opened (hname n rfl) ht).mono ?_
              rintro _ _ _ ⟨rfl, hknows⟩
              exact hknows
          · next n parts =>
              exact defineFunction hw (hinside (by simp [Form.parts])) (hname n rfl) d
          · next typeList parts => exact makeTemplate "lambda" typeList parts d hw.opened
          · next parts => exact plainFunction hw (hinside (by simp [Form.parts])) d
          · next n base => exact declareType n base d
          · next n superclass body =>
              exact classBody superclass hw (hinside (by simp [Form.parts])) (hname n rfl) d
          · next className args =>
              refine (constructorOf className d).bind fun cs v hv _ hcs => ?_
              exact arguments (fun e he => (hpart he).later hv) _ _
                (fun types => (Datum.symbol className, Ty.ofClass cs.1) :: args.zip types) d
                (.ofClass hcs)
          · next className => exact superclass className d
          · next object field =>
              refine (hpart (p := object) (by simp [Form.parts]) w (.refl w)).bind
                fun t _ _ _ _ => ?_
              exact fieldType t field d
          · next head typeArgs args =>
              refine (rejectUnknownOperator head d s).bind fun _ v hv _ _ => ?_
              refine (hpart (p := head) (by simp [Form.parts]) v hv).bind
                fun callee u hu _ hcallee => ?_
              have hwu := hv.trans hu
              refine (calledSignature hbody (hw.later hwu).unbound hcallee head.shown typeArgs d).bind
                fun sig x hx _ hsig => ?_
              exact arguments (fun e he => (hpart (List.mem_cons_of_mem _ he)).later (hwu.trans hx))
                sig _ args.zip d hsig.result
          · next n typeArgs args =>
              refine (lookup s n d).bind fun callee v hv _ hcallee => ?_
              refine (calledSignature hbody (hw.later hv).unbound hcallee n (some typeArgs) d).bind
                fun sig u hu _ hsig => ?_
              exact arguments (fun e he => (hpart he).later (hv.trans hu)) sig n args.zip d
                hsig.result

theorem ofBody (hbody : BodiesEvolve may inBody) (d : Datum) : OfBody may inBody d :=
  fun _ _ hw hall => checkBody (checkExpr hbody d) (fun _ _ e _ => checkExpr hbody e) hw
    fun name _ => hall name

theorem bodyWithin (depth : Nat) : BodiesEvolve may (bodyWithin depth) := by
  induction depth with
  | zero => exact fun _ _ _ _ _ _ => throw .tooDeep
  | succ depth ih => exact fun d w s hs hall hmay => ofBody ih d w s ⟨hs, hmay⟩ hall

theorem checkExpr_open (depth : Nat) (d : Datum) {w : World} {s : ScopeId} (hs : s.index < w.size) :
    Evolves (fun _ _ => True) w (CheckM.checkExpr (CheckM.bodyWithin depth) d s)
      fun t v => v.Knows t :=
  checkExpr (bodyWithin depth) d w s ⟨hs, fun _ _ _ => trivial⟩ fun _ _ => trivial

theorem checkBody_open (depth : Nat) (d : Datum) {w : World} {s : ScopeId} (hs : s.index < w.size) :
    Evolves (fun _ _ => True) w (CheckM.checkBody (CheckM.bodyWithin depth) d s)
      fun t v => v.Knows t :=
  ofBody (bodyWithin depth) d w s ⟨hs, fun _ _ _ => trivial⟩ fun _ => trivial

theorem checkBlock_open (depth : Nat) (ds : List Datum) {w : World} {s : ScopeId}
    (hs : s.index < w.size) :
    Evolves (fun _ _ => True) w (CheckM.checkBlock (CheckM.bodyWithin depth) ds s)
      fun t v => v.Knows t :=
  checkBlock fun d _ _ hv => checkExpr_open depth d (Nat.lt_of_lt_of_le hs hv.size)

end Evolves

namespace Context

open World

/-- The contexts of programs: a new one, and what checking an expression, a body or a block in an
open scope leaves, whether it is accepted or not. -/
inductive Reachable : Context → Prop where
  | new (options : Options) : Reachable (Context.new options)
  | expr {c : Context} (hc : Reachable c) (depth : Nat) (d : Datum) {s : ScopeId}
      (hs : s.index < c.scopes.size) (events : Array Event) :
      Reachable
        (Session.run ⟨c, events⟩ (CheckM.checkExpr (CheckM.bodyWithin depth) d s)).2.context
  | body {c : Context} (hc : Reachable c) (depth : Nat) (d : Datum) {s : ScopeId}
      (hs : s.index < c.scopes.size) (events : Array Event) :
      Reachable
        (Session.run ⟨c, events⟩ (CheckM.checkBody (CheckM.bodyWithin depth) d s)).2.context
  | block {c : Context} (hc : Reachable c) (depth : Nat) (ds : List Datum) {s : ScopeId}
      (hs : s.index < c.scopes.size) (events : Array Event) :
      Reachable
        (Session.run ⟨c, events⟩ (CheckM.checkBlock (CheckM.bodyWithin depth) ds s)).2.context

def blank (options : Options) : Context where
  options := options
  interner := .empty
  scopes := .empty
  registry := ⟨{}⟩

theorem bare_eq (options : Options) :
    bare options = Primitive.all.foldl (fun c p => c.enter p.name (.primitive p)) (blank options) :=
  rfl

theorem getElem?_empty {scope : Scope Ty} {i : Nat}
    (h : (Arena.empty : Arena Ty).scopes[i]? = some scope) :
    scope = {} := by
  obtain ⟨hi, rfl⟩ := Array.getElem?_eq_some_iff.mp h
  obtain rfl : i = 0 := Nat.lt_one_iff.mp hi
  rfl

theorem registered?_blank (options : Options) (text : String) :
    (blank options).registered? text = none := by
  simp [registered?, blank, Interner.get?, Interner.empty]

theorem wellFormed_blank (options : Options) : World.WellFormed ⟨blank options, []⟩ where
  indexed s hs := by simp [blank, Registry.get?] at hs
  bound h := by
    obtain ⟨scope, hscope, h⟩ := Option.bind_eq_some_iff.mp h
    obtain rfl := getElem?_empty hscope
    simp at h
  parents h := by
    obtain ⟨scope, hscope, h⟩ := Option.bind_eq_some_iff.mp h
    obtain rfl := getElem?_empty hscope
    cases h
  outers h := by
    obtain ⟨scope, hscope, h⟩ := Option.bind_eq_some_iff.mp h
    obtain rfl := getElem?_empty hscope
    cases h
  registered h := by
    rw [registered?_blank] at h
    cases h
  recorded h := by simp [instance?, blank] at h
  numbered h := by simp at h
  unique h := by simp at h
  made h := by simp at h

theorem steps_primitives {may : ScopeId → String → Prop} {w : World} (hw : w.WellFormed)
    {ps : List Primitive} (hps : (ps.map Primitive.name).Nodup)
    (hnew : ∀ p ∈ ps, w.context.registered? p.name = none) :
    Steps may w
      ⟨ps.foldl (fun c p => c.enter p.name (.primitive p)) w.context, w.made⟩ := by
  induction ps generalizing w with
  | nil => exact .refl
  | cons p ps ih =>
      obtain ⟨hp, hps⟩ := List.nodup_cons.mp hps
      have hstep : Step may w ⟨w.context.enter p.name (.primitive p), w.made⟩ :=
        .enter (hnew p (by simp)) (.primitive p) (by rw [Ty.name]) rfl
      refine .head hstep (ih (hw.step hstep) hps ?_)
      intro q hq
      rw [registered?_enter hw.indexed, if_neg, hnew q (List.mem_cons_of_mem _ hq)]
      exact fun hname => hp (hname ▸ List.mem_map_of_mem hq)

theorem steps_defineAll {may : ScopeId → String → Prop} {w : World} (hw : w.WellFormed)
    {scope : ScopeId} (hscope : scope.index < w.size) (hmay : ∀ name, may scope name)
    {entries : List (String × Ty)} (hentries : ∀ e ∈ entries, e.2.Written w.size) :
    Steps may w
      ⟨entries.foldl (fun c (name, t) => c.define scope name t) w.context, w.made⟩ := by
  induction entries generalizing w with
  | nil => exact .refl
  | cons entry entries ih =>
      have hsteps : Steps may w ⟨w.context.define scope entry.1 entry.2, w.made⟩ :=
        Evolves.steps_define hw hscope (hmay entry.1) (.inl (hentries entry (by simp)))
      have hsize := (Steps.later hsteps).size
      refine hsteps.trans (ih (hw.steps hsteps) (Nat.lt_of_lt_of_le hscope hsize) ?_)
      exact fun e he => (hentries e (List.mem_cons_of_mem _ he)).mono hsize

theorem steps_bare (options : Options) :
    Steps (fun _ _ => True) ⟨blank options, []⟩ ⟨bare options, []⟩ := by
  rw [bare_eq]
  exact steps_primitives (wellFormed_blank options) (by decide)
    fun p _ => registered?_blank options p.name

theorem written_prelude (size : Nat) : ∀ e ∈ prelude, e.2.Written size := by
  have hnumber : Ty.number.Written size := .primitive .number
  have hstring : Ty.string.Written size := .primitive .string
  have hany : Ty.any.Written size := .primitive .any
  intro e he
  simp only [prelude, List.mem_cons, List.not_mem_nil, or_false] at he
  rcases he with rfl | rfl | rfl | rfl
  · exact hstring
  · exact .function (by simp [hnumber]) hnumber
  · exact .function (by simp [hnumber]) hnumber
  · exact .function (by simp [hany]) hstring

theorem steps_new (options : Options) :
    Steps (fun _ _ => True) ⟨blank options, []⟩ ⟨new options, []⟩ := by
  rw [new]
  split
  · exact (steps_bare options).trans (steps_defineAll
      ((wellFormed_blank options).steps (steps_bare options)) Nat.one_pos (fun _ => trivial)
      (written_prelude _))
  · exact steps_bare options

/-- Every context of a program is reached by steps from a blank one. -/
theorem Reachable.steps {c : Context} (hc : c.Reachable) :
    ∃ options made, Steps (fun _ _ => True) ⟨blank options, []⟩ ⟨c, made⟩ := by
  have hfree {α : Type} {options : Options} {w : World} {m : CheckM α} {post : α → World → Prop}
      (h : Evolves (fun _ _ => True) w m post)
      (hw : Steps (fun _ _ => True) ⟨blank options, []⟩ w) (events : Array Event) :
      ∃ options made, Steps (fun _ _ => True) ⟨blank options, []⟩
        ⟨(Session.run ⟨w.context, events⟩ m).2.context, made⟩ := by
    obtain ⟨_, v, _, hrun, hsteps, -⟩ := h ((wellFormed_blank options).steps hw) events
    rw [hrun]
    exact ⟨options, v.made, hw.trans hsteps⟩
  induction hc with
  | new options => exact ⟨options, [], steps_new options⟩
  | expr _ depth d hs events ih =>
      obtain ⟨options, made, hw⟩ := ih
      exact hfree (w := ⟨_, made⟩) (Evolves.checkExpr_open depth d hs) hw events
  | body _ depth d hs events ih =>
      obtain ⟨options, made, hw⟩ := ih
      exact hfree (w := ⟨_, made⟩) (Evolves.checkBody_open depth d hs) hw events
  | block _ depth ds hs events ih =>
      obtain ⟨options, made, hw⟩ := ih
      exact hfree (w := ⟨_, made⟩) (Evolves.checkBlock_open depth ds hs) hw events

theorem Reachable.wellFormed {c : Context} (hc : c.Reachable) :
    ∃ made, World.WellFormed ⟨c, made⟩ := by
  obtain ⟨options, made, hsteps⟩ := hc.steps
  exact ⟨made, (wellFormed_blank options).steps hsteps⟩

end Context

open CheckM

/-- A class with one member, and the context that its declaration leaves. -/
def pointClass : Datum :=
  .list [.symbol "class", .symbol "Point", .symbol "null",
    .list [.symbol "var", .symbol "x", .text "left"]]

/-- The template that a global name is bound to. -/
def Context.templateNamed? (c : Context) (name : String) : Option Template :=
  match c.lookup? Arena.global name with
  | some (.template g) => some g
  | _ => none

theorem Context.templateNamed?_define (c : Context) (name : String) (g : Template)
    (hopen : Arena.global.index < c.scopes.size) :
    (c.define Arena.global name (.template g)).templateNamed? name = some g := by
  rw [templateNamed?, lookup?_define hopen]

/-- A template, and the context that its declaration leaves. -/
def identityTemplate : Datum :=
  .list [.symbol "def", .symbol "same", .symbol "<T>", .list [.list [.symbol "x", .symbol "T"]],
    .symbol "->", .symbol "T", .symbol "x"]

def withIdentity : Context :=
  (Session.run ⟨Context.new {}, #[]⟩
    (checkExpr (bodyWithin 1) identityTemplate Arena.global)).2.context

def identityAtText : Datum :=
  .list [.symbol "same", .symbol "<string>", .text "a"]

end TypedLisp
