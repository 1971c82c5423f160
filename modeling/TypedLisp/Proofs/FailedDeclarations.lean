import TypedLisp.Proofs.Registering
import TypedLisp.Proofs.Registry
import TypedLisp.Proofs.Visibility

/-!
What a declaration that is rejected leaves of the name it declares. Types and generic functions are
published last, so they leave nothing but function types that were resolved on the way. A function is
bound before its body is checked and a class is registered and bound before its members are, so that
they can be named there; they stay what they were published as, whatever becomes of the rest.
-/

namespace TypedLisp

open CheckM World

section Lookups

variable {w v : World} {k : Nat} {s : ScopeId}

/-- As long as only new scopes get bindings, the same is seen from the old ones. -/
theorem World.Steps.lookup? (h : Steps (fun q _ => k ≤ q.index) w v) (hw : w.WellFormed)
    (hk : k ≤ w.size) (hs : s.index < k) (name : String) :
    v.context.lookup? s name = w.context.lookup? s name := by
  have hkeeps := Steps.keeps h
  have hopen {q : ScopeId} (hq : q.index ≤ s.index) : q.index < w.size :=
    Nat.lt_of_le_of_lt hq (Nat.lt_of_lt_of_le hs hk)
  have hscopes : v.context.scopes.lookup? s = w.context.scopes.lookup? s := by
    funext x
    rw [Arena.lookup?, Arena.lookup?, Arena.searchOrder_congr (fun hq => hkeeps.parent (hopen hq))
      fun hq => hkeeps.outer (hopen hq)]
    refine Arena.findSome?_congr fun q hq => ?_
    have hle := Arena.index_le_of_mem_searchOrder hq
    by_contra hdiffers
    obtain ⟨_, -, hnew⟩ := hkeeps.changed (hopen hle) hdiffers
    omega
  rw [Context.lookup?, hscopes]
  refine (Steps.later h).names.get?_bind (fun x hx => ?_) name
  obtain ⟨t, ht⟩ := Option.isSome_iff_exists.mp hx
  obtain ⟨q, hq⟩ := Arena.exists_binding?_of_lookup? ht
  obtain ⟨⟨name, hname⟩, -⟩ := hw.bound hq
  rw [hname]
  rfl

theorem Evolves.lookup?_eq {α : Type} {m : CheckM α} {post : α → World → Prop}
    (h : Evolves (fun q _ => k ≤ q.index) w m post) (hw : w.WellFormed) (hk : k ≤ w.size)
    (hs : s.index < k) {events : Array Event} {outcome : Except Halt α} {σ : Session}
    (hrun : Session.run ⟨w.context, events⟩ m = (outcome, σ)) (name : String) :
    σ.context.lookup? s name = w.context.lookup? s name := by
  obtain ⟨_, v, _, hrun', hsteps, -⟩ := h hw events
  obtain ⟨-, rfl⟩ := Prod.mk.inj (hrun.symm.trans hrun')
  exact hsteps.lookup? hw hk hs name

end Lookups

namespace Context

variable {c x y : Context}

/-- Two contexts that register the same. -/
structure SameTypes (c x : Context) : Prop where
  names : c.interner.Extends x.interner
  registry : x.registry = c.registry

theorem SameTypes.refl (c : Context) : c.SameTypes c :=
  ⟨.refl _, rfl⟩

theorem SameTypes.trans (hcx : c.SameTypes x) (hxy : x.SameTypes y) : c.SameTypes y :=
  ⟨hcx.names.trans hxy.names, hxy.registry.trans hcx.registry⟩

theorem SameTypes.registered? (h : c.SameTypes x) (hc : c.Indexed) (name : String) :
    x.registered? name = c.registered? name := by
  rw [Context.registered?, h.registry]
  exact h.names.get?_bind hc name

/-- The class behind the name of a superclass, if a class can be declared below it. -/
def parent? (c : Context) (superclass : String) : Option (Option ClassTy) :=
  if superclass = rootWord then some none
  else ((c.registered? superclass).bind Ty.class?).map some

/-- The class that a declaration makes, if it comes so far. -/
def newClass? (c : Context) (name superclass : String) : Option Ty :=
  match c.registered? name with
  | some _ => none
  | none => (c.parent? superclass).map fun parent =>
      .ofClass (.extending name ⟨c.scopes.size⟩ parent)

end Context

/-- What is left of a name after its declaration was rejected, in comparison with the context `c`
before: the binding seen from the scope `s` of the declaration, and the registered type. Events from
the `k`-th on are those of the declaration. -/
def Form.Leaves (c : Context) (s : ScopeId) (k : Nat) (σ : Session) : Form → Prop
  | .define n (some _) _ =>
      σ.context.lookup? s n = c.lookup? s n ∧
        σ.context.registered? n = c.registered? n
  | .define n none parts =>
      σ.context.lookup? s n = ((c.signature? parts).map Signature.toTy).or (c.lookup? s n) ∧
        (¬DeclaresType parts.body n →
          σ.context.registered? n = c.registered? n ∨ c.registered? n = none ∧
            (TypeExpr.IsFunctionText n ∨ σ.InstanceDeclares k n))
  | .typeDecl n _ =>
      σ.context.lookup? s n = c.lookup? s n ∧
        (σ.context.registered? n = c.registered? n ∨
          TypeExpr.IsFunctionText n ∧ σ.context.registered? n = c.resolvedText? n)
  | .classDecl n superclass _ =>
      σ.context.lookup? s n = (c.newClass? n superclass).or (c.lookup? s n) ∧
        σ.context.registered? n = (c.newClass? n superclass).or (c.registered? n)
  | _ => True

namespace Session

variable {σ σ' : Session} {α β : Type}

/-- A check that registers nothing. -/
def RegistersNothing (m : CheckM α) : Prop :=
  ∀ σ : Session, σ.context.SameTypes (σ.run m).2.context

namespace RegistersNothing

theorem pure (a : α) : RegistersNothing (pure a) :=
  fun σ => .refl σ.context

theorem reject (e : TypeError) : RegistersNothing (reject e : CheckM α) :=
  fun σ => .refl σ.context

theorem bind {m : CheckM α} {f : α → CheckM β} (hm : RegistersNothing m)
    (hf : ∀ a, RegistersNothing (f a)) : RegistersNothing (m >>= f) := by
  intro σ
  have hfirst := hm σ
  obtain ⟨outcome, σ', hrun⟩ : ∃ outcome σ', σ.run m = (outcome, σ') := ⟨_, _, rfl⟩
  rw [hrun] at hfirst
  cases outcome with
  | ok a =>
      rw [run_bind_of_ok f hrun]
      exact hfirst.trans (hf a σ')
  | error halt =>
      rw [run_bind_of_error f hrun]
      exact hfirst

theorem intern (name : String) : RegistersNothing (change fun c => c.intern name) :=
  fun σ => ⟨σ.context.interner.extends_intern name, rfl⟩

theorem parseType (text : String) (expr : Datum) : RegistersNothing (parseType text expr) := by
  rw [CheckM.parseType]
  split
  · exact pure _
  · exact reject _

theorem parseTypeList (text : String) (expr : Datum) :
    RegistersNothing (parseTypeList text expr) := by
  rw [CheckM.parseTypeList]
  split
  · exact pure _
  · exact reject _
  · exact reject _

theorem templateParams (expr : Datum) (params : List Param) :
    RegistersNothing (templateParams expr params) := by
  induction params with
  | nil => exact pure []
  | cons p params ih =>
      exact (parseType p.typeText expr).bind fun _ => (intern p.name).bind fun _ =>
        ih.bind fun _ => pure _

theorem makeTemplate (name typeList : String) (parts : FunctionParts) (expr : Datum)
    (closure : ScopeId) : RegistersNothing (makeTemplate name typeList parts expr closure) := by
  refine (parseTypeList typeList expr).bind fun names => ?_
  split
  · exact reject _
  · refine (templateParams expr parts.params).bind fun _ => ?_
    refine (parseType parts.resultText expr).bind fun _ => ?_
    exact RegistersNothing.bind (fun σ => ⟨.refl _, rfl⟩) fun _ => pure _

end RegistersNothing

theorem ensureUndeclared_cases (σ : Session) (name : String) (expr : Datum) :
    (σ.context.registered? name = none ∧ σ.run (ensureUndeclared name expr) = (.ok (), σ)) ∨
      ∃ t e, σ.context.registered? name = some t ∧
        σ.run (ensureUndeclared name expr) = (.error (.rejected e), σ) := by
  rw [ensureUndeclared, run_bind_of_ok _ (run_context σ)]
  cases hold : σ.context.registered? name with
  | none => exact .inl ⟨rfl, rfl⟩
  | some t => exact .inr ⟨t, _, rfl, rfl⟩

theorem parentNamed_cases (σ : Session) (superclass : String) (expr : Datum) :
    (∃ parent, σ.context.parent? superclass = some parent ∧
      σ.run (parentNamed superclass expr) = (.ok parent, σ)) ∨
    σ.context.parent? superclass = none ∧
      ∃ e, σ.run (parentNamed superclass expr) = (.error (.rejected e), σ) := by
  rw [parentNamed, Context.parent?]
  split
  · exact .inl ⟨none, rfl, rfl⟩
  · rw [map_eq_pure_bind, classNamed]
    simp only [bind_assoc]
    rw [run_bind_of_ok _ (run_context σ)]
    cases σ.context.registered? superclass with
    | none => exact .inr ⟨rfl, _, rfl⟩
    | some t =>
        simp only [Option.bind_some]
        cases t.class? with
        | none => exact .inr ⟨rfl, _, rfl⟩
        | some c => exact .inl ⟨some c, rfl, rfl⟩

theorem declare_cases (hσ : σ.context.Indexed) (name : String) (t : Ty) (expr : Datum) :
    (σ.context.registered? name = none ∧ σ.run (declare name t expr) =
      (.ok (), { σ with context := σ.context.enter name t })) ∨
    ∃ u e, σ.context.registered? name = some u ∧ σ.run (declare name t expr) =
      (.error (.rejected e), { σ with context := (σ.context.intern name).2 }) := by
  rw [declare, run_bind_of_ok _ (run_change σ _)]
  cases hold : σ.context.registered? name with
  | none =>
      rw [Context.declare_of_none hσ hold]
      exact .inl ⟨rfl, rfl⟩
  | some u =>
      rw [Context.declare_of_some hσ hold]
      exact .inr ⟨u, _, rfl, rfl⟩

theorem run_declareBelow (hσ : σ.context.Indexed) {name : String}
    (hname : σ.context.registered? name = none) (parent : Option ClassTy) (superclass : String)
    (expr : Datum) (s : ScopeId) :
    let c := ClassTy.extending name ⟨σ.context.scopes.size⟩ parent
    σ.run (declareBelow name parent superclass expr s) = (.ok c,
      ⟨((σ.context.memberTable (parent.map ClassTy.fields) s).2.enter name (.ofClass c)).define s
        name (.ofClass c), σ.events.push (.classDeclared name superclass)⟩) := by
  intro c
  let opened : Session :=
    { σ with context := (σ.context.memberTable (parent.map ClassTy.fields) s).2 }
  rw [declareBelow, run_bind_of_ok _ (run_change σ _)]
  rcases declare_cases (σ := opened) hσ name (.ofClass c) expr with ⟨-, hrun⟩ | ⟨u, _, hold, -⟩
  · exact run_bind_of_ok _ hrun
  · cases hname.symm.trans hold

theorem declareClass_cases (hσ : σ.context.Indexed) {s : ScopeId}
    (hs : s.index < σ.context.scopes.size) (name superclass : String) (expr : Datum) :
    (σ.context.newClass? name superclass = none ∧
      ∃ e, σ.run (declareClass name superclass expr s) = (.error (.rejected e), σ)) ∨
    ∃ c σ', σ.context.newClass? name superclass = some (.ofClass c) ∧
      σ.run (declareClass name superclass expr s) = (.ok c, σ') ∧
      σ'.context.registered? name = some (.ofClass c) ∧
      σ'.context.lookup? s name = some (.ofClass c) := by
  rw [declareClass_eq, Context.newClass?]
  rcases ensureUndeclared_cases σ name expr with ⟨hnew, hrun⟩ | ⟨t, e, hold, hrun⟩
  · rw [hnew, run_bind_of_ok _ hrun]
    rcases parentNamed_cases σ superclass expr with ⟨parent, hparent, hrun⟩ | ⟨hparent, e, hrun⟩
    · have hbelow := run_declareBelow hσ hnew parent superclass expr s
      rw [hparent, run_bind_of_ok _ hrun]
      refine .inr ⟨_, _, rfl, hbelow, ?_, ?_⟩
      · refine (Context.registered?_intern (Context.indexed_enter hσ _ _) _ _).trans ?_
        rw [Context.registered?_enter hσ, if_pos rfl]
      · refine Context.lookup?_define ?_ _ _
        exact Nat.lt_of_lt_of_eq (Nat.lt_succ_of_lt hs) (Arena.size_openScope ..).symm
    · rw [hparent, run_bind_of_error _ hrun]
      exact .inl ⟨rfl, e, rfl⟩
  · rw [hold, run_bind_of_error _ hrun]
    exact .inl ⟨rfl, e, rfl⟩

end Session

namespace Resolves

variable {c x : Context}

theorem resolveBase (hx : c.Caches x) (text : String) (expr : Datum) :
    Resolves c x (resolveBase text expr) (c.resolvedText? text) := by
  intro events
  obtain ⟨outcome, y, hrun, hcaches, hagrees, hanswer⟩ := resolve hx text expr events
  rw [CheckM.resolveBase, Session.run_tryCatch, hrun]
  cases h : c.resolvedText? text with
  | some t =>
      rw [h] at hanswer
      obtain rfl := hanswer
      exact ⟨_, y, rfl, hcaches, hagrees, rfl⟩
  | none =>
      rw [h] at hanswer
      obtain ⟨e, rfl⟩ := hanswer
      cases e <;> exact ⟨_, y, rfl, hcaches, hagrees, _, rfl⟩

theorem resolveBases (hx : c.Caches x) (expr : Datum) (texts : List String) :
    Resolves c x (resolveBases expr texts) (c.resolvedTexts? texts) := by
  induction texts generalizing x with
  | nil =>
      rw [CheckM.resolveBases, Context.resolvedTexts?]
      exact pure hx []
  | cons text texts ih =>
      rw [CheckM.resolveBases, Context.resolvedTexts?]
      exact (resolveBase hx text expr).bind fun _ y _ hy => (ih hy).map

theorem caches_baseType (hx : c.Caches x) (name : String) (base : TypeBase) (expr : Datum)
    (events : Array Event) :
    c.Caches (Session.run ⟨x, events⟩ (baseType name base expr)).2.context := by
  cases base with
  | aliasOf text =>
      obtain ⟨_, _, hrun, hcaches, -⟩ :=
        (resolveBase hx text expr).map (f := Ty.aliasOf name) events
      have hbase : baseType name (.aliasOf text) expr = (do
          let parent ← CheckM.resolveBase text expr
          return .aliasOf name parent) := rfl
      rw [hbase, hrun]
      exact hcaches
  | union texts =>
      obtain ⟨outcome, y, hrun, hcaches, -⟩ := resolveBases hx expr texts events
      have hbase : baseType name (.union texts) expr = (do
          let options ← CheckM.resolveBases expr texts
          return .union (← context).registry.size name options) := rfl
      rw [hbase]
      cases outcome with
      | ok options =>
          rw [Session.run_bind_of_ok _ hrun]
          exact hcaches
      | error halt =>
          rw [Session.run_bind_of_error _ hrun]
          exact hcaches

end Resolves

theorem Context.Caches.registered?_eq {c x : Context} (h : c.Caches x) (text : String) :
    x.registered? text = c.registered? text ∨
      TypeExpr.IsFunctionText text ∧ x.registered? text = c.resolvedText? text := by
  rcases h.registered text with hsame | ⟨-, e, t, hparse, hfunction, -, ht⟩
  · exact .inl hsame
  · cases e with
    | named => cases hfunction
    | function params result =>
        exact .inr ⟨⟨params, result, .inr hparse⟩, ht.trans (h.resolvedText?_of_registered? ht).symm⟩

section Failures

variable {w : World} {s : ScopeId} {d : Datum} {events : Array Event} {halt : Halt} {σ : Session}
  {n : String} {parts : FunctionParts}

theorem caches_of_failed_declareType {c : Context} (hc : c.Indexed) {base : TypeBase}
    (hrun : Session.run ⟨c, events⟩ (declareType n base d) = (.error halt, σ)) :
    c.Caches σ.context := by
  have hstart : c.Caches c := .refl hc
  rcases Session.run_bind_eq_error.mp hrun with hrun | ⟨_, σ₁, hundeclared, hrun⟩
  · rcases Session.ensureUndeclared_cases ⟨c, events⟩ n d with ⟨-, hok⟩ | ⟨_, _, -, herror⟩
    · cases hok.symm.trans hrun
    · cases herror.symm.trans hrun
      exact hstart
  · obtain rfl : σ₁ = ⟨c, events⟩ := by
      rcases Session.ensureUndeclared_cases ⟨c, events⟩ n d with ⟨-, hok⟩ | ⟨_, _, -, herror⟩
      · exact (Prod.mk.inj (hundeclared.symm.trans hok)).2
      · cases herror.symm.trans hundeclared
    have hbase := Resolves.caches_baseType hstart n base d events
    rcases Session.run_bind_eq_error.mp hrun with hrun | ⟨t, σ₂, hmade, hrun⟩
    · rwa [hrun] at hbase
    · rw [hmade] at hbase
      rcases Session.run_bind_eq_error.mp hrun with hrun | ⟨_, _, -, hrun⟩
      · rcases Session.declare_cases hbase.indexed n t d with ⟨-, hok⟩ | ⟨_, _, -, herror⟩
        · cases hok.symm.trans hrun
        · cases herror.symm.trans hrun
          exact hbase.intern n
      · cases hrun

variable (hw : w.WellFormed) (hs : s.index < w.size)

include hw hs

theorem leaves_template {typeList : String}
    (hrun : Session.run ⟨w.context, events⟩ (do
      let t ← makeTemplate n typeList parts d s
      emit (.templateDeclared t)
      define s n t) = (.error halt, σ)) :
    σ.context.lookup? s n = w.context.lookup? s n ∧
      σ.context.registered? n = w.context.registered? n := by
  -- A template is bound last, so nothing is bound yet when the check is stopped.
  rcases Session.run_bind_eq_error.mp hrun with hrun | ⟨_, _, -, hrun⟩
  · have hsame := Session.RegistersNothing.makeTemplate n typeList parts d s ⟨w.context, events⟩
    rw [hrun] at hsame
    exact ⟨(Evolves.makeTemplate n typeList parts d hs).lookup?_eq hw (Nat.le_refl _) hs hrun n,
      hsame.registered? hw.indexed n⟩
  · cases hrun

theorem leaves_function {depth : Nat}
    (hrun : Session.run ⟨w.context, events⟩ (do
      let sig ← signature parts d
      let _ ← define s n sig.toTy
      checkFunction (bodyWithin depth) parts.params sig parts.body d s
      emit (.functionDeclared n sig.toTy)
      define s n sig.toTy) = (.error halt, σ)) :
    σ.context.lookup? s n =
      ((w.context.signature? parts).map Signature.toTy).or (w.context.lookup? s n) := by
  have hresolves := Resolves.signature (.refl hw.indexed) parts d
  rcases Session.run_bind_eq_error.mp hrun with hrun | ⟨sig, σ₁, hsig, hrun⟩
  · have hnone : w.context.signature? parts = none := by
      refine Option.eq_none_iff_forall_ne_some.mpr fun sig hsig => ?_
      obtain ⟨_, _, hrun', -, -, hanswer⟩ := hresolves events
      rw [hsig] at hanswer
      obtain rfl := hanswer
      cases hrun.symm.trans hrun'
    rw [hnone, Option.map_none, Option.none_or]
    exact (Evolves.signature parts d).lookup?_eq hw (Nat.le_refl _) hs hrun n
  · have hsome : w.context.signature? parts = some sig := hresolves.ok_iff.mp (by rw [hsig])
    have hevolves : Evolves (fun _ _ => True) w (signature parts d) fun sig v => sig.Written v.size :=
      Evolves.signature parts d
    obtain ⟨_, v, events₁, hrun₁, hsteps, hwritten⟩ := hevolves hw events
    obtain ⟨hok, rfl⟩ := Prod.mk.inj (hsig.symm.trans hrun₁)
    have hsv : s.index < v.size := Nat.lt_of_lt_of_le hs (Steps.later hsteps).size
    have hwrittenSig := hwritten sig hok.symm
    -- The function is bound now; its body is checked in scopes that are opened from here on.
    let u : World := ⟨v.context.define s n sig.toTy, v.made⟩
    have hbound : Steps (fun _ _ => True) v u :=
      Evolves.steps_define (hw.steps hsteps) hsv trivial (.inl hwrittenSig.toTy)
    have hready : u.Ready (fun q _ => u.size ≤ q.index) s :=
      ⟨Nat.lt_of_lt_of_le hsv (Steps.later hbound).size, fun _ _ hq => hq⟩
    have hbody := Evolves.checkFunction (Evolves.ofBody (Evolves.bodyWithin depth) parts.body)
      parts.params d hready (hwrittenSig.mono (Steps.later hbound).size)
    rw [hsome, Option.map_some, Option.some_or, ← Context.lookup?_define hsv n sig.toTy]
    rcases Session.run_bind_eq_error.mp hrun with hrun | ⟨_, _, hdefine, hrun⟩
    · cases hrun
    · obtain ⟨-, rfl⟩ := Prod.mk.inj hdefine
      rcases Session.run_bind_eq_error.mp hrun with hrun | ⟨_, _, -, hrun⟩
      · exact hbody.lookup?_eq ((hw.steps hsteps).steps hbound) (Nat.le_refl _) hready.opened hrun n
      · cases hrun

theorem leaves_class {depth : Nat} {superclass : String} {body : Datum}
    (hrun : Session.run ⟨w.context, events⟩ (do
      let c ← declareClass n superclass d s
      let _ ← checkBody (bodyWithin depth) body c.fields
      return Ty.ofClass c) = (.error halt, σ)) :
    σ.context.lookup? s n =
        (w.context.newClass? n superclass).or (w.context.lookup? s n) ∧
      σ.context.registered? n =
        (w.context.newClass? n superclass).or (w.context.registered? n) := by
  rcases Session.declareClass_cases (σ := ⟨w.context, events⟩) hw.indexed hs n superclass d with
    ⟨hnone, e, hstopped⟩ | ⟨c, σ₁, hnew, hdeclared, hregistered, hbound⟩
  · cases (Session.run_bind_of_error _ hstopped).symm.trans hrun
    change w.context.newClass? n superclass = none at hnone
    rw [hnone]
    exact ⟨rfl, rfl⟩
  · change w.context.newClass? n superclass = some (.ofClass c) at hnew
    rw [hnew, Option.some_or, Option.some_or]
    have hevolves : Evolves (fun _ _ => True) w (declareClass n superclass d s)
        fun c v => Evolves.HasTables c v ∧ w.size ≤ c.fields.index :=
      Evolves.declareClass superclass d hs trivial
    obtain ⟨_, v, _, hrun₁, hsteps, hfields⟩ := hevolves hw events
    obtain ⟨hok, rfl⟩ := Prod.mk.inj (hdeclared.symm.trans hrun₁)
    obtain ⟨htables, hfields⟩ := hfields c hok.symm
    have hv := hw.steps hsteps
    have hsize := (Steps.later hsteps).size
    -- The table of the class is new, so nothing is bound in the old scopes from here on.
    have hready : v.Ready (fun q _ => w.size ≤ q.index) c.fields :=
      ⟨htables c.row List.mem_cons_self, fun _ _ hq => Nat.le_trans hsize hq⟩
    have hbody := Evolves.ofBody (Evolves.bodyWithin depth) body v c.fields hready fun _ => hfields
    rw [Session.run_bind_of_ok _ hdeclared] at hrun
    rcases Session.run_bind_eq_error.mp hrun with hrun | ⟨_, _, -, hrun⟩
    · obtain ⟨_, u, _, hrun', hsteps', -⟩ := hbody hv _
      obtain ⟨-, rfl⟩ := Prod.mk.inj (hrun.symm.trans hrun')
      exact ⟨(hsteps'.lookup? hv hsize hs n).trans hbound,
        (Steps.later hsteps').registered hregistered⟩
    · cases hrun

end Failures

theorem DeclaresType.body {d : Datum} {n name : String} {typeParams : Option String}
    {parts : FunctionParts} (hd : Form.classify d = .ok (.define n typeParams parts))
    (h : DeclaresType d name) : DeclaresType parts.body name := by
  cases h with
  | here hd' hname =>
      cases hd.symm.trans hd'
      cases hname
  | inside hd' hpart h =>
      cases hd.symm.trans hd'
      exact List.mem_singleton.mp hpart ▸ h

/-- A declaration that is rejected, for whatever reason and wherever inside it, leaves of its name:
if it is of a template or a type, nothing; if it is of a function, the binding to its signature if
that could be resolved; if it is of a class, the class if its name was free and its superclass was
one. The registered type of a name changes otherwise only if the name is the text of a function type,
or if a body declares it that is checked on the way. -/
theorem rejected_declaration_leaves {u : Workspace} (hu : u.Arises) {depth : Nat} {d : Datum}
    {f : Form} (hd : Form.classify d = .ok f) {s : ScopeId}
    (hs : s.index < u.context.scopes.size) {events : Array Event} {halt : Halt} {σ : Session}
    (hrun : Session.run ⟨u.context, events⟩ (checkExpr (bodyWithin depth) d s) = (.error halt, σ)) :
    f.Leaves u.context s events.size σ := by
  obtain ⟨w, hw, hof⟩ := hu.wellFormed
  rw [← hof.context] at hrun hs ⊢
  have hadds := Session.adds_checkExpr ⟨w.context, events⟩ hw.indexed depth d s
  rw [hrun] at hadds
  rw [checkExpr] at hrun
  split at hrun
  · next h => cases hd.symm.trans h
  · next form h =>
      cases hd.symm.trans h
      rw [Session.run_bind_of_ok _ (Session.run_emit _ _)] at hrun
      cases f with
      | define n typeParams parts =>
          cases typeParams with
          | some typeList => exact leaves_template hw hs hrun
          | none =>
              refine ⟨leaves_function hw hs hrun, fun hbody => ?_⟩
              rcases hadds.registered n with hsame | ⟨hnone, hfunction | hdeclares | hinstance⟩
              · exact .inl hsame
              · exact .inr ⟨hnone, .inl hfunction⟩
              · exact absurd (hdeclares.body hd) hbody
              · exact .inr ⟨hnone, .inr hinstance⟩
      | typeDecl n base =>
          exact ⟨(Evolves.declareType n base d).lookup?_eq hw (Nat.le_refl _) hs hrun n,
            (caches_of_failed_declareType hw.indexed hrun).registered?_eq n⟩
      | classDecl n superclass body => exact leaves_class hw hs hrun
      | _ => trivial

/-- A function whose body is no number. -/
def mistypedFunction : Datum :=
  .list [.symbol "def", .symbol "f", .list [.list [.symbol "x", .symbol "number"]], .symbol "->",
    .symbol "number", .text "a"]

/-- A class with a member whose value is undefined. -/
def mistypedMember : Datum :=
  .list [.symbol "var", .symbol "x", .symbol "y"]

def mistypedClass : Datum :=
  .list [.symbol "class", .symbol "Cell", .symbol "null", mistypedMember]

/-- What checking an expression at top level ends with, and the session it leaves. -/
def checkedIn (c : Context) (d : Datum) : Except Halt Ty × Session :=
  Session.run ⟨c, #[]⟩ (checkExpr (bodyWithin 2) d Arena.global)

/-- The class is rejected for its member, and what is left is the class that was declared. -/
theorem rejected_declaration_leaves_of_member :
    (checkedIn (Context.new {}) mistypedClass).1.toBool = false ∧
      (Form.classDecl "Cell" "null" mistypedMember).Leaves (Context.new {}) Arena.global 0
        (checkedIn (Context.new {}) mistypedClass).2 ∧
      ((Context.new {}).newClass? "Cell" "null").map Ty.name = some "Cell" := by
  have hrejected : (checkedIn (Context.new {}) mistypedClass).1.toBool = false := by decide +kernel
  refine ⟨hrejected, ?_, by decide +kernel⟩
  obtain ⟨outcome, σ, hrun⟩ : ∃ outcome σ, checkedIn (Context.new {}) mistypedClass = (outcome, σ) :=
    ⟨_, _, rfl⟩
  rw [hrun] at hrejected ⊢
  cases outcome with
  | ok t => cases hrejected
  | error halt =>
      exact rejected_declaration_leaves (u := .new {}) ⟨{}, .refl⟩ rfl Nat.one_pos hrun

/-- A union with an unknown option, named by the text of its other option. -/
def mistypedUnion : Datum :=
  .list [.symbol "type", .symbol "Fn<string>",
    .list [.symbol "or", .symbol "Fn<string>", .symbol "Nope"]]

/-- A template whose body declares a class. -/
def classMaker : Datum :=
  .list [.symbol "def", .symbol "mk", .symbol "<T>", .list [.list [.symbol "x", .symbol "T"]],
    .symbol "->", .symbol "string",
    .list [.symbol "begin", .list [.symbol "class", .symbol "g", .symbol "null", .symbol "x"],
      .text "b"]]

def classMakerCall : Datum :=
  .list [.symbol "mk", .symbol "<string>", .text "a"]

/-- A function named as the class, whose body instantiates the template and is no number. -/
def mistypedCaller : Datum :=
  .list [.symbol "def", .symbol "g", .list [], .symbol "->", .symbol "number", classMakerCall]

/-- A declaration is rejected, and its name is bound only since then. -/
def bindsRejected (c : Context) (d : Datum) (name : String) : Bool :=
  !(checkedIn c d).1.toBool && (c.lookup? Arena.global name).isNone &&
    ((checkedIn c d).2.context.lookup? Arena.global name).isSome

/-- A declaration is rejected, and its name is registered only since then. -/
def registersRejected (c : Context) (d : Datum) (name : String) : Bool :=
  !(checkedIn c d).1.toBool && (c.registered? name).isNone &&
    ((checkedIn c d).2.context.registered? name).isSome

theorem not_declaresType_of_parts {d : Datum} {f : Form} (hd : Form.classify d = .ok f)
    {name : String} (hname : f.declaredType? ≠ some name)
    (hparts : ∀ part ∈ f.parts, ¬DeclaresType part name) : ¬DeclaresType d name := by
  intro h
  cases h with
  | here hd' hname' =>
      cases hd.symm.trans hd'
      exact hname hname'
  | inside hd' hpart h =>
      cases hd.symm.trans hd'
      exact hparts _ hpart h

/-- Rejected declarations do leave their names, though nothing inside them declares these: the
function is bound and the class is registered, as is the union's name and, for a class in a body that
is instantiated, the caller's. -/
theorem rejected_declaration_stays :
    (bindsRejected (Context.new {}) mistypedFunction "f" = true ∧ ¬Declares (.text "a") "f") ∧
      (registersRejected (Context.new {}) mistypedClass "Cell" = true ∧
        ¬DeclaresType mistypedMember "Cell") ∧
      registersRejected (Context.new {}) mistypedUnion "Fn<string>" = true ∧
      registersRejected (checkedIn (Context.new {}) classMaker).2.context mistypedCaller "g" =
        true ∧ ¬DeclaresType classMakerCall "g" := by
  have hleaf {d : Datum} {f : Form} (hd : Form.classify d = .ok f) (hname : f.declaredType? = none)
      (hparts : f.parts = []) (name : String) : ¬DeclaresType d name :=
    not_declaresType_of_parts hd (by simp [hname]) (by simp [hparts])
  refine ⟨⟨by decide +kernel, ?_⟩, ⟨by decide +kernel, ?_⟩, by decide +kernel, by decide +kernel, ?_⟩
  · intro h
    cases h with
    | here hd hname =>
        cases hd
        cases hname
    | inside hd hpart _ =>
        cases hd
        cases hpart
  · have hvalue : ¬DeclaresType (.symbol "y") "Cell" := hleaf (f := .name "y") rfl rfl rfl _
    exact not_declaresType_of_parts (f := .var "x" none (.symbol "y")) rfl (by decide)
      (by simpa [Form.parts] using hvalue)
  · have hhead : ¬DeclaresType (.symbol "mk") "g" := hleaf (f := .name "mk") rfl rfl rfl _
    have harg : ¬DeclaresType (.text "a") "g" := hleaf (f := .text "a") rfl rfl rfl _
    exact not_declaresType_of_parts
      (f := .call (.plain (.symbol "mk") (some "<string>")) [.text "a"]) rfl (by decide)
      (by simpa [Form.parts] using ⟨hhead, harg⟩)

end TypedLisp
