import TypedLisp.Proofs.Instances.Rules

namespace TypedLisp

def paramExprs? : List Param → Option (List TypeExpr)
  | [] => some []
  | p :: ps => (TypeExpr.parse p.typeText).toOption.bind fun e => (paramExprs? ps).map (e :: ·)

theorem wellNamed_of_paramExprs? {params : List Param} {exprs : List TypeExpr}
    (h : paramExprs? params = some exprs) : ∀ e ∈ exprs, e.WellNamed := by
  induction params generalizing exprs with
  | nil =>
      obtain rfl := Option.some.inj h
      simp
  | cons p ps ih =>
      obtain ⟨e, he, h⟩ := Option.bind_eq_some_iff.mp h
      obtain ⟨es, hes, rfl⟩ := Option.map_eq_some_iff.mp h
      exact List.forall_mem_cons.mpr
        ⟨TypeExpr.wellNamed_of_parse (TypeExpr.parse_of_toOption he), ih hes⟩

/-- A generic function where an environment is seen. -/
def Generic.ofParts? (env : String → Option Ty) (list : String) (parts : FunctionParts) :
    Option Generic :=
  (typeParamsOf? list).bind fun typeParams => (paramExprs? parts.params).bind fun exprs =>
    (TypeExpr.parse parts.resultText).toOption.bind fun result =>
      some ⟨typeParams, parts.params.map Param.name, exprs, result, parts.body, env⟩

namespace Performs

open CheckM

variable {makes : Prop} {b : Base} {bodies : InstanceKey → Requests.Body InstanceKey}
  {depth old : Nat} {x : Context} {env : String → Option Ty} {s : ScopeId}

theorem parseType (hx : b.Over x) (text : String) (expr : Datum) :
    Performs makes b bodies depth old x (CheckM.parseType text expr)
      (.ofAnswer (TypeExpr.parse text).toOption) fun u t _ => t = u :=
  (of_resolves hx (.parseType hx.caches text expr)).mono fun _ _ _ _ _ _ h => h.1

theorem templateParams (hx : b.Over x) (expr : Datum) (params : List Param) :
    Performs makes b bodies depth old x (CheckM.templateParams expr params)
      (.ofAnswer (paramExprs? params)) fun exprs ps y => ps.map Prod.snd = exprs ∧
        List.Forall₂ (fun s name => y.interner.resolve? s = some name) (ps.map Prod.fst)
          (params.map Param.name) := by
  induction params generalizing makes x with
  | nil => exact pure hx ⟨rfl, .nil⟩
  | cons p ps ih =>
      rw [CheckM.templateParams, paramExprs?]
      refine (parseType hx p.typeText expr).answer_bind ?_
      rintro _ e y - - hy rfl
      refine (intern hy p.name).ok_bind fun symbol z _ hz hsymbol => ?_
      rw [Option.map_eq_bind]
      refine (ih hz).answer_bind ?_
      rintro _ others u - hzu hu ⟨rfl, hothers⟩
      exact pure hu ⟨rfl, .cons (hzu.interner _ _ hsymbol) hothers⟩

theorem makeTemplate {e : Datum} {list : String} {parts : FunctionParts}
    (he : Form.classify e = .ok (.lambda (some list) parts)) (hmakes : b.makes) (henv : b.EnvOk env)
    (hx : b.Over x) (hs : Sees x s env) :
    Performs b.makes b bodies depth old x (CheckM.makeTemplate "lambda" list parts e s)
      (.ofAnswer (Generic.ofParts? env list parts))
      fun d t y => Value.Yields b e x (.generic d) t y := by
  rw [CheckM.makeTemplate, Generic.ofParts?, typeParamsOf?, Option.bind_assoc]
  refine (of_resolves hx (.parseTypeList hx.caches list e)).answer_bind ?_
  rintro _ items y hitems hxy hy ⟨rfl, -⟩
  cases hplain : plainNames? items with
  | none => exact reject hy _
  | some typeParams =>
      have hparams : typeParamsOf? list = some typeParams := by
        rw [typeParamsOf?, hitems]
        exact hplain
      rw [Option.bind_some]
      refine (templateParams hy e parts.params).answer_bind ?_
      rintro exprs params z hexprs hyz hz ⟨rfl, hsymbols⟩
      refine (parseType hz parts.resultText e).answer_bind ?_
      rintro _ result u hresult hzu hu rfl
      have hxu := (hxy.toBefore.trans hyz.toBefore).trans hzu.toBefore
      have hnew : u.Before u.newTemplate.2 := ⟨.refl _, .refl _, Nat.le_succ _⟩
      let g : Template := ⟨u.nextTemplate, "lambda", typeParams, params, result, parts.body, s⟩
      rcases Nat.lt_or_eq_of_le hu.room with hroom | hfull
      swap
      · exact fun events => .overrun hmakes (hfull ▸ Nat.lt_succ_self _)
      have hid : g.id = u.nextTemplate := Template.id_eq_serial (t := g) hroom
      refine of_ok (a := .template g) (fun events => ⟨events, rfl⟩) (hu.newTemplate hroom)
        (.of_instances hnew rfl) rfl ?_
      refine ⟨⟨g, rfl, rfl, hu.next, Nat.lt_succ_self _, rfl, ?_, rfl, rfl, rfl, ?_⟩, ?_, ?_⟩
      · exact hsymbols.imp fun _ _ h => hzu.interner _ _ h
      · exact (hs.before hx hxu).before hu hnew
      · exact ⟨henv, wellNamed_of_paramExprs? hexprs,
          TypeExpr.wellNamed_of_parse (TypeExpr.parse_of_toOption hresult),
          fun names => .single (.body he hparams names)⟩
      · rintro d _ - heq
        cases heq
        refine ⟨hxu.nextTemplate, ?_⟩
        intro key hkey
        cases hkept : u.instance? key with
        | none => exact hkept
        | some sig => exact absurd (hu.recorded hkept).1 (hkey ▸ hid ▸ Nat.lt_irrefl _)

end Performs

def Plan.returning (b : Base) (result : Ty) (p : Plan Value) : Plan Unit :=
  p.bind fun v => .require (v.accepted b (.known result))

namespace Base

/-- With `n` levels of room, the bodies of templates of the base go as given. -/
def CorrectAt (b : Base) (bodies : InstanceKey → Requests.Body InstanceKey) (n : Nat) : Prop :=
  ∀ g list actuals sig, b.Request g list actuals →
    b.context.actualSignature? g actuals = some sig →
    ∃ p : Plan Unit, bodies (keyOf g actuals) = p.body ∧
      ∀ x old expr, b.Over x → old ≤ x.nextTemplate →
        Performs b.makes b bodies n old x
          (CheckM.checkFunctionBody (CheckM.bodyWithin n) g.closure
            ((g.params.map Prod.fst).zip sig.params)
            (CheckM.actualBody g (actuals.map TypeExpr.shown)) sig.result expr)
          p.deeper fun _ _ _ => True

def Correct (b : Base) (bodies : InstanceKey → Requests.Body InstanceKey) (depth : Nat) : Prop :=
  ∀ n ≤ depth, b.CorrectAt bodies n

theorem Correct.of_le {b : Base} {bodies : InstanceKey → Requests.Body InstanceKey}
    {depth n : Nat} (h : b.Correct bodies depth) (hn : n ≤ depth) : b.Correct bodies n :=
  fun m hm => h m (Nat.le_trans hm hn)

/-- Where an environment is seen, checking a body goes as planned. -/
def BodyGoes (b : Base) (e : Datum) (env : String → Option Ty) (p : Plan Value) : Prop :=
  ∀ bodies depth, b.Correct bodies depth → ∀ x s, b.Over x → Sees x s env →
    Performs b.makes b bodies depth x.nextTemplate x (CheckM.checkBody (CheckM.bodyWithin depth) e s) p
      (Value.Yields b e x)

/-- The types of a written list, if there are as many as needed and all of them resolve. -/
def actuals? (b : Base) (arity : Nat) (list : String) : Option (List TypeExpr) :=
  ((TypeExpr.parseList? list).bind Except.toOption).bind fun actuals =>
    if actuals.length = arity then
      (b.context.resolvedEach? actuals).map fun _ => actuals
    else none

theorem actuals?_eq_some_iff {b : Base} {arity : Nat} {list : String} {actuals : List TypeExpr} :
    b.actuals? arity list = some actuals ↔ TypeExpr.parseList? list = some (.ok actuals) ∧
      actuals.length = arity ∧ (b.context.resolvedEach? actuals).isSome := by
  rw [actuals?, Option.bind_eq_some_iff]
  constructor
  · rintro ⟨items, hparsed, h⟩
    split at h
    · next hlength =>
        obtain ⟨types, htypes, rfl⟩ := Option.map_eq_some_iff.mp h
        exact ⟨TypeExpr.parseList?_of_toOption hparsed, hlength,
          Option.isSome_iff_exists.mpr ⟨types, htypes⟩⟩
    · cases h
  · rintro ⟨hparsed, hlength, hresolved⟩
    obtain ⟨types, htypes⟩ := Option.isSome_iff_exists.mp hresolved
    refine ⟨actuals, ?_, ?_⟩
    · rw [hparsed]
      rfl
    · rw [if_pos hlength, htypes]
      rfl

theorem written_of_actualSignature? {b : Base} {g : Template}
    (hparams : ∀ p ∈ g.params, p.2.WellNamed) (hresult : g.result.WellNamed)
    {actuals : List TypeExpr} (hactuals : ∀ e ∈ actuals, e.WellNamed) {sig : Signature}
    (h : b.context.actualSignature? g actuals = some sig) : sig.Written b.size := by
  have hsubstitute {e : TypeExpr} (he : e.WellNamed) :
      (e.substitute fun name => lastPaired? name g.typeParams actuals).WellNamed :=
    he.substitute fun name u hu => hactuals u (mem_of_lastPaired? hu)
  obtain ⟨params, hps, h⟩ := Option.bind_eq_some_iff.mp h
  obtain ⟨result, hr, rfl⟩ := Option.map_eq_some_iff.mp h
  refine ⟨(b.wellFormed.resolvedEach? ?_ hps).1, (b.wellFormed.resolved? (hsubstitute hresult) hr).1⟩
  intro e he
  obtain ⟨p, hp, rfl⟩ := List.mem_map.mp he
  exact hsubstitute (hparams p hp)

def instancePlan (b : Base) (g : Template) (actuals : List TypeExpr) : Plan Signature :=
  match b.context.instance? (keyOf g actuals) with
  | some sig => .ofAnswer (some sig)
  | none => (Plan.ofAnswer (b.context.actualSignature? g actuals)).bind fun sig =>
      ⟨[.ask 0 (keyOf g actuals)], some sig⟩

/-- The plan of an instance of a template that the check itself made, given plans of bodies. -/
def freshPlan (b : Base) (plan : Datum → (String → Option Ty) → Plan Value) (d : Generic)
    (actuals : List TypeExpr) : Plan Signature :=
  (Plan.ofAnswer (b.context.actualSignature? (d.sample b) actuals)).bind fun sig =>
    ((plan (d.bodyAt (actuals.map TypeExpr.shown))
      (extendEnv d.env d.names sig.params)).returning b sig.result).deeper.bind fun _ =>
        .ofAnswer (some sig)

def calledPlan (b : Base) (plan : Datum → (String → Option Ty) → Plan Value) :
    Value → Option String → Plan Signature
  | .known (.template g), some list =>
      (Plan.ofAnswer (b.actuals? g.typeParams.length list)).bind (b.instancePlan g)
  | .generic d, some list =>
      (Plan.ofAnswer (b.actuals? d.typeParams.length list)).bind (b.freshPlan plan d)
  | .known (.template _), none | .generic _, none => .ofAnswer none
  | .known _, some _ => .ofAnswer none
  | .known t, none => .ofAnswer t.signature?

end Base

theorem Plan.make_deeper {β : Type} (bodies : InstanceKey → Requests.Body InstanceKey)
    (depth : Nat) (keys : Finset InstanceKey) (p : Plan β) :
    Requests.make bodies depth keys p.deeper.items =
      if 0 < depth then Requests.make bodies (depth - 1) keys p.items else .deep := by
  rw [deeper, Requests.make]
  cases depth with
  | zero => rfl
  | succ n => exact Requests.make_deeper n keys p.items

namespace Performs

open CheckM Requests

variable {b : Base} {bodies : InstanceKey → Requests.Body InstanceKey} {depth old : Nat}
  {x : Context} {env : String → Option Ty} {key : InstanceKey} {sig : Signature}
  {check : CheckM Unit} {p : Plan Unit}

/-- An instance of a template that the check itself made. -/
theorem provisionally_of_le (hnew : b.next ≤ key.template) (hold : old ≤ key.template)
    (h : Performs b.makes b bodies depth old (x.record key sig) check p fun _ _ _ => True) :
    Performs b.makes b bodies depth old x (provisionally key sig check)
      (p.bind fun _ => .ofAnswer (some sig)) fun u s _ => u = sig ∧ s = sig := by
  have hnone : b.context.instance? key = none := by
    cases hinstance : b.context.instance? key with
    | none => rfl
    | some s => exact absurd (b.wellFormed.recorded hinstance).1 (Nat.not_lt.mpr hnew)
  have hrecord : b.Before old x (x.record key sig) := .record (.inr hold)
  -- Such a key is not among those that requests are made for, so forgetting it withdraws nothing.
  have hrejected {y : Context} (hy : b.Over y) (hxy : b.Before old (x.record key sig) y) :
      b.Over (y.forget key) ∧ b.Before old x (y.forget key) ∧
        b.granted (y.forget key) = b.granted y := by
    refine ⟨hy.forget hnone, (hrecord.trans hxy).trans (.forget (.inr hold)), ?_⟩
    rw [Base.granted_forget, Finset.erase_eq_of_notMem (Base.not_mem_granted_of_le hnew)]
  intro events
  -- Too many templates made while the body is checked are too many afterwards.
  by_cases hoverrun : b.makes ∧ Template.idCount <
      (Session.run ⟨x.record key sig, events⟩ check).2.context.nextTemplate
  · exact .overrun hoverrun.1 (nextTemplate_run_provisionally ⟨x, events⟩ key sig check ▸ hoverrun.2)
  have hends := h events
  rw [run_provisionally, Plan.bind]
  rw [Base.granted_record_of_le hnew] at hends
  obtain ⟨items, value⟩ := p
  generalize Session.run ⟨x.record key sig, events⟩ check = result at hends hoverrun ⊢
  cases value with
  | some v =>
      rw [Plan.ofAnswer, List.append_nil]
      generalize make bodies depth (b.granted x) items = progress at hends ⊢
      cases hends with
      | accepted hy hxy => exact .accepted hy (hrecord.trans hxy) ⟨rfl, rfl⟩
      | denied hy hxy =>
          obtain ⟨hover, hbefore, hgranted⟩ := hrejected hy hxy
          exact hgranted ▸ .denied hover hbefore
      | deep hroom => exact .deep hroom
      | overrun hmakes h => exact absurd ⟨hmakes, h⟩ hoverrun
  | none =>
      generalize make bodies depth (b.granted x) items = progress at hends ⊢
      cases hends with
      | refused hy hxy =>
          obtain ⟨hover, hbefore, hgranted⟩ := hrejected hy hxy
          exact hgranted ▸ .refused hover hbefore
      | denied hy hxy =>
          obtain ⟨hover, hbefore, hgranted⟩ := hrejected hy hxy
          exact hgranted ▸ .denied hover hbefore
      | deep hroom => exact .deep hroom
      | overrun hmakes h => exact absurd ⟨hmakes, h⟩ hoverrun

/-- An instance of a template of the base. -/
theorem provisionally_of_lt (hx : b.Over x) (hkey : key.template < b.next)
    (hnone : x.instance? key = none) (hbody : bodies key = p.body)
    (h : Performs b.makes b bodies depth old (x.record key sig) check p.deeper fun _ _ _ => True) :
    Performs b.makes b bodies depth old x (provisionally key sig check) ⟨[.ask 0 key], some sig⟩
      fun u s _ => u = sig ∧ s = sig := by
  have hbase : b.context.instance? key = none := by
    cases hinstance : b.context.instance? key with
    | none => rfl
    | some s =>
        rw [hx.kept hinstance] at hnone
        cases hnone
  have hmem : key ∉ b.granted x := by
    rw [Base.mem_granted, hnone]
    simp
  have hrecord : b.Before old x (x.record key sig) := .record (.inl hkey)
  -- Forgetting the key is denying its request.
  have hrejected {y : Context} {events : Array Event} {e : TypeError} (hy : b.Over y)
      (hxy : b.Before old (x.record key sig) y) :
      Ends b.makes b old x (fun u s _ => u = sig ∧ s = sig) (.denied ((b.granted y).erase key))
        (some sig) (.error (.rejected e), ⟨y.forget key, events⟩) := by
    rw [← Base.granted_forget]
    exact .denied (hy.forget hbase) ((hrecord.trans hxy).trans (.forget (.inl hkey)))
  intro events
  by_cases hoverrun : b.makes ∧ Template.idCount <
      (Session.run ⟨x.record key sig, events⟩ check).2.context.nextTemplate
  · exact .overrun hoverrun.1 (nextTemplate_run_provisionally ⟨x, events⟩ key sig check ▸ hoverrun.2)
  have hends := h events
  rw [Plan.make_deeper, Base.granted_record hkey] at hends
  rw [run_provisionally, make, if_neg hmem, hbody, Nat.sub_zero]
  obtain ⟨items, value⟩ := p
  generalize Session.run ⟨x.record key sig, events⟩ check = result at hends hoverrun ⊢
  split at hends
  · next hdepth =>
      rw [if_pos hdepth]
      dsimp only [Plan.body]
      generalize make bodies (depth - 1) (insert key (b.granted x)) items = progress at hends ⊢
      cases hends with
      | accepted hy hxy =>
          simp only [Option.isSome_some, if_true]
          rw [make]
          exact .accepted hy (hrecord.trans hxy) ⟨rfl, rfl⟩
      | refused hy hxy => exact hrejected hy hxy
      | denied hy hxy => exact hrejected hy hxy
      | deep hroom => exact .deep hroom
      | overrun hmakes h => exact absurd ⟨hmakes, h⟩ hoverrun
  · next hdepth =>
      rw [if_neg hdepth]
      cases hends with
      | deep hroom => exact .deep hroom
      | overrun hmakes h => exact absurd ⟨hmakes, h⟩ hoverrun

theorem checkFunctionBody {body : Datum} {names : List String} {types : List Ty} {q : Plan Value}
    (hbody : b.BodyGoes body (extendEnv env names types) q) (hcorrect : b.Correct bodies depth)
    (hx : b.Over x) (hold : old ≤ x.nextTemplate) {closure : ScopeId} (hclosure : Sees x closure env)
    {symbols : List Symbol}
    (hnames : List.Forall₂ (fun s name => x.interner.resolve? s = some name) symbols names)
    {result : Ty} (hresult : result.Written b.size) (expr : Datum) :
    Performs b.makes b bodies depth old x
      (CheckM.checkFunctionBody (CheckM.checkBody (bodyWithin depth)) closure (symbols.zip types)
        body result expr)
      (q.returning b result) fun _ _ _ => True := by
  refine (openFunction hx hclosure hnames types).ok_bind fun scope y hxy hy hscope => ?_
  have hgoes := (hbody bodies depth hcorrect y scope hy hscope).weaken
    (Nat.le_trans hold hxy.nextTemplate)
  refine hgoes.andThen fun v t z _ _ hz ht => ?_
  exact (expect hz (ht.is.equals_known (.inl hresult)) body expr).mono
    fun _ _ _ _ _ _ _ => trivial

theorem deeper (hx : b.Over x) {closure : ScopeId} {bindings : List (Symbol × Ty)}
    {body expr : Datum} {result : Ty}
    (h : ∀ n, depth = n + 1 → Performs b.makes b bodies n old x
      (CheckM.checkFunctionBody (CheckM.checkBody (bodyWithin n)) closure bindings body result expr)
      p fun _ _ _ => True) :
    Performs b.makes b bodies depth old x
      (CheckM.checkFunctionBody (bodyWithin depth) closure bindings body result expr)
      p.deeper fun _ _ _ => True := by
  intro events
  rw [Plan.make_deeper]
  cases depth with
  | zero =>
      have hopened := foldl_bind_eq (x.child closure).2 ⟨x.scopes.size⟩ bindings
      exact .deep (Nat.le_trans (Nat.le_of_eq (congrArg Context.nextTemplate hopened)) hx.room)
  | succ n => exact h n rfl events

theorem renderedBody {d : Generic} {g : Template} (hx : b.Over x) (hg : Renders x d g)
    (hcorrect : ∀ n, depth = n + 1 → b.Correct bodies n) (hold : old ≤ x.nextTemplate)
    {names : List String} {q : Plan Value}
    (hbody : b.BodyGoes (d.bodyAt names) (extendEnv d.env d.names sig.params) q)
    (hresult : sig.result.Written b.size) (expr : Datum) :
    Performs b.makes b bodies depth old x
      (CheckM.checkFunctionBody (bodyWithin depth) g.closure
        ((g.params.map Prod.fst).zip sig.params) (actualBody g names) sig.result expr)
      (q.returning b sig.result).deeper fun _ _ _ => True := by
  have hactual : actualBody g names = d.bodyAt names := by
    rw [actualBody, Generic.bodyAt, hg.typeParams, hg.body]
  rw [hactual]
  refine deeper hx ?_
  rintro n rfl
  exact checkFunctionBody hbody (hcorrect n rfl) hx hold hg.closure hg.symbols hresult expr

theorem instantiate {inBody : Datum → ScopeId → CheckM Ty} {g : Template}
    {q : List TypeExpr → Plan Signature} {post : Signature → Signature → Context → Prop}
    (hx : b.Over x) (list : String) (expr : Datum)
    (hrest : ∀ actuals y, b.actuals? g.typeParams.length list = some actuals → x.Agrees y →
      b.Over y → Performs b.makes b bodies depth old y
        (instantiateAt inBody g actuals (Base.keyOf g actuals) expr) (q actuals) post) :
    Performs b.makes b bodies depth old x (CheckM.instantiate inBody g list expr)
      ((Plan.ofAnswer (b.actuals? g.typeParams.length list)).bind q) post := by
  rw [instantiate_eq, Base.actuals?, ← Plan.ofAnswer_bind, Plan.bind_assoc]
  refine (of_resolves hx (.parseTypeList hx.caches list expr)).bind ?_
  rintro _ actuals y hparsed hxy hy ⟨rfl, hagrees⟩
  have hlist := TypeExpr.parseList?_of_toOption hparsed
  by_cases hlength : actuals.length = g.typeParams.length
  · rw [if_neg (not_not.mpr hlength), if_pos hlength, Option.map_eq_bind, ← Plan.ofAnswer_bind,
      Plan.bind_assoc]
    have hnamed := TypeExpr.wellNamed_of_parseList hlist
    refine (of_resolves hy (.resolveExprs hnamed hy.caches expr)).bind ?_
    rintro _ types z htypes hyz hz ⟨rfl, hagrees'⟩
    have hnames := (b.wellFormed.resolvedEach? hnamed htypes).2
    rw [hnames]
    refine hrest actuals z ?_ (hagrees.trans hagrees') hz
    exact Base.actuals?_eq_some_iff.mpr ⟨hlist, hlength, Option.isSome_iff_exists.mpr ⟨types, htypes⟩⟩
  · rw [if_pos hlength, if_neg hlength]
    exact reject hy _

theorem instantiateAt_known {g : Template} {list : String} {actuals : List TypeExpr}
    (hcorrect : b.Correct bodies depth) (hx : b.Over x) (hold : old ≤ x.nextTemplate)
    (hrequest : b.Request g list actuals) (expr : Datum) :
    Performs b.makes b bodies depth old x
      (instantiateAt (bodyWithin depth) g actuals (Base.keyOf g actuals) expr)
      (b.instancePlan g actuals) fun u s _ => s = u ∧ u.Written b.size := by
  have hkey : (Base.keyOf g actuals).template < b.next :=
    Nat.lt_of_le_of_lt g.id_le (b.wellFormed.numbered hrequest.made)
  have hholds := b.wellFormed.made hrequest.made
  have hwritten {sig : Signature} (h : b.context.actualSignature? g actuals = some sig) :
      sig.Written b.size :=
    Base.written_of_actualSignature? (fun p hp => (hholds.params p hp).2) hholds.result
      hrequest.wellNamed h
  rw [instantiateAt, Base.instancePlan]
  refine context_bind ?_
  cases hbase : b.context.instance? (Base.keyOf g actuals) with
  | some sig =>
      rw [hx.kept hbase]
      exact pure hx ⟨rfl, (b.wellFormed.recorded hbase).2⟩
  | none =>
      cases hinstance : x.instance? (Base.keyOf g actuals) with
      | some sig =>
          rcases (hx.recorded hinstance).2 with h | h | h
          · rw [hbase] at h
            cases h
          · exact absurd hkey (Nat.not_lt.mpr h)
          · -- Granted before, perhaps only for as long as a body around is checked.
            obtain ⟨sig', hsig'⟩ : ∃ sig', b.context.actualSignature? g actuals = some sig' := by
              obtain ⟨g', list', actuals', hrequest', hsame, hsig'⟩ := h
              obtain ⟨rfl, rfl⟩ := hrequest.eq_of_keyOf_eq hrequest' hsame
              exact ⟨sig, hsig'⟩
            obtain rfl := h.signature_eq hrequest hsig'
            have hmem : Base.keyOf g actuals ∈ b.granted x := by
              rw [Base.mem_granted, hinstance]
              exact ⟨hkey, rfl⟩
            intro events
            rw [hsig']
            dsimp only [Plan.ofAnswer, Plan.bind, List.nil_append]
            rw [make, if_pos hmem, make]
            exact .accepted hx (.refl x) ⟨rfl, hwritten hsig'⟩
      | none =>
          refine (of_resolves hx (.actualSignature hx.caches (fun p hp => (hholds.params p hp).2)
            hholds.result hrequest.wellNamed expr)).bind ?_
          rintro _ sig y hsig hxy hy ⟨rfl, hagrees⟩
          refine emit_bind ?_
          obtain ⟨p, hbody, hperforms⟩ :=
            hcorrect depth (Nat.le_refl _) g list actuals sig hrequest hsig
          have hnone : y.instance? (Base.keyOf g actuals) = none := by
            rw [Context.instance?, hagrees.instances]
            exact hinstance
          have hover := hy.record (Nat.lt_of_lt_of_le hkey hy.next) hbase
            (.inr ⟨g, list, actuals, hrequest, rfl, hsig⟩)
          refine (provisionally_of_lt hy hkey hnone hbody (hperforms _ old expr hover ?_)).mono ?_
          · exact Nat.le_trans hold hxy.nextTemplate
          · rintro _ _ _ - - - ⟨rfl, rfl⟩
            exact ⟨rfl, hwritten hsig⟩

theorem instantiateAt_fresh {plan : Datum → (String → Option Ty) → Plan Value} {d : Generic}
    {g : Template} {actuals : List TypeExpr} (hcorrect : b.Correct bodies depth) (hx : b.Over x)
    (hg : Renders x d g) (hnext : b.next ≤ g.serial) (hmade : g.serial < x.nextTemplate)
    (hold : old ≤ g.serial)
    (hnone : ∀ key, key.template = g.id → x.instance? key = none)
    (hexprs : ∀ e ∈ d.exprs, e.WellNamed) (hresult : d.result.WellNamed)
    (hactuals : ∀ e ∈ actuals, e.WellNamed)
    (hbody : ∀ names types, (∀ t ∈ types, t.Written b.size) →
      b.BodyGoes (d.bodyAt names) (extendEnv d.env d.names types)
        (plan (d.bodyAt names) (extendEnv d.env d.names types))) (expr : Datum) :
    Performs b.makes b bodies depth old x
      (instantiateAt (bodyWithin depth) g actuals (Base.keyOf g actuals) expr)
      (b.freshPlan plan d actuals) fun u s _ => s = u ∧ u.Written b.size := by
  have hparams : ∀ p ∈ g.params, p.2.WellNamed := by
    intro p hp
    exact hexprs p.2 (hg.exprs ▸ List.mem_map_of_mem hp)
  have hgresult : g.result.WellNamed := hg.result ▸ hresult
  have hid := hx.id_eq_serial hmade
  rw [← hid] at hnext hmade hold
  rw [instantiateAt, Base.freshPlan, ← hg.actualSignature?]
  refine context_bind ?_
  rw [hnone _ rfl]
  refine (of_resolves hx (.actualSignature hx.caches hparams hgresult hactuals expr)).bind ?_
  rintro _ sig y hsig hxy hy ⟨rfl, hagrees⟩
  have hwritten := Base.written_of_actualSignature? hparams hgresult hactuals hsig
  refine emit_bind ?_
  have hlt : g.id < y.nextTemplate := Nat.lt_of_lt_of_le hmade hxy.nextTemplate
  have hbase : b.context.instance? (Base.keyOf g actuals) = none := by
    cases h : b.context.instance? (Base.keyOf g actuals) with
    | none => rfl
    | some s => exact absurd (b.wellFormed.recorded h).1 (Nat.not_lt.mpr hnext)
  have hover := hy.record (s := sig) hlt hbase (.inl hnext)
  have hrecord : b.Before old y (y.record (Base.keyOf g actuals) sig) := .record (.inr hold)
  have hrendered := (hg.before hx hxy.toBefore).before hy hrecord.toBefore
  refine (provisionally_of_le hnext hold (renderedBody hover hrendered ?_ ?_
    (hbody _ _ hwritten.params) hwritten.result expr)).mono ?_
  · rintro n rfl
    exact hcorrect.of_le (Nat.le_succ n)
  · exact Nat.le_of_lt (Nat.lt_of_le_of_lt hold hlt)
  · rintro _ _ _ - - - ⟨rfl, rfl⟩
    exact ⟨rfl, hwritten⟩

theorem written_calledSignature {plan : Datum → (String → Option Ty) → Plan Value} {t : Ty}
    (hx : b.Over x) (ht : t.Written b.size) (name : String) (typeArgs : Option String)
    (expr : Datum) :
    Performs b.makes b bodies depth old x
      (CheckM.calledSignature (bodyWithin depth) t name typeArgs expr)
      (b.calledPlan plan (.known t) typeArgs) fun u s _ => s = u ∧ u.Written b.size := by
  cases typeArgs with
  | some list =>
      have hplan : b.calledPlan plan (.known t) (some list) = .ofAnswer none := by
        cases ht <;> rfl
      have hrun : CheckM.calledSignature (bodyWithin depth) t name (some list) expr =
          CheckM.reject (.malformedForm name .notGeneric expr) := by
        cases ht <;> rfl
      rw [hplan, hrun]
      exact reject hx _
  | none =>
      have hplan : b.calledPlan plan (.known t) none = .ofAnswer t.signature? := by
        cases ht <;> rfl
      have hrun : CheckM.calledSignature (bodyWithin depth) t name none expr =
          match t.signature? with
          | some sig => Pure.pure sig
          | none => CheckM.reject (.notCallable t.name expr) := by
        cases ht <;> rfl
      rw [hplan, hrun]
      cases hsig : t.signature? with
      | none => exact reject hx _
      | some sig => exact pure hx ⟨rfl, ht.signature? hsig⟩

theorem calledSignature {plan : Datum → (String → Option Ty) → Plan Value} {e : Datum} {v : Value}
    {t : Ty} {x₀ : Context} (hcorrect : b.Correct bodies depth) (hx : b.Over x)
    (hv : Value.Yields b e x₀ v t x) (hx₀ : x₀.nextTemplate ≤ x.nextTemplate)
    (hold : old ≤ x₀.nextTemplate)
    (hplan : ∀ e' env, Relation.TransGen Inside e' e → b.EnvOk env →
      b.BodyGoes e' env (plan e' env)) (name : String) (typeArgs : Option String) (expr : Datum) :
    Performs b.makes b bodies depth old x
      (CheckM.calledSignature (bodyWithin depth) t name typeArgs expr)
      (b.calledPlan plan v typeArgs) fun u s _ => s = u ∧ u.Written b.size := by
  cases v with
  | generic d =>
      obtain ⟨⟨g, rfl, -, hnext, hmade, hg⟩, ⟨henv, hexprs, hresult, hinside⟩, hnew⟩ := hv
      obtain ⟨hfrom, hnone⟩ := hnew d g rfl rfl
      cases typeArgs with
      | none => exact reject hx _
      | some list =>
          rw [Base.calledPlan, ← hg.typeParams]
          refine instantiate hx list expr fun actuals y hactuals hagrees hy => ?_
          obtain ⟨hlist, -, -⟩ := Base.actuals?_eq_some_iff.mp hactuals
          refine instantiateAt_fresh hcorrect hy (hg.before hx (.of_agrees hagrees)) hnext
            (hagrees.nextTemplate ▸ hmade) (Nat.le_trans hold hfrom) ?_ hexprs hresult
            (TypeExpr.wellNamed_of_parseList hlist) ?_ expr
          · intro key hkey
            rw [Context.instance?, hagrees.instances]
            exact hnone key hkey
          · intro names types htypes
            exact hplan _ _ (hinside names) (henv.extend _ htypes)
  | known u =>
      obtain ⟨⟨rfl, hknown⟩, -, -⟩ := hv
      rcases hknown with hwritten | ⟨g, rfl, hinvolved, hbound⟩
      · exact written_calledSignature hx hwritten name typeArgs expr
      · cases typeArgs with
        | none => exact reject hx _
        | some list =>
            refine instantiate hx list expr fun actuals y hactuals hagrees hy => ?_
            obtain ⟨hlist, hlength, hresolved⟩ := Base.actuals?_eq_some_iff.mp hactuals
            refine instantiateAt_known hcorrect hy ?_
              ⟨hbound, hinvolved, hlist, hlength, hresolved⟩ expr
            exact hagrees.nextTemplate ▸ Nat.le_trans hold hx₀

end Performs

end TypedLisp
