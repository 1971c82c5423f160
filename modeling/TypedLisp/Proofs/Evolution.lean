import TypedLisp.Proofs.World

namespace TypedLisp

open World

/-- Run in a well-formed world, a check leaves one that is reached by steps, and a result that
satisfies `post` there. -/
def Evolves {α : Type} (may : ScopeId → String → Prop) (w : World) (m : CheckM α)
    (post : α → World → Prop) : Prop :=
  w.WellFormed → ∀ events, ∃ outcome v events',
    Session.run ⟨w.context, events⟩ m = (outcome, ⟨v.context, events'⟩) ∧ Steps may w v ∧
      ∀ a, outcome = .ok a → post a v

/-- Any name can be bound in the scopes still to be opened. -/
def World.Unbound (may : ScopeId → String → Prop) (w : World) : Prop :=
  ∀ q name, w.size ≤ q.index → may q name

theorem World.Unbound.later {may : ScopeId → String → Prop} {w v : World} (h : w.Unbound may)
    (hv : w.Later v) : v.Unbound may :=
  fun q name hq => h q name (Nat.le_trans hv.size hq)

namespace Evolves

open CheckM

variable {α β : Type} {may : ScopeId → String → Prop} {w : World}

theorem pure {post : α → World → Prop} {a : α} (h : post a w) :
    Evolves may w (pure a) post := by
  intro _ events
  refine ⟨_, w, events, Session.run_pure _ a, .refl, ?_⟩
  intro b hb
  obtain rfl := Except.ok.inj hb
  exact h

theorem throw {post : α → World → Prop} (halt : Halt) :
    Evolves may w (throw halt : CheckM α) post :=
  fun _ events => ⟨_, w, events, Session.run_throw _ halt, .refl, fun _ ha => nomatch ha⟩

theorem reject {post : α → World → Prop} (e : TypeError) :
    Evolves may w (reject e : CheckM α) post :=
  throw (.rejected e)

theorem bind {m : CheckM α} {f : α → CheckM β} {mid : α → World → Prop} {post : β → World → Prop}
    (hm : Evolves may w m mid)
    (hf : ∀ a v, w.Later v → v.WellFormed → mid a v → Evolves may v (f a) post) :
    Evolves may w (m >>= f) post := by
  intro hw events
  obtain ⟨outcome, v, events', hrun, hsteps, hmid⟩ := hm hw events
  cases outcome with
  | error halt =>
      exact ⟨_, v, events', Session.run_bind_of_error f hrun, hsteps, fun _ ha => nomatch ha⟩
  | ok a =>
      have hv := hw.steps hsteps
      obtain ⟨outcome', u, events'', hrun', hsteps', hpost⟩ :=
        hf a v (Steps.later hsteps) hv (hmid a rfl) hv events'
      exact ⟨outcome', u, events'', (Session.run_bind_of_ok f hrun).trans hrun',
        hsteps.trans hsteps', hpost⟩

theorem context_bind {f : Context → CheckM β} {post : β → World → Prop}
    (h : Evolves may w (f w.context) post) : Evolves may w (CheckM.context >>= f) post :=
  fun hw events => h hw events

theorem emit_bind {e : Event} {f : Unit → CheckM β} {post : β → World → Prop}
    (h : Evolves may w (f ()) post) : Evolves may w (emit e >>= f) post :=
  fun hw events => h hw (events.push e)

theorem mono {m : CheckM α} {post post' : α → World → Prop} (hm : Evolves may w m post)
    (h : ∀ a v, w.Later v → post a v → post' a v) : Evolves may w m post' := by
  intro hw events
  obtain ⟨outcome, v, events', hrun, hsteps, hpost⟩ := hm hw events
  exact ⟨outcome, v, events', hrun, hsteps, fun a ha => h a v (Steps.later hsteps) (hpost a ha)⟩

theorem wellFormed {m : CheckM α} {post : α → World → Prop}
    (h : w.WellFormed → Evolves may w m post) : Evolves may w m post :=
  fun hw => h hw hw

theorem change {f : Context → α × Context} {post : α → World → Prop} {v : World}
    (hstep : Step may w v) (hv : (f w.context).2 = v.context) (hpost : post (f w.context).1 v) :
    Evolves may w (change f) post := by
  intro _ events
  refine ⟨.ok (f w.context).1, v, events, ?_, .single hstep, ?_⟩
  · rw [Session.run_change, hv]
  · intro a ha
    obtain rfl := Except.ok.inj ha
    exact hpost

theorem tryCatch {m : CheckM α} {handle : Halt → CheckM α} {post : α → World → Prop}
    (hm : Evolves may w m post)
    (hhandle : ∀ halt v, w.Later v → Evolves may v (handle halt) post) :
    Evolves may w (tryCatch m handle) post := by
  intro hw events
  obtain ⟨outcome, v, events', hrun, hsteps, hpost⟩ := hm hw events
  cases outcome with
  | ok a => exact ⟨.ok a, v, events', by rw [Session.run_tryCatch, hrun], hsteps, hpost⟩
  | error halt =>
      obtain ⟨outcome', u, events'', hrun', hsteps', hpost'⟩ :=
        hhandle halt v (Steps.later hsteps) (hw.steps hsteps) events'
      refine ⟨outcome', u, events'', ?_, hsteps.trans hsteps', hpost'⟩
      rw [Session.run_tryCatch, hrun]
      exact hrun'

theorem step_of_run {m : CheckM α} {c : Context} {events events' : Array Event}
    {outcome : Except Halt α}
    (hrun : Session.run ⟨w.context, events⟩ m = (outcome, ⟨c, events'⟩))
    (hcaches : w.context.Caches c) (hagrees : w.context.Agrees c)
    (hcomposes : Session.Composes ⟨w.context, events⟩ m) : Step may w ⟨c, w.made⟩ := by
  rw [Session.Composes, hrun] at hcomposes
  exact .name hcaches hagrees hcomposes

theorem of_resolves {m : CheckM α} {answer : Option α}
    (h : w.context.Indexed → Resolves w.context w.context m answer)
    (hcomposes : ∀ {σ : Session}, σ.Composes m) : Evolves may w m fun a _ => answer = some a := by
  intro hw events
  obtain ⟨outcome, c, hrun, hcaches, hagrees, hanswer⟩ := h hw.indexed events
  refine ⟨outcome, ⟨c, w.made⟩, events, hrun,
    .single (step_of_run hrun hcaches hagrees hcomposes), ?_⟩
  rintro a rfl
  cases answer with
  | none =>
      obtain ⟨e, he⟩ := hanswer
      cases he
  | some b => exact congrArg some (Except.ok.inj hanswer).symm

theorem expect (actual expected : Ty) (expr within : Datum) :
    Evolves may w (expect actual expected expr within) fun _ _ => True := by
  rw [CheckM.expect]
  split
  · exact pure trivial
  · exact reject _

theorem lookup (scope : ScopeId) (name : String) (expr : Datum) :
    Evolves may w (lookup scope name expr) fun t v => v.Knows t := by
  refine wellFormed fun hw => ?_
  rw [CheckM.lookup]
  refine context_bind ?_
  split
  · next t ht => exact pure (hw.lookup? ht)
  · exact reject _

theorem step_intern (hw : w.WellFormed) (name : String) :
    Step may w ⟨(w.context.intern name).2, w.made⟩ :=
  .name ((Context.Caches.refl hw.indexed).intern name) (Context.agrees_intern _ name)
    fun h => h.intern name

theorem intern (name : String) :
    Evolves may w (CheckM.change fun c => c.intern name) fun s v => v.Names s name :=
  wellFormed fun hw => change (step_intern hw name) rfl (w.context.interner.resolve?_intern name)

theorem steps_define (hw : w.WellFormed) {scope : ScopeId} {name : String} {t : Ty}
    (hscope : scope.index < w.size) (hmay : may scope name) (ht : w.Knows t) :
    Steps may w ⟨w.context.define scope name t, w.made⟩ := by
  have hnamed : Step may w ⟨(w.context.intern name).2, w.made⟩ := step_intern hw name
  have hbound : Step may ⟨(w.context.intern name).2, w.made⟩
      ⟨w.context.define scope name t, w.made⟩ :=
    .bind hscope (w.context.interner.resolve?_intern name) hmay (ht.later hnamed.later)
  exact .tail (.single hnamed) hbound

theorem define {scope : ScopeId} {name : String} {t : Ty} (hscope : scope.index < w.size)
    (hmay : may scope name) (ht : w.Knows t) :
    Evolves may w (define scope name t) fun u v => u = t ∧ v.Knows t := by
  rw [CheckM.define]
  have hupdate : Evolves may w (CheckM.update fun c => c.define scope name t)
      fun _ v => v.Knows t := by
    intro hw events
    have hsteps := steps_define hw hscope hmay ht
    exact ⟨.ok (), _, events, rfl, hsteps, fun _ _ => ht.later (Steps.later hsteps)⟩
  exact hupdate.bind fun _ v _ _ hknows => pure ⟨rfl, hknows⟩

theorem resolve (text : String) (expr : Datum) :
    Evolves may w (resolve text expr) fun t v => t.Written v.size := by
  refine wellFormed fun hw => ?_
  refine (of_resolves (fun h => .resolve (.refl h) text expr) (.resolve text expr)).mono
    fun t v hv ht => ?_
  exact (hw.resolvedText? ht).mono hv.size

theorem signature (parts : FunctionParts) (expr : Datum) :
    Evolves may w (signature parts expr) fun s v => s.Written v.size := by
  rw [CheckM.signature]
  refine wellFormed fun hw => ?_
  refine (of_resolves (fun h => .resolveAll (.refl h) _ expr) (.resolveAll _ expr)).bind
    fun params v hv _ hparams => ?_
  refine (resolve parts.resultText expr).bind fun result u hu _ hresult => ?_
  refine pure ⟨?_, hresult⟩
  intro p hp
  exact (hw.resolvedTexts? hparams p hp).mono (hv.trans hu).size

theorem operate (op : Operator) (left right : Datum) {leftType : Ty} (rightType : Ty)
    (expr : Datum) (hleft : w.Knows leftType) :
    Evolves may w (operate op left right leftType rightType expr) fun t v => v.Knows t := by
  rw [CheckM.operate]
  refine context_bind ?_
  dsimp only
  split
  · exact reject _
  · refine (expect _ _ _ _).bind fun _ v hv _ _ => pure ?_
    split
    · exact .inl (.primitive .boolean)
    · exact hleft.later hv

theorem declareVar {name : String} (typeText : Option String) (value : Datum) {valueType : Ty}
    (expr : Datum) {scope : ScopeId} (hscope : scope.index < w.size) (hmay : may scope name)
    (hvalue : w.Knows valueType) :
    Evolves may w (declareVar name typeText value valueType expr scope) fun t v => v.Knows t := by
  cases typeText with
  | none =>
      refine (define hscope hmay hvalue).mono fun t v _ h => ?_
      obtain ⟨rfl, hknows⟩ := h
      exact hknows
  | some text =>
      refine (resolve text expr).bind fun declared v hv _ hdeclared => ?_
      refine (expect _ _ _ _).bind fun _ u hu _ _ => ?_
      have hlater := hv.trans hu
      refine (define (Nat.lt_of_lt_of_le hscope hlater.size) hmay
        (.inl (hdeclared.mono hu.size))).mono fun t _ _ h => ?_
      obtain ⟨rfl, hknows⟩ := h
      exact hknows

/-- A scope that is the given one, or was opened since. -/
def OpenedFrom (w : World) (scope s : ScopeId) (v : World) : Prop :=
  s.index < v.size ∧ (s = scope ∨ w.size ≤ s.index)

theorem child {scope : ScopeId} (hscope : scope.index < w.size) :
    Evolves may w (CheckM.change fun c => c.child scope)
      fun s v => s.index < v.size ∧ w.size ≤ s.index := by
  refine change (.openScope (some scope) none ?_ ?_) rfl ?_
  · rintro p ⟨⟩
    exact hscope
  · rintro o ⟨⟩
  · constructor
    · simp [World.size, Context.child, Arena.child, Arena.openScope, Arena.size]
    · exact Nat.le_refl _

theorem narrow (condition : Datum) {scope : ScopeId} (hscope : scope.index < w.size)
    (hmay : w.Unbound may) :
    Evolves may w (narrow condition scope) (OpenedFrom w scope) := by
  rw [CheckM.narrow]
  split
  · exact pure ⟨hscope, .inl rfl⟩
  · next name text _ =>
      refine (resolve text condition).bind fun t v hv _ ht => ?_
      refine (child (Nat.lt_of_lt_of_le hscope hv.size)).bind fun branch u hu _ hbranch => ?_
      refine emit_bind ?_
      refine (define hbranch.1 (hmay _ _ (Nat.le_trans hv.size hbranch.2))
        (.inl (ht.mono hu.size))).bind fun _ x hx _ _ => pure ?_
      exact ⟨Nat.lt_of_lt_of_le hbranch.1 hx.size, .inr (Nat.le_trans hv.size hbranch.2)⟩

theorem internAll (names : List String) :
    Evolves may w (internAll names) fun ss v => ∀ s ∈ ss, ∃ name, v.Names s name := by
  induction names generalizing w with
  | nil => exact pure (by simp)
  | cons name names ih =>
      rw [CheckM.internAll]
      refine (intern name).bind fun s v _ _ hs => ?_
      refine ih.bind fun ss u hu _ hss => pure ?_
      exact List.forall_mem_cons.mpr ⟨⟨name, hu.names _ _ hs⟩, hss⟩

theorem steps_bindAll {scope : ScopeId} {bindings : List (Symbol × Ty)}
    (hscope : scope.index < w.size) (hmay : ∀ name, may scope name)
    (hbindings : ∀ b ∈ bindings, (∃ name, w.Names b.1 name) ∧ w.Knows b.2) :
    Steps may w ⟨bindings.foldl (fun c (s, t) => c.bind scope s t) w.context, w.made⟩ := by
  induction bindings generalizing w with
  | nil => exact .refl
  | cons b bindings ih =>
      obtain ⟨⟨name, hname⟩, ht⟩ := hbindings b (by simp)
      have hstep : Step may w ⟨w.context.bind scope b.1 b.2, w.made⟩ :=
        .bind hscope hname (hmay name) ht
      refine .head hstep (ih (Nat.lt_of_lt_of_le hscope hstep.later.size) ?_)
      intro b' hb'
      obtain ⟨⟨name', hname'⟩, ht'⟩ := hbindings b' (List.mem_cons_of_mem _ hb')
      exact ⟨⟨name', hname'⟩, ht'.later hstep.later⟩

theorem openFunction {closure : ScopeId} {bindings : List (Symbol × Ty)}
    (hclosure : closure.index < w.size) (hmay : w.Unbound may)
    (hbindings : ∀ b ∈ bindings, (∃ name, w.Names b.1 name) ∧ w.Knows b.2) :
    Evolves may w (openFunction closure bindings)
      fun s v => s.index < v.size ∧ w.size ≤ s.index := by
  rw [CheckM.openFunction]
  refine (child hclosure).bind fun scope v hv _ hscope => ?_
  have hsteps : Steps may v
      ⟨bindings.foldl (fun c (s, t) => c.bind scope s t) v.context, v.made⟩ := by
    refine steps_bindAll hscope.1 (fun name => hmay scope name hscope.2) fun b hb => ?_
    obtain ⟨⟨name, hname⟩, ht⟩ := hbindings b hb
    exact ⟨⟨name, hv.names _ _ hname⟩, ht.later hv⟩
  have hupdate : Evolves may v
      (CheckM.update fun c => bindings.foldl (fun c (s, t) => c.bind scope s t) c)
      fun _ u => v.Later u :=
    fun _ events => ⟨.ok (), _, events, rfl, hsteps, fun _ _ => Steps.later hsteps⟩
  exact hupdate.bind fun _ u _ _ hu => pure ⟨Nat.lt_of_lt_of_le hscope.1 hu.size, hscope.2⟩

theorem parseType (text : String) (expr : Datum) :
    Evolves may w (parseType text expr) fun e _ => e.WellNamed := by
  refine (of_resolves (fun h => .parseType (.refl h) text expr) (.parseType text expr)).mono
    fun e _ _ he => ?_
  exact TypeExpr.wellNamed_of_parse (TypeExpr.parse_of_toOption he)

theorem parseTypeList (text : String) (expr : Datum) :
    Evolves may w (parseTypeList text expr) fun es _ => ∀ e ∈ es, e.WellNamed := by
  rw [CheckM.parseTypeList]
  split
  · next es hes => exact pure (TypeExpr.wellNamed_of_parseList hes)
  · exact reject _
  · exact reject _

theorem templateParams (expr : Datum) (params : List Param) :
    Evolves may w (templateParams expr params)
      fun ps v => ∀ p ∈ ps, (∃ name, v.Names p.1 name) ∧ p.2.WellNamed := by
  induction params generalizing w with
  | nil => exact pure (by simp)
  | cons param params ih =>
      rw [CheckM.templateParams]
      refine (parseType param.typeText expr).bind fun e v _ _ he => ?_
      refine (intern param.name).bind fun s u _ _ hs => ?_
      refine ih.bind fun ps x hx _ hps => pure ?_
      exact List.forall_mem_cons.mpr ⟨⟨⟨param.name, hx.names _ _ hs⟩, he⟩, hps⟩

theorem makeTemplate (name typeList : String) (parts : FunctionParts) (expr : Datum)
    {closure : ScopeId} (hclosure : closure.index < w.size) :
    Evolves may w (makeTemplate name typeList parts expr closure) fun t v => v.Knows t := by
  rw [CheckM.makeTemplate]
  refine (parseTypeList typeList expr).bind fun es v hv _ _ => ?_
  split
  · exact reject _
  · next typeParams _ =>
      refine (templateParams expr parts.params).bind fun params u hu _ hparams => ?_
      refine (parseType parts.resultText expr).bind fun result x hx _ hresult => ?_
      have hlater := (hv.trans hu).trans hx
      -- The template is known by the number it is about to get.
      let g : Template := ⟨x.context.nextTemplate, name, typeParams, params, result, parts.body,
        closure⟩
      have hg : x.Holds g := by
        refine ⟨Nat.lt_of_lt_of_le hclosure hlater.size, ?_, hresult⟩
        intro p hp
        obtain ⟨⟨name, hname⟩, hwell⟩ := hparams p hp
        exact ⟨⟨name, hx.names _ _ hname⟩, hwell⟩
      have hmake : Evolves may x (CheckM.change Context.newTemplate)
          fun serial y => serial = g.serial ∧ g ∈ y.made :=
        change (.make (g := g) rfl hg) rfl ⟨rfl, List.mem_cons_self⟩
      refine hmake.bind ?_
      rintro _ y _ _ ⟨rfl, hmade⟩
      exact pure (.inr ⟨g, hmade, rfl⟩)

theorem ensureUndeclared (name : String) (expr : Datum) :
    Evolves may w (ensureUndeclared name expr) fun _ _ => True := by
  rw [CheckM.ensureUndeclared]
  refine context_bind ?_
  split
  · exact reject _
  · exact pure trivial

theorem declare {name : String} {t : Ty} (expr : Datum) (ht : t.Written w.size)
    (hname : t.name = name) (hkind : t.isFunction = false) :
    Evolves may w (declare name t expr) fun _ _ => True := by
  refine wellFormed fun hw => ?_
  rw [CheckM.declare]
  have hdeclare : Evolves may w (CheckM.change fun c => c.declare name t) fun _ _ => True := by
    cases hreg : w.context.registered? name with
    | some old =>
        refine change (step_intern hw name) ?_ trivial
        rw [Context.declare_of_some hw.indexed hreg]
    | none =>
        refine change (.enter hreg ht hname hkind) ?_ trivial
        rw [Context.declare_of_none hw.indexed hreg]
  refine hdeclare.bind fun taken _ _ _ _ => ?_
  cases taken with
  | some existing => exact reject _
  | none => exact pure trivial

theorem resolveBase (text : String) (expr : Datum) :
    Evolves may w (resolveBase text expr) fun t v => t.Written v.size := by
  rw [CheckM.resolveBase]
  refine (resolve text expr).tryCatch fun halt _ _ => ?_
  split
  · exact reject _
  · exact throw _

theorem resolveBases (expr : Datum) (texts : List String) :
    Evolves may w (resolveBases expr texts) fun ts v => ∀ t ∈ ts, t.Written v.size := by
  induction texts generalizing w with
  | nil => exact pure (by simp)
  | cons text texts ih =>
      rw [CheckM.resolveBases]
      refine (resolveBase text expr).bind fun t v _ _ ht => ?_
      refine ih.bind fun ts u hu _ hts => pure ?_
      exact List.forall_mem_cons.mpr ⟨ht.mono hu.size, hts⟩

theorem declareType (name : String) (base : TypeBase) (expr : Datum) :
    Evolves may w (declareType name base expr) fun t v => v.Knows t := by
  rw [CheckM.declareType]
  refine (ensureUndeclared name expr).bind fun _ v _ _ _ => ?_
  have hbase : Evolves may v (baseType name base expr)
      fun t u => t.Written u.size ∧ t.name = name ∧ t.isFunction = false := by
    rw [CheckM.baseType.eq_def]
    split
    · next text =>
        refine (resolveBase text expr).bind fun parent u _ _ hparent => pure ?_
        exact ⟨.aliasOf hparent, by rw [Ty.name], rfl⟩
    · next texts =>
        refine (resolveBases expr texts).bind fun options u _ _ hoptions => ?_
        exact context_bind (pure ⟨.union hoptions, by rw [Ty.name], rfl⟩)
  refine hbase.bind fun t u _ _ ht => ?_
  refine (declare expr ht.1 ht.2.1 ht.2.2).bind fun _ x hx _ _ => ?_
  exact emit_bind (pure (.inl (ht.1.mono hx.size)))

/-- The members of a class and of those it inherits from have their tables. -/
def HasTables (c : ClassTy) (w : World) : Prop :=
  ∀ row ∈ c.row :: c.ancestors, row.fields.index < w.size

theorem classNamed (name : String) (expr : Datum) :
    Evolves may w (classNamed name expr) HasTables := by
  refine wellFormed fun hw => ?_
  rw [CheckM.classNamed]
  refine context_bind ?_
  split
  · exact reject _
  · next t ht =>
      split
      · next c hc => exact pure ((hw.registered ht).1.class? hc)
      · exact reject _

theorem memberTable {parent : Option ScopeId} {outer : ScopeId}
    (hparent : ∀ p ∈ parent, p.index < w.size) (houter : outer.index < w.size) :
    Evolves may w (CheckM.change fun c => c.memberTable parent outer)
      fun s v => s.index < v.size ∧ w.size ≤ s.index := by
  refine change (.openScope parent (some outer) hparent ?_) rfl ?_
  · rintro o ⟨⟩
    exact houter
  · constructor
    · simp [World.size, Context.memberTable, Arena.memberTable, Arena.openScope, Arena.size]
    · exact Nat.le_refl _

theorem declareBelow {name : String} (superclass : String) (expr : Datum) {scope : ScopeId}
    (parent : Option ClassTy) (hscope : scope.index < w.size) (hmay : may scope name)
    (hparent : ∀ c ∈ parent, HasTables c w) :
    Evolves may w (declareBelow name parent superclass expr scope)
      fun c v => HasTables c v ∧ w.size ≤ c.fields.index := by
  have hlink : ∀ p ∈ parent.map ClassTy.fields, p.index < w.size := by
    intro p hp
    obtain ⟨c, rfl, rfl⟩ := Option.map_eq_some_iff.mp hp
    exact hparent c rfl c.row (by simp)
  refine (memberTable hlink hscope).bind fun fields v hv _ hfields => ?_
  have htables : HasTables (ClassTy.extending name fields parent) v := by
    cases parent with
    | none => simpa [ClassTy.extending, HasTables] using hfields.1
    | some c =>
        refine List.forall_mem_cons.mpr ⟨hfields.1, fun row hrow => ?_⟩
        exact Nat.lt_of_lt_of_le (hparent c rfl row hrow) hv.size
  have hname : (ClassTy.extending name fields parent).name = name := by cases parent <;> rfl
  have hclass : (ClassTy.extending name fields parent).fields = fields := by cases parent <;> rfl
  refine (declare expr (.ofClass htables) (by rw [Ty.name, hname]) rfl).bind fun _ u hu _ _ => ?_
  refine (define (Nat.lt_of_lt_of_le hscope (hv.trans hu).size) hmay
    (.inl ((Ty.Written.ofClass htables).mono hu.size))).bind fun _ x hx _ _ => ?_
  refine emit_bind (pure ⟨fun row hrow => ?_, ?_⟩)
  · exact Nat.lt_of_lt_of_le (htables row hrow) (hu.trans hx).size
  · rw [hclass]
    exact hfields.2

theorem parentNamed (superclass : String) (expr : Datum) :
    Evolves may w (parentNamed superclass expr) fun parent v => ∀ c ∈ parent, HasTables c v := by
  rw [CheckM.parentNamed]
  split
  · exact pure (by simp)
  · rw [map_eq_pure_bind]
    exact (classNamed superclass expr).bind fun c v _ _ hc => pure (by simpa using hc)

theorem declareClass {name : String} (superclass : String) (expr : Datum) {scope : ScopeId}
    (hscope : scope.index < w.size) (hmay : may scope name) :
    Evolves may w (declareClass name superclass expr scope)
      fun c v => HasTables c v ∧ w.size ≤ c.fields.index := by
  rw [declareClass_eq]
  refine (ensureUndeclared name expr).bind fun _ v hv _ _ => ?_
  refine (parentNamed superclass expr).bind fun parent u hu _ hparent => ?_
  have hsize := (hv.trans hu).size
  refine (declareBelow superclass expr parent (Nat.lt_of_lt_of_le hscope hsize) hmay
    hparent).mono fun c _ _ hc => ?_
  exact ⟨hc.1, Nat.le_trans hsize hc.2⟩

theorem superclass (name : String) (expr : Datum) :
    Evolves may w (superclass name expr) fun t v => v.Knows t := by
  rw [CheckM.superclass]
  refine (classNamed name expr).bind fun c v _ _ hc => pure (.inl ?_)
  obtain ⟨row, ancestors⟩ := c
  cases ancestors with
  | nil => exact .primitive .null
  | cons parent ancestors =>
      exact .ofClass fun r hr => hc r (List.mem_cons_of_mem _ hr)

theorem fieldType (object : Ty) (field : String) (expr : Datum) :
    Evolves may w (fieldType object field expr) fun t v => v.Knows t := by
  refine wellFormed fun hw => ?_
  rw [CheckM.fieldType]
  split
  · exact reject _
  · refine context_bind ?_
    split
    · next t ht => exact pure (hw.member? ht)
    · exact reject _

theorem constructorOf (className : String) (expr : Datum) :
    Evolves may w (constructorOf className expr) fun cs v => HasTables cs.1 v := by
  rw [CheckM.constructorOf]
  refine (classNamed className expr).bind fun c v _ _ hc => ?_
  refine context_bind ?_
  split
  · exact pure hc
  · exact reject _

theorem acceptEach (expr : Datum) (params : List Ty) (args : List (Datum × Ty)) :
    Evolves may w (acceptEach expr params args) fun _ _ => True := by
  induction params generalizing args w with
  | nil => exact pure trivial
  | cons param params ih =>
      cases args with
      | nil => exact pure trivial
      | cons arg args =>
          rw [CheckM.acceptEach]
          split
          · exact ih args
          · exact (expect _ _ _ _).bind fun _ _ _ _ _ => ih args

theorem acceptArguments (s : Signature) (callee : String) (args : List (Datum × Ty))
    (expr : Datum) : Evolves may w (acceptArguments s callee args expr) fun _ _ => True := by
  rw [CheckM.acceptArguments]
  split
  · exact reject _
  · exact acceptEach expr s.params args

end Evolves

/-- Bodies of templates evolve every world, in a scope where any name can be bound. -/
def BodiesEvolve (may : ScopeId → String → Prop) (inBody : Datum → ScopeId → CheckM Ty) : Prop :=
  ∀ d w s, s.index < w.size → (∀ name, may s name) → w.Unbound may →
    Evolves may w (inBody d s) fun t v => v.Knows t

namespace Evolves

open CheckM

variable {may : ScopeId → String → Prop} {w : World} {inBody : Datum → ScopeId → CheckM Ty}

theorem resolveExpr {e : TypeExpr} (he : e.WellNamed) (expr : Datum) :
    Evolves may w (CheckM.resolveExpr expr e)
      fun t v => v.context.registered? e.shown = some t ∧ w.context.Agrees v.context := by
  intro hw events
  obtain ⟨outcome, c, hrun, hcaches, hagrees, -⟩ :=
    Resolves.resolveExpr he (.refl hw.indexed) expr events
  refine ⟨outcome, ⟨c, w.made⟩, events, hrun,
    .single (step_of_run hrun hcaches hagrees (.resolveExpr he expr)), ?_⟩
  rintro t rfl
  exact ⟨Session.registered?_of_run_resolveExpr he hw.indexed hrun, hagrees⟩

theorem resolveExprs {es : List TypeExpr} (hes : ∀ e ∈ es, e.WellNamed) (expr : Datum) :
    Evolves may w (CheckM.resolveExprs expr es)
      fun ts v => List.Forall₂ (fun e t => v.context.registered? e.shown = some t) es ts ∧
        w.context.Agrees v.context := by
  induction es generalizing w with
  | nil =>
      rw [CheckM.resolveExprs]
      exact pure ⟨.nil, .refl _⟩
  | cons e es ih =>
      rw [CheckM.resolveExprs]
      refine (resolveExpr (hes e (by simp)) expr).bind fun t v _ _ ht => ?_
      refine (ih fun e' he' => hes e' (List.mem_cons_of_mem _ he')).bind fun ts u hu _ hts => pure ?_
      exact ⟨.cons (hu.registered ht.1) hts.1, ht.2.trans hts.2⟩

theorem actualSignature {g : Template} (hg : w.Holds g) {actuals : List TypeExpr}
    (hactuals : ∀ e ∈ actuals, e.WellNamed) (expr : Datum) :
    Evolves may w (actualSignature g actuals expr)
      fun s v => v.context.Settles g actuals s ∧ w.context.Agrees v.context := by
  rw [CheckM.actualSignature]
  refine (resolveExprs ?_ expr).bind fun params v _ _ hparams => ?_
  · intro e he
    obtain ⟨p, hp, rfl⟩ := List.mem_map.mp he
    exact (hg.params p hp).2.substitute_actuals hactuals g.typeParams
  · refine (resolveExpr (hg.result.substitute_actuals hactuals g.typeParams) expr).bind
      fun result u hu _ hresult => pure ?_
    exact ⟨⟨hparams.1.imp fun _ _ hp => hu.registered hp, hresult.1⟩, hparams.2.trans hresult.2⟩

theorem provisionally {key : InstanceKey} {s : Signature} {check : CheckM Unit}
    (hnew : w.context.instance? key = none)
    (hstep : Step may w ⟨w.context.record key s, w.made⟩)
    (hcheck : Evolves may ⟨w.context.record key s, w.made⟩ check fun _ _ => True) :
    Evolves may w (provisionally key s check)
      fun sig v => sig = s ∧ w.Later v ∧ v.context.instance? key = some s := by
  intro hw events
  obtain ⟨outcome, v, events', hrun, hsteps, -⟩ := hcheck (hw.step hstep) events
  have hall : Steps may w v := .head hstep hsteps
  rw [run_provisionally]
  dsimp only
  rw [hrun]
  cases outcome with
  | error halt =>
      exact ⟨.error halt, ⟨v.context.forget key, v.made⟩, events', rfl, .drop hall hnew,
        fun _ ha => nomatch ha⟩
  | ok a =>
      refine ⟨.ok s, v, events', rfl, hall, ?_⟩
      rintro sig hsig
      refine ⟨(Except.ok.inj hsig).symm, hall.later, hsteps.instances ?_⟩
      rw [Context.instance?_record, if_pos rfl]

theorem checkFunctionBody (hbody : BodiesEvolve may inBody) (hmay : w.Unbound may)
    {closure : ScopeId} (hclosure : closure.index < w.size) {bindings : List (Symbol × Ty)}
    (hbindings : ∀ b ∈ bindings, (∃ name, w.Names b.1 name) ∧ w.Knows b.2) (body : Datum)
    (result : Ty) (expr : Datum) :
    Evolves may w (checkFunctionBody inBody closure bindings body result expr)
      fun _ _ => True := by
  rw [CheckM.checkFunctionBody]
  refine (openFunction hclosure hmay hbindings).bind fun scope v hv _ hscope => ?_
  refine (hbody body v scope hscope.1 (fun name => hmay scope name hscope.2)
    (hmay.later hv)).bind fun t _ _ _ _ => ?_
  exact expect _ _ _ _

theorem instantiateAt (hbody : BodiesEvolve may inBody) (hmay : w.Unbound may) {g : Template}
    (hg : g ∈ w.made) {actuals : List TypeExpr} (hactuals : ∀ e ∈ actuals, e.WellNamed)
    (hlength : actuals.length = g.typeParams.length) (expr : Datum) :
    Evolves may w (instantiateAt inBody g actuals ⟨g.id, actuals.map TypeExpr.shown⟩ expr)
      fun s v => s.Written v.size ∧
        v.context.instance? ⟨g.id, actuals.map TypeExpr.shown⟩ = some s := by
  refine wellFormed fun hw => ?_
  rw [CheckM.instantiateAt]
  refine context_bind ?_
  split
  · next s hs => exact pure ⟨(hw.recorded hs).2, hs⟩
  · next hnew =>
      refine (actualSignature (hw.made hg) hactuals expr).bind fun s v hv hvformed hs => ?_
      have hnone : v.context.instance? ⟨g.id, actuals.map TypeExpr.shown⟩ = none := by
        rwa [Context.instance?, hs.2.instances]
      have hgv := hv.made g hg
      have hstep : Step may v ⟨v.context.record ⟨g.id, actuals.map TypeExpr.shown⟩ s, v.made⟩ :=
        .record hgv hactuals hlength hs.1 hnone
      have hwritten := hvformed.settles hs.1
      have hheld := hvformed.made hgv
      have hbindings : ∀ b ∈ (g.params.map Prod.fst).zip s.params,
          (∃ name, v.Names b.1 name) ∧ v.Knows b.2 := by
        intro b hb
        obtain ⟨hsymbol, htype⟩ := List.of_mem_zip hb
        obtain ⟨p, hp, hpb⟩ := List.mem_map.mp hsymbol
        exact ⟨hpb ▸ (hheld.params p hp).1, .inl (hwritten.params _ htype)⟩
      have hunbound := (hmay.later hv).later hstep.later
      refine emit_bind ?_
      refine (provisionally hnone hstep (checkFunctionBody hbody hunbound hheld.closure hbindings
        (actualBody g (actuals.map TypeExpr.shown)) s.result expr)).mono ?_
      rintro sig u - ⟨rfl, hu, hrecorded⟩
      exact ⟨hwritten.mono hu.size, hrecorded⟩

theorem instantiate (hbody : BodiesEvolve may inBody) (hmay : w.Unbound may) {g : Template}
    (hg : g ∈ w.made) (typeList : String) (expr : Datum) :
    Evolves may w (instantiate inBody g typeList expr) fun s v => s.Written v.size := by
  rw [CheckM.instantiate_eq]
  refine (parseTypeList typeList expr).bind fun actuals v hv _ hactuals => ?_
  split
  · exact reject _
  · next hlength =>
      refine (resolveExprs hactuals expr).bind fun types u hu huformed htypes => ?_
      rw [huformed.names_of_registered hactuals htypes.1]
      have hlater := hv.trans hu
      exact (instantiateAt hbody (hmay.later hlater) (hlater.made g hg) hactuals
        (Decidable.not_not.mp hlength) expr).mono fun s _ _ hs => hs.1

theorem calledSignature (hbody : BodiesEvolve may inBody) (hmay : w.Unbound may) {callee : Ty}
    (hcallee : w.Knows callee) (calleeName : String) (typeArgs : Option String) (expr : Datum) :
    Evolves may w (calledSignature inBody callee calleeName typeArgs expr)
      fun s v => s.Written v.size := by
  rcases hcallee with hwritten | ⟨g, hg, rfl⟩
  · rw [CheckM.calledSignature.eq_def]
    split
    · cases hwritten
    · cases hwritten
    · exact reject _
    · split
      · next s hs => exact pure (hwritten.signature? hs)
      · exact reject _
  · cases typeArgs with
    | none => exact reject _
    | some list => exact instantiate hbody hmay hg list expr

end Evolves

end TypedLisp
