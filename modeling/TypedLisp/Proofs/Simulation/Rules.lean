import TypedLisp.Proofs.Operands
import TypedLisp.Proofs.Simulation.Basic

namespace TypedLisp

namespace Ty

mutual

/-- The names of the aliases in a type. -/
def aliases : Ty → List String
  | function params result => aliasesOf params ++ aliases result
  | aliasOf name parent => name :: aliases parent
  | union _ _ options => aliasesOf options
  | primitive _ | ofClass _ | template _ => []

def aliasesOf : List Ty → List String
  | [] => []
  | t :: ts => aliases t ++ aliasesOf ts

end

theorem mem_aliasesOf {ts : List Ty} {name : String} :
    name ∈ aliasesOf ts ↔ ∃ t ∈ ts, name ∈ t.aliases := by
  induction ts with
  | nil => simp [aliasesOf]
  | cons t ts ih => simp [aliasesOf, ih]

/-- Of a template, only its number counts for acceptance, and whether it is shown as an alias is
named. -/
theorem equals_of_like {g g' : Template} (hserial : g'.serial = g.serial) {t : Ty}
    (hshown : ∀ name ∈ t.aliases, name = g'.shown ↔ name = g.shown) :
    (template g').equals t = (template g).equals t ∧
      t.equals (template g') = t.equals (template g) := by
  induction t using inductionThrough with
  | leaf t h => cases h <;> simp [equals, hserial]
  | aliasOf name parent ih =>
      rw [aliases, List.forall_mem_cons] at hshown
      have hname : (name == g'.shown) = (name == g.shown) := by
        rw [Bool.eq_iff_iff, beq_iff_eq, beq_iff_eq, hshown.1]
      simp [equals, Ty.name, hname, ih hshown.2]
  | union id name options ih =>
      have hoptions : someEquals options (template g') = someEquals options (template g) := by
        rw [Bool.eq_iff_iff, someEquals_eq_true_iff, someEquals_eq_true_iff]
        refine exists_congr fun o => and_congr_right fun ho => ?_
        rw [(ih o ho fun name hname => hshown name (mem_aliasesOf.mpr ⟨o, ho, hname⟩)).2]
      simp [equals, hoptions]

end Ty

namespace Template.Like

variable {named : Symbol → Symbol → Prop} {g g' : Template}

theorem shown (h : g.Like named g') : g'.shown = g.shown := by
  rw [Template.shown, Template.shown, h.name, h.typeParams]

theorem symbols (h : g.Like named g') :
    List.Forall₂ named (g.params.map Prod.fst) (g'.params.map Prod.fst) := by
  rw [List.forall₂_map_left_iff, List.forall₂_map_right_iff]
  exact h.params.imp fun _ _ hp => hp.1

theorem writtenTypes (h : g.Like named g') : g'.params.map Prod.snd = g.params.map Prod.snd := by
  have hparams : List.Forall₂ (· = ·) (g.params.map Prod.snd) (g'.params.map Prod.snd) := by
    rw [List.forall₂_map_left_iff, List.forall₂_map_right_iff]
    exact h.params.imp fun _ _ hp => hp.2.symm
  rw [List.forall₂_eq_eq_eq] at hparams
  exact hparams.symm

theorem typesAt (h : g.Like named g') (actuals : List TypeExpr) :
    g'.typesAt actuals = g.typesAt actuals := by
  rw [Template.typesAt, Template.typesAt, h.typeParams, h.writtenTypes, h.result]

theorem actualBody (h : g.Like named g') (names : List String) :
    CheckM.actualBody g' names = CheckM.actualBody g names := by
  rw [CheckM.actualBody, CheckM.actualBody, h.body, h.typeParams]

end Template.Like

/-- What is read from the first text is related to what is read from the second. -/
def TypeExpr.ReadAs (related : TypeExpr → TypeExpr → Prop) (text text' : String) : Prop :=
  ∀ e, parse text = .ok e → ∃ e', parse text' = .ok e' ∧ related e e'

/-- Parameters of one name. -/
def Param.ReadAs (related : TypeExpr → TypeExpr → Prop) (p p' : Param) : Prop :=
  p'.name = p.name ∧ TypeExpr.ReadAs related p.typeText p'.typeText

theorem ClassTy.fields_extending (name : String) (fields : ScopeId) (parent : Option ClassTy) :
    (ClassTy.extending name fields parent).fields = fields := by
  cases parent <;> rfl

namespace CheckM

theorem actualSignature_eq (g : Template) (actuals : List TypeExpr) (expr : Datum) :
    actualSignature g actuals expr = (do
      let params ← resolveExprs expr (g.typesAt actuals).1
      let result ← resolveExpr expr (g.typesAt actuals).2
      return ⟨params, result⟩) := by
  rw [actualSignature, Template.typesAt, List.map_map]
  rfl

theorem rejectUnknownOperator_eq (head expr : Datum) (scope : ScopeId) :
    rejectUnknownOperator head expr scope =
      match head.symbol? with
      | some name => do
          if Word.isOperatorLike name ∧ ((← context).lookup? scope name).isNone then
            reject (.unknownOperator name expr)
      | none => return := by
  cases head <;> rfl

end CheckM

namespace Simulation

open CheckM

variable {S : Simulation} {w v : S.State} {t t' u u' : Ty}

theorem Kindred.id (hS : S.Kindred) {g g' : Template} (hg : S.Kin w g g') : g'.id = g.id :=
  congrArg Template.idOf (hS.serial hg)

theorem Kindred.of_likes
    (hnamed : ∀ {w v x y}, S.Later w v → S.Named w x y → S.Named v x y)
    (hkin : ∀ {w g g'}, S.Kin w g g' ↔ g.Like (S.Named w) g' := by exact Iff.rfl) : S.Kindred where
  later hv h := by
    rw [hkin] at h ⊢
    exact { h with params := h.params.imp fun _ _ hp => ⟨hnamed hv hp.1, hp.2⟩ }
  of_like := hkin.mpr
  serial h := (hkin.mp h).serial
  symbols h := (hkin.mp h).symbols
  closure h := (hkin.mp h).closure
  arity h := congrArg List.length (hkin.mp h).typeParams
  typesAt h _ := (hkin.mp h).typesAt _
  equals _ h _ := Ty.equals_of_like (hkin.mp h).serial fun _ _ => by rw [(hkin.mp h).shown]

theorem readies_of_like {named : Symbol → Symbol → Prop} {g g' : Template} (hg : g.Like named g')
    (hadmits : ∀ u names, S.Later v u → S.Admits u (actualBody g names))
    (hmatches : ∀ {u d}, S.Admits u d → S.Matches u d d := by exact fun h => ⟨rfl, h⟩) :
    S.Readies v g g' := by
  intro _ u key _ _ hu _ _ _
  rw [hg.actualBody]
  exact .inl (hmatches (hadmits u key.actuals hu))

theorem Declares.plain {name : String} (h : S.Declares w name t)
    (halias : ∀ {parent}, S.Plain w parent → S.Plain w (.aliasOf name parent)) : S.Plain w t := by
  rcases h with h | ⟨parent, rfl, h⟩
  · exact h
  · exact halias h

theorem Alike.allowedAs (ht : S.Alike w t t') (op : Operator) :
    t'.allowedAs op.allowed = t.allowedAs op.allowed := by
  rcases ht with ⟨rfl, -⟩ | ⟨g, g', rfl, rfl, -⟩
  · rfl
  · have hequals (k : Template) (p : Primitive) :
        (Ty.template k).equals (.primitive p) = false := by simp [Ty.equals]
    cases op <;> simp [Ty.allowedAs, Operator.allowed, Ty.number, Ty.string, hequals]

theorem Alike.class? (ht : S.Alike w t t') : t'.class? = t.class? := by
  rcases ht with ⟨rfl, -⟩ | ⟨g, g', rfl, rfl, hg⟩
  · rfl
  · simp [Ty.class?]

theorem Alike.signature? (ht : S.Alike w t t') : t'.signature? = t.signature? := by
  rcases ht with ⟨rfl, -⟩ | ⟨g, g', rfl, rfl, hg⟩
  · rfl
  · simp [Ty.signature?]

/-- A list of types that both checkers have. -/
def SharedAll (S : Simulation) (w : S.State) (ts ts' : List Ty) : Prop :=
  ts' = ts ∧ ∀ t ∈ ts, S.Plain w t

theorem sharedAll_of_forall₂ {ts ts' : List Ty} (h : List.Forall₂ (S.Shared w) ts ts') :
    S.SharedAll w ts ts' := by
  induction h with
  | nil => exact ⟨rfl, by simp⟩
  | cons ht _ ih =>
      obtain ⟨rfl, ht⟩ := ht
      obtain ⟨rfl, hts⟩ := ih
      exact ⟨rfl, List.forall_mem_cons.mpr ⟨ht, hts⟩⟩

namespace Lawful

variable (hS : S.Lawful)

include hS

theorem equals (hagrees : S.Agrees w) (ht : S.Alike w t t') (hu : S.Alike w u u') :
    t'.equals u' = t.equals u := by
  rcases ht with ⟨rfl, ht⟩ | ⟨g, g', rfl, rfl, hg⟩ <;>
    rcases hu with ⟨rfl, hu⟩ | ⟨k, k', rfl, rfl, hk⟩
  · rfl
  · exact (hS.kindred.equals hagrees hk.1 ht).2
  · exact (hS.kindred.equals hagrees hg.1 hu).1
  · simp [Ty.equals, hS.kindred.serial hg.1, hS.kindred.serial hk.1]

theorem shared (hv : S.Later w v) (h : S.Shared w t t') : S.Shared v t t' :=
  ⟨h.1, hS.plain hv h.2⟩

theorem plain_class? (ht : S.Plain w t) {c : ClassTy} (hc : t.class? = some c) :
    S.Plain w (.ofClass c) := by
  induction t using Ty.inductionThrough with
  | leaf t hleaf =>
      cases hleaf with
      | ofClass d =>
          obtain rfl : d = c := by simpa [Ty.class?] using hc
          exact ht
      | primitive | function | template => simp [Ty.class?] at hc
  | aliasOf name parent ih => exact ih (hS.plain_aliasOf ht) (by simpa [Ty.class?] using hc)
  | union => simp [Ty.class?] at hc

theorem plain_signature? (ht : S.Plain w t) {s : Signature} (hs : t.signature? = some s) :
    S.Plain w s.toTy := by
  induction t using Ty.inductionThrough with
  | leaf t hleaf =>
      cases hleaf with
      | function params result =>
          obtain rfl : ⟨params, result⟩ = s := by simpa [Ty.signature?] using hs
          exact ht
      | primitive | ofClass | template => simp [Ty.signature?] at hs
  | aliasOf name parent ih => exact ih (hS.plain_aliasOf ht) (by simpa [Ty.signature?] using hs)
  | union => simp [Ty.signature?] at hs

theorem alike_class? (ht : S.Alike w t t') {c : ClassTy} (hc : t.class? = some c) :
    S.Plain w (.ofClass c) := by
  rcases ht with ⟨rfl, ht⟩ | ⟨g, g', rfl, rfl, -⟩
  · exact hS.plain_class? ht hc
  · simp [Ty.class?] at hc

theorem alike_signature? (ht : S.Alike w t t') {s : Signature} (hs : t.signature? = some s) :
    S.Plain w s.toTy := by
  rcases ht with ⟨rfl, ht⟩ | ⟨g, g', rfl, rfl, -⟩
  · exact hS.plain_signature? ht hs
  · simp [Ty.signature?] at hs

end Lawful

namespace Follows

variable (hS : S.Lawful)

include hS

theorem each {α γ : Type} {m m' : γ → CheckM α} (loop loop' : List γ → CheckM (List α))
    (hnil : loop [] = Pure.pure [] ∧ loop' [] = Pure.pure [])
    (hcons : ∀ c cs, (loop (c :: cs) = do
        let first ← m c
        let others ← loop cs
        return first :: others) ∧
      loop' (c :: cs) = do
        let first ← m' c
        let others ← loop' cs
        return first :: others)
    (related : S.State → α → α → Prop)
    (hkept : ∀ {w v a b}, S.Later w v → related w a b → related v a b) {cs cs' : List γ}
    (hm : List.Forall₂ (fun c c' => ∀ v, S.Later w v → S.Follows v (m c) (m' c') related) cs cs') :
    S.Follows w (loop cs) (loop' cs') fun v => List.Forall₂ (related v) := by
  induction cs generalizing w cs' with
  | nil =>
      cases hm
      rw [hnil.1, hnil.2]
      exact pure hS .nil
  | cons c cs ih =>
      obtain ⟨c', cs', hc, hcs, rfl⟩ := List.forall₂_cons_left_iff.mp hm
      rw [(hcons c cs).1, (hcons c' cs').2]
      refine bind hS (hc w (hS.refl w)) fun v first first' hv hfirst => ?_
      refine bind hS (ih (hcs.imp fun _ _ h u hu => h u (hS.trans hv hu)))
        fun u others others' hu hothers => ?_
      exact pure hS (.cons (hkept hu hfirst) hothers)

theorem eachSame {α γ : Type} {m m' : γ → CheckM α} (loop loop' : List γ → CheckM (List α))
    (hnil : loop [] = Pure.pure [] ∧ loop' [] = Pure.pure [])
    (hcons : ∀ c cs, (loop (c :: cs) = do
        let first ← m c
        let others ← loop cs
        return first :: others) ∧
      loop' (c :: cs) = do
        let first ← m' c
        let others ← loop' cs
        return first :: others)
    (related : S.State → α → α → Prop)
    (hkept : ∀ {w v a b}, S.Later w v → related w a b → related v a b) (cs : List γ)
    (hm : ∀ c v, S.Later w v → S.Follows v (m c) (m' c) related) :
    S.Follows w (loop cs) (loop' cs) fun v => List.Forall₂ (related v) :=
  each hS loop loop' hnil hcons related hkept (List.forall₂_same.mpr fun c _ => hm c)

theorem lookup {s : ScopeId} (hs : S.Opens w s) (name : String) (expr expr' : Datum) :
    S.Follows w (lookup s name expr) (lookup s name expr') S.Alike := by
  refine context_bind ?_
  cases h : (S.here w).lookup? s name with
  | some t =>
      obtain ⟨t', ht', halike⟩ := hS.lookup? hs h
      rw [ht']
      exact pure hS halike
  | none =>
      refine throw hS (fun lacking hlacking => ?_) _ _
      obtain rfl := Option.some.inj hlacking
      exact hS.lookup?_none hs h

theorem parseType {related : TypeExpr → TypeExpr → Prop} {text text' : String}
    (h : TypeExpr.ReadAs related text text') (expr expr' : Datum) :
    S.Follows w (parseType text expr) (parseType text' expr') fun _ => related := by
  rw [CheckM.parseType, CheckM.parseType]
  split
  · next e he =>
      obtain ⟨e', he', hrelated⟩ := h e he
      rw [he']
      exact pure hS hrelated
  · exact reject hS rfl _ _

theorem parseTypeList {related : List TypeExpr → List TypeExpr → Prop} {text text' : String}
    (h : ∀ es, TypeExpr.parseList? text = some (.ok es) →
      ∃ es', TypeExpr.parseList? text' = some (.ok es') ∧ related es es')
    (expr expr' : Datum) :
    S.Follows w (parseTypeList text expr) (parseTypeList text' expr') fun _ => related := by
  rw [CheckM.parseTypeList, CheckM.parseTypeList]
  split
  · next es hes =>
      obtain ⟨es', hes', hrelated⟩ := h es hes
      rw [hes']
      exact pure hS hrelated
  · exact reject hS rfl _ _
  · exact reject hS rfl _ _

theorem registered {α β : Type} {text : String} {found : Ty → CheckM α} {found' : Ty → CheckM β}
    {missing : CheckM α} {missing' : CheckM β} {post : S.State → α → β → Prop}
    (hfound : ∀ t, (S.here w).registered? text = some t → S.Plain w t →
      S.Follows w (found t) (found' t) post)
    (hmissing : (S.here w).registered? text = none → S.Follows w missing missing' post) :
    S.Follows w
      (do match (← CheckM.context).registered? text with
          | some t => found t
          | none => missing)
      (do match (← CheckM.context).registered? text with
          | some t => found' t
          | none => missing') post := by
  refine context_bind ?_
  rw [hS.registered? w text]
  cases h : (S.here w).registered? text with
  | some t => exact hfound t h (hS.plain_registered h)
  | none => exact hmissing h

theorem cache {text : String} (htext : TypeExpr.IsFunctionText text) (ht : S.Plain w t) :
    S.Follows w (CheckM.change fun c => c.cache text t) (CheckM.change fun c => c.cache text t)
      S.Shared :=
  change (hS.cache htext ht)

mutual

theorem resolveExpr (expr expr' : Datum) (w : S.State) : ∀ e,
    S.Follows w (resolveExpr expr e) (resolveExpr expr' e) S.Shared
  | .named name => by
      rw [CheckM.resolveExpr, CheckM.resolveExpr]
      exact registered hS (fun t _ ht => pure hS ⟨rfl, ht⟩) fun _ => reject hS rfl _ _
  | .function params result => by
      rw [CheckM.resolveExpr, CheckM.resolveExpr]
      refine registered hS (fun t _ ht => pure hS ⟨rfl, ht⟩) fun _ => ?_
      refine bind hS (resolveExprs expr expr' w params) fun v _ ps hv hps => ?_
      obtain ⟨⟨rfl, hps⟩, -⟩ := hps
      refine bind hS (resolveExpr expr expr' v result) fun u _ r hu hr => ?_
      obtain ⟨rfl, hr⟩ := hr
      refine cache hS ⟨params, result, .inl rfl⟩ (hS.plain_function.mpr ⟨?_, hr⟩)
      exact fun p hp => hS.plain hu (hps p hp)

theorem resolveExprs (expr expr' : Datum) (w : S.State) : ∀ es,
    S.Follows w (resolveExprs expr es) (resolveExprs expr' es)
      fun v ts ts' => S.SharedAll v ts ts' ∧ ts.length = es.length
  | [] => by
      rw [CheckM.resolveExprs, CheckM.resolveExprs]
      exact pure hS ⟨⟨rfl, by simp⟩, rfl⟩
  | e :: es => by
      rw [CheckM.resolveExprs, CheckM.resolveExprs]
      refine bind hS (resolveExpr expr expr' w e) fun v _ first hv hfirst => ?_
      obtain ⟨rfl, hfirst⟩ := hfirst
      refine bind hS (resolveExprs expr expr' v es) fun u _ others hu hothers => ?_
      obtain ⟨⟨rfl, hothers⟩, hlength⟩ := hothers
      refine pure hS ⟨⟨rfl, List.forall_mem_cons.mpr ⟨hS.plain hu hfirst, hothers⟩⟩, ?_⟩
      rw [List.length_cons, List.length_cons, hlength]

end

theorem resolve (text : String) (expr expr' : Datum) :
    S.Follows w (resolve text expr) (resolve text expr') S.Shared := by
  refine registered hS (fun t _ ht => pure hS ⟨rfl, ht⟩) fun _ => ?_
  have hread (e : TypeExpr) (he : TypeExpr.parse text = .ok e) :
      ∃ e', TypeExpr.parse text = .ok e' ∧ e' = e ∧ TypeExpr.parse text = .ok e :=
    ⟨e, he, rfl, he⟩
  refine bind hS (parseType hS hread expr expr') fun v _ parsed _ hparsed => ?_
  obtain ⟨rfl, hparse⟩ := hparsed
  refine bind hS (resolveExpr hS expr expr' v parsed) fun u _ t _ ht => ?_
  obtain ⟨rfl, ht⟩ := ht
  cases parsed with
  | named name => exact pure hS ⟨rfl, ht⟩
  | function params result =>
      refine bind hS (cache hS ⟨params, result, .inr hparse⟩ ht) fun x _ _ hx _ => ?_
      exact pure hS ⟨rfl, hS.plain hx ht⟩

theorem resolveAll (expr expr' : Datum) (texts : List String) :
    S.Follows w (resolveAll expr texts) (resolveAll expr' texts) S.SharedAll :=
  (eachSame hS (CheckM.resolveAll expr) (CheckM.resolveAll expr') ⟨rfl, rfl⟩
    (fun _ _ => ⟨rfl, rfl⟩) S.Shared hS.shared texts
    fun text _ _ => resolve hS text expr expr').mono fun _ _ _ _ => sharedAll_of_forall₂

theorem expect (ht : S.Alike w t t') (hu : S.Alike w u u') (expr expr' within within' : Datum) :
    S.Follows w (expect t u expr within) (expect t' u' expr' within') fun _ _ _ => True := by
  rw [CheckM.expect, CheckM.expect]
  by_cases haccepted : t.equals u = true
  · rw [if_pos haccepted]
    refine ⟨fun hrun => ?_, fun hrun => by cases hrun⟩
    obtain ⟨-, rfl⟩ := Prod.mk.inj hrun
    refine ⟨(), w, rfl, fun hagrees => ?_, hS.refl w, trivial⟩
    rw [hS.equals hagrees ht hu, if_pos haccepted]
    rfl
  · rw [if_neg haccepted]
    exact reject hS rfl _ _

theorem operate (op : Operator) (left left' right right' : Datum) (ht : S.Alike w t t')
    (hu : S.Alike w u u') (expr expr' : Datum) :
    S.Follows w (operate op left right t u expr) (operate op left' right' t' u' expr')
      S.Alike := by
  refine context_bind ?_
  dsimp only
  rw [ht.allowedAs]
  -- The second checker may be the less strict one: what passes the first passes the second.
  by_cases hrefused : (!op.isComparison && (S.here w).options.strictOperands &&
      !t.allowedAs op.allowed) = true
  · rw [if_pos hrefused]
    exact reject hS rfl _ _
  · have hpassed : ¬(!op.isComparison && (S.there w).options.strictOperands &&
        !t.allowedAs op.allowed) = true := by
      simp only [Bool.and_eq_true, not_and] at hrefused ⊢
      exact fun hop => hrefused ⟨hop.1, hS.strict w hop.2⟩
    rw [if_neg hrefused, if_neg hpassed]
    refine bind hS (expect hS hu ht right right' expr expr') fun v _ _ hv _ => pure hS ?_
    split
    · exact alike_of_plain (hS.plain_primitive v .boolean)
    · exact hS.alike hv ht

theorem define {s : ScopeId} (hs : S.Opens w s) (name : String) (ht : S.Alike w t t') :
    S.Follows w (define s name t) (define s name t') S.Alike := by
  have hmoves : S.Moves w ((S.here w).define s name t) ((S.there w).define s name t')
      fun _ => True := by
    refine hS.moves_trans (fun c => c.bind s ((S.here w).intern name).1 t)
      (fun c => c.bind s ((S.there w).intern name).1 t') (hS.intern w name) fun v hv hnamed => ?_
    exact hS.bind (hS.opens hv hs) hnamed (hS.alike hv ht)
  refine bind hS (update hmoves) fun v _ _ hv _ => pure hS ?_
  exact hS.alike hv ht

theorem declareVar (name : String) (typeText : Option String) (value value' : Datum)
    (ht : S.Alike w t t') (expr expr' : Datum) {s : ScopeId} (hs : S.Opens w s) :
    S.Follows w (declareVar name typeText value t expr s)
      (declareVar name typeText value' t' expr' s) S.Alike := by
  cases typeText with
  | none => exact define hS hs name ht
  | some text =>
      refine bind hS (resolve hS text expr expr') fun v declared declared' hv hdeclared => ?_
      refine bind hS (expect hS (hS.alike hv ht) (.inl hdeclared) value value' expr expr')
        fun u _ _ hu _ => ?_
      exact define hS (hS.opens (hS.trans hv hu) hs) name (hS.alike hu (.inl hdeclared))

theorem child {s : ScopeId} (hs : S.Opens w s) :
    S.Follows w (CheckM.change fun c => c.child s) (CheckM.change fun c => c.child s)
      fun v q q' => q' = q ∧ S.Opens v q :=
  change (hS.child hs)

theorem narrow {condition condition' : Datum}
    (hcondition : narrowing? condition' = narrowing? condition) {s : ScopeId} (hs : S.Opens w s) :
    S.Follows w (narrow condition s) (narrow condition' s) fun v q q' => q' = q ∧ S.Opens v q := by
  rw [CheckM.narrow.eq_def, CheckM.narrow.eq_def, hcondition]
  split
  · exact pure hS ⟨rfl, hs⟩
  · next name text _ =>
      refine bind hS (resolve hS text condition condition') fun v _ t hv ht => ?_
      obtain ⟨rfl, ht⟩ := ht
      refine bind hS (child hS (hS.opens hv hs)) fun u _ branch hu hbranch => ?_
      obtain ⟨rfl, hbranch⟩ := hbranch
      refine bind hS (emit_same hS _) fun x _ _ hx _ => ?_
      refine bind hS (define hS (hS.opens hx hbranch) name
        (alike_of_plain (hS.plain (hS.trans hu hx) ht))) fun y _ _ hy _ => ?_
      exact pure hS ⟨rfl, hS.opens (hS.trans hx hy) hbranch⟩

theorem signature {parts parts' : FunctionParts} (hparams : parts'.params = parts.params)
    (hresult : parts'.resultText = parts.resultText) (expr expr' : Datum) :
    S.Follows w (signature parts expr) (signature parts' expr')
      fun v s s' => s' = s ∧ S.Plain v s.toTy := by
  rw [CheckM.signature, CheckM.signature, hparams, hresult]
  refine bind hS (resolveAll hS expr expr' _) fun v _ params _ hparams => ?_
  obtain ⟨rfl, hparams⟩ := hparams
  refine bind hS (resolve hS _ expr expr') fun u _ result hu hresult => ?_
  obtain ⟨rfl, hresult⟩ := hresult
  refine pure hS ⟨rfl, hS.plain_function.mpr ⟨fun p hp => hS.plain hu (hparams p hp), hresult⟩⟩

theorem intern (name : String) :
    S.Follows w (CheckM.change fun c => c.intern name) (CheckM.change fun c => c.intern name)
      S.Named :=
  change (hS.intern w name)

theorem internAll (names : List String) :
    S.Follows w (internAll names) (internAll names) fun v => List.Forall₂ (S.Named v) :=
  eachSame hS CheckM.internAll CheckM.internAll ⟨rfl, rfl⟩ (fun _ _ => ⟨rfl, rfl⟩) S.Named hS.named
    names fun name _ _ => intern hS name

theorem moves_bindAll {s : ScopeId} (hs : S.Opens w s) {symbols symbols' : List Symbol}
    (hsymbols : List.Forall₂ (S.Named w) symbols symbols') {types : List Ty}
    (htypes : ∀ t ∈ types, S.Plain w t) :
    S.Moves w ((symbols.zip types).foldl (fun c (x, t) => c.bind s x t) (S.here w))
      ((symbols'.zip types).foldl (fun c (x, t) => c.bind s x t) (S.there w)) fun _ => True := by
  induction types generalizing w symbols symbols' with
  | nil =>
      rw [List.zip_nil_right, List.zip_nil_right]
      exact hS.moves_refl
  | cons t types ih =>
      cases hsymbols with
      | nil => exact hS.moves_refl
      | @cons x y symbols symbols' hxy hsymbols =>
          obtain ⟨ht, htypes⟩ := List.forall_mem_cons.mp htypes
          refine hS.moves_trans (fun c => (symbols.zip types).foldl (fun c (x, t) => c.bind s x t) c)
            (fun c => (symbols'.zip types).foldl (fun c (x, t) => c.bind s x t) c)
            (hS.bind hs hxy (alike_of_plain ht)) fun v hv _ => ?_
          exact ih (hS.opens hv hs) (hsymbols.imp fun _ _ => hS.named hv)
            fun t ht => hS.plain hv (htypes t ht)

theorem openFunction {closure : ScopeId} (hclosure : S.Opens w closure)
    {symbols symbols' : List Symbol} (hsymbols : List.Forall₂ (S.Named w) symbols symbols')
    {types : List Ty} (htypes : ∀ t ∈ types, S.Plain w t) :
    S.Follows w (openFunction closure (symbols.zip types))
      (openFunction closure (symbols'.zip types)) fun v q q' => q' = q ∧ S.Opens v q := by
  refine bind hS (child hS hclosure) fun v _ scope hv hscope => ?_
  obtain ⟨rfl, hscope⟩ := hscope
  refine bind hS (update (moves_bindAll hS hscope (hsymbols.imp fun _ _ => hS.named hv)
    fun t ht => hS.plain hv (htypes t ht))) fun u _ _ hu _ => ?_
  exact pure hS ⟨rfl, hS.opens hu hscope⟩

theorem templateParams {related : TypeExpr → TypeExpr → Prop} (expr expr' : Datum)
    {params params' : List Param} (hparams : List.Forall₂ (Param.ReadAs related) params params') :
    S.Follows w (templateParams expr params) (templateParams expr' params') fun v =>
      List.Forall₂ fun p p' => S.Named v p.1 p'.1 ∧ related p.2 p'.2 := by
  induction params generalizing w params' with
  | nil =>
      cases hparams
      exact pure hS .nil
  | cons p params ih =>
      obtain ⟨p', params', hp, hrest, rfl⟩ := List.forall₂_cons_left_iff.mp hparams
      refine bind hS (parseType hS hp.2 expr expr') fun v e e' _ he => ?_
      rw [hp.1]
      refine bind hS (intern hS p.name) fun u x y _ hxy => ?_
      refine bind hS (ih hrest) fun z others others' hz hothers => ?_
      exact pure hS (.cons ⟨hS.named hz hxy, he⟩ hothers)

theorem newTemplate :
    S.Follows w (CheckM.change Context.newTemplate) (CheckM.change Context.newTemplate)
      fun _ id id' => id' = id :=
  change (hS.newTemplate w)

theorem makeTemplate {parts parts' : FunctionParts} (called : List String → List String → Prop)
    (related : TypeExpr → TypeExpr → Prop) (name : String) {typeList typeList' : String}
    (hlist : ∀ es, TypeExpr.parseList? typeList = some (.ok es) →
      ∃ es', TypeExpr.parseList? typeList' = some (.ok es') ∧ ∀ names, plainNames? es = some names →
        ∃ names', plainNames? es' = some names' ∧ called names names')
    (hparams : List.Forall₂ (Param.ReadAs related) parts.params parts'.params)
    (hresult : TypeExpr.ReadAs related parts.resultText parts'.resultText) {closure : ScopeId}
    (hkin : ∀ {v id names names' params params' result result'}, called names names' →
      List.Forall₂ (fun p p' => S.Named v p.1 p'.1 ∧ related p.2 p'.2) params params' →
      related result result' →
      S.Kin v ⟨id, name, names, params, result, parts.body, closure⟩
        ⟨id, name, names', params', result', parts'.body, closure⟩)
    (expr expr' : Datum) (hclosure : S.Opens w closure) :
    S.Follows w (makeTemplate name typeList parts expr closure)
      (makeTemplate name typeList' parts' expr' closure) S.Alike := by
  rw [CheckM.makeTemplate, CheckM.makeTemplate]
  refine bind hS (parseTypeList hS hlist expr expr') fun v es es' hv hnames => ?_
  cases hplain : plainNames? es with
  | none => exact reject hS rfl _ _
  | some names =>
      obtain ⟨names', hplain', hcalled⟩ := hnames names hplain
      rw [hplain']
      refine bind hS (templateParams hS expr expr' hparams) fun u params params' hu hparams => ?_
      refine bind hS (parseType hS hresult expr expr') fun x result result' hx hresult => ?_
      refine bind hS (newTemplate hS) fun y _ id hy hid => ?_
      subst hid
      refine pure hS (.inr ⟨_, _, rfl, rfl, hkin hcalled ?_ hresult, ?_⟩)
      · exact hparams.imp fun _ _ hp => ⟨hS.named (hS.trans hx hy) hp.1, hp.2⟩
      · exact hS.opens (hS.trans hv (hS.trans hu (hS.trans hx hy))) hclosure

theorem ensureUndeclared (name : String) (expr expr' : Datum) :
    S.Follows w (ensureUndeclared name expr) (ensureUndeclared name expr') fun _ _ _ => True :=
  registered hS (fun _ _ _ => reject hS rfl _ _) fun _ => pure hS trivial

theorem declare {name : String} (hname : S.MayDeclare w name) (ht : S.Declares w name t)
    (expr expr' : Datum) :
    S.Follows w (declare name t expr) (declare name t expr') fun v _ _ => S.Plain v t := by
  have hchange : S.Follows w (CheckM.change fun c => c.declare name t)
      (CheckM.change fun c => c.declare name t)
      fun v existing existing' => existing = none → existing' = none ∧ S.Plain v t :=
    change (hS.declare hname ht)
  refine bind hS hchange fun v existing existing' _ hexisting => ?_
  cases existing with
  | some existing => exact reject hS rfl _ _
  | none =>
      obtain ⟨rfl, ht⟩ := hexisting rfl
      exact pure hS ht

/-- An unknown type is an unknown base; other reasons stay. -/
def baseReason : Halt → Halt
  | .rejected (.unknownType name e) => .rejected (.unknownBaseType name e)
  | halt => halt

omit hS in
theorem undefined?_baseReason (halt : Halt) : (baseReason halt).undefined? = halt.undefined? := by
  rw [baseReason.eq_def]
  split <;> rfl

theorem resolveBase (text : String) (expr expr' : Datum) :
    S.Follows w (resolveBase text expr) (resolveBase text expr') S.Shared := by
  refine rethrow baseReason (resolve hS text expr expr') (fun halt σ => ?_)
    fun halt name hname => ?_
  · cases halt with
    | rejected e => cases e <;> rfl
    | tooDeep => rfl
  · rwa [undefined?_baseReason] at hname

theorem resolveBases (expr expr' : Datum) (texts : List String) :
    S.Follows w (resolveBases expr texts) (resolveBases expr' texts) S.SharedAll :=
  (eachSame hS (CheckM.resolveBases expr) (CheckM.resolveBases expr') ⟨rfl, rfl⟩
    (fun _ _ => ⟨rfl, rfl⟩) S.Shared hS.shared texts
    fun text _ _ => resolveBase hS text expr expr').mono fun _ _ _ _ => sharedAll_of_forall₂

theorem baseType (name : String) (base : TypeBase) (expr expr' : Datum) :
    S.Follows w (baseType name base expr) (baseType name base expr')
      fun v t t' => t' = t ∧ S.Declares v name t := by
  cases base with
  | aliasOf text =>
      refine bind hS (resolveBase hS text expr expr') fun v _ parent _ hparent => ?_
      obtain ⟨rfl, hparent⟩ := hparent
      exact pure hS ⟨rfl, .inr ⟨parent, rfl, hparent⟩⟩
  | union texts =>
      refine bind hS (resolveBases hS expr expr' texts) fun v _ options _ hoptions => ?_
      obtain ⟨rfl, hoptions⟩ := hoptions
      refine context_bind (pure hS ⟨?_, .inl (hS.plain_union hoptions)⟩)
      rw [hS.registrySize v]

theorem declareType {name : String} (hname : S.MayDeclare w name) (base : TypeBase)
    (expr expr' : Datum) :
    S.Follows w (declareType name base expr) (declareType name base expr') S.Alike := by
  refine bind hS (ensureUndeclared hS name expr expr') fun v _ _ hv _ => ?_
  refine bind hS (baseType hS name base expr expr') fun u _ t hu ht => ?_
  obtain ⟨rfl, ht⟩ := ht
  refine bind hS (declare hS (hS.mayDeclare (hS.trans hv hu) hname) ht expr expr')
    fun x _ _ hx ht => ?_
  refine bind hS (emit_same hS _) fun y _ _ hy _ => pure hS ?_
  exact alike_of_plain (hS.plain hy ht)

theorem classNamed (name : String) (expr expr' : Datum) :
    S.Follows w (classNamed name expr) (classNamed name expr')
      fun v c c' => c' = c ∧ S.Plain v (.ofClass c) := by
  refine context_bind ?_
  rw [hS.registered? w name]
  cases h : (S.here w).registered? name with
  | none => exact reject hS rfl _ _
  | some t =>
      dsimp only
      split
      · next c hc => exact pure hS ⟨rfl, hS.plain_class? (hS.plain_registered h) hc⟩
      · exact reject hS rfl _ _

theorem parentNamed (superclass : String) (expr expr' : Datum) :
    S.Follows w (parentNamed superclass expr) (parentNamed superclass expr')
      fun v p p' => p' = p ∧ ∀ c ∈ p, S.Plain v (.ofClass c) := by
  rw [CheckM.parentNamed, CheckM.parentNamed]
  split
  · exact pure hS ⟨rfl, by simp⟩
  · refine bind hS (classNamed hS superclass expr expr') fun v _ c _ hc => ?_
    obtain ⟨rfl, hc⟩ := hc
    exact pure hS ⟨rfl, by simpa using hc⟩

theorem memberTable {parent : Option ClassTy} (hparent : ∀ c ∈ parent, S.Plain w (.ofClass c))
    (name : String) {s : ScopeId} (hs : S.Opens w s) :
    S.Follows w (CheckM.change fun c => c.memberTable (parent.map ClassTy.fields) s)
      (CheckM.change fun c => c.memberTable (parent.map ClassTy.fields) s) fun v fields fields' =>
        fields' = fields ∧ S.Opens v fields ∧
          S.Plain v (.ofClass (.extending name fields parent)) :=
  change (hS.memberTable name hs hparent)

theorem declareBelow {name : String} (hname : S.MayDeclare w name) {parent : Option ClassTy}
    (hparent : ∀ c ∈ parent, S.Plain w (.ofClass c)) (superclass : String) (expr expr' : Datum)
    {s : ScopeId} (hs : S.Opens w s) :
    S.Follows w (declareBelow name parent superclass expr s)
      (declareBelow name parent superclass expr' s)
      fun v c c' => c' = c ∧ S.Opens v c.fields ∧ S.Plain v (.ofClass c) := by
  refine bind hS (memberTable hS hparent name hs) fun v _ fields hv hfields => ?_
  obtain ⟨rfl, hfields, hclass⟩ := hfields
  refine bind hS (declare hS (hS.mayDeclare hv hname) (.inl hclass) expr expr')
    fun u _ _ hu _ => ?_
  refine bind hS (define hS (hS.opens (hS.trans hv hu) hs) name
    (alike_of_plain (hS.plain hu hclass))) fun x _ _ hx _ => ?_
  refine bind hS (emit_same hS _) fun y _ _ hy _ => pure hS ?_
  have hlater := hS.trans hu (hS.trans hx hy)
  refine ⟨rfl, ?_, hS.plain hlater hclass⟩
  rw [ClassTy.fields_extending]
  exact hS.opens hlater hfields

theorem declareClass {name : String} (hname : S.MayDeclare w name) (superclass : String)
    (expr expr' : Datum) {s : ScopeId} (hs : S.Opens w s) :
    S.Follows w (declareClass name superclass expr s) (declareClass name superclass expr' s)
      fun v c c' => c' = c ∧ S.Opens v c.fields ∧ S.Plain v (.ofClass c) := by
  rw [declareClass_eq, declareClass_eq]
  refine bind hS (ensureUndeclared hS name expr expr') fun v _ _ hv _ => ?_
  refine bind hS (parentNamed hS superclass expr expr') fun u _ parent hu hparent => ?_
  obtain ⟨rfl, hparent⟩ := hparent
  have hlater := hS.trans hv hu
  exact declareBelow hS (hS.mayDeclare hlater hname) hparent superclass expr expr'
    (hS.opens hlater hs)

theorem superclass (name : String) (expr expr' : Datum) :
    S.Follows w (superclass name expr) (superclass name expr') S.Alike := by
  refine bind hS (classNamed hS name expr expr') fun v _ c _ hc => ?_
  obtain ⟨rfl, hc⟩ := hc
  refine pure hS (alike_of_plain ?_)
  split
  · next parent hparent => exact hS.plain_superclass hc hparent
  · exact hS.plain_primitive v .null

theorem fieldType (ht : S.Alike w t t') (field : String) (expr expr' : Datum) :
    S.Follows w (fieldType t field expr) (fieldType t' field expr') S.Alike := by
  rw [CheckM.fieldType.eq_def, CheckM.fieldType.eq_def, ht.class?]
  cases hc : t.class? with
  | none => exact reject hS rfl _ _
  | some c =>
      refine context_bind ?_
      cases h : (S.here w).member? c.fields field with
      | none => exact reject hS rfl _ _
      | some u =>
          obtain ⟨u', hu', halike⟩ := hS.member? (hS.alike_class? ht hc) h
          rw [hu']
          exact pure hS halike

theorem constructorOf (className : String) (expr expr' : Datum) :
    S.Follows w (constructorOf className expr) (constructorOf className expr')
      fun v p p' => p' = p ∧ S.Plain v (.ofClass p.1) ∧ S.Plain v p.2.toTy := by
  refine bind hS (classNamed hS className expr expr') fun v _ c _ hc => ?_
  obtain ⟨rfl, hc⟩ := hc
  refine context_bind ?_
  cases h : (S.here v).member? c.fields constructorName with
  | none => exact reject hS rfl _ _
  | some t =>
      obtain ⟨t', ht', halike⟩ := hS.member? hc h
      rw [ht', Option.bind_some, Option.bind_some, halike.signature?]
      cases hs : t.signature? with
      | none => exact reject hS rfl _ _
      | some s => exact pure hS ⟨rfl, hc, hS.alike_signature? halike hs⟩

theorem acceptEach (expr expr' : Datum) {params : List Ty} (hparams : ∀ p ∈ params, S.Plain w p)
    {args args' : List (Datum × Ty)}
    (hargs : List.Forall₂ (fun a a' => S.Alike w a.2 a'.2) args args') :
    S.Follows w (acceptEach expr params args) (acceptEach expr' params args')
      fun _ _ _ => True := by
  induction params generalizing w args args' with
  | nil => exact pure hS trivial
  | cons param params ih =>
      cases hargs with
      | nil => exact pure hS trivial
      | @cons arg arg' args args' harg hargs =>
          obtain ⟨hparam, hparams⟩ := List.forall_mem_cons.mp hparams
          rw [CheckM.acceptEach, CheckM.acceptEach]
          dsimp only
          split
          · exact ih hparams hargs
          · refine bind hS (expect hS harg (alike_of_plain hparam) _ _ expr expr')
              fun v _ _ hv _ => ?_
            exact ih (fun p hp => hS.plain hv (hparams p hp))
              (hargs.imp fun _ _ ha => hS.alike hv ha)

theorem acceptArguments {s : Signature} (hs : S.Plain w s.toTy) (callee callee' : String)
    {args args' : List (Datum × Ty)}
    (hargs : List.Forall₂ (fun a a' => S.Alike w a.2 a'.2) args args') (expr expr' : Datum) :
    S.Follows w (acceptArguments s callee args expr) (acceptArguments s callee' args' expr')
      fun _ _ _ => True := by
  rw [CheckM.acceptArguments, CheckM.acceptArguments, hargs.length_eq]
  split
  · exact reject hS rfl _ _
  · exact acceptEach hS expr expr' (hS.plain_function.mp hs).1 hargs

theorem rejectUnknownOperator {head head' : Datum} (hhead : head'.symbol? = head.symbol?)
    (expr expr' : Datum) {s : ScopeId} (hs : S.Opens w s) :
    S.Follows w (rejectUnknownOperator head expr s) (rejectUnknownOperator head' expr' s)
      fun _ _ _ => True := by
  rw [rejectUnknownOperator_eq, rejectUnknownOperator_eq, hhead]
  cases head.symbol? with
  | some name =>
      refine context_bind ?_
      cases h : (S.here w).lookup? s name with
      | some t =>
          -- What the first checker has bound, the second has.
          obtain ⟨t', ht', -⟩ := hS.lookup? hs h
          simpa [ht'] using pure hS trivial
      | none =>
          by_cases hop : Word.isOperatorLike name = true
          · simp only [hop, Option.isNone_none, and_self, if_true]
            refine throw hS (fun lacking hlacking => ?_) _ _
            obtain rfl := Option.some.inj hlacking
            exact hS.lookup?_none hs h
          · simpa [hop] using pure hS trivial
  | none => exact pure hS trivial

end Follows

end Simulation

end TypedLisp
