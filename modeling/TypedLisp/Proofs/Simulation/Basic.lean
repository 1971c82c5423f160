import Mathlib.Data.List.Forall2
import TypedLisp.Proofs.Run

/-!
Two checkers side by side. A check reads and changes contexts by a handful of operations only. So a
relation between two contexts that each of these operations keeps is kept by every check, and what
the first checker accepts, the second accepts with a result that is related.

The two may be given expressions that differ. Then it can turn out on the way that the second
checker no longer answers as the first does; what it would hold is still kept up, so that the first
is described to its end.

With two checkers that are the same, this is a way to show that all checks keep an invariant; then
what a stopped check leaves counts as well.
-/

namespace TypedLisp

/-- A text that stands for a function type: the written form of one, or a text read as one. -/
def TypeExpr.IsFunctionText (text : String) : Prop :=
  ∃ params result, text = (TypeExpr.function params result).shown ∨
    TypeExpr.parse text = .ok (.function params result)

/-- The name that a form declares as a type. -/
def Form.declaredType? : Form → Option String
  | .typeDecl n _ | .classDecl n _ _ => some n
  | _ => none

/-- A type of a name is declared by an expression or by one inside it. -/
inductive DeclaresType : Datum → String → Prop where
  | here {d : Datum} {f : Form} {name : String} (hd : Form.classify d = .ok f)
      (hname : f.declaredType? = some name) : DeclaresType d name
  | inside {d part : Datum} {f : Form} {name : String} (hd : Form.classify d = .ok f)
      (hpart : part ∈ f.parts) (h : DeclaresType part name) : DeclaresType d name

/-- The name, or the operator, that a check was stopped for as nothing is bound to it. -/
def Halt.undefined? : Halt → Option String
  | .rejected (.undefinedName name _) | .rejected (.unknownOperator name _) => some name
  | _ => none

/-- Templates that differ in the symbols of their parameters at most. -/
structure Template.Like (named : Symbol → Symbol → Prop) (g g' : Template) : Prop where
  serial : g'.serial = g.serial
  name : g'.name = g.name
  typeParams : g'.typeParams = g.typeParams
  params : List.Forall₂ (fun p p' => named p.1 p'.1 ∧ p'.2 = p.2) g.params g'.params
  result : g'.result = g.result
  body : g'.body = g.body
  closure : g'.closure = g.closure

theorem Template.Like.eq {named : Symbol → Symbol → Prop} {g g' : Template} (h : g.Like named g')
    (hnamed : ∀ {x y}, named x y → y = x) : g' = g := by
  obtain ⟨hserial, hname, htypeParams, hparams, hresult, hbody, hclosure⟩ := h
  have hsame : g.params = g'.params := by
    rw [← List.forall₂_eq_eq_eq]
    exact hparams.imp fun _ _ hp => Prod.ext (hnamed hp.1).symm hp.2.symm
  cases g
  cases g'
  simp_all

/-- The sessions of two checkers that belong together, and what is known of them. -/
structure Simulation where
  State : Type
  left : State → Session
  right : State → Session
  /-- All that is known in a state is known in a later one. -/
  Later : State → State → Prop
  /-- A scope that checks can start in. -/
  Opens : State → ScopeId → Prop
  /-- Symbols of one name. -/
  Named : State → Symbol → Symbol → Prop
  /-- A type that is the same for both. -/
  Plain : State → Ty → Prop
  /-- A name under which a type can be declared. -/
  MayDeclare : State → String → Prop
  /-- A name that can be reported as undefined. -/
  MayLack : State → String → Prop
  /-- What a stopped check leaves counts. -/
  Tracked : Prop
  /-- Expressions that the checkers are given for each other. -/
  Matches : State → Datum → Datum → Prop := fun w d d' =>
    d' = d ∧ ∀ name, DeclaresType d name → MayDeclare w name
  /-- Templates that the checkers have for each other. -/
  Kin : State → Template → Template → Prop := fun w => Template.Like (Named w)
  /-- The second checker has answered as the first. -/
  Agrees : State → Prop := fun _ => True

/-- The written types of a template, parameters and result, at actual types. -/
def Template.typesAt (g : Template) (actuals : List TypeExpr) : List TypeExpr × TypeExpr :=
  ((g.params.map Prod.snd).map (TypeExpr.substitute fun name =>
      lastPaired? name g.typeParams actuals),
    g.result.substitute fun name => lastPaired? name g.typeParams actuals)

namespace Simulation

variable (S : Simulation)

abbrev here (w : S.State) : Context := (S.left w).context

abbrev there (w : S.State) : Context := (S.right w).context

def Admits (w : S.State) (d : Datum) : Prop :=
  ∀ name, DeclaresType d name → S.MayDeclare w name

def Made (w : S.State) (g g' : Template) : Prop :=
  S.Kin w g g' ∧ S.Opens w g.closure

/-- One type that both checkers have. -/
def Shared (w : S.State) (t t' : Ty) : Prop :=
  t' = t ∧ S.Plain w t

/-- Types that the two checkers have for the same expression. -/
def Alike (w : S.State) (t t' : Ty) : Prop :=
  S.Shared w t t' ∨ ∃ g g', t = .template g ∧ t' = .template g' ∧ S.Made w g g'

/-- Events that the two checkers report at the same step. -/
inductive Reports (w : S.State) : Event → Event → Prop where
  | typed {t t' : Ty} (report : Ty → Event) (h : S.Alike w t t') : Reports w (report t) (report t')
  | checking {d d' : Datum} (h : S.Matches w d d') (s : ScopeId) :
      Reports w (.checking d s) (.checking d' s)
  | instantiated {g g' : Template} (h : S.Made w g g') (sig : Signature) :
      Reports w (.instantiated g sig) (.instantiated g' sig)

/-- Both sessions go on, the first with the context `c` and the second with `x`. -/
def Moves (w : S.State) (c x : Context) (post : S.State → Prop) : Prop :=
  ∃ v, S.left v = { S.left w with context := c } ∧ S.right v = { S.right w with context := x } ∧
    S.Later w v ∧ post v

/-- A type that can be declared under a name; an alias has the name it is declared under. -/
def Declares (w : S.State) (name : String) (t : Ty) : Prop :=
  S.Plain w t ∨ ∃ parent, t = .aliasOf name parent ∧ S.Plain w parent

/-- Once an instance is recorded, its bodies can be checked for each other. Otherwise the second
checker no longer answers as the first; still the first body can be checked. -/
def Readies (v : S.State) (g g' : Template) : Prop :=
  ∀ w u key, S.Later w v → (S.here w).instance? key = none → S.Later v u →
    (S.here u).instance? key ≠ none → key.template = g.id →
    key.actuals.length = g.typeParams.length →
    S.Matches u (CheckM.actualBody g key.actuals) (CheckM.actualBody g' key.actuals) ∨
      ¬S.Agrees u ∧
        S.Matches u (CheckM.actualBody g key.actuals) (CheckM.actualBody g key.actuals)

/-- Templates that belong together are made, used and accepted alike. -/
structure Kindred (S : Simulation) : Prop where
  later : ∀ {w v g g'}, S.Later w v → S.Kin w g g' → S.Kin v g g'
  of_like : ∀ {w g g'}, g.Like (S.Named w) g' → S.Kin w g g'
  serial : ∀ {w g g'}, S.Kin w g g' → g'.serial = g.serial
  symbols : ∀ {w g g'}, S.Kin w g g' →
    List.Forall₂ (S.Named w) (g.params.map Prod.fst) (g'.params.map Prod.fst)
  closure : ∀ {w g g'}, S.Kin w g g' → g'.closure = g.closure
  arity : ∀ {w g g'}, S.Kin w g g' → g'.typeParams.length = g.typeParams.length
  typesAt : ∀ {w g g'} {actuals : List TypeExpr}, S.Kin w g g' →
    actuals.length = g.typeParams.length → g'.typesAt actuals = g.typesAt actuals
  equals : ∀ {w g g' t}, S.Agrees w → S.Kin w g g' → S.Plain w t →
    (Ty.template g').equals t = (Ty.template g).equals t ∧
      t.equals (.template g') = t.equals (.template g)

/-- The operations on contexts respect what is known of the two sessions. -/
structure Lawful (S : Simulation) : Prop where
  refl : ∀ w, S.Later w w
  trans : ∀ {w v u}, S.Later w v → S.Later v u → S.Later w u
  opens : ∀ {w v s}, S.Later w v → S.Opens w s → S.Opens v s
  named : ∀ {w v x y}, S.Later w v → S.Named w x y → S.Named v x y
  plain : ∀ {w v t}, S.Later w v → S.Plain w t → S.Plain v t
  mayDeclare : ∀ {w v name}, S.Later w v → S.MayDeclare w name → S.MayDeclare v name
  agrees : ∀ {w v}, S.Later w v → S.Agrees v → S.Agrees w
  kindred : S.Kindred
  plain_primitive : ∀ w p, S.Plain w (.primitive p)
  plain_function : ∀ {w params result}, S.Plain w (.function params result) ↔
    (∀ p ∈ params, S.Plain w p) ∧ S.Plain w result
  plain_aliasOf : ∀ {w name parent}, S.Plain w (.aliasOf name parent) → S.Plain w parent
  plain_union : ∀ {w id name options}, (∀ o ∈ options, S.Plain w o) →
    S.Plain w (.union id name options)
  plain_superclass : ∀ {w c parent}, S.Plain w (.ofClass c) → c.superclass? = some parent →
    S.Plain w (.ofClass parent)
  plain_template : ∀ {w g}, S.Plain w (.template g) → S.Made w g g
  lookup? : ∀ {w s name t}, S.Opens w s → (S.here w).lookup? s name = some t →
    ∃ t', (S.there w).lookup? s name = some t' ∧ S.Alike w t t'
  lookup?_none : ∀ {w s name}, S.Opens w s → (S.here w).lookup? s name = none → S.MayLack w name
  member? : ∀ {w c name t}, S.Plain w (.ofClass c) → (S.here w).member? c.fields name = some t →
    ∃ t', (S.there w).member? c.fields name = some t' ∧ S.Alike w t t'
  registered? : ∀ w text, (S.there w).registered? text = (S.here w).registered? text
  plain_registered : ∀ {w text t}, (S.here w).registered? text = some t → S.Plain w t
  registrySize : ∀ w, (S.there w).registry.size = (S.here w).registry.size
  instance? : ∀ w key, (S.there w).instance? key = (S.here w).instance? key
  plain_instance : ∀ {w key s}, (S.here w).instance? key = some s → S.Plain w s.toTy
  strict : ∀ w, (S.there w).options.strictOperands = true →
    (S.here w).options.strictOperands = true
  emit : ∀ {w e e'}, S.Reports w e e' →
    ∃ v, S.left v = { S.left w with events := (S.left w).events.push e } ∧
      S.right v = { S.right w with events := (S.right w).events.push e' } ∧
      S.Later w v ∧ ∀ g g' sig, e = .instantiated g sig → S.Made w g g' → S.Readies v g g'
  intern : ∀ w name, S.Moves w ((S.here w).intern name).2 ((S.there w).intern name).2
    fun v => S.Named v ((S.here w).intern name).1 ((S.there w).intern name).1
  bind : ∀ {w s x y t t'}, S.Opens w s → S.Named w x y → S.Alike w t t' →
    S.Moves w ((S.here w).bind s x t) ((S.there w).bind s y t') fun _ => True
  child : ∀ {w s}, S.Opens w s → S.Moves w ((S.here w).child s).2 ((S.there w).child s).2
    fun v => ((S.there w).child s).1 = ((S.here w).child s).1 ∧
      S.Opens v ((S.here w).child s).1
  memberTable : ∀ {w s} {parent : Option ClassTy} (name : String), S.Opens w s →
    (∀ c ∈ parent, S.Plain w (.ofClass c)) →
    S.Moves w ((S.here w).memberTable (parent.map ClassTy.fields) s).2
      ((S.there w).memberTable (parent.map ClassTy.fields) s).2
      fun v =>
        let fields := ((S.here w).memberTable (parent.map ClassTy.fields) s).1
        ((S.there w).memberTable (parent.map ClassTy.fields) s).1 = fields ∧ S.Opens v fields ∧
          S.Plain v (.ofClass (.extending name fields parent))
  declare : ∀ {w name t}, S.MayDeclare w name → S.Declares w name t →
    S.Moves w ((S.here w).declare name t).2 ((S.there w).declare name t).2
      fun v => ((S.here w).declare name t).1 = none →
        ((S.there w).declare name t).1 = none ∧ S.Plain v t
  cache : ∀ {w text t}, TypeExpr.IsFunctionText text → S.Plain w t →
    S.Moves w ((S.here w).cache text t).2 ((S.there w).cache text t).2
      fun v => ((S.there w).cache text t).1 = ((S.here w).cache text t).1 ∧
        S.Plain v ((S.here w).cache text t).1
  newTemplate : ∀ w, S.Moves w (S.here w).newTemplate.2 (S.there w).newTemplate.2
    fun _ => (S.there w).nextTemplate = (S.here w).nextTemplate
  record : ∀ {w s} key, S.Plain w s.toTy →
    S.Moves w ((S.here w).record key s) ((S.there w).record key s) fun _ => True
  forget : ∀ {w} key, S.Tracked →
    S.Moves w ((S.here w).forget key) ((S.there w).forget key)
      fun v => ∀ name, S.MayLack w name → S.MayLack v name

/-- What a stopped check leaves, and why it was stopped. -/
def Halts (w : S.State) (halt : Halt) (σ : Session) : Prop :=
  S.Tracked → ∃ v, S.left v = σ ∧ S.Later w v ∧
    ∀ name, halt.undefined? = some name → S.MayLack v name

/-- If the first checker ends a check, the second ends the other, with a result that `post` relates
to that of the first, unless it has come to answer otherwise. -/
structure Follows {α β : Type} (w : S.State) (m : CheckM α) (m' : CheckM β)
    (post : S.State → α → β → Prop) : Prop where
  ends : ∀ {a σ}, (S.left w).run m = (.ok a, σ) →
    ∃ b v, S.left v = σ ∧ (S.Agrees v → (S.right w).run m' = (.ok b, S.right v)) ∧
      S.Later w v ∧ post v a b
  stop : ∀ {halt σ}, (S.left w).run m = (.error halt, σ) → S.Halts w halt σ

/-- The second checker repeats a check of the first. -/
abbrev Repeats (w : S.State) (m : CheckM Ty) : Prop :=
  S.Follows w m m S.Alike

variable {S} {α β γ δ : Type} {w v : S.State}

theorem alike_of_plain {t : Ty} (ht : S.Plain w t) : S.Alike w t t :=
  .inl ⟨rfl, ht⟩

/-! Where templates belong together just if they are like each other. -/

theorem made_self (hnamed : ∀ x, S.Named w x x) {g : Template} (hg : S.Opens w g.closure)
    (hkin : g.Like (S.Named w) g → S.Kin w g g := by exact fun h => h) : S.Made w g g :=
  ⟨hkin ⟨rfl, rfl, rfl, List.forall₂_same.mpr fun p _ => ⟨hnamed p.1, rfl⟩, rfl, rfl, rfl⟩, hg⟩

/-! Where also symbols of one name are the same, all that belongs together is the same. -/

theorem Made.eq {g g' : Template} (h : S.Made w g g') (hnamed : ∀ {x y}, S.Named w x y → y = x)
    (hkin : ∀ {g g'}, S.Kin w g g' → g.Like (S.Named w) g' := by exact fun h => h) : g' = g :=
  (hkin h.1).eq hnamed

theorem Alike.eq {t t' : Ty} (h : S.Alike w t t') (hnamed : ∀ {x y}, S.Named w x y → y = x)
    (hkin : ∀ {g g'}, S.Kin w g g' → g.Like (S.Named w) g' := by exact fun h => h) : t' = t := by
  rcases h with ⟨rfl, -⟩ | ⟨g, g', rfl, rfl, hg⟩
  · rfl
  · rw [hg.eq hnamed hkin]

theorem Reports.eq {e e' : Event} (h : S.Reports w e e') (hnamed : ∀ {x y}, S.Named w x y → y = x)
    (hkin : ∀ {g g'}, S.Kin w g g' → g.Like (S.Named w) g' := by exact fun h => h)
    (hmatches : ∀ {d d'}, S.Matches w d d' → d' = d := by exact fun h => h.1) : e' = e := by
  cases h with
  | typed report ht => rw [ht.eq hnamed hkin]
  | checking hd s => rw [hmatches hd]
  | instantiated hg sig => rw [hg.eq hnamed hkin]

namespace Lawful

variable (hS : S.Lawful)

include hS

theorem moves_refl : S.Moves w (S.here w) (S.there w) fun _ => True :=
  ⟨w, rfl, rfl, hS.refl w, trivial⟩

theorem moves_trans (f f' : Context → Context) {c x : Context} {mid post : S.State → Prop}
    (h : S.Moves w c x mid)
    (hnext : ∀ v, S.Later w v → mid v → S.Moves v (f (S.here v)) (f' (S.there v)) post) :
    S.Moves w (f c) (f' x) post := by
  obtain ⟨v, hleft, hright, hv, hmid⟩ := h
  obtain ⟨u, hleft', hright', hu, hpost⟩ := hnext v hv hmid
  rw [here, hleft] at hleft'
  rw [there, hright] at hright'
  exact ⟨u, hleft', hright', hS.trans hv hu, hpost⟩

theorem admits (hv : S.Later w v) {d : Datum} (hd : S.Admits w d) : S.Admits v d :=
  fun name hname => hS.mayDeclare hv (hd name hname)

theorem made (hv : S.Later w v) {g g' : Template} (h : S.Made w g g') : S.Made v g g' :=
  ⟨hS.kindred.later hv h.1, hS.opens hv h.2⟩

theorem alike {t t' : Ty} (hv : S.Later w v) (h : S.Alike w t t') : S.Alike v t t' := by
  rcases h with ⟨rfl, ht⟩ | ⟨g, g', rfl, rfl, hg⟩
  · exact .inl ⟨rfl, hS.plain hv ht⟩
  · exact .inr ⟨g, g', rfl, rfl, hS.made hv hg⟩

theorem halts (hv : S.Later w v) {halt : Halt} {σ : Session} (h : S.Halts v halt σ) :
    S.Halts w halt σ := by
  intro htracked
  obtain ⟨u, hu, hlater, hlacks⟩ := h htracked
  exact ⟨u, hu, hS.trans hv hlater, hlacks⟩

end Lawful

namespace Follows

open CheckM

/-- Where nothing keeps the second checker from answering as the first, it ends the check. -/
theorem ok {m : CheckM α} {m' : CheckM β} {post : S.State → α → β → Prop}
    (hm : S.Follows w m m' post) {a : α} {σ : Session} (hrun : (S.left w).run m = (.ok a, σ))
    (hagrees : ∀ v, S.Agrees v := by exact fun _ => trivial) :
    ∃ b v, S.left v = σ ∧ (S.right w).run m' = (.ok b, S.right v) ∧ S.Later w v ∧ post v a b := by
  obtain ⟨b, v, hleft, hright, hv, hpost⟩ := hm.ends hrun
  exact ⟨b, v, hleft, hright (hagrees v), hv, hpost⟩

theorem pure (hS : S.Lawful) {a : α} {b : β} {post : S.State → α → β → Prop} (h : post w a b) :
    S.Follows w (pure a) (pure b) post where
  ends hrun := by
    obtain ⟨ha, rfl⟩ := Prod.mk.inj hrun
    obtain rfl := Except.ok.inj ha
    exact ⟨b, w, rfl, fun _ => rfl, hS.refl w, h⟩
  stop hrun := by cases hrun

/-- A check that the first checker stops asks nothing of the second. -/
theorem throw (hS : S.Lawful) {halt : Halt}
    (h : ∀ name, halt.undefined? = some name → S.MayLack w name) (m' : CheckM β)
    (post : S.State → α → β → Prop) :
    S.Follows w (throw halt : CheckM α) m' post where
  ends hrun := by cases hrun
  stop hrun := by
    obtain ⟨hhalt, rfl⟩ := Prod.mk.inj hrun
    obtain rfl := Except.error.inj hhalt
    exact fun _ => ⟨w, rfl, hS.refl w, h⟩

theorem reject (hS : S.Lawful) {e : TypeError} (h : (Halt.rejected e).undefined? = none)
    (m' : CheckM β) (post : S.State → α → β → Prop) :
    S.Follows w (reject e : CheckM α) m' post := by
  refine throw hS (fun name hname => ?_) m' post
  rw [h] at hname
  cases hname

theorem bind (hS : S.Lawful) {m : CheckM α} {m' : CheckM β} {f : α → CheckM γ} {f' : β → CheckM δ}
    {mid : S.State → α → β → Prop} {post : S.State → γ → δ → Prop} (hm : S.Follows w m m' mid)
    (hf : ∀ v a b, S.Later w v → mid v a b → S.Follows v (f a) (f' b) post) :
    S.Follows w (m >>= f) (m' >>= f') post := by
  obtain ⟨outcome, σ, hrun⟩ : ∃ outcome σ, (S.left w).run m = (outcome, σ) := ⟨_, _, rfl⟩
  cases outcome with
  | error halt =>
      have hstopped := Session.run_bind_of_error f hrun
      constructor
      · intro _ _ hok
        cases hstopped.symm.trans hok
      · intro _ _ hstop
        cases hstopped.symm.trans hstop
        exact hm.stop hrun
  | ok a =>
      obtain ⟨b, v, rfl, hrun', hv, hmid⟩ := hm.ends hrun
      have hnext := hf v a b hv hmid
      constructor
      · intro c σ hok
        rw [Session.run_bind_of_ok f hrun] at hok
        obtain ⟨d, u, rfl, hright, hu, hpost⟩ := hnext.ends hok
        refine ⟨d, u, rfl, fun hagrees => ?_, hS.trans hv hu, hpost⟩
        rw [Session.run_bind_of_ok f' (hrun' (hS.agrees hu hagrees)), hright hagrees]
      · intro halt σ hstop
        rw [Session.run_bind_of_ok f hrun] at hstop
        exact hS.halts hv (hnext.stop hstop)

theorem mono {m : CheckM α} {m' : CheckM β} {post post' : S.State → α → β → Prop}
    (hm : S.Follows w m m' post) (h : ∀ v a b, S.Later w v → post v a b → post' v a b) :
    S.Follows w m m' post' where
  ends hrun := by
    obtain ⟨b, v, hleft, hright, hv, hpost⟩ := hm.ends hrun
    exact ⟨b, v, hleft, hright, hv, h v _ b hv hpost⟩
  stop hrun := hm.stop hrun

theorem context_bind {f : Context → CheckM α} {f' : Context → CheckM β}
    {post : S.State → α → β → Prop} (h : S.Follows w (f (S.here w)) (f' (S.there w)) post) :
    S.Follows w (CheckM.context >>= f) (CheckM.context >>= f') post :=
  ⟨fun hrun => h.ends hrun, fun hrun => h.stop hrun⟩

theorem change {f : Context → α × Context} {f' : Context → β × Context}
    {post : S.State → α → β → Prop}
    (h : S.Moves w (f (S.here w)).2 (f' (S.there w)).2
      fun v => post v (f (S.here w)).1 (f' (S.there w)).1) :
    S.Follows w (change f) (change f') post where
  ends hrun := by
    obtain ⟨v, hleft, hright, hv, hpost⟩ := h
    obtain ⟨ha, rfl⟩ := Prod.mk.inj hrun
    obtain rfl := Except.ok.inj ha
    exact ⟨_, v, hleft, fun _ => by rw [Session.run_change, hright], hv, hpost⟩
  stop hrun := by cases hrun

theorem update {f f' : Context → Context} {post : S.State → Prop}
    (h : S.Moves w (f (S.here w)) (f' (S.there w)) post) :
    S.Follows w (update f) (update f') fun v _ _ => post v where
  ends hrun := by
    obtain ⟨v, hleft, hright, hv, hpost⟩ := h
    obtain ⟨-, rfl⟩ := Prod.mk.inj hrun
    exact ⟨(), v, hleft, fun _ => by rw [Session.run_update, hright], hv, hpost⟩
  stop hrun := by cases hrun

theorem emit (hS : S.Lawful) {e e' : Event} (h : S.Reports w e e') :
    S.Follows w (emit e) (emit e') fun v _ _ =>
      ∀ g g' sig, e = .instantiated g sig → S.Made w g g' → S.Readies v g g' where
  ends hrun := by
    obtain ⟨v, hleft, hright, hv, hreadies⟩ := hS.emit h
    obtain ⟨-, rfl⟩ := Prod.mk.inj hrun
    exact ⟨(), v, hleft, fun _ => by rw [Session.run_emit, hright], hv, hreadies⟩
  stop hrun := by cases hrun

theorem emit_typed (hS : S.Lawful) {t t' : Ty} (report : Ty → Event) (h : S.Alike w t t') :
    S.Follows w (CheckM.emit (report t)) (CheckM.emit (report t')) fun _ _ _ => True :=
  (emit hS (.typed report h)).mono fun _ _ _ _ _ => trivial

theorem emit_same (hS : S.Lawful) (e : Event) :
    S.Follows w (CheckM.emit e) (CheckM.emit e) fun _ _ _ => True :=
  emit_typed hS (fun _ => e) (alike_of_plain (hS.plain_primitive w .null))

theorem rethrow {m : CheckM α} {m' : CheckM β} {handle : Halt → CheckM α}
    {handle' : Halt → CheckM β} {post : S.State → α → β → Prop} (reason : Halt → Halt)
    (hm : S.Follows w m m' post)
    (hhandle : ∀ halt σ, Session.run σ (handle halt) = (.error (reason halt), σ))
    (hreason : ∀ halt name, (reason halt).undefined? = some name → halt.undefined? = some name) :
    S.Follows w (tryCatch m handle) (tryCatch m' handle') post := by
  obtain ⟨outcome, σ, hrun⟩ : ∃ outcome σ, (S.left w).run m = (outcome, σ) := ⟨_, _, rfl⟩
  cases outcome with
  | ok a =>
      have hleft : (S.left w).run (tryCatch m handle) = (.ok a, σ) := by
        rw [Session.run_tryCatch, hrun]
      constructor
      · intro _ _ hok
        obtain ⟨ha, rfl⟩ := Prod.mk.inj (hleft.symm.trans hok)
        obtain rfl := Except.ok.inj ha
        obtain ⟨b, v, hv, hright, hlater, hpost⟩ := hm.ends hrun
        exact ⟨b, v, hv, fun hagrees => by rw [Session.run_tryCatch, hright hagrees], hlater, hpost⟩
      · intro _ _ hstop
        cases hleft.symm.trans hstop
  | error halt =>
      have hleft : (S.left w).run (tryCatch m handle) = (.error (reason halt), σ) := by
        rw [Session.run_tryCatch, hrun]
        exact hhandle halt σ
      constructor
      · intro _ _ hok
        cases hleft.symm.trans hok
      · intro _ _ hstop
        obtain ⟨hhalt, rfl⟩ := Prod.mk.inj (hleft.symm.trans hstop)
        obtain rfl := Except.error.inj hhalt
        intro htracked
        obtain ⟨v, hv, hlater, hlacks⟩ := hm.stop hrun htracked
        exact ⟨v, hv, hlater, fun name hname => hlacks name (hreason halt name hname)⟩

theorem provisionally (hS : S.Lawful) {key : InstanceKey} {sig : Signature}
    {check check' : CheckM Unit} (hsig : S.Plain w sig.toTy)
    (hcheck : ∀ v, S.Later w v → (S.here v).instance? key ≠ none →
      S.Follows v check check' fun _ _ _ => True) :
    S.Follows w (provisionally key sig check) (provisionally key sig check')
      fun v s s' => s' = s ∧ S.Plain v s.toTy := by
  obtain ⟨v, hleft, hright, hv, -⟩ := hS.record key hsig
  have hrecorded : (S.here v).instance? key ≠ none := by
    rw [here, hleft, Context.instance?_record, if_pos rfl]
    exact Option.some_ne_none _
  have hfollows := hcheck v hv hrecorded
  obtain ⟨outcome, σ, hrun⟩ : ∃ outcome σ, (S.left v).run check = (outcome, σ) := ⟨_, _, rfl⟩
  have hprovisional := run_provisionally (S.left w) key sig check
  rw [← hleft, hrun] at hprovisional
  cases outcome with
  | ok a =>
      constructor
      · intro _ _ hok
        obtain ⟨ha, rfl⟩ := Prod.mk.inj (hprovisional.symm.trans hok)
        obtain rfl := Except.ok.inj ha
        obtain ⟨_, u, hu, hrun', hlater, -⟩ := hfollows.ends hrun
        refine ⟨sig, u, hu, fun hagrees => ?_, hS.trans hv hlater, rfl,
          hS.plain (hS.trans hv hlater) hsig⟩
        rw [run_provisionally, ← hright, hrun' hagrees]
      · intro _ _ hstop
        cases hprovisional.symm.trans hstop
  | error halt =>
      constructor
      · intro _ _ hok
        cases hprovisional.symm.trans hok
      · intro _ _ hstop
        obtain ⟨hhalt, rfl⟩ := Prod.mk.inj (hprovisional.symm.trans hstop)
        obtain rfl := Except.error.inj hhalt
        intro htracked
        obtain ⟨u, rfl, hlater, hlacks⟩ := hfollows.stop hrun htracked
        obtain ⟨x, hx, -, hlater', hkept⟩ := hS.forget (w := u) key htracked
        exact ⟨x, hx, hS.trans hv (hS.trans hlater hlater'),
          fun name hname => hkept name (hlacks name hname)⟩

end Follows

end Simulation

end TypedLisp
