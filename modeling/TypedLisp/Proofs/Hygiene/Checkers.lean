import TypedLisp.Proofs.Hygiene.Templates
import TypedLisp.Proofs.Simulation.Expressions

/-!
Two checkers of which the second is given inner generic functions with a type parameter under
another name. They hold the same, but for templates. They part only where actual types are put into
a body so that a type parameter of such a function is replaced, or a type of its name is put in.
-/

namespace TypedLisp

open Datum TypeExpr CheckM

instance : DecidablePred IsName := fun name =>
  decidable_of_iff ((name.toList ≠ [] ∧ name.toList.all isNameChar = true) ∧ name ≠ "Fn")
    (by simp [IsName, IsWord])

namespace Template

/-- With types of these names, the body of a template can have either of two names for the type
parameter of an inner function: no type parameter of the template has one of them, nor is one the word
that makes the inner function what it is, and they do not stand in the names that are put in. -/
def Clear (word : Keyword) (old new : String) (g : Template) (names : List String) : Prop :=
  (∀ n ∈ g.typeParams, IsName n ∧ n ∉ [old, new, word.text]) ∧
    ∀ n ∈ names, (∀ c ∈ n.toList, Text.isBlank c = false) ∧ old ∉ partsOf n ∧ new ∉ partsOf n

instance (word : Keyword) (old new : String) (g : Template) (names : List String) :
    Decidable (g.Clear word old new names) :=
  decidable_of_iff
    ((∀ n ∈ g.typeParams, IsName n ∧ n ∉ [old, new, word.text]) ∧
      ∀ n ∈ names, (n.toList.all fun c => !Text.isBlank c) = true ∧ old ∉ partsOf n ∧
        new ∉ partsOf n)
    (by simp [Clear])

namespace Clear

variable {word : Keyword} {old new : String} {g : Template} {names : List String}
  (h : g.Clear word old new names)

include h

theorem avoids : Avoids old new fun n => lastPaired? n g.typeParams names where
  names p r hr := by
    have hp : p ∈ g.typeParams := Decidable.byContradiction fun hp => by
      cases (lastPaired?_eq_none hp names).symm.trans hr
    obtain ⟨hname, hother⟩ := h.1 p hp
    exact ⟨hname, fun hmem => hother (List.mem_append_left [word.text] hmem)⟩
  texts _ r hr := h.2 r (mem_of_lastPaired? hr)

theorem word_none : lastPaired? word.text g.typeParams names = none :=
  lastPaired?_eq_none (fun hmem => (h.1 word.text hmem).2 (by simp)) names

end Clear

end Template

/-- Types keep their names. -/
def Registry.Within (r r' : Registry) : Prop :=
  ∀ x t, r.get? x = some t → r'.get? x = some t

namespace Registry

variable {r r' : Registry} {x : Symbol} {t : Ty}

theorem get?_insert (r : Registry) (x y : Symbol) (t : Ty) :
    (Registry.mk (r.types.insert x t)).get? y = if x = y then some t else r.get? y := by
  simp [get?, Std.TreeMap.getElem?_insert]

theorem within_insert (hx : r.get? x = none) : r.Within ⟨r.types.insert x t⟩ := by
  intro y u hu
  rw [get?_insert, if_neg, hu]
  rintro rfl
  cases hx.symm.trans hu

theorem within_declare (h : r.declare x t = .ok r') : r.Within r' ∧ r'.get? x = some t := by
  rw [declare] at h
  split at h
  · cases h
  · next hx =>
      obtain rfl := Except.ok.inj h
      exact ⟨within_insert hx, by rw [get?_insert, if_pos rfl]⟩

theorem within_cache (r : Registry) (x : Symbol) (t : Ty) :
    r.Within (r.cache x t).2 ∧ (r.cache x t).2.get? x = some (r.cache x t).1 := by
  rw [cache]
  split
  · next hx => exact ⟨fun _ _ hu => hu, hx⟩
  · next hx => exact ⟨within_insert hx, by rw [get?_insert, if_pos rfl]⟩

end Registry

namespace Session

def templates (σ : Session) : List Template :=
  σ.events.toList.filterMap fun
    | .instantiated g _ => some g
    | _ => none

/-- Nothing was captured since a context: wherever a template was instantiated anew that holds a
generic function with one of two names as a type parameter, its actual types have left these names
alone. Also, no alias is named like a template is shown. -/
def Hygienic (old new : String) (since : Context) (σ : Session) : Prop :=
  (∀ entry ∈ σ.context.registry.types.toList, entry.2.Neat) ∧
    ∀ g ∈ σ.templates, ∀ word ∈ Keyword.all, g.body.binds word [old, new] = true →
      ∀ key ∈ σ.context.instances.keys, key.template = g.id → key ∉ since.instances →
        g.Clear word old new key.actuals

instance (old new : String) (since : Context) (σ : Session) :
    Decidable (σ.Hygienic old new since) :=
  inferInstanceAs (Decidable (_ ∧ _))

/-- What was registered, recorded and instantiated stays so. -/
structure Grows (σ τ : Session) : Prop where
  registry : σ.context.registry.Within τ.context.registry
  instances : ∀ key ∈ σ.context.instances, key ∈ τ.context.instances
  templates : ∀ g ∈ σ.templates, g ∈ τ.templates

namespace Grows

variable {σ τ υ : Session}

theorem refl (σ : Session) : σ.Grows σ :=
  ⟨fun _ _ ht => ht, fun _ hkey => hkey, fun _ hg => hg⟩

theorem trans (h : σ.Grows τ) (h' : τ.Grows υ) : σ.Grows υ :=
  ⟨fun x t ht => h'.registry x t (h.registry x t ht),
    fun key hkey => h'.instances key (h.instances key hkey),
    fun g hg => h'.templates g (h.templates g hg)⟩

theorem hygienic (h : σ.Grows τ) {old new : String} {since : Context}
    (hτ : τ.Hygienic old new since) : σ.Hygienic old new since := by
  refine ⟨fun entry hentry => ?_, fun g hg word hword hbinds key hkey hid hsince => ?_⟩
  · rw [Std.TreeMap.mem_toList_iff_getElem?_eq_some] at hentry
    exact hτ.1 entry (Std.TreeMap.mem_toList_iff_getElem?_eq_some.mpr (h.registry _ _ hentry))
  · rw [Std.TreeMap.mem_keys] at hkey
    have hkey' := Std.TreeMap.mem_keys.mpr (h.instances key hkey)
    exact hτ.2 g (h.templates g hg) word hword hbinds key hkey' hid hsince

end Grows

theorem Hygienic.neat {old new : String} {since : Context} {σ : Session}
    (h : σ.Hygienic old new since) {x : Symbol} {t : Ty}
    (ht : σ.context.registry.get? x = some t) : t.Neat :=
  h.1 (x, t) (Std.TreeMap.mem_toList_iff_getElem?_eq_some.mpr ht)

end Session

/-- Types that the two checkers have for each other in a session of the first. -/
def Paired (old new : String) (since : Context) (σ : Session) (t t' : Ty) : Prop :=
  (t' = t ∧ (σ.Hygienic old new since → t.Neat)) ∨
    ∃ g g', t = .template g ∧ t' = .template g' ∧ Akin old new g g'

theorem Paired.later {old new : String} {since : Context} {σ τ : Session} (hτ : σ.Grows τ)
    {t t' : Ty} (h : Paired old new since σ t t') : Paired old new since τ t t' :=
  h.imp_left fun ht => ⟨ht.1, fun hhygienic => ht.2 (hτ.hygienic hhygienic)⟩

theorem Paired.rel_later {old new : String} {since : Context} {σ τ : Session} (hτ : σ.Grows τ)
    {left right : Option Ty} (h : Option.Rel (Paired old new since σ) left right) :
    Option.Rel (Paired old new since τ) left right := by
  cases h with
  | none => exact .none
  | some h => exact .some (h.later hτ)

/-- The sessions of the two checkers. The second has scopes and events of its own. -/
structure Twins (old new : String) (since : Context) where
  left : Session
  scopes : Arena Ty
  events : Array Event
  links : left.context.scopes.SameLinks scopes
  bound : ∀ q x, Option.Rel (Paired old new since left) (left.context.scopes.binding? q x)
    (scopes.binding? q x)
  recorded : ∀ {key s}, left.context.instance? key = some s → left.Hygienic old new since →
    s.toTy.Neat
  kept : ∀ key ∈ since.instances, key ∈ left.context.instances

def Context.withScopes (c : Context) (scopes : Arena Ty) : Context :=
  { c with scopes }

def Twins.right {old new : String} {since : Context} (w : Twins old new since) : Session :=
  ⟨w.left.context.withScopes w.scopes, w.events⟩

def twinning (old new : String) (since : Context) : Simulation where
  State := Twins old new since
  left w := w.left
  right w := w.right
  Later w v := w.left.Grows v.left
  Opens _ _ := True
  Named _ x y := y = x
  Plain w t := w.left.Hygienic old new since → t.Neat
  MayDeclare _ _ := True
  MayLack _ _ := True
  Tracked := False
  Matches _ := Renamed old new
  Kin _ := Akin old new
  Agrees w := w.left.Hygienic old new since

namespace twinning

variable {old new : String} {since : Context} {w v : (twinning old new since).State}

theorem paired_iff {t t' : Ty} :
    (twinning old new since).Alike w t t' ↔ Paired old new since w.left t t' := by
  simp [Simulation.Alike, Simulation.Shared, Simulation.Made, Paired, twinning]

theorem moves {c : Context} {scopes : Arena Ty}
    (hgrows : w.left.Grows { w.left with context := c }) (hlinks : c.scopes.SameLinks scopes)
    (hbound : ∀ q x, Option.Rel (Paired old new since { w.left with context := c })
      (c.scopes.binding? q x) (scopes.binding? q x))
    (hrecorded : ∀ {key s}, c.instance? key = some s →
      Session.Hygienic old new since { w.left with context := c } → s.toTy.Neat)
    {post : (twinning old new since).State → Prop}
    (hpost : ∀ v : (twinning old new since).State, v.left = { w.left with context := c } → post v) :
    (twinning old new since).Moves w c (c.withScopes scopes) post :=
  ⟨⟨{ w.left with context := c }, scopes, w.events, hlinks, hbound, hrecorded,
      fun key hkey => hgrows.instances key (w.kept key hkey)⟩,
    rfl, rfl, hgrows, hpost _ rfl⟩

theorem moves_within (c : Context) (hscopes : c.scopes = w.left.context.scopes)
    (hregistry : w.left.context.registry.Within c.registry)
    (hinstances : c.instances = w.left.context.instances)
    {post : (twinning old new since).State → Prop}
    (hpost : ∀ v : (twinning old new since).State, v.left = { w.left with context := c } → post v) :
    (twinning old new since).Moves w c (c.withScopes w.scopes) post := by
  have hgrows : w.left.Grows { w.left with context := c } :=
    ⟨hregistry, fun key hkey => hinstances.symm ▸ hkey, fun _ hg => hg⟩
  refine moves hgrows (hscopes ▸ w.links) (fun q x => ?_) (fun hs hhygienic => ?_) hpost
  · rw [hscopes]
    exact Paired.rel_later hgrows (w.bound q x)
  · rw [Context.instance?, hinstances] at hs
    exact w.recorded hs (hgrows.hygienic hhygienic)

theorem moves_declare (name : String) (t : Ty) :
    (twinning old new since).Moves w (w.left.context.declare name t).2
      ((w.left.context.withScopes w.scopes).declare name t).2
      fun v => (w.left.context.declare name t).1 = none →
        ((w.left.context.withScopes w.scopes).declare name t).1 = none ∧
          (v.left.Hygienic old new since → t.Neat) := by
  have hintern : (w.left.context.withScopes w.scopes).intern name =
      ((w.left.context.intern name).1, (w.left.context.intern name).2.withScopes w.scopes) := rfl
  have hregistry : ((w.left.context.intern name).2.withScopes w.scopes).registry =
      (w.left.context.intern name).2.registry := rfl
  simp only [Context.declare, hintern, hregistry]
  cases hdeclare : (w.left.context.intern name).2.registry.declare
      (w.left.context.intern name).1 t with
  | error existing =>
      refine moves_within (w.left.context.intern name).2 rfl (fun _ _ hu => hu) rfl fun v _ h => ?_
      cases h
  | ok registry =>
      obtain ⟨hwithin, hregistered⟩ := Registry.within_declare hdeclare
      refine moves_within { (w.left.context.intern name).2 with registry } rfl hwithin rfl
        fun v hv _ => ⟨rfl, fun hhygienic => ?_⟩
      rw [hv] at hhygienic
      exact hhygienic.neat hregistered

theorem moves_cache (text : String) (t : Ty) :
    (twinning old new since).Moves w (w.left.context.cache text t).2
      ((w.left.context.withScopes w.scopes).cache text t).2
      fun v => v.left.Hygienic old new since → (w.left.context.cache text t).1.Neat := by
  obtain ⟨hwithin, hregistered⟩ := (w.left.context.intern text).2.registry.within_cache
    (w.left.context.intern text).1 t
  refine moves_within (w.left.context.cache text t).2 rfl hwithin rfl fun v hv hhygienic => ?_
  rw [hv] at hhygienic
  exact hhygienic.neat hregistered

theorem moves_bind (s : ScopeId) (x : Symbol) {t t' : Ty} (ht : Paired old new since w.left t t') :
    (twinning old new since).Moves w (w.left.context.bind s x t)
      ((w.left.context.withScopes w.scopes).bind s x t') fun _ => True := by
  have hgrows : w.left.Grows { w.left with context := w.left.context.bind s x t } :=
    ⟨fun _ _ hu => hu, fun _ hkey => hkey, fun _ hg => hg⟩
  refine moves hgrows ((w.links.define_right s x t').define_left s x t) (fun q y => ?_)
    (fun hs hhygienic => w.recorded hs (hgrows.hygienic hhygienic)) fun _ _ => trivial
  have hbound := Paired.rel_later hgrows (w.bound q y)
  by_cases hs : s.index < w.left.context.scopes.size
  · have hs' : s.index < w.scopes.size := w.links.size.symm ▸ hs
    rw [Context.bind, Arena.binding?_define _ _ _ _ _ _ hs, Arena.binding?_define _ _ _ _ _ _ hs']
    split
    · exact .some (ht.later hgrows)
    · exact hbound
  · have hs : w.left.context.scopes.size ≤ s.index := Nat.le_of_not_lt hs
    rwa [Context.bind, Arena.binding?_define_of_le hs,
      Arena.binding?_define_of_le (w.links.size.symm ▸ hs)]

theorem moves_openScope (parent outer : Option ScopeId)
    {post : (twinning old new since).State → Prop} (hpost : ∀ v, post v) :
    (twinning old new since).Moves w
      (w.left.context.withScopes (w.left.context.scopes.openScope { parent, outer }).2)
      (w.left.context.withScopes (w.scopes.openScope { parent, outer }).2) post := by
  let scopes := (w.left.context.scopes.openScope { parent, outer }).2
  have hgrows : w.left.Grows { w.left with context := w.left.context.withScopes scopes } :=
    ⟨fun _ _ hu => hu, fun _ hkey => hkey, fun _ hg => hg⟩
  refine moves hgrows (w.links.openScope _) (fun q x => ?_)
    (fun hs hhygienic => w.recorded hs (hgrows.hygienic hhygienic)) fun v _ => hpost v
  rw [Context.withScopes, Arena.binding?_openScope_blank, Arena.binding?_openScope_blank]
  exact Paired.rel_later hgrows (w.bound q x)

theorem moves_record (key : InstanceKey) {s : Signature}
    (hs : w.left.Hygienic old new since → s.toTy.Neat) :
    (twinning old new since).Moves w (w.left.context.record key s)
      ((w.left.context.withScopes w.scopes).record key s) fun _ => True := by
  have hgrows : w.left.Grows { w.left with context := w.left.context.record key s } :=
    ⟨fun _ _ hu => hu, fun _ hkey => Std.TreeMap.mem_insert.mpr (.inr hkey), fun _ hg => hg⟩
  refine moves hgrows w.links (fun q x => Paired.rel_later hgrows (w.bound q x))
    (fun {other u} hu hhygienic => ?_) fun _ _ => trivial
  rw [Context.instance?_record] at hu
  split at hu
  · obtain rfl := Option.some.inj hu
    exact hs (hgrows.hygienic hhygienic)
  · exact w.recorded hu (hgrows.hygienic hhygienic)

theorem found (order : List ScopeId) {x : Option Symbol} {t : Ty}
    (ht : x.bind (fun x => order.findSome? fun q => w.left.context.scopes.binding? q x) = some t) :
    ∃ t', x.bind (fun x => order.findSome? fun q => w.scopes.binding? q x) = some t' ∧
      (twinning old new since).Alike w t t' := by
  cases x with
  | none => cases ht
  | some x =>
      have hfound : Option.Rel (Paired old new since w.left)
          (order.findSome? fun q => w.left.context.scopes.binding? q x)
          (order.findSome? fun q => w.scopes.binding? q x) :=
        Arena.rel_findSome? fun q _ => w.bound q x
      rw [Option.bind_some] at ht ⊢
      rw [ht] at hfound
      generalize (order.findSome? fun q => w.scopes.binding? q x) = right at hfound ⊢
      cases hfound with
      | some h => exact ⟨_, rfl, paired_iff.mpr h⟩

section Laws

variable (hold : IsName old) (hnew : IsName new)

include hold hnew

/-- The bodies of an instance can be checked for each other if nothing is captured in it. -/
theorem readies {g g' : Template} (hg : Akin old new g g') (hmem : g ∈ v.left.templates) :
    (twinning old new since).Readies v g g' := by
  intro before u key _ hnone hu hrecorded hid hlength
  have harity := hg.arity
  rcases hg with ⟨h, hg⟩ | ⟨h, rfl⟩ | ⟨h, rfl⟩
  · by_cases hhygienic : u.left.Hygienic old new since
    · refine .inl ?_
      rw [actualBody, actualBody, hg]
      rcases h.eq_or_binds hold hnew with hbody | ⟨word, hbinds⟩
      · rw [hbody]
        exact .same _
      · have hkey : key ∈ u.left.context.instances :=
          Std.TreeMap.mem_iff_isSome_getElem?.mpr (Option.isSome_iff_ne_none.mpr hrecorded)
        have hsince : key ∉ since.instances := fun hsince => by
          have := Std.TreeMap.mem_iff_isSome_getElem?.mp (before.kept key hsince)
          exact Option.isSome_iff_ne_none.mp this hnone
        have hclear (word : Keyword) (hbinds : g.body.binds word [old, new] = true) :
            g.Clear word old new key.actuals :=
          hhygienic.2 g (hu.templates g hmem) word word.mem_all hbinds key
            (Std.TreeMap.mem_keys.mpr hkey) hid hsince
        exact h.specialize hold hnew (hclear word hbinds).avoids fun word hbinds =>
          (hclear word hbinds).word_none
    · exact .inr ⟨hhygienic, .same _⟩
  · rw [h.actualBody hold hnew hlength]
    exact .inl (.same _)
  · rw [h.actualBody hold hnew (hlength.trans harity.symm)]
    exact .inl (.same _)

omit hold hnew in
theorem kindred : (twinning old new since).Kindred where
  later _ h := h
  of_like h := by
    obtain rfl := h.eq fun h => h
    exact .around (.same _) rfl
  serial h := h.serial
  symbols h := by
    rw [h.symbols]
    exact List.forall₂_same.mpr fun _ _ => rfl
  closure h := h.closure
  arity h := h.arity
  typesAt h hactuals := h.typesAt hactuals
  equals hagrees h ht := (ht hagrees).equals h.serial

theorem lawful : (twinning old new since).Lawful where
  refl w := .refl w.left
  trans h h' := h.trans h'
  opens _ _ := trivial
  named _ h := h
  plain hv ht := fun hhygienic => ht (hv.hygienic hhygienic)
  mayDeclare _ _ := trivial
  agrees hv h := hv.hygienic h
  kindred := kindred
  plain_primitive _ _ := fun _ _ h => by cases h
  plain_function {w params result} := by
    constructor
    · intro h
      exact ⟨fun p hp hw => (Ty.neat_function.mp (h hw)).1 p hp,
        fun hw => (Ty.neat_function.mp (h hw)).2⟩
    · rintro ⟨hparams, hresult⟩ hw
      exact Ty.neat_function.mpr ⟨fun p hp => hparams p hp hw, hresult hw⟩
  plain_aliasOf h := fun hw => (List.forall_mem_cons.mp (h hw)).2
  plain_union hoptions := fun hw => Ty.neat_union.mpr fun o ho => hoptions o ho hw
  plain_superclass _ _ := fun _ _ h => by cases h
  plain_template _ := ⟨.around (.same _) rfl, trivial⟩
  lookup? {w s name t} _ ht := by
    have hfound := found (w := w) (w.left.context.scopes.searchOrder s) ht
    rwa [← w.links.searchOrder] at hfound
  lookup?_none _ _ := trivial
  member? {w c name t} _ ht := by
    have hfound := found (w := w) (w.left.context.scopes.parentChain c.fields) ht
    rwa [← w.links.parentChain] at hfound
  registered? _ _ := rfl
  plain_registered {w text t} ht := fun hhygienic => by
    obtain ⟨x, -, ht⟩ := Option.bind_eq_some_iff.mp ht
    exact hhygienic.neat ht
  registrySize _ := rfl
  instance? _ _ := rfl
  plain_instance {w key s} hs := w.recorded hs
  strict _ h := h
  emit {w e e'} _ := by
    have hgrows : w.left.Grows { w.left with events := w.left.events.push e } := by
      refine ⟨fun _ _ hu => hu, fun _ hkey => hkey, fun g hg => ?_⟩
      simp only [Session.templates, Array.toList_push, List.filterMap_append]
      exact List.mem_append_left _ hg
    refine ⟨⟨{ w.left with events := w.left.events.push e }, w.scopes, w.events.push e', w.links,
      fun q x => Paired.rel_later hgrows (w.bound q x),
      fun hs hhygienic => w.recorded hs (hgrows.hygienic hhygienic), w.kept⟩, rfl, rfl, hgrows, ?_⟩
    rintro g g' sig rfl hg
    refine readies hold hnew hg.1 ?_
    simp [Session.templates]
  intern w name := moves_within (w.left.context.intern name).2 rfl (fun _ _ hu => hu) rfl
    fun _ _ => rfl
  bind {w s x y t t'} _ hxy ht := by
    obtain rfl := hxy
    exact moves_bind s y (paired_iff.mp ht)
  child {w s} _ := moves_openScope (some s) none fun _ =>
    ⟨congrArg ScopeId.mk w.links.size, trivial⟩
  memberTable {w s parent} _ _ _ := moves_openScope (parent.map ClassTy.fields) (some s) fun _ =>
    ⟨congrArg ScopeId.mk w.links.size, trivial, fun _ _ h => by cases h⟩
  declare {w name t} _ _ := moves_declare name t
  cache {w text t} _ _ := by
    obtain ⟨v, hleft, hright, hv, hpost⟩ := moves_cache (w := w) text t
    exact ⟨v, hleft, hright, hv, rfl, hpost⟩
  newTemplate w := moves_within w.left.context.newTemplate.2 rfl (fun _ _ hu => hu) rfl
    fun _ _ => rfl
  record {w s} key hs := moves_record key hs
  forget _ h := h.elim

end Laws

end twinning

end TypedLisp
