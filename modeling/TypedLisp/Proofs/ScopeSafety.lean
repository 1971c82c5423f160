import TypedLisp.Proofs.Grounding
import TypedLisp.Proofs.Registry

namespace TypedLisp

open CheckM

/-- A type refers to a scope: to the table of a class in it, or to the closure of a template. -/
inductive Ty.RefersTo : Ty → ScopeId → Prop where
  | param {params : List Ty} {p result : Ty} {q : ScopeId} (hp : p ∈ params) (h : RefersTo p q) :
      RefersTo (.function params result) q
  | result {params : List Ty} {result : Ty} {q : ScopeId} (h : RefersTo result q) :
      RefersTo (.function params result) q
  | parent {name : String} {parent : Ty} {q : ScopeId} (h : RefersTo parent q) :
      RefersTo (.aliasOf name parent) q
  | option {id : Nat} {name : String} {options : List Ty} {o : Ty} {q : ScopeId} (ho : o ∈ options)
      (h : RefersTo o q) : RefersTo (.union id name options) q
  | table {c : ClassTy} {row : ClassRow} (hrow : row ∈ c.row :: c.ancestors) :
      RefersTo (.ofClass c) row.fields
  | closure (g : Template) : RefersTo (.template g) g.closure

theorem Ty.Built.isTable_of_refersTo {IsTable : ScopeId → Prop} {t : Ty} (ht : t.Built IsTable)
    {q : ScopeId} (hq : t.RefersTo q) : IsTable q := by
  induction hq with
  | param hp _ ih => exact ih ((function_iff.mp ht).1 _ hp)
  | result _ ih => exact ih (function_iff.mp ht).2
  | parent _ ih => exact ih (aliasOf_iff.mp ht)
  | option ho _ ih =>
      cases ht with
      | union hoptions => exact ih (hoptions _ ho)
  | table hrow => exact ht.rows _ hrow
  | closure => cases ht

theorem Context.Holds.index_lt {c : Context} {t : Ty} (ht : c.Holds t) {q : ScopeId}
    (hq : t.RefersTo q) : q.index < c.scopes.size := by
  rcases ht with ht | ⟨g, rfl, hg⟩
  · exact (ht.isTable_of_refersTo hq).index_lt
  · cases hq
    exact hg.closure

namespace Workspace

variable {u v : Workspace}

/-- The checks that operations run. -/
inductive Allows (u : Workspace) : CheckM Ty → Prop where
  | expr (depth : Nat) (d : Datum) {s : ScopeId} (hs : s.index < u.context.scopes.size) :
      Allows u (checkExpr (bodyWithin depth) d s)
  | body (depth : Nat) (d : Datum) {s : ScopeId} (hs : s.index < u.context.scopes.size) :
      Allows u (checkBody (bodyWithin depth) d s)
  | block (depth : Nat) (ds : List Datum) {s : ScopeId} (hs : s.index < u.context.scopes.size) :
      Allows u (checkBlock (bodyWithin depth) ds s)
  | resolve (text : String) (expr : Datum) : Allows u (resolve text expr)
  | instantiate (depth : Nat) {g : Template} (hg : u.Has g) (list : String) (expr : Datum) :
      Allows u (do return (← instantiate (bodyWithin depth) g list expr).toTy)

/-- A type that is bound, registered, in the signature of an instance, or a template at hand. -/
inductive Contains (u : Workspace) : Ty → Prop where
  | bound {q : ScopeId} {x : Symbol} {t : Ty} (h : u.context.scopes.binding? q x = some t) :
      Contains u t
  | registered {x : Symbol} {t : Ty} (h : u.context.registry.get? x = some t) : Contains u t
  | recorded {key : InstanceKey} {s : Signature} (h : u.context.instance? key = some s) :
      Contains u s.toTy
  | template {g : Template} (h : u.Has g) : Contains u (.template g)

structure Laid (u : Workspace) : Prop where
  context : u.context.Laid
  templates : ∀ g ∈ u.templates, u.context.Closes g

theorem Laid.closes (hu : u.Laid) {g : Template} (hg : u.Has g) : u.context.Closes g := by
  rcases hg with hg | ⟨q, x, hbound⟩
  · exact hu.templates g hg
  · exact (hu.context.bound hbound).2.closes

theorem Laid.holds (hu : u.Laid) {t : Ty} (ht : u.Contains t) : u.context.Holds t := by
  cases ht with
  | bound h => exact (hu.context.bound h).2
  | registered h => exact .inl (hu.context.registered h)
  | recorded h => exact .inl (hu.context.recorded h)
  | template h => exact .inr ⟨_, rfl, hu.closes h⟩

theorem Laid.follows (hu : u.Laid) {m : CheckM Ty} (hm : u.Allows m) (events : Array Event) :
    grounding.Follows ⟨⟨u.context, events⟩, hu.context⟩ m m fun v t _ => v.1.context.Holds t := by
  have hbodies (depth : Nat) := Simulation.Follows.bodyWithin grounding.lawful grounding.pairs depth
  have hexpr (depth : Nat) := Simulation.Follows.checkExpr grounding.lawful grounding.pairs
    (hbodies depth)
  let start : grounding.State := ⟨⟨u.context, events⟩, hu.context⟩
  have hmatches (d : Datum) : grounding.Matches start d d := ⟨rfl, fun _ _ => trivial⟩
  cases hm with
  | expr depth d hs =>
      exact (hexpr depth d start d _ hs (hmatches d)).mono fun _ _ _ _ => grounding.holds_of_alike
  | body depth d hs =>
      exact (hbodies (depth + 1) start d d _ hs (hmatches d)).mono
        fun _ _ _ _ => grounding.holds_of_alike
  | block depth ds hs =>
      exact (Simulation.Follows.checkBlock (w := start) grounding.lawful grounding.pairs
        (fun d _ => hexpr depth d) hs (List.forall₂_same.mpr fun d _ => hmatches d)).mono
        fun _ _ _ _ => grounding.holds_of_alike
  | resolve text expr =>
      exact (Simulation.Follows.resolve grounding.lawful text expr expr).mono
        fun _ _ _ _ ht => .inl ht.2
  | instantiate depth hg list expr =>
      refine .bind grounding.lawful (Simulation.Follows.instantiate grounding.lawful
        grounding.pairs (hbodies depth) (grounding.made_of_closes (hu.closes hg)) list expr expr)
        fun v _ s _ hs => ?_
      exact .pure grounding.lawful (.inl (hs.1 ▸ hs.2))

theorem Laid.after (hu : u.Laid) {m : CheckM Ty} (hm : u.Allows m) (events : Array Event) :
    (u.after m events).Laid := by
  obtain ⟨hlaid, hlater, hresult, -⟩ := grounding.run_laid (hu.follows hm events)
  refine ⟨hlaid, fun g hg => ?_⟩
  have hkept : g ∈ u.templates → (u.after m events).context.Closes g :=
    fun hg => (hu.templates g hg).later hlater
  rw [Workspace.after] at hg
  dsimp only at hg
  split at hg
  · next h =>
      rcases List.mem_cons.mp hg with rfl | hg
      · exact (hresult _ h).closes
      · exact hkept hg
  · exact hkept hg

theorem after_instantiate (u : Workspace) (depth : Nat) (g : Template) (list : String)
    (expr : Datum) (events : Array Event) :
    u.after (do return (← instantiate (bodyWithin depth) g list expr).toTy) events =
      ⟨(Session.run ⟨u.context, events⟩ (instantiate (bodyWithin depth) g list expr)).2.context,
        u.templates⟩ := by
  rw [Workspace.after, Session.run_bind]
  generalize Session.run ⟨u.context, events⟩ _ = result
  obtain ⟨outcome, σ⟩ := result
  cases outcome <;> rfl

theorem Laid.operation (hu : u.Laid) (h : Operation u v) : v.Laid := by
  cases h with
  | expr depth d hs events => exact hu.after (.expr depth d hs) events
  | body depth d hs events => exact hu.after (.body depth d hs) events
  | block depth ds hs events => exact hu.after (.block depth ds hs) events
  | resolve text expr events => exact hu.after (.resolve text expr) events
  | instantiate depth hg list expr events =>
      rw [← after_instantiate]
      exact hu.after (.instantiate depth hg list expr) events

theorem Arises.laid (hu : u.Arises) : u.Laid := by
  obtain ⟨options, hoperations⟩ := hu
  induction hoperations with
  | refl => exact ⟨Context.laid_new options, by simp [new]⟩
  | tail _ hoperation ih => exact ih.operation hoperation

/-- Scopes are referred to only when they are open, and searching them is safe. -/
structure Grounded (u : Workspace) : Prop where
  /-- Links lead to scopes that were opened before. -/
  links : ∀ q p, u.context.scopes.parent? q = some p ∨ u.context.scopes.outer? q = some p →
    p.index < q.index ∧ p.index < u.context.scopes.size
  /-- What the workspace contains refers to open scopes. -/
  contained : ∀ t, u.Contains t → ∀ q, t.RefersTo q → q.index < u.context.scopes.size
  /-- So does what a check ends with. -/
  returned : ∀ m, u.Allows m → ∀ events t σ, Session.run ⟨u.context, events⟩ m = (.ok t, σ) →
    ∀ q, t.RefersTo q → q.index < σ.context.scopes.size
  /-- From an open scope, the search for the owner of a name ends with it, and so does the search for
  a member; what is found is what the owner binds. -/
  searched : ∀ s, s.index < u.context.scopes.size → ∀ x,
    u.context.scopes.Leads Scope.outer x (.visiting s none) (.ended (u.context.scopes.owner? s x)) ∧
    (u.context.scopes.lookup? s x =
      (u.context.scopes.owner? s x).bind fun q => u.context.scopes.binding? q x) ∧
    ∃ owner?, u.context.scopes.Leads (fun _ => none) x (.visiting s none) (.ended owner?) ∧
      u.context.scopes.member? s x = owner?.bind fun q => u.context.scopes.binding? q x
  /-- The global scope comes last. -/
  globalLast : ∀ s, s.index < u.context.scopes.size →
    ∃ before, u.context.scopes.searchOrder s = before ++ [Arena.global] ∧ Arena.global ∉ before
  /-- So no check is stopped for a name that the global scope binds. -/
  defined : ∀ m, u.Allows m → ∀ events halt σ,
    Session.run ⟨u.context, events⟩ m = (.error halt, σ) → ∀ name, halt.undefined? = some name →
      σ.context.lookup? Arena.global name = none ∧ u.context.lookup? Arena.global name = none

/-- Every workspace that arises from operations refers to open scopes only, and searches in it end
with the global scope. -/
theorem scopes_grounded {u : Workspace} (hu : u.Arises) : u.Grounded := by
  have hlaid := hu.laid
  have hrooted := hlaid.context.rooted
  constructor
  · intro q p hlink
    have hlt : p.index < q.index := hlink.elim hrooted.parents hrooted.outers
    have hopen : q.index < u.context.scopes.size := by
      rcases hlink with h | h
      all_goals
        obtain ⟨scope, hscope, -⟩ := Option.bind_eq_some_iff.mp h
        exact (Array.getElem?_eq_some_iff.mp hscope).1
    exact ⟨hlt, Nat.lt_trans hlt hopen⟩
  · intro t ht q hq
    exact (hlaid.holds ht).index_lt hq
  · intro m hm events t σ hrun q hq
    obtain ⟨-, -, hresult, -⟩ := grounding.run_laid (hlaid.follows hm events)
    rw [hrun] at hresult
    exact (hresult t rfl).index_lt hq
  · intro s hs x
    refine ⟨hrooted.leads_owner hs, Arena.lookup?_eq _ s x, _, hrooted.leads_member hs, ?_⟩
    exact Arena.findSome?_binding? _ x _
  · exact fun s hs => hrooted.searchOrder_eq_concat hs
  · intro m hm events halt σ hrun name hname
    obtain ⟨hafter, hlater, -, hlacks⟩ := grounding.run_laid (hlaid.follows hm events)
    rw [hrun] at hafter hlater hlacks
    have hunbound := hlacks halt name rfl hname
    exact ⟨hunbound, hlaid.context.lookup?_global_kept hafter hlater hunbound⟩

/-- In a block, a class below one that is declared outside of it. -/
def innerClass : Datum :=
  .list [.symbol "begin", .list [.symbol "class", .symbol "Spot", .symbol "Point",
    .list [.symbol "var", .symbol "y", .text "right"]]]

def withInnerClass : Workspace :=
  (new {}).after (checkBlock (bodyWithin 1) [pointClass, innerClass] Arena.global) #[]

/-- The table of the inner class has the other table as its parent and the block around it. -/
theorem scopes_grounded_of_inner_class :
    withInnerClass.Arises ∧ withInnerClass.Grounded ∧
      withInnerClass.context.scopes.parent? ⟨3⟩ = some ⟨1⟩ ∧
      withInnerClass.context.scopes.outer? ⟨3⟩ = some ⟨2⟩ ∧
      ∃ before, withInnerClass.context.scopes.searchOrder ⟨3⟩ = before ++ [Arena.global] := by
  have harises : withInnerClass.Arises :=
    ⟨{}, .single (.block 1 [pointClass, innerClass] Nat.one_pos #[])⟩
  have hgrounded := scopes_grounded harises
  have hopen : (⟨3⟩ : ScopeId).index < withInnerClass.context.scopes.size := by decide +kernel
  obtain ⟨before, hbefore, -⟩ := hgrounded.globalLast ⟨3⟩ hopen
  exact ⟨harises, hgrounded, by decide +kernel, by decide +kernel, before, hbefore⟩

end Workspace

end TypedLisp
