import TypedLisp.Proofs.Names
import TypedLisp.Proofs.Search

namespace TypedLisp

namespace Arena

variable {α : Type} {a b : Arena α} {s : ScopeId} {name : Symbol} {order : List ScopeId}

/-- One more scope is opened, with links to open scopes. -/
inductive Opens (a : Arena α) : Arena α → Prop where
  | child {parent : ScopeId} (hparent : parent.index < a.size) : Opens a (a.child parent).2
  | detached {outer : Option ScopeId} (houter : ∀ o ∈ outer, o.index < a.size) :
      Opens a (a.detached outer).2
  | memberTable {parent : Option ScopeId} {outer : ScopeId}
      (hparent : ∀ p ∈ parent, p.index < a.size) (houter : outer.index < a.size) :
      Opens a (a.memberTable parent outer).2

/-- The arenas that come of an empty one by opening scopes and binding names in open scopes. -/
inductive Arises : Arena α → Prop where
  | empty : Arises empty
  | opens {a b : Arena α} (ha : Arises a) (h : a.Opens b) : Arises b
  | define {a : Arena α} (ha : Arises a) {s : ScopeId} (hs : s.index < a.size) (name : Symbol)
      (value : α) : Arises (a.define s name value)

theorem Opens.exists_scope (h : a.Opens b) :
    ∃ scope : Scope α, b = (a.openScope scope).2 ∧ (∀ p ∈ scope.parent, p.index < a.size) ∧
      ∀ o ∈ scope.outer, o.index < a.size := by
  cases h with
  | child hparent => exact ⟨_, rfl, by simpa using hparent, by simp⟩
  | detached houter => exact ⟨_, rfl, by simp, houter⟩
  | memberTable hparent houter => exact ⟨_, rfl, hparent, by simpa using houter⟩

theorem Opens.isPrefix (h : a.Opens b) : a.Prefix b := by
  obtain ⟨scope, rfl, -⟩ := h.exists_scope
  exact .openScope a scope

theorem Arises.ordered (ha : a.Arises) : a.Ordered := by
  induction ha with
  | empty => exact rooted_empty.toOrdered
  | opens _ h ih =>
      obtain ⟨scope, rfl, hparent, houter⟩ := h.exists_scope
      exact ih.openScope hparent houter
  | define _ _ name value ih => exact ih.define _ name value

/-- A scope comes, in some order, before all others that bind a name. -/
def Foremost (a : Arena α) (s : ScopeId) (name : Symbol) (order : List ScopeId) : Prop :=
  ∃ before after, order = before ++ s :: after ∧ ∀ r ∈ before, a.binding? r name = none

theorem not_foremost_nil : ¬a.Foremost s name [] := by
  rintro ⟨before, after, horder, -⟩
  simp at horder

theorem foremost_cons_iff {r : ScopeId} :
    a.Foremost s name (r :: order) ↔
      r = s ∨ a.binding? r name = none ∧ a.Foremost s name order := by
  constructor
  · rintro ⟨before, after, horder, hbefore⟩
    cases before with
    | nil => exact .inl (List.cons.inj horder).1
    | cons r' before =>
        obtain ⟨rfl, rfl⟩ := List.cons.inj horder
        obtain ⟨hr, hbefore⟩ := List.forall_mem_cons.mp hbefore
        exact .inr ⟨hr, before, after, rfl, hbefore⟩
  · rintro (rfl | ⟨hr, before, after, rfl, hbefore⟩)
    · exact ⟨[], order, rfl, by simp⟩
    · exact ⟨r :: before, after, rfl, List.forall_mem_cons.mpr ⟨hr, hbefore⟩⟩

instance decidableForemost (a : Arena α) (s : ScopeId) (name : Symbol) :
    ∀ order, Decidable (a.Foremost s name order)
  | [] => isFalse not_foremost_nil
  | r :: order =>
      have := decidableForemost a s name order
      decidable_of_iff (r = s ∨ (a.binding? r name).isNone = true ∧ a.Foremost s name order)
        (by rw [foremost_cons_iff, Option.isNone_iff_eq_none])

theorem findSome?_define (hs : s.index < a.size) (value : α) (order : List ScopeId) :
    (order.findSome? fun r => (a.define s name value).binding? r name) =
      if a.Foremost s name order then some value
      else order.findSome? fun r => a.binding? r name := by
  induction order with
  | nil => rw [if_neg not_foremost_nil, List.findSome?_nil, List.findSome?_nil]
  | cons r order ih =>
      rw [List.findSome?_cons, List.findSome?_cons, binding?_define _ _ _ _ _ _ hs, ih]
      by_cases hr : r = s
      · rw [if_pos ⟨hr.symm, rfl⟩, if_pos (foremost_cons_iff.mpr (.inl hr))]
      · rw [if_neg fun heq => hr heq.1.symm]
        cases hold : a.binding? r name with
        | none => simp [foremost_cons_iff, hr, hold]
        | some old => simp [foremost_cons_iff, hr, hold]

theorem lookup?_define (hs : s.index < a.size) (value : α) (q : ScopeId) (other : Symbol) :
    (a.define s name value).lookup? q other =
      if other = name ∧ a.Foremost s name (a.searchOrder q) then some value
      else a.lookup? q other := by
  have horder : (a.define s name value).searchOrder q = a.searchOrder q :=
    ((SameLinks.refl a).define_right s name value).searchOrder q
  rw [lookup?, horder]
  by_cases hname : other = name
  · subst hname
    simp only [true_and]
    exact findSome?_define hs value (a.searchOrder q)
  · rw [if_neg fun h => hname h.1]
    refine findSome?_congr fun r _ => ?_
    rw [binding?_define _ _ _ _ _ _ hs, if_neg fun heq => hname heq.2.symm]

theorem searchOrder_eq_cons (a : Arena α) (s : ScopeId) :
    ∃ rest, a.searchOrder s = s :: rest := by
  rw [searchOrder, parentChain.eq_def]
  split
  · exact ⟨_, rfl⟩
  · split <;> exact ⟨_, rfl⟩

theorem lookup?_of_member? {q : ScopeId} {value : α} (h : a.member? q name = some value) :
    a.lookup? q name = some value := by
  rw [lookup?, searchOrder, List.findSome?_append, ← member?, h, Option.some_or]

/-- Binding a name in a scope changes what is found of it from just those scopes that see this one,
with no binding of the name before it in the order of their search: the chain of parents, then all
that is seen from the nearest outer scope. From these the new binding is found; all else is found as
before. Opening a scope changes nothing that is found from the others, and a member is found by
every lookup. -/
theorem define_seen_exactly {a : Arena α} (ha : a.Arises) :
    (∀ q, a.parentChain q = q :: (a.parent? q).elim [] a.parentChain ∧
      a.searchOrder q = a.parentChain q ++ (a.nearestOuter? q).elim [] a.searchOrder) ∧
    (∀ s name value, s.index < a.size → ∀ q other,
      (a.define s name value).lookup? q other =
        if other = name ∧ a.Foremost s name (a.searchOrder q) then some value
        else a.lookup? q other) ∧
    (∀ b, a.Opens b → ∀ q name, q.index < a.size →
      b.lookup? q name = a.lookup? q name ∧ b.member? q name = a.member? q name) ∧
    ∀ q name value, a.member? q name = some value → a.lookup? q name = some value := by
  refine ⟨fun q => ?_, fun s name value hs => ?_, fun b hb q name hq => ?_, fun _ _ _ => ?_⟩
  · exact ⟨ha.ordered.parentChain_eq q, ha.ordered.searchOrder_eq q⟩
  · exact lookup?_define hs value
  · exact ⟨hb.isPrefix.lookup? hq name, hb.isPrefix.member? hq name⟩
  · exact lookup?_of_member?

/-- A block, the table of a class that is declared in it, binding one name, and the scope of a
method. -/
def methodArena : Arena Ty :=
  ((((empty.child global).2.detached (some ⟨1⟩)).2.define ⟨2⟩ ⟨0⟩ .string).child ⟨2⟩).2

theorem arises_methodArena : methodArena.Arises := by
  have hblock : ((empty : Arena Ty).child global).2.Arises := .opens .empty (.child (by decide))
  have htable : (((empty : Arena Ty).child global).2.detached (some ⟨1⟩)).2.Arises :=
    hblock.opens (.detached (by decide))
  exact (htable.define (s := ⟨2⟩) (by decide) ⟨0⟩ .string).opens (.child (by decide))

/-- From the method, a name bound in the block is found by the outer link of the table; but the name
that the table binds is found in the table. -/
theorem define_seen_exactly_from_method :
    methodArena.Arises ∧
      (methodArena.define ⟨1⟩ ⟨1⟩ .number).lookup? ⟨3⟩ ⟨1⟩ = some .number ∧
      (methodArena.define ⟨1⟩ ⟨0⟩ .number).lookup? ⟨3⟩ ⟨0⟩ = methodArena.lookup? ⟨3⟩ ⟨0⟩ := by
  obtain ⟨-, hdefine, -⟩ := define_seen_exactly arises_methodArena
  refine ⟨arises_methodArena, ?_, ?_⟩
  · rw [hdefine _ _ _ (by decide), if_pos (by decide +kernel)]
  · rw [hdefine _ _ _ (by decide), if_neg (by decide +kernel)]

end Arena

namespace Context

variable {c : Context} {s : ScopeId} {name : String}

theorem lookup?_define (hs : s.index < c.scopes.size) (name : String) (t : Ty) :
    (c.define s name t).lookup? s name = some t := by
  have hget : (c.intern name).2.interner.get? name = some (c.intern name).1 :=
    c.interner.get?_intern name
  have hlookup : (c.define s name t).lookup? s name = ((c.intern name).2.interner.get? name).bind
      ((c.scopes.define s (c.intern name).1 t).lookup? s) := rfl
  have hforemost : c.scopes.Foremost s (c.intern name).1 (c.scopes.searchOrder s) := by
    obtain ⟨rest, hrest⟩ := c.scopes.searchOrder_eq_cons s
    exact ⟨[], rest, hrest, by simp⟩
  rw [hlookup, hget, Option.bind_some, Arena.lookup?_define hs, if_pos ⟨rfl, hforemost⟩]

/-- What a scope itself binds to a name. -/
def bound? (c : Context) (q : ScopeId) (name : String) : Option Ty :=
  (c.interner.get? name).bind (c.scopes.binding? q)

theorem lookup?_eq_findSome? (c : Context) (s : ScopeId) (name : String) :
    c.lookup? s name = (c.scopes.searchOrder s).findSome? fun q => c.bound? q name := by
  unfold lookup? bound?
  cases c.interner.get? name with
  | none => exact (List.findSome?_eq_none_iff.mpr fun _ _ => rfl).symm
  | some x => rfl

theorem member?_eq_findSome? (c : Context) (s : ScopeId) (name : String) :
    c.member? s name = (c.scopes.parentChain s).findSome? fun q => c.bound? q name := by
  unfold member? bound?
  cases c.interner.get? name with
  | none => exact (List.findSome?_eq_none_iff.mpr fun _ _ => rfl).symm
  | some x => rfl

theorem bound?_bind (hs : s.index < c.scopes.size) {x : Symbol}
    (hx : c.interner.resolve? x = some name) (t : Ty) (q : ScopeId) (other : String) :
    (c.bind s x t).bound? q other =
      if s = q ∧ name = other then some t else c.bound? q other := by
  have hget : c.interner.get? name = some x := Interner.get?_eq_some_iff.mpr hx
  have hbound : (c.bind s x t).bound? q other =
      (c.interner.get? other).bind ((c.scopes.define s x t).binding? q) := rfl
  rw [hbound, bound?]
  cases hother : c.interner.get? other with
  | none =>
      have hne : name ≠ other := by
        rintro rfl
        cases hget.symm.trans hother
      simp [hne]
  | some y =>
      -- Interned names and their symbols determine each other.
      have hsame : x = y ↔ name = other := by
        rw [Interner.get?_eq_some_iff] at hother
        constructor
        · rintro rfl
          exact Option.some.inj (hx.symm.trans hother)
        · rintro rfl
          exact Option.some.inj (hget.symm.trans (Interner.get?_eq_some_iff.mpr hother))
      simp only [Option.bind_some, Arena.binding?_define _ _ _ _ _ _ hs, hsame]

end Context

end TypedLisp
