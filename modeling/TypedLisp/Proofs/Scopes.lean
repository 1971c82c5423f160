import TypedLisp.Scope

namespace TypedLisp.Arena

variable {α : Type}

@[simp]
theorem size_define (a : Arena α) (s : ScopeId) (name : Symbol) (value : α) :
    (a.define s name value).size = a.size := by
  simp [size, define]

@[simp]
theorem size_openScope (a : Arena α) (scope : Scope α) :
    (a.openScope scope).2.size = a.size + 1 := by
  simp [size, openScope]

theorem getElem?_openScope (a : Arena α) (scope : Scope α) (i : Nat) :
    (a.openScope scope).2.scopes[i]? = if i = a.size then some scope else a.scopes[i]? :=
  Array.getElem?_push

theorem binding?_openScope (a : Arena α) (scope : Scope α) (q : ScopeId) (name : Symbol) :
    (a.openScope scope).2.binding? q name =
      if q.index = a.size then scope.bindings[name]? else a.binding? q name := by
  rw [binding?, getElem?_openScope]
  split <;> rfl

theorem parent?_openScope (a : Arena α) (scope : Scope α) (q : ScopeId) :
    (a.openScope scope).2.parent? q =
      if q.index = a.size then scope.parent else a.parent? q := by
  rw [parent?, getElem?_openScope]
  split <;> rfl

theorem outer?_openScope (a : Arena α) (scope : Scope α) (q : ScopeId) :
    (a.openScope scope).2.outer? q =
      if q.index = a.size then scope.outer else a.outer? q := by
  rw [outer?, getElem?_openScope]
  split <;> rfl

theorem index_lt_of_binding? {a : Arena α} {q : ScopeId} {name : Symbol} {value : α}
    (h : a.binding? q name = some value) : q.index < a.size := by
  obtain ⟨scope, hscope, -⟩ := Option.bind_eq_some_iff.mp h
  exact (Array.getElem?_eq_some_iff.mp hscope).1

theorem exists_mem_of_binding? {a : Arena α} {q : ScopeId} {name : Symbol} {value : α}
    (h : a.binding? q name = some value) :
    ∃ scope ∈ a.scopes.toList, (name, value) ∈ scope.bindings.toList := by
  obtain ⟨scope, hscope, hvalue⟩ := Option.bind_eq_some_iff.mp h
  refine ⟨scope, Array.mem_toList_iff.mpr (Array.mem_of_getElem? hscope), ?_⟩
  exact Std.TreeMap.mem_toList_iff_getElem?_eq_some.mpr hvalue

theorem exists_binding?_of_lookup? {a : Arena α} {s : ScopeId} {name : Symbol} {value : α}
    (h : a.lookup? s name = some value) : ∃ q, a.binding? q name = some value := by
  obtain ⟨q, -, hq⟩ := List.exists_of_findSome?_eq_some h
  exact ⟨q, hq⟩

theorem exists_binding?_of_member? {a : Arena α} {s : ScopeId} {name : Symbol} {value : α}
    (h : a.member? s name = some value) : ∃ q, a.binding? q name = some value := by
  obtain ⟨q, -, hq⟩ := List.exists_of_findSome?_eq_some h
  exact ⟨q, hq⟩

theorem index_le_of_mem_parentChain {a : Arena α} {s q : ScopeId} (h : q ∈ a.parentChain s) :
    q.index ≤ s.index := by
  fun_induction parentChain a s with
  | case1 s hp => exact Nat.le_of_eq (congrArg _ (List.mem_singleton.mp h))
  | case2 s p hp hlt ih =>
      rcases List.mem_cons.mp h with rfl | h
      · exact Nat.le_refl _
      · exact Nat.le_trans (ih h) (Nat.le_of_lt hlt)
  | case3 s p hp hlt => exact Nat.le_of_eq (congrArg _ (List.mem_singleton.mp h))

theorem index_le_of_mem_searchOrder {a : Arena α} {s q : ScopeId} (h : q ∈ a.searchOrder s) :
    q.index ≤ s.index := by
  fun_induction searchOrder a s with
  | case1 s ih =>
      rcases List.mem_append.mp h with h | h
      · exact index_le_of_mem_parentChain h
      · split at h
        · cases h
        · next o _ =>
            split at h
            · next hlt => exact Nat.le_trans (ih o hlt h) (Nat.le_of_lt hlt)
            · cases h

theorem findSome?_congr {β γ : Type} {f g : β → Option γ} {l : List β} (h : ∀ x ∈ l, f x = g x) :
    l.findSome? f = l.findSome? g := by
  induction l with
  | nil => rfl
  | cons x l ih =>
      rw [List.findSome?_cons, List.findSome?_cons, h x (by simp),
        ih fun y hy => h y (List.mem_cons_of_mem _ hy)]

/-- The chain of parents depends on the links of earlier scopes only. -/
theorem parentChain_congr {a b : Arena α} {s : ScopeId}
    (h : ∀ {q : ScopeId}, q.index ≤ s.index → b.parent? q = a.parent? q) :
    b.parentChain s = a.parentChain s := by
  fun_induction parentChain a s with
  | case1 s hp => rw [parentChain, h (Nat.le_refl _), hp]
  | case2 s p hp hlt ih =>
      rw [parentChain, h (Nat.le_refl _), hp]
      simp only [hlt, if_true]
      rw [ih fun hq => h (Nat.le_trans hq (Nat.le_of_lt hlt))]
  | case3 s p hp hlt =>
      rw [parentChain, h (Nat.le_refl _), hp]
      simp only [hlt, if_false]

theorem searchOrder_congr {a b : Arena α} {s : ScopeId}
    (hparent : ∀ {q : ScopeId}, q.index ≤ s.index → b.parent? q = a.parent? q)
    (houter : ∀ {q : ScopeId}, q.index ≤ s.index → b.outer? q = a.outer? q) :
    b.searchOrder s = a.searchOrder s := by
  fun_induction searchOrder a s with
  | case1 s ih =>
      have hnearest : b.nearestOuter? s = a.nearestOuter? s := by
        rw [nearestOuter?, nearestOuter?, parentChain_congr hparent]
        exact findSome?_congr fun q hq => houter (index_le_of_mem_parentChain hq)
      rw [searchOrder, parentChain_congr hparent, hnearest]
      cases ho : a.nearestOuter? s with
      | none => rfl
      | some o =>
          by_cases hlt : o.index < s.index
          · have hle {q : ScopeId} (hq : q.index ≤ o.index) : q.index ≤ s.index :=
              Nat.le_trans hq (Nat.le_of_lt hlt)
            simp only [hlt, if_true]
            rw [ih o hlt (fun hq => hparent (hle hq)) fun hq => houter (hle hq)]
          · simp only [hlt, if_false]

/-- All scopes of one arena are in another, at the same places. -/
structure Prefix (a b : Arena α) : Prop where
  size : a.size ≤ b.size
  same : ∀ {i}, i < a.size → b.scopes[i]? = a.scopes[i]?

namespace Prefix

variable {a b c : Arena α}

theorem refl (a : Arena α) : a.Prefix a :=
  ⟨Nat.le_refl _, fun _ => rfl⟩

theorem trans (hab : a.Prefix b) (hbc : b.Prefix c) : a.Prefix c :=
  ⟨Nat.le_trans hab.size hbc.size,
    fun hi => (hbc.same (Nat.lt_of_lt_of_le hi hab.size)).trans (hab.same hi)⟩

theorem openScope (a : Arena α) (scope : Scope α) : a.Prefix (a.openScope scope).2 := by
  refine ⟨by simp, ?_⟩
  intro i hi
  rw [getElem?_openScope, if_neg (Nat.ne_of_lt hi)]

theorem define (h : a.Prefix b) {s : ScopeId} (hs : a.size ≤ s.index) (name : Symbol) (value : α) :
    a.Prefix (b.define s name value) := by
  refine ⟨by simpa using h.size, ?_⟩
  intro i hi
  have hne : ¬s.index = i := Nat.ne_of_gt (Nat.lt_of_lt_of_le hi hs)
  rw [Arena.define, Array.getElem?_modify, if_neg hne, h.same hi]

theorem binding? (h : a.Prefix b) {q : ScopeId} (hq : q.index < a.size) (name : Symbol) :
    b.binding? q name = a.binding? q name := by
  rw [Arena.binding?, Arena.binding?, h.same hq]

theorem parent? (h : a.Prefix b) {q : ScopeId} (hq : q.index < a.size) :
    b.parent? q = a.parent? q := by
  rw [Arena.parent?, Arena.parent?, h.same hq]

theorem outer? (h : a.Prefix b) {q : ScopeId} (hq : q.index < a.size) :
    b.outer? q = a.outer? q := by
  rw [Arena.outer?, Arena.outer?, h.same hq]

theorem parentChain (h : a.Prefix b) {s : ScopeId} (hs : s.index < a.size) :
    b.parentChain s = a.parentChain s :=
  parentChain_congr fun hq => h.parent? (Nat.lt_of_le_of_lt hq hs)

theorem searchOrder (h : a.Prefix b) {s : ScopeId} (hs : s.index < a.size) :
    b.searchOrder s = a.searchOrder s :=
  searchOrder_congr (fun hq => h.parent? (Nat.lt_of_le_of_lt hq hs))
    fun hq => h.outer? (Nat.lt_of_le_of_lt hq hs)

theorem lookup? (h : a.Prefix b) {s : ScopeId} (hs : s.index < a.size) (name : Symbol) :
    b.lookup? s name = a.lookup? s name := by
  rw [Arena.lookup?, Arena.lookup?, h.searchOrder hs]
  refine findSome?_congr fun q hq => h.binding? ?_ name
  exact Nat.lt_of_le_of_lt (index_le_of_mem_searchOrder hq) hs

theorem member? (h : a.Prefix b) {s : ScopeId} (hs : s.index < a.size) (name : Symbol) :
    b.member? s name = a.member? s name := by
  rw [Arena.member?, Arena.member?, h.parentChain hs]
  refine findSome?_congr fun q hq => h.binding? ?_ name
  exact Nat.lt_of_le_of_lt (index_le_of_mem_parentChain hq) hs

end Prefix

/-- All links lead to scopes opened earlier. -/
structure Ordered (a : Arena α) : Prop where
  parents : ∀ {q p}, a.parent? q = some p → p.index < q.index
  outers : ∀ {q o}, a.outer? q = some o → o.index < q.index

theorem Ordered.define {a : Arena α} (h : a.Ordered) (s : ScopeId) (name : Symbol) (value : α) :
    (a.define s name value).Ordered where
  parents hp := h.parents (parent?_define a .. ▸ hp)
  outers ho := h.outers (outer?_define a .. ▸ ho)

theorem Ordered.openScope {a : Arena α} (h : a.Ordered) {scope : Scope α}
    (hparent : ∀ p ∈ scope.parent, p.index < a.size)
    (houter : ∀ o ∈ scope.outer, o.index < a.size) : (a.openScope scope).2.Ordered where
  parents {q p} hp := by
    rw [parent?_openScope] at hp
    split at hp
    · next hq => exact hq ▸ hparent p hp
    · exact h.parents hp
  outers {q o} ho := by
    rw [outer?_openScope] at ho
    split at ho
    · next hq => exact hq ▸ houter o ho
    · exact h.outers ho

theorem Ordered.parentChain_eq {a : Arena α} (h : a.Ordered) (s : ScopeId) :
    a.parentChain s = s :: (a.parent? s).elim [] a.parentChain := by
  rw [parentChain]
  cases hp : a.parent? s with
  | none => rfl
  | some p => exact if_pos (h.parents hp)

theorem Ordered.index_lt_of_nearestOuter? {a : Arena α} (h : a.Ordered) {s o : ScopeId}
    (ho : a.nearestOuter? s = some o) : o.index < s.index := by
  obtain ⟨q, hq, hqo⟩ := List.exists_of_findSome?_eq_some ho
  exact Nat.lt_of_lt_of_le (h.outers hqo) (index_le_of_mem_parentChain hq)

/-- After a chain of parents comes all that is seen from the nearest outer scope. -/
theorem Ordered.searchOrder_eq {a : Arena α} (h : a.Ordered) (s : ScopeId) :
    a.searchOrder s = a.parentChain s ++ (a.nearestOuter? s).elim [] a.searchOrder := by
  rw [searchOrder]
  cases ho : a.nearestOuter? s with
  | none => rfl
  | some o => exact congrArg _ (if_pos (h.index_lt_of_nearestOuter? ho))

theorem Ordered.searchOrder_child {a : Arena α} (h : a.Ordered) {s p : ScopeId}
    (hp : a.parent? s = some p) (ho : a.outer? s = none) :
    a.searchOrder s = s :: a.searchOrder p := by
  have hchain : a.parentChain s = s :: a.parentChain p := by
    rw [h.parentChain_eq, hp]
    rfl
  have hnearest : a.nearestOuter? s = a.nearestOuter? p := by
    rw [nearestOuter?, hchain, List.findSome?_cons, ho]
    rfl
  rw [h.searchOrder_eq, h.searchOrder_eq p, hchain, hnearest, List.cons_append]

theorem Ordered.lookup?_child {a : Arena α} (h : a.Ordered) {s p : ScopeId}
    (hp : a.parent? s = some p) (ho : a.outer? s = none) (name : Symbol) :
    a.lookup? s name = (a.binding? s name).or (a.lookup? p name) := by
  rw [lookup?, h.searchOrder_child hp ho, List.findSome?_cons]
  cases a.binding? s name <;> rfl

/-- Bind names in a scope, one after the other. -/
def defineAll (a : Arena α) (s : ScopeId) (bindings : List (Symbol × α)) : Arena α :=
  bindings.foldl (fun a b => a.define s b.1 b.2) a

/-- The value bound to a name; of several the last. -/
def lastBound? (name : Symbol) : List (Symbol × α) → Option α
  | [] => none
  | b :: bindings => (lastBound? name bindings).or (if b.1 = name then some b.2 else none)

theorem exists_mem_of_lastBound? {name : Symbol} {bindings : List (Symbol × α)} {value : α}
    (h : lastBound? name bindings = some value) : ∃ b ∈ bindings, b.1 = name := by
  induction bindings with
  | nil => cases h
  | cons b bindings ih =>
      rcases Option.or_eq_some_iff.mp h with h | ⟨-, h⟩
      · obtain ⟨c, hc, hname⟩ := ih h
        exact ⟨c, List.mem_cons_of_mem _ hc, hname⟩
      · split at h
        · next hname => exact ⟨b, List.mem_cons_self, hname⟩
        · cases h

theorem defineAll_cons (a : Arena α) (s : ScopeId) (b : Symbol × α) (bindings : List (Symbol × α)) :
    a.defineAll s (b :: bindings) = (a.define s b.1 b.2).defineAll s bindings := rfl

@[simp]
theorem size_defineAll (a : Arena α) (s : ScopeId) (bindings : List (Symbol × α)) :
    (a.defineAll s bindings).size = a.size := by
  induction bindings generalizing a with
  | nil => rfl
  | cons b bindings ih => rw [defineAll_cons, ih, size_define]

theorem parent?_defineAll (a : Arena α) (s q : ScopeId) (bindings : List (Symbol × α)) :
    (a.defineAll s bindings).parent? q = a.parent? q := by
  induction bindings generalizing a with
  | nil => rfl
  | cons b bindings ih => rw [defineAll_cons, ih, parent?_define]

theorem outer?_defineAll (a : Arena α) (s q : ScopeId) (bindings : List (Symbol × α)) :
    (a.defineAll s bindings).outer? q = a.outer? q := by
  induction bindings generalizing a with
  | nil => rfl
  | cons b bindings ih => rw [defineAll_cons, ih, outer?_define]

theorem binding?_defineAll {a : Arena α} {s : ScopeId} (hs : s.index < a.size) (q : ScopeId)
    (bindings : List (Symbol × α)) (name : Symbol) :
    (a.defineAll s bindings).binding? q name =
      if s = q then (lastBound? name bindings).or (a.binding? q name) else a.binding? q name := by
  induction bindings generalizing a with
  | nil =>
      rw [lastBound?, Option.none_or, ite_self]
      rfl
  | cons b bindings ih =>
      rw [defineAll_cons, ih (by simpa using hs), binding?_define _ _ _ _ _ _ hs, lastBound?]
      by_cases hq : s = q
      · by_cases hname : b.1 = name
        · simp [hq, hname]
        · simp [hq, hname]
      · simp [hq]

theorem Prefix.defineAll {a b : Arena α} (h : a.Prefix b) {s : ScopeId} (hs : a.size ≤ s.index)
    (bindings : List (Symbol × α)) : a.Prefix (b.defineAll s bindings) := by
  induction bindings generalizing b with
  | nil => exact h
  | cons entry bindings ih => exact ih (h.define hs entry.1 entry.2)

/-- The same scopes, whatever they bind. -/
structure SameLinks (a b : Arena α) : Prop where
  size : b.size = a.size
  parent? : ∀ q, b.parent? q = a.parent? q
  outer? : ∀ q, b.outer? q = a.outer? q

namespace SameLinks

theorem refl (a : Arena α) : a.SameLinks a :=
  ⟨rfl, fun _ => rfl, fun _ => rfl⟩

variable {a b : Arena α} (h : a.SameLinks b)

include h

theorem parentChain (s : ScopeId) : b.parentChain s = a.parentChain s :=
  parentChain_congr fun _ => h.parent? _

theorem searchOrder (s : ScopeId) : b.searchOrder s = a.searchOrder s :=
  searchOrder_congr (fun _ => h.parent? _) fun _ => h.outer? _

theorem define_right (q : ScopeId) (name : Symbol) (value : α) :
    a.SameLinks (b.define q name value) :=
  ⟨(size_define ..).trans h.size, fun s => (parent?_define ..).trans (h.parent? s),
    fun s => (outer?_define ..).trans (h.outer? s)⟩

theorem define_left (q : ScopeId) (name : Symbol) (value : α) :
    (a.define q name value).SameLinks b :=
  ⟨h.size.trans (size_define ..).symm, fun s => (h.parent? s).trans (parent?_define ..).symm,
    fun s => (h.outer? s).trans (outer?_define ..).symm⟩

theorem openScope (scope : Scope α) : (a.openScope scope).2.SameLinks (b.openScope scope).2 where
  size := by simp [h.size]
  parent? q := by rw [parent?_openScope, parent?_openScope, h.size, h.parent?]
  outer? q := by rw [outer?_openScope, outer?_openScope, h.size, h.outer?]

end SameLinks

theorem rel_findSome? {α β : Type} {related : α → β → Prop} {order : List ScopeId}
    {f : ScopeId → Option α} {g : ScopeId → Option β}
    (h : ∀ q ∈ order, Option.Rel related (f q) (g q)) :
    Option.Rel related (order.findSome? f) (order.findSome? g) := by
  induction order with
  | nil => exact .none
  | cons q order ih =>
      obtain ⟨hq, horder⟩ := List.forall_mem_cons.mp h
      rw [List.findSome?_cons, List.findSome?_cons]
      generalize f q = left, g q = right at hq ⊢
      cases hq with
      | none => exact ih horder
      | some ht => exact .some ht

theorem binding?_define_of_le {α : Type} {a : Arena α} {s : ScopeId} (hs : a.size ≤ s.index)
    (name : Symbol) (value : α) (q : ScopeId) (other : Symbol) :
    (a.define s name value).binding? q other = a.binding? q other := by
  rw [binding?, define, Array.getElem?_modify]
  split
  · next hq => rw [binding?, ← hq, Array.getElem?_eq_none hs, Option.map_none]
  · rfl

theorem binding?_define_cases {a : Arena α} {s q : ScopeId} {name other : Symbol} {value found : α}
    (h : (a.define s name value).binding? q other = some found) :
    (name = other ∧ value = found) ∨ a.binding? q other = some found := by
  by_cases hs : s.index < a.size
  · rw [binding?_define _ _ _ _ _ _ hs] at h
    split at h
    · next heq => exact .inl ⟨heq.2, Option.some.inj h⟩
    · exact .inr h
  · rw [binding?_define_of_le (Nat.le_of_not_lt hs)] at h
    exact .inr h

theorem binding?_openScope_blank (a : Arena α) (parent outer : Option ScopeId) (q : ScopeId)
    (name : Symbol) :
    (a.openScope { parent, outer }).2.binding? q name = a.binding? q name := by
  rw [binding?_openScope]
  split
  · next hq =>
      cases hbound : a.binding? q name with
      | none => simp
      | some value => exact absurd (index_lt_of_binding? hbound) (by omega)
  · rfl

end TypedLisp.Arena
