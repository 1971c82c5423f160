import Mathlib.Logic.Function.Iterate
import TypedLisp.Proofs.Scopes

/-!
Searching scopes for a name. Whatever the links, a search goes from frame to frame; with links that
lead to scopes opened earlier it ends, at the owner of the name if there is one. If every scope but
the global one is a child of another or the table of a class, the global scope is searched last.
-/

namespace TypedLisp

/-- A search on its way, with the frame to look at next and the nearest outer link so far; or ended,
with the owner of the name; or astray, at a frame that does not exist. -/
inductive Search where
  | visiting (frame : ScopeId) (outer : Option ScopeId)
  | ended (owner : Option ScopeId)
  | astray

/-- Where a search goes at the end of a chain of parents. -/
def Search.afterChain : Option ScopeId → Search
  | some next => .visiting next none
  | none => .ended none

namespace Arena

variable {α : Type} {a : Arena α} {links : Scope α → Option ScopeId} {name : Symbol}
  {s p q o : ScopeId}

/-- One step of a search, which heeds the outer links that `links` gives. -/
def searchStep (a : Arena α) (links : Scope α → Option ScopeId) (name : Symbol) : Search → Search
  | .visiting frame outer =>
      match a.scopes[frame.index]? with
      | none => .astray
      | some scope =>
          if (scope.bindings[name]?).isSome then .ended (some frame)
          else
            let outer := outer.or (links scope)
            match scope.parent with
            | some parent => .visiting parent outer
            | none => .afterChain outer
  | search => search

def link? (a : Arena α) (links : Scope α → Option ScopeId) (s : ScopeId) : Option ScopeId :=
  a.scopes[s.index]?.bind links

theorem searchStep_visiting (links : Scope α → Option ScopeId) (name : Symbol)
    (hs : s.index < a.size) (outer : Option ScopeId) :
    a.searchStep links name (.visiting s outer) =
      if (a.binding? s name).isSome then .ended (some s)
      else
        match a.parent? s with
        | some parent => .visiting parent (outer.or (a.link? links s))
        | none => .afterChain (outer.or (a.link? links s)) := by
  obtain ⟨scope, hscope⟩ : ∃ scope, a.scopes[s.index]? = some scope :=
    ⟨_, Array.getElem?_eq_getElem hs⟩
  simp only [searchStep, binding?, parent?, link?, hscope, Option.bind_some]

/-- A search comes from one state to another. -/
def Leads (a : Arena α) (links : Scope α → Option ScopeId) (name : Symbol) (x y : Search) : Prop :=
  ∃ n, (a.searchStep links name)^[n] x = y

theorem Leads.single {x y : Search} (h : a.searchStep links name x = y) :
    a.Leads links name x y :=
  ⟨1, h⟩

theorem Leads.trans {x y z : Search} (hxy : a.Leads links name x y) (hyz : a.Leads links name y z) :
    a.Leads links name x z := by
  obtain ⟨m, rfl⟩ := hxy
  obtain ⟨n, rfl⟩ := hyz
  exact ⟨n + m, Function.iterate_add_apply _ n m x⟩

/-- The scope of a list that binds a name first. -/
def firstOwner? (a : Arena α) (name : Symbol) (order : List ScopeId) : Option ScopeId :=
  order.find? fun q => (a.binding? q name).isSome

/-- A search goes through a chain of parents, to the owner of the name or to the end of the chain. -/
theorem Ordered.leads_chain (h : a.Ordered) (links : Scope α → Option ScopeId) (name : Symbol)
    (hs : s.index < a.size) (outer : Option ScopeId) :
    a.Leads links name (.visiting s outer)
      (match a.firstOwner? name (a.parentChain s) with
        | some q => .ended (some q)
        | none => .afterChain (outer.or ((a.parentChain s).findSome? (a.link? links)))) := by
  fun_induction parentChain a s generalizing outer with
  | case1 s hp =>
      refine .single ?_
      rw [searchStep_visiting links name hs, hp]
      cases hbound : (a.binding? s name).isSome <;> simp [firstOwner?, hbound]
  | case2 s p hp hlt ih =>
      have hstep := searchStep_visiting links name hs outer
      rw [hp] at hstep
      cases hbound : (a.binding? s name).isSome with
      | true =>
          refine .single ?_
          rw [hstep]
          simp [firstOwner?, hbound]
      | false =>
          rw [hbound] at hstep
          have hlinks : (s :: a.parentChain p).findSome? (a.link? links) =
              (a.link? links s).or ((a.parentChain p).findSome? (a.link? links)) := by
            rw [List.findSome?_cons]
            cases a.link? links s <;> rfl
          rw [firstOwner?, List.find?_cons_of_neg (by simp [hbound]), hlinks, ← Option.or_assoc]
          exact (Leads.single hstep).trans (ih (Nat.lt_trans hlt hs) _)
  | case3 s p hp hlt => exact absurd (h.parents hp) hlt

theorem Ordered.leads_member (h : a.Ordered) (hs : s.index < a.size) :
    a.Leads (fun _ => none) name (.visiting s none)
      (.ended (a.firstOwner? name (a.parentChain s))) := by
  have hlinks : (a.parentChain s).findSome? (a.link? fun _ => none) = none := by
    simp [List.findSome?_eq_none_iff, link?]
  have hchain := h.leads_chain (fun _ => none) name hs none
  rw [hlinks] at hchain
  cases howner : a.firstOwner? name (a.parentChain s) <;>
    · rw [howner] at hchain
      exact hchain

/-- A search that heeds outer links ends as well: they lead to scopes opened earlier. -/
theorem Ordered.leads_owner (h : a.Ordered) (hs : s.index < a.size) :
    a.Leads Scope.outer name (.visiting s none) (.ended (a.owner? s name)) := by
  induction hn : s.index using Nat.strongRecOn generalizing s with
  | ind n ih =>
      subst hn
      have hchain := h.leads_chain Scope.outer name hs none
      change a.Leads Scope.outer name _ (match a.firstOwner? name (a.parentChain s) with
        | some q => .ended (some q)
        | none => .afterChain (a.nearestOuter? s)) at hchain
      cases hnearest : a.nearestOuter? s with
      | none =>
          have howner : a.owner? s name = a.firstOwner? name (a.parentChain s) := by
            rw [owner?, searchOrder, hnearest, List.append_nil]
            rfl
          rw [howner]
          rw [hnearest] at hchain
          cases hfound : a.firstOwner? name (a.parentChain s) <;>
            · rw [hfound] at hchain
              exact hchain
      | some o =>
          have hlt := h.index_lt_of_nearestOuter? hnearest
          have howner : a.owner? s name =
              (a.firstOwner? name (a.parentChain s)).or (a.owner? o name) := by
            rw [owner?, h.searchOrder_eq, hnearest, List.find?_append]
            rfl
          rw [howner]
          rw [hnearest] at hchain
          cases hfound : a.firstOwner? name (a.parentChain s) with
          | some q =>
              rw [hfound] at hchain
              exact hchain
          | none =>
              rw [hfound] at hchain
              rw [Option.none_or]
              exact hchain.trans (ih o.index hlt (Nat.lt_trans hlt hs) rfl)

theorem findSome?_binding? (a : Arena α) (name : Symbol) (order : List ScopeId) :
    (order.findSome? fun q => a.binding? q name) =
      (a.firstOwner? name order).bind fun q => a.binding? q name := by
  induction order with
  | nil => rfl
  | cons q order ih =>
      rw [List.findSome?_cons, firstOwner?, List.find?_cons]
      cases hbound : a.binding? q name with
      | some t => simp [hbound]
      | none => simpa [firstOwner?] using ih

theorem lookup?_eq (a : Arena α) (s : ScopeId) (name : Symbol) :
    a.lookup? s name = (a.owner? s name).bind fun q => a.binding? q name :=
  a.findSome?_binding? name (a.searchOrder s)

/-- A scope that stands for the members of a class. -/
def IsTable (a : Arena α) (s : ScopeId) : Prop :=
  (a.outer? s).isSome = true

theorem IsTable.index_lt (hs : a.IsTable s) : s.index < a.size := by
  obtain ⟨o, ho⟩ := Option.isSome_iff_exists.mp hs
  obtain ⟨scope, hscope, -⟩ := Option.bind_eq_some_iff.mp ho
  exact (Array.getElem?_eq_some_iff.mp hscope).1

theorem IsTable.define (hs : a.IsTable s) (q : ScopeId) (name : Symbol) (value : α) :
    (a.define q name value).IsTable s := by
  rwa [IsTable, outer?_define]

theorem IsTable.openScope (hs : a.IsTable s) (scope : Scope α) :
    (a.openScope scope).2.IsTable s := by
  rwa [IsTable, outer?_openScope, if_neg (Nat.ne_of_lt hs.index_lt)]

/-- Below the global scope, there are the children of scopes and the tables of classes; a table has
tables only as parents. -/
structure Rooted (a : Arena α) : Prop extends a.Ordered where
  nonempty : 0 < a.size
  linked : ∀ {q}, q.index < a.size → q ≠ global → a.IsTable q ∨ (a.parent? q).isSome = true
  tables : ∀ {q p}, a.IsTable q → a.parent? q = some p → a.IsTable p

namespace Rooted

variable (h : a.Rooted)

include h

theorem parent?_global : a.parent? global = none := by
  cases hp : a.parent? global with
  | none => rfl
  | some p => exact absurd (h.parents hp) (Nat.not_lt_zero _)

theorem outer?_global : a.outer? global = none := by
  cases ho : a.outer? global with
  | none => rfl
  | some o => exact absurd (h.outers ho) (Nat.not_lt_zero _)

theorem searchOrder_global : a.searchOrder global = [global] := by
  have hchain : a.parentChain global = [global] := by rw [parentChain, h.parent?_global]
  rw [searchOrder, nearestOuter?, hchain]
  simp [h.outer?_global]

theorem lookup?_global (name : Symbol) : a.lookup? global name = a.binding? global name := by
  rw [lookup?, h.searchOrder_global, List.findSome?_cons]
  cases a.binding? global name <;> rfl

theorem isTable_of_mem_parentChain (hs : a.IsTable s) (hq : q ∈ a.parentChain s) :
    a.IsTable q := by
  fun_induction parentChain a s with
  | case1 s hp => exact List.mem_singleton.mp hq ▸ hs
  | case2 s p hp hlt ih =>
      rcases List.mem_cons.mp hq with rfl | hq
      · exact hs
      · exact ih (h.tables hs hp) hq
  | case3 s p hp hlt => exact List.mem_singleton.mp hq ▸ hs

theorem global_not_mem_parentChain (hs : a.IsTable s) : global ∉ a.parentChain s := by
  intro hglobal
  have := h.isTable_of_mem_parentChain hs hglobal
  simp [IsTable, h.outer?_global] at this

theorem searchOrder_table (ho : a.outer? s = some o) :
    a.searchOrder s = a.parentChain s ++ a.searchOrder o := by
  have hnearest : a.nearestOuter? s = some o := by
    rw [nearestOuter?, h.parentChain_eq, List.findSome?_cons, ho]
  rw [h.searchOrder_eq, hnearest]
  rfl

/-- The global scope is searched last, and only then. -/
theorem searchOrder_eq_concat (hs : s.index < a.size) :
    ∃ before, a.searchOrder s = before ++ [global] ∧ global ∉ before := by
  induction hn : s.index using Nat.strongRecOn generalizing s with
  | ind n ih =>
      subst hn
      by_cases hglobal : s = global
      · exact ⟨[], by rw [hglobal, h.searchOrder_global]; rfl, by simp⟩
      · cases ho : a.outer? s with
        | some o =>
            have hlt := h.outers ho
            obtain ⟨before, hbefore, hnot⟩ := ih o.index hlt (Nat.lt_trans hlt hs) rfl
            refine ⟨a.parentChain s ++ before, ?_, ?_⟩
            · rw [h.searchOrder_table ho, hbefore, List.append_assoc]
            · have hchain := h.global_not_mem_parentChain (s := s) (by simp [IsTable, ho])
              simp [hchain, hnot]
        | none =>
            rcases h.linked hs hglobal with htable | hparent
            · simp [IsTable, ho] at htable
            · obtain ⟨p, hp⟩ := Option.isSome_iff_exists.mp hparent
              have hlt := h.parents hp
              obtain ⟨before, hbefore, hnot⟩ := ih p.index hlt (Nat.lt_trans hlt hs) rfl
              refine ⟨s :: before, ?_, ?_⟩
              · rw [h.searchOrder_child hp ho, hbefore]
                rfl
              · simp [hnot, Ne.symm hglobal]

theorem isSome_lookup?_of_global (hs : s.index < a.size)
    (hbound : (a.lookup? global name).isSome = true) : (a.lookup? s name).isSome = true := by
  obtain ⟨before, hbefore, -⟩ := h.searchOrder_eq_concat hs
  rw [lookup?, hbefore, List.findSome?_append, Option.isSome_or]
  rw [lookup?, h.searchOrder_global] at hbound
  rw [hbound, Bool.or_true]

theorem define (s : ScopeId) (name : Symbol) (value : α) : (a.define s name value).Rooted where
  toOrdered := h.toOrdered.define s name value
  nonempty := by simpa using h.nonempty
  linked hq hne := by
    simp only [IsTable, outer?_define, parent?_define, size_define] at hq ⊢
    exact h.linked hq hne
  tables htable hp := by
    simp only [IsTable, outer?_define, parent?_define] at htable hp ⊢
    exact h.tables htable hp

theorem openScope {scope : Scope α} (hparent : ∀ p ∈ scope.parent, p.index < a.size)
    (houter : ∀ o ∈ scope.outer, o.index < a.size)
    (hlinked : scope.outer.isSome = true ∨ scope.parent.isSome = true)
    (htable : scope.outer.isSome = true → ∀ p ∈ scope.parent, a.IsTable p) :
    (a.openScope scope).2.Rooted where
  toOrdered := h.toOrdered.openScope hparent houter
  nonempty := by simp
  linked {q} hq hne := by
    rw [size_openScope] at hq
    rw [IsTable, outer?_openScope, parent?_openScope]
    split
    · exact hlinked
    · next hold => exact h.linked (by omega) hne
  tables {q p} hq hp := by
    rw [IsTable, outer?_openScope] at hq
    rw [parent?_openScope] at hp
    split at hp
    · next hnew =>
        rw [if_pos hnew] at hq
        exact IsTable.openScope (htable hq p hp) scope
    · next hold =>
        rw [if_neg hold] at hq
        exact IsTable.openScope (h.tables hq hp) scope

end Rooted

theorem rooted_empty : (empty : Arena α).Rooted := by
  have hunlinked {q : ScopeId} {link : Scope α → Option ScopeId} (hlink : link {} = none) :
      (empty : Arena α).scopes[q.index]?.bind link = none := by
    refine Option.bind_eq_none_iff.mpr fun scope hscope => ?_
    have hmem : scope ∈ #[({} : Scope α)] := Array.mem_of_getElem? hscope
    rw [Array.mem_singleton.mp hmem, hlink]
  refine ⟨⟨fun hp => ?_, fun ho => ?_⟩, Nat.one_pos, fun {q} hq hne => ?_, fun _ hp => ?_⟩
  · cases (hunlinked rfl).symm.trans hp
  · cases (hunlinked rfl).symm.trans ho
  · obtain ⟨index⟩ := q
    obtain rfl : index = 0 := Nat.lt_one_iff.mp hq
    exact absurd rfl hne
  · cases (hunlinked rfl).symm.trans hp

end Arena

end TypedLisp
