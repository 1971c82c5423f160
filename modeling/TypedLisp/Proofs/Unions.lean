import TypedLisp.Proofs.Operands

namespace TypedLisp

namespace Ty

mutual

theorem equals_self : ∀ t : Ty, t.equals t = true
  | primitive p => by simp [equals]
  | function params result => by simp [equals, equalsEach_self params, equals_self result]
  | aliasOf name parent => by simp [equals, Ty.name]
  | union id name options => by simp [equals]
  | ofClass c => by simp [equals, ClassTy.inherits, ClassTy.fields]
  | template g => by simp [equals]

theorem equalsEach_self : ∀ ts : List Ty, equalsEach ts ts = true
  | [] => by simp [equalsEach]
  | t :: ts => by simp [equalsEach, equals_self t, equalsEach_self ts]

end

mutual

/-- The types that are no unions and are reached through options alone. Aliases are not opened. -/
def members : Ty → List Ty
  | union _ _ options => membersOfEach options
  | t => [t]

def membersOfEach : List Ty → List Ty
  | [] => []
  | t :: ts => members t ++ membersOfEach ts

end

mutual

/-- How many options each of the unions has that are reached through options alone. -/
def sizes : Ty → List Nat
  | union _ _ options => options.length :: sizesOfEach options
  | _ => []

def sizesOfEach : List Ty → List Nat
  | [] => []
  | t :: ts => sizes t ++ sizesOfEach ts

end

theorem mem_membersOfEach {m : Ty} {ts : List Ty} :
    m ∈ membersOfEach ts ↔ ∃ t ∈ ts, m ∈ t.members := by
  induction ts with
  | nil => simp [membersOfEach]
  | cons t ts ih => simp [membersOfEach, ih]

theorem mem_sizesOfEach {n : Nat} {ts : List Ty} :
    n ∈ sizesOfEach ts ↔ ∃ t ∈ ts, n ∈ t.sizes := by
  induction ts with
  | nil => simp [sizesOfEach]
  | cons t ts ih => simp [sizesOfEach, ih]

theorem members_eq_singleton {t : Ty} (h : t.kind ≠ "union") : t.members = [t] := by
  cases t with
  | union => exact absurd rfl h
  | primitive | function | aliasOf | ofClass | template => simp [members]

theorem sizes_eq_nil {t : Ty} (h : t.kind ≠ "union") : t.sizes = [] := by
  cases t with
  | union => exact absurd rfl h
  | primitive | function | aliasOf | ofClass | template => simp [sizes]

theorem kind_ne_of_mem_members {t m : Ty} (h : m ∈ t.members) : m.kind ≠ "union" := by
  induction t using inductionThrough with
  | leaf t ht =>
      rw [members_eq_singleton ht.kind_ne_union, List.mem_singleton] at h
      exact h ▸ ht.kind_ne_union
  | aliasOf name parent _ =>
      rw [members_eq_singleton (by simp [kind]), List.mem_singleton] at h
      simp [h, kind]
  | union id name options ih =>
      rw [members, mem_membersOfEach] at h
      obtain ⟨o, ho, hm⟩ := h
      exact ih o ho hm

/-- The options take a type: the unions in it are of their number, and they take its members. -/
def Cover (options : List Ty) (t : Ty) : Prop :=
  (∀ n ∈ t.sizes, n = options.length) ∧ ∀ m ∈ t.members, ∃ o ∈ options, o.equals m = true

theorem cover_of_kind_ne {options : List Ty} {t : Ty} (h : t.kind ≠ "union") :
    Cover options t ↔ ∃ o ∈ options, o.equals t = true := by
  simp [Cover, members_eq_singleton h, sizes_eq_nil h]

theorem cover_union {options : List Ty} (id : Nat) (name : String) (others : List Ty) :
    Cover options (union id name others) ↔
      others.length = options.length ∧ ∀ t ∈ others, Cover options t := by
  simp only [Cover, sizes, members, List.mem_cons, forall_eq_or_imp, mem_sizesOfEach,
    mem_membersOfEach, forall_exists_index, and_imp, and_assoc]
  refine and_congr_right fun _ => ?_
  constructor
  · exact fun h t ht => ⟨fun n => h.1 n t ht, fun m => h.2 m t ht⟩
  · exact fun h => ⟨fun n t ht => (h t ht).1 n, fun m t ht => (h t ht).2 m⟩

theorem includesAll_eq_true_iff {options ts : List Ty} :
    includesAll options ts = true ↔ ∀ t ∈ ts, includes options t = true := by
  induction ts with
  | nil => simp [includesAll]
  | cons t ts ih => simp [includesAll, ih]

theorem includes_eq_true_iff {options : List Ty} {t : Ty} :
    includes options t = true ↔ Cover options t := by
  induction t using inductionThrough with
  | leaf t ht =>
      rw [cover_of_kind_ne ht.kind_ne_union, ← someEquals_eq_true_iff]
      cases ht <;> simp [includes]
  | aliasOf name parent _ =>
      rw [cover_of_kind_ne (by simp [kind]), ← someEquals_eq_true_iff]
      simp [includes]
  | union id name others ih =>
      rw [cover_union, includes, Bool.and_eq_true, beq_iff_eq, includesAll_eq_true_iff]
      exact and_congr_right fun _ => forall₂_congr ih

theorem union_equals_union_iff {i j : Nat} {name name' : String} {options others : List Ty} :
    (union i name options).equals (union j name' others) = true ↔
      i = j ∨ Cover options (union j name' others) := by
  rw [← includes_eq_true_iff, includes, equals, Bool.or_eq_true, beq_iff_eq]

theorem union_equals_leaf_iff {u : Ty} (hu : u.IsLeaf) {id : Nat} {name : String}
    {options : List Ty} :
    (union id name options).equals u = true ↔ ∃ o ∈ options, o.equals u = true := by
  rw [equals_comm_of_kind_ne (Ne.symm hu.kind_ne_union),
    equals_union_iff hu.kind_ne_alias hu.kind_ne_union]

/-- Behind its aliases a member is taken, at whatever depth it stands. -/
theorem equals_unaliased_of_mem_members {t m : Ty} (h : m ∈ t.members)
    (hm : m.unaliased.kind ≠ "union") : t.equals m.unaliased = true := by
  induction t using inductionThrough with
  | leaf t ht =>
      rw [members_eq_singleton ht.kind_ne_union, List.mem_singleton] at h
      rw [h, ht.unaliased_eq]
      exact equals_self t
  | aliasOf name parent _ =>
      rw [members_eq_singleton (by simp [kind]), List.mem_singleton] at h
      rw [h, equals_iff_unaliased]
      exact .inr (equals_self _)
  | union id name options ih =>
      rw [members, mem_membersOfEach] at h
      obtain ⟨o, ho, hmem⟩ := h
      exact (union_equals_leaf_iff (isLeaf_unaliased hm)).mpr ⟨o, ho, ih o ho hmem⟩

theorem equals_of_mem_members {t m : Ty} (h : m ∈ t.members) (hm : m.unaliased.kind ≠ "union") :
    m.equals t = true ∧ t.equals m = true := by
  by_cases ht : t.kind = "union"
  · have hkind : m.kind ≠ t.kind := ht ▸ kind_ne_of_mem_members h
    have hleaf : m.unaliased.kind ≠ t.kind := ht ▸ hm
    have htaken : m.equals t = true := by
      rw [equals_iff_unaliased, equals_comm_of_kind_ne hleaf]
      exact .inr (equals_unaliased_of_mem_members h hm)
    exact ⟨htaken, by rwa [← equals_comm_of_kind_ne hkind]⟩
  · rw [members_eq_singleton ht, List.mem_singleton] at h
    exact h ▸ ⟨equals_self m, equals_self m⟩

theorem cover_option_iff {options : List Ty} {o : Ty} (ho : o ∈ options) :
    Cover options o ↔ (∀ n ∈ o.sizes, n = options.length) ∧
      ∀ m ∈ o.members, m.unaliased.kind = "union" → ∃ o' ∈ options, o'.equals m = true := by
  refine and_congr_right fun _ => forall₂_congr fun m hm => ?_
  constructor
  · exact fun h _ => h
  · intro h
    by_cases hkind : m.unaliased.kind = "union"
    · exact h hkind
    · exact ⟨o, ho, (equals_of_mem_members hm hkind).2⟩

theorem cover_of_no_union {options : List Ty} (h : ∀ o ∈ options, o.kind ≠ "union") (id : Nat)
    (name : String) : Cover options (union id name options) :=
  (cover_union id name options).mpr
    ⟨rfl, fun o ho => (cover_of_kind_ne (h o ho)).mpr ⟨o, ho, equals_self o⟩⟩

theorem alias_equals_union_iff {o : Ty} (ho : o.kind = "alias") (id : Nat) (name : String)
    (options : List Ty) :
    ((union id name options).equals o = true ↔ o.equals (union id name options) = true) ∧
      (o.equals (union id name options) = true ↔
        name ∈ o.aliasNames ∨ o.unaliased.equals (union id name options) = true) := by
  constructor
  · have hkind : o.kind ≠ (union id name options).kind := by
      rw [ho]
      simp [kind]
    rw [equals_comm_of_kind_ne hkind]
  · rw [equals_iff_unaliased, Ty.name]

/-- A union and each of its options take each other, if the option is no union behind its aliases;
so do the union and the members of a union among its options. For a union among the options the
sizes decide as well, and so they do for a second union with the same options. -/
theorem option_acceptance (id : Nat) (name : String) (options : List Ty) :
    (∀ o ∈ options, ∀ m ∈ o.members, m.unaliased.kind ≠ "union" →
      m.equals (union id name options) = true ∧ (union id name options).equals m = true) ∧
    (∀ o ∈ options, o.kind = "alias" →
      ((union id name options).equals o = true ↔ o.equals (union id name options) = true) ∧
        (o.equals (union id name options) = true ↔
          name ∈ o.aliasNames ∨ o.unaliased.equals (union id name options) = true)) ∧
    (∀ j name' others, union j name' others ∈ options →
      ((union id name options).equals (union j name' others) = true ↔
        id = j ∨ (∀ n ∈ (union j name' others).sizes, n = options.length) ∧
          ∀ m ∈ membersOfEach others, m.unaliased.kind = "union" →
            ∃ o ∈ options, o.equals m = true) ∧
        ((union j name' others).equals (union id name options) = true ↔
          j = id ∨ Cover others (union id name options))) ∧
    (∀ j name', (union id name options).equals (union j name' options) = true ↔
      id = j ∨ ∀ o ∈ options, o.kind = "union" → Cover options o) ∧
    ((∀ o ∈ options, o.kind ≠ "union") →
      ∀ j name', (union id name options).equals (union j name' options) = true) := by
  refine ⟨?_, ?_, ?_, ?_, ?_⟩
  · intro o ho m hm hkind
    have hmem : m ∈ (union id name options).members := by
      rw [members, mem_membersOfEach]
      exact ⟨o, ho, hm⟩
    exact equals_of_mem_members hmem hkind
  · exact fun o _ ho => alias_equals_union_iff ho id name options
  · intro j name' others ho
    refine ⟨?_, union_equals_union_iff⟩
    rw [union_equals_union_iff, cover_option_iff ho, members]
  · intro j name'
    rw [union_equals_union_iff, cover_union]
    refine or_congr_right ⟨fun h o ho _ => h.2 o ho, fun h => ⟨rfl, fun o ho => ?_⟩⟩
    by_cases hkind : o.kind = "union"
    · exact h o ho hkind
    · exact (cover_of_kind_ne hkind).mpr ⟨o, ho, equals_self o⟩
  · exact fun h j name' => union_equals_union_iff.mpr (.inr (cover_of_no_union h j name'))

end Ty

/-- An alias of a class, and a union beside it. -/
def beast : Ty := .aliasOf "Beast" (.ofClass animal)

def word : Ty := .union 0 "Word" [.number, .string]

def thing : Ty := .union 1 "Thing" [beast, word]

/-- The alias and the union it is an option of take each other. The other option is a union of the
same size: it is taken, and does not take the alias. -/
theorem option_acceptance_of_thing :
    beast ∈ [beast, word] ∧ beast ∈ beast.members ∧ beast.unaliased.kind ≠ "union" ∧
      (beast.equals thing = true ∧ thing.equals beast = true) ∧
      word ∈ [beast, word] ∧ thing.equals word = true ∧ ¬word.equals thing = true := by
  have hbeast : beast ∈ [beast, word] := by simp
  have hword : word ∈ [beast, word] := by simp
  have hmember : beast ∈ beast.members := by simp [beast, Ty.members]
  have hclass : beast.unaliased.kind ≠ "union" := by simp [beast, Ty.unaliased, Ty.kind]
  have h := Ty.option_acceptance 1 "Thing" [beast, word]
  have hboth := h.2.2.1 0 "Word" [.number, .string] hword
  refine ⟨hbeast, hmember, hclass, h.1 beast hbeast beast hmember hclass, hword, ?_, ?_⟩
  · refine hboth.1.mpr (.inr ⟨by simp [Ty.sizes, Ty.sizesOfEach, Ty.number, Ty.string], ?_⟩)
    simp [Ty.membersOfEach, Ty.members, Ty.number, Ty.string, Ty.unaliased, Ty.kind]
  · intro htaken
    rcases hboth.2.mp htaken with hsame | ⟨_, hcover⟩
    · exact absurd hsame (by decide)
    · have hrefused : Ty.someEquals [.number, .string] beast = false := by decide +kernel
      have hin : beast ∈ Ty.members (.union 1 "Thing" [beast, word]) := by
        simp [beast, Ty.members, Ty.membersOfEach]
      exact Bool.false_ne_true
        (hrefused.symm.trans (Ty.someEquals_eq_true_iff.mpr (hcover beast hin)))

/-- A union of one option within a union of two is not taken and does not take, and two unions with
one option, a union of two, are not taken for each other. -/
theorem nested_unions_refused :
    (¬∀ id name options, ∀ o ∈ options, o.equals (.union id name options) = true ∧
      (Ty.union id name options).equals o = true) ∧
    ¬∀ i j name name' options,
      (Ty.union i name options).equals (.union j name' options) = true := by
  constructor
  · intro h
    have hrefused : (Ty.union 0 "Inner" [.number]).equals
        (.union 1 "Outer" [.union 0 "Inner" [.number], .string]) = false := by
      decide +kernel
    have htaken := (h 1 "Outer" [.union 0 "Inner" [.number], .string] _ List.mem_cons_self).1
    exact Bool.false_ne_true (hrefused.symm.trans htaken)
  · intro h
    have hrefused : (Ty.union 1 "First" [word]).equals (.union 2 "Second" [word]) = false := by
      decide +kernel
    exact Bool.false_ne_true (hrefused.symm.trans (h 1 2 "First" "Second" [word]))

end TypedLisp
