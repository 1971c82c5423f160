import TypedLisp.Proofs.Run

/-!
The direction of acceptance. It counts between two types of one kind only, and an alias or a union
that stands on the right turns it round: the two are then compared from the alias's parent, or from
the union's options. So a union takes what one of its options is accepted for, and an argument is
taken for an alias if the alias's parent is accepted for the argument.
-/

namespace TypedLisp

namespace Ty

theorem someEquals_eq_true_iff {options : List Ty} {b : Ty} :
    someEquals options b = true ↔ ∃ o ∈ options, o.equals b = true := by
  induction options with
  | nil => simp [someEquals]
  | cons o options ih => simp [someEquals, ih]

theorem equals_comm_of_kind_ne {a b : Ty} (h : a.kind ≠ b.kind) : a.equals b = b.equals a := by
  cases a <;> cases b <;> first | exact absurd rfl h | simp [equals]

/-- A union on the right is compared from its options. -/
theorem equals_union_iff {t : Ty} (halias : t.kind ≠ "alias") (hunion : t.kind ≠ "union") (id : Nat)
    (name : String) (options : List Ty) :
    t.equals (union id name options) = true ↔ ∃ o ∈ options, o.equals t = true := by
  rw [equals_comm_of_kind_ne (by exact hunion), ← someEquals_eq_true_iff]
  cases t with
  | aliasOf => exact absurd rfl halias
  | union => exact absurd rfl hunion
  | primitive | function | ofClass | template => simp [equals]

/-- Direction does not decide whether a union takes a type: an option of another kind takes it, or
the options of the type's own kind agree in both directions. -/
def DirectionFree (t : Ty) (options : List Ty) : Prop :=
  (∃ o ∈ options, o.kind ≠ t.kind ∧ t.equals o = true) ∨
    ((∃ o ∈ options, o.kind = t.kind ∧ o.equals t = true) ↔
      ∃ o ∈ options, o.kind = t.kind ∧ t.equals o = true)

theorem exists_option_iff (t : Ty) (options : List Ty) (taken : Ty → Bool) :
    (∃ o ∈ options, taken o = true) ↔
      (∃ o ∈ options, o.kind ≠ t.kind ∧ taken o = true) ∨
        ∃ o ∈ options, o.kind = t.kind ∧ taken o = true := by
  constructor
  · rintro ⟨o, ho, h⟩
    by_cases hkind : o.kind = t.kind
    · exact .inr ⟨o, ho, hkind, h⟩
    · exact .inl ⟨o, ho, hkind, h⟩
  · rintro (⟨o, ho, _, h⟩ | ⟨o, ho, _, h⟩)
    · exact ⟨o, ho, h⟩
    · exact ⟨o, ho, h⟩

theorem exists_other_kind_iff (t : Ty) (options : List Ty) :
    (∃ o ∈ options, o.kind ≠ t.kind ∧ o.equals t = true) ↔
      ∃ o ∈ options, o.kind ≠ t.kind ∧ t.equals o = true := by
  constructor
  · rintro ⟨o, ho, hkind, h⟩
    exact ⟨o, ho, hkind, by rwa [← equals_comm_of_kind_ne hkind]⟩
  · rintro ⟨o, ho, hkind, h⟩
    exact ⟨o, ho, hkind, by rwa [equals_comm_of_kind_ne hkind]⟩

/-- A union takes a type through an option that is accepted for it. This is acceptance for an option
exactly where the direction is free; a class is taken through the classes below it. -/
theorem union_membership_direction {t : Ty} (halias : t.kind ≠ "alias") (hunion : t.kind ≠ "union")
    (id : Nat) (name : String) (options : List Ty) :
    (t.equals (union id name options) = true ↔ ∃ o ∈ options, o.equals t = true) ∧
      ((t.equals (union id name options) = true ↔ ∃ o ∈ options, t.equals o = true) ↔
        DirectionFree t options) ∧
      ∀ c, t = ofClass c →
        (t.equals (union id name options) = true ↔
          (∃ d, ofClass d ∈ options ∧ d.inherits c = true) ∨
            ∃ o ∈ options, o.kind ≠ "class" ∧ t.equals o = true) := by
  have htaken := equals_union_iff halias hunion id name options
  have hsplit : t.equals (union id name options) = true ↔
      (∃ o ∈ options, o.kind ≠ t.kind ∧ t.equals o = true) ∨
        ∃ o ∈ options, o.kind = t.kind ∧ o.equals t = true := by
    rw [htaken, exists_option_iff t options (·.equals t), exists_other_kind_iff]
  refine ⟨htaken, ?_, ?_⟩
  · rw [hsplit, exists_option_iff t options t.equals, DirectionFree]
    by_cases hother : ∃ o ∈ options, o.kind ≠ t.kind ∧ t.equals o = true
    · simp only [hother, true_or]
    · simp only [hother, false_or]
  · rintro c rfl
    rw [hsplit, or_comm]
    refine or_congr ?_ Iff.rfl
    constructor
    · rintro ⟨o, ho, hkind, h⟩
      cases o with
      | ofClass d => exact ⟨d, ho, by simpa [equals] using h⟩
      | primitive | function | aliasOf | union | template => simp [kind] at hkind
    · rintro ⟨d, hd, h⟩
      exact ⟨ofClass d, hd, rfl, by simpa [equals] using h⟩

end Ty

/-- A class and one below it. -/
def animal : ClassTy := .extending "Animal" ⟨1⟩ none

def dog : ClassTy := .extending "Dog" ⟨2⟩ (some animal)

/-- Where a dog or a string is expected an animal is taken, and where an animal or a string is
expected a dog is not. -/
theorem union_membership_direction_of_animals :
    (Ty.ofClass animal).kind ≠ "alias" ∧ (Ty.ofClass animal).kind ≠ "union" ∧
      ((Ty.ofClass animal).equals (.union 0 "Pet" [.ofClass dog, .string]) = true ↔
        (∃ d, Ty.ofClass d ∈ [Ty.ofClass dog, .string] ∧ d.inherits animal = true) ∨
          ∃ o ∈ [Ty.ofClass dog, .string], o.kind ≠ "class" ∧ (Ty.ofClass animal).equals o = true) :=
  have halias : (Ty.ofClass animal).kind ≠ "alias" := by decide
  have hunion : (Ty.ofClass animal).kind ≠ "union" := by decide
  ⟨halias, hunion,
    (Ty.union_membership_direction halias hunion 0 "Pet" [.ofClass dog, .string]).2.2 animal rfl⟩

theorem union_refuses_subclass :
    ¬((Ty.ofClass dog).equals (.union 0 "Pet" [.ofClass animal]) = true ↔
      ∃ o ∈ [Ty.ofClass animal], (Ty.ofClass dog).equals o = true) := by
  have hrefused : (Ty.ofClass dog).equals (.union 0 "Pet" [.ofClass animal]) = false := by
    decide +kernel
  have haccepted : (Ty.ofClass dog).equals (.ofClass animal) = true := by decide +kernel
  intro h
  have htaken := h.mpr ⟨.ofClass animal, List.mem_singleton_self _, haccepted⟩
  rw [hrefused] at htaken
  exact Bool.false_ne_true htaken

end TypedLisp
