import Mathlib.Data.Fintype.EquivFin
import TypedLisp.Proofs.Expansion

namespace TypedLisp

namespace Ty

def options : Ty → List Ty
  | union _ _ options => options
  | _ => []

/-- A union of plain types, no two of which are equal. -/
inductive Varied : Ty → Prop where
  | union {id : Nat} {name : String} {options : List Ty} (hplain : ∀ o ∈ options, o.Plain)
      (hdistinct : options.Pairwise fun a b => a.equals b = false) :
      Varied (.union id name options)

/-- Unions of the family are told apart by their numbers. -/
def UnionsNumbered (S : Set Ty) : Prop :=
  ∀ id name name' options others, union id name options ∈ S → union id name' others ∈ S →
    options = others

/-- The options of the unions of a family. -/
def optionsIn (S : Set Ty) : Set Ty :=
  {o | ∃ A ∈ S, o ∈ A.options}

/-- A one-to-one pairing of two lists, in which the types of each pair are equal. -/
def Paired (as bs : List Ty) : Prop :=
  ∃ e : Fin as.length ≃ Fin bs.length, ∀ i, (as.get i).equals (bs.get (e i)) = true

theorem Plain.kind_ne_union {t : Ty} (h : t.Plain) : t.kind ≠ "union" := by
  cases h <;> simp [kind]

theorem union_equals_union_iff_of_plain {i j : Nat} {name name' : String} {options others : List Ty}
    (hplain : ∀ o ∈ others, o.Plain) :
    (union i name options).equals (union j name' others) = true ↔
      i = j ∨ (others.length = options.length ∧
        ∀ b ∈ others, ∃ a ∈ options, a.equals b = true) := by
  rw [union_equals_union_iff, cover_union]
  refine or_congr_right (and_congr_right fun _ => forall₂_congr fun b hb => ?_)
  exact cover_of_kind_ne (hplain b hb).kind_ne_union

section Distinct

variable {F : Set Ty} (hF : ∀ a ∈ F, ∀ b ∈ F, (a.equals b = true ↔ a.shape = b.shape))

include hF

theorem injective_shape {bs : List Ty} (hbs : ∀ b ∈ bs, b ∈ F)
    (hdistinct : bs.Pairwise fun a b => a.equals b = false) :
    Function.Injective fun i => (bs.get i).shape := by
  have hapart {i j : Fin bs.length} (hij : i < j) : (bs.get i).shape ≠ (bs.get j).shape := by
    intro hsame
    have hequal := (hF _ (hbs _ (bs.get_mem i)) _ (hbs _ (bs.get_mem j))).mpr hsame
    exact Bool.false_ne_true ((List.pairwise_iff_get.mp hdistinct i j hij).symm.trans hequal)
  intro i j hsame
  rcases lt_trichotomy i j with hij | hij | hij
  · exact absurd hsame (hapart hij)
  · exact hij
  · exact absurd hsame.symm (hapart hij)

/-- As many types, each of them taken, are paired: distinct types are not taken by the same one. -/
theorem paired_iff {as bs : List Ty} (has : ∀ a ∈ as, a ∈ F) (hbs : ∀ b ∈ bs, b ∈ F)
    (hdistinct : bs.Pairwise fun a b => a.equals b = false) :
    Paired as bs ↔ bs.length = as.length ∧ ∀ b ∈ bs, ∃ a ∈ as, a.equals b = true := by
  constructor
  · rintro ⟨e, he⟩
    refine ⟨(Fin.equiv_iff_eq.mp ⟨e⟩).symm, fun b hb => ?_⟩
    obtain ⟨k, rfl⟩ := List.get_of_mem hb
    have hpair := he (e.symm k)
    rw [e.apply_symm_apply] at hpair
    exact ⟨_, as.get_mem _, hpair⟩
  · rintro ⟨hlength, htaken⟩
    have hchosen (k : Fin bs.length) : ∃ i : Fin as.length,
        (as.get i).equals (bs.get k) = true := by
      obtain ⟨a, ha, hequal⟩ := htaken _ (bs.get_mem k)
      obtain ⟨i, rfl⟩ := List.get_of_mem ha
      exact ⟨i, hequal⟩
    choose f hf using hchosen
    have hshape (k : Fin bs.length) : (as.get (f k)).shape = (bs.get k).shape :=
      (hF _ (has _ (as.get_mem _)) _ (hbs _ (bs.get_mem k))).mp (hf k)
    have hinjective : Function.Injective f := by
      intro j k hjk
      exact injective_shape hF hbs hdistinct ((hshape j).symm.trans (hjk ▸ hshape k))
    have hbijective : Function.Bijective f :=
      (Fintype.bijective_iff_injective_and_card f).mpr ⟨hinjective, by simpa using hlength⟩
    obtain ⟨e, rfl⟩ : ∃ e : Fin bs.length ≃ Fin as.length, ⇑e = f :=
      ⟨.ofBijective f hbijective, rfl⟩
    refine ⟨e.symm, fun i => ?_⟩
    have hpair := hf (e.symm i)
    rwa [e.apply_symm_apply] at hpair

theorem Paired.symm {as bs : List Ty} (has : ∀ a ∈ as, a ∈ F) (hbs : ∀ b ∈ bs, b ∈ F)
    (h : Paired as bs) : Paired bs as := by
  obtain ⟨e, he⟩ := h
  refine ⟨e.symm, fun k => ?_⟩
  have hpair := he (e.symm k)
  rw [e.apply_symm_apply] at hpair
  have hshape := (hF _ (has _ (as.get_mem _)) _ (hbs _ (bs.get_mem _))).mp hpair
  exact (hF _ (hbs _ (bs.get_mem _)) _ (has _ (as.get_mem _))).mpr hshape.symm

theorem Paired.trans {as bs cs : List Ty} (has : ∀ a ∈ as, a ∈ F) (hbs : ∀ b ∈ bs, b ∈ F)
    (hcs : ∀ c ∈ cs, c ∈ F) (h : Paired as bs) (h' : Paired bs cs) : Paired as cs := by
  obtain ⟨e, he⟩ := h
  obtain ⟨e', he'⟩ := h'
  refine ⟨e.trans e', fun i => ?_⟩
  have hfirst := (hF _ (has _ (as.get_mem _)) _ (hbs _ (bs.get_mem _))).mp (he i)
  have hsecond := (hF _ (hbs _ (bs.get_mem _)) _ (hcs _ (cs.get_mem _))).mp (he' (e i))
  exact (hF _ (has _ (as.get_mem _)) _ (hcs _ (cs.get_mem _))).mpr (hfirst.trans hsecond)

end Distinct

namespace Varied

variable {A : Ty} (h : A.Varied)

include h

theorem plain {o : Ty} (ho : o ∈ A.options) : o.Plain := by
  cases h with
  | union hplain _ => exact hplain o ho

theorem distinct : A.options.Pairwise fun a b => a.equals b = false := by
  cases h with
  | union _ hdistinct => exact hdistinct

end Varied

section Family

variable {S : Set Ty} (hvaried : ∀ A ∈ S, A.Varied) (hclear : AliasesClear (optionsIn S))
  (hnumbered : UnionsNumbered S) {A B C : Ty} (hA : A ∈ S) (hB : B ∈ S)

theorem mem_optionsIn {S : Set Ty} {A : Ty} (hA : A ∈ S) : ∀ o ∈ A.options, o ∈ optionsIn S :=
  fun _ ho => ⟨A, hA, ho⟩

include hvaried

include hclear in
theorem optionsIn_equals_iff : ∀ a ∈ optionsIn S, ∀ b ∈ optionsIn S,
    (a.equals b = true ↔ a.shape = b.shape) := by
  rintro a ⟨A, hA, ha⟩ b ⟨B, hB, hb⟩
  exact equals_iff_shape_eq hclear ((hvaried A hA).plain ha) ((hvaried B hB).plain hb)
    (fun t ht => ⟨a, ⟨A, hA, ha⟩, ht⟩) fun t ht => ⟨b, ⟨B, hB, hb⟩, ht⟩

include hA hB

theorem equals_iff_taken (hnumbered : UnionsNumbered S) : A.equals B = true ↔
    B.options.length = A.options.length ∧ ∀ b ∈ B.options, ∃ a ∈ A.options, a.equals b = true := by
  cases hvaried A hA with
  | @union i name options _ _ =>
      cases hvaried B hB with
      | @union j name' others hothers _ =>
          rw [union_equals_union_iff_of_plain hothers]
          refine or_iff_right_of_imp fun hsame => ?_
          subst hsame
          obtain rfl := hnumbered i name name' options others hA hB
          exact ⟨rfl, fun b hb => ⟨b, hb, equals_self b⟩⟩

include hclear hnumbered

theorem equals_iff_paired : A.equals B = true ↔ Paired A.options B.options := by
  rw [equals_iff_taken hvaried hA hB hnumbered, paired_iff (optionsIn_equals_iff hvaried hclear)
    (mem_optionsIn hA) (mem_optionsIn hB) (hvaried B hB).distinct]

theorem equals_symm_of_varied (h : A.equals B = true) : B.equals A = true := by
  rw [equals_iff_paired hvaried hclear hnumbered hA hB] at h
  rw [equals_iff_paired hvaried hclear hnumbered hB hA]
  exact h.symm (optionsIn_equals_iff hvaried hclear) (mem_optionsIn hA) (mem_optionsIn hB)

theorem equals_trans_of_varied (hC : C ∈ S) (h : A.equals B = true) (h' : B.equals C = true) :
    A.equals C = true := by
  rw [equals_iff_paired hvaried hclear hnumbered hA hB] at h
  rw [equals_iff_paired hvaried hclear hnumbered hB hC] at h'
  rw [equals_iff_paired hvaried hclear hnumbered hA hC]
  exact h.trans (optionsIn_equals_iff hvaried hclear) (mem_optionsIn hA) (mem_optionsIn hB)
    (mem_optionsIn hC) h'

omit hclear in
theorem equals_of_perm (hperm : A.options.Perm B.options) : A.equals B = true := by
  rw [equals_iff_taken hvaried hA hB hnumbered]
  exact ⟨hperm.length_eq.symm, fun b hb => ⟨b, hperm.mem_iff.mpr hb, equals_self b⟩⟩

end Family

/-- In a family of unions of distinct plain options with clear aliases, a union is accepted for
another exactly if their options can be paired one to one, each with an equal one. So acceptance is
symmetric and transitive there, and the order of the options does not count. -/
theorem union_equals_iff_paired {S : Set Ty} (hvaried : ∀ A ∈ S, A.Varied)
    (hclear : AliasesClear (optionsIn S)) (hnumbered : UnionsNumbered S) :
    (∀ A ∈ S, ∀ B ∈ S, A.equals B = true ↔ Paired A.options B.options) ∧
      (∀ A ∈ S, ∀ B ∈ S, A.equals B = B.equals A) ∧
      (∀ A ∈ S, ∀ B ∈ S, ∀ C ∈ S, A.equals B = true → B.equals C = true → A.equals C = true) ∧
      ∀ A ∈ S, ∀ A' ∈ S, A.options.Perm A'.options → ∀ B ∈ S,
        A.equals B = A'.equals B ∧ B.equals A = B.equals A' := by
  have hsymm {A B : Ty} (hA : A ∈ S) (hB : B ∈ S) : A.equals B = true → B.equals A = true :=
    equals_symm_of_varied hvaried hclear hnumbered hA hB
  have htrans {A B C : Ty} (hA : A ∈ S) (hB : B ∈ S) (hC : C ∈ S) :
      A.equals B = true → B.equals C = true → A.equals C = true :=
    equals_trans_of_varied hvaried hclear hnumbered hA hB hC
  refine ⟨fun A hA B hB => equals_iff_paired hvaried hclear hnumbered hA hB, ?_,
    fun A hA B hB C hC => htrans hA hB hC, ?_⟩
  · intro A hA B hB
    exact Bool.eq_iff_iff.mpr ⟨hsymm hA hB, hsymm hB hA⟩
  · intro A hA A' hA' hperm B hB
    have hsame := equals_of_perm hvaried hnumbered hA hA' hperm
    have hsame' := hsymm hA hA' hsame
    exact ⟨Bool.eq_iff_iff.mpr ⟨htrans hA' hA hB hsame', htrans hA hA' hB hsame⟩,
      Bool.eq_iff_iff.mpr ⟨fun h => htrans hB hA hA' h hsame, fun h => htrans hB hA' hA h hsame'⟩⟩

end Ty

/-- Two unions of the same options, one of them under an alias, in another order. -/
def amount : Ty := .union 0 "Amount" [.aliasOf "Count" .number, .string]

def entry : Ty := .union 1 "Entry" [.string, .number]

theorem union_equals_iff_paired_of_amount :
    amount.Varied ∧ entry.Varied ∧ Ty.AliasesClear (Ty.optionsIn {amount, entry}) ∧
      Ty.UnionsNumbered {amount, entry} ∧ Ty.Paired amount.options entry.options ∧
      amount.equals entry = true ∧ entry.equals amount = true := by
  have hamount : amount.Varied :=
    .union (by simpa using ⟨.aliasOf _ (.primitive _), .primitive _⟩) (by decide +kernel)
  have hentry : entry.Varied :=
    .union (by simpa using ⟨.primitive _, .primitive _⟩) (by decide +kernel)
  have hclear : Ty.AliasesClear (Ty.optionsIn {amount, entry}) := by
    simp [Ty.AliasesClear, Ty.optionsIn, Ty.occurringIn, amount, entry, Ty.options, Ty.occurring,
      Ty.number, Ty.string, Ty.kind, Ty.name, Ty.shape, Primitive.name, or_imp, forall_and]
  have hnumbered : Ty.UnionsNumbered {amount, entry} := by
    rintro id name name' options others (hleft | hleft) (hright | hright) <;> cases hleft <;>
      cases hright <;> rfl
  have hvaried : ∀ A ∈ ({amount, entry} : Set Ty), A.Varied := by
    rintro A (rfl | rfl)
    · exact hamount
    · exact hentry
  have hpaired : Ty.Paired amount.options entry.options :=
    ⟨(Equiv.swap 0 1 : Fin 2 ≃ Fin 2), by decide +kernel⟩
  obtain ⟨hiff, hsymm, -⟩ := Ty.union_equals_iff_paired hvaried hclear hnumbered
  have hequal := (hiff amount (.inl rfl) entry (.inr rfl)).mpr hpaired
  exact ⟨hamount, hentry, hclear, hnumbered, hpaired, hequal,
    (hsymm amount (.inl rfl) entry (.inr rfl)) ▸ hequal⟩

end TypedLisp
