import Mathlib.Data.Set.Insert
import TypedLisp.Proofs.Unions

namespace TypedLisp

/-- What a type is behind all its aliases. What a program declares is known by its number or by the
table of its members. -/
inductive Shape where
  | primitive (p : Primitive)
  | function (params : List Shape) (result : Shape)
  | union (id : Nat)
  | ofClass (fields : ScopeId)
  | template (serial : Nat)

namespace Ty

mutual

def shape : Ty → Shape
  | primitive p => .primitive p
  | function params result => .function (shapeOfEach params) (shape result)
  | aliasOf _ parent => shape parent
  | union id _ _ => .union id
  | ofClass c => .ofClass c.fields
  | template g => .template g.serial

def shapeOfEach : List Ty → List Shape
  | [] => []
  | t :: ts => shape t :: shapeOfEach ts

end

mutual

/-- The type with every alias in it, at any depth, replaced by its parent. -/
def expanded : Ty → Ty
  | primitive p => primitive p
  | function params result => function (expandedEach params) (expanded result)
  | aliasOf _ parent => expanded parent
  | union id name options => union id name (expandedEach options)
  | ofClass c => ofClass c
  | template g => template g

def expandedEach : List Ty → List Ty
  | [] => []
  | t :: ts => expanded t :: expandedEach ts

end

mutual

/-- The types that a type is built of, itself among them. -/
def occurring : Ty → List Ty
  | function params result =>
      function params result :: (occurringInEach params ++ occurring result)
  | aliasOf name parent => aliasOf name parent :: occurring parent
  | union id name options => union id name options :: occurringInEach options
  | t => [t]

def occurringInEach : List Ty → List Ty
  | [] => []
  | t :: ts => occurring t ++ occurringInEach ts

end

/-- Built from primitives, functions, aliases and templates. -/
inductive Plain : Ty → Prop where
  | primitive (p : Primitive) : Plain (.primitive p)
  | function {params : List Ty} {result : Ty} (hparams : ∀ p ∈ params, Plain p)
      (hresult : Plain result) : Plain (.function params result)
  | aliasOf (name : String) {parent : Ty} (hparent : Plain parent) : Plain (.aliasOf name parent)
  | template (g : Template) : Plain (.template g)

/-- The types that occur in those of a family. -/
def occurringIn (S : Set Ty) : Set Ty :=
  {t | ∃ a ∈ S, t ∈ a.occurring}

/-- An alias in the family shares its name only with types that are the same behind all aliases. -/
def AliasesClear (S : Set Ty) : Prop :=
  ∀ s ∈ occurringIn S, ∀ t ∈ occurringIn S,
    s.kind = "alias" → s.name = t.name → s.shape = t.shape

/-- Templates in the family are told apart by their numbers. -/
def TemplatesNumbered (S : Set Ty) : Prop :=
  ∀ g h, template g ∈ occurringIn S → template h ∈ occurringIn S → g.serial = h.serial → g = h

theorem mem_occurringInEach {t : Ty} {ts : List Ty} :
    t ∈ occurringInEach ts ↔ ∃ u ∈ ts, t ∈ u.occurring := by
  induction ts with
  | nil => simp [occurringInEach]
  | cons u ts ih => simp [occurringInEach, ih]

theorem mem_occurring_self (t : Ty) : t ∈ t.occurring := by
  cases t <;> simp [occurring]

theorem occurring_param_subset {p : Ty} {params : List Ty} (hp : p ∈ params) (result : Ty) :
    p.occurring ⊆ (function params result).occurring := by
  intro t ht
  rw [occurring]
  exact List.mem_cons_of_mem _ (List.mem_append_left _ (mem_occurringInEach.mpr ⟨p, hp, ht⟩))

theorem occurring_result_subset (params : List Ty) (result : Ty) :
    result.occurring ⊆ (function params result).occurring := by
  intro t ht
  rw [occurring]
  exact List.mem_cons_of_mem _ (List.mem_append_right _ ht)

theorem occurring_parent_subset (name : String) (parent : Ty) :
    parent.occurring ⊆ (aliasOf name parent).occurring := by
  intro t ht
  rw [occurring]
  exact List.mem_cons_of_mem _ ht

theorem Plain.apart {a b : Ty} (ha : a.Plain) (hb : b.Plain) (hleft : a.kind ≠ "alias")
    (hright : b.kind ≠ "alias") (hkind : a.kind ≠ b.kind) :
    ¬a.equals b = true ∧ a.expanded ≠ b.expanded ∧ a.shape ≠ b.shape := by
  cases ha <;> cases hb <;> simp_all [kind, equals, expanded, shape]

/-- Induction on two plain types at once, with all that occurs in them in one set. Aliases are
opened first, on the left before the right, and one on the right changes sides, as it does in a
comparison. -/
theorem Plain.induction₂ {T : Set Ty} {motive : Ty → Ty → Prop}
    (left : ∀ name parent b, .aliasOf name parent ∈ T → b ∈ T → motive parent b →
      motive (.aliasOf name parent) b)
    (right : ∀ a name parent, a.kind ≠ "alias" → a ∈ T → .aliasOf name parent ∈ T →
      motive parent a → motive a (.aliasOf name parent))
    (primitive : ∀ p q, motive (.primitive p) (.primitive q))
    (function : ∀ params result params' result', (∀ p ∈ params, ∀ q ∈ params', motive p q) →
      motive result result' → motive (.function params result) (.function params' result'))
    (template : ∀ g h, .template g ∈ T → .template h ∈ T → motive (.template g) (.template h))
    (apart : ∀ a b, ¬a.equals b = true → a.expanded ≠ b.expanded → a.shape ≠ b.shape → motive a b)
    {a b : Ty} (ha : a.Plain) (hb : b.Plain) (haT : ∀ t ∈ a.occurring, t ∈ T)
    (hbT : ∀ t ∈ b.occurring, t ∈ T) : motive a b := by
  -- On the size of both together, since an alias on the right changes sides.
  induction hsize : sizeOf a + sizeOf b using Nat.strongRecOn generalizing a b with
  | ind size ih =>
      subst hsize
      have haself := haT a (mem_occurring_self a)
      have hbself := hbT b (mem_occurring_self b)
      by_cases hleft : a.kind = "alias"
      · cases ha with
        | @aliasOf name parent hparent =>
            have hparentT := fun t ht => haT t (occurring_parent_subset name parent ht)
            simp only [Ty.aliasOf.sizeOf_spec] at ih
            exact left name _ b haself hbself (ih _ (by omega) hparent hb hparentT hbT rfl)
        | primitive | function | template => simp [kind] at hleft
      · by_cases hright : b.kind = "alias"
        · cases hb with
          | @aliasOf name parent hparent =>
              have hparentT := fun t ht => hbT t (occurring_parent_subset name parent ht)
              simp only [Ty.aliasOf.sizeOf_spec] at ih
              exact right a name _ hleft haself hbself (ih _ (by omega) hparent ha hparentT haT rfl)
          | primitive | function | template => simp [kind] at hright
        · by_cases hkind : a.kind = b.kind
          · cases ha with
            | primitive p =>
                cases hb with
                | primitive q => exact primitive p q
                | function | aliasOf | template => simp [kind] at hkind
            | template g =>
                cases hb with
                | template h => exact template g h haself hbself
                | primitive | function | aliasOf => simp [kind] at hkind
            | @function params result hparams hresult =>
                cases hb with
                | @function params' result' hparams' hresult' =>
                    simp only [Ty.function.sizeOf_spec] at ih
                    refine function _ _ _ _ ?_ (ih _ (by omega) hresult hresult'
                      (fun t ht => haT t (occurring_result_subset params result ht))
                      (fun t ht => hbT t (occurring_result_subset params' result' ht)) rfl)
                    intro p hp q hq
                    have hsmall := List.sizeOf_lt_of_mem hp
                    have hsmall' := List.sizeOf_lt_of_mem hq
                    exact ih _ (by omega) (hparams p hp) (hparams' q hq)
                      (fun t ht => haT t (occurring_param_subset hp result ht))
                      (fun t ht => hbT t (occurring_param_subset hq result' ht)) rfl
                | primitive | aliasOf | template => simp [kind] at hkind
            | aliasOf => exact absurd rfl hleft
          · obtain ⟨hequals, hexpanded, hshape⟩ := ha.apart hb hleft hright hkind
            exact apart a b hequals hexpanded hshape

theorem equalsEach_iff_forall₂ {as bs : List Ty} :
    equalsEach as bs = true ↔ List.Forall₂ (fun a b => a.equals b = true) as bs := by
  induction as generalizing bs with
  | nil => cases bs <;> simp [equalsEach]
  | cons a as ih => cases bs <;> simp [equalsEach, ih]

theorem expandedEach_eq_iff_forall₂ {as bs : List Ty} :
    expandedEach as = expandedEach bs ↔
      List.Forall₂ (fun a b => a.expanded = b.expanded) as bs := by
  induction as generalizing bs with
  | nil => cases bs <;> simp [expandedEach]
  | cons a as ih => cases bs <;> simp [expandedEach, ih]

theorem forall₂_iff_shapes {R : Ty → Ty → Prop} {as bs : List Ty}
    (h : ∀ a ∈ as, ∀ b ∈ bs, (R a b ↔ a.shape = b.shape)) :
    List.Forall₂ R as bs ↔ shapeOfEach as = shapeOfEach bs := by
  induction as generalizing bs with
  | nil => cases bs <;> simp [shapeOfEach]
  | cons a as ih =>
      cases bs with
      | nil => simp [shapeOfEach]
      | cons b bs =>
          have hrest := ih fun a' ha' b' hb' =>
            h a' (List.mem_cons_of_mem _ ha') b' (List.mem_cons_of_mem _ hb')
          simp [shapeOfEach, h a List.mem_cons_self b List.mem_cons_self, hrest]

theorem AliasesClear.alias_equals_iff {S : Set Ty} (hclear : AliasesClear S) {name : String}
    {parent c : Ty} (halias : aliasOf name parent ∈ occurringIn S) (hc : c ∈ occurringIn S)
    (h : parent.equals c = true ↔ parent.shape = c.shape) :
    (aliasOf name parent).equals c = true ↔ (aliasOf name parent).shape = c.shape := by
  have hname (heq : name = c.name) : parent.shape = c.shape := by
    have hsame := hclear _ halias _ hc rfl (by rwa [Ty.name])
    rwa [shape] at hsame
  rw [equals, shape, Bool.or_eq_true, beq_iff_eq, h]
  exact or_iff_right_of_imp hname

/-- Plain types that have no misleading names between them are compared by what they are behind
their aliases. -/
theorem equals_iff_shape_eq {S : Set Ty} (hclear : AliasesClear S) {a b : Ty} (ha : a.Plain)
    (hb : b.Plain) (haS : ∀ t ∈ a.occurring, t ∈ occurringIn S)
    (hbS : ∀ t ∈ b.occurring, t ∈ occurringIn S) : a.equals b = true ↔ a.shape = b.shape := by
  refine Plain.induction₂ (motive := fun a b => a.equals b = true ↔ a.shape = b.shape)
    ?_ ?_ ?_ ?_ ?_ ?_ ha hb haS hbS
  · intro name parent b halias hb ih
    exact hclear.alias_equals_iff halias hb ih
  · intro a name parent hkind ha halias ih
    rw [equals_comm_of_kind_ne hkind, @eq_comm _ a.shape]
    exact hclear.alias_equals_iff halias ha ih
  · intro p q
    simp [equals, shape]
  · intro params result params' result' hparams hresult
    simp [equals, shape, equalsEach_iff_forall₂, forall₂_iff_shapes hparams, hresult]
  · intro g h _ _
    simp [equals, shape]
  · intro a b hequals _ hshape
    exact iff_of_false hequals hshape

theorem expanded_eq_iff_shape_eq {S : Set Ty} (hnumbered : TemplatesNumbered S) {a b : Ty}
    (ha : a.Plain) (hb : b.Plain) (haS : ∀ t ∈ a.occurring, t ∈ occurringIn S)
    (hbS : ∀ t ∈ b.occurring, t ∈ occurringIn S) :
    a.expanded = b.expanded ↔ a.shape = b.shape := by
  refine Plain.induction₂ (motive := fun a b => a.expanded = b.expanded ↔ a.shape = b.shape)
    ?_ ?_ ?_ ?_ ?_ ?_ ha hb haS hbS
  · intro name parent b _ _ ih
    rwa [expanded, shape]
  · intro a name parent _ _ _ ih
    rwa [eq_comm, @eq_comm _ a.shape, expanded, shape]
  · intro p q
    simp [expanded, shape]
  · intro params result params' result' hparams hresult
    simp [expanded, shape, expandedEach_eq_iff_forall₂, forall₂_iff_shapes hparams, hresult]
  · intro g h hg hh
    simp only [expanded, shape, template.injEq, Shape.template.injEq]
    exact ⟨congrArg Template.serial, hnumbered g h hg hh⟩
  · intro a b _ hexpanded hshape
    exact iff_of_false hexpanded hshape

/-- In a family of plain types with clear aliases, a type is accepted for another exactly if the two
are the same once all aliases are replaced by their parents; so acceptance is an equivalence. -/
theorem equals_iff_expanded {S : Set Ty} (hplain : ∀ t ∈ S, t.Plain) (hclear : AliasesClear S) :
    (∀ a ∈ S, ∀ b ∈ S, a.equals b = true ↔ a.shape = b.shape) ∧
      (TemplatesNumbered S → ∀ a ∈ S, ∀ b ∈ S, a.equals b = true ↔ a.expanded = b.expanded) ∧
      Equivalence fun a b : S => a.1.equals b.1 = true := by
  have hoccurs {a : Ty} (ha : a ∈ S) : ∀ t ∈ a.occurring, t ∈ occurringIn S :=
    fun t ht => ⟨a, ha, ht⟩
  have hshape (a : Ty) (ha : a ∈ S) (b : Ty) (hb : b ∈ S) :
      a.equals b = true ↔ a.shape = b.shape :=
    equals_iff_shape_eq hclear (hplain a ha) (hplain b hb) (hoccurs ha) (hoccurs hb)
  refine ⟨hshape, ?_, ?_⟩
  · intro hnumbered a ha b hb
    rw [hshape a ha b hb]
    exact (expanded_eq_iff_shape_eq hnumbered (hplain a ha) (hplain b hb) (hoccurs ha)
      (hoccurs hb)).symm
  · refine ⟨fun a => equals_self a.1, fun {a b} h => ?_, fun {a b c} hab hbc => ?_⟩
    · exact (hshape _ b.2 _ a.2).mpr ((hshape _ a.2 _ b.2).mp h).symm
    · exact (hshape _ a.2 _ c.2).mpr
        (((hshape _ a.2 _ b.2).mp hab).trans ((hshape _ b.2 _ c.2).mp hbc))

end Ty

/-- One function type, written with an alias of an alias in one place or an alias in another. -/
def keyed : Ty := .function [.aliasOf "Key" (.aliasOf "Count" .number)] .number

def counted : Ty := .function [.number] (.aliasOf "Count" .number)

theorem equals_iff_expanded_of_keyed :
    keyed.Plain ∧ counted.Plain ∧ Ty.AliasesClear {keyed, counted} ∧
      Ty.TemplatesNumbered {keyed, counted} ∧ keyed.expanded = counted.expanded ∧
      keyed.equals counted = true := by
  have hcount : (Ty.aliasOf "Count" .number).Plain := .aliasOf _ (.primitive _)
  have hkeyed : keyed.Plain :=
    .function (List.forall_mem_singleton.mpr (.aliasOf _ hcount)) (.primitive _)
  have hcounted : counted.Plain :=
    .function (List.forall_mem_singleton.mpr (.primitive _)) hcount
  have hclear : Ty.AliasesClear {keyed, counted} := by
    simp [Ty.AliasesClear, Ty.occurringIn, keyed, counted, Ty.occurring, Ty.occurringInEach,
      Ty.number, Ty.kind, Ty.name, Ty.shape, Ty.nameEach, TypeExpr.functionText, Primitive.name,
      or_imp, forall_and]
  have hnumbered : Ty.TemplatesNumbered {keyed, counted} := by
    simp [Ty.TemplatesNumbered, Ty.occurringIn, keyed, counted, Ty.occurring, Ty.occurringInEach,
      Ty.number]
  have hexpanded : keyed.expanded = counted.expanded := by
    simp [keyed, counted, Ty.number, Ty.expanded, Ty.expandedEach]
  have hplain : ∀ t ∈ ({keyed, counted} : Set Ty), t.Plain := by
    rintro t (rfl | rfl)
    · exact hkeyed
    · exact hcounted
  exact ⟨hkeyed, hcounted, hclear, hnumbered, hexpanded,
    ((Ty.equals_iff_expanded hplain hclear).2.1 hnumbered _ (.inl rfl) _ (.inr rfl)).mpr hexpanded⟩

end TypedLisp
