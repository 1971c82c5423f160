import TypedLisp.Proofs.Acceptance

namespace TypedLisp

namespace Ty

def admits (param t : Ty) : Bool :=
  param.isAny || t.equals param

/-- The type behind a chain of aliases. -/
def unaliased : Ty → Ty
  | aliasOf _ parent => parent.unaliased
  | t => t

def aliasNames : Ty → List String
  | aliasOf name parent => name :: parent.aliasNames
  | _ => []

theorem equals_iff_unaliased (t b : Ty) :
    t.equals b = true ↔ b.name ∈ t.aliasNames ∨ t.unaliased.equals b = true := by
  induction t using aliasNames.induct with
  | case1 name parent ih =>
      rw [equals, aliasNames, unaliased, List.mem_cons, Bool.or_eq_true, ih, beq_iff_eq, or_assoc]
      exact or_congr eq_comm Iff.rfl
  | case2 t h =>
      cases t with
      | aliasOf name parent => exact absurd rfl (h name parent)
      | primitive | function | union | ofClass | template => simp [aliasNames, unaliased]

theorem kind_unaliased_ne (t : Ty) : t.unaliased.kind ≠ "alias" := by
  induction t using unaliased.induct with
  | case1 name parent ih => exact ih
  | case2 t h =>
      cases t with
      | aliasOf name parent => exact absurd rfl (h name parent)
      | primitive | function | union | ofClass | template => simp [unaliased, kind]

/-- A new name for a parameter's type turns the comparison round. -/
theorem admits_aliasOf_iff {name : String} {t : Ty} (hchain : name ∉ t.aliasNames)
    (hname : name ≠ t.unaliased.name) (p : Ty) :
    (aliasOf name p).admits t = true ↔ p.equals t.unaliased = true := by
  have hkind : t.unaliased.kind ≠ (aliasOf name p).kind := kind_unaliased_ne t
  have hfresh : (name == t.unaliased.name) = false := beq_eq_false_iff_ne.mpr hname
  have hother : (aliasOf name p).name ∉ t.aliasNames := by rwa [Ty.name]
  rw [admits, isAny, Bool.false_or, equals_iff_unaliased, equals_comm_of_kind_ne hkind, equals,
    hfresh, Bool.false_or]
  · exact or_iff_right hother
  · intro h
    cases h

/-- An alias stands for a parameter's type before an argument. -/
def StandsFor (p t : Ty) : Prop :=
  p.equals t.unaliased = true ↔ p.admits t = true

theorem standsFor_iff_of_isAny {p t : Ty} (hany : p.isAny = true) :
    p.StandsFor t ↔ p.equals t.unaliased = true := by
  simp [StandsFor, admits, hany]

/-- Apart from `any`, what an alias changes is the direction. -/
theorem standsFor_iff {p t : Ty} (hany : p.isAny = false) (hname : p.name ∉ t.aliasNames) :
    p.StandsFor t ↔ (p.equals t.unaliased = true ↔ t.unaliased.equals p = true) := by
  have hdirect : t.equals p = true ↔ t.unaliased.equals p = true :=
    (equals_iff_unaliased t p).trans (or_iff_right hname)
  rw [StandsFor, admits, hany, Bool.false_or, hdirect]

theorem equals_comm_of_primitive {a : Ty} (h : a.kind = "primitive") (b : Ty) :
    a.equals b = b.equals a := by
  cases a with
  | primitive q =>
      cases b with
      | primitive r => rw [equals, equals, BEq.comm]
      | function | aliasOf | union | ofClass | template =>
          exact equals_comm_of_kind_ne (by simp [kind])
  | function | aliasOf | union | ofClass | template => simp [kind] at h

theorem standsFor_of_kind {p t : Ty} (hany : p.isAny = false) (hname : p.name ∉ t.aliasNames)
    (hkind : p.kind ≠ t.unaliased.kind ∨ p.kind = "primitive") : p.StandsFor t := by
  rw [standsFor_iff hany hname]
  rcases hkind with hkind | hkind
  · rw [equals_comm_of_kind_ne hkind]
  · rw [equals_comm_of_primitive hkind]

theorem standsFor_ofClass_iff {c d : ClassTy} {t : Ty} (hname : (ofClass c).name ∉ t.aliasNames)
    (ht : t.unaliased = ofClass d) :
    (ofClass c).StandsFor t ↔ (c.inherits d = true ↔ d.inherits c = true) := by
  rw [standsFor_iff rfl hname, ht, equals, equals]

end Ty

open CheckM

/-- The parameter at a place admits the argument there. -/
def AdmitsAt (params : List Ty) (args : List (Datum × Ty)) (i : Nat) : Prop :=
  ∀ (p : Ty) (arg : Datum) (t : Ty), params[i]? = some p → args[i]? = some (arg, t) →
    p.admits t = true

theorem forall_admitsAt_cons (p : Ty) (params : List Ty) (arg : Datum) (t : Ty)
    (args : List (Datum × Ty)) :
    (∀ i, AdmitsAt (p :: params) ((arg, t) :: args) i) ↔
      p.admits t = true ∧ ∀ i, AdmitsAt params args i := by
  constructor
  · intro h
    exact ⟨h 0 p arg t rfl rfl, fun i => h (i + 1)⟩
  · rintro ⟨hfirst, hothers⟩ i q arg' t' hq ha
    cases i with
    | zero =>
        cases hq
        cases ha
        exact hfirst
    | succ i => exact hothers i q arg' t' hq ha

theorem run_expect (σ : Session) (actual expected : Ty) (expr within : Datum) :
    σ.run (expect actual expected expr within) =
      if actual.equals expected then (.ok (), σ)
      else (.error (.rejected (.typeMismatch expected.name actual.name expr within)), σ) := by
  unfold expect
  cases actual.equals expected <;> rfl

theorem acceptEach_ok_iff (σ : Session) (expr : Datum) (params : List Ty)
    (args : List (Datum × Ty)) :
    (σ.run (acceptEach expr params args)).1 = .ok () ↔ ∀ i, AdmitsAt params args i := by
  induction params generalizing args with
  | nil => simp [acceptEach, AdmitsAt]
  | cons p params ih =>
      cases args with
      | nil => simp [acceptEach, AdmitsAt]
      | cons a args =>
          obtain ⟨arg, t⟩ := a
          rw [forall_admitsAt_cons, acceptEach, Ty.admits]
          cases p.isAny with
          | true => simpa using ih args
          | false =>
              rw [if_neg Bool.false_ne_true, Session.run_bind, run_expect, Bool.false_or]
              cases t.equals p with
              | true => simpa using ih args
              | false => simp

theorem acceptArguments_ok_iff (σ : Session) (s : Signature) (callee : String)
    (args : List (Datum × Ty)) (expr : Datum) :
    (σ.run (acceptArguments s callee args expr)).1 = .ok () ↔
      s.arity = args.length ∧ ∀ i, AdmitsAt s.params args i := by
  unfold acceptArguments
  by_cases harity : s.arity = args.length
  · rw [if_neg (not_not_intro harity), acceptEach_ok_iff]
    exact (and_iff_right harity).symm
  · rw [if_pos harity]
    simp [harity]

theorem acceptArguments_ok_iff_at (σ : Session) (s : Signature) (callee : String)
    (args : List (Datum × Ty)) (expr : Datum) {i : Nat} {p : Ty} (hp : s.params[i]? = some p) :
    (σ.run (acceptArguments s callee args expr)).1 = .ok () ↔
      s.arity = args.length ∧ (∀ j, j ≠ i → AdmitsAt s.params args j) ∧
        ∀ arg t, args[i]? = some (arg, t) → p.admits t = true := by
  rw [acceptArguments_ok_iff]
  refine and_congr_right fun _ => ?_
  constructor
  · intro h
    exact ⟨fun j _ => h j, fun arg t => h i p arg t hp⟩
  · rintro ⟨hothers, hplace⟩ j
    by_cases hj : j = i
    · subst hj
      intro q arg t hq ha
      obtain rfl : p = q := Option.some.inj (hp.symm.trans hq)
      exact hplace arg t ha
    · exact hothers j hj

/-- A signature with the type at one place under a new name. -/
def Signature.aliasAt (s : Signature) (i : Nat) (name : String) (p : Ty) : Signature :=
  ⟨s.params.set i (.aliasOf name p), s.result⟩

theorem acceptArguments_aliasAt_ok_iff (σ : Session) (s : Signature) (callee : String)
    (args : List (Datum × Ty)) (expr : Datum) {i : Nat} {p : Ty} (hp : s.params[i]? = some p)
    {name : String} (hfresh : ∀ arg t, args[i]? = some (arg, t) →
      name ∉ t.aliasNames ∧ name ≠ t.unaliased.name) :
    (σ.run (acceptArguments (s.aliasAt i name p) callee args expr)).1 = .ok () ↔
      s.arity = args.length ∧ (∀ j, j ≠ i → AdmitsAt s.params args j) ∧
        ∀ arg t, args[i]? = some (arg, t) → p.equals t.unaliased = true := by
  have hlt : i < s.params.length := (List.getElem?_eq_some_iff.mp hp).1
  have hplace : (s.aliasAt i name p).params[i]? = some (.aliasOf name p) :=
    List.getElem?_set_self hlt
  have harity : (s.aliasAt i name p).arity = s.arity := List.length_set
  have hother {j : Nat} (hj : j ≠ i) :
      AdmitsAt (s.aliasAt i name p).params args j ↔ AdmitsAt s.params args j := by
    rw [AdmitsAt, AdmitsAt, Signature.aliasAt, List.getElem?_set_ne hj.symm]
  rw [acceptArguments_ok_iff_at σ _ callee args expr hplace, harity]
  refine and_congr_right fun _ => and_congr ?_ ?_
  · exact forall_congr' fun j => forall_congr' fun hj => hother hj
  · refine forall_congr' fun arg => forall_congr' fun t => forall_congr' fun ha => ?_
    exact Ty.admits_aliasOf_iff (hfresh arg t ha).1 (hfresh arg t ha).2 p

theorem acceptArguments_aliasAt_same_iff (σ : Session) (s : Signature) (callee : String)
    (args : List (Datum × Ty)) (expr : Datum) {i : Nat} {p : Ty} (hp : s.params[i]? = some p)
    {name : String} (hfresh : ∀ arg t, args[i]? = some (arg, t) →
      name ∉ t.aliasNames ∧ name ≠ t.unaliased.name) :
    ((σ.run (acceptArguments (s.aliasAt i name p) callee args expr)).1 = .ok () ↔
        (σ.run (acceptArguments s callee args expr)).1 = .ok ()) ↔
      (s.arity = args.length → (∀ j, j ≠ i → AdmitsAt s.params args j) →
        ∀ arg t, args[i]? = some (arg, t) → p.StandsFor t) := by
  rw [acceptArguments_aliasAt_ok_iff σ s callee args expr hp hfresh,
    acceptArguments_ok_iff_at σ s callee args expr hp]
  constructor
  · intro h harity hothers arg t ha
    have hplace (q : Ty → Bool) :
        (∀ arg' t', args[i]? = some (arg', t') → q t' = true) ↔ q t = true := by
      constructor
      · exact fun hq => hq arg t ha
      · intro hq arg' t' ha'
        obtain ⟨-, rfl⟩ := Prod.mk.inj (Option.some.inj (ha.symm.trans ha'))
        exact hq
    rw [hplace fun t => p.equals t.unaliased, hplace p.admits] at h
    constructor
    · intro hequals
      exact (h.mp ⟨harity, hothers, hequals⟩).2.2
    · intro hadmits
      exact (h.mpr ⟨harity, hothers, hadmits⟩).2.2
  · intro h
    refine and_congr_right fun harity => and_congr_right fun hothers => ?_
    exact forall_congr' fun arg => forall_congr' fun t => forall_congr' (h harity hothers arg t)

/-- An alias of a parameter's type leaves a call's verdict as it is exactly where the alias stands
for the type before the argument in its place, or another place decides. An alias of `any` does so
only before what `any` is accepted for. Any other does if the comparison has no direction, so always
between different kinds and for primitives, but for a class only before itself and unrelated ones. -/
theorem alias_transparent_at_call_iff (σ : Session) (s : Signature) (callee : String)
    (args : List (Datum × Ty)) (expr : Datum) (i : Nat) (p : Ty) (hp : s.params[i]? = some p)
    (name : String) (hfresh : ∀ arg t, args[i]? = some (arg, t) →
      name ∉ t.aliasNames ∧ name ≠ t.unaliased.name) :
    (((σ.run (acceptArguments (s.aliasAt i name p) callee args expr)).1 = .ok () ↔
        (σ.run (acceptArguments s callee args expr)).1 = .ok ()) ↔
      (s.arity = args.length → (∀ j, j ≠ i → AdmitsAt s.params args j) →
        ∀ arg t, args[i]? = some (arg, t) → p.StandsFor t)) ∧
      ∀ t : Ty, (p.isAny = true → (p.StandsFor t ↔ p.equals t.unaliased = true)) ∧
        (p.isAny = false → p.name ∉ t.aliasNames →
          (p.StandsFor t ↔ (p.equals t.unaliased = true ↔ t.unaliased.equals p = true)) ∧
            (p.kind ≠ t.unaliased.kind ∨ p.kind = "primitive" → p.StandsFor t) ∧
            ∀ c d, p = .ofClass c → t.unaliased = .ofClass d →
              (p.StandsFor t ↔ (c.inherits d = true ↔ d.inherits c = true))) := by
  refine ⟨acceptArguments_aliasAt_same_iff σ s callee args expr hp hfresh, fun t => ?_⟩
  refine ⟨Ty.standsFor_iff_of_isAny, fun hany hname =>
    ⟨Ty.standsFor_iff hany hname, Ty.standsFor_of_kind hany hname, ?_⟩⟩
  rintro c d rfl ht
  exact Ty.standsFor_ofClass_iff hname ht

/-- What a call of `walk` says of its arguments, a number and something of a given type, if the second
parameter has a given type. -/
def walked (param t : Ty) : Except Halt Unit :=
  ((Session.start {}).run
    (acceptArguments ⟨[.number, param], .null⟩ "walk" [(.symbol "n", .number), (.symbol "x", t)]
      (.symbol "here"))).1

theorem alias_transparent_at_call_iff_of_dog :
    ("Beast" ∉ (Ty.ofClass dog).aliasNames ∧ "Beast" ≠ (Ty.ofClass dog).unaliased.name) ∧
      ((walked (.aliasOf "Beast" (.ofClass animal)) (.ofClass dog) = .ok () ↔
          walked (.ofClass animal) (.ofClass dog) = .ok ()) ↔
        (Ty.ofClass animal).StandsFor (.ofClass dog)) := by
  have hfresh : "Beast" ∉ (Ty.ofClass dog).aliasNames ∧
      "Beast" ≠ (Ty.ofClass dog).unaliased.name := by decide
  have honly (q : Ty → Prop) (hq : q (.ofClass dog)) (arg : Datum) (t : Ty)
      (ha : [(Datum.symbol "n", Ty.number), (.symbol "x", .ofClass dog)][1]? = some (arg, t)) :
      q t := by
    obtain ⟨-, rfl⟩ := Prod.mk.inj (Option.some.inj ha)
    exact hq
  have hexact := alias_transparent_at_call_iff (Session.start {}) ⟨[.number, .ofClass animal], .null⟩
    "walk" [(.symbol "n", .number), (.symbol "x", .ofClass dog)] (.symbol "here") 1
    (.ofClass animal) rfl "Beast" (honly _ hfresh)
  refine ⟨hfresh, fun h => ?_, fun hstands => hexact.1.mpr fun _ _ => honly _ hstands⟩
  refine hexact.1.mp h rfl ?_ (.symbol "x") (.ofClass dog) rfl
  -- The first place takes its number, and there is no third.
  intro j hj p arg t hp ha
  match j with
  | 0 =>
      cases hp
      cases ha
      decide +kernel
  | 1 => exact absurd rfl hj
  | j + 2 => simp at hp

/-- A dog is taken for an animal and not for an alias of it, and a string is taken for `any` and not
for an alias of it. -/
theorem alias_not_transparent_at_call :
    ¬(walked (.aliasOf "Beast" (.ofClass animal)) (.ofClass dog) = .ok () ↔
        walked (.ofClass animal) (.ofClass dog) = .ok ()) ∧
      ¬(walked (.aliasOf "Anything" .any) .string = .ok () ↔ walked .any .string = .ok ()) := by
  have haccepts {param t : Ty} :
      walked param t = .ok () ↔ (walked param t).toBool = true := by
    cases walked param t <;> simp [Except.toBool]
  simp only [haccepts]
  decide +kernel

end TypedLisp
