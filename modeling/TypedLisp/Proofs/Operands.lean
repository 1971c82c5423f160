import TypedLisp.Proofs.Arguments
import TypedLisp.Proofs.Frame

/-!
Operands of arithmetic. With strict operands the type of the left operand consists of allowed types
only, whatever aliases and unions it is made of. The right operand is only required to be accepted
for the left one. That makes it an allowed type too, unless it is a union, of which one option is
enough, or an alias on one side goes by the name of another type on the other.
-/

namespace TypedLisp

namespace Ty

mutual

/-- The types met on the way through aliases and into the options of unions. -/
def met : Ty → List Ty
  | aliasOf name parent => aliasOf name parent :: met parent
  | union id name options => union id name options :: metInEach options
  | t => [t]

def metInEach : List Ty → List Ty
  | [] => []
  | t :: ts => met t ++ metInEach ts

end

mutual

/-- The types behind all aliases and options: neither alias nor union. -/
def leaves : Ty → List Ty
  | aliasOf _ parent => leaves parent
  | union _ _ options => leavesOfEach options
  | t => [t]

def leavesOfEach : List Ty → List Ty
  | [] => []
  | t :: ts => leaves t ++ leavesOfEach ts

end

theorem mem_metInEach {t : Ty} {ts : List Ty} : t ∈ metInEach ts ↔ ∃ o ∈ ts, t ∈ o.met := by
  induction ts with
  | nil => simp [metInEach]
  | cons o ts ih => simp [metInEach, ih]

theorem mem_leavesOfEach {t : Ty} {ts : List Ty} :
    t ∈ leavesOfEach ts ↔ ∃ o ∈ ts, t ∈ o.leaves := by
  induction ts with
  | nil => simp [leavesOfEach]
  | cons o ts ih => simp [leavesOfEach, ih]

theorem mem_met_self (t : Ty) : t ∈ t.met := by
  cases t <;> simp [met]

/-- Neither an alias nor a union. -/
inductive IsLeaf : Ty → Prop where
  | primitive (p : Primitive) : IsLeaf (.primitive p)
  | function (params : List Ty) (result : Ty) : IsLeaf (.function params result)
  | ofClass (c : ClassTy) : IsLeaf (.ofClass c)
  | template (g : Template) : IsLeaf (.template g)

@[elab_as_elim]
theorem inductionThrough {motive : Ty → Prop} (leaf : ∀ t, t.IsLeaf → motive t)
    (aliasOf : ∀ name parent, motive parent → motive (.aliasOf name parent))
    (union : ∀ id name options, (∀ o ∈ options, motive o) → motive (.union id name options)) :
    ∀ t, motive t
  | .aliasOf name parent => aliasOf name parent (inductionThrough leaf aliasOf union parent)
  | .union id name options =>
      union id name options fun o _ => inductionThrough leaf aliasOf union o
  | .primitive p => leaf _ (.primitive p)
  | .function params result => leaf _ (.function params result)
  | .ofClass c => leaf _ (.ofClass c)
  | .template g => leaf _ (.template g)

theorem isLeaf_iff (t : Ty) : t.IsLeaf ↔ t.kind ≠ "alias" ∧ t.kind ≠ "union" := by
  constructor
  · intro h
    cases h <;> simp [kind]
  · rintro ⟨halias, hunion⟩
    cases t with
    | aliasOf => exact absurd rfl halias
    | union => exact absurd rfl hunion
    | primitive | function | ofClass | template => constructor

theorem isLeaf_unaliased {t : Ty} (h : t.unaliased.kind ≠ "union") : t.unaliased.IsLeaf :=
  t.unaliased.isLeaf_iff.mpr ⟨kind_unaliased_ne t, h⟩

namespace IsLeaf

variable {t u : Ty}

theorem kind_ne_alias (h : t.IsLeaf) : t.kind ≠ "alias" :=
  (t.isLeaf_iff.mp h).1

theorem kind_ne_union (h : t.IsLeaf) : t.kind ≠ "union" :=
  (t.isLeaf_iff.mp h).2

theorem met_eq (h : t.IsLeaf) : t.met = [t] := by
  cases h <;> simp [met]

theorem leaves_eq (h : t.IsLeaf) : t.leaves = [t] := by
  cases h <;> simp [leaves]

theorem unaliased_eq (h : t.IsLeaf) : t.unaliased = t := by
  cases h <;> simp [unaliased]

theorem allowedAs_eq (h : t.IsLeaf) (allowed : List Ty) :
    t.allowedAs allowed = allowed.any fun u => t.equals u := by
  cases h <;> rw [allowedAs]

theorem equals_primitive_iff (h : t.IsLeaf) (p : Primitive) :
    t.equals (.primitive p) = true ↔ t = .primitive p := by
  cases h <;> simp [equals]

theorem equals_union (h : u.IsLeaf) (id : Nat) (name : String) (options : List Ty) :
    (union id name options).equals u = true ↔ ∃ o ∈ options, o.equals u = true := by
  cases h <;> simp [equals, someEquals_eq_true_iff]

end IsLeaf

theorem leaves_unaliased (t : Ty) : t.unaliased.leaves = t.leaves := by
  induction t using inductionThrough with
  | leaf t h => rw [h.unaliased_eq]
  | aliasOf name parent ih => rw [unaliased, leaves, ih]
  | union id name options _ => rw [unaliased]; simp

theorem unaliased_mem_met (t : Ty) : t.unaliased ∈ t.met := by
  induction t using inductionThrough with
  | leaf t h => rw [h.unaliased_eq]; exact mem_met_self t
  | aliasOf name parent ih =>
      rw [unaliased, met]
      exact List.mem_cons_of_mem _ ih
  | union id name options _ => exact mem_met_self _

/-- Types of one name on two sides, at least one of them an alias, that are not the same type. -/
def SharesName (a b : Ty) : Prop :=
  ∃ s ∈ a.met, ∃ t ∈ b.met, (s.kind = "alias" ∨ t.kind = "alias") ∧ s.name = t.name ∧ s ≠ t

theorem exists_met_of_mem_aliasNames {t : Ty} {name : String} (h : name ∈ t.aliasNames) :
    ∃ s ∈ t.met, s.kind = "alias" ∧ s.name = name ∧ s.unaliased = t.unaliased := by
  induction t using aliasNames.induct with
  | case1 n parent ih =>
      rw [aliasNames] at h
      rcases List.mem_cons.mp h with rfl | h
      · exact ⟨aliasOf name parent, mem_met_self _, rfl, by rw [Ty.name], rfl⟩
      · obtain ⟨s, hs, hkind, hname, hsame⟩ := ih h
        refine ⟨s, ?_, hkind, hname, by rw [hsame, unaliased]⟩
        rw [met]
        exact List.mem_cons_of_mem _ hs
  | case2 t ht =>
      cases t with
      | aliasOf name parent => exact absurd rfl (ht name parent)
      | primitive | function | union | ofClass | template => simp [aliasNames] at h

/-- A type is accepted for a leaf through a leaf of its own, or by the name of an alias. -/
theorem equals_leaf_iff {t u : Ty} (hu : u.IsLeaf)
    (hleaves : ∀ l ∈ t.leaves, (l.equals u = true ↔ l = u)) :
    t.equals u = true ↔ u ∈ t.leaves ∨ ∃ s ∈ t.met, s.kind = "alias" ∧ s.name = u.name := by
  induction t using inductionThrough with
  | leaf t ht =>
      have hnone : ¬∃ s ∈ [t], s.kind = "alias" ∧ s.name = u.name := by simp [ht.kind_ne_alias]
      rw [hleaves t (by simp [ht.leaves_eq]), ht.leaves_eq, ht.met_eq, or_iff_left hnone,
        List.mem_singleton, eq_comm]
  | aliasOf name parent ih =>
      rw [leaves] at hleaves ⊢
      rw [equals, Bool.or_eq_true, beq_iff_eq, ih hleaves, met]
      simp [kind, Ty.name, or_left_comm]
  | union id name options ih =>
      rw [leaves] at hleaves ⊢
      rw [hu.equals_union, met]
      have heach (o : Ty) (ho : o ∈ options) := ih o ho fun l hl =>
        hleaves l (mem_leavesOfEach.mpr ⟨o, ho, hl⟩)
      constructor
      · rintro ⟨o, ho, h⟩
        rcases (heach o ho).mp h with hleaf | ⟨s, hs, hs'⟩
        · exact .inl (mem_leavesOfEach.mpr ⟨o, ho, hleaf⟩)
        · exact .inr ⟨s, List.mem_cons_of_mem _ (mem_metInEach.mpr ⟨o, ho, hs⟩), hs'⟩
      · rintro (hleaf | ⟨s, hs, hkind, hname⟩)
        · obtain ⟨o, ho, hleaf⟩ := mem_leavesOfEach.mp hleaf
          exact ⟨o, ho, (heach o ho).mpr (.inl hleaf)⟩
        · rcases List.mem_cons.mp hs with rfl | hs
          · simp [kind] at hkind
          · obtain ⟨o, ho, hs⟩ := mem_metInEach.mp hs
            exact ⟨o, ho, (heach o ho).mpr (.inr ⟨s, hs, hkind, hname⟩)⟩

theorem IsLeaf.equals_comm {t u : Ty} (hu : u.IsLeaf)
    (hprimitive : ∀ l ∈ t.leaves, l.kind = "primitive") : u.equals t = t.equals u := by
  by_cases hkind : u.kind = t.kind
  · have ht : t.IsLeaf := t.isLeaf_iff.mpr ⟨hkind ▸ hu.kind_ne_alias, hkind ▸ hu.kind_ne_union⟩
    have hleaf : t.kind = "primitive" := hprimitive t (by simp [ht.leaves_eq])
    exact (equals_comm_of_primitive hleaf u).symm
  · exact equals_comm_of_kind_ne hkind

theorem isLeaf_of_mem_leaves {t l : Ty} (h : l ∈ t.leaves) : l.IsLeaf := by
  induction t using inductionThrough with
  | leaf t ht =>
      rw [ht.leaves_eq] at h
      exact List.mem_singleton.mp h ▸ ht
  | aliasOf name parent ih =>
      rw [leaves] at h
      exact ih h
  | union id name options ih =>
      rw [leaves] at h
      obtain ⟨o, ho, h⟩ := mem_leavesOfEach.mp h
      exact ih o ho h

theorem equals_primitive_iff (t : Ty) (p : Primitive) :
    t.equals (primitive p) = true ↔
      primitive p ∈ t.leaves ∨ ∃ s ∈ t.met, s.kind = "alias" ∧ s.name = p.name := by
  have h := equals_leaf_iff (.primitive p) fun l hl =>
    (isLeaf_of_mem_leaves (t := t) hl).equals_primitive_iff p
  rwa [Ty.name] at h

theorem allAllowedAs_eq_true_iff {allowed ts : List Ty} :
    allAllowedAs allowed ts = true ↔ ∀ t ∈ ts, t.allowedAs allowed = true := by
  induction ts with
  | nil => simp [allAllowedAs]
  | cons t ts ih => simp [allAllowedAs, ih]

end Ty

namespace Operator

theorem primitive_of_mem_allowed {op : Operator} {t : Ty} (h : t ∈ op.allowed) :
    ∃ p, t = .primitive p := by
  have hstrict : t = .number ∨ t = .string := by
    cases op with
    | add => simpa [allowed] using h
    | sub | mul | div | eq | ne | gt | ge | lt | le => exact .inl (by simpa [allowed] using h)
  rcases hstrict with rfl | rfl
  · exact ⟨.number, rfl⟩
  · exact ⟨.string, rfl⟩

/-- All that a type consists of is in the table of the operator. -/
def Takes (op : Operator) (t : Ty) : Prop :=
  ∀ l ∈ t.leaves, l ∈ op.allowed

theorem allowedAs_iff_takes (op : Operator) (t : Ty) :
    t.allowedAs op.allowed = true ↔ op.Takes t := by
  induction t using Ty.inductionThrough with
  | leaf t ht =>
      rw [ht.allowedAs_eq, List.any_eq_true, Takes, ht.leaves_eq]
      have hequals {u : Ty} (hu : u ∈ op.allowed) : t.equals u = true ↔ t = u := by
        obtain ⟨p, rfl⟩ := primitive_of_mem_allowed hu
        exact ht.equals_primitive_iff p
      constructor
      · rintro ⟨u, hu, htaken⟩ l hl
        rwa [List.mem_singleton.mp hl, (hequals hu).mp htaken]
      · intro h
        have ht := h t (List.mem_singleton_self t)
        exact ⟨t, ht, (hequals ht).mpr rfl⟩
  | aliasOf name parent ih => rw [Ty.allowedAs, ih, Takes, Takes, Ty.leaves]
  | union id name options ih =>
      rw [Ty.allowedAs, Ty.allAllowedAs_eq_true_iff, Takes, Ty.leaves]
      constructor
      · intro h l hl
        obtain ⟨o, ho, hl⟩ := Ty.mem_leavesOfEach.mp hl
        exact (ih o ho).mp (h o ho) l hl
      · intro h o ho
        exact (ih o ho).mpr fun l hl => h l (Ty.mem_leavesOfEach.mpr ⟨o, ho, hl⟩)

theorem takes_of_equals {op : Operator} {t b : Ty} (ht : op.Takes t) (h : b.equals t = true) :
    op.Takes b ∨ b.unaliased.kind = "union" ∨ b.SharesName t := by
  have hsame {u : Ty} (hu : u.unaliased = b.unaliased) (htaken : op.Takes u) : op.Takes b := by
    rwa [Takes, ← Ty.leaves_unaliased, ← hu, Ty.leaves_unaliased]
  rcases (Ty.equals_iff_unaliased b t).mp h with hname | h
  · obtain ⟨s, hs, hkind, hname, hbehind⟩ := Ty.exists_met_of_mem_aliasNames hname
    by_cases hst : s = t
    · exact .inl (hsame (hst ▸ hbehind) ht)
    · exact .inr (.inr ⟨s, hs, t, Ty.mem_met_self t, .inl hkind, hname, hst⟩)
  · by_cases hunion : b.unaliased.kind = "union"
    · exact .inr (.inl hunion)
    · have hleaf := Ty.isLeaf_unaliased hunion
      have hprimitive (l : Ty) (hl : l ∈ t.leaves) : ∃ p, l = .primitive p :=
        primitive_of_mem_allowed (ht l hl)
      have hequals (l : Ty) (hl : l ∈ t.leaves) :
          l.equals b.unaliased = true ↔ l = b.unaliased := by
        obtain ⟨p, rfl⟩ := hprimitive l hl
        rw [Ty.equals_comm_of_primitive rfl, hleaf.equals_primitive_iff, eq_comm]
      rw [hleaf.equals_comm fun l hl => by obtain ⟨p, rfl⟩ := hprimitive l hl; rfl] at h
      rcases (Ty.equals_leaf_iff hleaf hequals).mp h with hmem | ⟨s, hs, hkind, hname⟩
      · refine .inl fun l hl => ?_
        rw [← Ty.leaves_unaliased, hleaf.leaves_eq] at hl
        exact List.mem_singleton.mp hl ▸ ht _ hmem
      · refine .inr (.inr ⟨b.unaliased, Ty.unaliased_mem_met b, s, hs, .inr hkind, hname.symm, ?_⟩)
        exact fun heq => hleaf.kind_ne_alias (heq ▸ hkind)

end Operator

open CheckM

theorem run_operate_eq_ok {σ σ' : Session} {op : Operator} (hop : op.isComparison = false)
    (hstrict : σ.context.options.strictOperands = true) {left right expr : Datum}
    {leftType rightType t : Ty} :
    σ.run (operate op left right leftType rightType expr) = (.ok t, σ') ↔
      op.Takes leftType ∧ rightType.equals leftType = true ∧ t = leftType ∧ σ' = σ := by
  rw [operate, Session.run_bind_of_ok _ (Session.run_context σ)]
  dsimp only
  rw [hop, hstrict, ← op.allowedAs_iff_takes]
  cases leftType.allowedAs op.allowed with
  | false => simp
  | true =>
      rw [if_neg (by simp), Session.run_bind, run_expect]
      cases rightType.equals leftType with
      | false => simp
      | true => simp [eq_comm]

theorem run_checkExpr_of_binary (σ : Session) (inBody : Datum → ScopeId → CheckM Ty)
    {d left right : Datum} {op : Operator}
    (hd : Form.classify d = .ok (.binary op [left, right])) (s : ScopeId) :
    σ.run (checkExpr inBody d s) = Session.run { σ with events := σ.events.push (.checking d s) }
      (do
        let leftType ← checkExpr inBody left s
        let rightType ← checkExpr inBody right s
        operate op left right leftType rightType d) := by
  rw [checkExpr]
  split
  · next h => cases hd.symm.trans h
  · next form h =>
      cases hd.symm.trans h
      rw [Session.run_bind_of_ok _ (Session.run_emit σ _)]

theorem Context.Reachable.options_kept {c : Context} (hc : c.Reachable) (depth : Nat) (d : Datum)
    {s : ScopeId} (hs : s.index < c.scopes.size) (events : Array Event) :
    let after := (Session.run ⟨c, events⟩ (checkExpr (bodyWithin depth) d s)).2.context
    after.options = c.options ∧ c.scopes.size ≤ after.scopes.size := by
  obtain ⟨made, hw⟩ := hc.wellFormed
  obtain ⟨outcome, v, events', hrun, hsteps, -⟩ := Evolves.checkExpr_open depth d hs hw events
  rw [hrun]
  exact ⟨hsteps.options, hsteps.later.size⟩

/-- Strict arithmetic is accepted if its left operand has a type that the operator takes, through all
aliases and options, and its right operand is accepted for that type. So the right operand has a type
that the operator takes too, unless it is a union or an alias goes by the name of another type; and
of a union one option is enough, where the left operand has the type of a primitive. -/
theorem strict_operands_iff {c : Context} (hc : c.Reachable)
    (hstrict : c.options.strictOperands = true) (depth : Nat) {d left right : Datum} {op : Operator}
    (hop : op.isComparison = false) (hd : Form.classify d = .ok (.binary op [left, right]))
    {s : ScopeId} (hs : s.index < c.scopes.size) (events : Array Event) (t : Ty) :
    (∀ σ', Session.run ⟨c, events⟩ (checkExpr (bodyWithin depth) d s) = (.ok t, σ') ↔
      ∃ rightType σ₁,
        Session.run ⟨c, events.push (.checking d s)⟩ (checkExpr (bodyWithin depth) left s) =
          (.ok t, σ₁) ∧
        σ₁.run (checkExpr (bodyWithin depth) right s) = (.ok rightType, σ') ∧
        op.Takes t ∧ rightType.equals t = true) ∧
      ∀ rightType : Ty,
        (op.Takes t → rightType.equals t = true →
          op.Takes rightType ∨ rightType.unaliased.kind = "union" ∨ rightType.SharesName t) ∧
        ∀ p, t = .primitive p → (rightType.equals t = true ↔ .primitive p ∈ rightType.leaves ∨
          ∃ u ∈ rightType.met, u.kind = "alias" ∧ u.name = p.name) := by
  refine ⟨fun σ' => ?_, fun rightType => ⟨Operator.takes_of_equals, ?_⟩⟩
  · have hkept {rightType : Ty} {leftType : Ty} {σ₁ σ₂ : Session}
        (hleft : Session.run ⟨c, events.push (.checking d s)⟩
          (checkExpr (bodyWithin depth) left s) = (.ok leftType, σ₁))
        (hright : σ₁.run (checkExpr (bodyWithin depth) right s) = (.ok rightType, σ₂)) :
        σ₂.context.options.strictOperands = true := by
      have hfirst := hc.options_kept depth left hs (events.push (.checking d s))
      have hreached := hc.expr depth left hs (events.push (.checking d s))
      rw [hleft] at hfirst hreached
      have hsecond := hreached.options_kept depth right (Nat.lt_of_lt_of_le hs hfirst.2) σ₁.events
      rw [hright] at hsecond
      rw [hsecond.1, hfirst.1, hstrict]
    rw [run_checkExpr_of_binary _ _ hd]
    constructor
    · intro h
      obtain ⟨leftType, σ₁, hleft, h⟩ := Session.run_bind_eq_ok.mp h
      obtain ⟨rightType, σ₂, hright, h⟩ := Session.run_bind_eq_ok.mp h
      obtain ⟨htakes, hequals, rfl, rfl⟩ := (run_operate_eq_ok hop (hkept hleft hright)).mp h
      exact ⟨rightType, σ₁, hleft, hright, htakes, hequals⟩
    · rintro ⟨rightType, σ₁, hleft, hright, htakes, hequals⟩
      refine Session.run_bind_eq_ok.mpr ⟨t, σ₁, hleft, ?_⟩
      refine Session.run_bind_eq_ok.mpr ⟨rightType, σ', hright, ?_⟩
      exact (run_operate_eq_ok hop (hkept hleft hright)).mpr ⟨htakes, hequals, rfl, rfl⟩
  · rintro p rfl
    exact rightType.equals_primitive_iff p

/-- A variable that holds a number or a string, and the context that declares it. -/
def eitherVariable : List Datum :=
  [.list [.symbol "type", .symbol "Either",
      .list [.symbol "or", .symbol "number", .symbol "string"]],
    .list [.symbol "var", .list [.symbol "x", .symbol "Either"], .text "a"]]

def withEither : Context :=
  (Session.run ⟨Context.new {}, #[]⟩
    (checkBlock (bodyWithin 1) eitherVariable Arena.global)).2.context

theorem reachable_withEither : withEither.Reachable :=
  .block (.new {}) 1 eitherVariable Nat.one_pos #[]

/-- What is said of an operation on the variable. -/
def checkedWithEither (d : Datum) : Except Halt Ty :=
  (Session.run ⟨withEither, #[]⟩ (checkExpr (bodyWithin 1) d Arena.global)).1

def sumOfEither : Datum := .list [.symbol "+", .symbol "x", .symbol "x"]

/-- Added to itself, the variable has a type of which all options are taken. -/
theorem strict_operands_iff_of_either :
    withEither.Reachable ∧ withEither.options.strictOperands = true ∧
      ∃ t rightType : Ty, checkedWithEither sumOfEither = .ok t ∧ Operator.add.Takes t ∧
        rightType.equals t = true := by
  have hstrict : withEither.options.strictOperands = true := by decide +kernel
  have hopen : Arena.global.index < withEither.scopes.size := by decide +kernel
  have hclassified : Form.classify sumOfEither = .ok (.binary .add [.symbol "x", .symbol "x"]) :=
    rfl
  have haccepted : (checkedWithEither sumOfEither).toBool = true := by decide +kernel
  obtain ⟨t, ht⟩ := exists_ok_of_toBool haccepted
  have hiff := strict_operands_iff reachable_withEither hstrict 1 rfl hclassified hopen #[] t
  obtain ⟨rightType, -, -, -, htakes, hequals⟩ := (hiff.1 _).mp (Prod.ext ht rfl)
  exact ⟨reachable_withEither, hstrict, t, rightType, ht, htakes, hequals⟩

def differenceFromEither : Datum :=
  .list [.symbol "-", .number ⟨0x3ff0000000000000⟩, .symbol "x"]

/-- Subtracted from a number, the variable has a type of which one option is not taken. -/
theorem right_operand_not_strict :
    withEither.Reachable ∧ withEither.options.strictOperands = true ∧
      (∃ t, checkedWithEither differenceFromEither = .ok t) ∧
      ∃ rightType, checkedWithEither (.symbol "x") = .ok rightType ∧
        ¬Operator.sub.Takes rightType := by
  have hstrict : withEither.options.strictOperands = true := by decide +kernel
  have haccepted : (checkedWithEither differenceFromEither).toBool = true := by decide +kernel
  have hright : (checkedWithEither (.symbol "x")).toBool = true := by decide +kernel
  have hrefused :
      ((checkedWithEither (.symbol "x")).map (·.allowedAs Operator.sub.allowed)).toOption =
        some false := by
    decide +kernel
  obtain ⟨rightType, hrightType⟩ := exists_ok_of_toBool hright
  refine ⟨reachable_withEither, hstrict, exists_ok_of_toBool haccepted, rightType, hrightType, ?_⟩
  rw [← Operator.allowedAs_iff_takes]
  rw [hrightType] at hrefused
  exact Bool.eq_false_iff.mp (Option.some.inj hrefused)

end TypedLisp
