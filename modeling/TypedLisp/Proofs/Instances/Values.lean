import TypedLisp.Proofs.Acceptance
import TypedLisp.Proofs.Instances.Plans

namespace TypedLisp

namespace Ty

theorem name_template (g : Template) : (Ty.template g).name = g.shown := by
  rw [name]

theorem equals_template_congr {g h : Template} (hshown : g.shown = h.shown) {size : Nat} {t : Ty}
    (ht : t.Written size) :
    (template g).equals t = (template h).equals t ∧ t.equals (template g) = t.equals (template h) := by
  induction ht with
  | primitive p => simp [equals]
  | function => simp [equals]
  | ofClass => simp [equals]
  | aliasOf _ ih => simp [equals, name_template, hshown, ih.2]
  | @union id name options _ ih =>
      have hoptions : someEquals options (template g) = someEquals options (template h) := by
        rw [Bool.eq_iff_iff, someEquals_eq_true_iff, someEquals_eq_true_iff]
        constructor
        · rintro ⟨o, ho, heq⟩
          exact ⟨o, ho, (ih o ho).2 ▸ heq⟩
        · rintro ⟨o, ho, heq⟩
          exact ⟨o, ho, (ih o ho).2 ▸ heq⟩
      simp [equals, hoptions]

end Ty

/-- What is known of a template apart from its number, its scope and the symbols of its parameters.
-/
structure Generic where
  typeParams : List String
  names : List String
  exprs : List TypeExpr
  result : TypeExpr
  body : Datum
  env : String → Option Ty

def Generic.bodyAt (d : Generic) (names : List String) : Datum :=
  d.body.specialize fun name => lastPaired? name d.typeParams names

/-- A template that stands for those that look like it. -/
def Generic.sample (b : Base) (d : Generic) : Template :=
  ⟨b.next, "lambda", d.typeParams, d.exprs.map (Prod.mk ⟨0⟩), d.result, d.body, ⟨0⟩⟩

structure Renders (x : Context) (d : Generic) (g : Template) : Prop where
  typeParams : g.typeParams = d.typeParams
  symbols : List.Forall₂ (fun s name => x.interner.resolve? s = some name)
    (g.params.map Prod.fst) d.names
  exprs : g.params.map Prod.snd = d.exprs
  result : g.result = d.result
  body : g.body = d.body
  closure : Sees x g.closure d.env

/-- A type of the base, or a template made by the check itself. -/
inductive Value where
  | known (t : Ty)
  | generic (d : Generic)

namespace Base

variable (b : Base)

/-- The names of an environment stand for written types, or for templates that the base binds to
them. -/
def EnvOk (env : String → Option Ty) : Prop :=
  ∀ name t, env name = some t → t.Written b.size ∨
    ∃ g, t = .template g ∧ b.context.BindsTo name g

/-- A written type, or a template that may be used. -/
def Known (t : Ty) : Prop :=
  t.Written b.size ∨ ∃ g, t = .template g ∧ b.involved g ∧ ∃ name, b.context.BindsTo name g

end Base

namespace Value

variable (b : Base)

def Is (x : Context) : Value → Ty → Prop
  | known u, t => t = u ∧ b.Known u
  | generic d, t => ∃ g, t = .template g ∧ g.name = "lambda" ∧ b.next ≤ g.serial ∧
      g.serial < x.nextTemplate ∧ Renders x d g

/-- A template made by a check comes from inside the expression checked. -/
def Stems (e : Datum) : Value → Prop
  | known _ => True
  | generic d => b.EnvOk d.env ∧ (∀ t ∈ d.exprs, t.WellNamed) ∧ d.result.WellNamed ∧
      ∀ names, Relation.TransGen Inside (d.bodyAt names) e

/-- What checking an expression from `x` on gives in `y`. -/
structure Yields (e : Datum) (x : Context) (v : Value) (t : Ty) (y : Context) : Prop where
  is : v.Is b y t
  stems : v.Stems b e
  new : ∀ d g, v = .generic d → t = .template g →
    x.nextTemplate ≤ g.serial ∧ ∀ key, key.template = g.id → y.instance? key = none

def accepted : Value → Value → Bool
  | known t, known u => t.equals u
  | generic d, known u => (Ty.template (d.sample b)).equals u
  | known t, generic d => t.equals (.template (d.sample b))
  | generic _, generic _ => false

variable {b} {x y : Context}

open Base in
theorem equals_of_known {d : Generic} {g : Template} (hlambda : g.name = "lambda")
    (hparams : g.typeParams = d.typeParams) (hserial : b.next ≤ g.serial) {t : Ty} (ht : b.Known t) :
    (Ty.template g).equals t = (Ty.template (d.sample b)).equals t ∧
      t.equals (.template g) = t.equals (.template (d.sample b)) := by
  rcases ht with ht | ⟨h, rfl, -, name, hname⟩
  · refine Ty.equals_template_congr ?_ ht
    rw [Template.shown, Template.shown, hlambda, hparams]
    rfl
  · have hlt : h.serial < b.next := b.wellFormed.numbered (made_of_bindsTo hname)
    have hne : g.serial ≠ h.serial := Nat.ne_of_gt (Nat.lt_of_lt_of_le hlt hserial)
    have hne' : b.next ≠ h.serial := Nat.ne_of_gt hlt
    simp [Ty.equals, Generic.sample, hne, hne', hne.symm, hne'.symm]

theorem Is.equals {v u : Value} {t t' : Ty} (hv : v.Is b x t) (hu : u.Is b y t')
    (hne : ∀ d d' g g', v = .generic d → u = .generic d' → t = .template g → t' = .template g' →
      g.serial ≠ g'.serial) :
    t.equals t' = accepted b v u := by
  cases v with
  | known a =>
      obtain ⟨rfl, ha⟩ := hv
      cases u with
      | known c =>
          obtain ⟨rfl, -⟩ := hu
          rfl
      | generic d =>
          obtain ⟨g, rfl, hname, hserial, -, hg⟩ := hu
          exact (equals_of_known hname hg.typeParams hserial ha).2
  | generic d =>
      obtain ⟨g, rfl, hname, hserial, -, hg⟩ := hv
      cases u with
      | known c =>
          obtain ⟨rfl, hc⟩ := hu
          exact (equals_of_known hname hg.typeParams hserial hc).1
      | generic d' =>
          obtain ⟨g', rfl, -, -, -, -⟩ := hu
          have := hne d d' g g' rfl rfl rfl rfl
          simp [Ty.equals, accepted, this]

theorem Is.equals_known {v : Value} {t u : Ty} (hv : v.Is b x t) (hu : b.Known u) :
    t.equals u = accepted b v (.known u) :=
  hv.equals (y := x) (u := .known u) ⟨rfl, hu⟩ fun _ _ _ _ _ h => nomatch h

end Value

variable {b : Base} {x y z : Context}

theorem Renders.before {d : Generic} {g : Template} (h : Renders x d g) (hx : b.Over x)
    (hxy : x.Before y) : Renders y d g where
  typeParams := h.typeParams
  symbols := h.symbols.imp fun s name hs => hxy.interner s name hs
  exprs := h.exprs
  result := h.result
  body := h.body
  closure := h.closure.before hx hxy

theorem Renders.actualSignature? {d : Generic} {g : Template} (h : Renders x d g) (c : Context)
    (actuals : List TypeExpr) :
    c.actualSignature? g actuals = c.actualSignature? (d.sample b) actuals := by
  have hparams (f : TypeExpr → TypeExpr) : g.params.map (fun p => f p.2) =
      (d.sample b).params.map (fun p => f p.2) := by
    have := congrArg (List.map f) h.exprs
    simpa [Generic.sample, Function.comp_def] using this
  rw [Context.actualSignature?, Context.actualSignature?, h.typeParams, h.result, hparams]
  rfl

namespace Value

theorem Is.before {v : Value} {t : Ty} (h : v.Is b x t) (hx : b.Over x) (hxy : x.Before y) :
    v.Is b y t := by
  cases v with
  | known u => exact h
  | generic d =>
      obtain ⟨g, rfl, hname, hserial, hlt, hg⟩ := h
      exact ⟨g, rfl, hname, hserial, Nat.lt_of_lt_of_le hlt hxy.nextTemplate, hg.before hx hxy⟩

theorem Stems.inside {v : Value} {d e : Datum} (h : v.Stems b e) (he : Inside e d) :
    v.Stems b d := by
  cases v with
  | known u => trivial
  | generic g =>
      obtain ⟨henv, hexprs, hresult, hbody⟩ := h
      exact ⟨henv, hexprs, hresult, fun names => (hbody names).tail he⟩

namespace Yields

variable {d e : Datum} {v : Value} {t : Ty}

theorem known {u : Ty} (hu : b.Known u) : Yields b e x (.known u) u y :=
  ⟨⟨rfl, hu⟩, trivial, fun _ _ h => nomatch h⟩

theorem inside (h : Yields b e y v t z) (he : Inside e d) (hxy : x.Before y) :
    Yields b d x v t z where
  is := h.is
  stems := h.stems.inside he
  new g h' hv ht :=
    ⟨Nat.le_trans hxy.nextTemplate (h.new g h' hv ht).1, (h.new g h' hv ht).2⟩

theorem later (h : Yields b e x v t y) (hy : b.Over y) (hyz : b.Before y.nextTemplate y z) :
    Yields b e x v t z where
  is := h.is.before hy hyz.toBefore
  stems := h.stems
  new := by
    rintro d g rfl rfl
    obtain ⟨hnew, hnone⟩ := h.new d g rfl rfl
    obtain ⟨g', heq, -, hnext, hlt, -⟩ := h.is
    cases heq
    refine ⟨hnew, ?_⟩
    intro key hkey
    have hserial : key.template = g.serial := hkey.trans (hy.id_eq_serial hlt)
    rw [hyz.kept key (hserial ▸ hnext) (hserial ▸ hlt)]
    exact hnone key hkey

theorem ne {w : Value} {t' : Ty} (hv : Yields b d x v t y) (hw : Yields b e y w t' z) :
    ∀ d d' g g', w = .generic d → v = .generic d' → t' = .template g → t = .template g' →
      g.serial ≠ g'.serial := by
  rintro d d' g g' rfl rfl rfl rfl
  obtain ⟨h, heq, -, -, hlt, -⟩ := hv.is
  cases heq
  exact Nat.ne_of_gt (Nat.lt_of_lt_of_le hlt (hw.new d g rfl rfl).1)

end Yields

end Value

end TypedLisp
