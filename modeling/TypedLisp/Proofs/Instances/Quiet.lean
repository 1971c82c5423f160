import Mathlib.Logic.Relation
import TypedLisp.Check.Expr

namespace TypedLisp

/-- Some scope binds a name to a template. -/
def Context.BindsTo (c : Context) (name : String) (g : Template) : Prop :=
  ∃ q s, c.interner.resolve? s = some name ∧ c.scopes.binding? q s = some (.template g)

/-- A name leads to templates that are involved only. -/
def Context.Allows (c : Context) (involved : Template → Prop) (name : String) : Prop :=
  ∀ g, c.BindsTo name g → involved g

/-- A name is no other spelling of a function type under which a class is registered. -/
def Context.FindsClass (c : Context) (name : String) : Prop :=
  ∀ e, TypeExpr.parse name = .ok e → e.isNamed = false →
    e.shown = name ∨ (c.registered? e.shown).bind Ty.class? = none

def typeParamsOf? (list : String) : Option (List String) :=
  ((TypeExpr.parseList? list).bind Except.toOption).bind CheckM.plainNames?

/-- An expression is inside another if it is one of its parts, or the body of a generic function at
actual types. -/
inductive Inside : Datum → Datum → Prop where
  | part {d e : Datum} {f : Form} (hd : Form.classify d = .ok f) (he : e ∈ f.parts) : Inside e d
  | body {d : Datum} {list : String} {parts : FunctionParts} {typeParams : List String}
      (hd : Form.classify d = .ok (.lambda (some list) parts))
      (hparams : typeParamsOf? list = some typeParams) (names : List String) :
      Inside (parts.body.specialize fun name => lastPaired? name typeParams names) d

/-- A form declares nothing and uses names that are allowed. -/
def Form.Quiet (c : Context) (involved : Template → Prop) : Form → Prop
  | .var .. | .define .. | .typeDecl .. | .classDecl .. => False
  | .name n | .assign (.name n) _ | .assign (.field _ n) _ | .prop _ n | .call (.fused n _) _ =>
      c.Allows involved n
  | .new n _ | .super n => c.FindsClass n
  | _ => True

inductive Quiet (c : Context) (involved : Template → Prop) : Datum → Prop where
  | intro {d : Datum} (hform : ∀ f, Form.classify d = .ok f → f.Quiet c involved)
      (hinside : ∀ e, Inside e d → Quiet c involved e) : Quiet c involved d

namespace Quiet

variable {c : Context} {involved : Template → Prop} {d e : Datum}

theorem form (h : Quiet c involved d) {f : Form} (hd : Form.classify d = .ok f) :
    f.Quiet c involved := by
  cases h with
  | intro hform _ => exact hform f hd

theorem inside (h : Quiet c involved d) (he : Inside e d) : Quiet c involved e := by
  cases h with
  | intro _ hinside => exact hinside e he

theorem acc (h : Quiet c involved d) : Acc Inside d := by
  induction h with
  | intro _ _ ih => exact ⟨_, ih⟩

end Quiet

end TypedLisp
