import TypedLisp.Proofs.Simulation.Expressions

namespace TypedLisp

open CheckM

/-- The same context without strict arithmetic. -/
def Context.loosened (c : Context) : Context :=
  { c with options := { c.options with strictOperands := false } }

def Session.loosened (σ : Session) : Session :=
  { σ with context := σ.context.loosened }

/-- A strict checker and a loose one, with the same contexts otherwise. -/
def loosening : Simulation where
  State := { σ : Session // σ.context.options.strictOperands = true }
  left σ := σ.1
  right σ := σ.1.loosened
  Later _ _ := True
  Opens _ _ := True
  Named _ x y := y = x
  Plain _ _ := True
  MayDeclare _ _ := True
  MayLack _ _ := True
  Tracked := False

namespace loosening

theorem moves {w : loosening.State} (c : Context) (hc : c.options = w.1.context.options)
    {post : loosening.State → Prop} (hpost : ∀ v, post v) :
    loosening.Moves w c c.loosened post :=
  ⟨⟨{ w.1 with context := c }, by rw [hc]; exact w.2⟩, rfl, rfl, trivial, hpost _⟩

theorem declare_loosened (c : Context) (name : String) (t : Ty) :
    c.loosened.declare name t = ((c.declare name t).1, (c.declare name t).2.loosened) ∧
      (c.declare name t).2.options = c.options := by
  have hintern : c.loosened.intern name = ((c.intern name).1, (c.intern name).2.loosened) := rfl
  have hregistry : (c.intern name).2.loosened.registry = (c.intern name).2.registry := rfl
  simp only [Context.declare, hintern, hregistry]
  cases (c.intern name).2.registry.declare (c.intern name).1 t <;> exact ⟨rfl, rfl⟩

theorem lawful : loosening.Lawful where
  refl _ := trivial
  trans _ _ := trivial
  opens _ _ := trivial
  named _ h := h
  plain _ _ := trivial
  mayDeclare _ _ := trivial
  agrees _ _ := trivial
  kindred := .of_likes fun _ h => h
  plain_primitive _ _ := trivial
  plain_function := ⟨fun _ => ⟨fun _ _ => trivial, trivial⟩, fun _ => trivial⟩
  plain_aliasOf _ := trivial
  plain_union _ := trivial
  plain_superclass _ _ := trivial
  plain_template _ := Simulation.made_self (fun _ => rfl) trivial
  lookup? _ h := ⟨_, h, .inl ⟨rfl, trivial⟩⟩
  lookup?_none _ _ := trivial
  member? _ h := ⟨_, h, .inl ⟨rfl, trivial⟩⟩
  registered? _ _ := rfl
  plain_registered _ := trivial
  registrySize _ := rfl
  instance? _ _ := rfl
  plain_instance _ := trivial
  strict w _ := w.2
  emit {w e e'} h := by
    obtain rfl := h.eq id
    exact ⟨⟨{ w.1 with events := w.1.events.push e' }, w.2⟩, rfl, rfl, trivial,
      fun _ _ _ _ hg => Simulation.readies_of_like hg.1 fun _ _ _ _ _ => trivial⟩
  intern w name := moves ((loosening.here w).intern name).2 rfl fun _ => rfl
  bind {w s x y t t'} _ hxy ht := by
    obtain rfl := hxy
    obtain rfl := ht.eq id
    exact moves ((loosening.here w).bind s y t') rfl fun _ => trivial
  child {w s} _ := moves ((loosening.here w).child s).2 rfl fun _ => ⟨rfl, trivial⟩
  memberTable {w s parent} _ _ _ :=
    moves ((loosening.here w).memberTable (parent.map ClassTy.fields) s).2 rfl
      fun _ => ⟨rfl, trivial, trivial⟩
  declare {w name t} _ _ := by
    obtain ⟨hthere, hoptions⟩ := declare_loosened (loosening.here w) name t
    change loosening.Moves w _ ((loosening.here w).loosened.declare name t).2
      fun _ => _ → ((loosening.here w).loosened.declare name t).1 = none ∧ True
    rw [hthere]
    exact moves _ hoptions fun _ h => ⟨h, trivial⟩
  cache {w text t} _ _ := moves ((loosening.here w).cache text t).2 rfl fun _ => ⟨rfl, trivial⟩
  newTemplate w := moves (loosening.here w).newTemplate.2 rfl fun _ => rfl
  record {w s} key _ := moves ((loosening.here w).record key s) rfl fun _ => trivial
  forget _ h := h.elim

theorem pairs : loosening.Pairs :=
  .of_same lawful

theorem checkBlock (depth : Nat) (ds : List Datum) (s : ScopeId) (w : loosening.State) :
    loosening.Repeats w (checkBlock (bodyWithin depth) ds s) :=
  .checkBlock lawful pairs
    (fun d _ => .checkExpr lawful pairs (.bodyWithin lawful pairs depth) d) trivial
    (List.forall₂_same.mpr fun _ _ => ⟨rfl, fun _ _ => trivial⟩)

theorem checkProgram (ds : List Datum) (w : loosening.State) :
    loosening.Repeats w (Session.checkProgram ds) :=
  .bind lawful (.emit_same lawful _) fun v _ _ _ _ =>
    checkBlock Session.depthLimit ds Arena.global v

theorem run_eq_ok {w : loosening.State} {m : CheckM Ty}
    (hm : loosening.Repeats w m) {t : Ty} {σ : Session}
    (hrun : w.1.run m = (.ok t, σ)) :
    σ.context.options.strictOperands = true ∧ w.1.loosened.run m = (.ok t, σ.loosened) := by
  obtain ⟨t', v, hleft, hright, -, halike⟩ := hm.ok hrun
  obtain rfl : v.1 = σ := hleft
  obtain rfl := halike.eq id
  exact ⟨v.2, hright⟩

end loosening

theorem Session.checkSource_eq_ok_iff {σ σ' : Session} {source : String} {t : Ty} :
    σ.checkSource source = (.ok t, σ') ↔
      ∃ ds, Datum.read source = .ok ds ∧ σ.run (checkProgram ds) = (.ok t, σ') := by
  rw [checkSource]
  cases Datum.read source with
  | error e => simp
  | ok ds =>
      obtain ⟨outcome, σ₁, hrun⟩ : ∃ outcome σ₁, σ.run (checkProgram ds) = (outcome, σ₁) :=
        ⟨_, _, rfl⟩
      cases outcome <;> simp [hrun, Except.mapError]

/-- If a program is accepted in a strict context, in any scope, the same context without strictness
accepts it with the same type. The events are the same, and so are the contexts afterwards, but for
strictness. -/
theorem strictness_only_rejects {c : Context} (hstrict : c.options.strictOperands = true)
    (events : Array Event) :
    (∀ depth ds s t σ,
      Session.run ⟨c, events⟩ (checkBlock (bodyWithin depth) ds s) = (.ok t, σ) →
      σ.context.options.strictOperands = true ∧
        Session.run ⟨c.loosened, events⟩ (checkBlock (bodyWithin depth) ds s) =
          (.ok t, σ.loosened)) ∧
    ∀ source t σ, Session.checkSource ⟨c, events⟩ source = (.ok t, σ) →
      σ.context.options.strictOperands = true ∧
        Session.checkSource ⟨c.loosened, events⟩ source = (.ok t, σ.loosened) := by
  let start : loosening.State := ⟨⟨c, events⟩, hstrict⟩
  constructor
  · intro depth ds s t σ hrun
    exact loosening.run_eq_ok (loosening.checkBlock depth ds s start) hrun
  · intro source t σ hrun
    obtain ⟨ds, hread, hrun⟩ := Session.checkSource_eq_ok_iff.mp hrun
    obtain ⟨hkept, hloose⟩ := loosening.run_eq_ok (loosening.checkProgram ds start) hrun
    exact ⟨hkept, Session.checkSource_eq_ok_iff.mpr ⟨ds, hread, hloose⟩⟩

/-- A template that adds its arguments, and calls of it. -/
def joinedTemplate : Datum :=
  .list [.symbol "def", .symbol "joined", .symbol "<T>",
    .list [.list [.symbol "x", .symbol "T"], .list [.symbol "y", .symbol "T"]], .symbol "->",
    .symbol "T", .list [.symbol "+", .symbol "x", .symbol "y"]]

def joinedTexts : Datum :=
  .list [.symbol "joined", .symbol "<string>", .text "a", .text "b"]

def joinedFlags : Datum :=
  .list [.symbol "joined", .symbol "<boolean>", .boolean true, .boolean false]

/-- Whether a program that calls the template is accepted. -/
def joins (c : Context) (call : Datum) : Bool :=
  (Session.run ⟨c, #[]⟩ (checkBlock (bodyWithin 1) [joinedTemplate, call] Arena.global)).1.toBool

/-- Texts are added in both contexts alike; truth values are added in the loose one only. -/
theorem strictness_only_rejects_of_joined :
    (Context.new {}).options.strictOperands = true ∧
      (∃ t σ, Session.run ⟨Context.new {}, #[]⟩
          (checkBlock (bodyWithin 1) [joinedTemplate, joinedTexts] Arena.global) = (.ok t, σ) ∧
        Session.run ⟨(Context.new {}).loosened, #[]⟩
          (checkBlock (bodyWithin 1) [joinedTemplate, joinedTexts] Arena.global) =
            (.ok t, σ.loosened)) ∧
      joins (Context.new {}) joinedFlags = false ∧
      joins (Context.new {}).loosened joinedFlags = true := by
  have hstrict : (Context.new {}).options.strictOperands = true := by decide +kernel
  have haccepted : joins (Context.new {}) joinedTexts = true := by decide +kernel
  obtain ⟨t, ht⟩ := exists_ok_of_toBool haccepted
  refine ⟨hstrict, ⟨t, _, Prod.ext ht rfl, ?_⟩, by decide +kernel, by decide +kernel⟩
  exact ((strictness_only_rejects hstrict #[]).1 1 [joinedTemplate, joinedTexts] Arena.global t _
    (Prod.ext ht rfl)).2

end TypedLisp
