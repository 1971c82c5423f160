import Mathlib.Data.Finset.Card
import TypedLisp.Proofs.WithoutTemplates

/-!
Checks come to an end unless ever more instances are needed. A check that exceeds a depth has that
many bodies nested, all of different instances. So with finitely many instances some depth is
enough, and a greater depth changes nothing.
-/

namespace TypedLisp

open CheckM

/-- Where one checker of bodies is not stopped for depth, another one does the same. -/
def AgreesUnlessDeep (inBody inBody' : BodyChecker) : Prop :=
  ∀ {d s} {σ σ' : Session} {outcome}, outcome ≠ .error .tooDeep →
    σ.run (inBody d s) = (outcome, σ') → σ.run (inBody' d s) = (outcome, σ')

namespace InstanceRequest

variable {r : InstanceRequest} {τ τ' : Session} {inBody inBody' : BodyChecker}

theorem checks_of_tooDeep (h : τ.run (r.instantiate inBody) = (.error .tooDeep, τ')) :
    ∃ body scope σ σ', r.Checks τ body scope σ ∧
      σ.run (inBody body scope) = (.error .tooDeep, σ') := by
  obtain ⟨_, _, hdeep, -, hrun⟩ | ⟨sig, body, scope, σ, hopens⟩ := r.answered τ
  · cases (hrun inBody).symm.trans h
    exact absurd rfl hdeep
  · obtain ⟨σ', ⟨halt, hchecked, hrun⟩ | ⟨t, hchecked, hrun⟩⟩ := hopens.run_cases inBody
    · cases hrun.symm.trans h
      exact ⟨body, scope, σ, σ', hopens.checks, hchecked⟩
    · rcases hrun with hrun | ⟨e, hrun⟩
      · cases hrun.symm.trans h
      · cases hrun.symm.trans h

theorem run_eq_of_agrees (hbody : AgreesUnlessDeep inBody inBody')
    {outcome : Except Halt Signature} (hdeep : outcome ≠ .error .tooDeep)
    (h : τ.run (r.instantiate inBody) = (outcome, τ')) :
    τ.run (r.instantiate inBody') = (outcome, τ') := by
  obtain ⟨_, _, -, -, hrun⟩ | ⟨sig, body, scope, σ, hopens⟩ := r.answered τ
  · exact (hrun inBody').trans ((hrun inBody).symm.trans h)
  · obtain ⟨checked, σ', hchecked⟩ : ∃ checked σ', σ.run (inBody body scope) = (checked, σ') :=
      ⟨_, _, rfl⟩
    cases checked with
    | error halt =>
        have hstopped := (hopens.stopped hchecked).symm.trans h
        have hhalt : halt ≠ .tooDeep := by
          rintro rfl
          exact hdeep (Prod.mk.inj hstopped).1.symm
        exact (hopens.stopped (hbody (by simpa using hhalt) hchecked)).trans hstopped
    | ok t =>
        obtain ⟨result, -, htyped⟩ := hopens.typed t σ'
        rw [htyped inBody' (hbody (by simp) hchecked), ← htyped inBody hchecked]
        exact h

end InstanceRequest

namespace Stepwise

variable {α : Type} {m : BodyChecker → CheckM α} {inBody inBody' : BodyChecker} {σ σ' : Session}

theorem reaches_of_tooDeep (hm : Stepwise True m)
    (h : σ.run (m inBody) = (.error .tooDeep, σ')) :
    ∃ r τ body scope σ₁ σ₂, Reaches inBody r τ σ m ∧ r.Checks τ body scope σ₁ ∧
      σ₁.run (inBody body scope) = (.error .tooDeep, σ₂) := by
  induction hm generalizing σ σ' with
  | rule hm =>
      obtain ⟨_, _, hdeep, -, hrun⟩ := hm.run σ
      cases hrun.symm.trans h
      exact absurd rfl hdeep
  | bind hm hf ihm ihf =>
      rcases Session.run_bind_eq_error.mp h with hfirst | ⟨a, σ₁, hfirst, hnext⟩
      · obtain ⟨r, τ, body, scope, σ₁, σ₂, hr, hbody, hdeep⟩ := ihm hfirst
        exact ⟨r, τ, body, scope, σ₁, σ₂, .first hr hf, hbody, hdeep⟩
      · obtain ⟨r, τ, body, scope, σ₁, σ₂, hr, hbody, hdeep⟩ := ihf a hnext
        exact ⟨r, τ, body, scope, σ₁, σ₂, .next hm hfirst hr, hbody, hdeep⟩
  | instantiateAt g actuals key expr =>
      let r : InstanceRequest := ⟨g, actuals, key, expr⟩
      obtain ⟨body, scope, σ₁, σ₂, hbody, hdeep⟩ := InstanceRequest.checks_of_tooDeep (r := r) h
      exact ⟨r, σ, body, scope, σ₁, σ₂, .here, hbody, hdeep⟩

theorem run_eq_of_agrees {makes : Prop} (hm : Stepwise makes m)
    (hbody : AgreesUnlessDeep inBody inBody') {outcome : Except Halt α}
    (hdeep : outcome ≠ .error .tooDeep) (h : σ.run (m inBody) = (outcome, σ')) :
    σ.run (m inBody') = (outcome, σ') := by
  induction hm generalizing σ σ' with
  | rule _ => exact h
  | @bind _ _ m f _ _ ihm ihf =>
      obtain ⟨first, σ₁, hfirst⟩ : ∃ first σ₁, σ.run (m inBody) = (first, σ₁) := ⟨_, _, rfl⟩
      cases first with
      | error halt =>
          cases (Session.run_bind_of_error _ hfirst).symm.trans h
          exact Session.run_bind_of_error _ (ihm (by simpa using hdeep) hfirst)
      | ok a =>
          refine (Session.run_bind_of_ok _ (ihm (by simp) hfirst)).trans (ihf a hdeep ?_)
          exact (Session.run_bind_of_ok _ hfirst).symm.trans h
  | instantiateAt g actuals key expr =>
      exact InstanceRequest.run_eq_of_agrees (r := ⟨g, actuals, key, expr⟩) hbody hdeep h

end Stepwise

theorem agreesUnlessDeep_bodyWithin {depth depth' : Nat} (h : depth ≤ depth') :
    AgreesUnlessDeep (bodyWithin depth) (bodyWithin depth') := by
  induction depth generalizing depth' with
  | zero =>
      intro d s σ σ' outcome hdeep hrun
      cases hrun
      exact absurd rfl hdeep
  | succ depth ih =>
      obtain ⟨depth', rfl⟩ := Nat.exists_eq_add_of_lt h
      intro d s σ σ' outcome hdeep hrun
      have hmore : AgreesUnlessDeep (bodyWithin depth) (bodyWithin (depth + depth')) :=
        ih (Nat.le_add_right depth depth')
      exact (stepwise_checkBody d s).run_eq_of_agrees hmore hdeep hrun

/-- A check that is stopped at a depth has that many bodies nested, and one more. -/
theorem Nested.exists_deeper {start q : Ongoing} {keys : List InstanceKey}
    (h : Nested start keys q) (hstart : Stepwise True start.check) {depth : Nat} {σ' : Session}
    (hdeep : q.session.run (q.check (bodyWithin depth)) = (.error .tooDeep, σ')) :
    ∃ keys' q', Nested start keys' q' ∧ keys'.length = keys.length + depth + 1 := by
  induction depth generalizing keys q σ' with
  | zero =>
      obtain ⟨r, τ, body, scope, σ₁, _, hr, hbody, -⟩ :=
        (h.stepwise hstart).reaches_of_tooDeep hdeep
      exact ⟨r.key :: keys, _, h.inside hr hbody, rfl⟩
  | succ depth ih =>
      obtain ⟨r, τ, body, scope, σ₁, _, hr, hbody, hdeep⟩ :=
        (h.stepwise hstart).reaches_of_tooDeep hdeep
      obtain ⟨keys', q', hnested, hlength⟩ := ih (h.inside hr hbody) hdeep
      refine ⟨keys', q', hnested, ?_⟩
      rw [hlength, List.length_cons]
      omega

/-- With room for so many nested bodies, or for more, a check comes to one and the same end. -/
def Ongoing.EndsWithin (q : Ongoing) (room : Nat) : Prop :=
  ∃ outcome σ', outcome ≠ .error .tooDeep ∧
    ∀ depth, room ≤ depth → q.session.run (q.check (bodyWithin depth)) = (outcome, σ')

/-- The check of a block; that of an expression is the check of a block of one. -/
def Ongoing.block (σ : Session) (ds : List Datum) (s : ScopeId) : Ongoing :=
  ⟨σ, fun inBody => checkBlock inBody ds s⟩

theorem Ongoing.stepwise_block (σ : Session) (ds : List Datum) (s : ScopeId) :
    Stepwise True (block σ ds s).check :=
  .checkBlock ds (fun _ _ _ => trivial) s

theorem Ongoing.endsWithin_card {start : Ongoing} (hstart : Stepwise True start.check)
    {allowed : Finset InstanceKey}
    (hallowed : ∀ keys q, Nested start keys q → ∀ key ∈ keys, key ∈ allowed) :
    start.EndsWithin allowed.card := by
  obtain ⟨outcome, σ', hrun⟩ : ∃ outcome σ',
      start.session.run (start.check (bodyWithin allowed.card)) = (outcome, σ') := ⟨_, _, rfl⟩
  have hdeep : outcome ≠ .error .tooDeep := by
    rintro rfl
    -- With one body more than instances, some instance would be nested in itself.
    obtain ⟨keys, q, hnested, hlength⟩ := Nested.start.exists_deeper hstart hrun
    have hsub : keys.toFinset ⊆ allowed := fun key hkey =>
      hallowed keys q hnested key (List.mem_toFinset.mp hkey)
    have hcard := Finset.card_le_card hsub
    rw [List.toFinset_card_of_nodup hnested.nodup, hlength] at hcard
    omega
  exact ⟨outcome, σ', hdeep, fun depth hdepth =>
    hstart.run_eq_of_agrees (agreesUnlessDeep_bodyWithin hdepth) hdeep hrun⟩

section Accepted

theorem Reaches.accepted {α : Type} {m : BodyChecker → CheckM α} {r : InstanceRequest}
    {σ σ' τ : Session} {depth room : Nat} {a : α} (h : Reaches (bodyWithin depth) r τ σ m)
    {body : Datum} {scope : ScopeId} {σ₁ : Session} (hbody : r.Checks τ body scope σ₁)
    (hrun : σ.run (m (bodyWithin room)) = (.ok a, σ')) :
    ∃ t σ₂, σ₁.run (bodyWithin room body scope) = (.ok t, σ₂) ∧ σ₂.Keeps σ' := by
  induction h generalizing σ' with
  | here =>
      obtain ⟨sig, hopens⟩ := hbody.opens
      obtain ⟨σ₂, ⟨halt, -, hended⟩ | ⟨t, hchecked, hended | ⟨e, hended⟩⟩⟩ :=
        hopens.run_cases (bodyWithin room)
      · cases hended.symm.trans hrun
      · cases hended.symm.trans hrun
        exact ⟨t, _, hchecked, .refl _⟩
      · cases hended.symm.trans hrun
  | first _ hf ih =>
      obtain ⟨b, σ₃, hfirst, hnext⟩ := Session.run_bind_eq_ok.mp hrun
      obtain ⟨t, σ₂, hchecked, hkept⟩ := ih hfirst
      exact ⟨t, σ₂, hchecked, hkept.trans ((hf b).keeps (keepsAll_bodyWithin room) hnext)⟩
  | next hm hfirst _ ih =>
      obtain ⟨b, σ₃, hfirst', hnext⟩ := Session.run_bind_eq_ok.mp hrun
      have hmore := hm.run_eq_of_agrees
        (agreesUnlessDeep_bodyWithin (Nat.le_max_left depth room)) (by simp) hfirst
      have hmore' := hm.run_eq_of_agrees
        (agreesUnlessDeep_bodyWithin (Nat.le_max_right depth room)) (by simp) hfirst'
      cases hmore.symm.trans hmore'
      exact ih hnext

variable {start q : Ongoing} {keys : List InstanceKey} {room : Nat} {t : Ty} {σ' : Session}

theorem Nested.accepted (h : Nested start keys q)
    (hrun : start.session.run (start.check (bodyWithin room)) = (.ok t, σ')) :
    ∃ room₁ t₁ σ₁, q.session.run (q.check (bodyWithin room₁)) = (.ok t₁, σ₁) ∧ σ₁.Keeps σ' := by
  induction h with
  | start => exact ⟨room, t, σ', hrun, .refl σ'⟩
  | inside _ hr hbody ih =>
      obtain ⟨room₁, t₁, σ₁, hrun₁, hkept⟩ := ih
      obtain ⟨t₂, σ₂, hrun₂, hkept₂⟩ := hr.accepted hbody hrun₁
      cases room₁ with
      | zero => cases hrun₂
      | succ room₁ => exact ⟨room₁, t₂, σ₂, hrun₂, hkept₂.trans hkept⟩

theorem Nested.recorded_of_accepted (h : Nested start keys q) (hstart : Stepwise True start.check)
    (hrun : start.session.run (start.check (bodyWithin room)) = (.ok t, σ')) {key : InstanceKey}
    (hkey : key ∈ keys) : ∃ sig, σ'.context.instance? key = some sig := by
  obtain ⟨room₁, t₁, σ₁, hrun₁, hkept⟩ := h.accepted hrun
  obtain ⟨sig, hsig⟩ := h.recorded hkey
  have hended := (h.stepwise hstart).keeps (keepsAll_bodyWithin room₁) hrun₁
  exact ⟨sig, hkept _ _ (hended _ _ hsig)⟩

end Accepted

theorem Ongoing.endsWithin_zero {σ : Session} (hσ : σ.context.Reachable)
    (hnone : σ.context.nextTemplate = 0) {ds : List Datum} (hds : ∀ d ∈ ds, ¬MakesTemplate d)
    {s : ScopeId} (hs : s.index < σ.context.scopes.size) : (block σ ds s).EndsWithin 0 := by
  obtain ⟨made, hw⟩ := hσ.wellFormed
  have hblock : Stepwise False fun inBody => checkBlock inBody ds s := .checkBlock ds hds s
  obtain ⟨outcome, σ', hdeep, hrun⟩ := hblock.settled
    (hw.without_templates (hσ.holdsNoTemplate hnone)) fun hbody =>
      Evolves.checkBlock fun d _ v hv => Evolves.checkExpr hbody d v s
        ⟨Nat.lt_of_lt_of_le hs hv.size, fun _ _ _ => trivial⟩ fun _ _ => trivial
  exact ⟨outcome, σ', hdeep, fun depth _ => hrun (bodyWithin depth)⟩

/-- While the body of an instance is being checked, a request for the instance is answered with the
recorded signature and checks nothing, so no body is being checked inside itself. Hence a check in
which finitely many instances come up ends, with room for as many nested bodies, in a way that more
room does not change. Where no template was made, a check that makes none needs no room at all. -/
theorem bodies_nest_without_repetition (σ : Session) (ds : List Datum) (s : ScopeId) :
    (∀ keys q, Nested (.block σ ds s) keys q → keys.Nodup ∧
      ∀ key ∈ keys, ∃ sig, q.session.context.instance? key = some sig ∧
        ∀ depth r τ, r.key = key → Reaches (bodyWithin depth) r τ q.session q.check →
          ∀ inBody, τ.run (r.instantiate inBody) = (.ok sig, τ)) ∧
    (∀ allowed : Finset InstanceKey,
      (∀ keys q, Nested (.block σ ds s) keys q → ∀ key ∈ keys, key ∈ allowed) →
        (Ongoing.block σ ds s).EndsWithin allowed.card) ∧
    (σ.context.Reachable → s.index < σ.context.scopes.size → σ.context.nextTemplate = 0 →
      (∀ d ∈ ds, ¬MakesTemplate d) → (Ongoing.block σ ds s).EndsWithin 0) := by
  refine ⟨fun keys q h => ⟨h.nodup, fun key hkey => ?_⟩, fun allowed hallowed => ?_, ?_⟩
  · obtain ⟨sig, hsig⟩ := h.recorded hkey
    refine ⟨sig, hsig, ?_⟩
    rintro depth r τ rfl hr
    exact hr.run_instantiate hsig
  · exact Ongoing.endsWithin_card (Ongoing.stepwise_block σ ds s) hallowed
  · exact fun hσ hs hnone hds => Ongoing.endsWithin_zero hσ hnone hds hs

/-- A template that calls another one at its own type. -/
def calling (name other : String) : Datum :=
  .list [.symbol "def", .symbol name, .symbol "<T>", .list [.list [.symbol "x", .symbol "T"]],
    .symbol "->", .symbol "number", .list [.symbol other, .symbol "<T>", .symbol "x"]]

/-- Two templates that call each other. -/
def withRally : Session :=
  (Session.run ⟨Context.new {}, #[]⟩
    (checkBlock (bodyWithin 0) [calling "ping" "pong", calling "pong" "ping"] Arena.global)).2

/-- A call of the first at strings. -/
def rally : Ongoing :=
  .block withRally [.list [.symbol "ping", .symbol "<string>", .text "a"]] Arena.global

def Ongoing.isTooDeep (q : Ongoing) (depth : Nat) : Bool :=
  match (q.session.run (q.check (bodyWithin depth))).1 with
  | .error .tooDeep => true
  | _ => false

theorem Ongoing.run_of_isTooDeep {q : Ongoing} {depth : Nat} (h : q.isTooDeep depth = true) :
    ∃ σ', q.session.run (q.check (bodyWithin depth)) = (.error .tooDeep, σ') := by
  rw [isTooDeep] at h
  split at h
  · next hrun => exact ⟨_, Prod.ext hrun rfl⟩
  · cases h

theorem mem_of_nested_rally {keys : List InstanceKey} {q : Ongoing} (h : Nested rally keys q)
    {key : InstanceKey} (hkey : key ∈ keys) :
    key ∈ ({⟨0, ["string"]⟩, ⟨1, ["string"]⟩} : Finset InstanceKey) := by
  let ended := rally.session.run (rally.check (bodyWithin 2))
  obtain ⟨t, ht⟩ := exists_ok_of_toBool (show ended.1.toBool = true by decide +kernel)
  obtain ⟨sig, hsig⟩ := h.recorded_of_accepted (Ongoing.stepwise_block ..)
    (show rally.session.run (rally.check (bodyWithin 2)) = (.ok t, ended.2) from Prod.ext ht rfl)
    hkey
  have hmem : key ∈ ended.2.context.instances.keys := by
    refine Std.TreeMap.mem_keys.mpr (Std.TreeMap.mem_iff_isSome_getElem?.mpr ?_)
    exact Option.isSome_iff_exists.mpr ⟨sig, hsig⟩
  have hkeys : ∀ key ∈ ended.2.context.instances.keys,
      key ∈ ({⟨0, ["string"]⟩, ⟨1, ["string"]⟩} : Finset InstanceKey) := by
    decide +kernel
  exact hkeys key hmem

/-- A function that calls itself. -/
def plainLoop : Datum :=
  .list [.symbol "def", .symbol "loop", .list [.list [.symbol "x", .symbol "number"]], .symbol "->",
    .symbol "number", .list [.symbol "loop", .symbol "x"]]

theorem not_makesTemplate_plainLoop : ¬MakesTemplate plainLoop := by
  have hname (name : String) : ¬MakesTemplate (.symbol name) :=
    not_makesTemplate_of_parts (f := .name name) rfl rfl (by simp [Form.parts])
  have hcall : ¬MakesTemplate (.list [.symbol "loop", .symbol "x"]) :=
    not_makesTemplate_of_parts (f := .call (.plain (.symbol "loop") none) [.symbol "x"]) rfl rfl
      (by simp [Form.parts, hname])
  exact not_makesTemplate_of_parts
    (f := .define "loop" none ⟨[⟨"x", "number"⟩], "number", .list [.symbol "loop", .symbol "x"]⟩)
    rfl rfl (by simp [Form.parts, hcall])

/-- The bodies of the two templates are checked one inside the other, and there the first is not
checked again. The function that calls itself without templates needs no room. -/
theorem rally_nests_without_repetition :
    (∃ keys q, Nested rally keys q ∧ keys.length = 2 ∧ keys.Nodup) ∧ rally.EndsWithin 2 ∧
      (Ongoing.block (.start {}) [plainLoop] Arena.global).EndsWithin 0 := by
  obtain ⟨hnested, hends, -⟩ := bodies_nest_without_repetition withRally
    [.list [.symbol "ping", .symbol "<string>", .text "a"]] Arena.global
  obtain ⟨_, hdeep⟩ := Ongoing.run_of_isTooDeep (show rally.isTooDeep 1 = true by decide +kernel)
  obtain ⟨keys, q, h, hlength⟩ := Nested.start.exists_deeper (Ongoing.stepwise_block ..) hdeep
  refine ⟨⟨keys, q, h, hlength, (hnested keys q h).1⟩, ?_, ?_⟩
  · exact hends {⟨0, ["string"]⟩, ⟨1, ["string"]⟩} fun keys q h key => mem_of_nested_rally h
  · refine (bodies_nest_without_repetition _ _ _).2.2 (.new {}) Nat.one_pos rfl ?_
    exact List.forall_mem_singleton.mpr not_makesTemplate_plainLoop

end TypedLisp
