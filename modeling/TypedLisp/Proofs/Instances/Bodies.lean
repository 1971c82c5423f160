import TypedLisp.Proofs.Instances.Expressions

namespace TypedLisp

namespace Base

variable {b : Base} {x : Context}

/-- A template of the base, apart from its number, its scope and its symbols. -/
def genericOf (b : Base) (g : Template) : Generic where
  typeParams := g.typeParams
  names := g.params.map fun p => (b.context.interner.resolve? p.1).getD ""
  exprs := g.params.map Prod.snd
  result := g.result
  body := g.body
  env := b.context.lookup? g.closure

theorem renders_genericOf {g : Template} (hg : g ∈ b.made) (hx : b.Over x) :
    Renders x (b.genericOf g) g where
  typeParams := rfl
  symbols := by
    rw [genericOf, List.forall₂_map_left_iff, List.forall₂_map_right_iff, List.forall₂_same]
    intro p hp
    obtain ⟨⟨name, hname⟩, -⟩ := (b.wellFormed.made hg).params p hp
    have hbase : b.context.interner.resolve? p.1 = some name := hname
    rw [hbase]
    exact hx.caches.interner _ _ hname
  exprs := rfl
  result := rfl
  body := rfl
  closure := hx.sees (b.wellFormed.made hg).closure

/-- The plan of the body of a template of the base, with the signature it has at actual types. -/
noncomputable def instanceBodyPlan (b : Base) (g : Template) (actuals : List TypeExpr)
    (sig : Signature) : Plan Unit :=
  let d := b.genericOf g
  (b.bodyPlan (d.bodyAt (actuals.map TypeExpr.shown)) (extendEnv d.env d.names sig.params)).returning
    b sig.result

/-- What the request for a key comes to. -/
def BodyOf (b : Base) (key : InstanceKey) (body : Requests.Body InstanceKey) : Prop :=
  ∃ g list actuals sig, b.Request g list actuals ∧ key = keyOf g actuals ∧
    b.context.actualSignature? g actuals = some sig ∧ body = (b.instanceBodyPlan g actuals sig).body

open Classical in
noncomputable def requestBodies (b : Base) (key : InstanceKey) : Requests.Body InstanceKey :=
  if h : ∃ body, b.BodyOf key body then h.choose else ⟨[], false⟩

theorem requestBodies_keyOf {g : Template} {list : String} {actuals : List TypeExpr}
    {sig : Signature} (hrequest : b.Request g list actuals)
    (hsig : b.context.actualSignature? g actuals = some sig) :
    b.requestBodies (keyOf g actuals) = (b.instanceBodyPlan g actuals sig).body := by
  have hexists : ∃ body, b.BodyOf (keyOf g actuals) body :=
    ⟨_, g, list, actuals, sig, hrequest, rfl, hsig, rfl⟩
  rw [requestBodies, dif_pos hexists]
  obtain ⟨g', list', actuals', sig', hrequest', hkey, hsig', hbody⟩ := hexists.choose_spec
  obtain ⟨rfl, rfl⟩ := hrequest.eq_of_keyOf_eq hrequest' hkey
  obtain rfl := Option.some.inj (hsig.symm.trans hsig')
  exact hbody

theorem correctAt (hpermits : ∀ g, b.involved g → ∀ names,
      b.Permits (CheckM.actualBody g names)) {n : Nat}
    (hbelow : ∀ m, n = m + 1 → b.Correct b.requestBodies m) : b.CorrectAt b.requestBodies n := by
  intro g list actuals sig hrequest hsig
  have hholds := b.wellFormed.made hrequest.made
  have hwritten := written_of_actualSignature? (fun p hp => (hholds.params p hp).2) hholds.result
    hrequest.wellNamed hsig
  have hbody : b.Permits ((b.genericOf g).bodyAt (actuals.map TypeExpr.shown)) :=
    hpermits g hrequest.involved (actuals.map TypeExpr.shown)
  have henv : b.EnvOk (extendEnv (b.genericOf g).env (b.genericOf g).names sig.params) :=
    (b.envOk_lookup? g.closure).extend _ hwritten.params
  refine ⟨b.instanceBodyPlan g actuals sig, requestBodies_keyOf hrequest hsig, ?_⟩
  intro x old expr hx hold
  exact Performs.renderedBody hx (renders_genericOf hrequest.made hx) hbelow hold
    (bodyGoes (planned_of_permits hbody) (fun i hi => planned_of_permits (hbody.inside hi)) henv)
    hwritten.result expr

/-- If no body declares anything, all bodies go as planned, nested to any depth. -/
theorem correct (hpermits : ∀ g, b.involved g → ∀ names,
      b.Permits (CheckM.actualBody g names)) (depth : Nat) :
    b.Correct b.requestBodies depth := by
  induction depth with
  | zero =>
      intro n hn
      obtain rfl := Nat.le_zero.mp hn
      exact correctAt hpermits fun _ h => nomatch h
  | succ depth ih =>
      intro n hn
      rcases Nat.le_or_eq_of_le_succ hn with hle | rfl
      · exact ih n hle
      · refine correctAt hpermits ?_
        rintro m hm
        obtain rfl := Nat.succ.inj hm
        exact ih

end Base

end TypedLisp
