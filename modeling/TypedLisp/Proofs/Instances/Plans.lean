import TypedLisp.Proofs.Counting
import TypedLisp.Proofs.Instances.Base

/-!
Plans of checks. Over a base, what a check asks for and what it answers do not depend on the context
it runs in; only whether the instances it asks for are granted does. A plan lists the requests of a
check in turn and says how it ends once all of them are granted.
-/

namespace TypedLisp

open Requests (Item Progress make)

structure Plan (β : Type) where
  items : List (Item InstanceKey)
  value : Option β

namespace Plan

variable {β γ : Type}

/-- Ask for nothing. -/
def ofAnswer (answer : Option β) : Plan β := ⟨[], answer⟩

def bind (p : Plan β) (f : β → Plan γ) : Plan γ :=
  match p.value with
  | none => ⟨p.items, none⟩
  | some v => ⟨p.items ++ (f v).items, (f v).value⟩

def map (p : Plan β) (f : β → γ) : Plan γ :=
  ⟨p.items, p.value.map f⟩

def require (condition : Bool) : Plan Unit :=
  .ofAnswer (if condition then some () else none)

/-- The same plan inside the body of a template. -/
def deeper (p : Plan β) : Plan β :=
  ⟨.need 0 :: p.items.map Item.deeper, p.value⟩

def body (p : Plan β) : Requests.Body InstanceKey :=
  ⟨p.items, p.value.isSome⟩

theorem ofAnswer_bind (answer : Option β) (f : β → Option γ) :
    (ofAnswer answer).bind (fun v => ofAnswer (f v)) = ofAnswer (answer.bind f) := by
  cases answer with
  | none => rfl
  | some v => rfl

theorem bind_assoc {δ : Type} (p : Plan β) (f : β → Plan γ) (g : γ → Plan δ) :
    (p.bind f).bind g = p.bind fun v => (f v).bind g := by
  obtain ⟨items, value⟩ := p
  cases value with
  | none => rfl
  | some v =>
      cases hv : (f v).value with
      | none => simp [bind, hv]
      | some w => simp [bind, hv]

theorem require_bind (c c' : Bool) :
    (require c).bind (fun _ => require c') = require (c && c') := by
  cases c with
  | false => rfl
  | true => rfl

theorem require_bind_ofAnswer (c : Bool) (answer : Option γ) :
    (require c).bind (fun _ => ofAnswer answer) = ofAnswer (if c then answer else none) := by
  cases c with
  | false => rfl
  | true => rfl

end Plan

/-- How a run that starts in `x` ends, given how its requests end and what it then answers. All is open
if it makes more templates than there are ids. -/
inductive Ends {α β : Type} (makes : Prop) (b : Base) (old : Nat) (x : Context)
    (post : β → α → Context → Prop) :
    Progress InstanceKey → Option β → Except Halt α × Session → Prop where
  | accepted {v : β} {a : α} {y : Context} {events : Array Event} (hy : b.Over y)
      (hxy : b.Before old x y) (hpost : post v a y) :
      Ends makes b old x post (.granted (b.granted y)) (some v) (.ok a, ⟨y, events⟩)
  | refused {e : TypeError} {y : Context} {events : Array Event} (hy : b.Over y)
      (hxy : b.Before old x y) :
      Ends makes b old x post (.granted (b.granted y)) none (.error (.rejected e), ⟨y, events⟩)
  | denied {value : Option β} {e : TypeError} {y : Context} {events : Array Event} (hy : b.Over y)
      (hxy : b.Before old x y) :
      Ends makes b old x post (.denied (b.granted y)) value (.error (.rejected e), ⟨y, events⟩)
  | deep {value : Option β} {σ : Session} (hroom : σ.context.nextTemplate ≤ Template.idCount) :
      Ends makes b old x post .deep value (.error .tooDeep, σ)
  | overrun {progress : Progress InstanceKey} {value : Option β} {outcome : Except Halt α}
      {σ : Session} (hmakes : makes) (h : Template.idCount < σ.context.nextTemplate) :
      Ends makes b old x post progress value (outcome, σ)

/-- Run in `x`, a check goes as planned, if the bodies of keys go as given. -/
def Performs {α β : Type} (makes : Prop) (b : Base)
    (bodies : InstanceKey → Requests.Body InstanceKey) (depth old : Nat) (x : Context) (m : CheckM α)
    (p : Plan β) (post : β → α → Context → Prop) : Prop :=
  ∀ events, Ends makes b old x post (make bodies depth (b.granted x) p.items) p.value
    (Session.run ⟨x, events⟩ m)

namespace Ends

variable {α β : Type} {makes : Prop} {b : Base} {old : Nat} {x y : Context}
  {progress : Progress InstanceKey} {value : Option β} {result : Except Halt α × Session}

theorem mono {post post' : β → α → Context → Prop}
    (h : Ends makes b old x post progress value result)
    (hpost : ∀ v a y, value = some v → b.Before old x y → b.Over y → post v a y → post' v a y) :
    Ends makes b old x post' progress value result := by
  cases h with
  | accepted hy hxy h => exact .accepted hy hxy (hpost _ _ _ rfl hxy hy h)
  | refused hy hxy => exact .refused hy hxy
  | denied hy hxy => exact .denied hy hxy
  | deep hroom => exact .deep hroom
  | overrun hmakes h => exact .overrun hmakes h

theorem weaken {post : β → α → Context → Prop} {old' : Nat}
    (h : Ends makes b old' x post progress value result) (hold : old ≤ old') :
    Ends makes b old x post progress value result := by
  cases h with
  | accepted hy hxy hpost => exact .accepted hy (hxy.weaken hold) hpost
  | refused hy hxy => exact .refused hy (hxy.weaken hold)
  | denied hy hxy => exact .denied hy (hxy.weaken hold)
  | deep hroom => exact .deep hroom
  | overrun hmakes h => exact .overrun hmakes h

theorem before {post : β → α → Context → Prop} (h : Ends makes b old y post progress value result)
    (hxy : b.Before old x y) : Ends makes b old x post progress value result := by
  cases h with
  | accepted hz hyz hpost => exact .accepted hz (hxy.trans hyz) hpost
  | refused hz hyz => exact .refused hz (hxy.trans hyz)
  | denied hz hyz => exact .denied hz (hxy.trans hyz)
  | deep hroom => exact .deep hroom
  | overrun hmakes h => exact .overrun hmakes h

theorem of_room {post : β → α → Context → Prop} (h : Ends makes b old x post progress value result)
    (hroom : makes → result.2.context.nextTemplate ≤ Template.idCount) :
    Ends False b old x post progress value result := by
  cases h with
  | accepted hy hxy hpost => exact .accepted hy hxy hpost
  | refused hy hxy => exact .refused hy hxy
  | denied hy hxy => exact .denied hy hxy
  | deep hdeep => exact .deep hdeep
  | overrun hmakes h => exact absurd (hroom hmakes) (Nat.not_le.mpr h)

theorem room {post : β → α → Context → Prop} (h : Ends False b old x post progress value result) :
    result.2.context.nextTemplate ≤ Template.idCount := by
  cases h with
  | accepted hy => exact hy.room
  | refused hy => exact hy.room
  | denied hy => exact hy.room
  | deep hroom => exact hroom
  | overrun h => exact h.elim

end Ends

namespace Performs

variable {α β γ δ : Type} {makes first : Prop} {b : Base}
  {bodies : InstanceKey → Requests.Body InstanceKey} {depth old : Nat} {x : Context}

theorem bind_of_overrun {m : CheckM α} {f : α → CheckM γ} {p : Plan β} {q : β → Plan δ}
    {mid : β → α → Context → Prop} {post : δ → γ → Context → Prop}
    (hm : Performs first b bodies depth old x m p mid)
    (hup : first → makes ∧ ∀ a, CountsUp (f a))
    (hf : ∀ v a y, p.value = some v → b.Before old x y → b.Over y → mid v a y →
      Performs makes b bodies depth old y (f a) (q v) post) :
    Performs makes b bodies depth old x (m >>= f) (p.bind q) post := by
  intro events
  have hm := hm events
  obtain ⟨items, value⟩ := p
  generalize hresult : Session.run ⟨x, events⟩ m = result at hm
  generalize hprogress : make bodies depth (b.granted x) items = progress at hm
  -- Templates are only counted up, so what is too many after the first check is too many at the end.
  have hoverrun {outcome : Except Halt α} {σ : Session} (hσ : result = (outcome, σ))
      (hfirst : first) (hlost : Template.idCount < σ.context.nextTemplate) :
      makes ∧ Template.idCount <
        (Session.run ⟨x, events⟩ (m >>= f)).2.context.nextTemplate := by
    obtain ⟨hmakes, hcounts⟩ := hup hfirst
    subst hσ
    cases outcome with
    | error halt =>
        rw [Session.run_bind_of_error f hresult]
        exact ⟨hmakes, hlost⟩
    | ok a =>
        rw [Session.run_bind_of_ok f hresult]
        exact ⟨hmakes, Nat.lt_of_lt_of_le hlost ((hcounts a).le σ)⟩
  cases value with
  | none =>
      rw [Plan.bind, hprogress]
      cases hm with
      | refused hy hxy =>
          rw [Session.run_bind_of_error f hresult]
          exact .refused hy hxy
      | denied hy hxy =>
          rw [Session.run_bind_of_error f hresult]
          exact .denied hy hxy
      | deep hroom =>
          rw [Session.run_bind_of_error f hresult]
          exact .deep hroom
      | overrun hfirst hlost =>
          obtain ⟨hmakes, hlost⟩ := hoverrun rfl hfirst hlost
          exact .overrun hmakes hlost
  | some v =>
      rw [Plan.bind, Requests.make_append, hprogress]
      cases hm with
      | accepted hy hxy hmid =>
          rw [Session.run_bind_of_ok f hresult]
          exact (hf v _ _ rfl hxy hy hmid _).before hxy
      | denied hy hxy =>
          rw [Session.run_bind_of_error f hresult]
          exact .denied hy hxy
      | deep hroom =>
          rw [Session.run_bind_of_error f hresult]
          exact .deep hroom
      | overrun hfirst hlost =>
          obtain ⟨hmakes, hlost⟩ := hoverrun rfl hfirst hlost
          exact .overrun hmakes hlost

theorem bind {m : CheckM α} {f : α → CheckM γ} {p : Plan β} {q : β → Plan δ}
    {mid : β → α → Context → Prop} {post : δ → γ → Context → Prop}
    (hm : Performs False b bodies depth old x m p mid)
    (hf : ∀ v a y, p.value = some v → b.Before old x y → b.Over y → mid v a y →
      Performs makes b bodies depth old y (f a) (q v) post) :
    Performs makes b bodies depth old x (m >>= f) (p.bind q) post :=
  hm.bind_of_overrun False.elim hf

theorem andThen {m : CheckM α} {f : α → CheckM γ} [hup : ∀ a, CountsUp (f a)] {p : Plan β}
    {q : β → Plan δ} {mid : β → α → Context → Prop} {post : δ → γ → Context → Prop}
    (hm : Performs makes b bodies depth old x m p mid)
    (hf : ∀ v a y, p.value = some v → b.Before old x y → b.Over y → mid v a y →
      Performs makes b bodies depth old y (f a) (q v) post) :
    Performs makes b bodies depth old x (m >>= f) (p.bind q) post :=
  hm.bind_of_overrun (fun hmakes => ⟨hmakes, hup⟩) hf

theorem ok_bind {m : CheckM α} {f : α → CheckM γ} {v : β} {q : Plan δ}
    {mid : β → α → Context → Prop} {post : δ → γ → Context → Prop}
    (hm : Performs False b bodies depth old x m (.ofAnswer (some v)) mid)
    (hf : ∀ a y, b.Before old x y → b.Over y → mid v a y →
      Performs makes b bodies depth old y (f a) q post) :
    Performs makes b bodies depth old x (m >>= f) q post := by
  refine hm.bind (q := fun _ => q) ?_
  rintro _ a y hv hxy hy hmid
  obtain rfl := Option.some.inj hv
  exact hf a y hxy hy hmid

theorem answer_bind {m : CheckM α} {f : α → CheckM γ} {answer : Option β} {next : β → Option δ}
    {mid : β → α → Context → Prop} {post : δ → γ → Context → Prop}
    (hm : Performs False b bodies depth old x m (.ofAnswer answer) mid)
    (hf : ∀ v a y, answer = some v → b.Before old x y → b.Over y → mid v a y →
      Performs makes b bodies depth old y (f a) (.ofAnswer (next v)) post) :
    Performs makes b bodies depth old x (m >>= f) (.ofAnswer (answer.bind next)) post := by
  rw [← Plan.ofAnswer_bind]
  exact hm.bind hf

theorem mono {m : CheckM α} {p : Plan β} {post post' : β → α → Context → Prop}
    (h : Performs makes b bodies depth old x m p post)
    (hpost : ∀ v a y, p.value = some v → b.Before old x y → b.Over y → post v a y →
      post' v a y) :
    Performs makes b bodies depth old x m p post' :=
  fun events => (h events).mono hpost

theorem map {m : CheckM α} {p : Plan β} {f : β → γ} {post : β → α → Context → Prop}
    {post' : γ → α → Context → Prop} (h : Performs makes b bodies depth old x m p post)
    (hpost : ∀ v a y, b.Before old x y → b.Over y → post v a y → post' (f v) a y) :
    Performs makes b bodies depth old x m (p.map f) post' := by
  intro events
  have hends := h events
  obtain ⟨items, value⟩ := p
  generalize Session.run ⟨x, events⟩ m = result at hends ⊢
  generalize hprogress : make bodies depth (b.granted x) items = progress at hends
  rw [Plan.map, hprogress]
  cases hends with
  | accepted hy hxy hv => exact .accepted hy hxy (hpost _ _ _ hxy hy hv)
  | refused hy hxy => exact .refused hy hxy
  | denied hy hxy => exact .denied hy hxy
  | deep hroom => exact .deep hroom
  | overrun hmakes h => exact .overrun hmakes h

theorem weaken {m : CheckM α} {p : Plan β} {post : β → α → Context → Prop} {old' : Nat}
    (h : Performs makes b bodies depth old' x m p post) (hold : old ≤ old') :
    Performs makes b bodies depth old x m p post :=
  fun events => (h events).weaken hold

theorem of_run {m : CheckM α} {answer : Option β} {post : β → α → Context → Prop} (hx : b.Over x)
    (h : ∀ events, ∃ outcome events', Session.run ⟨x, events⟩ m = (outcome, ⟨x, events'⟩) ∧
      match answer with
      | some v => ∃ a, outcome = .ok a ∧ post v a x
      | none => ∃ e, outcome = .error (.rejected e)) :
    Performs makes b bodies depth old x m (.ofAnswer answer) post := by
  intro events
  obtain ⟨outcome, events', hrun, hanswer⟩ := h events
  rw [Plan.ofAnswer, make, hrun]
  cases answer with
  | some v =>
      obtain ⟨a, rfl, ha⟩ := hanswer
      exact .accepted hx (.refl x) ha
  | none =>
      obtain ⟨e, rfl⟩ := hanswer
      exact .refused hx (.refl x)

theorem pure {v : β} {a : α} {post : β → α → Context → Prop} (hx : b.Over x) (h : post v a x) :
    Performs makes b bodies depth old x (pure a) (.ofAnswer (some v)) post := by
  intro events
  rw [Plan.ofAnswer, make]
  exact .accepted hx (.refl x) h

theorem reject {post : β → α → Context → Prop} (hx : b.Over x) (e : TypeError) :
    Performs makes b bodies depth old x (CheckM.reject e : CheckM α) (.ofAnswer (none : Option β))
      post := by
  intro events
  rw [Plan.ofAnswer, make]
  exact .refused hx (.refl x)

theorem of_ok {m : CheckM α} {v : β} {a : α} {y : Context} {post : β → α → Context → Prop}
    (hrun : ∀ events, ∃ events', Session.run ⟨x, events⟩ m = (.ok a, ⟨y, events'⟩))
    (hy : b.Over y) (hxy : b.Before old x y) (hgranted : b.granted y = b.granted x)
    (h : post v a y) : Performs makes b bodies depth old x m (.ofAnswer (some v)) post := by
  intro events
  obtain ⟨events', hrun⟩ := hrun events
  rw [Plan.ofAnswer, make, hrun, ← hgranted]
  exact .accepted hy hxy h

theorem emit_bind {e : Event} {f : Unit → CheckM α} {p : Plan β} {post : β → α → Context → Prop}
    (h : Performs makes b bodies depth old x (f ()) p post) :
    Performs makes b bodies depth old x (CheckM.emit e >>= f) p post :=
  fun events => h (events.push e)

theorem context_bind {f : Context → CheckM α} {p : Plan β} {post : β → α → Context → Prop}
    (h : Performs makes b bodies depth old x (f x) p post) :
    Performs makes b bodies depth old x (CheckM.context >>= f) p post :=
  fun events => h events

theorem of_resolves {m : CheckM α} {answer : Option α} (hx : b.Over x)
    (h : Resolves b.context x m answer) :
    Performs makes b bodies depth old x m (.ofAnswer answer) fun v a y => a = v ∧ x.Agrees y := by
  intro events
  obtain ⟨outcome, y, hrun, hcaches, hagrees, hanswer⟩ := h events
  have hy := hx.agrees hcaches hagrees
  rw [Plan.ofAnswer, make, hrun, ← Base.granted_of_instances hagrees.instances]
  cases answer with
  | none =>
      obtain ⟨e, rfl⟩ := hanswer
      exact .refused hy (.of_agrees hagrees)
  | some a =>
      obtain rfl := hanswer
      exact .accepted hy (.of_agrees hagrees) ⟨rfl, hagrees⟩

end Performs

end TypedLisp
