import TypedLisp.Proofs.Hygiene.Checkers

namespace TypedLisp

open Datum TypeExpr CheckM

namespace twinning

variable {old new : String} {since : Context} (hold : IsName old) (hnew : IsName new)
  {w v : (twinning old new since).State}

include hold hnew

section Functions

variable {name : Option String} {list : String} {f : FunctionParts}
  (h : Renamable old new name list f)

include h

theorem makes_forth : (twinning old new since).Makes w list f
    (specializeSymbol (renameTo old new) list) (f.retyped (renameTo old new)) := by
  intro v n expr expr' closure _ hclosure
  have hread : List.Forall₂ (Param.ReadAs (Retyped old new)) f.params
      (f.retyped (renameTo old new)).params := by
    rw [FunctionParts.retyped, List.forall₂_map_right_iff]
    refine List.forall₂_same.mpr fun p hp => ⟨rfl, h.readAs_forth hold hnew ?_⟩
    exact List.mem_cons_of_mem _ (List.mem_cons_of_mem _ (List.mem_map_of_mem hp))
  refine .makeTemplate (lawful hold hnew) (Recalled old new) (Retyped old new) n
    (fun es hes => h.readList_forth hold hnew hes) hread
    (h.readAs_forth hold hnew (by simp [FunctionParts.typeTexts])) ?_ expr expr' hclosure
  intro v id names names' params params' result result' hnames hparams hresult
  obtain ⟨hbinds, hrenamed⟩ :=
    Template.binds_of_retyped id n hnames hparams hresult h.fresh_body closure
  exact Akin.forth hbinds hrenamed

theorem makes_back : (twinning old new since).Makes w
    (specializeSymbol (renameTo old new) list) (f.retyped (renameTo old new)) list f := by
  intro v n expr expr' closure _ hclosure
  have hread : List.Forall₂ (Param.ReadAs fun e e' => Retyped old new e' e)
      (f.retyped (renameTo old new)).params f.params := by
    rw [FunctionParts.retyped, List.forall₂_map_left_iff]
    refine List.forall₂_same.mpr fun p hp => ⟨rfl, h.readAs_back hold hnew ?_⟩
    exact List.mem_cons_of_mem _ (List.mem_cons_of_mem _ (List.mem_map_of_mem hp))
  refine .makeTemplate (lawful hold hnew) (fun names names' => Recalled old new names' names)
    (fun e e' => Retyped old new e' e) n (fun es hes => h.readList_back hold hnew hes) hread
    (h.readAs_back hold hnew (by simp [FunctionParts.typeTexts])) ?_ expr expr' hclosure
  intro v id names names' params params' result result' hnames hparams hresult
  obtain ⟨hbinds, hrenamed⟩ := Template.binds_of_retyped id n hnames
    (hparams.flip.imp fun _ _ hp => ⟨hp.1.symm, hp.2⟩) hresult h.fresh_body closure
  exact Akin.back hbinds hrenamed

end Functions

section Forms

variable {rest rest' : List Datum} (hrest : List.Forall₂ (Renamed old new) rest rest')

include hrest

omit hold hnew in
theorem splitTypeList_renamed {typeList : Option String} {tail : List Datum}
    (h : Form.splitTypeList rest = (typeList, tail)) :
    ∃ tail', Form.splitTypeList rest' = (typeList, tail') ∧
      List.Forall₂ (Renamed old new) tail tail' := by
  cases hrest with
  | nil =>
      obtain ⟨rfl, rfl⟩ := Prod.mk.inj h
      exact ⟨[], rfl, .nil⟩
  | @cons d d' rest rest' hd hrest =>
      cases d with
      | symbol text =>
          obtain rfl := hd.eq_symbol
          rw [Form.splitTypeList] at h ⊢
          split at h
          · obtain ⟨rfl, rfl⟩ := Prod.mk.inj h
            exact ⟨rest', by rw [if_pos (by assumption)], hrest⟩
          · obtain ⟨rfl, rfl⟩ := Prod.mk.inj h
            exact ⟨_, by rw [if_neg (by assumption)], .cons hd hrest⟩
      | number | text | boolean | list =>
          obtain ⟨rfl, rfl⟩ := Prod.mk.inj h
          rcases hd.eq_or_lists with rfl | ⟨_, _, -, rfl⟩ <;> exact ⟨_, rfl, .cons hd hrest⟩

theorem functionParts_renamed {f : FunctionParts} (h : Form.functionParts rest = .ok f) :
    ∃ body', Form.functionParts rest' = .ok { f with body := body' } ∧
      Renamed old new f.body body' := by
  obtain rfl := Form.items_of_functionParts h
  rcases hrest with _ | ⟨hparams, _ | ⟨harrow, _ | ⟨hresult, _ | ⟨hbody, _ | _⟩⟩⟩⟩
  obtain rfl := hparams.eq_params hold hnew
  obtain rfl := harrow.eq_symbol
  obtain rfl := hresult.eq_symbol
  rename_i body'
  exact ⟨body', Form.functionParts_items { f with body := body' }, hbody⟩

omit hold hnew in
theorem plainCall_renamed {head head' : Datum} (hhead : Renamed old new head head')
    (hsymbol : head'.symbol? = head.symbol?) :
    (twinning old new since).FormMatches w (Form.plainCall head rest)
      (Form.plainCall head' rest') := by
  obtain ⟨typeArgs, args, hsplit⟩ : ∃ typeArgs args, Form.splitTypeList rest = (typeArgs, args) :=
    ⟨_, _, rfl⟩
  obtain ⟨args', hsplit', hargs⟩ := splitTypeList_renamed hrest hsplit
  simp only [Form.plainCall, hsplit, hsplit']
  exact .call typeArgs hhead hsymbol hargs

theorem function_renamed {typeParams : Option String} {tail : List Datum} {f : FunctionParts}
    (hsplit : Form.splitTypeList rest = (typeParams, tail))
    (hparts : Form.functionParts tail = .ok f) :
    ∃ tail' body', Form.splitTypeList rest' = (typeParams, tail') ∧
      Form.functionParts tail' = .ok { f with body := body' } ∧ Renamed old new f.body body' := by
  obtain ⟨tail', hsplit', htail⟩ := splitTypeList_renamed hrest hsplit
  obtain ⟨body', hparts', hbody⟩ := functionParts_renamed hold hnew htail hparts
  exact ⟨tail', body', hsplit', hparts', hbody⟩

omit hrest in
theorem makes_around (list : String) {f : FunctionParts} {body' : Datum}
    (hbody : Renamed old new f.body body') :
    (twinning old new since).Makes w list f list { f with body := body' } := by
  have hparams : ({ f with body := body' } : FunctionParts).params = f.params := rfl
  refine .of_bodies (lawful hold hnew) hparams rfl (fun {v g g'} hlike hleft hright => ?_) list
  have hsame := hlike.eq fun h => h
  refine Akin.around ?_ ?_
  · rwa [hleft, hright]
  · rw [← hsame]

omit hold hnew hrest in
theorem exists_typeDecl {form : Form} (h : Form.ofKeyword .typeDecl rest = .ok form) :
    ∃ n base, form = .typeDecl n base := by
  simp only [Form.ofKeyword, Form.typeForm] at h
  split at h
  · cases h
    exact ⟨_, _, rfl⟩
  · next n _ option options =>
      split at h
      · cases hoptions : Form.readOptions (option :: options) with
        | error e => simp [hoptions, bind, Except.bind] at h
        | ok names =>
            refine ⟨n, .union names, ?_⟩
            simpa [hoptions, bind, Except.bind, eq_comm] using h
      · cases h
  all_goals cases h

theorem form_of_keyword {k : Keyword} {form : Form} (h : Form.ofKeyword k rest = .ok form) :
    ∃ form', Form.ofKeyword k rest' = .ok form' ∧
      (twinning old new since).FormMatches w form form' := by
  cases k with
  | var =>
      simp only [Form.ofKeyword, Form.varForm] at h
      split at h
      · cases h
        rcases hrest with _ | ⟨hn, _ | ⟨hvalue, _ | _⟩⟩
        obtain rfl := hn.eq_symbol
        exact ⟨_, rfl, .var _ none hvalue⟩
      · cases h
        rcases hrest with _ | ⟨hpair, _ | ⟨hvalue, _ | _⟩⟩
        obtain rfl := hpair.eq_pair hold hnew
        exact ⟨_, rfl, .var _ (some _) hvalue⟩
      all_goals cases h
  | set =>
      simp only [Form.ofKeyword, Form.setForm] at h
      split at h
      · cases h
        rcases hrest with _ | ⟨hn, _ | ⟨hvalue, _ | _⟩⟩
        obtain rfl := hn.eq_symbol
        exact ⟨_, rfl, .assignName _ hvalue⟩
      · split at h
        · next htag =>
            cases h
            subst htag
            rcases hrest with _ | ⟨htarget, _ | ⟨hvalue, _ | _⟩⟩
            obtain ⟨_, rfl, hitems⟩ := htarget.exists_items_of_length hold hnew (by simp)
            rcases hitems with _ | ⟨hprop, _ | ⟨hobject, _ | ⟨hfield, _ | _⟩⟩⟩
            obtain rfl := hprop.eq_symbol
            obtain rfl := hfield.eq_symbol
            exact ⟨_, rfl, .assignField _ hobject hvalue⟩
        · cases h
      all_goals cases h
  | begin =>
      cases h
      exact ⟨_, rfl, .block hrest⟩
  | cond =>
      simp only [Form.ofKeyword, Form.condForm] at h
      split at h <;> cases h
      rcases hrest with _ | ⟨hcondition, _ | ⟨htrue, _ | ⟨hfalse, _ | _⟩⟩⟩
      exact ⟨_, rfl, .cond hcondition (hcondition.narrowing?_eq hold hnew) htrue hfalse⟩
  | loop =>
      simp only [Form.ofKeyword, Form.loopForm] at h
      split at h <;> cases h
      rcases hrest with _ | ⟨hcondition, _ | ⟨hbody, _ | _⟩⟩
      exact ⟨_, rfl, .loop hcondition hbody⟩
  | define =>
      simp only [Form.ofKeyword, Form.defineForm] at h
      split at h
      · next n tail =>
          obtain ⟨_, tail', hn, htail, rfl⟩ := List.forall₂_cons_left_iff.mp hrest
          obtain rfl := hn.eq_symbol
          cases hsplit : Form.splitTypeList tail with
          | mk typeParams items =>
              cases hparts : Form.functionParts items with
              | error e => simp [hsplit, hparts, bind, Except.bind] at h
              | ok f =>
                  obtain rfl : .define n typeParams f = form := by
                    simpa [hsplit, hparts, bind, Except.bind] using h
                  obtain ⟨items', body', hsplit', hparts', hbody⟩ :=
                    function_renamed hold hnew htail hsplit hparts
                  refine ⟨.define n typeParams { f with body := body' }, ?_, ?_⟩
                  · simp [Form.ofKeyword, Form.defineForm, hsplit', hparts', bind, Except.bind]
                  · cases typeParams with
                    | some list => exact .defineGeneric n (makes_around hold hnew list hbody)
                    | none => exact .define n rfl rfl hbody
      all_goals cases h
  | lambda =>
      simp only [Form.ofKeyword, Form.lambdaForm] at h
      cases hsplit : Form.splitTypeList rest with
      | mk typeParams items =>
          cases hparts : Form.functionParts items with
          | error e => simp [hsplit, hparts, bind, Except.bind] at h
          | ok f =>
              obtain rfl : .lambda typeParams f = form := by
                simpa [hsplit, hparts, bind, Except.bind] using h
              obtain ⟨items', body', hsplit', hparts', hbody⟩ :=
                function_renamed hold hnew hrest hsplit hparts
              refine ⟨.lambda typeParams { f with body := body' }, ?_, ?_⟩
              · simp [Form.ofKeyword, Form.lambdaForm, hsplit', hparts', bind, Except.bind]
              · cases typeParams with
                | some list => exact .lambdaGeneric (makes_around hold hnew list hbody)
                | none => exact .lambda rfl rfl hbody
  | typeDecl =>
      obtain ⟨n, base, rfl⟩ := exists_typeDecl h
      obtain rfl : [symbol n, base.toDatum] = rest :=
        (List.cons.inj (Datum.list.inj (Form.toDatum_of_ofKeyword h))).2
      rcases hrest with _ | ⟨hn, _ | ⟨hbase, _ | _⟩⟩
      obtain rfl := hn.eq_symbol
      obtain rfl := hbase.eq_base hold hnew
      exact ⟨_, h, .typeDecl trivial base⟩
  | classDecl =>
      simp only [Form.ofKeyword, Form.classForm] at h
      split at h <;> cases h
      rcases hrest with _ | ⟨hname, _ | ⟨hsuperclass, _ | ⟨hbody, _ | _⟩⟩⟩
      obtain rfl := hname.eq_symbol
      obtain rfl := hsuperclass.eq_symbol
      exact ⟨_, rfl, .classDecl trivial _ hbody⟩
  | new =>
      simp only [Form.ofKeyword, Form.newForm] at h
      split at h <;> cases h
      obtain ⟨_, args', hclass, hargs, rfl⟩ := List.forall₂_cons_left_iff.mp hrest
      obtain rfl := hclass.eq_symbol
      exact ⟨_, rfl, .new _ hargs⟩
  | super =>
      simp only [Form.ofKeyword, Form.superForm] at h
      split at h <;> cases h
      rcases hrest with _ | ⟨hclass, _ | _⟩
      obtain rfl := hclass.eq_symbol
      exact ⟨_, rfl, .super _⟩
  | prop =>
      simp only [Form.ofKeyword, Form.propForm] at h
      split at h <;> cases h
      rcases hrest with _ | ⟨hobject, _ | ⟨hfield, _ | _⟩⟩
      obtain rfl := hfield.eq_symbol
      exact ⟨_, rfl, .prop _ hobject⟩
  | or | arrow => cases h

theorem form_of_tagged {tag : String} {form : Form} (h : Form.ofTagged tag rest = .ok form) :
    ∃ form', Form.ofTagged tag rest' = .ok form' ∧
      (twinning old new since).FormMatches w form form' := by
  rw [Form.ofTagged] at h ⊢
  cases hop : Operator.ofText? tag with
  | some op =>
      simp only [hop] at h ⊢
      obtain rfl := Except.ok.inj h
      exact ⟨_, rfl, .binary op hrest⟩
  | none =>
      simp only [hop] at h ⊢
      cases hk : Keyword.ofText? tag with
      | some k =>
          simp only [hk] at h ⊢
          cases hform : Form.ofKeyword k rest with
          | error e =>
              rw [hform] at h
              cases h
          | ok found =>
              rw [hform] at h
              obtain rfl : found = form := Except.ok.inj h
              obtain ⟨form', hform', hmatches⟩ := form_of_keyword hold hnew hrest hform
              exact ⟨form', by rw [hform']; rfl, hmatches⟩
      | none =>
          simp only [hk] at h ⊢
          cases hfused : Word.splitFused? tag with
          | some fused =>
              simp only [hfused] at h ⊢
              obtain rfl := Except.ok.inj h
              exact ⟨_, rfl, .callFused _ _ hrest⟩
          | none =>
              simp only [hfused] at h ⊢
              obtain rfl := Except.ok.inj h
              exact ⟨_, rfl, plainCall_renamed hrest (.same (symbol tag)) rfl⟩

theorem form_of_items {form : Form} (h : Form.classify (.list rest) = .ok form) :
    ∃ form', Form.classify (.list rest') = .ok form' ∧
      (twinning old new since).FormMatches w form form' := by
  cases hrest with
  | nil => cases h
  | @cons head head' rest rest' hhead hrest =>
      cases head with
      | symbol tag =>
          obtain rfl := hhead.eq_symbol
          exact form_of_tagged hold hnew hrest h
      | number | text | boolean | list =>
          obtain rfl := Except.ok.inj h
          rcases hhead.eq_or_lists with rfl | ⟨_, _, -, rfl⟩ <;>
            exact ⟨_, rfl, plainCall_renamed hrest hhead rfl⟩

end Forms

theorem pairs : (twinning old new since).Pairs where
  later _ h := h
  form {w d d' form} h hd := by
    cases h with
    | same => exact ⟨form, hd, .refl (lawful hold hnew) (fun p _ => .same p) fun _ _ => trivial⟩
    | list hlength h =>
        exact form_of_items hold hnew (List.forall₂_iff_zip.mpr ⟨hlength, fun he => h _ _ he⟩) hd
    | @forth name list f h =>
        obtain rfl := Except.ok.inj ((Form.classify_generic h.isTypeList).symm.trans hd)
        rw [h.specialize_renameTo hold hnew]
        refine ⟨_, Form.classify_generic (h.isTypeList_renameTo hold hnew), ?_⟩
        cases name with
        | some n => exact .defineGeneric n (makes_forth hold hnew h)
        | none => exact .lambdaGeneric (makes_forth hold hnew h)
    | @back name list f h =>
        rw [h.specialize_renameTo hold hnew] at hd
        obtain rfl := Except.ok.inj
          ((Form.classify_generic (h.isTypeList_renameTo hold hnew)).symm.trans hd)
        refine ⟨_, Form.classify_generic h.isTypeList, ?_⟩
        cases name with
        | some n => exact .defineGeneric n (makes_back hold hnew h)
        | none => exact .lambdaGeneric (makes_back hold hnew h)

end twinning

/-- No alias in a type that a context has bound or recorded has a blank in its name. -/
def Context.Neat (c : Context) : Prop :=
  (∀ scope ∈ c.scopes.scopes.toList, ∀ entry ∈ scope.bindings.toList, entry.2.Neat) ∧
    ∀ entry ∈ c.instances.toList, entry.2.toTy.Neat

instance (c : Context) : Decidable c.Neat :=
  inferInstanceAs (Decidable (_ ∧ _))

namespace Context.Neat

variable {c : Context} (hc : c.Neat)

include hc

theorem binding? {q : ScopeId} {x : Symbol} {t : Ty} (ht : c.scopes.binding? q x = some t) :
    t.Neat := by
  obtain ⟨scope, hscope, ht⟩ := Option.bind_eq_some_iff.mp ht
  have hmem := Array.mem_toList_iff.mpr (Array.mem_of_getElem? hscope)
  exact hc.1 scope hmem (x, t) (Std.TreeMap.mem_toList_iff_getElem?_eq_some.mpr ht)

/-- Two checkers that start with the same. -/
def twins (old new : String) (events : Array Event) : Twins old new c where
  left := ⟨c, events⟩
  scopes := c.scopes
  events := events
  links := .refl _
  bound q x := by
    cases ht : c.scopes.binding? q x with
    | none => exact .none
    | some t => exact .some (.inl ⟨rfl, fun _ => hc.binding? ht⟩)
  recorded {key s} hs _ := hc.2 (key, s) (Std.TreeMap.mem_toList_iff_getElem?_eq_some.mpr hs)
  kept _ hkey := hkey

end Context.Neat

section Instances

variable {old new : String} (hold : IsName old) (hnew : IsName new) {c : Context} (hc : c.Neat)
  {g g' : Template}

include hold hnew hc

theorem run_instantiate_of_akin (hg : Akin old new g g') (depth : Nat) (list : String)
    (expr : Datum) (events : Array Event) {s : Signature} {σ : Session}
    (hrun : Session.run ⟨c, events⟩ (instantiate (bodyWithin depth) g list expr) = (.ok s, σ))
    (hσ : σ.Hygienic old new c) :
    ∃ σ', Session.run ⟨c, events⟩ (instantiate (bodyWithin depth) g' list expr) = (.ok s, σ') := by
  have hS : (twinning old new c).Lawful := twinning.lawful hold hnew
  have hD : (twinning old new c).Pairs := twinning.pairs hold hnew
  have hfollows := Simulation.Follows.instantiate hS hD (.bodyWithin hS hD depth)
    (w := hc.twins old new events) ⟨hg, trivial⟩ list expr expr
  obtain ⟨s', v, rfl, hright, -, rfl, -⟩ := hfollows.ends hrun
  exact ⟨_, hright hσ⟩

end Instances

/-- In the body of a template, generic functions can be given another name for a type parameter.
If either body makes an instance without capturing a name, the other makes it too, and the signature
is the same. -/
theorem instantiate_hygienic {old new : String} (hold : IsName old) (hnew : IsName new)
    {c : Context} (hc : c.Neat) {g : Template} {body : Datum}
    (hbody : Renamed old new g.body body) (depth : Nat) (list : String) (expr : Datum)
    (events : Array Event) :
    let run (g : Template) :=
      Session.run ⟨c, events⟩ (instantiate (bodyWithin depth) g list expr)
    (∀ s σ, run g = (.ok s, σ) → σ.Hygienic old new c →
        ∃ σ', run { g with body := body } = (.ok s, σ')) ∧
      ∀ s σ, run { g with body := body } = (.ok s, σ) → σ.Hygienic old new c →
        ∃ σ', run g = (.ok s, σ') := by
  refine ⟨fun s σ hrun hσ => ?_, fun s σ hrun hσ => ?_⟩
  · exact run_instantiate_of_akin hold hnew hc (.around hbody rfl) depth list expr events hrun hσ
  · exact run_instantiate_of_akin hold hnew hc (.around hbody.symm rfl) depth list expr events hrun
      hσ

/-- A generic function with one type parameter. -/
def innerFunction (p : String) : FunctionParts :=
  ⟨[⟨"y", p⟩], "string", .text "b"⟩

/-- A generic function that defines such a function and calls it. -/
def outerFunction (p : String) : FunctionParts :=
  ⟨[], "string", .list [.symbol "begin",
    (Form.generic (some "inner") ("<" ++ p ++ ">") (innerFunction p)).toDatum,
    .list [.symbol "inner", .symbol "<boolean>", .boolean true]]⟩

def outerTemplate (p : String) : Datum :=
  (Form.generic (some "outer") "<T>" (outerFunction p)).toDatum

def withOuter (p : String) : Context :=
  (Session.run ⟨Context.new {}, #[]⟩
    (checkExpr (bodyWithin 1) (outerTemplate p) Arena.global)).2.context

/-- The template that the declaration makes. -/
def aroundInner (p : String) : Template :=
  ⟨0, "outer", ["T"], [], .named "string", (outerFunction p).body, Arena.global⟩

theorem reachable_withOuter (p : String) : (withOuter p).Reachable :=
  .expr (.new {}) 1 (outerTemplate p) Nat.one_pos #[]

theorem templateNamed?_withOuter (p : String) :
    (withOuter p).templateNamed? "outer" = some (aroundInner p) := by
  have hform : Form.classify (outerTemplate p) =
      .ok (Form.generic (some "outer") "<T>" (outerFunction p)) := Form.classify_generic (by decide)
  have hlist : TypeExpr.parseList? "<T>" = some (.ok (["T"].map .named)) := by cbv
  have hresult : TypeExpr.parse "string" = .ok (.named "string") :=
    TypeExpr.parse_of_ofTokens (by cbv)
  have hmade (σ : Session) :
      σ.run (makeTemplate "outer" "<T>" (outerFunction p) (outerTemplate p) Arena.global) =
        (.ok (.template { aroundInner p with serial := σ.context.nextTemplate }),
          { σ with context := σ.context.newTemplate.2 }) :=
    run_makeTemplate σ hlist hresult "outer" (outerFunction p).body _ _
  rw [withOuter, checkExpr_of_classify hform, Session.run_bind_of_ok _ (Session.run_emit _ _),
    Form.generic, checkForm, Session.run_bind_of_ok _ (hmade _)]
  exact Context.templateNamed?_define _ _ _ Nat.one_pos

theorem renamed_aroundInner {p : String} (hp : p = "T" ∨ p = "U") :
    Renamed p "V" (aroundInner p).body (aroundInner "V").body := by
  have hname : IsName p ∧ IsName "V" := by rcases hp with rfl | rfl <;> decide
  have hfresh : ∀ text ∈ [Keyword.define.text, "inner", "<" ++ p ++ ">", "y", p, "->", "string"],
      "V" ∉ partsOf text := by
    rcases hp with rfl | rfl <;> decide
  have htidy : ∀ text ∈ ["<" ++ p ++ ">", "string", p],
      (text.toList.all fun c => !Text.isBlank c) = true := by
    rcases hp with rfl | rfl <;> decide
  have hrenamable : Renamable p "V" (some "inner") ("<" ++ p ++ ">") (innerFunction p) := by
    refine ⟨?_, ?_, ?_, fun text ht c hc => ?_, ?_⟩
    case refine_4 => simpa using List.all_eq_true.mp (htidy text ht) c hc
    case refine_5 =>
      simpa [Form.toDatum_generic, Form.special, Form.genericWord, Form.listItems, innerFunction,
        FunctionParts.items, Param.toDatum, and_assoc] using hfresh
    all_goals rcases hp with rfl | rfl <;> decide
  have hinner : (Form.generic (some "inner") ("<" ++ p ++ ">") (innerFunction p)).toDatum.specialize
      (renameTo p "V") = (Form.generic (some "inner") "<V>" (innerFunction "V")).toDatum := by
    have hlist : specializeSymbol (renameTo p "V") ("<" ++ p ++ ">") = "<V>" := by
      rcases hp with rfl | rfl <;> decide
    have hparts : (innerFunction p).retyped (renameTo p "V") = innerFunction "V" := by
      have htype : specializeSymbol (renameTo p "V") p = "V" := by
        rcases hp with rfl | rfl <;> decide
      have hresult : specializeSymbol (renameTo p "V") "string" = "string" := by
        rcases hp with rfl | rfl <;> decide
      simp [FunctionParts.retyped, innerFunction, htype, hresult, specialize]
    rw [hrenamable.specialize_renameTo hname.1 hname.2, hlist, hparts]
  refine .of_forall₂ (.cons (.same _) (.cons ?_ (.cons (.same _) .nil)))
  have hforth := Renamed.forth hrenamable
  rwa [hinner] at hforth

/-- The instance at strings of a template, in the context that declares the one with `p`. -/
def instanceIn (p : String) (g : Template) : Except Halt Signature × Session :=
  Session.run ⟨withOuter p, #[]⟩ (instantiate (bodyWithin 2) g "<string>" (.symbol "outer"))

theorem instantiate_hygienic_inner :
    (withOuter "U").Reachable ∧ (withOuter "U").Neat ∧
      (withOuter "U").templateNamed? "outer" = some (aroundInner "U") ∧
      Renamed "U" "V" (aroundInner "U").body (aroundInner "V").body ∧
      (instanceIn "U" (aroundInner "U")).2.Hygienic "U" "V" (withOuter "U") ∧
      ∃ s, (instanceIn "U" (aroundInner "U")).1 = .ok s ∧
        (instanceIn "U" (aroundInner "V")).1 = .ok s := by
  have hneat : (withOuter "U").Neat := by decide +kernel
  have hhygienic : (instanceIn "U" (aroundInner "U")).2.Hygienic "U" "V" (withOuter "U") := by
    decide +kernel
  have hrenamed := renamed_aroundInner (.inr rfl)
  obtain ⟨s, hs⟩ := exists_ok_of_toBool
    (show (instanceIn "U" (aroundInner "U")).1.toBool = true by decide +kernel)
  obtain ⟨σ', hright⟩ := (instantiate_hygienic (by decide) (by decide) hneat hrenamed 2 "<string>"
    (.symbol "outer") #[]).1 s (instanceIn "U" (aroundInner "U")).2 (Prod.ext hs rfl) hhygienic
  exact ⟨reachable_withOuter "U", hneat, templateNamed?_withOuter "U", hrenamed, hhygienic, s, hs,
    congrArg Prod.fst hright⟩

/-- Where the inner function has the type parameter of the template around it, the actual type is
taken for its type parameter. The instance is rejected; under another name it is accepted. -/
theorem instance_captures :
    (withOuter "T").Reachable ∧ (withOuter "T").templateNamed? "outer" = some (aroundInner "T") ∧
      (withOuter "V").Reachable ∧ (withOuter "V").templateNamed? "outer" = some (aroundInner "V") ∧
      Renamed "T" "V" (aroundInner "T").body (aroundInner "V").body ∧
      rejection? (instanceIn "T" (aroundInner "T")).1 = some "type mismatch" ∧
      (instanceIn "T" (aroundInner "V")).1.toBool = true ∧
      (instanceIn "V" (aroundInner "V")).1.toBool = true ∧
      ¬(instanceIn "T" (aroundInner "V")).2.Hygienic "T" "V" (withOuter "T") :=
  ⟨reachable_withOuter "T", templateNamed?_withOuter "T", reachable_withOuter "V",
    templateNamed?_withOuter "V", renamed_aroundInner (.inl rfl), by decide +kernel,
    by decide +kernel, by decide +kernel, by decide +kernel⟩

end TypedLisp
