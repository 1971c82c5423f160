import TypedLisp.Proofs.Hygiene.Expressions
import TypedLisp.Proofs.Resolution
import TypedLisp.Proofs.Simulation.Rules

namespace TypedLisp

open Datum TypeExpr

section Pairs

variable {α : Type} {old new : String} {names : List String} {values : List α}

theorem renameTo_getD_inj {m n : String} (hm : m ≠ new) (hn : n ≠ new) :
    (renameTo old new m).getD m = (renameTo old new n).getD n ↔ m = n := by
  simp only [renameTo]
  split <;> split <;> simp_all [eq_comm]

theorem lastPaired?_renameTo (hnew : new ∉ names) {n : String} (hn : n ≠ new) :
    lastPaired? ((renameTo old new n).getD n)
        (names.map fun m => (renameTo old new m).getD m) values =
      lastPaired? n names values := by
  induction names generalizing values with
  | nil => rfl
  | cons m names ih =>
      rw [List.mem_cons, not_or] at hnew
      cases values with
      | nil => rfl
      | cons a values =>
          rw [List.map_cons, lastPaired?, lastPaired?, ih hnew.2]
          simp only [renameTo_getD_inj (Ne.symm hnew.1) hn]

theorem exists_lastPaired? {n : String} (hn : n ∈ names) (hlength : values.length = names.length) :
    ∃ a, lastPaired? n names values = some a := by
  induction names generalizing values with
  | nil => cases hn
  | cons m names ih =>
      obtain ⟨a, values, rfl⟩ := List.exists_cons_of_length_eq_add_one hlength
      rw [lastPaired?]
      by_cases hrest : n ∈ names
      · obtain ⟨b, hb⟩ := ih hrest (Nat.succ.inj hlength)
        exact ⟨b, by rw [hb, Option.some_or]⟩
      · obtain rfl : n = m := (List.mem_cons.mp hn).resolve_right hrest
        exact ⟨a, by rw [lastPaired?_eq_none hrest, Option.none_or, if_pos rfl]⟩

/-- The value of a name, or what it is called. Only the old name is called otherwise, and it has a
value. -/
theorem getD_lastPaired?_renameTo (hold : old ∈ names) (hnew : new ∉ names)
    (hlength : values.length = names.length) (missing : String → α) {n : String} (hn : n ≠ new) :
    (lastPaired? ((renameTo old new n).getD n)
        (names.map fun m => (renameTo old new m).getD m) values).getD
          (missing ((renameTo old new n).getD n)) =
      (lastPaired? n names values).getD (missing n) := by
  rw [lastPaired?_renameTo hnew hn]
  by_cases hnold : n = old
  · obtain ⟨a, ha⟩ := exists_lastPaired? (hnold ▸ hold : n ∈ names) hlength
    rw [ha, Option.getD_some, Option.getD_some]
  · rw [renameTo, if_neg hnold, Option.getD_none]

end Pairs

namespace Template

/-- A template with a type parameter under another name. -/
def renamed (old new : String) (g : Template) : Template :=
  { g with
    typeParams := g.typeParams.map fun n => (renameTo old new n).getD n
    params := g.params.map fun p => (p.1, p.2.renamed (renameTo old new))
    result := g.result.renamed (renameTo old new)
    body := g.body.specialize (renameTo old new) }

/-- The type parameter is there, and the other name is nowhere. -/
structure Binds (old new : String) (g : Template) : Prop where
  names : ∀ n ∈ g.typeParams, IsName n
  bound : old ∈ g.typeParams
  unbound : new ∉ g.typeParams
  types : ∀ e ∈ g.result :: g.params.map Prod.snd, Token.name new ∉ e.written
  body : ¬g.body.Mentions new

namespace Binds

variable {old new : String} {g : Template} (h : g.Binds old new)

include h

theorem typesAt {actuals : List TypeExpr} (hactuals : actuals.length = g.typeParams.length) :
    (g.renamed old new).typesAt actuals = g.typesAt actuals := by
  have hsubstitute (e : TypeExpr) (he : e ∈ g.result :: g.params.map Prod.snd) :
      (e.renamed (renameTo old new)).substitute
          (fun n => lastPaired? n (g.renamed old new).typeParams actuals) =
        e.substitute fun n => lastPaired? n g.typeParams actuals := by
    refine substitute_renamed e fun n hn => ?_
    have hne : n ≠ new := fun hne => h.types e he (hne ▸ hn)
    exact getD_lastPaired?_renameTo h.bound h.unbound hactuals TypeExpr.named hne
  rw [Template.typesAt, Template.typesAt]
  refine Prod.ext ?_ (hsubstitute _ List.mem_cons_self)
  simp only [renamed, List.map_map]
  refine List.map_congr_left fun p hp => hsubstitute p.2 (List.mem_cons_of_mem _ ?_)
  exact List.mem_map_of_mem hp

theorem actualBody (hold : IsName old) (hnew : IsName new) {names : List String}
    (hnames : names.length = g.typeParams.length) :
    CheckM.actualBody (g.renamed old new) names = CheckM.actualBody g names := by
  have hboth : Replaces fun n => lastPaired? n g.typeParams names := by
    intro p r hr
    refine (h.names p (Decidable.byContradiction fun hp => ?_)).1.markFree
    cases (lastPaired?_eq_none hp names).symm.trans hr
  have hafter : Replaces fun n => lastPaired? n (g.renamed old new).typeParams names := by
    intro p r hr
    have hp : p ∈ (g.renamed old new).typeParams := Decidable.byContradiction fun hp => by
      cases (lastPaired?_eq_none hp names).symm.trans hr
    obtain ⟨n, hn, rfl⟩ := List.mem_map.mp hp
    simp only [renameTo]
    split
    · exact hnew.1.markFree
    · exact (h.names n hn).1.markFree
  refine specialize_specialize (renames_renameTo hold hnew).replaces hafter hboth fun p hp => ?_
  have hne : p ≠ new := fun hne => h.body (hne ▸ hp)
  refine .of_markFree ?_ ?_
  · simp only [renameTo]
    split
    · exact hnew.1.markFree
    · exact hp.markFree
  · exact getD_lastPaired?_renameTo h.bound h.unbound hnames (fun n => n) hne

end Binds

end Template

section Reading

variable {old new : String} (hold : IsName old) (hnew : IsName new) {text : String}
  (htext : ∀ c ∈ text.toList, Text.isBlank c = false)

include hold hnew

theorem specializeSymbol_renameTo_back (hfresh : new ∉ partsOf text) :
    specializeSymbol (renameTo new old) (specializeSymbol (renameTo old new) text) = text := by
  have hnothing : Replaces fun _ => none := by
    intro p r hr
    cases hr
  rw [specializeSymbol_specializeSymbol (renames_renameTo hold hnew).replaces
    (renames_renameTo hnew hold).replaces hnothing fun p hp => ?_]
  · exact specializeSymbol_eq_self hnothing fun _ _ => rfl
  · have hne : p ≠ new := fun hne => hfresh (hne ▸ hp)
    by_cases hpold : p = old
    · exact .of_markFree (by simpa [renameTo, hpold] using hnew.1.markFree)
        (by simp [renameTo, hpold])
    · exact .of_markFree (by simpa [renameTo, hpold] using markFree_of_mem_parts hp)
        (by simp [renameTo, hpold, hne])

include htext

theorem isBlank_of_mem_renameTo {c : Char}
    (hc : c ∈ (specializeSymbol (renameTo old new) text).toList) : Text.isBlank c = false := by
  rcases mem_of_mem_specializeSymbol (renames_renameTo hold hnew).replaces hc with
    hc | ⟨p, r, hr, hc⟩
  · exact htext c hc
  · have hname := (renames_renameTo hold hnew p r hr).2.1.2 c hc
    simp only [isNameChar, Bool.not_eq_true', Bool.or_eq_false_iff] at hname
    exact hname.1

theorem exists_parse_of_renameTo (hfresh : new ∉ partsOf text) {e : TypeExpr}
    (he : parse (specializeSymbol (renameTo old new) text) = .ok e) :
    ∃ e', parse text = .ok e' ∧ e = e'.renamed (renameTo old new) := by
  have hback := parse_specializeSymbol (renames_renameTo hnew hold) he
    fun c => isBlank_of_mem_renameTo hold hnew htext
  rw [specializeSymbol_renameTo_back hold hnew hfresh] at hback
  have hforth := parse_specializeSymbol (renames_renameTo hold hnew) hback htext
  exact ⟨_, hback, Except.ok.inj (he.symm.trans hforth)⟩

theorem exists_parseList?_of_renameTo (hfresh : new ∉ partsOf text) {es : List TypeExpr}
    (hes : parseList? (specializeSymbol (renameTo old new) text) = some (.ok es)) :
    ∃ es', parseList? text = some (.ok es') ∧ es = es'.map (renamed (renameTo old new)) := by
  have hback := parseList?_specializeSymbol (renames_renameTo hnew hold) hes
    fun c => isBlank_of_mem_renameTo hold hnew htext
  rw [specializeSymbol_renameTo_back hold hnew hfresh] at hback
  have hforth := parseList?_specializeSymbol (renames_renameTo hold hnew) hback htext
  exact ⟨_, hback, Except.ok.inj (Option.some.inj (hes.symm.trans hforth))⟩

end Reading

theorem mem_writtenList_map_named {names : List String} {n : String} :
    Token.name n ∈ writtenList (names.map TypeExpr.named) ↔ n ∈ names := by
  have hmore (names : List String) :
      Token.name n ∈ writtenMore (names.map TypeExpr.named) ↔ n ∈ names := by
    induction names with
    | nil => simp [writtenMore]
    | cons m names ih => simp [writtenMore, written, ih]
  cases names with
  | nil => simp [writtenList]
  | cons m names => simp [writtenList, written, hmore]

theorem plainNames?_eq_some_iff {es : List TypeExpr} {names : List String} :
    CheckM.plainNames? es = some names ↔ es = names.map TypeExpr.named := by
  fun_induction CheckM.plainNames? es generalizing names with
  | case1 => cases names <;> simp
  | case2 name es ih =>
      cases names with
      | nil => simp
      | cons n names => simp [ih, and_comm]
  | case3 => cases names <;> simp

/-- A written type in which a name is replaced by one that is not there. -/
def Retyped (old new : String) (e e' : TypeExpr) : Prop :=
  e' = e.renamed (renameTo old new) ∧ Token.name new ∉ e.written

/-- Type parameters of which one is given another name. -/
def Recalled (old new : String) (names names' : List String) : Prop :=
  ((∀ n ∈ names, IsName n) ∧ old ∈ names ∧ new ∉ names) ∧
    names' = names.map fun n => (renameTo old new n).getD n

theorem renamed_named (old new n : String) :
    (TypeExpr.named n).renamed (renameTo old new) = .named ((renameTo old new n).getD n) := by
  rw [renamed, substitute]
  cases renameTo old new n <;> rfl

theorem map_renamed_named (old new : String) (names : List String) :
    (names.map TypeExpr.named).map (renamed (renameTo old new)) =
      (names.map fun n => (renameTo old new n).getD n).map TypeExpr.named := by
  simp [renamed_named]

theorem exists_of_map_renamed {old new : String} {es : List TypeExpr} {names : List String}
    (h : es.map (renamed (renameTo old new)) = names.map TypeExpr.named) :
    ∃ names' : List String, es = names'.map TypeExpr.named ∧
      names = names'.map fun n => (renameTo old new n).getD n := by
  induction es generalizing names with
  | nil =>
      obtain rfl : names = [] := by simpa using h
      exact ⟨[], rfl, rfl⟩
  | cons e es ih =>
      obtain ⟨n, names, rfl⟩ : ∃ n rest, names = n :: rest :=
        List.exists_cons_of_ne_nil fun hnil => by simp [hnil] at h
      obtain ⟨he, hes⟩ := List.cons.inj h
      obtain ⟨names', rfl, rfl⟩ := ih hes
      cases e with
      | named m =>
          rw [renamed_named] at he
          exact ⟨m :: names', rfl, by rw [List.map_cons, TypeExpr.named.inj he]⟩
      | function params result => cases he

namespace Template

variable {old new : String} {names names' : List String}
  {params params' : List (Symbol × TypeExpr)} {result result' : TypeExpr} {body : Datum}

theorem binds_of_retyped (id : Nat) (name : String) (hnames : Recalled old new names names')
    (hparams : List.Forall₂ (fun p p' => p'.1 = p.1 ∧ Retyped old new p.2 p'.2) params params')
    (hresult : Retyped old new result result') (hbody : ¬body.Mentions new) (closure : ScopeId) :
    Binds old new ⟨id, name, names, params, result, body, closure⟩ ∧
      ⟨id, name, names', params', result', body.specialize (renameTo old new), closure⟩ =
        renamed old new ⟨id, name, names, params, result, body, closure⟩ := by
  obtain ⟨⟨hplain, hbound, hunbound⟩, rfl⟩ := hnames
  obtain ⟨rfl, hfresh⟩ := hresult
  have hsame : params' = params.map fun p => (p.1, p.2.renamed (renameTo old new)) := by
    rw [← List.forall₂_eq_eq_eq, List.forall₂_map_right_iff]
    exact (hparams.imp fun _ _ hp => Prod.ext hp.1 hp.2.1).flip
  refine ⟨⟨hplain, hbound, hunbound, List.forall_mem_cons.mpr ⟨hfresh, fun e he => ?_⟩, hbody⟩,
    by rw [hsame]; rfl⟩
  obtain ⟨p, hp, rfl⟩ := List.mem_map.mp he
  obtain ⟨i, hi, rfl⟩ := List.getElem_of_mem hp
  exact (hparams.get hi (hparams.length_eq ▸ hi)).2.2

end Template

namespace Renamable

variable {old new : String} {name : Option String} {list : String} {f : FunctionParts}
  (h : Renamable old new name list f)

include h

theorem fresh_body : ¬f.body.Mentions new := by
  intro hmem
  refine h.fresh ?_
  rw [Form.toDatum_generic]
  exact .list (by simp [FunctionParts.items]) hmem

theorem fresh_text {text : String} (ht : text ∈ list :: f.typeTexts) : new ∉ partsOf text := by
  intro hmem
  refine h.fresh ?_
  rw [Form.toDatum_generic]
  rcases List.mem_cons.mp ht with rfl | ht
  · exact .list (by simp) (.symbol hmem)
  · rcases List.mem_cons.mp ht with rfl | ht
    · exact .list (by simp [FunctionParts.items]) (.symbol hmem)
    · obtain ⟨p, hp, rfl⟩ := List.mem_map.mp ht
      have hpair : p.toDatum.Mentions new :=
        .list (List.mem_cons_of_mem _ List.mem_cons_self) (.symbol hmem)
      refine .list ?_ (.list (List.mem_map_of_mem hp) hpair)
      simp [FunctionParts.items]

variable (hold : IsName old) (hnew : IsName new)

include hnew

theorem fresh_written {text : String} (ht : text ∈ list :: f.typeTexts) {e : TypeExpr}
    (he : parse text = .ok e) : Token.name new ∉ e.written := by
  rw [← mem_parts_of_parse he (h.tidy text ht) hnew.1.ne_empty]
  exact h.fresh_text ht

include hold

theorem names {names : List String}
    (hes : parseList? list = some (.ok (names.map TypeExpr.named))) :
    (∀ n ∈ names, IsName n) ∧ old ∈ names ∧ new ∉ names := by
  have htext := h.tidy list List.mem_cons_self
  have hmem {n : String} (hn : IsName n) : n ∈ partsOf list ↔ n ∈ names := by
    rw [mem_parts_of_parseList hes htext hn.1.ne_empty]
    exact mem_writtenList_map_named
  refine ⟨fun n hn => ?_, (hmem hold).mp h.binds, fun hn => ?_⟩
  · cases wellNamed_of_parseList hes _ (List.mem_map_of_mem hn) with
    | named hname => exact hname
  · exact h.fresh_text List.mem_cons_self ((hmem hnew).mpr hn)

theorem readAs_forth {text : String} (ht : text ∈ list :: f.typeTexts) :
    ReadAs (Retyped old new) text (specializeSymbol (renameTo old new) text) :=
  fun _ he => ⟨_, parse_specializeSymbol (renames_renameTo hold hnew) he (h.tidy text ht), rfl,
    h.fresh_written hnew ht he⟩

theorem readAs_back {text : String} (ht : text ∈ list :: f.typeTexts) :
    ReadAs (fun e e' => Retyped old new e' e) (specializeSymbol (renameTo old new) text) text := by
  intro e he
  obtain ⟨e', he', hrenamed⟩ :=
    exists_parse_of_renameTo hold hnew (h.tidy text ht) (h.fresh_text ht) he
  exact ⟨e', he', hrenamed, h.fresh_written hnew ht he'⟩

theorem readList_forth {es : List TypeExpr} (hes : parseList? list = some (.ok es)) :
    ∃ es', parseList? (specializeSymbol (renameTo old new) list) = some (.ok es') ∧
      ∀ names, CheckM.plainNames? es = some names →
        ∃ names', CheckM.plainNames? es' = some names' ∧ Recalled old new names names' := by
  refine ⟨_, parseList?_specializeSymbol (renames_renameTo hold hnew) hes
    (h.tidy list List.mem_cons_self), fun names hnames => ?_⟩
  obtain rfl := plainNames?_eq_some_iff.mp hnames
  refine ⟨_, plainNames?_eq_some_iff.mpr (map_renamed_named old new names), ?_, rfl⟩
  exact h.names hold hnew hes

theorem readList_back {es : List TypeExpr}
    (hes : parseList? (specializeSymbol (renameTo old new) list) = some (.ok es)) :
    ∃ es', parseList? list = some (.ok es') ∧ ∀ names, CheckM.plainNames? es = some names →
      ∃ names', CheckM.plainNames? es' = some names' ∧ Recalled old new names' names := by
  obtain ⟨es', hes', rfl⟩ := exists_parseList?_of_renameTo hold hnew
    (h.tidy list List.mem_cons_self) (h.fresh_text List.mem_cons_self) hes
  refine ⟨es', hes', fun names hnames => ?_⟩
  obtain ⟨names', rfl, hrenamed⟩ := exists_of_map_renamed (plainNames?_eq_some_iff.mp hnames)
  exact ⟨names', plainNames?_eq_some_iff.mpr rfl, h.names hold hnew hes', hrenamed⟩

end Renamable

inductive Akin (old new : String) (g g' : Template) : Prop where
  | around (h : Renamed old new g.body g'.body) (hg : g' = { g with body := g'.body })
  | forth (h : g.Binds old new) (hg : g' = g.renamed old new)
  | back (h : g'.Binds old new) (hg : g = g'.renamed old new)

namespace Akin

variable {old new : String} {g g' : Template} (h : Akin old new g g')

include h

theorem serial : g'.serial = g.serial := by
  rcases h with ⟨-, hg⟩ | ⟨-, hg⟩ | ⟨-, hg⟩ <;> rw [hg] <;> rfl

theorem closure : g'.closure = g.closure := by
  rcases h with ⟨-, hg⟩ | ⟨-, hg⟩ | ⟨-, hg⟩ <;> rw [hg] <;> rfl

theorem symbols : g'.params.map Prod.fst = g.params.map Prod.fst := by
  rcases h with ⟨-, hg⟩ | ⟨-, hg⟩ | ⟨-, hg⟩ <;> rw [hg] <;> simp [Template.renamed]

theorem arity : g'.typeParams.length = g.typeParams.length := by
  rcases h with ⟨-, hg⟩ | ⟨-, hg⟩ | ⟨-, hg⟩ <;> rw [hg] <;> simp [Template.renamed]

theorem typesAt {actuals : List TypeExpr} (hactuals : actuals.length = g.typeParams.length) :
    g'.typesAt actuals = g.typesAt actuals := by
  have harity := h.arity
  rcases h with ⟨-, hg⟩ | ⟨h, hg⟩ | ⟨h, hg⟩
  · rw [hg]
    rfl
  · rw [hg, h.typesAt hactuals]
  · rw [hg, h.typesAt (hactuals.trans harity.symm)]

end Akin

namespace Ty

/-- No alias has a blank in its name, as is the case for names that are read from text. -/
def Neat (t : Ty) : Prop :=
  ∀ name ∈ t.aliases, ' ' ∉ name.toList

instance (t : Ty) : Decidable t.Neat :=
  inferInstanceAs (Decidable (∀ name ∈ t.aliases, ' ' ∉ name.toList))

theorem neat_function {params : List Ty} {result : Ty} :
    (function params result).Neat ↔ (∀ p ∈ params, p.Neat) ∧ result.Neat := by
  simp only [Neat, aliases, List.forall_mem_append, mem_aliasesOf]
  grind

theorem neat_union {id : Nat} {name : String} {options : List Ty} :
    (union id name options).Neat ↔ ∀ o ∈ options, o.Neat := by
  simp only [Neat, aliases, mem_aliasesOf]
  grind

/-- Types without such aliases do not tell templates of one number apart: there is a blank in what
a template is shown as. -/
theorem Neat.equals {g g' : Template} (hserial : g'.serial = g.serial) {t : Ty} (ht : t.Neat) :
    (template g').equals t = (template g).equals t ∧
      t.equals (template g') = t.equals (template g) := by
  have hblank (k : Template) : ' ' ∈ k.shown.toList := by simp [Template.shown]
  refine equals_of_like hserial fun name hname => ⟨fun h => ?_, fun h => ?_⟩
  · exact absurd (h ▸ hblank g') (ht name hname)
  · exact absurd (h ▸ hblank g) (ht name hname)

end Ty

end TypedLisp
