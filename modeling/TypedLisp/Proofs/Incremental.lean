import TypedLisp.Session
import TypedLisp.Proofs.Datum.Grammar
import TypedLisp.Proofs.Log

namespace TypedLisp

namespace Datum

open TypedLisp.Text

theorem Items.append {cs more : List Char} {ds es : List Datum} (h : Items cs ds)
    (hmore : Items more es) (hends : EndsAtom more) : Items (cs ++ more) (ds ++ es) := by
  induction h with
  | nil => exact hmore
  | blank hc _ ih => exact .blank hc ih
  | comment hline _ ih =>
      rw [List.cons_append, List.append_assoc]
      exact .comment hline ih
  | list hinner _ _ ih =>
      rw [List.cons_append, List.append_assoc]
      exact .list hinner ih
  | text hs _ ih =>
      rw [List.cons_append, List.append_assoc]
      exact .text hs ih
  | atom hne hword hd hend _ ih =>
      rw [List.append_assoc]
      exact .atom hne hword hd (endsAtom_iff.mp ((endsAtom_iff.mpr hend).append hends)) ih

theorem Items.source_append {cs more : List Char} {ds es : List Datum} (h : Items cs ds)
    (hmore : Source more es) (hends : EndsAtom more) : Source (cs ++ more) (ds ++ es) := by
  cases hmore with
  | closed hmore => exact .closed (h.append hmore hends)
  | comment hmore hline =>
      rw [← List.append_assoc]
      exact .comment (h.append hmore hends.of_append) hline

/-- A line break ends the comment that a source may end in. -/
theorem Source.append {cs more : List Char} {ds es : List Datum} (h : Source cs ds)
    (hmore : Source more es) : Source (cs ++ '\n' :: more) (ds ++ es) := by
  cases h with
  | closed h =>
      have hrest : Source ('\n' :: more) es := (prepends_blank (by decide) more).source hmore
      exact h.source_append hrest (endsAtom_cons (by decide) _)
  | comment h hline =>
      have hrest := (prepends_comment hline more).source hmore
      rw [List.cons_append, List.append_assoc, List.nil_append] at hrest
      rw [List.append_assoc]
      exact h.source_append hrest (endsAtom_cons (by decide) _)

theorem read_append {source more : String} {ds es : List Datum} (hds : read source = .ok ds)
    (hes : read more = .ok es) : read (source ++ "\n" ++ more) = .ok (ds ++ es) := by
  rw [read_eq_ok_iff] at hds hes ⊢
  have hsource := (source_of_readFrom hds).append (source_of_readFrom hes)
  rw [String.toList_append, String.toList_append, List.append_assoc]
  exact hsource.readFrom

theorem read_variable :
    read "(var x \"a\") ; kept" = .ok [.list [.symbol "var", .symbol "x", .text "a"]] ∧
      read "x" = .ok [.symbol "x"] := by
  have htext : Items "\"a\"".toList [.text "a"] :=
    .text (.plain (by decide) (by decide) .nil) .nil
  have hname : Items "x \"a\"".toList [.symbol "x", .text "a"] :=
    Items.word "x" (by decide) (by decide) rfl (endsAtom_cons (by decide) _)
      (.blank (by decide) htext)
  have hinner : Items "var x \"a\"".toList [.symbol "var", .symbol "x", .text "a"] :=
    Items.word "var" (by decide) (by decide) rfl (endsAtom_cons (by decide) _)
      (.blank (by decide) hname)
  have hline : Source "(var x \"a\") ; kept".toList
      [.list [.symbol "var", .symbol "x", .text "a"]] :=
    .comment (.list hinner (.blank (by decide) .nil)) (by decide)
  have hx : Items "x".toList [.symbol "x"] :=
    Items.word "x" (by decide) (by decide) rfl endsAtom_nil .nil
  exact ⟨read_eq_ok_iff.mpr hline.readFrom, read_eq_ok_iff.mpr (Source.closed hx).readFrom⟩

end Datum

open CheckM

theorem CheckM.checkBlock_append (inBody : Datum → ScopeId → CheckM Ty) (ds : List Datum)
    {es : List Datum} (hes : es ≠ []) (scope : ScopeId) :
    checkBlock inBody (ds ++ es) scope =
      (do let _ ← checkBlock inBody ds scope; checkBlock inBody es scope) := by
  obtain ⟨e, es, rfl⟩ := List.exists_cons_of_ne_nil hes
  induction ds with
  | nil => rw [List.nil_append, checkBlock, pure_bind]
  | cons d ds ih =>
      cases ds with
      | nil => rw [List.singleton_append, checkBlock, checkBlock]
      | cons next ds =>
          rw [List.cons_append, List.cons_append, checkBlock, ← List.cons_append, ih, checkBlock,
            bind_assoc]

theorem IgnoresLog.run_alike {α : Type} {m : CheckM α} (hm : IgnoresLog m) {σ τ σ' : Session}
    {outcome : Except Halt α} (hrun : σ.run m = (outcome, σ')) (hcontext : τ.context = σ.context) :
    ∃ events, τ.run m = (outcome, { σ' with events := events }) := by
  obtain ⟨c, before⟩ := σ
  obtain ⟨c', before'⟩ := τ
  obtain rfl : c' = c := hcontext
  obtain ⟨outcome', after, halike⟩ := hm.alike c'
  obtain ⟨events, hσ⟩ := halike before
  obtain ⟨events', hτ⟩ := halike before'
  obtain ⟨rfl, rfl⟩ := Prod.mk.inj (hσ.symm.trans hrun)
  exact ⟨events', hτ⟩

namespace Session

/-- Check data at top level in turn. -/
abbrev checkTop (ds : List Datum) : CheckM Ty :=
  checkBlock (bodyWithin depthLimit) ds Arena.global

theorem ignoresLog_checkTop (ds : List Datum) : IgnoresLog (checkTop ds) :=
  .checkBlock (.bodyWithin depthLimit) ds _

theorem checkSource_of_read {σ σ' : Session} {source : String} {ds : List Datum}
    {outcome : Except Halt Ty} (hread : Datum.read source = .ok ds)
    (hrun : σ.run (checkTop ds) = (outcome, σ')) :
    ∃ events, σ.checkSource source = (outcome.mapError .halted, { σ' with events := events }) := by
  let started : Session := { σ with events := σ.events.push (.programStarted ds.length) }
  obtain ⟨events, hstarted⟩ : ∃ events, started.run (checkTop ds) =
      (outcome, { σ' with events := events }) := (ignoresLog_checkTop ds).run_alike hrun rfl
  have hprogram : σ.run (checkProgram ds) = (outcome, { σ' with events := events }) :=
    (run_bind_of_ok _ (run_emit σ _)).trans hstarted
  refine ⟨events, ?_⟩
  rw [checkSource, hread]
  simp only [hprogram]

/-- Checking two sources with a line break between them is checking the first and, only if it is
accepted, checking the second in the session that leaves: the answer and the session afterwards are
the same but for the log. If the first is rejected, so is the whole, for the same cause, and the
second has changed nothing. -/
theorem checkSource_append (σ : Session) {source more : String} {ds es : List Datum}
    (hds : Datum.read source = .ok ds) (hes : Datum.read more = .ok es) (hne : es ≠ []) :
    (∀ t σ₁ answer σ₂, σ.checkSource source = (.ok t, σ₁) → σ₁.checkSource more = (answer, σ₂) →
      ∃ events, σ.checkSource (source ++ "\n" ++ more) =
        (answer, { σ₂ with events := events })) ∧
    ∀ e σ₁, σ.checkSource source = (.error e, σ₁) →
      ∃ events, σ.checkSource (source ++ "\n" ++ more) =
        (.error e, { σ₁ with events := events }) := by
  have hread := Datum.read_append hds hes
  have hblock : checkTop (ds ++ es) = (do let _ ← checkTop ds; checkTop es) :=
    checkBlock_append _ ds hne _
  obtain ⟨outcome, front, hfront⟩ : ∃ outcome front, σ.run (checkTop ds) = (outcome, front) :=
    ⟨_, _, rfl⟩
  obtain ⟨logged, hfirst⟩ := checkSource_of_read hds hfront
  rw [hfirst]
  cases outcome with
  | error halt =>
      refine ⟨fun _ _ _ _ hok => (by cases hok), ?_⟩
      intro e σ₁ herror
      obtain ⟨he, rfl⟩ := Prod.mk.inj herror
      have hwhole : σ.run (checkTop (ds ++ es)) = (.error halt, front) := by
        rw [hblock, run_bind_of_error _ hfront]
      obtain ⟨events, hcombined⟩ := checkSource_of_read hread hwhole
      exact ⟨events, hcombined.trans (Prod.ext he rfl)⟩
  | ok t =>
      refine ⟨?_, fun _ _ herror => (by cases herror)⟩
      intro t' σ₁ answer σ₂ hok hsecond
      obtain ⟨-, rfl⟩ := Prod.mk.inj hok
      obtain ⟨outcome, back, hback⟩ : ∃ outcome back, front.run (checkTop es) = (outcome, back) :=
        ⟨_, _, rfl⟩
      have hwhole : σ.run (checkTop (ds ++ es)) = (outcome, back) := by
        rw [hblock, run_bind_of_ok _ hfront, hback]
      obtain ⟨logged', hback'⟩ := (ignoresLog_checkTop es).run_alike
        (τ := { front with events := logged }) hback rfl
      obtain ⟨logged'', hsecond'⟩ := checkSource_of_read hes hback'
      obtain ⟨rfl, rfl⟩ := Prod.mk.inj (hsecond'.symm.trans hsecond)
      obtain ⟨events, hcombined⟩ := checkSource_of_read hread hwhole
      exact ⟨events, hcombined⟩

/-- A variable is declared in a first source, which ends in a comment, and read in a second. -/
theorem checkSource_append_of_variable :
    Datum.read "(var x \"a\") ; kept" = .ok [.list [.symbol "var", .symbol "x", .text "a"]] ∧
    Datum.read "x" = .ok [.symbol "x"] ∧
    ∃ t σ₁ answer σ₂ events,
      checkSource ⟨Context.new {}, #[]⟩ "(var x \"a\") ; kept" = (.ok t, σ₁) ∧
      σ₁.checkSource "x" = (answer, σ₂) ∧
      checkSource ⟨Context.new {}, #[]⟩ ("(var x \"a\") ; kept" ++ "\n" ++ "x") =
        (answer, { σ₂ with events := events }) := by
  obtain ⟨hds, hes⟩ := Datum.read_variable
  have haccepted : (run ⟨Context.new {}, #[]⟩
      (checkTop [.list [.symbol "var", .symbol "x", .text "a"]])).1.toBool = true := by
    decide +kernel
  obtain ⟨t, ht⟩ := exists_ok_of_toBool haccepted
  obtain ⟨logged, hfirst⟩ := checkSource_of_read hds (Prod.ext ht rfl)
  obtain ⟨events, hwhole⟩ := (checkSource_append ⟨Context.new {}, #[]⟩ hds hes (by simp)).1
    t _ _ _ hfirst rfl
  exact ⟨hds, hes, t, _, _, _, events, hfirst, rfl, hwhole⟩

end Session

end TypedLisp
