import Mathlib.Data.List.TakeWhile
import TypedLisp.Form.Writing

namespace TypedLisp

open TypeExpr (isTypeList)

section Words

theorem TypeExpr.isTypeList_iff {text : String} : isTypeList text = true ↔
    ∃ inner : List Char, inner ≠ [] ∧ text.toList = '<' :: (inner ++ ['>']) := by
  simp only [isTypeList, Bool.and_eq_true, decide_eq_true_eq, beq_iff_eq]
  constructor
  · rintro ⟨⟨hlength, hfirst⟩, hlast⟩
    cases htext : text.toList with
    | nil => simp [htext] at hfirst
    | cons c rest =>
        obtain rfl : c = '<' := by simpa [htext] using hfirst
        rcases List.eq_nil_or_concat rest with rfl | ⟨inner, d, rfl⟩
        · simp [htext] at hlength
        · obtain rfl : d = '>' := by simpa [htext, List.getLast?_cons] using hlast
          refine ⟨inner, ?_, by rw [List.concat_eq_append]⟩
          rintro rfl
          simp [htext] at hlength
  · rintro ⟨inner, hinner, htext⟩
    have := List.length_pos_iff.mpr hinner
    simp only [htext, List.length_cons, List.length_append, List.length_nil, List.head?_cons]
    refine ⟨⟨by omega, trivial⟩, ?_⟩
    rw [← List.cons_append, List.getLast?_concat]

theorem find?_text_eq_none_iff {κ : Type} {all : List κ} (hall : ∀ k, k ∈ all) {text : κ → String}
    {s : String} : (all.find? fun k => text k == s) = none ↔ ∀ k, text k ≠ s := by
  rw [List.find?_eq_none]
  exact ⟨fun h k hk => h k (hall k) (beq_iff_eq.mpr hk), fun h k _ hk => h k (beq_iff_eq.mp hk)⟩

theorem Operator.ofText?_eq_none_iff {s : String} :
    ofText? s = none ↔ ∀ op : Operator, op.text ≠ s :=
  find?_text_eq_none_iff fun op => by cases op <;> decide

theorem Operator.ofText?_text (op : Operator) : ofText? op.text = some op := by
  cases op <;> rfl

theorem Keyword.ofText?_eq_none_iff {s : String} :
    ofText? s = none ↔ ∀ k : Keyword, k.text ≠ s :=
  find?_text_eq_none_iff fun k => by cases k <;> decide

namespace Word

/-- A name that a type list can be fused onto. -/
structure Fuses (name list : String) : Prop where
  nonempty : name ≠ ""
  plain : '<' ∉ name.toList
  bracketed : isTypeList list = true

theorem splitFused?_eq_some_iff {s name list : String} :
    splitFused? s = some (name, list) ↔ Fuses name list ∧ name ++ list = s := by
  constructor
  · intro h
    refine ⟨?_, append_of_splitFused? h⟩
    simp only [splitFused?] at h
    split at h
    · next hsplit =>
        obtain ⟨rfl, rfl⟩ := by simpa using h
        refine ⟨by simpa using hsplit.1, fun hopen => ?_, hsplit.2⟩
        rw [String.toList_ofList] at hopen
        simpa using List.mem_takeWhile_imp hopen
    · cases h
  · rintro ⟨⟨hname, hplain, hlist⟩, rfl⟩
    obtain ⟨inner, -, htext⟩ := TypeExpr.isTypeList_iff.mp hlist
    have hother : ∀ c ∈ name.toList, (c != '<') = true := by
      intro c hc
      rw [bne_iff_ne]
      rintro rfl
      exact hplain hc
    have hbefore : (name ++ list).toList.takeWhile (· != '<') = name.toList := by
      rw [String.toList_append, htext, List.takeWhile_append_of_pos hother,
        List.takeWhile_cons_of_neg (by simp), List.append_nil]
    have hfrom : (name ++ list).toList.dropWhile (· != '<') = list.toList := by
      rw [String.toList_append, htext, List.dropWhile_append_of_pos hother,
        List.dropWhile_cons_of_neg (by simp)]
    simp only [splitFused?, hbefore, hfrom, String.ofList_toList]
    exact if_pos ⟨by simpa using hname, hlist⟩

namespace Fuses

variable {name list : String} (h : Fuses name list)

include h

theorem mem_toList : '<' ∈ (name ++ list).toList := by
  obtain ⟨inner, -, htext⟩ := TypeExpr.isTypeList_iff.mp h.bracketed
  rw [String.toList_append, htext]
  simp

theorem ofText?_operator : Operator.ofText? (name ++ list) = none := by
  -- Operators have at most two characters, and the list alone has more.
  refine Operator.ofText?_eq_none_iff.mpr fun op hop => ?_
  have hshort : op.text.toList.length ≤ 2 := by cases op <;> decide
  obtain ⟨inner, hinner, htext⟩ := TypeExpr.isTypeList_iff.mp h.bracketed
  have := List.length_pos_iff.mpr hinner
  rw [hop, String.toList_append, htext] at hshort
  simp only [List.length_append, List.length_cons, List.length_nil] at hshort
  omega

theorem ofText?_keyword : Keyword.ofText? (name ++ list) = none := by
  -- The list brings in a bracket, which no keyword has.
  refine Keyword.ofText?_eq_none_iff.mpr fun k hk => ?_
  have hplain : '<' ∉ k.text.toList := by cases k <;> decide
  exact hplain (hk ▸ h.mem_toList)

end Fuses

end Word

end Words

/-- A datum that can head a plain call: no operator, no keyword, and no name with a type list fused
onto it. -/
def Datum.HeadsCall : Datum → Prop
  | .symbol tag => (∀ op : Operator, op.text ≠ tag) ∧ (∀ k : Keyword, k.text ≠ tag) ∧
      ∀ name list, Word.Fuses name list → name ++ list ≠ tag
  | _ => True

theorem Datum.headsCall_symbol_iff {tag : String} : (Datum.symbol tag).HeadsCall ↔
    Operator.ofText? tag = none ∧ Keyword.ofText? tag = none ∧ Word.splitFused? tag = none := by
  rw [Operator.ofText?_eq_none_iff, Keyword.ofText?_eq_none_iff, HeadsCall]
  refine and_congr_right fun _ => and_congr_right fun _ => ?_
  rw [Option.eq_none_iff_forall_ne_some, Prod.forall]
  refine forall_congr' fun name => forall_congr' fun list => ?_
  rw [ne_eq, ne_eq, Word.splitFused?_eq_some_iff, not_and]

namespace Form

/-- Items can follow a type list, or no type list, and are told from it: a type list has brackets,
and if there is none the first item is not one. -/
def Told (typeList : Option String) (rest : List Datum) : Prop :=
  match typeList with
  | some list => isTypeList list = true
  | none => ∀ text, rest.head? = some (.symbol text) → isTypeList text = false

theorem splitTypeList_eq_iff {items rest : List Datum} {typeList : Option String} :
    splitTypeList items = (typeList, rest) ↔
      Told typeList rest ∧ listItems typeList ++ rest = items := by
  constructor
  · intro h
    refine ⟨?_, append_of_splitTypeList h⟩
    unfold splitTypeList at h
    split at h
    · split at h
      · next hlist =>
          obtain ⟨rfl, rfl⟩ := Prod.mk.inj h
          exact hlist
      · next hlist =>
          obtain ⟨rfl, rfl⟩ := Prod.mk.inj h
          rintro text ⟨⟩
          exact Bool.eq_false_iff.mpr hlist
    · next hhead =>
        obtain ⟨rfl, rfl⟩ := Prod.mk.inj h
        intro text htext
        obtain ⟨tail, rfl⟩ := List.head?_eq_some_iff.mp htext
        exact absurd rfl (hhead text tail)
  · rintro ⟨htold, rfl⟩
    cases typeList with
    | some list => exact if_pos htold
    | none =>
        show splitTypeList rest = (none, rest)
        unfold splitTypeList
        split
        · next text tail => rw [if_neg (Bool.eq_false_iff.mp (htold text rfl))]
        · rfl

/-- The forms that data are sorted into. -/
def WellShaped : Form → Prop
  | .define _ typeParams _ | .lambda typeParams _ => ∀ list ∈ typeParams, isTypeList list = true
  | .typeDecl _ (.union options) => options ≠ []
  | .call (.plain head typeArgs) args => head.HeadsCall ∧ Told typeArgs args
  | .call (.fused n list) _ => Word.Fuses n list
  | _ => True

theorem wellShaped_of_ofKeyword {k : Keyword} {rest : List Datum} {f : Form}
    (h : ofKeyword k rest = .ok f) : f.WellShaped := by
  have hlists {items tail : List Datum} {typeParams : Option String}
      (hs : splitTypeList items = (typeParams, tail)) :
      ∀ list ∈ typeParams, isTypeList list = true := by
    rintro list rfl
    exact (splitTypeList_eq_iff.mp hs).1
  cases k with
  | var =>
      simp only [ofKeyword, varForm] at h
      split at h <;> cases h <;> trivial
  | set =>
      simp only [ofKeyword, setForm] at h
      split at h
      · cases h
        trivial
      · split at h <;> cases h
        trivial
      · cases h
      · cases h
  | begin =>
      cases h
      trivial
  | cond =>
      simp only [ofKeyword, condForm] at h
      split at h <;> cases h
      trivial
  | loop =>
      simp only [ofKeyword, loopForm] at h
      split at h <;> cases h
      trivial
  | define =>
      simp only [ofKeyword, defineForm] at h
      split at h
      · next n rest =>
          rcases hs : splitTypeList rest with ⟨typeParams, tail⟩
          cases hp : functionParts tail with
          | error e => simp [hs, hp, bind, Except.bind] at h
          | ok parts =>
              obtain rfl : .define n typeParams parts = f := by
                simpa [hs, hp, bind, Except.bind] using h
              exact hlists hs
      · cases h
      · cases h
  | lambda =>
      simp only [ofKeyword, lambdaForm] at h
      rcases hs : splitTypeList rest with ⟨typeParams, tail⟩
      cases hp : functionParts tail with
      | error e => simp [hs, hp, bind, Except.bind] at h
      | ok parts =>
          obtain rfl : .lambda typeParams parts = f := by
            simpa [hs, hp, bind, Except.bind] using h
          exact hlists hs
  | typeDecl =>
      simp only [ofKeyword, typeForm] at h
      split at h
      · cases h
        trivial
      · next n tag option options =>
          split at h
          · cases ho : readOptions (option :: options) with
            | error e => simp [ho, bind, Except.bind] at h
            | ok names =>
                obtain rfl : .typeDecl n (.union names) = f := by
                  simpa [ho, bind, Except.bind] using h
                rintro rfl
                cases map_symbol_of_readOptions ho
          · cases h
      · cases h
      · cases h
      · cases h
  | classDecl =>
      simp only [ofKeyword, classForm] at h
      split at h <;> cases h
      trivial
  | new =>
      simp only [ofKeyword, newForm] at h
      split at h <;> cases h
      trivial
  | super =>
      simp only [ofKeyword, superForm] at h
      split at h <;> cases h
      trivial
  | prop =>
      simp only [ofKeyword, propForm] at h
      split at h <;> cases h
      trivial
  | or => cases h
  | arrow => cases h

theorem wellShaped_plainCall {head : Datum} (hhead : head.HeadsCall) (rest : List Datum) :
    (plainCall head rest).WellShaped := by
  rcases hs : splitTypeList rest with ⟨typeArgs, args⟩
  simp only [plainCall, hs]
  exact ⟨hhead, (splitTypeList_eq_iff.mp hs).1⟩

theorem wellShaped_of_classify {d : Datum} {f : Form} (h : classify d = .ok f) :
    f.WellShaped := by
  unfold classify at h
  split at h
  · cases h
    trivial
  · cases h
    trivial
  · cases h
    trivial
  · cases h
    trivial
  · cases h
  · next tag rest =>
      unfold ofTagged at h
      split at h
      · cases h
        trivial
      · next hoperator =>
          split at h
          · next k hk =>
              cases hf : ofKeyword k rest with
              | error e =>
                  rw [hf] at h
                  cases h
              | ok g =>
                  rw [hf] at h
                  cases h
                  exact wellShaped_of_ofKeyword hf
          · next hkeyword =>
              split at h
              · next n list hs =>
                  cases h
                  exact (Word.splitFused?_eq_some_iff.mp hs).1
              · next hfused =>
                  cases h
                  exact wellShaped_plainCall
                    (Datum.headsCall_symbol_iff.mpr ⟨hoperator, hkeyword, hfused⟩) rest
  · next head rest hhead =>
      cases h
      refine wellShaped_plainCall ?_ rest
      cases head with
      | symbol tag => exact absurd rfl (hhead tag)
      | number | text | boolean | list => trivial

theorem classify_special (k : Keyword) (items : List Datum) :
    classify (special k items) = (ofKeyword k items).mapError (Misshapen.mk k.text) := by
  cases k <;> rfl

theorem readOptions_map_symbol (options : List String) :
    readOptions (options.map Datum.symbol) = .ok options := by
  induction options with
  | nil => rfl
  | cons option options ih =>
      rw [List.map_cons, readOptions, ih]
      rfl

theorem splitTypeList_items {typeParams : Option String}
    (h : ∀ list ∈ typeParams, isTypeList list = true) (f : FunctionParts) :
    splitTypeList (listItems typeParams ++ f.items) = (typeParams, f.items) := by
  refine splitTypeList_eq_iff.mpr ⟨?_, rfl⟩
  cases typeParams with
  | some list => exact h list rfl
  | none =>
      rintro text ⟨⟩

theorem plainCall_listItems {typeArgs : Option String} {args : List Datum}
    (h : Told typeArgs args) (head : Datum) :
    plainCall head (listItems typeArgs ++ args) = .call (.plain head typeArgs) args := by
  simp only [plainCall, splitTypeList_eq_iff.mpr ⟨h, rfl⟩]

theorem classify_toDatum {f : Form} (h : f.WellShaped) : classify f.toDatum = .ok f := by
  cases f with
  | number | text | boolean | name => rfl
  | binary op operands =>
      show ofTagged op.text operands = _
      rw [ofTagged, Operator.ofText?_text]
  | var n typeText value => cases typeText <;> rfl
  | assign target value => cases target <;> rfl
  | block | cond | loop | classDecl | new | super | prop => rfl
  | define n typeParams f =>
      rw [toDatum, classify_special, ofKeyword, defineForm, splitTypeList_items h]
      simp only [functionParts_items]
      rfl
  | lambda typeParams f =>
      rw [toDatum, classify_special, ofKeyword, lambdaForm, splitTypeList_items h]
      simp only [functionParts_items]
      rfl
  | typeDecl n base =>
      cases base with
      | aliasOf text => rfl
      | union options =>
          obtain ⟨option, options, rfl⟩ := List.exists_cons_of_ne_nil h
          have hoptions := readOptions_map_symbol (option :: options)
          rw [List.map_cons] at hoptions
          rw [toDatum, classify_special, TypeBase.toDatum, List.map_cons, ofKeyword, typeForm,
            if_pos rfl, hoptions]
          rfl
  | call callee args =>
      cases callee with
      | plain head typeArgs =>
          obtain ⟨hhead, htold⟩ := h
          have hcall := plainCall_listItems htold head
          cases head with
          | symbol tag =>
              obtain ⟨hoperator, hkeyword, hfused⟩ := Datum.headsCall_symbol_iff.mp hhead
              rw [toDatum, classify, ofTagged, hoperator, hkeyword, hfused]
              exact congrArg _ hcall
          | number | text | boolean | list => exact congrArg _ hcall
      | fused n list =>
          rw [toDatum, classify, ofTagged, h.ofText?_operator, h.ofText?_keyword,
            Word.splitFused?_eq_some_iff.mpr ⟨h, rfl⟩]

theorem classify_eq_ok_iff {d : Datum} {f : Form} :
    classify d = .ok f ↔ f.WellShaped ∧ f.toDatum = d := by
  constructor
  · exact fun h => ⟨wellShaped_of_classify h, toDatum_of_classify h⟩
  · rintro ⟨hshape, rfl⟩
    exact classify_toDatum hshape

/-- A list is sorted into a form just if the form is well shaped and its words, names, type lists and
parts, in their order, are the list again. So no two lists are sorted into one form. -/
theorem classification_lossless (items : List Datum) :
    (∀ f, classify (.list items) = .ok f ↔ f.WellShaped ∧ f.toDatum = .list items) ∧
    ∀ others f, classify (.list items) = .ok f → classify (.list others) = .ok f →
      others = items := by
  refine ⟨fun f => classify_eq_ok_iff, fun others f hitems hothers => ?_⟩
  exact Datum.list.inj ((toDatum_of_classify hothers).symm.trans (toDatum_of_classify hitems))

/-- A call with the type list fused onto the name is not sorted into the form of the call with the
list by itself. -/
theorem classification_lossless_of_spellings :
    (Form.call (.fused "id" "<number>") [.text "x"]).WellShaped ∧
      classify (.list [.symbol "id<number>", .text "x"]) =
        .ok (.call (.fused "id" "<number>") [.text "x"]) ∧
      classify (.list [.symbol "id", .symbol "<number>", .text "x"]) ≠
        .ok (.call (.fused "id" "<number>") [.text "x"]) := by
  have hshape : (Form.call (.fused "id" "<number>") [.text "x"]).WellShaped :=
    Word.Fuses.mk (by decide) (by decide) (by decide)
  obtain ⟨hsorted, hunique⟩ := classification_lossless [.symbol "id<number>", .text "x"]
  have hfused := (hsorted _).mpr ⟨hshape, rfl⟩
  exact ⟨hshape, hfused, fun hplain => by simpa using hunique _ _ hfused hplain⟩

end Form

end TypedLisp
