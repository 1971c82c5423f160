import TypedLisp.Form.Classify

namespace TypedLisp

namespace Form

theorem append_of_splitTypeList {items tail : List Datum} {typeList : Option String}
    (h : splitTypeList items = (typeList, tail)) : listItems typeList ++ tail = items := by
  unfold splitTypeList at h
  split at h
  · split at h
    · obtain ⟨rfl, rfl⟩ := by simpa using h
      rfl
    · obtain ⟨rfl, rfl⟩ := by simpa using h
      rfl
  · obtain ⟨rfl, rfl⟩ := by simpa using h
    rfl

theorem map_toDatum_of_readParams {items : List Datum} {params : List Param}
    (h : readParams items = .ok params) : params.map Param.toDatum = items := by
  fun_induction readParams items generalizing params with
  | case1 =>
      obtain rfl : [] = params := by simpa using h
      rfl
  | case2 n t rest ih =>
      cases hr : readParams rest with
      | error e => simp [hr, bind, Except.bind] at h
      | ok tail =>
          obtain rfl : ⟨n, t⟩ :: tail = params := by simpa [hr, bind, Except.bind] using h
          simp [ih hr, Param.toDatum]
  | case3 => simp at h

theorem map_symbol_of_readOptions {items : List Datum} {options : List String}
    (h : readOptions items = .ok options) : options.map Datum.symbol = items := by
  fun_induction readOptions items generalizing options with
  | case1 =>
      obtain rfl : [] = options := by simpa using h
      rfl
  | case2 s rest ih =>
      cases hr : readOptions rest with
      | error e => simp [hr, bind, Except.bind] at h
      | ok tail =>
          obtain rfl : s :: tail = options := by simpa [hr, bind, Except.bind] using h
          simp [ih hr]
  | case3 => simp at h

theorem symbol_of_symbol? {d : Datum} {s : String} (h : d.symbol? = some s) : d = .symbol s := by
  cases d <;> simp_all [Datum.symbol?]

theorem items_of_functionParts {items : List Datum} {f : FunctionParts}
    (h : functionParts items = .ok f) : f.items = items := by
  unfold functionParts at h
  split at h
  · rename_i params arrow result body
    split at h
    · simp at h
    · rename_i harrow
      have harrow := symbol_of_symbol? (Decidable.not_not.mp harrow)
      split at h
      · rename_i r items
        cases hr : readParams items with
        | error e => simp [hr, bind, Except.bind] at h
        | ok ps =>
            obtain rfl : ⟨ps, r, body⟩ = f := by simpa [hr, bind, Except.bind] using h
            simp [FunctionParts.items, map_toDatum_of_readParams hr, harrow]
      · simp at h
      · simp at h
  · simp at h

theorem toDatum_of_ofKeyword {k : Keyword} {rest : List Datum} {f : Form}
    (h : ofKeyword k rest = .ok f) : f.toDatum = special k rest := by
  cases k with
  | var =>
      simp only [ofKeyword, varForm] at h
      split at h <;> cases h <;> rfl
  | set =>
      simp only [ofKeyword, setForm] at h
      split at h
      · cases h
        rfl
      · split at h
        · rename_i htag
          cases h
          rw [htag]
          rfl
        · simp at h
      · simp at h
      · simp at h
  | begin =>
      cases h
      rfl
  | cond =>
      simp only [ofKeyword, condForm] at h
      split at h <;> cases h
      rfl
  | loop =>
      simp only [ofKeyword, loopForm] at h
      split at h <;> cases h
      rfl
  | define =>
      simp only [ofKeyword, defineForm] at h
      split at h
      · rename_i n rest
        cases hs : splitTypeList rest with
        | mk typeParams tail =>
            cases hp : functionParts tail with
            | error e => simp [hs, hp, bind, Except.bind] at h
            | ok parts =>
                obtain rfl : .define n typeParams parts = f := by
                  simpa [hs, hp, bind, Except.bind] using h
                simp only [toDatum, items_of_functionParts hp, append_of_splitTypeList hs]
      · simp at h
      · simp at h
  | lambda =>
      simp only [ofKeyword, lambdaForm] at h
      cases hs : splitTypeList rest with
      | mk typeParams tail =>
          cases hp : functionParts tail with
          | error e => simp [hs, hp, bind, Except.bind] at h
          | ok parts =>
              obtain rfl : .lambda typeParams parts = f := by
                simpa [hs, hp, bind, Except.bind] using h
              simp only [toDatum, items_of_functionParts hp, append_of_splitTypeList hs]
  | typeDecl =>
      simp only [ofKeyword, typeForm] at h
      split at h
      · cases h
        rfl
      · rename_i n tag option options
        split at h
        · rename_i htag
          cases ho : readOptions (option :: options) with
          | error e => simp [ho, bind, Except.bind] at h
          | ok names =>
              obtain rfl : .typeDecl n (.union names) = f := by
                simpa [ho, bind, Except.bind] using h
              simp only [toDatum, TypeBase.toDatum, map_symbol_of_readOptions ho, htag]
        · simp at h
      · simp at h
      · simp at h
      · simp at h
  | classDecl =>
      simp only [ofKeyword, classForm] at h
      split at h <;> cases h
      rfl
  | new =>
      simp only [ofKeyword, newForm] at h
      split at h <;> cases h
      rfl
  | super =>
      simp only [ofKeyword, superForm] at h
      split at h <;> cases h
      rfl
  | prop =>
      simp only [ofKeyword, propForm] at h
      split at h <;> cases h
      rfl
  | or => simp [ofKeyword] at h
  | arrow => simp [ofKeyword] at h

theorem toDatum_plainCall (head : Datum) (rest : List Datum) :
    (plainCall head rest).toDatum = .list (head :: rest) := by
  cases hs : splitTypeList rest with
  | mk typeArgs args => simp only [plainCall, hs, toDatum, append_of_splitTypeList hs]

theorem toDatum_of_ofTagged {tag : String} {rest : List Datum} {f : Form}
    (h : ofTagged tag rest = .ok f) : f.toDatum = .list (.symbol tag :: rest) := by
  unfold ofTagged at h
  split at h
  · rename_i op hop
    cases h
    rw [toDatum, Operator.text_of_ofText? hop]
  · split at h
    · rename_i k hk
      cases hf : ofKeyword k rest with
      | error e =>
          rw [hf] at h
          cases h
      | ok g =>
          rw [hf] at h
          cases h
          rw [toDatum_of_ofKeyword hf, special, Keyword.text_of_ofText? hk]
    · split at h
      · rename_i n typeArgs hs
        cases h
        rw [toDatum, Word.append_of_splitFused? hs]
      · cases h
        exact toDatum_plainCall _ _

theorem toDatum_of_classify {d : Datum} {f : Form} (h : classify d = .ok f) : f.toDatum = d := by
  unfold classify at h
  split at h
  · cases h
    rfl
  · cases h
    rfl
  · cases h
    rfl
  · cases h
    rfl
  · simp at h
  · exact toDatum_of_ofTagged h
  · cases h
    exact toDatum_plainCall _ _

theorem readParams_map_toDatum (params : List Param) :
    readParams (params.map Param.toDatum) = .ok params := by
  induction params with
  | nil => rfl
  | cons p params ih =>
      rw [List.map_cons, Param.toDatum, readParams, ih]
      rfl

theorem functionParts_items (parts : FunctionParts) : functionParts parts.items = .ok parts := by
  show (do
    let params ← readParams (parts.params.map Param.toDatum)
    Except.ok (FunctionParts.mk params parts.resultText parts.body)) = .ok parts
  rw [readParams_map_toDatum]
  rfl

theorem sizeOf_lt_of_classify {d p : Datum} {f : Form} (h : classify d = .ok f)
    (hp : p ∈ f.parts) : sizeOf p < sizeOf d := by
  rw [← toDatum_of_classify h]
  exact sizeOf_lt_of_mem_parts hp

theorem sizeOf_rest_lt_of_classify {d : Datum} {f : Form} (h : classify d = .ok f) :
    sizeOf f.rest < sizeOf d := by
  rw [← toDatum_of_classify h]
  exact sizeOf_rest_lt f

end Form

end TypedLisp
