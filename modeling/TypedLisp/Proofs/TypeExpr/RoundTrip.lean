import TypedLisp.TypeExpr.Parser

namespace TypedLisp.TypeExpr

open TypedLisp.Text

/-- A text that is read as one token. -/
def IsWord (text : String) : Prop :=
  text.toList ≠ [] ∧ ∀ c ∈ text.toList, isNameChar c = true

def IsName (name : String) : Prop :=
  IsWord name ∧ name ≠ "Fn"

inductive WellNamed : TypeExpr → Prop where
  | named {name : String} (h : IsName name) : WellNamed (.named name)
  | function {params : List TypeExpr} {result : TypeExpr}
      (hparams : ∀ p ∈ params, WellNamed p) (hresult : WellNamed result) :
      WellNamed (.function params result)

mutual

/-- The tokens that an expression is written with. -/
def written : TypeExpr → List Token
  | named name => [.name name]
  | function [] result => .name "Fn" :: .opening :: (written result ++ [.closing])
  | function (p :: params) result =>
      .name "Fn" :: .opening :: (written result ++
        .opening :: (written p ++ (writtenMore params ++ [.closing, .closing])))

def writtenMore : List TypeExpr → List Token
  | [] => []
  | t :: ts => .comma :: (written t ++ writtenMore ts)

end

theorem isNameChar_of_isMark {c : Char} (h : isMark c = true) : isNameChar c = false := by
  simp [isNameChar, h]

/-- What follows does not continue a name. -/
def EndsName (rest : List Char) : Prop :=
  rest.takeWhile isNameChar = []

theorem endsName_nil : EndsName [] := rfl

theorem endsName_cons {c : Char} {rest : List Char} (h : isMark c = true) : EndsName (c :: rest) := by
  simp [EndsName, isNameChar_of_isMark h]

theorem tokens_mark {c : Char} (h : isMark c = true) (rest : List Char) :
    tokens (c :: rest) =
      (if c = '<' then .opening else if c = '>' then .closing else .comma) :: tokens rest := by
  have hblank : isBlank c = false := by
    simp only [isMark, Bool.or_eq_true, beq_iff_eq] at h
    rcases h with (rfl | rfl) | rfl <;> decide
  rw [tokens]
  simp only [hblank, Bool.false_eq_true, if_false]
  by_cases hopening : c = '<'
  · simp [hopening]
  · by_cases hclosing : c = '>'
    · simp [hclosing]
    · have hcomma : c = ',' := by simpa [isMark, hopening, hclosing] using h
      simp [hcomma]

theorem tokens_word {word : String} (h : IsWord word) {rest : List Char} (hrest : EndsName rest) :
    tokens (word.toList ++ rest) = .name word :: tokens rest := by
  obtain ⟨hne, hchars⟩ := h
  obtain ⟨c, cs, hcs⟩ := List.exists_cons_of_ne_nil hne
  have hc : isNameChar c = true := hchars c (by simp [hcs])
  have hcs' : ∀ a ∈ cs, isNameChar a = true := fun a ha => hchars a (by simp [hcs, ha])
  have hblank : isBlank c = false := by
    simp only [isNameChar, Bool.not_eq_true', Bool.or_eq_false_iff] at hc
    exact hc.1
  have hmark : isMark c = false := by
    simp only [isNameChar, Bool.not_eq_true', Bool.or_eq_false_iff] at hc
    exact hc.2
  simp only [isMark, Bool.or_eq_false_iff, beq_eq_false_iff_ne] at hmark
  have htake : (cs ++ rest).takeWhile isNameChar = cs := by
    rw [List.takeWhile_append_of_pos hcs', hrest, List.append_nil]
  have hdrop : (cs ++ rest).dropWhile isNameChar = rest := by
    rw [List.dropWhile_append_of_pos hcs']
    have happend := List.takeWhile_append_dropWhile (p := isNameChar) (l := rest)
    rwa [hrest, List.nil_append] at happend
  rw [hcs, List.cons_append, tokens]
  simp only [hblank, Bool.false_eq_true, if_false, hmark.1.1, hmark.1.2, hmark.2, htake, hdrop]
  rw [← hcs, String.ofList_toList]

theorem tokens_fn (rest : List Char) :
    tokens ("Fn<".toList ++ rest) = .name "Fn" :: .opening :: tokens rest := by
  have hword : IsWord "Fn" := ⟨by decide, List.all_eq_true.mp (by decide)⟩
  have hmark : isMark '<' = true := by decide
  have hsplit : "Fn<".toList ++ rest = "Fn".toList ++ '<' :: rest := rfl
  rw [hsplit, tokens_word hword (endsName_cons hmark), tokens_mark hmark, if_pos rfl]

theorem toList_intercalate_cons (x : String) (xs : List String) :
    (String.intercalate "," (x :: xs)).toList = x.toList ++ xs.flatMap fun y => ',' :: y.toList := by
  induction xs generalizing x with
  | nil => simp
  | cons y ys ih =>
      rw [String.intercalate_cons_cons, String.toList_append, String.toList_append, ih y]
      simp

theorem toList_shown_function_nil (result : TypeExpr) :
    (function [] result).shown.toList = "Fn<".toList ++ (result.shown.toList ++ ['>']) := by
  rw [shown, shownEach, functionText, String.toList_append, String.toList_append, List.append_assoc]
  rfl

theorem toList_shown_function_cons (p : TypeExpr) (params : List TypeExpr) (result : TypeExpr) :
    (function (p :: params) result).shown.toList =
      "Fn<".toList ++ (result.shown.toList ++ '<' :: (p.shown.toList ++
        (((params.map shown).flatMap fun y => ',' :: y.toList) ++ ['>', '>']))) := by
  rw [shown, shownEach_eq_map, List.map_cons, functionText]
  simp only [String.toList_append, toList_intercalate_cons, List.append_assoc]
  rfl

theorem tokens_shown {t : TypeExpr} (h : WellNamed t) {rest : List Char} (hrest : EndsName rest) :
    tokens (t.shown.toList ++ rest) = t.written ++ tokens rest := by
  induction h generalizing rest with
  | named hname => exact tokens_word hname.1 hrest
  | @function params result _ _ ihparams ihresult =>
      have hopening : isMark '<' = true := by decide
      have hclosing : isMark '>' = true := by decide
      have hcomma : isMark ',' = true := by decide
      cases params with
      | nil =>
          rw [toList_shown_function_nil]
          simp only [List.append_assoc, List.cons_append, List.nil_append]
          rw [tokens_fn, ihresult (endsName_cons hclosing), tokens_mark hclosing]
          simp [written]
      | cons p params =>
          -- The items after the first, each behind its comma.
          have hmore (ts : List TypeExpr) (hts : ∀ t ∈ ts, t ∈ params) {rest : List Char}
              (hrest : EndsName rest) :
              EndsName (((ts.map shown).flatMap fun y => ',' :: y.toList) ++ rest) ∧
                tokens (((ts.map shown).flatMap fun y => ',' :: y.toList) ++ rest) =
                  writtenMore ts ++ tokens rest := by
            induction ts with
            | nil => exact ⟨hrest, rfl⟩
            | cons t ts ih =>
                obtain ⟨hends, htokens⟩ := ih fun t ht => hts t (List.mem_cons_of_mem _ ht)
                have hitem := ihparams t (List.mem_cons_of_mem _ (hts t (by simp))) hends
                refine ⟨endsName_cons hcomma, ?_⟩
                rw [List.map_cons, List.flatMap_cons, List.append_assoc, List.cons_append,
                  tokens_mark hcomma, hitem, htokens]
                simp [writtenMore]
          obtain ⟨hends, htokens⟩ := hmore params (fun _ ht => ht)
            (show EndsName ('>' :: '>' :: rest) from endsName_cons hclosing)
          have hfirst := ihparams p (by simp) hends
          rw [toList_shown_function_cons]
          simp only [List.append_assoc, List.cons_append, List.nil_append]
          rw [tokens_fn, ihresult (endsName_cons hopening), tokens_mark hopening, hfirst, htokens,
            tokens_mark hclosing, tokens_mark hclosing]
          simp [written]

theorem readTokens_writtenMore (result : TypeExpr) (frames : List Frame) (rest : List Token)
    (ts : List TypeExpr) (hts : ∀ t ∈ ts, ∀ (frames : List Frame) (rest : List Token),
      readTokens .start frames (t.written ++ rest) = readTokens (.whole t) frames rest)
    (t : TypeExpr) (before : List TypeExpr) :
    readTokens (.whole t) (.params result before :: frames)
        (writtenMore ts ++ .closing :: .closing :: rest) =
      readTokens (.whole (function (before ++ t :: ts) result)) frames rest := by
  induction ts generalizing t before with
  | nil => rw [writtenMore, List.nil_append, readTokens, readTokens]
  | cons u ts ih =>
      rw [writtenMore, List.cons_append, List.append_assoc, readTokens, hts u (by simp),
        ih fun v hv => hts v (List.mem_cons_of_mem _ hv)]
      rw [List.append_assoc, List.singleton_append]

theorem readTokens_written {t : TypeExpr} (h : WellNamed t) (frames : List Frame)
    (rest : List Token) :
    readTokens .start frames (t.written ++ rest) = readTokens (.whole t) frames rest := by
  induction h generalizing frames rest with
  | @named name hname =>
      rw [written, List.singleton_append, readTokens, if_neg hname.2]
  | @function params result _ _ ihparams ihresult =>
      cases params with
      | nil =>
          simp only [written, List.cons_append, List.append_assoc, List.nil_append]
          rw [readTokens, if_pos rfl, readTokens, ihresult, readTokens]
      | cons p params =>
          simp only [written, List.cons_append, List.append_assoc, List.nil_append]
          rw [readTokens, if_pos rfl, readTokens, ihresult, readTokens, ihparams p (by simp)]
          exact readTokens_writtenMore result frames rest params
            (fun t ht => ihparams t (by simp [ht])) p []

theorem ofTokens_written {t : TypeExpr} (h : WellNamed t) : ofTokens t.written = .ok t := by
  have hend : readTokens (.whole t) [] [] = .ok ([t], []) := by rw [readTokens]
  have hread := readTokens_written h [] []
  rw [List.append_nil, hend] at hread
  rw [ofTokens, hread]

theorem parse_of_ofTokens {text : String} {t : TypeExpr}
    (h : ofTokens (tokens text.toList) = .ok t) : parse text = .ok t := by
  rw [parse, h]
  rfl

theorem parse_shown {t : TypeExpr} (h : WellNamed t) : parse t.shown = .ok t := by
  have htokens : tokens t.shown.toList = t.written := by
    have := tokens_shown h endsName_nil
    rwa [List.append_nil, tokens, List.append_nil] at this
  exact parse_of_ofTokens (by rw [htokens, ofTokens_written h])

theorem shown_injective {t u : TypeExpr} (ht : WellNamed t) (hu : WellNamed u)
    (h : t.shown = u.shown) : t = u := by
  have hparse := parse_shown ht
  rw [h, parse_shown hu] at hparse
  exact (Except.ok.inj hparse).symm

theorem isWord_of_mem_tokens {cs : List Char} {word : String} (h : .name word ∈ tokens cs) :
    IsWord word := by
  fun_induction tokens cs with
  | case1 => simp at h
  | case2 c cs hblank ih => exact ih h
  | case3 cs hblank ih => exact ih (by simpa using h)
  | case4 cs hblank hopening ih => exact ih (by simpa using h)
  | case5 cs hblank hopening hclosing ih => exact ih (by simpa using h)
  | case6 c cs hblank hopening hclosing hcomma ih =>
      rcases List.mem_cons.mp h with h | h
      · obtain rfl := Token.name.inj h
        rw [IsWord, String.toList_ofList]
        refine ⟨List.cons_ne_nil _ _, ?_⟩
        intro a ha
        rcases List.mem_cons.mp ha with rfl | ha
        · simp [isNameChar, isMark, hblank, hopening, hclosing, hcomma]
        · exact List.all_eq_true.mp List.all_takeWhile a ha
      · exact ih h

/-- The expressions held by a construct that is still open. -/
def Frame.WellNamed : Frame → Prop
  | .result => True
  | .params r before => r.WellNamed ∧ ∀ t ∈ before, t.WellNamed
  | .items before => ∀ t ∈ before, t.WellNamed

def Point.WellNamed : Point → Prop
  | .start | .word => True
  | .whole t | .listed t => t.WellNamed

theorem forall_mem_concat {before : List TypeExpr} {t : TypeExpr}
    (hbefore : ∀ u ∈ before, u.WellNamed) (ht : t.WellNamed) :
    ∀ u ∈ before ++ [t], u.WellNamed := by
  intro u hu
  rcases List.mem_append.mp hu with hu | hu
  · exact hbefore u hu
  · rwa [List.mem_singleton.mp hu]

theorem wellNamed_of_readTokens {point : Point} {frames : List Frame} {ts rest : List Token}
    {items : List TypeExpr} (h : readTokens point frames ts = .ok (items, rest))
    (hpoint : point.WellNamed) (hframes : ∀ f ∈ frames, f.WellNamed)
    (hts : ∀ word, .name word ∈ ts → IsWord word) : ∀ t ∈ items, t.WellNamed := by
  fun_induction readTokens point frames ts with
  | case1 frames ts ih =>
      exact ih h trivial hframes fun w hw => hts w (List.mem_cons_of_mem _ hw)
  | case2 frames n ts hn ih =>
      exact ih h (.named ⟨hts n (by simp), hn⟩) hframes fun w hw => hts w (List.mem_cons_of_mem _ hw)
  | case4 frames ts ih =>
      refine ih h trivial ?_ fun w hw => hts w (List.mem_cons_of_mem _ hw)
      exact List.forall_mem_cons.mpr ⟨trivial, hframes⟩
  | case6 t frames ts ih =>
      exact ih h hpoint hframes fun w hw => hts w (List.mem_cons_of_mem _ hw)
  | case8 t ts =>
      obtain ⟨rfl, rfl⟩ := Prod.mk.inj (Except.ok.inj h)
      exact List.forall_mem_singleton.mpr hpoint
  | case9 t frames ts ih =>
      refine ih h trivial ?_ fun w hw => hts w (List.mem_cons_of_mem _ hw)
      exact List.forall_mem_cons.mpr ⟨⟨hpoint, by simp⟩, (List.forall_mem_cons.mp hframes).2⟩
  | case10 t frames ts ih =>
      exact ih h (.function (by simp) hpoint) (List.forall_mem_cons.mp hframes).2
        fun w hw => hts w (List.mem_cons_of_mem _ hw)
  | case12 t r before frames ts ih =>
      obtain ⟨⟨hresult, hbefore⟩, hframes⟩ := List.forall_mem_cons.mp hframes
      refine ih h trivial ?_ fun w hw => hts w (List.mem_cons_of_mem _ hw)
      exact List.forall_mem_cons.mpr ⟨⟨hresult, forall_mem_concat hbefore hpoint⟩, hframes⟩
  | case13 t r before frames ts ih =>
      obtain ⟨⟨hresult, hbefore⟩, hframes⟩ := List.forall_mem_cons.mp hframes
      exact ih h (.function (forall_mem_concat hbefore hpoint) hresult) hframes
        fun w hw => hts w (List.mem_cons_of_mem _ hw)
  | case15 t before frames ts ih =>
      obtain ⟨hbefore, hframes⟩ := List.forall_mem_cons.mp hframes
      refine ih h trivial ?_ fun w hw => hts w (List.mem_cons_of_mem _ hw)
      exact List.forall_mem_cons.mpr ⟨forall_mem_concat hbefore hpoint, hframes⟩
  | case16 t before frames ts =>
      obtain ⟨rfl, rfl⟩ := Prod.mk.inj (Except.ok.inj h)
      exact forall_mem_concat (List.forall_mem_cons.mp hframes).1 hpoint
  | _ => cases h

theorem wellNamed_of_parse {text : String} {t : TypeExpr} (h : parse text = .ok t) :
    t.WellNamed := by
  rw [parse, ofTokens] at h
  split at h
  · cases h
  · next u hread =>
      obtain rfl := Except.ok.inj h
      exact wellNamed_of_readTokens hread trivial (by simp) (fun _ => isWord_of_mem_tokens) u
        (by simp)
  · cases h

theorem wellNamed_of_parseList {text : String} {ts : List TypeExpr}
    (h : parseList? text = some (.ok ts)) : ∀ t ∈ ts, t.WellNamed := by
  rw [parseList?] at h
  split at h
  · replace h := Option.some.inj h
    unfold listOfTokens at h
    split at h
    · next inner htokens =>
        split at h
        · cases h
        · next items hread =>
            obtain rfl := Except.ok.inj h
            refine wellNamed_of_readTokens hread trivial (by simp [Frame.WellNamed]) ?_
            intro word hword
            exact isWord_of_mem_tokens (htokens ▸ List.mem_cons_of_mem _ hword)
        · cases h
    · cases h
  · cases h

theorem WellNamed.substitute {actual : String → Option TypeExpr} {t : TypeExpr} (h : t.WellNamed)
    (hactual : ∀ name u, actual name = some u → u.WellNamed) : (t.substitute actual).WellNamed := by
  induction h with
  | @named name hname =>
      rw [TypeExpr.substitute]
      cases hu : actual name with
      | none => exact .named hname
      | some u => exact hactual name u hu
  | @function params result _ _ ihparams ihresult =>
      rw [TypeExpr.substitute, substituteAll_eq_map]
      refine .function ?_ ihresult
      intro p hp
      obtain ⟨q, hq, rfl⟩ := List.mem_map.mp hp
      exact ihparams q hq

end TypedLisp.TypeExpr
