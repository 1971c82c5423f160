import TypedLisp.Proofs.TypeExpr.RoundTrip

namespace TypedLisp.TypeExpr

open TypedLisp.Text

def Token.chars : Token → List Char
  | .opening => ['<']
  | .closing => ['>']
  | .comma => [',']
  | .name text => text.toList

/-- Tokens written in turn, with any blanks before, between and after them. -/
inductive Spaced : List Token → List Char → Prop where
  | nil {blanks : List Char} (hblanks : ∀ c ∈ blanks, isBlank c = true) : Spaced [] blanks
  | cons {blanks rest : List Char} {ts : List Token} (hblanks : ∀ c ∈ blanks, isBlank c = true)
      (t : Token) (hrest : Spaced ts rest) : Spaced (t :: ts) (blanks ++ (t.chars ++ rest))

/-- The tokens of a bracketed list. -/
def writtenList : List TypeExpr → List Token
  | [] => [.opening, .closing]
  | t :: ts => .opening :: (t.written ++ (writtenMore ts ++ [.closing]))

mutual

theorem flatMap_chars_written : ∀ t : TypeExpr, t.written.flatMap Token.chars = t.shown.toList
  | .named name => by
      rw [written, shown, List.flatMap_singleton]
      rfl
  | .function [] result => by
      rw [toList_shown_function_nil, ← flatMap_chars_written result]
      simp [written, Token.chars]
  | .function (p :: params) result => by
      rw [toList_shown_function_cons, ← flatMap_chars_written result, ← flatMap_chars_written p,
        ← flatMap_chars_writtenMore params]
      simp [written, Token.chars]

theorem flatMap_chars_writtenMore : ∀ ts : List TypeExpr,
    (writtenMore ts).flatMap Token.chars = (ts.map shown).flatMap fun y => ',' :: y.toList
  | [] => rfl
  | t :: ts => by
      rw [writtenMore, List.flatMap_cons, List.flatMap_append, flatMap_chars_written t,
        flatMap_chars_writtenMore ts]
      simp [Token.chars]

end

section Splitting

variable {ts : List Token} {cs : List Char}

theorem Spaced.cons_blank {c : Char} (hc : isBlank c = true) (h : Spaced ts cs) :
    Spaced ts (c :: cs) := by
  cases h with
  | nil hblanks => exact .nil (List.forall_mem_cons.mpr ⟨hc, hblanks⟩)
  | cons hblanks t hrest => exact .cons (List.forall_mem_cons.mpr ⟨hc, hblanks⟩) t hrest

theorem Spaced.cons_token (t : Token) (h : Spaced ts cs) : Spaced (t :: ts) (t.chars ++ cs) :=
  .cons (List.forall_mem_nil _) t h

theorem spaced_tokens (cs : List Char) : Spaced (tokens cs) cs := by
  fun_induction tokens cs with
  | case1 => exact .nil (by simp)
  | case2 c cs hblank ih => exact ih.cons_blank hblank
  | case3 cs hblank ih => exact ih.cons_token .opening
  | case4 cs hblank hopening ih => exact ih.cons_token .closing
  | case5 cs hblank hopening hclosing ih => exact ih.cons_token .comma
  | case6 c cs hblank hopening hclosing hcomma ih =>
      have hname := ih.cons_token (.name (String.ofList (c :: cs.takeWhile isNameChar)))
      rwa [Token.chars, String.toList_ofList, List.cons_append,
        List.takeWhile_append_dropWhile] at hname

/-- Names are words, and none follows another directly. -/
def Apart : List Token → Prop
  | [] => True
  | .name n :: ts => IsWord n ∧ (∀ m, ts.head? ≠ some (.name m)) ∧ Apart ts
  | _ :: ts => Apart ts

theorem tokens_append_of_isBlank {blanks : List Char} (h : ∀ c ∈ blanks, isBlank c = true)
    (rest : List Char) : tokens (blanks ++ rest) = tokens rest := by
  induction blanks with
  | nil => rfl
  | cons c blanks ih =>
      obtain ⟨hc, hblanks⟩ := List.forall_mem_cons.mp h
      rw [List.cons_append, tokens, if_pos hc, ih hblanks]

theorem endsName_of_isBlank {c : Char} (h : isBlank c = true) (rest : List Char) :
    EndsName (c :: rest) := by
  simp [EndsName, isNameChar, h]

theorem Spaced.endsName (h : Spaced ts cs) (hts : ∀ m, ts.head? ≠ some (.name m)) :
    EndsName cs := by
  cases h with
  | nil hblanks =>
      cases cs with
      | nil => exact endsName_nil
      | cons c cs => exact endsName_of_isBlank (hblanks c List.mem_cons_self) cs
  | @cons blanks rest _ hblanks t _ =>
      cases blanks with
      | nil =>
          cases t with
          | opening => exact endsName_cons (by decide)
          | closing => exact endsName_cons (by decide)
          | comma => exact endsName_cons (by decide)
          | name n => exact absurd rfl (hts n)
      | cons c blanks => exact endsName_of_isBlank (hblanks c List.mem_cons_self) _

theorem Spaced.tokens_eq (h : Spaced ts cs) (hts : Apart ts) : tokens cs = ts := by
  induction h with
  | @nil blanks hblanks =>
      have hall := tokens_append_of_isBlank hblanks []
      rwa [List.append_nil, tokens] at hall
  | @cons blanks rest ts hblanks t hrest ih =>
      rw [tokens_append_of_isBlank hblanks]
      cases t with
      | opening =>
          rw [Token.chars, List.singleton_append, tokens_mark (by decide), if_pos rfl, ih hts]
      | closing =>
          rw [Token.chars, List.singleton_append, tokens_mark (by decide), if_neg (by decide),
            if_pos rfl, ih hts]
      | comma =>
          rw [Token.chars, List.singleton_append, tokens_mark (by decide), if_neg (by decide),
            if_neg (by decide), ih hts]
      | name n =>
          obtain ⟨hword, hhead, hapart⟩ := hts
          rw [Token.chars, tokens_word hword (hrest.endsName hhead), ih hapart]

theorem Spaced.eq_flatMap_chars (h : Spaced ts cs) (hcs : ∀ c ∈ cs, isBlank c = false) :
    cs = ts.flatMap Token.chars := by
  have hempty {blanks : List Char} (hblanks : ∀ c ∈ blanks, isBlank c = true)
      (hnone : ∀ c ∈ blanks, isBlank c = false) : blanks = [] := by
    refine List.eq_nil_iff_forall_not_mem.mpr fun c hc => ?_
    cases (hblanks c hc).symm.trans (hnone c hc)
  induction h with
  | nil hblanks => exact hempty hblanks hcs
  | cons hblanks t hrest ih =>
      obtain ⟨hnone, hall⟩ := List.forall_mem_append.mp hcs
      obtain rfl := hempty hblanks hnone
      rw [List.flatMap_cons, ← ih (List.forall_mem_append.mp hall).2, List.nil_append]

theorem Spaced.length_le (h : Spaced ts cs) (hts : Apart ts) : ts.length ≤ cs.length := by
  induction h with
  | nil => simp
  | @cons blanks rest ts hblanks t hrest ih =>
      have hpos : 0 < t.chars.length := by
        cases t with
        | opening | closing | comma => exact Nat.one_pos
        | name n => exact List.length_pos_iff.mpr hts.1.1
      have hrest := ih (by
        cases t with
        | opening | closing | comma => exact hts
        | name n => exact hts.2.2)
      simp only [List.length_cons, List.length_append]
      omega

end Splitting

section Reading

theorem apart_writtenMore {ts : List TypeExpr} {rest : List Token}
    (hts : ∀ t ∈ ts, ∀ {rest}, Apart rest → (∀ m, rest.head? ≠ some (.name m)) →
      Apart (t.written ++ rest))
    (hrest : Apart rest) (hhead : ∀ m, rest.head? ≠ some (.name m)) :
    Apart (writtenMore ts ++ rest) ∧ ∀ m, (writtenMore ts ++ rest).head? ≠ some (.name m) := by
  induction ts with
  | nil => exact ⟨hrest, hhead⟩
  | cons t ts ih =>
      obtain ⟨ht, hts⟩ := List.forall_mem_cons.mp hts
      obtain ⟨hapart, hmore⟩ := ih hts
      rw [writtenMore, List.cons_append, List.append_assoc]
      exact ⟨ht hapart hmore, by simp⟩

theorem apart_written {t : TypeExpr} (h : WellNamed t) {rest : List Token} (hrest : Apart rest)
    (hhead : ∀ m, rest.head? ≠ some (.name m)) : Apart (t.written ++ rest) := by
  induction h generalizing rest with
  | named hname => exact ⟨hname.1, hhead, hrest⟩
  | @function params result _ _ ihparams ihresult =>
      have hword : IsWord "Fn" := ⟨by decide, List.all_eq_true.mp (by decide)⟩
      cases params with
      | nil =>
          simp only [written, List.cons_append, List.append_assoc, List.nil_append]
          refine ⟨hword, by simp, ?_⟩
          exact ihresult (show Apart (.closing :: rest) from hrest) (by simp)
      | cons p params =>
          obtain ⟨hp, hparams⟩ := List.forall_mem_cons.mp ihparams
          obtain ⟨hmore, hnext⟩ := apart_writtenMore (fun t ht _ hr hh => hparams t ht hr hh)
            (show Apart (.closing :: .closing :: rest) from hrest) (by simp)
          simp only [written, List.cons_append, List.append_assoc, List.nil_append]
          refine ⟨hword, by simp, ?_⟩
          exact ihresult (show Apart (.opening :: _) from hp hmore hnext) (by simp)

theorem apart_writtenList {ts : List TypeExpr} (hts : ∀ t ∈ ts, t.WellNamed) :
    Apart (writtenList ts) := by
  cases ts with
  | nil => trivial
  | cons t ts =>
      obtain ⟨ht, hts⟩ := List.forall_mem_cons.mp hts
      obtain ⟨hmore, hnext⟩ := apart_writtenMore (fun t ht _ hr hh => apart_written (hts t ht) hr hh)
        (show Apart [.closing] from trivial) (by simp)
      exact apart_written ht hmore hnext

/-- Expressions that are read already, each with the comma after it. -/
def writtenBefore (ts : List TypeExpr) : List Token :=
  ts.flatMap fun t => t.written ++ [.comma]

theorem writtenBefore_concat (ts : List TypeExpr) (t : TypeExpr) :
    writtenBefore (ts ++ [t]) = writtenBefore ts ++ (t.written ++ [.comma]) := by
  simp [writtenBefore]

theorem written_append_writtenMore_concat (p : TypeExpr) (ts : List TypeExpr) (t : TypeExpr) :
    p.written ++ writtenMore (ts ++ [t]) = writtenBefore (p :: ts) ++ t.written := by
  induction ts generalizing p with
  | nil => simp [writtenMore, writtenBefore]
  | cons q ts ih =>
      rw [List.cons_append, writtenMore, ih q]
      simp [writtenBefore]

theorem written_function_concat (ts : List TypeExpr) (t result : TypeExpr) :
    (function (ts ++ [t]) result).written =
      .name "Fn" :: .opening :: (result.written ++
        .opening :: (writtenBefore ts ++ (t.written ++ [.closing, .closing]))) := by
  cases ts with
  | nil => simp [written, writtenMore, writtenBefore]
  | cons p ts =>
      have hitems := written_append_writtenMore_concat p ts t
      rw [List.cons_append, written, ← List.append_assoc p.written, hitems, List.append_assoc]

theorem writtenList_concat (ts : List TypeExpr) (t : TypeExpr) :
    writtenList (ts ++ [t]) = .opening :: (writtenBefore ts ++ (t.written ++ [.closing])) := by
  cases ts with
  | nil => simp [writtenList, writtenMore, writtenBefore]
  | cons p ts =>
      have hitems := written_append_writtenMore_concat p ts t
      rw [List.cons_append, writtenList, ← List.append_assoc p.written, hitems, List.append_assoc]

/-- The tokens that the open constructs have taken. A list has none around it. -/
def Frame.taken : List Frame → List Token
  | [] => []
  | .result :: frames => taken frames ++ [.name "Fn", .opening]
  | .params r before :: frames =>
      taken frames ++ .name "Fn" :: .opening :: (r.written ++ .opening :: writtenBefore before)
  | .items before :: _ => .opening :: writtenBefore before

def Point.taken : Point → List Token
  | .start => []
  | .word => [.name "Fn"]
  | .whole t => t.written
  | .listed t => t.written.dropLast

/-- The tokens of the outermost construct, from the expressions it holds. -/
def Frame.outermost : List Frame → List TypeExpr → List Token
  | [], held => held.flatMap written
  | .items _ :: _, held => writtenList held
  | .result :: frames, held | .params _ _ :: frames, held => outermost frames held

/-- Reading loses no token: what was taken before and what is there to read are the tokens of the
outermost construct and what is left after it. -/
theorem taken_append_of_readTokens {point : Point} {frames : List Frame} {ts rest : List Token}
    {items : List TypeExpr} (h : readTokens point frames ts = .ok (items, rest))
    (hpoint : ∀ t, point = .listed t → ∃ body, t.written = body ++ [.closing]) :
    Frame.taken frames ++ (point.taken ++ ts) = Frame.outermost frames items ++ rest := by
  fun_induction readTokens point frames ts with
  | case1 frames ts ih => exact ih h (by simp)
  | case2 frames n ts hn ih =>
      have hread := ih h (by simp)
      rwa [Point.taken, written] at hread
  | case4 frames ts ih =>
      have hread := ih h (by simp)
      rw [Frame.outermost] at hread
      rw [← hread]
      simp [Frame.taken, Point.taken]
  | case6 t frames ts ih =>
      -- The bracket that closed the parameters is closed again, by that of the function type.
      obtain ⟨body, hbody⟩ := hpoint t rfl
      rw [← ih h (by simp), Point.taken, Point.taken, hbody, List.dropLast_concat,
        List.append_assoc, List.singleton_append]
  | case8 t ts =>
      obtain ⟨rfl, rfl⟩ := Prod.mk.inj (Except.ok.inj h)
      simp [Frame.taken, Frame.outermost, Point.taken]
  | case9 t frames ts ih =>
      have hread := ih h (by simp)
      rw [Frame.outermost] at hread
      rw [Frame.outermost, ← hread]
      simp [Frame.taken, Point.taken, writtenBefore]
  | case10 t frames ts ih =>
      rw [Frame.outermost, ← ih h (by simp)]
      simp [Frame.taken, Point.taken, written]
  | case12 t r before frames ts ih =>
      have hread := ih h (by simp)
      rw [Frame.outermost] at hread ⊢
      rw [← hread]
      simp [Frame.taken, Point.taken, writtenBefore_concat]
  | case13 t r before frames ts ih =>
      -- The last parameter: the function type is written but for its own bracket.
      have hwritten := written_function_concat before t r
      have hlast : (function (before ++ [t]) r).written =
          (.name "Fn" :: .opening :: (r.written ++
            .opening :: (writtenBefore before ++ (t.written ++ [.closing])))) ++ [.closing] := by
        simp [hwritten]
      have hread := ih h fun u hu => ⟨_, (Point.listed.inj hu) ▸ hlast⟩
      rw [Frame.outermost, ← hread, Point.taken, Point.taken, hlast, List.dropLast_concat]
      simp [Frame.taken]
  | case15 t before frames ts ih =>
      have hread := ih h (by simp)
      rw [Frame.outermost] at hread ⊢
      rw [← hread]
      simp [Frame.taken, Point.taken, writtenBefore_concat]
  | case16 t before frames ts =>
      obtain ⟨rfl, rfl⟩ := Prod.mk.inj (Except.ok.inj h)
      simp [Frame.taken, Frame.outermost, Point.taken, writtenList_concat]
  | _ => cases h

theorem readTokens_items_writtenMore (frames : List Frame) (rest : List Token)
    {ts : List TypeExpr} (hts : ∀ t ∈ ts, t.WellNamed) (t : TypeExpr) (before : List TypeExpr) :
    readTokens (.whole t) (.items before :: frames) (writtenMore ts ++ .closing :: rest) =
      .ok (before ++ t :: ts, rest) := by
  induction ts generalizing t before with
  | nil => rw [writtenMore, List.nil_append, readTokens]
  | cons u ts ih =>
      obtain ⟨hu, hts⟩ := List.forall_mem_cons.mp hts
      rw [writtenMore, List.cons_append, List.append_assoc, readTokens, readTokens_written hu,
        ih hts, List.append_assoc, List.singleton_append]

theorem written_of_ofTokens {ts : List Token} {t : TypeExpr} (h : ofTokens ts = .ok t) :
    ts = t.written := by
  rw [ofTokens] at h
  split at h
  · cases h
  · next u hread =>
      obtain rfl := Except.ok.inj h
      have htaken := taken_append_of_readTokens hread (by simp)
      simpa [Frame.taken, Frame.outermost, Point.taken] using htaken
  · cases h

theorem writtenList_of_listOfTokens {ts : List Token} {items : List TypeExpr}
    (h : listOfTokens ts = .ok items) : ts = writtenList items := by
  unfold listOfTokens at h
  split at h
  · next inner =>
      split at h
      · cases h
      · next hread =>
          obtain rfl := Except.ok.inj h
          have htaken := taken_append_of_readTokens hread (by simp)
          simpa [Frame.taken, Frame.outermost, Point.taken, writtenBefore] using htaken
      · cases h
  · cases h

theorem listOfTokens_writtenList {ts : List TypeExpr} (hne : ts ≠ [])
    (hts : ∀ t ∈ ts, t.WellNamed) : listOfTokens (writtenList ts) = .ok ts := by
  obtain ⟨t, ts, rfl⟩ := List.exists_cons_of_ne_nil hne
  obtain ⟨ht, hts⟩ := List.forall_mem_cons.mp hts
  have hread : readTokens .start [.items []] (t.written ++ (writtenMore ts ++ [.closing])) =
      .ok (t :: ts, []) := by
    rw [readTokens_written ht, readTokens_items_writtenMore [] [] hts, List.nil_append]
  rw [writtenList, listOfTokens, hread]

theorem ne_nil_of_listOfTokens {ts : List Token} {items : List TypeExpr}
    (h : listOfTokens ts = .ok items) : items ≠ [] := by
  rintro rfl
  obtain rfl := writtenList_of_listOfTokens h
  rw [writtenList, listOfTokens, readTokens] at h
  · cases h
  · intro name ts hcons
    cases hcons

end Reading

theorem parse_eq_ok_iff {text : String} {t : TypeExpr} :
    parse text = .ok t ↔ t.WellNamed ∧ Spaced t.written text.toList := by
  constructor
  · intro h
    have htokens : tokens text.toList = t.written := by
      rw [parse] at h
      cases hread : ofTokens (tokens text.toList) with
      | error e =>
          rw [hread] at h
          cases h
      | ok u =>
          rw [hread] at h
          obtain rfl := Except.ok.inj h
          exact written_of_ofTokens hread
    exact ⟨wellNamed_of_parse h, htokens ▸ spaced_tokens text.toList⟩
  · rintro ⟨hnamed, hspaced⟩
    have hapart : Apart t.written := by
      have hall := apart_written hnamed (show Apart [] from trivial) (by simp)
      rwa [List.append_nil] at hall
    exact parse_of_ofTokens (by rw [hspaced.tokens_eq hapart, ofTokens_written hnamed])

theorem eq_shown_of_parse {text : String} {t : TypeExpr} (h : parse text = .ok t)
    (htext : ∀ c ∈ text.toList, isBlank c = false) : text = t.shown := by
  have hchars := (parse_eq_ok_iff.mp h).2.eq_flatMap_chars htext
  rw [flatMap_chars_written] at hchars
  exact String.toList_inj.mp hchars

/-- A text is a bracketed list with nothing before its first and after its last bracket. -/
def IsWrittenList (ts : List TypeExpr) (text : String) : Prop :=
  Spaced (writtenList ts) text.toList ∧ text.toList.head? = some '<' ∧
    text.toList.getLast? = some '>'

theorem parseList?_eq_ok_iff {text : String} {ts : List TypeExpr} :
    parseList? text = some (.ok ts) ↔
      ts ≠ [] ∧ (∀ t ∈ ts, t.WellNamed) ∧ IsWrittenList ts text := by
  constructor
  · intro h
    have hnamed := wellNamed_of_parseList h
    rw [parseList?] at h
    split at h
    · next hbrackets =>
        simp only [isTypeList, Bool.and_eq_true, beq_iff_eq] at hbrackets
        cases hread : listOfTokens (tokens text.toList) with
        | error e =>
            rw [hread] at h
            cases h
        | ok items =>
            rw [hread] at h
            obtain rfl : items = ts := Except.ok.inj (Option.some.inj h)
            refine ⟨ne_nil_of_listOfTokens hread, hnamed, ?_, hbrackets.1.2, hbrackets.2⟩
            rw [← writtenList_of_listOfTokens hread]
            exact spaced_tokens text.toList
    · cases h
  · rintro ⟨hne, hnamed, hspaced, hfirst, hlast⟩
    have hapart := apart_writtenList hnamed
    have hlong : 2 < text.toList.length := by
      have hle := hspaced.length_le hapart
      obtain ⟨t, ts, rfl⟩ := List.exists_cons_of_ne_nil hne
      have hpos : 0 < t.written.length := by
        cases t with
        | named => simp [written]
        | function params result => cases params <;> simp [written]
      simp only [writtenList, List.length_cons, List.length_append] at hle
      omega
    have hbrackets : isTypeList text = true := by
      simp [isTypeList, hlong, hfirst, hlast]
    rw [parseList?, if_pos hbrackets, hspaced.tokens_eq hapart, listOfTokens_writtenList hne hnamed]
    rfl

/-- A text is read as an expression exactly if it is the tokens of that expression, whose names are
names, with blanks around them, and as a list exactly if it is the tokens of that list so spaced, with
a bracket at each end. So the written form is read as what it was written from, and no text can be
read in two ways. -/
theorem reads_exactly_grammar (text : String) :
    (∀ t, parse text = .ok t ↔ t.WellNamed ∧ Spaced t.written text.toList) ∧
      (∀ ts, parseList? text = some (.ok ts) ↔
        ts ≠ [] ∧ (∀ t ∈ ts, t.WellNamed) ∧ IsWrittenList ts text) ∧
      (∀ t : TypeExpr, t.shown.toList = t.written.flatMap Token.chars ∧
        (t.WellNamed → parse t.shown = .ok t)) ∧
      (∀ t u : TypeExpr, t.WellNamed → u.WellNamed → Spaced t.written text.toList →
        Spaced u.written text.toList → t = u) ∧
      ∀ ts us : List TypeExpr, ts ≠ [] → us ≠ [] → (∀ t ∈ ts ++ us, t.WellNamed) →
        IsWrittenList ts text → IsWrittenList us text → ts = us := by
  refine ⟨fun _ => parse_eq_ok_iff, fun _ => parseList?_eq_ok_iff,
    fun t => ⟨(flatMap_chars_written t).symm, parse_shown⟩, ?_, ?_⟩
  · intro t u ht hu htext hutext
    have hparse := parse_eq_ok_iff.mpr ⟨ht, htext⟩
    exact Except.ok.inj (hparse.symm.trans (parse_eq_ok_iff.mpr ⟨hu, hutext⟩))
  · intro ts us hts hus hnamed htext hutext
    obtain ⟨htsNamed, husNamed⟩ := List.forall_mem_append.mp hnamed
    have hparse := parseList?_eq_ok_iff.mpr ⟨hts, htsNamed, htext⟩
    have hparse' := parseList?_eq_ok_iff.mpr ⟨hus, husNamed, hutext⟩
    exact Except.ok.inj (Option.some.inj (hparse.symm.trans hparse'))

/-- A function type that returns a function. -/
def returnsFunction : TypeExpr :=
  .function [.named "c"] (.function [.named "b"] (.named "a"))

/-- Written with blanks it is read, so it is spaced tokens, and it is read from its written form. -/
theorem reads_exactly_grammar_of_nested :
    returnsFunction.WellNamed ∧
      Spaced returnsFunction.written " Fn < Fn<a <b>>\t<c > > ".toList ∧
      returnsFunction.shown = "Fn<Fn<a<b>><c>>" ∧
      parse returnsFunction.shown = .ok returnsFunction := by
  have hread : parse " Fn < Fn<a <b>>\t<c > > " = .ok returnsFunction :=
    parse_of_ofTokens (by cbv)
  obtain ⟨htypes, -, hshown, -⟩ := reads_exactly_grammar " Fn < Fn<a <b>>\t<c > > "
  obtain ⟨hnamed, hspaced⟩ := (htypes returnsFunction).mp hread
  exact ⟨hnamed, hspaced, by cbv, (hshown returnsFunction).2 hnamed⟩

end TypedLisp.TypeExpr
