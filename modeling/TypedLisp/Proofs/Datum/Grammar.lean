import TypedLisp.Proofs.Datum.RoundTrip

/-!
The grammar of source text, and that the reader accepts just the texts it derives. A text derived
as some data is read as them whatever stands around it; and whatever the reader has open, a rest of
the text on which it succeeds closes the open lists one after the other, innermost first.
-/

namespace TypedLisp.Datum

open TypedLisp.Text

/-- A character that words are made of. -/
def IsWordChar (c : Char) : Prop :=
  isBlank c = false ∧ c ≠ '(' ∧ c ≠ ')' ∧ c ≠ '"' ∧ c ≠ ';'

/-- Words that start like a number: with a digit, or with a sign or point and then a digit or
point. -/
inductive Numeric : List Char → Prop where
  | digit {c : Char} {cs : List Char} (hc : c.isDigit = true) : Numeric (c :: cs)
  | marked {c d : Char} {cs : List Char} (hc : c = '-' ∨ c = '+' ∨ c = '.')
      (hd : d.isDigit = true ∨ d = '.') : Numeric (c :: d :: cs)

/-- What a word denotes. A word that starts like a number denotes one or nothing. -/
inductive Denotes : List Char → Datum → Prop where
  | yes : Denotes "true".toList (boolean true)
  | no : Denotes "false".toList (boolean false)
  | number {word : List Char} {x : Binary64} (hword : Numeric word)
      (hx : Binary64.ofLiteral? word = some x) : Denotes word (number x)
  | symbol {word : List Char} (hword : ¬Numeric word) (htrue : word ≠ "true".toList)
      (hfalse : word ≠ "false".toList) : Denotes word (symbol (String.ofList word))

/-- How the contents of a string are written: a backslash stands for the character after it, and
otherwise there is no quote. -/
inductive Quoted : List Char → List Char → Prop where
  | nil : Quoted [] []
  | plain {c : Char} {cs s : List Char} (hquote : c ≠ '"') (hbackslash : c ≠ '\\')
      (h : Quoted cs s) : Quoted (c :: cs) (c :: s)
  | escaped {cs s : List Char} (c : Char) (h : Quoted cs s) : Quoted ('\\' :: c :: cs) (c :: s)

/-- Items with blanks and whole comments before, between and after them. An atom is a word that
goes on as long as it can: only what follows an atom may have to be kept apart from it. -/
inductive Items : List Char → List Datum → Prop where
  | nil : Items [] []
  | blank {c : Char} {cs : List Char} {ds : List Datum} (hc : isBlank c = true)
      (hrest : Items cs ds) : Items (c :: cs) ds
  | comment {line cs : List Char} {ds : List Datum} (hline : '\n' ∉ line)
      (hrest : Items cs ds) : Items (';' :: (line ++ '\n' :: cs)) ds
  | list {inner cs : List Char} {items ds : List Datum} (hinner : Items inner items)
      (hrest : Items cs ds) : Items ('(' :: (inner ++ ')' :: cs)) (list items :: ds)
  | text {written s cs : List Char} {ds : List Datum} (hs : Quoted written s)
      (hrest : Items cs ds) : Items ('"' :: (written ++ '"' :: cs)) (text (String.ofList s) :: ds)
  | atom {word cs : List Char} {d : Datum} {ds : List Datum} (hne : word ≠ [])
      (hword : ∀ c ∈ word, IsWordChar c) (hd : Denotes word d)
      (hend : ∀ c ∈ cs.head?, ¬IsWordChar c) (hrest : Items cs ds) : Items (word ++ cs) (d :: ds)

/-- A whole source, whose last comment may go on to the end of the input. -/
inductive Source : List Char → List Datum → Prop where
  | closed {cs : List Char} {ds : List Datum} (h : Items cs ds) : Source cs ds
  | comment {cs line : List Char} {ds : List Datum} (h : Items cs ds) (hline : '\n' ∉ line) :
      Source (cs ++ ';' :: line) ds

theorem looksNumeric_iff {word : List Char} : looksNumeric word = true ↔ Numeric word := by
  constructor
  · intro h
    rcases word with - | ⟨c, - | ⟨d, cs⟩⟩
    · cases h
    · exact .digit (by simpa [looksNumeric] using h)
    · have hcases : c.isDigit = true ∨ ((c = '-' ∨ c = '+' ∨ c = '.') ∧
          (d.isDigit = true ∨ d = '.')) := by
        simpa [looksNumeric, or_assoc] using h
      rcases hcases with hc | ⟨hc, hd⟩
      · exact .digit hc
      · exact .marked hc hd
  · intro h
    cases h with
    | digit hc => simp [looksNumeric, hc]
    | marked hc hd =>
        rw [← or_assoc] at hc
        simp [looksNumeric, hc, hd]

theorem ofAtom?_eq_some_iff {word : List Char} {d : Datum} :
    ofAtom? word = some d ↔ Denotes word d := by
  constructor
  · intro h
    rw [ofAtom?] at h
    split at h
    next htrue =>
      subst htrue
      obtain rfl := Option.some.inj h
      exact .yes
    next htrue =>
      split at h
      next hfalse =>
        subst hfalse
        obtain rfl := Option.some.inj h
        exact .no
      next hfalse =>
        split at h
        next hnumeric =>
          obtain ⟨x, hx, rfl⟩ := Option.map_eq_some_iff.mp h
          exact .number (looksNumeric_iff.mp hnumeric) hx
        next hnumeric =>
          obtain rfl := Option.some.inj h
          exact .symbol (fun hword => hnumeric (looksNumeric_iff.mpr hword)) htrue hfalse
  · intro h
    cases h with
    | yes => rfl
    | no => rfl
    | number hword hx => exact ofAtom?_of_literal (looksNumeric_iff.mpr hword) hx
    | symbol hword htrue hfalse =>
        rw [ofAtom?, if_neg htrue, if_neg hfalse, if_neg (fun h => hword (looksNumeric_iff.mp h))]

theorem endsAtom_iff {cs : List Char} : EndsAtom cs ↔ ∀ c ∈ cs.head?, ¬IsWordChar c := by
  cases cs with
  | nil => simp [EndsAtom]
  | cons c cs =>
      rw [EndsAtom, List.takeWhile_cons]
      by_cases hc : isAtomChar c = true
      · simp [hc, isAtomChar_iff.mp hc, IsWordChar]
      · have hword : ¬IsWordChar c := fun h => hc (isAtomChar_iff.mpr h)
        simpa [hc] using hword

theorem Items.word {cs : List Char} {d : Datum} {ds : List Datum} (w : String) (hne : w.toList ≠ [])
    (hword : w.toList.all isAtomChar = true) (hd : ofAtom? w.toList = some d)
    (hends : EndsAtom cs) (hrest : Items cs ds) : Items (w.toList ++ cs) (d :: ds) :=
  .atom hne (fun _ hc => isAtomChar_iff.mp (List.all_eq_true.mp hword _ hc))
    (ofAtom?_eq_some_iff.mp hd) (endsAtom_iff.mp hends) hrest

/-! ### What is derived is read -/

theorem stringContents?_of_quoted {written s : List Char} (h : Quoted written s)
    (rest : List Char) : stringContents? (written ++ '"' :: rest) = some (s, rest) := by
  induction h with
  | nil => rfl
  | plain hquote hbackslash _ ih =>
      rw [List.cons_append, stringContents?, ih]
      · rfl
      · exact hquote
      · exact fun _ _ heq => absurd heq hbackslash
      · exact fun heq => absurd heq hbackslash
  | escaped c _ ih => simp [stringContents?, ih]

theorem afterComment_append {line : List Char} (h : '\n' ∉ line) (rest : List Char) :
    afterComment (line ++ '\n' :: rest) = rest := by
  induction line with
  | nil => rfl
  | cons c line ih =>
      obtain ⟨hc, hline⟩ := not_or.mp (mt List.mem_cons.mpr h)
      rw [List.cons_append, afterComment, if_neg (Ne.symm hc), ih hline]

theorem afterComment_eq_nil {line : List Char} (h : '\n' ∉ line) : afterComment line = [] := by
  induction line with
  | nil => rfl
  | cons c line ih =>
      obtain ⟨hc, hline⟩ := not_or.mp (mt List.mem_cons.mpr h)
      rw [afterComment, if_neg (Ne.symm hc), ih hline]

theorem readFrom_comment (p : Progress) (cs : List Char) :
    readFrom p (';' :: cs) = readFrom p (afterComment cs) := by
  have hblank : isBlank ';' = false := by decide
  rw [readFrom]
  simp only [hblank, Bool.false_eq_true, if_false, if_true]

theorem readFrom_opening (p : Progress) (cs : List Char) :
    readFrom p ('(' :: cs) = readFrom (p.openAt ('(' :: cs)) cs := by
  have hblank : isBlank '(' = false := by decide
  rw [readFrom]
  simp only [hblank, Bool.false_eq_true, if_false, Char.reduceEq, if_true]

theorem readFrom_closing {p p' : Progress} (h : p.close? = some p') (cs : List Char) :
    readFrom p (')' :: cs) = readFrom p' cs := by
  have hblank : isBlank ')' = false := by decide
  rw [readFrom]
  simp only [hblank, Bool.false_eq_true, if_false, Char.reduceEq, if_true, h]

theorem readFrom_quoted (p : Progress) {written s : List Char} (h : Quoted written s)
    (rest : List Char) :
    readFrom p ('"' :: (written ++ '"' :: rest)) =
      readFrom (p.add (text (String.ofList s))) rest := by
  have hblank : isBlank '"' = false := by decide
  have hcontents := stringContents?_of_quoted h rest
  rw [readFrom]
  simp only [hblank, Bool.false_eq_true, if_false, Char.reduceEq, if_true]
  split
  next contents rest' heq =>
    obtain ⟨rfl, rfl⟩ : s = contents ∧ rest = rest' := by simpa [hcontents] using heq
    rfl
  next heq => cases hcontents.symm.trans heq

theorem EndsAtom.append {cs rest : List Char} (hcs : EndsAtom cs) (hrest : EndsAtom rest) :
    EndsAtom (cs ++ rest) := by
  cases cs with
  | nil => exact hrest
  | cons c cs =>
      rw [endsAtom_iff] at hcs ⊢
      exact hcs

theorem EndsAtom.of_append {cs rest : List Char} (h : EndsAtom (cs ++ rest)) : EndsAtom cs := by
  cases cs with
  | nil => exact endsAtom_nil
  | cons c cs =>
      rw [endsAtom_iff] at h ⊢
      exact h

/-- The text can stand before the rest without joining two words. -/
def Adjoins (cs rest : List Char) : Prop :=
  (∀ c ∈ cs.getLast?, ¬IsWordChar c) ∨ EndsAtom rest

theorem adjoins_concat {c : Char} (hc : ¬IsWordChar c) (cs rest : List Char) :
    Adjoins (cs ++ [c]) rest :=
  .inl (by simpa using hc)

theorem Adjoins.of_append {cs more rest : List Char} (h : Adjoins (cs ++ more) rest) :
    Adjoins more rest := by
  refine h.imp (fun hlast c hc => hlast c ?_) id
  simp [List.getLast?_append, Option.mem_def.mp hc]

theorem Adjoins.of_cons {c : Char} {cs rest : List Char} (h : Adjoins (c :: cs) rest) :
    Adjoins cs rest :=
  .of_append (show Adjoins ([c] ++ cs) rest from h)

theorem Adjoins.endsAtom {word cs rest : List Char} (h : Adjoins (word ++ cs) rest)
    (hne : word ≠ []) (hword : ∀ c ∈ word, IsWordChar c) (hcs : EndsAtom cs) :
    EndsAtom (cs ++ rest) := by
  rcases h with hlast | hrest
  · cases cs with
    | nil =>
        have hlast' := hlast (word.getLast hne) (by simp [List.getLast?_eq_some_getLast hne])
        exact absurd (hword _ (List.getLast_mem hne)) hlast'
    | cons c cs =>
        rw [endsAtom_iff] at hcs ⊢
        exact hcs
  · exact hcs.append hrest

/-- A text of items is read as them whatever was read before, if what follows it does not go on with
its last word. -/
theorem Items.readFrom_adjoining {cs : List Char} {ds : List Datum} (h : Items cs ds) (p : Progress)
    {rest : List Char} (hrest : Adjoins cs rest) :
    readFrom p (cs ++ rest) = readFrom (ds.foldl Progress.add p) rest := by
  induction h generalizing p rest with
  | nil => rfl
  | blank hc _ ih =>
      rw [List.cons_append, readFrom, if_pos hc]
      exact ih p hrest.of_cons
  | @comment line cs ds hline _ ih =>
      rw [List.cons_append, readFrom_comment, List.append_assoc, List.cons_append,
        afterComment_append hline]
      exact ih p hrest.of_cons.of_append.of_cons
  | @list inner cs items ds _ _ ihinner ih =>
      have hends : EndsAtom (')' :: (cs ++ rest)) := endsAtom_cons (by decide) _
      rw [List.cons_append, List.append_assoc, List.cons_append, readFrom_opening,
        ihinner _ (.inr hends), readFrom_closing (Progress.close?_addEach_openAt _ _ _)]
      exact ih (p.add (.list items)) hrest.of_cons.of_append.of_cons
  | text hs _ ih =>
      rw [List.cons_append, List.append_assoc, List.cons_append, readFrom_quoted p hs]
      exact ih _ hrest.of_cons.of_append.of_cons
  | atom hne hword hd hend _ ih =>
      have hchars := fun c hc => isAtomChar_iff.mpr (hword c hc)
      have hends := hrest.endsAtom hne hword (endsAtom_iff.mpr hend)
      rw [List.append_assoc, readFrom_atom p hne hchars hends (ofAtom?_eq_some_iff.mpr hd)]
      exact ih _ hrest.of_append

theorem Items.readFrom_append {cs : List Char} {ds : List Datum} (h : Items cs ds) (p : Progress)
    {rest : List Char} (hrest : EndsAtom rest) :
    readFrom p (cs ++ rest) = readFrom (ds.foldl Progress.add p) rest :=
  h.readFrom_adjoining p (.inr hrest)

theorem Source.readFrom_addEach {cs : List Char} {ds : List Datum} (h : Source cs ds)
    (p : Progress) : readFrom p cs = readFrom (ds.foldl Progress.add p) [] := by
  cases h with
  | closed h =>
      have hread := h.readFrom_append p endsAtom_nil
      rwa [List.append_nil] at hread
  | comment h hline =>
      rw [h.readFrom_append p (endsAtom_cons (by decide) _), readFrom_comment,
        afterComment_eq_nil hline]

theorem Source.readFrom {cs : List Char} {ds : List Datum} (h : Source cs ds) :
    Datum.readFrom ⟨[], []⟩ cs = .ok ds := by
  rw [h.readFrom_addEach, Progress.addEach_outside, Datum.readFrom]
  simp

/-! ### What is read is derived -/

/-- A rest of the source on which what was read so far completes to the data: it closes the open
lists one after the other. -/
inductive Completes : Progress → List Char → List Datum → Prop where
  | outside {finished more : List Datum} {cs : List Char} (h : Source cs more) :
      Completes ⟨[], finished⟩ cs (finished.reverse ++ more)
  | inside {inner : OpenList} {outer : List OpenList} {finished more ds : List Datum}
      {before after : List Char} (h : Items before more)
      (hafter : Completes (.add ⟨outer, finished⟩ (list (inner.items.reverse ++ more))) after ds) :
      Completes ⟨inner :: outer, finished⟩ (before ++ ')' :: after) ds

/-- Whatever items the rest starts with, the text can stand before them and adds its data. -/
def Prepends (cs : List Char) (ds : List Datum) (rest : List Char) : Prop :=
  ∀ before after more, rest = before ++ after → Items before more →
    Items (cs ++ before) (ds ++ more)

theorem prepends_blank {c : Char} (hc : isBlank c = true) (rest : List Char) :
    Prepends [c] [] rest :=
  fun _ _ _ _ hfront => .blank hc hfront

theorem prepends_comment {line : List Char} (hline : '\n' ∉ line) (rest : List Char) :
    Prepends (';' :: (line ++ ['\n'])) [] rest := by
  intro front back items _ hfront
  rw [List.cons_append, List.append_assoc]
  exact .comment hline hfront

theorem prepends_list {inner : List Char} {items : List Datum} (hinner : Items inner items)
    (rest : List Char) : Prepends ('(' :: (inner ++ [')'])) [list items] rest := by
  intro front back more _ hfront
  rw [List.cons_append, List.append_assoc]
  exact .list hinner hfront

theorem prepends_text {written s : List Char} (hs : Quoted written s) (rest : List Char) :
    Prepends ('"' :: (written ++ ['"'])) [text (String.ofList s)] rest := by
  intro front back more _ hfront
  rw [List.cons_append, List.append_assoc]
  exact .text hs hfront

theorem Prepends.source {cs rest : List Char} {ds more : List Datum} (hcs : Prepends cs ds rest)
    (h : Source rest more) : Source (cs ++ rest) (ds ++ more) := by
  cases h with
  | closed h => exact .closed (hcs _ [] _ (List.append_nil _).symm h)
  | comment h hline =>
      rw [← List.append_assoc]
      exact .comment (hcs _ _ _ rfl h) hline

theorem Completes.prepend {p : Progress} {cs rest : List Char} {added ds : List Datum}
    (hcs : Prepends cs added rest) (h : Completes (added.foldl Progress.add p) rest ds) :
    Completes p (cs ++ rest) ds := by
  obtain ⟨openLists, finished⟩ := p
  cases openLists with
  | nil =>
      rw [Progress.addEach_outside] at h
      cases h with
      | @outside _ more _ h =>
          rw [List.reverse_append, List.reverse_reverse, List.append_assoc]
          exact .outside (hcs.source h)
  | cons inner outer =>
      rw [Progress.openLists_addEach _ inner outer rfl] at h
      cases h with
      | inside h hafter =>
          rw [List.reverse_append, List.reverse_reverse, List.append_assoc] at hafter
          rw [← List.append_assoc]
          exact .inside (hcs _ _ _ rfl h) hafter

theorem Completes.openAt {p : Progress} {start cs : List Char} {ds : List Datum}
    (h : Completes (p.openAt start) cs ds) : Completes p ('(' :: cs) ds := by
  cases h with
  | inside hbefore hafter =>
      have hcompletes := Completes.prepend (p := p) (prepends_list hbefore _) hafter
      rwa [List.cons_append, List.append_assoc] at hcompletes

theorem Completes.close {p p' : Progress} (hclose : p.close? = some p') {cs : List Char}
    {ds : List Datum} (h : Completes p' cs ds) : Completes p (')' :: cs) ds := by
  obtain ⟨openLists, finished⟩ := p
  cases openLists with
  | nil => cases hclose
  | cons inner outer =>
      obtain rfl := Option.some.inj hclose
      rw [← List.append_nil inner.items.reverse] at h
      exact .inside .nil h

theorem afterComment_cases (cs : List Char) :
    (∃ line, '\n' ∉ line ∧ cs = line ++ '\n' :: afterComment cs) ∨
      ('\n' ∉ cs ∧ afterComment cs = []) := by
  induction cs with
  | nil => exact .inr ⟨List.not_mem_nil, rfl⟩
  | cons c cs ih =>
      rw [afterComment]
      split
      next hc =>
        subst hc
        exact .inl ⟨[], List.not_mem_nil, rfl⟩
      next hc =>
        rcases ih with ⟨line, hline, heq⟩ | ⟨hcs, heq⟩
        · refine .inl ⟨c :: line, ?_, congrArg (c :: ·) heq⟩
          simpa using ⟨Ne.symm hc, hline⟩
        · refine .inr ⟨?_, heq⟩
          simpa using ⟨Ne.symm hc, hcs⟩

theorem Completes.comment_of_nil {p : Progress} {ds : List Datum} (h : Completes p [] ds)
    {line : List Char} (hline : '\n' ∉ line) : Completes p (';' :: line) ds := by
  generalize hnil : [] = cs at h
  cases h with
  | outside h =>
      refine .outside ?_
      cases h with
      | closed h =>
          have hblank : Items [] _ := hnil ▸ h
          exact .comment hblank hline
      | comment _ _ => cases List.append_eq_nil_iff.mp hnil.symm |>.2
  | inside _ _ => cases List.append_eq_nil_iff.mp hnil.symm |>.2

theorem Completes.comment {p : Progress} {cs : List Char} {ds : List Datum}
    (h : Completes p (afterComment cs) ds) : Completes p (';' :: cs) ds := by
  rcases afterComment_cases cs with ⟨line, hline, heq⟩ | ⟨hcs, heq⟩
  · have hcompletes := Completes.prepend (p := p) (prepends_comment hline _) h
    rwa [List.cons_append, List.append_assoc, List.singleton_append, ← heq] at hcompletes
  · rw [heq] at h
    exact h.comment_of_nil hcs

theorem quoted_of_stringContents? {cs s rest : List Char}
    (h : stringContents? cs = some (s, rest)) :
    ∃ written, Quoted written s ∧ cs = written ++ '"' :: rest := by
  fun_induction stringContents? cs generalizing s rest with
  | case1 => cases h
  | case2 cs =>
      obtain ⟨rfl, rfl⟩ := by simpa using h
      exact ⟨[], .nil, rfl⟩
  | case3 c cs ih =>
      obtain ⟨⟨s', rest'⟩, hs, he⟩ := Option.map_eq_some_iff.mp h
      obtain ⟨rfl, rfl⟩ := by simpa using he
      obtain ⟨written, hwritten, rfl⟩ := ih hs
      exact ⟨_, .escaped c hwritten, rfl⟩
  | case4 => cases h
  | case5 c cs hquote hescape hlast ih =>
      obtain ⟨⟨s', rest'⟩, hs, he⟩ := Option.map_eq_some_iff.mp h
      obtain ⟨rfl, rfl⟩ := by simpa using he
      have hbackslash : c ≠ '\\' := by
        rintro rfl
        cases cs with
        | nil => exact hlast rfl rfl
        | cons next cs => exact hescape next cs rfl rfl
      obtain ⟨written, hwritten, rfl⟩ := ih hs
      exact ⟨_, .plain hquote hbackslash hwritten, rfl⟩

theorem endsAtom_dropWhile (cs : List Char) : EndsAtom (cs.dropWhile isAtomChar) := by
  rw [EndsAtom, List.takeWhile_eq_nil_iff]
  exact fun hcs => List.dropWhile_get_zero_not isAtomChar cs hcs

theorem isWordChar_of_mem_word {c : Char} (hc : IsWordChar c) (cs : List Char) :
    ∀ a ∈ c :: cs.takeWhile isAtomChar, IsWordChar a := by
  intro a ha
  rcases List.mem_cons.mp ha with rfl | ha
  · exact hc
  · exact isAtomChar_iff.mp (List.mem_takeWhile_imp ha)

theorem prepends_atom {c : Char} (hc : IsWordChar c) {cs : List Char} {d : Datum}
    (hatom : ofAtom? (c :: cs.takeWhile isAtomChar) = some d) :
    Prepends (c :: cs.takeWhile isAtomChar) [d] (cs.dropWhile isAtomChar) := by
  intro front back items heq hfront
  have hends := endsAtom_dropWhile cs
  refine .atom (by simp) (isWordChar_of_mem_word hc cs) (ofAtom?_eq_some_iff.mp hatom) ?_ hfront
  rw [← endsAtom_iff]
  exact .of_append (heq ▸ hends)

/-- Where the reader succeeds, what it had read completes to what it answers. -/
theorem completes_of_readFrom {p : Progress} {cs : List Char} {ds : List Datum}
    (h : readFrom p cs = .ok ds) : Completes p cs ds := by
  fun_induction readFrom p cs with
  | case1 p hopen =>
      obtain ⟨openLists, finished⟩ := p
      obtain rfl : openLists = [] := hopen
      obtain rfl := Except.ok.inj h
      rw [← List.append_nil finished.reverse]
      exact .outside (.closed .nil)
  | case2 => cases h
  | case3 p c cs hblank ih => exact Completes.prepend (p := p) (prepends_blank hblank cs) (ih h)
  | case4 p cs _ ih => exact (ih h).comment
  | case5 p cs _ _ ih => exact (ih h).openAt
  | case6 p cs p' hclose _ _ _ ih => exact .close hclose (ih h)
  | case7 => cases h
  | case8 p cs s rest hcontents _ _ _ _ ih =>
      obtain ⟨written, hwritten, rfl⟩ := quoted_of_stringContents? hcontents
      have hcompletes := Completes.prepend (p := p) (prepends_text hwritten rest) (ih h)
      rwa [List.cons_append, List.append_assoc] at hcompletes
  | case9 => cases h
  | case10 p c cs hblank hcomment hopen hclose hquote d hatom ih =>
      have hc : IsWordChar c := ⟨Bool.eq_false_iff.mpr hblank, hopen, hclose, hquote, hcomment⟩
      have hcompletes := Completes.prepend (p := p) (prepends_atom hc hatom) (ih h)
      rwa [List.cons_append, List.takeWhile_append_dropWhile] at hcompletes
  | case11 => cases h

theorem source_of_readFrom {cs : List Char} {ds : List Datum} (h : readFrom ⟨[], []⟩ cs = .ok ds) :
    Source cs ds := by
  have hcompletes := completes_of_readFrom h
  cases hcompletes with
  | outside hsource => exact hsource

/-- The reader answers with data just if the source is derived as them. -/
theorem read_eq_ok_iff_source (source : String) (ds : List Datum) :
    read source = .ok ds ↔ Source source.toList ds := by
  rw [read_eq_ok_iff]
  exact ⟨source_of_readFrom, Source.readFrom⟩

end TypedLisp.Datum
