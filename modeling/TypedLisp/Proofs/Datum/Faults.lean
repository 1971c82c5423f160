import TypedLisp.Proofs.Datum.Grammar

/-!
Where reading fails. The texts that the reader fails on are described by rules of their own, apart
from how they are read, and the reader fails exactly as they tell. What stands before a fault is
items and lists that are opened and not closed, so it can be read by itself, up to lists left open.
An unexpected parenthesis has only whole items before it, which are read the same whatever comes
after it; the innermost open list has only whole items after it. Offsets in errors count the bytes
before the fault.
-/

namespace TypedLisp.Datum

open TypedLisp.Text

/-- Items, and between them lists that are opened and not closed. -/
inductive Opened : List Char → Prop where
  | items {cs : List Char} {ds : List Datum} (h : Items cs ds) : Opened cs
  | list {cs rest : List Char} {ds : List Datum} (h : Items cs ds) (hrest : Opened rest) :
      Opened (cs ++ '(' :: rest)

/-- A word between two texts that goes on, on both sides, as long as it can. -/
structure IsWholeWord (before word after : List Char) : Prop where
  ne_nil : word ≠ []
  chars : ∀ c ∈ word, IsWordChar c
  starts : ∀ c ∈ before.getLast?, ¬IsWordChar c
  ends : ∀ c ∈ after.head?, ¬IsWordChar c

/-- What the reader fails with on a text, while lists are open that start as given, innermost
first. -/
inductive Fails : List (List Char) → List Char → Fault → Prop where
  | string {starts : List (List Char)} {before after : List Char} (h : Opened before)
      (hafter : stringContents? after = none) :
      Fails starts (before ++ '"' :: after) (.unterminatedString ('"' :: after))
  | number {starts : List (List Char)} {before word after : List Char} (h : Opened before)
      (hword : IsWholeWord before word after) (hnone : ofAtom? word = none) :
      Fails starts (before ++ (word ++ after)) (.invalidNumber word (word ++ after))
  | close {before after : List Char} {ds : List Datum} (h : Items before ds) :
      Fails [] (before ++ ')' :: after) (.unexpectedClose (')' :: after))
  | outside {start : List Char} {starts : List (List Char)} {cs : List Char} {ds : List Datum}
      (h : Source cs ds) : Fails (start :: starts) cs (.unterminatedList start)
  | inside {starts : List (List Char)} {before after : List Char} {ds : List Datum}
      (h : Opened before) (hafter : Source after ds) :
      Fails starts (before ++ '(' :: after) (.unterminatedList ('(' :: after))
  | closing {start : List Char} {starts : List (List Char)} {before after : List Char}
      {ds : List Datum} {fault : Fault} (h : Items before ds) (hafter : Fails starts after fault) :
      Fails (start :: starts) (before ++ ')' :: after) fault

/-! ### What fails is found -/

theorem IsWholeWord.prepend {cs before word after : List Char}
    (hcs : Adjoins cs (before ++ (word ++ after))) (h : IsWholeWord before word after) :
    IsWholeWord (cs ++ before) word after := by
  refine ⟨h.ne_nil, h.chars, ?_, h.ends⟩
  cases before with
  | cons b before =>
      have hlast : (cs ++ b :: before).getLast? = (b :: before).getLast? := by
        simp [List.getLast?_append, List.getLast?_cons]
      rw [hlast]
      exact h.starts
  | nil =>
      rw [List.append_nil]
      rcases hcs with hcs | hends
      · exact hcs
      · obtain ⟨c, word, rfl⟩ := List.exists_cons_of_ne_nil h.ne_nil
        exact absurd (h.chars c List.mem_cons_self) (endsAtom_iff.mp hends c rfl)

theorem Opened.prepend {cs before after : List Char} {ds : List Datum}
    (hcs : Prepends cs ds (before ++ after)) (h : Opened before) : Opened (cs ++ before) := by
  cases h with
  | items h => exact .items (hcs _ _ _ rfl h)
  | list h hrest =>
      rw [List.append_assoc] at hcs
      rw [← List.append_assoc]
      exact .list (hcs _ _ _ rfl h) hrest

theorem Fails.prepend {starts : List (List Char)} {cs rest : List Char} {ds : List Datum}
    {fault : Fault} (hcs : Prepends cs ds rest) (hjoin : Adjoins cs rest)
    (h : Fails starts rest fault) : Fails starts (cs ++ rest) fault := by
  cases h with
  | outside h => exact .outside (hcs.source h)
  | number h hword hnone =>
      rw [← List.append_assoc]
      exact .number (h.prepend hcs) (hword.prepend hjoin) hnone
  | string h hafter =>
      rw [← List.append_assoc]
      exact .string (h.prepend hcs) hafter
  | close h =>
      rw [← List.append_assoc]
      exact .close (hcs _ _ _ rfl h)
  | inside h hafter =>
      rw [← List.append_assoc]
      exact .inside (h.prepend hcs) hafter
  | closing h hafter =>
      rw [← List.append_assoc]
      exact .closing (hcs _ _ _ rfl h) hafter

theorem Opened.opening {before : List Char} (h : Opened before) : Opened ('(' :: before) :=
  .list .nil h

theorem Fails.opening {starts : List (List Char)} {cs : List Char} {fault : Fault}
    (h : Fails (('(' :: cs) :: starts) cs fault) : Fails starts ('(' :: cs) fault := by
  have hclose : ¬IsWordChar ')' := fun h => h.2.2.1 rfl
  generalize hstart : '(' :: cs = start at h
  cases h with
  | string h hafter => exact hstart ▸ .string h.opening hafter
  | @number _ before word after h hword hnone =>
      have hopen : Adjoins ['('] (before ++ (word ++ after)) := .inl (by simp [IsWordChar])
      exact hstart ▸ .number h.opening (hword.prepend hopen) hnone
  | outside h => exact hstart ▸ .inside (.items .nil) h
  | inside h hafter => exact hstart ▸ .inside h.opening hafter
  | @closing _ _ before after _ _ hbefore hafter =>
      have hfails :=
        hafter.prepend (prepends_list hbefore _) (adjoins_concat hclose ('(' :: before) _)
      rw [List.cons_append, List.append_assoc] at hfails
      exact hstart ▸ hfails

/-- Where nothing is left of the source, a last comment could still stand. -/
theorem Fails.comment_of_nil {starts : List (List Char)} {fault : Fault}
    (h : Fails starts [] fault) {line : List Char} (hline : '\n' ∉ line) :
    Fails starts (';' :: line) fault := by
  generalize hnil : [] = cs at h
  cases h with
  | outside h =>
      cases h with
      | closed h =>
          subst hnil
          exact .outside (.comment h hline)
      | comment _ _ => simp at hnil
  | number _ hword _ =>
      have hempty := List.append_eq_nil_iff.mp (List.append_eq_nil_iff.mp hnil.symm).2
      exact absurd hempty.1 hword.ne_nil
  | string _ _ | close _ | inside _ _ | closing _ _ => simp at hnil

theorem Fails.comment {starts : List (List Char)} {cs : List Char} {fault : Fault}
    (h : Fails starts (afterComment cs) fault) : Fails starts (';' :: cs) fault := by
  have hblank : isBlank '\n' = true := by decide
  have hnewline : ¬IsWordChar '\n' := fun h => Bool.noConfusion (h.1.symm.trans hblank)
  rcases afterComment_cases cs with ⟨line, hline, heq⟩ | ⟨hcs, heq⟩
  · have hfails := h.prepend (prepends_comment hline _) (adjoins_concat hnewline (';' :: line) _)
    rwa [List.cons_append, List.append_assoc, List.singleton_append, ← heq] at hfails
  · rw [heq] at h
    exact h.comment_of_nil hcs

namespace Progress

/-- Where the open lists start, innermost first. -/
def starts (p : Progress) : List (List Char) :=
  p.openLists.map OpenList.start

theorem starts_add (p : Progress) (d : Datum) : (p.add d).starts = p.starts := by
  rw [add]
  split <;> simp_all [starts]

theorem starts_addEach (p : Progress) (ds : List Datum) : (ds.foldl add p).starts = p.starts := by
  induction ds generalizing p with
  | nil => rfl
  | cons d ds ih => rw [List.foldl_cons, ih, starts_add]

theorem map_starts_close? (p : Progress) : p.close?.map starts = p.starts.tail? := by
  rw [close?]
  split
  next hopen => simp [starts, hopen]
  next inner outer hopen =>
    rw [Option.map_some, starts_add]
    simp [starts, hopen]

end Progress

theorem fails_of_readFrom {p : Progress} {cs : List Char} {fault : Fault}
    (h : readFrom p cs = .error fault) : Fails p.starts cs fault := by
  fun_induction readFrom p cs with
  | case1 => cases h
  | case2 p inner outer hopen =>
      -- The source ends inside a list.
      obtain rfl := Except.error.inj h
      rw [Progress.starts, hopen]
      exact .outside (.closed .nil)
  | case3 p c cs hblank ih =>
      have hc : ¬IsWordChar c := fun hc => Bool.noConfusion (hc.1.symm.trans hblank)
      exact (ih h).prepend (prepends_blank hblank cs) (adjoins_concat hc [] cs)
  | case4 p cs _ ih => exact (ih h).comment
  | case5 p cs _ _ ih => exact (ih h).opening
  | case6 p cs p' hclose _ _ _ ih =>
      -- A parenthesis that closes the innermost open list.
      have hstarts := p.map_starts_close?
      rw [hclose, Option.map_some] at hstarts
      cases hp : p.starts with
      | nil =>
          rw [hp] at hstarts
          cases hstarts
      | cons start starts =>
          rw [hp, List.tail?_cons] at hstarts
          exact .closing .nil (Option.some.inj hstarts ▸ ih h)
  | case7 p cs hclose =>
      obtain rfl := Except.error.inj h
      obtain ⟨openLists, finished⟩ := p
      cases openLists with
      | nil => exact .close .nil
      | cons => cases hclose
  | case8 p cs s rest hcontents _ _ _ _ ih =>
      have hquote : ¬IsWordChar '"' := fun h => h.2.2.2.1 rfl
      obtain ⟨written, hwritten, rfl⟩ := quoted_of_stringContents? hcontents
      have hfails := ih h
      rw [Progress.starts_add] at hfails
      replace hfails :=
        hfails.prepend (prepends_text hwritten rest) (adjoins_concat hquote ('"' :: written) rest)
      rwa [List.cons_append, List.append_assoc] at hfails
  | case9 p cs hcontents =>
      -- A string that does not end.
      obtain rfl := Except.error.inj h
      exact .string (.items .nil) hcontents
  | case10 p c cs hblank hcomment hopen hclose hquote d hatom ih =>
      have hc : IsWordChar c := ⟨Bool.eq_false_iff.mpr hblank, hopen, hclose, hquote, hcomment⟩
      have hfails := ih h
      rw [Progress.starts_add] at hfails
      replace hfails := hfails.prepend (prepends_atom hc hatom) (.inr (endsAtom_dropWhile cs))
      rwa [List.cons_append, List.takeWhile_append_dropWhile] at hfails
  | case11 p c cs hblank hcomment hopen hclose hquote hatom =>
      have hc : IsWordChar c := ⟨Bool.eq_false_iff.mpr hblank, hopen, hclose, hquote, hcomment⟩
      -- A word that denotes nothing.
      obtain rfl := Except.error.inj h
      have hwhole : IsWholeWord [] (c :: cs.takeWhile isAtomChar) (cs.dropWhile isAtomChar) :=
        ⟨by simp, isWordChar_of_mem_word hc cs, by simp, endsAtom_iff.mp (endsAtom_dropWhile cs)⟩
      have hsplit : c :: cs = (c :: cs.takeWhile isAtomChar) ++ cs.dropWhile isAtomChar := by
        rw [List.cons_append, List.takeWhile_append_dropWhile]
      rw [hsplit]
      exact @Fails.number _ [] _ _ (.items .nil) hwhole hatom

/-! ### What is found fails -/

/-- A text with lists left open is read to its end, if what follows does not go on with its last
word. -/
theorem Opened.readFrom_adjoining {before : List Char} (h : Opened before) (p : Progress)
    {rest : List Char} (hrest : Adjoins before rest) :
    ∃ p', readFrom p (before ++ rest) = readFrom p' rest := by
  induction h generalizing p with
  | items h => exact ⟨_, h.readFrom_adjoining p hrest⟩
  | @list cs inner ds h _ ih =>
      have hends : EndsAtom ('(' :: (inner ++ rest)) := endsAtom_cons (by decide) _
      rw [List.append_assoc, List.cons_append, h.readFrom_append p hends, readFrom_opening]
      exact ih _ hrest.of_append.of_cons

theorem readFrom_nil_of_starts {p : Progress} {start : List Char} {starts : List (List Char)}
    (h : p.starts = start :: starts) : readFrom p [] = .error (.unterminatedList start) := by
  rw [Progress.starts, List.map_eq_cons_iff] at h
  obtain ⟨inner, outer, hopen, rfl, -⟩ := h
  rw [readFrom, hopen]

theorem readFrom_unterminated (p : Progress) {cs : List Char} (h : stringContents? cs = none) :
    readFrom p ('"' :: cs) = .error (.unterminatedString ('"' :: cs)) := by
  have hblank : isBlank '"' = false := by decide
  rw [readFrom]
  simp only [hblank, Bool.false_eq_true, if_false, Char.reduceEq, if_true]
  split
  next heq => cases h.symm.trans heq
  next => rfl

theorem Fails.readFrom {starts : List (List Char)} {cs : List Char} {fault : Fault}
    (h : Fails starts cs fault) {p : Progress} (hp : p.starts = starts) :
    Datum.readFrom p cs = .error fault := by
  induction h generalizing p with
  | @string _ before after hbefore hafter =>
      have hends : EndsAtom ('"' :: after) := endsAtom_cons (by decide) _
      obtain ⟨p', hread⟩ := hbefore.readFrom_adjoining p (.inr hends)
      rw [hread, readFrom_unterminated p' hafter]
  | number hbefore hword hnone =>
      obtain ⟨p', hread⟩ := hbefore.readFrom_adjoining p (.inl hword.starts)
      have hchars := fun c hc => isAtomChar_iff.mpr (hword.chars c hc)
      rw [hread, readFrom_word p' hword.ne_nil hchars (endsAtom_iff.mpr hword.ends), hnone,
        Option.elim_none]
  | @close before after ds hbefore =>
      have hclose := (ds.foldl Progress.add p).map_starts_close?
      rw [Progress.starts_addEach, hp, List.tail?_nil, Option.map_eq_none_iff] at hclose
      rw [hbefore.readFrom_append p (endsAtom_cons (by decide) _), Datum.readFrom]
      simp [isBlank, hclose]
  | @outside start starts cs ds h =>
      have hstarts : (ds.foldl Progress.add p).starts = start :: starts := by
        rw [Progress.starts_addEach, hp]
      rw [h.readFrom_addEach, readFrom_nil_of_starts hstarts]
  | @inside _ before after ds hbefore hafter =>
      have hends : EndsAtom ('(' :: after) := endsAtom_cons (by decide) _
      obtain ⟨p', hread⟩ := hbefore.readFrom_adjoining p (.inr hends)
      have hstarts : (ds.foldl Progress.add (p'.openAt ('(' :: after))).starts =
          ('(' :: after) :: p'.starts := Progress.starts_addEach _ ds
      rw [hread, readFrom_opening, hafter.readFrom_addEach, readFrom_nil_of_starts hstarts]
  | @closing start starts before after ds _ hbefore _ ih =>
      have hclose := (ds.foldl Progress.add p).map_starts_close?
      rw [Progress.starts_addEach, hp, List.tail?_cons, Option.map_eq_some_iff] at hclose
      obtain ⟨p', hclose, hstarts⟩ := hclose
      rw [hbefore.readFrom_append p (endsAtom_cons (by decide) _), readFrom_closing hclose]
      exact ih hstarts

theorem readFrom_eq_error_iff {p : Progress} {cs : List Char} {fault : Fault} :
    readFrom p cs = .error fault ↔ Fails p.starts cs fault :=
  ⟨fails_of_readFrom, fun h => h.readFrom rfl⟩

theorem read_eq_error_iff {source : String} {e : ReadError} :
    read source = .error e ↔ ∃ fault, Fails [] source.toList fault ∧
      fault.toError (byteLength source.toList) = e := by
  have hfails {fault : Fault} : readFrom ⟨[], []⟩ source.toList = .error fault ↔
      Fails [] source.toList fault := readFrom_eq_error_iff
  simp only [← hfails, read]
  cases readFrom ⟨[], []⟩ source.toList <;> simp [Except.mapError]

/-! ### What stands before a fault -/

/-- A source that is read, but for lists that are not closed. -/
def ReadsOpen (source : String) : Prop :=
  (∃ ds, read source = .ok ds) ∨ ∃ start, read source = .error (.unterminatedList start)

theorem Opened.readsOpen {before : List Char} (h : Opened before) :
    ReadsOpen (String.ofList before) := by
  obtain ⟨p, hread⟩ := h.readFrom_adjoining ⟨[], []⟩ (.inr endsAtom_nil)
  rw [List.append_nil, readFrom] at hread
  rw [ReadsOpen, read, String.toList_ofList, hread]
  cases p.openLists with
  | nil => exact .inl ⟨_, rfl⟩
  | cons inner outer => exact .inr ⟨_, rfl⟩

theorem byteLength_eq_utf8ByteSize (cs : List Char) :
    byteLength cs = (String.ofList cs).utf8ByteSize := by
  induction cs with
  | nil => rfl
  | cons c cs ih =>
      have hcons : byteLength (c :: cs) = c.utf8Size + byteLength cs := rfl
      rw [hcons, ih, String.ofList_cons, String.utf8ByteSize_append, String.utf8ByteSize_singleton]

theorem byteLength_append_sub (before rest : List Char) :
    byteLength (before ++ rest) - byteLength rest = (String.ofList before).utf8ByteSize := by
  rw [byteLength_eq_utf8ByteSize, byteLength_eq_utf8ByteSize, String.ofList_append,
    String.utf8ByteSize_append, Nat.add_sub_cancel]

/-! ### Escaped characters -/

/-- What comes after the text in a string is escaped: an odd number of backslashes ends it. -/
def Escapes (cs : List Char) : Prop :=
  (cs.reverse.takeWhile (· == '\\')).length % 2 = 1

theorem escapes_cons {c : Char} (hc : c ≠ '\\') {cs : List Char} (h : Escapes cs) :
    Escapes (c :: cs) := by
  rw [Escapes, List.reverse_cons, List.takeWhile_append]
  split <;> simp_all [Escapes]

theorem escapes_backslash_cons (c : Char) {cs : List Char} (h : Escapes cs) :
    Escapes ('\\' :: c :: cs) := by
  rw [Escapes, List.reverse_cons, List.reverse_cons, List.append_assoc, List.takeWhile_append]
  split
  next hall =>
    by_cases hc : c = '\\'
    · simp_all [Escapes]
    · simp_all [Escapes]
  next => exact h

theorem escapes_of_stringContents? {cs : List Char} (h : stringContents? cs = none)
    {before after : List Char} (hcs : cs = before ++ '"' :: after) : Escapes before := by
  fun_induction stringContents? cs generalizing before with
  | case1 => simp at hcs
  | case2 => cases h
  | case3 c cs ih =>
      rcases before with - | ⟨b, - | ⟨b', before⟩⟩
      · cases hcs
      · obtain ⟨rfl, -⟩ := List.cons.inj hcs
        rfl
      · obtain ⟨rfl, hnext⟩ := List.cons.inj hcs
        obtain ⟨rfl, hrest⟩ := List.cons.inj hnext
        exact escapes_backslash_cons c (ih (by simpa using h) hrest)
  | case4 =>
      rcases before with - | ⟨b, before⟩
      · cases hcs
      · simp at hcs
  | case5 c cs hquote hescape hlast ih =>
      rcases before with - | ⟨b, before⟩
      · exact absurd (List.cons.inj hcs).1 hquote
      · obtain ⟨rfl, hrest⟩ := List.cons.inj hcs
        have hbackslash : c ≠ '\\' := by
          rintro rfl
          cases cs with
          | nil => exact hlast rfl rfl
          | cons next cs => exact hescape next cs rfl rfl
        exact escapes_cons hbackslash (ih (by simpa using h) hrest)

/-! ### Errors -/

theorem Source.read {cs : List Char} {ds : List Datum} (h : Source cs ds) :
    Datum.read (String.ofList cs) = .ok ds := by
  rw [read_eq_ok_iff, String.toList_ofList]
  exact h.readFrom

/-- A parenthesis after whole items closes nothing, whatever follows it. -/
theorem Items.read_close {before : List Char} {ds : List Datum} (h : Items before ds)
    (more : String) : read (String.ofList before ++ ")" ++ more) =
      .error (.unexpectedClose (String.ofList before).utf8ByteSize) := by
  have hchars : (String.ofList before ++ ")" ++ more).toList = before ++ ')' :: more.toList := by
    simp
  rw [read_eq_error_iff, hchars]
  exact ⟨_, .close h, by rw [Fault.toError, byteLength_append_sub]⟩

theorem numeric_of_ofAtom?_eq_none {word : List Char} (h : ofAtom? word = none) :
    Numeric word ∧ Binary64.ofLiteral? word = none := by
  rw [ofAtom?] at h
  split at h
  next => cases h
  next =>
    split at h
    next => cases h
    next =>
      split at h
      next hnumeric => exact ⟨looksNumeric_iff.mp hnumeric, Option.map_eq_none_iff.mp h⟩
      next => cases h

theorem eq_append_of_toList {source : String} {before word after : List Char}
    (h : source.toList = before ++ (word ++ after)) :
    source = String.ofList before ++ String.ofList word ++ String.ofList after := by
  rw [← String.toList_inj, h]
  simp

/-- What an error says of the source: at its offset in bytes stands what is at fault, and how what
stands before and after it is read. -/
def ReadError.PointsInto (source : String) : ReadError → Prop
  | .unexpectedClose offset => ∃ before after : String,
      source = before ++ ")" ++ after ∧ before.utf8ByteSize = offset ∧
        (∃ ds, read before = .ok ds) ∧
        ∀ more : String, read (before ++ ")" ++ more) = .error (.unexpectedClose offset)
  | .unterminatedList offset => ∃ before after : String,
      source = before ++ "(" ++ after ∧ before.utf8ByteSize = offset ∧
        (∃ ds, read after = .ok ds) ∧ ReadsOpen before
  | .unterminatedString offset => ∃ before after : String,
      source = before ++ "\"" ++ after ∧ before.utf8ByteSize = offset ∧
        (∀ contents rest, after.toList = contents ++ '"' :: rest → Escapes contents) ∧
        ReadsOpen before
  | .invalidNumber literal offset => ∃ before after : String,
      source = before ++ literal ++ after ∧ before.utf8ByteSize = offset ∧
        IsWholeWord before.toList literal.toList after.toList ∧ Numeric literal.toList ∧
        Binary64.ofLiteral? literal.toList = none ∧ ReadsOpen before
  | .expectedSingle _ => False

/-- Every error of the reader points at its fault. -/
theorem error_points_at_fault {source : String} {e : ReadError} (h : read source = .error e) :
    ReadError.PointsInto source e := by
  obtain ⟨fault, hfails, rfl⟩ := read_eq_error_iff.mp h
  generalize hcs : source.toList = cs at hfails
  cases hfails with
  | @close before after ds hbefore =>
      refine ⟨.ofList before, .ofList after, eq_append_of_toList hcs, ?_, ⟨ds, ?_⟩, ?_⟩
      · rw [byteLength_append_sub]
      · exact (Source.closed hbefore).read
      · intro more
        rw [hbefore.read_close, byteLength_append_sub]
  | @inside _ before after ds hbefore hafter =>
      refine ⟨.ofList before, .ofList after, eq_append_of_toList hcs, ?_, ⟨ds, hafter.read⟩,
        hbefore.readsOpen⟩
      rw [byteLength_append_sub]
  | @string _ before after hbefore hafter =>
      refine ⟨.ofList before, .ofList after, eq_append_of_toList hcs, ?_, ?_, hbefore.readsOpen⟩
      · rw [byteLength_append_sub]
      · intro contents rest hrest
        rw [String.toList_ofList] at hrest
        exact escapes_of_stringContents? hafter hrest
  | @number _ before word after hbefore hword hnone =>
      obtain ⟨hnumeric, hliteral⟩ := numeric_of_ofAtom?_eq_none hnone
      refine ⟨.ofList before, .ofList after, eq_append_of_toList hcs, ?_, ?_, ?_, ?_,
        hbefore.readsOpen⟩
      · rw [byteLength_append_sub]
      all_goals simpa only [String.toList_ofList]

theorem error_points_at_fault_after_accent :
    (read "é) x" = .error (.unexpectedClose 2) ∧
      ReadError.PointsInto "é) x" (.unexpectedClose 2)) ∧
    (read "(é (" = .error (.unterminatedList 4) ∧
      ReadError.PointsInto "(é (" (.unterminatedList 4)) ∧
    (read "(é \"a\\\"" = .error (.unterminatedString 4) ∧
      ReadError.PointsInto "(é \"a\\\"" (.unterminatedString 4)) ∧
    (read "(é 1x" = .error (.invalidNumber "1x" 4) ∧
      ReadError.PointsInto "(é 1x" (.invalidNumber "1x" 4)) := by
  have hname : Items "é".toList [.symbol "é"] :=
    Items.word "é" (by decide) (by decide) rfl endsAtom_nil .nil
  have hspaced : Items "é ".toList [.symbol "é"] :=
    Items.word "é" (by decide) (by decide) rfl (endsAtom_cons (by decide) _)
      (.blank (by decide) .nil)
  have hopened : Opened "(é ".toList := .list .nil (.items hspaced)
  have hword : IsWholeWord "(é ".toList "1x".toList [] := by
    refine ⟨by decide, fun c hc => isAtomChar_iff.mp (List.all_eq_true.mp ?_ c hc), ?_, by simp⟩
    · decide
    · rintro c ⟨⟩ hc
      exact Bool.noConfusion hc.1
  have hclose : read "é) x" = .error (.unexpectedClose 2) :=
    read_eq_error_iff.mpr ⟨_, .close hname, rfl⟩
  have hlist : read "(é (" = .error (.unterminatedList 4) :=
    read_eq_error_iff.mpr ⟨_, .inside hopened (.closed .nil), rfl⟩
  have hstring : read "(é \"a\\\"" = .error (.unterminatedString 4) :=
    read_eq_error_iff.mpr ⟨_, .string hopened rfl, rfl⟩
  have hnumber : read "(é 1x" = .error (.invalidNumber "1x" 4) :=
    read_eq_error_iff.mpr ⟨_, .number hopened hword rfl, rfl⟩
  exact ⟨⟨hclose, error_points_at_fault hclose⟩, ⟨hlist, error_points_at_fault hlist⟩,
    ⟨hstring, error_points_at_fault hstring⟩, hnumber, error_points_at_fault hnumber⟩

end TypedLisp.Datum
