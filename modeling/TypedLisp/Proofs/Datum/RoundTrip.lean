import TypedLisp.Datum.Printer
import TypedLisp.Datum.Reader
import TypedLisp.Proofs.Number.RoundTrip

namespace TypedLisp.Datum

open TypedLisp.Text

mutual

/-- The atoms of a datum, in the order they are written. -/
def atoms : Datum → List Datum
  | list items => atomsOfEach items
  | d => [d]

def atomsOfEach : List Datum → List Datum
  | [] => []
  | d :: ds => atoms d ++ atomsOfEach ds

end

theorem atomsOfEach_append (ds more : List Datum) :
    atomsOfEach (ds ++ more) = atomsOfEach ds ++ atomsOfEach more := by
  induction ds with
  | nil => rfl
  | cons d ds ih => rw [List.cons_append, atomsOfEach, atomsOfEach, ih, List.append_assoc]

theorem mem_atomsOfEach_reverse {a : Datum} {ds : List Datum} :
    a ∈ atomsOfEach ds.reverse ↔ a ∈ atomsOfEach ds := by
  induction ds with
  | nil => rfl
  | cons d ds ih =>
      simp only [List.reverse_cons, atomsOfEach_append, atomsOfEach, List.append_nil,
        List.mem_append, ih]
      exact or_comm

/-- A name that is read as a symbol: a word that no blank, parenthesis, quote or comment cuts, and
that is neither a boolean nor looks like a number. -/
structure Readable (name : String) : Prop where
  ne_empty : name ≠ ""
  uncut : ∀ c ∈ name.toList, isBlank c = false ∧ c ≠ '(' ∧ c ≠ ')' ∧ c ≠ '"' ∧ c ≠ ';'
  ne_true : name ≠ "true"
  ne_false : name ≠ "false"
  not_numeric : looksNumeric name.toList = false

theorem isAtomChar_iff {c : Char} : isAtomChar c = true ↔
    isBlank c = false ∧ c ≠ '(' ∧ c ≠ ')' ∧ c ≠ '"' ∧ c ≠ ';' := by
  simp [isAtomChar, and_assoc]

theorem ofAtom?_of_readable {name : String} (h : Readable name) :
    ofAtom? name.toList = some (symbol name) := by
  have htrue : name.toList ≠ "true".toList := fun heq => h.ne_true (String.toList_inj.mp heq)
  have hfalse : name.toList ≠ "false".toList := fun heq => h.ne_false (String.toList_inj.mp heq)
  rw [ofAtom?, if_neg htrue, if_neg hfalse, if_neg (by simp [h.not_numeric]), String.ofList_toList]

theorem cases_of_ofAtom? {word : List Char} {d : Datum} (h : ofAtom? word = some d) :
    (∃ b, d = boolean b) ∨
    (∃ x, d = number x ∧ looksNumeric word = true ∧ Binary64.ofLiteral? word = some x) ∨
    (d = symbol (String.ofList word) ∧ word ≠ "true".toList ∧ word ≠ "false".toList ∧
      looksNumeric word = false) := by
  rw [ofAtom?] at h
  split at h
  next => exact .inl ⟨true, (Option.some.inj h).symm⟩
  next htrue =>
    split at h
    next => exact .inl ⟨false, (Option.some.inj h).symm⟩
    next hfalse =>
      split at h
      next hnumeric =>
        obtain ⟨x, hx, rfl⟩ := Option.map_eq_some_iff.mp h
        exact .inr (.inl ⟨x, rfl, hnumeric, hx⟩)
      next hnumeric =>
        exact .inr (.inr ⟨(Option.some.inj h).symm, htrue, hfalse, Bool.eq_false_iff.mpr hnumeric⟩)

theorem readable_of_ofAtom? {word : List Char} {name : String} (hne : word ≠ [])
    (hchars : ∀ c ∈ word, isAtomChar c = true) (h : ofAtom? word = some (symbol name)) :
    Readable name := by
  have htext (text : String) : String.ofList word = text ↔ word = text.toList := by
    rw [← String.toList_inj, String.toList_ofList]
  rcases cases_of_ofAtom? h with ⟨b, hb⟩ | ⟨x, hx, -⟩ | ⟨hname, htrue, hfalse, hnumeric⟩
  · exact nomatch hb
  · exact nomatch hx
  · obtain rfl := symbol.inj hname
    constructor
    · exact fun heq => hne ((htext "").mp heq)
    · intro c hc
      rw [String.toList_ofList] at hc
      exact isAtomChar_iff.mp (hchars c hc)
    · exact fun heq => htrue ((htext "true").mp heq)
    · exact fun heq => hfalse ((htext "false").mp heq)
    · rw [String.toList_ofList]
      exact hnumeric

theorem literal_of_ofAtom? {word : List Char} {x : Binary64} (h : ofAtom? word = some (number x)) :
    looksNumeric word = true ∧ Binary64.ofLiteral? word = some x := by
  rcases cases_of_ofAtom? h with ⟨b, hb⟩ | ⟨y, hy, hnumeric, hliteral⟩ | ⟨hname, -⟩
  · exact nomatch hb
  · obtain rfl := number.inj hy
    exact ⟨hnumeric, hliteral⟩
  · exact nomatch hname

theorem isAtomChar_of_isDigit {c : Char} (h : c.isDigit = true) : isAtomChar c = true := by
  have hrange : 48 ≤ c.toNat ∧ c.toNat ≤ 57 := by
    simpa [Char.isDigit, UInt32.le_iff_toNat_le] using h
  have hblank : isBlank c = false := by
    simp [isBlank]
    omega
  rw [isAtomChar_iff]
  refine ⟨hblank, ?_, ?_, ?_, ?_⟩ <;> rintro rfl <;> exact absurd h (by decide)

theorem isAtomChar_toChars {x : Binary64} (h : x.isFinite = true) {c : Char} (hc : c ∈ x.toChars) :
    isAtomChar c = true := by
  have htext := Binary64.positional_magnitudeText (Binary64.isFinite_iff.mp h)
  have hchar : c = '-' ∨ c ∈ Binary64.magnitudeText x.magnitude := by
    rw [Binary64.toChars_of_isFinite h] at hc
    split at hc
    · exact List.mem_cons.mp hc
    · exact .inr hc
  rcases hchar with rfl | hc
  · decide
  · rcases htext.isDigit_or_point hc with hdigit | rfl
    · exact isAtomChar_of_isDigit hdigit
    · decide

theorem looksNumeric_toChars {x : Binary64} (h : x.isFinite = true) :
    looksNumeric x.toChars = true := by
  have htext := Binary64.positional_magnitudeText (Binary64.isFinite_iff.mp h)
  obtain ⟨c, rest, hcons, hdigit⟩ := htext.exists_cons
  rw [Binary64.toChars_of_isFinite h, hcons]
  split
  · simp [looksNumeric, hdigit]
  · simp [looksNumeric, hdigit]

theorem ofAtom?_of_literal {word : List Char} {x : Binary64} (hnumeric : looksNumeric word = true)
    (h : Binary64.ofLiteral? word = some x) : ofAtom? word = some (number x) := by
  have htrue : word ≠ "true".toList := by
    rintro rfl
    exact absurd hnumeric (by decide)
  have hfalse : word ≠ "false".toList := by
    rintro rfl
    exact absurd hnumeric (by decide)
  rw [ofAtom?, if_neg htrue, if_neg hfalse, if_pos hnumeric, h, Option.map_some]

/-- What follows does not continue an atom. -/
def EndsAtom (rest : List Char) : Prop :=
  rest.takeWhile isAtomChar = []

theorem endsAtom_nil : EndsAtom [] := rfl

theorem endsAtom_cons {c : Char} (h : isAtomChar c = false) (rest : List Char) :
    EndsAtom (c :: rest) := by
  simp [EndsAtom, h]

theorem readFrom_word (p : Progress) {word rest : List Char} (hne : word ≠ [])
    (hchars : ∀ c ∈ word, isAtomChar c = true) (hrest : EndsAtom rest) :
    readFrom p (word ++ rest) =
      (ofAtom? word).elim (.error (.invalidNumber word (word ++ rest)))
        fun d => readFrom (p.add d) rest := by
  obtain ⟨c, cs, rfl⟩ := List.exists_cons_of_ne_nil hne
  obtain ⟨hblank, hopen, hclose, hquote, hcomment⟩ := isAtomChar_iff.mp (hchars c (by simp))
  have hcs : ∀ a ∈ cs, isAtomChar a = true := fun a ha => hchars a (by simp [ha])
  have htake : (cs ++ rest).takeWhile isAtomChar = cs := by
    rw [List.takeWhile_append_of_pos hcs, hrest, List.append_nil]
  have hdrop : (cs ++ rest).dropWhile isAtomChar = rest := by
    rw [List.dropWhile_append_of_pos hcs]
    have happend := List.takeWhile_append_dropWhile (p := isAtomChar) (l := rest)
    rwa [hrest, List.nil_append] at happend
  rw [List.cons_append, readFrom]
  simp only [hblank, hopen, hclose, hquote, hcomment, htake, hdrop, Bool.false_eq_true, if_false]
  cases ofAtom? (c :: cs) <;> rfl

theorem readFrom_atom (p : Progress) {word rest : List Char} {d : Datum} (hne : word ≠ [])
    (hchars : ∀ c ∈ word, isAtomChar c = true) (hrest : EndsAtom rest)
    (h : ofAtom? word = some d) : readFrom p (word ++ rest) = readFrom (p.add d) rest := by
  rw [readFrom_word p hne hchars hrest, h, Option.elim_some]

theorem stringContents?_escape (s rest : List Char) :
    stringContents? (escape s ++ '"' :: rest) = some (s, rest) := by
  induction s with
  | nil => rfl
  | cons c s ih =>
      rw [escape]
      split
      next => simp [stringContents?, ih]
      next hplain =>
        rw [not_or] at hplain
        rw [List.cons_append, stringContents?, ih]
        · rfl
        · exact hplain.1
        · exact fun _ _ heq => absurd heq hplain.2
        · exact fun heq => absurd heq hplain.2

theorem readFrom_text (p : Progress) (s : String) (rest : List Char) :
    readFrom p ((text s).charsBefore rest) = readFrom (p.add (text s)) rest := by
  have hblank : isBlank '"' = false := by decide
  have hcontents := stringContents?_escape s.toList rest
  rw [charsBefore, readFrom]
  simp only [hblank, Bool.false_eq_true, if_false, Char.reduceEq, if_true]
  split
  next contents rest' heq =>
    obtain ⟨rfl, rfl⟩ : s.toList = contents ∧ rest = rest' := by simpa [hcontents] using heq
    rw [String.ofList_toList]
  next heq => cases hcontents.symm.trans heq

mutual

/-- What is read back in place of a written datum: a number that is not finite becomes the symbol
it is written as. -/
def reread : Datum → Datum
  | number x => if x.isFinite then number x else symbol (String.ofList x.toChars)
  | list items => list (rereadEach items)
  | d => d

def rereadEach : List Datum → List Datum
  | [] => []
  | d :: ds => reread d :: rereadEach ds

end

theorem readable_of_isFinite_false {x : Binary64} (h : x.isFinite = false) :
    Readable (String.ofList x.toChars) := by
  have hword {word : List Char} (hne : word ≠ []) (hchars : word.all isAtomChar = true)
      (hatom : ofAtom? word = some (symbol (String.ofList word))) : Readable (String.ofList word) :=
    readable_of_ofAtom? hne (List.all_eq_true.mp hchars) hatom
  rcases Binary64.toChars_of_isFinite_false h with htext | htext | htext <;> rw [htext]
  · exact hword (by simp) (by decide) rfl
  · exact hword (by simp) (by decide) rfl
  · exact hword (by simp) (by decide) rfl

theorem readFrom_symbol (p : Progress) {name : String} (h : Readable name) {rest : List Char}
    (hrest : EndsAtom rest) :
    readFrom p (name.toList ++ rest) = readFrom (p.add (symbol name)) rest := by
  refine readFrom_atom p ?_ ?_ hrest (ofAtom?_of_readable h)
  · exact fun hnil => h.ne_empty (String.toList_inj.mp hnil)
  · exact fun c hc => isAtomChar_iff.mpr (h.uncut c hc)

theorem readFrom_number (p : Progress) (x : Binary64) {rest : List Char} (hrest : EndsAtom rest) :
    readFrom p (x.toChars ++ rest) = readFrom (p.add (number x).reread) rest := by
  by_cases hfinite : x.isFinite = true
  · rw [reread, if_pos hfinite]
    refine readFrom_atom p ?_ (fun c hc => isAtomChar_toChars hfinite hc) hrest
      (ofAtom?_of_literal (looksNumeric_toChars hfinite) (Binary64.ofLiteral?_toChars hfinite))
    intro hnil
    have hnumeric := looksNumeric_toChars hfinite
    rw [hnil] at hnumeric
    exact absurd hnumeric (by decide)
  · rw [reread, if_neg hfinite]
    have hreadable := readable_of_isFinite_false (Bool.eq_false_iff.mpr hfinite)
    have hsymbol := readFrom_symbol p hreadable hrest
    rwa [String.toList_ofList] at hsymbol

theorem readFrom_boolean (p : Progress) (b : Bool) {rest : List Char} (hrest : EndsAtom rest) :
    readFrom p ((boolean b).charsBefore rest) = readFrom (p.add (boolean b)) rest := by
  cases b with
  | true => exact readFrom_atom p (by simp) (List.all_eq_true.mp (by decide)) hrest rfl
  | false => exact readFrom_atom p (by simp) (List.all_eq_true.mp (by decide)) hrest rfl

namespace Progress

theorem openLists_addEach (p : Progress) (inner : OpenList) (outer : List OpenList)
    (hp : p.openLists = inner :: outer) (ds : List Datum) :
    ds.foldl add p = { p with
      openLists := { inner with items := ds.reverse ++ inner.items } :: outer } := by
  induction ds generalizing p inner with
  | nil => simp [← hp]
  | cons d ds ih =>
      have hadd : p.add d = { p with
          openLists := { inner with items := d :: inner.items } :: outer } := by
        rw [add, hp]
      rw [List.foldl_cons, hadd, ih _ _ rfl]
      simp

theorem close?_addEach_openAt (p : Progress) (start : List Char) (ds : List Datum) :
    (ds.foldl add (p.openAt start)).close? = some (p.add (list ds)) := by
  rw [openLists_addEach (p.openAt start) ⟨start, []⟩ p.openLists rfl ds]
  simp [close?, openAt]

theorem addEach_outside (finished ds : List Datum) :
    ds.foldl add ⟨[], finished⟩ = ⟨[], ds.reverse ++ finished⟩ := by
  induction ds generalizing finished with
  | nil => rfl
  | cons d ds ih =>
      rw [List.foldl_cons, add, ih]
      simp

end Progress

mutual

/-- Reading a written datum adds what is read back in its place. -/
theorem readFrom_charsBefore (p : Progress) (d : Datum)
    (hd : ∀ name, symbol name ∈ d.atoms → Readable name) {rest : List Char}
    (hrest : EndsAtom rest) :
    readFrom p (d.charsBefore rest) = readFrom (p.add d.reread) rest := by
  match d with
  | number x => exact readFrom_number p x hrest
  | text s => exact readFrom_text p s rest
  | boolean b => exact readFrom_boolean p b hrest
  | symbol name => exact readFrom_symbol p (hd name (by simp [atoms])) hrest
  | list items =>
      have hopen : isBlank '(' = false := by decide
      have hclose : isBlank ')' = false := by decide
      have hends : EndsAtom (')' :: rest) := endsAtom_cons (by decide) rest
      rw [charsBefore, readFrom]
      simp only [hopen, Bool.false_eq_true, if_false, Char.reduceEq, if_true]
      rw [readFrom_itemsBefore _ items hd hends, readFrom]
      simp only [hclose, Bool.false_eq_true, if_false, Char.reduceEq, if_true,
        Progress.close?_addEach_openAt, reread]

theorem readFrom_itemsBefore (p : Progress) (ds : List Datum)
    (hds : ∀ name, symbol name ∈ atomsOfEach ds → Readable name) {rest : List Char}
    (hrest : EndsAtom rest) :
    readFrom p (itemsBefore ds rest) = readFrom ((rereadEach ds).foldl Progress.add p) rest := by
  match ds with
  | [] => rfl
  | [d] =>
      have hd : ∀ name, symbol name ∈ d.atoms → Readable name := fun name hname =>
        hds name (by simp [atomsOfEach, hname])
      exact readFrom_charsBefore p d hd hrest
  | d :: next :: ds =>
      have hd : ∀ name, symbol name ∈ d.atoms → Readable name := fun name hname =>
        hds name (by simp [atomsOfEach, hname])
      have hmore : ∀ name, symbol name ∈ atomsOfEach (next :: ds) → Readable name :=
        fun name hname => hds name (by rw [atomsOfEach]; exact List.mem_append_right _ hname)
      have hblank : isBlank ' ' = true := by decide
      have hspace : EndsAtom (' ' :: itemsBefore (next :: ds) rest) :=
        endsAtom_cons (by decide) _
      show readFrom p (d.charsBefore (' ' :: itemsBefore (next :: ds) rest)) =
        readFrom ((rereadEach (next :: ds)).foldl Progress.add (p.add d.reread)) rest
      rw [readFrom_charsBefore p d hd hspace, readFrom, if_pos hblank,
        readFrom_itemsBefore _ (next :: ds) hmore hrest]

end

theorem toList_intercalate_shown_cons (d : Datum) (ds : List Datum) :
    (String.intercalate " " ((d :: ds).map shown)).toList = itemsBefore (d :: ds) [] := by
  induction ds generalizing d with
  | nil => simp [shown, itemsBefore, toChars]
  | cons next ds ih =>
      show (String.intercalate " " (d.shown :: next.shown :: ds.map shown)).toList =
        d.charsBefore (' ' :: itemsBefore (next :: ds) [])
      have hmore := ih next
      rw [List.map_cons] at hmore
      rw [String.intercalate_cons_cons, String.toList_append, String.toList_append, hmore, shown,
        String.toList_ofList, charsBefore_eq, List.append_assoc]
      rfl

theorem shownAll_eq_intercalate (ds : List Datum) :
    String.intercalate " " (ds.map shown) = shownAll ds := by
  rw [← String.toList_inj, shownAll, String.toList_ofList]
  cases ds with
  | nil => rfl
  | cons d ds => exact toList_intercalate_shown_cons d ds

theorem read_eq_ok_iff {source : String} {ds : List Datum} :
    read source = .ok ds ↔ readFrom ⟨[], []⟩ source.toList = .ok ds := by
  rw [read]
  cases readFrom ⟨[], []⟩ source.toList <;> simp [Except.mapError]

theorem read_shownAll {ds : List Datum}
    (h : ∀ name, symbol name ∈ atomsOfEach ds → Readable name) :
    read (shownAll ds) = .ok (rereadEach ds) := by
  rw [read_eq_ok_iff, shownAll, String.toList_ofList,
    readFrom_itemsBefore _ ds h endsAtom_nil, Progress.addEach_outside, readFrom]
  simp

mutual

theorem reread_eq_self_iff (d : Datum) :
    d.reread = d ↔ ∀ x, number x ∈ d.atoms → x.isFinite = true := by
  match d with
  | number x =>
      by_cases hfinite : x.isFinite = true
      · simp [reread, atoms, hfinite]
      · simp [reread, atoms, hfinite]
  | text s => simp [reread, atoms]
  | boolean b => simp [reread, atoms]
  | symbol name => simp [reread, atoms]
  | list items =>
      rw [reread, atoms, list.injEq]
      exact rereadEach_eq_self_iff items

theorem rereadEach_eq_self_iff (ds : List Datum) :
    rereadEach ds = ds ↔ ∀ x, number x ∈ atomsOfEach ds → x.isFinite = true := by
  match ds with
  | [] => simp [rereadEach, atomsOfEach]
  | d :: ds =>
      rw [rereadEach, List.cons.injEq, reread_eq_self_iff d, rereadEach_eq_self_iff ds, atomsOfEach]
      simp only [List.mem_append, or_imp, forall_and]

end

/-- The atoms of all data read so far. -/
def Progress.atoms (p : Progress) : List Datum :=
  p.openLists.flatMap (fun inner => atomsOfEach inner.items) ++ atomsOfEach p.finished

theorem Progress.mem_atoms_add {p : Progress} {d a : Datum} :
    a ∈ (p.add d).atoms ↔ a ∈ d.atoms ∨ a ∈ p.atoms := by
  obtain ⟨openLists, finished⟩ := p
  cases openLists with
  | nil => simp [add, Progress.atoms, atomsOfEach]
  | cons inner outer => simp [add, Progress.atoms, atomsOfEach]

theorem Progress.atoms_openAt (p : Progress) (start : List Char) :
    (p.openAt start).atoms = p.atoms := by
  simp [openAt, Progress.atoms, atomsOfEach]

theorem Progress.mem_atoms_close? {p p' : Progress} (h : p.close? = some p') {a : Datum} :
    a ∈ p'.atoms ↔ a ∈ p.atoms := by
  obtain ⟨openLists, finished⟩ := p
  cases openLists with
  | nil => exact nomatch h
  | cons inner outer =>
      obtain rfl := Option.some.inj h
      rw [mem_atoms_add, Datum.atoms, mem_atomsOfEach_reverse]
      simp [Progress.atoms]

/-- A text, or what an atom somewhere in the source denotes. -/
def OccursIn (a : Datum) (source : List Char) : Prop :=
  (∃ s, a = text s) ∨
    ∃ word, word <:+: source ∧ word ≠ [] ∧ (∀ c ∈ word, isAtomChar c = true) ∧ ofAtom? word = some a

theorem OccursIn.of_suffix {a : Datum} {rest source : List Char} (h : OccursIn a rest)
    (hsuffix : rest <:+ source) : OccursIn a source := by
  rcases h with htext | ⟨word, hword, hatom⟩
  · exact .inl htext
  · exact .inr ⟨word, hword.trans hsuffix.isInfix, hatom⟩

theorem afterComment_suffix (cs : List Char) : afterComment cs <:+ cs := by
  induction cs with
  | nil => exact List.suffix_rfl
  | cons c cs ih =>
      rw [afterComment]
      split
      · exact List.suffix_cons c cs
      · exact ih.trans (List.suffix_cons c cs)

theorem suffix_of_stringContents? {cs s rest : List Char}
    (h : stringContents? cs = some (s, rest)) : rest <:+ cs := by
  fun_induction stringContents? cs generalizing s rest with
  | case1 => cases h
  | case2 cs =>
      obtain ⟨-, rfl⟩ := by simpa using h
      exact List.suffix_cons _ _
  | case3 c cs ih =>
      obtain ⟨⟨s', rest'⟩, hs, he⟩ := Option.map_eq_some_iff.mp h
      obtain ⟨-, rfl⟩ := by simpa using he
      exact (ih hs).trans ((List.suffix_cons c cs).trans (List.suffix_cons _ _))
  | case4 => cases h
  | case5 c cs _ _ _ ih =>
      obtain ⟨⟨s', rest'⟩, hs, he⟩ := Option.map_eq_some_iff.mp h
      obtain ⟨-, rfl⟩ := by simpa using he
      exact (ih hs).trans (List.suffix_cons c cs)

theorem atoms_of_ofAtom? {word : List Char} {d : Datum} (h : ofAtom? word = some d) :
    d.atoms = [d] := by
  rcases cases_of_ofAtom? h with ⟨b, rfl⟩ | ⟨x, rfl, -⟩ | ⟨rfl, -⟩ <;> rfl

theorem mem_atoms_of_readFrom {p : Progress} {source : List Char} {ds : List Datum}
    (h : readFrom p source = .ok ds) {a : Datum} (ha : a ∈ atomsOfEach ds) :
    a ∈ p.atoms ∨ OccursIn a source := by
  fun_induction readFrom p source with
  | case1 p hopen =>
      obtain rfl := Except.ok.inj h
      refine .inl (List.mem_append_right _ ?_)
      exact mem_atomsOfEach_reverse.mp ha
  | case2 => exact nomatch h
  | case3 p c cs hblank ih =>
      exact (ih h).imp_right fun hrest => hrest.of_suffix (List.suffix_cons c cs)
  | case4 p cs _ ih =>
      exact (ih h).imp_right fun hrest =>
        hrest.of_suffix ((afterComment_suffix cs).trans (List.suffix_cons _ cs))
  | case5 p cs _ _ ih =>
      rw [Progress.atoms_openAt] at ih
      exact (ih h).imp_right fun hrest => hrest.of_suffix (List.suffix_cons _ cs)
  | case6 p cs p' hclose _ _ _ ih =>
      rw [Progress.mem_atoms_close? hclose] at ih
      exact (ih h).imp_right fun hrest => hrest.of_suffix (List.suffix_cons _ cs)
  | case7 => exact nomatch h
  | case8 p cs s rest hcontents _ _ _ _ ih =>
      rcases ih h with hadded | hrest
      · rcases Progress.mem_atoms_add.mp hadded with hnew | hold
        · exact .inr (.inl ⟨_, List.mem_singleton.mp hnew⟩)
        · exact .inl hold
      · exact .inr (hrest.of_suffix ((suffix_of_stringContents? hcontents).trans
          (List.suffix_cons _ cs)))
  | case9 => exact nomatch h
  | case10 p c cs hblank hcomment hopen hclose hquote d hatom ih =>
      rcases ih h with hadded | hrest
      · rcases Progress.mem_atoms_add.mp hadded with hnew | hold
        · rw [atoms_of_ofAtom? hatom] at hnew
          obtain rfl := List.mem_singleton.mp hnew
          have hc : isAtomChar c = true :=
            isAtomChar_iff.mpr ⟨Bool.eq_false_iff.mpr hblank, hopen, hclose, hquote, hcomment⟩
          have hword : c :: cs.takeWhile isAtomChar <+: c :: cs :=
            List.cons_prefix_cons.mpr ⟨rfl, List.takeWhile_prefix _⟩
          refine .inr (.inr ⟨_, hword.isInfix, by simp, ?_, hatom⟩)
          intro b hb
          rcases List.mem_cons.mp hb with rfl | hb
          · exact hc
          · exact List.mem_takeWhile_imp hb
        · exact .inl hold
      · exact .inr (hrest.of_suffix ((List.dropWhile_suffix _).trans (List.suffix_cons c cs)))
  | case11 => exact nomatch h

theorem occursIn_of_read {source : String} {ds : List Datum} (h : read source = .ok ds) {a : Datum}
    (ha : a ∈ atomsOfEach ds) : OccursIn a source.toList := by
  rcases mem_atoms_of_readFrom (read_eq_ok_iff.mp h) ha with hbefore | hsource
  · exact nomatch hbefore
  · exact hsource

theorem readable_of_read {source : String} {ds : List Datum} (h : read source = .ok ds)
    {name : String} (hname : symbol name ∈ atomsOfEach ds) : Readable name := by
  rcases occursIn_of_read h hname with ⟨s, hs⟩ | ⟨word, -, hne, hchars, hatom⟩
  · exact nomatch hs
  · exact readable_of_ofAtom? hne hchars hatom

theorem literal_of_read {source : String} {ds : List Datum} (h : read source = .ok ds)
    {x : Binary64} (hx : number x ∈ atomsOfEach ds) :
    ∃ literal, literal <:+: source.toList ∧ looksNumeric literal = true ∧
      Binary64.ofLiteral? literal = some x := by
  rcases occursIn_of_read h hx with ⟨s, hs⟩ | ⟨word, hword, -, -, hatom⟩
  · exact nomatch hs
  · exact ⟨word, hword, literal_of_ofAtom? hatom⟩

theorem read_shownAll_eq_ok_iff (ds : List Datum) :
    read (shownAll ds) = .ok ds ↔
      (∀ x, number x ∈ atomsOfEach ds → x.isFinite = true) ∧
      (∀ name, symbol name ∈ atomsOfEach ds → Readable name) := by
  constructor
  · intro h
    have hsymbols : ∀ name, symbol name ∈ atomsOfEach ds → Readable name := fun _ =>
      readable_of_read h
    have hsame : rereadEach ds = ds := Except.ok.inj ((read_shownAll hsymbols).symm.trans h)
    exact ⟨(rereadEach_eq_self_iff ds).mp hsame, hsymbols⟩
  · rintro ⟨hfinite, hsymbols⟩
    rw [read_shownAll hsymbols, (rereadEach_eq_self_iff ds).mpr hfinite]

/-- Data are read back from their written forms, joined by single spaces, just if all their numbers
are finite and all their symbols readable. Data that were read have readable symbols, so they fail
to be read back just if some literal of their source overflowed to an infinity. -/
theorem read_shown_round_trip (ds : List Datum) :
    (read (String.intercalate " " (ds.map shown)) = .ok ds ↔
      (∀ x, number x ∈ atomsOfEach ds → x.isFinite = true) ∧
      (∀ name, symbol name ∈ atomsOfEach ds → Readable name)) ∧
    ∀ source, read source = .ok ds →
      (∀ name, symbol name ∈ atomsOfEach ds → Readable name) ∧
      (read (String.intercalate " " (ds.map shown)) ≠ .ok ds ↔
        ∃ x literal, number x ∈ atomsOfEach ds ∧ x.magnitude = Binary64.infiniteMagnitude ∧
          literal <:+: source.toList ∧ looksNumeric literal = true ∧
          Binary64.ofLiteral? literal = some x) := by
  rw [shownAll_eq_intercalate]
  refine ⟨read_shownAll_eq_ok_iff ds, fun source hread => ?_⟩
  have hsymbols : ∀ name, symbol name ∈ atomsOfEach ds → Readable name := fun _ =>
    readable_of_read hread
  refine ⟨hsymbols, ?_⟩
  rw [ne_eq, read_shownAll_eq_ok_iff]
  constructor
  · intro hfails
    obtain ⟨x, hx, hnotFinite⟩ : ∃ x, number x ∈ atomsOfEach ds ∧ x.isFinite ≠ true := by
      by_contra hnone
      exact hfails ⟨fun x hx => by_contra fun hx' => hnone ⟨x, hx, hx'⟩, hsymbols⟩
    obtain ⟨literal, hinfix, hnumeric, hliteral⟩ := literal_of_read hread hx
    refine ⟨x, literal, hx, ?_, hinfix, hnumeric, hliteral⟩
    have hnumber := Binary64.isNaN_of_ofLiteral? hliteral
    rw [Binary64.isNaN, decide_eq_false_iff_not] at hnumber
    rw [ne_eq, Binary64.isFinite_iff] at hnotFinite
    omega
  · rintro ⟨x, -, hx, hinfinite, -⟩ ⟨hfinite, -⟩
    have hlt := Binary64.isFinite_iff.mp (hfinite x hx)
    omega

/-- The literal `1e400` is read as an infinity, which is written as the symbol `inf`. -/
theorem read_shown_round_trip_of_overflow :
    read "1e400" = .ok [number (.ofMagnitude false Binary64.infiniteMagnitude)] ∧
    read (String.intercalate " "
        ([number (.ofMagnitude false Binary64.infiniteMagnitude)].map shown)) ≠
      .ok [number (.ofMagnitude false Binary64.infiniteMagnitude)] := by
  have hliteral : Binary64.ofLiteral? "1e400".toList =
      some (.ofMagnitude false Binary64.infiniteMagnitude) := by
    decide
  have hread : read "1e400" = .ok [number (.ofMagnitude false Binary64.infiniteMagnitude)] := by
    have hatom := readFrom_atom ⟨[], []⟩ (by simp) (List.all_eq_true.mp (by decide)) endsAtom_nil
      (ofAtom?_of_literal (by decide) hliteral)
    rw [List.append_nil] at hatom
    rw [read_eq_ok_iff, hatom, readFrom]
    rfl
  refine ⟨hread, ((read_shown_round_trip _).2 "1e400" hread).2.mpr ?_⟩
  exact ⟨_, "1e400".toList, by simp [atomsOfEach, atoms], by decide, List.infix_rfl, by decide,
    hliteral⟩

end TypedLisp.Datum
