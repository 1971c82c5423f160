import TypedLisp.Proofs.TypeExpr.Substitution

namespace TypedLisp.TypeExpr

open TypedLisp.Text
open TypedLisp.Datum

/-- Names are replaced by names. -/
def Renames (actual : String → Option String) : Prop :=
  ∀ n m, actual n = some m → IsName n ∧ IsName m

/-- Replace names in an expression. -/
def renamed (actual : String → Option String) (t : TypeExpr) : TypeExpr :=
  t.substitute fun n => (actual n).map named

theorem IsWord.ne_empty {word : String} (h : IsWord word) : word ≠ "" := by
  rintro rfl
  exact h.1 rfl

section Texts

variable {word : String} {rest : List Char}

theorem mem_partsFrom_append (hword : MarkFree word.toList) (hrest : StartsWithMark rest)
    {p : String} (hp : p ≠ "") :
    p ∈ partsFrom [] (word.toList ++ rest) ↔ p = word ∨ p ∈ partsFrom [] rest := by
  cases rest with
  | nil => simp [partsFrom_of_markFree hword, partsFrom, hp]
  | cons c rest =>
      have hc : isMark c = true := hrest c rfl
      rw [partsFrom_append_mark hc, partsFrom_of_markFree hword]
      simp [partsFrom, hc, hp]

theorem mem_partsFrom_flatMap_chars {ts : List Token} (hts : Apart ts) {p : String} (hp : p ≠ "") :
    p ∈ partsFrom [] (ts.flatMap Token.chars) ↔ .name p ∈ ts := by
  induction ts with
  | nil => simp [partsFrom, hp]
  | cons t ts ih =>
      rw [List.flatMap_cons]
      cases t with
      | name n =>
          obtain ⟨hword, hhead, hapart⟩ := hts
          rw [Token.chars,
            mem_partsFrom_append hword.markFree (startsWithMark_flatMap_chars hhead) hp, ih hapart]
          simp
      | opening | closing | comma => simpa [Token.chars, partsFrom, isMark, hp] using ih hts

end Texts

section Renaming

variable {actual : String → Option String}

mutual

theorem substitute_renamed {after both : String → Option TypeExpr} : ∀ t : TypeExpr,
    (∀ n, .name n ∈ t.written →
      (named ((actual n).getD n)).substitute after = (named n).substitute both) →
    (t.renamed actual).substitute after = t.substitute both
  | .named n, h => by
      rw [← h n (by simp [written]), renamed, substitute]
      cases actual n <;> rfl
  | .function [] result, h => by
      have hresult := substitute_renamed result fun n hn => h n (by simp [written, hn])
      rw [renamed] at hresult ⊢
      simp [substitute, substituteAll, hresult]
  | .function (p :: params) result, h => by
      have hresult := substitute_renamed result fun n hn => h n (by simp [written, hn])
      have hp := substitute_renamed p fun n hn => h n (by simp [written, hn])
      have hparams := map_substitute_renamed params fun n hn => h n (by simp [written, hn])
      rw [renamed] at hresult hp ⊢
      simp only [substitute, substituteAll_eq_map, List.map_cons, hresult, hp]
      rw [← hparams]
      rfl

theorem map_substitute_renamed {after both : String → Option TypeExpr} : ∀ ts : List TypeExpr,
    (∀ n, .name n ∈ writtenMore ts →
      (named ((actual n).getD n)).substitute after = (named n).substitute both) →
    (ts.map (renamed actual)).map (substitute after) = ts.map (substitute both)
  | [], _ => rfl
  | t :: ts, h => by
      simp only [List.map_cons]
      rw [substitute_renamed t fun n hn => h n (by simp [writtenMore, hn]),
        map_substitute_renamed ts fun n hn => h n (by simp [writtenMore, hn])]

end

theorem texts_named (actual : String → Option String) :
    texts (fun n => (actual n).map named) = actual := by
  funext n
  rw [texts, Option.map_map]
  cases actual n <;> simp [shown]

variable (h : Renames actual)

include h

theorem Renames.substitutes : Substitutes fun n => (actual n).map named := by
  intro n u hu
  obtain ⟨m, hm, rfl⟩ := Option.map_eq_some_iff.mp hu
  exact ⟨(h n m hm).1, .named (h n m hm).2⟩

theorem Renames.replaces : Replaces actual :=
  fun n m hm => (h n m hm).1.1.markFree

theorem Renames.empty : actual "" = none :=
  Option.map_eq_none_iff.mp h.substitutes.empty

theorem parse_specializeSymbol {text : String} {t : TypeExpr} (hparse : parse text = .ok t)
    (htext : ∀ c ∈ text.toList, isBlank c = false) :
    parse (specializeSymbol actual text) = .ok (t.renamed actual) := by
  have ht := wellNamed_of_parse hparse
  have hshown := h.substitutes.specializeSymbol_shown ht
  rw [texts_named] at hshown
  rw [eq_shown_of_parse hparse htext, hshown]
  exact parse_shown (h.substitutes.wellNamed ht)

theorem parseList?_specializeSymbol {text : String} {ts : List TypeExpr}
    (hparse : parseList? text = some (.ok ts)) (htext : ∀ c ∈ text.toList, isBlank c = false) :
    parseList? (specializeSymbol actual text) = some (.ok (ts.map (renamed actual))) := by
  obtain ⟨hne, hnamed, -⟩ := parseList?_eq_ok_iff.mp hparse
  have hshown := h.substitutes.specializeSymbol_shownList hnamed
  rw [texts_named] at hshown
  rw [eq_shownList_of_parseList hparse htext, hshown]
  exact parseList?_shownList (by simpa using hne) (h.substitutes.wellNamed_map hnamed)

end Renaming

theorem mem_parts_of_parse {text : String} {t : TypeExpr} (hparse : parse text = .ok t)
    (htext : ∀ c ∈ text.toList, isBlank c = false) {p : String} (hp : p ≠ "") :
    p ∈ partsOf text ↔ .name p ∈ t.written := by
  rw [eq_shown_of_parse hparse htext, partsOf, ← flatMap_chars_written,
    mem_partsFrom_flatMap_chars (wellNamed_of_parse hparse).apart hp]

theorem mem_parts_of_parseList {text : String} {ts : List TypeExpr}
    (hparse : parseList? text = some (.ok ts)) (htext : ∀ c ∈ text.toList, isBlank c = false)
    {p : String} (hp : p ≠ "") : p ∈ partsOf text ↔ .name p ∈ writtenList ts := by
  obtain ⟨-, hnamed, hspaced, -, -⟩ := parseList?_eq_ok_iff.mp hparse
  rw [partsOf, hspaced.eq_flatMap_chars htext,
    mem_partsFrom_flatMap_chars (apart_writtenList hnamed) hp]

end TypedLisp.TypeExpr
