import TypedLisp.Proofs.Datum.Parts
import TypedLisp.Proofs.TypeExpr.Grammar

/-!
Replacing names in written types. Whether names are replaced in an expression or in the text it is
written as, the outcome is the same, whatever brackets and names the replacements hold themselves:
the text is cut at its marks into the tokens of the expression, each token is replaced on its own,
and the expression with names replaced is written with just the tokens that result. So a text that
is left in the body of a template is read as the expression with its names replaced.
-/

namespace TypedLisp.TypeExpr

open TypedLisp.Text
open TypedLisp.Datum

/-- Names are replaced by well-named expressions. -/
def Substitutes (actual : String → Option TypeExpr) : Prop :=
  ∀ n u, actual n = some u → IsName n ∧ u.WellNamed

/-- The replacements as they are written. -/
def texts (actual : String → Option TypeExpr) (n : String) : Option String :=
  (actual n).map shown

/-- The tokens that a token is replaced by. -/
def Token.substituted (actual : String → Option TypeExpr) : Token → List Token
  | .name n => ((named n).substitute actual).written
  | t => [t]

/-- The written form of a bracketed list. -/
def shownList (ts : List TypeExpr) : String :=
  "<" ++ String.intercalate "," (ts.map shown) ++ ">"

theorem IsWord.markFree {word : String} (h : IsWord word) : MarkFree word.toList := by
  intro c hc
  have hname := h.2 c hc
  simp only [isNameChar, Bool.not_eq_true', Bool.or_eq_false_iff] at hname
  exact hname.2

/-- A text that is empty or starts with a mark. -/
def StartsWithMark (cs : List Char) : Prop :=
  ∀ c ∈ cs.head?, isMark c = true

theorem startsWithMark_flatMap_chars {ts : List Token} (hts : ∀ m, ts.head? ≠ some (.name m)) :
    StartsWithMark (ts.flatMap Token.chars) := by
  cases ts with
  | nil => simp [StartsWithMark]
  | cons t ts =>
      cases t with
      | name m => exact absurd rfl (hts m)
      | opening | closing | comma => simp [StartsWithMark, Token.chars, isMark]

theorem replaceParts_append {actual : String → Option String} {word : String} {rest : List Char}
    (hempty : actual "" = none) (hword : MarkFree word.toList) (hrest : StartsWithMark rest) :
    replaceParts actual [] (word.toList ++ rest) =
      ((actual word).getD word).toList ++ replaceParts actual [] rest := by
  cases rest with
  | nil =>
      rw [List.append_nil, replaceParts_toList_of_markFree hword]
      simp [replaceParts, replaceParts.replaced, hempty]
  | cons c rest =>
      have hc : isMark c = true := hrest c rfl
      rw [replaceParts_append_mark actual hc, replaceParts_toList_of_markFree hword]
      simp [replaceParts, replaceParts.replaced, hc, hempty]

theorem WellNamed.apart {t : TypeExpr} (ht : t.WellNamed) : Apart t.written := by
  have hall := apart_written ht (show Apart [] from trivial) (by simp)
  rwa [List.append_nil] at hall

theorem spaced_flatMap_chars (ts : List Token) : Spaced ts (ts.flatMap Token.chars) := by
  induction ts with
  | nil => exact .nil (by simp)
  | cons t ts ih => exact ih.cons_token t

/-! ### Bracketed lists -/

theorem toList_shownList (ts : List TypeExpr) :
    (shownList ts).toList = (writtenList ts).flatMap Token.chars := by
  rw [shownList, String.toList_append, String.toList_append]
  cases ts with
  | nil => rfl
  | cons t ts =>
      rw [List.map_cons, toList_intercalate_cons, ← flatMap_chars_written,
        ← flatMap_chars_writtenMore]
      simp [writtenList, Token.chars]

theorem opening_mem_shownList (ts : List TypeExpr) : '<' ∈ (shownList ts).toList := by
  simp [shownList]

theorem parseList?_shownList {ts : List TypeExpr} (hne : ts ≠ []) (hts : ∀ t ∈ ts, t.WellNamed) :
    parseList? (shownList ts) = some (.ok ts) := by
  refine parseList?_eq_ok_iff.mpr ⟨hne, hts, ?_, ?_, ?_⟩
  · rw [toList_shownList]
    exact spaced_flatMap_chars _
  · simp [shownList]
  · rw [shownList, String.toList_append]
    exact List.getLast?_concat

theorem eq_shownList_of_parseList {text : String} {ts : List TypeExpr}
    (h : parseList? text = some (.ok ts)) (htext : ∀ c ∈ text.toList, isBlank c = false) :
    text = shownList ts := by
  obtain ⟨-, -, hspaced, -⟩ := parseList?_eq_ok_iff.mp h
  rw [← String.toList_inj, toList_shownList]
  exact hspaced.eq_flatMap_chars htext

section Replacing

variable {actual : String → Option TypeExpr}

theorem shown_substitute_named (n : String) :
    ((named n).substitute actual).shown = (texts actual n).getD n := by
  rw [substitute, texts]
  cases actual n <;> simp [shown]

theorem replaceParts_flatMap_chars (hempty : actual "" = none) {ts : List Token} (hts : Apart ts) :
    replaceParts (texts actual) [] (ts.flatMap Token.chars) =
      (ts.flatMap (Token.substituted actual)).flatMap Token.chars := by
  have hnone : texts actual "" = none := by simp [texts, hempty]
  induction ts with
  | nil => simp [replaceParts, replaceParts.replaced, hnone]
  | cons t ts ih =>
      rw [List.flatMap_cons, List.flatMap_cons, List.flatMap_append]
      cases t with
      | name n =>
          obtain ⟨hword, hhead, hapart⟩ := hts
          rw [Token.chars, replaceParts_append hnone hword.markFree
            (startsWithMark_flatMap_chars hhead), ih hapart, Token.substituted,
            flatMap_chars_written, shown_substitute_named]
      | opening | closing | comma =>
          simpa [Token.chars, Token.substituted, replaceParts, replaceParts.replaced, isMark, hnone]
            using ih hts

mutual

theorem written_substitute (hfn : actual "Fn" = none) : ∀ t : TypeExpr,
    (t.substitute actual).written = t.written.flatMap (Token.substituted actual)
  | .named n => by rw [written, List.flatMap_singleton, Token.substituted]
  | .function [] result => by
      have hresult := written_substitute hfn result
      simp [substitute, substituteAll, written, hresult, Token.substituted, hfn]
  | .function (p :: params) result => by
      have hresult := written_substitute hfn result
      have hp := written_substitute hfn p
      have hparams := writtenMore_substitute hfn params
      simp [substitute, substituteAll_eq_map, written, hresult, hp, hparams, Token.substituted, hfn]

theorem writtenMore_substitute (hfn : actual "Fn" = none) : ∀ ts : List TypeExpr,
    writtenMore (ts.map (substitute actual)) = (writtenMore ts).flatMap (Token.substituted actual)
  | [] => rfl
  | t :: ts => by
      have ht := written_substitute hfn t
      have hts := writtenMore_substitute hfn ts
      simp [writtenMore, ht, hts, Token.substituted]

end

theorem writtenList_substitute (hfn : actual "Fn" = none) (ts : List TypeExpr) :
    writtenList (ts.map (substitute actual)) =
      (writtenList ts).flatMap (Token.substituted actual) := by
  cases ts with
  | nil => rfl
  | cons t ts =>
      simp [writtenList, written_substitute hfn t, writtenMore_substitute hfn ts, Token.substituted]

namespace Substitutes

variable (h : Substitutes actual)

include h

theorem eq_none_of_not_isName {n : String} (hn : ¬IsName n) : actual n = none :=
  Option.eq_none_iff_forall_not_mem.mpr fun u hu => hn (h n u hu).1

theorem empty : actual "" = none :=
  h.eq_none_of_not_isName fun hname => hname.1.1 rfl

theorem fn : actual "Fn" = none :=
  h.eq_none_of_not_isName fun hname => hname.2 rfl

theorem replaces : Replaces (texts actual) := by
  intro n text htext
  obtain ⟨u, hu, -⟩ := Option.map_eq_some_iff.mp htext
  exact (h n u hu).1.1.markFree

theorem wellNamed {t : TypeExpr} (ht : t.WellNamed) : (t.substitute actual).WellNamed :=
  ht.substitute fun n u hu => (h n u hu).2

theorem wellNamed_map {ts : List TypeExpr} (hts : ∀ t ∈ ts, t.WellNamed) :
    ∀ u ∈ ts.map (substitute actual), u.WellNamed := by
  intro u hu
  obtain ⟨t, ht, rfl⟩ := List.mem_map.mp hu
  exact h.wellNamed (hts t ht)

theorem specializeSymbol_shown {t : TypeExpr} (ht : t.WellNamed) :
    specializeSymbol (texts actual) t.shown = (t.substitute actual).shown := by
  cases t with
  | named n =>
      cases ht with
      | named hn =>
          rw [shown, specializeSymbol_of_markFree hn.1.markFree, shown_substitute_named]
  | function params result =>
      have hopening : '<' ∈ (function params result).shown.toList := by
        cases params with
        | nil => simp [toList_shown_function_nil]
        | cons p params => simp [toList_shown_function_cons]
      rw [specializeSymbol_of_opening h.replaces hopening, ← flatMap_chars_written,
        replaceParts_flatMap_chars h.empty ht.apart, ← written_substitute h.fn,
        flatMap_chars_written, String.ofList_toList]

theorem specializeSymbol_shownList {ts : List TypeExpr} (hts : ∀ t ∈ ts, t.WellNamed) :
    specializeSymbol (texts actual) (shownList ts) = shownList (ts.map (substitute actual)) := by
  rw [specializeSymbol_of_opening h.replaces (opening_mem_shownList ts), toList_shownList,
    replaceParts_flatMap_chars h.empty (apart_writtenList hts), ← writtenList_substitute h.fn,
    ← toList_shownList, String.ofList_toList]

end Substitutes

end Replacing

/-- A symbol that a type or a list of types is written as becomes, with names replaced in its text,
what the type or the list with names replaced is written as, and is read as that. -/
theorem specialize_shown_eq_substitute {actual : String → Option TypeExpr}
    (h : Substitutes actual) :
    (∀ t : TypeExpr, t.WellNamed →
      (symbol t.shown).specialize (texts actual) = symbol (t.substitute actual).shown ∧
        parse (t.substitute actual).shown = .ok (t.substitute actual)) ∧
      ∀ ts : List TypeExpr, (∀ t ∈ ts, t.WellNamed) →
        (symbol (shownList ts)).specialize (texts actual) =
            symbol (shownList (ts.map (substitute actual))) ∧
          (ts ≠ [] → parseList? (shownList (ts.map (substitute actual))) =
            some (.ok (ts.map (substitute actual)))) := by
  refine ⟨fun t ht => ⟨?_, parse_shown (h.wellNamed ht)⟩, fun ts hts => ⟨?_, fun hne => ?_⟩⟩
  · rw [specialize, h.specializeSymbol_shown ht]
  · rw [specialize, h.specializeSymbol_shownList hts]
  · exact parseList?_shownList (by simpa using hne) (h.wellNamed_map hts)

/-- One parameter becomes a function on a type of its own name, which returns the other. -/
def swallowing (n : String) : Option TypeExpr :=
  if n = "K" then some (.function [.named "K"] (.named "V"))
  else if n = "V" then some (.named "number")
  else none

def fromKeys : TypeExpr := .function [.named "K", .function [] (.named "V")] (.named "K")

/-- Names that come in with a replacement are not replaced again. -/
theorem specialize_shown_eq_substitute_of_swallowing :
    Substitutes swallowing ∧ fromKeys.WellNamed ∧
      (symbol "Fn<K<K,Fn<V>>>").specialize (texts swallowing) =
        symbol "Fn<Fn<V<K>><Fn<V<K>>,Fn<number>>>" ∧
      (symbol "<V,K>").specialize (texts swallowing) = symbol "<number,Fn<V<K>>>" ∧
      parseList? "<number,Fn<V<K>>>" =
        some (.ok [.named "number", .function [.named "K"] (.named "V")]) := by
  have hname {n : String} (hne : n.toList ≠ []) (hchars : n.toList.all isNameChar = true)
      (hfn : n ≠ "Fn") : IsName n := ⟨⟨hne, List.all_eq_true.mp hchars⟩, hfn⟩
  have hkey : IsName "K" := hname (by decide) (by decide) (by decide)
  have hvalue : IsName "V" := hname (by decide) (by decide) (by decide)
  have hnumber : IsName "number" := hname (by decide) (by decide) (by decide)
  have hswallowing : Substitutes swallowing := by
    intro n u hu
    rw [swallowing] at hu
    split at hu
    next hn =>
      obtain rfl := Option.some.inj hu
      exact ⟨hn ▸ hkey, .function (List.forall_mem_singleton.mpr (.named hkey)) (.named hvalue)⟩
    next =>
      split at hu
      next hn =>
        obtain rfl := Option.some.inj hu
        exact ⟨hn ▸ hvalue, .named hnumber⟩
      next => cases hu
  have hfrom : fromKeys.WellNamed :=
    .function (by simpa using ⟨.named hkey, .function (by simp) (.named hvalue)⟩) (.named hkey)
  have hlist : ∀ t ∈ [named "V", named "K"], t.WellNamed := by
    simpa using ⟨.named hvalue, .named hkey⟩
  obtain ⟨htypes, hlists⟩ := specialize_shown_eq_substitute hswallowing
  have hread := (hlists _ hlist).2 (by simp)
  exact ⟨hswallowing, hfrom, (htypes fromKeys hfrom).1, (hlists _ hlist).1, hread⟩

end TypedLisp.TypeExpr
