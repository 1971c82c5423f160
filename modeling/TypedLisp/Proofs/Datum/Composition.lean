import Mathlib.Data.List.Forall2
import TypedLisp.Proofs.Datum.Parts

namespace TypedLisp.Datum

open TypedLisp.TypeExpr (isMark)

/-- A word stands in a text: on either side it ends at a mark, or with the text. -/
def StandsIn (word text : List Char) : Prop :=
  ∃ before after, text = before ++ word ++ after ∧
    (∀ c ∈ before.getLast?, isMark c = true) ∧ ∀ c ∈ after.head?, isMark c = true

/-- Both replace texts without marks only, and `after` none that stands in a text that `first` puts
in. -/
structure Separate (first after : String → Option String) : Prop where
  replacesFirst : Replaces first
  replacesAfter : Replaces after
  texts : ∀ n r, after n = some r → ∀ p t, first p = some t → ¬StandsIn n.toList t.toList

/-- Two replacements as one. If both replace a name, the first does. -/
def together (first after : String → Option String) (n : String) : Option String :=
  (first n).or (after n)

/-- A text with its parts replaced. The marks between them stay. -/
inductive Reworded (actual : String → Option String) : List Char → List Char → Prop where
  | last {p : String} (hp : MarkFree p.toList) :
      Reworded actual p.toList ((actual p).getD p).toList
  | mark {p : String} {c : Char} {cs cs' : List Char} (hp : MarkFree p.toList)
      (hc : isMark c = true) (h : Reworded actual cs cs') :
      Reworded actual (p.toList ++ c :: cs) (((actual p).getD p).toList ++ c :: cs')

/-- What a symbol becomes. Only one with an opening bracket has its parts replaced. -/
inductive Becomes (actual : String → Option String) : String → String → Prop where
  | whole {name text : String} (h : actual name = some text) : Becomes actual name text
  | parts {name text : String} (hnone : actual name = none) (hopening : '<' ∈ name.toList)
      (h : Reworded actual name.toList text.toList) : Becomes actual name text
  | same {name : String} (hnone : actual name = none) (hopening : '<' ∉ name.toList) :
      Becomes actual name name

/-- Expressions that differ in their symbols only, which are related one by one. -/
inductive Respelled (R : String → String → Prop) : Datum → Datum → Prop where
  | number (x : Binary64) : Respelled R (.number x) (.number x)
  | text (s : String) : Respelled R (.text s) (.text s)
  | boolean (b : Bool) : Respelled R (.boolean b) (.boolean b)
  | symbol {name name' : String} (h : R name name') : Respelled R (.symbol name) (.symbol name')
  | list {items items' : List Datum} (h : List.Forall₂ (Respelled R) items items') :
      Respelled R (.list items) (.list items')

section Characters

variable {part cs : List Char}

theorem StandsIn.append_mark {word text : List Char} (h : StandsIn word text) {c : Char}
    (hc : isMark c = true) (more : List Char) : StandsIn word (more ++ c :: text) := by
  obtain ⟨before, after, rfl, hbefore, hafter⟩ := h
  refine ⟨more ++ c :: before, after, by simp, fun a ha => ?_, hafter⟩
  cases hlast : before.getLast? with
  | none =>
      obtain rfl := List.getLast?_eq_none_iff.mp hlast
      obtain rfl : c = a := by simpa using ha
      exact hc
  | some b =>
      obtain rfl : b = a := by simpa [List.getLast?_cons, hlast] using ha
      exact hbefore b hlast

theorem standsIn_of_mem_partsFrom {p : String} (hp : p ∈ partsFrom part cs) :
    StandsIn p.toList (part.reverse ++ cs) := by
  induction cs generalizing part with
  | nil =>
      obtain rfl := List.mem_singleton.mp hp
      exact ⟨[], [], by simp, by simp, by simp⟩
  | cons c cs ih =>
      rw [partsFrom] at hp
      split at hp
      · next hc =>
          rcases List.mem_cons.mp hp with rfl | hp
          · exact ⟨[], c :: cs, by simp, by simp, by simpa using hc⟩
          · exact (ih hp).append_mark hc part.reverse
      · simpa using ih hp

theorem mem_parts_iff {p text : String} :
    p ∈ partsOf text ↔ MarkFree p.toList ∧ StandsIn p.toList text.toList := by
  constructor
  · exact fun hp => ⟨markFree_of_mem_parts hp, standsIn_of_mem_partsFrom hp⟩
  · rintro ⟨hfree, before, after, htext, hbefore, hafter⟩
    have hrest : p ∈ partsFrom [] (p.toList ++ after) := by
      cases after with
      | nil => simp [partsFrom_of_markFree hfree]
      | cons c after =>
          rw [partsFrom_append_mark (hafter c rfl), partsFrom_of_markFree hfree]
          simp
    rw [partsOf, htext, List.append_assoc]
    -- What stands before the word is empty or ends with the mark that closes the part before it.
    rcases List.eq_nil_or_concat before with rfl | ⟨before, c, rfl⟩
    · exact hrest
    · rw [List.concat_eq_append] at hbefore
      rw [List.concat_eq_append, List.append_assoc, List.singleton_append,
        partsFrom_append_mark (hbefore c List.getLast?_concat)]
      exact List.mem_append_right _ hrest

theorem reworded_replaceParts (actual : String → Option String) (hpart : MarkFree part)
    (cs : List Char) :
    Reworded actual (part.reverse ++ cs) (replaceParts actual part cs) := by
  have hfree {part : List Char} (h : MarkFree part) :
      MarkFree (String.ofList part.reverse).toList := by
    intro c hc
    exact h c (by simpa using hc)
  induction cs generalizing part with
  | nil =>
      simpa [replaceParts, replaceParts.replaced] using Reworded.last (hfree hpart)
  | cons c cs ih =>
      rw [replaceParts]
      split
      · next hc =>
          have hrest := ih markFree_nil
          simpa [replaceParts.replaced] using Reworded.mark (hfree hpart) hc hrest
      · next hc =>
          have hnext : MarkFree (c :: part) :=
            List.forall_mem_cons.mpr ⟨Bool.not_eq_true _ ▸ hc, hpart⟩
          simpa using ih hnext

end Characters

theorem becomes_specializeSymbol (actual : String → Option String) (name : String) :
    Becomes actual name (specializeSymbol actual name) := by
  rw [specializeSymbol]
  cases hname : actual name with
  | some text => exact .whole hname
  | none =>
      by_cases hopening : '<' ∈ name.toList
      · have hparts : Reworded actual name.toList (replaceParts actual [] name.toList) :=
          reworded_replaceParts actual markFree_nil name.toList
        simpa [hopening] using Becomes.parts hname hopening (by simpa using hparts)
      · simpa [hopening] using Becomes.same hname hopening

theorem respelled_specialize (actual : String → Option String) (d : Datum) :
    d.Respelled (Becomes actual) (d.specialize actual) := by
  induction d using inductionInto with
  | number x => exact .number x
  | text s => exact .text s
  | boolean b => exact .boolean b
  | symbol name => exact .symbol (becomes_specializeSymbol actual name)
  | list items ih =>
      rw [specialize, specializeAll_eq_map]
      exact .list (List.forall₂_map_right_iff.mpr (List.forall₂_same.mpr ih))

namespace Separate

variable {first after : String → Option String} (h : Separate first after)

include h

theorem replaces_together : Replaces (together first after) := by
  intro n r hr
  rcases Option.or_eq_some_iff.mp hr with hr | ⟨-, hr⟩
  · exact h.replacesFirst n r hr
  · exact h.replacesAfter n r hr

theorem eq_none_of_mem_parts {p text : String} (htext : first p = some text) {q : String}
    (hq : q ∈ partsOf text) : after q = none := by
  refine Option.eq_none_iff_forall_not_mem.mpr fun r hr => ?_
  exact h.texts q r hr p text htext (mem_parts_iff.mp hq).2

theorem follow {p : String} (hp : MarkFree p.toList) :
    Follow first after (together first after) p := by
  cases hfirst : first p with
  | none => exact .of_markFree (by simpa [hfirst] using hp) (by simp [together, hfirst])
  | some text =>
      -- The text may hold marks, so `Follow.of_markFree` does not apply; its own parts are kept.
      have hkept : ∀ q ∈ partsOf text, after q = none :=
        fun q hq => h.eq_none_of_mem_parts hfirst hq
      have hboth : (together first after p).getD p = text := by simp [together, hfirst]
      rw [Follow, hboth, hfirst, Option.getD_some]
      exact ⟨specializeSymbol_eq_self h.replacesAfter hkept, replaceParts_eq_append after hkept⟩

end Separate

/-- One replacement after the other does what the two do together; and with names replaced an
expression has the lists, numbers, texts and booleans it had, while each of its symbols is replaced
as a whole, or part by part, or stays. -/
theorem specialize_composes (d : Datum) :
    (∀ first after, Separate first after →
      (d.specialize first).specialize after = d.specialize (together first after)) ∧
    ∀ actual, d.Respelled (Becomes actual) (d.specialize actual) := by
  refine ⟨fun first after h => ?_, fun actual => respelled_specialize actual d⟩
  exact specialize_specialize h.replacesFirst h.replacesAfter h.replaces_together
    fun p hp => h.follow hp.markFree

/-- A parameter becomes a function on a type of the same name. -/
def outerTypes (n : String) : Option String :=
  if n = "T" then some "Fn<string<T,number>>" else none

/-- The parameter inside becomes a type named as the one outside. -/
def innerTypes (n : String) : Option String :=
  if n = "U" then some "Fn<T>" else none

def nestedBody : Datum :=
  list [symbol "id<T,U>", symbol "T", list [symbol "U", text "U", boolean true], symbol "T,U"]

/-- Texts are put in whole, in brackets and inside brackets, and neither replacement changes those
of the other. -/
theorem specialize_composes_of_nested :
    Separate outerTypes innerTypes ∧
      (nestedBody.specialize outerTypes).specialize innerTypes =
        nestedBody.specialize (together outerTypes innerTypes) ∧
      nestedBody.specialize (together outerTypes innerTypes) =
        list [symbol "id<Fn<string<T,number>>,Fn<T>>", symbol "Fn<string<T,number>>",
          list [symbol "Fn<T>", text "U", boolean true], symbol "T,U"] := by
  have hseparate : Separate outerTypes innerTypes := by
    have houter {n r : String} (h : outerTypes n = some r) :
        n = "T" ∧ r = "Fn<string<T,number>>" := by
      rw [outerTypes] at h
      split at h
      next hn => exact ⟨hn, (Option.some.inj h).symm⟩
      next => cases h
    have hinner {n r : String} (h : innerTypes n = some r) : n = "U" := by
      rw [innerTypes] at h
      split at h
      next hn => exact hn
      next => cases h
    refine ⟨fun n r h => ?_, fun n r h => ?_, fun n r h p t hp hstands => ?_⟩
    · exact (houter h).1 ▸ by decide
    · exact hinner h ▸ by decide
    · obtain rfl := hinner h
      obtain ⟨-, rfl⟩ := houter hp
      have hpart := mem_parts_iff.mpr ⟨by decide, hstands⟩
      exact absurd hpart (by decide)
  exact ⟨hseparate, (specialize_composes nestedBody).1 _ _ hseparate, rfl⟩

end TypedLisp.Datum
