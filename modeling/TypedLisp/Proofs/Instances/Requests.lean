import Mathlib.Data.Finset.Card

/-!
Requests that are granted provisionally. A request for a key is granted at once if the key is
granted already; otherwise the key is granted for as long as the requests of its body are made, and
withdrawn if one of them is denied or the body does not hold. Bodies are nested at most to a given
depth.
-/

namespace TypedLisp.Requests

variable {κ : Type}

/-- A request for a key, or for room to go deeper, each made some levels down. -/
inductive Item (κ : Type) where
  | need (level : Nat)
  | ask (level : Nat) (key : κ)

def Item.deeper : Item κ → Item κ
  | need level => need (level + 1)
  | ask level key => ask (level + 1) key

/-- What a key stands for: requests, and whether it holds once they are granted. -/
structure Body (κ : Type) where
  items : List (Item κ)
  holds : Bool

inductive Progress (κ : Type) where
  | granted (keys : Finset κ)
  | denied (keys : Finset κ)
  | deep

def Asks (items : List (Item κ)) (key : κ) : Prop :=
  ∃ level, .ask level key ∈ items

theorem Asks.cons {items : List (Item κ)} {key : κ} (h : Asks items key) (item : Item κ) :
    Asks (item :: items) key := by
  obtain ⟨level, hlevel⟩ := h
  exact ⟨level, List.mem_cons_of_mem _ hlevel⟩

theorem asks_cons_ask {items : List (Item κ)} {level : Nat} {key other : κ}
    (h : Asks (.ask level key :: items) other) : other = key ∨ Asks items other := by
  obtain ⟨level', hmem⟩ := h
  rcases List.mem_cons.mp hmem with heq | hmem
  · cases heq
    exact .inl rfl
  · exact .inr ⟨level', hmem⟩

theorem asks_cons_need {items : List (Item κ)} {level : Nat} {other : κ}
    (h : Asks (.need level :: items) other) : Asks items other := by
  obtain ⟨level', hmem⟩ := h
  rcases List.mem_cons.mp hmem with heq | hmem
  · cases heq
  · exact ⟨level', hmem⟩

/-- A key holds if the given keys are granted. -/
def Supported (bodies : κ → Body κ) (keys : Finset κ) (key : κ) : Prop :=
  (bodies key).holds = true ∧ ∀ other, Asks (bodies key).items other → other ∈ keys

theorem Supported.mono {bodies : κ → Body κ} {keys keys' : Finset κ} {key : κ}
    (h : Supported bodies keys key) (hsub : keys ⊆ keys') : Supported bodies keys' key :=
  ⟨h.1, fun other hother => hsub (h.2 other hother)⟩

variable [DecidableEq κ]

/-- Make requests in turn, with room for bodies nested to a depth. -/
def make (bodies : κ → Body κ) : Nat → Finset κ → List (Item κ) → Progress κ
  | _, keys, [] => .granted keys
  | depth, keys, .need level :: items =>
      if level < depth then make bodies depth keys items else .deep
  | depth, keys, .ask level key :: items =>
      if key ∈ keys then make bodies depth keys items
      else if level < depth then
        match make bodies (depth - level - 1) (insert key keys) (bodies key).items with
        | .granted keys' =>
            if (bodies key).holds then make bodies depth keys' items
            else .denied (keys'.erase key)
        | .denied keys' => .denied (keys'.erase key)
        | .deep => .deep
      else .deep
termination_by depth _ items => (depth, items.length)

variable {bodies : κ → Body κ}

def Progress.andThen (p : Progress κ) (f : Finset κ → Progress κ) : Progress κ :=
  match p with
  | granted keys => f keys
  | denied keys => denied keys
  | deep => deep

theorem make_append (depth : Nat) (keys : Finset κ) (xs ys : List (Item κ)) :
    make bodies depth keys (xs ++ ys) =
      (make bodies depth keys xs).andThen fun keys' => make bodies depth keys' ys := by
  induction xs generalizing keys with
  | nil => rw [make]; rfl
  | cons x xs ih =>
      cases x with
      | need level =>
          rw [List.cons_append, make, make]
          split
          · exact ih keys
          · rfl
      | ask level key =>
          rw [List.cons_append, make, make]
          split
          · exact ih keys
          · split
            · split
              · split
                · exact ih _
                · rfl
              · rfl
              · rfl
            · rfl

theorem make_deeper (depth : Nat) (keys : Finset κ) (items : List (Item κ)) :
    make bodies (depth + 1) keys (items.map Item.deeper) = make bodies depth keys items := by
  induction items generalizing keys with
  | nil => rw [List.map_nil, make, make]
  | cons item items ih =>
      cases item with
      | need level =>
          rw [List.map_cons, Item.deeper, make, make]
          simp only [Nat.add_lt_add_iff_right, ih]
      | ask level key =>
          have hdepth : depth + 1 - (level + 1) - 1 = depth - level - 1 := by omega
          rw [List.map_cons, Item.deeper, make, make, hdepth]
          simp only [Nat.add_lt_add_iff_right, ih]

theorem make_mono {depth : Nat} {keys : Finset κ} {items : List (Item κ)}
    (h : make bodies depth keys items ≠ .deep) {depth' : Nat} (hdepth : depth ≤ depth') :
    make bodies depth' keys items = make bodies depth keys items := by
  fun_induction make bodies depth keys items generalizing depth' with
  | case1 => rw [make]
  | case2 depth keys level items hlevel ih =>
      rw [make, if_pos (Nat.lt_of_lt_of_le hlevel hdepth), ih h hdepth]
  | case3 => exact absurd rfl h
  | case4 depth keys level key items hmem ih => rw [make, if_pos hmem, ih h hdepth]
  | case5 depth keys level key items hmem hlevel keys' hbody hholds ihbody ih =>
      have hroom : depth - level - 1 ≤ depth' - level - 1 := by omega
      rw [make, if_neg hmem, if_pos (Nat.lt_of_lt_of_le hlevel hdepth), ihbody (by simp [hbody]) hroom,
        hbody]
      simp only [hholds, if_true]
      exact ih h hdepth
  | case6 depth keys level key items hmem hlevel keys' hbody hholds ihbody =>
      have hroom : depth - level - 1 ≤ depth' - level - 1 := by omega
      rw [make, if_neg hmem, if_pos (Nat.lt_of_lt_of_le hlevel hdepth), ihbody (by simp [hbody]) hroom,
        hbody]
      simp [hholds]
  | case7 depth keys level key items hmem hlevel keys' hbody ihbody =>
      have hroom : depth - level - 1 ≤ depth' - level - 1 := by omega
      rw [make, if_neg hmem, if_pos (Nat.lt_of_lt_of_le hlevel hdepth), ihbody (by simp [hbody]) hroom,
        hbody]
  | case8 => exact absurd rfl h
  | case9 => exact absurd rfl h

theorem make_unique {depth depth' : Nat} {keys : Finset κ} {items : List (Item κ)}
    (h : make bodies depth keys items ≠ .deep) (h' : make bodies depth' keys items ≠ .deep) :
    make bodies depth keys items = make bodies depth' keys items := by
  rcases Nat.le_total depth depth' with hle | hle
  · exact (make_mono h hle).symm
  · exact make_mono h' hle

/-- When all requests are granted, the keys granted support each other. -/
theorem supported_of_granted {depth : Nat} {keys keys' : Finset κ} {items : List (Item κ)}
    (h : make bodies depth keys items = .granted keys') :
    keys ⊆ keys' ∧ (∀ key, Asks items key → key ∈ keys') ∧
      ∀ key ∈ keys', key ∈ keys ∨ Supported bodies keys' key := by
  fun_induction make bodies depth keys items generalizing keys' with
  | case1 depth keys =>
      cases h
      refine ⟨Finset.Subset.refl _, ?_, fun key hkey => .inl hkey⟩
      rintro key ⟨level, hmem⟩
      cases hmem
  | case2 depth keys level items hlevel ih =>
      obtain ⟨hsub, hasks, hsupported⟩ := ih h
      exact ⟨hsub, fun key hkey => hasks key (asks_cons_need hkey), hsupported⟩
  | case4 depth keys level key items hmem ih =>
      obtain ⟨hsub, hasks, hsupported⟩ := ih h
      refine ⟨hsub, ?_, hsupported⟩
      intro other hother
      rcases asks_cons_ask hother with rfl | hother
      · exact hsub hmem
      · exact hasks other hother
  | case5 depth keys level key items hmem hlevel inner hbody hholds ihbody ih =>
      -- What the body of a new key was granted stays granted to the end, so it supports the key.
      obtain ⟨hsub, hasks, hsupported⟩ := ih h
      obtain ⟨hinner, hinnerAsks, hinnerSupported⟩ := ihbody hbody
      obtain ⟨hkey, hkeys⟩ := Finset.insert_subset_iff.mp hinner
      refine ⟨hkeys.trans hsub, ?_, ?_⟩
      · intro other hother
        rcases asks_cons_ask hother with rfl | hother
        · exact hsub hkey
        · exact hasks other hother
      · intro other hother
        rcases hsupported other hother with hother | hother
        · rcases hinnerSupported other hother with hother | hother
          · rcases Finset.mem_insert.mp hother with rfl | hother
            · exact .inr ⟨hholds, fun k hk => hsub (hinnerAsks k hk)⟩
            · exact .inl hother
          · exact .inr (hother.mono hsub)
        · exact .inr hother
  | _ => cases h

/-- Keys that hold if the base and they themselves are granted. -/
def Closed (bodies : κ → Body κ) (base keys : Finset κ) : Prop :=
  ∀ key ∈ keys, Supported bodies (base ∪ keys) key

theorem closed_of_granted {depth : Nat} {keys finish : Finset κ} {items : List (Item κ)}
    (h : make bodies depth keys items = .granted finish) : Closed bodies keys (finish \ keys) := by
  obtain ⟨hsub, -, hsupported⟩ := supported_of_granted h
  intro key hkey
  obtain ⟨hmem, hnew⟩ := Finset.mem_sdiff.mp hkey
  rw [Finset.union_sdiff_of_subset hsub]
  exact (hsupported key hmem).resolve_left hnew

theorem Closed.union {base keys keys' : Finset κ} (h : Closed bodies base keys)
    (h' : Closed bodies base keys') : Closed bodies base (keys ∪ keys') := by
  intro key hkey
  rcases Finset.mem_union.mp hkey with hkey | hkey
  · exact (h key hkey).mono (Finset.union_subset_union_right Finset.subset_union_left)
  · exact (h' key hkey).mono (Finset.union_subset_union_right Finset.subset_union_right)

theorem exists_make_need {depth : Nat} {keys : Finset κ} {items : List (Item κ)} {p : Progress κ}
    (h : make bodies depth keys items = p) (hp : p ≠ .deep) (level : Nat) :
    ∃ depth', make bodies depth' keys (.need level :: items) = p := by
  refine ⟨max depth (level + 1), ?_⟩
  rw [make, if_pos (by omega), make_mono (h ▸ hp) (Nat.le_max_left _ _), h]

theorem make_ask {depth level : Nat} {keys : Finset κ} {key : κ} (hkey : key ∉ keys)
    (hbody : make bodies depth (insert key keys) (bodies key).items ≠ .deep)
    (items : List (Item κ)) {depth' : Nat} (hdepth : depth + level < depth') :
    make bodies depth' keys (.ask level key :: items) =
      match make bodies depth (insert key keys) (bodies key).items with
      | .granted keys' =>
          if (bodies key).holds then make bodies depth' keys' items else .denied (keys'.erase key)
      | .denied keys' => .denied (keys'.erase key)
      | .deep => .deep := by
  rw [make, if_neg hkey, if_pos (by omega), make_mono hbody (by omega)]

theorem exists_make_ask {depth depth' : Nat} {keys mid : Finset κ} {key : κ}
    (hkey : key ∉ keys)
    (hbody : make bodies depth (insert key keys) (bodies key).items = .granted mid)
    (hholds : (bodies key).holds = true) {items : List (Item κ)} {p : Progress κ}
    (hrest : make bodies depth' mid items = p) (hp : p ≠ .deep) (level : Nat) :
    ∃ depth'', make bodies depth'' keys (.ask level key :: items) = p := by
  have hsettled : make bodies depth (insert key keys) (bodies key).items ≠ .deep := by simp [hbody]
  refine ⟨max (depth + level + 1) depth', ?_⟩
  rw [make_ask hkey hsettled items (by omega), hbody]
  simp only [hholds, if_true]
  rw [make_mono (hrest ▸ hp) (Nat.le_max_right _ _), hrest]

theorem exists_granted {base keys : Finset κ} (hclosed : Closed bodies base keys)
    {start : Finset κ} (hbase : base ⊆ start) {items : List (Item κ)}
    (hitems : ∀ key, Asks items key → key ∈ base ∪ keys) :
    ∃ depth finish, make bodies depth start items = .granted finish ∧ start ⊆ finish ∧
      finish ⊆ start ∪ keys := by
  obtain ⟨n, hn⟩ : ∃ n, (keys \ start).card ≤ n := ⟨_, Nat.le_refl _⟩
  -- On how many of the keys are not granted yet, and inside that on the requests.
  induction n using Nat.strongRecOn generalizing start items with
  | ind n ih =>
      induction items generalizing start with
      | nil => exact ⟨0, start, by rw [make], Finset.Subset.refl _, Finset.subset_union_left⟩
      | cons item items ihitems =>
          cases item with
          | need level =>
              obtain ⟨depth, finish, hmake, hsub, hsup⟩ :=
                ihitems hbase (fun key hkey => hitems key (hkey.cons _)) hn
              obtain ⟨depth', hmake'⟩ := exists_make_need hmake (by simp) level
              exact ⟨depth', finish, hmake', hsub, hsup⟩
          | ask level key =>
              by_cases hkey : key ∈ start
              · obtain ⟨depth, finish, hmake, hsub, hsup⟩ :=
                  ihitems hbase (fun key hkey => hitems key (hkey.cons _)) hn
                exact ⟨depth, finish, by rw [make, if_pos hkey, hmake], hsub, hsup⟩
              · have hmem : key ∈ keys := by
                  have := hitems key ⟨level, List.mem_cons_self⟩
                  exact (Finset.mem_union.mp this).resolve_left fun h => hkey (hbase h)
                obtain ⟨hholds, hasks⟩ := hclosed key hmem
                have hfewer : (keys \ insert key start).card < (keys \ start).card := by
                  refine Finset.card_lt_card ((Finset.ssubset_iff_of_subset ?_).mpr ?_)
                  · exact Finset.sdiff_subset_sdiff (Finset.Subset.refl _)
                      (Finset.subset_insert _ _)
                  · exact ⟨key, Finset.mem_sdiff.mpr ⟨hmem, hkey⟩, by simp⟩
                obtain ⟨depth, mid, hbody, hmid, hmid'⟩ :=
                  ih _ (Nat.lt_of_lt_of_le hfewer hn) (hbase.trans (Finset.subset_insert _ _))
                    hasks (Nat.le_refl _)
                have hstart : start ⊆ mid := (Finset.subset_insert _ _).trans hmid
                have hrest : (keys \ mid).card ≤ n :=
                  (Finset.card_le_card
                    (Finset.sdiff_subset_sdiff (Finset.Subset.refl _) hstart)).trans hn
                obtain ⟨depth', finish, hmake, hsub, hsup⟩ :=
                  ihitems (hbase.trans hstart) (fun key hkey => hitems key (hkey.cons _)) hrest
                obtain ⟨depth'', hmake''⟩ :=
                  exists_make_ask hkey hbody hholds hmake (by simp) level
                refine ⟨depth'', finish, hmake'', hstart.trans hsub, ?_⟩
                intro other hother
                have hother' := hsup hother
                have := @hmid' other
                simp only [Finset.mem_union, Finset.mem_insert] at hother' this ⊢
                rcases hother' with h | h
                · rcases this h with (rfl | h) | h
                  · exact .inr hmem
                  · exact .inl h
                  · exact .inr h
                · exact .inr h

theorem granted_of_subset {depth : Nat} {keys finish start : Finset κ} {items : List (Item κ)}
    (h : make bodies depth keys items = .granted finish) (hsub : keys ⊆ start) :
    ∃ depth' finish', make bodies depth' start items = .granted finish' := by
  obtain ⟨hkeys, hasks, -⟩ := supported_of_granted h
  have hitems : ∀ key, Asks items key → key ∈ keys ∪ finish \ keys := by
    rw [Finset.union_sdiff_of_subset hkeys]
    exact hasks
  obtain ⟨depth', finish', hmake, -⟩ := exists_granted (closed_of_granted h) hsub hitems
  exact ⟨depth', finish', hmake⟩

theorem exists_closed {base keys : Finset κ}
    (h : ∀ key ∈ keys, ∃ zs, Closed bodies base zs ∧ key ∈ zs) :
    ∃ zs, Closed bodies base zs ∧ keys ⊆ zs := by
  induction keys using Finset.induction with
  | empty => exact ⟨∅, fun _ hkey => absurd hkey (Finset.notMem_empty _), Finset.empty_subset _⟩
  | insert key keys _ ih =>
      obtain ⟨zs, hzs, hsub⟩ := ih fun other hother => h other (Finset.mem_insert_of_mem hother)
      obtain ⟨zs', hzs', hmem⟩ := h key (Finset.mem_insert_self key keys)
      refine ⟨zs ∪ zs', hzs.union hzs', Finset.insert_subset_iff.mpr ⟨?_, ?_⟩⟩
      · exact Finset.mem_union_right _ hmem
      · exact hsub.trans Finset.subset_union_left

/-- The keys granted are the same but for some. -/
def AgreeBut (keys start start' : Finset κ) : Prop :=
  ∀ key ∉ keys, key ∈ start ↔ key ∈ start'

omit [DecidableEq κ] in
theorem AgreeBut.symm {keys start start' : Finset κ} (h : AgreeBut keys start start') :
    AgreeBut keys start' start :=
  fun key hkey => (h key hkey).symm

theorem AgreeBut.insert {keys start start' : Finset κ} (h : AgreeBut keys start start') (key : κ) :
    AgreeBut keys (insert key start) (insert key start') := by
  intro other hother
  rw [Finset.mem_insert, Finset.mem_insert, h other hother]

theorem AgreeBut.extend {keys start start' finish : Finset κ} (h : AgreeBut keys start start')
    (hsub : start' ⊆ finish) (hsup : finish ⊆ start' ∪ keys) : AgreeBut keys start finish := by
  intro key hkey
  refine (h key hkey).trans ⟨fun hmem => hsub hmem, fun hmem => ?_⟩
  exact (Finset.mem_union.mp (hsup hmem)).resolve_right hkey

/-- Two courses of the same requests end alike. -/
inductive EndAlike (keys : Finset κ) : Progress κ → Progress κ → Prop where
  | granted {finish finish' : Finset κ} (h : AgreeBut keys finish finish') :
      EndAlike keys (.granted finish) (.granted finish')
  | denied (finish finish' : Finset κ) : EndAlike keys (.denied finish) (.denied finish')

theorem exists_granted_ask {base keys : Finset κ} (hclosed : Closed bodies base keys)
    {start : Finset κ} (hbase : base ⊆ start) {key : κ} (hkey : key ∈ keys) (level : Nat) :
    ∃ depth finish, make bodies depth start [.ask level key] = .granted finish ∧
      start ⊆ finish ∧ finish ⊆ start ∪ keys := by
  refine exists_granted hclosed hbase ?_
  intro other hother
  rcases asks_cons_ask hother with rfl | ⟨level', hmem⟩
  · exact Finset.mem_union_right _ hkey
  · cases hmem

theorem make_cons (depth : Nat) (keys : Finset κ) (item : Item κ) (items : List (Item κ)) :
    make bodies depth keys (item :: items) =
      (make bodies depth keys [item]).andThen fun keys' => make bodies depth keys' items :=
  make_append depth keys [item] items

theorem make_first_ne_deep {depth : Nat} {keys : Finset κ} {item : Item κ} {items : List (Item κ)}
    (h : make bodies depth keys (item :: items) ≠ .deep) :
    make bodies depth keys [item] ≠ .deep := by
  intro hdeep
  rw [make_cons, hdeep] at h
  exact h rfl

omit [DecidableEq κ] in
theorem EndAlike.ne_deep {keys : Finset κ} {p q : Progress κ} (h : EndAlike keys p q) :
    q ≠ .deep := by
  cases h <;> simp

/-- A request for one of the keys that support each other only adds such keys, so the requests after
it decide how the course ends. -/
theorem endAlike_ask_mem {base keys : Finset κ} (hclosed : Closed bodies base keys) {depth : Nat}
    {start start' : Finset κ} {level : Nat} {key : κ} {items : List (Item κ)} (hkey : key ∈ keys)
    (hsettled : make bodies depth start (.ask level key :: items) ≠ .deep) (hbase : base ⊆ start)
    (hbase' : base ⊆ start') (hagree : AgreeBut keys start start')
    (ih : ∀ {finish finish' : Finset κ}, make bodies depth finish items ≠ .deep →
      base ⊆ finish → base ⊆ finish' → AgreeBut keys finish finish' →
      ∃ depth', EndAlike keys (make bodies depth finish items) (make bodies depth' finish' items)) :
    ∃ depth', EndAlike keys (make bodies depth start (.ask level key :: items))
      (make bodies depth' start' (.ask level key :: items)) := by
  obtain ⟨d, finish, hmake, hsub, hsup⟩ := exists_granted_ask hclosed hbase hkey level
  obtain ⟨d', finish', hmake', hsub', hsup'⟩ := exists_granted_ask hclosed hbase' hkey level
  have hfirst : make bodies depth start [.ask level key] = .granted finish := by
    rw [← hmake]
    exact make_unique (make_first_ne_deep hsettled) (by simp [hmake])
  have hwhole : make bodies depth start (.ask level key :: items) =
      make bodies depth finish items := by
    rw [make_cons, hfirst]
    rfl
  have hagree' : AgreeBut keys finish finish' :=
    ((hagree.symm.extend hsub hsup).symm).extend hsub' hsup'
  rw [hwhole] at hsettled ⊢
  obtain ⟨depth', hend⟩ := ih hsettled (hbase.trans hsub) (hbase'.trans hsub') hagree'
  refine ⟨max d' depth', ?_⟩
  have hfirst' : make bodies (max d' depth') start' [.ask level key] = .granted finish' := by
    rw [make_mono (by simp [hmake']) (Nat.le_max_left d' depth'), hmake']
  rw [make_cons, hfirst', Progress.andThen, make_mono hend.ne_deep (Nat.le_max_right d' depth')]
  exact hend

/-- A request for any other key takes the same course on both sides. -/
theorem endAlike_ask_not_mem {base keys : Finset κ} {depth : Nat} {start start' : Finset κ}
    {level : Nat} {key : κ} {items : List (Item κ)} (hstart : key ∉ start) (hstart' : key ∉ start')
    (hsettled : make bodies depth start (.ask level key :: items) ≠ .deep) (hbase : base ⊆ start)
    (hbase' : base ⊆ start')
    (ihbody : make bodies (depth - level - 1) (insert key start) (bodies key).items ≠ .deep →
      level < depth →
      ∃ d, EndAlike keys (make bodies (depth - level - 1) (insert key start) (bodies key).items)
        (make bodies d (insert key start') (bodies key).items))
    (ih : ∀ {finish finish' : Finset κ}, make bodies depth finish items ≠ .deep →
      base ⊆ finish → base ⊆ finish' → AgreeBut keys finish finish' →
      ∃ depth', EndAlike keys (make bodies depth finish items) (make bodies depth' finish' items)) :
    ∃ depth', EndAlike keys (make bodies depth start (.ask level key :: items))
      (make bodies depth' start' (.ask level key :: items)) := by
  rw [make, if_neg hstart] at hsettled ⊢
  split at hsettled
  · next hlevel =>
      rw [if_pos hlevel]
      have hinner : make bodies (depth - level - 1) (insert key start) (bodies key).items ≠ .deep := by
        intro hdeep
        simp [hdeep] at hsettled
      obtain ⟨d, hend⟩ := ihbody hinner hlevel
      generalize hp : make bodies (depth - level - 1) (insert key start) (bodies key).items = p
        at hend hsettled
      generalize hq : make bodies d (insert key start') (bodies key).items = q at hend
      cases hend with
      | @granted inner inner' hagree =>
          have hinner : start ⊆ inner :=
            (Finset.subset_insert _ _).trans (supported_of_granted hp).1
          have hinner' : start' ⊆ inner' :=
            (Finset.subset_insert _ _).trans (supported_of_granted hq).1
          cases hholds : (bodies key).holds with
          | true =>
              simp only [hholds, if_true] at hsettled ⊢
              obtain ⟨d', hend⟩ := ih hsettled (hbase.trans hinner) (hbase'.trans hinner') hagree
              obtain ⟨depth', hmake⟩ := exists_make_ask hstart' hq hholds rfl hend.ne_deep level
              exact ⟨depth', hmake ▸ hend⟩
          | false =>
              refine ⟨d + level + 1, ?_⟩
              rw [make_ask hstart' (by simp [hq]) items (Nat.lt_succ_self _), hq]
              simp only [hholds, Bool.false_eq_true, if_false]
              exact .denied _ _
      | denied inner inner' =>
          refine ⟨d + level + 1, ?_⟩
          rw [make_ask hstart' (by simp [hq]) items (Nat.lt_succ_self _), hq]
          exact .denied _ _
  · exact absurd rfl hsettled

/-- Requests made where the granted keys differ only in keys that support each other end alike. -/
theorem make_endAlike {base keys : Finset κ} (hclosed : Closed bodies base keys) {depth : Nat}
    {start start' : Finset κ} {items : List (Item κ)}
    (hsettled : make bodies depth start items ≠ .deep) (hbase : base ⊆ start)
    (hbase' : base ⊆ start') (hagree : AgreeBut keys start start') :
    ∃ depth', EndAlike keys (make bodies depth start items) (make bodies depth' start' items) := by
  induction depth using Nat.strongRecOn generalizing start start' items with
  | ind depth ihdepth =>
      induction items generalizing start start' with
      | nil => exact ⟨0, by rw [make, make]; exact .granted hagree⟩
      | cons item items ih =>
          cases item with
          | need level =>
              rw [make] at hsettled ⊢
              split at hsettled
              · next hlevel =>
                  rw [if_pos hlevel]
                  obtain ⟨d, hend⟩ := ih hsettled hbase hbase' hagree
                  obtain ⟨depth', hmake⟩ := exists_make_need rfl hend.ne_deep level
                  exact ⟨depth', hmake ▸ hend⟩
              · exact absurd rfl hsettled
          | ask level key =>
              by_cases hkey : key ∈ keys
              · exact endAlike_ask_mem hclosed hkey hsettled hbase hbase' hagree ih
              · by_cases hmem : key ∈ start
                · have hmem' : key ∈ start' := (hagree key hkey).mp hmem
                  rw [make, if_pos hmem] at hsettled ⊢
                  obtain ⟨d, hend⟩ := ih hsettled hbase hbase' hagree
                  exact ⟨d, by rwa [make, if_pos hmem']⟩
                · have hmem' : key ∉ start' := fun h => hmem ((hagree key hkey).mpr h)
                  refine endAlike_ask_not_mem hmem hmem' hsettled hbase hbase' ?_ ih
                  intro hbody hlevel
                  exact ihdepth _ (by omega) hbody (hbase.trans (Finset.subset_insert _ _))
                    (hbase'.trans (Finset.subset_insert _ _)) (hagree.insert key)

theorem granted_of_agreeBut {base keys : Finset κ} (hclosed : Closed bodies base keys) {depth : Nat}
    {start start' finish : Finset κ} {items : List (Item κ)} (hbase : base ⊆ start)
    (hbase' : base ⊆ start') (hagree : AgreeBut keys start start')
    (h : make bodies depth start items = .granted finish) :
    ∃ depth' finish', make bodies depth' start' items = .granted finish' := by
  have hsettled : make bodies depth start items ≠ .deep := by simp [h]
  obtain ⟨depth', hend⟩ := make_endAlike hclosed hsettled hbase hbase' hagree
  rw [h] at hend
  generalize hmake : make bodies depth' start' items = progress at hend
  cases hend with
  | granted => exact ⟨depth', _, hmake⟩

theorem denied_of_agreeBut {base keys : Finset κ} (hclosed : Closed bodies base keys) {depth : Nat}
    {start start' finish : Finset κ} {items : List (Item κ)} (hbase : base ⊆ start)
    (hbase' : base ⊆ start') (hagree : AgreeBut keys start start')
    (h : make bodies depth start items = .denied finish) :
    ∃ depth' finish', make bodies depth' start' items = .denied finish' := by
  have hsettled : make bodies depth start items ≠ .deep := by simp [h]
  obtain ⟨depth', hend⟩ := make_endAlike hclosed hsettled hbase hbase' hagree
  rw [h] at hend
  generalize hmake : make bodies depth' start' items = progress at hend
  cases hend with
  | denied => exact ⟨depth', _, hmake⟩

end TypedLisp.Requests
