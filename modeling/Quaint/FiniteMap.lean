import Quaint.HashTable

/-!
The hash table is a finite map.

Nothing is ever taken out of a table, so on the way to an item every place is taken: an insertion that
would repeat a key comes to the key before it comes to a free place. With the assertions of `htab_insert`
the calls on a table all return if and only if their keys are distinct, and not zero, and no more than the
table was made for. The default build leaves the assertions out and lets a zero or repeated key in; as long
as the keys are distinct and not zero it does the same. Then `htab_get` finds for every key what was
inserted with it, and nothing for the others.
-/

namespace Quaint.FiniteMap

open Probing HashTable

variable {δ : Type}

/-- The place is taken. -/
def Taken (items : List (Item δ)) (i : Nat) : Prop := ∃ item, items[i]? = some item ∧ item.key ≠ 0

/-- On the way to an item every place is taken. -/
def Settled (h : Htab δ) : Prop :=
  ∀ j item, h.items[j]? = some item → item.key ≠ 0 →
    ∃ pre post, h.places item.key = pre ++ j :: post ∧ ∀ i ∈ pre, Taken h.items i

section Loops

variable {ndebug : Bool} {items : List (Item δ)} {item : Item δ} {key i j : Nat} {is pre post : List Nat}

/-- The loop stops at the first place that is free. -/
lemma insertLoop_eq_free (h : insertLoop ndebug items key is = .free i) :
    ∃ pre post, is = pre ++ i :: post ∧ (∀ j ∈ pre, Taken items j) ∧
      ∃ item, items[i]? = some item ∧ item.key = 0 := by
  induction is with
  | nil => cases h
  | cons k is ih =>
    rw [insertLoop] at h
    split at h
    · cases h
    · rename_i item hitem
      split at h
      · cases h
      · split at h
        · rename_i hz
          cases h
          exact ⟨[], is, rfl, List.forall_mem_nil _, item, hitem, hz⟩
        · rename_i hz
          obtain ⟨pre, post, rfl, htaken, hfree⟩ := ih h
          exact ⟨k :: pre, post, rfl, List.forall_mem_cons.mpr ⟨⟨item, hitem, hz⟩, htaken⟩, hfree⟩

/-- A key that is there is come to before a free place. -/
lemma insertLoop_duplicate (htaken : ∀ i ∈ pre, Taken items i) (hj : items[j]? = some item)
    (hkey : item.key = key) : insertLoop false items key (pre ++ j :: post) = .duplicate := by
  induction pre with
  | nil => simp [insertLoop, hj, hkey]
  | cons i pre ih =>
    rw [List.forall_mem_cons] at htaken
    obtain ⟨⟨x, hx, hz⟩, htaken⟩ := htaken
    simp only [List.cons_append, insertLoop, hx, if_neg hz, ih htaken, ite_self]

lemma getLoop_eq_some (h : getLoop items key is = some item) : item ∈ items ∧ item.key = key := by
  induction is with
  | nil => cases h
  | cons k is ih =>
    rw [getLoop] at h
    split at h
    · cases h
    · rename_i x hx
      split at h
      · rename_i hk
        cases h
        exact ⟨List.mem_of_getElem? hx, hk⟩
      · exact ih h

end Loops

section Calls

variable {ndebug : Bool} {h h' : Htab δ} {item : Item δ} {key count : Nat} {data : δ} {calls : List (Nat × δ)}

/-- What `htab_insert` does, by where its search stops. -/
lemma htabInsert_eq (hk : key ≠ 0) : htabInsert ndebug h key data =
    match insertLoop ndebug h.items key (h.places key) with
    | .free idx => some (h.put idx key data)
    | .duplicate | .exhausted => none := by
  have hlt : ∀ i ∈ List.range' (hash key h.count) (h.count - hash key h.count), i < h.items.length :=
    fun i hi => mem_places.mp (List.mem_append_left _ hi)
  unfold htabInsert
  rw [if_neg fun hz => hk hz.2, Htab.places, order, insertLoop_append hlt]
  dsimp only
  cases insertLoop ndebug h.items key (List.range' (hash key h.count) (h.count - hash key h.count)) with
  | free | duplicate => rfl
  | exhausted => cases insertLoop ndebug h.items key (List.range (hash key h.count)) <;> rfl

lemma htabInsert_some (hk : key ≠ 0) (hx : htabInsert ndebug h key data = some h') :
    ∃ i, insertLoop ndebug h.items key (h.places key) = .free i ∧ h' = h.put i key data := by
  rw [htabInsert_eq hk] at hx
  split at hx
  · rename_i i hi
    cases hx
    exact ⟨i, hi, rfl⟩
  · cases hx
  · cases hx

lemma taken_put {i j : Nat} (hk : key ≠ 0) (hj : Taken h.items j) : Taken (h.put i key data).items j := by
  obtain ⟨x, hx, hz⟩ := hj
  have hlt := (List.getElem?_eq_some_iff.mp hx).1
  by_cases hij : i = j
  · subst hij
    exact ⟨⟨key, some data⟩, by simp [Htab.put, hlt], hk⟩
  · exact ⟨x, by simp [Htab.put, List.getElem?_set_ne hij, hx], hz⟩

/-- An insertion keeps the ways. -/
lemma settled_insert (hs : Settled h) (hk : key ≠ 0) (hx : htabInsert ndebug h key data = some h') :
    Settled h' := by
  obtain ⟨i, hi, rfl⟩ := htabInsert_some hk hx
  obtain ⟨pre, post, hplaces, htaken, x, hxi, -⟩ := insertLoop_eq_free hi
  intro j item hj hz
  by_cases hij : i = j
  · subst hij
    have hlt := (List.getElem?_eq_some_iff.mp hxi).1
    obtain rfl : ⟨key, some data⟩ = item := by simpa [Htab.put, hlt] using hj
    exact ⟨pre, post, hplaces, fun i hi => taken_put hk (htaken i hi)⟩
  · have hj' : h.items[j]? = some item := by simpa [Htab.put, List.getElem?_set_ne hij] using hj
    obtain ⟨pre', post', hplaces', htaken'⟩ := hs j item hj' hz
    exact ⟨pre', post', hplaces', fun i hi => taken_put hk (htaken' i hi)⟩

/-- A key that is held fails an assertion. -/
lemma refused_of_held (hs : Settled h) (hmem : item ∈ h.held) :
    htabInsert false h item.key data = none := by
  obtain ⟨hmem, hz⟩ := mem_held.mp hmem
  obtain ⟨j, hj⟩ := List.mem_iff_getElem?.mp hmem
  obtain ⟨pre, post, hplaces, htaken⟩ := hs j item hj hz
  rw [htabInsert_eq hz, hplaces, insertLoop_duplicate htaken hj rfl]

/-- A table that is full takes nothing more. -/
lemma refused_of_full (hk : key ≠ 0) (hfull : h.held.length = h.count) :
    htabInsert ndebug h key data = none := by
  by_contra hne
  obtain ⟨h', hx⟩ := Option.ne_none_iff_exists'.mp hne
  obtain ⟨i, hi, rfl⟩ := htabInsert_some hk hx
  obtain ⟨-, -, -, -, x, hxi, hz⟩ := insertLoop_eq_free hi
  have hfree : x.taken = false := by simp [Item.taken, hz]
  have htaken : (⟨key, some data⟩ : Item δ).taken = true := by simpa [Item.taken] using hk
  have hperm := filter_set_perm hxi hfree htaken
  have hlen := hperm.length_eq
  have hle := List.length_filter_le Item.taken (h.items.set i ⟨key, some data⟩)
  rw [List.length_set, h.sized] at hle
  have hheld : (h.items.filter Item.taken).length = h.count := hfull
  simp only [List.length_cons, hheld] at hlen
  omega

lemma get_eq_none (hk : key ≠ 0) (hnew : ∀ item ∈ h.held, item.key ≠ key) : htabGet ndebug h key = none := by
  rw [htabGet_eq hk]
  cases hloop : getLoop h.items key (h.places key) with
  | none => rfl
  | some item =>
    obtain ⟨hmem, rfl⟩ := getLoop_eq_some hloop
    exact absurd rfl (hnew item (mem_held.mpr ⟨hmem, hk⟩))

/-! ### Sequences of insertions -/

/-- The calls of `htab_insert` on a table, one after the other. -/
def insertAll (ndebug : Bool) (h : Htab δ) : List (Nat × δ) → Option (Htab δ)
  | [] => some h
  | (key, data) :: rest => (htabInsert ndebug h key data).bind (insertAll ndebug · rest)

/-- The calls have keys of their own, which are not zero. -/
structure Keyed (calls : List (Nat × δ)) : Prop where
  keys : (calls.map Prod.fst).Nodup
  nonzero : ∀ c ∈ calls, c.1 ≠ 0

/-- A table with the calls made on it. -/
structure Made (count : Nat) (h : Htab δ) (calls : List (Nat × δ)) : Prop where
  holds : Filling.Holds ⟨h, calls⟩
  settled : Settled h
  size : h.count = count
  room : calls.length ≤ count

lemma made_create (count : Nat) : Made count (htabCreate count : Htab δ) [] where
  holds := create_holds
  settled := fun j item hj hz => absurd (by
    obtain ⟨hlt, rfl⟩ := List.getElem?_eq_some_iff.mp hj
    simp [htabCreate]) hz
  size := rfl
  room := Nat.zero_le _

lemma Made.held_iff (m : Made count h calls) :
    (∃ item ∈ h.held, item.key = key) ↔ key ∈ calls.map Prod.fst := by
  constructor
  · rintro ⟨item, hmem, rfl⟩
    obtain ⟨c, hc, rfl⟩ := List.mem_map.mp (m.holds.held.mem_iff.mp hmem)
    exact List.mem_map.mpr ⟨c, hc, rfl⟩
  · intro hkey
    obtain ⟨c, hc, rfl⟩ := List.mem_map.mp hkey
    exact ⟨_, m.holds.held.mem_iff.mpr (List.mem_map.mpr ⟨c, hc, rfl⟩), rfl⟩

lemma keyed_of_append {more : List (Nat × δ)} (h : Keyed (calls ++ more)) : Keyed calls := by
  obtain ⟨hkeys, hnonzero⟩ := h
  rw [List.map_append] at hkeys
  exact ⟨hkeys.of_append_left, fun c hc => hnonzero c (List.mem_append_left _ hc)⟩

lemma keyed_snoc (m : Made count h calls) {key : Nat} {data : δ} :
    Keyed (calls ++ [(key, data)]) ↔ key ≠ 0 ∧ key ∉ calls.map Prod.fst := by
  constructor
  · rintro ⟨hkeys, hnonzero⟩
    rw [List.map_append, List.nodup_append] at hkeys
    exact ⟨hnonzero (key, data) (by simp), fun hold => hkeys.2.2 _ hold _ (by simp) rfl⟩
  · rintro ⟨hk, hnew⟩
    refine ⟨?_, List.forall_mem_append.mpr ⟨m.holds.nonzero, List.forall_mem_singleton.mpr hk⟩⟩
    rw [List.map_append]
    exact List.nodup_append_comm.mp (List.nodup_cons.mpr ⟨hnew, m.holds.keys⟩)

/-- **One more call with a key of its own**: it returns as long as there is room, in every build. -/
theorem Made.insert_new (m : Made count h calls) (ndebug : Bool) (data : δ) (hk : key ≠ 0)
    (hnew : key ∉ calls.map Prod.fst) :
    (calls.length < count ∧
      ∃ h', htabInsert ndebug h key data = some h' ∧ Made count h' (calls ++ [(key, data)])) ∨
      (calls.length = count ∧ htabInsert ndebug h key data = none) := by
  by_cases hroom : calls.length < count
  · obtain ⟨x', hx, hcalls, hcount, hholds⟩ := insert_holds data m.holds hk hnew (m.size.symm ▸ hroom)
    simp only [Filling.insert, Option.map_eq_some_iff] at hx
    obtain ⟨h', hx, rfl⟩ := hx
    exact .inl ⟨hroom, h', htabInsert_ndebug hx, hholds, settled_insert m.settled hk hx, hcount.trans m.size,
      by simpa using hroom⟩
  · have hfull : calls.length = count := le_antisymm m.room (not_lt.mp hroom)
    refine .inr ⟨hfull, refused_of_full hk ?_⟩
    rw [m.holds.held.length_eq, List.length_map, m.size, hfull]

/-- A key that is zero or not its own fails an assertion. -/
lemma Made.insert_asserts (m : Made count h calls) (h0 : ¬ Keyed (calls ++ [(key, data)])) :
    htabInsert false h key data = none := by
  by_cases hk : key = 0
  · exact if_pos ⟨rfl, hk⟩
  · have hold : key ∈ calls.map Prod.fst := by
      by_contra hnew
      exact h0 ((keyed_snoc m).mpr ⟨hk, hnew⟩)
    obtain ⟨item, hmem, rfl⟩ := m.held_iff.mpr hold
    exact refused_of_held m.settled hmem

/-- Calls with keys of their own go on from a table that is made as long as there is room. -/
lemma Made.insertAll (m : Made count h calls) (ndebug : Bool) : ∀ more : List (Nat × δ), Keyed (calls ++ more) →
    ((calls ++ more).length ≤ count ∧
      ∃ h', FiniteMap.insertAll ndebug h more = some h' ∧ Made count h' (calls ++ more)) ∨
      (count < (calls ++ more).length ∧ FiniteMap.insertAll ndebug h more = none) := by
  intro more
  induction more generalizing h calls with
  | nil =>
    intro _
    rw [List.append_nil]
    exact .inl ⟨m.room, h, rfl, m⟩
  | cons c more ih =>
    intro hkeyed
    obtain ⟨key, data⟩ := c
    rw [List.append_cons] at hkeyed ⊢
    rw [FiniteMap.insertAll]
    obtain ⟨hk, hnew⟩ := (keyed_snoc m).mp (keyed_of_append hkeyed)
    rcases m.insert_new ndebug data hk hnew with ⟨-, h', hx, m'⟩ | ⟨hfull, hx⟩
    · rw [hx]
      exact ih m' hkeyed
    · rw [hx]
      refine .inr ⟨?_, rfl⟩
      simp only [List.length_append, List.length_cons]
      omega

/-- With assertions no other calls all return. -/
lemma Made.insertAll_asserts (m : Made count h calls) : ∀ more : List (Nat × δ),
    FiniteMap.insertAll false h more = some h' → Keyed (calls ++ more) := by
  intro more hx
  induction more generalizing h calls with
  | nil =>
    rw [List.append_nil]
    exact ⟨m.holds.keys, m.holds.nonzero⟩
  | cons c more ih =>
    obtain ⟨key, data⟩ := c
    rw [FiniteMap.insertAll, Option.bind_eq_some_iff] at hx
    obtain ⟨h1, hx1, hx⟩ := hx
    have hkeyed : Keyed (calls ++ [(key, data)]) := by
      by_contra h0
      cases (m.insert_asserts h0).symm.trans hx1
    obtain ⟨hk, hnew⟩ := (keyed_snoc m).mp hkeyed
    rw [List.append_cons]
    rcases m.insert_new false data hk hnew with ⟨-, h2, hx2, m'⟩ | ⟨-, hx2⟩
    · obtain rfl := Option.some.inj (hx1.symm.trans hx2)
      exact ih m' hx
    · cases hx2.symm.trans hx1

lemma lookup_of_mem {c : Nat × δ} (hkeys : (calls.map Prod.fst).Nodup) (hc : c ∈ calls) :
    calls.lookup c.1 = some c.2 := by
  induction calls with
  | nil => cases hc
  | cons d calls ih =>
    rw [List.map_cons, List.nodup_cons] at hkeys
    rcases List.mem_cons.mp hc with rfl | hc
    · simp [List.lookup]
    · have hne : c.1 ≠ d.1 := fun heq => hkeys.1 (heq ▸ List.mem_map_of_mem hc)
      simp [List.lookup, beq_false_of_ne hne, ih hkeys.2 hc]

lemma Made.get (m : Made count h calls) (hk : key ≠ 0) : htabGet ndebug h key = calls.lookup key := by
  by_cases hkey : key ∈ calls.map Prod.fst
  · obtain ⟨c, hc, rfl⟩ := List.mem_map.mp hkey
    rw [lookup_of_mem m.holds.keys hc]
    exact m.holds.found hc ndebug
  · rw [List.lookup_eq_none_iff.mpr fun c hc => by
      simpa using fun heq => hkey (List.mem_map.mpr ⟨c, hc, heq.symm⟩)]
    exact get_eq_none hk fun item hmem heq => hkey (m.held_iff.mp ⟨item, hmem, heq⟩)

/-- **The hash table is a finite map**, in every build: a sequence of insertions with distinct keys that are
not zero returns if and only if there is room for them, and then every key but zero is found with what was
inserted with it and no other key is found. With assertions no other sequence returns. -/
theorem table_is_map (count : Nat) (calls : List (Nat × δ)) :
    (∀ ndebug, Keyed calls →
      ((∃ h, insertAll ndebug (htabCreate count) calls = some h) ↔ calls.length ≤ count) ∧
        ∀ h, insertAll ndebug (htabCreate count) calls = some h → ∀ key, key ≠ 0 →
          htabGet ndebug h key = calls.lookup key) ∧
      ∀ h, insertAll false (htabCreate count) calls = some h → Keyed calls := by
  have hnew : Made count (htabCreate count) ([] : List (Nat × δ)) := made_create count
  refine ⟨fun ndebug hkeyed => ?_, fun h hx => hnew.insertAll_asserts calls hx⟩
  rcases hnew.insertAll ndebug calls hkeyed with ⟨hroom, h, hx, m⟩ | ⟨hfull, hx⟩
  · refine ⟨⟨fun _ => hroom, fun _ => ⟨h, hx⟩⟩, fun h' hx' key hk => ?_⟩
    obtain rfl := Option.some.inj (hx.symm.trans hx')
    exact m.get hk
  · refine ⟨⟨?_, fun hle => absurd hle (not_le.mpr hfull)⟩, ?_⟩
    · rintro ⟨h, h'⟩
      cases hx.symm.trans h'
    · intro h h'
      cases hx.symm.trans h'

end Calls

end Quaint.FiniteMap
