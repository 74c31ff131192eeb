import Mathlib
import Quaint.Probing

/-!
The hash table.

A table is created with its number of items and has no spare one: an insertion takes the first
free item from the hash of the key round the end. As long as keys are new and items are left
every insertion succeeds, and every key is found with what it was inserted with.
-/

namespace Quaint.HashTable

open Probing

variable {δ : Type}

/-! ### The table -/

/-- An item of `struct htab`. The key `0` is that of a free item, as `calloc` leaves it. -/
structure Item (δ : Type) where
  key : Nat
  data : Option δ

/-- `struct htab` -/
structure Htab (δ : Type) where
  count : Nat
  items : List (Item δ)
  sized : items.length = count

/-- `htab_create` -/
def htabCreate (count : Nat) : Htab δ := ⟨count, List.replicate count ⟨0, none⟩, List.length_replicate⟩

/-- `HASH` -/
def hash (key count : Nat) : Nat := key % (if count = 0 then 1 else count)

/-- Where a loop of `htab_insert` stops. -/
inductive Stop
  | free (idx : Nat)
  | duplicate
  | exhausted
  deriving DecidableEq

/-- A loop of `htab_insert`; with `NDEBUG`, as in the default build, its assertion is left out. -/
def insertLoop (ndebug : Bool) (items : List (Item δ)) (key : Nat) : List Nat → Stop
  | [] => .exhausted
  | idx :: rest =>
    match items[idx]? with
    | none => .exhausted
    | some item =>
      if ndebug = false ∧ item.key = key then .duplicate
      else if item.key = 0 then .free idx
      else insertLoop ndebug items key rest

/-- The assignments at `insert:` -/
def Htab.put (h : Htab δ) (idx key : Nat) (data : δ) : Htab δ :=
  ⟨h.count, h.items.set idx ⟨key, some data⟩, by rw [List.length_set, h.sized]⟩

/-- `htab_insert`; nothing where an assertion fails or the function aborts -/
def htabInsert (ndebug : Bool) (h : Htab δ) (key : Nat) (data : δ) : Option (Htab δ) :=
  if ndebug = false ∧ key = 0 then none
  else
    let pos := hash key h.count
    match insertLoop ndebug h.items key (List.range' pos (h.count - pos)) with
    | .free idx => some (h.put idx key data)
    | .duplicate => none
    | .exhausted =>
      match insertLoop ndebug h.items key (List.range pos) with
      | .free idx => some (h.put idx key data)
      | .duplicate | .exhausted => none

/-- A loop of `htab_get` -/
def getLoop (items : List (Item δ)) (key : Nat) : List Nat → Option (Item δ)
  | [] => none
  | idx :: rest =>
    match items[idx]? with
    | none => none
    | some item => if item.key = key then some item else getLoop items key rest

/-- `htab_get`; nothing where an assertion fails or the function aborts -/
def htabGet (ndebug : Bool) (h : Htab δ) (key : Nat) : Option δ :=
  if ndebug = false ∧ key = 0 then none
  else
    let pos := hash key h.count
    match getLoop h.items key (List.range' pos (h.count - pos)) with
    | some item => item.data
    | none =>
      match getLoop h.items key (List.range pos) with
      | some item => item.data
      | none => none

/-! ### What the loops find -/

/-- An item that is taken. -/
def Item.taken (item : Item δ) : Bool := item.key != 0

/-- The taken items of a table. -/
def Htab.held (h : Htab δ) : List (Item δ) := h.items.filter Item.taken

section Loops

variable {ndebug : Bool} {items : List (Item δ)} {item : Item δ} {key idx : Nat} {is js : List Nat} {h : Htab δ} {data : δ}

lemma hash_le (key count : Nat) : hash key count ≤ count := by
  unfold hash
  split
  · omega
  · exact (Nat.mod_lt _ (by omega)).le

lemma item_at (h : idx < items.length) : ∃ item ∈ items, items[idx]? = some item :=
  ⟨items[idx], List.getElem_mem h, List.getElem?_eq_getElem h⟩

/-- The places of the two loops are those of one search. -/
lemma insertLoop_append (hi : ∀ i ∈ is, i < items.length) :
    insertLoop ndebug items key (is ++ js) =
      match insertLoop ndebug items key is with
      | .exhausted => insertLoop ndebug items key js
      | stop => stop := by
  induction is with
  | nil => rfl
  | cons i is ih =>
    rw [List.forall_mem_cons] at hi
    obtain ⟨item, -, hget⟩ := item_at hi.1
    simp only [List.cons_append, insertLoop, hget]
    by_cases hkey : ndebug = false ∧ item.key = key
    · simp only [if_pos hkey]
    by_cases hfree : item.key = 0
    · simp only [if_neg hkey, if_pos hfree]
    · simpa only [if_neg hkey, if_neg hfree] using ih hi.2

lemma getLoop_append (hi : ∀ i ∈ is, i < items.length) :
    getLoop items key (is ++ js) = (getLoop items key is).or (getLoop items key js) := by
  induction is with
  | nil => rfl
  | cons i is ih =>
    rw [List.forall_mem_cons] at hi
    obtain ⟨item, -, hget⟩ := item_at hi.1
    simp only [List.cons_append, getLoop, hget]
    split
    · rfl
    · exact ih hi.2

/-- With a new key and a free item ahead, the loop stops at a free item. -/
lemma insertLoop_free (hnew : ∀ item ∈ items, item.key ≠ key) (hi : ∀ i ∈ is, i < items.length)
    (hfree : ∃ i ∈ is, ∃ item, items[i]? = some item ∧ item.key = 0) :
    ∃ i item, insertLoop ndebug items key is = .free i ∧ items[i]? = some item ∧ item.key = 0 := by
  induction is with
  | nil =>
    obtain ⟨i, hmem, -⟩ := hfree
    cases hmem
  | cons i is ih =>
    rw [List.forall_mem_cons] at hi
    obtain ⟨item, hmem, hget⟩ := item_at hi.1
    simp only [insertLoop, hget, if_neg (fun h : ndebug = false ∧ _ => hnew item hmem h.2)]
    by_cases hz : item.key = 0
    · exact ⟨i, item, if_pos hz, hget, hz⟩
    rw [if_neg hz]
    obtain ⟨k, hk, item', hget', hz'⟩ := hfree
    rcases List.mem_cons.mp hk with rfl | hk
    · rw [hget] at hget'
      cases hget'
      exact absurd hz' hz
    · exact ih hi.2 ⟨k, hk, item', hget', hz'⟩

/-- Where the assertion does not fail, it makes no difference. -/
lemma insertLoop_ndebug (hd : insertLoop false items key is ≠ .duplicate) :
    insertLoop ndebug items key is = insertLoop false items key is := by
  induction is with
  | nil => rfl
  | cons i is ih =>
    simp only [insertLoop] at hd ⊢
    cases hget : items[i]? with
    | none => rfl
    | some item =>
      simp only [hget, true_and] at hd ⊢
      by_cases hkey : item.key = key
      · exact absurd (if_pos hkey) hd
      · rw [if_neg hkey] at hd ⊢
        rw [if_neg fun h => hkey h.2]
        split
        · rfl
        · rename_i hz
          rw [if_neg hz] at hd
          exact ih hd

/-- With the key ahead, the loop stops at an item of that key. -/
lemma getLoop_some (hi : ∀ i ∈ is, i < items.length)
    (hkey : ∃ i ∈ is, ∃ item, items[i]? = some item ∧ item.key = key) :
    ∃ item ∈ items, getLoop items key is = some item ∧ item.key = key := by
  induction is with
  | nil =>
    obtain ⟨i, hmem, -⟩ := hkey
    cases hmem
  | cons i is ih =>
    rw [List.forall_mem_cons] at hi
    obtain ⟨item, hmem, hget⟩ := item_at hi.1
    simp only [getLoop, hget]
    by_cases he : item.key = key
    · exact ⟨item, hmem, if_pos he, he⟩
    rw [if_neg he]
    obtain ⟨k, hk, item', hget', he'⟩ := hkey
    rcases List.mem_cons.mp hk with rfl | hk
    · rw [hget] at hget'
      cases hget'
      exact absurd he' he
    · exact ih hi.2 ⟨k, hk, item', hget', he'⟩

lemma mem_held : item ∈ h.held ↔ item ∈ h.items ∧ item.key ≠ 0 := by
  simp [Htab.held, Item.taken]

end Loops

/-! ### Insertions and lookups -/

section Calls

variable {ndebug : Bool} {h : Htab δ} {item : Item δ} {key : Nat} {data : δ}

/-- The places an operation looks at. -/
def Htab.places (h : Htab δ) (key : Nat) : List Nat := order h.count (hash key h.count)

lemma mem_places {i : Nat} : i ∈ h.places key ↔ i < h.items.length := by
  rw [Htab.places, mem_order (hash_le _ _), h.sized]

lemma htabInsert_of_free {i : Nat} (hk : key ≠ 0)
    (h1 : insertLoop ndebug h.items key (h.places key) = .free i) :
    htabInsert ndebug h key data = some (h.put i key data) := by
  have hlt : ∀ i ∈ List.range' (hash key h.count) (h.count - hash key h.count), i < h.items.length :=
    fun i hi => mem_places.mp (List.mem_append_left _ hi)
  rw [Htab.places, order, insertLoop_append hlt] at h1
  unfold htabInsert
  rw [if_neg fun h => hk h.2]
  dsimp only
  split at h1
  · rename_i hstop
    rw [hstop]
    dsimp only
    rw [h1]
  · rw [h1]

lemma htabGet_eq (hk : key ≠ 0) : htabGet ndebug h key = (getLoop h.items key (h.places key)).bind Item.data := by
  have hlt : ∀ i ∈ List.range' (hash key h.count) (h.count - hash key h.count), i < h.items.length :=
    fun i hi => mem_places.mp (List.mem_append_left _ hi)
  unfold htabGet
  rw [if_neg fun h => hk h.2, Htab.places, order, getLoop_append hlt]
  dsimp only
  cases getLoop h.items key (List.range' (hash key h.count) (h.count - hash key h.count)) with
  | some item => rfl
  | none => cases getLoop h.items key (List.range (hash key h.count)) <;> rfl

/-- Where no assertion fails, a build without them does the same. -/
lemma htabInsert_ndebug {h' : Htab δ} (hx : htabInsert false h key data = some h') :
    htabInsert ndebug h key data = some h' := by
  unfold htabInsert at hx ⊢
  split at hx
  · cases hx
  · rename_i hk
    rw [if_neg fun h => hk ⟨rfl, h.2⟩]
    dsimp only at hx ⊢
    split at hx
    · rename_i idx hloop
      rwa [insertLoop_ndebug (by rw [hloop]; simp), hloop]
    · cases hx
    · rename_i hloop
      rw [insertLoop_ndebug (by rw [hloop]; simp), hloop]
      dsimp only
      split at hx
      · rename_i idx hloop
        rwa [insertLoop_ndebug (by rw [hloop]; simp), hloop]
      · cases hx
      · cases hx

/-- **A new key is inserted as long as there is room.** -/
theorem htabInsert_spec (data : δ) (hk : key ≠ 0) (hnew : ∀ item ∈ h.held, item.key ≠ key)
    (hroom : h.held.length < h.count) :
    ∃ h', htabInsert ndebug h key data = some h' ∧ h'.count = h.count ∧
      h'.held.Perm (⟨key, some data⟩ :: h.held) := by
  have hnew' : ∀ item ∈ h.items, item.key ≠ key := fun item hi he =>
    hnew item (mem_held.mpr ⟨hi, he ▸ hk⟩) he
  obtain ⟨free, hmem, hfree⟩ := exists_free Item.taken (by rw [h.sized]; exact hroom)
  obtain ⟨j, hj⟩ := List.mem_iff_getElem?.mp hmem
  have hjlt : j < h.items.length := (List.getElem?_eq_some_iff.mp hj).1
  obtain ⟨i, item, hloop, hi, hz⟩ := insertLoop_free hnew' (fun i hi => mem_places.mp hi)
    ⟨j, mem_places.mpr hjlt, free, hj, by simpa [Item.taken] using hfree⟩
  exact ⟨h.put i key data, htabInsert_of_free hk hloop, rfl,
    filter_set_perm hi (by simp [Item.taken, hz]) (by simpa [Item.taken] using hk)⟩

/-- **A key is found with what is held for it**, if it is held once. -/
theorem htabGet_spec (hk : key ≠ 0) (hheld : ⟨key, some data⟩ ∈ h.held)
    (honce : (h.held.map Item.key).Nodup) : htabGet ndebug h key = some data := by
  obtain ⟨hmem, -⟩ := mem_held.mp hheld
  obtain ⟨j, hj⟩ := List.mem_iff_getElem?.mp hmem
  have hjlt : j < h.items.length := (List.getElem?_eq_some_iff.mp hj).1
  obtain ⟨item, hi, hloop, hkey⟩ := getLoop_some (fun i hi => mem_places.mp hi)
    ⟨j, mem_places.mpr hjlt, _, hj, rfl⟩
  have heq : item = ⟨key, some data⟩ :=
    List.inj_on_of_nodup_map honce (mem_held.mpr ⟨hi, hkey ▸ hk⟩) hheld hkey
  rw [htabGet_eq hk, hloop, heq]
  rfl

end Calls

/-! ### Filling a table -/

/-- A table with the calls of `htab_insert` made on it, the key and the data of each. The calls are
those of a build with assertions, so that none of them fails where a call returns. -/
structure Filling (δ : Type) where
  htab : Htab δ
  calls : List (Nat × δ)

def Filling.create (count : Nat) : Filling δ := ⟨htabCreate count, []⟩

def Filling.insert (x : Filling δ) (key : Nat) (data : δ) : Option (Filling δ) :=
  (htabInsert false x.htab key data).map fun h => ⟨h, x.calls ++ [(key, data)]⟩

/-- The calls had keys of their own, and the table holds what they inserted. -/
structure Filling.Holds (x : Filling δ) : Prop where
  held : x.htab.held.Perm (x.calls.map fun c => ⟨c.1, some c.2⟩)
  keys : (x.calls.map Prod.fst).Nodup
  nonzero : ∀ c ∈ x.calls, c.1 ≠ 0

section Filling

variable {x : Filling δ} {c : Nat × δ} {count key : Nat} {data : δ}

lemma create_holds : (Filling.create count : Filling δ).Holds where
  held := by simp [Filling.create, htabCreate, Htab.held, Item.taken]
  keys := List.nodup_nil
  nonzero := List.forall_mem_nil _

/-- **One more insertion.** -/
theorem insert_holds (data : δ) (h : x.Holds) (hk : key ≠ 0) (hnew : key ∉ x.calls.map Prod.fst)
    (hroom : x.calls.length < x.htab.count) :
    ∃ x', x.insert key data = some x' ∧ x'.calls = x.calls ++ [(key, data)] ∧
      x'.htab.count = x.htab.count ∧ x'.Holds := by
  have hfresh : ∀ item ∈ x.htab.held, item.key ≠ key := by
    intro item hi he
    obtain ⟨c, hc, rfl⟩ := List.mem_map.mp (h.held.mem_iff.mp hi)
    exact hnew (List.mem_map.mpr ⟨c, hc, he⟩)
  obtain ⟨t, ht, hcount, hheld⟩ := htabInsert_spec data hk hfresh
    (by rw [h.held.length_eq, List.length_map]; exact hroom)
  refine ⟨⟨t, x.calls ++ [(key, data)]⟩, by rw [Filling.insert, ht]; rfl, rfl, hcount, ?_, ?_, ?_⟩
  · rw [List.map_append]
    exact (hheld.trans (h.held.cons _)).trans (List.perm_append_singleton _ _).symm
  · rw [List.map_append]
    exact List.nodup_append_comm.mp (List.nodup_cons.mpr ⟨hnew, h.keys⟩)
  · exact List.forall_mem_append.mpr ⟨h.nonzero, List.forall_mem_singleton.mpr hk⟩

/-- **What was inserted is found.** -/
theorem Filling.Holds.found (h : x.Holds) (hc : c ∈ x.calls) (ndebug : Bool) :
    htabGet ndebug x.htab c.1 = some c.2 := by
  refine htabGet_spec (h.nonzero c hc) (h.held.mem_iff.mpr (List.mem_map.mpr ⟨c, hc, rfl⟩)) ?_
  refine (h.held.map Item.key).nodup_iff.mpr ?_
  rw [List.map_map]
  exact h.keys

end Filling

end Quaint.HashTable
