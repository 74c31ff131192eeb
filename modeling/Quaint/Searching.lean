import Mathlib
import Quaint.Scope

/-!
Sorting and searching by name.

The order of the names is total, the sort keeps the elements and puts them in this order, and the
halving search of a list in this order finds a name that is there. The labels of a function are
such a list.
-/

namespace Quaint.Searching

open Types Ast Scope

/-! ### The order -/

@[simp] lemma strcmp_self (a : List UInt8) : strcmp a a = .eq := by
  induction a with
  | nil => rfl
  | cons x a ih => simpa [strcmp] using ih

lemma strcmp_swap (a b : List UInt8) : (strcmp a b).swap = strcmp b a := by
  induction a generalizing b with
  | nil => cases b <;> rfl
  | cons x a ih =>
    cases b with
    | nil => rfl
    | cons y b =>
      simp only [strcmp]
      by_cases hxy : x < y
      · have hyx : ¬ y < x := fun h => by
          rw [UInt8.lt_iff_toNat_lt] at h hxy
          omega
        simp [hxy, hyx]
      · by_cases hyx : y < x
        · simp [hxy, hyx]
        · simpa [hxy, hyx] using ih b

lemma strcmp_eq {a b : List UInt8} (h : strcmp a b = .eq) : a = b := by
  induction a generalizing b with
  | nil => cases b <;> simp_all [strcmp]
  | cons x a ih =>
    cases b with
    | nil => cases h
    | cons y b =>
      simp only [strcmp] at h
      split at h
      · cases h
      · split at h
        · cases h
        · rename_i hxy hyx
          have hxy' : x = y := by
            rw [← UInt8.toNat_inj]
            rw [UInt8.lt_iff_toNat_lt] at hxy hyx
            omega
          rw [hxy', ih h]

/-- A name before another is before what is not before the other. -/
lemma strcmp_trans {a b c : List UInt8} (hab : strcmp a b ≠ .gt) (hbc : strcmp b c ≠ .gt) :
    strcmp a c ≠ .gt := by
  induction a generalizing b c with
  | nil => cases c <;> nofun
  | cons x a ih =>
    cases b with
    | nil => exact absurd rfl hab
    | cons y b =>
      cases c with
      | nil => exact absurd rfl hbc
      | cons z c =>
        simp only [strcmp, UInt8.lt_iff_toNat_lt] at hab hbc ⊢
        split at hab
        · split at hbc
          · rw [if_pos (by omega)]
            nofun
          · split at hbc
            · exact absurd rfl hbc
            · rw [if_pos (by omega)]
              nofun
        · split at hab
          · exact absurd rfl hab
          · split at hbc
            · rw [if_pos (by omega)]
              nofun
            · split at hbc
              · exact absurd rfl hbc
              · rw [if_neg (by omega), if_neg (by omega)]
                exact ih hab hbc

/-! ### Sorting -/

section Search

variable {α : Type} {name : α → Sym}

/-- In the order of the names. -/
def Sorted (name : α → Sym) (xs : List α) : Prop :=
  xs.Pairwise fun x y => strcmp (name x).text (name y).text ≠ .gt

lemma insertSorted_perm (x : α) (xs : List α) : (insertSorted name x xs).Perm (x :: xs) := by
  induction xs with
  | nil => rfl
  | cons y ys ih =>
    rw [insertSorted]
    split
    · exact (ih.cons y).trans (List.Perm.swap x y ys)
    · rfl

lemma qsort_perm (xs : List α) : (qsort name xs).Perm xs := by
  induction xs with
  | nil => rfl
  | cons x xs ih => exact (insertSorted_perm x _).trans (ih.cons x)

lemma insertSorted_sorted {x : α} {xs : List α} (h : Sorted name xs) :
    Sorted name (insertSorted name x xs) := by
  induction xs with
  | nil => exact List.pairwise_singleton _ _
  | cons y ys ih =>
    obtain ⟨hy, hys⟩ := List.pairwise_cons.mp h
    rw [insertSorted]
    split
    · rename_i hgt
      refine List.pairwise_cons.mpr ⟨fun z hz => ?_, ih hys⟩
      rcases List.mem_cons.mp ((insertSorted_perm x ys).mem_iff.mp hz) with rfl | hz
      · rw [← strcmp_swap, hgt]
        nofun
      · exact hy z hz
    · rename_i hle
      refine List.pairwise_cons.mpr ⟨fun z hz => ?_, h⟩
      rcases List.mem_cons.mp hz with rfl | hz
      · exact hle
      · exact strcmp_trans hle (hy z hz)

lemma qsort_sorted (xs : List α) : Sorted name (qsort name xs) := by
  induction xs with
  | nil => exact List.Pairwise.nil
  | cons x xs ih => exact insertSorted_sorted ih

/-! ### Searching -/

lemma Sorted.le {xs : List α} (h : Sorted name xs) {i j : Nat} {x y : α} (hij : i ≤ j)
    (hi : xs[i]? = some x) (hj : xs[j]? = some y) : strcmp (name x).text (name y).text ≠ .gt := by
  obtain ⟨hi', rfl⟩ := List.getElem?_eq_some_iff.mp hi
  obtain ⟨hj', rfl⟩ := List.getElem?_eq_some_iff.mp hj
  rcases Nat.lt_or_eq_of_le hij with hlt | rfl
  · exact List.pairwise_iff_getElem.mp h i j hi' hj' hlt
  · rw [strcmp_self]
    nofun

/-- The window of the search keeps the position of the name. -/
lemma bsearchLoop_complete {key : Sym} {xs : List α} (hs : Sorted name xs) {fuel lo hi k : Nat}
    {x : α} (hlo : lo ≤ k) (hhi : k < hi) (hfuel : hi < fuel + lo) (hlen : hi ≤ xs.length)
    (hk : xs[k]? = some x) (hx : (name x).text = key.text) :
    ∃ i y, bsearchLoop name key xs fuel lo hi = some i ∧ xs[i]? = some y ∧
      (name y).text = key.text := by
  induction fuel generalizing lo hi with
  | zero => omega
  | succ fuel ih =>
    have hmid : (lo + hi) / 2 < xs.length := by omega
    have hget : xs[(lo + hi) / 2]? = some xs[(lo + hi) / 2] := List.getElem?_eq_getElem hmid
    simp only [bsearchLoop, hget]
    rw [if_pos (by omega)]
    split
    · -- the key is before the middle, so it is not from there on
      rename_i hcmp
      have : k < (lo + hi) / 2 := by
        by_contra hge
        have := hs.le (Nat.le_of_not_lt hge) hget hk
        rw [hx, ← strcmp_swap, hcmp] at this
        exact this rfl
      exact ih hlo this (by omega) (by omega)
    · rename_i hcmp
      have : (lo + hi) / 2 < k := by
        by_contra hge
        have := hs.le (Nat.le_of_not_lt hge) hk hget
        rw [hx, hcmp] at this
        exact this rfl
      exact ih this hhi (by omega) hlen
    · rename_i hcmp
      exact ⟨_, _, rfl, hget, (strcmp_eq hcmp).symm⟩

/-- A name that is there is found. -/
lemma bsearch_complete {key : Sym} {xs : List α} (hs : Sorted name xs) {x : α} (hmem : x ∈ xs)
    (hx : (name x).text = key.text) :
    ∃ i y, bsearch name key xs = some i ∧ xs[i]? = some y ∧ (name y).text = key.text := by
  obtain ⟨k, hk⟩ := List.mem_iff_getElem?.mp hmem
  have hlt : k < xs.length := (List.getElem?_eq_some_iff.mp hk).1
  exact bsearchLoop_complete hs (Nat.zero_le k) hlt (by omega) (Nat.le_refl _) hk hx

/-- What is found has the name. -/
lemma bsearch_sound {key : Sym} {xs : List α} {i : Nat} (h : bsearch name key xs = some i) :
    ∃ x, xs[i]? = some x ∧ (name x).text = key.text := by
  have loop : ∀ fuel lo hi, bsearchLoop name key xs fuel lo hi = some i →
      ∃ x, xs[i]? = some x ∧ (name x).text = key.text := by
    intro fuel
    induction fuel with
    | zero => nofun
    | succ fuel ih =>
      intro lo hi h
      rw [bsearchLoop] at h
      split at h
      · split at h
        · cases h
        · rename_i x hx
          split at h
          · exact ih _ _ h
          · exact ih _ _ h
          · rename_i hcmp
            obtain rfl := Option.some.inj h
            exact ⟨x, hx, (strcmp_eq hcmp).symm⟩
      · cases h
  exact loop _ _ _ h

end Search

/-! ### Labels -/

section Labels

lemma identifyWlabs_names (p : Option Sym) (id : Nat) (ns : List Sym) :
    (identifyWlabs p id ns).map Prod.fst = ns := by
  induction ns generalizing p id with
  | nil => rfl
  | cons n ns ih =>
    cases p with
    | none => simp [identifyWlabs, ih]
    | some p =>
      rw [identifyWlabs]
      split <;> simp [ih]

lemma wlabs_names (f : Func) : (funcSig f).wlabs.map Prod.fst = qsort id (stmtsWlabs f.stmts) :=
  identifyWlabs_names none 0 _

lemma wlabs_sorted (f : Func) : Sorted Prod.fst (funcSig f).wlabs := by
  have h : Sorted id (qsort id (stmtsWlabs f.stmts)) := qsort_sorted _
  rw [← wlabs_names] at h
  exact List.pairwise_map.mp h

end Labels

end Quaint.Searching
