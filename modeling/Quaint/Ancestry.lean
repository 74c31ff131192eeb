import Mathlib

/-!
Chains of a partial parent function: the elements met on the way from one to a root.
-/

namespace Quaint.Ancestry

open Relation

variable {α : Type*} {parent parent' : α → Option α} {r a b : α} {l l' : List α}

/-- The list from an element up to the root `r`. -/
inductive Chain (parent : α → Option α) (r : α) : α → List α → Prop
  | root (h : parent r = none) : Chain parent r r [r]
  | link {a b : α} {l : List α} (h : parent a = some b) (tail : Chain parent r b l) :
    Chain parent r a (a :: l)

/-- One element is the parent of another. -/
def IsParent (parent : α → Option α) (a b : α) : Prop := parent a = some b

lemma Chain.head_mem (h : Chain parent r a l) : a ∈ l := by
  cases h <;> exact List.mem_cons_self

lemma Chain.unique (h : Chain parent r a l) (h' : Chain parent r a l') : l = l' := by
  induction h generalizing l' with
  | root hr =>
    cases h' with
    | root => rfl
    | link hl => rw [hr] at hl; cases hl
  | link hl _ ih =>
    cases h' with
    | root hr => rw [hr] at hl; cases hl
    | link hl' t =>
      rw [hl, Option.some.injEq] at hl'
      subst hl'
      rw [ih t]

/-- The chain of a member is a suffix of the chain. -/
lemma Chain.suffix (h : Chain parent r a l) (hb : b ∈ l) :
    ∃ l', Chain parent r b l' ∧ l' <:+ l := by
  induction h with
  | root hr =>
    obtain rfl := List.mem_singleton.mp hb
    exact ⟨_, .root hr, List.suffix_refl _⟩
  | link hl t ih =>
    rcases List.mem_cons.mp hb with rfl | hb
    · exact ⟨_, .link hl t, List.suffix_refl _⟩
    · obtain ⟨l', h', hs⟩ := ih hb
      exact ⟨l', h', hs.trans (List.suffix_cons _ _)⟩

/-- No element is met twice. -/
lemma Chain.nodup (h : Chain parent r a l) : l.Nodup := by
  induction h with
  | root hr => exact List.nodup_cons.mpr ⟨nofun, List.nodup_nil⟩
  | link hl t ih =>
    refine List.nodup_cons.mpr ⟨fun hmem => ?_, ih⟩
    obtain ⟨l', h', hs⟩ := t.suffix hmem
    have heq := (Chain.link hl t).unique h'
    have hlen := hs.length_le
    rw [← heq, List.length_cons] at hlen
    omega

lemma Chain.congr (h : Chain parent r a l) (hp : ∀ x ∈ l, parent' x = parent x) :
    Chain parent' r a l := by
  induction h with
  | root hr => exact .root ((hp _ List.mem_cons_self).trans hr)
  | link hl t ih =>
    exact .link ((hp _ List.mem_cons_self).trans hl)
      (ih fun x hx => hp x (List.mem_cons_of_mem _ hx))

lemma Chain.mem_of_isParent (h : Chain parent r a l) (hb : IsParent parent a b) : b ∈ l := by
  cases h with
  | root hr => rw [IsParent, hr] at hb; cases hb
  | link hl t =>
    rw [IsParent, hl, Option.some.injEq] at hb
    exact List.mem_cons_of_mem _ (hb ▸ t.head_mem)

lemma Chain.mem_of_reaches (h : Chain parent r a l) (hb : ReflTransGen (IsParent parent) a b) :
    b ∈ l := by
  induction hb with
  | refl => exact h.head_mem
  | tail _ hp ih =>
    obtain ⟨l', h', hs⟩ := h.suffix ih
    exact hs.subset (h'.mem_of_isParent hp)

lemma Chain.reaches_of_mem (h : Chain parent r a l) (hb : b ∈ l) :
    ReflTransGen (IsParent parent) a b := by
  induction h with
  | root hr => exact List.mem_singleton.mp hb ▸ .refl
  | link hl t ih =>
    rcases List.mem_cons.mp hb with rfl | hb
    · exact .refl
    · exact .head hl (ih hb)

/-- Without its first element, the chain is that of the parent. -/
lemma Chain.tail_of (h : Chain parent r a l) (hb : parent a = some b) :
    ∃ l', Chain parent r b l' ∧ l = a :: l' := by
  cases h with
  | root hr => rw [hr] at hb; cases hb
  | link hl t =>
    rw [hl, Option.some.injEq] at hb
    exact ⟨_, hb ▸ t, rfl⟩

/-- There is no way from an element above the first back to itself. -/
theorem Chain.acyclic (h : Chain parent r a l) (hb : b ∈ l) : ¬ TransGen (IsParent parent) b b := by
  intro hcyc
  obtain ⟨l', h', -⟩ := h.suffix hb
  obtain ⟨c, hbc, hcb⟩ := TransGen.head'_iff.mp hcyc
  obtain ⟨l'', h'', rfl⟩ := h'.tail_of hbc
  exact (List.nodup_cons.mp h'.nodup).1 (h''.mem_of_reaches hcb)

end Quaint.Ancestry
