import Mathlib
import Quaint.Effect

/-!
Which quaint the scheduler goes on with.

On a list whose first element is the running one and each next the one above, the search takes
the first element that is open, by itself and by the one just below it, and stops where one that
it leaves behind is closed. The loop of the scheduler is this search along the chain.
-/

namespace Quaint.Splitting

open Exec Step Control Effect Ancestry Partial

/-! ### The nearest open element -/

section Search

variable {α : Type*} (closed : α → Bool) (opens : α → α → Bool)

def firstOpen : List α → Option α
  | c :: a :: l => if closed c then none else if opens c a then some a else firstOpen (a :: l)
  | _ => none

/-- `a` can be taken: it stands on the list just after `c`, which opens it, and nothing up to `c` is
closed. -/
structure CanTake (l pre : List α) (c a : α) : Prop where
  split : ∃ post, l = pre ++ c :: a :: post
  opened : opens c a = true
  free : ∀ x ∈ pre ++ [c], closed x = false

variable {closed opens} {l pre : List α} {b c a : α}

lemma canTake_nil_iff : CanTake closed opens (b :: l) [] c a ↔
    b = c ∧ l.head? = some a ∧ opens c a = true ∧ closed c = false := by
  constructor
  · rintro ⟨⟨post, hl⟩, hopen, hfree⟩
    obtain ⟨rfl, rfl⟩ := List.cons.inj hl
    exact ⟨rfl, rfl, hopen, hfree _ List.mem_cons_self⟩
  · rintro ⟨rfl, hl, hopen, hfree⟩
    obtain ⟨post, rfl⟩ := List.head?_eq_some_iff.mp hl
    refine ⟨⟨post, rfl⟩, hopen, fun x hx => ?_⟩
    obtain rfl := List.mem_singleton.mp hx
    exact hfree

lemma canTake_cons_iff {x : α} : CanTake closed opens (b :: l) (x :: pre) c a ↔
    b = x ∧ closed x = false ∧ CanTake closed opens l pre c a := by
  constructor
  · rintro ⟨⟨post, hl⟩, hopen, hfree⟩
    obtain ⟨rfl, rfl⟩ := List.cons.inj hl
    exact ⟨rfl, hfree _ List.mem_cons_self,
      ⟨post, rfl⟩, hopen, fun y hy => hfree y (List.mem_cons_of_mem _ hy)⟩
  · rintro ⟨rfl, hb, ⟨post, rfl⟩, hopen, hfree⟩
    refine ⟨⟨post, rfl⟩, hopen, fun y hy => ?_⟩
    rcases List.mem_cons.mp hy with rfl | hy
    · exact hb
    · exact hfree y hy

lemma not_canTake_short (hl : l.length ≤ 1) : ¬ CanTake closed opens l pre c a := by
  rintro ⟨⟨post, rfl⟩, -, -⟩
  simp only [List.length_append, List.length_cons] at hl
  omega

/-- The search comes back empty just where nothing can be taken. -/
lemma firstOpen_eq_none :
    firstOpen closed opens l = none ↔ ∀ pre c a, ¬ CanTake closed opens l pre c a := by
  induction l with
  | nil => exact ⟨fun _ _ _ _ => not_canTake_short (Nat.zero_le _), fun _ => rfl⟩
  | cons b l ih =>
    cases l with
    | nil => exact ⟨fun _ _ _ _ => not_canTake_short (Nat.le_refl _), fun _ => rfl⟩
    | cons d l =>
      rw [firstOpen]
      constructor
      · intro h pre c a ht
        cases pre with
        | nil =>
          obtain ⟨rfl, hd, hopen, hfree⟩ := canTake_nil_iff.mp ht
          obtain rfl := Option.some.inj hd
          simp [hfree, hopen] at h
        | cons x pre =>
          obtain ⟨rfl, hb, ht⟩ := canTake_cons_iff.mp ht
          simp only [hb, Bool.false_eq_true, if_false] at h
          split at h
          · cases h
          · exact ih.mp h pre c a ht
      · intro h
        cases hb : closed b with
        | true => rfl
        | false =>
          have hopen : opens b d = false :=
            Bool.eq_false_iff.mpr fun ho => h [] b d (canTake_nil_iff.mpr ⟨rfl, rfl, ho, hb⟩)
          simp only [hopen, Bool.false_eq_true, if_false]
          exact ih.mpr fun pre c a ht => h (b :: pre) c a (canTake_cons_iff.mpr ⟨rfl, hb, ht⟩)

/-- What the search finds is what can be taken soonest. -/
lemma firstOpen_eq_some (h : firstOpen closed opens l = some a) :
    ∃ pre c, CanTake closed opens l pre c a ∧
      ∀ pre' c' a', CanTake closed opens l pre' c' a' → pre.length ≤ pre'.length := by
  induction l with
  | nil => cases h
  | cons b l ih =>
    cases l with
    | nil => cases h
    | cons d l =>
      rw [firstOpen] at h
      split at h
      · cases h
      · rename_i hb
        split at h
        · rename_i hopen
          obtain rfl := Option.some.inj h
          exact ⟨[], b, canTake_nil_iff.mpr ⟨rfl, rfl, hopen, Bool.eq_false_iff.mpr hb⟩,
            fun _ _ _ _ => Nat.zero_le _⟩
        · rename_i hopen
          obtain ⟨pre, c, ht, hmin⟩ := ih h
          refine ⟨b :: pre, c, canTake_cons_iff.mpr ⟨rfl, Bool.eq_false_iff.mpr hb, ht⟩, ?_⟩
          intro pre' c' a' ht'
          cases pre' with
          | nil =>
            -- the one just above is not open
            obtain ⟨rfl, hd, ho, -⟩ := canTake_nil_iff.mp ht'
            obtain rfl := Option.some.inj hd
            exact (hopen ho).elim
          | cons x pre' =>
            exact Nat.succ_le_succ (hmin pre' c' a' (canTake_cons_iff.mp ht').2.2)

end Search

/-! ### The loop -/

section Loop

variable {s s1 : State} {inp : Inp} {r : Nat} {l : List Nat}

lemma parent_of_link {x y : Nat} (h : (ctl s).parent x = some y) : (s.vms x).parent = y := by
  simp only [Ctl.parent] at h
  split at h
  · cases h
  · exact Option.some.inj h

lemma parent_of_root {x : Nat} (h : (ctl s).parent x = none) : (s.vms x).parent = 0 := by
  by_contra hne
  have hs : (ctl s).parent x = some (s.vms x).parent := if_neg hne
  rw [h] at hs
  cases hs

/-- The walk along a chain of quaints that are in use has its end. -/
lemma length_le_splitFuel (hl : Chain (ctl s).parent r s.cur l) (hlive : ∀ x ∈ l, x ∈ s.live) :
    l.length ≤ splitFuel s := by
  have hle := (List.subperm_of_subset hl.nodup hlive).length_le
  simp only [splitFuel]
  omega

/-- The loop of the scheduler is the search along the chain. -/
lemma splitLoop_eq {fuel old : Nat} (hl : Chain (ctl s).parent r old l)
    (hlive : ∀ x ∈ l, x ∈ s.live) (hf : l.length ≤ fuel) :
    splitLoop s fuel old (s.vms old).parent (s.vms old).noint =
      .ok (firstOpen (fun x => (s.vms x).noint)
        (fun c a => splits s.now (s.vms c) (s.vms a)) l) := by
  induction hl generalizing fuel with
  | root hr =>
    obtain ⟨n, rfl⟩ := Nat.exists_eq_add_of_le' hf
    simp [splitLoop, parent_of_root hr, firstOpen]
  | @link a b l hl t ih =>
    obtain ⟨n, rfl⟩ := Nat.exists_eq_add_of_le' hf
    have hb := parent_of_link hl
    have hbl : b ∈ s.live := hlive b (List.mem_cons_of_mem _ t.head_mem)
    have hb0 : b ≠ 0 := by
      rintro rfl
      simp [Ctl.parent] at hl
    have hrest := @ih (n + l.length) (fun x hx => hlive x (List.mem_cons_of_mem _ hx))
      (Nat.le_add_left _ _)
    obtain ⟨l', rfl⟩ : ∃ l', l = b :: l' := by
      cases t with
      | root => exact ⟨_, rfl⟩
      | link => exact ⟨_, rfl⟩
    rw [List.length_cons, ← Nat.add_assoc, splitLoop, hb, hrest, firstOpen]
    simp only [hb0, false_or, hbl, not_true_eq_false, if_false]
    split
    · rfl
    · split <;> rfl

end Loop

/-! ### The quaint resumed -/

/-- What a quaint waits for has come: the interval noted has elapsed since the start noted, or
the quaint just below it has passed the label noted. -/
def ConditionHolds (now : Nat) (child v : Qvm) : Prop :=
  (v.waitingFor = true ∧ v.w1 ≤ (2 ^ 64 + now - v.w0) % 2 ^ 64) ∨
    (v.waitingFor = false ∧ v.waitingUntil = true ∧ child.lastFunc = v.w0 ∧ child.lastId = v.w1)

/-- The quaint `A` on the chain `l` can be resumed: it waits and what it waits for has come, `c`
being its direct child, and `noint` is clear in every quaint from the running one, the first of
`pre`, up to `c`. -/
structure CanResume (s : State) (l pre : List Nat) (c A : Nat) : Prop where
  above : ∃ post, l = pre ++ c :: A :: post
  waiting : (s.vms A).waiting = true
  holds : ConditionHolds s.now (s.vms c) (s.vms A)
  free : ∀ x ∈ pre ++ [c], (s.vms x).noint = false

/-- Of the quaints on the chain that can be resumed, `A` is the nearest to the running one. -/
def Nearest (s : State) (l : List Nat) (A : Nat) : Prop :=
  ∃ pre c, CanResume s l pre c A ∧
    ∀ pre' c' A', CanResume s l pre' c' A' → pre.length ≤ pre'.length

/-- A quaint that goes on after its `wait`. -/
def resumed (v : Qvm) : Qvm :=
  { v with
    ip := v.ip + 1
    waiting := false, waitingFor := false, waitingUntil := false, waitingNoblock := false }

section Resumed

variable {s s1 : State} {inp : Inp} {r : Nat} {l pre : List Nat} {c A : Nat}

lemma splits_iff {now : Nat} {child v : Qvm} :
    splits now child v = true ↔ v.waiting = true ∧ ConditionHolds now child v := by
  cases hf : v.waitingFor <;> simp [splits, ConditionHolds, hf, and_assoc]

lemma canResume_iff : CanResume s l pre c A ↔
    CanTake (fun x => (s.vms x).noint) (fun c a => splits s.now (s.vms c) (s.vms a)) l pre c A := by
  constructor
  · rintro ⟨habove, hwait, hholds, hfree⟩
    exact ⟨habove, splits_iff.mpr ⟨hwait, hholds⟩, hfree⟩
  · rintro ⟨habove, hsplits, hfree⟩
    obtain ⟨hwait, hholds⟩ := splits_iff.mp hsplits
    exact ⟨habove, hwait, hholds, hfree⟩

/-- Two quaints cannot both be the nearest. -/
lemma Nearest.unique {A' : Nat} (h : Nearest s l A) (h' : Nearest s l A') : A = A' := by
  obtain ⟨pre, c, hcan, hmin⟩ := h
  obtain ⟨pre', c', hcan', hmin'⟩ := h'
  have hlen := Nat.le_antisymm (hmin _ _ _ hcan') (hmin' _ _ _ hcan)
  obtain ⟨post, hl⟩ := hcan.above
  obtain ⟨post', hl'⟩ := hcan'.above
  have htail := (List.append_inj (hl.symm.trans hl') hlen).2
  exact (List.cons.inj (List.cons.inj htail).2).1

/-- What the search finds is the nearest. -/
lemma nearest_of_found (h : firstOpen (fun x => (s.vms x).noint)
    (fun c a => splits s.now (s.vms c) (s.vms a)) l = some A) : Nearest s l A := by
  obtain ⟨pre, c, htake, hmin⟩ := firstOpen_eq_some h
  exact ⟨pre, c, canResume_iff.mpr htake, fun pre' c' A' hcan => hmin pre' c' A' (canResume_iff.mp hcan)⟩

/-- The scheduler does what the search says. -/
lemma split_found (hl : Chain (ctl s).parent r s.cur l) (hlive : ∀ x ∈ l, x ∈ s.live)
    (hclock : readClock inp s = some s1) : checkAndEventuallySplitVms inp s =
      .ok (((firstOpen (fun x => (s1.vms x).noint) (fun c a => splits s1.now (s1.vms c) (s1.vms a)) l).map
        (splitTo s1)).getD s1) := by
  obtain ⟨now, rfl⟩ := readClock_eq_some hclock
  have hloop := splitLoop_eq (s := { s with cycles := s.cycles + 1, now := now }) hl hlive
    (length_le_splitFuel hl hlive)
  have hcur : s.cur ∈ s.live := hlive _ hl.head_mem
  unfold checkAndEventuallySplitVms
  simp only [hclock, State.vm, hcur, decide_true, ubUnless, if_true, splitFuel] at hloop ⊢
  rw [hloop]
  cases firstOpen _ _ l <;> rfl

/-- The nearest quaint that can be resumed is gone on with. -/
lemma nearest_resumed (hl : Chain (ctl s).parent r s.cur l) (hlive : ∀ x ∈ l, x ∈ s.live)
    (hclock : readClock inp s = some s1) (hA : Nearest s1 l A) :
    ∃ s', checkAndEventuallySplitVms inp s = .ok s' ∧ s'.live = s.live ∧ s'.cur = A ∧
      s'.vms A = resumed (s.vms A) ∧ ∀ x, x ≠ A → s'.vms x = s.vms x := by
  have hsplit := split_found hl hlive hclock
  cases hfound : firstOpen (fun x => (s1.vms x).noint) (fun c a => splits s1.now (s1.vms c) (s1.vms a)) l with
  | none =>
    obtain ⟨pre, c, hcan, -⟩ := hA
    exact (firstOpen_eq_none.mp hfound pre c A (canResume_iff.mp hcan)).elim
  | some A' =>
    obtain rfl := hA.unique (nearest_of_found hfound)
    rw [hfound] at hsplit
    obtain ⟨now, rfl⟩ := readClock_eq_some hclock
    exact ⟨_, hsplit, rfl, rfl, if_pos rfl, fun x hx => if_neg hx⟩

/-- **The scheduler resumes the nearest quaint that can be resumed**: on a chain of quaints up to
one without a parent, it goes on with the nearest one that waits for what has come, `noint` being
clear in all below it, moves it past its `wait`, clears its four flags and leaves every other
quaint as it was; where there is none, it changes no quaint. -/
theorem scheduler_resumes_nearest (hl : Chain (ctl s).parent r s.cur l)
    (hlive : ∀ x ∈ l, x ∈ s.live) (hclock : readClock inp s = some s1) :
    ∃ s', checkAndEventuallySplitVms inp s = .ok s' ∧ s'.live = s.live ∧
      ((∃ A, Nearest s1 l A ∧ s'.cur = A ∧ s'.vms A = resumed (s.vms A) ∧
          ∀ x, x ≠ A → s'.vms x = s.vms x) ∨
        ((∀ pre c A, ¬ CanResume s1 l pre c A) ∧ s'.cur = s.cur ∧ s'.vms = s.vms)) := by
  cases hfound : firstOpen (fun x => (s1.vms x).noint) (fun c a => splits s1.now (s1.vms c) (s1.vms a)) l with
  | none =>
    have hsplit := split_found hl hlive hclock
    rw [hfound] at hsplit
    have hnone := firstOpen_eq_none.mp hfound
    obtain ⟨now, rfl⟩ := readClock_eq_some hclock
    exact ⟨_, hsplit, rfl, .inr ⟨fun pre c A hcan => hnone pre c A (canResume_iff.mp hcan), rfl, rfl⟩⟩
  | some A =>
    have hA := nearest_of_found hfound
    obtain ⟨s', hs', hlive', hres⟩ := nearest_resumed hl hlive hclock hA
    exact ⟨s', hs', hlive', .inl ⟨A, hA, hres⟩⟩

/-- The quaint `1` runs, `2` waits until it passes another label than it has, and `3` waits for a
time that has elapsed. -/
def nestedWaits : State where
  live := [1, 2, 3]
  vms
    | 1 => { Qvm.zero with parent := 2, lastFunc := 7, lastId := 1 }
    | 2 => { Qvm.zero with parent := 3, waiting := true, waitingUntil := true, w0 := 7, w1 := 2 }
    | 3 => { Qvm.zero with waiting := true, waitingFor := true, w0 := 100, w1 := 50 }
    | _ => Qvm.zero
  cur := 1
  now := 150
  cycles := 1
  bssBase := 0
  bssSize := 0
  bss := fun _ => 0
  heap := []
  out := []

theorem scheduler_resumes_outer : ∃ s',
    checkAndEventuallySplitVms ⟨none, none, none, none, fun _ => 0, 0⟩ nestedWaits = .ok s' ∧
    s'.live = nestedWaits.live ∧
      ((∃ A, Nearest { nestedWaits with cycles := 2 } [1, 2, 3] A ∧ s'.cur = A ∧
          s'.vms A = resumed (nestedWaits.vms A) ∧ ∀ x, x ≠ A → s'.vms x = nestedWaits.vms x) ∨
        ((∀ pre c A, ¬ CanResume { nestedWaits with cycles := 2 } [1, 2, 3] pre c A) ∧
          s'.cur = nestedWaits.cur ∧ s'.vms = nestedWaits.vms)) :=
  scheduler_resumes_nearest (.link rfl (.link rfl (.root rfl))) (fun _ hx => hx) rfl

example : (checkAndEventuallySplitVms ⟨none, none, none, none, fun _ => 0, 0⟩ nestedWaits).toOption.map
    (fun s => (s.cur, (s.vms 3).ip, (s.vms 2).waiting)) = some (3, 1, true) := by decide

end Resumed

end Quaint.Splitting
