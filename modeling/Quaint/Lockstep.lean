import Mathlib

/-!
Automata in lockstep.

Several automata read one word, a symbol at a time, until none of them is live. Each has a slot
that holds its status before and after the symbol read last, and its state. An automaton that
has rejected is not asked again, and has to be back in its first state by then.
-/

namespace Quaint.Lockstep

variable {χ α : Type}

/-- What an automaton says of the word read so far. -/
inductive Sts
  | accept
  | reject
  | hungry
  deriving DecidableEq

/-- An automaton, from a symbol and a state to a status and the next state; nothing if the
state is none of its states. -/
abbrev Auto (χ : Type) := χ → Nat → Option (Sts × Nat)

/-- One symbol more, unless the automaton has rejected. -/
def move (f : Auto χ) (p : Sts × Nat) (c : χ) : Option (Sts × Nat) :=
  if p.1 = .reject then some p else f c p.2

/-- The status and the state after a word. -/
def after (f : Auto χ) (w : List χ) : Option (Sts × Nat) := w.foldlM (move f) (.hungry, 0)

/-- The status after a word. -/
def status (f : Auto χ) (w : List χ) : Sts := ((after f w).map Prod.fst).getD .reject

def Live (f : Auto χ) (w : List χ) : Prop := status f w ≠ .reject

def Accepts (f : Auto χ) (w : List χ) : Prop := status f w = .accept

instance (f : Auto χ) (w : List χ) : Decidable (Live f w) := by unfold Live; infer_instance
instance (f : Auto χ) (w : List χ) : Decidable (Accepts f w) := by unfold Accepts; infer_instance

/-- The automaton stays in its states, and rejects into its first one. -/
def Orderly (f : Auto χ) : Prop := ∀ w, ∃ p, after f w = some p ∧ (p.1 = .reject → p.2 = 0)

section Word

variable {f : Auto χ} {w v : List χ} {c : χ}

@[simp] lemma after_nil : after f [] = some (.hungry, 0) := rfl

lemma after_append : after f (w ++ v) = (after f w).bind fun p => v.foldlM (move f) p := by
  simp only [after, List.foldlM_append]
  rfl

lemma after_snoc : after f (w ++ [c]) = (after f w).bind fun p => move f p c := by
  rw [after_append]
  congr 1
  funext p
  simp

@[simp] lemma status_nil : status f [] = .hungry := rfl

lemma status_of_after {p : Sts × Nat} (h : after f w = some p) : status f w = p.1 := by
  simp [status, h]

lemma Accepts.live (h : Accepts f w) : Live f w := by
  rw [Live, h]
  decide

lemma live_nil : Live f [] := by
  rw [Live, status_nil]
  decide

/-- A word with a live continuation is live. -/
lemma live_of_snoc (h : Live f (w ++ [c])) : Live f w := by
  cases hw : after f w with
  | none => simp [Live, status, after_snoc, hw] at h
  | some p =>
    intro hr
    rw [status_of_after hw] at hr
    simp [Live, status, after_snoc, hw, move, hr] at h

lemma live_of_append (h : Live f (w ++ v)) : Live f w := by
  induction v using List.reverseRecOn with
  | nil => simpa using h
  | append_singleton v c ih =>
    rw [← List.append_assoc] at h
    exact ih (live_of_snoc h)

/-- An automaton is orderly if every symbol keeps its states below a bound. -/
lemma orderly_of_bounded {n : Nat} (h : ∀ c s, s ≤ n →
    ∃ p, f c s = some p ∧ p.2 ≤ n ∧ (p.1 = .reject → p.2 = 0)) : Orderly f := by
  intro w
  suffices ∃ p, after f w = some p ∧ p.2 ≤ n ∧ (p.1 = .reject → p.2 = 0) by
    obtain ⟨p, hp, -, hr⟩ := this
    exact ⟨p, hp, hr⟩
  induction w using List.reverseRecOn with
  | nil => exact ⟨_, rfl, Nat.zero_le _, nofun⟩
  | append_singleton w c ih =>
    obtain ⟨p, hp, hn, hr⟩ := ih
    rw [after_snoc, hp, Option.bind_some, move]
    split
    · exact ⟨p, rfl, hn, hr⟩
    · exact h c p.2 hn

end Word

/-! ### Slots -/

/-- The status before and after the symbol read last, and the state. -/
structure Slot where
  prev : Sts
  curr : Sts
  state : Nat

namespace Slot

def init : Slot := ⟨.hungry, .reject, 0⟩

/-- One symbol, for an automaton that has not rejected. -/
def feed (f : Auto χ) (c : χ) (s : Slot) : Option Slot :=
  if s.prev ≠ .reject then (f c s.state).map fun p => { s with curr := p.1, state := p.2 } else some s

/-- The symbol is taken. -/
def keep (s : Slot) : Slot := { s with prev := s.curr }

/-- The next word begins. -/
def reset (s : Slot) : Slot := { s with prev := .hungry, curr := .reject }

end Slot

def feedAll (c : χ) : List (α × Auto χ) → List Slot → Option (List Slot)
  | e :: es, s :: ss =>
    (s.feed e.2 c).bind fun s' => (feedAll c es ss).map fun ss' => s' :: ss'
  | _, _ => some []

/-- The last of those whose slot passes a test, or `z`. -/
def lastWhere (p : Slot → Bool) (z : α) (es : List (α × Auto χ)) (ss : List Slot) : α :=
  (es.zip ss).foldl (fun a e => if p e.2 then e.1.1 else a) z

/-- The slot holds what the automaton says of a word. -/
structure Tracks (w : List χ) (f : Auto χ) (s : Slot) : Prop where
  after : after f w = some (s.prev, s.state)
  curr : s.curr = if w = [] then .reject else s.prev

/-- The slot also holds what the automaton says of the word with one symbol more. -/
structure Ahead (w : List χ) (c : χ) (f : Auto χ) (s : Slot) : Prop where
  prev : status f w = s.prev
  after : Lockstep.after f (w ++ [c]) = some (s.curr, s.state)

section Slots

variable {f : Auto χ} {w : List χ} {c : χ} {s : Slot} {es : List (α × Auto χ)} {ss : List Slot}

lemma tracks_init : Tracks [] f Slot.init := ⟨rfl, rfl⟩

/-- The status of the symbol read last, if there is one. -/
lemma Tracks.accepts (h : Tracks w f s) : (s.curr == .accept) = true ↔ Accepts f w := by
  rw [beq_iff_eq, Accepts, status_of_after h.after, h.curr]
  split
  · rename_i hw
    subst hw
    have hp := congrArg Prod.fst (Option.some.inj h.after)
    rw [← hp]
    decide
  · rfl

lemma feed_ahead (ho : Orderly f) (h : Tracks w f s) : ∃ s', s.feed f c = some s' ∧ Ahead w c f s' := by
  obtain ⟨p, hp, -⟩ := ho (w ++ [c])
  have hsnoc := after_snoc (f := f) (w := w) (c := c)
  rw [hp, h.after, Option.bind_some, move] at hsnoc
  rw [Slot.feed]
  split at hsnoc
  · -- it has rejected, so the word is not empty
    rename_i hr
    refine ⟨s, if_neg (not_not.mpr hr), ⟨status_of_after h.after, ?_⟩⟩
    have hw : w ≠ [] := by
      rintro rfl
      have := h.after
      rw [after_nil, Option.some.injEq, Prod.mk.injEq] at this
      rw [← this.1] at hr
      cases hr
    rw [hp, hsnoc, h.curr, if_neg hw]
  · rename_i hr
    refine ⟨{ s with curr := p.1, state := p.2 }, ?_, ⟨status_of_after h.after, hp⟩⟩
    rw [if_pos hr, ← hsnoc]
    rfl

lemma Ahead.keep (h : Ahead w c f s) : Tracks (w ++ [c]) f s.keep :=
  ⟨h.after, by simp [Slot.keep]⟩

lemma Ahead.status (h : Ahead w c f s) : status f (w ++ [c]) = s.curr := status_of_after h.after

/-- An automaton that has rejected is ready for the next word. -/
lemma Ahead.reset (ho : Orderly f) (h : Ahead w c f s) (hr : s.curr = .reject) : Tracks [] f s.reset := by
  obtain ⟨p, hp, h0⟩ := ho (w ++ [c])
  obtain rfl : p = (s.curr, s.state) := Option.some.inj (hp.symm.trans h.after)
  have hstate : s.state = 0 := h0 hr
  exact ⟨by rw [after_nil, Slot.reset, hstate], rfl⟩

/-- All slots hold what the automata say of a word. -/
def TracksAll (w : List χ) (es : List (α × Auto χ)) (ss : List Slot) : Prop :=
  List.Forall₂ (fun e s => Tracks w e.2 s) es ss

def AheadAll (w : List χ) (c : χ) (es : List (α × Auto χ)) (ss : List Slot) : Prop :=
  List.Forall₂ (fun e s => Ahead w c e.2 s) es ss

lemma TracksAll.accepts (h : TracksAll w es ss) : List.Forall₂
    (fun (e : α × Auto χ) s => (s.curr == .accept) = true ↔ Accepts e.2 w) es ss :=
  h.imp fun _ _ ht => ht.accepts

lemma AheadAll.accepts (h : AheadAll w c es ss) : List.Forall₂
    (fun (e : α × Auto χ) s => (s.prev == .accept) = true ↔ Accepts e.2 w) es ss :=
  h.imp fun _ _ ha => by rw [beq_iff_eq, Accepts, ha.prev]

lemma tracksAll_init : TracksAll [] es (es.map fun _ => Slot.init) :=
  List.forall₂_map_right_iff.mpr (List.forall₂_same.mpr fun _ _ => tracks_init)

lemma feedAll_ahead (ho : ∀ e ∈ es, Orderly e.2) (h : TracksAll w es ss) :
    ∃ ss', feedAll c es ss = some ss' ∧ AheadAll w c es ss' := by
  induction h with
  | nil => exact ⟨[], rfl, .nil⟩
  | @cons e s es ss hs _ ih =>
    obtain ⟨s', hs', ha⟩ := feed_ahead (c := c) (ho e List.mem_cons_self) hs
    obtain ⟨ss', hss', has⟩ := ih fun e he => ho e (List.mem_cons_of_mem _ he)
    exact ⟨s' :: ss', by simp [feedAll, hs', hss'], .cons ha has⟩

lemma AheadAll.keep (h : AheadAll w c es ss) : TracksAll (w ++ [c]) es (ss.map Slot.keep) :=
  List.forall₂_map_right_iff.mpr (h.imp fun _ _ ha => ha.keep)

lemma AheadAll.reset (ho : ∀ e ∈ es, Orderly e.2) (h : AheadAll w c es ss)
    (hr : ∀ s ∈ ss, s.curr = .reject) : TracksAll [] es (ss.map Slot.reset) := by
  refine List.forall₂_map_right_iff.mpr ?_
  induction h with
  | nil => exact .nil
  | cons ha _ ih =>
    exact .cons (ha.reset (ho _ List.mem_cons_self) (hr _ List.mem_cons_self))
      (ih (fun e he => ho e (List.mem_cons_of_mem _ he)) fun s hs => hr s (List.mem_cons_of_mem _ hs))

/-- Some automaton is live on one symbol more just if some slot says so. -/
lemma AheadAll.live_iff (h : AheadAll w c es ss) :
    (∃ s ∈ ss, s.curr ≠ .reject) ↔ ∃ e ∈ es, Live e.2 (w ++ [c]) := by
  induction h with
  | nil => simp
  | cons ha _ ih => simp only [List.exists_mem_cons_iff, ih, Live, ha.status]

/-- The slots read for the class, given what they say of the word `v`. -/
lemma lastWhere_spec {v : List χ} {p : Slot → Bool} {z : α}
    (h : List.Forall₂ (fun (e : α × Auto χ) s => p s = true ↔ Accepts e.2 v) es ss) :
    (lastWhere p z es ss = z ∧ ∀ e ∈ es, ¬ Accepts e.2 v) ∨
      ∃ l e r, es = l ++ e :: r ∧ lastWhere p z es ss = e.1 ∧ Accepts e.2 v ∧
        ∀ e' ∈ r, ¬ Accepts e'.2 v := by
  induction h generalizing z with
  | nil => exact .inl ⟨rfl, nofun⟩
  | @cons e s es ss hs _ ih =>
    have hstep : lastWhere p z (e :: es) (s :: ss) =
        lastWhere p (if p s then e.1 else z) es ss := rfl
    rw [hstep]
    rcases ih (z := if p s then e.1 else z) with ⟨heq, hrest⟩ | ⟨l, e', r, rfl, heq, ha, hr⟩
    · by_cases hp : p s = true
      · exact .inr ⟨[], e, es, rfl, by rw [heq, if_pos hp], hs.mp hp, hrest⟩
      · refine .inl ⟨by rw [heq, if_neg hp], fun e' he' => ?_⟩
        rcases List.mem_cons.mp he' with rfl | he'
        · exact fun ha => hp (hs.mpr ha)
        · exact hrest e' he'
    · exact .inr ⟨e :: l, e', r, rfl, heq, ha, hr⟩

end Slots

/-! ### The longest prefix -/

/-- The first `n` symbols are the longest prefix of the word on which some automaton is live. -/
structure LongestLive (es : List (α × Auto χ)) (w : List χ) (n : Nat) : Prop where
  le : n ≤ w.length
  live : ∃ e ∈ es, Live e.2 (w.take n)
  dead : ∀ m, n < m → m ≤ w.length → ∀ e ∈ es, ¬ Live e.2 (w.take m)

/-- The first `n` symbols are not the empty word, and are the longest prefix that some automaton
accepts; `a` is the class of the last one that does. -/
structure Munch (es : List (α × Auto χ)) (w : List χ) (n : Nat) (a : α) : Prop where
  pos : 0 < n
  le : n ≤ w.length
  accepted : ∃ l f r, es = l ++ (a, f) :: r ∧ Accepts f (w.take n) ∧ ∀ e ∈ r, ¬ Accepts e.2 (w.take n)
  longest : ∀ m, n < m → m ≤ w.length → ∀ e ∈ es, ¬ Accepts e.2 (w.take m)

section Longest

variable {es : List (α × Auto χ)} {w : List χ} {n : Nat} {a : α}

/-- What is dead on one symbol more is dead on every longer prefix. -/
lemma longestLive_of_next (hn : n ≤ w.length) (hl : ∃ e ∈ es, Live e.2 (w.take n))
    (hd : n < w.length → ∀ e ∈ es, ¬ Live e.2 (w.take (n + 1))) : LongestLive es w n := by
  refine ⟨hn, hl, fun m hnm hm e he hlive => hd (by omega) e he ?_⟩
  have htake : w.take m = w.take (n + 1) ++ (w.take m).drop (n + 1) := by
    conv_lhs => rw [← List.take_append_drop (n + 1) (w.take m)]
    rw [List.take_take, Nat.min_eq_left hnm]
  rw [htake] at hlive
  exact live_of_append hlive

/-- The longest live prefix is the longest accepted one, if it is accepted at all. -/
lemma LongestLive.munch (h : LongestLive es w n) {l r : List (α × Auto χ)} {f : Auto χ}
    (hes : es = l ++ (a, f) :: r) (ha : Accepts f (w.take n)) (hr : ∀ e ∈ r, ¬ Accepts e.2 (w.take n)) :
    Munch es w n a := by
  refine ⟨Nat.pos_of_ne_zero ?_, h.le, ⟨l, f, r, hes, ha, hr⟩, fun m hnm hm e he hacc =>
    h.dead m hnm hm e he hacc.live⟩
  rintro rfl
  rw [List.take_zero, Accepts, status_nil] at ha
  cases ha

end Longest

end Quaint.Lockstep
