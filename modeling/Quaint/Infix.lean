import Mathlib

/-!
Operator precedence.

A sequence of operands with an operator between each two of them has exactly one tree in which
every operator binds its operands as its level and the side it associates to ask for. It is built
from left to right with a stack, by reducing until the operator on the stack gives way to the one
ahead.
-/

namespace Quaint.Infix

/-- The levels of some operators, the tightest first, and those that associate to the right. -/
structure Levels (β : Type) where
  prec : β → Nat
  right : β → Bool

/-- Operands, and operators between two trees. -/
inductive OpTree (α β : Type)
  | atom (a : α)
  | bin (l : OpTree α β) (op : β) (r : OpTree α β)

variable {α β : Type}

namespace OpTree

def root : OpTree α β → Option β
  | .atom _ => none
  | .bin _ op _ => some op

/-- The first operand. -/
def first : OpTree α β → α
  | .atom a => a
  | .bin l _ _ => l.first

/-- What follows the first operand: each operator with the operand after it. -/
def rest : OpTree α β → List (β × α)
  | .atom _ => []
  | .bin l op r => l.rest ++ (op, r.first) :: r.rest

end OpTree

open OpTree

namespace Levels

variable (L : Levels β)

/-- The operator `y` may stand at the root of the left operand of `x`. -/
def LeftOk (x y : β) : Prop := L.prec y < L.prec x ∨ L.prec y = L.prec x ∧ L.right y = false

/-- The operator `y` may stand at the root of the right operand of `x`. -/
def RightOk (x y : β) : Prop := L.prec y < L.prec x ∨ L.prec y = L.prec x ∧ L.right x = true

instance (x y : β) : Decidable (L.LeftOk x y) := inferInstanceAs (Decidable (_ ∨ _))

instance (x y : β) : Decidable (L.RightOk x y) := inferInstanceAs (Decidable (_ ∨ _))

/-- Every operator may stand where it does. -/
def Ordered : OpTree α β → Prop
  | .atom _ => True
  | .bin l op r => Ordered l ∧ Ordered r ∧ (∀ y ∈ l.root, L.LeftOk op y) ∧
    ∀ y ∈ r.root, L.RightOk op y

instance decidableOrdered : (t : OpTree α β) → Decidable (L.Ordered t)
  | .atom _ => isTrue trivial
  | .bin l _ r =>
    have := decidableOrdered l
    have := decidableOrdered r
    inferInstanceAs (Decidable (_ ∧ _ ∧ _ ∧ _))

end Levels

variable {L : Levels β} {x y z : β} {t t' : OpTree α β}

/-! ### One tree -/

lemma not_rightOk : ¬ L.RightOk x y ↔ L.LeftOk y x := by
  unfold Levels.RightOk Levels.LeftOk
  cases L.right x <;> simp <;> omega

lemma LeftOk.of_left (h : L.LeftOk x z) (hy : L.LeftOk z y) : L.LeftOk x y := by
  rcases h with h | ⟨h, -⟩ <;> rcases hy with hy | ⟨hy, hr⟩
  · exact .inl (by omega)
  · exact .inl (by omega)
  · exact .inl (by omega)
  · exact .inr ⟨by omega, hr⟩

lemma LeftOk.of_right (h : L.LeftOk x z) (hy : L.RightOk z y) : L.LeftOk x y := by
  rcases h with h | ⟨h, hz⟩ <;> rcases hy with hy | ⟨hy, hr⟩
  · exact .inl (by omega)
  · exact .inl (by omega)
  · exact .inl (by omega)
  · rw [hz] at hr
    cases hr

lemma RightOk.of_le (h : L.RightOk x z) (hy : L.prec y ≤ L.prec z) : L.RightOk x y := by
  rcases h with h | ⟨h, hx⟩
  · exact .inl (by omega)
  · rcases Nat.lt_or_eq_of_le hy with hlt | heq
    · exact .inl (by omega)
    · exact .inr ⟨heq.trans h, hx⟩

lemma LeftOk.le (h : L.LeftOk x y) : L.prec y ≤ L.prec x := h.elim Nat.le_of_lt fun h => Nat.le_of_eq h.1

lemma RightOk.le (h : L.RightOk x y) : L.prec y ≤ L.prec x := h.elim Nat.le_of_lt fun h => Nat.le_of_eq h.1

/-- What holds of an operator and the root of its operand holds of all operators there. -/
lemma ordered_all (h : L.Ordered t) :
    (∀ x, (∀ y ∈ t.root, L.LeftOk x y) → ∀ p ∈ t.rest, L.LeftOk x p.1) ∧
      ∀ x, (∀ y ∈ t.root, L.RightOk x y) → ∀ p ∈ t.rest, L.RightOk x p.1 := by
  induction t with
  | atom a =>
    exact ⟨fun x _ p hp => (List.not_mem_nil hp).elim, fun x _ p hp => (List.not_mem_nil hp).elim⟩
  | bin l op r ihl ihr =>
    obtain ⟨hl, hr, hlo, hro⟩ := h
    have hleft := (ihl hl).1 op hlo
    have hright := (ihr hr).2 op hro
    refine ⟨fun x hx p hp => ?_, fun x hx p hp => ?_⟩
    · have hop := hx op rfl
      rcases List.mem_append.mp hp with hp | hp
      · exact LeftOk.of_left hop (hleft p hp)
      · rcases List.mem_cons.mp hp with rfl | hp
        · exact hop
        · exact LeftOk.of_right hop (hright p hp)
    · have hop := hx op rfl
      rcases List.mem_append.mp hp with hp | hp
      · exact RightOk.of_le hop (LeftOk.le (hleft p hp))
      · rcases List.mem_cons.mp hp with rfl | hp
        · exact hop
        · exact RightOk.of_le hop (RightOk.le (hright p hp))

/-- Two splits of a list at an element: at the same place, or one is inside a part of the other. -/
lemma split_cases {γ : Type} {a b c d : List γ} {u v : γ} (h : a ++ u :: b = c ++ v :: d) :
    (a = c ∧ u = v ∧ b = d) ∨ (u ∈ c ∧ v ∈ b) ∨ (v ∈ a ∧ u ∈ d) := by
  rcases List.append_eq_append_iff.mp h with ⟨m, rfl, hm⟩ | ⟨m, rfl, hm⟩
  · cases m with
    | nil =>
      obtain ⟨rfl, rfl⟩ := List.cons.inj hm
      exact .inl ⟨(List.append_nil _).symm, rfl, rfl⟩
    | cons w m =>
      obtain ⟨rfl, rfl⟩ := List.cons.inj hm
      exact .inr (.inl ⟨by simp, by simp⟩)
  · cases m with
    | nil =>
      obtain ⟨rfl, rfl⟩ := List.cons.inj hm
      exact .inl ⟨List.append_nil _, rfl, rfl⟩
    | cons w m =>
      obtain ⟨rfl, rfl⟩ := List.cons.inj hm
      exact .inr (.inr ⟨by simp, by simp⟩)

/-- Two operators cannot each be the root with the other below it. -/
lemma not_both (h1 : L.LeftOk y x) (h2 : L.RightOk x y) : False := not_rightOk.mpr h1 h2

/-- **An ordered tree is determined by its operands and operators.** -/
theorem ordered_unique (h : L.Ordered t) (h' : L.Ordered t') (hfirst : t.first = t'.first)
    (hrest : t.rest = t'.rest) : t = t' := by
  induction t generalizing t' with
  | atom a =>
    cases t' with
    | atom a' => rw [show a = a' from hfirst]
    | bin l' op' r' => simp [rest] at hrest
  | bin l op r ihl ihr =>
    cases t' with
    | atom a' => simp [rest] at hrest
    | bin l' op' r' =>
      obtain ⟨hl, hr, hlo, hro⟩ := h
      obtain ⟨hl', hr', hlo', hro'⟩ := h'
      rcases split_cases hrest with ⟨hls, hop, hrs⟩ | ⟨hu, hv⟩ | ⟨hv, hu⟩
      · obtain ⟨rfl, hrf⟩ := Prod.mk.inj hop
        rw [ihl hl hl' hfirst hls, ihr hr hr' hrf hrs]
      · exact (not_both ((ordered_all hl').1 op' hlo' _ hu) ((ordered_all hr).2 op hro _ hv)).elim
      · exact (not_both ((ordered_all hl).1 op hlo _ hv) ((ordered_all hr').2 op' hro' _ hu)).elim

/-! ### Building it -/

/-- The trees on the stack, each with the operator after it, the last one first. -/
abbrev Pending (α β : Type) := List (OpTree α β × β)

/-- The operator on the stack gives way to the one ahead. -/
def yields (L : Levels β) (op : β) (ahead : Option β) : Prop := ∃ y ∈ ahead, L.RightOk op y

instance (op : β) (ahead : Option β) : Decidable (yields L op ahead) :=
  match ahead with
  | none => isFalse fun h => by
    obtain ⟨_, hy, _⟩ := h
    cases hy
  | some y => decidable_of_iff (L.RightOk op y) (by simp [yields])

/-- Reduce until the operator on the stack gives way to the one ahead. -/
def reduceFor (L : Levels β) (ahead : Option β) :
    Pending α β → OpTree α β → Pending α β × OpTree α β
  | [], t => ([], t)
  | (l, op) :: ps, t =>
    if yields L op ahead then ((l, op) :: ps, t) else reduceFor L ahead ps (.bin l op t)

/-- The tree of what is on the stack and what is still to come. -/
def build (L : Levels β) : List (β × α) → Pending α β → OpTree α β → OpTree α β
  | [], ps, t => (reduceFor L none ps t).2
  | (op, a) :: rest, ps, t =>
    build L rest (((reduceFor L (some op) ps t).2, op) :: (reduceFor L (some op) ps t).1) (.atom a)

/-- The trees on the stack are ordered, and each operator may stand to the right of the one below
it. -/
inductive Stacked (L : Levels β) : Pending α β → Prop
  | nil : Stacked L []
  | cons {t : OpTree α β} {op : β} {ps : Pending α β} (ht : L.Ordered t)
    (hl : ∀ y ∈ t.root, L.LeftOk op y) (hr : ∀ p ∈ ps.head?, L.RightOk p.2 op)
    (hps : Stacked L ps) : Stacked L ((t, op) :: ps)

/-- The operands and operators on the stack, and then those given. -/
def before : Pending α β → α × List (β × α) → α × List (β × α)
  | [], w => w
  | (t, op) :: ps, w => before ps (t.first, t.rest ++ (op, w.1) :: w.2)

section Build

variable {ps : Pending α β}

/-- A reduction keeps the stack in order, and no operator below gives way at the end of it. -/
lemma reduceFor_spec (ahead : Option β) (hps : Stacked L ps) (ht : L.Ordered t)
    (hroot : ∀ y ∈ t.root, (∀ p ∈ ps.head?, L.RightOk p.2 y) ∧ ∀ x ∈ ahead, L.LeftOk x y) :
    Stacked L (reduceFor L ahead ps t).1 ∧ L.Ordered (reduceFor L ahead ps t).2 ∧
      (∀ y ∈ (reduceFor L ahead ps t).2.root, ∀ x ∈ ahead, L.LeftOk x y) ∧
      (∀ p ∈ (reduceFor L ahead ps t).1.head?, yields L p.2 ahead) := by
  induction hps generalizing t with
  | nil => exact ⟨.nil, ht, fun y hy => (hroot y hy).2, nofun⟩
  | @cons l op ps hl hlo hro hps ih =>
    rw [reduceFor]
    split
    · rename_i hy
      refine ⟨.cons hl hlo hro hps, ht, fun y hy => (hroot y hy).2, fun p hp => ?_⟩
      obtain rfl := Option.some.inj hp
      exact hy
    · rename_i hy
      refine ih ⟨hl, ht, hlo, fun y hroot' => (hroot y hroot').1 _ rfl⟩ fun y hy' => ?_
      obtain rfl := Option.some.inj hy'
      refine ⟨hro, fun x hx => not_rightOk.mp fun hr => hy ⟨x, hx, hr⟩⟩

lemma reduceFor_before (ahead : Option β) (w : List (β × α)) (ps : Pending α β) :
    before (reduceFor L ahead ps t).1
        ((reduceFor L ahead ps t).2.first, (reduceFor L ahead ps t).2.rest ++ w) =
      before ps (t.first, t.rest ++ w) := by
  induction ps generalizing t with
  | nil => rfl
  | cons p ps ih =>
    obtain ⟨l, op⟩ := p
    rw [reduceFor]
    split
    · rfl
    · rw [ih]
      simp [before, first, rest]

lemma reduceFor_none : (reduceFor L none ps t).1 = [] := by
  induction ps generalizing t with
  | nil => rfl
  | cons p ps ih =>
    rw [reduceFor, if_neg]
    · exact ih
    · rintro ⟨y, hy, -⟩
      cases hy

lemma build_spec {w : List (β × α)} (hps : Stacked L ps) (ht : L.Ordered t)
    (hroot : t.root = none) :
    L.Ordered (build L w ps t) ∧
      ((build L w ps t).first, (build L w ps t).rest) = before ps (t.first, t.rest ++ w) := by
  induction w generalizing ps t with
  | nil =>
    obtain ⟨-, hord, -⟩ := reduceFor_spec none hps ht (by simp [hroot])
    refine ⟨hord, ?_⟩
    have hb := reduceFor_before (L := L) (t := t) none [] ps
    rw [reduceFor_none] at hb
    simpa [before, build] using hb
  | cons p w ih =>
    obtain ⟨op, a⟩ := p
    obtain ⟨hst, hord, hle, hyield⟩ := reduceFor_spec (some op) hps ht (by simp [hroot])
    have hbelow : ∀ p ∈ (reduceFor L (some op) ps t).1.head?, L.RightOk p.2 op := by
      intro p hp
      obtain ⟨y, hy, hr⟩ := hyield p hp
      obtain rfl := Option.some.inj hy
      exact hr
    obtain ⟨h1, h2⟩ := ih (t := .atom a) (.cons hord (fun y hy => hle y hy op rfl) hbelow hst)
      trivial rfl
    refine ⟨h1, h2.trans ?_⟩
    exact reduceFor_before (some op) ((op, a) :: w) ps

/-- **The tree that is built** is ordered and has the operands and operators it was built from. -/
theorem build_ordered (L : Levels β) (a : α) (w : List (β × α)) :
    L.Ordered (build L w [] (.atom a)) ∧ (build L w [] (.atom a)).first = a ∧
      (build L w [] (.atom a)).rest = w := by
  obtain ⟨h1, h2⟩ := build_spec (L := L) (w := w) (t := .atom a) .nil trivial rfl
  exact ⟨h1, Prod.mk.inj h2⟩

end Build

end Quaint.Infix
