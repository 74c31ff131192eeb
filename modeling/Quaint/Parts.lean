import Quaint.Mutability
import Quaint.Bounds

/-!
The code of a part of a function.

The code of each `&&` and `||` that stands in a function is a piece of the code of the function. The
temporaries of an expression are stacked: when its code ends, its result lies below the next
temporary.
-/

namespace Quaint.Parts

open Types Ast TypeCheck Code Codegen Program Typing Layout Emit Generated Listing Operand Legality
  Bounds Mutability

/-! ### The code of the expressions -/

/-- The code of the expression is a piece, up to the place `m`, of the code emitted from a point. -/
def HasCode (cx : Cx) (e : TExpr) (m : Nat) (p : Pt) (code : List Insn) : Prop :=
  ∃ n q ce r q' c1 c2, Emit cx (.expr e n) q ce r q' ∧ code = c1 ++ ce ++ c2 ∧
    q.ip = p.ip + c1.length ∧ q'.ip = m ∧ ce ≠ []

/-- Each of the expressions has a piece of the code, and no two end at one place. -/
structure Placing (cx : Cx) (es : List TExpr) (p : Pt) (code : List Insn) (qs : List (TExpr × Nat)) :
    Prop where
  exprs : (qs.map Prod.fst).Perm es
  apart : (qs.map Prod.snd).Nodup
  coded : ∀ q ∈ qs, HasCode cx q.1 q.2 p code

def Coded (cx : Cx) (es : List TExpr) (p : Pt) (code : List Insn) : Prop :=
  ∃ qs, Placing cx es p code qs

section Pieces

variable {cx : Cx} {e : TExpr} {x : Item} {es es1 es2 : List TExpr} {p p' : Pt}
  {code c1 c2 : List Insn} {n : Bool} {m : Nat} {r : Option Opd}

lemma HasCode.left (h : HasCode cx e m p c1) : HasCode cx e m p (c1 ++ c2) := by
  obtain ⟨n, q, ce, r, q', d1, d2, he, rfl, hip⟩ := h
  exact ⟨n, q, ce, r, q', d1, d2 ++ c2, he, by simp, hip⟩

lemma HasCode.right (h : HasCode cx e m p' c2) (hip : p'.ip = p.ip + c1.length) :
    HasCode cx e m p (c1 ++ c2) := by
  obtain ⟨n, q, ce, r, q', d1, d2, he, rfl, hq, hm⟩ := h
  refine ⟨n, q, ce, r, q', c1 ++ d1, d2, he, by simp, ?_, hm⟩
  rw [hq, hip, List.length_append]
  omega

/-- The piece ends in the code. -/
lemma HasCode.range (h : HasCode cx e m p code) : p.ip < m ∧ m ≤ p.ip + code.length := by
  obtain ⟨n, q, ce, r, q', d1, d2, he, rfl, hq, rfl, hne⟩ := h
  have hpos := List.length_pos_iff.mpr hne
  rw [emit_ip he, hq]
  simp only [List.length_append]
  omega

lemma Coded.nil : Coded cx [] p code := ⟨[], .nil, List.nodup_nil, by simp⟩

lemma Coded.left (h : Coded cx es p c1) : Coded cx es p (c1 ++ c2) := by
  obtain ⟨qs, hexprs, hapart, hcoded⟩ := h
  exact ⟨qs, hexprs, hapart, fun q hq => (hcoded q hq).left⟩

lemma Coded.right (h : Coded cx es p' c2) (hip : p'.ip = p.ip + c1.length) :
    Coded cx es p (c1 ++ c2) := by
  obtain ⟨qs, hexprs, hapart, hcoded⟩ := h
  exact ⟨qs, hexprs, hapart, fun q hq => (hcoded q hq).right hip⟩

/-- The code of one part behind that of another. -/
lemma Coded.both (h1 : Coded cx es1 p c1) (h2 : Coded cx es2 p' c2)
    (hip : p'.ip = p.ip + c1.length) : Coded cx (es1 ++ es2) p (c1 ++ c2) := by
  obtain ⟨qs1, hexprs1, hapart1, hcoded1⟩ := h1
  obtain ⟨qs2, hexprs2, hapart2, hcoded2⟩ := h2
  refine ⟨qs1 ++ qs2, ?_, ?_, ?_⟩
  · rw [List.map_append]
    exact hexprs1.append hexprs2
  · -- the pieces of the one part end before those of the other begin
    rw [List.map_append]
    refine hapart1.append hapart2 fun m h1 h2 => ?_
    obtain ⟨q1, hq1, rfl⟩ := List.mem_map.mp h1
    obtain ⟨q2, hq2, heq⟩ := List.mem_map.mp h2
    have hr1 := (hcoded1 q1 hq1).range
    have hr2 := (hcoded2 q2 hq2).range
    omega
  · intro q hq
    rcases List.mem_append.mp hq with hq | hq
    · exact (hcoded1 q hq).left
    · exact (hcoded2 q hq).right hip

lemma Coded.swap (h : Coded cx (es1 ++ es2) p code) : Coded cx (es2 ++ es1) p code := by
  obtain ⟨qs, hexprs, hapart, hcoded⟩ := h
  exact ⟨qs, hexprs.trans List.perm_append_comm, hapart, hcoded⟩

lemma plusOp_conj {op : BOp} {k : ArithOp × Bool} (h : plusOp op = some k) : conjOp op = none := by
  cases op <;> first | rfl | cases h

lemma asmuOp_conj {op : BOp} {k : ArithOp} (h : asmuOp op = some k) : conjOp op = none := by
  cases op <;> first | rfl | cases h

lemma bexpInsn_conj {op : BOp} {mk : Opd → Opd → Opd → Insn} (h : bexpInsn op = some mk) :
    conjOp op = none := by
  cases op <;> first | rfl | cases h

end Pieces

/-! ### The temporaries of an expression -/

/-- The operand ends below a place among the temporaries, if it is one. -/
def EndsBelow (n : Nat) (a : Opd) : Prop := a.opd = .temp → a.off + taken a ≤ n

/-- The item has a value, or values. -/
def hasValue : Item → Bool
  | .expr _ _ | .args _ => true
  | _ => false

section Temps

variable {cx : Cx} {x : Item} {p p' q : Pt} {code : List Insn} {r : Option Opd} {a b : Opd} {n m k : Nat}

section Up

variable (hfit : q.peak < 2 ^ 64)

include hfit

lemma alloc_up (hq : Below (p.alloc n) q) : p.tempOff ≤ (p.alloc n).tempOff := by
  have hr := (alloc_below.mp hq).2.trans_lt hfit
  rw [alloc_tempOff hr]
  exact (le_slot hr).trans (Nat.le_add_right _ _)

lemma scaled_up (h : Scaled p m a code b p') (hq : Below p' q) : p.tempOff ≤ p'.tempOff := by
  cases h with
  | one => exact Nat.le_refl _
  | many => exact alloc_up hfit (skip_below.mp hq)

lemma indexed_up (h : Indexed p m n a code b p') (hq : Below p' q) : p.tempOff ≤ p'.tempOff := by
  cases h with
  | byte => exact alloc_up hfit hq
  | widen | scale | both => exact alloc_up hfit (skip_below.mp hq)

lemma fetched_up (h : Fetched p a code b p') (hq : Below p' q) : p.tempOff ≤ p'.tempOff := by
  cases h with
  | direct => exact Nat.le_refl _
  | indirect => exact alloc_up hfit (skip_below.mp hq)

lemma base_up (h : Base p a code b p') (hq : Below p' q) : p.tempOff ≤ p'.tempOff := by
  cases h with
  | indirect => exact Nat.le_refl _
  | direct => exact alloc_up hfit (skip_below.mp hq)

/-- The code of a value gives back no temporary that was there before. -/
theorem temps_up (h : Emit cx x p code r p') :
    hasValue x = true → Below p' q → p.tempOff ≤ p'.tempOff := by
  induction h with
  | assn _ hr ihl ihr | asmu _ _ hr ihl ihr =>
    intro _ hq
    have hq2 := skip_below.mp hq
    exact (ihl rfl (emit_below hr hq2)).trans (ihr rfl hq2)
  | plus _ _ hr hs _ ihl ihr | aspl _ _ hr hs _ ihl ihr =>
    intro _ hq
    have hq4 := skip_below.mp hq
    have hq3 := (alloc_below.mp hq4).1
    have hq2 := scaled_below hs hq3
    exact (((ihl rfl (emit_below hr hq2)).trans (ihr rfl hq2)).trans (scaled_up hfit hs hq3)).trans
      (alloc_up hfit hq4)
  | conj _ _ _ hr ihl ihr =>
    intro _ hq
    have hq2 := skip_below.mp hq
    have hq1 := skip_below.mp (emit_below hr hq2)
    exact ((ihl rfl (alloc_below.mp hq1).1).trans (alloc_up hfit hq1)).trans (ihr rfl hq2)
  | coma _ _ _ ihr => exact fun _ hq => ihr rfl hq
  | equl _ _ hr _ ihl ihr =>
    intro _ hq
    have hq3 := skip_below.mp hq
    have hq2 := (alloc_below.mp hq3).1
    exact ((ihl rfl (emit_below hr hq2)).trans (ihr rfl hq2)).trans (alloc_up hfit hq3)
  | scop | name | nmbr | szof | argsNil => exact fun _ _ => Nat.le_refl _
  | @strl _ _ _ p => exact fun _ hq => alloc_up (p := p.string _) hfit (skip_below.mp hq)
  | memb _ _ _ ih | uplus _ ih | multLvalue _ _ ih => exact fun _ hq => ih rfl hq
  | multVoid _ _ _ ih | incr _ _ _ ih | incrBy _ _ _ ih => exact fun _ hq => ih rfl (skip_below.mp hq)
  | atsi _ _ _ ih | cast _ _ ih | unary _ _ _ ih | multRvalue _ _ _ ih | multValue _ _ _ ih
  | amps _ _ ih | xexp _ _ _ ih | xexpBy _ _ _ ih =>
    intro _ hq
    have hq1 := skip_below.mp hq
    exact (ih rfl (alloc_below.mp hq1).1).trans (alloc_up hfit hq1)
  | membIndirect _ _ _ ih =>
    intro _ hq
    have hq2 := skip_below.mp hq
    have hq1 := (alloc_below.mp hq2).1
    exact ((ih rfl (alloc_below.mp hq1).1).trans (alloc_up hfit hq1)).trans (alloc_up hfit hq2)
  | arow _ _ hf _ ih =>
    intro _ hq
    have hq2 := skip_below.mp hq
    have hq1 := (alloc_below.mp hq2).1
    exact ((ih rfl (fetched_below hf hq1)).trans (fetched_up hfit hf hq1)).trans (alloc_up hfit hq2)
  | tild _ _ h ih =>
    intro _ hq
    have hq1 := skip_below.mp hq
    exact (alloc_up hfit (emit_below h hq1)).trans (ih rfl hq1)
  | tildCall _ ha hl iha ihl =>
    intro _ hq
    have hq2 := note_below.mp (skip_below.mp hq)
    have hq1 := emit_below hl hq2
    have hq0 := skip_below.mp (emit_below ha hq1)
    exact (((alloc_up hfit (alloc_below.mp hq0).1).trans (alloc_up hfit hq0)).trans (iha rfl hq1)).trans
      (ihl rfl hq2)
  | @callv l _ _ _ _ _ p2 _ _ _ _ ha hl iha ihl =>
    intro _ hq
    have hq3 := skip_below.mp hq
    have hq2 := note_below.mp (alloc_below.mp hq3).1
    have hq1 := emit_below hl hq2
    have hlast := alloc_up (p := p2.note (.call p2.ip (typeOfExpr l))) hfit hq3
    exact (((alloc_up hfit (skip_below.mp (emit_below ha hq1))).trans (iha rfl hq1)).trans
      (ihl rfl hq2)).trans hlast
  | call _ ha hl iha ihl =>
    intro _ hq
    have hq2 := note_below.mp (skip_below.mp hq)
    have hq1 := emit_below hl hq2
    exact ((alloc_up hfit (skip_below.mp (emit_below ha hq1))).trans (iha rfl hq1)).trans (ihl rfl hq2)
  | aexp _ ho hi ha ihb iho =>
    intro _ hq
    have hq4 := skip_below.mp hq
    have hq3 := (alloc_below.mp hq4).1
    have hq2 := base_below ha hq3
    have hq1 := indexed_below hi hq2
    exact ((((ihb rfl (emit_below ho hq1)).trans (iho rfl hq1)).trans (indexed_up hfit hi hq2)).trans
      (base_up hfit ha hq3)).trans (alloc_up hfit hq4)
  | texp _ _ htv hfv ihc _ ihf =>
    intro _ hq
    have hq3 := skip_below.mp hq
    have hq2 := skip_below.mp (reset_below.mp (emit_below hfv hq3))
    have hq1 := skip_below.mp (emit_below htv hq2)
    exact ((ihc rfl (alloc_below.mp hq1).1).trans (alloc_up hfit hq1)).trans (ihf rfl hq3)
  | argsCons _ hr ih ihr =>
    intro _ hq
    exact (ih rfl (skip_below.mp (emit_below hr hq))).trans (ihr rfl hq)
  | _ =>
    intro hv
    cases hv

end Up

lemma expr_up {e : TExpr} {need : Bool} (h : Emit cx (.expr e need) p code r p')
    (hfit : p'.peak < 2 ^ 64) : p.tempOff ≤ p'.tempOff := temps_up hfit h rfl Below.refl

lemma args_up {as : TArgs} (h : Emit cx (.args as) p code r p') (hfit : p'.peak < 2 ^ 64) :
    p.tempOff ≤ p'.tempOff := temps_up hfit h rfl Below.refl

/-- How far the temporaries may reach in a frame of so many bytes: one that reaches beyond `2 ^ 64`
wraps around. -/
def room (size : Nat) : Nat := min size (2 ^ 64 - 1)

lemma peak_lt (h : p.peak ≤ room m) : p.peak < 2 ^ 64 := by
  unfold room at h
  omega

lemma reach_lt (h : (p.alloc n).peak ≤ room m) : p.reach n < 2 ^ 64 := (le_max_right _ _).trans_lt (peak_lt h)

lemma slot_up (h : (p.alloc n).peak ≤ room m) : p.tempOff ≤ p.slot n := le_slot (reach_lt h)

lemma slot_room (h : (p.alloc n).peak ≤ room m) : p.slot n + n ≤ m :=
  ((slot_add_le n).trans (le_max_right _ _)).trans (h.trans (min_le_left _ _))

lemma alloc_end (h : (p.alloc n).peak ≤ room m) : (p.alloc n).tempOff = p.slot n + n :=
  alloc_tempOff (reach_lt h)

end Temps

/-! ### Where a result lies -/

section Results

variable {tops : List TTop} {f : TFunc} {locs : List (Nat × Nat)} {cx : Cx} {x : Item} {p p' q : Pt}
  {code : List Insn} {r : Option Opd} {a : Opd} {n m : Nat} {t : Ty}

lemma EndsBelow.mono (h : EndsBelow n a) (hm : n ≤ m) : EndsBelow m a := fun ha => (h ha).trans hm

section Fit

variable (hfit : q.peak < 2 ^ 64)

include hfit

end Fit

end Results

end Quaint.Parts
