import Quaint.Quantify

/-!
Sizes without a bound.

The sizes, offsets and frames as they would be if `size_t` had no last value. What the compiler
computes is the same as long as the result is below `2 ^ 64`, and only then; nothing checks that.
-/

namespace Quaint.Exact

open Types Ast Codegen Program Layout Quantify

/-! ### Types -/

mutual
def exactSize : Ty → Nat
  | .struct _ ms => alignUp (exactEnd ms 0) (ms.greatestAlignment 0)
  | .union _ ms => exactGreatest ms 0
  | t => t.size
def exactEnd : Fields → Nat → Nat
  | .nil, off => off
  | .cons _ t rest, off => exactEnd rest (alignUp off t.alignment + t.count * exactSize t)
def exactGreatest : Fields → Nat → Nat
  | .nil, g => g
  | .cons _ t rest, g => exactGreatest rest (max g (t.count * exactSize t))
end

def exactBytes (t : Ty) : Nat := t.count * exactSize t

def exactFieldOffsets : Fields → Nat → List Nat
  | .nil, _ => []
  | .cons _ t rest, off =>
    alignUp off t.alignment :: exactFieldOffsets rest (alignUp off t.alignment + exactBytes t)

def exactOffsets : Ty → List Nat
  | .struct _ ms => exactFieldOffsets ms 0
  | t => t.offsets

/-- What is computed for a type is exact. -/
structure TyExact (t : Ty) : Prop where
  size : t.size = exactSize t
  bytes : t.bytes = exactBytes t
  offsets : t.offsets = exactOffsets t

/-- Its size is small enough, and so is that of an array of it. -/
structure TySmall (t : Ty) : Prop where
  size : exactSize t < 2 ^ 64
  bytes : exactBytes t < 2 ^ 64

section Types

variable {t : Ty}

/-- An array takes what it should if its element does; one of no elements takes nothing anyway. -/
lemma bytes_of_size (h : exactSize t < 2 ^ 64 → t.size = exactSize t) (hb : exactBytes t < 2 ^ 64) :
    t.bytes = exactBytes t := by
  rcases Nat.eq_zero_or_pos t.count with hc | hc
  · rw [Ty.bytes, exactBytes, hc, Nat.zero_mul, Nat.zero_mul]
    rfl
  · have hle : exactSize t ≤ exactBytes t := Nat.le_mul_of_pos_left _ hc
    have hs := h (by omega)
    rw [Ty.bytes, hs]
    exact wrap64_of_lt hb

lemma exactEnd_le (ms : Fields) (off : Nat) : off ≤ exactEnd ms off := by
  match ms with
  | .nil => exact Nat.le_refl _
  | .cons _ t rest =>
    have := exactEnd_le rest (alignUp off t.alignment + t.count * exactSize t)
    have := le_alignUp off t.alignment
    rw [exactEnd]
    omega

lemma exactGreatest_le (ms : Fields) (g : Nat) : g ≤ exactGreatest ms g := by
  match ms with
  | .nil => exact Nat.le_refl _
  | .cons _ t rest => exact Nat.le_trans (Nat.le_max_left _ _) (exactGreatest_le rest _)

/-- What is added up for one member. -/
lemma member_step {off : Nat} (hb : t.bytes = exactBytes t)
    (h : alignUp off t.alignment + exactBytes t < 2 ^ 64) :
    wrap64 (alignUp off t.alignment) = alignUp off t.alignment ∧
      wrap64 (wrap64 (alignUp off t.alignment) + wrap64 (t.size * t.count)) =
        alignUp off t.alignment + exactBytes t := by
  have h1 : wrap64 (alignUp off t.alignment) = alignUp off t.alignment := wrap64_of_lt (by omega)
  have h2 : wrap64 (t.size * t.count) = exactBytes t := by
    rw [Nat.mul_comm]
    exact hb
  exact ⟨h1, by rw [h1, h2, wrap64_of_lt h]⟩

mutual
/-- **A size below the bound is exact.** -/
theorem size_exact : ∀ t : Ty, exactSize t < 2 ^ 64 → t.size = exactSize t
  | .struct _ ms, h => by
    rw [exactSize] at h ⊢
    have hup := le_alignUp (exactEnd ms 0) (ms.greatestAlignment 0)
    rw [Ty.size, (end_exact ms 0 (by omega)).1]
    exact wrap64_of_lt h
  | .union _ ms, h => by
    rw [exactSize] at h ⊢
    exact greatest_exact ms 0 h
  | .void _, _ | .int _ _, _ | .vptr _, _ | .enum _ _ _, _ | .ptr _ _, _ | .quaint _ _, _
  | .fptr _ _ _, _ => rfl
lemma end_exact : ∀ (ms : Fields) (off : Nat), exactEnd ms off < 2 ^ 64 →
    ms.endOffset off = exactEnd ms off ∧ ms.offsets off = exactFieldOffsets ms off
  | .nil, _, _ => ⟨rfl, rfl⟩
  | .cons _ t rest, off, h => by
    rw [exactEnd] at h
    have hlt : alignUp off t.alignment + exactBytes t < 2 ^ 64 :=
      Nat.lt_of_le_of_lt (exactEnd_le rest _) h
    have hb := bytes_of_size (size_exact t) (by omega)
    obtain ⟨h1, h2⟩ := member_step hb hlt
    obtain ⟨hend, hoffs⟩ := end_exact rest _ h
    rw [Fields.endOffset, Fields.offsets, h2, h1, exactEnd, exactFieldOffsets]
    exact ⟨hend, congrArg _ hoffs⟩
lemma greatest_exact : ∀ (ms : Fields) (g : Nat), exactGreatest ms g < 2 ^ 64 →
    ms.greatestSize g = exactGreatest ms g
  | .nil, _, _ => rfl
  | .cons _ t rest, g, h => by
    rw [exactGreatest] at h ⊢
    have hlt := Nat.lt_of_le_of_lt (exactGreatest_le rest _) h
    have hb := bytes_of_size (size_exact t) (Nat.lt_of_le_of_lt (Nat.le_max_right _ _) hlt)
    rw [Fields.greatestSize, if_gt_eq_max, Nat.mul_comm, show wrap64 (t.count * t.size) = _ from hb]
    exact greatest_exact rest _ h
end

lemma bytes_exact (h : exactBytes t < 2 ^ 64) : t.bytes = exactBytes t :=
  bytes_of_size (size_exact t) h

lemma wrap64_lt (n : Nat) : wrap64 n < 2 ^ 64 := Nat.mod_lt _ (by decide)

lemma greatestSize_lt (ms : Fields) (g : Nat) (h : g < 2 ^ 64) : ms.greatestSize g < 2 ^ 64 := by
  match ms with
  | .nil => exact h
  | .cons _ t rest =>
    rw [Fields.greatestSize, if_gt_eq_max]
    exact greatestSize_lt rest _ (Nat.max_lt.mpr ⟨h, wrap64_lt _⟩)

lemma size_lt (t : Ty) : t.size < 2 ^ 64 := by
  have hint (k : IntT) : k.size < 2 ^ 64 :=
    Nat.lt_of_le_of_lt (Nat.le_of_dvd (by decide) (intSize_dvd k)) (by decide)
  cases t with
  | struct _ ms => exact wrap64_lt _
  | union _ ms => exact greatestSize_lt ms 0 (by decide)
  | int k _ => exact hint k
  | enum _ _ k => exact hint k
  | _ => simp only [Ty.size]; decide

/-- **What is computed for a type is exact if and only if it is small.** -/
theorem tyExact_iff : TyExact t ↔ TySmall t := by
  constructor
  · rintro ⟨hs, hb, _⟩
    exact ⟨hs ▸ size_lt t, hb ▸ wrap64_lt _⟩
  · rintro ⟨hs, hb⟩
    refine ⟨size_exact t hs, bytes_exact hb, ?_⟩
    cases t with
    | struct _ ms =>
      rw [exactSize] at hs
      exact (end_exact ms 0 (Nat.lt_of_le_of_lt (le_alignUp _ _) hs)).2
    | _ => rfl

end Types

/-! ### Frames -/

/-- One variable, and one parameter, as `layoutVar` and `layoutPar` would place them. -/
def exactVar (fr : Frame) (v : Var) : Frame :=
  ⟨alignUp fr.size v.2.alignment + exactBytes v.2,
    (v.1.beg, ⟨alignUp fr.size v.2.alignment, exactBytes v.2⟩) :: fr.layout⟩
def exactPar (fr : Frame) (v : Var) : Frame :=
  ⟨alignUp (fr.size + exactBytes v.2) 8, (v.1.beg, ⟨fr.size, exactBytes v.2⟩) :: fr.layout⟩

def exactArgs (f : TFunc) : Frame := f.params.toList.foldl exactPar ⟨0, []⟩
def exactFrame (f : TFunc) : Frame := (localVars f).foldl exactVar (exactArgs f)

def exactTag (f : TFunc) : FuncTag :=
  ⟨alignUp (exactFrame f).size 8, (exactArgs f).size, (exactFrame f).layout⟩

def exactGlobals (tops : List TTop) : Frame := (globalVars tops).foldl exactVar ⟨0, []⟩

/-- Every frame of the unit is laid out exactly, and so are its data. -/
structure UnitExact (tops : List TTop) : Prop where
  frames : ∀ f, TTop.func f ∈ tops → funcTag f = exactTag f
  data : globalFrame tops ⟨0, []⟩ = exactGlobals tops

/-- Every frame of the unit is small enough, and so are its data. -/
structure UnitSmall (tops : List TTop) : Prop where
  frames : ∀ f, TTop.func f ∈ tops → (exactTag f).frameSize < 2 ^ 64
  data : (exactGlobals tops).size < 2 ^ 64

section Frames

variable {fr : Frame} {vs : List Var} {v : Var} {f : TFunc} {tops : List TTop}

lemma layoutVar_exact (h : (exactVar fr v).size < 2 ^ 64) : layoutVar fr v = exactVar fr v := by
  have hlt : alignUp fr.size v.2.alignment + exactBytes v.2 < 2 ^ 64 := h
  have h1 : wrap64 (alignUp fr.size v.2.alignment) = alignUp fr.size v.2.alignment :=
    wrap64_of_lt (by omega)
  rw [layoutVar, layoutName, exactVar, bytes_exact (by omega), h1, wrap64_of_lt hlt]

lemma layoutPar_exact (h : (exactPar fr v).size < 2 ^ 64) : layoutPar fr v = exactPar fr v := by
  have hlt : alignUp (fr.size + exactBytes v.2) 8 < 2 ^ 64 := h
  have hle := le_alignUp (fr.size + exactBytes v.2) 8
  have h1 : wrap64 (fr.size + exactBytes v.2) = fr.size + exactBytes v.2 := wrap64_of_lt (by omega)
  rw [layoutPar, layoutParam, exactPar, bytes_exact (by omega), h1, wrap64_of_lt hlt]

lemma exactVar_le (fr : Frame) (v : Var) : fr.size ≤ (exactVar fr v).size :=
  Nat.le_add_right_of_le (le_alignUp _ _)

lemma exactPar_le (fr : Frame) (v : Var) : fr.size ≤ (exactPar fr v).size :=
  Nat.le_trans (Nat.le_add_right _ _) (le_alignUp _ _)

/-- A pass that never goes back is exact at every variable if it is small at the end. -/
lemma foldl_exact {step exact : Frame → Var → Frame}
    (hle : ∀ fr v, fr.size ≤ (exact fr v).size)
    (hstep : ∀ fr v, (exact fr v).size < 2 ^ 64 → step fr v = exact fr v)
    (h : (vs.foldl exact fr).size < 2 ^ 64) :
    vs.foldl step fr = vs.foldl exact fr ∧ fr.size ≤ (vs.foldl exact fr).size := by
  induction vs generalizing fr with
  | nil => exact ⟨rfl, Nat.le_refl _⟩
  | cons v vs ih =>
    obtain ⟨heq, hge⟩ := ih h
    have hv := hle fr v
    have hsmall : (exact fr v).size < 2 ^ 64 := Nat.lt_of_le_of_lt hge h
    rw [List.foldl_cons, List.foldl_cons, hstep fr v hsmall]
    exact ⟨heq, Nat.le_trans hv hge⟩

/-- **A frame is exact if and only if it is small.** -/
theorem funcTag_exact_iff : funcTag f = exactTag f ↔ (exactTag f).frameSize < 2 ^ 64 := by
  constructor
  · intro h
    rw [← h]
    exact wrap64_lt _
  · intro h
    have hup := le_alignUp (exactFrame f).size 8
    have hframe : (exactFrame f).size < 2 ^ 64 := Nat.lt_of_le_of_lt hup h
    obtain ⟨hvars, hge⟩ := foldl_exact exactVar_le (fun _ _ => layoutVar_exact) hframe
    obtain ⟨hargs, _⟩ := foldl_exact exactPar_le (fun _ _ => layoutPar_exact)
      (Nat.lt_of_le_of_lt hge hframe)
    have ha : layoutParams f.params ⟨0, []⟩ = exactArgs f := (layoutParams_eq _ _).trans hargs
    have hall : layoutStmts f.stmts (exactArgs f) = exactFrame f := (layoutStmts_eq _ _).trans hvars
    rw [funcTag, exactTag]
    simp only [ha, hall]
    rw [wrap64_of_lt (show alignUp (exactFrame f).size 8 < 2 ^ 64 from h)]

lemma layoutVars_lt (h : fr.size < 2 ^ 64) : (layoutVars vs fr).size < 2 ^ 64 := by
  induction vs generalizing fr with
  | nil => exact h
  | cons v vs ih => exact ih (wrap64_lt _)

lemma globals_exact_iff :
    globalFrame tops ⟨0, []⟩ = exactGlobals tops ↔ (exactGlobals tops).size < 2 ^ 64 := by
  rw [globalFrame_eq]
  constructor
  · intro h
    rw [← h]
    exact layoutVars_lt (by decide)
  · intro h
    exact (foldl_exact exactVar_le (fun _ _ => layoutVar_exact) h).1

lemma unit_exact_iff : UnitExact tops ↔ UnitSmall tops := by
  constructor
  · intro h
    exact ⟨fun f hf => funcTag_exact_iff.mp (h.frames f hf), globals_exact_iff.mp h.data⟩
  · intro h
    exact ⟨fun f hf => funcTag_exact_iff.mpr (h.frames f hf), globals_exact_iff.mpr h.data⟩

/-- **Sizes do not wrap where they are small, and only there**: those of a type, and the frames and
data of a unit. -/
theorem sizes_exact_iff (t : Ty) (tops : List TTop) :
    (TyExact t ↔ TySmall t) ∧ (UnitExact tops ↔ UnitSmall tops) :=
  ⟨tyExact_iff, unit_exact_iff⟩

/-- `x: u64[2305843009213693952];` -/
def heap : Ast.Unit :=
  ⟨[], [.decl ⟨false, false, false, [⟨[120], 0⟩], .int .u64 (2 ^ 61), .absent⟩]⟩

theorem heap_wraps : ¬ ∀ u tops, accept u = some tops → UnitExact tops := by
  intro h
  have hacc : (accept heap).isSome = true := by decide +kernel
  have hdata : (accept heap).all (fun tops => (globalFrame tops ⟨0, []⟩).size == 0) = true := by
    decide +kernel
  have hexact : (accept heap).all (fun tops => (exactGlobals tops).size == 2 ^ 64) = true := by
    decide +kernel
  obtain ⟨tops, ha⟩ := Option.isSome_iff_exists.mp hacc
  rw [ha, Option.all_some, beq_iff_eq] at hdata hexact
  have := (h heap tops ha).data
  rw [this, hexact] at hdata
  exact absurd hdata (by decide)

end Frames

end Quaint.Exact
