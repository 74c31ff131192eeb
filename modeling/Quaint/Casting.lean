import Quaint.Memory
import Quaint.Generated
import Quaint.Activation

/-!
Casts between integral types.

A cast clears its destination and copies the lower bytes. That is the number of the source
wherever it is not negative or the destination is not wider, as long as nothing of the source is
cleared with the destination.
-/

namespace Quaint.Casting

open Relation Types Ast Bytes Code Exec Step Control Partial Effect Codegen Generated Memory
  Transition Program Activation

/-! ### Representations -/

section Numbers

variable {signd : Bool} {n a b : Nat}

lemma toInt_cases (ha : a < 2 ^ (8 * n)) : toInt signd n a = a ∨
    toInt signd n a = (a : Int) - 2 ^ (8 * n) ∧ toInt signd n a < 0 := by
  unfold toInt
  split
  · refine .inr ⟨rfl, ?_⟩
    have hlt : (a : Int) < 2 ^ (8 * n) := by exact_mod_cast ha
    omega
  · exact .inl rfl

/-- The bit pattern is the number modulo the range of the type. -/
lemma toInt_emod (ha : a < 2 ^ (8 * n)) : toInt signd n a % 2 ^ (8 * n) = a := by
  have hlt : (a : Int) < 2 ^ (8 * n) := by exact_mod_cast ha
  have h0 : (0 : Int) ≤ a := Int.natCast_nonneg a
  rcases toInt_cases ha with h | ⟨h, -⟩
  · rw [h, Int.emod_eq_of_lt h0 hlt]
  · rw [h, Int.sub_emod_right, Int.emod_eq_of_lt h0 hlt]

lemma pow_bytes (n : Nat) : 2 ^ (8 * n) = 256 ^ n := by
  rw [pow_mul]
  rfl

end Numbers

section Representations

variable {t S D : Ty} {bs bs' : List UInt8} {v : Int}

/-- The bytes are those of the number in an integral type. -/
def Represents (t : Ty) (bs : List UInt8) (v : Int) : Prop :=
  bs.length = t.bytes ∧ toInt t.signd t.bytes (leNat bs) = v

instance : Decidable (Represents t bs v) := inferInstanceAs (Decidable (_ ∧ _))

def Representable (t : Ty) (v : Int) : Prop := ∃ bs, Represents t bs v

lemma Represents.lt (h : Represents t bs v) : leNat bs < 2 ^ (8 * t.bytes) := by
  rw [pow_bytes, ← h.1]
  exact leNat_lt bs

lemma Represents.emod (h : Represents t bs v) : v % 2 ^ (8 * t.bytes) = leNat bs := by
  rw [← h.2, toInt_emod h.lt]

lemma Represents.unique (h : Represents t bs v) (h' : Represents t bs' v) : bs = bs' := by
  have hnum : (leNat bs : Int) = leNat bs' := h.emod.symm.trans h'.emod
  exact leNat_inj (h.1.trans h'.1.symm) (by exact_mod_cast hnum)

/-- The lower bytes of a number are those of its representation in another type, unless that is
wider and the number negative. -/
lemma Represents.low (h : Represents S bs v) (hv : 0 ≤ v ∨ D.bytes ≤ S.bytes) :
    (leNat (bs.take (min S.bytes D.bytes)) : Int) = v % 2 ^ (8 * D.bytes) := by
  have hmin : min S.bytes D.bytes ≤ bs.length := h.1 ▸ min_le_left _ _
  rw [leNat_take hmin]
  by_cases hle : D.bytes ≤ S.bytes
  · -- the same number modulo the smaller range
    have hdvd : (2 : Int) ^ (8 * D.bytes) ∣ 2 ^ (8 * S.bytes) := pow_dvd_pow 2 (by omega)
    rw [min_eq_right hle, Int.natCast_emod, ← h.emod, ← pow_bytes, Nat.cast_pow, Nat.cast_ofNat,
      Int.emod_emod_of_dvd v hdvd]
  · have hlt : leNat bs < 2 ^ (8 * D.bytes) :=
      h.lt.trans_le (Nat.pow_le_pow_right (by decide) (by omega))
    rw [min_eq_left (by omega), ← pow_bytes, Nat.mod_eq_of_lt h.lt]
    rcases toInt_cases h.lt with hn | ⟨-, hneg⟩
    · rw [← h.2, hn, Int.emod_eq_of_lt (Int.natCast_nonneg _) (by exact_mod_cast hlt)]
    · rw [h.2] at hneg
      omega

/-- The representation of a negative number in a wider type is no number of the narrower one. -/
lemma Represents.high (h : Represents S bs v) (hv : v < 0) (hlt : S.bytes < D.bytes) :
    (2 : Int) ^ (8 * S.bytes) ≤ v % 2 ^ (8 * D.bytes) := by
  have hn : v = (leNat bs : Int) - 2 ^ (8 * S.bytes) := by
    rcases toInt_cases h.lt with hn | ⟨hn, -⟩
    · have heq := h.2.symm.trans hn
      omega
    · exact h.2.symm.trans hn
  have hpow : (2 : Int) ^ (8 * S.bytes) * 2 ≤ 2 ^ (8 * D.bytes) := by
    rw [← pow_succ]
    exact_mod_cast Nat.pow_le_pow_right (by decide : 0 < 2) (by omega)
  have h0 : (0 : Int) < 2 ^ (8 * S.bytes) := by exact_mod_cast Nat.two_pow_pos _
  rw [← Int.add_emod_right, Int.emod_eq_of_lt] <;> omega

end Representations

/-! ### The instruction -/

section Instruction

variable {s s' : State} {dst src : Opd} {bs old : List UInt8}

/-- The byte of index `k` of one operand is one of the `n` bytes of the other. -/
def OpdMeets (s : State) (dst src : Opd) (n k : Nat) : Prop :=
  ∃ d a, s.opdVal dst = .ok d ∧ s.opdVal src = .ok a ∧ Meets s d a n k

/-- What a cast to a direct temporary leaves there: the lower bytes of the source, as they are
after the destination is cleared, and zeros. -/
lemma insnCast_ok (hdst : DirectTemp dst) (hold : loadOpd s dst = .ok old)
    (hbs : loadOpd s src = .ok bs) :
    ∃ s' low, insnCast s dst src = .ok s' ∧ low.length = min src.size dst.size ∧
      loadOpd s' dst = .ok (low ++ List.replicate (dst.size - src.size) 0) ∧
      ∀ k < min src.size dst.size, (OpdMeets s dst src dst.size k → low[k]? = some 0) ∧
        (¬ OpdMeets s dst src dst.size k → low[k]? = bs[k]?) := by
  obtain ⟨d, hd, hload⟩ := loadOpd_eq_ok.mp hold
  obtain ⟨a, ha, hsrc⟩ := loadOpd_eq_ok.mp hbs
  obtain ⟨f, prev, ht, rfl⟩ := opdVal_temp hdst hd
  set d : Loc := .mem (.temp s.cur prev.length) dst.off with hdl
  -- the destination is cleared
  have hplace (t : State) : t.place d = some (.temp s.cur prev.length, dst.off) := rfl
  obtain ⟨s1, hs1, hload1⟩ := store_of_load (List.replicate dst.size 0) (hplace s) hload (by simp)
  obtain ⟨low, hlow, hkept⟩ := load_store hs1 (load_take hsrc (min_le_left src.size dst.size))
  have hlen : low.length = min src.size dst.size := load_length hlow
  -- the lower bytes are copied
  obtain ⟨s2, hs2, hload2⟩ := store_of_load low (hplace s1) hload1 (by omega)
  have hctl : ctl s2 = ctl s := (ctl_store hs2).trans (ctl_store hs1)
  have hmeets (k : Nat) : OpdMeets s dst src dst.size k ↔ Meets s d a dst.size k := by
    constructor
    · rintro ⟨d', a', hd', ha', h⟩
      rw [hd] at hd'
      rw [ha] at ha'
      cases hd'
      cases ha'
      exact h
    · exact fun h => ⟨d, a, hd, ha, h⟩
  refine ⟨s2, low, ?_, hlen, ?_, fun k hk => ⟨fun h => ?_, fun h => ?_⟩⟩
  · simp only [insnCast, State.memcpy, bind_eq_ok, orUb_eq_ok]
    exact ⟨d, hd, a, ha, s1, hs1, low, hlow, hs2⟩
  · refine loadOpd_eq_ok.mpr ⟨d, (opdVal_congr hctl hdst.2).trans hd, hload2.trans ?_⟩
    have hdrop : old.drop dst.size = [] := List.drop_eq_nil_of_le (load_length hload).le
    have hsub : dst.size - min src.size dst.size = dst.size - src.size := by omega
    simp [hlen, hdrop, hsub]
  · obtain ⟨r, off, off', hpd, hpa, hlo, hhi⟩ := (hmeets k).mp h
    obtain ⟨new, hnew, hk0⟩ := load_store_meets hs1 (load_take hsrc (min_le_left src.size dst.size))
      hpd hpa hk hlo (by simpa using hhi)
    obtain rfl := Option.some.inj (hlow.symm.trans hnew)
    rw [hk0, List.getElem?_replicate, if_pos (by omega)]
  · rw [hkept k hk (by simpa using fun hm => h ((hmeets k).mpr hm)), List.getElem?_take, if_pos hk]

/-- No byte of a direct operand below the destination, or in no temporary, is in it. -/
lemma not_meets_of_direct {k : Nat} (hdst : DirectTemp dst) (hsrc : src.indirect = false)
    (h : src.opd ≠ .temp ∨ src.off + src.size ≤ dst.off) (hk : k < src.size) :
    ¬ OpdMeets s dst src dst.size k := by
  rintro ⟨d, a, hd, ha, r, off, off', hpd, hpa, hlo, hhi⟩
  obtain ⟨f, prev, ht, rfl⟩ := opdVal_temp hdst hd
  obtain ⟨rfl, rfl⟩ := Prod.mk.inj (Option.some.inj hpd)
  cases hopd : src.opd with
  | temp =>
    obtain ⟨f', prev', ht', rfl⟩ := opdVal_temp ⟨hopd, hsrc⟩ ha
    obtain ⟨-, rfl⟩ := Prod.mk.inj (Option.some.inj hpa)
    rcases h with h | h
    · exact h hopd
    · omega
  | imm =>
    simp only [State.opdVal, State.opdBase, hopd, hsrc] at ha
    cases ha
    cases hpa
  | auto =>
    simp only [State.opdVal, State.opdBase, hopd, hsrc] at ha
    cases ha
    cases hpa
  | glob =>
    simp only [State.opdVal, State.opdBase, hopd, hsrc] at ha
    cases ha
    cases hpa

end Instruction

/-! ### The value -/

section Value

variable {S D : Ty} {s : State} {dst src : Opd} {bs old : List UInt8} {v : Int}

/-- A cast leaves the representation of the number exactly if the number is not negative or the
destination not wider, and nothing but zeros is cleared of the bytes that are copied. -/
lemma insnCast_represents (hdst : DirectTemp dst) (hsize : dst.size = D.bytes)
    (hold : loadOpd s dst = .ok old) (hbs : loadOpd s src = .ok bs) (hv : Represents S bs v)
    (hrep : Representable D v) :
    ∃ s' bs', insnCast s dst src = .ok s' ∧ loadOpd s' dst = .ok bs' ∧
      (Represents D bs' v ↔ (0 ≤ v ∨ D.bytes ≤ S.bytes) ∧
        ∀ k < min S.bytes D.bytes, OpdMeets s dst src D.bytes k → bs[k]? = some 0) := by
  have hsrc : src.size = S.bytes := (loadOpd_length hbs).symm.trans hv.1
  obtain ⟨s', low, hx, hlen, hload, hlow⟩ := insnCast_ok hdst hold hbs
  rw [hsrc, hsize] at hlen hload hlow
  refine ⟨s', _, hx, hload, ?_⟩
  obtain ⟨rep, hrep⟩ := hrep
  have hnum : leNat (low ++ List.replicate (D.bytes - S.bytes) 0) = leNat low := by
    rw [leNat_append, leNat_zeros, Nat.mul_zero, Nat.add_zero]
  have hlenD : (low ++ List.replicate (D.bytes - S.bytes) (0 : UInt8)).length = D.bytes := by
    simp [hlen]
    omega
  have htake : (bs.take (min S.bytes D.bytes)).length = min S.bytes D.bytes :=
    List.length_take_of_le (hv.1 ▸ min_le_left _ _)
  constructor
  · intro h
    have heq := h.emod
    rw [hnum] at heq
    have hcond : 0 ≤ v ∨ D.bytes ≤ S.bytes := by
      by_contra hnot
      rw [not_or, not_le, not_le] at hnot
      have hhigh := hv.high hnot.1 hnot.2
      have hlt : leNat low < 2 ^ (8 * S.bytes) := by
        have hl := leNat_lt low
        rwa [hlen, min_eq_left hnot.2.le, ← pow_bytes] at hl
      have hlt' : (leNat low : Int) < 2 ^ (8 * S.bytes) := by exact_mod_cast hlt
      omega
    have hbytes : leNat low = leNat (bs.take (min S.bytes D.bytes)) := by
      have hl := (hv.low hcond).trans heq
      exact_mod_cast hl.symm
    obtain rfl := leNat_inj (hlen.trans htake.symm) hbytes
    refine ⟨hcond, fun k hk hm => ?_⟩
    rw [← (hlow k hk).1 hm, List.getElem?_take, if_pos hk]
  · rintro ⟨hcond, hzero⟩
    have hbytes : low = bs.take (min S.bytes D.bytes) := by
      refine List.ext_getElem? fun k => ?_
      by_cases hk : k < min S.bytes D.bytes
      · rw [List.getElem?_take, if_pos hk]
        by_cases hm : OpdMeets s dst src D.bytes k
        · rw [(hlow k hk).1 hm, hzero k hk hm]
        · exact (hlow k hk).2 hm
      · rw [List.getElem?_eq_none (by omega), List.getElem?_eq_none (by omega)]
    have hl := (hv.low hcond).trans hrep.emod
    rw [← hbytes] at hl
    have heq : low ++ List.replicate (D.bytes - S.bytes) 0 = rep := by
      refine leNat_inj (hlenD.trans hrep.1.symm) (hnum.trans ?_)
      exact_mod_cast hl
    exact heq ▸ hrep

/-- **When a cast preserves a number**: for all types and every number of the one that the other
has, the instruction emitted for a cast leaves its representation exactly if the number is not
negative or the type not wider, and nothing but zeros is cleared of the bytes that are copied. -/
theorem cast_preserves_iff {lhs : Gen} {st st' : GenSt}
    (hgen : genBexpCast lhs D st = .ok (dst, st')) :
    ∃ res st1, lhs false st = .ok (res, st1) ∧ st'.insns = st1.insns ++ [Insn.cast dst res] ∧
      ∀ (o : Obj) (inp : Inp) (s : State) (v : Int) (bs old : List UInt8),
        loadOpd s res = .ok bs → Represents S bs v → Representable D v → loadOpd s dst = .ok old →
        ∃ s' bs', execInsn inp o s (.cast dst res) = .ok s' ∧ loadOpd s' dst = .ok bs' ∧
          (Represents D bs' v ↔ (0 ≤ v ∨ D.bytes ≤ S.bytes) ∧
            ∀ k < min S.bytes D.bytes, OpdMeets s dst res D.bytes k → bs[k]? = some 0) := by
  simp only [genBexpCast, bind_ok, opdTemp_ok, emit_ok, pure_ok] at hgen
  obtain ⟨res, st1, hl, _, _, ⟨-, rfl, rfl⟩, _, _, rfl, rfl, rfl⟩ := hgen
  refine ⟨res, st1, hl, rfl, fun o inp s v bs old hbs hv hrep hold => ?_⟩
  obtain ⟨s', bs', hx, hload, hiff⟩ := insnCast_represents (D := D) ⟨rfl, rfl⟩ rfl hold hbs hv hrep
  exact ⟨nextIp s', bs', by simp only [execInsn, hx]; rfl, (loadOpd_nextIp _).trans hload, hiff⟩

end Value

/-! ### A negative number in a wider type -/

/-- `a: i8; b: i32; m { a++; b = a: i32; }`, or with `a--` -/
def widening (op : XOp) : Ast.Unit :=
  ⟨[],
    [.decl ⟨false, false, false, [letter 97 0], .int .i8 1, .absent⟩,
     .decl ⟨false, false, false, [letter 98 7], .int .i32 1, .absent⟩,
     .func ⟨false, letter 109 15, .nil, .none,
       .cons (.expr (.xexp op (.name (letter 97 19))))
       (.cons (.expr (.bexp (letter 98 24) .assn (.name (letter 98 24))
         (.cast (.name (letter 97 28)) (some (.int .i32 1))))) .nil)⟩]⟩

def wide : Opd := ⟨.temp, true, false, 0, 4⟩

def wideningObj (dec : Bool) : Obj :=
  ⟨8, [], List.replicate 17 Insn.bfun ++
    [Insn.incsp (opdImm false 0 8) (opdImm false 4 8),
     .incp dec ⟨.temp, true, false, 0, 1⟩ (opdGlob true 0 1), .nop, .cast wide (opdGlob true 0 1),
     .mov (opdGlob true 4 4) wide, .nop, .ret (opdImm false 16 8)]⟩

/-- What is looked at after the run: the instruction, the bytes of its operands, and those of the
destination after it. -/
def wideningLook (o : Obj) (s : State) :
    M (Option Insn × List UInt8 × List UInt8 × List UInt8) := do
  let bs ← loadOpd s (opdGlob true 0 1)
  let old ← loadOpd s wide
  let s' ← execInsn (still 0) o s (.cast wide (opdGlob true 0 1))
  let bs' ← loadOpd s' wide
  return (o.insns[s.vm.ip]?, bs, old, bs')

/-- `-1` is 255 in the wider type. -/
theorem cast_loses_sign : Compiles (widening .decr) (wideningObj true) ∧
    Representable (.int .i32 1) (-1) ∧
    ∃ s s' bs bs',
      ReflTransGen (Next (wideningObj true)) (initState (wideningObj true) 65536 131072) s ∧
      (wideningObj true).insns[s.vm.ip]? = some (.cast wide (opdGlob true 0 1)) ∧
      loadOpd s (opdGlob true 0 1) = .ok bs ∧ Represents (.int .i8 1) bs (-1) ∧
      execInsn (still 0) (wideningObj true) s (.cast wide (opdGlob true 0 1)) = .ok s' ∧
      loadOpd s' wide = .ok bs' ∧ Represents (.int .i32 1) bs' 255 ∧
      ¬ Represents (.int .i32 1) bs' (-1) := by
  have hlook : runWhile (fun _ => true) (wideningObj true)
      (initState (wideningObj true) 65536 131072) (stillFrom 1048576 3) >>=
        wideningLook (wideningObj true) =
      .ok (some (.cast wide (opdGlob true 0 1)), [255], [0, 0, 0, 0], [255, 0, 0, 0]) := by
    decide +kernel
  obtain ⟨s, hrun, hs⟩ := bind_eq_ok.mp hlook
  simp only [wideningLook, bind_eq_ok, pure_eq_ok, Prod.mk.injEq] at hs
  obtain ⟨_, hbs, old, hold, s', hx, _, hload, hi, rfl, rfl, rfl⟩ := hs
  have run := run_of_guarded (run_of_runWhile (P := fun _ => True) (fun _ _ => trivial) hrun)
  exact ⟨by decide +kernel, ⟨[255, 255, 255, 255], by decide⟩, s, s', _, _, run, hi, hbs, by decide,
    hx, hload, by decide, by decide⟩

/-- `1` stays what it is. -/
theorem cast_keeps_one :
    ∃ s s' bs',
      ReflTransGen (Next (wideningObj false)) (initState (wideningObj false) 65536 131072) s ∧
      (wideningObj false).insns[s.vm.ip]? = some (.cast wide (opdGlob true 0 1)) ∧
      execInsn (still 0) (wideningObj false) s (.cast wide (opdGlob true 0 1)) = .ok s' ∧
      loadOpd s' wide = .ok bs' ∧ Represents (.int .i32 1) bs' 1 := by
  have hlook : runWhile (fun _ => true) (wideningObj false)
      (initState (wideningObj false) 65536 131072) (stillFrom 1048576 3) >>=
        wideningLook (wideningObj false) =
      .ok (some (.cast wide (opdGlob true 0 1)), [1], [0, 0, 0, 0], [1, 0, 0, 0]) := by
    decide +kernel
  obtain ⟨s, hrun, hs⟩ := bind_eq_ok.mp hlook
  simp only [wideningLook, bind_eq_ok, pure_eq_ok, Prod.mk.injEq] at hs
  obtain ⟨_, hbs, old, hold, -, -, _, -, hi, rfl, rfl, rfl⟩ := hs
  have run := run_of_guarded (run_of_runWhile (P := fun _ => True) (fun _ _ => trivial) hrun)
  have hgen : genBexpCast (fun _ => pure (opdGlob true 0 1)) (.int .i32 1) ⟨[], [], 0, 0, 0⟩ =
      .ok (wide, ⟨[.cast wide (opdGlob true 0 1)], [], 4, 4, 4⟩) := rfl
  obtain ⟨res, st1, hl, -, h⟩ := cast_preserves_iff (S := .int .i8 1) hgen
  obtain ⟨rfl, rfl⟩ := pure_ok.mp hl
  obtain ⟨s', bs', hx, hload, hiff⟩ := h (wideningObj false) (still 0) s 1 [1] _ hbs (by decide)
    ⟨[1, 0, 0, 0], by decide⟩ hold
  refine ⟨s, s', bs', run, hi, hx, hload, hiff.mpr ⟨.inl (by decide), fun k hk hm => ?_⟩⟩
  refine (not_meets_of_direct ⟨rfl, rfl⟩ rfl (.inl (by decide)) ?_ hm).elim
  exact hk.trans_le (min_le_left _ _)

end Quaint.Casting
