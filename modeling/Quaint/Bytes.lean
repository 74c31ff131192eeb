import Mathlib

/-!
Little-endian byte strings, and byte memories as functions of an offset.
-/

namespace Quaint.Bytes

/-- The number a little-endian byte string stands for. -/
def leNat : List UInt8 → Nat
  | [] => 0
  | b :: bs => b.toNat + 256 * leNat bs

/-- The `n` low bytes of a number, lowest first. -/
def leBytes : Nat → Nat → List UInt8
  | 0, _ => []
  | n + 1, v => UInt8.ofNat v :: leBytes n (v / 256)

/-- The contents of a memory region. -/
abbrev Mem := Nat → UInt8

/-- The `n` bytes at an offset. -/
def readMem (m : Mem) (off : Nat) : Nat → List UInt8
  | 0 => []
  | n + 1 => m off :: readMem m (off + 1) n

/-- The region with some bytes overwritten. -/
def writeMem (m : Mem) (off : Nat) : List UInt8 → Mem
  | [] => m
  | b :: bs => fun i => if i = off then b else writeMem m (off + 1) bs i

@[simp] lemma leBytes_length (n v : Nat) : (leBytes n v).length = n := by
  induction n generalizing v with
  | zero => rfl
  | succ n ih => simp [leBytes, ih]

@[simp] lemma readMem_length (m : Mem) (off n : Nat) : (readMem m off n).length = n := by
  induction n generalizing off with
  | zero => rfl
  | succ n ih => simp [readMem, ih]

lemma leNat_leBytes (n v : Nat) : leNat (leBytes n v) = v % 256 ^ n := by
  induction n generalizing v with
  | zero => simp [leBytes, leNat, Nat.mod_one]
  | succ n ih =>
    rw [leBytes, leNat, ih, pow_succ, Nat.mul_comm (256 ^ n) 256, Nat.mod_mul]
    simp

lemma leNat_lt (bs : List UInt8) : leNat bs < 256 ^ bs.length := by
  induction bs with
  | nil => simp [leNat]
  | cons b bs ih =>
    have hb : b.toNat < 256 := b.toNat_lt
    rw [leNat, List.length_cons, pow_succ]
    omega

lemma leBytes_leNat (bs : List UInt8) : leBytes bs.length (leNat bs) = bs := by
  induction bs with
  | nil => rfl
  | cons b bs ih =>
    have hb : b.toNat < 256 := b.toNat_lt
    have hdiv : (b.toNat + 256 * leNat bs) / 256 = leNat bs := by omega
    have hmod : UInt8.ofNat (b.toNat + 256 * leNat bs) = b := by
      apply UInt8.toNat_inj.mp
      simp
    rw [List.length_cons, leNat, leBytes, hdiv, ih, hmod]

lemma writeMem_of_lt (m : Mem) {off i : Nat} (bs : List UInt8) (h : i < off) :
    writeMem m off bs i = m i := by
  induction bs generalizing off with
  | nil => rfl
  | cons b bs ih =>
    have hne : i ≠ off := by omega
    simp only [writeMem, hne, if_false]
    exact ih (by omega)

lemma writeMem_of_ge (m : Mem) {off i : Nat} (bs : List UInt8) (h : off + bs.length ≤ i) :
    writeMem m off bs i = m i := by
  induction bs generalizing off with
  | nil => rfl
  | cons b bs ih =>
    simp only [List.length_cons] at h
    have hne : i ≠ off := by omega
    simp only [writeMem, hne, if_false]
    exact ih (by omega)

/-- A byte that is overwritten is the one written there. -/
lemma writeMem_of_mem (m : Mem) {off i : Nat} (bs : List UInt8) (hlo : off ≤ i)
    (hhi : i < off + bs.length) : some (writeMem m off bs i) = bs[i - off]? := by
  induction bs generalizing off with
  | nil =>
    simp only [List.length_nil] at hhi
    omega
  | cons b bs ih =>
    simp only [writeMem]
    split
    · rename_i heq
      simp [heq]
    · rename_i hne
      simp only [List.length_cons] at hhi
      rw [ih (by omega) (by omega), show i - off = i - (off + 1) + 1 by omega,
        List.getElem?_cons_succ]

lemma readMem_getElem? {m : Mem} {off n k : Nat} (hk : k < n) :
    (readMem m off n)[k]? = some (m (off + k)) := by
  induction n generalizing off k with
  | zero => omega
  | succ n ih =>
    cases k with
    | zero => rfl
    | succ k =>
      rw [readMem, List.getElem?_cons_succ, ih (by omega)]
      congr 2
      omega

lemma readMem_take {m : Mem} {off n k : Nat} (hk : k ≤ n) :
    (readMem m off n).take k = readMem m off k := by
  induction n generalizing off k with
  | zero => simp [Nat.le_zero.mp hk, readMem]
  | succ n ih =>
    cases k with
    | zero => rfl
    | succ k => rw [readMem, List.take_succ_cons, ih (by omega), readMem]

lemma leBytes_take {n k v : Nat} (hk : k ≤ n) : (leBytes n v).take k = leBytes k v := by
  induction n generalizing k v with
  | zero => simp [Nat.le_zero.mp hk, leBytes]
  | succ n ih =>
    cases k with
    | zero => rfl
    | succ k => rw [leBytes, List.take_succ_cons, ih (by omega), leBytes]

lemma leNat_append (a b : List UInt8) : leNat (a ++ b) = leNat a + 256 ^ a.length * leNat b := by
  induction a with
  | nil => simp [leNat]
  | cons x a ih =>
    rw [List.cons_append, leNat, leNat, ih, List.length_cons, pow_succ]
    ring

lemma leNat_zeros (n : Nat) : leNat (List.replicate n 0) = 0 := by
  induction n with
  | zero => rfl
  | succ n ih => simp [List.replicate_succ, leNat, ih]

/-- The first bytes of a number are the number modulo a power. -/
lemma leNat_take {bs : List UInt8} {n : Nat} (hn : n ≤ bs.length) :
    leNat (bs.take n) = leNat bs % 256 ^ n := by
  have hlen : (bs.take n).length = n := List.length_take_of_le hn
  have hlt := leNat_lt (bs.take n)
  conv => rhs; rw [← List.take_append_drop n bs, leNat_append, hlen]
  rw [Nat.add_mul_mod_self_left, Nat.mod_eq_of_lt]
  rwa [hlen] at hlt

/-- Byte strings of one length are told apart by their numbers. -/
lemma leNat_inj {a b : List UInt8} (hlen : a.length = b.length) (h : leNat a = leNat b) : a = b := by
  rw [← leBytes_leNat a, ← leBytes_leNat b, h, hlen]

lemma readMem_congr {m m' : Mem} {off n : Nat} (h : ∀ i, off ≤ i → i < off + n → m i = m' i) :
    readMem m off n = readMem m' off n := by
  induction n generalizing off with
  | zero => rfl
  | succ n ih =>
    rw [readMem, readMem, h off (by omega) (by omega),
      ih (fun i h1 h2 => h i (by omega) (by omega))]

lemma readMem_writeMem_same (m : Mem) (off : Nat) (bs : List UInt8) :
    readMem (writeMem m off bs) off bs.length = bs := by
  induction bs generalizing m off with
  | nil => rfl
  | cons b bs ih =>
    have htail : readMem (writeMem m off (b :: bs)) (off + 1) bs.length =
        readMem (writeMem m (off + 1) bs) (off + 1) bs.length := by
      apply readMem_congr
      intro i h1 _
      have hne : i ≠ off := by omega
      simp [writeMem, hne]
    rw [List.length_cons, readMem, htail, ih]
    simp [writeMem]

/-- What is read where something shorter was written. -/
lemma readMem_writeMem_prefix (m : Mem) (off : Nat) {n : Nat} {bs : List UInt8} (hle : bs.length ≤ n) :
    readMem (writeMem m off bs) off n = bs ++ (readMem m off n).drop bs.length := by
  refine List.ext_getElem? fun k => ?_
  by_cases hk : k < n
  · rw [readMem_getElem? hk]
    by_cases hb : k < bs.length
    · rw [writeMem_of_mem m bs (by omega) (by omega), List.getElem?_append_left hb,
        Nat.add_sub_cancel_left]
    · rw [writeMem_of_ge m bs (by omega), List.getElem?_append_right (by omega), List.getElem?_drop,
        readMem_getElem? (by omega)]
      congr 2
      omega
  · have hlen : (bs ++ (readMem m off n).drop bs.length).length = n := by simp; omega
    rw [List.getElem?_eq_none (by simp; omega), List.getElem?_eq_none (by omega)]

lemma readMem_writeMem_disjoint (m : Mem) {off o n : Nat} (bs : List UInt8)
    (h : o + n ≤ off ∨ off + bs.length ≤ o) :
    readMem (writeMem m off bs) o n = readMem m o n := by
  apply readMem_congr
  intro i h1 h2
  rcases h with h | h
  · exact writeMem_of_lt m bs (by omega)
  · exact writeMem_of_ge m bs (by omega)

end Quaint.Bytes
