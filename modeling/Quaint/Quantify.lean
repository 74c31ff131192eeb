import Quaint.Exec
import Quaint.Layout
import Quaint.Placement

/-!
What `type_quantify` computes.

The members of a struct are placed serially, and the end is rounded up, so its size is a multiple of
its alignment. The size of a union is that of its largest member and is not rounded up: it is a
multiple of the alignment only if that member has a size that suits all of them.
-/

namespace Quaint.Quantify

open Types Code Codegen Exec Layout Placement

/-! ### Alignments -/

section Alignment

lemma intSize_dvd (k : IntT) : k.size ∣ 8 := by cases k <;> decide

mutual
/-- The alignment of a type of the language is that of a machine word of 1, 2, 4 or 8 bytes. -/
lemma alignment_dvd : ∀ t : Ty, t.valid = true → t.alignment ∣ 8
  | .void _, h => by cases h
  | .int k _, _ | .enum _ _ k, _ => intSize_dvd k
  | .vptr _, _ | .ptr _ _, _ | .quaint _ _, _ | .fptr _ _ _, _ => Nat.dvd_refl 8
  | .struct _ ms, h | .union _ ms, h => by
    simp only [Ty.valid, Bool.and_eq_true] at h
    cases ms with
    | nil => exact absurd h.1.1.2 (by decide)
    | cons n t rest =>
      have hv := h.1.2
      simp only [Fields.valid, Bool.and_eq_true] at hv
      have ht := alignment_dvd t hv.1
      have hpos := Nat.pos_of_dvd_of_pos ht (by decide)
      rw [Ty.alignment, Fields.greatestAlignment, if_pos hpos]
      exact greatestAlignment_dvd rest _ hv.2 ht
lemma greatestAlignment_dvd : ∀ (ms : Fields) (g : Nat), ms.valid = true → g ∣ 8 →
    ms.greatestAlignment g ∣ 8
  | .nil, _, _, hg => hg
  | .cons _ t rest, g, h, hg => by
    simp only [Fields.valid, Bool.and_eq_true] at h
    rw [Fields.greatestAlignment]
    refine greatestAlignment_dvd rest _ h.2 ?_
    split
    · exact alignment_dvd t h.1
    · exact hg
end

lemma alignment_pos {t : Ty} (h : t.valid = true) : 0 < t.alignment :=
  Nat.pos_of_dvd_of_pos (alignment_dvd t h) (by decide)

/-- Wrapping at `2 ^ 64` keeps every alignment. -/
lemma alignment_dvd_wrap {t : Ty} {n : Nat} (h : t.valid = true) :
    t.alignment ∣ wrap64 n ↔ t.alignment ∣ n :=
  Nat.dvd_mod_iff (Nat.dvd_trans (alignment_dvd t h) (by decide))

lemma fields_valid {ps : Fields} (h : ps.valid = true) : ∀ v ∈ ps.toList, v.2.valid = true := by
  match ps with
  | .nil => simp [Fields.toList]
  | .cons n t rest =>
    simp only [Fields.valid, Bool.and_eq_true] at h
    intro v hv
    rcases List.mem_cons.mp hv with rfl | hv
    · exact h.1
    · exact fields_valid h.2 v hv

end Alignment

/-! ### Members -/

section Members

variable {ms : Fields} {t m : Ty} {i o : Nat}

def alignments (ms : Fields) : List ℕ := ms.toList.map fun m => m.2.alignment
def sizes (ms : Fields) : List ℕ := ms.toList.map fun m => m.2.bytes

lemma offsets_length (ms : Fields) (off : Nat) : (ms.offsets off).length = ms.toList.length := by
  match ms with
  | .nil => rfl
  | .cons _ _ rest =>
    rw [Fields.offsets, Fields.toList, List.length_cons, List.length_cons, offsets_length rest]

lemma toList_ne_nil (h : ms.nonempty = true) : ms.toList ≠ [] := by
  cases ms with
  | nil => cases h
  | cons _ _ _ => exact List.cons_ne_nil _ _

lemma if_gt_eq_max (x g : Nat) : (if x > g then x else g) = max g x := by
  split <;> omega

lemma greatestAlignment_eq (ms : Fields) (g : Nat) :
    ms.greatestAlignment g = (alignments ms).foldl max g := by
  match ms with
  | .nil => rfl
  | .cons _ t rest =>
    rw [Fields.greatestAlignment, greatestAlignment_eq rest, if_gt_eq_max]
    rfl

lemma greatestSize_eq (ms : Fields) (g : Nat) : ms.greatestSize g = (sizes ms).foldl max g := by
  match ms with
  | .nil => rfl
  | .cons _ t rest =>
    rw [Fields.greatestSize, greatestSize_eq rest, if_gt_eq_max, Nat.mul_comm t.size]
    rfl

/-- **The alignment is the greatest of the members'.** -/
theorem greatestAlignment_greatest (h : ms.nonempty = true) :
    IsGreatest {a | a ∈ alignments ms} (ms.greatestAlignment 0) := by
  rw [greatestAlignment_eq]
  exact foldl_max_greatest (by simpa [alignments] using toList_ne_nil h)

/-- **The size of a union is the greatest of the members'.** -/
theorem greatestSize_greatest (h : ms.nonempty = true) :
    IsGreatest {n | n ∈ sizes ms} (ms.greatestSize 0) := by
  rw [greatestSize_eq]
  exact foldl_max_greatest (by simpa [sizes] using toList_ne_nil h)

lemma memberAt_eq_some :
    memberAt t i = some (m, o) ↔ (∃ n, t.members.toList[i]? = some (n, m)) ∧ t.offsets[i]? = some o := by
  unfold memberAt
  constructor
  · intro h
    split at h
    · rename_i p off hp hoff
      cases h
      exact ⟨⟨p.1, hp⟩, hoff⟩
    · cases h
  · rintro ⟨⟨n, hn⟩, ho⟩
    rw [hn, ho]

end Members

/-! ### Structs -/

section Structs

variable {ms : Fields} {c i o off : Nat} {m : Ty}

lemma alignUp_least {n k : Nat} (hk : 0 < k) : IsLeast (Multiples k n) (alignUp n k) := by
  have hdvd : k ∣ alignUp n k := Nat.dvd_of_mod_eq_zero (alignUp_mod hk)
  refine ⟨⟨hdvd, le_alignUp n k⟩, fun x ⟨hx, hle⟩ => ?_⟩
  by_contra hlt
  have hstep := Nat.le_of_dvd (by omega) (Nat.dvd_sub hdvd hx)
  have := alignUp_lt (n := n) hk
  omega

/-- The members as items to be placed. -/
def items (ms : Fields) : List (ℕ × ℕ) := ms.toList.map fun m => (m.2.alignment, m.2.count * m.2.size)

/-- **The members of a struct are placed serially.** -/
theorem packed_members {ms : Fields} {off : Nat} (hv : ms.valid = true) (h : structFits ms off = true) :
    Packed off (items ms) (ms.offsets off) (ms.endOffset off) := by
  match ms with
  | .nil => exact .nil
  | .cons n t rest =>
    obtain ⟨hfirst, hnext⟩ := struct_step h
    simp only [structFits, Bool.and_eq_true] at h
    simp only [Fields.valid, Bool.and_eq_true] at hv
    rw [Fields.offsets, Fields.endOffset, hnext, hfirst, bytes_of_fits h.1]
    exact .cons (alignUp_least (alignment_pos hv.1)) (packed_members hv.2 h.2)

/-- **How a struct is laid out.** The members are the ones that `gen_bexp_memb` reads. -/
structure StructLaid (t : Ty) : Prop where
  placed : ∀ i < t.members.length, (memberAt t i).isSome
  aligned : ∀ i m o, memberAt t i = some (m, o) → m.alignment ∣ o
  ordered : ∀ i j m m' o o', i < j → memberAt t i = some (m, o) → memberAt t j = some (m', o') →
    o + m.count * m.size ≤ o'
  padding : ∀ i m m' o o', memberAt t i = some (m, o) → memberAt t (i + 1) = some (m', o') →
    o' < o + m.count * m.size + m'.alignment
  inside : ∀ i m o, memberAt t i = some (m, o) → o + m.count * m.size ≤ t.size
  alignment : IsGreatest {a | ∃ i m o, memberAt t i = some (m, o) ∧ m.alignment = a} t.alignment
  size : ∀ m o, memberAt t (t.members.length - 1) = some (m, o) →
    IsLeast (Multiples t.alignment (o + m.count * m.size)) t.size

lemma item_of_member (h : memberAt (.struct c ms) i = some (m, o)) :
    (items ms)[i]? = some (m.alignment, m.count * m.size) ∧ (ms.offsets 0)[i]? = some o ∧
      ∃ n, (n, m) ∈ ms.toList := by
  obtain ⟨⟨n, hn⟩, ho⟩ := memberAt_eq_some.mp h
  refine ⟨?_, ho, n, List.mem_of_getElem? hn⟩
  rw [items, List.getElem?_map, show ms.toList[i]? = some (n, m) from hn]
  rfl

/-- Every member has an offset. -/
lemma member_of_mem {n : Sym} (hm : ms.toList[i]? = some (n, m)) :
    ∃ o, memberAt (.struct c ms) i = some (m, o) := by
  have hi : i < (ms.offsets 0).length := by
    rw [offsets_length]
    exact (List.getElem?_eq_some_iff.mp hm).1
  exact ⟨_, memberAt_eq_some.mpr ⟨⟨n, hm⟩, List.getElem?_eq_getElem hi⟩⟩

/-- **The layout of a struct.** -/
theorem struct_laid (hv : (Ty.struct c ms).valid = true) (h : fits (.struct 1 ms) = true) :
    StructLaid (.struct c ms) := by
  have hpos := alignment_pos hv
  simp only [fits, Bool.and_eq_true, decide_eq_true_eq] at h
  simp only [Ty.valid, Bool.and_eq_true] at hv
  obtain ⟨⟨⟨_, hne⟩, hms⟩, _⟩ := hv
  have hp := packed_members hms h.1.1
  have hsize : (Ty.struct c ms).size = alignUp (ms.endOffset 0) (ms.greatestAlignment 0) :=
    wrap64_of_lt h.1.2
  have hgreat := greatestAlignment_greatest hne
  constructor
  case placed =>
    intro i hi
    obtain ⟨o, ho⟩ := member_of_mem (c := c) (List.getElem?_eq_getElem (toList_length ms ▸ hi))
    exact Option.isSome_iff_exists.mpr ⟨_, ho⟩
  case aligned =>
    intro i m o hm
    obtain ⟨hi, ho, _⟩ := item_of_member hm
    exact hp.aligned hi ho
  case ordered =>
    intro i j m m' o o' hij hm hm'
    obtain ⟨hi, ho, _⟩ := item_of_member hm
    obtain ⟨hj, ho', _⟩ := item_of_member hm'
    exact hp.ordered hij hi ho hj ho'
  case padding =>
    intro i m m' o o' hm hm'
    obtain ⟨hi, ho, _⟩ := item_of_member hm
    obtain ⟨hj, ho', n, hmem⟩ := item_of_member hm'
    exact hp.padding (alignment_pos (fields_valid hms _ hmem)) hi ho hj ho'
  case inside =>
    intro i m o hm
    obtain ⟨hi, ho, _⟩ := item_of_member hm
    have hin := (hp.inside hi ho).2
    have hup := le_alignUp (ms.endOffset 0) (ms.greatestAlignment 0)
    omega
  case alignment =>
    constructor
    · obtain ⟨m, hmem, ha⟩ := List.mem_map.mp hgreat.1
      obtain ⟨i, hi⟩ := List.getElem?_of_mem hmem
      obtain ⟨o, ho⟩ := member_of_mem (c := c) hi
      exact ⟨i, _, o, ho, ha⟩
    · rintro a ⟨i, m, o, hm, rfl⟩
      obtain ⟨_, _, n, hmem⟩ := item_of_member hm
      exact hgreat.2 (List.mem_map.mpr ⟨_, hmem, rfl⟩)
  case size =>
    intro m o hm
    obtain ⟨hi, ho, n, hmem⟩ := item_of_member hm
    have hlen : 0 < ms.length := by
      rw [← toList_length]
      exact List.length_pos_of_mem hmem
    have hlast : o + m.count * m.size = ms.endOffset 0 := by
      refine hp.last hi ho ?_
      rw [items, List.length_map, toList_length]
      exact Nat.sub_add_cancel hlen
    rw [hsize, hlast]
    exact alignUp_least hpos

/-- `struct(a: u8, b: struct(c: u32, d: u8[3])[2], e: union(f: u16, g: u8[3]))` -/
def record : Ty :=
  .struct 1 <| .cons ⟨[97], 1⟩ (.int .u8 1) <|
    .cons ⟨[98], 2⟩
      (.struct 2 (.cons ⟨[99], 3⟩ (.int .u32 1) (.cons ⟨[100], 4⟩ (.int .u8 3) .nil))) <|
    .cons ⟨[101], 5⟩
      (.union 1 (.cons ⟨[102], 6⟩ (.int .u16 1) (.cons ⟨[103], 7⟩ (.int .u8 3) .nil))) .nil

theorem record_laid : StructLaid record ∧ record.offsets = [0, 4, 20] ∧ record.size = 24 :=
  ⟨struct_laid (by decide) (by decide), by decide, by decide⟩

end Structs

/-! ### Arrays -/

section Arrays

variable {ms : Fields} {c base idx n off : Nat} {t : Ty}

/-- The address that the code of `gen_aexp` computes for an element of this type. -/
def elementAt (elem : Ty) (base idx : Nat) : Option Nat :=
  (arithOp .mul false 8 idx elem.bytes).bind (arithOp .add false 8 base)

lemma elementAt_eq (elem : Ty) (base idx : Nat) :
    elementAt elem base idx = some (wrap64 (base + wrap64 (idx * elem.bytes))) := by
  have hmul : arithOp .mul false 8 idx elem.bytes = some (wrap64 (idx * elem.bytes)) :=
    congrArg some (Int.toNat_natCast _)
  have hadd (k : Nat) : arithOp .add false 8 base k = some (wrap64 (base + k)) :=
    congrArg some (Int.toNat_natCast _)
  rw [elementAt, hmul, Option.bind_some, hadd]

/-- The elements of an array of this type are aligned if the first one is. -/
structure Strided (t : Ty) : Prop where
  size : t.alignment ∣ t.size
  element : ∀ base idx addr, t.alignment ∣ base → elementAt (t.setCount 1) base idx = some addr →
    t.alignment ∣ addr

/-- One of the largest members has a size that suits the alignment of each. -/
def Suited (ms : Fields) : Prop :=
  ∃ m ∈ ms.toList, (∀ m' ∈ ms.toList, m'.2.bytes ≤ m.2.bytes) ∧
    ∀ m' ∈ ms.toList, m'.2.alignment ∣ m.2.bytes

/-- Alignments are powers of two, so the greatest is a multiple of each. -/
lemma dvd_of_le {a b : Nat} (ha : a ∣ 8) (hb : b ∣ 8) (h : a ≤ b) : a ∣ b := by
  have hall : ∀ a < 9, ∀ b < 9, a ∣ 8 → b ∣ 8 → a ≤ b → a ∣ b := by decide
  have hlt {n : Nat} (hn : n ∣ 8) : n < 9 := Nat.lt_succ_of_le (Nat.le_of_dvd (by decide) hn)
  exact hall a (hlt ha) b (hlt hb) ha hb h

lemma setCount_size (t : Ty) (n : Nat) : (t.setCount n).size = t.size := by cases t <;> rfl

/-- A size that is a multiple of the alignment keeps the elements aligned. -/
lemma strided_of_dvd (hv : t.valid = true) (h : t.alignment ∣ t.size) : Strided t := by
  refine ⟨h, fun base idx addr hb haddr => ?_⟩
  rw [elementAt_eq] at haddr
  cases haddr
  rw [alignment_dvd_wrap hv]
  refine Nat.dvd_add hb ((alignment_dvd_wrap hv).mpr (Nat.dvd_mul_left_of_dvd ?_ idx))
  rw [Ty.bytes, alignment_dvd_wrap hv, setCount_size]
  exact Nat.dvd_mul_left_of_dvd h _

lemma struct_strided (hv : (Ty.struct c ms).valid = true) : (Ty.struct c ms).alignment ∣ (Ty.struct c ms).size :=
  (alignment_dvd_wrap hv).mpr (Nat.dvd_of_mod_eq_zero (alignUp_mod (alignment_pos hv)))

lemma union_strided (hv : (Ty.union c ms).valid = true) :
    (Ty.union c ms).alignment ∣ (Ty.union c ms).size ↔ Suited ms := by
  have hd := alignment_dvd _ hv
  simp only [Ty.valid, Bool.and_eq_true] at hv
  obtain ⟨⟨⟨_, hne⟩, hms⟩, _⟩ := hv
  have ha := greatestAlignment_greatest hne
  have hs := greatestSize_greatest hne
  obtain ⟨m, hm, hsize⟩ := List.mem_map.mp hs.1
  have hle : ∀ m' ∈ ms.toList, m'.2.bytes ≤ ms.greatestSize 0 := fun m' hm' =>
    hs.2 (List.mem_map.mpr ⟨m', hm', rfl⟩)
  constructor
  · intro h
    refine ⟨m, hm, fun m' hm' => hsize ▸ hle m' hm', fun m' hm' => ?_⟩
    -- each alignment divides the greatest
    have hdvd := dvd_of_le (alignment_dvd _ (fields_valid hms _ hm')) hd
      (ha.2 (List.mem_map.mpr ⟨m', hm', rfl⟩))
    exact hsize ▸ Nat.dvd_trans hdvd h
  · rintro ⟨m', hm', hgreat, hdvd⟩
    obtain ⟨m'', hm'', halign⟩ := List.mem_map.mp ha.1
    have heq : m'.2.bytes = ms.greatestSize 0 :=
      Nat.le_antisymm (hle m' hm') (hsize ▸ hgreat m hm)
    have := hdvd m'' hm''
    rw [halign, heq] at this
    exact this

/-- **When the elements of an array stay aligned**: always, but for unions none of whose largest
members has a size that suits all of them. -/
theorem strided_iff (hv : t.valid = true) : Strided t ↔ ∀ c ms, t = .union c ms → Suited ms := by
  constructor
  · rintro h c ms rfl
    exact (union_strided hv).mp h.size
  · intro h
    refine strided_of_dvd hv ?_
    cases t with
    | void => cases hv
    | struct c ms => exact struct_strided hv
    | union c ms => exact (union_strided hv).mpr (h c ms rfl)
    | _ => exact Nat.dvd_refl _

theorem record_strided : Strided record := (strided_iff (by decide)).mpr nofun

/-- `union(a: u8[5], b: u32)` -/
def overlay : Ty := .union 1 (.cons ⟨[97], 1⟩ (.int .u8 5) (.cons ⟨[98], 2⟩ (.int .u32 1) .nil))

theorem overlay_unstrided : ¬ ∀ t : Ty, t.valid = true → Strided t := by
  intro h
  have := (h overlay (by decide)).size
  exact absurd this (by decide)

end Arrays

end Quaint.Quantify
