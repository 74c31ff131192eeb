import Quaint.Memory
import Quaint.Activation

/-!
Where the regions of memory lie.

What the allocator returns is apart from all that is in use, so at every point of a run the
regions share no address, and an address inside a region is found in that region.
-/

namespace Quaint.Addresses

open Relation Bytes Code Exec Step Partial Effect Memory Transition Activation

/-! ### Regions in use -/

/-- The region is in use, and takes so many addresses from `base` on. -/
def Occupies (s : State) : Region → Nat → Nat → Prop
  | .bss, base, size => base = s.bssBase ∧ size = s.bssSize
  | .heap k, base, size => base = k ∧ ∃ b ∈ s.heap, b.base = k ∧ b.size = size
  | .stack vm, base, size => vm ∈ s.live ∧ base = vm + qvmSize ∧ size = stackSize
  | .temp vm d, base, size =>
    vm ∈ s.live ∧ ∃ f, frameAt (s.vms vm).temps d = some f ∧ f.base = base ∧ f.size = size

/-- Two ranges of addresses share none. -/
def Apart (b n b' n' : Nat) : Prop := n = 0 ∨ n' = 0 ∨ b + n ≤ b' ∨ b' + n' ≤ b

lemma Apart.symm {b n b' n' : Nat} (h : Apart b n b' n') : Apart b' n' b n := by
  unfold Apart at *
  omega

lemma Apart.mono {b n b' n' m' : Nat} (h : Apart b n b' n') (hle : m' ≤ n') : Apart b n b' m' := by
  unfold Apart at *
  omega

/-- The regions in use share no address. -/
def Laid (s : State) : Prop :=
  ∀ r b n r' b' n', Occupies s r b n → Occupies s r' b' n' →
    (r = r' ∧ b = b' ∧ n = n') ∨ Apart b n b' n'

/-! ### Looking up an address -/

section Lookup

variable {s : State} {r : Region} {p b n off size vm d : Nat} {m : Mem} {f : TmpFrame}
  {temps : List TmpFrame} {vms : List Nat}

lemma frameAt_cons : frameAt (f :: temps) d =
    if d = temps.length then some f else frameAt temps d := by
  unfold frameAt
  rcases Nat.lt_trichotomy d temps.length with h | h | h
  · have hidx : temps.length + 1 - 1 - d = temps.length - 1 - d + 1 := by omega
    rw [if_pos (by simp; omega), if_neg (by omega), if_pos h, List.length_cons, hidx,
      List.getElem?_cons_succ]
  · subst h
    simp
  · rw [if_neg (by simp; omega), if_neg (by omega), if_neg (by omega)]

lemma locateFrame_some (h : locateFrame vm p temps = some (r, off)) :
    ∃ d f, r = .temp vm d ∧ frameAt temps d = some f ∧ f.base ≤ p ∧ p < f.base + f.size ∧
      off = p - f.base := by
  induction temps with
  | nil => cases h
  | cons f fs ih =>
    rw [locateFrame] at h
    split at h
    · rename_i hin
      cases h
      exact ⟨_, f, rfl, by rw [frameAt_cons, if_pos rfl], hin.1, hin.2, rfl⟩
    · obtain ⟨d, g, hr, hat, hg⟩ := ih h
      refine ⟨d, g, hr, ?_, hg⟩
      rw [frameAt_cons, if_neg (frameAt_lt hat).ne, hat]

lemma locateFrame_isSome (hat : frameAt temps d = some f) (hlo : f.base ≤ p) (hhi : p < f.base + f.size) :
    (locateFrame vm p temps).isSome := by
  induction temps with
  | nil => simp [frameAt] at hat
  | cons g fs ih =>
    rw [locateFrame]
    split
    · rfl
    · rename_i hout
      rw [frameAt_cons] at hat
      split at hat
      · cases hat
        exact absurd ⟨hlo, hhi⟩ hout
      · exact ih hat

lemma locateVm_some (h : locateVm s p vms = some (r, off)) (hvms : vms ⊆ s.live) :
    ∃ b n, Occupies s r b n ∧ b ≤ p ∧ p < b + n ∧ off = p - b := by
  induction vms with
  | nil => cases h
  | cons vm vms ih =>
    have hlive : vm ∈ s.live := hvms List.mem_cons_self
    rw [locateVm] at h
    split at h
    · rename_i hin
      cases h
      exact ⟨_, _, ⟨hlive, rfl, rfl⟩, hin.1, hin.2, rfl⟩
    · split at h
      · rename_i hframe
        cases h
        obtain ⟨d, f, rfl, hat, hlo, hhi, hoff⟩ := locateFrame_some hframe
        exact ⟨_, _, ⟨hlive, f, hat, rfl, rfl⟩, hlo, hhi, hoff⟩
      · exact ih h fun x hx => hvms (List.mem_cons_of_mem _ hx)

lemma locateVm_isSome (hvm : vm ∈ vms)
    (hin : (vm + qvmSize ≤ p ∧ p < vm + qvmSize + stackSize) ∨
      ∃ d f, frameAt (s.vms vm).temps d = some f ∧ f.base ≤ p ∧ p < f.base + f.size) :
    (locateVm s p vms).isSome := by
  induction vms with
  | nil => cases hvm
  | cons v vms ih =>
    rw [locateVm]
    split
    · rfl
    · rename_i hout
      split
      · rfl
      · rename_i hnone
        rcases List.mem_cons.mp hvm with rfl | hvm
        · rcases hin with hin | ⟨d, f, hat, hlo, hhi⟩
          · exact absurd hin hout
          · have hsome : (locateFrame vm p (s.vms vm).temps).isSome = true :=
              locateFrame_isSome hat hlo hhi
            rw [hnone] at hsome
            cases hsome
        · exact ih hvm

/-- Where an address is found, the region takes it. -/
lemma locate_some (h : s.locate p = some (r, off)) :
    ∃ b n, Occupies s r b n ∧ b ≤ p ∧ p < b + n ∧ off = p - b := by
  unfold State.locate at h
  split at h
  · rename_i hin
    cases h
    exact ⟨_, _, ⟨rfl, rfl⟩, hin.1, hin.2, rfl⟩
  · split at h
    · rename_i blk hblk
      cases h
      have hin := List.find?_some hblk
      simp only [decide_eq_true_eq] at hin
      exact ⟨_, _, ⟨rfl, blk, List.mem_of_find?_eq_some hblk, rfl, rfl⟩, hin.1, hin.2, rfl⟩
    · exact locateVm_some h fun _ hx => hx

lemma locate_isSome (ho : Occupies s r b n) (hlo : b ≤ p) (hhi : p < b + n) :
    (s.locate p).isSome := by
  unfold State.locate
  split
  · rfl
  · rename_i hbss
    split
    · rfl
    · rename_i hheap
      cases r with
      | bss =>
        obtain ⟨rfl, rfl⟩ := ho
        exact absurd ⟨hlo, hhi⟩ hbss
      | heap k =>
        obtain ⟨rfl, blk, hblk, rfl, rfl⟩ := ho
        have hnot := List.find?_eq_none.mp hheap blk hblk
        simp only [decide_eq_true_eq] at hnot
        exact absurd ⟨hlo, hhi⟩ hnot
      | stack vm =>
        obtain ⟨hlive, rfl, rfl⟩ := ho
        exact locateVm_isSome hlive (.inl ⟨hlo, hhi⟩)
      | temp vm d =>
        obtain ⟨hlive, f, hat, rfl, rfl⟩ := ho
        exact locateVm_isSome hlive (.inr ⟨d, f, hat, hlo, hhi⟩)

/-- **An address inside a region is found in that region.** -/
theorem locate_of_occupies (h : Laid s) (ho : Occupies s r b n) (hlo : b ≤ p) (hhi : p < b + n) :
    s.locate p = some (r, p - b) := by
  obtain ⟨⟨r', off⟩, hloc⟩ := Option.isSome_iff_exists.mp (locate_isSome ho hlo hhi)
  obtain ⟨b', n', ho', hlo', hhi', rfl⟩ := locate_some hloc
  rcases h r b n r' b' n' ho ho' with ⟨rfl, rfl, rfl⟩ | hapart
  · exact hloc
  · unfold Apart at hapart
    omega

/-- The address of a byte of a region leads back to it. -/
lemma locate_addrOf (h : Laid s) (hr : s.region r = some (size, m)) (hoff : off < size)
    (ha : s.addrOf (.mem r off) = some p) : s.locate p = some (r, off) := by
  have found : ∀ b, Occupies s r b size → p = b + off → s.locate p = some (r, off) := by
    rintro b ho rfl
    rw [locate_of_occupies h ho (Nat.le_add_right _ _) (by omega), Nat.add_sub_cancel_left]
  cases r with
  | bss =>
    cases hr
    exact found _ ⟨rfl, rfl⟩ (Option.some.inj ha).symm
  | heap k =>
    simp only [State.region, Option.map_eq_some_iff, Prod.mk.injEq] at hr
    obtain ⟨blk, hblk, rfl, -⟩ := hr
    have hbase : blk.base = k := by simpa using List.find?_some hblk
    exact found _ ⟨rfl, blk, List.mem_of_find?_eq_some hblk, hbase, rfl⟩ (Option.some.inj ha).symm
  | stack vm =>
    simp only [State.region, Option.ite_none_right_eq_some, Option.some.injEq, Prod.mk.injEq] at hr
    obtain ⟨hlive, rfl, -⟩ := hr
    exact found _ ⟨hlive, rfl, rfl⟩ (Option.some.inj ha).symm
  | temp vm d =>
    simp only [State.region, Option.ite_none_right_eq_some, Option.map_eq_some_iff,
      Prod.mk.injEq] at hr
    obtain ⟨hlive, f, hat, rfl, -⟩ := hr
    simp only [State.addrOf, hat, Option.map_some, Option.some.injEq] at ha
    exact found _ ⟨hlive, f, hat, rfl, rfl⟩ ha.symm

end Lookup

/-! ### What a step adds -/

/-- What is in use afterwards was in use before. -/
def Less (s s' : State) : Prop := ∀ r b n, Occupies s' r b n → Occupies s r b n

section Steps

variable {s s' s1 : State} {a base size : Nat} {v : Qvm} {P : Region → Nat → Nat → Prop} {o : Obj}
  {inp : Inp}

lemma Less.refl (s : State) : Less s s := fun _ _ _ h => h

lemma Less.trans (h : Less s s1) (h' : Less s1 s') : Less s s' :=
  fun r b n ho => h r b n (h' r b n ho)

lemma Laid.less (h : Laid s) (hl : Less s s') : Laid s' :=
  fun r b n r' b' n' ho ho' => h r b n r' b' n' (hl r b n ho) (hl r' b' n' ho')

/-- One new region, apart from those in use. -/
lemma Laid.grow (h : Laid s) {q : Region} {b0 n0 : Nat}
    (hnew : ∀ r b n, Occupies s r b n → Apart b0 n0 b n)
    (hg : ∀ r b n, Occupies s' r b n → Occupies s r b n ∨ (r = q ∧ b = b0 ∧ n = n0)) : Laid s' := by
  intro r b n r' b' n' ho ho'
  rcases hg r b n ho with ho | ⟨rfl, rfl, rfl⟩ <;> rcases hg r' b' n' ho' with ho' | ⟨rfl, rfl, rfl⟩
  · exact h r b n r' b' n' ho ho'
  · exact .inr (hnew r b n ho).symm
  · exact .inr (hnew r' b' n' ho')
  · exact .inl ⟨rfl, rfl, rfl⟩

lemma less_setVms (h : ∀ d f, frameAt v.temps d = some f → frameAt (s.vms a).temps d = some f) :
    Less s (s.setVms a v) := by
  intro r b n ho
  cases r with
  | temp vm d =>
    obtain ⟨hlive, f, hat, hf⟩ := ho
    refine ⟨hlive, f, ?_, hf⟩
    simp only [State.setVms] at hat
    split at hat
    · rename_i heq
      subst heq
      exact h d f hat
    · exact hat
  | _ => exact ho

lemma less_setVm (h : v.temps = s.vm.temps) : Less s (s.setVm v) :=
  less_setVms fun d f hat => by rwa [h] at hat

lemma less_nextIp : Less s (nextIp s) := less_setVm rfl

lemma less_setCur : Less s (s.setCur a) := by
  intro r b n ho
  cases r <;> exact ho

lemma less_release : Less s (s.release a) := by
  intro r b n ho
  cases r with
  | stack vm => exact ⟨List.mem_of_mem_erase ho.1, ho.2⟩
  | temp vm d => exact ⟨List.mem_of_mem_erase ho.1, ho.2⟩
  | _ => exact ho

lemma less_activate : Less s (State.activate s a) :=
  (less_setVms (a := a) (v := { s.vms a with parent := s.cur }) fun _ _ hat => hat).trans less_setCur

lemma less_splitTo : Less s (splitTo s a) :=
  (less_setVms (a := a) (v := Qvm.advance (Qvm.notWaiting (s.vms a))) fun _ _ hat => hat).trans
    less_setCur

lemma less_setRegion {r : Region} {m : Mem} : Less s (s.setRegion r m) := by
  cases r with
  | stack vm => exact less_setVms fun _ _ hat => hat
  | bss => exact Less.refl s
  | heap k =>
    intro r b n ho
    cases r with
    | heap k' =>
      obtain ⟨rfl, blk, hblk, hbase, rfl⟩ := ho
      obtain ⟨blk', hblk', rfl⟩ := List.mem_map.mp hblk
      refine ⟨rfl, blk', hblk', ?_, ?_⟩
      · rw [← hbase]
        split <;> rfl
      · split <;> rfl
    | _ => exact ho
  | temp vm depth =>
    intro r b n ho
    cases r with
    | temp vm' d =>
      obtain ⟨hlive, f, hat, rfl, rfl⟩ := ho
      simp only [State.setRegion, State.setVms] at hat
      split at hat
      · rename_i heq
        subst heq
        by_cases hd : depth < (s.vms vm').temps.length
        · rw [frameAt_modify _ hd] at hat
          split at hat
          · obtain ⟨g, hg, rfl⟩ := Option.map_eq_some_iff.mp hat
            exact ⟨hlive, g, hg, rfl, rfl⟩
          · exact ⟨hlive, f, hat, rfl, rfl⟩
        · -- the oldest frame is written where there is no such depth, which no region is
          have hzero : (s.vms vm').temps.length - 1 - depth = 0 := by omega
          rw [hzero] at hat
          cases ht : (s.vms vm').temps with
          | nil => rw [ht] at hat; simp [frameAt] at hat
          | cons g fs =>
            rw [ht, List.modify_zero_cons, frameAt_cons] at hat
            refine ⟨hlive, ?_⟩
            rw [ht, frameAt_cons]
            split at hat
            · rename_i hd
              cases hat
              exact ⟨g, if_pos hd, rfl, rfl⟩
            · rename_i hd
              exact ⟨f, (if_neg hd).trans hat, rfl, rfl⟩
      · exact ⟨hlive, f, hat, rfl, rfl⟩
    | stack vm' => exact ho
    | bss => exact ho
    | heap k => exact ho

lemma less_wrote (h : Wrote P s s') : Less s s' := by
  induction h with
  | refl => exact Less.refl s
  | write _ _ _ _ ih => exact ih.trans less_setRegion

lemma less_pass {s' : State} (hbss : s'.bssBase = s.bssBase ∧ s'.bssSize = s.bssSize)
    (hheap : ∀ b ∈ s'.heap, b ∈ s.heap) (hlive : ∀ x ∈ s'.live, x ∈ s.live) (hvms : s'.vms = s.vms) :
    Less s s' := by
  intro r b n ho
  cases r with
  | bss => exact ⟨ho.1.trans hbss.1, ho.2.trans hbss.2⟩
  | heap k =>
    obtain ⟨rfl, blk, hblk, h⟩ := ho
    exact ⟨rfl, blk, hheap _ hblk, h⟩
  | stack vm => exact ⟨hlive _ ho.1, ho.2⟩
  | temp vm d =>
    obtain ⟨hl, h⟩ := ho
    rw [hvms] at h
    exact ⟨hlive _ hl, h⟩

/-! ### New blocks -/

/-- What the allocator returns is apart from all that is in use. -/
lemma apart_of_fresh (h : fresh s base size = true) {r : Region} {b n : Nat}
    (ho : Occupies s r b n) : Apart base size b n := by
  simp only [fresh, apart, Bool.and_eq_true, Bool.or_eq_true, decide_eq_true_eq,
    List.all_eq_true] at h
  obtain ⟨⟨⟨-, hbss⟩, hheap⟩, hvms⟩ := h
  unfold Apart
  cases r with
  | bss =>
    obtain ⟨rfl, rfl⟩ := ho
    omega
  | heap k =>
    obtain ⟨rfl, blk, hblk, rfl, rfl⟩ := ho
    have := hheap blk hblk
    omega
  | stack vm =>
    obtain ⟨hlive, rfl, rfl⟩ := ho
    have := (hvms vm hlive).1
    omega
  | temp vm d =>
    obtain ⟨hlive, f, hat, rfl, rfl⟩ := ho
    have hmem : f ∈ (s.vms vm).temps := by
      unfold frameAt at hat
      split at hat
      · exact List.mem_of_getElem? hat
      · cases hat
    have := (hvms vm hlive).2 f hmem
    omega

/-- A part of a new block is apart from all that is in use, too. -/
lemma apart_of_fresh_part {k n0 : Nat} (h : fresh s base size = true) (hk : k + n0 ≤ size)
    {r : Region} {b n : Nat} (ho : Occupies s r b n) : Apart (base + k) n0 b n := by
  have := apart_of_fresh h ho
  unfold Apart at *
  omega

/-- A new frame of temporaries. -/
lemma laid_frame {f : TmpFrame} (h : Laid s) (ht : v.temps = f :: s.vm.temps)
    (hnew : ∀ r b n, Occupies s r b n → Apart f.base f.size b n) : Laid (s.setVm v) := by
  refine h.grow (q := .temp s.cur s.vm.temps.length) hnew fun r b n ho => ?_
  cases r with
  | temp vm d =>
    obtain ⟨hlive, g, hat, rfl, rfl⟩ := ho
    simp only [State.setVm, State.setVms] at hat
    split at hat
    · rename_i heq
      subst heq
      rw [ht, frameAt_cons] at hat
      split at hat
      · rename_i hd
        cases hat
        exact .inr ⟨by rw [hd], rfl, rfl⟩
      · exact .inl ⟨hlive, g, hat, rfl, rfl⟩
    · exact .inl ⟨hlive, g, hat, rfl, rfl⟩
  | _ => exact .inl ho

/-- A new quaint. -/
lemma laid_addVm (h : Laid s) (hf : fresh s a (qvmSize + stackSize) = true) (ht : v.temps = []) :
    Laid (State.addVm s a v) := by
  refine h.grow (q := .stack a) (fun r b n => apart_of_fresh_part hf (Nat.le_refl _))
    fun r b n ho => ?_
  cases r with
  | stack vm =>
    obtain ⟨hlive, rfl, rfl⟩ := ho
    rcases List.mem_cons.mp hlive with rfl | hlive
    · exact .inr ⟨rfl, rfl, rfl⟩
    · exact .inl ⟨hlive, rfl, rfl⟩
  | temp vm d =>
    obtain ⟨hlive, g, hat, hg⟩ := ho
    simp only [State.addVm, State.setVms] at hat
    split at hat
    · simp [ht, frameAt] at hat
    · rename_i hne
      rcases List.mem_cons.mp hlive with hva | hlive
      · exact absurd hva hne
      · exact .inl ⟨hlive, g, hat, hg⟩
  | _ => exact .inl ho

lemma laid_mallocBlock {m : Mem} (h : Laid s) : Laid (mallocBlock inp s size m).1 := by
  unfold mallocBlock
  split
  · rename_i a ha
    refine h.grow (q := .heap a) (fun r b n => apart_of_fresh (alloc_fresh ha)) fun r b n ho => ?_
    cases r with
    | heap k =>
      obtain ⟨rfl, blk, hblk, hbase, rfl⟩ := ho
      rcases List.mem_cons.mp hblk with rfl | hblk
      · exact .inr ⟨by rw [← hbase], hbase.symm, rfl⟩
      · exact .inl ⟨rfl, blk, hblk, hbase, rfl⟩
    | _ => exact .inl ho
  · exact h

/-! ### Instructions -/

lemma laid_insnCjmp {jnz : Bool} {c : Opd} {loc : Nat} (h : Laid s)
    (hx : insnCjmp s jnz c loc = .ok s') : Laid s' := by
  simp only [insnCjmp, bind_eq_ok] at hx
  obtain ⟨_, _, _, _, hx⟩ := hx
  split at hx
  · obtain rfl := pure_eq_ok.mp hx
    exact h.less (less_setVm (by rfl))
  · obtain rfl := pure_eq_ok.mp hx
    exact h.less less_nextIp

lemma laid_insnPushr {d ssp : Opd} (h : Laid s) (hx : insnPushr s d ssp = .ok s') : Laid s' := by
  simp only [insnPushr, bind_eq_ok, State.storeNat, orUb_eq_ok] at hx
  obtain ⟨_, _, _, _, _, _, _, _, s1, h1, s2, h2, hx⟩ := hx
  have hl := ((h.less (less_wrote (wrote_store h1))).less (less_wrote (wrote_store h2)))
  exact (hl.less (less_setVm (by rfl))).less (less_wrote (wrote_storeWord hx))

lemma laid_insnPush {d : Opd} (h : Laid s) (hx : insnPush s d = .ok s') : Laid s' := by
  simp only [insnPush, bind_eq_ok, pure_eq_ok] at hx
  obtain ⟨_, _, _, _, _, _, l, _, s1, h1, _, _, rfl⟩ := hx
  exact (h.less (less_wrote (wrote_memcpy h1))).less (less_setVm (by rfl))

lemma laid_insnCall {loc bp : Opd} (h : Laid s) (hx : insnCall s loc bp = .ok s') : Laid s' := by
  simp only [insnCall, bind_eq_ok, pure_eq_ok] at hx
  obtain ⟨_, _, _, _, _, _, ip, _, b, _, rfl⟩ := hx
  exact h.less (less_setVm (by rfl))

lemma laid_insnIncsp {d t : Opd} (h : Laid s) (hx : insnIncsp inp s d t = .ok s') : Laid s' := by
  simp only [insnIncsp, bind_eq_ok, orNomem_eq_ok, pure_eq_ok, ubUnless_eq_ok, decide_eq_true_eq] at hx
  obtain ⟨_, _, _, _, _, _, _, _, _, _, base, hbase, _, hfit, rfl⟩ := hx
  rw [Nat.mod_eq_of_lt hfit] at hbase
  exact laid_frame h rfl fun r b n => apart_of_fresh_part (alloc_fresh hbase) (Nat.le_refl _)

lemma wrote_copyValue {dst : Option Opd} {q : Nat} (hx : copyValue s dst q = .ok s') :
    Wrote (fun _ _ _ => True) s s' := by
  cases dst with
  | none =>
    obtain rfl := pure_eq_ok.mp hx
    exact .refl
  | some d =>
    simp only [copyValue, bind_eq_ok] at hx
    obtain ⟨l, _, hx⟩ := hx
    exact (wrote_memcpy hx).mono fun _ _ _ _ => trivial

lemma wrote_zeroValue {dst : Option Opd} (hx : zeroValue s dst = .ok s') :
    Wrote (fun _ _ _ => True) s s' := by
  cases dst with
  | none =>
    obtain rfl := pure_eq_ok.mp hx
    exact .refl
  | some d => exact (wrote_storeOpd hx).mono fun _ _ _ _ => trivial

lemma laid_insnRte {dst : Option Opd} {src : Opd} (h : Laid s) (hx : insnRte s dst src = .ok s') :
    Laid s' := by
  obtain ⟨q, -, ⟨-, s1, h1, rfl⟩ | ⟨-, -, -, s1, s2, h1, h2, rfl⟩ | ⟨-, -, -, rfl⟩⟩ := insnRte_cases hx
  · exact (h.less (less_wrote (wrote_zeroValue h1))).less less_nextIp
  · have hl := (h.less (less_wrote (wrote_copyValue h1))).less (less_release (a := q))
    exact (hl.less (less_wrote (wrote_storeWord h2))).less less_nextIp
  · exact h.less less_activate

lemma laid_startWaiting {q func id : Nat} {noblock units : Bool} {timeout : Option Nat} (h : Laid s)
    (hx : startWaiting inp s q func id noblock units timeout = .ok s') : Laid s' := by
  unfold startWaiting at hx
  split at hx
  · simp only [bind_eq_ok, pure_eq_ok] at hx
    obtain ⟨now, -, rfl⟩ := hx
    have hnow : Less s { s with now := now } :=
      less_pass ⟨rfl, rfl⟩ (fun _ h => h) (fun _ h => h) rfl
    exact ((h.less hnow).less (less_setVm (by rfl))).less less_activate
  · split at hx
    · obtain rfl := pure_eq_ok.mp hx
      exact (h.less (less_setVm (by rfl))).less less_activate
    · obtain rfl := pure_eq_ok.mp hx
      exact (h.less (less_setVm (by rfl))).less less_activate

lemma laid_insnWait {quaint timeout : Opd} {func id : Nat} {noblock units hasTimeout : Bool}
    (h : Laid s) (hx : insnWait inp s quaint timeout func id noblock units hasTimeout = .ok s') :
    Laid s' := by
  obtain ⟨q, -, ⟨-, rfl⟩ | ⟨-, -, -, rfl⟩ | ⟨-, -, -, t, -, ⟨-, rfl⟩ | ⟨-, hx⟩⟩⟩ := insnWait_cases hx
  · exact h.less less_nextIp
  · exact h.less less_nextIp
  · exact h.less less_nextIp
  · exact laid_startWaiting h hx

lemma laid_insnQnt {dst loc ssp : Opd} (h : Laid s) (hx : insnQnt inp s dst loc ssp = .ok s') :
    Laid s' := by
  simp only [insnQnt, bind_eq_ok, orNomem_eq_ok, orUb_eq_ok, pure_eq_ok] at hx
  obtain ⟨_, _, _, _, _, _, _, _, _, _, _, _, l, _, sp, _, a, ha, _, _, args, _, _, _, s1, h1, rfl⟩ := hx
  exact ((laid_addVm h (alloc_fresh ha) rfl).less (less_wrote (wrote_storeWord h1))).less (less_setVm (by rfl))

lemma laid_insnQntv {dst val : Opd} (h : Laid s) (hx : insnQntv inp s dst val = .ok s') :
    Laid s' := by
  simp only [insnQntv, bind_eq_ok, orNomem_eq_ok] at hx
  obtain ⟨_, _, _, _, _, _, _, _, bs, _, a, ha, _, _, h1⟩ := hx
  exact (laid_addVm h (alloc_fresh ha) rfl).less (less_wrote (wrote_storeWord h1))

/-! ### Returning -/

lemma laid_handleReturn {signd : Bool} {retval : List UInt8} (h : Laid s)
    (hx : handleReturn o s signd retval = .ok s') : Laid s' := by
  unfold handleReturn at hx
  split at hx
  · simp only [returnToParent, bind_eq_ok, orUb_eq_ok] at hx
    obtain ⟨_, _, i, _, hx⟩ := hx
    cases i with
    | rtev dst src =>
      simp only [bind_eq_ok, pure_eq_ok] at hx
      obtain ⟨_, _, _, _, s1, h1, s2, h2, rfl⟩ := hx
      have hl := (h.less less_setCur).less (less_wrote (wrote_storeOpd h1))
      exact ((hl.less less_release).less (less_wrote (wrote_storeWord h2))).less less_nextIp
    | rte src =>
      simp only [bind_eq_ok, pure_eq_ok] at hx
      obtain ⟨_, _, s1, h1, rfl⟩ := hx
      exact (((h.less less_setCur).less less_release).less (less_wrote (wrote_storeWord h1))).less
        less_nextIp
    | wait quaint timeout func id noblock units hasTimeout =>
      simp only [bind_eq_ok, pure_eq_ok] at hx
      obtain ⟨_, _, rfl⟩ := hx
      have hended : Less s (s.setVm (Qvm.ended s.vm retval)) :=
        less_setVms fun d f hat => by simp [Qvm.ended, frameAt] at hat
      exact (((h.less hended).less less_setCur).less (less_setVm (by rfl))).less less_nextIp
    | _ => cases hx
  · split at hx
    · simp only [returnFromMain, bind_eq_ok] at hx
      obtain ⟨saved, _, hx⟩ := hx
      have hmain : Less s (s.setVm (Qvm.restore s.vm saved [])) :=
        less_setVms fun d f hat => by simp [Qvm.restore, frameAt] at hat
      split at hx
      · split at hx
        · cases hx
        · obtain rfl := pure_eq_ok.mp hx
          exact h.less hmain
      · simp only [ne_eq, not_true_eq_false, if_false, pure_eq_ok] at hx
        exact hx ▸ h.less hmain
    · simp only [returnToCaller, bind_eq_ok] at hx
      obtain ⟨_, _, saved, _, _, _, _, _, hx⟩ := hx
      have htail : Less s (s.setVm (Qvm.restore s.vm saved s.vm.temps.tail)) :=
        less_setVms fun d f hat => by
          cases ht : s.vm.temps with
          | nil =>
            simp only [Qvm.restore, ht] at hat
            cases hat
          | cons g fs =>
            simp only [Qvm.restore, ht, List.tail_cons] at hat
            rw [show (s.vms s.cur).temps = g :: fs from ht, frameAt_cons, if_neg (frameAt_lt hat).ne,
              hat]
      split at hx
      · obtain rfl := pure_eq_ok.mp hx
        exact (h.less htail).less less_nextIp
      · simp only [bind_eq_ok, orUb_eq_ok] at hx
        obtain ⟨i, _, hx⟩ := hx
        cases i with
        | callv val loc bp =>
          simp only [bind_eq_ok, pure_eq_ok] at hx
          obtain ⟨_, _, s1, h1, rfl⟩ := hx
          exact ((h.less htail).less (less_wrote (wrote_storeOpd h1))).less less_nextIp
        | _ => cases hx

lemma laid_insnRet {val : Option Opd} {size : Opd} (h : Laid s) (hx : insnRet o s val size = .ok s') :
    Laid s' := by
  simp only [insnRet, bind_eq_ok] at hx
  obtain ⟨s1, h1, hx⟩ := hx
  obtain ⟨-, rfl⟩ := leaveFrame_eq_ok h1
  have hl : Laid (s.setVm { s.vm with sp := s.vm.sp - size.off }) := h.less (less_setVm (by rfl))
  cases val with
  | none => exact laid_handleReturn hl hx
  | some v =>
    simp only [bind_eq_ok] at hx
    obtain ⟨_, _, hx⟩ := hx
    exact laid_handleReturn hl hx

/-! ### Built-in functions -/

lemma laid_freeBlock {p : Nat} (h : Laid s) (hx : freeBlock s p = some s') : Laid s' := by
  unfold freeBlock at hx
  split at hx
  · obtain rfl := Option.some.inj hx
    exact h
  · split at hx
    · obtain rfl := Option.some.inj hx
      exact h.less (less_pass ⟨rfl, rfl⟩ (fun _ hb => (List.mem_filter.mp hb).1) (fun _ h => h) rfl)
    · split at hx
      · obtain rfl := Option.some.inj hx
        exact h.less less_release
      · cases hx

lemma laid_reallocBlock {old : Nat} (h : Laid s) (hx : reallocBlock inp s old size = some s') : Laid s' := by
  unfold reallocBlock at hx
  split at hx
  · obtain rfl := Option.some.inj hx
    exact laid_mallocBlock h
  · obtain ⟨b, -, rfl⟩ := Option.map_eq_some_iff.mp hx
    have hfree : Laid { s with heap := s.heap.filter fun b => b.base != old } :=
      h.less (less_pass ⟨rfl, rfl⟩ (fun _ hb => (List.mem_filter.mp hb).1) (fun _ h => h) rfl)
    dsimp only
    split
    · exact hfree
    · split
      · exact h
      · exact laid_mallocBlock hfree

lemma laid_popParams {n : Nat} (h : Laid s) : Laid (popParams s n) := h.less (less_setVm (by rfl))

lemma laid_printNum {signd : Bool} (h : Laid s) (hx : printNum s signd size = .ok s') : Laid s' := by
  simp only [printNum, bind_eq_ok, pure_eq_ok] at hx
  obtain ⟨_, _, a, _, rfl⟩ := hx
  exact (laid_popParams h).less (less_pass ⟨rfl, rfl⟩ (fun _ h => h) (fun _ h => h) rfl)

lemma laid_bfunBody {r : State × List UInt8} (h : Laid s) (hx : bfunBody inp s = .ok r) : Laid r.1 := by
  have pass : ∀ s', s'.bssBase = s.bssBase ∧ s'.bssSize = s.bssSize → (∀ b ∈ s'.heap, b ∈ s.heap) →
      s'.live = s.live → s'.vms = s.vms → Laid s' := fun s' hbss hheap hlive hvms =>
    h.less (less_pass hbss hheap (fun x hx => hlive ▸ hx) hvms)
  unfold bfunBody at hx
  split at hx
  · cases hx
  · simp only [bind_eq_ok, pure_eq_ok] at hx
    obtain ⟨now, _, rfl⟩ := hx
    exact pass _ ⟨rfl, rfl⟩ (fun _ h => h) rfl rfl
  · simp only [bind_eq_ok, pure_eq_ok] at hx
    obtain ⟨_, _, size, _, rfl⟩ := hx
    exact laid_popParams (laid_mallocBlock h)
  · simp only [bind_eq_ok, pure_eq_ok] at hx
    obtain ⟨_, _, size, _, rfl⟩ := hx
    exact laid_popParams (laid_mallocBlock h)
  · simp only [bind_eq_ok, orUb_eq_ok, pure_eq_ok] at hx
    obtain ⟨_, _, old, _, size, _, s1, hs1, rfl⟩ := hx
    exact laid_popParams (laid_reallocBlock h hs1)
  · simp only [bind_eq_ok, orUb_eq_ok, pure_eq_ok] at hx
    obtain ⟨_, _, p, _, s1, hs1, rfl⟩ := hx
    exact laid_popParams (laid_freeBlock h hs1)
  · simp only [bind_eq_ok, pure_eq_ok] at hx
    obtain ⟨_, _, p, _, str, _, rfl⟩ := hx
    exact (laid_popParams h).less (less_pass ⟨rfl, rfl⟩ (fun _ h => h) (fun _ h => h) rfl)
  iterate 8
    · simp only [bind_eq_ok, pure_eq_ok] at hx
      obtain ⟨s1, h1, rfl⟩ := hx
      exact laid_printNum h h1
  · obtain rfl := pure_eq_ok.mp hx
    exact pass _ ⟨rfl, rfl⟩ (fun _ h => h) rfl rfl
  · simp only [bind_eq_ok] at hx
    obtain ⟨_, _, a, _, hx⟩ := hx
    cases hx
  · obtain rfl := pure_eq_ok.mp hx
    exact h

lemma laid_insnBfun (h : Laid s) (hx : insnBfun inp o s = .ok s') : Laid s' := by
  simp only [insnBfun, bind_eq_ok] at hx
  obtain ⟨_, _, _, _, _, _, r, hr, base, _, hx⟩ := hx
  -- the frame has no byte
  have hframe : Laid (leaveBfun inp r.1 base) :=
    laid_frame (laid_bfunBody h hr) rfl fun _ _ _ _ => .inl rfl
  exact laid_handleReturn hframe hx

/-! ### Runs -/

lemma laid_data {x : M State} (h : Laid s) (hx : Returns x (Wrote P s)) (hs : nextIp <$> x = .ok s') :
    Laid s' := by
  obtain ⟨s1, h1, rfl⟩ := map_eq_ok.mp hs
  exact (h.less (less_wrote (hx s1 h1))).less less_nextIp

lemma laid_execInsn {i : Insn} (h : Laid s) (hx : execInsn inp o s i = .ok s') : Laid s' := by
  have next : ∀ {x : M State}, (∀ s1, x = .ok s1 → Laid s1) → nextIp <$> x = .ok s' → Laid s' := by
    intro x hl hx
    obtain ⟨s1, h1, rfl⟩ := map_eq_ok.mp hx
    exact (hl s1 h1).less less_nextIp
  cases i with
  | nop =>
    obtain rfl := pure_eq_ok.mp hx
    exact h.less less_nextIp
  | mov d a => exact laid_data h (insnMov_wrote s d a) hx
  | cast d a => exact laid_data h (insnCast_wrote s d a) hx
  | arith op d a b => exact laid_data h (insnBinArith_wrote s d a b op) hx
  | equ neq d a b => exact laid_data h (insnEquNeq_wrote s d a b neq) hx
  | cmp op d a b => exact laid_data h (insnBinLogic_wrote s d a b op) hx
  | not d a => exact laid_data h (insnNot_wrote s d a) hx
  | neg d a => exact laid_data h (insnNeg_wrote s d a) hx
  | bneg d a => exact laid_data h (insnBneg_wrote s d a) hx
  | oz d a => exact laid_data h (insnOz_wrote s d a) hx
  | inc dec d => exact laid_data h (insnIncDec_wrote s d dec) hx
  | incp dec d a => exact laid_data h (insnIncpDecp_wrote s d a dec) hx
  | jz jnz c loc => exact laid_insnCjmp h hx
  | jmp loc =>
    obtain rfl := pure_eq_ok.mp hx
    exact h.less (less_setVm (by rfl))
  | pushr v ssp => exact next (fun _ => laid_insnPushr h) hx
  | push v => exact next (fun _ => laid_insnPush h) hx
  | call loc bp => exact laid_insnCall h hx
  | callv v loc bp => exact laid_insnCall h hx
  | incsp a t => exact next (fun _ => laid_insnIncsp h) hx
  | ret size =>
    have hr : insnRet o s none size = .ok s' := hx
    exact laid_insnRet h hr
  | retv v size =>
    have hr : insnRet o s (some v) size = .ok s' := hx
    exact laid_insnRet h hr
  | ref d a => exact laid_data h (insnRef_wrote s d a) hx
  | drf d a => exact laid_data h (insnDrf_wrote s d a) hx
  | rte a => exact laid_insnRte h hx
  | rtev d a => exact laid_insnRte h hx
  | qat d q func id => exact laid_data h (insnQat_wrote s d q func id) hx
  | wait q t func id noblock units hasTimeout => exact laid_insnWait h hx
  | wlab func id =>
    obtain rfl := pure_eq_ok.mp hx
    exact (h.less (less_setVm (by rfl))).less less_nextIp
  | getsp d => exact laid_data h (insnGetsp_wrote s d) hx
  | qnt d loc sp => exact next (fun _ => laid_insnQnt h) hx
  | qntv d v => exact next (fun _ => laid_insnQntv h) hx
  | noint =>
    obtain rfl := pure_eq_ok.mp hx
    exact (h.less (less_setVm (by rfl))).less less_nextIp
  | int =>
    obtain rfl := pure_eq_ok.mp hx
    exact (h.less (less_setVm (by rfl))).less less_nextIp
  | bfun => exact laid_insnBfun h hx

lemma laid_split (h : Laid s) (hx : checkAndEventuallySplitVms inp s = .ok s') : Laid s' := by
  have pass : ∀ n c, Laid { s with cycles := c, now := n } := fun n c =>
    h.less (less_pass ⟨rfl, rfl⟩ (fun _ h => h) (fun _ h => h) rfl)
  unfold checkAndEventuallySplitVms at hx
  split at hx
  · obtain rfl := pure_eq_ok.mp hx
    exact pass s.now _
  · rename_i s1 hs1
    obtain ⟨now, rfl⟩ := readClock_eq_some hs1
    simp only [bind_eq_ok] at hx
    obtain ⟨_, _, r, _, hx⟩ := hx
    cases r with
    | none =>
      obtain rfl := pure_eq_ok.mp hx
      exact pass now _
    | some a =>
      obtain rfl := pure_eq_ok.mp hx
      exact (pass now _).less less_splitTo

lemma laid_next (h : Laid s) (hn : Next o s s') : Laid s' := by
  obtain ⟨inp, hs⟩ := hn
  obtain ⟨i, s1, hr⟩ := step_eq_ok.mp hs
  exact laid_split (laid_execInsn h hr.exec) hr.split

lemma laid_init {b : Nat} (hab : Apart (a + qvmSize) stackSize b (o.dataSize + o.strings.length)) :
    Laid (initState o a b) := by
  replace hab : Apart (a + qvmSize) stackSize b (initState o a b).bssSize :=
    hab.mono (Nat.mod_le _ _)
  intro r x n r' x' n' ho ho'
  have stack : ∀ vm x n, Occupies (initState o a b) (.stack vm) x n →
      vm = a ∧ x = a + qvmSize ∧ n = stackSize := by
    rintro vm x n ⟨hlive, rfl, rfl⟩
    obtain rfl := List.mem_singleton.mp hlive
    exact ⟨rfl, rfl, rfl⟩
  have temps : ∀ vm d x n, ¬ Occupies (initState o a b) (.temp vm d) x n := by
    rintro vm d x n ⟨hlive, f, hat, -⟩
    obtain rfl := List.mem_singleton.mp hlive
    simp [initState, Qvm.zero, frameAt] at hat
  have heap : ∀ k x n, ¬ Occupies (initState o a b) (.heap k) x n := by
    rintro k x n ⟨-, blk, hblk, -⟩
    cases hblk
  cases r with
  | heap k => exact (heap _ _ _ ho).elim
  | temp vm d => exact (temps _ _ _ _ ho).elim
  | bss =>
    obtain ⟨rfl, rfl⟩ := ho
    cases r' with
    | heap k => exact (heap _ _ _ ho').elim
    | temp vm d => exact (temps _ _ _ _ ho').elim
    | bss => exact .inl ⟨rfl, ho'.1.symm, ho'.2.symm⟩
    | stack vm =>
      obtain ⟨rfl, rfl, rfl⟩ := stack _ _ _ ho'
      exact .inr hab.symm
  | stack vm =>
    obtain ⟨rfl, rfl, rfl⟩ := stack _ _ _ ho
    cases r' with
    | heap k => exact (heap _ _ _ ho').elim
    | temp vm d => exact (temps _ _ _ _ ho').elim
    | bss =>
      obtain ⟨rfl, rfl⟩ := ho'
      exact .inr hab
    | stack vm =>
      obtain ⟨rfl, rfl, rfl⟩ := stack _ _ _ ho'
      exact .inl ⟨rfl, rfl, rfl⟩

/-- **At every point of a run the regions in use share no address.** -/
theorem laid_of_run {b : Nat} (hab : Apart (a + qvmSize) stackSize b (o.dataSize + o.strings.length))
    (run : ReflTransGen (Next o) (initState o a b) s) : Laid s :=
  invariant_of_run (fun _ _ => laid_next) (laid_init hab) run

end Steps

end Quaint.Addresses
