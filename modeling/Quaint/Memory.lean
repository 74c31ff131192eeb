import Quaint.Effect

/-!
Reading back what is stored.

A store changes the contents of one region and the extent of none, so every place stays where it
is, and what is read at a place afterwards differs only where the two ranges meet.
-/

namespace Quaint.Memory

open Bytes Code Exec Step Control Partial Effect

/-! ### States -/

section States

variable {s s' : State} {l : Loc} {bs : List UInt8} {n off : Nat} {a : Opd}

@[simp] lemma setVm_vm (v : Qvm) : (s.setVm v).vm = v := by simp [State.setVm, State.setVms, State.vm]

@[simp] lemma setVm_cur (v : Qvm) : (s.setVm v).cur = s.cur := rfl

@[simp] lemma setVm_live (v : Qvm) : (s.setVm v).live = s.live := rfl

@[simp] lemma nextIp_vm : (nextIp s).vm = Qvm.advance s.vm := setVm_vm _

@[simp] lemma nextIp_cur : (nextIp s).cur = s.cur := rfl

@[simp] lemma nextIp_live : (nextIp s).live = s.live := rfl

lemma loadOpd_eq_ok : loadOpd s a = .ok bs ↔ ∃ l, s.opdVal a = .ok l ∧ s.load l a.size = some bs := by
  simp only [loadOpd, bind_eq_ok, orUb_eq_ok]

lemma loadOpd_length (h : loadOpd s a = .ok bs) : bs.length = a.size := by
  obtain ⟨l, _, h⟩ := loadOpd_eq_ok.mp h
  exact load_length h

/-- The place of a direct operand is a matter of control. -/
lemma opdVal_congr (h : ctl s' = ctl s) (ha : a.indirect = false) :
    s'.opdVal a = s.opdVal a := by
  have hcur : s'.cur = s.cur := congrArg Ctl.cur h
  have hthis : thread s'.vm = thread s.vm := by
    have hat := congrFun (congrArg Ctl.threads h) s.cur
    rwa [show s'.vm = s'.vms s.cur from congrArg s'.vms hcur]
  have hbp : s'.vm.bp = s.vm.bp := congrArg Thread.bp hthis
  have hlen : s'.vm.temps.length = s.vm.temps.length := congrArg Thread.depth hthis
  have hbase : s'.opdBase a = s.opdBase a := by
    simp only [State.opdBase, hcur, hbp]
    cases a.opd with
    | temp =>
      cases ht' : s'.vm.temps <;> cases ht : s.vm.temps <;> simp [ht', ht] at hlen
      · rfl
      · simp only [hlen]
    | _ => rfl
  simp only [State.opdVal, hbase, ha]
  rfl

/-- A direct temporary. -/
def DirectTemp (a : Opd) : Prop := a.opd = .temp ∧ a.indirect = false

lemma directTemp_of_legal {name isKind : String} {u : PUnit} (h : legalWord .temp name isKind a = .ok u) :
    DirectTemp a := by
  simp only [legalWord, bind_eq_ok, legalIf_eq_ok, beq_iff_eq] at h
  obtain ⟨_, h1, _, _, _, h2, _⟩ := h
  exact ⟨h1, h2⟩

lemma opdVal_temp (ha : DirectTemp a) (h : s.opdVal a = .ok l) :
    ∃ f prev, s.vm.temps = f :: prev ∧ l = .mem (.temp s.cur prev.length) a.off := by
  simp only [State.opdVal, State.opdBase, ha.1, ha.2, bind_eq_ok] at h
  obtain ⟨base, hbase, h⟩ := h
  split at hbase
  · cases hbase
  · rename_i f prev ht
    obtain rfl := Except.ok.inj hbase
    exact ⟨f, prev, ht, (Except.ok.inj h).symm⟩

lemma opdVal_of_temps {f : TmpFrame} {prev : List TmpFrame} (ha : DirectTemp a)
    (h : s.vm.temps = f :: prev) : s.opdVal a = .ok (.mem (.temp s.cur prev.length) a.off) := by
  simp only [State.opdVal, State.opdBase, ha.1, ha.2, h]
  rfl

/-- The running frame of temporaries, as a region. -/
lemma region_temp {f : TmpFrame} {prev : List TmpFrame} (h : s.vm.temps = f :: prev) :
    s.region (.temp s.cur prev.length) = if s.cur ∈ s.live then some (f.size, f.mem) else none := by
  have hat : frameAt (s.vms s.cur).temps prev.length = some f := by
    rw [show (s.vms s.cur).temps = f :: prev from h, frameAt]
    simp
  simp [State.region, hat]

end States

/-! ### Regions -/

section Regions

variable {s : State} {r r' : Region} {m m0 : Mem} {size p : Nat}

lemma frameAt_modify {temps : List TmpFrame} {d d' : Nat} (f : TmpFrame → TmpFrame)
    (hd : d < temps.length) :
    frameAt (temps.modify (temps.length - 1 - d) f) d' =
      if d' = d then (frameAt temps d').map f else frameAt temps d' := by
  simp only [frameAt, List.length_modify]
  by_cases hd' : d' < temps.length
  · rw [if_pos hd', if_pos hd', List.getElem?_modify]
    by_cases heq : d' = d
    · rw [if_pos heq, heq]
      simp
    · have hidx : temps.length - 1 - d ≠ temps.length - 1 - d' := by omega
      simp [heq, hidx]
  · simp [hd']

lemma frameAt_lt {temps : List TmpFrame} {d : Nat} {f : TmpFrame} (h : frameAt temps d = some f) :
    d < temps.length := by
  unfold frameAt at h
  split at h
  · assumption
  · cases h

lemma find_setBlock (heap : List Block) (base base' : Nat) (m : Mem) :
    (heap.map fun b => if b.base = base then { b with mem := m } else b).find?
        (fun b => b.base == base') =
      (heap.find? fun b => b.base == base').map
        fun b => if b.base = base then { b with mem := m } else b := by
  rw [List.find?_map]
  congr 2
  funext b
  simp only [Function.comp_apply]
  split <;> rfl

lemma region_setRegion_self (h : s.region r = some (size, m0)) :
    (s.setRegion r m).region r = some (size, m) := by
  cases r with
  | stack vm =>
    simp only [State.region, Option.ite_none_right_eq_some, Option.some.injEq, Prod.mk.injEq] at h ⊢
    exact ⟨h.1, h.2.1, congrArg Qvm.stack (if_pos rfl)⟩
  | temp vm depth =>
    simp only [State.region, Option.ite_none_right_eq_some, Option.map_eq_some_iff,
      Prod.mk.injEq] at h ⊢
    obtain ⟨hlive, f, hf, hsize, -⟩ := h
    refine ⟨hlive, { f with mem := m }, ?_, hsize, rfl⟩
    simp only [State.setRegion, State.setVms, if_true]
    rw [frameAt_modify _ (frameAt_lt hf), if_pos rfl, hf]
    rfl
  | bss =>
    obtain ⟨rfl, -⟩ := Prod.mk.inj (Option.some.inj h)
    rfl
  | heap base =>
    simp only [State.region, Option.map_eq_some_iff, Prod.mk.injEq] at h
    obtain ⟨b, hb, rfl, -⟩ := h
    have hbase : b.base = base := by simpa using List.find?_some hb
    simp only [State.region, State.setRegion, find_setBlock, hb, Option.map_some, if_pos hbase]

lemma region_setRegion_ne (h : s.region r = some (size, m0)) (hne : r' ≠ r) :
    (s.setRegion r m).region r' = s.region r' := by
  cases r with
  | stack vm =>
    cases r' with
    | stack vm' =>
      have hvm : vm' ≠ vm := fun hvm => hne (hvm ▸ rfl)
      simp [State.region, State.setRegion, State.setVms, hvm]
    | temp vm' depth' =>
      simp only [State.region, State.setRegion, State.setVms]
      split
      · split <;> simp [*]
      · rfl
    | bss => rfl
    | heap base => rfl
  | temp vm depth =>
    simp only [State.region, Option.ite_none_right_eq_some, Option.map_eq_some_iff] at h
    obtain ⟨-, f, hf, -⟩ := h
    cases r' with
    | stack vm' =>
      simp only [State.region, State.setRegion, State.setVms]
      split
      · split <;> simp [*]
      · rfl
    | temp vm' depth' =>
      by_cases hvm : vm' = vm
      · subst hvm
        have hd : depth' ≠ depth := fun hd => hne (hd ▸ rfl)
        simp only [State.region, State.setRegion, State.setVms, if_true]
        rw [frameAt_modify _ (frameAt_lt hf), if_neg hd]
      · simp [State.region, State.setRegion, State.setVms, hvm]
    | bss => rfl
    | heap base => rfl
  | bss =>
    cases r' with
    | bss => exact (hne rfl).elim
    | _ => rfl
  | heap base =>
    cases r' with
    | heap base' =>
      have hbase : base' ≠ base := fun hb => hne (hb ▸ rfl)
      simp only [State.region, State.setRegion, find_setBlock, Option.map_map]
      cases hf : s.heap.find? (fun b => b.base == base') with
      | none => rfl
      | some b =>
        have hb : b.base = base' := by simpa using List.find?_some hf
        simp [hb, hbase]
    | _ => rfl

/-- The bytes read at a place of a region. -/
lemma load_of_place {s : State} {l : Loc} {r : Region} {off n size : Nat} {m : Mem}
    (hp : s.place l = some (r, off)) (hr : s.region r = some (size, m)) :
    s.load l n = if off + n ≤ size then some (readMem m off n) else none := by
  cases l with
  | imm v => cases hp
  | mem r' off' =>
    obtain ⟨rfl, rfl⟩ := Prod.mk.inj (Option.some.inj hp)
    simp only [State.load, State.place, hr]
  | addr p =>
    simp only [State.load, hp, hr]

lemma load_eq_some {s : State} {l : Loc} {n : Nat} {bs : List UInt8} (h : s.load l n = some bs) :
    (∃ v, l = .imm v ∧ n ≤ 8 ∧ bs = leBytes n v) ∨
      ∃ r off size m, s.place l = some (r, off) ∧ s.region r = some (size, m) ∧ off + n ≤ size ∧
        bs = readMem m off n := by
  cases l with
  | imm v =>
    simp only [State.load, Option.ite_none_right_eq_some, Option.some.injEq] at h
    exact .inl ⟨v, rfl, h.1, h.2.symm⟩
  | mem r off =>
    cases hr : s.region r with
    | none => simp [State.load, State.place, hr] at h
    | some x =>
      rw [load_of_place rfl hr, Option.ite_none_right_eq_some, Option.some.injEq] at h
      exact .inr ⟨r, off, x.1, x.2, rfl, hr, h.1, h.2.symm⟩
  | addr p =>
    cases hp : s.place (.addr p) with
    | none => simp [State.load, hp] at h
    | some y =>
      cases hr : s.region y.1 with
      | none => simp [State.load, hp, hr] at h
      | some x =>
        rw [load_of_place hp hr, Option.ite_none_right_eq_some, Option.some.injEq] at h
        exact .inr ⟨y.1, y.2, x.1, x.2, rfl, hr, h.1, h.2.symm⟩

/-- A shorter load reads the first bytes. -/
lemma load_take {s : State} {l : Loc} {m n : Nat} {bs : List UInt8} (h : s.load l m = some bs)
    (hn : n ≤ m) : s.load l n = some (bs.take n) := by
  rcases load_eq_some h with ⟨v, rfl, hm, rfl⟩ | ⟨r, off, size, mem, hp, hr, hm, rfl⟩
  · rw [leBytes_take hn]
    exact if_pos (hn.trans hm)
  · rw [load_of_place hp hr, readMem_take hn, if_pos (by omega)]

/-- The state with the running quaint at another instruction. -/
def setIp (s : State) (n : Nat) : State := s.setVm { s.vm with ip := n }

lemma place_setIp (n : Nat) (l : Loc) : (setIp s n).place l = s.place l := by
  cases l with
  | imm v => rfl
  | mem r off => rfl
  | addr p =>
    refine locate_congr rfl rfl rfl (locateVm_congr fun vm => ?_)
    simp only [setIp, State.setVm, State.setVms]
    split
    · rename_i h
      rw [h]
      rfl
    · rfl

lemma region_setIp (n : Nat) (r : Region) : (setIp s n).region r = s.region r := by
  cases r with
  | stack vm =>
    simp only [State.region, setIp, State.setVm, State.setVms]
    by_cases h : vm = s.cur
    · simp [h, State.vm]
    · simp [h]
  | temp vm depth =>
    simp only [State.region, setIp, State.setVm, State.setVms]
    by_cases h : vm = s.cur
    · simp [h, State.vm]
    · simp [h]
  | bss => rfl
  | heap base => rfl

lemma load_setIp (k : Nat) (l : Loc) (n : Nat) : (setIp s k).load l n = s.load l n := by
  simp only [State.load, place_setIp, region_setIp]

/-- Where the running quaint stands changes no operand. -/
lemma loadOpd_setIp (n : Nat) (a : Opd) : loadOpd (setIp s n) a = loadOpd s a := by
  have hbase : (setIp s n).opdBase a = s.opdBase a := by
    simp only [State.opdBase, setIp, setVm_vm, setVm_cur]
  simp only [loadOpd, State.opdVal, hbase, State.loadNat, load_setIp]

/-- Moving on changes no operand. -/
lemma loadOpd_nextIp (a : Opd) : loadOpd (nextIp s) a = loadOpd s a := loadOpd_setIp _ a

end Regions

/-! ### Loads after a store -/

section Loads

variable {s s' : State} {l d : Loc} {bs old : List UInt8} {n k off : Nat}

lemma store_stack {c : Nat} (h : s.store (.mem (.stack c) off) bs = some s') :
    c ∈ s.live ∧ off + bs.length ≤ stackSize ∧
      s' = s.setVms c { s.vms c with stack := writeMem (s.vms c).stack off bs } := by
  obtain ⟨r, off', size, m, hp, hr, hle, rfl⟩ := store_eq_some.mp h
  obtain ⟨rfl, rfl⟩ : Region.stack c = r ∧ off = off' := by simpa [State.place] using hp
  simp only [State.region, Option.ite_none_right_eq_some, Option.some.injEq, Prod.mk.injEq] at hr
  obtain ⟨hlive, rfl, rfl⟩ := hr
  exact ⟨hlive, hle, rfl⟩

/-- What can be read can be stored to, and what is read then begins with what was stored. -/
lemma store_of_load (bs : List UInt8) {r : Region} (hp : s.place l = some (r, off))
    (hl : s.load l n = some old) (hle : bs.length ≤ n) :
    ∃ s', s.store l bs = some s' ∧ s'.load l n = some (bs ++ old.drop bs.length) := by
  rcases load_eq_some hl with ⟨v, rfl, -, -⟩ | ⟨r', off', size, m, hp', hr, hn, rfl⟩
  · cases hp
  · have hst : s.store l bs = some (s.setRegion r' (writeMem m off' bs)) :=
      store_eq_some.mpr ⟨r', off', size, m, hp', hr, by omega, rfl⟩
    refine ⟨_, hst, ?_⟩
    rw [load_of_place ((place_setRegion l).trans hp') (region_setRegion_self hr), if_pos hn,
      readMem_writeMem_prefix m off' hle]

/-- The byte of index `k` at the place `a` is one of the `n` bytes at the place `d`. -/
def Meets (s : State) (d a : Loc) (n k : Nat) : Prop :=
  ∃ r off off', s.place d = some (r, off) ∧ s.place a = some (r, off') ∧ off ≤ off' + k ∧
    off' + k < off + n

/-- What can be read can be read after a store; a byte differs only where it was stored to. -/
lemma load_store (h : s.store d bs = some s') (hl : s.load l n = some old) :
    ∃ new, s'.load l n = some new ∧ ∀ k, k < n → ¬ Meets s d l bs.length k → new[k]? = old[k]? := by
  obtain ⟨r, off, size, m, hd, hr, hle, rfl⟩ := store_eq_some.mp h
  rcases load_eq_some hl with ⟨v, rfl, hn, rfl⟩ | ⟨r', off', size', m', hp, hr', hn, rfl⟩
  · exact ⟨_, if_pos hn, fun _ _ _ => rfl⟩
  · by_cases heq : r' = r
    · subst heq
      obtain ⟨rfl, rfl⟩ := Prod.mk.inj (Option.some.inj (hr.symm.trans hr'))
      refine ⟨_, (load_of_place ((place_setRegion l).trans hp) (region_setRegion_self hr)).trans
        (if_pos hn), fun k hk hmeets => ?_⟩
      rw [readMem_getElem? hk, readMem_getElem? hk]
      have hout : off' + k < off ∨ off + bs.length ≤ off' + k := by
        by_contra hin
        exact hmeets ⟨_, off, off', hd, hp, by omega, by omega⟩
      rcases hout with hout | hout
      · rw [writeMem_of_lt m bs hout]
      · rw [writeMem_of_ge m bs hout]
    · exact ⟨_, (load_of_place ((place_setRegion l).trans hp)
        ((region_setRegion_ne hr heq).trans hr')).trans (if_pos hn), fun _ _ _ => rfl⟩

/-- What was stored at a direct temporary is read back from it. -/
lemma loadOpd_storeOpd {a : Opd} (ha : DirectTemp a) (hlen : bs.length = a.size)
    (h : storeOpd s a bs = .ok s') : loadOpd s' a = .ok bs := by
  have hctl := ctl_storeOpd h
  simp only [storeOpd, bind_eq_ok, orUb_eq_ok] at h
  obtain ⟨l, hl, h⟩ := h
  obtain ⟨r, off, size, m, hp, hr, hle, rfl⟩ := store_eq_some.mp h
  refine loadOpd_eq_ok.mpr ⟨l, (opdVal_congr hctl ha.2).trans hl, ?_⟩
  rw [load_of_place ((place_setRegion l).trans hp) (region_setRegion_self hr), ← hlen, if_pos hle,
    readMem_writeMem_same]

/-- A byte that was stored to is the one that was stored there. -/
lemma load_store_meets (h : s.store d bs = some s') (hl : s.load l n = some old) {r : Region}
    {off off' : Nat} (hd : s.place d = some (r, off)) (hp : s.place l = some (r, off')) (hk : k < n)
    (hlo : off ≤ off' + k) (hhi : off' + k < off + bs.length) :
    ∃ new, s'.load l n = some new ∧ new[k]? = bs[off' + k - off]? := by
  obtain ⟨r0, off0, size, m, hd0, hr, hle, rfl⟩ := store_eq_some.mp h
  obtain ⟨rfl, rfl⟩ := Prod.mk.inj (Option.some.inj (hd.symm.trans hd0))
  rcases load_eq_some hl with ⟨v, rfl, -, -⟩ | ⟨r1, off1, size1, m1, hp1, hr1, hn, rfl⟩
  · cases hp
  · obtain ⟨rfl, rfl⟩ := Prod.mk.inj (Option.some.inj (hp.symm.trans hp1))
    obtain ⟨rfl, rfl⟩ := Prod.mk.inj (Option.some.inj (hr.symm.trans hr1))
    refine ⟨_, (load_of_place ((place_setRegion l).trans hp) (region_setRegion_self hr)).trans
      (if_pos hn), ?_⟩
    rw [readMem_getElem? hk, writeMem_of_mem m bs hlo hhi]

end Loads

end Quaint.Memory
