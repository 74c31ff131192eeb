import Quaint.Emit

/-!
The generator emits what `Emit` says: an induction over the tree, from a small calculus of
the generator's monad.
-/

namespace Quaint.Generated

open Types Ast Code Codegen Emit

/-! ### The monad -/

section Monad

variable {α β : Type} {st st' : GenSt} {a : α} {b : β}

lemma bind_ok {x : GenM α} {f : α → GenM β} :
    (x >>= f) st = .ok (b, st') ↔ ∃ a st1, x st = .ok (a, st1) ∧ f a st1 = .ok (b, st') := by
  change (Except.bind (x st) fun p => f p.1 p.2) = _ ↔ _
  rcases x st with e | ⟨a, st1⟩ <;> simp [Except.bind]

lemma pure_ok {a' : α} : (pure a : GenM α) st = .ok (a', st') ↔ a = a' ∧ st = st' := by
  change Except.ok (a, st) = _ ↔ _
  simp

lemma map_ok {x : GenM α} {f : α → β} :
    (f <$> x) st = .ok (b, st') ↔ ∃ a, x st = .ok (a, st') ∧ f a = b := by
  rw [map_eq_pure_bind, bind_ok]
  constructor
  · rintro ⟨a, st1, hx, hf⟩
    obtain ⟨hab, rfl⟩ := pure_ok.mp hf
    exact ⟨a, hx, hab⟩
  · rintro ⟨a, hx, hab⟩
    exact ⟨a, st', hx, pure_ok.mpr ⟨hab, rfl⟩⟩

lemma throw_ok {e : GenErr} : (throw e : GenM α) st ≠ .ok (a, st') := by
  change Except.error e ≠ _
  simp

lemma ite_ok {c : Prop} [Decidable c] {x y : GenM α} :
    (if c then x else y) st = .ok (a, st') ↔
      (c ∧ x st = .ok (a, st')) ∨ (¬c ∧ y st = .ok (a, st')) := by
  by_cases h : c <;> simp [h]

end Monad

/-! ### The state -/

section State

variable {st st' : GenSt}

def emitted (st : GenSt) (i : Insn) : GenSt := { st with insns := st.insns ++ [i] }

def allocated (st : GenSt) (size : Nat) : GenSt :=
  let off := wrap64 (wrap64 (alignUp st.tempOff (if size ≤ 8 then size else 8)) + size)
  { st with
    tempOff := off
    tempOffPeak := max st.tempOffPeak off
    tempReach := max st.tempReach (alignUp st.tempOff (if size ≤ 8 then size else 8) + size) }

def tempAt (st : GenSt) (signd : Bool) (size : Nat) : Opd :=
  ⟨.temp, signd, false, wrap64 (alignUp st.tempOff (if size ≤ 8 then size else 8)), size⟩

def patched (st : GenSt) (pos : Nat) (f : Insn → Insn) : GenSt :=
  { st with insns := st.insns.modify pos f }

def pushed (st : GenSt) (s : List UInt8) : GenSt := { st with strings := st.strings ++ s ++ [0] }

def atOff (st : GenSt) (off : Nat) : GenSt := { st with tempOff := off }

lemma getIp_ok {n : Nat} : getIp st = .ok (n, st') ↔ st.insns.length = n ∧ st = st' := by
  simp [getIp]

lemma emit_ok {i : Insn} {u : PUnit} : emit i st = .ok (u, st') ↔ st' = emitted st i := by
  simp [emit, emitted, eq_comm]

lemma getTempOff_ok {n : Nat} : getTempOff st = .ok (n, st') ↔ st.tempOff = n ∧ st = st' := by
  simp [getTempOff]

lemma setTempOff_ok {n : Nat} {u : PUnit} :
    setTempOff n st = .ok (u, st') ↔ st' = atOff st n := by
  simp [setTempOff, atOff, eq_comm]

lemma opdTemp_ok {signd : Bool} {size : Nat} {o : Opd} :
    opdTemp signd size st = .ok (o, st') ↔
      size ≠ 0 ∧ o = tempAt st signd size ∧ st' = allocated st size := by
  by_cases h : size = 0 <;> simp [opdTemp, tempAt, allocated, h, eq_comm]

lemma patch_ok {pos : Nat} {f : Insn → Insn} {u : PUnit} :
    patch pos f st = .ok (u, st') ↔ st' = patched st pos f := by
  simp [patch, patched, eq_comm]

lemma patchJmp_ok {pos : Nat} {u : PUnit} :
    patchJmp pos st = .ok (u, st') ↔ st' = patched st pos (Insn.setLoc st.insns.length) := by
  simp [patchJmp, bind_ok, getIp_ok, patch_ok]

lemma pushString_ok {s : List UInt8} {u : PUnit} :
    pushString s st = .ok (u, st') ↔ st' = pushed st s := by
  simp [pushString, pushed, eq_comm]

lemma operand_ok {g : GenM (Option Opd)} {o : Opd} :
    operand g st = .ok (o, st') ↔ g st = .ok (some o, st') := by
  rw [operand, bind_ok]
  constructor
  · rintro ⟨r, st1, hg, hr⟩
    rcases r with _ | r
    · exact absurd hr throw_ok
    · obtain ⟨rfl, rfl⟩ := pure_ok.mp hr
      exact hg
  · intro hg
    exact ⟨some o, st', hg, pure_ok.mpr ⟨rfl, rfl⟩⟩

lemma orAbort_ok {α : Type} {x : Option α} {a : α} :
    orAbort x st = .ok (a, st') ↔ x = some a ∧ st = st' := by
  rcases x with _ | x
  · simpa [orAbort] using throw_ok
  · simp [orAbort, pure_ok]

end State

/-! ### Points of states -/

/-- The point a state stands at. -/
def pt (st : GenSt) (notes : List Note) : Pt :=
  ⟨st.insns.length, st.strings, st.tempOff, st.tempOffPeak, st.tempReach, notes⟩

section Points

variable (st : GenSt) (N : List Note) (p : Pt)

@[simp] lemma pt_emitted (i : Insn) : pt (emitted st i) N = (pt st N).skip 1 := by
  simp [pt, emitted, Pt.skip]

@[simp] lemma pt_alloc (size : Nat) : (pt st N).alloc size = pt (allocated st size) N := rfl

@[simp] lemma pt_reset (off : Nat) : (pt st N).reset off = pt (atOff st off) N := rfl

@[simp] lemma pt_note (x : Note) : (pt st N).note x = pt st (x :: N) := rfl

@[simp] lemma pt_bound : (pt st N).bound = pt st (.bound st.insns.length :: N) := rfl

@[simp] lemma pt_patched (pos : Nat) (f : Insn → Insn) : pt (patched st pos f) N = pt st N := by
  simp [pt, patched]

@[simp] lemma pt_ip : (pt st N).ip = st.insns.length := rfl
@[simp] lemma pt_tempOff : (pt st N).tempOff = st.tempOff := rfl
@[simp] lemma tempAt_signd (signd : Bool) (size : Nat) : (tempAt st signd size).signd = signd := rfl
@[simp] lemma tempAt_size (signd : Bool) (size : Nat) : (tempAt st signd size).size = size := rfl
@[simp] lemma pt_temp (signd : Bool) (size : Nat) :
    (pt st N).temp signd size = tempAt st signd size := rfl
@[simp] lemma pt_word : (pt st N).word = tempAt st false 8 := rfl
@[simp] lemma tempAt_emitted (i : Insn) (signd : Bool) (size : Nat) :
    tempAt (emitted st i) signd size = tempAt st signd size := rfl
@[simp] lemma allocated_emitted (i : Insn) (size : Nat) :
    allocated (emitted st i) size = emitted (allocated st size) i := rfl
@[simp] lemma tempAt_patched (pos : Nat) (f : Insn → Insn) (signd : Bool) (size : Nat) :
    tempAt (patched st pos f) signd size = tempAt st signd size := rfl
@[simp] lemma allocated_patched (pos : Nat) (f : Insn → Insn) (size : Nat) :
    allocated (patched st pos f) size = patched (allocated st size) pos f := rfl
@[simp] lemma atOff_emitted (i : Insn) (off : Nat) :
    atOff (emitted st i) off = emitted (atOff st off) i := rfl
@[simp] lemma atOff_patched (pos : Nat) (f : Insn → Insn) (off : Nat) :
    atOff (patched st pos f) off = patched (atOff st off) pos f := rfl
@[simp] lemma tempOff_emitted (i : Insn) : (emitted st i).tempOff = st.tempOff := rfl
@[simp] lemma pt_string (s : List UInt8) : (pt st N).string s = pt (pushed st s) N := rfl
@[simp] lemma pt_strings : (pt st N).strings = st.strings := rfl
@[simp] lemma tempAt_pushed (s : List UInt8) (signd : Bool) (size : Nat) :
    tempAt (pushed st s) signd size = tempAt st signd size := rfl
@[simp] lemma insns_pushed (s : List UInt8) : (pushed st s).insns = st.insns := rfl
@[simp] lemma insns_emitted (i : Insn) : (emitted st i).insns = st.insns ++ [i] := rfl
@[simp] lemma insns_allocated (size : Nat) : (allocated st size).insns = st.insns := rfl
@[simp] lemma insns_atOff (off : Nat) : (atOff st off).insns = st.insns := rfl
@[simp] lemma insns_patched (pos : Nat) (f : Insn → Insn) :
    (patched st pos f).insns = st.insns.modify pos f := rfl

@[simp] lemma skip_skip (m n : Nat) : (p.skip m).skip n = p.skip (m + n) := by
  simp [Pt.skip, Nat.add_assoc]
@[simp] lemma skip_alloc (n size : Nat) : (p.skip n).alloc size = (p.alloc size).skip n := rfl
@[simp] lemma skip_reset (n off : Nat) : (p.skip n).reset off = (p.reset off).skip n := rfl
@[simp] lemma skip_temp (n : Nat) (signd : Bool) (size : Nat) :
    (p.skip n).temp signd size = p.temp signd size := rfl
@[simp] lemma skip_word (n : Nat) : (p.skip n).word = p.word := rfl
@[simp] lemma skip_ip (n : Nat) : (p.skip n).ip = p.ip + n := rfl
@[simp] lemma alloc_ip (size : Nat) : (p.alloc size).ip = p.ip := rfl
@[simp] lemma reset_ip (off : Nat) : (p.reset off).ip = p.ip := rfl
@[simp] lemma note_ip (x : Note) : (p.note x).ip = p.ip := rfl
@[simp] lemma note_alloc (x : Note) (size : Nat) : (p.note x).alloc size = (p.alloc size).note x := rfl

end Points

/-! ### Lists -/

lemma modify_eq {l u v : List Insn} {n : Nat} {a : Insn} (f : Insn → Insn)
    (hl : l = u ++ a :: v) (hn : n = u.length) : l.modify n f = u ++ f a :: v := by
  subst hl hn
  induction u with
  | nil => simp
  | cons b l ih => simpa using ih

lemma Emits_to {cx : Cx} {x : Item} {p q q' : Pt} {code code' : List Insn} {r r' : Option Opd}
    (h : Emit cx x p code r q) (hc : code = code') (hr : r = r') (hq : q = q') :
    Emit cx x p code' r' q' := by
  subst hc hr hq
  exact h

/-! ### Expressions -/

section Expr

variable {cx : Cx} {st st' : GenSt} {n : Bool} {o : Opd} {t : Ty}

/-- The generator, going from one state to another, has emitted the code of a part. -/
def Emits (cx : Cx) (x : Item) (st : GenSt) (r : Option Opd) (st' : GenSt) : Prop :=
  ∀ N, ∃ code N', Emit cx x (pt st N) code r (pt st' N') ∧ st'.insns = st.insns ++ code

/-- The generator emits the code of an expression. -/
def Good (cx : Cx) (e : TExpr) (n : Bool) : Prop :=
  ∀ st r st', genExpr cx e n st = .ok (r, st') → Emits cx (.expr e n) st r st'

def GoodArgs (cx : Cx) (as : TArgs) : Prop :=
  ∀ st u st', genArgs cx as st = .ok (u, st') → Emits cx (.args as) st none st'

/-- The generator of an operand, as `gen_expr` hands it on. -/
abbrev gen (cx : Cx) (e : TExpr) : Gen := fun n => operand (genExpr cx e n)

variable {l r : TExpr}

lemma assn_emits (hl : Good cx l true) (hr : Good cx r false)
    (h : genBexpAssn (gen cx l) (gen cx r) st = .ok (o, st')) :
    Emits cx (.expr (.bexp .assn l r t) n) st (some o) st' := by
  simp only [genBexpAssn, bind_ok, operand_ok, emit_ok, pure_ok] at h
  obtain ⟨d, st1, h1, a, st2, h2, _, st3, rfl, rfl, rfl⟩ := h
  intro N
  obtain ⟨cl, N1, e1, i1⟩ := hl _ _ _ h1 N
  obtain ⟨cr, N2, e2, i2⟩ := hr _ _ _ h2 N1
  exact ⟨_, N2, Emits_to (Emit.assn e1 e2) rfl rfl (by simp), by simp [emitted, i1, i2]⟩

lemma asmu_emits {op : BOp} {aop : ArithOp} (hop : asmuOp op = some aop) (hl : Good cx l true)
    (hr : Good cx r false) (h : genBexpAsmu aop (gen cx l) (gen cx r) st = .ok (o, st')) :
    Emits cx (.expr (.bexp op l r t) n) st (some o) st' := by
  simp only [genBexpAsmu, bind_ok, operand_ok, emit_ok, pure_ok] at h
  obtain ⟨d, st1, h1, a, st2, h2, _, st3, rfl, rfl, rfl⟩ := h
  intro N
  obtain ⟨cl, N1, e1, i1⟩ := hl _ _ _ h1 N
  obtain ⟨cr, N2, e2, i2⟩ := hr _ _ _ h2 N1
  exact ⟨_, N2, Emits_to (Emit.asmu hop e1 e2) rfl rfl (by simp), by simp [emitted, i1, i2]⟩

lemma plus_emits {op : BOp} {aop : ArithOp} (hop : plusOp op = some (aop, false))
    (hl : Good cx l false) (hr : Good cx r false)
    (h : genBexpPlus aop false (gen cx l) (gen cx r) (typeOfExpr l) t st = .ok (o, st')) :
    Emits cx (.expr (.bexp op l r t) n) st (some o) st' := by
  by_cases hm : stepOf (typeOfExpr l) = 1
  · simp only [genBexpPlus, hm, ne_eq, not_true_eq_false, Bool.false_eq_true, reduceIte, bind_ok,
      operand_ok, opdTemp_ok, emit_ok, pure_ok] at h
    obtain ⟨a, st1, h1, b, st2, h2, _, _, ⟨rfl, rfl⟩, _, _, ⟨ht, rfl, rfl⟩, _, _, rfl, rfl, rfl⟩ := h
    intro N
    obtain ⟨cl, N1, e1, i1⟩ := hl _ _ _ h1 N
    obtain ⟨cr, N2, e2, i2⟩ := hr _ _ _ h2 N1
    exact ⟨_, N2, Emits_to (Emit.plus hop e1 e2 (.one hm) ht) rfl rfl (by simp), by simp [i1, i2]⟩
  · simp only [genBexpPlus, hm, ne_eq, not_false_eq_true, Bool.false_eq_true, reduceIte, bind_ok,
      operand_ok, opdTemp_ok, emit_ok, pure_ok] at h
    obtain ⟨a, st1, h1, b, st2, h2, _, _, ⟨-, rfl, rfl⟩, _, _, rfl, _, _, ⟨rfl, rfl⟩, _, _,
      ⟨ht, rfl, rfl⟩, _, _, rfl, rfl, rfl⟩ := h
    intro N
    obtain ⟨cl, N1, e1, i1⟩ := hl _ _ _ h1 N
    obtain ⟨cr, N2, e2, i2⟩ := hr _ _ _ h2 N1
    exact ⟨_, N2, Emits_to (Emit.plus hop e1 e2 (.many hm) ht) rfl rfl (by simp),
      by simp [i1, i2]⟩

lemma aspl_emits {op : BOp} {aop : ArithOp} (hop : plusOp op = some (aop, true))
    (hl : Good cx l true) (hr : Good cx r false)
    (h : genBexpPlus aop true (gen cx l) (gen cx r) (typeOfExpr l) t st = .ok (o, st')) :
    Emits cx (.expr (.bexp op l r t) n) st (some o) st' := by
  by_cases hm : stepOf (typeOfExpr l) = 1
  · simp only [genBexpPlus, hm, ne_eq, not_true_eq_false, reduceIte, bind_ok,
      operand_ok, opdTemp_ok, emit_ok, pure_ok] at h
    obtain ⟨a, st1, h1, b, st2, h2, _, _, ⟨rfl, rfl⟩, _, _, ⟨ht, rfl, rfl⟩, _, _, rfl, rfl, rfl⟩ := h
    intro N
    obtain ⟨cl, N1, e1, i1⟩ := hl _ _ _ h1 N
    obtain ⟨cr, N2, e2, i2⟩ := hr _ _ _ h2 N1
    exact ⟨_, N2, Emits_to (Emit.aspl hop e1 e2 (.one hm) ht) rfl rfl (by simp), by simp [i1, i2]⟩
  · simp only [genBexpPlus, hm, ne_eq, not_false_eq_true, reduceIte, bind_ok,
      operand_ok, opdTemp_ok, emit_ok, pure_ok] at h
    obtain ⟨a, st1, h1, b, st2, h2, _, _, ⟨-, rfl, rfl⟩, _, _, rfl, _, _, ⟨rfl, rfl⟩, _, _,
      ⟨ht, rfl, rfl⟩, _, _, rfl, rfl, rfl⟩ := h
    intro N
    obtain ⟨cl, N1, e1, i1⟩ := hl _ _ _ h1 N
    obtain ⟨cr, N2, e2, i2⟩ := hr _ _ _ h2 N1
    exact ⟨_, N2, Emits_to (Emit.aspl hop e1 e2 (.many hm) ht) rfl rfl (by simp),
      by simp [i1, i2]⟩

lemma conj_emits {op : BOp} {disj : Bool} (hop : conjOp op = some disj)
    (hl : Good cx l false) (hr : Good cx r false)
    (h : genBexpConj disj (gen cx l) (gen cx r) t st = .ok (o, st')) :
    Emits cx (.expr (.bexp op l r t) n) st (some o) st' := by
  simp only [genBexpConj, bind_ok, operand_ok, opdTemp_ok, emit_ok, pure_ok, getIp_ok, ite_ok,
    patchJmp_ok] at h
  obtain ⟨a, st1, h1, _, _, ⟨ht, rfl, rfl⟩, _, _, rfl, _, _, ⟨rfl, rfl⟩, _, _, rfl, b, st2, h2, _, _,
    rfl, h⟩ := h
  intro N
  obtain ⟨cl, N1, e1, i1⟩ := hl _ _ _ h1 N
  obtain ⟨cr, N2, e2, i2⟩ := hr _ _ _ h2 N1
  rw [pt_emitted, pt_emitted, skip_skip] at e2
  rcases h with ⟨rfl, _, _, rfl, _, _, rfl, rfl, rfl⟩ | ⟨hd, _, _, rfl, _, _, rfl, rfl, rfl⟩
  · refine ⟨_, N2, Emits_to (Emit.conj hop e1 ht e2) rfl rfl (by simp), ?_⟩
    rw [insns_patched, modify_eq (u := st.insns ++ cl ++ [Insn.oz (tempAt st1 t.signd t.bytes) a])
      (a := .jz true a 0) (Insn.setLoc _) (by simp [i1, i2]; rfl) (by simp [i1])]
    simp [Insn.setLoc]
  · obtain rfl : disj = false := by simpa using hd
    refine ⟨_, N2, Emits_to (Emit.conj hop e1 ht e2) rfl rfl (by simp), ?_⟩
    rw [insns_patched, modify_eq (u := st.insns ++ cl ++ [Insn.oz (tempAt st1 t.signd t.bytes) a])
      (a := .jz false a 0) (Insn.setLoc _) (by simp [i1, i2]; rfl) (by simp [i1])]
    simp [Insn.setLoc]

lemma coma_emits (hl : Good cx l false) (hr : Good cx r false) {o : Option Opd}
    (h : genBexpComa (genExpr cx l) (genExpr cx r) st = .ok (o, st')) :
    Emits cx (.expr (.bexp .coma l r t) n) st o st' := by
  simp only [genBexpComa, bind_ok, getTempOff_ok, setTempOff_ok] at h
  obtain ⟨_, _, ⟨rfl, rfl⟩, a, st1, h1, _, _, rfl, h2⟩ := h
  intro N
  obtain ⟨cl, N1, e1, i1⟩ := hl _ _ _ h1 N
  obtain ⟨cr, N2, e2, i2⟩ := hr _ _ _ h2 N1
  exact ⟨_, N2, Emit.coma e1 e2, by simp [i1, i2]⟩

lemma equl_emits {op : BOp} {mk : Opd → Opd → Opd → Insn} (hop : bexpInsn op = some mk)
    (hl : Good cx l false) (hr : Good cx r false)
    (h : genBexpEqul mk (gen cx l) (gen cx r) t st = .ok (o, st')) :
    Emits cx (.expr (.bexp op l r t) n) st (some o) st' := by
  simp only [genBexpEqul, bind_ok, operand_ok, opdTemp_ok, emit_ok, pure_ok] at h
  obtain ⟨a, st1, h1, b, st2, h2, _, _, ⟨ht, rfl, rfl⟩, _, _, rfl, rfl, rfl⟩ := h
  intro N
  obtain ⟨cl, N1, e1, i1⟩ := hl _ _ _ h1 N
  obtain ⟨cr, N2, e2, i2⟩ := hr _ _ _ h2 N1
  exact ⟨_, N2, Emits_to (Emit.equl hop e1 e2 ht) rfl rfl (by simp), by simp [i1, i2]⟩

lemma scop_emits {v : Sym} (h : genBexpScop v t st = .ok (o, st')) :
    Emits cx (.expr (.scop v t) n) st (some o) st' := by
  cases t with
  | enum c values tv =>
    obtain ⟨rfl, rfl⟩ := pure_ok.mp h
    exact fun N => ⟨[], N, Emit.scop, by simp⟩
  | _ => exact absurd h throw_ok

lemma atsi_emits {label : WlabRef} (hl : Good cx l false)
    (h : genBexpAtsi (gen cx l) label t st = .ok (o, st')) :
    Emits cx (.expr (.atsi l label t) n) st (some o) st' := by
  simp only [genBexpAtsi, bind_ok, operand_ok, orAbort_ok, opdTemp_ok, emit_ok, pure_ok] at h
  obtain ⟨a, st1, h1, lab, _, ⟨hlab, rfl⟩, _, _, ⟨ht, rfl, rfl⟩, _, _, rfl, rfl, rfl⟩ := h
  intro N
  obtain ⟨cl, N1, e1, i1⟩ := hl _ _ _ h1 N
  exact ⟨_, N1, Emits_to (Emit.atsi e1 hlab ht) rfl rfl (by simp), by simp [i1]⟩

lemma memb_emits {idx : Nat} (hl : Good cx l n)
    (h : genBexpMemb (gen cx l) (typeOfExpr l) idx n st = .ok (o, st')) :
    Emits cx (.expr (.memb l idx t) n) st (some o) st' := by
  simp only [genBexpMemb, bind_ok, operand_ok, orAbort_ok, opdTemp_ok, emit_ok, pure_ok, ite_ok]
    at h
  obtain ⟨a, st1, h1, ⟨m, off⟩, _, ⟨hm, rfl⟩, h⟩ := h
  intro N
  obtain ⟨cl, N1, e1, i1⟩ := hl _ _ _ h1 N
  rcases h with ⟨ha, rfl, rfl⟩ | ⟨ha, _, _, ⟨-, rfl, rfl⟩, _, _, rfl, _, _, ⟨-, rfl, rfl⟩, _, _, rfl,
    rfl, rfl⟩
  · exact ⟨cl, N1, Emit.memb e1 hm (by simpa using ha), i1⟩
  · exact ⟨_, N1, Emits_to (Emit.membIndirect e1 hm (by simpa using ha)) rfl rfl (by simp),
      by simp [i1]⟩

lemma arow_emits {idx c : Nat} {s : Ty} (htl : typeOfExpr l = .ptr c s) (hl : Good cx l false)
    (h : genBexpArow (gen cx l) s idx st = .ok (o, st')) :
    Emits cx (.expr (.arow l idx t) n) st (some o) st' := by
  simp only [genBexpArow, bind_ok, operand_ok, ite_ok, opdTemp_ok, emit_ok, pure_ok, orAbort_ok]
    at h
  obtain ⟨a, st1, h1, h⟩ := h
  intro N
  obtain ⟨cl, N1, e1, i1⟩ := hl _ _ _ h1 N
  rcases h with ⟨ha, _, _, ⟨-, rfl, rfl⟩, _, _, rfl, _, _, ⟨rfl, rfl⟩, ⟨m, off⟩, _, ⟨hm, rfl⟩, h⟩ |
    ⟨ha, _, _, ⟨rfl, rfl⟩, ⟨m, off⟩, _, ⟨hm, rfl⟩, h⟩
  · obtain ⟨_, _, ⟨-, rfl, rfl⟩, _, _, rfl, rfl, rfl⟩ := h
    exact ⟨_, N1, Emits_to (Emit.arow htl e1 (.indirect ha) hm) rfl rfl (by simp), by simp [i1]⟩
  · obtain ⟨_, _, ⟨-, rfl, rfl⟩, _, _, rfl, rfl, rfl⟩ := h
    exact ⟨_, N1, Emits_to (Emit.arow htl e1 (.direct (by simpa using ha)) hm) rfl rfl (by simp),
      by simp [i1]⟩

lemma cast_emits {c : Ty} (hl : Good cx l false) (h : genBexpCast (gen cx l) c st = .ok (o, st')) :
    Emits cx (.expr (.cast l c t) n) st (some o) st' := by
  simp only [genBexpCast, bind_ok, operand_ok, opdTemp_ok, emit_ok, pure_ok] at h
  obtain ⟨a, st1, h1, _, _, ⟨hc, rfl, rfl⟩, _, _, rfl, rfl, rfl⟩ := h
  intro N
  obtain ⟨cl, N1, e1, i1⟩ := hl _ _ _ h1 N
  exact ⟨_, N1, Emits_to (Emit.cast e1 hc) rfl rfl (by simp), by simp [i1]⟩

lemma tildCall_emits {as : TArgs} {tc : Ty} (ha : GoodArgs cx as) (hl : Good cx l false)
    (h : genUexpTildCall (genArgs cx as) (gen cx l) t st = .ok (o, st')) :
    Emits cx (.expr (.uexp .tild (.fexp l as tc) t) n) st (some o) st' := by
  simp only [genUexpTildCall, bind_ok, operand_ok, opdTemp_ok, emit_ok, pure_ok] at h
  obtain ⟨_, _, ⟨ht, rfl, rfl⟩, _, _, ⟨-, rfl, rfl⟩, _, _, rfl, _, st1, h1, a, st2, h2, _, _, rfl, rfl,
    rfl⟩ := h
  intro N
  obtain ⟨ca, N1, e1, i1⟩ := ha _ _ _ h1 N
  obtain ⟨cl, N2, e2, i2⟩ := hl _ _ _ h2 N1
  rw [pt_emitted] at e1
  exact ⟨_, .call st2.insns.length (typeOfExpr l) :: N2,
    Emits_to (Emit.tildCall ht e1 e2) rfl rfl (by simp), by simp [i1, i2]⟩

lemma tild_emits (hr : ∀ l as tc, r ≠ .fexp l as tc) (hg : Good cx r false)
    (h : genUexpTildValue (gen cx r) t st = .ok (o, st')) :
    Emits cx (.expr (.uexp .tild r t) n) st (some o) st' := by
  simp only [genUexpTildValue, bind_ok, operand_ok, opdTemp_ok, emit_ok, pure_ok] at h
  obtain ⟨_, _, ⟨ht, rfl, rfl⟩, a, st1, h1, _, _, rfl, rfl, rfl⟩ := h
  intro N
  obtain ⟨cl, N1, e1, i1⟩ := hg _ _ _ h1 N
  exact ⟨_, N1, Emits_to (Emit.tild hr ht e1) rfl rfl (by simp), by simp [i1]⟩

lemma unary_emits {op : UOp} {mk : Opd → Opd → Insn} (hop : unaryInsn op = some mk)
    (hr : Good cx r false) (h : genUexpMins mk (gen cx r) t st = .ok (o, st')) :
    Emits cx (.expr (.uexp op r t) n) st (some o) st' := by
  simp only [genUexpMins, bind_ok, operand_ok, opdTemp_ok, emit_ok, pure_ok] at h
  obtain ⟨a, st1, h1, _, _, ⟨ht, rfl, rfl⟩, _, _, rfl, rfl, rfl⟩ := h
  intro N
  obtain ⟨cl, N1, e1, i1⟩ := hr _ _ _ h1 N
  exact ⟨_, N1, Emits_to (Emit.unary hop e1 ht) rfl rfl (by simp), by simp [i1]⟩

lemma mult_emits (hr : Good cx r false) {o : Option Opd}
    (h : genUexpMult (gen cx r) (typeOfExpr r) t n st = .ok (o, st')) :
    Emits cx (.expr (.uexp .mult r t) n) st o st' := by
  simp only [genUexpMult, bind_ok, operand_ok, ite_ok, opdTemp_ok, emit_ok, pure_ok] at h
  obtain ⟨a, st1, h1, h⟩ := h
  intro N
  obtain ⟨cl, N1, e1, i1⟩ := hr _ _ _ h1 N
  rcases h with ⟨hc, rfl, rfl⟩ | ⟨hc, ⟨hp, _, _, ⟨ht, rfl, rfl⟩, _, _, rfl, rfl, rfl⟩ |
    ⟨hp, ⟨-, _, _, ⟨ht, rfl, rfl⟩, _, _, rfl, rfl, rfl⟩ | ⟨ht, _, _, rfl, rfl, rfl⟩⟩⟩
  · obtain ⟨hp, rfl⟩ : (typeOfExpr r).t = .ptr ∧ n = true := by simpa using hc
    exact ⟨cl, N1, Emit.multLvalue hp e1, i1⟩
  · have hp' : (typeOfExpr r).t = .ptr := by simpa using hp
    obtain rfl : n = false := by simpa [hp'] using hc
    exact ⟨_, N1, Emits_to (Emit.multRvalue hp' e1 ht) rfl rfl (by simp), by simp [i1]⟩
  · exact ⟨_, N1, Emits_to (Emit.multValue (by simpa using hp) e1 ht) rfl rfl (by simp),
      by simp [i1]⟩
  · exact ⟨_, N1, Emits_to (Emit.multVoid (by simpa using hp) e1 (by simpa using ht)) rfl rfl
      (by simp), by simp [i1]⟩

lemma amps_emits (hr : Good cx r false) (h : genUexpAmps (gen cx r) t st = .ok (o, st')) :
    Emits cx (.expr (.uexp .amps r t) n) st (some o) st' := by
  simp only [genUexpAmps, bind_ok, operand_ok, opdTemp_ok, emit_ok, pure_ok] at h
  obtain ⟨a, st1, h1, _, _, ⟨ht, rfl, rfl⟩, _, _, rfl, rfl, rfl⟩ := h
  intro N
  obtain ⟨cl, N1, e1, i1⟩ := hr _ _ _ h1 N
  exact ⟨_, N1, Emits_to (Emit.amps e1 ht) rfl rfl (by simp), by simp [i1]⟩

lemma incr_emits {op : UOp} {dec : Bool} (hop : incrOp op = some dec) (hr : Good cx r true)
    (h : genUexpIncr dec (gen cx r) (typeOfExpr r) t st = .ok (o, st')) :
    Emits cx (.expr (.uexp op r t) n) st (some o) st' := by
  simp only [genUexpIncr, bind_ok, operand_ok, ite_ok, emit_ok, pure_ok] at h
  obtain ⟨a, st1, h1, h⟩ := h
  intro N
  obtain ⟨cl, N1, e1, i1⟩ := hr _ _ _ h1 N
  rcases h with ⟨hs, _, _, rfl, rfl, rfl⟩ | ⟨hs, _, _, rfl, rfl, rfl⟩
  · exact ⟨_, N1, Emits_to (Emit.incr hop e1 hs) rfl rfl (by simp), by simp [i1]⟩
  · exact ⟨_, N1, Emits_to (Emit.incrBy hop e1 hs) rfl rfl (by simp), by simp [i1, moveOp]⟩

lemma xexp_emits {op : XOp} (hl : Good cx l true)
    (h : genXexpIncr (op == .decr) (gen cx l) (typeOfExpr l) t st = .ok (o, st')) :
    Emits cx (.expr (.xexp op l t) n) st (some o) st' := by
  simp only [genXexpIncr, bind_ok, operand_ok, ite_ok, opdTemp_ok, emit_ok, pure_ok] at h
  obtain ⟨a, st1, h1, _, _, ⟨ht, rfl, rfl⟩, h⟩ := h
  intro N
  obtain ⟨cl, N1, e1, i1⟩ := hl _ _ _ h1 N
  rcases h with ⟨hs, _, _, rfl, rfl, rfl⟩ | ⟨hs, _, _, rfl, _, _, rfl, rfl, rfl⟩
  · exact ⟨_, N1, Emits_to (Emit.xexp e1 hs ht) rfl rfl (by simp), by simp [i1]⟩
  · exact ⟨_, N1, Emits_to (Emit.xexpBy e1 hs ht) rfl rfl (by simp), by simp [i1, moveOp]⟩

lemma fexp_emits {as : TArgs} (ha : GoodArgs cx as) (hl : Good cx l false) {o : Option Opd}
    (h : genFexp (genArgs cx as) (gen cx l) t st = .ok (o, st')) :
    Emits cx (.expr (.fexp l as t) n) st o st' := by
  simp only [genFexp, bind_ok, operand_ok, opdTemp_ok, emit_ok, pure_ok, getIp_ok, patch_ok, ite_ok]
    at h
  obtain ⟨_, _, ⟨-, rfl, rfl⟩, _, _, ⟨rfl, rfl⟩, _, _, rfl, _, st1, h1, a, st2, h2, _, _, ⟨rfl, rfl⟩,
    _, _, rfl, h⟩ := h
  intro N
  obtain ⟨ca, N1, e1, i1⟩ := ha _ _ _ h1 N
  obtain ⟨cl, N2, e2, i2⟩ := hl _ _ _ h2 N1
  rw [pt_emitted] at e1
  have hmod : (patched st2 (allocated st 8).insns.length (Insn.setPushr st2.insns.length)).insns =
      st.insns ++ Insn.pushr (opdImm false st2.insns.length 8) (tempAt st false 8) :: (ca ++ cl) := by
    rw [insns_patched, modify_eq (u := st.insns) (v := ca ++ cl)
      (a := .pushr (opdImm false 0 8) (tempAt st false 8)) _ (by simp [i1, i2]) (by simp)]
    rfl
  rcases h with ⟨ht, _, _, ⟨-, rfl, rfl⟩, _, _, rfl, rfl, rfl⟩ | ⟨ht, _, _, rfl, rfl, rfl⟩
  · refine ⟨_, .call st2.insns.length (typeOfExpr l) :: N2,
      Emits_to (Emit.callv ht e1 e2) rfl rfl ?_, ?_⟩
    · simp
    · rw [insns_emitted, insns_allocated, hmod]
      simp
  · refine ⟨_, .call st2.insns.length (typeOfExpr l) :: N2,
      Emits_to (Emit.call (by simpa using ht) e1 e2) rfl rfl (by simp), ?_⟩
    rw [insns_emitted, hmod]
    simp

lemma aexp_emits (hb : Good cx l n) (ho : Good cx r false)
    (h : genAexp (gen cx l) (gen cx r) (typeOfExpr r) t n st = .ok (o, st')) :
    Emits cx (.expr (.aexp l r t) n) st (some o) st' := by
  simp only [genAexp, bind_ok, operand_ok, opdTemp_ok] at h
  obtain ⟨a, st1, h1, i, st2, h2, _, _, ⟨-, rfl, rfl⟩, h⟩ := h
  intro N
  obtain ⟨cb, N1, e1, i1⟩ := hb _ _ _ h1 N
  obtain ⟨co, N2, e2, i2⟩ := ho _ _ _ h2 N1
  by_cases he : t.bytes = 1 <;> by_cases hs : (typeOfExpr r).size = 8 <;>
    cases ha : a.indirect <;>
    simp only [he, hs, ha, ne_eq, not_true_eq_false, not_false_eq_true, Bool.false_eq_true, reduceIte,
      bind_ok, opdTemp_ok, emit_ok, pure_ok] at h
  · obtain ⟨_, _, ⟨rfl, rfl⟩, _, _, ⟨-, rfl, rfl⟩, _, _, rfl, _, _, ⟨-, rfl, rfl⟩, _, _, rfl, rfl, rfl⟩ := h
    exact ⟨_, N2, Emits_to (Emit.aexp e1 e2 (.byte he hs) (.direct ha)) rfl (by simp [he]) (by simp),
      by simp [i1, i2]⟩
  · obtain ⟨_, _, ⟨rfl, rfl⟩, _, _, ⟨-, rfl, rfl⟩, _, _, rfl, rfl, rfl⟩ := h
    exact ⟨_, N2, Emits_to (Emit.aexp e1 e2 (.byte he hs) (.indirect ha)) rfl (by simp [he]) (by simp),
      by simp [i1, i2]⟩
  · obtain ⟨_, _, rfl, _, _, ⟨rfl, rfl⟩, _, _, ⟨-, rfl, rfl⟩, _, _, rfl, _, _, ⟨-, rfl, rfl⟩, _, _, rfl,
      rfl, rfl⟩ := h
    exact ⟨_, N2, Emits_to (Emit.aexp e1 e2 (.widen he hs) (.direct ha)) rfl (by simp [he]) (by simp),
      by simp [i1, i2]⟩
  · obtain ⟨_, _, rfl, _, _, ⟨rfl, rfl⟩, _, _, ⟨-, rfl, rfl⟩, _, _, rfl, rfl, rfl⟩ := h
    exact ⟨_, N2, Emits_to (Emit.aexp e1 e2 (.widen he hs) (.indirect ha)) rfl (by simp [he]) (by simp),
      by simp [i1, i2]⟩
  · obtain ⟨_, _, rfl, _, _, ⟨rfl, rfl⟩, _, _, ⟨-, rfl, rfl⟩, _, _, rfl, _, _, ⟨-, rfl, rfl⟩, _, _, rfl,
      rfl, rfl⟩ := h
    exact ⟨_, N2, Emits_to (Emit.aexp e1 e2 (.scale he hs) (.direct ha)) rfl (by simp) (by simp),
      by simp [i1, i2]⟩
  · obtain ⟨_, _, rfl, _, _, ⟨rfl, rfl⟩, _, _, ⟨-, rfl, rfl⟩, _, _, rfl, rfl, rfl⟩ := h
    exact ⟨_, N2, Emits_to (Emit.aexp e1 e2 (.scale he hs) (.indirect ha)) rfl (by simp) (by simp),
      by simp [i1, i2]⟩
  · obtain ⟨_, _, rfl, _, _, rfl, _, _, ⟨rfl, rfl⟩, _, _, ⟨-, rfl, rfl⟩, _, _, rfl, _, _, ⟨-, rfl, rfl⟩,
      _, _, rfl, rfl, rfl⟩ := h
    exact ⟨_, N2, Emits_to (Emit.aexp e1 e2 (.both he hs) (.direct ha)) rfl (by simp) (by simp),
      by simp [i1, i2]⟩
  · obtain ⟨_, _, rfl, _, _, rfl, _, _, ⟨rfl, rfl⟩, _, _, ⟨-, rfl, rfl⟩, _, _, rfl, rfl, rfl⟩ := h
    exact ⟨_, N2, Emits_to (Emit.aexp e1 e2 (.both he hs) (.indirect ha)) rfl (by simp) (by simp),
      by simp [i1, i2]⟩

lemma texp_emits {c : TExpr} (hc : Good cx c false) (hl : Good cx l false) (hr : Good cx r false)
    (h : genTexp (gen cx c) (gen cx l) (gen cx r) t st = .ok (o, st')) :
    Emits cx (.expr (.texp c l r t) n) st (some o) st' := by
  simp only [genTexp, bind_ok, operand_ok, opdTemp_ok, emit_ok, pure_ok, getIp_ok, getTempOff_ok,
    setTempOff_ok, patchJmp_ok, and_assoc, exists_and_left, exists_eq_left, exists_eq_left', exists_const] at h
  obtain ⟨a, st1, h1, ht, b, st2, h2, d, st3, h3, rfl, rfl⟩ := h
  intro N
  obtain ⟨cc, N1, e1, i1⟩ := hc _ _ _ h1 N
  obtain ⟨ct, N2, e2, i2⟩ := hl _ _ _ h2 N1
  obtain ⟨cf, N3, e3, i3⟩ := hr _ _ _ h3 N2
  rw [pt_emitted] at e2
  have hfirst : (patched (emitted (emitted st2 (.mov (tempAt st1 t.signd t.bytes) b)) (.jmp 0))
      st1.insns.length (Insn.setLoc (st2.insns.length + 2))).insns =
      st.insns ++ cc ++ Insn.jz false a (st2.insns.length + 2) ::
        (ct ++ [Insn.mov (tempAt st1 t.signd t.bytes) b, .jmp 0]) := by
    rw [insns_patched, modify_eq (u := st.insns ++ cc) (a := .jz false a 0)
      (v := ct ++ [Insn.mov (tempAt st1 t.signd t.bytes) b, .jmp 0]) _ (by simp [i1, i2])
      (by simp [i1])]
    rfl
  have e3' : Emit cx (.expr r false)
      (((pt st2 N2).skip 2).reset ((pt st1 N1).alloc t.bytes).tempOff) cf (some d) (pt st3 N3) := by
    simpa using e3
  refine ⟨_, N3, Emits_to (Emit.texp e1 ht e2 e3') rfl rfl (by simp), ?_⟩
  have hsecond : st3.insns = st.insns ++ cc ++ [Insn.jz false a (st2.insns.length + 2)] ++ ct ++
      [Insn.mov (tempAt st1 t.signd t.bytes) b] ++ Insn.jmp 0 :: cf := by
    rw [i3, insns_atOff]
    simp only [insns_emitted, List.length_append, List.length_singleton, insns_allocated] at hfirst ⊢
    rw [hfirst]
    simp
  rw [insns_patched, insns_emitted, modify_eq (u := st.insns ++ cc ++
    [Insn.jz false a (st2.insns.length + 2)] ++ ct ++ [Insn.mov (tempAt st1 t.signd t.bytes) b])
    (a := .jmp 0) (v := cf ++ [Insn.mov (tempAt st1 t.signd t.bytes) d]) _ (by simp [hsecond])
    (by simp [i1, i2])]
  simp [Insn.setLoc]

lemma name_emits {so : ScopeObj} (h : genName cx so t st = .ok (o, st')) :
    Emits cx (.expr (.name so t) n) st (some o) st' := by
  have key : nameOpd cx so t = some o ∧ st = st' := by
    rcases so with ⟨name, obj⟩
    cases obj <;> simp only [genName, bind_ok, orAbort_ok, pure_ok] at h
    case dupl => exact absurd h throw_ok
    case bfun => simpa [nameOpd] using h
    case func => simpa [nameOpd] using h
    all_goals
      obtain ⟨ofs, _, ⟨hofs, rfl⟩, rfl, rfl⟩ := h
      simp [nameOpd, hofs]
  obtain ⟨ho, rfl⟩ := key
  exact fun N => ⟨[], N, Emit.name ho, by simp⟩

lemma strl_emits {str : List UInt8} (h : genStrl cx str st = .ok (o, st')) :
    Emits cx (.expr (.strl str t) n) st (some o) st' := by
  simp only [genStrl, bind_ok, pushString_ok, opdTemp_ok, emit_ok, pure_ok, Except.ok.injEq,
    Prod.mk.injEq] at h
  obtain ⟨_, _, ⟨rfl, rfl⟩, _, _, rfl, _, _, ⟨-, rfl, rfl⟩, _, _, rfl, rfl, rfl⟩ := h
  exact fun N => ⟨_, N, Emits_to Emit.strl rfl rfl (by simp), by simp⟩

lemma bexp_emits {op : BOp} (hl : ∀ n, Good cx l n) (hr : ∀ n, Good cx r n) {o : Option Opd}
    (h : genExpr cx (.bexp op l r t) n st = .ok (o, st')) :
    Emits cx (.expr (.bexp op l r t) n) st o st' := by
  cases op <;> simp only [genExpr, asmuOp, bexpInsn] at h
  case coma => exact coma_emits (hl false) (hr false) h
  case coln | scop | atsi | memb | arow | cast => exact absurd h throw_ok
  all_goals obtain ⟨o, h', rfl⟩ := map_ok.mp h
  case assn => exact assn_emits (hl true) (hr false) h'
  case aspl | asmi => exact aspl_emits rfl (hl true) (hr false) h'
  case plus | mins => exact plus_emits rfl (hl false) (hr false) h'
  case conj | disj => exact conj_emits rfl (hl false) (hr false) h'
  case asmu | asdi | asmo | asls | asrs | asan | asxo | asor =>
    exact asmu_emits rfl (hl true) (hr false) h'
  all_goals exact equl_emits rfl (hl false) (hr false) h'

lemma uexp_emits {op : UOp} (hr : ∀ n, Good cx r n) {o : Option Opd}
    (hcall : op = .tild → ∀ l as tc, r ≠ .fexp l as tc)
    (h : genExpr cx (.uexp op r t) n st = .ok (o, st')) :
    Emits cx (.expr (.uexp op r t) n) st o st' := by
  cases op
  case plus =>
    intro N
    obtain ⟨c, N1, e1, i1⟩ := hr false _ _ _ h N
    exact ⟨c, N1, Emit.uplus e1, i1⟩
  case mult => exact mult_emits (hr false) h
  case tild =>
    have h : (some <$> genUexpTildValue (gen cx r) t) st = .ok (o, st') := by
      cases r
      case fexp l as tc => exact absurd rfl (hcall rfl l as tc)
      all_goals exact h
    obtain ⟨o, h', rfl⟩ := map_ok.mp h
    exact tild_emits (hcall rfl) (hr false) h'
  all_goals obtain ⟨o, h', rfl⟩ := map_ok.mp h
  case amps => exact amps_emits (hr false) h'
  case incr | decr => exact incr_emits rfl (hr true) h'
  all_goals exact unary_emits rfl (hr false) h'

mutual
theorem good_expr (cx : Cx) : ∀ (e : TExpr) (n : Bool), Good cx e n
  | .bexp _ l r _, _ => fun _ _ _ h => bexp_emits (good_expr cx l) (good_expr cx r) h
  | .scop _ _, _ => fun _ _ _ h => by
    obtain ⟨_, h', rfl⟩ := map_ok.mp h
    exact scop_emits h'
  | .atsi l _ _, _ => fun _ _ _ h => by
    obtain ⟨_, h', rfl⟩ := map_ok.mp h
    exact atsi_emits (good_expr cx l false) h'
  | .memb l _ _, n => fun _ _ _ h => by
    obtain ⟨_, h', rfl⟩ := map_ok.mp h
    exact memb_emits (good_expr cx l n) h'
  | .arow l idx _, _ => fun _ _ _ h => by
    cases htl : typeOfExpr l <;> simp only [genExpr, htl] at h
    case ptr =>
      obtain ⟨_, h', rfl⟩ := map_ok.mp h
      exact arow_emits htl (good_expr cx l false) h'
    all_goals exact absurd h throw_ok
  | .cast l _ _, _ => fun _ _ _ h => by
    obtain ⟨_, h', rfl⟩ := map_ok.mp h
    exact cast_emits (good_expr cx l false) h'
  | .uexp op r t, n => by
    by_cases hc : op = .tild ∧ ∃ l as tc, r = .fexp l as tc
    · obtain ⟨rfl, l, as, tc, rfl⟩ := hc
      intro st o st' h
      obtain ⟨_, h', rfl⟩ := map_ok.mp h
      exact tildCall_emits (good_args cx as) (good_expr cx l false) h'
    · exact fun _ _ _ h => uexp_emits (good_expr cx r) (by
        intro ho l as tc hr
        exact hc ⟨ho, l, as, tc, hr⟩) h
  | .szof _ _ _, _ => fun _ _ _ h => by
    obtain ⟨_, h', rfl⟩ := map_ok.mp h
    obtain ⟨rfl, rfl⟩ := pure_ok.mp h'
    exact fun N => ⟨[], N, Emit.szof, by simp⟩
  | .fexp l as _, _ => fun _ _ _ h => fexp_emits (good_args cx as) (good_expr cx l false) h
  | .xexp _ l _, _ => fun _ _ _ h => by
    obtain ⟨_, h', rfl⟩ := map_ok.mp h
    exact xexp_emits (good_expr cx l true) h'
  | .aexp b i _, n => fun _ _ _ h => by
    obtain ⟨_, h', rfl⟩ := map_ok.mp h
    exact aexp_emits (good_expr cx b n) (good_expr cx i false) h'
  | .texp c tv fv _, _ => fun _ _ _ h => by
    obtain ⟨_, h', rfl⟩ := map_ok.mp h
    exact texp_emits (good_expr cx c false) (good_expr cx tv false) (good_expr cx fv false) h'
  | .name _ _, _ => fun _ _ _ h => by
    obtain ⟨_, h', rfl⟩ := map_ok.mp h
    exact name_emits h'
  | .nmbr _ _, _ => fun _ _ _ h => by
    obtain ⟨rfl, rfl⟩ := pure_ok.mp h
    exact fun N => ⟨[], N, Emit.nmbr, by simp⟩
  | .strl _ _, _ => fun _ _ _ h => by
    obtain ⟨_, h', rfl⟩ := map_ok.mp h
    exact strl_emits h'
termination_by e => sizeOf e
decreasing_by all_goals (subst_vars; simp +arith)
theorem good_args (cx : Cx) : ∀ as : TArgs, GoodArgs cx as
  | .nil => fun _ _ _ h => by
    obtain ⟨rfl, rfl⟩ := pure_ok.mp h
    exact fun N => ⟨[], N, Emit.argsNil, by simp⟩
  | .cons e rest => fun _ _ _ h => by
    simp only [genArgs_cons, bind_ok, operand_ok, emit_ok] at h
    obtain ⟨a, st1, h1, _, _, rfl, h2⟩ := h
    intro N
    obtain ⟨ce, N1, e1, i1⟩ := good_expr cx e false _ _ _ h1 N
    obtain ⟨cr, N2, e2, i2⟩ := good_args cx rest _ _ _ h2 N1
    rw [pt_emitted] at e2
    exact ⟨_, N2, Emit.argsCons e1 e2, by simp [i1, i2]⟩
termination_by as => sizeOf as
decreasing_by all_goals simp +arith
end

end Expr

/-! ### Statements -/

section Stmt

variable {cx : Cx} {st st' : GenSt}

lemma inits_ok {t : Ty} {a : Opd} {names : List Sym} {u : PUnit}
    (h : (names.forM fun n => do
      let ofs ← orAbort (htabGet cx.ftag.layout n)
      emit (.mov (opdAuto t.signd ofs.off ofs.size) a)) st = .ok (u, st')) :
    ∃ code, Inits cx t a names code ∧ st' = { st with insns := st.insns ++ code } := by
  induction names generalizing st with
  | nil =>
    obtain ⟨-, rfl⟩ := pure_ok.mp h
    exact ⟨[], .nil, by simp⟩
  | cons n ns ih =>
    obtain ⟨_, _, h1, h⟩ := bind_ok.mp h
    simp only [bind_ok, orAbort_ok, emit_ok] at h1
    obtain ⟨ofs, _, ⟨hofs, rfl⟩, rfl⟩ := h1
    obtain ⟨code, hcode, rfl⟩ := ih h
    exact ⟨_, .cons n ns ofs code hofs hcode, by simp [emitted]⟩

def GoodStmt (cx : Cx) (s : TStmt) : Prop :=
  ∀ st u st', genStmt cx s st = .ok (u, st') → Emits cx (.stmt s) st none st'

def GoodStmts (cx : Cx) (b : TStmts) : Prop :=
  ∀ st u st', genStmts cx b st = .ok (u, st') → Emits cx (.stmts b) st none st'

/-- The ends of the branches, sent to `fin`. -/
def sendTo (fin base : Nat) (ends : List Nat) (code : List Insn) : List Insn :=
  ends.foldl (fun l e => l.modify (e - base) (Insn.setLoc fin)) code

/-- `gen_cond` after its first block: the jump at `prev` is sent to the rest, and once the ends
of the branches are sent to `fin`, the rest is what `Emit` says. -/
def GoodElifs (cx : Cx) (r : TElifs) : Prop :=
  ∀ st prev ends st', genElifs cx prev r st = .ok (ends, st') → ∀ N fin, ∃ code N',
    Emit cx (.elifs r fin) (pt st N) (sendTo fin st.insns.length ends code) none (pt st' N') ∧
      st'.insns = (patched st prev (Insn.setLoc st.insns.length)).insns ++ code ∧
      ∀ e ∈ ends, st.insns.length ≤ e

lemma decl_good {names : List Sym} {t : Ty} {init : Option TExpr} :
    GoodStmt cx (.decl names t init) := by
  intro st u st' h
  simp only [genStmt, bind_ok, setTempOff_ok] at h
  obtain ⟨_, st1, h, rfl⟩ := h
  intro N
  rcases init with _ | e
  · obtain ⟨-, rfl⟩ := pure_ok.mp h
    exact ⟨[], N, Emits_to Emit.decl rfl rfl rfl, by simp⟩
  · simp only [genDeclAuto, bind_ok, operand_ok] at h
    obtain ⟨a, st2, h1, h2⟩ := h
    obtain ⟨ce, N1, e1, i1⟩ := good_expr cx e false _ _ _ h1 N
    obtain ⟨ci, hi, rfl⟩ := inits_ok h2
    refine ⟨_, N1, Emits_to (Emit.declInit e1 hi) rfl rfl ?_, by simp [i1]⟩
    simp [pt, atOff, Pt.skip, Pt.reset]

lemma retn_good {e : Option TExpr} : GoodStmt cx (.retn e) := by
  intro st u st' h
  simp only [genStmt, bind_ok, setTempOff_ok] at h
  obtain ⟨_, st1, h, rfl⟩ := h
  intro N
  rcases e with _ | e
  · obtain rfl := emit_ok.mp h
    exact ⟨_, N, Emits_to Emit.retn rfl rfl (by simp), by simp [retSize]⟩
  · simp only [genRetn, bind_ok, operand_ok, emit_ok] at h
    obtain ⟨a, st2, h1, rfl⟩ := h
    obtain ⟨ce, N1, e1, i1⟩ := good_expr cx e false _ _ _ h1 N
    exact ⟨_, N1, Emits_to (Emit.retnValue e1) rfl rfl (by simp), by simp [i1, retSize]⟩

lemma wait_good {q : TExpr} {f : Option TExpr} {label : WlabRef} {nb un : Bool} :
    GoodStmt cx (.wait q f label nb un) := by
  intro st u st' h
  simp only [genStmt, bind_ok, setTempOff_ok] at h
  obtain ⟨_, st1, h, rfl⟩ := h
  intro N
  rcases f with _ | f
  · simp only [genWait, bind_ok, operand_ok, pure_ok, orAbort_ok, emit_ok] at h
    obtain ⟨a, st2, h1, _, _, ⟨rfl, rfl⟩, lab, _, ⟨hlab, rfl⟩, rfl⟩ := h
    obtain ⟨cq, N1, e1, i1⟩ := good_expr cx q false _ _ _ h1 N
    exact ⟨_, N1, Emits_to (Emit.wait e1 hlab) rfl rfl (by simp), by simp [i1]⟩
  · simp only [genWait, bind_ok, operand_ok, orAbort_ok, emit_ok] at h
    obtain ⟨a, st2, h1, b, st3, h2, lab, _, ⟨hlab, rfl⟩, rfl⟩ := h
    obtain ⟨cq, N1, e1, i1⟩ := good_expr cx q false _ _ _ h1 N
    obtain ⟨cf, N2, e2, i2⟩ := good_expr cx f false _ _ _ h2 N1
    exact ⟨_, N2, Emits_to (Emit.waitFor e1 e2 hlab) rfl rfl (by simp), by simp [i1, i2]⟩

lemma expr_good {e : TExpr} : GoodStmt cx (.expr e) := by
  intro st u st' h
  simp only [genStmt, bind_ok, emit_ok, setTempOff_ok] at h
  obtain ⟨a, st1, h1, _, _, rfl, rfl⟩ := h
  intro N
  obtain ⟨ce, N1, e1, i1⟩ := good_expr cx e false _ _ _ h1 N
  exact ⟨_, N1, Emits_to (Emit.exprStmt e1) rfl rfl (by simp), by simp [i1]⟩

lemma blok_good {b : TStmts} (hb : GoodStmts cx b) : GoodStmt cx (.blok b) := by
  intro st u st' h
  simp only [genStmt_blok, bind_ok, setTempOff_ok] at h
  obtain ⟨_, st1, h1, rfl⟩ := h
  intro N
  obtain ⟨cb, N1, e1, i1⟩ := hb _ _ _ h1 N
  exact ⟨_, N1, Emits_to (Emit.blok e1) rfl rfl (by simp), by simp [i1]⟩

lemma noin_good {b : TStmts} (hb : GoodStmts cx b) : GoodStmt cx (.noin b) := by
  intro st u st' h
  simp only [genStmt, bind_ok, emit_ok, setTempOff_ok] at h
  obtain ⟨_, _, rfl, _, st1, h1, _, _, rfl, rfl⟩ := h
  intro N
  obtain ⟨cb, N1, e1, i1⟩ := hb _ _ _ h1 N
  rw [pt_emitted] at e1
  exact ⟨_, N1, Emits_to (Emit.noin e1) rfl rfl (by simp), by simp [i1]⟩

lemma whil_good {e : TExpr} {b : TStmts} (hb : GoodStmts cx b) : GoodStmt cx (.whil e b) := by
  intro st u st' h
  simp only [genStmt, bind_ok, getIp_ok, operand_ok, emit_ok, setTempOff_ok, patchJmp_ok] at h
  obtain ⟨_, _, ⟨rfl, rfl⟩, a, st1, h1, _, _, ⟨rfl, rfl⟩, _, _, rfl, _, _, rfl, _, st2, h2, _, _, rfl,
    _, _, rfl, rfl⟩ := h
  intro N
  obtain ⟨ce, N1, e1, i1⟩ := good_expr cx e false _ _ _ h1 N
  obtain ⟨cb, N2, e2, i2⟩ := hb _ _ _ h2 N1
  have e2' : Emit cx (.stmts b) (((pt st1 N1).skip 1).reset 0) cb none (pt st2 N2) := by
    simpa using e2
  refine ⟨_, N2, Emits_to (Emit.whil e1 e2') rfl rfl (by simp), ?_⟩
  rw [insns_atOff, insns_patched, modify_eq (u := st.insns ++ ce) (a := .jz false a 0)
    (v := cb ++ [Insn.jmp st.insns.length]) _ (by simp [i1, i2]) (by simp [i1])]
  simp [Insn.setLoc]

lemma dowh_good {e : TExpr} {b : TStmts} (hb : GoodStmts cx b) : GoodStmt cx (.dowh b e) := by
  intro st u st' h
  simp only [genStmt, bind_ok, getIp_ok, operand_ok, emit_ok, setTempOff_ok] at h
  obtain ⟨_, _, ⟨rfl, rfl⟩, _, st1, h1, a, st2, h2, _, _, rfl, rfl⟩ := h
  intro N
  obtain ⟨cb, N1, e1, i1⟩ := hb _ _ _ h1 N
  obtain ⟨ce, N2, e2, i2⟩ := good_expr cx e false _ _ _ h2 N1
  exact ⟨_, N2, Emits_to (Emit.dowh e1 e2) rfl rfl (by simp), by simp [i1, i2]⟩

lemma sendTo_length (fin base : Nat) (ends : List Nat) (code : List Insn) :
    (sendTo fin base ends code).length = code.length := by
  induction ends generalizing code with
  | nil => rfl
  | cons e es ih => rw [sendTo, List.foldl_cons, ← sendTo, ih, List.length_modify]

def sent (st : GenSt) (ends : List Nat) : GenSt :=
  { st with insns := sendTo st.insns.length 0 ends st.insns }

lemma ends_ok {ends : List Nat} {u : PUnit} (h : ends.forM patchJmp st = .ok (u, st')) :
    st' = sent st ends := by
  induction ends generalizing st with
  | nil =>
    obtain ⟨-, rfl⟩ := pure_ok.mp h
    rfl
  | cons e es ih =>
    obtain ⟨_, st1, h1, h⟩ := bind_ok.mp h
    obtain rfl := patchJmp_ok.mp h1
    rw [ih h]
    simp [patched, sent, sendTo]

@[simp] lemma pt_sent (ends : List Nat) (N : List Note) : pt (sent st ends) N = pt st N := by
  simp [pt, sent, sendTo_length]

@[simp] lemma atOff_sent (ends : List Nat) (off : Nat) :
    atOff (sent st ends) off = sent (atOff st off) ends := rfl

lemma modify_append {old code : List Insn} {e : Nat} (f : Insn → Insn) (h : old.length ≤ e) :
    (old ++ code).modify e f = old ++ code.modify (e - old.length) f := by
  induction old generalizing e with
  | nil => simp
  | cons i old ih =>
    obtain ⟨e, rfl⟩ : ∃ k, e = k + 1 := ⟨e - 1, by simp only [List.length_cons] at h; omega⟩
    simp only [List.length_cons, Nat.add_le_add_iff_right] at h
    simp [ih h]

lemma sendTo_append {fin base : Nat} {ends : List Nat} {c1 c2 : List Insn}
    (h : ∀ e ∈ ends, base + c1.length ≤ e) :
    sendTo fin base ends (c1 ++ c2) = c1 ++ sendTo fin (base + c1.length) ends c2 := by
  induction ends generalizing c2 with
  | nil => rfl
  | cons e es ih =>
    have he : base + c1.length ≤ e := h e List.mem_cons_self
    simp only [sendTo, List.foldl_cons] at ih ⊢
    rw [modify_append _ (by omega), Nat.sub_sub]
    exact ih fun e he => h e (List.mem_cons_of_mem _ he)

lemma cond_good {e : TExpr} {b : TStmts} {rest : TElifs} (hb : GoodStmts cx b)
    (hr : GoodElifs cx rest) : GoodStmt cx (.cond e b rest) := by
  intro st u st' h
  simp only [genStmt, bind_ok, getIp_ok, operand_ok, emit_ok, setTempOff_ok] at h
  obtain ⟨a, st1, h1, _, _, ⟨rfl, rfl⟩, _, _, rfl, _, _, rfl, _, st2, h2, _, _, ⟨rfl, rfl⟩, _, _, rfl,
    ends, st3, h3, _, st4, h4, rfl⟩ := h
  obtain rfl := ends_ok h4
  intro N
  obtain ⟨ce, N1, e1, i1⟩ := good_expr cx e false _ _ _ h1 N
  obtain ⟨cb, N2, e2, i2⟩ := hb _ _ _ h2 N1
  have e2' : Emit cx (.stmts b) (((pt st1 N1).skip 1).reset 0) cb none (pt st2 N2) := by
    simpa using e2
  obtain ⟨cr, N3, e3, i3, hends⟩ := hr _ _ _ _ h3 N2 st3.insns.length
  rw [pt_emitted] at e3
  have e3' : Emit cx (.elifs rest (pt st3 N3).ip) ((pt st2 N2).skip 1) _ none (pt st3 N3) := e3
  refine ⟨_, N3, Emits_to (Emit.cond e1 e2' e3') rfl rfl (by simp), ?_⟩
  have hmid : st3.insns = (st.insns ++ ce ++ [Insn.jz false a (st2.insns.length + 1)] ++ cb) ++
      Insn.jmp 0 :: cr := by
    rw [i3, insns_patched, modify_eq (u := st.insns ++ ce) (a := .jz false a 0)
      (v := cb ++ [Insn.jmp 0]) _ (by simp [i1, i2]) (by simp [i1])]
    simp [Insn.setLoc]
  have hjmp : sendTo st3.insns.length 0 (st2.insns.length :: ends) st3.insns =
      sendTo st3.insns.length 0 ends
        ((st.insns ++ ce ++ [Insn.jz false a (st2.insns.length + 1)] ++ cb ++ [Insn.jmp st3.insns.length]) ++
          cr) := by
    rw [sendTo, List.foldl_cons, ← sendTo, Nat.sub_zero, modify_eq _ hmid (by simp [i1, i2])]
    simp [Insn.setLoc]
  rw [atOff_sent]
  change sendTo st3.insns.length 0 (st2.insns.length :: ends) st3.insns = _
  rw [hjmp, sendTo_append (by
    intro e he
    have := hends e he
    simp [i1, i2] at this ⊢
    omega)]
  simp [i1, i2, Nat.add_assoc]

lemma elifsNone_good : GoodElifs cx .none := by
  intro st prev ends st' h N fin
  simp only [genElifs, bind_ok, patchJmp_ok, pure_ok] at h
  obtain ⟨_, _, rfl, rfl, rfl⟩ := h
  exact ⟨[], N, Emits_to Emit.elifsNone rfl rfl (by simp), by simp, by simp⟩

lemma els_good {b : TStmts} (hb : GoodStmts cx b) : GoodElifs cx (.els b) := by
  intro st prev ends st' h N fin
  simp only [genElifs_els, bind_ok, patchJmp_ok, pure_ok] at h
  obtain ⟨_, _, rfl, _, st1, h1, rfl, rfl⟩ := h
  obtain ⟨cb, N1, e1, i1⟩ := hb _ _ _ h1 N
  rw [pt_patched] at e1
  exact ⟨cb, N1, Emit.els e1, i1, by simp⟩

lemma elif_good {e : TExpr} {b : TStmts} {rest : TElifs} (hb : GoodStmts cx b)
    (hr : GoodElifs cx rest) : GoodElifs cx (.elif e b rest) := by
  intro st prev ends st' h N fin
  simp only [genElifs, bind_ok, getIp_ok, operand_ok, emit_ok, setTempOff_ok, patchJmp_ok, pure_ok]
    at h
  obtain ⟨_, _, rfl, a, st1, h1, _, _, ⟨rfl, rfl⟩, _, _, rfl, _, _, rfl, _, st2, h2, _, _, ⟨rfl, rfl⟩, _,
    _, rfl, ends, st3, h3, rfl, rfl⟩ := h
  obtain ⟨ce, N1, e1, i1⟩ := good_expr cx e false _ _ _ h1 N
  obtain ⟨cb, N2, e2, i2⟩ := hb _ _ _ h2 N1
  obtain ⟨cr, N3, e3, i3, hends⟩ := hr _ _ _ _ h3 N2 fin
  rw [pt_patched] at e1
  have e2' : Emit cx (.stmts b) (((pt st1 N1).skip 1).reset 0) cb none (pt st2 N2) := by
    simpa using e2
  rw [pt_emitted] at e3
  have hlen : st2.insns.length = st.insns.length + (ce.length + 1 + cb.length) := by
    simp only [i2, insns_atOff, insns_emitted, i1, insns_patched, List.length_append,
      List.length_modify, List.length_singleton]
    omega
  have hmid : st3.insns = (patched st prev (Insn.setLoc st.insns.length)).insns ++
      (ce ++ [Insn.jz false a (st2.insns.length + 1)] ++ cb ++ Insn.jmp 0 :: cr) := by
    rw [i3, insns_patched, modify_eq (u := (patched st prev (Insn.setLoc st.insns.length)).insns ++ ce)
      (a := .jz false a 0) (v := cb ++ [Insn.jmp 0]) _ (by simp [i1, i2]) (by simp [i1])]
    simp [Insn.setLoc]
  have hjmp : sendTo fin st.insns.length (st2.insns.length :: ends)
        (ce ++ [Insn.jz false a (st2.insns.length + 1)] ++ cb ++ Insn.jmp 0 :: cr) =
      ce ++ [Insn.jz false a (st2.insns.length + 1)] ++ cb ++ [Insn.jmp fin] ++
        sendTo fin (emitted st2 (.jmp 0)).insns.length ends cr := by
    have hfirst := modify_eq (l := ce ++ [Insn.jz false a (st2.insns.length + 1)] ++ cb ++ Insn.jmp 0 :: cr)
      (n := st2.insns.length - st.insns.length) (Insn.setLoc fin) rfl (by simp [hlen]; omega)
    rw [sendTo, List.foldl_cons, ← sendTo, hfirst]
    have hbase : (emitted st2 (.jmp 0)).insns.length = st.insns.length +
        (ce ++ [Insn.jz false a (st2.insns.length + 1)] ++ cb ++ [Insn.jmp fin]).length := by
      simp [hlen]
      omega
    rw [hbase, ← sendTo_append (by rw [← hbase]; exact hends)]
    simp [Insn.setLoc]
  refine ⟨_, N3, Emits_to (Emit.elif e1 e2' e3) hjmp.symm rfl rfl, hmid, ?_⟩
  intro e he
  rcases List.mem_cons.mp he with rfl | he
  · omega
  · have := hends e he
    simp only [insns_emitted, List.length_append, List.length_singleton] at this
    omega

mutual
theorem good_stmt (cx : Cx) : ∀ s : TStmt, GoodStmt cx s
  | .decl _ _ _ => decl_good
  | .cond _ b rest => cond_good (good_stmts cx b) (good_elifs cx rest)
  | .blok b => blok_good (good_stmts cx b)
  | .noin b => noin_good (good_stmts cx b)
  | .whil _ b => whil_good (good_stmts cx b)
  | .dowh b _ => dowh_good (good_stmts cx b)
  | .retn _ => retn_good
  | .wait _ _ _ _ _ => wait_good
  | .wlab func id => fun st _ st' h N => by
    simp only [genStmt, bind_ok, emit_ok, setTempOff_ok] at h
    obtain ⟨_, _, rfl, rfl⟩ := h
    exact ⟨[.wlab func id], N, Emits_to Emit.wlab rfl rfl (by simp), by simp⟩
  | .expr _ => expr_good
theorem good_stmts (cx : Cx) : ∀ b : TStmts, GoodStmts cx b
  | .nil => fun st _ _ h N => by
    obtain ⟨-, rfl⟩ := pure_ok.mp h
    exact ⟨[], .bound st.insns.length :: N, Emits_to Emit.stmtsNil rfl rfl (by simp), by simp⟩
  | .cons s rest => fun st _ _ h N => by
    simp only [genStmts_cons, bind_ok] at h
    obtain ⟨_, st1, h1, h2⟩ := h
    obtain ⟨cs, N1, e1, i1⟩ := good_stmt cx s _ _ _ h1 (.bound st.insns.length :: N)
    obtain ⟨cr, N2, e2, i2⟩ := good_stmts cx rest _ _ _ h2 N1
    exact ⟨_, N2, Emit.stmtsCons e1 e2, by simp [i1, i2]⟩
theorem good_elifs (cx : Cx) : ∀ r : TElifs, GoodElifs cx r
  | .none => elifsNone_good
  | .els b => els_good (good_stmts cx b)
  | .elif _ b rest => elif_good (good_stmts cx b) (good_elifs cx rest)
end

end Stmt

end Quaint.Generated
