import Quaint.Reaping
import Quaint.Linking
import Quaint.Memory
import Quaint.Parts

/-!
`&&` and `||`.

The left operand is tested twice, by the OZ that fills in the result and by the jump around the
code of the right one. Between the two the scheduler may go on with another quaint, and what that
one stores the jump finds.
-/

namespace Quaint.Shortcut

open Relation Types Ast Bytes Code Codegen Exec Step Control Effect Ancestry Transition Partial
  TypeCheck Program Typing Layout Activation Reaping Memory Emit Generated Listing Operand Legality
  Bounds Mutability Linking Parts

/-! ### Turns of a frame -/

/-- The quaint `q` runs, in the last of `k` frames. -/
def Runs (q k : Nat) (s : State) : Prop := s.cur = q ∧ s.vm.temps.length = k

instance (q k : Nat) (s : State) : Decidable (Runs q k s) := inferInstanceAs (Decidable (_ ∧ _))

/-- The instruction may go on with other code, and its frame goes on behind it. -/
def enters : Insn → Bool
  | .call _ _ | .callv _ _ _ | .rte _ | .rtev _ _ | .wait _ _ _ _ _ _ _ => true
  | _ => false

/-- The instruction leaves its frame. -/
def exits : Insn → Bool
  | .ret _ | .retv _ _ | .bfun => true
  | _ => false

/-- A turn of a frame: it executes `i`, which leads to `t`, and goes on in `s'`. In between are the
rounds in which it does not run: those of a call, and of the quaints the scheduler goes on with. -/
structure Turn (o : Obj) (q k : Nat) (i : Insn) (s t s' : State) : Prop where
  runs : Runs q k s
  round : ∃ inp s2, Round o inp i s t s2 ∧
    ReflTransGen (Guarded (fun x => ¬ Runs q k x) (Next o)) s2 s'
  stays : exits i = false
  back : Runs q k s'
  place : s'.vm.ip = if enters i then s.vm.ip + 1 else (t.vms q).ip

section Turns

variable {o : Obj} {q k lo hi : Nat} {i : Insn} {s t s' : State} {code : List Insn}

lemma Turn.fetch (h : Turn o q k i s t s') : o.insns[s.vm.ip]? = some i := by
  obtain ⟨inp, s2, hr, -⟩ := h.round
  exact hr.fetch

lemma Turn.exec (h : Turn o q k i s t s') : ∃ inp, execInsn inp o s i = .ok t := by
  obtain ⟨inp, s2, hr, -⟩ := h.round
  exact ⟨inp, hr.exec⟩

lemma ownMove_ip {u u' : Thread} (h : OwnMove i u u') (hi : enters i = false) :
    u'.ip = u.ip + 1 ∨ target i = some u'.ip := by
  unfold OwnMove at h
  split at h
  · rcases h with rfl | rfl
    · exact .inr rfl
    · exact .inl rfl
  · subst h
    exact .inr rfl
  all_goals first
    | exact h.elim
    | (subst h; exact .inl rfl)
    | cases hi

lemma enters_of_switch (h : isReap i = true ∨ isWait i = true) : enters i = true := by
  rcases h with h | h
  · cases i <;> first | rfl | cases h
  · cases i <;> first | rfl | cases h

lemma exec_ip {w : Words} {c c' : Ctl} (hx : Exec o i w c c') (henter : enters i = false)
    (hexit : exits i = false) :
    (c'.threads c.cur).ip = c.this.ip + 1 ∨ target i = some (c'.threads c.cur).ip := by
  cases hx with
  | own t hmove =>
    rw [show (c.setThis t).threads c.cur = t from Ctl.setThis_this c t]
    exact ownMove_ip hmove henter
  | reapEnded q hi =>
    rw [enters_of_switch (.inl hi)] at henter
    cases henter
  | reap q hi =>
    rw [enters_of_switch (.inl hi)] at henter
    cases henter
  | wait q now w0 w1 isFor isUntil hi =>
    rw [enters_of_switch (.inr hi)] at henter
    cases henter
  | qnt dst loc ssp a ip sp n hi h0 hnew hcur => exact .inl (congrArg Thread.ip (if_pos rfl))
  | qntv dst val a hi h0 hnew hcur => exact .inl (congrArg Thread.ip (if_pos rfl))
  | ret size hi =>
    rcases hi with rfl | ⟨v, rfl⟩
    · cases hexit
    · cases hexit
  | bfun now n live hi =>
    subst hi
    cases hexit

/-- The frame goes on at the next instruction, or where this one jumps to. -/
lemma Turn.ip (h : Turn o q k i s t s') :
    s'.vm.ip = s.vm.ip + 1 ∨ target i = some s'.vm.ip := by
  obtain ⟨inp, s2, hr, -⟩ := h.round
  rw [h.place]
  cases hi : enters i with
  | true => exact .inl (if_pos rfl)
  | false =>
    have hx := exec_ip hr.ctl.1 hi h.stays
    rw [show (ctl s).cur = q from h.runs.1] at hx
    exact hx

end Turns

/-! ### The tests -/

section Tests

variable {s u t : State} {a b d : Opd} {v : Nat} {inp : Inp} {o : Obj} {disj : Bool} {loc : Nat}

lemma leNat_eq_zero {bs : List UInt8} : leNat bs = 0 ↔ ∀ (k : Nat) (b : UInt8), bs[k]? = some b → b = 0 := by
  induction bs with
  | nil => simp [leNat]
  | cons x bs ih =>
    simp only [leNat, Nat.add_eq_zero_iff, Nat.mul_eq_zero, OfNat.ofNat_ne_zero, false_or, ih]
    constructor
    · rintro ⟨hx, hbs⟩ k b hk
      cases k with
      | zero =>
        obtain rfl : x = b := by simpa using hk
        exact UInt8.toNat_inj.mp hx
      | succ k => exact hbs k b (by simpa using hk)
    · intro h
      refine ⟨?_, fun k b hk => h (k + 1) b (by simpa using hk)⟩
      rw [h 0 x rfl]
      rfl

end Tests

/-! ### Both operands -/

section Code

variable {o : Obj} {disj : Bool} {a b d : Opd} {lo mid last q k : Nat} {cl cr : List Insn}
  {s t s' : State} {i : Insn}

/-- The code `&&` and `||` have in an object. -/
def shortCode (disj : Bool) (a b d : Opd) (cl cr : List Insn) (exit : Nat) : List Insn :=
  cl ++ [Insn.oz d a, .jz disj a exit] ++ cr ++ [Insn.oz d b, .arith (if disj then .or else .and) d
    (opdImm d.signd (if disj then 0 else 1) d.size) d]

end Code

/-! ### Every `&&` and `||` -/

section Objects

variable {u : Ast.Unit} {o : Obj} {tops : List TTop} {fns : List Fn} {fn : Fn} {cx : Cx} {e : TExpr}
  {m : Nat}

/-- The code of `&&` and `||`, as the generator has it. -/
lemma emit_conj {op : BOp} {disj : Bool} {l r : TExpr} {t : Ty} {n : Bool} {p p' : Pt}
    {code : List Insn} {res : Option Opd} (hop : conjOp op = some disj)
    (h : Emit cx (.expr (.bexp op l r t) n) p code res p') :
    ∃ p1 p2 cl cr a b, Emit cx (.expr l false) p cl (some a) p1 ∧
      Emit cx (.expr r false) ((p1.alloc t.bytes).skip 2) cr (some b) p2 ∧ t.bytes ≠ 0 ∧
      res = some (p1.temp t.signd t.bytes) ∧ p'.ip = p2.ip + 2 ∧
      code = shortCode disj a b (p1.temp t.signd t.bytes) cl cr (p2.ip + 2) := by
  cases h with
  | assn | coma => cases hop
  | asmu hop' =>
    rw [asmuOp_conj hop'] at hop
    cases hop
  | plus hop' | aspl hop' =>
    rw [plusOp_conj hop'] at hop
    cases hop
  | equl hop' =>
    rw [bexpInsn_conj hop'] at hop
    cases hop
  | conj hop' hl ht hr =>
    obtain rfl := Option.some.inj (hop.symm.trans hop')
    exact ⟨_, _, _, _, _, _, hl, hr, ht, rfl, rfl, rfl⟩

end Objects

end Quaint.Shortcut
