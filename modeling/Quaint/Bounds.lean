import Quaint.Legality

/-!
Where the operands of a function lie: temporaries inside the frame its first instruction
allocates, variables inside its frame, globals and strings inside the global data.
-/

namespace Quaint.Bounds

open Types Ast Scope TypeCheck Code Codegen Program Typing Layout Emit Generated Listing Operand Legality

/-! ### Places -/

/-- The bytes the machine takes at the place of an operand: a pointer if it is indirect. -/
def taken (a : Opd) : Nat := if a.indirect then 8 else a.size

/-- The operand lies inside the temporaries, the frame or the global data. -/
def Inside (tsize frameSize area : Nat) (a : Opd) : Prop :=
  match a.opd with
  | .imm => True
  | .temp => a.off + taken a ≤ tsize
  | .auto => a.off + taken a ≤ frameSize
  | .glob => a.off + taken a ≤ area

/-- All that was allocated at the one point is there at the other. -/
structure Below (p q : Pt) : Prop where
  peak : p.peak ≤ q.peak
  strings : p.strings.length ≤ q.strings.length

/-- The operand lies inside what is there at a point. -/
def InsideAt (cx : Cx) (q : Pt) (a : Opd) : Prop :=
  Inside q.peak cx.ftag.frameSize (cx.dataSize + q.strings.length) a

def InsideCode (cx : Cx) (q : Pt) (code : List Insn) : Prop := ∀ i ∈ code, ∀ a ∈ i.opds, InsideAt cx q a

section Points

variable {cx : Cx} {x : Item} {p p' q : Pt} {code c1 c2 : List Insn} {r : Option Opd} {a b : Opd}
  {i : Insn} {n : Nat}

@[simp] lemma alloc_peak (n : Nat) : (p.alloc n).peak = max p.peak (p.reach n) := rfl
@[simp] lemma skip_strings (n : Nat) : (p.skip n).strings = p.strings := rfl
@[simp] lemma alloc_strings (n : Nat) : (p.alloc n).strings = p.strings := rfl
@[simp] lemma string_strings (s : List UInt8) : (p.string s).strings = p.strings ++ s ++ [0] := rfl

lemma note_reach (n : Note) (k : Nat) : (p.note n).reach k = p.reach k := rfl

/-- A slot that wraps around starts lower than it would. -/
lemma slot_add_le (n : Nat) : p.slot n + n ≤ p.reach n := Nat.add_le_add_right (Nat.mod_le _ _) n

lemma slot_add (h : p.reach n < 2 ^ 64) : p.slot n + n = p.reach n := by
  rw [Pt.slot, wrap64_of_lt ((Nat.le_add_right _ _).trans_lt h)]
  rfl

lemma le_slot (h : p.reach n < 2 ^ 64) : p.tempOff ≤ p.slot n := by
  rw [Pt.slot, wrap64_of_lt ((Nat.le_add_right _ _).trans_lt h)]
  exact le_alignUp _ _

lemma alloc_tempOff (h : p.reach n < 2 ^ 64) : (p.alloc n).tempOff = p.slot n + n :=
  wrap64_of_lt ((slot_add_le n).trans_lt h)

lemma Below.refl : Below p p := ⟨Nat.le_refl _, Nat.le_refl _⟩

@[simp] lemma below_skip {n : Nat} : Below p (q.skip n) ↔ Below p q := ⟨fun h => ⟨h.1, h.2⟩, fun h => ⟨h.1, h.2⟩⟩
@[simp] lemma skip_below {n : Nat} : Below (p.skip n) q ↔ Below p q := ⟨fun h => ⟨h.1, h.2⟩, fun h => ⟨h.1, h.2⟩⟩
@[simp] lemma reset_below {n : Nat} : Below (p.reset n) q ↔ Below p q := ⟨fun h => ⟨h.1, h.2⟩, fun h => ⟨h.1, h.2⟩⟩
@[simp] lemma below_reset {n : Nat} : Below p (q.reset n) ↔ Below p q := ⟨fun h => ⟨h.1, h.2⟩, fun h => ⟨h.1, h.2⟩⟩
@[simp] lemma note_below {n : Note} : Below (p.note n) q ↔ Below p q := ⟨fun h => ⟨h.1, h.2⟩, fun h => ⟨h.1, h.2⟩⟩
@[simp] lemma below_note {n : Note} : Below p (q.note n) ↔ Below p q := ⟨fun h => ⟨h.1, h.2⟩, fun h => ⟨h.1, h.2⟩⟩
@[simp] lemma bound_below : Below p.bound q ↔ Below p q := ⟨fun h => ⟨h.1, h.2⟩, fun h => ⟨h.1, h.2⟩⟩
@[simp] lemma below_bound : Below p q.bound ↔ Below p q := ⟨fun h => ⟨h.1, h.2⟩, fun h => ⟨h.1, h.2⟩⟩

/-- Below a point behind a temporary lie what was there before and the temporary. -/
lemma alloc_below {n : Nat} : Below (p.alloc n) q ↔ Below p q ∧ p.reach n ≤ q.peak := by
  constructor
  · rintro ⟨h1, h2⟩
    rw [alloc_peak] at h1
    exact ⟨⟨by omega, h2⟩, by omega⟩
  · rintro ⟨⟨h1, h2⟩, h3⟩
    exact ⟨by rw [alloc_peak]; omega, h2⟩

lemma string_below {s : List UInt8} :
    Below (p.string s) q ↔ Below p q ∧ p.strings.length + s.length + 1 ≤ q.strings.length := by
  constructor
  · rintro ⟨h1, h2⟩
    simp only [string_strings, List.length_append, List.length_cons, List.length_nil] at h2
    exact ⟨⟨h1, by omega⟩, by omega⟩
  · rintro ⟨⟨h1, h2⟩, h3⟩
    refine ⟨h1, ?_⟩
    simp only [string_strings, List.length_append, List.length_cons, List.length_nil]
    omega

lemma scaled_below {m : Nat} (h : Scaled p m a code b p') (hq : Below p' q) : Below p q := by
  cases h with
  | one => exact hq
  | many => exact (alloc_below.mp (skip_below.mp hq)).1

lemma indexed_below {m n : Nat} (h : Indexed p m n a code b p') (hq : Below p' q) : Below p q := by
  cases h with
  | byte => exact (alloc_below.mp hq).1
  | widen | scale | both => exact (alloc_below.mp (skip_below.mp hq)).1

lemma fetched_below (h : Fetched p a code b p') (hq : Below p' q) : Below p q := by
  cases h with
  | direct => exact hq
  | indirect => exact (alloc_below.mp (skip_below.mp hq)).1

lemma base_below (h : Base p a code b p') (hq : Below p' q) : Below p q := by
  cases h with
  | indirect => exact hq
  | direct => exact (alloc_below.mp (skip_below.mp hq)).1

/-- Nothing that was allocated is given back. -/
theorem emit_below (h : Emit cx x p code r p') : ∀ {q}, Below p' q → Below p q := by
  induction h with
  | plus _ _ _ hs _ ihl ihr | aspl _ _ _ hs _ ihl ihr =>
    intro q hq
    exact ihl (ihr (scaled_below hs (alloc_below.mp (skip_below.mp hq)).1))
  | arow _ _ hf _ ihl =>
    intro q hq
    exact ihl (fetched_below hf (alloc_below.mp (skip_below.mp hq)).1)
  | aexp _ _ hi ha ihb iho =>
    intro q hq
    exact ihb (iho (indexed_below hi (base_below ha (alloc_below.mp (skip_below.mp hq)).1)))
  | strl => exact fun hq => (string_below.mp (alloc_below.mp (skip_below.mp hq)).1).1
  | scop | szof | name | nmbr | argsNil | elifsNone => exact id
  | stmtsNil => exact fun hq => bound_below.mp hq
  | texp hc ht htv hfv ihc iht ihf =>
    intro q hq
    have h1 := iht (skip_below.mp (reset_below.mp (ihf (skip_below.mp hq))))
    exact ihc (alloc_below.mp (skip_below.mp h1)).1
  | cond he hb hr ihe ihb ihr =>
    intro q hq
    have h1 := ihb (skip_below.mp (ihr (reset_below.mp hq)))
    exact ihe (skip_below.mp (reset_below.mp h1))
  | elif he hb hr ihe ihb ihr =>
    intro q hq
    have h1 := ihb (skip_below.mp (ihr hq))
    exact ihe (skip_below.mp (reset_below.mp h1))
  | _ => simp_all [alloc_below]

/-- As long as nothing has wrapped around, the peak of the generator is where the temporaries end. -/
def Plain (p : Pt) : Prop := p.peak < 2 ^ 64 → p.tempOffPeak = p.peak

@[simp] lemma plain_skip {n : Nat} : Plain (p.skip n) ↔ Plain p := Iff.rfl
@[simp] lemma plain_reset {n : Nat} : Plain (p.reset n) ↔ Plain p := Iff.rfl
@[simp] lemma plain_note {n : Note} : Plain (p.note n) ↔ Plain p := Iff.rfl
@[simp] lemma plain_bound : Plain p.bound ↔ Plain p := Iff.rfl
@[simp] lemma plain_string {s : List UInt8} : Plain (p.string s) ↔ Plain p := Iff.rfl

@[simp] lemma plain_alloc (h : Plain p) : Plain (p.alloc n) := by
  intro hfit
  rw [alloc_peak] at hfit
  have hreach : p.reach n < 2 ^ 64 := (le_max_right _ _).trans_lt hfit
  have htop : wrap64 (p.slot n + n) = p.reach n := (alloc_tempOff hreach).trans (slot_add hreach)
  change max p.tempOffPeak (wrap64 (p.slot n + n)) = max p.peak (p.reach n)
  rw [htop, h ((le_max_left _ _).trans_lt hfit)]

lemma scaled_plain {m : Nat} (h : Scaled p m a code b p') (hp : Plain p) : Plain p' := by
  cases h <;> simp [hp]

lemma indexed_plain {m n : Nat} (h : Indexed p m n a code b p') (hp : Plain p) : Plain p' := by
  cases h <;> simp [hp]

lemma fetched_plain (h : Fetched p a code b p') (hp : Plain p) : Plain p' := by
  cases h <;> simp [hp]

lemma base_plain (h : Base p a code b p') (hp : Plain p) : Plain p' := by
  cases h <;> simp [hp]

theorem emit_plain (h : Emit cx x p code r p') : Plain p → Plain p' := by
  induction h with
  | plus _ _ _ hs _ ihl ihr | aspl _ _ _ hs _ ihl ihr =>
    exact fun hp => plain_alloc (scaled_plain hs (ihr (ihl hp)))
  | arow _ _ hf _ ihl => exact fun hp => plain_alloc (fetched_plain hf (ihl hp))
  | aexp _ _ hi ha ihb iho =>
    exact fun hp => plain_alloc (base_plain ha (indexed_plain hi (iho (ihb hp))))
  | _ =>
    intro hp
    simp_all

end Points

/-! ### Small temporaries -/

section Small

variable {cx : Cx} {x : Item} {p p' q : Pt} {code : List Insn} {r : Option Opd} {a b : Opd} {n k B : Nat}

/-- The size of the temporary a node of an expression may take. -/
def nodeBytes : TExpr → Nat
  | .cast _ c _ => c.bytes
  | e => (typeOfExpr e).bytes

/-- No expression needs a temporary of more than eight bytes. -/
def typesSmall : Rule := ⟨fun e => decide (nodeBytes e ≤ 8), fun _ => true, fun _ => true, fun _ => true⟩

/-- The temporaries have taken no more than 32 bytes an instruction, but for some. -/
structure Low (B : Nat) (p : Pt) : Prop where
  off : p.tempOff ≤ B + 32 * p.ip
  peak : p.peak ≤ B + 32 * p.ip

lemma low_alloc (hp : Low B p) (hn : n ≤ 8) : Low (B + 16) (p.alloc n) := by
  obtain ⟨h1, h2⟩ := hp
  have hup : alignUp p.tempOff n ≤ p.tempOff + 8 := by
    unfold alignUp
    split <;> omega
  have hreach : p.reach n ≤ p.tempOff + 16 := by
    rw [Pt.reach, if_pos hn]
    omega
  exact ⟨((Nat.mod_le _ _).trans (slot_add_le n)).trans (by show _ ≤ B + 16 + 32 * p.ip; omega),
    max_le (by show _ ≤ B + 16 + 32 * p.ip; omega) (by show _ ≤ B + 16 + 32 * p.ip; omega)⟩

lemma low_skip (hk : 0 < k) (hp : Low (B + 32) p) : Low B (p.skip k) := by
  obtain ⟨h1, h2⟩ := hp
  constructor
  · show p.tempOff ≤ B + 32 * (p.ip + k)
    omega
  · show p.peak ≤ B + 32 * (p.ip + k)
    omega

lemma low_mono {B' : Nat} (hp : Low B p) (h : B ≤ B') : Low B' p :=
  ⟨hp.off.trans (by omega), hp.peak.trans (by omega)⟩

lemma low_next (hk : 0 < k) (hp : Low B p) : Low B (p.skip k) := low_skip hk (low_mono hp (by omega))

/-- A temporary and the instruction that writes it. -/
lemma low_temp (hp : Low B p) (hn : n ≤ 8) (hk : 0 < k) : Low B ((p.alloc n).skip k) :=
  low_skip hk (low_mono (low_alloc hp hn) (by omega))

lemma low_reset (hp : Low B p) (h : n ≤ B + 32 * p.ip) : Low B (p.reset n) := ⟨h, hp.peak⟩

lemma low_start (hp : Low B p) : Low B (p.reset 0) := low_reset hp (Nat.zero_le _)

lemma scaled_low {m : Nat} (h : Scaled p m a code b p') (hp : Low B p) : Low B p' := by
  cases h with
  | one => exact hp
  | many => exact low_temp hp le_rfl Nat.one_pos

lemma indexed_low {m : Nat} (h : Indexed p m n a code b p') (hp : Low B p) : Low (B + 16) p' := by
  cases h with
  | byte => exact low_alloc hp le_rfl
  | widen | scale | both => exact low_mono (low_temp hp le_rfl (by omega)) (by omega)

lemma fetched_low (h : Fetched p a code b p') (hp : Low B p) : Low B p' := by
  cases h with
  | direct => exact hp
  | indirect => exact low_temp hp le_rfl Nat.one_pos

lemma base_low (h : Base p a code b p') (hp : Low B p) : Low B p' := by
  cases h with
  | indirect => exact hp
  | direct => exact low_temp hp le_rfl Nat.one_pos

/-- **Small temporaries are few.** -/
theorem emit_low (h : Emit cx x p code r p') : typesSmall.item x = true → ∀ {B}, Low B p → Low B p' := by
  induction h with
  | assn _ _ ihl ihr | asmu _ _ _ ihl ihr =>
    intro hf B hp
    simp only [Rule.item, Rule.expr, Bool.and_eq_true] at hf
    exact low_next Nat.one_pos (ihr hf.2 (ihl hf.1.2 hp))
  | plus _ _ _ hs _ ihl ihr | aspl _ _ _ hs _ ihl ihr =>
    intro hf B hp
    simp only [Rule.item, Rule.expr, Bool.and_eq_true] at hf
    exact low_temp (scaled_low hs (ihr hf.2 (ihl hf.1.2 hp))) (of_decide_eq_true hf.1.1) Nat.one_pos
  | conj _ _ _ _ ihl ihr =>
    intro hf B hp
    simp only [Rule.item, Rule.expr, Bool.and_eq_true] at hf
    have h1 := low_temp (k := 2) (ihl hf.1.2 hp) (of_decide_eq_true hf.1.1) (by omega)
    exact low_next (by omega) (ihr hf.2 h1)
  | coma hl _ ihl ihr =>
    intro hf B hp
    simp only [Rule.item, Rule.expr, Bool.and_eq_true] at hf
    have hle := emit_le hl
    exact ihr hf.2 (low_reset (ihl hf.1.2 hp) (hp.off.trans (by omega)))
  | equl _ _ _ _ ihl ihr =>
    intro hf B hp
    simp only [Rule.item, Rule.expr, Bool.and_eq_true] at hf
    exact low_temp (ihr hf.2 (ihl hf.1.2 hp)) (of_decide_eq_true hf.1.1) Nat.one_pos
  | scop | szof | name | nmbr | argsNil | elifsNone => exact fun _ => id
  | atsi _ _ _ ih | unary _ _ _ ih | multRvalue _ _ _ ih | multValue _ _ _ ih | xexp _ _ _ ih
  | xexpBy _ _ _ ih | cast _ _ ih | amps _ _ ih =>
    intro hf B hp
    simp only [Rule.item, Rule.expr, Bool.and_eq_true] at hf
    exact low_temp (ih hf.2 hp) (of_decide_eq_true hf.1) (by omega)
  | memb _ _ _ ih =>
    intro hf B hp
    simp only [Rule.item, Rule.expr, Bool.and_eq_true] at hf
    exact ih hf.2 hp
  | uplus _ ih | multLvalue _ _ ih =>
    intro hf B hp
    simp only [Rule.item, Rule.expr, Bool.and_eq_true] at hf
    exact ih hf.2 hp
  | membIndirect _ _ _ ih =>
    intro hf B hp
    simp only [Rule.item, Rule.expr, Bool.and_eq_true] at hf
    exact low_skip (by omega) (low_alloc (low_alloc (ih hf.2 hp) le_rfl) le_rfl)
  | arow _ _ hf' _ ih =>
    intro hf B hp
    simp only [Rule.item, Rule.expr, Bool.and_eq_true] at hf
    exact low_temp (fetched_low hf' (ih hf.2 hp)) le_rfl Nat.one_pos
  | tildCall _ _ _ iha ihl =>
    intro hf B hp
    simp only [Rule.item, Rule.expr, Bool.and_eq_true] at hf
    -- the handle is allocated first and paid for by `qnt`
    have h1 := low_temp (k := 1) (low_alloc hp (of_decide_eq_true hf.1)) le_rfl Nat.one_pos
    have h2 := ihl hf.2.1.2 (iha hf.2.2 h1)
    exact low_skip (B := B) Nat.one_pos (low_mono ⟨h2.off, h2.peak⟩ (by omega))
  | tild _ _ _ ih =>
    intro hf B hp
    simp only [Rule.item, Rule.expr, Bool.and_eq_true] at hf
    exact low_skip Nat.one_pos (low_mono (ih hf.2 (low_alloc hp (of_decide_eq_true hf.1))) (by omega))
  | multVoid _ _ _ ih | incr _ _ _ ih | incrBy _ _ _ ih =>
    intro hf B hp
    simp only [Rule.item, Rule.expr, Bool.and_eq_true] at hf
    exact low_next Nat.one_pos (ih hf.2 hp)
  | callv _ _ _ iha ihl =>
    intro hf B hp
    simp only [Rule.item, Rule.expr, Bool.and_eq_true] at hf
    have h1 := low_temp (k := 1) hp (le_refl 8) Nat.one_pos
    have h2 := ihl hf.1.2 (iha hf.2 h1)
    exact low_temp ⟨h2.off, h2.peak⟩ (of_decide_eq_true hf.1.1) Nat.one_pos
  | call _ _ _ iha ihl =>
    intro hf B hp
    simp only [Rule.item, Rule.expr, Bool.and_eq_true] at hf
    have h1 := low_temp (k := 1) hp (le_refl 8) Nat.one_pos
    have h2 := ihl hf.1.2 (iha hf.2 h1)
    exact low_next Nat.one_pos ⟨h2.off, h2.peak⟩
  | aexp _ _ hi ha ihb iho =>
    intro hf B hp
    simp only [Rule.item, Rule.expr, Bool.and_eq_true] at hf
    have h1 := base_low ha (indexed_low hi (iho hf.2 (ihb hf.1.2 hp)))
    exact low_skip Nat.one_pos (low_alloc h1 le_rfl)
  | texp hc _ htv _ ihc iht ihf =>
    intro hf B hp
    simp only [Rule.item, Rule.expr, Bool.and_eq_true] at hf
    have hn := of_decide_eq_true hf.1.1.1
    have h1 := low_temp (k := 1) (ihc hf.1.1.2 hp) hn Nat.one_pos
    have hle := emit_le htv
    have h2 := low_next (k := 2) (by omega) (iht hf.1.2 h1)
    have h3 := ihf hf.2 (low_reset h2
      (h1.off.trans (Nat.add_le_add_left (Nat.mul_le_mul_left 32 (hle.trans (Nat.le_add_right _ 2))) B)))
    exact low_next Nat.one_pos h3
  | strl =>
    intro hf B hp
    exact low_temp ⟨hp.off, hp.peak⟩ le_rfl Nat.one_pos
  | argsCons _ _ ih ihr =>
    intro hf B hp
    simp only [Rule.item, Rule.args, Bool.and_eq_true] at hf
    exact ihr hf.2 (low_next Nat.one_pos (ih hf.1.2 hp))
  | decl => exact fun _ _ hp => low_start hp
  | declInit _ _ ih =>
    intro hf B hp
    have h1 := ih hf hp
    exact low_start ⟨h1.off.trans (by show _ ≤ B + 32 * (_ + _); omega),
      h1.peak.trans (by show _ ≤ B + 32 * (_ + _); omega)⟩
  | cond _ _ _ ihe ihb ihr =>
    intro hf B hp
    simp only [Rule.item, Rule.stmt, Bool.and_eq_true] at hf
    have h1 := low_start (low_next Nat.one_pos (ihe hf.1.1.2 hp))
    exact low_start (ihr hf.2 (low_next Nat.one_pos (ihb hf.1.2 h1)))
  | blok _ ih => exact fun hf _ hp => low_start (ih hf hp)
  | els _ ih => exact fun hf _ hp => ih hf hp
  | noin _ ih =>
    exact fun hf _ hp => low_start (low_next Nat.one_pos (ih hf (low_next Nat.one_pos hp)))
  | whil _ _ ihe ihb =>
    intro hf B hp
    simp only [Rule.item, Rule.stmt, Bool.and_eq_true] at hf
    have h1 := low_start (low_next Nat.one_pos (ihe hf.1.2 hp))
    exact low_start (low_next Nat.one_pos (ihb hf.2 h1))
  | dowh _ _ ihb ihe =>
    intro hf B hp
    simp only [Rule.item, Rule.stmt, Bool.and_eq_true] at hf
    exact low_start (low_next Nat.one_pos (ihe hf.2 (ihb hf.1.1 hp)))
  | retn | wlab => exact fun _ _ hp => low_start (low_next Nat.one_pos hp)
  | retnValue _ ih | exprStmt _ ih =>
    exact fun hf _ hp => low_start (low_next Nat.one_pos (ih hf hp))
  | wait _ _ ih =>
    intro hf B hp
    simp only [Rule.item, Rule.stmt, Bool.and_eq_true] at hf
    exact low_start (low_next Nat.one_pos (ih hf.1.2 hp))
  | waitFor _ _ _ ihq ihf =>
    intro hf B hp
    simp only [Rule.item, Rule.stmt, Bool.and_eq_true] at hf
    exact low_start (low_next Nat.one_pos (ihf hf.2 (ihq hf.1.2 hp)))
  | stmtsNil => exact fun _ _ hp => ⟨hp.off, hp.peak⟩
  | stmtsCons _ _ ihs ihr =>
    intro hf B hp
    simp only [Rule.item, Rule.stmts, Bool.and_eq_true] at hf
    exact ihr hf.2 (ihs hf.1 ⟨hp.off, hp.peak⟩)
  | elif _ _ _ ihe ihb ihr =>
    intro hf B hp
    simp only [Rule.item, Rule.elifs, Bool.and_eq_true] at hf
    have h1 := low_start (low_next Nat.one_pos (ihe hf.1.1.2 hp))
    exact ihr hf.2 (low_next Nat.one_pos (ihb hf.1.2 h1))

/-- Statements leave no temporary behind. -/
lemma stmts_off {ss : TStmts} (h : Emit cx (.stmts ss) p code r p') (hp : p.tempOff = 0) : p'.tempOff = 0 := by
  induction ss using TStmts.rec (motive_1 := fun _ => True) (motive_3 := fun _ => True)
    generalizing p code r p' with
  | nil =>
    cases h
    exact hp
  | cons s ss _ ih =>
    cases h with
    | stmtsCons hs hr => exact ih hr (by cases hs <;> rfl)
  | _ => trivial

end Small

/-! ### The operands of an item -/

section Items

variable {tops : List TTop} {f : TFunc} {locs : List (Nat × Nat)} {cx : Cx} {x : Item} {p p' q : Pt}
  {code c1 c2 : List Insn} {r : Option Opd} {a b : Opd} {i : Insn} {t : Ty}

/-- The tables of the generator lie inside the frame and the data. -/
structure TablesInside (cx : Cx) : Prop where
  frame : ∀ e ∈ cx.ftag.layout, e.2.off + e.2.size ≤ cx.ftag.frameSize
  globals : ∀ e ∈ cx.globals, e.2.off + e.2.size ≤ cx.dataSize

@[simp] lemma insideCode_nil : InsideCode cx q [] := by simp [InsideCode]

@[simp] lemma insideCode_append : InsideCode cx q (c1 ++ c2) ↔ InsideCode cx q c1 ∧ InsideCode cx q c2 := by
  simp [InsideCode, or_imp, forall_and]

@[simp] lemma insideCode_cons :
    InsideCode cx q (i :: code) ↔ (∀ a ∈ i.opds, InsideAt cx q a) ∧ InsideCode cx q code := by
  simp [InsideCode]

@[simp] lemma inside_imm {s : Bool} {v size : Nat} : InsideAt cx q (opdImm s v size) := trivial

@[simp] lemma inside_temp {s : Bool} {n : Nat} (h : p.reach n ≤ q.peak) : InsideAt cx q (p.temp s n) :=
  (slot_add_le n).trans h

@[simp] lemma inside_word (h : p.reach 8 ≤ q.peak) : InsideAt cx q p.word := inside_temp h

@[simp] lemma inside_word_indirect {s : Bool} {n : Nat} (h : p.reach 8 ≤ q.peak) :
    InsideAt cx q (p.word.setIndirect s n) := by
  simpa [InsideAt, Inside, Pt.word, Pt.temp, taken, Opd.setIndirect] using (slot_add_le 8).trans h

lemma inside_setDirect (h : InsideAt cx q a) (ha : a.indirect = true) : InsideAt cx q a.setDirect := by
  unfold InsideAt Inside at *
  simp only [Opd.setDirect]
  split <;> simp_all [taken]

lemma scaled_inside {m : Nat} (hs : Scaled p m a code b p') (hq : Below p' q) (ha : InsideAt cx q a) :
    InsideCode cx q code ∧ InsideAt cx q b := by
  cases hs with
  | one => exact ⟨insideCode_nil, ha⟩
  | many => simp [Insn.opds, ha, (alloc_below.mp (skip_below.mp hq)).2]

lemma indexed_inside {m k : Nat} (hs : Indexed p m k a code b p') (hq : Below p' q)
    (ha : InsideAt cx q a) : InsideCode cx q code ∧ InsideAt cx q b := by
  cases hs with
  | byte => exact ⟨insideCode_nil, ha⟩
  | widen | scale | both => simp [Insn.opds, ha, (alloc_below.mp (skip_below.mp hq)).2]

lemma fetched_inside (hs : Fetched p a code b p') (hq : Below p' q) (ha : InsideAt cx q a) :
    InsideCode cx q code ∧ InsideAt cx q b := by
  cases hs with
  | direct => exact ⟨insideCode_nil, ha⟩
  | indirect hi => simp [Insn.opds, inside_setDirect ha hi, (alloc_below.mp (skip_below.mp hq)).2]

lemma base_inside (hs : Base p a code b p') (hq : Below p' q) (ha : InsideAt cx q a) :
    InsideCode cx q code ∧ InsideAt cx q b := by
  cases hs with
  | indirect hi => exact ⟨insideCode_nil, inside_setDirect ha hi⟩
  | direct => simp [Insn.opds, ha, (alloc_below.mp (skip_below.mp hq)).2]

lemma inside_auto (hT : TablesInside cx) {n : Sym} {ofs : Ofs} (h : htabGet cx.ftag.layout n = some ofs)
    {s : Bool} : InsideAt cx q (opdAuto s ofs.off ofs.size) := hT.frame _ (mem_of_htabGet h)

lemma inside_name (hT : TablesInside cx) {so : ScopeObj} (h : nameOpd cx so t = some a) :
    InsideAt cx q a := by
  rcases so with ⟨name, obj⟩
  cases obj with
  | dupl => cases h
  | gvar d =>
    obtain ⟨ofs, ho, rfl⟩ := Option.map_eq_some_iff.mp h
    exact (hT.globals _ (mem_of_htabGet ho)).trans (Nat.le_add_right _ _)
  | avar d =>
    obtain ⟨ofs, ho, rfl⟩ := Option.map_eq_some_iff.mp h
    exact inside_auto hT ho
  | parm d =>
    obtain ⟨ofs, ho, rfl⟩ := Option.map_eq_some_iff.mp h
    exact inside_auto hT ho
  | bcon id =>
    obtain ⟨v, -, rfl⟩ := Option.map_eq_some_iff.mp h
    exact inside_imm
  | bfun id =>
    cases h
    exact inside_imm
  | func g =>
    cases h
    exact inside_imm

lemma inside_inits (hT : TablesInside cx) {ns : List Sym} (hi : Inits cx t a ns code)
    (ha : InsideAt cx q a) : InsideCode cx q code := by
  induction hi with
  | nil => exact insideCode_nil
  | cons n ns ofs code hn h ih => simp [Insn.opds, ih, ha, inside_auto hT hn]

/-- A member lies inside the operand it is a member of. -/
lemma inside_member {l : TExpr} {n : Bool} {idx off : Nat} {m : Ty} (h : InsideAt cx q a)
    (ho : OperandOk locs l n a) (hf : fits (typeOfExpr l) = true) (hc : (typeOfExpr l).count = 1)
    (hm : memberAt (typeOfExpr l) idx = some (m, off)) (ha : a.indirect = false) :
    InsideAt cx q { a with off := wrap64 (a.off + off), signd := m.signd, size := m.bytes } := by
  obtain ⟨-, hle⟩ := member_inside hf hm
  by_cases hk : a.opd = .imm
  · unfold InsideAt Inside
    simp only [hk]
  · have hsz : a.size = (typeOfExpr l).size := by
      rw [size_of_ne ho hk, bytes_of_fits hf, hc, Nat.one_mul]
    have hw : wrap64 (a.off + off) ≤ a.off + off := Nat.mod_le _ _
    unfold InsideAt Inside taken at *
    simp only [ha, Bool.false_eq_true, if_false] at h ⊢
    split <;> simp_all <;> omega

/-- The operand of a pointer, taken as a place. -/
lemma inside_pointee {e : TExpr} {n s : Bool} {k : Nat} (h : InsideAt cx q a) (ho : OperandOk locs e n a)
    (hp : (typeOfExpr e).bytes = 8) : InsideAt cx q (a.setIndirect s k) := by
  by_cases hk : a.opd = .imm
  · simp [InsideAt, Inside, Opd.setIndirect, hk]
  · have hsz := (size_of_ne ho hk).trans hp
    have ht : taken a = 8 := by simp [taken, hsz]
    unfold InsideAt Inside at *
    simp only [Opd.setIndirect, taken, if_true] at *
    rw [ht] at h
    exact h

/-- What `*` is applied to is a word. -/
lemma pointee_word {e : TExpr} (h : typeFromUexp .mult e = .ok (.uexp .mult e t)) :
    (typeOfExpr e).bytes = 8 := by
  rcases (mult_checked h).2 with hp | ⟨hq, -⟩
  · rw [hp, ptr_word.1]
  · rw [hq, quaint_word.1]

/-- The type of every expression fits. -/
def typesFit : Rule := ⟨fun e => fits (typeOfExpr e), fun _ => true, fun _ => true, fun _ => true⟩

lemma fits_of_rule {e : TExpr} (h : typesFit.expr e = true) : fits (typeOfExpr e) = true := by
  cases e <;> simp_all [Rule.expr, typesFit]

lemma some_inside {a : Opd} (h : InsideAt cx q a) : ∀ b, some a = some b → InsideAt cx q b := by
  rintro b ⟨⟩
  exact h

lemma none_inside : ∀ b, (none : Option Opd) = some b → InsideAt cx q b := by
  rintro b ⟨⟩

/-- **The operands of an item lie inside what was allocated when it ends.** -/
theorem inside_item (hu : InUnit tops f cx) (hr : Resolves locs tops) (hT : TablesInside cx)
    (h : Emit cx x p code r p') (hc : ItemChecked (KnownIn tops f) (stmtsLocals f.stmts) x)
    (hf : typesFit.item x = true) : ∀ {q}, Below p' q →
      InsideCode cx q code ∧ ∀ a, r = some a → InsideAt cx q a := by
  have hop {e : TExpr} {n : Bool} {p p' : Pt} {code : List Insn} {a : Opd}
      (h : Emit cx (.expr e n) p code (some a) p') (hc : Checked (KnownIn tops f) e) :
      OperandOk locs e n a := emit_item hu hr h hc
  induction h with
  | assn hl hr' ihl ihr | asmu _ hl hr' ihl ihr =>
    intro q hq
    simp only [Rule.item, Rule.expr, Bool.and_eq_true] at hf
    have hq2 := skip_below.mp hq
    obtain ⟨h1, h2⟩ := ihl hc.2.1 hf.1.2 (emit_below hr' hq2)
    obtain ⟨h3, h4⟩ := ihr hc.2.2 hf.2 hq2
    exact ⟨by simp [Insn.opds, h1, h3, h2 _ rfl, h4 _ rfl], some_inside (h2 _ rfl)⟩
  | plus hop' hl hr' hs ht ihl ihr =>
    intro q hq
    simp only [Rule.item, Rule.expr, Bool.and_eq_true] at hf
    obtain ⟨hq3, hsl⟩ := alloc_below.mp (skip_below.mp hq)
    have hq2 := scaled_below hs hq3
    obtain ⟨h1, h2⟩ := ihl hc.2.1 hf.1.2 (emit_below hr' hq2)
    obtain ⟨h3, h4⟩ := ihr hc.2.2 hf.2 hq2
    obtain ⟨h5, h6⟩ := scaled_inside hs hq3 (h4 _ rfl)
    exact ⟨by simp [Insn.opds, h1, h3, h5, h6, h2 _ rfl, hsl], some_inside (inside_temp hsl)⟩
  | aspl hop' hl hr' hs ht ihl ihr =>
    intro q hq
    simp only [Rule.item, Rule.expr, Bool.and_eq_true] at hf
    obtain ⟨hq3, hsl⟩ := alloc_below.mp (skip_below.mp hq)
    have hq2 := scaled_below hs hq3
    obtain ⟨h1, h2⟩ := ihl hc.2.1 hf.1.2 (emit_below hr' hq2)
    obtain ⟨h3, h4⟩ := ihr hc.2.2 hf.2 hq2
    obtain ⟨h5, h6⟩ := scaled_inside hs hq3 (h4 _ rfl)
    exact ⟨by simp [Insn.opds, h1, h3, h5, h6, h2 _ rfl], some_inside (h2 _ rfl)⟩
  | conj hop' hl ht hr' ihl ihr =>
    intro q hq
    simp only [Rule.item, Rule.expr, Bool.and_eq_true] at hf
    have hq2 := skip_below.mp hq
    obtain ⟨hq1, hsl⟩ := alloc_below.mp (skip_below.mp (emit_below hr' hq2))
    obtain ⟨h1, h2⟩ := ihl hc.2.1 hf.1.2 hq1
    obtain ⟨h3, h4⟩ := ihr hc.2.2 hf.2 hq2
    exact ⟨by simp [Insn.opds, h1, h3, h2 _ rfl, h4 _ rfl, hsl], some_inside (inside_temp hsl)⟩
  | coma hl hr' ihl ihr =>
    intro q hq
    simp only [Rule.item, Rule.expr, Bool.and_eq_true] at hf
    obtain ⟨h1, -⟩ := ihl hc.2.1 hf.1.2 (reset_below.mp (emit_below hr' hq))
    obtain ⟨h3, h4⟩ := ihr hc.2.2 hf.2 hq
    exact ⟨by simp [h1, h3], h4⟩
  | equl hop' hl hr' ht ihl ihr =>
    intro q hq
    simp only [Rule.item, Rule.expr, Bool.and_eq_true] at hf
    obtain ⟨hq2, hsl⟩ := alloc_below.mp (skip_below.mp hq)
    obtain ⟨h1, h2⟩ := ihl hc.2.1 hf.1.2 (emit_below hr' hq2)
    obtain ⟨h3, h4⟩ := ihr hc.2.2 hf.2 hq2
    refine ⟨?_, some_inside (inside_temp hsl)⟩
    obtain ⟨neq, rfl⟩ | ⟨cop, rfl⟩ | ⟨aop, rfl⟩ := bexpInsn_cases hop' <;>
      simp [Insn.opds, h1, h3, h2 _ rfl, h4 _ rfl, hsl]
  | scop | szof | nmbr =>
    intro q _
    exact ⟨insideCode_nil, some_inside inside_imm⟩
  | name hn =>
    intro q _
    exact ⟨insideCode_nil, some_inside (inside_name hT hn)⟩
  | atsi hl _ _ ih =>
    intro q hq
    simp only [Rule.item, Rule.expr, Bool.and_eq_true] at hf
    obtain ⟨hq1, hsl⟩ := alloc_below.mp (skip_below.mp hq)
    obtain ⟨h1, h2⟩ := ih hc.2 hf.2 hq1
    exact ⟨by simp [Insn.opds, h1, h2 _ rfl, hsl], some_inside (inside_temp hsl)⟩
  | memb hl hm ha ih =>
    intro q hq
    simp only [Rule.item, Rule.expr, Bool.and_eq_true] at hf
    obtain ⟨h1, h2⟩ := ih hc.2 hf.2 hq
    obtain ⟨⟨rhs, ht⟩, hcl⟩ := hc
    obtain ⟨hcount, -, -⟩ := memb_checked ht
    exact ⟨h1, some_inside (inside_member (h2 _ rfl) (hop hl hcl) (fits_of_rule hf.2) hcount hm ha)⟩
  | membIndirect hl hm ha ih =>
    intro q hq
    simp only [Rule.item, Rule.expr, Bool.and_eq_true] at hf
    obtain ⟨hq2, hsl2⟩ := alloc_below.mp (skip_below.mp hq)
    obtain ⟨hq1, hsl1⟩ := alloc_below.mp hq2
    obtain ⟨h1, h2⟩ := ih hc.2 hf.2 hq1
    exact ⟨by simp [Insn.opds, h1, inside_setDirect (h2 _ rfl) ha, hsl1, hsl2],
      some_inside (inside_word_indirect hsl2)⟩
  | arow _ hl hf' _ ih =>
    intro q hq
    simp only [Rule.item, Rule.expr, Bool.and_eq_true] at hf
    obtain ⟨hq2, hsl⟩ := alloc_below.mp (skip_below.mp hq)
    obtain ⟨h1, h2⟩ := ih hc.2 hf.2 (fetched_below hf' hq2)
    obtain ⟨h3, h4⟩ := fetched_inside hf' hq2 (h2 _ rfl)
    exact ⟨by simp [Insn.opds, h1, h3, h4, hsl], some_inside (inside_word_indirect hsl)⟩
  | cast hl _ ih =>
    intro q hq
    simp only [Rule.item, Rule.expr, Bool.and_eq_true] at hf
    obtain ⟨hq1, hsl⟩ := alloc_below.mp (skip_below.mp hq)
    obtain ⟨h1, h2⟩ := ih hc.2.2.2 hf.2 hq1
    exact ⟨by simp [Insn.opds, h1, h2 _ rfl, hsl], some_inside (inside_temp hsl)⟩
  | tildCall _ ha hl iha ihl =>
    intro q hq
    obtain ⟨-, params, ret, -, -, hcl, hca⟩ := hc
    simp only [Rule.item, Rule.expr, Bool.and_eq_true] at hf
    have hq2 := note_below.mp (skip_below.mp hq)
    have hq1 := emit_below hl hq2
    obtain ⟨hq0, hsl2⟩ := alloc_below.mp (skip_below.mp (emit_below ha hq1))
    obtain ⟨-, hsl1⟩ := alloc_below.mp hq0
    obtain ⟨h1, -⟩ := iha ⟨_, hca⟩ hf.2.2 hq1
    obtain ⟨h3, h4⟩ := ihl hcl hf.2.1.2 hq2
    exact ⟨by simp [Insn.opds, h1, h3, h4 _ rfl, hsl1, hsl2], some_inside (inside_temp hsl1)⟩
  | tild _ _ h ih =>
    intro q hq
    simp only [Rule.item, Rule.expr, Bool.and_eq_true] at hf
    have hq1 := skip_below.mp hq
    obtain ⟨-, hsl⟩ := alloc_below.mp (emit_below h hq1)
    obtain ⟨h1, h2⟩ := ih hc.2 hf.2 hq1
    exact ⟨by simp [Insn.opds, h1, h2 _ rfl, hsl], some_inside (inside_temp hsl)⟩
  | uplus h ih =>
    intro q hq
    simp only [Rule.item, Rule.expr, Bool.and_eq_true] at hf
    exact ih hc.2 hf.2 hq
  | unary hop' h _ ih =>
    intro q hq
    simp only [Rule.item, Rule.expr, Bool.and_eq_true] at hf
    obtain ⟨hq1, hsl⟩ := alloc_below.mp (skip_below.mp hq)
    obtain ⟨h1, h2⟩ := ih hc.2 hf.2 hq1
    obtain ⟨-, -, -, hk⟩ := unary_checked hop' hc.1
    refine ⟨?_, some_inside (inside_temp hsl)⟩
    obtain ⟨rfl, -⟩ | ⟨rfl, -⟩ | ⟨rfl, -⟩ := hk <;> simp [Insn.opds, h1, h2 _ rfl, hsl]
  | multLvalue hp h ih =>
    intro q hq
    simp only [Rule.item, Rule.expr, Bool.and_eq_true] at hf
    obtain ⟨h1, h2⟩ := ih hc.2 hf.2 hq
    exact ⟨h1, some_inside (inside_pointee (h2 _ rfl) (hop h hc.2) (pointee_word hc.1))⟩
  | multRvalue _ h _ ih | multValue _ h _ ih =>
    intro q hq
    simp only [Rule.item, Rule.expr, Bool.and_eq_true] at hf
    obtain ⟨hq1, hsl⟩ := alloc_below.mp (skip_below.mp hq)
    obtain ⟨h1, h2⟩ := ih hc.2 hf.2 hq1
    exact ⟨by simp [Insn.opds, h1, h2 _ rfl, hsl], some_inside (inside_temp hsl)⟩
  | multVoid _ h _ ih =>
    intro q hq
    simp only [Rule.item, Rule.expr, Bool.and_eq_true] at hf
    obtain ⟨h1, h2⟩ := ih hc.2 hf.2 (skip_below.mp hq)
    exact ⟨by simp [Insn.opds, h1, h2 _ rfl], none_inside⟩
  | amps h _ ih =>
    intro q hq
    simp only [Rule.item, Rule.expr, Bool.and_eq_true] at hf
    obtain ⟨hq1, hsl⟩ := alloc_below.mp (skip_below.mp hq)
    obtain ⟨h1, h2⟩ := ih hc.2 hf.2 hq1
    exact ⟨by simp [Insn.opds, h1, h2 _ rfl, hsl], some_inside (inside_temp hsl)⟩
  | incr _ h _ ih | incrBy _ h _ ih =>
    intro q hq
    simp only [Rule.item, Rule.expr, Bool.and_eq_true] at hf
    obtain ⟨h1, h2⟩ := ih hc.2 hf.2 (skip_below.mp hq)
    exact ⟨by simp [Insn.opds, h1, h2 _ rfl], some_inside (h2 _ rfl)⟩
  | callv _ ha hl iha ihl =>
    intro q hq
    obtain ⟨params, ret, -, -, hcl, hca⟩ := hc
    simp only [Rule.item, Rule.expr, Bool.and_eq_true] at hf
    obtain ⟨hq2, hsl2⟩ := alloc_below.mp (skip_below.mp hq)
    have hq2 := note_below.mp hq2
    have hq1 := emit_below hl hq2
    obtain ⟨-, hsl1⟩ := alloc_below.mp (skip_below.mp (emit_below ha hq1))
    obtain ⟨h1, -⟩ := iha ⟨_, hca⟩ hf.2 hq1
    obtain ⟨h3, h4⟩ := ihl hcl hf.1.2 hq2
    rw [note_reach] at hsl2
    exact ⟨by simp [Insn.opds, h1, h3, h4 _ rfl, hsl1, hsl2], some_inside (inside_temp hsl2)⟩
  | call _ ha hl iha ihl =>
    intro q hq
    obtain ⟨params, ret, -, -, hcl, hca⟩ := hc
    simp only [Rule.item, Rule.expr, Bool.and_eq_true] at hf
    have hq2 := note_below.mp (skip_below.mp hq)
    have hq1 := emit_below hl hq2
    obtain ⟨-, hsl1⟩ := alloc_below.mp (skip_below.mp (emit_below ha hq1))
    obtain ⟨h1, -⟩ := iha ⟨_, hca⟩ hf.2 hq1
    obtain ⟨h3, h4⟩ := ihl hcl hf.1.2 hq2
    exact ⟨by simp [Insn.opds, h1, h3, h4 _ rfl, hsl1], none_inside⟩
  | xexp h _ _ ih | xexpBy h _ _ ih =>
    intro q hq
    simp only [Rule.item, Rule.expr, Bool.and_eq_true] at hf
    obtain ⟨hq1, hsl⟩ := alloc_below.mp (skip_below.mp hq)
    obtain ⟨h1, h2⟩ := ih hc.2 hf.2 hq1
    exact ⟨by simp [Insn.opds, h1, h2 _ rfl, hsl], some_inside (inside_temp hsl)⟩
  | aexp hb ho hi ha ihb iho =>
    intro q hq
    simp only [Rule.item, Rule.expr, Bool.and_eq_true] at hf
    obtain ⟨hq4, hsl⟩ := alloc_below.mp (skip_below.mp hq)
    have hq3 := base_below ha hq4
    have hq2 := indexed_below hi hq3
    obtain ⟨h1, h2⟩ := ihb hc.2.1 hf.1.2 (emit_below ho hq2)
    obtain ⟨h3, h4⟩ := iho hc.2.2 hf.2 hq2
    obtain ⟨h5, h6⟩ := indexed_inside hi hq3 (h4 _ rfl)
    obtain ⟨h7, h8⟩ := base_inside ha hq4 (h2 _ rfl)
    exact ⟨by simp [Insn.opds, h1, h3, h5, h6, h7, h8, hsl], some_inside (inside_word_indirect hsl)⟩
  | texp hc' _ htv hfv ihc iht ihf =>
    intro q hq
    obtain ⟨-, hcc, hct, hcf⟩ := hc
    simp only [Rule.item, Rule.expr, Bool.and_eq_true] at hf
    have hq3 := skip_below.mp hq
    have hq2 := skip_below.mp (reset_below.mp (emit_below hfv hq3))
    obtain ⟨hq1, hsl⟩ := alloc_below.mp (skip_below.mp (emit_below htv hq2))
    obtain ⟨h1, h2⟩ := ihc hcc hf.1.1.2 hq1
    obtain ⟨h3, h4⟩ := iht hct hf.1.2 hq2
    obtain ⟨h5, h6⟩ := ihf hcf hf.2 hq3
    exact ⟨by simp [Insn.opds, h1, h3, h5, h2 _ rfl, h4 _ rfl, h6 _ rfl, hsl],
      some_inside (inside_temp hsl)⟩
  | strl =>
    intro q hq
    obtain ⟨hq1, hsl⟩ := alloc_below.mp (skip_below.mp hq)
    obtain ⟨-, hlen⟩ := string_below.mp hq1
    have hg : ∀ n : Nat, n + 1 ≤ q.strings.length → InsideAt cx q (opdGlob false (wrap64 (cx.dataSize + n)) 1) := by
      intro n hn
      have hw : wrap64 (cx.dataSize + n) ≤ cx.dataSize + n := Nat.mod_le _ _
      simp only [InsideAt, Inside, opdGlob, taken, Bool.false_eq_true, if_false]
      omega
    have hword : InsideAt cx q (Pt.word _) := inside_word hsl
    refine ⟨?_, some_inside hword⟩
    rw [insideCode_cons]
    refine ⟨fun a ha => ?_, insideCode_nil⟩
    rcases List.mem_pair.mp ha with rfl | rfl
    · exact hword
    · exact hg _ (by omega)
  | argsNil | decl | stmtsNil | elifsNone =>
    intro q _
    exact ⟨insideCode_nil, none_inside⟩
  | argsCons h hr' ih ihr =>
    intro q hq
    obtain ⟨ps, hc⟩ := hc
    cases ps with
    | nil => exact hc.elim
    | cons nm pt ps =>
      simp only [Rule.item, Rule.args, Bool.and_eq_true] at hf
      obtain ⟨h1, h2⟩ := ih hc.1 hf.1.2 (skip_below.mp (emit_below hr' hq))
      obtain ⟨h3, -⟩ := ihr ⟨ps, hc.2.2⟩ hf.2 hq
      exact ⟨by simp [Insn.opds, h1, h3, h2 _ rfl], none_inside⟩
  | declInit h hi ih =>
    intro q hq
    obtain ⟨⟨ret, -, -, hce⟩, -⟩ := hc
    obtain ⟨h1, h2⟩ := ih (hce _ rfl).1 hf (skip_below.mp (reset_below.mp hq))
    exact ⟨by simp [h1, inside_inits hT hi (h2 _ rfl)], none_inside⟩
  | cond he hb hr' ihe ihb ihr =>
    intro q hq
    obtain ⟨⟨ret, hce, hcb, hcr⟩, hsub⟩ := hc
    obtain ⟨hsb, hsr⟩ := List.append_subset.mp hsub
    simp only [Rule.item, Rule.stmt, Bool.and_eq_true] at hf
    have hq3 := reset_below.mp hq
    have hq2 := skip_below.mp (emit_below hr' hq3)
    obtain ⟨h1, h2⟩ := ihe hce hf.1.1.2 (skip_below.mp (reset_below.mp (emit_below hb hq2)))
    obtain ⟨h3, -⟩ := ihb ⟨⟨_, hcb⟩, hsb⟩ hf.1.2 hq2
    obtain ⟨h5, -⟩ := ihr ⟨⟨_, hcr⟩, hsr⟩ hf.2 hq3
    exact ⟨by simp [Insn.opds, h1, h3, h5, h2 _ rfl], none_inside⟩
  | blok h ih =>
    intro q hq
    obtain ⟨⟨ret, hcb⟩, hsub⟩ := hc
    exact ih ⟨⟨ret, hcb⟩, hsub⟩ hf (reset_below.mp hq)
  | els h ih =>
    intro q hq
    obtain ⟨⟨ret, hcb⟩, hsub⟩ := hc
    exact ih ⟨⟨ret, hcb⟩, hsub⟩ hf hq
  | noin h ih =>
    intro q hq
    obtain ⟨⟨ret, hcb⟩, hsub⟩ := hc
    obtain ⟨h1, -⟩ := ih ⟨⟨ret, hcb⟩, hsub⟩ hf (skip_below.mp (reset_below.mp hq))
    exact ⟨by simp [Insn.opds, h1], none_inside⟩
  | whil he hb ihe ihb =>
    intro q hq
    obtain ⟨⟨ret, hce, hcb⟩, hsub⟩ := hc
    simp only [Rule.item, Rule.stmt, Bool.and_eq_true] at hf
    have hq2 := skip_below.mp (reset_below.mp hq)
    obtain ⟨h1, h2⟩ := ihe hce hf.1.2 (skip_below.mp (reset_below.mp (emit_below hb hq2)))
    obtain ⟨h3, -⟩ := ihb ⟨⟨_, hcb⟩, hsub⟩ hf.2 hq2
    exact ⟨by simp [Insn.opds, h1, h3, h2 _ rfl], none_inside⟩
  | dowh hb he ihb ihe =>
    intro q hq
    obtain ⟨⟨ret, hce, hcb⟩, hsub⟩ := hc
    simp only [Rule.item, Rule.stmt, Bool.and_eq_true] at hf
    have hq2 := skip_below.mp (reset_below.mp hq)
    obtain ⟨h1, h2⟩ := ihe hce hf.2 hq2
    obtain ⟨h3, -⟩ := ihb ⟨⟨_, hcb⟩, hsub⟩ hf.1.1 (emit_below he hq2)
    exact ⟨by simp [Insn.opds, h1, h3, h2 _ rfl], none_inside⟩
  | retn =>
    intro q _
    exact ⟨by simp [Insn.opds, retSize], none_inside⟩
  | retnValue h ih =>
    intro q hq
    obtain ⟨⟨ret, hret⟩, -⟩ := hc
    obtain ⟨h1, h2⟩ := ih (checked_retn hret) hf (skip_below.mp (reset_below.mp hq))
    exact ⟨by simp [Insn.opds, retSize, h1, h2 _ rfl], none_inside⟩
  | wait hq' _ ih =>
    intro q hq
    obtain ⟨⟨ret, hcq, -⟩, -⟩ := hc
    simp only [Rule.item, Rule.stmt, Bool.and_eq_true] at hf
    obtain ⟨h1, h2⟩ := ih hcq hf.1.2 (skip_below.mp (reset_below.mp hq))
    exact ⟨by simp [Insn.opds, h1, h2 _ rfl], none_inside⟩
  | waitFor hq' hf' _ ihq ihf =>
    intro q hq
    obtain ⟨⟨ret, hcq, -, -, hcf⟩, -⟩ := hc
    simp only [Rule.item, Rule.stmt, Bool.and_eq_true] at hf
    have hq2 := skip_below.mp (reset_below.mp hq)
    obtain ⟨h1, h2⟩ := ihq hcq hf.1.2 (emit_below hf' hq2)
    obtain ⟨h3, h4⟩ := ihf (hcf _ rfl).1 hf.2 hq2
    exact ⟨by simp [Insn.opds, h1, h3, h2 _ rfl, h4 _ rfl], none_inside⟩
  | wlab =>
    intro q _
    exact ⟨by simp [Insn.opds], none_inside⟩
  | exprStmt h ih =>
    intro q hq
    obtain ⟨⟨ret, hce⟩, -⟩ := hc
    obtain ⟨h1, -⟩ := ih hce hf (skip_below.mp (reset_below.mp hq))
    exact ⟨by simp [Insn.opds, h1], none_inside⟩
  | stmtsCons hs hr' ihs ihr =>
    intro q hq
    obtain ⟨⟨ret, hcs, hcr⟩, hsub⟩ := hc
    obtain ⟨hss, hsr⟩ := List.append_subset.mp hsub
    simp only [Rule.item, Rule.stmts, Bool.and_eq_true] at hf
    obtain ⟨h1, -⟩ := ihs ⟨⟨_, hcs⟩, hss⟩ hf.1 (emit_below hr' hq)
    obtain ⟨h3, -⟩ := ihr ⟨⟨_, hcr⟩, hsr⟩ hf.2 hq
    exact ⟨by simp [h1, h3], none_inside⟩
  | elif he hb hr' ihe ihb ihr =>
    intro q hq
    obtain ⟨⟨ret, hce, hcb, hcr⟩, hsub⟩ := hc
    obtain ⟨hsb, hsr⟩ := List.append_subset.mp hsub
    simp only [Rule.item, Rule.elifs, Bool.and_eq_true] at hf
    have hq2 := skip_below.mp (emit_below hr' hq)
    obtain ⟨h1, h2⟩ := ihe hce hf.1.1.2 (skip_below.mp (reset_below.mp (emit_below hb hq2)))
    obtain ⟨h3, -⟩ := ihb ⟨⟨_, hcb⟩, hsb⟩ hf.1.2 hq2
    obtain ⟨h5, -⟩ := ihr ⟨⟨_, hcr⟩, hsr⟩ hf.2 hq
    exact ⟨by simp [Insn.opds, h1, h3, h5, h2 _ rfl], none_inside⟩

end Items

/-! ### Units -/

section Units

variable {tops : List TTop} {o : Obj} {fns : List Fn} {fn : Fn} {f : TFunc} {p p' : Pt} {u : Ast.Unit}

/-- No frame, no data and no expression of the unit is of a size that overflows. -/
def fitting (u : Ast.Unit) : Bool :=
  match accept u with
  | some tops => sizesFit tops && typesFit.unit tops
  | none => false

lemma globals_ok (h : sizesFit tops = true) : FrameOk (globalsOf tops) := by
  simp only [sizesFit, Bool.and_eq_true] at h
  rw [globalsOf, globalFrame_eq]
  exact (varsFit_ok frameOk_nil h.1).1

lemma func_fits (h : sizesFit tops = true) (hf : TTop.func f ∈ tops) : funcFits f = true := by
  simp only [sizesFit, Bool.and_eq_true, List.all_eq_true] at h
  exact h.2 _ hf

lemma tablesInside_of_fits (h : sizesFit tops = true) (hf : TTop.func fn.func ∈ tops) :
    TablesInside (fn.cx (globalsOf tops).size (globalsOf tops).layout) :=
  ⟨(goodFrame_of_fits (func_fits h hf)).inside, (globals_ok h).inside⟩

/-- The strings of a function are still there at the end. -/
lemma placed_strings {dataSize : Nat} {globals : Layout} (h : Placed dataSize globals tops p fns p') :
    p.strings.length ≤ p'.strings.length ∧ ∀ fn ∈ fns, fn.stop.strings.length ≤ p'.strings.length := by
  induction h with
  | nil p => exact ⟨Nat.le_refl _, by simp⟩
  | other t rest p p' fns ht hr ih => exact ih
  | func g rest p' fns hg hr ih =>
    obtain ⟨h1, h2⟩ := ih
    have hin : g.start.strings.length ≤ g.stop.strings.length := (emit_below hg Below.refl).strings
    refine ⟨hin.trans h1, fun fn hfn => ?_⟩
    rcases List.mem_cons.mp hfn with rfl | hfn
    · exact h1
    · exact h2 fn hfn

lemma placed_off {dataSize : Nat} {globals : Layout} (h : Placed dataSize globals tops p fns p')
    (hp : p.tempOff = 0) : ∀ fn ∈ fns, fn.start.tempOff = 0 := by
  induction h with
  | nil p => exact List.forall_mem_nil _
  | other t rest p p' fns ht hr ih => exact ih hp
  | func g rest p' fns hg hr ih =>
    have hstop : g.stop.tempOff = 0 := stmts_off hg hp
    exact List.forall_mem_cons.mpr ⟨hp, ih hstop⟩

lemma inside_strings {tsize frameSize area area' : Nat} {a : Opd} (h : Inside tsize frameSize area a)
    (hle : area ≤ area') : Inside tsize frameSize area' a := by
  unfold Inside at *
  split <;> simp_all
  omega

/-- An operand lies where it did when the address of its function is filled in. -/
lemma inside_printOpd {tsize frameSize area : Nat} {a : Opd} {locs : List (Nat × Nat)}
    (h : Inside tsize frameSize area a) : Inside tsize frameSize area (printOpd locs a) := by
  unfold printOpd
  split
  · rename_i hi
    split <;> simp [Inside, hi.1]
  · exact h

/-- Behind the `INCSP` of a function, all operands of its code in the object lie inside the
temporaries which that allocates, the frame of the function and the data with the strings, of
which `exec` allocates the size modulo `2 ^ 64`. -/
def FnInside (o : Obj) (fns : List Fn) (fn : Fn) : Prop :=
  ∃ addend tsize body,
    fn.code.map (link fns) = .incsp (opdImm false addend 8) (opdImm false tsize 8) :: body ∧
      ∀ i ∈ body, ∀ a ∈ i.opds,
        Inside tsize fn.tag.frameSize (wrap64 (o.dataSize + o.strings.length)) a

/-- The temporaries of a function end below `2 ^ 64`. -/
def TempsFit (fn : Fn) : Prop := fn.stop.peak < 2 ^ 64

instance (fn : Fn) : Decidable (TempsFit fn) := inferInstanceAs (Decidable (_ < _))

/-- What `INCSP` allocates for temporaries that fit. -/
lemma tempOffPeak_of_listed (hl : Listed tops fns o) (hfn : fn ∈ fns) (hfit : TempsFit fn) :
    fn.stop.tempOffPeak = fn.stop.peak :=
  emit_plain (emitted_of_listed hl hfn) (fun _ => rfl) hfit

lemma stop_lt (hl : Listed tops fns o) (hfn : fn ∈ fns) : fn.stop.ip < o.insnCount := by
  obtain ⟨p, hp, -⟩ := hl.placed
  obtain ⟨he, -, hat⟩ := placed_at hp hfn
  have hlen := fn_code_length he
  have hret : fn.code[fn.body.length + 1]? = some fn.ret := by simp [Fn.code]
  have hcode : fn.code.length = fn.body.length + 2 := by simp [Fn.code]
  have hin := (hat (List.replicate scopeBfunIdCount .bfun) List.length_replicate).get hret
  have hlt := (List.getElem?_eq_some_iff.mp hin).1
  rw [Obj.insnCount, hl.insns, List.length_map]
  omega

/-- A code in which no temporary is larger than a word has no room for too many of them. -/
lemma peak_of_small (hl : Listed tops fns o) (hfn : fn ∈ fns)
    (hsmall : typesSmall.stmts fn.func.stmts = true) : fn.stop.peak + 32 ≤ 32 * o.insnCount := by
  obtain ⟨p, hp, -⟩ := hl.placed
  have hoff : fn.enter.tempOff = 0 := placed_off hp rfl fn hfn
  have hlow : Low 0 fn.enter := ⟨by rw [hoff]; exact Nat.zero_le _, Nat.zero_le _⟩
  have hpeak := (emit_low (emitted_of_listed hl hfn) hsmall hlow).peak
  have hstop := stop_lt hl hfn
  omega

lemma tempsFit_of_small (hl : Listed tops fns o) (hfn : fn ∈ fns)
    (hsmall : typesSmall.stmts fn.func.stmts = true) (hcount : o.insnCount < 2 ^ 59) : TempsFit fn := by
  have hpeak := peak_of_small hl hfn hsmall
  unfold TempsFit
  omega

/-- **Every operand of the object lies inside the storage of its function**, if neither the
temporaries of that nor the data with the strings exceed `2 ^ 64` bytes. -/
theorem operands_inside (h : Compiles u o) (hf : fitting u = true)
    (harea : o.dataSize + o.strings.length < 2 ^ 64) :
    ∃ tops fns, accept u = some tops ∧ Listed tops fns o ∧
      ∀ fn ∈ fns, TempsFit fn → FnInside o fns fn := by
  obtain ⟨tops, fns, ha, hl⟩ := listed_of_compiles h
  have hA := accepted_of_accept ha
  simp only [fitting, ha, Bool.and_eq_true] at hf
  refine ⟨tops, fns, ha, hl, fun fn hfn hfit => ?_⟩
  obtain ⟨p, hp, hs⟩ := hl.placed
  have hmem := placed_func hp hfn
  have hT := tablesInside_of_fits hf.1 hmem
  have hrule := hf.2
  rw [rule_unit] at hrule
  obtain ⟨hcode, -⟩ := inside_item (inUnit_of_listed hA hl hfn) (resolves_of_listed hl) hT
    (emitted_of_listed hl hfn) ⟨⟨_, hA.checked _ hmem⟩, List.Subset.refl _⟩ (hrule _ hmem) Below.refl
  have hle : (globalsOf tops).size + fn.stop.strings.length ≤ wrap64 (o.dataSize + o.strings.length) := by
    have := (placed_strings hp).2 fn hfn
    rw [wrap64_of_lt harea, hl.dataSize, hs]
    omega
  refine ⟨_, fn.stop.tempOffPeak, (fn.body ++ [fn.ret]).map (link fns), rfl, fun i hi a hia => ?_⟩
  rw [tempOffPeak_of_listed hl hfn hfit]
  obtain ⟨j, hj, rfl⟩ := List.mem_map.mp hi
  rw [link_opds] at hia
  obtain ⟨b, hb, rfl⟩ := List.mem_map.mp hia
  refine inside_printOpd ?_
  rcases List.mem_append.mp hj with hj | hj
  · exact inside_strings (hcode j hj b hb) hle
  · rw [List.mem_singleton.mp hj] at hb
    rw [List.mem_singleton.mp hb]
    trivial

/-- `m(s: struct(a: u8, b: u16)): u16 { return s.b + s.b; }` -/
def twice : Ast.Unit :=
  ⟨[],
    [.func ⟨false, letter 109 0,
       .cons (letter 115 2)
         (.struct 1 (.cons (letter 97 12) (.int .u8 1) (.cons (letter 98 19) (.int .u16 1) .nil))) .nil,
       .some (.int .u16 1),
       .cons (.retn (some (.bexp (letter 115 42) .plus
         (.bexp (letter 115 42) .memb (.name (letter 115 42)) (.name (letter 98 44)))
         (.bexp (letter 115 48) .memb (.name (letter 115 48)) (.name (letter 98 50)))))) .nil⟩]⟩

def twiceObj : Obj :=
  ⟨0, [], List.replicate 17 Insn.bfun ++
    [Insn.incsp (opdImm false 0 8) (opdImm false 2 8),
     .arith .add ⟨.temp, false, false, 0, 2⟩ (opdAuto false 2 2) (opdAuto false 2 2),
     .retv ⟨.temp, false, false, 0, 2⟩ (opdImm false 24 8), .ret (opdImm false 24 8)]⟩

theorem twice_inside :
    ∃ tops fns, accept twice = some tops ∧ Listed tops fns twiceObj ∧ ∀ fn ∈ fns, FnInside twiceObj fns fn := by
  obtain ⟨tops, fns, ha, hl, h⟩ :=
    operands_inside (u := twice) (o := twiceObj) (by decide +kernel) (by decide +kernel) (by decide)
  have hsmall : (accept twice).all typesSmall.unit = true := by decide +kernel
  rw [ha, Option.all_some, rule_unit] at hsmall
  obtain ⟨p, hp, -⟩ := hl.placed
  exact ⟨tops, fns, ha, hl, fun fn hfn =>
    h fn hfn (tempsFit_of_small hl hfn (hsmall _ (placed_func hp hfn)) (by decide))⟩

end Units

end Quaint.Bounds
