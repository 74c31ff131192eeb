import Quaint.Meaning
import Quaint.Nesting

/-!
Expressions with calls.

The code of an expression leaves its number at an operand, and changes nothing but the temporaries it
uses and the stack above the frame of the function, provided that what it calls does what it means.
-/

namespace Quaint.Evaluate

open Types Ast TypeCheck Bytes Code Codegen Exec Step Typing Layout Emit Listing Operand Linking Bounds
  Parts Storage Casting Arith Window Partial Memory Nesting
open Source (Numbers evalName isInt isLocal isConst isPure isPureUnary intExpr truth wrap binary unary)
open Solitary (localOpd localInsn)
open Compute (Holds Yields scalar_of_int width_of_int isWidth_le vars)
open Meaning (numExpr numArgs isFunc isWriter)

/-! ### Types -/

section Ints

variable {K : ScopeObj → Ty → Prop} {t : Ty}

/-- The type of an integer expression with calls is that of one integer. -/
theorem int_of_num : ∀ {e : TExpr}, numExpr e = true → Checked K e → isInt (typeOfExpr e) = true
  | .nmbr v t, _, hc => Compute.int_of_expr (e := .nmbr v t) rfl hc
  | .name so t, h, _ => by
    simp only [numExpr, Bool.and_eq_true] at h
    exact h.1
  | .bexp op l r t, h, hc => by
    simp only [numExpr, Bool.and_eq_true] at h
    exact Compute.int_of_binary h.1.1 hc.1 (int_of_num h.1.2 hc.2.1) (int_of_num h.2 hc.2.2)
  | .uexp op r t, h, hc => by
    simp only [numExpr, Bool.and_eq_true] at h
    exact Compute.int_of_unary h.1 hc.1 (int_of_num h.2 hc.2)
  | .cast l c t, h, hc => by
    simp only [numExpr, Bool.and_eq_true] at h
    rw [typeOfExpr, hc.1]
    exact h.1.1
  | .texp c tv fv t, h, hc => by
    simp only [numExpr, Bool.and_eq_true] at h
    rw [typeOfExpr, (texp_checked hc.1).2.2]
    exact int_of_num h.1.2 hc.2.2.1
  | .fexp l as t, h, _ => by
    cases l <;> simp only [numExpr, Bool.and_eq_true, Bool.false_eq_true] at h
    exact h.1.2

end Ints

/-! ### Spots of a function -/

/-- The code of a function of an accepted unit, at a spot that has room for its variables. -/
structure Ground (tops : List TTop) (f : TFunc) (cx : Cx) (S : Spot) : Prop where
  unit : InUnit tops f cx
  laid : VarsLaid (vars f) (funcTag f).layout (funcTag f).frameSize
  frame : S.bp + (funcTag f).frameSize ≤ S.sp
  room : S.sp ≤ stackSize
  low : 16 ≤ S.bp
  even : S.sp % 8 = 0
  sized : (funcTag f).frameSize + 16 < 2 ^ 64

/-- The code has come to its end, the number is at the operand, and nothing below has changed. -/
structure Given (S : Spot) (t : Ty) (x : Int) (a : Opd) (n : Nat) (p' : Pt) (w w' : View) : Prop where
  ip : w'.ip = p'.ip
  kept : S.Kept n w w'
  value : ∃ bs, S.load w' a = some bs ∧ Represents t bs x

/-- The code of the expression computes the number, and writes what is written on the way. -/
def Computes (solo : Bool) (f : TFunc) (cx : Cx) (fns : List Fn) (o : Obj) (S : Spot) (env : Numbers) (e : TExpr)
    (x : Int) (out out' : List Out) : Prop :=
  ∀ need p code r p', Emit cx (.expr e need) p code r p' → At o.insns p.ip (code.map (link fns)) →
    p'.ip < o.insnCount → p'.peak ≤ room S.frame.size →
    ∃ a, r = some a ∧ Yields f (typeOfExpr e) p'.tempOff a ∧ ∀ w, w.ip = p.ip →
      Holds f S.bp env w.stack → S.Leads solo o S
        (fun w' out1 => out1 = out' ∧ Given S (typeOfExpr e) x a p.tempOff p' w w') w out

section Spots

variable {solo : Bool} {tops : List TTop} {f : TFunc} {cx : Cx} {fns : List Fn} {o : Obj} {S U : Spot} {p p' : Pt}
  {env : Numbers} {e : TExpr} {t : Ty} {x : Int} {w w1 w' : View} {k n m : Nat} {a : Opd}
  {out out' : List Out} {bs : List UInt8} {P : View → List Out → Prop}

lemma localOpd_temp (p : Pt) (signd : Bool) (n : Nat) : localOpd (p.temp signd n) = true := rfl

lemma kept_refl (n : Nat) (w : View) : S.Kept n w w := ⟨fun _ _ => rfl, fun _ _ => rfl⟩

lemma kept_trans (h : S.Kept k w w1) (h' : S.Kept m w1 w') (hk : k ≤ m) : S.Kept k w w' :=
  ⟨fun i hi => (h'.stack i hi).trans (h.stack i hi),
    fun i hi => (h'.temps i (hi.trans_le hk)).trans (h.temps i hi)⟩

lemma kept_of_calm (h : Calm n w w') : S.Kept n w w' := ⟨fun i _ => congrFun h.stack i, h.temps⟩

/-- A number at an operand of a function stays there. -/
lemma kept_load (G : Ground tops f cx S) (h : S.Kept n w w') (hy : Yields f t n a) :
    S.load w' a = S.load w a := by
  unfold Spot.load
  cases hk : a.opd with
  | imm | glob => rfl
  | temp =>
    have hle := hy.under.temp hk
    have hread : readMem w'.temps a.off a.size = readMem w.temps a.off a.size :=
      readMem_congr fun i _ hi => h.temps i (by omega)
    simp only [hread]
  | auto =>
    obtain ⟨v, hv, hofs⟩ := hy.slot hk
    obtain ⟨ofs, hofs', -, -, hle⟩ := G.laid.inside v hv
    obtain rfl := Option.some.inj (hofs.symm.trans hofs')
    have hframe := G.frame
    have hread : readMem w'.stack (S.bp + a.off) a.size = readMem w.stack (S.bp + a.off) a.size :=
      readMem_congr fun i _ hi => h.stack i (by
        dsimp only at hle
        omega)
    simp only [hread]

/-- The numbers of the variables stay where they are. -/
lemma holds_kept (G : Ground tops f cx S) (h : Holds f S.bp env w.stack) (hk : S.Kept n w w') :
    Holds f S.bp env w'.stack := by
  intro v hv y hy
  obtain ⟨ofs, hofs, hrep⟩ := h v hv y hy
  obtain ⟨ofs', hofs', -, -, hle⟩ := G.laid.inside v hv
  obtain rfl := Option.some.inj (hofs.symm.trans hofs')
  have hframe := G.frame
  refine ⟨ofs, hofs, ?_⟩
  rwa [readMem_congr fun i _ hi => hk.stack i (by omega)]

/-- Every spot has a site. -/
lemma exists_site (S : Spot) : ∃ T, S.Is T :=
  let s : State := ⟨[0], fun _ => { Qvm.zero with bp := S.bp }, 0, 0, 0, 0, 0, fun _ => 0, [], []⟩
  ⟨⟨s, S.frame, S.prev, List.mem_singleton.mpr rfl, quiet_of_root rfl⟩, rfl, rfl, rfl⟩

lemma Ground.site (G : Ground tops f cx S) {T : Site} (hT : S.Is T) : Compute.Ground tops f cx fns o T :=
  ⟨G.unit, G.laid, by rw [hT.bp]; exact G.frame.trans G.room⟩

/-- A number is computed without any code. -/
lemma leads_none (hip : w.ip = p.ip) (hload : S.load w a = some bs) (hbs : Represents t bs x) :
    S.Leads solo o S (fun w' out1 => out1 = out ∧ Given S t x a n p w w') w out :=
  leads_here ⟨rfl, hip, kept_refl n w, bs, hload, hbs⟩

lemma computes_nmbr {v : Nat} (hc : Checked (KnownIn tops f) (.nmbr v t)) :
    Computes solo f cx fns o S env (.nmbr v t) v out out := by
  intro need p code r p' he _ _ _
  cases he
  obtain ⟨hbytes, hrep⟩ := represents_nmbr hc.1 hc.2
  have hw := width_of_int (Compute.int_of_expr (e := .nmbr v t) rfl hc)
  refine ⟨_, rfl, ⟨⟨rfl, nofun⟩, hbytes.symm, rfl, nofun⟩, fun w hip _ => leads_none hip ?_ hrep⟩
  exact if_pos (hbytes ▸ isWidth_le hw)

lemma computes_name (G : Ground tops f cx S) {so : ScopeObj} (hint : numExpr (.name so t) = true)
    (hc : Checked (KnownIn tops f) (.name so t)) (hx : evalName env so = some x) :
    Computes solo f cx fns o S env (.name so t) x out out := by
  intro need p code r p' he _ _ _
  simp only [numExpr, Bool.and_eq_true, Bool.or_eq_true] at hint
  cases he with | name ha => ?_
  rcases hint.2 with hl | hl
  · obtain ⟨T, hT⟩ := exists_site S
    have GT : Compute.Ground tops f cx fns o T := G.site hT
    obtain ⟨ofs, hofs, rfl, hle, hy⟩ := Compute.nameOpd_local (n := p.tempOff) GT hc hl hint.1 ha
    refine ⟨_, rfl, hy, fun w hip hw => ?_⟩
    obtain ⟨bs, hload, hbs⟩ := Compute.load_local hc hl hofs hle hx (by rwa [hT.bp])
    exact leads_none hip ((hT.load w _).symm.trans hload) hbs
  · obtain ⟨b, rfl, rfl, rfl⟩ := Compute.nameOpd_const hc hl hx ha
    refine ⟨_, rfl, ⟨⟨rfl, nofun⟩, rfl, rfl, nofun⟩,
      fun w hip _ => leads_none hip ?_ (represents_flag rfl b)⟩
    rfl

/-- Writing the whole of a temporary. -/
lemma store_temp {d : Opd} (hk : d.opd = .temp) (hlen : bs.length = d.size)
    (hle : d.off + d.size ≤ S.frame.size) (w : View) :
    ∃ w', S.store w d bs = some w' ∧ w'.ip = w.ip ∧ S.load w' d = some bs ∧ S.Kept d.off w w' := by
  obtain ⟨T, hT⟩ := exists_site S
  obtain ⟨w', hst, hip, hload, hcalm⟩ := Window.store_temp (S := T) hk hlen (by rwa [hT.frame]) w
  exact ⟨w', (hT.store w d bs).symm.trans hst, hip, (hT.load w' d).symm.trans hload, kept_of_calm hcalm⟩

/-- What is stored in a temporary is there, and the code goes on. -/
lemma leads_temp {i : Insn} {d : Opd} (bs : List UInt8) (hi : o.insns[w.ip]? = some i)
    (hown : Allowed solo S.sp i)
    (hx : ∀ inp s, Seen S w out s → execInsn inp o s i = nextIp <$> storeOpd s d bs)
    (hd : d.indirect = false) (hk : d.opd = .temp) (hlen : bs.length = d.size)
    (hle : d.off + d.size ≤ S.frame.size) (hip : w.ip + 1 < o.insnCount)
    (h : ∀ w', w'.ip = w.ip + 1 → S.load w' d = some bs → S.Kept d.off w w' → S.Leads solo o U P w' out) :
    S.Leads solo o U P w out := by
  obtain ⟨w1, hst, hip1, hload, hkept⟩ := store_temp (S := S) hk hlen hle w
  exact leads_store hi hown hx hd hst (by rwa [hip1])
    (h w1.next (congrArg (· + 1) hip1) hload ⟨hkept.stack, hkept.temps⟩)

/-- An instruction that stores the number in a new temporary. -/
lemma leads_result {i : Insn} (hi : o.insns[w'.ip]? = some i) (hown : Allowed solo S.sp i)
    (hx : ∀ inp s, Seen S w' out s →
      execInsn inp o s i = nextIp <$> storeOpd s (p.temp t.signd t.bytes) bs) (hbs : Represents t bs x)
    (hip : w'.ip = p.ip) (hkept : S.Kept n w w') (hn : n ≤ p.tempOff)
    (hroom : ((p.alloc t.bytes).skip 1).peak ≤ room S.frame.size)
    (hend : ((p.alloc t.bytes).skip 1).ip < o.insnCount) :
    S.Leads solo o S (fun w2 out1 => out1 = out ∧
      Given S t x (p.temp t.signd t.bytes) n ((p.alloc t.bytes).skip 1) w w2) w' out := by
  have hle : p.slot t.bytes + t.bytes ≤ S.frame.size := slot_room hroom
  refine leads_temp bs hi hown hx rfl rfl hbs.1 hle (by rwa [hip]) fun w1 hip1 hload hkept1 =>
    leads_here ⟨rfl, hip1.trans ?_, kept_trans hkept hkept1 (hn.trans (slot_up hroom)), bs, hload, hbs⟩
  rw [hip]
  rfl

/-- There is room for arguments above the frame of the function. -/
lemma Ground.top (G : Ground tops f cx S) {sp : Nat} (hle : S.sp ≤ sp) (hroom : sp ≤ stackSize)
    (heven : sp % 8 = 0) : Ground tops f cx (S.top sp) :=
  ⟨G.unit, G.laid, G.frame.trans hle, hroom, G.low, heven, G.sized⟩

end Spots

/-! ### Operators -/

section Operators

variable {solo : Bool} {tops : List TTop} {f : TFunc} {cx : Cx} {fns : List Fn} {o : Obj} {S U : Spot}
  {p p' : Pt}
  {env : Numbers} {e l r : TExpr} {t : Ty} {x y : Int} {w w1 w' : View} {k n m : Nat} {a : Opd}
  {out out' out1 : List Out} {bs : List UInt8} {P : View → List Out → Prop}

lemma computes_unary {op : UOp} (hp : isPureUnary op = true)
    (hc : typeFromUexp op r = .ok (.uexp op r t)) (hir : isInt (typeOfExpr r) = true)
    (hr : Computes solo f cx fns o S env r y out out') (hx : unary op t y = some x) :
    Computes solo f cx fns o S env (.uexp op r t) x out out' := by
  intro need p code res p' he hat hend hpeak
  cases hop : unaryInsn op with
  | none =>
    obtain rfl : op = .plus := by cases op <;> simp_all [isPureUnary, unaryInsn]
    obtain rfl := Option.some.inj hx
    obtain ⟨-, rfl⟩ := uplus_checked hc
    cases he with
    | uplus h => exact hr _ _ _ _ _ h hat hend hpeak
    | unary hop' => cases hop'
    | incr hop' | incrBy hop' => cases hop'
  | some mk =>
    obtain ⟨p1, cr, a, h, rfl, rfl, rfl⟩ := Compute.emit_unary hop he
    have hpeak1 : p1.peak ≤ room S.frame.size := (le_max_left _ _).trans hpeak
    obtain ⟨hatr, hati⟩ := Compute.at_split h hat
    obtain ⟨_, ⟨⟩, hy, hrun⟩ := hr _ _ _ _ _ h hatr (Nat.lt_of_succ_lt hend) hpeak1
    obtain ⟨hi, -⟩ := Compute.at_insn hati (by
      rcases unaryInsn_cases hop with rfl | rfl | rfl <;>
        simp only [Insn.opds, List.forall_mem_cons] <;> exact ⟨Compute.temp_sized, hy.sized hir, List.forall_mem_nil _⟩)
    refine ⟨_, rfl, Compute.yields_temp hpeak, fun w hip hw => (hrun w hip hw).bind fun w1 out1 h1 => ?_⟩
    obtain ⟨rfl, h1⟩ := h1
    obtain ⟨bs, hload, hbs⟩ := h1.value
    obtain ⟨cs, hcs, hexec⟩ := Compute.unary_computes (o := o) (d := p1.temp t.signd t.bytes) hop hc hir
      hy.size hy.signd rfl rfl hbs hx
    have hown : Allowed solo S.sp (mk (p1.temp t.signd t.bytes) a) := by
      have ha := localOpd_of_load hy.under.direct hload
      rcases unaryInsn_cases hop with rfl | rfl | rfl <;>
        exact allowed_of (by simp [localInsn, Insn.opds, ha, localOpd_temp]) fun _ => rfl
    exact leads_result (by rwa [h1.ip]) hown (fun inp s hs => hexec inp _ (loadOpd_spot hs hy.under.direct hload))
      hcs h1.ip h1.kept (expr_up h (peak_lt hpeak1)) hpeak hend

lemma computes_cast {c : Ty} (hint : numExpr (.cast l c t) = true) (ht : t = c)
    (hil : isInt (typeOfExpr l) = true) (hl : Computes solo f cx fns o S env l y out out') :
    Computes solo f cx fns o S env (.cast l c t) (wrap c y) out out' := by
  intro need p code res p' he hat hend hpeak
  subst ht
  simp only [numExpr, Bool.and_eq_true, Bool.or_eq_true, Bool.not_eq_true', decide_eq_true_eq] at hint
  obtain ⟨⟨hit, hwide⟩, -⟩ := hint
  cases he with | @cast _ _ _ _ _ p1 cl a h hb => ?_
  have hpeak1 : p1.peak ≤ room S.frame.size := (le_max_left _ _).trans hpeak
  have hroom : p1.slot t.bytes + t.bytes ≤ S.frame.size := slot_room hpeak
  obtain ⟨hatl, hati⟩ := Compute.at_split h hat
  obtain ⟨_, ⟨⟩, hy, hrun⟩ := hl _ _ _ _ _ h hatl (Nat.lt_of_succ_lt hend) hpeak1
  obtain ⟨hi, -⟩ := Compute.at_insn hati (List.forall_mem_cons.mpr
    ⟨Compute.temp_sized, List.forall_mem_cons.mpr ⟨hy.sized hil, List.forall_mem_nil _⟩⟩)
  refine ⟨_, rfl, Compute.yields_temp hpeak, fun w hip hw => (hrun w hip hw).bind fun w1 o1 h1 => ?_⟩
  obtain ⟨rfl, h1⟩ := h1
  obtain ⟨bs, hload, hbs⟩ := h1.value
  have hv : 0 ≤ y ∨ t.bytes ≤ (typeOfExpr l).bytes :=
    hwide.imp_left fun hs => by rw [nonneg_of_represents hs hbs]; exact Int.natCast_nonneg _
  have hrep := represents_cast (D := t) hb hbs hv
  rw [← hy.size] at hrep
  have hown : Allowed solo S.sp (.cast (p1.temp t.signd t.bytes) a) :=
    allowed_of (by simp [localInsn, Insn.opds, localOpd_of_load hy.under.direct hload, localOpd_temp])
      fun _ => rfl
  refine leads_insn S o1 (Q := fun w2 => w2.ip = w1.ip + 1 ∧ S.Kept (p1.slot t.bytes) w1 w2 ∧
    S.load w2 (p1.temp t.signd t.bytes) =
      some (bs.take (min a.size t.bytes) ++ List.replicate (t.bytes - a.size) 0))
    (by rwa [h1.ip]) hown (fun inp s hs => .inl ?_) fun w2 h2 => ?_
  · obtain ⟨w2, hcast, hip2, hload2, hcalm2⟩ := cast_seen (S := siteOf S hs) (d := p1.temp t.signd t.bytes)
      rfl rfl hroom (hy.under.mono (slot_up hpeak)) (((siteOf_is hs).load w1 a).trans hload)
    have hs2 := seen_of_site hs w2 s.cycles s.now
    have hx := hcast s.cycles s.now
    rw [seen_siteOf] at hx
    refine ⟨_, w2.next, by rw [execInsn, hx]; rfl, seen_next hs2, congrArg (· + 1) hip2,
      ⟨fun i _ => congrFun hcalm2.stack i, hcalm2.temps⟩, ?_⟩
    exact ((siteOf_is hs).load w2 _).symm.trans hload2
  · obtain ⟨hip2, hkept2, hload2⟩ := h2
    constructor
    · rw [hip2, h1.ip]
      exact hend
    · refine leads_here
        ⟨rfl, ?_, kept_trans h1.kept hkept2 ((expr_up h (peak_lt hpeak1)).trans (slot_up hpeak)), _, hload2, hrep⟩
      rw [hip2, h1.ip]
      rfl

/-- The numbers of two expressions, computed one after the other, are at their operands. -/
lemma computes_both (G : Ground tops f cx S) {p1 p2 : Pt} {cl cr : List Insn} {a b : Opd}
    (hl : Computes solo f cx fns o S env l x out out1) (hr : Computes solo f cx fns o S env r y out1 out')
    (hel : Emit cx (.expr l false) p cl (some a) p1) (her : Emit cx (.expr r false) p1 cr (some b) p2)
    (hatl : At o.insns p.ip (cl.map (link fns))) (hatr : At o.insns p1.ip (cr.map (link fns)))
    (hend : p2.ip < o.insnCount) (hpeak : p2.peak ≤ room S.frame.size) :
    Yields f (typeOfExpr l) p2.tempOff a ∧ Yields f (typeOfExpr r) p2.tempOff b ∧
      ∀ w, w.ip = p.ip → Holds f S.bp env w.stack → S.Leads solo o S (fun w' out2 => out2 = out' ∧
        w'.ip = p2.ip ∧ S.Kept p.tempOff w w' ∧
        (∃ bs, S.load w' a = some bs ∧ Represents (typeOfExpr l) bs x) ∧
        ∃ cs, S.load w' b = some cs ∧ Represents (typeOfExpr r) cs y) w out := by
  obtain ⟨_, ⟨⟩, hyl, hrunl⟩ := hl _ _ _ _ _ hel hatl ((emit_le her).trans_lt hend)
    ((Compute.emit_peak her).trans hpeak)
  obtain ⟨_, ⟨⟩, hyr, hrunr⟩ := hr _ _ _ _ _ her hatr hend hpeak
  refine ⟨hyl.mono (expr_up her (peak_lt hpeak)), hyr, fun w hip hw => (hrunl w hip hw).bind fun w1 o1 h1 => ?_⟩
  obtain ⟨rfl, h1⟩ := h1
  refine (hrunr w1 h1.ip (holds_kept G hw h1.kept)).mono fun w2 o2 h2 => ?_
  obtain ⟨rfl, h2⟩ := h2
  obtain ⟨bs, hload, hbs⟩ := h1.value
  exact ⟨rfl, h2.ip, kept_trans h1.kept h2.kept (expr_up hel (peak_lt ((Compute.emit_peak her).trans hpeak))),
    ⟨bs, (kept_load G h2.kept hyl).trans hload, hbs⟩, h2.value⟩

lemma computes_binary (G : Ground tops f cx S) {op : BOp} {v : Int} (hp : isPure op = true)
    (hop : conjOp op = none) (hcoma : op ≠ .coma) (hc : typeFromBexp op l r = .ok (.bexp op l r t))
    (hil : isInt (typeOfExpr l) = true) (hir : isInt (typeOfExpr r) = true)
    (hl : Computes solo f cx fns o S env l x out out1) (hr : Computes solo f cx fns o S env r y out1 out')
    (hv : binary op (typeOfExpr l) x y = some v) : Computes solo f cx fns o S env (.bexp op l r t) v out out' := by
  intro need p code res p' he hat hend hpeak
  obtain ⟨p1, p2, cl, cr, a, b, mk, s, hel, her, rfl, rfl, rfl, hmk⟩ :=
    Compute.emit_binary hp hop hcoma hil he
  obtain ⟨hatl, hatr⟩ := Compute.at_split hel hat
  obtain ⟨hatr, hati⟩ := Compute.at_split her hatr
  obtain ⟨hya, hyb, hrun⟩ := computes_both G hl hr hel her hatl hatr (Nat.lt_of_succ_lt hend)
    ((le_max_left _ _).trans hpeak)
  obtain ⟨hi, -⟩ := Compute.at_insn hati (by
    have hopds : (mk (p2.temp s t.bytes) a b).opds = [p2.temp s t.bytes, a, b] := by
      rcases hmk with ⟨aop, -, rfl, -⟩ | ⟨hinsn, -⟩
      · rfl
      · rcases bexpInsn_cases hinsn with ⟨neq, rfl⟩ | ⟨cop, rfl⟩ | ⟨aop, rfl⟩ <;> rfl
    rw [hopds]
    simp only [List.forall_mem_cons]
    exact ⟨Compute.temp_sized, hya.sized hil, hyb.sized hir, nofun⟩)
  obtain rfl : s = t.signd := by
    rcases hmk with ⟨aop, hplus, -, rfl⟩ | ⟨-, rfl⟩
    · rw [hya.signd, (plus_checked hplus hc).2.2]
    · rfl
  refine ⟨_, rfl, Compute.yields_temp hpeak, fun w hip hw => (hrun w hip hw).bind fun w1 o1 h1 => ?_⟩
  obtain ⟨rfl, hip1, hkept1, ⟨bs, hla, hbs⟩, cs, hlb, hcs⟩ := h1
  obtain ⟨ds, hds, hexec⟩ := (Compute.binary_computes (o := o) (d := p2.temp t.signd t.bytes) hmk hc hil
    hya.size hya.signd hyb.size hyb.signd rfl rfl hbs hcs hv).2
  have hown : Allowed solo S.sp (mk (p2.temp t.signd t.bytes) a b) := by
    have ha := localOpd_of_load hya.under.direct hla
    have hb := localOpd_of_load hyb.under.direct hlb
    rcases hmk with ⟨aop, -, rfl, -⟩ | ⟨hinsn, -⟩
    · exact allowed_of (by simp [localInsn, Insn.opds, ha, hb, localOpd_temp]) fun _ => rfl
    · rcases bexpInsn_cases hinsn with ⟨neq, rfl⟩ | ⟨cop, rfl⟩ | ⟨aop, rfl⟩ <;>
        exact allowed_of (by simp [localInsn, Insn.opds, ha, hb, localOpd_temp]) fun _ => rfl
  have hfit2 : p2.peak < 2 ^ 64 := peak_lt ((le_max_left _ _).trans hpeak)
  exact leads_result (by rwa [hip1]) hown (fun inp s hs => hexec inp _ (loadOpd_spot hs hya.under.direct hla)
    (loadOpd_spot hs hyb.under.direct hlb)) hds hip1 hkept1
    ((expr_up hel ((Compute.emit_peak her).trans_lt hfit2)).trans (expr_up her hfit2)) hpeak hend

lemma computes_coma (G : Ground tops f cx S) (hl : Computes solo f cx fns o S env l x out out1)
    (hr : Computes solo f cx fns o S env r y out1 out') (ht : t = typeOfExpr r) :
    Computes solo f cx fns o S env (.bexp .coma l r t) y out out' := by
  intro need p code res p' he hat hend hpeak
  cases he with
  | coma hel her =>
    obtain ⟨hatl, hatr⟩ := Compute.at_split hel hat
    obtain ⟨a, rfl, -, hrunl⟩ := hl _ _ _ _ _ hel hatl ((emit_le her).trans_lt hend)
      ((Compute.emit_peak her).trans hpeak)
    obtain ⟨b, rfl, hyb, hrunr⟩ := hr _ _ _ _ _ her hatr hend hpeak
    refine ⟨b, rfl, by rwa [typeOfExpr, ht], fun w hip hw => (hrunl w hip hw).bind fun w1 o1 h1 => ?_⟩
    obtain ⟨rfl, h1⟩ := h1
    refine (hrunr w1 h1.ip (holds_kept G hw h1.kept)).mono fun w2 o2 h2 => ⟨h2.1, h2.2.ip, ?_, ?_⟩
    · exact kept_trans h1.kept h2.2.kept le_rfl
    · rw [typeOfExpr, ht]
      exact h2.2.value
  | asmu hop' | plus hop' | aspl hop' | conj hop' | equl hop' => cases hop'

/-- A conditional jump jumps, or the code goes on. -/
lemma leads_cond {jnz : Bool} {loc : Nat} (hi : o.insns[w.ip]? = some (.jz jnz a loc))
    (hy : Yields f t n a) (ht : isInt t = true) (hload : S.load w a = some bs) (hbs : Represents t bs x)
    (hjump : (x = 0 ↔ jnz = false) → loc < o.insnCount ∧ S.Leads solo o U P (w.jump loc) out)
    (hnext : ¬ (x = 0 ↔ jnz = false) → w.ip + 1 < o.insnCount ∧ S.Leads solo o U P w.next out) :
    S.Leads solo o U P w out := by
  have hown : Allowed solo S.sp (.jz jnz a loc) :=
    allowed_of (by simp [localInsn, Insn.opds, localOpd_of_load hy.under.direct hload]) fun _ => rfl
  have hsize : 0 < a.size := hy.size ▸ Nat.pos_of_ne_zero (isWidth_pos (width_of_int ht))
  have hx (inp : Inp) (s : State) (hs : Seen S w out s) : execInsn inp o s (.jz jnz a loc) =
      .ok (if x = 0 ↔ jnz = false then s.setVm { s.vm with ip := loc } else nextIp s) := by
    rw [execInsn, insnCjmp_eq hsize (loadOpd_spot hs hy.under.direct hload)]
    simp only [leNat_eq_zero hbs]
  by_cases h : x = 0 ↔ jnz = false
  · simp only [if_pos h] at hx
    exact leads_exec _ hi hown (hjump h).1 (fun inp s hs => ⟨_, hx inp s hs, seen_jump hs loc⟩) (hjump h).2
  · simp only [if_neg h] at hx
    exact leads_exec _ hi hown (hnext h).1 (fun inp s hs => ⟨_, hx inp s hs, seen_next hs⟩) (hnext h).2

lemma leads_jmp {loc : Nat} (hi : o.insns[w.ip]? = some (.jmp loc)) (hip : loc < o.insnCount)
    (h : S.Leads solo o U P (w.jump loc) out) : S.Leads solo o U P w out :=
  leads_exec _ hi (allowed_of rfl fun _ => rfl) hip (fun _ _ hs => ⟨_, rfl, seen_jump hs loc⟩) h

/-- The flag of a number is stored in a temporary. -/
lemma leads_oz {q : Pt} (hi : o.insns[w.ip]? = some (.oz (q.temp false 1) a)) (hy : Yields f t n a)
    (ht : isInt t = true) (hload : S.load w a = some bs) (hbs : Represents t bs x)
    (hroom : q.slot 1 + 1 ≤ S.frame.size) (hip : w.ip + 1 < o.insnCount)
    (h : ∀ w', w'.ip = w.ip + 1 → S.load w' (q.temp false 1) =
      some (leBytes 1 (if x = 0 then 0 else 1)) → S.Kept (q.slot 1) w w' → S.Leads solo o U P w' out) :
    S.Leads solo o U P w out := by
  have hown : Allowed solo S.sp (.oz (q.temp false 1) a) :=
    allowed_of (by simp [localInsn, Insn.opds, localOpd_of_load hy.under.direct hload, localOpd_temp])
      fun _ => rfl
  refine leads_temp (leBytes 1 (if x = 0 then 0 else 1)) hi hown (fun inp s hs => ?_) rfl rfl
    (leBytes_length _ _) hroom hip h
  rw [execInsn, insnOz_eq rfl rfl (hy.size ▸ width_of_int ht) (loadOpd_spot hs hy.under.direct hload)]
  simp only [leNat_eq_zero hbs]

/-- A number is moved to a temporary. -/
lemma leads_mov {q : Pt} {u : Ty} (hi : o.insns[w.ip]? = some (.mov (q.temp t.signd t.bytes) a))
    (hy : Yields f u n a) (hb : u.bytes = t.bytes) (hs : u.signd = t.signd)
    (hload : ∃ bs, S.load w a = some bs ∧ Represents u bs x)
    (hroom : q.slot t.bytes + t.bytes ≤ S.frame.size) (hip : w.ip + 1 < o.insnCount)
    (h : ∀ w', w'.ip = w.ip + 1 → (∃ bs, S.load w' (q.temp t.signd t.bytes) = some bs ∧ Represents t bs x) →
      S.Kept (q.slot t.bytes) w w' → S.Leads solo o U P w' out) : S.Leads solo o U P w out := by
  obtain ⟨bs, hload, hbs⟩ := hload
  have hbs' := Compute.represents_alike hb hs hbs
  have hown : Allowed solo S.sp (.mov (q.temp t.signd t.bytes) a) :=
    allowed_of (by simp [localInsn, Insn.opds, localOpd_of_load hy.under.direct hload, localOpd_temp])
      fun _ => rfl
  refine leads_temp (d := q.temp t.signd t.bytes) bs hi hown (fun inp s hs => ?_) rfl rfl hbs'.1 hroom
    hip fun w' hip' hload' hkept => h w' hip' ⟨bs, hload', hbs'⟩ hkept
  rw [execInsn, insnMov_eq (hb.symm.trans hy.size.symm) (loadOpd_spot hs hy.under.direct hload)]

lemma computes_conj (G : Ground tops f cx S) {op : BOp} {disj : Bool} {v : Int} (hop : conjOp op = some disj)
    (hc : typeFromBexp op l r = .ok (.bexp op l r t)) (hil : isInt (typeOfExpr l) = true)
    (hir : isInt (typeOfExpr r) = true) (hl : Computes solo f cx fns o S env l x out out1)
    (hshort : (x = 0 ↔ disj = false) → v = truth x ∧ out' = out1)
    (hr : ¬ (x = 0 ↔ disj = false) → ∃ y, Computes solo f cx fns o S env r y out1 out' ∧ v = truth y) :
    Computes solo f cx fns o S env (.bexp op l r t) v out out' := by
  intro need p code res p' he hat hend hpeak
  obtain ⟨p1, p2, cl, cr, a, b, hel, her, rfl, rfl, rfl⟩ := Compute.emit_conj hop he
  obtain ⟨-, rfl⟩ := conj_checked hop hc
  have hle : p1.ip + 2 ≤ p2.ip := emit_le her
  have hpeak' : (p1.alloc 1).peak ≤ room S.frame.size := (Compute.emit_peak her).trans hpeak
  have hupr := expr_up her (peak_lt hpeak)
  have hup : p1.slot 1 + 1 ≤ p2.tempOff := (alloc_end hpeak').ge.trans hupr
  have hroom : p1.slot 1 + 1 ≤ S.frame.size := slot_room hpeak'
  have hend' : p2.ip + 2 < o.insnCount := hend
  have hsd : (p1.temp false 1).opd ≠ .imm ∨ (p1.temp false 1).size ≠ 0 := Compute.temp_sized
  have hslot : p.tempOff ≤ p1.slot 1 :=
    (expr_up hel (peak_lt ((le_max_left _ _).trans hpeak'))).trans (slot_up hpeak')
  have hover := hslot.trans ((Nat.le_succ _).trans (alloc_end hpeak').ge)
  -- the left operand, its flag, and the jump
  obtain ⟨hatl, hat⟩ := Compute.at_split hel hat
  obtain ⟨_, ⟨⟩, hya, hrunl⟩ := hl _ _ _ _ _ hel hatl (by omega) ((le_max_left _ _).trans hpeak')
  obtain ⟨hoz, hat⟩ := Compute.at_insn hat (List.forall_mem_cons.mpr ⟨hsd, List.forall_mem_cons.mpr
    ⟨hya.sized hil, nofun⟩⟩)
  obtain ⟨hjz, hat⟩ := Compute.at_insn hat (List.forall_mem_cons.mpr ⟨hya.sized hil, nofun⟩)
  refine ⟨_, rfl, ⟨⟨rfl, fun _ => hup⟩, rfl, rfl, nofun⟩, fun w hip hw =>
    (hrunl w hip hw).bind fun w1 o1 h1 => ?_⟩
  obtain ⟨rfl, h1⟩ := h1
  obtain ⟨bs, hload1, hbs⟩ := h1.value
  refine leads_oz (by rwa [h1.ip]) hya hil hload1 hbs hroom (by rw [h1.ip]; omega)
    fun w2 hip2 hload2 hkept2 => ?_
  have hkept : S.Kept p.tempOff w w2 := kept_trans h1.kept hkept2 hslot
  have hkepta : S.Kept p1.tempOff w1 w2 := ⟨hkept2.stack, fun i hi => hkept2.temps i
    (hi.trans_le (slot_up hpeak'))⟩
  rw [h1.ip] at hip2
  refine leads_cond (by rwa [hip2]) hya hil ((kept_load G hkepta hya).trans hload1) hbs
    (fun h => ⟨hend', leads_here ⟨(hshort h).2.symm, rfl, ⟨hkept.stack, hkept.temps⟩, _, hload2, ?_⟩⟩)
    fun h => ⟨by rw [hip2]; omega, ?_⟩
  · rw [(hshort h).1]
    exact Compute.represents_truth x
  -- the right operand and its flag
  obtain ⟨y, hcr, rfl⟩ := hr h
  obtain ⟨hatr, hat⟩ := Compute.at_split her hat
  obtain ⟨_, ⟨⟩, hyb, hrunr⟩ := hcr _ _ _ _ _ her hatr (by omega) hpeak
  obtain ⟨hoz, hat⟩ := Compute.at_insn hat (List.forall_mem_cons.mpr ⟨hsd, List.forall_mem_cons.mpr
    ⟨hyb.sized hir, nofun⟩⟩)
  obtain ⟨har, -⟩ := Compute.at_insn hat (by
    simp only [Insn.opds, List.forall_mem_cons]
    exact ⟨hsd, .inr Nat.one_ne_zero, hsd, nofun⟩)
  have hkept' : S.Kept p.tempOff w w2.next := ⟨hkept.stack, hkept.temps⟩
  refine (hrunr w2.next (congrArg (· + 1) hip2) (holds_kept G hw hkept')).bind fun w3 o3 h3 => ?_
  obtain ⟨rfl, h3⟩ := h3
  obtain ⟨cs, hload3, hcs⟩ := h3.value
  refine leads_oz (by rwa [h3.ip]) hyb hir hload3 hcs hroom (by rw [h3.ip]; omega)
    fun w4 hip4 hload4 hkept4 => ?_
  have hkept3 : S.Kept p.tempOff w w4 :=
    kept_trans (kept_trans hkept' h3.kept hover) hkept4 hslot
  rw [h3.ip] at hip4
  refine leads_temp (d := p1.temp false 1) (leBytes 1 (if y = 0 then 0 else 1)) (by rwa [hip4])
    (allowed_of rfl fun _ => rfl) (fun inp s hs => ?_) rfl rfl (leBytes_length _ _) hroom (by rw [hip4]; omega)
    fun w5 hip5 hload5 hkept5 =>
      leads_here ⟨rfl, ?_, kept_trans hkept3 hkept5 hslot, _, hload5, Compute.represents_truth y⟩
  · have himm : loadOpd s (opdImm false (if disj then 0 else 1) 1) =
        .ok (leBytes 1 (if disj then 0 else 1)) := loadOpd_spot hs rfl rfl
    rw [execInsn]
    exact congrArg _ (insnBinArith_eq rfl rfl rfl rfl rfl himm (loadOpd_spot hs rfl hload4)
      (Compute.arithOp_flag disj y))
  · rw [hip5, hip4]
    rfl

lemma computes_texp (G : Ground tops f cx S) {c tv fv : TExpr} {v : Int}
    (hc : typeFromTexp c tv fv = .ok (.texp c tv fv t)) (hic : isInt (typeOfExpr c) = true)
    (hit : isInt (typeOfExpr tv) = true) (hif : isInt (typeOfExpr fv) = true)
    (hcc : Computes solo f cx fns o S env c x out out1) (htrue : x ≠ 0 → Computes solo f cx fns o S env tv v out1 out')
    (hfalse : x = 0 → Computes solo f cx fns o S env fv v out1 out') :
    Computes solo f cx fns o S env (.texp c tv fv t) v out out' := by
  intro need p code res p' he hat hend hpeak
  obtain ⟨-, heq, rfl⟩ := texp_checked hc
  set u := typeOfExpr tv with hu
  cases he with | @texp _ _ _ _ _ _ p1 p2 p3 cc ct cf a b d hec ht het hef => ?_
  have hle : p1.ip + 1 ≤ p2.ip := emit_le het
  have hle' : p2.ip + 2 ≤ p3.ip := emit_le hef
  have hend' : p3.ip + 1 < o.insnCount := hend
  have hpeak3 : p3.peak ≤ room S.frame.size := hpeak
  have hpeak2 : p2.peak ≤ room S.frame.size := (Compute.emit_peak hef).trans hpeak3
  have hpeak1 : (p1.alloc u.bytes).peak ≤ room S.frame.size := (Compute.emit_peak het).trans hpeak2
  have hupf := expr_up hef (peak_lt hpeak3)
  have hup : p1.slot u.bytes + u.bytes ≤ p3.tempOff := (alloc_end hpeak1).ge.trans hupf
  have hroom : p1.slot u.bytes + u.bytes ≤ S.frame.size := slot_room hpeak1
  have hslot : p.tempOff ≤ p1.slot u.bytes :=
    (expr_up hec (peak_lt ((le_max_left _ _).trans hpeak1))).trans (slot_up hpeak1)
  have hover := hslot.trans ((Nat.le_add_right _ _).trans (alloc_end hpeak1).ge)
  have hsd : (p1.temp u.signd u.bytes).opd ≠ .imm ∨ (p1.temp u.signd u.bytes).size ≠ 0 := Compute.temp_sized
  simp only [List.append_assoc, List.cons_append, List.nil_append] at hat
  -- the condition
  obtain ⟨hatc, hat⟩ := Compute.at_split hec hat
  obtain ⟨_, ⟨⟩, hya, hrunc⟩ := hcc _ _ _ _ _ hec hatc (by omega) ((le_max_left _ _).trans hpeak1)
  obtain ⟨hjz, hat⟩ := Compute.at_insn hat (List.forall_mem_cons.mpr ⟨hya.sized hic, nofun⟩)
  obtain ⟨hatt, hat⟩ := Compute.at_split het hat
  refine ⟨_, rfl, ⟨⟨rfl, fun _ => hup⟩, rfl, rfl, nofun⟩, fun w hip hw =>
    (hrunc w hip hw).bind fun w1 o1 h1 => ?_⟩
  obtain ⟨rfl, h1⟩ := h1
  obtain ⟨bs, hload1, hbs⟩ := h1.value
  refine leads_cond (by rwa [h1.ip]) hya hic hload1 hbs (fun h => ⟨by omega, ?_⟩)
    fun h => ⟨by rw [h1.ip]; omega, ?_⟩
  · -- the arm behind the jump
    have hatf := Compute.at_next (Compute.at_next hat)
    obtain ⟨hatf, hat⟩ := Compute.at_split hef hatf
    obtain ⟨_, ⟨⟩, hyd, hrunf⟩ := hfalse (h.mpr rfl) _ _ _ _ _ hef hatf (by omega) hpeak3
    obtain ⟨hmov, -⟩ := Compute.at_insn hat (List.forall_mem_cons.mpr ⟨hsd, List.forall_mem_cons.mpr
      ⟨hyd.sized hif, nofun⟩⟩)
    have hkept1 : S.Kept p.tempOff w (w1.jump (p2.ip + 2)) := ⟨h1.kept.stack, h1.kept.temps⟩
    refine (hrunf _ rfl (holds_kept G hw hkept1)).bind fun w2 o2 h2 => ?_
    obtain ⟨rfl, h2⟩ := h2
    have hkept2 := kept_trans hkept1 h2.kept hover
    refine leads_mov (by rwa [h2.ip]) hyd (bytes_of_equals heq).symm (signd_of_equals heq).symm h2.value
      hroom (by rw [h2.ip]; omega) fun w3 hip3 hv hkept3 =>
        leads_here ⟨rfl, ?_, kept_trans hkept2 hkept3 hslot, hv⟩
    rw [hip3, h2.ip]
    rfl
  · obtain ⟨_, ⟨⟩, hyb, hrunt⟩ := htrue (fun hx => h ⟨fun _ => rfl, fun _ => hx⟩) _ _ _ _ _ het hatt
      (by omega) hpeak2
    obtain ⟨hmov, hat⟩ := Compute.at_insn hat (List.forall_mem_cons.mpr ⟨hsd, List.forall_mem_cons.mpr
      ⟨hyb.sized hit, nofun⟩⟩)
    obtain ⟨hjmp, -⟩ := Compute.at_insn hat nofun
    have hkept1 : S.Kept p.tempOff w w1.next := ⟨h1.kept.stack, h1.kept.temps⟩
    refine (hrunt w1.next (congrArg (· + 1) h1.ip) (holds_kept G hw hkept1)).bind fun w2 o2 h2 => ?_
    obtain ⟨rfl, h2⟩ := h2
    have hkept2 := kept_trans hkept1 h2.kept hover
    refine leads_mov (by rwa [h2.ip]) hyb rfl rfl h2.value hroom (by rw [h2.ip]; omega)
      fun w3 hip3 hv hkept3 => ?_
    have hkept := kept_trans hkept2 hkept3 hslot
    rw [h2.ip] at hip3
    exact leads_jmp (by rwa [hip3]) hend' (leads_here ⟨rfl, rfl, ⟨hkept.stack, hkept.temps⟩, hv⟩)

end Operators

end Quaint.Evaluate
