import Quaint.Evaluate

/-!
Calls.

A call saves two words of the caller, pushes its arguments, and enters the function with its frame
above them. What it calls goes back with the stack below as it was, and its number in a temporary.
-/

namespace Quaint.Invoke

open Program (accept)
open Types Ast Scope TypeCheck Bytes Code Codegen Exec Step Typing Layout Emit Listing Operand Linking Bounds
  Parts Storage Casting Arith Window Partial Memory Nesting Evaluate
open Solitary (localOpd localInsn)
open Source (Numbers isInt)
open Compute (Holds Yields scalar_of_int width_of_int isWidth_le emit_peak at_insn at_split at_next)
open Meaning (numFunc write)

/-- An accepted unit whose functions on integers have frames of a bounded size, and the object made of
it. -/
structure Image (solo : Bool) (tops : List TTop) (fns : List Fn) (o : Obj) : Prop where
  accepted : Typing.Accepted tops
  listed : Listed tops fns o
  closed : Closed fns o
  found : ∀ f, TTop.func f ∈ tops → ∃ fn ∈ fns, fn.func = f
  frames : ∀ f, TTop.func f ∈ tops → numFunc solo f = true → Correct.frameBytes f < 2 ^ 63
  count : o.insnCount < 2 ^ 59

lemma Image.count_le {solo : Bool} {tops : List TTop} {fns : List Fn} {o : Obj} (I : Image solo tops fns o) :
    o.insnCount ≤ 2 ^ 64 := I.count.le.trans (by decide)

/-! ### Arguments -/

/-- The numbers are in the words from `base` on, one for each parameter. -/
def ArgsAt (st : Mem) : Nat → List Var → List Int → Prop
  | _, [], [] => True
  | base, p :: ps, x :: xs => Represents p.2 (readMem st base p.2.bytes) x ∧ ArgsAt st (base + 8) ps xs
  | _, _, _ => False

/-- The code of the arguments computes the numbers and pushes each. -/
def Pushes (solo : Bool) (f : TFunc) (cx : Cx) (fns : List Fn) (o : Obj) (S : Spot) (env : Numbers) (ps : Fields)
    (as : TArgs) (xs : List Int) (out out' : List Out) : Prop :=
  ∀ p code p', Emit cx (.args as) p code none p' → At o.insns p.ip (code.map (link fns)) →
    p'.ip < o.insnCount → p'.peak ≤ room S.frame.size → ∀ w, w.ip = p.ip → Holds f S.bp env w.stack →
      S.Leads solo o (S.top (S.sp + 8 * xs.length)) (fun w' out1 => out1 = out' ∧ w'.ip = p'.ip ∧
        S.Kept p.tempOff w w' ∧ S.sp + 8 * xs.length ≤ stackSize ∧ ArgsAt w'.stack S.sp ps.toList xs) w out

section Arguments

variable {solo : Bool} {tops : List TTop} {f : TFunc} {cx : Cx} {fns : List Fn} {o : Obj} {S : Spot} {p p' : Pt}
  {env : Numbers} {a : TExpr} {as : TArgs} {ps : Fields} {t : Ty} {x : Int} {xs : List Int} {st st' : Mem}
  {out out' out1 : List Out} {base : Nat} {vs : List Var}

lemma ArgsAt.length : ∀ {base : Nat} {vs : List Var} {xs : List Int}, ArgsAt st base vs xs →
    xs.length = vs.length
  | _, [], [], _ => rfl
  | _, _ :: _, _ :: _, h => congrArg (· + 1) (ArgsAt.length h.2)

lemma ArgsAt.get : ∀ {base : Nat} {vs : List Var} {xs : List Int}, ArgsAt st base vs xs →
    ∀ {i : Nat} {v : Var} {x : Int}, vs[i]? = some v → xs[i]? = some x →
      Represents v.2 (readMem st (base + 8 * i) v.2.bytes) x
  | _, _ :: _, _ :: _, h, 0, _, _, hv, hx => by
    obtain rfl := Option.some.inj hv
    obtain rfl := Option.some.inj hx
    exact h.1
  | base, _ :: _, _ :: _, h, i + 1, _, _, hv, hx => by
    have hget := ArgsAt.get h.2 (i := i) hv hx
    rwa [show base + 8 * (i + 1) = base + 8 + 8 * i by omega]

lemma pushes_nil (hroom : S.sp ≤ stackSize) :
    Pushes solo f cx fns o S env .nil .nil [] out out := by
  intro p code p' he _ _ _ w hip _
  cases he with | argsNil => ?_
  exact leads_here ⟨rfl, hip, kept_refl _ _, hroom, trivial⟩

/-- The number of an argument is pushed, and the others after it. -/
lemma pushes_cons (G : Ground tops f cx S) {n : Sym} (hint : isInt (typeOfExpr a) = true)
    (heq : typeEquals (typeOfExpr a) t = true) (ha : Computes solo f cx fns o S env a x out out1)
    (hr : Ground tops f cx (S.top (S.sp + 8)) →
      Pushes solo f cx fns o (S.top (S.sp + 8)) env ps as xs out1 out') :
    Pushes solo f cx fns o S env (.cons n t ps) (.cons a as) (x :: xs) out out' := by
  intro p code p' he hat hend hpeak w hip hw
  cases he with | @argsCons _ _ _ p1 _ ce cr d h hr' => ?_
  have hle : p1.ip + 1 ≤ p'.ip := emit_le hr'
  have hpeak1 : p1.peak ≤ room S.frame.size := (emit_peak hr').trans hpeak
  rw [List.append_assoc] at hat
  obtain ⟨hate, hat⟩ := at_split h hat
  obtain ⟨_, ⟨⟩, hy, hrun⟩ := ha _ _ _ _ _ h hate (by omega) hpeak1
  obtain ⟨hi, hatr⟩ := at_insn hat (List.forall_mem_cons.mpr ⟨hy.sized hint, nofun⟩)
  have hwidth := width_of_int hint
  have hlen : S.sp + 8 * (x :: xs).length = S.sp + 8 + 8 * xs.length := by
    rw [List.length_cons]
    omega
  refine (hrun w hip hw).bind fun w1 o1 h1 => ?_
  obtain ⟨rfl, h1⟩ := h1
  obtain ⟨bs, hload, hbs⟩ := h1.value
  have hbslen : bs.length ≤ 8 := hbs.1.trans_le (isWidth_le hwidth)
  have heven := G.even
  refine leads_push (by rwa [h1.ip]) hy.under.direct hload (hy.size ▸ Nat.pos_of_ne_zero (isWidth_pos hwidth))
    (hy.size ▸ isWidth_le hwidth) G.even G.room (by rw [h1.ip]; omega) fun hroom => ?_
  have GT : Ground tops f cx (S.top (S.sp + 8)) := G.top (Nat.le_add_right _ _) hroom (by omega)
  let w2 : View := ⟨w1.ip + 1, writeMem w1.stack S.sp bs, w1.temps⟩
  have hkept2 : S.Kept p.tempOff w w2 :=
    kept_trans h1.kept (m := p.tempOff) ⟨fun i hi => writeMem_of_lt _ _ hi, fun _ _ => rfl⟩ le_rfl
  have hw2 : Holds f S.bp env w2.stack := holds_kept G hw hkept2
  have hrest := hr GT _ _ _ hr' hatr hend hpeak w2 (congrArg (· + 1) h1.ip) hw2
  rw [hlen]
  refine hrest.mono fun w3 o3 h3 => ?_
  obtain ⟨rfl, hip3, hkept3, hroom3, hargs3⟩ := h3
  have hup : p.tempOff ≤ p1.tempOff := expr_up h (peak_lt hpeak1)
  refine ⟨rfl, hip3, kept_trans hkept2 ⟨fun i hi => hkept3.stack i (Nat.lt_add_right 8 hi), hkept3.temps⟩ hup,
    hroom3, ?_, hargs3⟩
  -- the bytes of the argument are below the new top
  have hread : readMem w3.stack S.sp t.bytes = bs := by
    rw [readMem_congr fun i _ hi => hkept3.stack i (show i < S.sp + 8 by
      have := hbs.1
      have := bytes_of_equals heq
      omega), ← bytes_of_equals heq, ← hbs.1]
    exact readMem_writeMem_same _ _ _
  rw [hread]
  exact Compute.represents_alike (bytes_of_equals heq) (signd_of_equals heq) hbs

end Arguments

/-! ### What a call serves -/

/-- The bytes are what a function of the return type gives back. -/
def Bears (ret : RetTy) (v : Option Int) (bs : List UInt8) : Prop :=
  match ret, v with
  | .none, none => bs = []
  | .some t, some x => Represents t bs x
  | _, _ => False

/-- The call at `k` has a temporary for a value of the type. -/
def Dest (o : Obj) (S : Spot) (k : Nat) (t : Ty) : Prop :=
  t.bytes ≠ 0 → ∃ d loc ssp, o.insns[k]? = some (.callv d loc ssp) ∧ d.opd = .temp ∧
    d.indirect = false ∧ d.size = t.bytes ∧ d.off + d.size ≤ S.frame.size

/-- The words the call at `k` has saved, and the arguments. -/
structure Entered (S : Spot) (k : Nat) (ps : List Var) (xs : List Int) (st : Mem) : Prop where
  ip : readMem st S.sp 8 = leBytes 8 k
  bp : readMem st (S.sp + 8) 8 = leBytes 8 S.bp
  room : S.sp + 16 + 8 * xs.length ≤ stackSize
  args : ArgsAt st (S.sp + 16) ps xs

/-- The spot a function with `n` parameters is entered at. -/
def callee (S : Spot) (n : Nat) : Spot := { S with bp := S.sp + 16, sp := S.sp + 16 + 8 * n }

/-- The function entered at `e` gives `v` back to every caller, and writes what it writes. -/
def Serves (solo : Bool) (o : Obj) (e : Nat) (ps : List Var) (ret : RetTy) (xs : List Int) (out : List Out)
    (v : Option Int) (out' : List Out) : Prop :=
  ∀ (S : Spot) (k : Nat) (w : View), 16 ≤ S.bp → S.bp ≤ S.sp → S.sp % 8 = 0 → k + 1 < o.insnCount →
    Dest o S k (RetTy.ty ret) → w.ip = e → Entered S k ps xs w.stack →
    (callee S xs.length).Leads solo o S (fun w' out1 => out1 = out' ∧ ∃ bs st, Bears ret v bs ∧
      (∀ i < S.sp, st i = w.stack i) ∧ Received o S k bs ⟨k, st, w.temps⟩ w') w out

/-- The name stands for a function that gives `v` back. -/
def Calls (solo : Bool) (cx : Cx) (fns : List Fn) (o : Obj) (so : ScopeObj) (ft : Ty) (xs : List Int) (out : List Out)
    (v : Option Int) (out' : List Out) : Prop :=
  ∃ e ps ret, ft = .fptr 1 ps ret ∧ e < o.insnCount ∧
    (∀ a, nameOpd cx so ft = some a → printOpd (locsOf fns) a = opdImm false e 8) ∧
    Serves solo o e ps.toList ret xs out v out'

section Calls

variable {solo : Bool} {tops : List TTop} {f : TFunc} {cx : Cx} {fns : List Fn} {o : Obj} {S : Spot} {p p' : Pt}
  {env : Numbers} {as : TArgs} {ps : Fields} {t ft : Ty} {x : Int} {xs : List Int} {st st' : Mem} {k : Nat}
  {out out' out1 : List Out} {so : ScopeObj} {v : Option Int} {ret : RetTy} {bs : List UInt8} {w : View}
  {code : List Insn} {need : Bool} {r : Option Opd}

lemma Bears.length (h : Bears ret v bs) : bs.length = (RetTy.ty ret).bytes := by
  unfold Bears at h
  cases ret <;> cases v <;> simp only at h
  · rw [h]
    rfl
  · exact h.1

lemma fits_of_dest (h : Dest o S k (RetTy.ty ret)) (hb : Bears ret v bs) : Fits o S k bs := fun h0 => by
  obtain ⟨d, loc, ssp, hi, hk, hd, hs, hle⟩ := h (hb.length ▸ h0)
  exact ⟨d, loc, ssp, hi, hk, hd, hb.length.trans hs.symm, hle⟩

/-- The instruction of a call, and its result. -/
inductive CallInsn (p1 p' : Pt) (t : Ty) (a ssp : Opd) : Insn → Option Opd → Prop
  | callv (ht : t.bytes ≠ 0) (hpeak : (p1.alloc t.bytes).peak ≤ p'.peak)
    (hup : p'.tempOff = (p1.alloc t.bytes).tempOff) :
    CallInsn p1 p' t a ssp (.callv (p1.temp t.signd t.bytes) a ssp) (some (p1.temp t.signd t.bytes))
  | call (ht : t.bytes = 0) : CallInsn p1 p' t a ssp (.call a ssp) none

/-- The code of a call by name. -/
lemma emit_fexp (he : Emit cx (.expr (.fexp (.name so ft) as t) need) p code r p') :
    ∃ p1 ca a i, nameOpd cx so ft = some a ∧ Emit cx (.args as) ((p.alloc 8).skip 1) ca none p1 ∧
      code = .pushr (opdImm false p1.ip 8) p.word :: (ca ++ [i]) ∧ p'.ip = p1.ip + 1 ∧
      p1.peak ≤ p'.peak ∧ CallInsn p1 p' t a p.word i r := by
  cases he with
  | callv ht ha hl =>
    cases hl with | name hn => ?_
    exact ⟨_, _, _, _, hn, ha, by simp, rfl, le_max_left _ _, .callv ht le_rfl rfl⟩
  | call ht ha hl =>
    cases hl with | name hn => ?_
    exact ⟨_, _, _, _, hn, ha, by simp, rfl, le_rfl, .call ht⟩

lemma Bears.represents (h : Bears ret v bs) (hne : bs.length ≠ 0) :
    ∃ x, v = some x ∧ Represents (RetTy.ty ret) bs x := by
  unfold Bears at h
  cases ret <;> cases v <;> simp only at h
  · exact absurd (congrArg List.length h) hne
  · exact ⟨_, rfl, h⟩

/-- The instruction of a call with the place of the function filled in. -/
lemma call_linked {p1 : Pt} {a a' : Opd} {i : Insn} (hi : CallInsn p1 p' t a p.word i r)
    (ha : printOpd (locsOf fns) a = a') (hat : At o.insns p1.ip ([i].map (link fns)))
    (hpeak : p'.peak ≤ room S.frame.size) :
    ∃ j, o.insns[p1.ip]? = some j ∧ isCall a' p.word j ∧ (localOpd a' = true → localInsn j = true) ∧
      Dest o S p1.ip t ∧
      (∀ d, r = some d → t.bytes ≠ 0) ∧
      ∀ d loc ssp, o.insns[p1.ip]? = some (.callv d loc ssp) → r = some d ∧ p1.tempOff ≤ d.off := by
  have hhead := At.head hat
  have hprint (q : Pt) (s : Bool) (n : Nat) : printOpd (locsOf fns) (q.temp s n) = q.temp s n :=
    printOpd_of_ne (.inl fun h => by cases h)
  subst ha
  cases hi with
  | callv ht hpk hup =>
    have hlink : link fns (.callv (p1.temp t.signd t.bytes) a p.word) =
        .callv (p1.temp t.signd t.bytes) (printOpd (locsOf fns) a) p.word := by
      simp only [link, Insn.mapOpds, Pt.word, hprint]
    rw [hlink] at hhead
    refine ⟨_, hhead, .inr ⟨_, rfl⟩, fun ha => ?_, fun _ => ⟨_, _, _, hhead, rfl, rfl, rfl, slot_room (hpk.trans hpeak)⟩,
      fun _ _ => ht, fun d loc ssp hd => ?_⟩
    · simp [localInsn, Insn.opds, ha, localOpd_temp, Pt.word]
    · obtain ⟨rfl, -, -⟩ := Insn.callv.inj (Option.some.inj (hhead.symm.trans hd))
      exact ⟨rfl, slot_up (hpk.trans hpeak)⟩
  | call ht =>
    have hlink : link fns (.call a p.word) = .call (printOpd (locsOf fns) a) p.word := by
      simp only [link, Insn.mapOpds, Pt.word, hprint]
    rw [hlink] at hhead
    refine ⟨_, hhead, .inl rfl, fun ha => ?_, fun h => absurd ht h, (fun d hd => by cases hd), fun d loc ssp hd => ?_⟩
    · simp [localInsn, Insn.opds, ha, localOpd_temp, Pt.word]
    · cases hhead.symm.trans hd

/-- What is pushed above the saved words leaves them. -/
lemma entered_of_saved {st0 : Mem} (hst : ∀ i < S.sp + 16, st i =
      writeMem (writeMem st0 S.sp (leBytes 8 k)) (S.sp + 8) (leBytes 8 S.bp) i)
    (hroom : S.sp + 16 + 8 * xs.length ≤ stackSize) (hargs : ArgsAt st (S.sp + 16) ps.toList xs) :
    Entered S k ps.toList xs st := by
  have hsame (m : Mem) (off v : Nat) : readMem (writeMem m off (leBytes 8 v)) off 8 = leBytes 8 v := by
    have hsame := readMem_writeMem_same m off (leBytes 8 v)
    rwa [leBytes_length] at hsame
  refine ⟨?_, ?_, hroom, hargs⟩
  · rw [readMem_congr fun i _ hi => hst i (by omega), readMem_writeMem_disjoint (h := .inl (Nat.le_refl _)), hsame]
  · rw [readMem_congr fun i _ hi => hst i (by omega), hsame]

/-- **A call gives back what the function does**, and leaves everything below as it was. -/
theorem leads_fexp (I : Image solo tops fns o) (G : Ground tops f cx S)
    (hc : Checked (KnownIn tops f) (.fexp (.name so ft) as t))
    (he : Emit cx (.expr (.fexp (.name so ft) as t) need) p code r p')
    (hat : At o.insns p.ip (code.map (link fns))) (hend : p'.ip < o.insnCount)
    (hpeak : p'.peak ≤ room S.frame.size)
    (hargs : ∀ ps ret, ft = .fptr 1 ps ret → Ground tops f cx (S.top (S.sp + 16)) →
      Pushes solo f cx fns o (S.top (S.sp + 16)) env ps as xs out out1)
    (hcall : Calls solo cx fns o so ft xs out1 v out') (hip : w.ip = p.ip) (hw : Holds f S.bp env w.stack) :
    S.Leads solo o S (fun w' out2 => out2 = out' ∧ w'.ip = p'.ip ∧ S.Kept p.tempOff w w' ∧
      ∀ d, r = some d → ∃ bs x, v = some x ∧ S.load w' d = some bs ∧ Represents t bs x) w out := by
  obtain ⟨e, ps, ret, rfl, hloc, hname, hserve⟩ := hcall
  obtain ⟨ps', ret', hft, rfl, -, -⟩ := hc
  obtain ⟨-, rfl, rfl⟩ : True ∧ ps = ps' ∧ ret = ret' := by simpa [typeOfExpr] using hft
  obtain ⟨p1, ca, a, i, ha, hea, rfl, hip', hpeak1, hi⟩ := emit_fexp he
  have hle : p.ip + 1 ≤ p1.ip := emit_le hea
  have hpeakp : (p.alloc 8).peak ≤ room S.frame.size := ((emit_peak hea).trans hpeak1).trans hpeak
  have hupa := args_up hea (peak_lt (hpeak1.trans hpeak))
  have hup : p.slot 8 + 8 ≤ p1.tempOff := (alloc_end hpeakp).ge.trans hupa
  have hslot : p.tempOff ≤ p.slot 8 := slot_up hpeakp
  have hword8 : ((p.alloc 8).skip 1).tempOff = p.slot 8 + 8 := alloc_end hpeakp
  have hwordroom : p.slot 8 + 8 ≤ S.frame.size := slot_room hpeakp
  have hlow := G.low
  have hframe := G.frame
  have heven := G.even
  have hsize : stackSize = 16304 := rfl
  -- the words are saved
  obtain ⟨hpushr, hat⟩ := at_insn hat (List.forall_mem_cons.mpr ⟨.inr (show 8 ≠ 0 by decide),
    List.forall_mem_cons.mpr ⟨.inl (fun h => by cases h), List.forall_mem_nil _⟩⟩)
  refine leads_pushr (by rwa [hip]) rfl hwordroom G.even (by omega) fun hroom => ?_
  let w1 : View := ⟨w.ip + 1, writeMem (writeMem w.stack S.sp (leBytes 8 p1.ip)) (S.sp + 8) (leBytes 8 S.bp),
    writeMem w.temps (p.slot 8) (leBytes 8 (S.sp + 16))⟩
  have hkept1 : S.Kept p.tempOff w w1 := by
    refine ⟨fun i hi => ?_, fun i hi => writeMem_of_lt _ _ (hi.trans_le hslot)⟩
    exact (writeMem_of_lt _ _ (Nat.lt_add_right 8 hi)).trans (writeMem_of_lt _ _ hi)
  have hw1 : Holds f S.bp env w1.stack := holds_kept G hw hkept1
  -- the arguments are pushed
  have GT : Ground tops f cx (S.top (S.sp + 16)) := G.top (Nat.le_add_right _ _) hroom (by omega)
  have hatargs : At o.insns ((p.alloc 8).skip 1).ip ((ca ++ [i]).map (link fns)) := hat
  obtain ⟨hata, hati⟩ := at_split hea hatargs
  refine (hargs ps ret rfl GT _ _ _ hea hata (by omega) (hpeak1.trans hpeak) w1
    (congrArg (· + 1) hip) hw1).bind fun w2 o2 h2 => ?_
  obtain ⟨rfl, hip2, hkept2, hroom2, hargs2⟩ := h2
  replace hroom2 : S.sp + 16 + 8 * xs.length ≤ stackSize := hroom2
  have hword : (S.top (S.sp + 16 + 8 * xs.length)).load w2 p.word = some (leBytes 8 (S.sp + 16)) := by
    have hread : readMem w2.temps (p.slot 8) 8 = leBytes 8 (S.sp + 16) := by
      rw [readMem_congr fun i _ hi => hkept2.temps i (hword8 ▸ hi)]
      have hsame := readMem_writeMem_same w.temps (p.slot 8) (leBytes 8 (S.sp + 16))
      rwa [leBytes_length] at hsame
    exact (if_pos hwordroom).trans (congrArg some hread)
  have hentered : Entered S p1.ip ps.toList xs w2.stack :=
    entered_of_saved (fun i hi => hkept2.stack i hi) hroom2 hargs2
  obtain ⟨j, hj, hcallj, hown, hdest, hres, hcallv⟩ := call_linked hi (hname a ha) hati hpeak
  refine leads_call (by rwa [hip2]) hcallj (hown rfl) rfl hword (by omega) hloc I.count_le ?_
  refine Spot.Leads.mono (hserve S p1.ip (w2.jump e) hlow (by omega) heven (by omega) hdest rfl hentered)
    fun w3 o3 h3 => ?_
  obtain ⟨rfl, bs, st, hbears, hst, hip3, hstack3, htemps3⟩ := h3
  have hkept : S.Kept p.tempOff w1 w3 := by
    refine ⟨fun i hi => ?_, fun i hi => ?_⟩
    · rw [hstack3]
      exact (hst i hi).trans (hkept2.stack i (Nat.lt_add_right 16 hi))
    · have hi2 : w2.temps i = w1.temps i := hkept2.temps i (by omega)
      split at htemps3
      · rw [htemps3]
        exact hi2
      · obtain ⟨d, loc, ssp, hd, -, hbelow⟩ := htemps3
        have hoff := (hcallv d loc ssp hd).2
        exact (hbelow i (by omega)).trans hi2
  refine ⟨rfl, hip3.trans hip'.symm, kept_trans hkept1 hkept le_rfl, fun d hd => ?_⟩
  have hne : bs.length ≠ 0 := hbears.length ▸ hres d hd
  rw [if_neg hne] at htemps3
  obtain ⟨d', loc, ssp, hd', hload, -⟩ := htemps3
  obtain rfl := Option.some.inj ((hcallv d' loc ssp hd').1.symm.trans hd)
  obtain ⟨x, rfl, hrep⟩ := hbears.represents hne
  exact ⟨bs, x, rfl, hload, hrep⟩

lemma computes_fexp (I : Image solo tops fns o) (G : Ground tops f cx S) (ht : isInt t = true)
    (hc : Checked (KnownIn tops f) (.fexp (.name so ft) as t))
    (hargs : ∀ ps ret, ft = .fptr 1 ps ret → Ground tops f cx (S.top (S.sp + 16)) →
      Pushes solo f cx fns o (S.top (S.sp + 16)) env ps as xs out out1)
    (hcall : Calls solo cx fns o so ft xs out1 (some x) out') :
    Computes solo f cx fns o S env (.fexp (.name so ft) as t) x out out' := by
  intro need p code r p' he hat hend hpeak
  have hbytes : t.bytes ≠ 0 := isWidth_pos (width_of_int ht)
  obtain ⟨p1, ca, a, i, ha, hea, hcode, hip', hpeak1, hi⟩ := emit_fexp he
  cases hi with
  | call h0 => exact absurd h0 hbytes
  | callv _ hpk hup =>
    refine ⟨_, rfl, ⟨⟨rfl, fun _ => ?_⟩, rfl, rfl, nofun⟩, fun w hip hw =>
      (leads_fexp I G hc he hat hend hpeak hargs hcall hip hw).mono fun w' o' h => ?_⟩
    · exact (alloc_end (hpk.trans hpeak)).ge.trans hup.ge
    · obtain ⟨rfl, hip1, hkept, hval⟩ := h
      obtain ⟨bs, x', hx, hload, hrep⟩ := hval _ rfl
      obtain rfl := Option.some.inj hx
      exact ⟨rfl, hip1, hkept, bs, hload, hrep⟩

end Calls

/-! ### Built-in functions that write -/

section Writers

variable {solo : Bool} {tops : List TTop} {fns : List Fn} {o : Obj} {id : Nat} {xs : List Int} {out ws : List Out}
  {w : View} {base : Nat} {so : ScopeObj} {ft : Ty} {cx : Cx} {f : TFunc}

lemma bfun_at (hl : Listed tops fns o) (hid : id < 17) : o.insns[id]? = some .bfun := by
  have hlt : id < (List.replicate scopeBfunIdCount Insn.bfun).length := by
    rw [List.length_replicate]
    exact hid
  rw [hl.insns, List.getElem?_map, List.getElem?_append_left hlt, List.getElem?_replicate, if_pos]
  · rfl
  · exact hid

/-- The built-in functions that write have one parameter, of the type of the number, or none. -/
lemma writer_params {g : BuiltinFunc} (h7 : 7 ≤ id) (h15 : id ≤ 15) (hg : scopeBuiltinFuncs[id]? = some g) :
    g.rettype = .none ∧ (id = 15 ∧ g.params = .nil ∨ id ≤ 14 ∧
      ∃ n t, g.params = .cons n t .nil ∧ printer id = some (t.signd, t.bytes)) := by
  obtain rfl | rfl | rfl | rfl | rfl | rfl | rfl | rfl | rfl : id = 15 ∨ id = 7 ∨ id = 8 ∨ id = 9 ∨
    id = 10 ∨ id = 11 ∨ id = 12 ∨ id = 13 ∨ id = 14 := by omega
  all_goals
    obtain rfl := Option.some.inj hg
    refine ⟨rfl, ?_⟩
    first | exact .inl ⟨rfl, rfl⟩ | exact .inr ⟨by decide, _, _, rfl, rfl⟩

/-- What a built-in function writes is the number of its parameter, or a line end. -/
lemma writes_of_args {g : BuiltinFunc} (h7 : 7 ≤ id) (h15 : id ≤ 15) (hg : scopeBuiltinFuncs[id]? = some g)
    (hw : write id xs = some ws) (hargs : ArgsAt w.stack base g.params.toList xs) (hip : w.ip = id) :
    Writes w base (8 * xs.length) ws := by
  rcases (writer_params h7 h15 hg).2 with ⟨rfl, hps⟩ | ⟨h14, n, t, hps, hpr⟩
  · rw [hps] at hargs
    obtain rfl : xs = [] := List.length_eq_zero_iff.mp hargs.length
    obtain rfl := Option.some.inj hw
    exact .line hip
  · rw [hps] at hargs
    obtain ⟨x, rfl⟩ := List.length_eq_one_iff.mp hargs.length
    rw [write, if_neg (by omega), if_pos ⟨h7, h14⟩] at hw
    obtain rfl := Option.some.inj hw
    rw [← hargs.1.2]
    exact .num _ _ (hip ▸ hpr)

/-- **A built-in function that writes serves its callers.** -/
theorem serves_bfun (hsolo : solo = false) (hl : Listed tops fns o) (hcount : o.insnCount ≤ 2 ^ 64) {g : BuiltinFunc} (h7 : 7 ≤ id)
    (h15 : id ≤ 15) (hg : scopeBuiltinFuncs[id]? = some g) (hw : write id xs = some ws) :
    Serves solo o id g.params.toList g.rettype xs out none (out ++ ws) := by
  intro S k w hlow hle heven hk hdest hip hent
  have hi : o.insns[w.ip]? = some .bfun := by
    rw [hip]
    exact bfun_at hl (by omega)
  have hroom := hent.room
  refine leads_bfun (T := callee S xs.length) (S := S) hsolo hi
    (writes_of_args h7 h15 hg hw hent.args hip) rfl hroom rfl heven (fun f => ?_) rfl rfl rfl hk hcount
    fun w' hrec => leads_here ⟨rfl, [], w.stack, ?_, fun _ _ => rfl, hrec⟩
  · exact ⟨rfl, rfl, hent.ip, hent.bp, by omega, by omega, hle⟩
  · rw [(writer_params h7 h15 hg).1]
    rfl

end Writers

end Quaint.Invoke
