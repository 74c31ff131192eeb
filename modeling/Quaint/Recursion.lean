import Quaint.Perform

/-!
Functions that call one another.

What a call means is what the code of the function does, to any depth: the proof goes by the number of
steps the meaning is found in. A program writes what its first function means and exits with the number
of it, unless a call finds no memory or no room on the stack.
-/

namespace Quaint.Recursion

open Program (accept Compiles letter)
open Types Ast Scope TypeCheck Bytes Code Codegen Exec Step Typing Layout Emit Listing Operand Linking Bounds
  Parts Storage Casting Arith Window Partial Memory Nesting Evaluate Invoke Perform
open Legality (Rule)
open Source (Numbers Part isInt argNumbers updateOp binary)
open Compute (Holds Yields emit_peak at_insn at_split at_next vars)
open Meaning
open Correct (frameBytes)
open Certain (ComesUnless)

/-! ### Frames -/

section Frames

variable {solo : Bool} {f : TFunc}

mutual
lemma stmt_nums : ∀ {s : TStmt}, numStmt solo s = true → ∀ d ∈ stmtLocals s, isInt d.2 = true
  | .decl _ _ _, h, d, hd => by
    obtain rfl := List.mem_singleton.mp hd
    simp only [numStmt, Bool.and_eq_true] at h
    exact h.1
  | .cond _ _ _, h, d, hd => by
    simp only [numStmt, Bool.and_eq_true] at h
    rcases List.mem_append.mp hd with hd | hd
    · exact stmts_nums h.1.2 d hd
    · exact elifs_nums h.2 d hd
  | .blok _, h, d, hd | .noin _, h, d, hd => stmts_nums h d hd
  | .whil _ _, h, d, hd | .dowh _ _, h, d, hd => by
    simp only [numStmt, Bool.and_eq_true] at h
    exact stmts_nums h.2 d hd
  | .retn _, _, _, hd | .expr _, _, _, hd | .wlab _ _, _, _, hd => by cases hd
lemma stmts_nums : ∀ {b : TStmts}, numStmts solo b = true → ∀ d ∈ stmtsLocals b, isInt d.2 = true
  | .nil, _, _, hd => by cases hd
  | .cons _ _, h, d, hd => by
    simp only [numStmts, Bool.and_eq_true] at h
    rcases List.mem_append.mp hd with hd | hd
    · exact stmt_nums h.1 d hd
    · exact stmts_nums h.2 d hd
lemma elifs_nums : ∀ {r : TElifs}, numElifs solo r = true → ∀ d ∈ elifsLocals r, isInt d.2 = true
  | .none, _, _, hd => by cases hd
  | .els _, h, d, hd => stmts_nums h d hd
  | .elif _ _ _, h, d, hd => by
    simp only [numElifs, Bool.and_eq_true] at h
    rcases List.mem_append.mp hd with hd | hd
    · exact stmts_nums h.1.2 d hd
    · exact elifs_nums h.2 d hd
end

lemma params_nums (h : numFunc solo f = true) : ∀ v ∈ f.params.toList, isInt v.2 = true := by
  simp only [numFunc, Bool.and_eq_true, List.all_eq_true] at h
  exact h.1

lemma locals_nums (h : numFunc solo f = true) : ∀ v ∈ localVars f, isInt v.2 = true := by
  simp only [numFunc, Bool.and_eq_true] at h
  intro v hv
  obtain ⟨d, hd, hv⟩ := List.mem_flatMap.mp hv
  obtain ⟨n, -, rfl⟩ := List.mem_map.mp hv
  exact stmts_nums h.2 d hd

/-- A function on integers with a frame of a bounded size fits. -/
lemma fits_of_frame (h : numFunc solo f = true) (hframe : frameBytes f < 2 ^ 63) : funcFits f = true := by
  have hup := le_alignUp ((localVars f).foldl varEnd (argBytes f.params.toList)) 8
  have hvars := varEnd_le (localVars f) (argBytes f.params.toList)
  unfold frameBytes at hframe
  simp only [funcFits, Bool.and_eq_true, decide_eq_true_eq]
  refine ⟨⟨Correct.frameFits_of_end (fun n v => ?_) (fun v hv => Correct.fits_of_int (params_nums h v hv)) ?_,
    Correct.frameFits_of_end (fun n v => varEnd_le [v] n)
      (fun v hv => Correct.fits_of_int (locals_nums h v hv)) ?_⟩, ?_⟩
  · exact (Nat.le_add_right _ _).trans (le_alignUp _ _)
  · show argBytes f.params.toList < 2 ^ 64
    omega
  · show (localVars f).foldl varEnd (argBytes f.params.toList) < 2 ^ 64
    omega
  · show alignUp ((localVars f).foldl varEnd (argBytes f.params.toList)) 8 + 16 < 2 ^ 64
    omega

variable {tops : List TTop}

lemma bytes_of_int {t : Ty} (h : isInt t = true) : t.bytes ≤ 8 :=
  Compute.isWidth_le (Compute.width_of_int h)

/-- What a call by name calls is a word. -/
lemma callee_small {K : ScopeObj → Ty → Prop} {so : ScopeObj} {ft t : Ty} {as : TArgs}
    (hc : Checked K (.fexp (.name so ft) as t)) : typesSmall.expr (.name so ft) = true := by
  obtain ⟨ps, ret, hft, -⟩ := hc
  refine decide_eq_true ?_
  show ft.bytes ≤ 8
  rw [show ft = .fptr 1 ps ret from hft, fptr_word.1]

/-- The built-in functions that write give nothing back. -/
lemma writer_void {id : Nat} {g : BuiltinFunc} (h7 : 7 ≤ id) (h15 : id ≤ 15)
    (hg : scopeBuiltinFuncs[id]? = some g) : g.rettype = .none := by
  interval_cases id <;> (obtain rfl := Option.some.inj hg; rfl)

mutual
/-- No expression on integers needs a large temporary. -/
lemma expr_small {K : ScopeObj → Ty → Prop} :
    ∀ {e : TExpr}, numExpr e = true → Checked K e → typesSmall.expr e = true
  | .nmbr _ _, h, hc | .name _ _, h, hc => decide_eq_true (bytes_of_int (int_of_num h hc))
  | .bexp op l r t, h, hc => by
    have ht := bytes_of_int (int_of_num h hc)
    simp only [numExpr, Bool.and_eq_true] at h
    simp only [Rule.expr, Bool.and_eq_true]
    exact ⟨⟨decide_eq_true ht, expr_small h.1.2 hc.2.1⟩, expr_small h.2 hc.2.2⟩
  | .uexp op r t, h, hc => by
    have ht := bytes_of_int (int_of_num h hc)
    simp only [numExpr, Bool.and_eq_true] at h
    simp only [Rule.expr, Bool.and_eq_true]
    exact ⟨decide_eq_true ht, expr_small h.2 hc.2⟩
  | .cast l c t, h, hc => by
    simp only [numExpr, Bool.and_eq_true] at h
    simp only [Rule.expr, Bool.and_eq_true]
    exact ⟨decide_eq_true (bytes_of_int h.1.1), expr_small h.2 hc.2.2.2⟩
  | .texp c tv fv t, h, hc => by
    have ht := bytes_of_int (int_of_num h hc)
    simp only [numExpr, Bool.and_eq_true] at h
    simp only [Rule.expr, Bool.and_eq_true]
    exact ⟨⟨⟨decide_eq_true ht, expr_small h.1.1 hc.2.1⟩, expr_small h.1.2 hc.2.2.1⟩,
      expr_small h.2 hc.2.2.2⟩
  | .fexp l as t, h, hc => by
    have ht := bytes_of_int (int_of_num h hc)
    cases l <;> simp only [numExpr, Bool.and_eq_true, Bool.false_eq_true] at h
    have hl := callee_small hc
    obtain ⟨ps, ret, -, -, -, has⟩ := hc
    simp only [Rule.expr, Bool.and_eq_true] at hl ⊢
    exact ⟨⟨decide_eq_true ht, hl⟩, args_small h.2 has⟩
lemma args_small {K : ScopeObj → Ty → Prop} :
    ∀ {as : TArgs} {ps : Fields}, numArgs as = true → CheckedArgs K ps as → typesSmall.args as = true
  | .nil, _, _, _ => rfl
  | .cons a rest, .cons n t ps, h, hc => by
    simp only [numArgs, Bool.and_eq_true] at h
    simp only [Rule.args, Bool.and_eq_true]
    exact ⟨⟨rfl, expr_small h.1 hc.1⟩, args_small h.2 hc.2.2⟩
end

lemma effect_small {e : TExpr} (h : numEffect solo e = true) (hc : Checked (KnownIn tops f) e) :
    typesSmall.expr e = true := by
  unfold numEffect at h
  split at h
  · rename_i op so tl r t
    simp only [Bool.and_eq_true, Bool.or_eq_true, beq_iff_eq] at h
    obtain ⟨⟨⟨hop, hil⟩, -⟩, hr⟩ := h
    have ht : isInt t = true := by
      rcases hop with rfl | hop
      · exact (assn_checked hc.1).2.2 ▸ int_of_num hr hc.2.2
      · cases op <;> simp only [updateOp, Option.isSome_none, Bool.false_eq_true] at hop
        case aspl | asmi => exact (plus_checked rfl hc.1).2.2 ▸ hil
        all_goals exact (asmu_checked rfl hc.1).2.2 ▸ hil
    simp only [Rule.expr, Bool.and_eq_true]
    exact ⟨⟨decide_eq_true (bytes_of_int ht), decide_eq_true (bytes_of_int hil)⟩, expr_small hr hc.2.2⟩
  · rename_i so ft as t
    simp only [Bool.and_eq_true, Bool.or_eq_true, beq_iff_eq] at h
    have hl := callee_small hc
    obtain ⟨ps, ret, hft, ht, hK, has⟩ := hc
    have hbytes : t.bytes ≤ 8 := by
      rcases h.1 with ⟨-, hi | hv⟩ | ⟨-, hw⟩
      · exact bytes_of_int hi
      · cases t <;> simp only [Ty.t, reduceCtorEq] at hv
        case void => simp [Ty.bytes, Ty.size, wrap64]
        case int k c => cases k <;> cases hv
      · obtain ⟨name, obj⟩ := so
        cases obj <;> simp only [isWriter, Bool.false_eq_true, decide_eq_true_eq] at hw
        obtain ⟨g, hg, hfg⟩ := Option.map_eq_some_iff.mp hK.1
        obtain ⟨-, -, rfl⟩ := Ty.fptr.inj (hfg.trans hft)
        rw [ht, writer_void hw.1 hw.2 hg]
        exact Nat.zero_le _
    simp only [Rule.expr, Bool.and_eq_true] at hl ⊢
    exact ⟨⟨decide_eq_true hbytes, hl⟩, args_small h.2 has⟩
  · split at h
    · rename_i dec so t hs
      simp only [Bool.and_eq_true] at h
      have hn : typesSmall.expr (.name so t) = true := decide_eq_true (bytes_of_int h.1)
      unfold stepOp at hs
      split at hs
      case h_5 => cases hs
      all_goals
        obtain ⟨-, rfl, rfl⟩ : _ ∧ _ ∧ _ := by simpa using hs
        simp only [Rule.expr, Bool.and_eq_true]
        refine ⟨decide_eq_true ?_, hn⟩
      · exact (incr_checked rfl hc.1).2.2 ▸ bytes_of_int h.1
      · exact (xexp_checked hc.1).2.2 ▸ bytes_of_int h.1
      · exact (incr_checked rfl hc.1).2.2 ▸ bytes_of_int h.1
      · exact (xexp_checked hc.1).2.2 ▸ bytes_of_int h.1
    · cases h

mutual
lemma stmt_small {ret : RetTy} :
    ∀ {s : TStmt}, numStmt solo s = true → CheckedStmt (KnownIn tops f) ret s → typesSmall.stmt s = true
  | .decl _ _ init, h, hc => by
    simp only [numStmt, Bool.and_eq_true] at h
    cases init with
    | none => rfl
    | some e => exact expr_small h.2 (hc.2.2 e rfl).1
  | .cond _ _ _, h, hc => by
    simp only [numStmt, Bool.and_eq_true] at h
    simp only [Rule.stmt, Bool.and_eq_true]
    exact ⟨⟨⟨rfl, expr_small h.1.1 hc.1⟩, stmts_small h.1.2 hc.2.1⟩, elifs_small h.2 hc.2.2⟩
  | .blok _, h, hc | .noin _, h, hc => stmts_small (by exact h) (by exact hc)
  | .whil _ _, h, hc => by
    simp only [numStmt, Bool.and_eq_true] at h
    simp only [Rule.stmt, Bool.and_eq_true]
    exact ⟨⟨rfl, expr_small h.1 hc.1⟩, stmts_small h.2 hc.2⟩
  | .dowh _ _, h, hc => by
    simp only [numStmt, Bool.and_eq_true] at h
    simp only [Rule.stmt, Bool.and_eq_true]
    exact ⟨⟨stmts_small h.2 hc.2, rfl⟩, expr_small h.1 hc.1⟩
  | .retn none, _, _ => rfl
  | .retn (some _), h, hc => by
    unfold CheckedStmt at hc
    cases ret <;> simp only at hc
    exact expr_small h hc.1
  | .wlab _ _, _, _ => rfl
  | .expr _, h, hc => effect_small h hc
lemma stmts_small {ret : RetTy} :
    ∀ {b : TStmts}, numStmts solo b = true → CheckedStmts (KnownIn tops f) ret b → typesSmall.stmts b = true
  | .nil, _, _ => rfl
  | .cons _ _, h, hc => by
    simp only [numStmts, Bool.and_eq_true] at h
    simp only [Rule.stmts, Bool.and_eq_true]
    exact ⟨stmt_small h.1 hc.1, stmts_small h.2 hc.2⟩
lemma elifs_small {ret : RetTy} :
    ∀ {r : TElifs}, numElifs solo r = true → CheckedElifs (KnownIn tops f) ret r → typesSmall.elifs r = true
  | .none, _, _ => rfl
  | .els _, h, hc => stmts_small (by exact h) (by exact hc)
  | .elif _ _ _, h, hc => by
    simp only [numElifs, Bool.and_eq_true] at h
    simp only [Rule.elifs, Bool.and_eq_true]
    exact ⟨⟨⟨rfl, expr_small h.1.1 hc.1⟩, stmts_small h.1.2 hc.2.1⟩, elifs_small h.2 hc.2.2⟩
end

/-- No function on integers needs a large temporary. -/
lemma func_small (hc : CheckedStmts (KnownIn tops f) f.rettype f.stmts) (h : numFunc solo f = true) :
    typesSmall.stmts f.stmts = true := by
  simp only [numFunc, Bool.and_eq_true] at h
  exact stmts_small h.2 hc

end Frames

/-! ### Functions -/

/-- The statics while the function is generated. -/
abbrev cxOf (tops : List TTop) (fn : Fn) : Cx := fn.cx (globalsOf tops).size (globalsOf tops).layout

section Functions

variable {solo : Bool} {tops : List TTop} {fns : List Fn} {fn : Fn} {o : Obj} {s : State} {xs : List Int}
  {v : Option Int} {out out' out1 : List Out} {r : Ending} {R : State → Prop}

lemma image_func (I : Image solo tops fns o) (hfn : fn ∈ fns) : TTop.func fn.func ∈ tops := by
  obtain ⟨p, hp, -⟩ := I.listed.placed
  exact placed_func hp hfn

lemma image_fits (I : Image solo tops fns o) (hfn : fn ∈ fns) (hint : numFunc solo fn.func = true) :
    funcFits fn.func = true := fits_of_frame hint (I.frames _ (image_func I hfn) hint)

/-- Each argument of a function on integers takes a word. -/
lemma image_args (I : Image solo tops fns o) (hfn : fn ∈ fns) (hint : numFunc solo fn.func = true) :
    (funcTag fn.func).argsSize = 8 * fn.func.params.toList.length := by
  rw [(goodFrame_of_fits (image_fits I hfn hint)).args, Correct.argBytes_int (params_nums hint)]

/-- A function is entered: its frame is made, unless there is no room or no memory. -/
lemma runs_enter (I : Image solo tops fns o) (hfn : fn ∈ fns) (hint : numFunc solo fn.func = true)
    (hlive : s.cur ∈ s.live) (hroot : s.vm.parent = 0) (hip : s.vm.ip = fn.entry) (hlow : 16 ≤ s.vm.bp)
    (heven : s.vm.bp % 8 = 0) (hsp : s.vm.sp = s.vm.bp + 8 * fn.func.params.toList.length)
    (hroom : s.vm.sp ≤ stackSize)
    (h : ∀ S : Spot, Ground tops fn.func (cxOf tops fn) S → S.cur = s.cur → S.bp = s.vm.bp →
      S.sp = s.vm.bp + (funcTag fn.func).frameSize → fn.stop.peak ≤ room S.frame.size → S.prev = s.vm.temps →
      ∀ s', Seen S ⟨fn.entry + 1, s.vm.stack, S.frame.mem⟩ s.out s' → Runs solo o R s') : Runs solo o R s := by
  have hfit := image_fits I hfn hint
  have hg := goodFrame_of_fits hfit
  have hargs := image_args I hfn hint
  obtain ⟨addend, tsize, hi, hadd, -⟩ := Arguments.frame_of_listed hfit I.listed hfn rfl (I.closed.placed fn hfn)
  obtain ⟨addend', hi'⟩ := I.closed.entries fn hfn
  obtain ⟨-, rfl⟩ : opdImm false addend 8 = addend' ∧ tsize = opdImm false fn.stop.tempOffPeak 8 := by
    simpa using hi.symm.trans hi'
  have hframe : (funcTag fn.func).frameSize = frameBytes fn.func := frameSize_of_fits hfit
  have hbound := I.frames _ (image_func I hfn) hint
  have hmod := hg.frame_mod
  have hsize : stackSize = 16304 := rfl
  have hpeak := peak_of_small I.listed hfn (func_small (I.accepted.checked _ (image_func I hfn)) hint)
  have hcount := I.count
  have htop := tempOffPeak_of_listed I.listed hfn (show fn.stop.peak < 2 ^ 64 by omega)
  have htemps : tmpFrameSize + fn.stop.tempOffPeak < 2 ^ 64 := by
    rw [htop, tmpFrameSize]
    omega
  -- the last instruction of the function lies behind the first
  have hend : fn.entry + 1 < o.insnCount := by
    have hemit := emitted_of_listed I.listed hfn
    have hat : At o.insns (fn.entry + 1) ((fn.body ++ [fn.ret]).map (link fns)) := at_next (I.closed.placed fn hfn)
    obtain ⟨-, hret⟩ := at_split (q := fn.enter) hemit hat
    exact (emit_le hemit).trans_lt (List.getElem?_eq_some_iff.mp (At.head hret)).1
  have hup : (s.vm.sp + addend) % 2 ^ 64 = s.vm.bp + (funcTag fn.func).frameSize := by
    rw [hsp]
    omega
  refine runs_incsp hlive hroot (hip ▸ hi) (by omega) hup (by omega) htemps (by rwa [hip]) fun hle f hf s' hs' =>
      h ⟨s.cur, s.vm.bp, s.vm.bp + (funcTag fn.func).frameSize, f, s.vm.temps⟩
        ⟨?_, laid_of_fits I.accepted hfit (image_func I hfn), ?_, hle, hlow, ?_, hg.frame_lt⟩
        rfl rfl rfl (by rw [hf, htop]; exact le_min le_rfl (by omega)) rfl s' ?_
  · exact ⟨I.accepted, image_func I hfn, rfl, rfl, rfl⟩
  · exact le_rfl
  · show (s.vm.bp + (funcTag fn.func).frameSize) % 8 = 0
    omega
  · rwa [hip] at hs'

/-- The numbers of the parameters are in their places. -/
lemma holds_args (I : Image solo tops fns o) (hfn : fn ∈ fns) (hint : numFunc solo fn.func = true) {st : Mem} {bp : Nat}
    (hargs : ArgsAt st bp fn.func.params.toList xs) :
    Holds fn.func bp (argNumbers fn.func.params.toList xs) st := by
  intro w hw x hx
  have hf := image_func I hfn
  obtain ⟨i, p, hp, hxi, hbeg⟩ := Correct.argNumbers_some hx
  have hpv : p ∈ vars fn.func := List.mem_append_left _ (List.mem_of_getElem? hp)
  obtain rfl : p = w := List.inj_on_of_nodup_map (vars_nodup I.accepted hf) hpv hw hbeg
  refine ⟨_, Arguments.param_found_at I.accepted hf (image_fits I hfn hint) hp, ?_⟩
  have htake : argBytes (fn.func.params.toList.take i) = 8 * i := by
    rw [Correct.argBytes_int fun q hq => params_nums hint q (List.mem_of_mem_take hq), List.length_take,
      Nat.min_eq_left (List.getElem?_eq_some_iff.mp hp).1.le]
  rw [htake]
  exact hargs.get hp hxi

/-- From its entry a function comes to an instruction that leaves it with what it means. -/
lemma runs_func (I : Image solo tops fns o) (hfn : fn ∈ fns) (hint : numFunc solo fn.func = true)
    (hbody : ∀ S, Ground tops fn.func (cxOf tops fn) S → Follows solo fn.func (cxOf tops fn) fns o S
      (argNumbers fn.func.params.toList xs) (.stmts fn.func.stmts) s.out r out')
    (hleave : leave fn.func (r, out') = some (v, out)) (hargs : ArgsAt s.vm.stack s.vm.bp fn.func.params.toList xs)
    (hlive : s.cur ∈ s.live) (hroot : s.vm.parent = 0) (hip : s.vm.ip = fn.entry) (hlow : 16 ≤ s.vm.bp)
    (heven : s.vm.bp % 8 = 0) (hsp : s.vm.sp = s.vm.bp + 8 * fn.func.params.toList.length)
    (hroom : s.vm.sp ≤ stackSize)
    (h : ∀ S : Spot, Ground tops fn.func (cxOf tops fn) S → S.cur = s.cur → S.bp = s.vm.bp →
      S.sp = s.vm.bp + (funcTag fn.func).frameSize → S.prev = s.vm.temps →
      ∀ w, Lands fn.func o S fn.stop.ip (.returned v) w → (∀ i < s.vm.bp, w.stack i = s.vm.stack i) →
      ∀ s', Seen S w out s' → Runs solo o R s') : Runs solo o R s := by
  refine runs_enter I hfn hint hlive hroot hip hlow heven hsp hroom fun S G hcur hbp hsp' hsize hprev s' hs' => ?_
  have hemit := emitted_of_listed I.listed hfn
  have hat : At o.insns (fn.entry + 1) ((fn.body ++ [fn.ret]).map (link fns)) := at_next (I.closed.placed fn hfn)
  obtain ⟨hat, hret⟩ := at_split (q := fn.enter) hemit hat
  have hend : fn.stop.ip < o.insnCount := (List.getElem?_eq_some_iff.mp (At.head hret)).1
  have hw := holds_args I hfn hint hargs
  rw [← hbp] at hw
  refine ((hbody S G _ _ _ hemit hat hend hsize.ge ⟨fn.entry + 1, s.vm.stack, S.frame.mem⟩ rfl hw) s' hs').bind
    fun s1 h1 => ?_
  obtain ⟨w, o1, hs1, rfl, hlands, hlow1⟩ := h1
  rw [hbp] at hlow1
  cases r with
  | returned v' =>
    obtain ⟨rfl, rfl⟩ : v' = v ∧ o1 = out := by simpa [leave] using hleave
    exact h S G hcur hbp hsp' hprev w hlands hlow1 s1 hs1
  | goes env =>
    -- the end of a function without a value
    obtain ⟨hrt, rfl, rfl⟩ : fn.func.rettype = .none ∧ v = none ∧ o1 = out := by
      unfold leave at hleave
      cases hrt : fn.func.rettype with
      | none => simpa [hrt, eq_comm] using hleave
      | some t => simp [hrt] at hleave
    obtain ⟨hi, -⟩ := at_insn hret (List.forall_mem_cons.mpr ⟨.inr (show 8 ≠ 0 by decide), nofun⟩)
    have hsz : fn.ret = .ret (leaveSize fn.func) := by
      have hlt : fn.tag.frameSize + 16 < 2 ^ 64 := G.sized
      rw [Fn.ret, wrap64_of_lt hlt]
      rfl
    rw [hsz] at hi
    refine h S G hcur hbp hsp' hprev w ⟨_, [], by rwa [hlands.1], .none, ?_, ?_, .inl rfl⟩ hlow1 s1 hs1
    all_goals
      rw [hrt]
      rfl

/-- **A function serves its callers** if its code leads where its statements do. -/
theorem serves_func (I : Image solo tops fns o) (hfn : fn ∈ fns) (hint : numFunc solo fn.func = true)
    (hbody : ∀ S, Ground tops fn.func (cxOf tops fn) S → Follows solo fn.func (cxOf tops fn) fns o S
      (argNumbers fn.func.params.toList xs) (.stmts fn.func.stmts) out r out')
    (hleave : leave fn.func (r, out') = some (v, out1)) :
    Serves solo o fn.entry fn.func.params.toList fn.func.rettype xs out v out1 := by
  intro S k w hlow hle heven hk hdest hip hent s hs
  have hlen := hent.args.length
  have hroom := hent.room
  have hsp : s.vm.sp = S.sp + 16 + 8 * xs.length := hs.sp
  have hbp : s.vm.bp = S.sp + 16 := hs.bp
  have hargs : ArgsAt s.vm.stack s.vm.bp fn.func.params.toList xs := by
    rw [hs.stack, hbp]
    exact hent.args
  rw [← hs.out] at hbody
  refine runs_func I hfn hint hbody hleave hargs hs.live hs.root (hs.ip.trans hip) (by omega) (by omega)
    (by omega) (by omega) fun T G hcur hTbp hTsp hprev w1 hlands hlow1 s1 hs1 => ?_
  obtain ⟨i, bs, hi, hy, hbears, -, -⟩ := hlands
  rw [hs.stack, hbp] at hlow1
  have hframe := G.frame
  have hawaits : Awaits S w.temps k T w.stack :=
    ⟨hcur.trans hs.cur, hprev.trans hs.temps, hent.ip, hent.bp, by omega, by omega, hle⟩
  refine leads_ret hi hy rfl (by rw [hTbp]; omega) G.even ?_ (hawaits.congr hlow1) hk I.count_le (fits_of_dest hdest hbears)
    (fun w' hrec => leads_here ⟨rfl, bs, w1.stack, hbears, fun i hi => hlow1 i (by omega), hrec⟩) s1 hs1
  show T.sp = S.sp + ((funcTag fn.func).frameSize + 16)
  omega

end Functions

/-! ### The code does what is meant -/

/-- What is found in `n` steps the code does. -/
structure Sound (solo : Bool) (tops : List TTop) (fns : List Fn) (o : Obj) (n : Nat) : Prop where
  expr : ∀ {f cx S env e x out out'}, Ground tops f cx S → numExpr e = true → Checked (KnownIn tops f) e →
    eval (numFuncs solo tops) n env e out = some (x, out') → Computes solo f cx fns o S env e x out out'
  args : ∀ {f cx S env ps as xs out out'}, Ground tops f cx S → numArgs as = true →
    CheckedArgs (KnownIn tops f) ps as → evalArgs (numFuncs solo tops) n env as out = some (xs, out') →
    Pushes solo f cx fns o S env ps as xs out out'
  part : ∀ {f cx S env x out r out'}, Ground tops f cx S → PartOk solo tops f x →
    run (numFuncs solo tops) n env x out = some (r, out') → Follows solo f cx fns o S env x out r out'
  call : ∀ {f cx so ft xs out v out'}, isFunc so = true ∨ (!solo && isWriter so) = true → KnownIn tops f so ft →
    Meaning.call (numFuncs solo tops) n so xs out = some (v, out') → Calls solo cx fns o so ft xs out v out'

section Induction

variable {solo : Bool} {tops : List TTop} {fns : List Fn} {fn : Fn} {o : Obj} {f : TFunc} {cx : Cx} {S : Spot}
  {env : Numbers} {e l r : TExpr} {t ft : Ty} {x : Int} {xs : List Int} {v : Option Int}
  {out out' : List Out} {n : Nat} {so : ScopeObj} {as : TArgs} {ps : Fields} {g : TFunc}

attribute [local simp] eval evalArgs run Meaning.call

lemma sound_zero : Sound solo tops fns o 0 where
  expr := fun _ _ _ h => by simp at h
  args := fun _ _ _ h => by simp at h
  part := fun _ _ h => by simp at h
  call := fun _ _ h => by simp at h

lemma mem_numFuncs {f : TFunc} : ∀ {tops : List TTop}, f ∈ numFuncs solo tops → TTop.func f ∈ tops ∧ numFunc solo f = true
  | .func g :: rest, h => by
    unfold numFuncs at h
    split at h
    · rcases List.mem_cons.mp h with rfl | h
      · exact ⟨List.mem_cons_self, ‹_›⟩
      · exact (mem_numFuncs h).imp_left (List.mem_cons_of_mem _)
    · exact (mem_numFuncs h).imp_left (List.mem_cons_of_mem _)
  | .skip :: rest, h | .decl _ _ :: rest, h => (mem_numFuncs (show f ∈ numFuncs solo rest from h)).imp_left (List.mem_cons_of_mem _)

lemma numFuncs_mem {f : TFunc} (hn : numFunc solo f = true) : ∀ {tops : List TTop}, TTop.func f ∈ tops → f ∈ numFuncs solo tops
  | t :: rest, h => by
    rcases List.mem_cons.mp h with rfl | h
    · rw [numFuncs, if_pos hn]
      exact List.mem_cons_self
    · have ih := numFuncs_mem hn h
      cases t with
      | func g =>
        rw [numFuncs]
        split
        · exact List.mem_cons_of_mem _ ih
        · exact ih
      | skip | decl => exact ih

/-- Functions of one name are one function. -/
lemma func_unique (I : Image solo tops fns o) {f : TFunc} (hf : TTop.func f ∈ tops) (hg : TTop.func g ∈ tops)
    (h : f.name.beg = g.name.beg) : f = g := by
  obtain ⟨fn, hfn, rfl⟩ := I.found f hf
  obtain ⟨gn, hgn, rfl⟩ := I.found g hg
  obtain ⟨p, hp, -⟩ := I.listed.placed
  have hnames := I.accepted.distinct.sublist ((placed_funcs_sublist hp).map Sym.beg)
  rw [List.map_map] at hnames
  rw [List.inj_on_of_nodup_map hnames hfn hgn h]

/-- A call of a function does what its statements do. -/
lemma sound_call_func (I : Image solo tops fns o) (ih : Sound solo tops fns o n) (name : Sym) {sig : FuncSig}
    (hK : KnownIn tops f ⟨name, .func sig⟩ ft)
    (hx : (do
      let g ← (numFuncs solo tops).find? fun g => g.name.beg == sig.name.beg
      let r ← run (numFuncs solo tops) n (argNumbers g.params.toList xs) (.stmts g.stmts) out
      leave g r) = some (v, out')) : Calls solo cx fns o ⟨name, .func sig⟩ ft xs out v out' := by
  simp only [Option.bind_eq_bind, Option.bind_eq_some_iff] at hx
  obtain ⟨g, hfind, ⟨r, out1⟩, hrun, hleave⟩ := hx
  obtain ⟨hg, hint⟩ := mem_numFuncs (List.mem_of_find?_eq_some hfind)
  obtain ⟨hty, g', hg', hname, hparams, hret⟩ := hK
  obtain rfl : g = g' := func_unique I hg hg' (by
    have := List.find?_some hfind
    rw [hname]
    simpa using this)
  obtain rfl := Option.some.inj hty
  obtain ⟨fn, hfn, rfl⟩ := I.found g hg
  have hentry : fn.entry < o.insnCount := by
    obtain ⟨_, hi⟩ := I.closed.entries fn hfn
    exact (List.getElem?_eq_some_iff.mp hi).1
  refine ⟨fn.entry, sig.params, sig.rettype, rfl, hentry, fun a ha => ?_, ?_⟩
  · have hrefers : Refers fn.func.name a := by
      rw [hname]
      exact refers_of_name ha
    obtain rfl := Option.some.inj ha
    exact I.closed.addresses fn hfn _ hrefers
  · rw [← hparams, ← hret]
    refine serves_func I hfn hint (fun S G => ?_) hleave
    have hint' := hint
    simp only [numFunc, Bool.and_eq_true] at hint'
    exact ih.part G ⟨I.accepted.checked _ hg, List.Subset.refl _, hint'.2⟩ hrun

lemma sound_call (I : Image solo tops fns o) (ih : Sound solo tops fns o n) (hso : isFunc so = true ∨ (!solo && isWriter so) = true)
    (hK : KnownIn tops f so ft) (hx : Meaning.call (numFuncs solo tops) (n + 1) so xs out = some (v, out')) :
    Calls solo cx fns o so ft xs out v out' := by
  obtain ⟨name, obj⟩ := so
  cases obj with
  | func sig => exact sound_call_func I ih name hK hx
  | bfun id =>
    simp only [isFunc, isWriter, Bool.false_eq_true, false_or, Bool.and_eq_true, Bool.not_eq_true',
      decide_eq_true_eq] at hso
    obtain ⟨ws, hw, hv⟩ := Option.map_eq_some_iff.mp hx
    obtain ⟨rfl, rfl⟩ := Prod.mk.inj hv
    obtain ⟨g, hg, hft⟩ := Option.map_eq_some_iff.mp hK.1
    refine ⟨id, g.params, g.rettype, hft.symm, ?_, fun a ha => ?_, ?_⟩
    · exact (List.getElem?_eq_some_iff.mp (bfun_at I.listed (by omega))).1
    · obtain rfl := Option.some.inj ha
      exact printOpd_of_ne (.inr (show 8 ≠ 0 by decide))
    · exact serves_bfun hso.1 I.listed I.count_le hso.2.1 hso.2.2 hg hw
  | _ => simp [isFunc, isWriter] at hso

lemma sound_args (ih : Sound solo tops fns o n) (G : Ground tops f cx S) (has : numArgs as = true)
    (hc : CheckedArgs (KnownIn tops f) ps as)
    (hx : evalArgs (numFuncs solo tops) (n + 1) env as out = some (xs, out')) :
    Pushes solo f cx fns o S env ps as xs out out' := by
  cases as with
  | nil =>
    cases ps with
    | nil =>
      obtain ⟨rfl, rfl⟩ : [] = xs ∧ out = out' := by simpa [evalArgs] using hx
      exact pushes_nil G.room
    | cons => cases hc
  | cons a rest =>
    cases ps with
    | nil => cases hc
    | cons m t ps =>
      simp only [numArgs, Bool.and_eq_true] at has
      simp only [evalArgs, Option.bind_eq_bind, Option.bind_eq_some_iff, Option.some.injEq, Prod.mk.injEq] at hx
      obtain ⟨⟨y, out1⟩, hy, ⟨ys, out2⟩, hys, rfl, rfl⟩ := hx
      obtain ⟨hca, heq, hcr⟩ := hc
      exact pushes_cons G (int_of_num has.1 hca) heq (ih.expr G has.1 hca hy) fun GT => ih.args GT has.2 hcr hys

lemma sound_fexp (I : Image solo tops fns o) (ih : Sound solo tops fns o n) (G : Ground tops f cx S)
    (hint : numExpr (.fexp (.name so ft) as t) = true)
    (hc : Checked (KnownIn tops f) (.fexp (.name so ft) as t))
    (hx : eval (numFuncs solo tops) (n + 1) env (.fexp (.name so ft) as t) out = some (x, out')) :
    Computes solo f cx fns o S env (.fexp (.name so ft) as t) x out out' := by
  simp only [numExpr, Bool.and_eq_true] at hint
  simp only [eval, Option.bind_eq_bind, Option.bind_eq_some_iff] at hx
  obtain ⟨⟨xs, out1⟩, hxs, ⟨v, out2⟩, hv, hx⟩ := hx
  obtain ⟨y, rfl, hy⟩ := Option.map_eq_some_iff.mp hx
  obtain ⟨rfl, rfl⟩ := Prod.mk.inj hy
  obtain ⟨ps, ret, hft, ht, hK, has⟩ := hc
  refine computes_fexp I G hint.1.2 ⟨ps, ret, hft, ht, hK, has⟩ (fun ps' ret' h GT => ?_)
    (ih.call (.inl hint.1.1) hK hv)
  obtain ⟨-, rfl, -⟩ := Ty.fptr.inj (h.symm.trans hft)
  exact ih.args GT hint.2 has hxs

/-- The binary operators that evaluate both sides. -/
lemma eval_binary {fs : List TFunc} {op : BOp} (hop : conjOp op = none) (hcoma : op ≠ .coma) :
    eval fs (n + 1) env (.bexp op l r t) out =
      (eval fs n env l out).bind fun x => (eval fs n env r x.2).bind fun y =>
        (binary op (typeOfExpr l) x.1 y.1).map (·, y.2) := by
  cases op <;> first | rfl | exact absurd rfl hcoma | cases hop

lemma sound_bexp (ih : Sound solo tops fns o n) (G : Ground tops f cx S) {op : BOp}
    (hint : numExpr (.bexp op l r t) = true) (hc : Checked (KnownIn tops f) (.bexp op l r t))
    (hx : eval (numFuncs solo tops) (n + 1) env (.bexp op l r t) out = some (x, out')) :
    Computes solo f cx fns o S env (.bexp op l r t) x out out' := by
  simp only [numExpr, Bool.and_eq_true] at hint
  obtain ⟨⟨hp, hil⟩, hir⟩ := hint
  have htl := int_of_num hil hc.2.1
  have htr := int_of_num hir hc.2.2
  by_cases hcoma : op = .coma
  · subst hcoma
    simp only [eval, Option.bind_eq_bind, Option.bind_eq_some_iff] at hx
    obtain ⟨⟨y, out1⟩, hy, hx⟩ := hx
    refine computes_coma G (ih.expr G hil hc.2.1 hy) (ih.expr G hir hc.2.2 hx) ?_
    have ht := hc.1
    simp only [typeFromBexp, TRes.ok.injEq, TExpr.bexp.injEq, true_and] at ht
    exact ht.symm
  cases hop : conjOp op with
  | none =>
    simp only [eval_binary hop hcoma, Option.bind_eq_some_iff, Option.map_eq_some_iff, Prod.mk.injEq] at hx
    obtain ⟨⟨y, out1⟩, hy, ⟨z, out2⟩, hz, v, hv, rfl, rfl⟩ := hx
    exact computes_binary G hp hop hcoma hc.1 htl htr (ih.expr G hil hc.2.1 hy) (ih.expr G hir hc.2.2 hz) hv
  | some disj =>
    cases op <;> simp only [conjOp, reduceCtorEq, Option.some.injEq] at hop <;> subst hop
    all_goals
      simp only [eval, Option.bind_eq_bind, Option.bind_eq_some_iff] at hx
      obtain ⟨⟨y, out1⟩, hy, hx⟩ := hx
      dsimp only at hx
      have hl := ih.expr G hil hc.2.1 hy
    case conj =>
      refine computes_conj G rfl hc.1 htl htr hl (fun h => ?_) fun h => ?_
      · rw [if_pos (h.mpr rfl), Option.some.injEq, Prod.mk.injEq] at hx
        rw [Source.truth, if_pos (h.mpr rfl)]
        exact ⟨hx.1.symm, hx.2.symm⟩
      · rw [if_neg (fun h0 => h ⟨fun _ => rfl, fun _ => h0⟩)] at hx
        obtain ⟨⟨z, out2⟩, hz, hv⟩ := Option.map_eq_some_iff.mp hx
        obtain ⟨rfl, rfl⟩ := Prod.mk.inj hv
        exact ⟨z, ih.expr G hir hc.2.2 hz, rfl⟩
    case disj =>
      refine computes_conj G rfl hc.1 htl htr hl (fun h => ?_) fun h => ?_
      · have hy0 : y ≠ 0 := fun h0 => by cases h.mp h0
        rw [if_neg hy0, Option.some.injEq, Prod.mk.injEq] at hx
        rw [Source.truth, if_neg hy0]
        exact ⟨hx.1.symm, hx.2.symm⟩
      · have hy0 : y = 0 := by
          by_contra h0
          exact h ⟨fun h1 => absurd h1 h0, fun h1 => by cases h1⟩
        rw [if_pos hy0] at hx
        obtain ⟨⟨z, out2⟩, hz, hv⟩ := Option.map_eq_some_iff.mp hx
        obtain ⟨rfl, rfl⟩ := Prod.mk.inj hv
        exact ⟨z, ih.expr G hir hc.2.2 hz, rfl⟩

lemma sound_expr (I : Image solo tops fns o) (ih : Sound solo tops fns o n) (G : Ground tops f cx S)
    (hint : numExpr e = true) (hc : Checked (KnownIn tops f) e)
    (hx : eval (numFuncs solo tops) (n + 1) env e out = some (x, out')) : Computes solo f cx fns o S env e x out out' := by
  cases e with
  | nmbr w t =>
    obtain ⟨rfl, rfl⟩ : (w : Int) = x ∧ out = out' := by simpa [eval] using hx
    exact computes_nmbr hc
  | name so t =>
    simp only [eval, Option.map_eq_some_iff, Prod.mk.injEq] at hx
    obtain ⟨y, hy, rfl, rfl⟩ := hx
    exact computes_name G hint hc hy
  | bexp op l r t => exact sound_bexp ih G hint hc hx
  | uexp op r t =>
    simp only [numExpr, Bool.and_eq_true] at hint
    simp only [eval, Option.bind_eq_bind, Option.bind_eq_some_iff, Option.map_eq_some_iff, Prod.mk.injEq] at hx
    obtain ⟨⟨y, out1⟩, hy, v, hv, rfl, rfl⟩ := hx
    exact computes_unary hint.1 hc.1 (int_of_num hint.2 hc.2) (ih.expr G hint.2 hc.2 hy) hv
  | cast l c t =>
    have hil : numExpr l = true := by
      simp only [numExpr, Bool.and_eq_true] at hint
      exact hint.2
    simp only [eval, Option.map_eq_some_iff, Prod.mk.injEq] at hx
    obtain ⟨⟨y, out1⟩, hy, rfl, rfl⟩ := hx
    exact computes_cast hint hc.1 (int_of_num hil hc.2.2.2) (ih.expr G hil hc.2.2.2 hy)
  | texp c tv fv t =>
    simp only [numExpr, Bool.and_eq_true] at hint
    obtain ⟨⟨hic, hit⟩, hif⟩ := hint
    simp only [eval, Option.bind_eq_bind, Option.bind_eq_some_iff] at hx
    obtain ⟨⟨y, out1⟩, hy, hx⟩ := hx
    refine computes_texp G hc.1 (int_of_num hic hc.2.1) (int_of_num hit hc.2.2.1) (int_of_num hif hc.2.2.2)
      (ih.expr G hic hc.2.1 hy) (fun h => ?_) fun h => ?_
    · exact ih.expr G hit hc.2.2.1 ((if_neg h).symm.trans hx)
    · exact ih.expr G hif hc.2.2.2 ((if_pos h).symm.trans hx)
  | fexp l as t =>
    cases l with
    | name so ft => exact sound_fexp I ih G hint hc hx
    | _ => simp [numExpr] at hint
  | _ => simp [numExpr] at hint

lemma run_step {fs : List TFunc} {dec : Bool} (h : stepOp e = some (dec, so, t)) :
    run fs (n + 1) env (.stmt (.expr e)) out =
      (stepped env dec so t).map fun v => (.goes (env.set [so.name] (some v)), out) := by
  unfold stepOp at h
  split at h <;> simp only [Option.some.injEq, Prod.mk.injEq, reduceCtorEq] at h <;>
    obtain ⟨rfl, rfl, rfl⟩ := h <;>
    simp only [run, stepOp, Option.bind_eq_bind, Option.bind_some, Option.map_eq_bind] <;> rfl

lemma sound_effect (I : Image solo tops fns o) (ih : Sound solo tops fns o n) (G : Ground tops f cx S) {r : Ending}
    (hok : PartOk solo tops f (.stmt (.expr e)))
    (hx : run (numFuncs solo tops) (n + 1) env (.stmt (.expr e)) out = some (r, out')) :
    Follows solo f cx fns o S env (.stmt (.expr e)) out r out' := by
  have hint : numEffect solo e = true := hok.2.2
  have hsteps (dec : Bool) (so : ScopeObj) (t : Ty) (h : stepOp e = some (dec, so, t)) :
      Follows solo f cx fns o S env (.stmt (.expr e)) out r out' := by
    rw [run_step h, Option.map_eq_some_iff] at hx
    obtain ⟨v, hv, hr⟩ := hx
    obtain ⟨rfl, rfl⟩ := Prod.mk.inj hr
    exact follows_step G h hok hv
  cases hs : stepOp e with
  | some u => exact hsteps u.1 u.2.1 u.2.2 hs
  | none =>
    unfold numEffect at hint
    split at hint
    · rename_i op so tl r' t
      simp only [run, Option.bind_eq_bind, Option.bind_eq_some_iff, Option.some.injEq, Prod.mk.injEq] at hx
      obtain ⟨⟨y, out1⟩, hy, v, hv, rfl, rfl⟩ := hx
      simp only [Bool.and_eq_true] at hint
      exact follows_assign G hok (ih.expr G hint.2 hok.1.2.2 hy) hv
    · rename_i so ft as t
      simp only [run, Option.bind_eq_bind, Option.bind_eq_some_iff, Option.some.injEq, Prod.mk.injEq] at hx
      obtain ⟨⟨xs, out1⟩, hxs, ⟨v, out2⟩, hv, rfl, rfl⟩ := hx
      simp only [Bool.and_eq_true, Bool.or_eq_true] at hint
      obtain ⟨ps, ret, hft, ht, hK, has⟩ := hok.1
      refine follows_call I G hok.1 (fun ps' ret' h GT => ?_) (ih.call (hint.1.imp And.left Bool.and_eq_true_iff.mpr) hK hv)
      obtain ⟨-, rfl, -⟩ := Ty.fptr.inj (h.symm.trans hft)
      exact ih.args GT hint.2 has hxs
    · rw [hs] at hint
      cases hint

/-- Where a part has led, another goes on as it is meant to. -/
lemma continues_of_run (ih : Sound solo tops fns o n) (G : Ground tops f cx S) {p : Part} (hok : PartOk solo tops f p)
    {r1 r : Ending} {out1 : List Out}
    (hx : (match (r1, out1) with
      | (.goes env, out) => run (numFuncs solo tops) n env p out
      | r => some r) = some (r, out')) : Continues solo f cx fns o S p r1 out1 r out' := by
  cases r1 with
  | goes env => exact ih.part G hok hx
  | returned v =>
    obtain ⟨rfl, rfl⟩ := Prod.mk.inj (Option.some.inj hx)
    exact ⟨rfl, rfl⟩

lemma sound_whil (ih : Sound solo tops fns o n) (G : Ground tops f cx S) {b : TStmts} {r : Ending}
    (hok : PartOk solo tops f (.stmt (.whil e b)))
    (hx : run (numFuncs solo tops) (n + 1) env (.stmt (.whil e b)) out = some (r, out')) :
    Follows solo f cx fns o S env (.stmt (.whil e b)) out r out' := by
  obtain ⟨⟨hc, hcb⟩, hlocals, hint⟩ := hok
  have hint' := hint
  simp only [numStmt, Bool.and_eq_true] at hint'
  simp only [run, Option.bind_eq_bind, Option.bind_eq_some_iff] at hx
  obtain ⟨⟨v, out1⟩, hv, hx⟩ := hx
  dsimp only at hx
  refine follows_whil G (int_of_num hint'.1 hc) (ih.expr G hint'.1 hc hv) (fun h => ?_) fun h => ?_
  · rw [if_pos h, Option.some.injEq, Prod.mk.injEq] at hx
    exact ⟨hx.1.symm, hx.2.symm⟩
  · rw [if_neg h, Option.bind_eq_some_iff] at hx
    obtain ⟨⟨r1, out2⟩, hb, hx⟩ := hx
    exact ⟨r1, out2, ih.part G ⟨hcb, hlocals, hint'.2⟩ hb,
      continues_of_run ih G (p := .stmt (.whil e b)) ⟨⟨hc, hcb⟩, hlocals, hint⟩ hx⟩

lemma sound_dowh (ih : Sound solo tops fns o n) (G : Ground tops f cx S) {b : TStmts} {r : Ending}
    (hok : PartOk solo tops f (.stmt (.dowh b e)))
    (hx : run (numFuncs solo tops) (n + 1) env (.stmt (.dowh b e)) out = some (r, out')) :
    Follows solo f cx fns o S env (.stmt (.dowh b e)) out r out' := by
  obtain ⟨⟨hc, hcb⟩, hlocals, hint⟩ := hok
  have hint' := hint
  simp only [numStmt, Bool.and_eq_true] at hint'
  simp only [run, Option.bind_eq_bind, Option.bind_eq_some_iff] at hx
  obtain ⟨⟨r1, out1⟩, hb, hx⟩ := hx
  refine follows_dowh G (int_of_num hint'.1 hc) (ih.part G ⟨hcb, hlocals, hint'.2⟩ hb) (fun env' hr => ?_)
    fun v hr => ?_
  · subst hr
    dsimp only at hx
    obtain ⟨⟨v, out2⟩, hv, hx⟩ := Option.bind_eq_some_iff.mp hx
    dsimp only at hx
    refine ⟨v, out2, ih.expr G hint'.1 hc hv, fun h => ?_, fun h => ?_⟩
    · rw [if_pos h, Option.some.injEq, Prod.mk.injEq] at hx
      exact ⟨hx.1.symm, hx.2.symm⟩
    · rw [if_neg h] at hx
      exact ih.part G ⟨⟨hc, hcb⟩, hlocals, hint⟩ hx
  · subst hr
    obtain ⟨rfl, rfl⟩ := Prod.mk.inj (Option.some.inj hx)
    exact ⟨rfl, rfl⟩

lemma sound_cond (ih : Sound solo tops fns o n) (G : Ground tops f cx S) {b : TStmts} {rest : TElifs} {r : Ending}
    (hc : Checked (KnownIn tops f) e) (hint : numExpr e = true) (hb : PartOk solo tops f (.stmts b))
    (hr : PartOk solo tops f (.elifs rest))
    (hx : (do
      let (v, out) ← eval (numFuncs solo tops) n env e out
      if v = 0 then run (numFuncs solo tops) n env (.elifs rest) out
      else run (numFuncs solo tops) n env (.stmts b) out) = some (r, out')) :
    Follows solo f cx fns o S env (.stmt (.cond e b rest)) out r out' ∧
      Follows solo f cx fns o S env (.elifs (.elif e b rest)) out r out' := by
  simp only [Option.bind_eq_bind, Option.bind_eq_some_iff] at hx
  obtain ⟨⟨v, out1⟩, hv, hx⟩ := hx
  dsimp only at hx
  refine follows_cond G (int_of_num hint hc) (ih.expr G hint hc hv) (fun h => ?_) fun h => ?_
  · exact ih.part G hb ((if_neg h).symm.trans hx)
  · exact ih.part G hr ((if_pos h).symm.trans hx)

lemma sound_stmt (I : Image solo tops fns o) (ih : Sound solo tops fns o n) (G : Ground tops f cx S) {s : TStmt}
    {r : Ending} (hok : PartOk solo tops f (.stmt s))
    (hx : run (numFuncs solo tops) (n + 1) env (.stmt s) out = some (r, out')) :
    Follows solo f cx fns o S env (.stmt s) out r out' := by
  cases s with
  | decl names t init =>
    cases init with
    | none =>
      obtain ⟨rfl, rfl⟩ := Prod.mk.inj (Option.some.inj hx)
      exact follows_declared
    | some e =>
      simp only [run, Option.bind_eq_bind, Option.bind_eq_some_iff, Option.some.injEq, Prod.mk.injEq] at hx
      obtain ⟨⟨v, out1⟩, hv, rfl, rfl⟩ := hx
      have hint := hok.2.2
      simp only [numStmt, Bool.and_eq_true] at hint
      exact follows_decl G hok (ih.expr G hint.2 (hok.1.2.2 e rfl).1 hv)
  | cond e b rest =>
    obtain ⟨⟨hc, hcb, hcr⟩, hlocals, hint⟩ := hok
    simp only [numStmt, Bool.and_eq_true] at hint
    exact (sound_cond ih G hc hint.1.1 ⟨hcb, fun d hd => hlocals (List.mem_append_left _ hd), hint.1.2⟩
      ⟨hcr, fun d hd => hlocals (List.mem_append_right _ hd), hint.2⟩ hx).1
  | blok b => exact follows_blok (ih.part G hok hx)
  | noin b => exact follows_noin (ih.part G hok hx)
  | whil e b => exact sound_whil ih G hok hx
  | dowh b e => exact sound_dowh ih G hok hx
  | retn e =>
    cases e with
    | none =>
      obtain ⟨rfl, rfl⟩ := Prod.mk.inj (Option.some.inj hx)
      exact follows_ret G hok
    | some e =>
      obtain ⟨⟨v, out1⟩, hv, hr⟩ := Option.map_eq_some_iff.mp hx
      obtain ⟨rfl, rfl⟩ := Prod.mk.inj hr
      have hc : Checked (KnownIn tops f) e := by
        have hc := hok.1
        unfold CheckedStmt at hc
        cases hrt : f.rettype <;> simp only [hrt] at hc
        exact hc.1
      exact follows_retn G hok (ih.expr G hok.2.2 hc hv)
  | wlab func id =>
    obtain ⟨rfl, rfl⟩ := Prod.mk.inj (Option.some.inj hx)
    exact follows_wlab
  | expr e => exact sound_effect I ih G hok hx
  | wait => exact absurd hok.2.2 (by simp [numStmt])

lemma sound_part (I : Image solo tops fns o) (ih : Sound solo tops fns o n) (G : Ground tops f cx S) {p : Part}
    {r : Ending} (hok : PartOk solo tops f p) (hx : run (numFuncs solo tops) (n + 1) env p out = some (r, out')) :
    Follows solo f cx fns o S env p out r out' := by
  cases p with
  | stmt s => exact sound_stmt I ih G hok hx
  | stmts b =>
    cases b with
    | nil =>
      obtain ⟨rfl, rfl⟩ := Prod.mk.inj (Option.some.inj hx)
      exact follows_nil
    | cons s rest =>
      obtain ⟨⟨hcs, hcr⟩, hlocals, hint⟩ := hok
      simp only [numStmts, Bool.and_eq_true] at hint
      obtain ⟨⟨r1, out1⟩, hs, hx⟩ := Option.bind_eq_some_iff.mp hx
      exact follows_cons (ih.part G ⟨hcs, fun d hd => hlocals (List.mem_append_left _ hd), hint.1⟩ hs)
        (continues_of_run ih G (p := .stmts rest)
          ⟨hcr, fun d hd => hlocals (List.mem_append_right _ hd), hint.2⟩ hx)
  | elifs l =>
    cases l with
    | none =>
      obtain ⟨rfl, rfl⟩ := Prod.mk.inj (Option.some.inj hx)
      exact follows_none
    | els b => exact follows_els (ih.part G hok hx)
    | elif e b rest =>
      obtain ⟨⟨hc, hcb, hcr⟩, hlocals, hint⟩ := hok
      simp only [numElifs, Bool.and_eq_true] at hint
      exact (sound_cond ih G hc hint.1.1 ⟨hcb, fun d hd => hlocals (List.mem_append_left _ hd), hint.1.2⟩
        ⟨hcr, fun d hd => hlocals (List.mem_append_right _ hd), hint.2⟩ hx).2

/-- **Whatever is found in any number of steps the code does.** -/
theorem sound (I : Image solo tops fns o) : ∀ n, Sound solo tops fns o n
  | 0 => sound_zero
  | n + 1 =>
    have ih := sound I n
    { expr := fun G hint hc hx => sound_expr I ih G hint hc hx
      args := fun G has hc hx => sound_args ih G has hc hx
      part := fun G hok hx => sound_part I ih G hok hx
      call := fun hso hK hx => sound_call I ih hso hK hx }

end Induction

/-! ### Programs -/

section Programs

variable {tops : List TTop} {fns : List Fn} {fn : Fn} {o : Obj} {f : TFunc} {v : Option Int} {out : List Out}
  {u : Ast.Unit} {S : Spot} {w : View} {s : State} {inp : Inp} {a b : Nat} {bs : List UInt8} {i : Insn} {x : Int}

/-- The first function lies behind the built-in ones. -/
lemma placed_first {dataSize : Nat} {globals : Layout} {p p' : Pt} (h : Placed dataSize globals tops p fns p')
    (hf : firstFunc tops = some f) : ∃ fn ∈ fns, fn.func = f ∧ fn.entry = p.ip := by
  induction h with
  | nil => cases hf
  | other t rest p p' fns ht _ ih =>
    cases t with
    | func g => exact absurd rfl (ht g)
    | skip | decl => exact ih hf
  | func gn rest p' fns _ _ _ => exact ⟨gn, List.mem_cons_self, Option.some.inj hf, rfl⟩

/-- The status of the bytes of a number is that of the number. -/
lemma exitStatus_of_bears {ret : RetTy} (hb : Bears ret v bs) (hw : v = none ∨ isWidth bs.length = true) :
    (if bs.length ≠ 0 then exitStatus (RetTy.ty ret).signd bs else 0) = exitNumber v := by
  unfold Bears at hb
  cases ret <;> cases v <;> simp only at hb
  · rw [hb]
    rfl
  · rename_i t x
    have hwidth : isWidth bs.length = true := hw.resolve_left nofun
    have hstatus : exitStatus t.signd bs = toInt true 4 (ofInt 4 (toInt t.signd bs.length (leNat bs))) := by
      unfold exitStatus
      simp only [isWidth, Bool.or_eq_true, beq_iff_eq] at hwidth
      obtain ((h | h) | h) | h := hwidth <;> simp only [h]
    rw [if_pos (isWidth_pos hwidth), show RetTy.ty (.some t) = t from rfl, hstatus, hb.1, hb.2,
      toInt_ofInt (show 4 ≠ 0 by decide)]
    rfl

/-- The machine exits with the status. -/
def Exits (o : Obj) (status : Int) (s : State) : Prop := ∀ inp, step inp o s = .error (.exit status)

/-- At the instruction that leaves the first function the machine exits. -/
lemma exits_of_leaves (hs : Seen S w out s) (hl : Leaves f o S v w i bs) (hbp : S.bp = 16)
    (hsp : S.sp = 16 + (funcTag f).frameSize) (heven : S.sp % 8 = 0) (hcount : o.insnCount < 2 ^ 64)
    (hstack : ∀ j < 16, w.stack j = writeMem Qvm.zero.stack 0 (leBytes 8 o.insnCount) j) :
    Exits o (exitNumber v) s := by
  intro inp
  have hsize : (leaveSize f).off = (funcTag f).frameSize + 16 := rfl
  obtain ⟨s1, hs1, hx⟩ := insnRet_spot o inp hs hl.yields rfl (by omega) heven (by omega)
  have hsp1 : s1.vm.sp = 0 := hs1.sp.trans (by
    show S.sp - (leaveSize f).off = 0
    omega)
  -- the words below the frame of the first function
  have hsaved : savedWords s1 = .ok (o.insnCount, 0) := by
    have h1 := load_stack hs1 0 8 (by decide)
    have h2 := load_stack hs1 8 8 (by decide)
    have hsame := readMem_writeMem_same Qvm.zero.stack 0 (leBytes 8 o.insnCount)
    rw [leBytes_length] at hsame
    rw [readMem_congr fun j _ hj => hstack j (by omega), hsame] at h1
    rw [readMem_congr fun j _ hj => hstack j (by omega), readMem_writeMem_disjoint (h := .inr (by simp))] at h2
    have hzero : leNat (readMem Qvm.zero.stack 8 8) = 0 := by decide
    have hnat : leNat (leBytes 8 o.insnCount) = o.insnCount := by
      rw [leNat_leBytes]
      exact Nat.mod_eq_of_lt hcount
    simp only [savedWords, hsp1, Nat.zero_add, State.loadNat, h1, h2, Option.map_some, orUb_some, ok_bind, hnat, hzero]
    rfl
  have hreturn : handleReturn o s1 (retSigned i) bs =
      if exitNumber v ≠ 0 then .error (.exit (exitNumber v))
      else .ok (s1.setVm (Qvm.restore s1.vm (o.insnCount, 0) [])) := by
    rw [handleReturn, if_neg (fun h => h.2 hs1.root), if_pos hsp1, returnFromMain, hsaved]
    simp only [ok_bind, hl.signd, exitStatus_of_bears hl.bears hl.width]
    rfl
  have hi : o.insns[s.vm.ip]? = some i := hs.ip ▸ hl.insn
  by_cases h0 : exitNumber v = 0
  · rw [hreturn, if_neg (not_not.mpr h0)] at hx
    obtain ⟨c, k, hsched⟩ := sched_root (s := s1.setVm (Qvm.restore s1.vm (o.insnCount, 0) [])) hs1.live
      (by rw [setVm_vm]; exact hs1.root) inp
    have hip : (s1.setVm (Qvm.restore s1.vm (o.insnCount, 0) [])).vm.ip = o.insnCount := by
      rw [setVm_vm]
      rfl
    have hip' : State.vm { s1.setVm (Qvm.restore s1.vm (o.insnCount, 0) []) with cycles := c, now := k } =
        (s1.setVm (Qvm.restore s1.vm (o.insnCount, 0) [])).vm := rfl
    rw [h0]
    simp only [step, ubUnless, hs.live, decide_true, if_true, hi, ok_bind, orUb_some, hx, hsched, legalIf, hip',
      hip, Nat.le_refl, Nat.lt_irrefl, if_false]
  · rw [hreturn, if_pos h0] at hx
    exact step_error hs.live hi hx

/-- **A program does what it means**: every run writes what the first function means, and exits with the
number of it, unless it finds no memory or no room on the stack before. -/
theorem program_means (h : Compiles u o) (ha : accept u = some tops)
    (hframes : ∀ g ∈ numFuncs false tops, frameBytes g < 2 ^ 63) (hcount : o.insnCount < 2 ^ 59)
    (hf : firstFunc tops = some f) (hint : numFunc false f = true) (hparams : f.params.toList = [])
    (hmeans : Gives (numFuncs false tops) f [] v out) :
    ComesUnless (fun inp s => step inp o s) Spent (fun s => s.out = out ∧ Exits o (exitNumber v) s)
      (initState o a b) := by
  obtain ⟨tops', fns, ha', hl⟩ := listed_of_compiles h
  obtain rfl := Option.some.inj (ha.symm.trans ha')
  have hA := accepted_of_accept ha
  have hc := closed_of_listed hA hl
  have hfuncs := listed_func hl
  have I : Image false tops fns o := ⟨hA, hl, hc, hfuncs, fun g hg hn => hframes g (numFuncs_mem hn hg), hcount⟩
  obtain ⟨p, hp, -⟩ := hl.placed
  obtain ⟨fn, hfn, rfl, hentry⟩ := placed_first hp hf
  obtain ⟨n, ⟨r, out'⟩, hrun, hleave⟩ := hmeans
  have hlen : fn.func.params.toList.length = 0 := by rw [hparams]; rfl
  have hnums := hint
  simp only [numFunc, Bool.and_eq_true] at hnums
  have hpart : PartOk false tops fn.func (.stmts fn.func.stmts) :=
    ⟨hA.checked _ (image_func I hfn), List.Subset.refl _, hnums.2⟩
  have hvm : (initState o a b).vm = { Qvm.zero with
      ip := 17, sp := 16, bp := 16, stack := writeMem Qvm.zero.stack 0 (leBytes 8 o.insnCount) } := by
    simp [State.vm, initState]
  have hbp0 : (initState o a b).vm.bp = 16 := by rw [hvm]
  have hsp0 : (initState o a b).vm.sp = 16 := by rw [hvm]
  have hip0 : (initState o a b).vm.ip = 17 := by rw [hvm]
  have hroot : (initState o a b).vm.parent = 0 := by
    rw [hvm]
    rfl
  have hstack : (initState o a b).vm.stack = writeMem Qvm.zero.stack 0 (leBytes 8 o.insnCount) := by rw [hvm]
  have hsize : stackSize = 16304 := rfl
  have hargs : ArgsAt (initState o a b).vm.stack (initState o a b).vm.bp fn.func.params.toList [] := by
    rw [hparams]
    trivial
  refine runs_func I hfn hint (fun S G => (sound I n).part G hpart hrun) hleave hargs (List.mem_singleton.mpr rfl)
    hroot (hip0.trans hentry.symm) hbp0.ge (by omega) (by omega) (by omega)
    fun S G _ hbp hsp _ w hlands hlow s' hs' => .here ⟨hs'.out, ?_⟩
  obtain ⟨i, bs, hl'⟩ := hlands
  rw [hbp0] at hbp hsp hlow
  rw [hstack] at hlow
  exact exits_of_leaves hs' hl' hbp hsp G.even (hcount.trans (by decide)) hlow

/-- `m: u8 { return f(2); } f(n: u8): u8 { if n { pu8(n); return f(n - 1) + n; } return 0; }` -/
def down : Ast.Unit :=
  ⟨[], [.func ⟨false, letter 109 0, .nil, .some (.int .u8 1),
      .cons (.retn (some (.fexp (.name (letter 102 15)) (.cons (.nmbr 2) .nil)))) .nil⟩,
    .func ⟨false, letter 102 23, .cons (letter 110 25) (.int .u8 1) .nil, .some (.int .u8 1),
      .cons (.cond (.name (letter 110 41))
        (.cons (.expr (.fexp (.name ⟨[112, 117, 56], 45⟩) (.cons (.name (letter 110 49)) .nil)))
        (.cons (.retn (some (.bexp (letter 43 69) .plus
          (.fexp (.name (letter 102 60)) (.cons (.bexp (letter 45 64) .mins (.name (letter 110 62)) (.nmbr 1)) .nil))
          (.name (letter 110 71))))) .nil)) .none)
      (.cons (.retn (some (.nmbr 0))) .nil)⟩]⟩

def downObj : Obj :=
  let sp : Opd := ⟨.temp, false, false, 0, 8⟩
  let n : Opd := opdAuto false 0 1
  ⟨0, [], List.replicate 17 Insn.bfun ++
    [Insn.incsp (opdImm false 0 8) (opdImm false 9 8), .pushr (opdImm false 20 8) sp, .push (opdImm false 2 1),
     .callv ⟨.temp, false, false, 8, 1⟩ (opdImm false 23 8) sp,
     .retv ⟨.temp, false, false, 8, 1⟩ (opdImm false 16 8), .ret (opdImm false 16 8),
     .incsp (opdImm false 0 8) (opdImm false 11 8), .jz false n 36, .pushr (opdImm false 27 8) sp, .push n,
     .call (opdImm false 7 8) sp, .nop, .pushr (opdImm false 32 8) sp,
     .arith .sub ⟨.temp, false, false, 8, 1⟩ n (opdImm false 1 1), .push ⟨.temp, false, false, 8, 1⟩,
     .callv ⟨.temp, false, false, 9, 1⟩ (opdImm false 23 8) sp,
     .arith .add ⟨.temp, false, false, 10, 1⟩ ⟨.temp, false, false, 9, 1⟩ n,
     .retv ⟨.temp, false, false, 10, 1⟩ (opdImm false 24 8), .jmp 36,
     .retv (opdImm false 0 1) (opdImm false 24 8), .ret (opdImm false 24 8)]⟩

/-- The first function means the number and what is written. -/
def meansThat (tops : List TTop) (f : TFunc) (v : Option Int) (out : List Out) : Bool :=
  numFunc false f && f.params.toList.isEmpty && (numFuncs false tops).all (fun g => decide (frameBytes g < 2 ^ 63)) &&
    (run (numFuncs false tops) 30 (argNumbers f.params.toList []) (.stmts f.stmts) []).any fun r =>
      leave f r == some (v, out)

/-- The function writes two and one on its way down, and three is their sum. -/
theorem down_does : ∃ tops f, accept down = some tops ∧ firstFunc tops = some f ∧
    Gives (numFuncs false tops) f [] (some 3) [.num 2, .num 1] ∧
    ComesUnless (fun inp s => step inp downObj s) Spent (fun s => s.out = [.num 2, .num 1] ∧ Exits downObj 3 s) (initState downObj 65536 131072) := by
  have hcheck : ((accept down).any fun tops => (firstFunc tops).any fun f =>
      meansThat tops f (some 3) [.num 2, .num 1]) = true := by decide +kernel
  obtain ⟨tops, ha, hcheck⟩ := (Option.any_eq_true _ _).mp hcheck
  obtain ⟨f, hf, hcheck⟩ := (Option.any_eq_true _ _).mp hcheck
  simp only [meansThat, Bool.and_eq_true, List.all_eq_true, decide_eq_true_eq, List.isEmpty_iff] at hcheck
  obtain ⟨⟨⟨hint, hparams⟩, hframes⟩, hrun⟩ := hcheck
  obtain ⟨r, hr, hleave⟩ := (Option.any_eq_true _ _).mp hrun
  have hmeans : Gives (numFuncs false tops) f [] (some 3) [.num 2, .num 1] := ⟨30, r, hr, beq_iff_eq.mp hleave⟩
  exact ⟨tops, f, ha, hf, hmeans, program_means (u := down) (by decide +kernel) ha hframes (by decide) hf hint
    hparams hmeans⟩

end Programs

end Quaint.Recursion
