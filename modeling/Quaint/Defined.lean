import Quaint.Operand
import Quaint.Program

/-!
The programs the generator has code for.

The generator reads results that were never set, and aligns to a multiple of zero, where a
call or a reap without a value is used as one, and where a value of size zero needs a
temporary. Nothing else stops it on an accepted program.
-/

namespace Quaint.Defined

open Types Ast Scope TypeCheck Code Codegen Program Typing Layout Emit Generated Listing Operand

/-! ### The condition -/

/-- A call or a reap without a value, perhaps behind commas. -/
def noValue : TExpr → Bool
  | .fexp _ _ t => t.bytes == 0
  | .uexp op r t =>
    match op with
    | .mult => (typeOfExpr r).t != .ptr && t.bytes == 0
    | .plus => noValue r
    | _ => false
  | .bexp op _ r _ => op == .coma && noValue r
  | _ => false

/-- The operators whose left side is a target. -/
def assigns : BOp → Bool
  | .assn | .aspl | .asmi => true
  | op => (asmuOp op).isSome

mutual
/-- No operand is without a value, and no temporary is of size zero; `need` is that of the
generator. -/
def definedExpr (need : Bool) : TExpr → Bool
  | .bexp op l r _ =>
    definedExpr (assigns op) l && definedExpr false r && (op == .coma || !noValue l && !noValue r)
  | .scop _ _ | .szof _ _ _ | .name _ _ | .nmbr _ _ | .strl _ _ => true
  | .atsi l _ _ | .arow l _ _ => definedExpr false l && !noValue l
  | .memb l _ _ => definedExpr need l && !noValue l
  | .cast l c _ => definedExpr false l && !noValue l && c.bytes != 0
  | .uexp .tild (.fexp l as _) _ => definedArgs as && definedExpr false l && !noValue l
  | .uexp op r t =>
    match op with
    | .plus => definedExpr false r
    | .mult => definedExpr false r && !noValue r && (need || (typeOfExpr r).t != .ptr || t.bytes != 0)
    | .incr | .decr => definedExpr true r && !noValue r
    | _ => definedExpr false r && !noValue r
  | .fexp l as _ => definedArgs as && definedExpr false l && !noValue l
  | .xexp _ l _ => definedExpr true l && !noValue l
  | .aexp b o _ => definedExpr need b && !noValue b && definedExpr false o && !noValue o
  | .texp c tv fv t =>
    definedExpr false c && !noValue c && definedExpr false tv && !noValue tv &&
      definedExpr false fv && !noValue fv && t.bytes != 0
def definedArgs : TArgs → Bool
  | .nil => true
  | .cons a rest => definedExpr false a && !noValue a && definedArgs rest
end

/-- An expression whose value a statement uses. -/
def definedValue (e : TExpr) : Bool := definedExpr false e && !noValue e

def definedOpt : Option TExpr → Bool
  | none => true
  | some e => definedValue e

mutual
def definedStmt : TStmt → Bool
  | .decl _ _ init => definedOpt init
  | .cond e b rest => definedValue e && definedStmts b && definedElifs rest
  | .blok b | .noin b => definedStmts b
  | .whil e b | .dowh b e => definedValue e && definedStmts b
  | .retn e => definedOpt e
  | .wait q f _ _ _ => definedValue q && definedOpt f
  | .wlab _ _ => true
  | .expr e => definedExpr false e
def definedStmts : TStmts → Bool
  | .nil => true
  | .cons s rest => definedStmt s && definedStmts rest
def definedElifs : TElifs → Bool
  | .none => true
  | .els b => definedStmts b
  | .elif e b rest => definedValue e && definedStmts b && definedElifs rest
end

def definedTops (tops : List TTop) : Bool :=
  tops.all fun t => match t with
    | .func f => definedStmts f.stmts
    | _ => true

/-! ### What was generated is defined -/

section Emitted

variable {cx : Cx} {x : Item} {r : Option Opd} {p p' : Pt} {code : List Insn}

/-- The condition on an item, and on what its result stands for. -/
def ItemDefined : Item → Option Opd → Prop
  | .expr e n, r => definedExpr n e = true ∧ (r.isSome = true → noValue e = false)
  | .args as, _ => definedArgs as = true
  | .stmt s, _ => definedStmt s = true
  | .stmts b, _ => definedStmts b = true
  | .elifs e _, _ => definedElifs e = true

attribute [local simp] ItemDefined definedExpr definedArgs noValue

lemma value_of_item {e : TExpr} {a : Opd} (h : ItemDefined (.expr e false) (some a)) :
    definedValue e = true := by
  simp [definedValue, h.1, h.2 rfl]

lemma asmu_assigns {op : BOp} {aop : ArithOp} (h : asmuOp op = some aop) :
    assigns op = true ∧ (op == .coma) = false := by
  cases op <;> simp [asmuOp] at h <;> exact ⟨rfl, rfl⟩

lemma plus_assigns {op : BOp} {aop : ArithOp} {b : Bool} (h : plusOp op = some (aop, b)) :
    assigns op = b ∧ (op == .coma) = false := by
  cases op <;> simp [plusOp] at h <;> exact ⟨h.2 ▸ rfl, rfl⟩

lemma conj_assigns {op : BOp} {disj : Bool} (h : conjOp op = some disj) :
    assigns op = false ∧ (op == .coma) = false := by
  cases op <;> simp [conjOp] at h <;> exact ⟨rfl, rfl⟩

lemma equl_assigns {op : BOp} {mk : Opd → Opd → Opd → Insn} (h : bexpInsn op = some mk) :
    assigns op = false ∧ (op == .coma) = false := by
  cases op <;> simp [bexpInsn] at h <;> exact ⟨rfl, rfl⟩

lemma defined_unary {op : UOp} {mk : Opd → Opd → Insn} (h : unaryInsn op = some mk) {n : Bool}
    {e : TExpr} {t : Ty} : definedExpr n (.uexp op e t) = (definedExpr false e && !noValue e) ∧
      noValue (.uexp op e t) = false := by
  cases op <;> simp [unaryInsn] at h <;> exact ⟨by simp, rfl⟩

lemma defined_incr {op : UOp} {dec : Bool} (h : incrOp op = some dec) {n : Bool} {e : TExpr}
    {t : Ty} : definedExpr n (.uexp op e t) = (definedExpr true e && !noValue e) ∧
      noValue (.uexp op e t) = false := by
  cases op <;> simp [incrOp] at h <;> exact ⟨by simp, rfl⟩

lemma definedExpr_tild {e : TExpr} (h : ∀ l as t, e ≠ .fexp l as t) {n : Bool} {t : Ty} :
    definedExpr n (.uexp .tild e t) = (definedExpr false e && !noValue e) := by
  cases e <;> first | exact absurd rfl (h _ _ _) | rfl

/-- **What the generator has emitted code for is defined.** -/
theorem defined_of_emit (h : Emit cx x p code r p') : ItemDefined x r := by
  induction h with
  | assn hl hr ihl ihr =>
    simp [assigns, ihl.1, ihl.2 rfl, ihr.1, ihr.2 rfl]
  | asmu hop hl hr ihl ihr =>
    simp [asmu_assigns hop, ihl.1, ihl.2 rfl, ihr.1, ihr.2 rfl]
  | plus hop hl hr hs ht ihl ihr | aspl hop hl hr hs ht ihl ihr =>
    simp [plus_assigns hop, ihl.1, ihl.2 rfl, ihr.1, ihr.2 rfl]
  | conj hop hl ht hr ihl ihr =>
    simp [conj_assigns hop, ihl.1, ihl.2 rfl, ihr.1, ihr.2 rfl]
  | coma hl hr ihl ihr => exact ⟨by simp [assigns, asmuOp, ihl.1, ihr.1], ihr.2⟩
  | equl hop hl hr ht ihl ihr =>
    simp [equl_assigns hop, ihl.1, ihl.2 rfl, ihr.1, ihr.2 rfl]
  | scop | szof | name | nmbr | strl => simp
  | atsi _ _ _ ih | arow _ _ _ _ ih => simp [ih.1, ih.2 rfl]
  | memb _ _ _ ih | membIndirect _ _ _ ih => simp [ih.1, ih.2 rfl]
  | cast _ hc ih => simp [ih.1, ih.2 rfl, hc]
  | tildCall ht ha hl iha ihl =>
    have iha' : definedArgs _ = true := iha
    simp [iha', ihl.1, ihl.2 rfl]
  | @tild e t n p p1 cr a hne ht h ih =>
    exact ⟨by simp [definedExpr_tild hne, ih.1, ih.2 rfl], fun _ => rfl⟩
  | uplus h ih => exact ⟨ih.1, ih.2⟩
  | unary hop h ht ih =>
    exact ⟨by simp [(defined_unary hop).1, ih.1, ih.2 rfl], fun _ => (defined_unary (n := false) hop).2⟩
  | multLvalue hp h ih => simp [hp, ih.1, ih.2 rfl]
  | multRvalue hp h ht ih => simp [hp, ht, ih.1, ih.2 rfl]
  | multValue hp h ht ih => simp [hp, ht, ih.1, ih.2 rfl]
  | multVoid hp h ht ih => simp [hp, ih.1, ih.2 rfl]
  | amps h ht ih => simp [ih.1, ih.2 rfl]
  | incr hop h hs ih | incrBy hop h hs ih =>
    exact ⟨by simp [(defined_incr hop).1, ih.1, ih.2 rfl], fun _ => (defined_incr (n := false) hop).2⟩
  | callv ht ha hl iha ihl =>
    have iha' : definedArgs _ = true := iha
    simp [iha', ht, ihl.1, ihl.2 rfl]
  | call ht ha hl iha ihl =>
    have iha' : definedArgs _ = true := iha
    simp [iha', ihl.1, ihl.2 rfl]
  | xexp _ _ _ ih | xexpBy _ _ _ ih => simp [ih.1, ih.2 rfl]
  | aexp _ _ _ _ ihb iho =>
    simp [ihb.1, ihb.2 rfl, iho.1, iho.2 rfl]
  | texp hc ht htv hfv ihc iht ihf =>
    simp [ht, ihc.1, ihc.2 rfl, iht.1, iht.2 rfl, ihf.1, ihf.2 rfl]
  | argsNil | stmtsNil | elifsNone | decl | retn | wlab => rfl
  | argsCons h hr ih ihr =>
    have ihr' : definedArgs _ = true := ihr
    simp [ihr', ih.1, ih.2 rfl]
  | declInit h hi ih => exact value_of_item ih
  | cond he hb hr ihe ihb ihr =>
    exact Bool.and_eq_true_iff.mpr ⟨Bool.and_eq_true_iff.mpr ⟨value_of_item ihe, ihb⟩, ihr⟩
  | blok h ih | noin h ih | els h ih => exact ih
  | whil he hb ihe ihb => exact Bool.and_eq_true_iff.mpr ⟨value_of_item ihe, ihb⟩
  | dowh hb he ihb ihe => exact Bool.and_eq_true_iff.mpr ⟨value_of_item ihe, ihb⟩
  | retnValue h ih => exact value_of_item ih
  | wait hq hlab ih => exact Bool.and_eq_true_iff.mpr ⟨value_of_item ih, rfl⟩
  | waitFor hq hf hlab ihq ihf =>
    exact Bool.and_eq_true_iff.mpr ⟨value_of_item ihq, value_of_item ihf⟩
  | exprStmt h ih => exact ih.1
  | stmtsCons hs hr ihs ihr => exact Bool.and_eq_true_iff.mpr ⟨ihs, ihr⟩
  | elif he hb hr ihe ihb ihr =>
    exact Bool.and_eq_true_iff.mpr ⟨Bool.and_eq_true_iff.mpr ⟨value_of_item ihe, ihb⟩, ihr⟩

end Emitted

/-! ### What is defined is generated -/

/-- From every state the computation returns or ends with one of the errors. -/
def Ends {α : Type} (E : GenErr → Prop) (g : GenM α) : Prop :=
  ∀ st, (∃ a st', g st = .ok (a, st')) ∨ ∃ e, g st = .error e ∧ E e

/-- The condition holds, unless the errors it keeps away are among those allowed. -/
def Needs (E : GenErr → Prop) (c : Bool) : Prop := c = true ∨ E .unset ∧ E .zeroAlign

section Ends

variable {α β : Type} {E : GenErr → Prop} {g : GenM α} {cx : Cx} {l r : Gen} {t : Ty}

lemma needs_and {c d : Bool} : Needs E (c && d) ↔ Needs E c ∧ Needs E d := by
  rw [Needs, Bool.and_eq_true]
  exact and_or_right

lemma needs_or {c d : Bool} : Needs E (c || d) ↔ c = true ∨ Needs E d := by
  rw [Needs, Bool.or_eq_true, or_assoc]
  rfl

lemma Needs.bytes (h : Needs E (t.bytes != 0)) : t.bytes ≠ 0 ∨ E .zeroAlign :=
  h.imp bne_iff_ne.mp And.right

lemma ends_pure {a : α} : Ends E (pure a : GenM α) := fun st => .inl ⟨a, st, rfl⟩

lemma bind_error {k : α → GenM β} {st : GenSt} {e : GenErr} (h : g st = .error e) :
    (g >>= k) st = .error e := by
  show Except.bind (g st) (fun x => k x.1 x.2) = _
  rw [h]
  rfl

lemma ends_bind {k : α → GenM β} (hg : Ends E g) (hk : ∀ a, Ends E (k a)) : Ends E (g >>= k) := by
  intro st
  rcases hg st with ⟨a, st1, h1⟩ | ⟨e, h1, he⟩
  · rcases hk a st1 with ⟨b, st2, h2⟩ | ⟨e, h2, he⟩
    · exact .inl ⟨b, st2, bind_ok.mpr ⟨a, st1, h1, h2⟩⟩
    · refine .inr ⟨e, ?_, he⟩
      show Except.bind (g st) (fun x => k x.1 x.2) = _
      rw [h1]
      exact h2
  · exact .inr ⟨e, bind_error h1, he⟩

lemma ends_map {k : α → β} (hg : Ends E g) : Ends E (k <$> g) := by
  rw [map_eq_pure_bind]
  exact ends_bind hg fun _ => ends_pure

lemma ends_ite {c : Prop} [Decidable c] {g k : GenM α} (hg : Ends E g) (hk : Ends E k) :
    Ends E (if c then g else k) := by
  split
  · exact hg
  · exact hk

lemma ends_of_ok {k : GenSt → α × GenSt} (h : ∀ st, g st = .ok (k st)) : Ends E g :=
  fun st => .inl ⟨_, _, h st⟩

lemma ends_getIp : Ends E getIp := ends_of_ok fun _ => rfl
lemma ends_getTempOff : Ends E getTempOff := ends_of_ok fun _ => rfl
lemma ends_emit {i : Insn} : Ends E (emit i) := ends_of_ok fun _ => rfl
lemma ends_setTempOff {n : Nat} : Ends E (setTempOff n) := ends_of_ok fun _ => rfl
lemma ends_patch {pos : Nat} {k : Insn → Insn} : Ends E (patch pos k) := ends_of_ok fun _ => rfl
lemma ends_patchJmp {pos : Nat} : Ends E (patchJmp pos) := ends_bind ends_getIp fun _ => ends_patch

lemma ends_temp {s : Bool} {size : Nat} (h : size ≠ 0 ∨ E .zeroAlign) : Ends E (opdTemp s size) := by
  intro st
  by_cases hz : size = 0
  · exact .inr ⟨.zeroAlign, by rw [opdTemp, if_pos hz], h.resolve_left fun hne => hne hz⟩
  · refine .inl ⟨tempAt st s size, allocated st size, ?_⟩
    rw [opdTemp, if_neg hz]
    rfl

lemma ends_word : Ends E (opdTemp false 8) := ends_temp (.inl (by decide))

lemma ends_orAbort {x : Option α} (h : x.isSome = true) : Ends E (orAbort x) := by
  obtain ⟨a, rfl⟩ := Option.isSome_iff_exists.mp h
  exact ends_pure

/-- A result that is set is read. -/
lemma ends_operand {g : GenM Opd} (h : Ends E g) : Ends E (operand (some <$> g)) := by
  rw [operand, map_eq_pure_bind, bind_assoc]
  exact ends_bind h fun _ => ends_pure

/-- A result may be read if it may be unset. -/
lemma ends_operand_unset {g : GenM (Option Opd)} (hu : E .unset) (h : Ends E g) : Ends E (operand g) := by
  refine ends_bind h fun a => ?_
  cases a with
  | some a => exact ends_pure
  | none => exact fun st => .inr ⟨.unset, rfl, hu⟩

lemma ends_operand_some {g : GenM (Option Opd)} (h : Ends E g) (hs : ∀ st st', g st ≠ .ok (none, st')) :
    Ends E (operand g) := by
  intro st
  rcases h st with ⟨a, st1, h1⟩ | ⟨e, h1, he⟩
  · cases a with
    | some a => exact .inl ⟨a, st1, operand_ok.mpr h1⟩
    | none => exact absurd h1 (hs st st1)
  · exact .inr ⟨e, bind_error h1, he⟩

lemma ends_assn (hl : Ends E (l true)) (hr : Ends E (r false)) : Ends E (genBexpAssn l r) :=
  ends_bind hl fun _ => ends_bind hr fun _ => ends_bind ends_emit fun _ => ends_pure

lemma ends_asmu {op : ArithOp} (hl : Ends E (l true)) (hr : Ends E (r false)) :
    Ends E (genBexpAsmu op l r) :=
  ends_bind hl fun _ => ends_bind hr fun _ => ends_bind ends_emit fun _ => ends_pure

lemma ends_equl {mk : Opd → Opd → Opd → Insn} (hl : Ends E (l false)) (hr : Ends E (r false))
    (ht : t.bytes ≠ 0 ∨ E .zeroAlign) : Ends E (genBexpEqul mk l r t) :=
  ends_bind hl fun _ => ends_bind hr fun _ => ends_bind (ends_temp ht) fun _ =>
    ends_bind ends_emit fun _ => ends_pure

lemma ends_conj {disj : Bool} (hl : Ends E (l false)) (hr : Ends E (r false))
    (ht : t.bytes ≠ 0 ∨ E .zeroAlign) : Ends E (genBexpConj disj l r t) := by
  refine ends_bind hl fun _ => ends_bind (ends_temp ht) fun _ => ends_bind ends_emit fun _ =>
    ends_bind ends_getIp fun _ => ends_bind ends_emit fun _ => ends_bind hr fun _ =>
    ends_bind ends_emit fun _ => ?_
  exact ends_ite (ends_bind ends_emit fun _ => ends_bind ends_patchJmp fun _ => ends_pure)
    (ends_bind ends_emit fun _ => ends_bind ends_patchJmp fun _ => ends_pure)

lemma ends_plus {op : ArithOp} {b : Bool} {tl : Ty} (hl : Ends E (l b)) (hr : Ends E (r false))
    (ht : t.bytes ≠ 0 ∨ E .zeroAlign) : Ends E (genBexpPlus op b l r tl t) := by
  have htail : ∀ a c : Opd, Ends E (opdTemp a.signd t.bytes >>= fun dst =>
      if b = true then (do emit (.arith op a a c); return a)
      else (do emit (.arith op dst a c); return dst)) := fun a c =>
    ends_bind (ends_temp ht) fun _ => ends_ite (ends_bind ends_emit fun _ => ends_pure)
      (ends_bind ends_emit fun _ => ends_pure)
  refine ends_bind hl fun a => ends_bind hr fun c => ends_ite ?_ (htail a c)
  exact ends_bind ends_word fun _ => ends_bind ends_emit fun _ => htail a _

lemma ends_arow {idx : Nat} (hl : Ends E (l false)) (hm : (memberAt t idx).isSome = true) :
    Ends E (genBexpArow l t idx) := by
  have htail : ∀ a : Opd, Ends E (orAbort (memberAt t idx) >>= fun m => opdTemp false 8 >>= fun dst => do
      emit (.arith .add dst a (opdImm false m.2 8))
      return dst.setIndirect m.1.signd m.1.bytes) := fun a =>
    ends_bind (ends_orAbort hm) fun _ => ends_bind ends_word fun _ =>
      ends_bind ends_emit fun _ => ends_pure
  exact ends_bind hl fun a => ends_ite
    (ends_bind ends_word fun _ => ends_bind ends_emit fun _ => htail _) (htail a)

lemma ends_memb {idx : Nat} {n : Bool} (hl : Ends E (l n)) (hm : (memberAt t idx).isSome = true) :
    Ends E (genBexpMemb l t idx n) :=
  ends_bind hl fun _ => ends_bind (ends_orAbort hm) fun _ => ends_ite ends_pure
    (ends_bind ends_word fun _ => ends_bind ends_emit fun _ => ends_bind ends_word fun _ =>
      ends_bind ends_emit fun _ => ends_pure)

lemma ends_incr {dec : Bool} {tr : Ty} (hr : Ends E (r true)) : Ends E (genUexpIncr dec r tr t) :=
  ends_bind hr fun _ => ends_ite (ends_bind ends_emit fun _ => ends_pure)
    (ends_bind ends_emit fun _ => ends_pure)

lemma ends_xexp {dec : Bool} {tl : Ty} (hl : Ends E (l true)) (ht : t.bytes ≠ 0 ∨ E .zeroAlign) :
    Ends E (genXexpIncr dec l tl t) :=
  ends_bind hl fun _ => ends_bind (ends_temp ht) fun _ => ends_ite
    (ends_bind ends_emit fun _ => ends_pure)
    (ends_bind ends_emit fun _ => ends_bind ends_emit fun _ => ends_pure)

lemma ends_mult {tr : Ty} {n : Bool} (hr : Ends E (r false))
    (h : n = true ∨ tr.t ≠ .ptr ∨ t.bytes ≠ 0 ∨ E .zeroAlign) : Ends E (genUexpMult r tr t n) := by
  refine ends_bind hr fun a => ?_
  by_cases hp : (tr.t == .ptr) = true
  · cases n with
    | true => simp only [hp, Bool.and_self, if_true, ends_pure]
    | false =>
      have ht : t.bytes ≠ 0 ∨ E .zeroAlign := by simpa [beq_iff_eq.mp hp] using h
      simp only [hp, Bool.and_false, Bool.false_eq_true, if_false, if_true]
      exact ends_bind (ends_temp ht) fun _ => ends_bind ends_emit fun _ => ends_pure
  · rw [Bool.not_eq_true] at hp
    simp only [hp, Bool.false_and, Bool.false_eq_true, if_false]
    split
    · rename_i ht
      exact ends_bind (ends_temp (.inl ht)) fun _ => ends_bind ends_emit fun _ => ends_pure
    · exact ends_bind ends_emit fun _ => ends_pure

/-- A reap with a value, or a pointer's place or value. -/
lemma ends_mult_value {tr : Ty} {n : Bool} (hr : Ends E (r false))
    (h : n = true ∨ tr.t ≠ .ptr ∨ t.bytes ≠ 0 ∨ E .zeroAlign) (hv : tr.t = .ptr ∨ t.bytes ≠ 0) :
    Ends E (operand (genUexpMult r tr t n)) := by
  refine ends_operand_some (ends_mult hr h) fun st st1 h1 => ?_
  simp only [genUexpMult, bind_ok, ite_ok, pure_ok, opdTemp_ok, Option.some_ne_none, false_and,
    and_false, exists_false, false_or, Bool.and_eq_true, beq_iff_eq] at h1
  obtain ⟨_, _, -, -, h1⟩ := h1
  obtain ⟨hp, ht, -⟩ := h1
  rcases hv with hv | hv
  · exact hp hv
  · exact hv (by simpa using ht)

lemma ends_mins {mk : Opd → Opd → Insn} (hr : Ends E (r false)) (ht : t.bytes ≠ 0 ∨ E .zeroAlign) :
    Ends E (genUexpMins mk r t) :=
  ends_bind hr fun _ => ends_bind (ends_temp ht) fun _ => ends_bind ends_emit fun _ => ends_pure

lemma ends_tild {as : GenM PUnit} (ha : Ends E as) (hl : Ends E (l false))
    (ht : t.bytes ≠ 0 ∨ E .zeroAlign) : Ends E (genUexpTildCall as l t) :=
  ends_bind (ends_temp ht) fun _ => ends_bind ends_word fun _ => ends_bind ends_emit fun _ =>
    ends_bind ha fun _ => ends_bind hl fun _ => ends_bind ends_emit fun _ => ends_pure

lemma ends_tildValue (hr : Ends E (r false)) (ht : t.bytes ≠ 0 ∨ E .zeroAlign) :
    Ends E (genUexpTildValue r t) :=
  ends_bind (ends_temp ht) fun _ => ends_bind hr fun _ => ends_bind ends_emit fun _ => ends_pure

lemma ends_amps (hr : Ends E (r false)) (ht : t.bytes ≠ 0 ∨ E .zeroAlign) : Ends E (genUexpAmps r t) :=
  ends_bind hr fun _ => ends_bind (ends_temp ht) fun _ => ends_bind ends_emit fun _ => ends_pure

lemma ends_cast (hl : Ends E (l false)) (ht : t.bytes ≠ 0 ∨ E .zeroAlign) : Ends E (genBexpCast l t) :=
  ends_bind hl fun _ => ends_bind (ends_temp ht) fun _ => ends_bind ends_emit fun _ => ends_pure

lemma ends_atsi {label : WlabRef} (hl : Ends E (l false)) (hlab : (wlabOperand label).isSome = true)
    (ht : t.bytes ≠ 0 ∨ E .zeroAlign) : Ends E (genBexpAtsi l label t) :=
  ends_bind hl fun _ => ends_bind (ends_orAbort hlab) fun _ => ends_bind (ends_temp ht) fun _ =>
    ends_bind ends_emit fun _ => ends_pure

lemma ends_fexp {as : GenM PUnit} (ha : Ends E as) (hl : Ends E (l false)) : Ends E (genFexp as l t) := by
  refine ends_bind ends_word fun _ => ends_bind ends_getIp fun _ => ends_bind ends_emit fun _ =>
    ends_bind ha fun _ => ends_bind hl fun _ => ends_bind ends_getIp fun _ =>
    ends_bind ends_patch fun _ => ?_
  split
  · rename_i ht
    exact ends_bind (ends_temp (.inl ht)) fun _ => ends_bind ends_emit fun _ => ends_pure
  · exact ends_bind ends_emit fun _ => ends_pure

lemma ends_fexp_value {as : GenM PUnit} (ha : Ends E as) (hl : Ends E (l false)) (ht : t.bytes ≠ 0) :
    Ends E (operand (genFexp as l t)) := by
  have : operand (genFexp as l t) = operand (some <$> (do
      let ssp ← opdTemp false 8
      let pushrIp ← getIp
      emit (.pushr (opdImm false 0 8) ssp)
      as
      let lhsRes ← l false
      let ip ← getIp
      patch pushrIp (Insn.setPushr ip)
      let val ← opdTemp t.signd t.bytes
      emit (.callv val lhsRes ssp)
      return val)) := by
    simp only [genFexp, ht, ne_eq, not_false_eq_true, if_true, map_bind, map_pure]
  rw [this]
  exact ends_operand (ends_bind ends_word fun _ => ends_bind ends_getIp fun _ =>
    ends_bind ends_emit fun _ => ends_bind ha fun _ => ends_bind hl fun _ =>
    ends_bind ends_getIp fun _ => ends_bind ends_patch fun _ => ends_bind (ends_temp (.inl ht)) fun _ =>
    ends_bind ends_emit fun _ => ends_pure)

lemma ends_aexp {ti : Ty} {n : Bool} (hb : Ends E (l n)) (ho : Ends E (r false)) :
    Ends E (genAexp l r ti t n) := by
  have htail : ∀ a i : Opd, Ends E (if a.indirect = true then (do
        let dst ← opdTemp false 8
        emit (.arith .add dst a.setDirect i)
        return dst.setIndirect t.signd t.bytes)
      else (do
        let refDst ← opdTemp false 8
        emit (.ref refDst a)
        let arrDst ← opdTemp false 8
        emit (.arith .add arrDst refDst i)
        return arrDst.setIndirect t.signd t.bytes)) := fun a i =>
    ends_ite (ends_bind ends_word fun _ => ends_bind ends_emit fun _ => ends_pure)
      (ends_bind ends_word fun _ => ends_bind ends_emit fun _ => ends_bind ends_word fun _ =>
        ends_bind ends_emit fun _ => ends_pure)
  refine ends_bind hb fun a => ends_bind ho fun i => ends_bind ends_word fun w => ?_
  refine ends_ite (ends_ite (htail a _) ?_) (ends_ite ?_ ?_)
  · exact ends_bind ends_emit fun _ => htail a _
  · exact ends_bind ends_emit fun _ => ends_bind ends_emit fun _ => htail a _
  · exact ends_bind ends_emit fun _ => htail a _

lemma ends_texp {c : Gen} (hc : Ends E (c false)) (hl : Ends E (l false)) (hr : Ends E (r false))
    (ht : t.bytes ≠ 0 ∨ E .zeroAlign) : Ends E (genTexp c l r t) :=
  ends_bind hc fun _ => ends_bind (ends_temp ht) fun _ => ends_bind ends_getIp fun _ =>
    ends_bind ends_emit fun _ => ends_bind ends_getTempOff fun _ => ends_bind hl fun _ =>
    ends_bind ends_emit fun _ => ends_bind ends_getIp fun _ => ends_bind ends_emit fun _ =>
    ends_bind ends_patchJmp fun _ => ends_bind ends_setTempOff fun _ => ends_bind hr fun _ =>
    ends_bind ends_emit fun _ => ends_bind ends_patchJmp fun _ => ends_pure

lemma ends_name {so : ScopeObj} (h : (nameOpd cx so t).isSome = true) : Ends E (genName cx so t) := by
  rcases so with ⟨name, obj⟩
  cases obj with
  | dupl => cases h
  | gvar d =>
    rw [nameOpd, Option.isSome_map] at h
    exact ends_bind (ends_orAbort h) fun _ => ends_pure
  | avar d =>
    rw [nameOpd, Option.isSome_map] at h
    exact ends_bind (ends_orAbort h) fun _ => ends_pure
  | parm d =>
    rw [nameOpd, Option.isSome_map] at h
    exact ends_bind (ends_orAbort h) fun _ => ends_pure
  | bcon id =>
    rw [nameOpd, Option.isSome_map] at h
    exact ends_bind (ends_orAbort h) fun _ => ends_pure
  | bfun id => exact ends_pure
  | func f => exact ends_pure

lemma ends_strl {s : List UInt8} : Ends E (genStrl cx s) :=
  ends_bind (ends_of_ok fun _ => rfl) fun _ => ends_bind (ends_of_ok fun _ => rfl) fun _ =>
    ends_bind ends_word fun _ => ends_bind ends_emit fun _ => ends_pure

end Ends

section Checked

variable {E : GenErr → Prop} {cx : Cx} {tops : List TTop} {f : TFunc} {locs : List (Nat × Nat)}
  {e l r : TExpr} {t : Ty} {n : Bool}

/-- The generator returns, with a result unless the expression has no value, or it ends with one
of the errors. -/
def Made (E : GenErr → Prop) (cx : Cx) (e : TExpr) (n : Bool) : Prop :=
  Ends E (genExpr cx e n) ∧ (noValue e = false → Ends E (operand (genExpr cx e n)))

lemma made_of_ends {g : GenM Opd} (h : genExpr cx e n = some <$> g) (hg : Ends E g) : Made E cx e n := by
  rw [Made, h]
  exact ⟨ends_map hg, fun _ => ends_operand hg⟩

lemma Made.operand (h : Made E cx e n) (hv : Needs E (!noValue e)) : Ends E (gen cx e n) :=
  hv.elim (fun hv => h.2 (by simpa using hv)) fun hu => ends_operand_unset hu.1 h.1

lemma bexp_made {op : BOp} (hc : typeFromBexp op l r = .ok (.bexp op l r t))
    (hl : Needs E (definedExpr (assigns op) l) → Made E cx l (assigns op)) (hr : Made E cx r false)
    (hd : Needs E (definedExpr n (.bexp op l r t))) : Made E cx (.bexp op l r t) n := by
  simp only [definedExpr, needs_and, needs_or, beq_iff_eq] at hd
  obtain ⟨⟨hdl, -⟩, hv⟩ := hd
  have hml := hl hdl
  by_cases hcoma : op = .coma
  · subst hcoma
    have hl' : Ends E (genExpr cx l false) := hml.1
    refine ⟨?_, fun hv => ?_⟩
    · exact ends_bind ends_getTempOff fun _ => ends_bind hl' fun _ =>
        ends_bind ends_setTempOff fun _ => hr.1
    · have hgen : operand (genExpr cx (.bexp .coma l r t) n) = (do
          let saved ← getTempOff
          let _ ← genExpr cx l false
          setTempOff saved
          operand (genExpr cx r false)) := by
        show operand (genBexpComa (genExpr cx l) (genExpr cx r)) = _
        simp only [operand, genBexpComa, bind_assoc]
      rw [hgen]
      exact ends_bind ends_getTempOff fun _ => ends_bind hl' fun _ =>
        ends_bind ends_setTempOff fun _ => hr.2 hv
  · obtain ⟨hvl, hvr⟩ := hv.resolve_left hcoma
    have ol := hml.operand hvl
    have or := hr.operand hvr
    have hsize := hc
    cases op
    case coma => exact absurd rfl hcoma
    case coln | scop | atsi | memb | arow | cast => cases hc
    case assn => exact made_of_ends rfl (ends_assn ol or)
    case aspl | asmi =>
      obtain ⟨-, hal, rfl⟩ := plus_checked rfl hc
      exact made_of_ends rfl (ends_plus ol or (.inl (bytes_pos_of_scalar hal.left)))
    case plus | mins =>
      obtain ⟨-, hal, rfl⟩ := plus_checked rfl hc
      exact made_of_ends rfl (ends_plus ol or (.inl (bytes_pos_of_scalar hal.left)))
    case conj | disj =>
      obtain ⟨-, rfl⟩ := conj_checked rfl hc
      exact made_of_ends rfl (ends_conj ol or (.inl (by decide)))
    case equl | neql =>
      obtain ⟨-, rfl⟩ := equ_checked rfl hc
      exact made_of_ends rfl (ends_equl ol or (.inl (by decide)))
    case lthn | gthn | lteq | gteq =>
      obtain ⟨-, rfl⟩ := cmp_checked rfl hc
      exact made_of_ends rfl (ends_equl ol or (.inl (by decide)))
    case mult | divi | modu | lshf | rshf | amps | care | pipe =>
      obtain ⟨hal, rfl⟩ := arith_checked rfl hc
      exact made_of_ends rfl (ends_equl ol or (.inl (bytes_pos_of_scalar hal.left)))
    all_goals exact made_of_ends rfl (ends_asmu ol or)

/-- The generator of a unary operator other than `~` on a call. -/
def genUexp (cx : Cx) (op : UOp) (r : TExpr) (t : Ty) (n : Bool) : GenM (Option Opd) :=
  match op with
  | .plus => genExpr cx r false
  | .mins => some <$> genUexpMins .neg (gen cx r) t
  | .excl => some <$> genUexpMins .not (gen cx r) t
  | .care => some <$> genUexpMins .bneg (gen cx r) t
  | .tild => some <$> genUexpTildValue (gen cx r) t
  | .mult => genUexpMult (gen cx r) (typeOfExpr r) t n
  | .amps => some <$> genUexpAmps (gen cx r) t
  | .incr => some <$> genUexpIncr false (gen cx r) (typeOfExpr r) t
  | .decr => some <$> genUexpIncr true (gen cx r) (typeOfExpr r) t

lemma genExpr_uexp {op : UOp} (hcall : op = .tild → ∀ l as tc, r ≠ .fexp l as tc) :
    genExpr cx (.uexp op r t) n = genUexp cx op r t n := by
  cases op
  case tild =>
    cases r
    case fexp l as tc => exact absurd rfl (hcall rfl l as tc)
    all_goals rfl
  all_goals rfl

lemma uexp_made {op : UOp} (hc : typeFromUexp op r = .ok (.uexp op r t))
    (hcall : op = .tild → ∀ l as tc, r ≠ .fexp l as tc)
    (hr : ∀ n, Needs E (definedExpr n r) → Made E cx r n) (hd : Needs E (definedExpr n (.uexp op r t))) :
    Made E cx (.uexp op r t) n := by
  cases op
  case tild =>
    obtain ⟨h1, h2⟩ : Needs E (definedExpr false r) ∧ Needs E (!noValue r) := by
      rwa [definedExpr_tild (hcall rfl), needs_and] at hd
    obtain rfl := tild_checked hc
    exact made_of_ends (genExpr_uexp hcall)
      (ends_tildValue ((hr _ h1).operand h2) (.inl (by rw [quaint_word.1]; decide)))
  all_goals simp only [definedExpr, needs_and] at hd
  case plus =>
    have h := hr _ hd
    exact ⟨h.1, h.2⟩
  case mult =>
    obtain ⟨⟨hdr, hv⟩, hk⟩ := hd
    have h := (hr _ hdr).operand hv
    have hk' : n = true ∨ (typeOfExpr r).t ≠ .ptr ∨ t.bytes ≠ 0 ∨ E .zeroAlign := by
      rcases needs_or.mp hk with hk | hk
      · rw [Bool.or_eq_true, bne_iff_ne] at hk
        exact hk.imp_right .inl
      · exact .inr (.inr hk.bytes)
    refine ⟨genExpr_uexp hcall ▸ ends_mult h hk', fun hnv =>
      genExpr_uexp hcall ▸ ends_mult_value h hk' ?_⟩
    simpa [noValue, ← or_iff_not_imp_left] using hnv
  case mins | excl | care =>
    obtain ⟨-, hs, -⟩ := unary_checked rfl hc
    exact made_of_ends (genExpr_uexp hcall)
      (ends_mins ((hr _ hd.1).operand hd.2) (.inl (bytes_pos_of_scalar hs)))
  case amps =>
    have hm := hr _ hd.1
    have ho := hm.operand hd.2
    obtain ⟨-, rfl⟩ := amps_checked hc
    exact made_of_ends (genExpr_uexp hcall) (ends_amps ho (.inl (by rw [ptr_word.1]; decide)))
  case incr | decr => exact made_of_ends (genExpr_uexp hcall) (ends_incr ((hr _ hd.1).operand hd.2))

mutual
/-- **What is defined is generated.** -/
theorem made_of_defined (hu : InUnit tops f cx) (hr : Resolves locs tops) : ∀ (e : TExpr) (n : Bool),
    Checked (KnownIn tops f) e → Needs E (definedExpr n e) → Made E cx e n
  | .bexp _ l r _, _, hc, hd => by
    have hdr : Needs E (definedExpr false r) := by
      simp only [definedExpr, needs_and] at hd
      exact hd.1.2
    exact bexp_made hc.1 (made_of_defined hu hr l _ hc.2.1) (made_of_defined hu hr r _ hc.2.2 hdr) hd
  | .scop v t, _, hc, _ => by
    obtain ⟨values, tv, rfl, -⟩ := hc
    exact made_of_ends rfl ends_pure
  | .atsi l label t, _, hc, hd => by
    obtain ⟨⟨unit, rhs, ht⟩, hcl⟩ := hc
    obtain ⟨-, -, rfl⟩ := atsi_checked ht
    simp only [definedExpr, needs_and] at hd
    exact made_of_ends rfl (ends_atsi ((made_of_defined hu hr l _ hcl hd.1).operand hd.2)
      (typeFromAtsi_label ht) (.inl (by decide)))
  | .memb l i t, n, hc, hd => by
    obtain ⟨⟨rhs, ht⟩, hcl⟩ := hc
    obtain ⟨-, -, off, hm⟩ := memb_checked ht
    simp only [definedExpr, needs_and] at hd
    exact made_of_ends rfl (ends_memb ((made_of_defined hu hr l n hcl hd.1).operand hd.2)
      (by rw [hm]; rfl))
  | .arow l i t, _, hc, hd => by
    obtain ⟨⟨rhs, ht⟩, hcl⟩ := hc
    obtain ⟨s, hs, -, -, off, hm⟩ := arow_checked ht
    simp only [definedExpr, needs_and] at hd
    refine made_of_ends (g := genBexpArow (gen cx l) s i) ?_
      (ends_arow ((made_of_defined hu hr l _ hcl hd.1).operand hd.2) (by rw [hm]; rfl))
    rw [genExpr, hs]
  | .cast l c t, _, hc, hd => by
    simp only [definedExpr, needs_and] at hd
    exact made_of_ends rfl
      (ends_cast ((made_of_defined hu hr l _ hc.2.2.2 hd.1.1).operand hd.1.2) hd.2.bytes)
  | .uexp op r t, n, hc, hd => by
    by_cases hcall : op = .tild ∧ ∃ l as tc, r = .fexp l as tc
    · obtain ⟨rfl, l, as, tc, rfl⟩ := hcall
      obtain ⟨ht, params, ret, -, -, hcl, hca⟩ := hc
      obtain rfl := tild_checked ht
      simp only [definedExpr, needs_and] at hd
      exact made_of_ends rfl (ends_tild (args_made hu hr as params hca hd.1.1)
        ((made_of_defined hu hr l _ hcl hd.1.2).operand hd.2) (.inl (by rw [quaint_word.1]; decide)))
    · exact uexp_made hc.1 (fun ho l as tc hr => hcall ⟨ho, l, as, tc, hr⟩)
        (fun n => made_of_defined hu hr r n hc.2) hd
  | .szof _ _ _, _, _, _ => made_of_ends rfl ends_pure
  | .fexp l as t, _, hc, hd => by
    obtain ⟨params, ret, -, -, hcl, hca⟩ := hc
    simp only [definedExpr, needs_and] at hd
    have ha := args_made hu hr as params hca hd.1.1
    have hl := (made_of_defined hu hr l _ hcl hd.1.2).operand hd.2
    refine ⟨ends_fexp ha hl, fun hv => ends_fexp_value ha hl ?_⟩
    simpa [noValue] using hv
  | .xexp op l t, _, hc, hd => by
    obtain ⟨ht, hcl⟩ := hc
    obtain ⟨-, hs, rfl⟩ := xexp_checked ht
    simp only [definedExpr, needs_and] at hd
    exact made_of_ends rfl (ends_xexp ((made_of_defined hu hr l _ hcl hd.1).operand hd.2)
      (.inl (bytes_pos_of_scalar hs)))
  | .aexp b o t, n, hc, hd => by
    simp only [definedExpr, needs_and] at hd
    exact made_of_ends rfl (ends_aexp ((made_of_defined hu hr b n hc.2.1 hd.1.1.1).operand hd.1.1.2)
      ((made_of_defined hu hr o _ hc.2.2 hd.1.2).operand hd.2))
  | .texp c tv fv t, _, hc, hd => by
    obtain ⟨-, hcc, hct, hcf⟩ := hc
    simp only [definedExpr, needs_and] at hd
    obtain ⟨⟨⟨⟨⟨⟨dc, vc⟩, dt⟩, vt⟩, df⟩, vf⟩, ht⟩ := hd
    exact made_of_ends rfl (ends_texp ((made_of_defined hu hr c _ hcc dc).operand vc)
      ((made_of_defined hu hr tv _ hct dt).operand vt) ((made_of_defined hu hr fv _ hcf df).operand vf)
      ht.bytes)
  | .name so t, n, hc, _ => by
    obtain ⟨a, ha, -⟩ := name_operand (n := n) hu hr hc
    exact made_of_ends rfl (ends_name (by rw [ha]; rfl))
  | .nmbr _ _, _, _, _ => made_of_ends rfl ends_pure
  | .strl _ _, _, _, _ => made_of_ends rfl ends_strl
termination_by e => sizeOf e
decreasing_by all_goals (subst_vars; simp +arith)
theorem args_made (hu : InUnit tops f cx) (hr : Resolves locs tops) : ∀ (as : TArgs) (ps : Fields),
    CheckedArgs (KnownIn tops f) ps as → Needs E (definedArgs as) → Ends E (genArgs cx as)
  | .nil, _, _, _ => ends_pure
  | .cons a rest, .nil, hc, _ => hc.elim
  | .cons a rest, .cons _ _ ps, hc, hd => by
    simp only [definedArgs, needs_and] at hd
    exact ends_bind ((made_of_defined hu hr a _ hc.1 hd.1.1).operand hd.1.2) fun _ =>
      ends_bind ends_emit fun _ => args_made hu hr rest ps hc.2.2 hd.2
termination_by as => sizeOf as
decreasing_by all_goals simp +arith
end

end Checked

/-! ### Statements -/

section Statements

variable {E : GenErr → Prop} {cx : Cx} {tops : List TTop} {f : TFunc} {locs : List (Nat × Nat)}
  {e : TExpr} {t : Ty}

lemma value_made (hu : InUnit tops f cx) (hr : Resolves locs tops) (hc : Checked (KnownIn tops f) e)
    (hd : Needs E (definedValue e)) : Ends E (operand (genExpr cx e false)) := by
  simp only [definedValue, needs_and] at hd
  exact (made_of_defined hu hr e false hc hd.1).operand hd.2

lemma ends_forM {α : Type} {xs : List α} {k : α → GenM PUnit} (h : ∀ a ∈ xs, Ends E (k a)) :
    Ends E (xs.forM k) := by
  induction xs with
  | nil => exact ends_pure
  | cons a xs ih =>
    show Ends E (k a >>= fun _ => xs.forM k)
    exact ends_bind (h a List.mem_cons_self) fun _ => ih fun b hb => h b (List.mem_cons_of_mem _ hb)

lemma decl_made (hu : InUnit tops f cx) (hr : Resolves locs tops) {names : List Sym}
    {init : Option TExpr} (hloc : (names, t) ∈ stmtsLocals f.stmts)
    (hc : ∀ e, init = some e → Checked (KnownIn tops f) e) (hd : Needs E (definedOpt init)) :
    Ends E (genDeclAuto cx names t init) := by
  cases init with
  | none => exact ends_pure
  | some e =>
    refine ends_bind (value_made hu hr (hc e rfl) hd) fun _ => ends_forM fun n hn => ?_
    obtain ⟨off, hoff⟩ := local_found hu.accepted hu.func hloc hn
    refine ends_bind (ends_orAbort ?_) fun _ => ends_emit
    rw [hu.ftag, hoff]
    rfl

mutual
theorem stmt_made (hu : InUnit tops f cx) (hr : Resolves locs tops) (ret : RetTy) : ∀ (s : TStmt),
    CheckedStmt (KnownIn tops f) ret s → stmtLocals s ⊆ stmtsLocals f.stmts → Needs E (definedStmt s) →
      Ends E (genStmt cx s)
  | .decl names t init, hc, hs, hd =>
    ends_bind (decl_made hu hr (hs List.mem_cons_self) (fun e he => (hc.2.2 e he).1) hd) fun _ =>
      ends_setTempOff
  | .cond e b rest, hc, hs, hd => by
    obtain ⟨hsb, hsr⟩ := List.append_subset.mp hs
    simp only [definedStmt, needs_and] at hd
    exact ends_bind (value_made hu hr hc.1 hd.1.1) fun _ => ends_bind ends_getIp fun _ =>
      ends_bind ends_emit fun _ => ends_bind ends_setTempOff fun _ =>
      ends_bind (stmts_made hu hr ret b hc.2.1 hsb hd.1.2) fun _ => ends_bind ends_getIp fun _ =>
      ends_bind ends_emit fun _ => ends_bind (elifs_made hu hr ret rest hc.2.2 hsr hd.2 _) fun _ =>
      ends_bind (ends_forM fun _ _ => ends_patchJmp) fun _ => ends_setTempOff
  | .blok b, hc, hs, hd =>
    ends_bind (stmts_made hu hr ret b hc hs hd) fun _ => ends_setTempOff
  | .noin b, hc, hs, hd =>
    ends_bind ends_emit fun _ => ends_bind (stmts_made hu hr ret b hc hs hd) fun _ =>
      ends_bind ends_emit fun _ => ends_setTempOff
  | .whil e b, hc, hs, hd => by
    simp only [definedStmt, needs_and] at hd
    exact ends_bind ends_getIp fun _ => ends_bind (value_made hu hr hc.1 hd.1) fun _ =>
      ends_bind ends_getIp fun _ => ends_bind ends_emit fun _ => ends_bind ends_setTempOff fun _ =>
      ends_bind (stmts_made hu hr ret b hc.2 hs hd.2) fun _ => ends_bind ends_emit fun _ =>
      ends_bind ends_patchJmp fun _ => ends_setTempOff
  | .dowh b e, hc, hs, hd => by
    simp only [definedStmt, needs_and] at hd
    exact ends_bind ends_getIp fun _ => ends_bind (stmts_made hu hr ret b hc.2 hs hd.2) fun _ =>
      ends_bind (value_made hu hr hc.1 hd.1) fun _ => ends_bind ends_emit fun _ => ends_setTempOff
  | .retn none, _, _, _ => ends_bind ends_emit fun _ => ends_setTempOff
  | .retn (some e), hc, _, hd => by
    have hce : Checked (KnownIn tops f) e := by
      cases ret with
      | none => exact hc.elim
      | some rt => exact hc.1
    exact ends_bind (ends_bind (value_made hu hr hce hd) fun _ => ends_emit) fun _ => ends_setTempOff
  | .wait q none label nb un, hc, _, hd => by
    simp only [definedStmt, definedOpt, Bool.and_true] at hd
    exact ends_bind (ends_bind (value_made hu hr hc.1 hd) fun _ => ends_bind ends_pure fun _ =>
      ends_bind (ends_orAbort hc.2.2.1) fun _ => ends_emit) fun _ => ends_setTempOff
  | .wait q (some w) label nb un, hc, _, hd => by
    simp only [definedStmt, definedOpt, needs_and] at hd
    exact ends_bind (ends_bind (value_made hu hr hc.1 hd.1) fun _ =>
      ends_bind (value_made hu hr (hc.2.2.2 w rfl).1 hd.2) fun _ => ends_bind (ends_orAbort hc.2.2.1)
      fun _ => ends_emit) fun _ => ends_setTempOff
  | .wlab _ _, _, _, _ => ends_bind ends_emit fun _ => ends_setTempOff
  | .expr e, hc, _, hd =>
    ends_bind (made_of_defined hu hr e false hc hd).1 fun _ => ends_bind ends_emit fun _ =>
      ends_setTempOff
theorem stmts_made (hu : InUnit tops f cx) (hr : Resolves locs tops) (ret : RetTy) : ∀ (b : TStmts),
    CheckedStmts (KnownIn tops f) ret b → stmtsLocals b ⊆ stmtsLocals f.stmts → Needs E (definedStmts b) →
      Ends E (genStmts cx b)
  | .nil, _, _, _ => ends_pure
  | .cons s rest, hc, hs, hd => by
    obtain ⟨hss, hsr⟩ := List.append_subset.mp hs
    simp only [definedStmts, needs_and] at hd
    exact ends_bind (stmt_made hu hr ret s hc.1 hss hd.1) fun _ => stmts_made hu hr ret rest hc.2 hsr hd.2
theorem elifs_made (hu : InUnit tops f cx) (hr : Resolves locs tops) (ret : RetTy) : ∀ (b : TElifs),
    CheckedElifs (KnownIn tops f) ret b → elifsLocals b ⊆ stmtsLocals f.stmts → Needs E (definedElifs b) →
      ∀ prev, Ends E (genElifs cx prev b)
  | .none, _, _, _, _ => ends_bind ends_patchJmp fun _ => ends_pure
  | .els b, hc, hs, hd, _ => ends_bind ends_patchJmp fun _ =>
      ends_bind (stmts_made hu hr ret b hc hs hd) fun _ => ends_pure
  | .elif e b rest, hc, hs, hd, _ => by
    obtain ⟨hsb, hsr⟩ := List.append_subset.mp hs
    simp only [definedElifs, needs_and] at hd
    exact ends_bind ends_patchJmp fun _ => ends_bind (value_made hu hr hc.1 hd.1.1) fun _ =>
      ends_bind ends_getIp fun _ => ends_bind ends_emit fun _ => ends_bind ends_setTempOff fun _ =>
      ends_bind (stmts_made hu hr ret b hc.2.1 hsb hd.1.2) fun _ => ends_bind ends_getIp fun _ =>
      ends_bind ends_emit fun _ => ends_bind (elifs_made hu hr ret rest hc.2.2 hsr hd.2 _) fun _ =>
      ends_pure
end

end Statements

/-! ### The addresses of functions -/

section Resolved

variable {cx : Cx} {tops : List TTop} {f : TFunc} {locs : List (Nat × Nat)} {x : Item} {r : Option Opd}
  {p p' : Pt} {code c1 c2 : List Insn} {i : Insn} {a : Opd} {t : Ty}

/-- What an instruction calls, or makes a quaint of. -/
@[simp] def starts : Insn → Option Opd
  | .call loc _ | .callv _ loc _ | .qnt _ loc _ => some loc
  | _ => none

/-- The address of every function in the code is found, and what is called can be. -/
def ResolvedCode (locs : List (Nat × Nat)) (code : List Insn) : Prop :=
  ∀ i ∈ code, (∀ a ∈ i.opds, opdResolved locs a = true) ∧ ∀ a, starts i = some a → Starts a

@[simp] lemma resolvedCode_nil : ResolvedCode locs [] := by simp [ResolvedCode]

@[simp] lemma resolvedCode_append :
    ResolvedCode locs (c1 ++ c2) ↔ ResolvedCode locs c1 ∧ ResolvedCode locs c2 :=
  List.forall_mem_append

@[simp] lemma resolvedCode_cons :
    ResolvedCode locs (i :: code) ↔ ((∀ a ∈ i.opds, opdResolved locs a = true) ∧
      ∀ a, starts i = some a → Starts a) ∧ ResolvedCode locs code := by
  simp [ResolvedCode]

@[simp] lemma resolved_temp {s : Bool} {size : Nat} : opdResolved locs (p.temp s size) = true :=
  resolved_of_ne (.inl (by simp [Pt.temp]))

@[simp] lemma resolved_word : opdResolved locs p.word = true := resolved_temp

@[simp] lemma resolved_imm {s : Bool} {v size : Nat} (h : size ≠ 0) :
    opdResolved locs (opdImm s v size) = true := resolved_of_ne (.inr h)

@[simp] lemma resolved_setDirect : opdResolved locs a.setDirect = true :=
  resolved_of_ne (.inr (by simp [Opd.setDirect]))

@[simp] lemma resolved_auto {s : Bool} {off size : Nat} : opdResolved locs (opdAuto s off size) = true :=
  resolved_of_ne (.inl (by simp [opdAuto]))

@[simp] lemma resolved_glob {s : Bool} {off size : Nat} : opdResolved locs (opdGlob s off size) = true :=
  resolved_of_ne (.inl (by simp [opdGlob]))

lemma scaled_resolved {m : Nat} {b : Opd} (hs : Scaled p m a code b p') (ha : opdResolved locs a = true) :
    ResolvedCode locs code ∧ opdResolved locs b = true := by
  cases hs <;> simp [ha, Insn.opds]

lemma indexed_resolved {m k : Nat} {b : Opd} (hs : Indexed p m k a code b p')
    (ha : opdResolved locs a = true) : ResolvedCode locs code ∧ opdResolved locs b = true := by
  cases hs <;> simp [ha, Insn.opds]

lemma fetched_resolved {b : Opd} (hs : Fetched p a code b p') (ha : opdResolved locs a = true) :
    ResolvedCode locs code ∧ opdResolved locs b = true := by
  cases hs <;> simp [ha, Insn.opds]

lemma base_resolved {b : Opd} (hs : Base p a code b p') (ha : opdResolved locs a = true) :
    ResolvedCode locs code ∧ opdResolved locs b = true := by
  cases hs <;> simp [ha, Insn.opds]

lemma inits_resolved {ns : List Sym} (hi : Inits cx t a ns code) (ha : opdResolved locs a = true) :
    ResolvedCode locs code := by
  induction hi with
  | nil => simp
  | cons n ns ofs code hn h ih => simp [ih, ha, Insn.opds]

/-- **The code of a checked item has no address that is not found.** -/
theorem resolved_item (hu : InUnit tops f cx) (hr : Resolves locs tops) (h : Emit cx x p code r p')
    (hc : ItemChecked (KnownIn tops f) (stmtsLocals f.stmts) x) : ResolvedCode locs code := by
  have hop {e : TExpr} {n : Bool} {p p' : Pt} {code : List Insn} {a : Opd}
      (h : Emit cx (.expr e n) p code (some a) p') (hc : Checked (KnownIn tops f) e) :
      opdResolved locs a = true := (emit_item hu hr h hc).resolved
  have hst {e : TExpr} {n : Bool} {p p' : Pt} {code : List Insn} {a : Opd} {ps : Fields} {ret : RetTy}
      (h : Emit cx (.expr e n) p code (some a) p') (hc : Checked (KnownIn tops f) e)
      (ht : typeOfExpr e = .fptr 1 ps ret) : Starts a := (emit_item hu hr h hc).func (by rw [ht]; rfl)
  induction h with
  | assn hl hr' ihl ihr | asmu _ hl hr' ihl ihr =>
    simp [ihl hc.2.1, ihr hc.2.2, Insn.opds, hop hl hc.2.1, hop hr' hc.2.2]
  | plus _ hl hr' hs _ ihl ihr | aspl _ hl hr' hs _ ihl ihr =>
    obtain ⟨h1, h2⟩ := scaled_resolved hs (hop hr' hc.2.2)
    simp [ihl hc.2.1, ihr hc.2.2, Insn.opds, hop hl hc.2.1, h1, h2]
  | conj hop' hl ht hr' ihl ihr =>
    simp [ihl hc.2.1, ihr hc.2.2, Insn.opds, hop hl hc.2.1, hop hr' hc.2.2, ht]
  | coma hl hr' ihl ihr => simp [ihl hc.2.1, ihr hc.2.2]
  | equl hop' hl hr' ht ihl ihr =>
    obtain ⟨neq, rfl⟩ | ⟨cop, rfl⟩ | ⟨aop, rfl⟩ := bexpInsn_cases hop' <;>
      simp [ihl hc.2.1, ihr hc.2.2, Insn.opds, hop hl hc.2.1, hop hr' hc.2.2]
  | scop | szof | name | nmbr => simp
  | atsi hl _ _ ih => simp [ih hc.2, Insn.opds, hop hl hc.2]
  | memb hl _ _ ih => exact ih hc.2
  | membIndirect hl _ _ ih => simp [ih hc.2, Insn.opds]
  | arow _ hl hf _ ih =>
    obtain ⟨h1, h2⟩ := fetched_resolved hf (hop hl hc.2)
    simp [ih hc.2, Insn.opds, h1, h2]
  | cast hl _ ih => simp [ih hc.2.2.2, Insn.opds, hop hl hc.2.2.2]
  | tildCall _ ha hl iha ihl =>
    obtain ⟨-, params, ret, hty, -, hcl, hca⟩ := hc
    simp [iha ⟨_, hca⟩, ihl hcl, Insn.opds, hop hl hcl, hst hl hcl hty]
  | tild _ _ h ih => simp [ih hc.2, Insn.opds, hop h hc.2]
  | uplus h ih => exact ih hc.2
  | unary hop' h _ ih =>
    obtain ⟨-, -, -, hk⟩ := unary_checked hop' hc.1
    obtain ⟨rfl, -⟩ | ⟨rfl, -⟩ | ⟨rfl, -⟩ := hk <;> simp [ih hc.2, Insn.opds, hop h hc.2]
  | multLvalue _ h ih => exact ih hc.2
  | multRvalue _ h _ ih | multValue _ h _ ih | multVoid _ h _ ih =>
    simp [ih hc.2, Insn.opds, hop h hc.2]
  | amps h _ ih => simp [ih hc.2, Insn.opds, hop h hc.2]
  | incr _ h _ ih => simp [ih hc.2, Insn.opds, hop h hc.2]
  | incrBy hop' h _ ih =>
    obtain ⟨-, hs, rfl⟩ := incr_checked hop' hc.1
    simp [ih hc.2, Insn.opds, hop h hc.2, bytes_pos_of_scalar hs]
  | callv _ ha hl iha ihl | call _ ha hl iha ihl =>
    obtain ⟨params, ret, hty, -, hcl, hca⟩ := hc
    simp [iha ⟨_, hca⟩, ihl hcl, Insn.opds, hop hl hcl, hst hl hcl hty]
  | xexp h _ _ ih => simp [ih hc.2, Insn.opds, hop h hc.2]
  | xexpBy h _ ht ih => simp [ih hc.2, Insn.opds, hop h hc.2, ht]
  | aexp hb ho hi ha ihb iho =>
    obtain ⟨h1, h2⟩ := indexed_resolved hi (hop ho hc.2.2)
    obtain ⟨h3, h4⟩ := base_resolved ha (hop hb hc.2.1)
    simp [ihb hc.2.1, iho hc.2.2, Insn.opds, h1, h2, h3, h4]
  | texp hc' _ htv hfv ihc iht ihf =>
    obtain ⟨-, hcc, hct, hcf⟩ := hc
    simp [ihc hcc, iht hct, ihf hcf, Insn.opds, hop hc' hcc, hop htv hct, hop hfv hcf]
  | strl => simp [Insn.opds]
  | argsNil | decl | stmtsNil | elifsNone => simp
  | argsCons h hr' ih ihr =>
    obtain ⟨ps, hc⟩ := hc
    cases ps with
    | nil => exact hc.elim
    | cons nm pt ps => simp [ih hc.1, ihr ⟨ps, hc.2.2⟩, Insn.opds, hop h hc.1]
  | declInit h hi ih =>
    obtain ⟨⟨ret, -, -, hce⟩, -⟩ := hc
    simp [ih (hce _ rfl).1, inits_resolved hi (hop h (hce _ rfl).1)]
  | cond he hb hr' ihe ihb ihr | elif he hb hr' ihe ihb ihr =>
    obtain ⟨⟨ret, hce, hcb, hcr⟩, hsub⟩ := hc
    obtain ⟨hsb, hsr⟩ := List.append_subset.mp hsub
    simp [ihe hce, ihb ⟨⟨_, hcb⟩, hsb⟩, ihr ⟨⟨_, hcr⟩, hsr⟩, Insn.opds, hop he hce]
  | blok h ih | els h ih =>
    obtain ⟨⟨ret, hcb⟩, hsub⟩ := hc
    exact ih ⟨⟨ret, hcb⟩, hsub⟩
  | noin h ih =>
    obtain ⟨⟨ret, hcb⟩, hsub⟩ := hc
    simp [ih ⟨⟨ret, hcb⟩, hsub⟩, Insn.opds]
  | whil he hb ihe ihb | dowh hb he ihb ihe =>
    obtain ⟨⟨ret, hce, hcb⟩, hsub⟩ := hc
    simp [ihe hce, ihb ⟨⟨_, hcb⟩, hsub⟩, Insn.opds, hop he hce]
  | retn => simp [Insn.opds, retSize]
  | retnValue h ih =>
    obtain ⟨⟨ret, hret⟩, -⟩ := hc
    have hce := checked_retn hret
    simp [ih hce, Insn.opds, retSize, hop h hce]
  | wait hq _ ih =>
    obtain ⟨⟨ret, hcq, -⟩, -⟩ := hc
    simp [ih hcq, Insn.opds, hop hq hcq]
  | waitFor hq hf _ ihq ihf =>
    obtain ⟨⟨ret, hcq, -, -, hcf⟩, -⟩ := hc
    simp [ihq hcq, ihf (hcf _ rfl).1, Insn.opds, hop hq hcq, hop hf (hcf _ rfl).1]
  | wlab => simp [Insn.opds]
  | exprStmt h ih =>
    obtain ⟨⟨ret, hce⟩, -⟩ := hc
    simp [ih hce, Insn.opds]
  | stmtsCons hs hr' ihs ihr =>
    obtain ⟨⟨ret, hcs, hcr⟩, hsub⟩ := hc
    obtain ⟨hss, hsr⟩ := List.append_subset.mp hsub
    simp [ihs ⟨⟨_, hcs⟩, hss⟩, ihr ⟨⟨_, hcr⟩, hsr⟩]

end Resolved

/-! ### Units -/

section Units

variable {E : GenErr → Prop} {tops : List TTop} {dataSize : Nat} {globals : Layout}

/-- A table with every function in it. -/
def anyLocs (tops : List TTop) : List (Nat × Nat) :=
  tops.filterMap fun t => match t with
    | .func f => some (nodeAddr f.name, 0)
    | _ => none

lemma anyLocs_resolves : Resolves (anyLocs tops) tops := by
  intro g hg
  rw [List.lookup_isSome_iff]
  exact ⟨(nodeAddr g.name, 0), List.mem_filterMap.mpr ⟨.func g, hg, rfl⟩, by simp⟩

lemma func_made {f : TFunc} {cx : Cx} (hu : InUnit tops f cx) (hd : Needs E (definedStmts f.stmts)) :
    Ends E (genFunc cx f) :=
  ends_bind ends_getIp fun _ => ends_bind ends_emit fun _ => ends_bind (ends_of_ok fun _ => rfl)
    fun _ => ends_bind (stmts_made hu anyLocs_resolves _ _ (hu.accepted.checked f hu.func)
      (List.Subset.refl _) hd) fun _ => ends_bind (ends_of_ok fun _ => rfl) fun _ =>
    ends_bind ends_patch fun _ => ends_bind ends_emit fun _ => ends_pure

lemma tops_made (hA : Accepted tops) {rest : List TTop} (hsub : rest ⊆ tops)
    (hd : Needs E (definedTops rest)) :
    Ends E (genTops (globalsOf tops).size (globalsOf tops).layout rest) := by
  induction rest with
  | nil => exact ends_pure
  | cons t rest ih =>
    rw [definedTops, List.all_cons, needs_and] at hd
    have ih' := ih (fun x hx => hsub (List.mem_cons_of_mem _ hx)) hd.2
    cases t with
    | func f =>
      exact ends_bind (func_made ⟨hA, hsub List.mem_cons_self, rfl, rfl, rfl⟩ hd.1) fun _ =>
        ends_bind ih' fun _ => ends_pure
    | skip => exact ih'
    | decl names t => exact ih'

lemma fn_resolved (hA : Accepted tops) {fns : List Fn} {p p' : Pt}
    (hp : Placed dataSize globals tops p fns p') {fn : Fn} (hfn : fn ∈ fns)
    (hd : dataSize = (globalsOf tops).size) (hg : globals = (globalsOf tops).layout) :
    ResolvedCode (locsOf fns) fn.code := by
  subst hd hg
  have hu : InUnit tops fn.func (fn.cx (globalsOf tops).size (globalsOf tops).layout) :=
    ⟨hA, placed_func hp hfn, rfl, rfl, rfl⟩
  have hbody := resolved_item hu (resolves_of_placed hp) (placed_at hp hfn).1
    ⟨⟨_, hA.checked _ hu.func⟩, List.Subset.refl _⟩
  simp [Fn.code, hbody, Fn.incsp, Fn.ret, Insn.opds]

/-- **How code generation ends**: with an object, or with an error the conditions keep away. The
addresses of functions are always found. -/
theorem create_ends (hA : Accepted tops) (hd : Needs E (definedTops tops)) :
    (∃ o, codegenObjCreate tops = .ok o) ∨ ∃ e, codegenObjCreate tops = .error e ∧ E e := by
  rcases tops_made hA (List.Subset.refl _) hd ⟨List.replicate scopeBfunIdCount .bfun, [], 0, 0, 0⟩ with
    ⟨locs, st, hg⟩ | ⟨e, hg, he⟩
  · obtain ⟨fns, N, hp, rfl, hi⟩ := tops_ok hg []
    have hall : (st.insns.all fun i => i.opds.all (opdResolved (locsOf fns))) = true := by
      simp only [hi, List.all_append, Bool.and_eq_true, List.all_eq_true]
      refine ⟨fun i hm => ?_, fun i hm => ?_⟩
      · rw [(List.mem_replicate.mp hm).2]
        simp [Insn.opds]
      · obtain ⟨fn, hfn, hm⟩ := List.mem_flatMap.mp hm
        exact (fn_resolved hA hp hfn rfl rfl i hm).1
    have hg' : genTops (globalFrame tops ⟨0, []⟩).size (globalFrame tops ⟨0, []⟩).layout tops
        ⟨List.replicate scopeBfunIdCount .bfun, [], 0, 0, 0⟩ = .ok (locsOf fns, st) := hg
    refine .inl ⟨⟨(globalsOf tops).size, st.strings, st.insns.map (link fns)⟩, ?_⟩
    rw [codegenObjCreate]
    simp only [hg', hall, if_true]
    rfl
  · have hg' : genTops (globalFrame tops ⟨0, []⟩).size (globalFrame tops ⟨0, []⟩).layout tops
        ⟨List.replicate scopeBfunIdCount .bfun, [], 0, 0, 0⟩ = .error e := hg
    refine .inr ⟨e, ?_, he⟩
    rw [codegenObjCreate]
    simp only [hg']

/-- The condition on a unit the checker accepts. -/
def defined (u : Ast.Unit) : Bool :=
  match accept u with
  | some tops => definedTops tops
  | none => false

/-- **The programs with code.** The generator makes an object of an accepted unit if and only if
no call or reap without a value is used as one, and nothing of size zero needs a temporary. -/
theorem compiles_iff_defined {u : Ast.Unit} (h : (accept u).isSome = true) :
    (∃ o, Compiles u o) ↔ defined u = true := by
  obtain ⟨tops, ha⟩ := Option.isSome_iff_exists.mp h
  have hA := accepted_of_accept ha
  have hcompiles : ∀ o, Compiles u o ↔ codegenObjCreate tops = .ok o := by
    intro o
    simp [Compiles, compile, ha]
  simp only [hcompiles, defined, ha]
  constructor
  · rintro ⟨o, ho⟩
    obtain ⟨fns, hl⟩ := listed_of_create ho
    obtain ⟨p, hp, -⟩ := hl.placed
    rw [definedTops, List.all_eq_true]
    intro t ht
    cases t with
    | func f =>
      obtain ⟨fn, hfn, rfl⟩ := placed_of_func hp ht
      exact defined_of_emit (placed_at hp hfn).1
    | skip => rfl
    | decl names t => rfl
  · intro hd
    rcases create_ends (E := fun _ => False) hA (.inl hd) with ho | ⟨_, -, he⟩
    · exact ho
    · exact he.elim

/-- `m { if (f()) { } } f { }` -/
def voidCond : Ast.Unit :=
  ⟨[],
    [.func ⟨false, letter 109 0, .nil, .none,
       .cons (.cond (.fexp (.name (letter 102 8)) .nil) .nil .none) .nil⟩,
     .func ⟨false, letter 102 18, .nil, .none, .nil⟩]⟩

/-- A condition without a value is accepted, and the generator reads a result never set. -/
theorem voidCond_unset : (accept voidCond).isSome = true ∧ ¬ ∃ o, Compiles voidCond o := by
  have hc : compile voidCond = some (.error .unset) := by decide +kernel
  refine ⟨by decide +kernel, ?_⟩
  rintro ⟨o, ho⟩
  rw [Compiles, hc] at ho
  cases ho

/-- `m { f(); } f { }` -/
def voidCall : Ast.Unit :=
  ⟨[],
    [.func ⟨false, letter 109 0, .nil, .none, .cons (.expr (.fexp (.name (letter 102 4)) .nil)) .nil⟩,
     .func ⟨false, letter 102 11, .nil, .none, .nil⟩]⟩

theorem voidCall_compiles : ∃ o, Compiles voidCall o :=
  (compiles_iff_defined (by decide +kernel)).mpr (by decide +kernel)

end Units

end Quaint.Defined
