import Mathlib
import Quaint.Bounds
import Quaint.Quantify

/-!
What lies where in the storage: the variables of a function in its frame, those of the unit
in the data, and each string in a place of its own behind the data.
-/

namespace Quaint.Storage

open Types Ast Scope TypeCheck Code Codegen Bytes Step Program Typing Layout Quantify Emit Listing
open Operand Bounds

/-! ### Declared types -/

section Declared

variable {K : ScopeObj → Ty → Prop} {ret : RetTy}

mutual
lemma stmtLocals_valid : ∀ s : TStmt, CheckedStmt K ret s → ∀ d ∈ stmtLocals s, d.2.valid = true
  | .decl _ _ _, h, d, hd => by
    rw [List.mem_singleton.mp hd]
    exact h.2.1
  | .cond _ b rest, h, d, hd => by
    rcases List.mem_append.mp hd with hd | hd
    · exact stmtsLocals_valid b h.2.1 d hd
    · exact elifsLocals_valid rest h.2.2 d hd
  | .blok b, h, d, hd | .noin b, h, d, hd => stmtsLocals_valid b h d hd
  | .whil _ b, h, d, hd | .dowh b _, h, d, hd => stmtsLocals_valid b h.2 d hd
  | .retn _, _, _, hd | .wait _ _ _ _ _, _, _, hd | .wlab _ _, _, _, hd | .expr _, _, _, hd => by cases hd
lemma stmtsLocals_valid : ∀ b : TStmts, CheckedStmts K ret b → ∀ d ∈ stmtsLocals b, d.2.valid = true
  | .nil, _, _, hd => by cases hd
  | .cons s rest, h, d, hd => by
    rcases List.mem_append.mp hd with hd | hd
    · exact stmtLocals_valid s h.1 d hd
    · exact stmtsLocals_valid rest h.2 d hd
lemma elifsLocals_valid : ∀ r : TElifs, CheckedElifs K ret r → ∀ d ∈ elifsLocals r, d.2.valid = true
  | .none, _, _, hd => by cases hd
  | .els b, h, d, hd => stmtsLocals_valid b h d hd
  | .elif _ b rest, h, d, hd => by
    rcases List.mem_append.mp hd with hd | hd
    · exact stmtsLocals_valid b h.2.1 d hd
    · exact elifsLocals_valid rest h.2.2 d hd
end

lemma vars_valid {ds : List (List Sym × Ty)} (h : ∀ d ∈ ds, d.2.valid = true) :
    ∀ v ∈ ds.flatMap declVars, v.2.valid = true := by
  intro v hv
  obtain ⟨d, hd, hv⟩ := List.mem_flatMap.mp hv
  obtain ⟨n, -, rfl⟩ := List.mem_map.mp hv
  exact h d hd

end Declared

/-! ### Variables -/

def Apart (a b : Ofs) : Prop := a.off + a.size ≤ b.off ∨ b.off + b.size ≤ a.off

/-- The variables lie aligned inside the size, each apart from every other one. -/
structure VarsLaid (vs : List Var) (layout : Layout) (size : Nat) : Prop where
  inside : ∀ v ∈ vs, ∃ ofs, htabGet layout v.1 = some ofs ∧ ofs.size = v.2.count * v.2.size ∧
    v.2.alignment ∣ ofs.off ∧ ofs.off + ofs.size ≤ size
  apart : vs.Pairwise fun v w => ∀ a b, htabGet layout v.1 = some a → htabGet layout w.1 = some b →
    Apart a b

section Vars

variable {fr : Frame} {vs : List Var} {layout : Layout} {size : Nat}

lemma frameFits_mem {step : Nat → Var → Nat} {n : Nat} (h : frameFits step vs n = true) :
    ∀ v ∈ vs, fits v.2 = true := by
  induction vs generalizing n with
  | nil => simp
  | cons w ws ih =>
    simp only [frameFits, Bool.and_eq_true] at h
    intro v hv
    rcases List.mem_cons.mp hv with rfl | hv
    · exact h.1.1
    · exact ih h.2 v hv

lemma vars_aligned (h : FrameOk fr) (hfit : frameFits varEnd vs fr.size = true)
    (hv : ∀ v ∈ vs, v.2.valid = true) :
    ∀ v ∈ vs, ∃ off, (v.1.beg, ⟨off, v.2.bytes⟩) ∈ (layoutVars vs fr).layout ∧ v.2.alignment ∣ off := by
  induction vs generalizing fr with
  | nil => simp
  | cons w ws ih =>
    simp only [frameFits, Bool.and_eq_true, decide_eq_true_eq] at hfit
    obtain ⟨hok, hsize⟩ := layoutVar_ok h hfit.1.2
    rw [← hsize] at hfit
    intro v hm
    rcases List.mem_cons.mp hm with rfl | hm
    · have hpos := Nat.pos_of_dvd_of_pos (alignment_dvd _ (hv v List.mem_cons_self)) (by decide)
      have hlt : alignUp fr.size v.2.alignment < 2 ^ 64 := by
        have := hfit.1.2
        rw [hsize, varEnd] at this
        omega
      refine ⟨_, (foldl_layout (f := layoutVar fr v) layoutVar_step).2.1 List.mem_cons_self, ?_⟩
      rw [wrap64_of_lt hlt]
      exact Nat.dvd_of_mod_eq_zero (alignUp_mod hpos)
    · exact ih hok hfit.2 (fun v h => hv v (List.mem_cons_of_mem _ h)) v hm

/-- A parameter lies at a multiple of a word, and so of its alignment. -/
lemma pars_aligned (h : FrameOk fr) (hfit : frameFits parEnd vs fr.size = true)
    (hv : ∀ v ∈ vs, v.2.valid = true) (hword : 8 ∣ fr.size) :
    ∀ v ∈ vs, ∃ off, (v.1.beg, ⟨off, v.2.bytes⟩) ∈ (vs.foldl layoutPar fr).layout ∧
      v.2.alignment ∣ off := by
  induction vs generalizing fr with
  | nil => simp
  | cons w ws ih =>
    simp only [frameFits, Bool.and_eq_true, decide_eq_true_eq] at hfit
    obtain ⟨hok, hsize, hmem⟩ := layoutPar_ok h hfit.1.2
    have hnext : 8 ∣ (layoutPar fr w).size := by
      rw [hsize]
      exact Nat.dvd_of_mod_eq_zero (alignUp_mod (by decide))
    rw [← hsize] at hfit
    intro v hm
    rcases List.mem_cons.mp hm with rfl | hm
    · exact ⟨_, (foldl_layout (f := layoutPar fr v) layoutPar_step).2.1 hmem,
        Nat.dvd_trans (alignment_dvd _ (hv v List.mem_cons_self)) hword⟩
    · exact ih hok hfit.2 (fun v h => hv v (List.mem_cons_of_mem _ h)) hnext v hm

lemma varsLaid_of_layout (hkeys : (keys layout).Nodup) (hnames : (vs.map fun v => v.1.beg).Nodup)
    (hin : ∀ e ∈ layout, e.2.off + e.2.size ≤ size)
    (hap : layout.Pairwise fun a b => b.2.off + b.2.size ≤ a.2.off) (hfit : ∀ v ∈ vs, fits v.2 = true)
    (h : ∀ v ∈ vs, ∃ off, (v.1.beg, ⟨off, v.2.bytes⟩) ∈ layout ∧ v.2.alignment ∣ off) :
    VarsLaid vs layout size := by
  constructor
  · intro v hv
    obtain ⟨off, hmem, hdvd⟩ := h v hv
    exact ⟨_, htabGet_of_mem hkeys hmem, bytes_of_fits (hfit v hv), hdvd, hin _ hmem⟩
  · refine (List.pairwise_map.mp hnames).imp fun {v w} hne a b ha hb => ?_
    have hsymm : Std.Symm fun a b : Nat × Ofs => Apart a.2 b.2 := ⟨fun _ _ => Or.symm⟩
    have hpair : layout.Pairwise fun a b => Apart a.2 b.2 := hap.imp Or.inr
    refine hpair.forall (mem_of_htabGet ha) (mem_of_htabGet hb) fun he => ?_
    exact hne (congrArg Prod.fst he)

end Vars

section Units

variable {tops : List TTop} {f : TFunc}

/-- The parameters and variables of a function have different names. -/
lemma vars_nodup (hA : Accepted tops) (hf : TTop.func f ∈ tops) :
    ((f.params.toList ++ localVars f).map fun v => v.1.beg).Nodup := by
  have hkeys := func_keys hA hf
  rw [funcTag_layout, layoutVars, (foldl_layout layoutVar_step).1, (foldl_layout layoutPar_step).1]
    at hkeys
  rw [keys, List.map_nil, List.append_nil, ← List.reverse_append, List.nodup_reverse] at hkeys
  rw [List.map_append]
  exact hkeys

/-- The frame of a function that fits. -/
lemma laid_of_fits (hA : Accepted tops) (hfit : funcFits f = true) (hf : TTop.func f ∈ tops) :
    VarsLaid (f.params.toList ++ localVars f) (funcTag f).layout (funcTag f).frameSize := by
  have hgood := goodFrame_of_fits hfit
  simp only [funcFits, Bool.and_eq_true] at hfit
  obtain ⟨⟨h1, h2⟩, -⟩ := hfit
  obtain ⟨hp, hps, -⟩ := parsFit_ok frameOk_nil h1
  have hlocals := vars_valid (stmtsLocals_valid _ (hA.checked f hf))
  refine varsLaid_of_layout (func_keys hA hf) (vars_nodup hA hf) hgood.inside hgood.apart ?_ ?_
  · intro v hv
    rcases List.mem_append.mp hv with hv | hv
    · exact frameFits_mem h1 v hv
    · exact frameFits_mem h2 v hv
  · intro v hv
    rw [funcTag_layout]
    rcases List.mem_append.mp hv with hv | hv
    · obtain ⟨off, hmem, hdvd⟩ := pars_aligned frameOk_nil h1 (fields_valid (hA.params f hf).1)
        (Nat.dvd_zero 8) v hv
      exact ⟨off, (foldl_layout layoutVar_step).2.1 hmem, hdvd⟩
    · rw [← show (f.params.toList.foldl layoutPar ⟨0, []⟩).size = _ from hps] at h2
      exact vars_aligned hp h2 hlocals v hv

/-- **The parameters and variables of a function lie apart in its frame.** -/
theorem func_laid (hA : Accepted tops) (hs : sizesFit tops = true) (hf : TTop.func f ∈ tops) :
    VarsLaid (f.params.toList ++ localVars f) (funcTag f).layout (funcTag f).frameSize :=
  laid_of_fits hA (func_fits hs hf) hf

lemma decl_of_globalDecls {d : List Sym × Ty} (h : d ∈ globalDecls tops) : TTop.decl d.1 d.2 ∈ tops := by
  induction tops with
  | nil => cases h
  | cons t rest ih =>
    cases t with
    | decl names t =>
      rcases List.mem_cons.mp h with rfl | h
      · exact List.mem_cons_self
      · exact List.mem_cons_of_mem _ (ih h)
    | _ => exact List.mem_cons_of_mem _ (ih h)

/-- **The variables of the unit lie apart in the data.** -/
theorem globals_laid (hA : Accepted tops) (hs : sizesFit tops = true) :
    VarsLaid (globalVars tops) (globalsOf tops).layout (globalsOf tops).size := by
  have hok := globals_ok hs
  have hkeys := global_keys hA
  simp only [sizesFit, Bool.and_eq_true] at hs
  refine varsLaid_of_layout hkeys ?_ hok.inside hok.apart (frameFits_mem hs.1) ?_
  · rw [global_keys_eq, List.nodup_reverse] at hkeys
    exact hkeys
  · rw [globalsOf, globalFrame_eq]
    exact vars_aligned frameOk_nil hs.1
      (vars_valid fun d hd => (hA.globals _ _ (decl_of_globalDecls hd)).2)

end Units

/-! ### Strings -/

mutual
/-- The string literals of an expression, in the order of the code. -/
def exprStrls : TExpr → List (List UInt8)
  | .bexp _ l r _ => exprStrls l ++ exprStrls r
  | .atsi l _ _ | .memb l _ _ | .arow l _ _ | .cast l _ _ | .uexp _ l _ | .xexp _ l _ => exprStrls l
  | .fexp l as _ => argsStrls as ++ exprStrls l
  | .aexp b o _ => exprStrls b ++ exprStrls o
  | .texp c t f _ => exprStrls c ++ exprStrls t ++ exprStrls f
  | .strl s _ => [s]
  | .scop _ _ | .szof _ _ _ | .name _ _ | .nmbr _ _ => []
def argsStrls : TArgs → List (List UInt8)
  | .nil => []
  | .cons a rest => exprStrls a ++ argsStrls rest
end

def optStrls : Option TExpr → List (List UInt8)
  | none => []
  | some e => exprStrls e

mutual
def stmtStrls : TStmt → List (List UInt8)
  | .decl _ _ init => optStrls init
  | .cond e b rest => exprStrls e ++ stmtsStrls b ++ elifsStrls rest
  | .blok b | .noin b => stmtsStrls b
  | .whil e b => exprStrls e ++ stmtsStrls b
  | .dowh b e => stmtsStrls b ++ exprStrls e
  | .retn e => optStrls e
  | .wait q f _ _ _ => exprStrls q ++ optStrls f
  | .wlab _ _ => []
  | .expr e => exprStrls e
def stmtsStrls : TStmts → List (List UInt8)
  | .nil => []
  | .cons s rest => stmtStrls s ++ stmtsStrls rest
def elifsStrls : TElifs → List (List UInt8)
  | .none => []
  | .els b => stmtsStrls b
  | .elif e b rest => exprStrls e ++ stmtsStrls b ++ elifsStrls rest
end

def itemStrls : Item → List (List UInt8)
  | .expr e _ => exprStrls e
  | .args as => argsStrls as
  | .stmt s => stmtStrls s
  | .stmts b => stmtsStrls b
  | .elifs r _ => elifsStrls r

/-- The literals of the functions of a unit. -/
def unitStrls (tops : List TTop) : List (List UInt8) :=
  tops.flatMap fun t => match t with
    | .func f => stmtsStrls f.stmts
    | _ => []

/-- The strings one after the other, each with its terminator. -/
def pool (ss : List (List UInt8)) : List UInt8 := ss.flatMap (· ++ [0])

/-- The strings with the places where they begin, the first one at `base`. -/
def places : Nat → List (List UInt8) → List (Nat × List UInt8)
  | _, [] => []
  | base, s :: rest => (base, s) :: places (base + s.length + 1) rest

/-- The instruction takes the address of the string. -/
def RefersTo (e : Nat × List UInt8) (i : Insn) : Prop := ∃ w, i = .ref w (opdGlob false e.1 1)

/-- What it takes is that address modulo `2 ^ 64`. -/
def RefersMod (e : Nat × List UInt8) (i : Insn) : Prop := RefersTo (wrap64 e.1, e.2) i

/-- The code takes the addresses of the strings, in their order. -/
abbrev Refs (base : Nat) (ss : List (List UInt8)) (code : List Insn) : Prop :=
  List.SublistForall₂ RefersMod (places base ss) code

/-- The strings are put behind those there were, and the code refers to them there. -/
def Strung (dataSize : Nat) (ss : List (List UInt8)) (strings : List UInt8) (code : List Insn)
    (strings' : List UInt8) : Prop :=
  strings' = strings ++ pool ss ∧ Refs (dataSize + strings.length) ss code

section Strings

variable {cx : Cx} {x : Item} {p p' : Pt} {code c1 c2 : List Insn} {r : Option Opd} {a b : Opd}
  {ss s1 s2 : List (List UInt8)} {d base : Nat} {str str1 str2 : List UInt8}

lemma pool_append : pool (s1 ++ s2) = pool s1 ++ pool s2 := List.flatMap_append

lemma places_append : places base (s1 ++ s2) = places base s1 ++ places (base + (pool s1).length) s2 := by
  induction s1 generalizing base with
  | nil => rfl
  | cons s rest ih =>
    have hlen : base + s.length + 1 + (pool rest).length = base + (pool (s :: rest)).length := by
      simp only [pool, List.flatMap_cons, List.length_append, List.length_cons, List.length_nil]
      omega
    rw [List.cons_append, places, ih, hlen]
    rfl

lemma refs_append (h1 : Refs base s1 c1) (h2 : Refs (base + (pool s1).length) s2 c2) :
    Refs base (s1 ++ s2) (c1 ++ c2) := by
  rw [Refs, places_append]
  obtain ⟨l1, hl1, hs1⟩ := List.sublistForall₂_iff.mp h1
  obtain ⟨l2, hl2, hs2⟩ := List.sublistForall₂_iff.mp h2
  exact List.sublistForall₂_iff.mpr ⟨l1 ++ l2, List.rel_append hl1 hl2, hs1.append hs2⟩

lemma strung_nil : Strung d [] str code str := ⟨(List.append_nil _).symm, .nil⟩

lemma Strung.append (h1 : Strung d s1 str c1 str1) (h2 : Strung d s2 str1 c2 str2) :
    Strung d (s1 ++ s2) str (c1 ++ c2) str2 := by
  refine ⟨by rw [h2.1, h1.1, pool_append, List.append_assoc], refs_append h1.2 ?_⟩
  have h := h2.2
  rw [h1.1, List.length_append, ← Nat.add_assoc] at h
  exact h

/-- Code that refers to no string may follow. -/
lemma Strung.tail (h : Strung d ss str c1 str1) : Strung d ss str (c1 ++ c2) str1 := by
  have hnil : Strung d [] str1 c2 str1 := strung_nil
  have := h.append hnil
  rwa [List.append_nil] at this

lemma Strung.head (h : Strung d ss str c2 str1) : Strung d ss str (c1 ++ c2) str1 :=
  (strung_nil : Strung d [] str c1 str).append h

lemma scaled_strings {m : Nat} (h : Scaled p m a code b p') : p'.strings = p.strings := by
  cases h <;> rfl

lemma indexed_strings {m n : Nat} (h : Indexed p m n a code b p') : p'.strings = p.strings := by
  cases h <;> rfl

lemma fetched_strings (h : Fetched p a code b p') : p'.strings = p.strings := by cases h <;> rfl

lemma base_strings (h : Base p a code b p') : p'.strings = p.strings := by cases h <;> rfl

/-- **Every literal of an item has its string.** -/
theorem strung_item (h : Emit cx x p code r p') : Strung cx.dataSize (itemStrls x) p.strings code p'.strings := by
  induction h with
  | assn _ _ ihl ihr | asmu _ _ _ ihl ihr | equl _ _ _ _ ihl ihr | waitFor _ _ _ ihl ihr =>
    exact (ihl.append ihr).tail
  | plus _ _ _ hs _ ihl ihr | aspl _ _ _ hs _ ihl ihr =>
    rw [skip_strings, alloc_strings, scaled_strings hs]
    exact (ihl.append ihr).tail.tail
  | conj _ _ _ _ ihl ihr => exact (ihl.tail.append ihr).tail
  | coma _ _ ihl ihr | stmtsCons _ _ ihl ihr => exact ihl.append ihr
  | scop | szof | name | nmbr | argsNil | decl | retn | wlab | stmtsNil | elifsNone => exact strung_nil
  | arow _ _ hf _ ih =>
    rw [skip_strings, alloc_strings, fetched_strings hf]
    exact ih.tail.tail
  | aexp _ _ hi ha ihb iho =>
    rw [skip_strings, alloc_strings, base_strings ha, indexed_strings hi]
    exact (ihb.append iho).tail.tail.tail
  | memb _ _ _ ih | uplus _ ih | multLvalue _ _ ih | blok _ ih | els _ ih => exact ih
  | atsi _ _ _ ih | membIndirect _ _ _ ih | cast _ _ ih | tild _ _ _ ih | unary _ _ _ ih
  | multRvalue _ _ _ ih | multValue _ _ _ ih | multVoid _ _ _ ih | amps _ _ ih | incr _ _ _ ih
  | incrBy _ _ _ ih | xexp _ _ _ ih | xexpBy _ _ _ ih | declInit _ _ ih | retnValue _ ih | exprStmt _ ih => exact ih.tail
  | tildCall _ _ _ iha ihl | callv _ _ _ iha ihl | call _ _ _ iha ihl => exact (iha.head.append ihl).tail
  | texp _ _ _ _ ihc iht ihf => exact ((ihc.tail.append iht).tail.append ihf).tail
  | wait _ _ ih =>
    rw [itemStrls, stmtStrls, optStrls, List.append_nil]
    exact ih.tail
  | strl => exact ⟨by simp [itemStrls, exprStrls, pool], .cons ⟨_, rfl⟩ .nil⟩
  | argsCons _ _ ih ihr => exact ih.tail.append ihr
  | whil _ _ ihe ihb => exact (ihe.tail.append ihb).tail
  | cond _ _ _ ihe ihb ihr | elif _ _ _ ihe ihb ihr => exact (ihe.tail.append ihb).tail.append ihr
  | noin _ ih => exact ih.head.tail
  | dowh _ _ ihb ihe => exact (ihb.append ihe).tail

lemma mem_places {e : Nat × List UInt8} (h : e ∈ places base ss) :
    ∃ pre post, pool ss = pre ++ ((e.2 ++ [0]) ++ post) ∧ e.1 = base + pre.length := by
  induction ss generalizing base with
  | nil => cases h
  | cons s rest ih =>
    rcases List.mem_cons.mp h with rfl | h
    · exact ⟨[], pool rest, rfl, rfl⟩
    · obtain ⟨pre, post, hp, he⟩ := ih h
      refine ⟨(s ++ [0]) ++ pre, post, ?_, ?_⟩
      · rw [List.append_assoc, ← hp]
        rfl
      · rw [he]
        simp only [List.length_append, List.length_cons, List.length_nil]
        omega

lemma places_apart (base : Nat) (ss : List (List UInt8)) :
    (places base ss).Pairwise fun a b => a.1 + a.2.length + 1 ≤ b.1 := by
  induction ss generalizing base with
  | nil => exact .nil
  | cons s rest ih =>
    refine List.pairwise_cons.mpr ⟨fun e he => ?_, ih _⟩
    obtain ⟨pre, post, -, he⟩ := mem_places he
    simp only
    omega

lemma readMem_append (m : Mem) (off n k : Nat) :
    readMem m off (n + k) = readMem m off n ++ readMem m (off + n) k := by
  induction n generalizing off with
  | zero => simp [readMem]
  | succ n ih => simp [readMem, Nat.add_right_comm n 1 k, ih, Nat.add_assoc, Nat.add_comm 1 n]

/-- A part of what was written is read back. -/
lemma readMem_part (m : Mem) (off : Nat) (pre bs post : List UInt8) :
    readMem (writeMem m off (pre ++ (bs ++ post))) (off + pre.length) bs.length = bs := by
  have h := readMem_writeMem_same m off (pre ++ (bs ++ post))
  rw [List.length_append, List.length_append, readMem_append, readMem_append] at h
  exact (List.append_inj (List.append_inj h (readMem_length _ _ _)).2 (readMem_length _ _ _)).1

end Strings

/-- Each string literal has bytes of its own behind the data, which hold it and a zero, and the
code takes its address from there. -/
structure StringsLaid (tops : List TTop) (o : Obj) : Prop where
  refs : List.SublistForall₂ RefersTo (places o.dataSize (unitStrls tops)) o.insns
  apart : (places o.dataSize (unitStrls tops)).Pairwise fun a b => a.1 + a.2.length + 1 ≤ b.1
  inside : ∀ e ∈ places o.dataSize (unitStrls tops), o.dataSize ≤ e.1 ∧
    e.1 + e.2.length + 1 ≤ o.dataSize + o.strings.length
  held : ∀ e ∈ places o.dataSize (unitStrls tops), ∀ a b,
    readMem (initState o a b).bss e.1 (e.2.length + 1) = e.2 ++ [0]

section Objects

variable {tops : List TTop} {o : Obj} {fns : List Fn} {p p' : Pt} {u : Ast.Unit}

lemma strung_placed {dataSize : Nat} {globals : Layout} (h : Placed dataSize globals tops p fns p') :
    Strung dataSize (unitStrls tops) p.strings (fns.flatMap Fn.code) p'.strings := by
  induction h with
  | nil p => exact strung_nil
  | other t rest p p' fns ht hr ih =>
    cases t with
    | func f => exact absurd rfl (ht f)
    | _ => exact ih
  | func g rest p' fns hg hr ih =>
    have hbody : Strung dataSize (stmtsStrls g.func.stmts) g.start.strings g.code g.stop.strings := by
      have hhead : Strung dataSize (stmtsStrls g.func.stmts) g.start.strings ([g.incsp] ++ g.body)
        g.stop.strings := (strung_item hg).head
      exact hhead.tail
    exact hbody.append ih

lemma refersTo_link {e : Nat × List UInt8} {i : Insn} (h : RefersTo e i) : RefersTo e (link fns i) := by
  obtain ⟨w, rfl⟩ := h
  exact ⟨printOpd (locsOf fns) w, rfl⟩

/-- **The strings of an object lie apart behind its data**, if that does not exceed `2 ^ 64` bytes. -/
theorem strings_laid (h : Listed tops fns o) (hfit : o.dataSize + o.strings.length < 2 ^ 64) :
    StringsLaid tops o := by
  obtain ⟨p, hp, hs⟩ := h.placed
  obtain ⟨hstr, hrefs⟩ := strung_placed hp
  have hpool : o.strings = pool (unitStrls tops) := hs.trans hstr
  rw [← h.dataSize] at hrefs
  have hin : ∀ e ∈ places o.dataSize (unitStrls tops), o.dataSize ≤ e.1 ∧
      e.1 + e.2.length + 1 ≤ o.dataSize + o.strings.length := by
    intro e he
    obtain ⟨pre, post, hpre, he⟩ := mem_places he
    rw [hpool, hpre, he]
    simp only [List.length_append, List.length_cons, List.length_nil]
    omega
  refine ⟨?_, places_apart _ _, hin, fun e he a b => ?_⟩
  · obtain ⟨l, hl, hsub⟩ := List.sublistForall₂_iff.mp hrefs
    have hplain := (List.forall₂_and_left _ _).mpr ⟨hin, hl⟩
    refine List.sublistForall₂_iff.mpr ⟨l.map (link fns), ?_, ?_⟩
    · refine List.forall₂_map_right_iff.mpr (hplain.imp fun e i hi => refersTo_link ?_)
      obtain ⟨⟨-, hle⟩, w, rfl⟩ := hi
      exact ⟨w, by rw [wrap64_of_lt (by omega)]⟩
    · rw [h.insns]
      exact (hsub.trans (List.sublist_append_right _ _)).map _
  · obtain ⟨pre, post, hpre, he⟩ := mem_places he
    have hlen : e.2.length + 1 = (e.2 ++ [0]).length := by simp
    rw [show (initState o a b).bss = writeMem (fun _ => 0) o.dataSize o.strings from rfl, hpool, hpre, he,
      hlen]
    exact readMem_part _ _ _ _ _

/-- The variables of each function lie aligned and apart in its frame, the ones of the unit in the
data, the strings behind it. -/
structure StorageLaid (u : Ast.Unit) (tops : List TTop) : Prop where
  frames : ∀ f, TTop.func f ∈ tops →
    VarsLaid (f.params.toList ++ localVars f) (funcTag f).layout (funcTag f).frameSize
  data : VarsLaid (globalVars tops) (globalsOf tops).layout (globalsOf tops).size
  strings : ∀ o, Compiles u o → o.dataSize + o.strings.length < 2 ^ 64 →
    o.dataSize = (globalsOf tops).size ∧ StringsLaid tops o

/-- **The storage of an accepted unit whose sizes do not overflow.** -/
theorem storage_laid (ha : accept u = some tops) (hs : sizesFit tops = true) : StorageLaid u tops := by
  have hA := accepted_of_accept ha
  refine ⟨fun f hf => func_laid hA hs hf, globals_laid hA hs, fun o ho hfit => ?_⟩
  simp only [Compiles, compile, ha, Option.map_some, Option.some.injEq] at ho
  obtain ⟨fns, hl⟩ := listed_of_create ho
  exact ⟨hl.dataSize, strings_laid hl hfit⟩

/-- `s: ptr(u8); m(a: u8, b: u16) { c: u64; s = "hi"; }` -/
def greeting : Ast.Unit :=
  ⟨[],
    [.decl ⟨false, false, false, [letter 115 0], .ptr 1 (.int .u8 1), .absent⟩,
     .func ⟨false, letter 109 12, .cons (letter 97 14) (.int .u8 1) (.cons (letter 98 21) (.int .u16 1) .nil),
       .none,
       .cons (.decl ⟨false, false, false, [letter 99 31], .int .u64 1, .absent⟩)
         (.cons (.expr (.bexp (letter 115 39) .assn (.name (letter 115 39)) (.strl [104, 105]))) .nil)⟩]⟩

theorem greeting_laid : ∃ tops, accept greeting = some tops ∧ StorageLaid greeting tops := by
  have hacc : (accept greeting).isSome = true := by decide +kernel
  have hfit : (accept greeting).all sizesFit = true := by decide +kernel
  obtain ⟨tops, ha⟩ := Option.isSome_iff_exists.mp hacc
  rw [ha, Option.all_some] at hfit
  exact ⟨tops, ha, storage_laid ha hfit⟩

end Objects

end Quaint.Storage
