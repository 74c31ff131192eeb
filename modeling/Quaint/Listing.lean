import Quaint.Generated
import Quaint.Program
import Quaint.Program

/-!
The listing of a unit: its functions one after the other behind the built-ins, each the code
of its body between `INCSP` and `RET`, with the addresses of functions filled in.
-/

namespace Quaint.Listing

open Types Ast Scope Code Codegen Emit Generated Program

/-! ### Where code comes to lie -/

/-- The code lies at a position of the listing. -/
def At (l : List Insn) (pos : Nat) (code : List Insn) : Prop :=
  ∀ k i, code[k]? = some i → l[pos + k]? = some i

section At

variable {l code c1 c2 : List Insn} {pos : Nat} {i : Insn}

lemma At.get (h : At l pos code) {k : Nat} (hk : code[k]? = some i) : l[pos + k]? = some i :=
  h k i hk

lemma At.left (h : At l pos (c1 ++ c2)) : At l pos c1 := by
  intro k i hk
  refine h k i ?_
  rw [List.getElem?_append_left (List.getElem?_eq_some_iff.mp hk).1]
  exact hk

lemma At.right (h : At l pos (c1 ++ c2)) : At l (pos + c1.length) c2 := by
  intro k i hk
  rw [Nat.add_assoc]
  refine h _ i ?_
  rw [List.getElem?_append_right (by omega)]
  simpa using hk

lemma At.head (h : At l pos (i :: c2)) : l[pos]? = some i := h 0 i rfl

lemma at_append (l1 l2 l3 : List Insn) : At (l1 ++ l2 ++ l3) l1.length l2 := by
  intro k i hk
  have hlt := (List.getElem?_eq_some_iff.mp hk).1
  rw [List.append_assoc, List.getElem?_append_right (by omega), Nat.add_sub_cancel_left,
    List.getElem?_append_left hlt, hk]

lemma At.map (h : At l pos code) (f : Insn → Insn) : At (l.map f) pos (code.map f) := by
  intro k i hk
  rw [List.getElem?_map, Option.map_eq_some_iff] at hk
  obtain ⟨j, hj, rfl⟩ := hk
  rw [List.getElem?_map, h k j hj]
  rfl

end At

/-! ### What a point knows of the code behind it -/

section Points

variable {cx : Cx} {x : Item} {p p' : Pt} {code : List Insn} {r : Option Opd} {a b : Opd}

lemma scaled_ip {m : Nat} (h : Scaled p m a code b p') : p'.ip = p.ip + code.length := by
  cases h <;> rfl

lemma indexed_ip {m n : Nat} (h : Indexed p m n a code b p') : p'.ip = p.ip + code.length := by
  cases h <;> rfl

lemma fetched_ip (h : Fetched p a code b p') : p'.ip = p.ip + code.length := by
  cases h <;> rfl

lemma base_ip (h : Base p a code b p') : p'.ip = p.ip + code.length := by
  cases h <;> rfl

/-- The point a part ends at is its length further on. -/
theorem emit_ip (h : Emit cx x p code r p') : p'.ip = p.ip + code.length := by
  induction h with
  | plus _ _ _ hs _ ihl ihr | aspl _ _ _ hs _ ihl ihr =>
    simp [scaled_ip hs, ihl, ihr, Nat.add_assoc]
  | arow _ _ hf _ ihl => simp [fetched_ip hf, ihl, Nat.add_assoc]
  | aexp _ _ hi ha ihb iho => simp [base_ip ha, indexed_ip hi, ihb, iho, Nat.add_assoc]
  | _ => simp [Pt.bound, Pt.string, *] <;> omega

lemma emit_le (h : Emit cx x p code r p') : p.ip ≤ p'.ip := by
  rw [emit_ip h]
  exact Nat.le_add_right _ _

end Points

/-! ### Functions -/

/-- A function of the listing: where it begins, its body, and where that ends. -/
structure Fn where
  func : TFunc
  start : Pt
  body : List Insn
  stop : Pt

namespace Fn

variable (dataSize : Nat) (globals : Layout) (fn : Fn)

def entry : Nat := fn.start.ip

def tag : FuncTag := funcTag fn.func

def cx : Cx := ⟨dataSize, globals, fn.tag⟩

/-- The point the body begins at. -/
def enter : Pt := { fn.start.skip 1 with tempOffPeak := 0, peak := 0 }

/-- `INCSP`, with the bytes the frame has beyond the arguments. -/
def incsp : Insn :=
  .incsp (opdImm false (wrap64 (2 ^ 64 + fn.tag.frameSize - fn.tag.argsSize)) 8)
    (opdImm false fn.stop.tempOffPeak 8)

def ret : Insn := .ret (opdImm false (wrap64 (fn.tag.frameSize + 16)) 8)

def code : List Insn := fn.incsp :: fn.body ++ [fn.ret]

def Emitted : Prop :=
  Emit (fn.cx dataSize globals) (.stmts fn.func.stmts) fn.enter fn.body none fn.stop

end Fn

/-- The functions of a unit, one after the other. -/
inductive Placed (dataSize : Nat) (globals : Layout) : List TTop → Pt → List Fn → Pt → Prop
  | nil (p : Pt) : Placed dataSize globals [] p [] p
  | other (t : TTop) (rest : List TTop) (p p' : Pt) (fns : List Fn) (ht : ∀ f, t ≠ .func f)
    (hr : Placed dataSize globals rest p fns p') : Placed dataSize globals (t :: rest) p fns p'
  | func (fn : Fn) (rest : List TTop) (p' : Pt) (fns : List Fn)
    (h : fn.Emitted dataSize globals)
    (hr : Placed dataSize globals rest (fn.stop.skip 1) fns p') :
    Placed dataSize globals (.func fn.func :: rest) fn.start (fn :: fns) p'

section Placed

variable {dataSize : Nat} {globals : Layout} {tops : List TTop} {p p' : Pt} {fns : List Fn}

lemma func_ok {f : TFunc} {st st' : GenSt} {loc : Nat}
    (h : genFunc ⟨dataSize, globals, funcTag f⟩ f st = .ok (loc, st')) (N : List Note) :
    ∃ body stop N',
      (Fn.mk f (pt st N) body stop).Emitted dataSize globals ∧
        pt st' N' = stop.skip 1 ∧ loc = st.insns.length ∧
        st'.insns = st.insns ++ (Fn.mk f (pt st N) body stop).code := by
  simp only [genFunc, bind_ok, getIp_ok, emit_ok, patch_ok, pure_ok, Except.ok.injEq,
    Prod.mk.injEq] at h
  obtain ⟨_, _, ⟨rfl, rfl⟩, _, _, rfl, _, _, ⟨-, rfl⟩, _, st1, h1, _, _, ⟨rfl, rfl⟩, _, _, rfl, _, _, rfl,
    rfl, rfl⟩ := h
  obtain ⟨body, N1, e1, i1⟩ := good_stmts _ _ _ _ _ h1 N
  have henter : pt { emitted st (.incsp (opdImm false
      (wrap64 (2 ^ 64 + (funcTag f).frameSize - (funcTag f).argsSize)) 8) (opdImm false 0 8)) with
        tempOffPeak := 0, tempReach := 0 } N = (Fn.mk f (pt st N) body (pt st1 N1)).enter := by
    simp [pt, emitted, Fn.enter, Pt.skip]
  refine ⟨body, pt st1 N1, N1, by rw [Fn.Emitted, ← henter]; exact e1, by simp, rfl, ?_⟩
  rw [insns_emitted, insns_patched, modify_eq (u := st.insns) (v := body) (Insn.setTsize _)
    (by rw [i1]; simp; rfl) rfl]
  simp [Fn.code, Fn.incsp, Fn.ret, Insn.setTsize]
  exact ⟨⟨rfl, rfl⟩, rfl⟩

lemma tops_ok {st st' : GenSt} {locs : List (Nat × Nat)}
    (h : genTops dataSize globals tops st = .ok (locs, st')) (N : List Note) :
    ∃ fns N', Placed dataSize globals tops (pt st N) fns (pt st' N') ∧
      locs = fns.map (fun fn => (nodeAddr fn.func.name, fn.entry)) ∧
      st'.insns = st.insns ++ fns.flatMap Fn.code := by
  induction tops generalizing st st' locs N with
  | nil =>
    obtain ⟨rfl, rfl⟩ := pure_ok.mp h
    exact ⟨[], N, .nil _, rfl, by simp⟩
  | cons t rest ih =>
    cases t with
    | func f =>
      simp only [genTops, bind_ok, pure_ok] at h
      obtain ⟨loc, st1, h1, locs', st2, h2, rfl, rfl⟩ := h
      obtain ⟨body, stop, N1, e1, hp, rfl, i1⟩ := func_ok h1 N
      obtain ⟨fns, N2, e2, rfl, i2⟩ := ih h2 N1
      rw [hp] at e2
      exact ⟨_, N2, .func ⟨f, pt st N, body, stop⟩ rest _ fns e1 e2, rfl, by simp [i1, i2]⟩
    | skip =>
      obtain ⟨fns, N1, e1, hl, i1⟩ := ih h N
      exact ⟨fns, N1, .other _ _ _ _ _ (by simp) e1, hl, i1⟩
    | decl names t =>
      obtain ⟨fns, N1, e1, hl, i1⟩ := ih h N
      exact ⟨fns, N1, .other _ _ _ _ _ (by simp) e1, hl, i1⟩

lemma fn_code_length {fn : Fn} (h : fn.Emitted dataSize globals) :
    fn.entry + fn.code.length = fn.stop.ip + 1 := by
  have := emit_ip h
  simp only [Fn.enter, skip_ip] at this
  simp only [Fn.entry, Fn.code, List.cons_append, List.length_cons, List.length_append, this]
  simp only [List.length_nil]
  omega

/-- Every function lies where it begins. -/
lemma placed_at (h : Placed dataSize globals tops p fns p') {fn : Fn} (hfn : fn ∈ fns) :
    fn.Emitted dataSize globals ∧ p.ip ≤ fn.entry ∧
      ∀ l, l.length = p.ip → At (l ++ fns.flatMap Fn.code) fn.entry fn.code := by
  induction h with
  | nil => cases hfn
  | other t rest p p' fns ht hr ih => exact ih hfn
  | func g rest p' fns hg hr ih =>
    have hlen := fn_code_length hg
    rcases List.mem_cons.mp hfn with rfl | hfn
    · refine ⟨hg, Nat.le_refl _, fun l hl => ?_⟩
      have := at_append l fn.code (fns.flatMap Fn.code)
      rw [hl] at this
      simpa [Fn.entry] using this
    · obtain ⟨he, hle, hat⟩ := ih hfn
      simp only [skip_ip] at hle
      refine ⟨he, ?_, fun l hl => ?_⟩
      · have : g.start.ip = g.entry := rfl
        omega
      · have := hat (l ++ g.code) (by simp [hl]; exact hlen)
        simpa using this

lemma placed_func (h : Placed dataSize globals tops p fns p') {fn : Fn} (hfn : fn ∈ fns) :
    TTop.func fn.func ∈ tops := by
  induction h with
  | nil => cases hfn
  | other t rest p p' fns ht hr ih => exact List.mem_cons_of_mem _ (ih hfn)
  | func g rest p' fns hg hr ih =>
    rcases List.mem_cons.mp hfn with rfl | hfn
    · exact List.mem_cons_self
    · exact List.mem_cons_of_mem _ (ih hfn)

lemma placed_of_func (h : Placed dataSize globals tops p fns p') {f : TFunc}
    (hf : TTop.func f ∈ tops) : ∃ fn ∈ fns, fn.func = f := by
  induction h with
  | nil => cases hf
  | other t rest p p' fns ht hr ih =>
    rcases List.mem_cons.mp hf with rfl | hf
    · exact absurd rfl (ht f)
    · exact ih hf
  | func g rest p' fns hg hr ih =>
    rcases List.mem_cons.mp hf with hf | hf
    · exact ⟨g, List.mem_cons_self, (TTop.func.inj hf).symm⟩
    · obtain ⟨fn, hfn, rfl⟩ := ih hf
      exact ⟨fn, List.mem_cons_of_mem _ hfn, rfl⟩

end Placed

/-! ### Units -/

def globalsOf (tops : List TTop) : Frame := globalFrame tops ⟨0, []⟩

/-- Where the functions begin: behind the built-ins. -/
def start : Pt := ⟨scopeBfunIdCount, [], 0, 0, 0, []⟩

def locsOf (fns : List Fn) : List (Nat × Nat) :=
  fns.map fun fn => (nodeAddr fn.func.name, fn.entry)

/-- The instruction with the addresses of functions filled in. -/
def link (fns : List Fn) (i : Insn) : Insn := i.mapOpds (printOpd (locsOf fns))

@[simp] lemma link_opds {fns : List Fn} (i : Insn) :
    (link fns i).opds = i.opds.map (printOpd (locsOf fns)) := by cases i <;> rfl

/-- The object is the listing of these functions. -/
structure Listed (tops : List TTop) (fns : List Fn) (o : Obj) : Prop where
  placed : ∃ p, Placed (globalsOf tops).size (globalsOf tops).layout tops start fns p ∧
    o.strings = p.strings
  insns : o.insns = (List.replicate scopeBfunIdCount Insn.bfun ++ fns.flatMap Fn.code).map (link fns)
  dataSize : o.dataSize = (globalsOf tops).size
  resolved : ∀ i ∈ fns.flatMap Fn.code, ∀ a ∈ i.opds, opdResolved (locsOf fns) a = true

/-- **Every object is a listing.** -/
theorem listed_of_create {tops : List TTop} {o : Obj} (h : codegenObjCreate tops = .ok o) :
    ∃ fns, Listed tops fns o := by
  rw [codegenObjCreate] at h
  split at h
  · cases h
  · rename_i locs st hg
    obtain ⟨fns, N, hp, rfl, hi⟩ := tops_ok hg []
    split at h
    · rename_i hall
      obtain rfl := Except.ok.inj h
      refine ⟨fns, ⟨_, hp, rfl⟩, by rw [hi]; rfl, rfl, ?_⟩
      intro i hmem a ha
      rw [List.all_eq_true] at hall
      have := hall i (by rw [hi]; exact List.mem_append_right _ hmem)
      rw [List.all_eq_true] at this
      exact this a ha
    · cases h

lemma listed_of_compiles {u : Ast.Unit} {o : Obj} (h : Program.Compiles u o) :
    ∃ tops fns, Program.accept u = some tops ∧ Listed tops fns o := by
  obtain ⟨tops, ha, hc⟩ := Option.map_eq_some_iff.mp h
  obtain ⟨fns, hl⟩ := listed_of_create hc
  exact ⟨tops, fns, ha, hl⟩

end Quaint.Listing
