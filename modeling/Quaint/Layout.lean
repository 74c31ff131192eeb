import Mathlib
import Quaint.Typing

/-!
Where variables lie.

A frame is laid out by one pass over its variables. Every declared name is found again with
the size of its type; if no size overflows, the variables lie apart and inside the frame.
-/

namespace Quaint.Layout

open Types Ast Codegen Typing

/-! ### Lists of variables -/

abbrev Var := Sym × Ty

/-- The variables of a declaration. -/
def declVars (d : List Sym × Ty) : List Var := d.1.map fun n => (n, d.2)

def layoutVar (fr : Frame) (v : Var) : Frame := layoutName v.2 fr v.1

def layoutVars (vs : List Var) (fr : Frame) : Frame := vs.foldl layoutVar fr

def localVars (f : TFunc) : List Var := (stmtsLocals f.stmts).flatMap declVars

def globalDecls : List TTop → List (List Sym × Ty)
  | [] => []
  | .decl names t :: rest => (names, t) :: globalDecls rest
  | _ :: rest => globalDecls rest

def globalVars (tops : List TTop) : List Var := (globalDecls tops).flatMap declVars

def layoutPar (fr : Frame) (v : Var) : Frame := layoutParam fr v.1 v.2

lemma layoutVars_append (vs ws : List Var) (fr : Frame) :
    layoutVars (vs ++ ws) fr = layoutVars ws (layoutVars vs fr) := List.foldl_append

lemma layoutDecl_eq (names : List Sym) (t : Ty) (fr : Frame) :
    layoutDecl names t fr = layoutVars (declVars (names, t)) fr := by
  rw [layoutDecl, layoutVars, declVars, List.foldl_map]
  rfl

lemma flatMap_declVars_append (ds es : List (List Sym × Ty)) (fr : Frame) :
    layoutVars ((ds ++ es).flatMap declVars) fr =
      layoutVars (es.flatMap declVars) (layoutVars (ds.flatMap declVars) fr) := by
  rw [List.flatMap_append, layoutVars_append]

mutual
lemma layoutStmt_eq : ∀ (s : TStmt) (fr : Frame),
    layoutStmt s fr = layoutVars ((stmtLocals s).flatMap declVars) fr
  | .decl names t _, fr => by
    rw [layoutStmt, layoutDecl_eq]
    simp [stmtLocals]
  | .cond _ b rest, fr => by
    rw [layoutStmt, stmtLocals, flatMap_declVars_append, layoutStmts_eq b, layoutElifs_eq rest]
  | .blok b, fr | .noin b, fr | .whil _ b, fr | .dowh b _, fr => layoutStmts_eq b fr
  | .retn _, _ | .wait _ _ _ _ _, _ | .wlab _ _, _ | .expr _, _ => rfl
lemma layoutStmts_eq : ∀ (b : TStmts) (fr : Frame),
    layoutStmts b fr = layoutVars ((stmtsLocals b).flatMap declVars) fr
  | .nil, _ => rfl
  | .cons s rest, fr => by
    rw [layoutStmts, stmtsLocals, flatMap_declVars_append, layoutStmt_eq s, layoutStmts_eq rest]
lemma layoutElifs_eq : ∀ (r : TElifs) (fr : Frame),
    layoutElifs r fr = layoutVars ((elifsLocals r).flatMap declVars) fr
  | .none, _ => rfl
  | .els b, fr => layoutStmts_eq b fr
  | .elif _ b rest, fr => by
    rw [layoutElifs, elifsLocals, flatMap_declVars_append, layoutStmts_eq b, layoutElifs_eq rest]
end

lemma layoutParams_eq (ps : Fields) (fr : Frame) :
    layoutParams ps fr = ps.toList.foldl layoutPar fr := by
  match ps with
  | .nil => rfl
  | .cons n t rest =>
    rw [layoutParams, layoutParams_eq rest]
    rfl

lemma globalFrame_eq (tops : List TTop) (fr : Frame) :
    globalFrame tops fr = layoutVars (globalVars tops) fr := by
  induction tops generalizing fr with
  | nil => rfl
  | cons t rest ih =>
    cases t with
    | decl names t =>
      rw [globalFrame, ih, layoutDecl_eq, globalVars, globalVars, globalDecls, List.flatMap_cons,
        layoutVars_append]
    | _ => exact ih fr

/-! ### Finding a name again -/

section Lookup

variable {l : Layout} {n : Sym} {ofs : Ofs} {fr : Frame} {vs : List Var}

def keys (l : Layout) : List Nat := l.map Prod.fst

lemma htabGet_of_mem (hn : (keys l).Nodup) (h : (n.beg, ofs) ∈ l) : htabGet l n = some ofs := by
  induction l with
  | nil => cases h
  | cons e l ih =>
    rw [keys, List.map_cons, List.nodup_cons] at hn
    rcases List.mem_cons.mp h with rfl | h
    · simp [htabGet]
    · have hne : e.1 ≠ n.beg := fun he => hn.1 (he ▸ List.mem_map.mpr ⟨_, h, rfl⟩)
      have := ih hn.2 h
      rw [htabGet] at this ⊢
      rw [List.find?_cons_of_neg (by simpa using hne)]
      exact this

lemma mem_of_htabGet (h : htabGet l n = some ofs) : (n.beg, ofs) ∈ l := by
  rw [htabGet, Option.map_eq_some_iff] at h
  obtain ⟨e, he, rfl⟩ := h
  have hk := List.find?_some he
  have : e.1 = n.beg := by simpa using hk
  rw [← this]
  exact List.mem_of_find?_eq_some he

/-- A pass that adds each name of the list with the size of its type. -/
lemma foldl_layout {f : Frame} {step : Frame → Var → Frame}
    (hstep : ∀ fr v, ∃ off size, step fr v = ⟨size, (v.1.beg, ⟨off, v.2.bytes⟩) :: fr.layout⟩) :
    keys (vs.foldl step f).layout = (vs.map fun v => v.1.beg).reverse ++ keys f.layout ∧
      f.layout ⊆ (vs.foldl step f).layout ∧
      ∀ v ∈ vs, ∃ off, (v.1.beg, ⟨off, v.2.bytes⟩) ∈ (vs.foldl step f).layout := by
  induction vs generalizing f with
  | nil => simp
  | cons w ws ih =>
    obtain ⟨off, size, hs⟩ := hstep f w
    obtain ⟨hk, hsub, hmem⟩ := ih (f := step f w)
    rw [hs] at hk hsub hmem
    rw [List.foldl_cons, hs]
    refine ⟨by rw [hk]; simp [keys], fun e he => hsub (List.mem_cons_of_mem _ he), fun v hv => ?_⟩
    rcases List.mem_cons.mp hv with rfl | hv
    · exact ⟨off, hsub List.mem_cons_self⟩
    · exact hmem v hv

lemma layoutVar_step (fr : Frame) (v : Var) :
    ∃ off size, layoutVar fr v = ⟨size, (v.1.beg, ⟨off, v.2.bytes⟩) :: fr.layout⟩ := ⟨_, _, rfl⟩

lemma layoutPar_step (fr : Frame) (v : Var) :
    ∃ off size, layoutPar fr v = ⟨size, (v.1.beg, ⟨off, v.2.bytes⟩) :: fr.layout⟩ := ⟨_, _, rfl⟩

end Lookup

/-! ### The names of an accepted unit -/

section Accepted

variable {tops : List TTop} {f : TFunc} {names : List Sym} {n : Sym} {t : Ty}

lemma params_names (ps : Fields) : ps.toList.map Prod.fst = ps.names := by
  match ps with
  | .nil => rfl
  | .cons n t rest => simp [Fields.toList, Fields.names, params_names rest]

lemma vars_names (ds : List (List Sym × Ty)) :
    (ds.flatMap declVars).map Prod.fst = ds.flatMap Prod.fst := by
  simp [List.map_flatMap, declVars, Function.comp_def]

lemma funcNames_sublist (hf : TTop.func f ∈ tops) :
    (f.name :: f.params.names ++ (stmtsLocals f.stmts).flatMap Prod.fst).Sublist
      (declaredNames tops) := by
  induction tops with
  | nil => cases hf
  | cons top rest ih =>
    rcases List.mem_cons.mp hf with rfl | hf'
    · exact List.sublist_append_left _ _
    · cases top with
      | skip => exact ih hf'
      | decl names t => exact (ih hf').trans (List.sublist_append_right _ _)
      | func g => exact (ih hf').trans (List.sublist_append_right _ _)

lemma globalNames_sublist (tops : List TTop) :
    ((globalDecls tops).flatMap Prod.fst).Sublist (declaredNames tops) := by
  induction tops with
  | nil => exact List.Sublist.refl _
  | cons top rest ih =>
    cases top with
    | skip => exact ih
    | decl names t => exact List.Sublist.append (List.Sublist.refl _) ih
    | func g => exact ih.trans (List.sublist_append_right _ _)

lemma mem_globalDecls (h : TTop.decl names t ∈ tops) : (names, t) ∈ globalDecls tops := by
  induction tops with
  | nil => cases h
  | cons top rest ih =>
    rcases List.mem_cons.mp h with rfl | h'
    · exact List.mem_cons_self
    · cases top with
      | decl => exact List.mem_cons_of_mem _ (ih h')
      | _ => exact ih h'

lemma mem_vars {ds : List (List Sym × Ty)} (hd : (names, t) ∈ ds) (hn : n ∈ names) :
    (n, t) ∈ ds.flatMap declVars :=
  List.mem_flatMap.mpr ⟨_, hd, List.mem_map.mpr ⟨n, hn, rfl⟩⟩

/-- The frame of a function, its parameters first. -/
lemma funcTag_layout (f : TFunc) :
    (funcTag f).layout =
      (layoutVars (localVars f) (f.params.toList.foldl layoutPar ⟨0, []⟩)).layout := by
  rw [← layoutParams_eq, localVars, ← layoutStmts_eq]
  rfl

lemma func_keys (hA : Accepted tops) (hf : TTop.func f ∈ tops) : (keys (funcTag f).layout).Nodup := by
  have hsub := (funcNames_sublist hf).map Sym.beg
  have hnodup := hA.distinct.sublist hsub
  rw [funcTag_layout, layoutVars, (foldl_layout layoutVar_step).1, (foldl_layout layoutPar_step).1]
  rw [List.cons_append, List.map_cons, List.nodup_cons, List.map_append] at hnodup
  have h1 : (localVars f).map (fun v => v.1.beg) =
      ((stmtsLocals f.stmts).flatMap Prod.fst).map Sym.beg := by
    rw [← vars_names, localVars, List.map_map]
    rfl
  have h2 : f.params.toList.map (fun v => v.1.beg) = f.params.names.map Sym.beg := by
    rw [← params_names, List.map_map]
    rfl
  rw [h1, h2, keys, List.map_nil, List.append_nil, ← List.reverse_append, List.nodup_reverse]
  exact hnodup.2

/-- **A local variable is found with the size of its type.** -/
theorem local_found (hA : Accepted tops) (hf : TTop.func f ∈ tops)
    (hd : (names, t) ∈ stmtsLocals f.stmts) (hn : n ∈ names) :
    ∃ off, htabGet (funcTag f).layout n = some ⟨off, t.bytes⟩ := by
  obtain ⟨off, hoff⟩ := (foldl_layout layoutVar_step).2.2 _ (mem_vars hd hn)
  exact ⟨off, htabGet_of_mem (func_keys hA hf) (by rw [funcTag_layout]; exact hoff)⟩

/-- **A parameter is found with the size of its type.** -/
theorem param_found (hA : Accepted tops) (hf : TTop.func f ∈ tops) (hp : (n, t) ∈ f.params.toList) :
    ∃ off, htabGet (funcTag f).layout n = some ⟨off, t.bytes⟩ := by
  obtain ⟨off, hoff⟩ := (foldl_layout (f := ⟨0, []⟩) layoutPar_step).2.2 _ hp
  refine ⟨off, htabGet_of_mem (func_keys hA hf) ?_⟩
  rw [funcTag_layout]
  exact (foldl_layout layoutVar_step).2.1 hoff

lemma global_keys_eq (tops : List TTop) :
    keys (globalFrame tops ⟨0, []⟩).layout = ((globalVars tops).map fun v => v.1.beg).reverse := by
  rw [globalFrame_eq, layoutVars, (foldl_layout layoutVar_step).1, keys, List.map_nil, List.append_nil]

lemma global_keys (hA : Accepted tops) : (keys (globalFrame tops ⟨0, []⟩).layout).Nodup := by
  have h1 : (globalVars tops).map (fun v => v.1.beg) =
      ((globalDecls tops).flatMap Prod.fst).map Sym.beg := by
    rw [← vars_names, globalVars, List.map_map]
    rfl
  rw [global_keys_eq, List.nodup_reverse, h1]
  exact hA.distinct.sublist ((globalNames_sublist tops).map Sym.beg)

/-- **A variable of the unit is found with the size of its type.** -/
theorem global_found (hA : Accepted tops) (hd : TTop.decl names t ∈ tops) (hn : n ∈ names) :
    ∃ off, htabGet (globalFrame tops ⟨0, []⟩).layout n = some ⟨off, t.bytes⟩ := by
  obtain ⟨off, hoff⟩ := (foldl_layout (f := ⟨0, []⟩) layoutVar_step).2.2 _
    (mem_vars (mem_globalDecls hd) hn)
  refine ⟨off, htabGet_of_mem (global_keys hA) ?_⟩
  rw [globalFrame_eq]
  exact hoff

end Accepted

/-! ### Sizes that do not overflow -/

mutual
/-- No size computed for the type, for its members or for its repetition overflows. -/
def fits : Ty → Bool
  | .struct c ms =>
    structFits ms 0 && decide (alignUp (ms.endOffset 0) (ms.greatestAlignment 0) < 2 ^ 64) &&
      decide (c * (Ty.struct c ms).size < 2 ^ 64)
  | .union c ms => unionFits ms && decide (c * (Ty.union c ms).size < 2 ^ 64)
  | t => decide (t.count * t.size < 2 ^ 64)
/-- The members from an offset on. -/
def structFits : Fields → Nat → Bool
  | .nil, off => decide (off < 2 ^ 64)
  | .cons _ t rest, off => fits t && structFits rest (alignUp off t.alignment + t.count * t.size)
def unionFits : Fields → Bool
  | .nil => true
  | .cons _ t rest => fits t && unionFits rest
end

section Fits

lemma wrap64_of_lt {n : Nat} (h : n < 2 ^ 64) : wrap64 n = n := Nat.mod_eq_of_lt h

lemma le_alignUp (n k : Nat) : n ≤ alignUp n k := Nat.le_add_right _ _

lemma alignUp_lt {n k : Nat} (hk : 0 < k) : alignUp n k < n + k := by
  unfold alignUp
  split
  · have := Nat.mod_lt n hk
    omega
  · omega

lemma alignUp_mod {n k : Nat} (hk : 0 < k) : alignUp n k % k = 0 := by
  unfold alignUp
  split
  · have hlt := Nat.mod_lt n hk
    have hdiv := Nat.div_add_mod n k
    have : n + (k - n % k) = k * (n / k + 1) := by
      rw [Nat.mul_add, Nat.mul_one]
      omega
    rw [this]
    exact Nat.mul_mod_right _ _
  · rename_i h
    simpa using h

lemma bytes_of_fits {t : Ty} (h : fits t = true) : t.bytes = t.count * t.size := by
  refine wrap64_of_lt ?_
  cases t <;> simp [fits] at h
  case struct => exact h.2
  case union => exact h.2
  all_goals exact h

lemma structFits_lt {ms : Fields} {off : Nat} (h : structFits ms off = true) : off < 2 ^ 64 := by
  match ms with
  | .nil => simpa [structFits] using h
  | .cons n t rest =>
    simp only [structFits, Bool.and_eq_true] at h
    have := structFits_lt h.2
    have := le_alignUp off t.alignment
    omega

/-- One member of a struct that fits. -/
lemma struct_step {t : Ty} {rest : Fields} {off : Nat} {n : Sym}
    (h : structFits (.cons n t rest) off = true) :
    wrap64 (alignUp off t.alignment) = alignUp off t.alignment ∧
      wrap64 (wrap64 (alignUp off t.alignment) + wrap64 (t.size * t.count)) =
        alignUp off t.alignment + t.bytes := by
  simp only [structFits, Bool.and_eq_true] at h
  have hb := bytes_of_fits h.1
  have hend := structFits_lt h.2
  have h1 : wrap64 (alignUp off t.alignment) = alignUp off t.alignment :=
    wrap64_of_lt (by omega)
  have h2 : wrap64 (t.size * t.count) = t.bytes := by rw [Nat.mul_comm]; rfl
  refine ⟨h1, ?_⟩
  rw [h1, h2, hb, wrap64_of_lt (by omega)]

/-- The offsets of a struct that fits only grow. -/
lemma struct_end {ms : Fields} {off : Nat} (h : structFits ms off = true) :
    off ≤ ms.endOffset off ∧ ms.endOffset off < 2 ^ 64 := by
  match ms with
  | .nil => exact ⟨Nat.le_refl _, structFits_lt h⟩
  | .cons n t rest =>
    obtain ⟨-, h2⟩ := struct_step h
    simp only [structFits, Bool.and_eq_true] at h
    rw [Fields.endOffset, h2]
    rw [← bytes_of_fits h.1] at h
    have := struct_end h.2
    have := le_alignUp off t.alignment
    omega

/-- The members of a struct that fits lie between the start and the end. -/
lemma struct_members : ∀ {ms : Fields} {off idx o : Nat} {m : Sym × Ty}, structFits ms off = true →
    ms.toList[idx]? = some m → (ms.offsets off)[idx]? = some o →
    fits m.2 = true ∧ o + m.2.bytes ≤ ms.endOffset off
  | .nil, _, _, _, _, _, hm, _ => by cases hm
  | .cons n t rest, off, idx, o, m, h, hm, ho => by
    obtain ⟨h1, h2⟩ := struct_step h
    simp only [structFits, Bool.and_eq_true] at h
    rw [Fields.offsets, h2] at ho
    rw [Fields.endOffset, h2]
    rw [Fields.toList] at hm
    rw [← bytes_of_fits h.1] at h
    cases idx with
    | zero =>
      simp only [List.getElem?_cons_zero, Option.some.injEq] at hm ho
      subst hm
      rw [h1] at ho
      subst ho
      exact ⟨h.1, (struct_end h.2).1⟩
    | succ idx =>
      simp only [List.getElem?_cons_succ] at hm ho
      exact struct_members h.2 hm ho

lemma greatestSize_le (ms : Fields) (g : Nat) : g ≤ ms.greatestSize g := by
  match ms with
  | .nil => exact Nat.le_refl _
  | .cons _ t rest =>
    rw [Fields.greatestSize]
    refine Nat.le_trans ?_ (greatestSize_le rest _)
    split <;> omega

lemma union_members {ms : Fields} {g idx : Nat} {m : Sym × Ty} (h : unionFits ms = true)
    (hm : ms.toList[idx]? = some m) : fits m.2 = true ∧ m.2.bytes ≤ ms.greatestSize g := by
  match ms, idx with
  | .nil, _ => cases hm
  | .cons n t rest, 0 =>
    simp only [unionFits, Bool.and_eq_true] at h
    simp only [Fields.toList, List.getElem?_cons_zero, Option.some.injEq] at hm
    subst hm
    refine ⟨h.1, ?_⟩
    rw [Fields.greatestSize]
    refine Nat.le_trans ?_ (greatestSize_le rest _)
    have : wrap64 (t.size * t.count) = t.bytes := by rw [Nat.mul_comm]; rfl
    rw [this]
    show t.bytes ≤ _
    split <;> omega
  | .cons n t rest, idx + 1 =>
    simp only [unionFits, Bool.and_eq_true] at h
    simp only [Fields.toList, List.getElem?_cons_succ] at hm
    rw [Fields.greatestSize]
    exact union_members h.2 hm

/-- **A member lies inside the value it is a member of.** -/
theorem member_inside {t m : Ty} {idx o : Nat} (h : fits t = true) (hm : memberAt t idx = some (m, o)) :
    fits m = true ∧ o + m.bytes ≤ t.size := by
  unfold memberAt at hm
  split at hm
  · rename_i p off hp hoff
    cases hm
    cases t <;> simp only [Ty.members, Ty.offsets] at hp hoff <;> try cases hp
    case struct c ms =>
      simp only [fits, Bool.and_eq_true] at h
      obtain ⟨hf, hle⟩ := struct_members h.1.1 hp hoff
      have hup := le_alignUp (ms.endOffset 0) (ms.greatestAlignment 0)
      refine ⟨hf, ?_⟩
      rw [Ty.size, wrap64_of_lt (of_decide_eq_true h.1.2)]
      omega
    case union c ms =>
      simp only [fits, Bool.and_eq_true] at h
      obtain ⟨hf, hle⟩ := union_members (g := 0) h.1 hp
      rw [List.getElem?_replicate] at hoff
      split at hoff <;> cases hoff
      exact ⟨hf, by rw [Ty.size]; omega⟩
  · cases hm

end Fits

/-! ### Frames that do not overflow -/

/-- The size of a frame after one more variable, and after one more parameter. -/
def varEnd (size : Nat) (v : Var) : Nat := alignUp size v.2.alignment + v.2.bytes
def parEnd (size : Nat) (v : Var) : Nat := alignUp (size + v.2.bytes) 8

/-- A frame of this size, grown by the list, does not overflow. -/
def frameFits (step : Nat → Var → Nat) : List Var → Nat → Bool
  | [], size => decide (size < 2 ^ 64)
  | v :: vs, size => fits v.2 && decide (step size v < 2 ^ 64) && frameFits step vs (step size v)

/-- Nor does the frame of a function with the saved words. -/
def funcFits (f : TFunc) : Bool :=
  frameFits parEnd f.params.toList 0 &&
    frameFits varEnd (localVars f) (f.params.toList.foldl parEnd 0) &&
    decide (alignUp ((localVars f).foldl varEnd (f.params.toList.foldl parEnd 0)) 8 + 16 < 2 ^ 64)

/-- No type size and no frame of the unit overflows. -/
def sizesFit (tops : List TTop) : Bool :=
  frameFits varEnd (globalVars tops) 0 &&
    tops.all fun t => match t with
      | .func f => funcFits f
      | _ => true

/-- The variables of a frame lie inside it, the later ones behind the earlier ones. -/
structure FrameOk (fr : Frame) : Prop where
  inside : ∀ e ∈ fr.layout, e.2.off + e.2.size ≤ fr.size
  apart : fr.layout.Pairwise fun a b => b.2.off + b.2.size ≤ a.2.off

section Frames

variable {fr : Frame} {v : Var} {vs : List Var}

lemma frameOk_nil : FrameOk ⟨0, []⟩ := ⟨by simp, List.Pairwise.nil⟩

lemma frameOk_push {off size bytes key : Nat} (h : FrameOk fr) (hoff : fr.size ≤ off)
    (hsize : off + bytes ≤ size) : FrameOk ⟨size, (key, ⟨off, bytes⟩) :: fr.layout⟩ := by
  constructor
  · intro e he
    rcases List.mem_cons.mp he with rfl | he
    · exact hsize
    · have := h.inside e he
      simp only
      omega
  · refine List.pairwise_cons.mpr ⟨fun e he => ?_, h.apart⟩
    have := h.inside e he
    simp only
    omega

lemma layoutVar_ok (h : FrameOk fr) (hfit : varEnd fr.size v < 2 ^ 64) :
    FrameOk (layoutVar fr v) ∧ (layoutVar fr v).size = varEnd fr.size v := by
  unfold varEnd at hfit
  have h1 : wrap64 (alignUp fr.size v.2.alignment) = alignUp fr.size v.2.alignment :=
    wrap64_of_lt (by omega)
  have h2 : wrap64 (alignUp fr.size v.2.alignment + v.2.bytes) = varEnd fr.size v :=
    wrap64_of_lt (by omega)
  have hstep : layoutVar fr v =
      ⟨varEnd fr.size v, (v.1.beg, ⟨alignUp fr.size v.2.alignment, v.2.bytes⟩) :: fr.layout⟩ := by
    rw [layoutVar, layoutName]
    simp only [h1, h2]
  rw [hstep]
  exact ⟨frameOk_push h (le_alignUp _ _) (Nat.le_refl _), rfl⟩

lemma layoutPar_ok (h : FrameOk fr) (hfit : parEnd fr.size v < 2 ^ 64) :
    FrameOk (layoutPar fr v) ∧ (layoutPar fr v).size = parEnd fr.size v ∧
      (v.1.beg, ⟨fr.size, v.2.bytes⟩) ∈ (layoutPar fr v).layout := by
  unfold parEnd at hfit
  have hle := le_alignUp (fr.size + v.2.bytes) 8
  have h1 : wrap64 (fr.size + v.2.bytes) = fr.size + v.2.bytes := wrap64_of_lt (by omega)
  have h2 : wrap64 (alignUp (fr.size + v.2.bytes) 8) = parEnd fr.size v :=
    wrap64_of_lt (by omega)
  have hstep : layoutPar fr v =
      ⟨parEnd fr.size v, (v.1.beg, ⟨fr.size, v.2.bytes⟩) :: fr.layout⟩ := by
    rw [layoutPar, layoutParam]
    simp only [h1, h2]
  rw [hstep]
  exact ⟨frameOk_push h (Nat.le_refl _) hle, rfl, List.mem_cons_self⟩

lemma varsFit_ok (h : FrameOk fr) (hfit : frameFits varEnd vs fr.size = true) :
    FrameOk (layoutVars vs fr) ∧ (layoutVars vs fr).size = vs.foldl varEnd fr.size ∧
      (layoutVars vs fr).size < 2 ^ 64 := by
  induction vs generalizing fr with
  | nil => exact ⟨h, rfl, by simpa [frameFits, layoutVars] using hfit⟩
  | cons v vs ih =>
    simp only [frameFits, Bool.and_eq_true, decide_eq_true_eq] at hfit
    obtain ⟨hok, hsize⟩ := layoutVar_ok h hfit.1.2
    rw [← hsize] at hfit
    have := ih hok hfit.2
    rw [hsize] at this
    exact this

lemma parsFit_ok (h : FrameOk fr) (hfit : frameFits parEnd vs fr.size = true) :
    FrameOk (vs.foldl layoutPar fr) ∧ (vs.foldl layoutPar fr).size = vs.foldl parEnd fr.size ∧
      (vs.foldl layoutPar fr).size < 2 ^ 64 := by
  induction vs generalizing fr with
  | nil => exact ⟨h, rfl, by simpa [frameFits] using hfit⟩
  | cons v vs ih =>
    simp only [frameFits, Bool.and_eq_true, decide_eq_true_eq] at hfit
    obtain ⟨hok, hsize, -⟩ := layoutPar_ok h hfit.1.2
    rw [← hsize] at hfit
    have := ih hok hfit.2
    rw [hsize] at this
    exact this

lemma varEnd_le (vs : List Var) (size : Nat) : size ≤ vs.foldl varEnd size := by
  induction vs generalizing size with
  | nil => exact Nat.le_refl _
  | cons v vs ih =>
    refine Nat.le_trans ?_ (ih (varEnd size v))
    have := le_alignUp size v.2.alignment
    unfold varEnd
    omega

end Frames

/-! ### The frame of a function that fits -/

section Func

variable {f : TFunc}

/-- The bytes a list of arguments takes on the stack. -/
def argBytes (vs : List Var) : Nat := vs.foldl parEnd 0

lemma parEnd_mod (vs : List Var) (size : Nat) (h : size % 8 = 0) : vs.foldl parEnd size % 8 = 0 := by
  induction vs generalizing size with
  | nil => exact h
  | cons v vs ih => exact ih _ (alignUp_mod (by decide))

/-- The bytes a frame that fits takes. -/
lemma frameSize_of_fits (h : funcFits f = true) :
    (funcTag f).frameSize = alignUp ((localVars f).foldl varEnd (argBytes f.params.toList)) 8 := by
  simp only [funcFits, Bool.and_eq_true, decide_eq_true_eq] at h
  obtain ⟨⟨h1, h2⟩, h3⟩ := h
  obtain ⟨hp, hps, -⟩ := parsFit_ok frameOk_nil h1
  rw [← show (f.params.toList.foldl layoutPar ⟨0, []⟩).size = _ from hps] at h2 h3
  obtain ⟨-, hvs, -⟩ := varsFit_ok hp h2
  have hall : layoutStmts f.stmts (layoutParams f.params ⟨0, []⟩) =
      layoutVars (localVars f) (f.params.toList.foldl layoutPar ⟨0, []⟩) := by
    rw [← layoutParams_eq, localVars, ← layoutStmts_eq]
  rw [argBytes, ← show (f.params.toList.foldl layoutPar ⟨0, []⟩).size = _ from hps, ← hvs, ← hall]
  exact wrap64_of_lt (by rw [hall, hvs]; omega)

/-- **The frame of a function that fits**: its variables lie in it apart from each other, it holds
its arguments first, and its size is a multiple of a word. -/
structure GoodFrame (f : TFunc) : Prop where
  inside : ∀ e ∈ (funcTag f).layout, e.2.off + e.2.size ≤ (funcTag f).frameSize
  apart : (funcTag f).layout.Pairwise fun a b => b.2.off + b.2.size ≤ a.2.off
  args : (funcTag f).argsSize = argBytes f.params.toList
  args_le : (funcTag f).argsSize ≤ (funcTag f).frameSize
  args_mod : (funcTag f).argsSize % 8 = 0
  frame_mod : (funcTag f).frameSize % 8 = 0
  frame_lt : (funcTag f).frameSize + 16 < 2 ^ 64

theorem goodFrame_of_fits (h : funcFits f = true) : GoodFrame f := by
  have hframe := frameSize_of_fits h
  simp only [funcFits, Bool.and_eq_true] at h
  obtain ⟨⟨h1, h2⟩, h3⟩ := h
  obtain ⟨hp, hps, hpe⟩ := parsFit_ok frameOk_nil h1
  rw [← show (f.params.toList.foldl layoutPar ⟨0, []⟩).size = _ from hps] at h2
  obtain ⟨hv, hvs, hve⟩ := varsFit_ok hp h2
  have hle := varEnd_le (localVars f) (f.params.toList.foldl layoutPar ⟨0, []⟩).size
  have hargs : (funcTag f).argsSize = argBytes f.params.toList := by
    rw [argBytes, ← hps, ← layoutParams_eq]
    rfl
  have hup := le_alignUp (layoutVars (localVars f) (f.params.toList.foldl layoutPar ⟨0, []⟩)).size 8
  rw [← show (f.params.toList.foldl layoutPar ⟨0, []⟩).size = _ from hps, ← hvs,
    decide_eq_true_eq] at h3
  rw [argBytes, ← show (f.params.toList.foldl layoutPar ⟨0, []⟩).size = _ from hps, ← hvs] at hframe
  have hargsEq : (funcTag f).argsSize = (f.params.toList.foldl layoutPar ⟨0, []⟩).size := by
    rw [← layoutParams_eq]
    rfl
  constructor
  · intro e he
    rw [funcTag_layout] at he
    have := hv.inside e he
    omega
  · rw [funcTag_layout]
    exact hv.apart
  · exact hargs
  · omega
  · rw [hargs]
    exact parEnd_mod _ 0 rfl
  · rw [hframe]
    exact alignUp_mod (by decide)
  · omega

end Func

end Quaint.Layout
