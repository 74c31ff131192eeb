import Quaint.HashTable
import Quaint.Defined

/-!
The symbol tables of code generation.

The global variables, the functions and the variables of every function each have a table. One
pass counts the items, another inserts them, and the generator looks names up by the address of
the token that declares them.
-/

namespace Quaint.Tables

open Types Ast Scope Program Typing Layout Operand HashTable
open Codegen (Ofs Frame Layout Cx funcTag globalFrame genExpr genArgs genName genStmt genStmts genElifs)
open Generated (gen)

/-! ### The passes -/

/-- Where the tokens of names and the nodes of functions lie: not at null, and apart. -/
structure Addresses (tops : List TTop) where
  name : Sym → Nat
  node : TFunc → Nat
  name_ne : ∀ n ∈ declaredNames tops, name n ≠ 0
  name_inj : ∀ n ∈ declaredNames tops, ∀ k ∈ declaredNames tops, name n = name k → n = k
  node_ne : ∀ f, TTop.func f ∈ tops → node f ≠ 0
  node_inj : ∀ f g, TTop.func f ∈ tops → TTop.func g ∈ tops → node f = node g → f = g

/-- `count_top_decls_and_funcs` -/
def countTopDeclsAndFuncs : List TTop → Nat × Nat
  | [] => (0, 0)
  | .skip :: rest => countTopDeclsAndFuncs rest
  | .func _ :: rest =>
    let (declCount, funcCount) := countTopDeclsAndFuncs rest
    (declCount, 1 + funcCount)
  | .decl names _ :: rest =>
    let (declCount, funcCount) := countTopDeclsAndFuncs rest
    (names.length + declCount, funcCount)

mutual
/-- `count_block_decls` -/
def countStmt : TStmt → Nat
  | .decl names _ _ => names.length
  | .blok b | .noin b | .whil _ b | .dowh b _ => countStmts b
  | .cond _ b rest => countStmts b + countElifs rest
  | _ => 0
def countStmts : TStmts → Nat
  | .nil => 0
  | .cons s rest => countStmt s + countStmts rest
def countElifs : TElifs → Nat
  | .none => 0
  | .els b => countStmts b
  | .elif _ b rest => countStmts b + countElifs rest
end

/-- `count_block_decls` on a function -/
def countBlockDecls (f : TFunc) : Nat := f.params.names.length + countStmts f.stmts

/-- A frame and its table under construction. -/
structure TabFrame where
  size : Nat
  layout : Filling Ofs

section Insert

variable {tops : List TTop} (m : Addresses tops)

/-- One name of a declaration. -/
def insertName (t : Ty) (fr : TabFrame) (name : Sym) : Option TabFrame :=
  let off := wrap64 (alignUp fr.size t.alignment)
  (fr.layout.insert (m.name name) ⟨off, t.bytes⟩).map fun l => ⟨wrap64 (off + t.bytes), l⟩

def insertDecl (names : List Sym) (t : Ty) (fr : TabFrame) : Option TabFrame :=
  names.foldlM (insertName m t) fr

/-- One parameter. -/
def insertParam (fr : TabFrame) (name : Sym) (t : Ty) : Option TabFrame :=
  (fr.layout.insert (m.name name) ⟨fr.size, t.bytes⟩).map fun l =>
    ⟨wrap64 (alignUp (wrap64 (fr.size + t.bytes)) 8), l⟩

def insertParams : Fields → TabFrame → Option TabFrame
  | .nil, fr => some fr
  | .cons n t rest, fr => (insertParam m fr n t).bind (insertParams rest)

mutual
/-- `create_frame_layout` -/
def insertStmt : TStmt → TabFrame → Option TabFrame
  | .decl names t _, fr => insertDecl m names t fr
  | .blok b, fr | .noin b, fr | .whil _ b, fr | .dowh b _, fr => insertStmts b fr
  | .cond _ b rest, fr => (insertStmts b fr).bind (insertElifs rest)
  | _, fr => some fr
def insertStmts : TStmts → TabFrame → Option TabFrame
  | .nil, fr => some fr
  | .cons s rest, fr => (insertStmt s fr).bind (insertStmts rest)
def insertElifs : TElifs → TabFrame → Option TabFrame
  | .none, fr => some fr
  | .els b, fr => insertStmts b fr
  | .elif _ b rest, fr => (insertStmts b fr).bind (insertElifs rest)
end

/-- `struct func_tag` with its table -/
structure Tag where
  frameSize : Nat
  argsSize : Nat
  layout : Filling Ofs

/-- `create_frame_layout` on a function and the table created for it -/
def createFrameLayout (f : TFunc) (layout : Filling Ofs) : Option Tag :=
  (insertParams m f.params ⟨0, layout⟩).bind fun args =>
    (insertStmts m f.stmts args).map fun all => ⟨wrap64 (alignUp all.size 8), args.size, all.layout⟩

/-- `data_offset`, `globals` and `funcs` -/
structure SymbolTables where
  data : TabFrame
  funcs : Filling Tag

/-- A statement of the loop of `create_global_and_frame_layouts`. The tag is inserted with its
frame laid out; in the source that comes after, through the pointer. -/
def createTop (x : SymbolTables) : TTop → Option SymbolTables
  | .skip => some x
  | .decl names t => (insertDecl m names t x.data).map fun data => { x with data := data }
  | .func f =>
    (createFrameLayout m f (Filling.create (countBlockDecls f))).bind fun tag =>
      (x.funcs.insert (m.node f) tag).map fun funcs => { x with funcs := funcs }

/-- `create_global_and_frame_layouts`; nothing where an insertion fails -/
def createGlobalAndFrameLayouts (declCount funcCount : Nat) : Option SymbolTables :=
  tops.foldlM (createTop m) ⟨⟨0, Filling.create declCount⟩, Filling.create funcCount⟩

end Insert

/-! ### The counts -/

section Counts

/-- The variables of a function, in the order they are inserted. -/
def funcVars (f : TFunc) : List Var := f.params.toList ++ localVars f

def funcsOf : List TTop → List TFunc
  | [] => []
  | .func f :: rest => f :: funcsOf rest
  | _ :: rest => funcsOf rest

lemma declVars_length (ds es : List (List Sym × Ty)) :
    ((ds ++ es).flatMap declVars).length =
      (ds.flatMap declVars).length + (es.flatMap declVars).length := by
  rw [List.flatMap_append, List.length_append]

mutual
lemma countStmt_eq : ∀ s : TStmt, countStmt s = ((stmtLocals s).flatMap declVars).length
  | .decl names t _ => by simp [countStmt, stmtLocals, declVars]
  | .cond _ b rest => by
    rw [countStmt, stmtLocals, declVars_length, countStmts_eq b, countElifs_eq rest]
  | .blok b | .noin b | .whil _ b | .dowh b _ => countStmts_eq b
  | .retn _ | .wait _ _ _ _ _ | .wlab _ _ | .expr _ => rfl
lemma countStmts_eq : ∀ b : TStmts, countStmts b = ((stmtsLocals b).flatMap declVars).length
  | .nil => rfl
  | .cons s rest => by
    rw [countStmts, stmtsLocals, declVars_length, countStmt_eq s, countStmts_eq rest]
lemma countElifs_eq : ∀ r : TElifs, countElifs r = ((elifsLocals r).flatMap declVars).length
  | .none => rfl
  | .els b => countStmts_eq b
  | .elif _ b rest => by
    rw [countElifs, elifsLocals, declVars_length, countStmts_eq b, countElifs_eq rest]
end

/-- **A function has as many variables as are counted.** -/
theorem countBlockDecls_eq (f : TFunc) : countBlockDecls f = (funcVars f).length := by
  rw [countBlockDecls, countStmts_eq, funcVars, List.length_append, ← params_names, List.length_map]
  rfl

/-- **A unit has as many global variables and functions as are counted.** -/
theorem countTop_eq (tops : List TTop) :
    countTopDeclsAndFuncs tops = ((globalVars tops).length, (funcsOf tops).length) := by
  induction tops with
  | nil => rfl
  | cons top rest ih =>
    cases top with
    | skip => exact ih
    | func f => simp [countTopDeclsAndFuncs, ih, funcsOf, globalVars, globalDecls, Nat.add_comm]
    | decl names t => simp [countTopDeclsAndFuncs, ih, funcsOf, globalVars, globalDecls, declVars]

end Counts

/-! ### Every insertion succeeds -/

section Runs

variable {tops : List TTop} {m : Addresses tops} {x : Filling Ofs} {us vs : List Var} {l : Layout}

/-- The table holds an entry for each of the variables, in their order, and the list of the
generator holds the same ones. -/
structure Entries (m : Addresses tops) (vs : List Var) (x : Filling Ofs) (l : Layout) : Prop where
  holds : x.Holds
  rows : ∃ rows : List (Var × Ofs), rows.map Prod.fst = vs ∧
    x.calls = rows.map (fun r => (m.name r.1.1, r.2)) ∧ l = (rows.map fun r => (r.1.1.beg, r.2)).reverse

lemma entries_nil {count : Nat} : Entries m [] (Filling.create count) [] :=
  ⟨create_holds, [], rfl, rfl, rfl⟩

lemma Entries.length (h : Entries m vs x l) : x.calls.length = vs.length := by
  obtain ⟨rows, rfl, hc, -⟩ := h.rows
  rw [hc, List.length_map, List.length_map]

/-- One more variable. -/
lemma entries_insert (h : Entries m us x l) {v : Var} (ofs : Ofs) (hv : v.1 ∈ declaredNames tops)
    (hus : ∀ u ∈ us, u.1 ∈ declaredNames tops ∧ u.1 ≠ v.1) (hroom : us.length < x.htab.count) :
    ∃ x', x.insert (m.name v.1) ofs = some x' ∧ x'.htab.count = x.htab.count ∧
      Entries m (us ++ [v]) x' ((v.1.beg, ofs) :: l) := by
  have hlen := h.length
  obtain ⟨rows, rfl, hcalls, rfl⟩ := h.rows
  have hnew : m.name v.1 ∉ x.calls.map Prod.fst := by
    rw [hcalls, List.map_map, List.mem_map]
    rintro ⟨r, hr, he⟩
    obtain ⟨hdecl, hne⟩ := hus r.1 (List.mem_map.mpr ⟨r, hr, rfl⟩)
    exact hne (m.name_inj _ hdecl _ hv he)
  obtain ⟨x', hx, hc, hcount, hholds⟩ := insert_holds ofs h.holds (m.name_ne _ hv) hnew
    (by rw [hlen]; exact hroom)
  refine ⟨x', hx, hcount, hholds, rows ++ [(v, ofs)], by simp, ?_, by simp⟩
  rw [hc, hcalls, List.map_append]
  rfl

/-- A pass over variables that inserts each where the pass of the generator lists it. -/
theorem entries_run {put : TabFrame → Var → Option TabFrame} {lay : Frame → Var → Frame}
    (us vs : List Var) (x : TabFrame) (fr : Frame)
    (hstep : ∀ x fr v, x.size = fr.size → ∃ ofs size,
      put x v = (x.layout.insert (m.name v.1) ofs).map (fun l => ⟨size, l⟩) ∧
        lay fr v = ⟨size, (v.1.beg, ofs) :: fr.layout⟩)
    (hsize : x.size = fr.size) (h : Entries m us x.layout fr.layout)
    (hdecl : ∀ v ∈ us ++ vs, v.1 ∈ declaredNames tops) (hnodup : ((us ++ vs).map Prod.fst).Nodup)
    (hroom : (us ++ vs).length ≤ x.layout.htab.count) :
    ∃ x', vs.foldlM put x = some x' ∧ x'.layout.htab.count = x.layout.htab.count ∧
      x'.size = (vs.foldl lay fr).size ∧ Entries m (us ++ vs) x'.layout (vs.foldl lay fr).layout := by
  induction vs generalizing us x fr with
  | nil => exact ⟨x, rfl, rfl, hsize, by simpa using h⟩
  | cons v vs ih =>
    obtain ⟨ofs, size, hput, hlay⟩ := hstep x fr v hsize
    have hv : v.1 ∈ declaredNames tops := hdecl v (by simp)
    have hus : ∀ u ∈ us, u.1 ∈ declaredNames tops ∧ u.1 ≠ v.1 := by
      intro u hu
      refine ⟨hdecl u (List.mem_append_left _ hu), fun he => ?_⟩
      rw [List.map_append, List.nodup_append] at hnodup
      exact hnodup.2.2 _ (List.mem_map.mpr ⟨u, hu, rfl⟩) _ (by simp) he
    obtain ⟨l, hl, hcount, hent⟩ := entries_insert h ofs hv hus (by
      rw [List.length_append, List.length_cons] at hroom
      omega)
    obtain ⟨x', hx, hc, hs, he⟩ := ih (us ++ [v]) ⟨size, l⟩ (lay fr v)
      (by rw [hlay]) (by rw [hlay]; exact hent) (by simpa using hdecl) (by simpa using hnodup)
      (by simpa [hcount] using hroom)
    refine ⟨x', ?_, hc.trans hcount, hs, by simpa using he⟩
    rw [List.foldlM_cons, hput, hl]
    exact hx

lemma name_step (x : TabFrame) (fr : Frame) (v : Var) (h : x.size = fr.size) : ∃ ofs size,
    insertName m v.2 x v.1 = (x.layout.insert (m.name v.1) ofs).map (fun l => ⟨size, l⟩) ∧
      layoutVar fr v = ⟨size, (v.1.beg, ofs) :: fr.layout⟩ := by
  refine ⟨⟨wrap64 (alignUp fr.size v.2.alignment), v.2.bytes⟩, _, ?_, rfl⟩
  rw [insertName, h]

lemma param_step (x : TabFrame) (fr : Frame) (v : Var) (h : x.size = fr.size) : ∃ ofs size,
    insertParam m x v.1 v.2 = (x.layout.insert (m.name v.1) ofs).map (fun l => ⟨size, l⟩) ∧
      layoutPar fr v = ⟨size, (v.1.beg, ofs) :: fr.layout⟩ := by
  refine ⟨⟨fr.size, v.2.bytes⟩, _, ?_, rfl⟩
  rw [insertParam, h]

end Runs

/-! ### The tables of an accepted unit -/

section Passes

variable {tops : List TTop} {m : Addresses tops} {f : TFunc}

def insertVar (m : Addresses tops) (x : TabFrame) (v : Var) : Option TabFrame := insertName m v.2 x v.1

lemma insertDecl_eq (names : List Sym) (t : Ty) (x : TabFrame) :
    insertDecl m names t x = (declVars (names, t)).foldlM (insertVar m) x := by
  rw [insertDecl, declVars, List.foldlM_map]
  rfl

lemma foldlM_vars (ds es : List (List Sym × Ty)) (x : TabFrame) :
    ((ds ++ es).flatMap declVars).foldlM (insertVar m) x =
      ((ds.flatMap declVars).foldlM (insertVar m) x).bind
        ((es.flatMap declVars).foldlM (insertVar m)) := by
  rw [List.flatMap_append, List.foldlM_append]
  rfl

mutual
lemma insertStmt_eq : ∀ (s : TStmt) (x : TabFrame),
    insertStmt m s x = ((stmtLocals s).flatMap declVars).foldlM (insertVar m) x
  | .decl names t _, x => by
    rw [insertStmt, insertDecl_eq]
    simp [stmtLocals]
  | .cond _ b rest, x => by
    rw [insertStmt, stmtLocals, foldlM_vars, insertStmts_eq b]
    exact congrArg _ (funext fun y => insertElifs_eq rest y)
  | .blok b, x | .noin b, x | .whil _ b, x | .dowh b _, x => insertStmts_eq b x
  | .retn _, _ | .wait _ _ _ _ _, _ | .wlab _ _, _ | .expr _, _ => rfl
lemma insertStmts_eq : ∀ (b : TStmts) (x : TabFrame),
    insertStmts m b x = ((stmtsLocals b).flatMap declVars).foldlM (insertVar m) x
  | .nil, _ => rfl
  | .cons s rest, x => by
    rw [insertStmts, stmtsLocals, foldlM_vars, insertStmt_eq s]
    exact congrArg _ (funext fun y => insertStmts_eq rest y)
lemma insertElifs_eq : ∀ (r : TElifs) (x : TabFrame),
    insertElifs m r x = ((elifsLocals r).flatMap declVars).foldlM (insertVar m) x
  | .none, _ => rfl
  | .els b, x => insertStmts_eq b x
  | .elif _ b rest, x => by
    rw [insertElifs, elifsLocals, foldlM_vars, insertStmts_eq b]
    exact congrArg _ (funext fun y => insertElifs_eq rest y)
end

lemma insertParams_eq : ∀ (ps : Fields) (x : TabFrame),
    insertParams m ps x = ps.toList.foldlM (fun x v => insertParam m x v.1 v.2) x
  | .nil, _ => rfl
  | .cons n t rest, x => by
    rw [insertParams, Fields.toList, List.foldlM_cons]
    exact congrArg _ (funext fun y => insertParams_eq rest y)

lemma declared_nodup (hA : Accepted tops) : (declaredNames tops).Nodup := List.Nodup.of_map _ hA.distinct

lemma funcVars_names (f : TFunc) :
    (funcVars f).map Prod.fst = f.params.names ++ (stmtsLocals f.stmts).flatMap Prod.fst := by
  rw [funcVars, List.map_append, params_names, localVars, vars_names]

lemma funcVars_sublist (hf : TTop.func f ∈ tops) :
    ((funcVars f).map Prod.fst).Sublist (declaredNames tops) := by
  rw [funcVars_names]
  exact (List.sublist_cons_self _ _).trans (funcNames_sublist hf)

/-- The table of a function has its variables and no other item, and sizes as the generator has. -/
structure FuncTable (m : Addresses tops) (f : TFunc) (tag : Tag) : Prop where
  frameSize : tag.frameSize = (funcTag f).frameSize
  argsSize : tag.argsSize = (funcTag f).argsSize
  count : tag.layout.htab.count = countBlockDecls f
  entries : Entries m (funcVars f) tag.layout (funcTag f).layout

/-- **The table of a function is filled.** -/
theorem frame_created (hA : Accepted tops) (hf : TTop.func f ∈ tops) :
    ∃ tag, createFrameLayout m f (Filling.create (countBlockDecls f)) = some tag ∧
      FuncTable m f tag := by
  have hnodup : ((funcVars f).map Prod.fst).Nodup := (declared_nodup hA).sublist (funcVars_sublist hf)
  have hdecl : ∀ v ∈ funcVars f, v.1 ∈ declaredNames tops := fun v hv =>
    (funcVars_sublist hf).subset (List.mem_map.mpr ⟨v, hv, rfl⟩)
  have hcount := countBlockDecls_eq f
  rw [funcVars, List.map_append, List.nodup_append] at hnodup
  obtain ⟨args, hargs, hca, hsa, hea⟩ := entries_run (m := m) [] f.params.toList
    ⟨0, Filling.create (countBlockDecls f)⟩ ⟨0, []⟩ param_step rfl entries_nil
    (fun v hv => hdecl v (List.mem_append_left _ hv)) hnodup.1 (by
      show _ ≤ countBlockDecls f
      simp [hcount, funcVars])
  rw [List.nil_append] at hea
  obtain ⟨all, hall, hcl, hsl, hel⟩ := entries_run (m := m) f.params.toList
    (localVars f) _ _ name_step hsa hea hdecl ((declared_nodup hA).sublist (funcVars_sublist hf)) (by
      rw [hca]
      exact hcount.ge)
  refine ⟨⟨wrap64 (alignUp all.size 8), args.size, all.layout⟩, ?_, ?_⟩
  · rw [createFrameLayout, insertParams_eq, hargs]
    show (insertStmts m f.stmts args).map _ = _
    rw [insertStmts_eq]
    exact congrArg _ hall
  · have htag : funcTag f = ⟨wrap64 (alignUp (layoutVars (localVars f)
        (f.params.toList.foldl layoutPar ⟨0, []⟩)).size 8),
        (f.params.toList.foldl layoutPar ⟨0, []⟩).size,
        (layoutVars (localVars f) (f.params.toList.foldl layoutPar ⟨0, []⟩)).layout⟩ := by
      rw [← layoutParams_eq, localVars, ← layoutStmts_eq]
      rfl
    constructor
    · rw [htag, hsl]
      rfl
    · rw [htag, hsa]
    · exact hcl.trans hca
    · rw [htag]
      exact hel

end Passes

section Unit

variable {tops seen rest : List TTop} {m : Addresses tops} {x : SymbolTables} {f : TFunc}

lemma globalVars_append (ts us : List TTop) : globalVars (ts ++ us) = globalVars ts ++ globalVars us := by
  induction ts with
  | nil => rfl
  | cons top ts ih =>
    cases top with
    | decl names t =>
      simp only [globalVars, globalDecls, List.cons_append, List.flatMap_cons] at ih ⊢
      rw [ih, List.append_assoc]
    | _ => exact ih

lemma funcsOf_append (ts us : List TTop) : funcsOf (ts ++ us) = funcsOf ts ++ funcsOf us := by
  induction ts with
  | nil => rfl
  | cons top ts ih =>
    cases top with
    | func f => exact congrArg (f :: ·) ih
    | _ => exact ih

lemma mem_funcsOf : f ∈ funcsOf tops ↔ TTop.func f ∈ tops := by
  induction tops with
  | nil => simp [funcsOf]
  | cons top tops ih => cases top <;> simp [funcsOf, ih]

lemma funcNames_nodup (hA : Accepted tops) : ((funcsOf tops).map TFunc.name).Nodup := by
  have hsub : ∀ ts : List TTop, ((funcsOf ts).map TFunc.name).Sublist (declaredNames ts) := by
    intro ts
    induction ts with
    | nil => exact List.Sublist.refl _
    | cons top ts ih =>
      cases top with
      | skip => exact ih
      | decl names t => exact ih.trans (List.sublist_append_right _ _)
      | func f =>
        simp only [funcsOf, List.map_cons, declaredNames, List.cons_append]
        exact (ih.trans (List.sublist_append_right _ _)).cons_cons _
  exact (declared_nodup hA).sublist (hsub tops)

lemma globalVars_sublist (tops : List TTop) :
    ((globalVars tops).map Prod.fst).Sublist (declaredNames tops) := by
  rw [globalVars, vars_names]
  exact globalNames_sublist tops

/-- The tables after some statements of the unit. -/
structure Laid (m : Addresses tops) (seen : List TTop) (x : SymbolTables) : Prop where
  size : x.data.size = (globalFrame seen ⟨0, []⟩).size
  globals : Entries m (globalVars seen) x.data.layout (globalFrame seen ⟨0, []⟩).layout
  globalCount : x.data.layout.htab.count = (globalVars tops).length
  funcs : x.funcs.Holds
  tags : List.Forall₂ (fun f c => c.1 = m.node f ∧ FuncTable m f c.2) (funcsOf seen) x.funcs.calls
  funcCount : x.funcs.htab.count = (funcsOf tops).length

lemma paired_left {α β : Type} {R : α → β → Prop} {as : List α} {bs : List β}
    (h : List.Forall₂ R as bs) : ∀ a ∈ as, ∃ b ∈ bs, R a b := by
  induction h with
  | nil => exact List.forall_mem_nil _
  | cons hr _ ih =>
    exact List.forall_mem_cons.mpr ⟨⟨_, List.mem_cons_self, hr⟩, fun a ha =>
      (ih a ha).imp fun b hb => ⟨List.mem_cons_of_mem _ hb.1, hb.2⟩⟩

lemma paired_right {α β : Type} {R : α → β → Prop} {as : List α} {bs : List β}
    (h : List.Forall₂ R as bs) : ∀ b ∈ bs, ∃ a ∈ as, R a b := paired_left h.flip

lemma decl_laid (hA : Accepted tops) {names : List Sym} {t : Ty}
    (hs : tops = seen ++ TTop.decl names t :: rest) (h : Laid m seen x) :
    ∃ x', createTop m x (.decl names t) = some x' ∧ Laid m (seen ++ [TTop.decl names t]) x' := by
  have hvars : globalVars tops = globalVars seen ++ (declVars (names, t) ++ globalVars rest) := by
    rw [hs, globalVars_append]
    rfl
  have hpre : (globalVars seen ++ declVars (names, t)).Sublist (globalVars tops) := by
    rw [hvars, ← List.append_assoc]
    exact List.sublist_append_left _ _
  have hsub := (hpre.map Prod.fst).trans (globalVars_sublist tops)
  have hframe : globalFrame (seen ++ [TTop.decl names t]) ⟨0, []⟩ =
      (declVars (names, t)).foldl layoutVar (globalFrame seen ⟨0, []⟩) := by
    rw [globalFrame_eq, globalFrame_eq, globalVars_append, layoutVars_append]
    simp [globalVars, globalDecls, layoutVars]
  have hseen : globalVars (seen ++ [TTop.decl names t]) = globalVars seen ++ declVars (names, t) := by
    rw [globalVars_append]
    simp [globalVars, globalDecls]
  obtain ⟨data, hrun, hcount, hsize, hent⟩ := entries_run (m := m) _
    (declVars (names, t)) _ _ name_step h.size h.globals
    (fun v hv => hsub.subset (List.mem_map.mpr ⟨v, hv, rfl⟩))
    ((declared_nodup hA).sublist hsub) (by
      rw [h.globalCount]
      exact hpre.length_le)
  refine ⟨{ x with data := data }, ?_, ?_⟩
  · rw [createTop, insertDecl_eq]
    exact congrArg _ hrun
  · constructor
    · rw [hframe]
      exact hsize
    · rw [hframe, hseen]
      exact hent
    · exact hcount.trans h.globalCount
    · exact h.funcs
    · rw [funcsOf_append]
      simpa [funcsOf] using h.tags
    · exact h.funcCount

lemma func_laid (hA : Accepted tops) (hs : tops = seen ++ TTop.func f :: rest) (h : Laid m seen x) :
    ∃ x', createTop m x (.func f) = some x' ∧ Laid m (seen ++ [TTop.func f]) x' := by
  have hf : TTop.func f ∈ tops := by simp [hs]
  have hfuncs : funcsOf tops = funcsOf seen ++ f :: funcsOf rest := by
    rw [hs, funcsOf_append]
    rfl
  have hnodup := List.Nodup.of_map _ (funcNames_nodup hA)
  rw [hfuncs, List.nodup_append] at hnodup
  obtain ⟨tag, htag, htable⟩ := frame_created (m := m) hA hf
  have hnew : m.node f ∉ x.funcs.calls.map Prod.fst := by
    intro hmem
    obtain ⟨c, hc, he⟩ := List.mem_map.mp hmem
    obtain ⟨g, hg, hkey, -⟩ := paired_right h.tags c hc
    have hgt : TTop.func g ∈ tops := by
      rw [hs]
      exact List.mem_append_left _ (mem_funcsOf.mp hg)
    exact hnodup.2.2 g hg f List.mem_cons_self (m.node_inj g f hgt hf (hkey.symm.trans he))
  obtain ⟨funcs, hins, hcalls, hcount, hholds⟩ := insert_holds tag h.funcs (m.node_ne f hf)
    hnew (by
      rw [h.funcCount, ← h.tags.length_eq, hfuncs, List.length_append, List.length_cons]
      omega)
  refine ⟨{ x with funcs := funcs }, ?_, ?_⟩
  · rw [createTop, htag]
    show (x.funcs.insert _ tag).map _ = _
    rw [hins]
    rfl
  · have hglob : globalFrame (seen ++ [TTop.func f]) ⟨0, []⟩ = globalFrame seen ⟨0, []⟩ := by
      rw [globalFrame_eq, globalFrame_eq, globalVars_append]
      simp [globalVars, globalDecls]
    constructor
    · rw [hglob]
      exact h.size
    · rw [hglob, globalVars_append]
      simpa [globalVars, globalDecls] using h.globals
    · exact h.globalCount
    · exact hholds
    · rw [funcsOf_append, hcalls]
      exact List.rel_append h.tags (.cons ⟨rfl, htable⟩ .nil)
    · exact hcount.trans h.funcCount

/-- **The tables of an accepted unit are created.** -/
theorem tables_laid (hA : Accepted tops) : ∃ x, createGlobalAndFrameLayouts m
    (countTopDeclsAndFuncs tops).1 (countTopDeclsAndFuncs tops).2 = some x ∧ Laid m tops x := by
  have hrun : ∀ (rest seen : List TTop) (x : SymbolTables), tops = seen ++ rest → Laid m seen x →
      ∃ x', rest.foldlM (createTop m) x = some x' ∧ Laid m tops x' := by
    intro rest
    induction rest with
    | nil =>
      intro seen x hs h
      rw [List.append_nil] at hs
      exact ⟨x, rfl, hs ▸ h⟩
    | cons top rest ih =>
      intro seen x hs h
      have hstep : ∃ x', createTop m x top = some x' ∧ Laid m (seen ++ [top]) x' := by
        cases top with
        | decl names t => exact decl_laid hA hs h
        | func f => exact func_laid hA hs h
        | skip =>
          refine ⟨x, rfl, ?_⟩
          have hd : globalVars (seen ++ [TTop.skip]) = globalVars seen := by
            rw [globalVars_append]
            simp [globalVars, globalDecls]
          have hg : globalFrame (seen ++ [TTop.skip]) ⟨0, []⟩ = globalFrame seen ⟨0, []⟩ := by
            rw [globalFrame_eq, globalFrame_eq, hd]
          have hfn : funcsOf (seen ++ [TTop.skip]) = funcsOf seen := by simp [funcsOf_append, funcsOf]
          exact ⟨hg ▸ h.size, hd ▸ hg ▸ h.globals, h.globalCount, h.funcs, hfn ▸ h.tags, h.funcCount⟩
      obtain ⟨x', hx, h'⟩ := hstep
      obtain ⟨y, hy, hL⟩ := ih (seen ++ [top]) x' (by simpa using hs) h'
      refine ⟨y, ?_, hL⟩
      rw [List.foldlM_cons, hx]
      exact hy
  refine hrun tops [] _ rfl ⟨rfl, entries_nil, ?_, create_holds, .nil, ?_⟩ <;> rw [countTop_eq] <;> rfl

end Unit

/-! ### The lookups of the generator -/

/-- A call of `htab_get`: the variable or the function whose declaration a name stands for. -/
inductive Lookup
  | globals (v : Var)
  | layout (v : Var)
  | funcs (name : Sym)

/-- `gen_name`, and `print_opd` on the address of a function -/
def nameLookups (so : ScopeObj) : List Lookup :=
  match so.obj with
  | .gvar d => [.globals (so.name, d.type)]
  | .avar d => [.layout (so.name, d.type)]
  | .parm t => [.layout (so.name, t)]
  | .func sig => [.funcs sig.name]
  | _ => []

mutual
/-- The calls made for an expression. -/
def exprLookups : TExpr → List Lookup
  | .bexp _ l r _ => exprLookups l ++ exprLookups r
  | .atsi l _ _ | .memb l _ _ | .arow l _ _ | .cast l _ _ | .uexp _ l _ | .xexp _ l _ => exprLookups l
  | .fexp l as _ => argsLookups as ++ exprLookups l
  | .aexp b o _ => exprLookups b ++ exprLookups o
  | .texp c tv fv _ => exprLookups c ++ exprLookups tv ++ exprLookups fv
  | .name so _ => nameLookups so
  | .scop _ _ | .szof _ _ _ | .nmbr _ _ | .strl _ _ => []
def argsLookups : TArgs → List Lookup
  | .nil => []
  | .cons a rest => exprLookups a ++ argsLookups rest
end

def optLookups : Option TExpr → List Lookup
  | none => []
  | some e => exprLookups e

mutual
/-- The calls made for a statement; `gen_decl_auto` looks up the names it initialises. -/
def stmtLookups : TStmt → List Lookup
  | .decl _ _ none => []
  | .decl names t (some e) => exprLookups e ++ names.map fun n => .layout (n, t)
  | .cond e b rest => exprLookups e ++ stmtsLookups b ++ elifsLookups rest
  | .blok b | .noin b => stmtsLookups b
  | .whil e b | .dowh b e => exprLookups e ++ stmtsLookups b
  | .retn e => optLookups e
  | .wait q f _ _ _ => exprLookups q ++ optLookups f
  | .wlab _ _ => []
  | .expr e => exprLookups e
def stmtsLookups : TStmts → List Lookup
  | .nil => []
  | .cons s rest => stmtLookups s ++ stmtsLookups rest
def elifsLookups : TElifs → List Lookup
  | .none => []
  | .els b => stmtsLookups b
  | .elif e b rest => exprLookups e ++ stmtsLookups b ++ elifsLookups rest
end

/-- What the generator reads. -/
def Lookup.read (cx : Cx) : Lookup → Option Ofs
  | .globals v => Codegen.htabGet cx.globals v.1
  | .layout v => Codegen.htabGet cx.ftag.layout v.1
  | .funcs _ => none

/-- Two contexts of the generator that give the same answers. -/
structure Agree (cx cx' : Cx) (qs : List Lookup) : Prop where
  dataSize : cx.dataSize = cx'.dataSize
  frameSize : cx.ftag.frameSize = cx'.ftag.frameSize
  reads : ∀ q ∈ qs, q.read cx = q.read cx'

section Reads

variable {cx cx' : Cx}

lemma Agree.mono {qs ps : List Lookup} (h : Agree cx cx' qs) (hs : ps ⊆ qs) : Agree cx cx' ps :=
  ⟨h.dataSize, h.frameSize, fun q hq => h.reads q (hs hq)⟩

lemma Agree.left {qs ps : List Lookup} (h : Agree cx cx' (qs ++ ps)) : Agree cx cx' qs :=
  h.mono (List.subset_append_left _ _)

lemma Agree.right {qs ps : List Lookup} (h : Agree cx cx' (qs ++ ps)) : Agree cx cx' ps :=
  h.mono (List.subset_append_right _ _)

lemma genName_reads {so : ScopeObj} {t : Ty} (h : Agree cx cx' (nameLookups so)) :
    genName cx so t = genName cx' so t := by
  rcases so with ⟨name, obj⟩
  cases obj with
  | gvar d =>
    have hr := h.reads (.globals (name, d.type)) (by simp [nameLookups])
    simp only [Lookup.read] at hr
    simp only [genName, hr]
  | avar d =>
    have hr := h.reads (.layout (name, d.type)) (by simp [nameLookups])
    simp only [Lookup.read] at hr
    simp only [genName, hr]
  | parm d =>
    have hr := h.reads (.layout (name, d)) (by simp [nameLookups])
    simp only [Lookup.read] at hr
    simp only [genName, hr]
  | _ => rfl

mutual
/-- **The generator looks up nothing else.** -/
theorem genExpr_reads : ∀ (e : TExpr), Agree cx cx' (exprLookups e) → genExpr cx e = genExpr cx' e
  | .bexp op l r t, h => by
    have hl := genExpr_reads l h.left
    have hr := genExpr_reads r h.right
    funext n
    simp only [genExpr, hl, hr]
  | .scop v t, h => rfl
  | .szof _ _ _, h => rfl
  | .nmbr _ _, h => rfl
  | .strl _ _, h => by
    funext n
    simp only [genExpr, Codegen.genStrl, h.dataSize]
  | .atsi l label t, h => by
    funext n
    simp only [genExpr, genExpr_reads l h]
  | .memb l label t, h => by
    funext n
    simp only [genExpr, genExpr_reads l h]
  | .arow l label t, h => by
    funext n
    simp only [genExpr, genExpr_reads l h]
  | .cast l label t, h => by
    funext n
    simp only [genExpr, genExpr_reads l h]
  | .xexp op l t, h => by
    funext n
    simp only [genExpr, genExpr_reads l h]
  | .uexp op r t, h => by
    funext n
    by_cases hcall : op = .tild ∧ ∃ l as tc, r = .fexp l as tc
    · obtain ⟨rfl, l, as, tc, rfl⟩ := hcall
      simp only [genExpr, genArgs_reads as h.left, genExpr_reads l h.right]
    · have hne : op = .tild → ∀ l as tc, r ≠ .fexp l as tc := fun ho l as tc hr =>
        hcall ⟨ho, l, as, tc, hr⟩
      rw [Defined.genExpr_uexp hne, Defined.genExpr_uexp hne]
      have hr := genExpr_reads r h
      have hg : gen cx r = gen cx' r := by
        unfold gen
        rw [hr]
      simp only [Defined.genUexp, hr, hg]
  | .fexp l as t, h => by
    have hl := genExpr_reads l h.right
    have ha := genArgs_reads as h.left
    funext n
    simp only [genExpr, hl, ha]
  | .aexp b o t, h => by
    have hl := genExpr_reads b h.left
    have ha := genExpr_reads o h.right
    funext n
    simp only [genExpr, hl, ha]
  | .texp b o f t, h => by
    have hl := genExpr_reads b h.left.left
    have ha := genExpr_reads o h.left.right
    have hf := genExpr_reads f h.right
    funext n
    simp only [genExpr, hl, ha, hf]
  | .name so t, h => by
    funext n
    simp only [genExpr, genName_reads h]
termination_by e => sizeOf e
decreasing_by all_goals (subst_vars; simp +arith)
theorem genArgs_reads : ∀ (as : TArgs), Agree cx cx' (argsLookups as) → genArgs cx as = genArgs cx' as
  | .nil, _ => rfl
  | .cons a rest, h => by
    rw [Codegen.genArgs_cons, Codegen.genArgs_cons, genExpr_reads a h.left, genArgs_reads rest h.right]
termination_by as => sizeOf as
decreasing_by all_goals simp +arith
end

lemma forM_congr {α : Type} {xs : List α} {k k' : α → Codegen.GenM PUnit} (h : ∀ a ∈ xs, k a = k' a) :
    xs.forM k = xs.forM k' := by
  induction xs with
  | nil => rfl
  | cons a xs ih =>
    rw [List.forall_mem_cons] at h
    show (k a >>= fun _ => xs.forM k) = (k' a >>= fun _ => xs.forM k')
    rw [h.1, ih h.2]

lemma genDeclAuto_reads {names : List Sym} {t : Ty} {e : TExpr}
    (h : Agree cx cx' (exprLookups e ++ names.map fun n => .layout (n, t))) :
    Codegen.genDeclAuto cx names t (some e) = Codegen.genDeclAuto cx' names t (some e) := by
  have hn : ∀ n ∈ names, Codegen.htabGet cx.ftag.layout n = Codegen.htabGet cx'.ftag.layout n :=
    fun n hn => h.reads (.layout (n, t)) (List.mem_append_right _ (List.mem_map.mpr ⟨n, hn, rfl⟩))
  simp only [Codegen.genDeclAuto, genExpr_reads e h.left]
  refine congrArg _ (funext fun a => forM_congr fun n hmem => ?_)
  rw [hn n hmem]

mutual
theorem genStmt_reads : ∀ (s : TStmt), Agree cx cx' (stmtLookups s) → genStmt cx s = genStmt cx' s
  | .decl _ _ none, _ => rfl
  | .decl names t (some e), h => by
    simp only [genStmt, genDeclAuto_reads h]
  | .cond e b rest, h => by
    simp only [genStmt, genExpr_reads e h.left.left, genStmts_reads b h.left.right,
      genElifs_reads rest h.right]
  | .blok b, h | .noin b, h => by
    simp only [genStmt, genStmts_reads b h]
  | .whil e b, h | .dowh b e, h => by
    simp only [genStmt, genExpr_reads e h.left, genStmts_reads b h.right]
  | .retn none, h => by
    simp only [genStmt, Codegen.genRetn, h.frameSize]
  | .retn (some e), h => by
    simp only [genStmt, Codegen.genRetn, h.frameSize, genExpr_reads e h]
  | .wait q none label nb un, h => by
    simp only [genStmt, Codegen.genWait, genExpr_reads q h.left]
  | .wait q (some f) label nb un, h => by
    have hf := genExpr_reads f h.right
    simp only [genStmt, Codegen.genWait, genExpr_reads q h.left, hf]
  | .wlab _ _, _ => rfl
  | .expr e, h => by
    simp only [genStmt, genExpr_reads e h]
theorem genStmts_reads : ∀ (b : TStmts), Agree cx cx' (stmtsLookups b) → genStmts cx b = genStmts cx' b
  | .nil, _ => rfl
  | .cons s rest, h => by
    rw [Codegen.genStmts_cons, Codegen.genStmts_cons, genStmt_reads s h.left, genStmts_reads rest h.right]
theorem genElifs_reads : ∀ (r : TElifs), Agree cx cx' (elifsLookups r) → ∀ prev,
    genElifs cx prev r = genElifs cx' prev r
  | .none, _, _ => rfl
  | .els b, h, _ => by
    rw [Codegen.genElifs_els, Codegen.genElifs_els, genStmts_reads b h]
  | .elif e b rest, h, _ => by
    simp only [genElifs, genExpr_reads e h.left.left, genStmts_reads b h.left.right,
      genElifs_reads rest h.right]
end

end Reads

/-! ### The lookups of a checked function -/

section Checked

variable {K : ScopeObj → Ty → Prop} {P : Lookup → Prop} {ret : RetTy} {L : List (List Sym × Ty)}

mutual
lemma expr_lookups (hK : ∀ so t, K so t → ∀ q ∈ nameLookups so, P q) : ∀ e : TExpr, Checked K e →
    ∀ q ∈ exprLookups e, P q
  | .bexp _ l r _, hc =>
    List.forall_mem_append.mpr ⟨expr_lookups hK l hc.2.1, expr_lookups hK r hc.2.2⟩
  | .atsi l _ _, hc | .memb l _ _, hc | .arow l _ _, hc | .uexp _ l _, hc | .xexp _ l _, hc =>
    expr_lookups hK l hc.2
  | .cast l _ _, hc => expr_lookups hK l hc.2.2.2
  | .fexp l as _, hc => by
    obtain ⟨params, ret, -, -, hl, has⟩ := hc
    exact List.forall_mem_append.mpr ⟨args_lookups hK as params has, expr_lookups hK l hl⟩
  | .aexp b o _, hc =>
    List.forall_mem_append.mpr ⟨expr_lookups hK b hc.2.1, expr_lookups hK o hc.2.2⟩
  | .texp c tv fv _, hc =>
    List.forall_mem_append.mpr ⟨List.forall_mem_append.mpr ⟨expr_lookups hK c hc.2.1,
      expr_lookups hK tv hc.2.2.1⟩, expr_lookups hK fv hc.2.2.2⟩
  | .name so t, hc => hK so t hc
  | .scop _ _, _ | .szof _ _ _, _ | .nmbr _ _, _ | .strl _ _, _ => List.forall_mem_nil _
lemma args_lookups (hK : ∀ so t, K so t → ∀ q ∈ nameLookups so, P q) : ∀ (as : TArgs) (ps : Fields),
    CheckedArgs K ps as → ∀ q ∈ argsLookups as, P q
  | .nil, _, _ => List.forall_mem_nil _
  | .cons _ _, .nil, hc => hc.elim
  | .cons a rest, .cons _ _ ps, hc =>
    List.forall_mem_append.mpr ⟨expr_lookups hK a hc.1, args_lookups hK rest ps hc.2.2⟩
end

mutual
lemma stmt_lookups (hK : ∀ so t, K so t → ∀ q ∈ nameLookups so, P q)
    (hL : ∀ d ∈ L, ∀ n ∈ d.1, P (.layout (n, d.2))) : ∀ s : TStmt, CheckedStmt K ret s →
    stmtLocals s ⊆ L → ∀ q ∈ stmtLookups s, P q
  | .decl _ _ none, _, _ => List.forall_mem_nil _
  | .decl names t (some e), hc, hs => by
    refine List.forall_mem_append.mpr ⟨expr_lookups hK e (hc.2.2 e rfl).1, ?_⟩
    exact List.forall_mem_map.mpr fun n hn => hL (names, t) (hs List.mem_cons_self) n hn
  | .cond e b rest, hc, hs => by
    obtain ⟨hb, hr⟩ := List.append_subset.mp hs
    exact List.forall_mem_append.mpr ⟨List.forall_mem_append.mpr ⟨expr_lookups hK e hc.1,
      stmts_lookups hK hL b hc.2.1 hb⟩, elifs_lookups hK hL rest hc.2.2 hr⟩
  | .blok b, hc, hs | .noin b, hc, hs => stmts_lookups hK hL b hc hs
  | .whil e b, hc, hs | .dowh b e, hc, hs =>
    List.forall_mem_append.mpr ⟨expr_lookups hK e hc.1, stmts_lookups hK hL b hc.2 hs⟩
  | .retn none, _, _ | .wlab _ _, _, _ => List.forall_mem_nil _
  | .retn (some e), hc, _ => by
    cases ret with
    | none => exact hc.elim
    | some rt => exact expr_lookups hK e hc.1
  | .wait q none _ _ _, hc, _ =>
    List.forall_mem_append.mpr ⟨expr_lookups hK q hc.1, List.forall_mem_nil _⟩
  | .wait q (some w) _ _ _, hc, _ =>
    List.forall_mem_append.mpr ⟨expr_lookups hK q hc.1, expr_lookups hK w (hc.2.2.2 w rfl).1⟩
  | .expr e, hc, _ => expr_lookups hK e hc
lemma stmts_lookups (hK : ∀ so t, K so t → ∀ q ∈ nameLookups so, P q)
    (hL : ∀ d ∈ L, ∀ n ∈ d.1, P (.layout (n, d.2))) : ∀ b : TStmts, CheckedStmts K ret b →
    stmtsLocals b ⊆ L → ∀ q ∈ stmtsLookups b, P q
  | .nil, _, _ => List.forall_mem_nil _
  | .cons s rest, hc, hs => by
    obtain ⟨hss, hr⟩ := List.append_subset.mp hs
    exact List.forall_mem_append.mpr ⟨stmt_lookups hK hL s hc.1 hss, stmts_lookups hK hL rest hc.2 hr⟩
lemma elifs_lookups (hK : ∀ so t, K so t → ∀ q ∈ nameLookups so, P q)
    (hL : ∀ d ∈ L, ∀ n ∈ d.1, P (.layout (n, d.2))) : ∀ r : TElifs, CheckedElifs K ret r →
    elifsLocals r ⊆ L → ∀ q ∈ elifsLookups r, P q
  | .none, _, _ => List.forall_mem_nil _
  | .els b, hc, hs => stmts_lookups hK hL b hc hs
  | .elif e b rest, hc, hs => by
    obtain ⟨hb, hr⟩ := List.append_subset.mp hs
    exact List.forall_mem_append.mpr ⟨List.forall_mem_append.mpr ⟨expr_lookups hK e hc.1,
      stmts_lookups hK hL b hc.2.1 hb⟩, elifs_lookups hK hL rest hc.2.2 hr⟩
end

end Checked

/-! ### Every lookup is answered -/

section Answers

variable {tops : List TTop}

/-- The table was created with a count, was filled by as many insertions, and answers every key
with what was inserted for it, whether the build has the assertions or not. -/
structure Full {δ : Type} (x : Filling δ) (count : Nat) : Prop where
  created : x.htab.count = count
  filled : x.calls.length = count
  found : ∀ c ∈ x.calls, ∀ ndebug, htabGet ndebug x.htab c.1 = some c.2

/-- The variable is found: the answer is what was inserted when it was its turn, which is what
the list of the generator has. -/
def Finds (m : Addresses tops) (vs : List Var) (x : Filling Ofs) (l : Layout) (v : Var) : Prop :=
  ∃ (i : Nat) (ofs : Ofs), vs[i]? = some v ∧ x.calls[i]? = some (m.name v.1, ofs) ∧
    (∀ ndebug, htabGet ndebug x.htab (m.name v.1) = some ofs) ∧ Codegen.htabGet l v.1 = some ofs

/-- The function is found: the answer is the tag inserted when it was its turn. -/
def FindsFunc (m : Addresses tops) (x : SymbolTables) (f : TFunc) (tag : Tag) : Prop :=
  ∃ i : Nat, (funcsOf tops)[i]? = some f ∧ x.funcs.calls[i]? = some (m.node f, tag) ∧
    (∀ ndebug, htabGet ndebug x.funcs.htab (m.node f) = some tag) ∧ FuncTable m f tag

def Answered (m : Addresses tops) (x : SymbolTables) (f : TFunc) (tag : Tag) : Lookup → Prop
  | .globals v => Finds m (globalVars tops) x.data.layout (globalFrame tops ⟨0, []⟩).layout v
  | .layout v => Finds m (funcVars f) tag.layout (funcTag f).layout v
  | .funcs name => ∃ g tag', TTop.func g ∈ tops ∧ g.name = name ∧ FindsFunc m x g tag'

variable {m : Addresses tops} {x : SymbolTables} {f : TFunc} {tag : Tag}

lemma full_of_holds {δ : Type} {x : Filling δ} {count : Nat} (h : x.Holds) (hc : x.htab.count = count)
    (hl : x.calls.length = count) : Full x count := ⟨hc, hl, fun _ => h.found⟩

lemma Entries.finds {vs : List Var} {y : Filling Ofs} {l : Layout} {v : Var} (h : Entries m vs y l)
    (hkeys : (keys l).Nodup) (hv : v ∈ vs) : Finds m vs y l v := by
  obtain ⟨rows, rfl, hcalls, rfl⟩ := h.rows
  obtain ⟨i, hi⟩ := List.mem_iff_getElem?.mp hv
  rw [List.getElem?_map, Option.map_eq_some_iff] at hi
  obtain ⟨⟨v', ofs⟩, hr, rfl⟩ := hi
  have hcall : y.calls[i]? = some (m.name v'.1, ofs) := by
    rw [hcalls, List.getElem?_map, hr]
    rfl
  refine ⟨i, ofs, by rw [List.getElem?_map, hr]; rfl, hcall,
    h.holds.found (List.mem_of_getElem? hcall), ?_⟩
  exact htabGet_of_mem hkeys
    (List.mem_reverse.mpr (List.mem_map.mpr ⟨_, List.mem_of_getElem? hr, rfl⟩))

lemma Laid.findsFunc (h : Laid m tops x) (hf : TTop.func f ∈ tops) : ∃ tag, FindsFunc m x f tag := by
  obtain ⟨i, hi⟩ := List.mem_iff_getElem?.mp (mem_funcsOf.mpr hf)
  obtain ⟨hlt, rfl⟩ := List.getElem?_eq_some_iff.mp hi
  have hlt' : i < x.funcs.calls.length := h.tags.length_eq ▸ hlt
  obtain ⟨hkey, htable⟩ := h.tags.get hlt hlt'
  have hcall : x.funcs.calls[i]? = some (m.node (funcsOf tops)[i], x.funcs.calls[i].2) := by
    rw [List.getElem?_eq_getElem hlt']
    exact congrArg some (Prod.ext hkey rfl)
  exact ⟨_, i, hi, hcall, h.funcs.found (List.mem_of_getElem? hcall), htable⟩

lemma name_answered (hA : Accepted tops) (hf : TTop.func f ∈ tops) (h : Laid m tops x)
    (htable : FuncTable m f tag) {so : ScopeObj} {t : Ty} (hk : KnownIn tops f so t) :
    ∀ q ∈ nameLookups so, Answered m x f tag q := by
  obtain ⟨-, hobj⟩ := hk
  rcases so with ⟨name, obj⟩
  intro q hq
  cases obj with
  | gvar d =>
    obtain rfl : q = .globals (name, d.type) := by simpa [nameLookups] using hq
    exact h.globals.finds (global_keys hA) (mem_vars (mem_globalDecls hobj.2) hobj.1)
  | avar d =>
    obtain rfl : q = .layout (name, d.type) := by simpa [nameLookups] using hq
    exact htable.entries.finds (func_keys hA hf) (List.mem_append_right _ (mem_vars hobj.2 hobj.1))
  | parm t =>
    obtain rfl : q = .layout (name, t) := by simpa [nameLookups] using hq
    exact htable.entries.finds (func_keys hA hf) (List.mem_append_left _ hobj)
  | func sig =>
    obtain rfl : q = .funcs sig.name := by simpa [nameLookups] using hq
    obtain ⟨g, hg, hname, -⟩ := hobj
    obtain ⟨tag', hg'⟩ := h.findsFunc hg
    exact ⟨g, tag', hg, hname, hg'⟩
  | _ => cases hq

lemma func_answered (hA : Accepted tops) (hf : TTop.func f ∈ tops) (h : Laid m tops x)
    (htable : FuncTable m f tag) : ∀ q ∈ stmtsLookups f.stmts, Answered m x f tag q := by
  refine stmts_lookups (fun so t => name_answered hA hf h htable) (fun d hd n hn => ?_) f.stmts
    (hA.checked f hf) (List.Subset.refl _)
  exact htable.entries.finds (func_keys hA hf) (List.mem_append_right _ (mem_vars hd hn))

/-- **The symbol tables are exact.** For every accepted unit, wherever its names and functions
lie in memory, the passes that count and that insert agree on every table. Each insertion finds
a free item. Each lookup of the generator finds what was inserted for the declaration its name
stands for, and the generator makes no other lookup. Code generation never aborts. -/
theorem tables_exact {u : Ast.Unit} (h : accept u = some tops) (m : Addresses tops) : ∃ x,
    createGlobalAndFrameLayouts m (countTopDeclsAndFuncs tops).1 (countTopDeclsAndFuncs tops).2 = some x ∧
    Full x.data.layout (countTopDeclsAndFuncs tops).1 ∧ Full x.funcs (countTopDeclsAndFuncs tops).2 ∧
    (∀ f, TTop.func f ∈ tops → ∃ tag, FindsFunc m x f tag ∧ Full tag.layout (countBlockDecls f) ∧
      (∀ q ∈ stmtsLookups f.stmts, Answered m x f tag q) ∧
      ∀ cx cx' : Cx, Agree cx cx' (stmtsLookups f.stmts) → genStmts cx f.stmts = genStmts cx' f.stmts) ∧
    Codegen.codegenObjCreate tops ≠ .error .abort := by
  have hA := accepted_of_accept h
  obtain ⟨x, hx, hL⟩ := tables_laid (m := m) hA
  have hcount := countTop_eq tops
  refine ⟨x, hx, ?_, ?_, fun f hf => ?_, ?_⟩
  · rw [hcount]
    exact full_of_holds hL.globals.holds hL.globalCount hL.globals.length
  · rw [hcount]
    exact full_of_holds hL.funcs hL.funcCount hL.tags.length_eq.symm
  · obtain ⟨tag, hfound⟩ := hL.findsFunc hf
    obtain ⟨-, -, -, -, htable⟩ := id hfound
    refine ⟨tag, hfound, ?_, func_answered hA hf hL htable, fun cx cx' => genStmts_reads f.stmts⟩
    exact full_of_holds htable.entries.holds htable.count
      (htable.entries.length.trans (countBlockDecls_eq f).symm)
  · intro hab
    rcases Defined.create_ends (E := fun e => e ≠ .abort) hA (.inr ⟨by decide, by decide⟩) with
      ⟨o, ho⟩ | ⟨e, he, hne⟩
    · rw [hab] at ho
      cases ho
    · rw [hab] at he
      cases he
      exact hne rfl

/-- Names and functions one after another, in the order of their tokens. -/
def byToken (hA : Accepted tops) : Addresses tops where
  name := fun n => n.beg + 1
  node := fun f => f.name.beg + 1
  name_ne := fun _ _ => Nat.succ_ne_zero _
  name_inj := fun _ hn _ hk he => List.inj_on_of_nodup_map hA.distinct hn hk (Nat.succ.inj he)
  node_ne := fun _ _ => Nat.succ_ne_zero _
  node_inj := by
    intro f g hf hg he
    have hname : ∀ f, TTop.func f ∈ tops → f.name ∈ declaredNames tops := fun f hf =>
      (funcNames_sublist hf).subset (by simp)
    have hsame := List.inj_on_of_nodup_map hA.distinct (hname f hf) (hname g hg) (Nat.succ.inj he)
    exact List.inj_on_of_nodup_map (funcNames_nodup hA) (mem_funcsOf.mpr hf) (mem_funcsOf.mpr hg) hsame

/-- `g: u8; m(a: u8) { if (a) { x: u8 = a; } else { x: u8 = g; } }` -/
def branches : Ast.Unit :=
  ⟨[],
    [.decl ⟨false, false, false, [letter 103 0], .int .u8 1, .absent⟩,
     .func ⟨false, letter 109 7, .cons (letter 97 9) (.int .u8 1) .nil, .none,
       .cons (.cond (.name (letter 97 23))
         (.cons (.decl ⟨false, false, false, [letter 120 28], .int .u8 1, .name (letter 97 36)⟩) .nil)
         (.els (.cons (.decl ⟨false, false, false, [letter 120 48], .int .u8 1, .name (letter 103 56)⟩)
           .nil))) .nil⟩]⟩

theorem branches_exact : ∃ tops, accept branches = some tops ∧ ∃ (m : Addresses tops) (x : SymbolTables),
    createGlobalAndFrameLayouts m 1 1 = some x ∧ Full x.data.layout 1 ∧ Full x.funcs 1 := by
  have hc : (accept branches).map countTopDeclsAndFuncs = some (1, 1) := by decide +kernel
  obtain ⟨tops, h, hcount⟩ := Option.map_eq_some_iff.mp hc
  obtain ⟨x, hx, hglobals, hfuncs, -⟩ := tables_exact h (byToken (accepted_of_accept h))
  rw [hcount] at hx hglobals hfuncs
  exact ⟨tops, h, _, x, hx, hglobals, hfuncs⟩

end Answers

end Quaint.Tables
