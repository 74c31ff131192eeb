import Mathlib
import Quaint.Searching

/-!
Declarations and lookup.

Every scope of a unit is filled with as many objects as were counted for it. A duplicate is reported
exactly if a scope declares a name twice; if there is none, each scope holds every name it declares
once, and is sorted. A name is then looked for from the inside out, but the search ends at a variable
whose declaration has not begun.
-/

namespace Quaint.Scoping

open Types Ast Scope Searching

/-! ### The scopes of a unit -/

/-- The number of objects a scope is allotted, and the objects that are filled in. -/
structure Declared where
  count : Nat
  objs : List ScopeObj

def blockDeclared (b : Stmts) : Declared := ⟨countObjectsBlock 0 b, blockObjs b⟩

mutual
/-- The scopes below a statement. -/
def stmtScopes : Stmt → List Declared
  | .blok b | .noin b | .whil _ b | .dowh b _ => blockDeclared b :: stmtsScopes b
  | .cond _ b rest => blockDeclared b :: stmtsScopes b ++ elifsScopes rest
  | _ => []
def stmtsScopes : Stmts → List Declared
  | .nil => []
  | .cons s rest => stmtScopes s ++ stmtsScopes rest
def elifsScopes : Elifs → List Declared
  | .none => []
  | .els b => blockDeclared b :: stmtsScopes b
  | .elif _ b rest => blockDeclared b :: stmtsScopes b ++ elifsScopes rest
end

def funcDeclared (f : Func) : Declared :=
  ⟨countObjectsBlock f.params.length f.stmts, parms f.params ++ blockObjs f.stmts⟩

def topScopes : Top → List Declared
  | .func f => funcDeclared f :: stmtsScopes f.stmts
  | _ => []

def unitDeclared (u : Ast.Unit) : Declared := ⟨countObjectsUnit u.stmts, builtins ++ topObjs u.stmts⟩

def unitScopes (u : Ast.Unit) : List Declared := unitDeclared u :: u.stmts.flatMap topScopes

/-- The names that a scope declares. -/
def Declared.names (d : Declared) : List (List UInt8) := d.objs.map (·.name.text)

/-- As it is filled in: no object is marked, and there are as many as were counted. -/
structure Declared.Filled (d : Declared) : Prop where
  unmarked : ∀ so ∈ d.objs, so.obj ≠ .dupl
  counted : d.objs.length = d.count

section Filled

variable {so : ScopeObj} {d : Declared}

lemma avars_unmarked {d : Decl} (h : so ∈ avars d) : so.obj ≠ .dupl := by
  obtain ⟨n, -, rfl⟩ := List.mem_map.mp h
  nofun

lemma blockObjs_unmarked {b : Stmts} (h : so ∈ blockObjs b) : so.obj ≠ .dupl := by
  match b with
  | .nil => cases h
  | .cons (.decl d) rest => exact (List.mem_append.mp h).elim avars_unmarked blockObjs_unmarked
  | .cons .absent rest | .cons .void rest | .cons (.cond _ _ _) rest | .cons (.blok _) rest
  | .cons (.noin _) rest | .cons (.whil _ _) rest | .cons (.dowh _ _) rest | .cons (.retn _) rest
  | .cons (.wait _ _ _ _ _) rest | .cons (.wlab _) rest | .cons (.expr _) rest =>
    exact blockObjs_unmarked (b := rest) h

lemma blockObjs_length (b : Stmts) (n : Nat) : n + (blockObjs b).length = countObjectsBlock n b := by
  match b with
  | .nil => rfl
  | .cons (.decl d) rest =>
    rw [blockObjs, countObjectsBlock, List.length_append, avars, List.length_map,
      ← blockObjs_length rest n]
    omega
  | .cons .absent rest | .cons .void rest | .cons (.cond _ _ _) rest | .cons (.blok _) rest
  | .cons (.noin _) rest | .cons (.whil _ _) rest | .cons (.dowh _ _) rest | .cons (.retn _) rest
  | .cons (.wait _ _ _ _ _) rest | .cons (.wlab _) rest | .cons (.expr _) rest =>
    exact blockObjs_length rest n

lemma block_filled (b : Stmts) : (blockDeclared b).Filled :=
  ⟨fun _ h => blockObjs_unmarked h, by rw [blockDeclared, ← blockObjs_length, Nat.zero_add]⟩

mutual
lemma stmtScopes_filled : ∀ s : Stmt, ∀ d ∈ stmtScopes s, d.Filled
  | .blok b, d, h | .noin b, d, h | .whil _ b, d, h | .dowh b _, d, h => by
    rcases List.mem_cons.mp h with rfl | h
    · exact block_filled b
    · exact stmtsScopes_filled b d h
  | .cond _ b rest, d, h => by
    rcases List.mem_append.mp h with h | h
    · rcases List.mem_cons.mp h with rfl | h
      · exact block_filled b
      · exact stmtsScopes_filled b d h
    · exact elifsScopes_filled rest d h
  | .absent, _, h | .void, _, h | .decl _, _, h | .retn _, _, h | .wait _ _ _ _ _, _, h
  | .wlab _, _, h | .expr _, _, h => by cases h
lemma stmtsScopes_filled : ∀ b : Stmts, ∀ d ∈ stmtsScopes b, d.Filled
  | .nil, _, h => by cases h
  | .cons s rest, d, h =>
    (List.mem_append.mp h).elim (stmtScopes_filled s d) (stmtsScopes_filled rest d)
lemma elifsScopes_filled : ∀ r : Elifs, ∀ d ∈ elifsScopes r, d.Filled
  | .none, _, h => by cases h
  | .els b, d, h => by
    rcases List.mem_cons.mp h with rfl | h
    · exact block_filled b
    · exact stmtsScopes_filled b d h
  | .elif _ b rest, d, h => by
    rcases List.mem_append.mp h with h | h
    · rcases List.mem_cons.mp h with rfl | h
      · exact block_filled b
      · exact stmtsScopes_filled b d h
    · exact elifsScopes_filled rest d h
end

lemma func_filled (f : Func) : (funcDeclared f).Filled := by
  constructor
  · intro so h
    rcases List.mem_append.mp h with h | h
    · obtain ⟨p, -, rfl⟩ := List.mem_map.mp h
      nofun
    · exact blockObjs_unmarked h
  · rw [funcDeclared, List.length_append, parms, List.length_map, toList_length, blockObjs_length]

lemma topObjs_unmarked {tops : List Top} (h : so ∈ topObjs tops) : so.obj ≠ .dupl := by
  induction tops with
  | nil => cases h
  | cons s rest ih =>
    cases s
    case decl d =>
      rcases List.mem_append.mp h with h | h
      · obtain ⟨n, -, rfl⟩ := List.mem_map.mp h
        nofun
      · exact ih h
    case func f =>
      rcases List.mem_cons.mp h with rfl | h
      · nofun
      · exact ih h
    all_goals exact ih h

lemma builtins_unmarked (h : so ∈ builtins) : so.obj ≠ .dupl := by
  rcases List.mem_append.mp h with h | h <;>
  · obtain ⟨i, _, rfl⟩ := List.mem_mapIdx.mp h
    nofun

lemma topObjs_length (tops : List Top) :
    builtins.length + (topObjs tops).length = countObjectsUnit tops := by
  induction tops with
  | nil => rfl
  | cons s rest ih =>
    cases s <;> simp only [topObjs, countObjectsUnit, List.length_append, List.length_cons, gvars,
      List.length_map] <;> omega

lemma unit_filled (u : Ast.Unit) : (unitDeclared u).Filled :=
  ⟨fun _ h => (List.mem_append.mp h).elim builtins_unmarked topObjs_unmarked, by
    rw [unitDeclared, List.length_append, topObjs_length]⟩

/-- **Every scope of a unit is filled as it was counted.** -/
theorem filled_of_mem {u : Ast.Unit} (h : d ∈ unitScopes u) : d.Filled := by
  rcases List.mem_cons.mp h with rfl | h
  · exact unit_filled u
  · obtain ⟨t, -, h⟩ := List.mem_flatMap.mp h
    cases t
    case func f =>
      rcases List.mem_cons.mp h with rfl | h
      · exact func_filled f
      · exact stmtsScopes_filled f.stmts d h
    all_goals cases h

end Filled

/-! ### Duplicates -/

section Duplicates

variable {xs : List ScopeObj} {so : ScopeObj} {d : Declared} {u : Ast.Unit}

lemma isDupl_eq_false (h : so.obj ≠ .dupl) : ScopeObj.isDupl so = false := by
  unfold ScopeObj.isDupl
  split
  · exact absurd ‹_› h
  · rfl

/-- If no duplicate is reported, nothing is marked, and no two names are equal. -/
lemma findDuplicatesLoop_clean {n : Nat} (hn : xs.length ≤ n) (hd : ∀ so ∈ xs, so.obj ≠ .dupl)
    (h : (findDuplicatesLoop n xs).1 = false) :
    (findDuplicatesLoop n xs).2 = xs ∧ (xs.map (·.name.text)).Nodup := by
  induction n generalizing xs with
  | zero =>
    obtain rfl := List.eq_nil_of_length_eq_zero (Nat.le_zero.mp hn)
    exact ⟨rfl, List.nodup_nil⟩
  | succ n ih =>
    cases xs with
    | nil => exact ⟨rfl, List.nodup_nil⟩
    | cons x xs =>
      obtain ⟨hx, hxs⟩ := List.forall_mem_cons.mp hd
      simp only [findDuplicatesLoop, isDupl_eq_false hx, Bool.false_eq_true, if_false] at h ⊢
      split at h
      · cases h
      · rename_i hany
        obtain ⟨hsame, hnodup⟩ := ih (Nat.le_of_succ_le_succ hn) hxs h
        rw [if_neg hany, hsame]
        refine ⟨rfl, List.nodup_cons.mpr ⟨fun hmem => hany ?_, hnodup⟩⟩
        obtain ⟨y, hy, heq⟩ := List.mem_map.mp hmem
        exact List.any_eq_true.mpr ⟨y, hy, by simpa [lexSymbolsEqual] using heq.symm⟩

/-- If no two names are equal, no duplicate is reported. -/
lemma findDuplicatesLoop_silent {n : Nat} (hn : (xs.map (·.name.text)).Nodup) :
    (findDuplicatesLoop n xs).1 = false := by
  induction n generalizing xs with
  | zero => rfl
  | succ n ih =>
    cases xs with
    | nil => rfl
    | cons x xs =>
      obtain ⟨hx, hxs⟩ := List.nodup_cons.mp hn
      have hany : xs.any (fun y => lexSymbolsEqual x.name y.name) = false := by
        rw [List.any_eq_false]
        intro y hy heq
        rw [lexSymbolsEqual, beq_iff_eq] at heq
        exact hx (List.mem_map.mpr ⟨y, hy, heq.symm⟩)
      rw [findDuplicatesLoop]
      split
      · exact ih hxs
      · rw [if_neg (by rw [hany]; exact Bool.false_ne_true)]
        exact ih hxs

lemma findDuplicates_iff (h : d.Filled) : (findDuplicates d.objs).1 = true ↔ ¬d.names.Nodup := by
  constructor
  · intro hdup hn
    have := findDuplicatesLoop_silent (n := d.objs.length) hn
    rw [findDuplicates, this] at hdup
    cases hdup
  · intro hn
    by_contra hdup
    exact hn (findDuplicatesLoop_clean (Nat.le_refl _) h.unmarked (Bool.not_eq_true _ ▸ hdup)).2

/-- Whether `find_duplicates` reports a duplicate in the scope. -/
def Declared.doubled (d : Declared) : Bool := (findDuplicates d.objs).1

mutual
lemma stmtDuplicated_eq : ∀ s : Stmt, stmtDuplicated s = (stmtScopes s).any Declared.doubled
  | .blok b | .noin b | .whil _ b | .dowh b _ => by
    rw [stmtDuplicated, stmtScopes, List.any_cons, blockDuplicated_eq b]
  | .cond _ b rest => by
    rw [stmtDuplicated, stmtScopes, List.any_append, List.any_cons, blockDuplicated_eq b,
      elifsDuplicated_eq rest]
  | .absent | .void | .decl _ | .retn _ | .wait _ _ _ _ _ | .wlab _ | .expr _ => rfl
lemma stmtsDuplicated_eq : ∀ b : Stmts, stmtsDuplicated b = (stmtsScopes b).any Declared.doubled
  | .nil => rfl
  | .cons s rest => by
    rw [stmtsDuplicated, stmtsScopes, List.any_append, stmtDuplicated_eq s, stmtsDuplicated_eq rest]
lemma blockDuplicated_eq : ∀ b : Stmts,
    blockDuplicated b = ((blockDeclared b).doubled || (stmtsScopes b).any Declared.doubled)
  | .nil => rfl
  | .cons s rest => by
    rw [blockDuplicated, stmtsScopes, List.any_append, stmtDuplicated_eq s, stmtsDuplicated_eq rest,
      Bool.or_comm]
    rfl
lemma elifsDuplicated_eq : ∀ r : Elifs, elifsDuplicated r = (elifsScopes r).any Declared.doubled
  | .none => rfl
  | .els b => by rw [elifsDuplicated, elifsScopes, List.any_cons, blockDuplicated_eq b]
  | .elif _ b rest => by
    rw [elifsDuplicated, elifsScopes, List.any_append, List.any_cons, blockDuplicated_eq b,
      elifsDuplicated_eq rest]
end

lemma topsDuplicated_eq (tops : List Top) :
    topsDuplicated tops = (tops.flatMap topScopes).any Declared.doubled := by
  induction tops with
  | nil => rfl
  | cons t rest ih =>
    rw [List.flatMap_cons, List.any_append, ← ih]
    cases t
    case func f =>
      rw [topsDuplicated, topScopes, List.any_cons, stmtsDuplicated_eq f.stmts, Bool.or_comm
        ((stmtsScopes f.stmts).any _)]
      rfl
    all_goals rfl

/-- A duplicate is reported for the unit if it is for one of its scopes. -/
lemma scopeDuplicated_eq (u : Ast.Unit) : scopeDuplicated u = (unitScopes u).any Declared.doubled := by
  rw [scopeDuplicated, unitScopes, List.any_cons, topsDuplicated_eq, Bool.or_comm]
  rfl

/-- The array of a scope that declares no name twice. -/
structure ScopeBuilt (d : Declared) : Prop where
  counted : d.objs.length = d.count
  sorted : Sorted ScopeObj.name (scopeArray d.objs)
  perm : (scopeArray d.objs).Perm d.objs
  once : ∀ so ∈ d.objs, ((scopeArray d.objs).map (·.name.text)).count so.name.text = 1

lemma scopeArray_perm (h : d.Filled) (hn : d.names.Nodup) : (scopeArray d.objs).Perm d.objs := by
  have hclean := findDuplicatesLoop_clean (Nat.le_refl _) h.unmarked
    (findDuplicatesLoop_silent (n := d.objs.length) hn)
  rw [scopeArray, findDuplicates, hclean.1]
  exact qsort_perm _

lemma scope_built (h : d.Filled) (hn : d.names.Nodup) : ScopeBuilt d := by
  have hperm := scopeArray_perm h hn
  refine ⟨h.counted, qsort_sorted _, hperm, fun so hso => ?_⟩
  rw [(hperm.map _).count_eq]
  exact List.count_eq_one_of_mem hn (List.mem_map.mpr ⟨so, hso, rfl⟩)

lemma nodup_of_clean (hu : scopeDuplicated u = false) (hd : d ∈ unitScopes u) : d.names.Nodup := by
  rw [scopeDuplicated_eq, List.any_eq_false] at hu
  by_contra hn
  exact hu d hd ((findDuplicates_iff (filled_of_mem hd)).mpr hn)

/-- **Duplicates are reported exactly where a scope declares a name twice**; else every scope holds each
name it declares once, in the order of the names. -/
theorem scopeDuplicated_iff (u : Ast.Unit) :
    (scopeDuplicated u = true ↔ ∃ d ∈ unitScopes u, ¬d.names.Nodup) ∧
      (scopeDuplicated u = false → ∀ d ∈ unitScopes u, ScopeBuilt d) := by
  constructor
  · rw [scopeDuplicated_eq, List.any_eq_true]
    exact exists_congr fun d => and_congr_right fun hd => findDuplicates_iff (filled_of_mem hd)
  · exact fun hu d hd => scope_built (filled_of_mem hd) (nodup_of_clean hu hd)

end Duplicates

/-! ### Lookup -/

mutual
/-- The blocks directly below a statement. -/
def stmtBlocks : Stmt → List Stmts
  | .blok b | .noin b | .whil _ b | .dowh b _ => [b]
  | .cond _ b rest => b :: elifsBlocks rest
  | _ => []
def elifsBlocks : Elifs → List Stmts
  | .none => []
  | .els b => [b]
  | .elif _ b rest => b :: elifsBlocks rest
end

def stmtsBlocks : Stmts → List Stmts
  | .nil => []
  | .cons s rest => stmtBlocks s ++ stmtsBlocks rest

/-- The scopes around the statements of a block, innermost first. -/
inductive Around (u : Ast.Unit) : List Declared → Stmts → Prop
  | func {f : Func} (h : Top.func f ∈ u.stmts) : Around u [funcDeclared f, unitDeclared u] f.stmts
  | block {nest : List Declared} {b b' : Stmts} (h : Around u nest b) (hb : b' ∈ stmtsBlocks b) :
      Around u (blockDeclared b' :: nest) b'

/-- The scopes in which a name of the unit is looked up. -/
inductive Nest (u : Ast.Unit) : List Declared → Prop
  | unit : Nest u [unitDeclared u]
  | inner {nest : List Declared} {b : Stmts} (h : Around u nest b) : Nest u nest

/-- The object has this name. -/
def Named (name : Sym) (so : ScopeObj) : Prop := so.name.text = name.text

/-- The object is visible where the name is used: a variable of a function only behind the beginning of
its declaration. -/
def Visible (name : Sym) (so : ScopeObj) : Prop :=
  match so.obj with
  | .avar d => ∃ first ∈ d.names.head?, first.beg < name.beg
  | _ => True

/-- The innermost object of that name that is visible. -/
def Denotes (name : Sym) (nest : List Declared) (so : ScopeObj) : Prop :=
  ∃ inner d outer, nest = inner ++ d :: outer ∧ so ∈ d.objs ∧ Named name so ∧ Visible name so ∧
    ∀ d' ∈ inner, ∀ so' ∈ d'.objs, Named name so' → ¬Visible name so'

/-- The innermost scope that declares the name declares it further on, and a scope outside of it has a
visible object of that name. -/
def Shadowed (name : Sym) (nest : List Declared) : Prop :=
  ∃ inner d outer so, nest = inner ++ d :: outer ∧ (∀ d' ∈ inner, ∀ so' ∈ d'.objs, ¬Named name so') ∧
    so ∈ d.objs ∧ Named name so ∧ ¬Visible name so ∧
    ∃ d' ∈ outer, ∃ so' ∈ d'.objs, Named name so' ∧ Visible name so'

section Lookup

variable {u : Ast.Unit} {nest outer : List Declared} {d : Declared} {b : Stmts} {name : Sym}
  {so so' : ScopeObj}

/-- The scope of a block below, and the scopes in it. -/
def belowBlock (b : Stmts) : List Declared := blockDeclared b :: stmtsScopes b

lemma elifsBlocks_scopes : ∀ (r : Elifs), ∀ b ∈ elifsBlocks r, belowBlock b ⊆ elifsScopes r
  | .none, _, h => by cases h
  | .els b, b', h => by
    obtain rfl := List.mem_singleton.mp h
    exact List.Subset.refl _
  | .elif _ b rest, b', h => by
    rcases List.mem_cons.mp h with rfl | h
    · exact List.subset_append_left _ _
    · exact List.Subset.trans (elifsBlocks_scopes rest b' h) (List.subset_append_right _ _)

lemma stmtBlocks_scopes {s : Stmt} (h : b ∈ stmtBlocks s) : belowBlock b ⊆ stmtScopes s := by
  cases s
  case cond e b' rest =>
    rcases List.mem_cons.mp h with rfl | h
    · exact List.subset_append_left _ _
    · exact List.Subset.trans (elifsBlocks_scopes rest b h) (List.subset_append_right _ _)
  case blok | noin | whil | dowh =>
    obtain rfl := List.mem_singleton.mp h
    exact List.Subset.refl _
  all_goals cases h

lemma stmtsBlocks_scopes : ∀ (b : Stmts), ∀ b' ∈ stmtsBlocks b, belowBlock b' ⊆ stmtsScopes b
  | .nil, _, h => by cases h
  | .cons _ rest, b', h => by
    rcases List.mem_append.mp h with h | h
    · exact List.Subset.trans (stmtBlocks_scopes h) (List.subset_append_left _ _)
    · exact List.Subset.trans (stmtsBlocks_scopes rest b' h) (List.subset_append_right _ _)

lemma around_scopes (h : Around u nest b) : nest ++ stmtsScopes b ⊆ unitScopes u := by
  induction h with
  | @func f hf =>
    have hall : topScopes (.func f) ⊆ unitScopes u := fun d hd =>
      List.mem_cons_of_mem _ (List.mem_flatMap.mpr ⟨_, hf, hd⟩)
    intro d hd
    rcases List.mem_cons.mp hd with rfl | hd
    · exact hall List.mem_cons_self
    · rcases List.mem_cons.mp hd with rfl | hd
      · exact List.mem_cons_self
      · exact hall (List.mem_cons_of_mem _ hd)
  | @block nest b b' _ hb ih =>
    obtain ⟨hnest, hscopes⟩ := List.append_subset.mp ih
    have hbelow := List.Subset.trans (stmtsBlocks_scopes b b' hb) hscopes
    obtain ⟨hhead, htail⟩ := List.cons_subset.mp hbelow
    exact List.append_subset.mpr ⟨List.cons_subset.mpr ⟨hhead, hnest⟩, htail⟩

/-- The scopes of a nest are scopes of the unit. -/
lemma nest_scopes (h : Nest u nest) : nest ⊆ unitScopes u := by
  cases h with
  | unit => exact List.cons_subset.mpr ⟨List.mem_cons_self, List.nil_subset _⟩
  | inner h => exact (List.append_subset.mp (around_scopes h)).1

/-- A scope without duplicates. -/
structure Declared.Clean (d : Declared) : Prop where
  filled : d.Filled
  nodup : d.names.Nodup

lemma nest_clean (hu : scopeDuplicated u = false) (h : Nest u nest) : ∀ d ∈ nest, d.Clean :=
  fun _ hd => ⟨filled_of_mem (nest_scopes h hd), nodup_of_clean hu (nest_scopes h hd)⟩

/-- The search of one scope. -/
def foundIn (name : Sym) (d : Declared) : Option ScopeObj :=
  (bsearch ScopeObj.name name (scopeArray d.objs)).bind ((scopeArray d.objs)[·]?)

lemma foundIn_eq_none (hd : d.Clean) (h : ∀ so ∈ d.objs, ¬Named name so) : foundIn name d = none := by
  unfold foundIn
  cases hs : bsearch ScopeObj.name name (scopeArray d.objs) with
  | none => rfl
  | some i =>
    obtain ⟨so, hso, hname⟩ := bsearch_sound hs
    have hmem := (scopeArray_perm hd.filled hd.nodup).mem_iff.mp (List.mem_of_getElem? hso)
    exact absurd hname (h so hmem)

lemma foundIn_eq_some (hd : d.Clean) (hso : so ∈ d.objs) (hname : Named name so) :
    foundIn name d = some so := by
  have hperm := scopeArray_perm hd.filled hd.nodup
  have hsorted : Sorted ScopeObj.name (scopeArray d.objs) := qsort_sorted _
  obtain ⟨i, y, hi, hy, htext⟩ := bsearch_complete hsorted (hperm.mem_iff.mpr hso) hname
  obtain rfl := List.inj_on_of_nodup_map hd.nodup (hperm.mem_iff.mp (List.mem_of_getElem? hy)) hso
    (htext.trans hname.symm)
  rw [foundIn, hi, Option.bind_some, hy]

/-- A scope that does not declare the name is passed over. -/
lemma scopeFindObject_miss (hd : d.Clean) (h : ∀ so ∈ d.objs, ¬Named name so) (outer : Scopes) :
    scopeFindObject name (scopeArray d.objs :: outer) = scopeFindObject name outer := by
  have hf := foundIn_eq_none hd h
  unfold foundIn at hf
  rw [scopeFindObject, hf]

/-- The search ends at a scope that declares the name, with the object if it is visible. -/
lemma scopeFindObject_hit (hd : d.Clean) (hso : so ∈ d.objs) (hname : Named name so) (outer : Scopes) :
    scopeFindObject name (scopeArray d.objs :: outer) = some so' ↔ so' = so ∧ Visible name so := by
  have hf := foundIn_eq_some hd hso hname
  unfold foundIn at hf
  rw [scopeFindObject, hf]
  have hdupl := hd.filled.unmarked so hso
  rcases so with ⟨n, obj⟩
  cases obj with
  | dupl => exact absurd rfl hdupl
  | avar decl =>
    cases hn : decl.names with
    | nil => simp [Visible, hn]
    | cons first rest =>
      by_cases hlt : first.beg < name.beg <;> simp [Visible, hn, hlt, eq_comm]
  | _ => simp [Visible, eq_comm]

/-- **What a lookup finds**: the object of the innermost scope that declares the name, if it is
visible. -/
theorem scopeFindObject_iff (h : ∀ d ∈ nest, d.Clean) :
    scopeFindObject name (nest.map fun d => scopeArray d.objs) = some so ↔
      ∃ inner d outer, nest = inner ++ d :: outer ∧ so ∈ d.objs ∧ Named name so ∧ Visible name so ∧
        ∀ d' ∈ inner, ∀ so' ∈ d'.objs, ¬Named name so' := by
  induction nest with
  | nil => simp [scopeFindObject]
  | cons d nest ih =>
    obtain ⟨hd, hnest⟩ := List.forall_mem_cons.mp h
    rw [List.map_cons]
    by_cases hdecl : ∃ so' ∈ d.objs, Named name so'
    · obtain ⟨so', hso', hname'⟩ := hdecl
      rw [scopeFindObject_hit hd hso' hname']
      constructor
      · rintro ⟨rfl, hv⟩
        exact ⟨[], d, nest, rfl, hso', hname', hv, nofun⟩
      · rintro ⟨inner, d', outer, heq, hso, hname, hv, hin⟩
        cases inner with
        | nil =>
          cases heq
          obtain rfl := List.inj_on_of_nodup_map hd.nodup hso hso' (hname.trans hname'.symm)
          exact ⟨rfl, hv⟩
        | cons e inner =>
          cases heq
          exact absurd hname' (hin _ List.mem_cons_self _ hso')
    · have hno : ∀ so' ∈ d.objs, ¬Named name so' := fun so' hso' hname' => hdecl ⟨so', hso', hname'⟩
      rw [scopeFindObject_miss hd hno, ih hnest]
      constructor
      · rintro ⟨inner, d', outer, rfl, hso, hname, hv, hin⟩
        exact ⟨d :: inner, d', outer, rfl, hso, hname, hv, List.forall_mem_cons.mpr ⟨hno, hin⟩⟩
      · rintro ⟨inner, d', outer, heq, hso, hname, hv, hin⟩
        cases inner with
        | nil =>
          cases heq
          exact absurd hname (hno so hso)
        | cons e inner =>
          cases heq
          exact ⟨inner, d', outer, rfl, hso, hname, hv, (List.forall_mem_cons.mp hin).2⟩

/-- A visible object is denoted, or one further in. -/
lemma denotes_of_visible (h : ∃ d ∈ nest, ∃ so ∈ d.objs, Named name so ∧ Visible name so) :
    ∃ so, Denotes name nest so := by
  induction nest with
  | nil => simp at h
  | cons d nest ih =>
    by_cases hd : ∃ so ∈ d.objs, Named name so ∧ Visible name so
    · obtain ⟨so, hso, hname, hv⟩ := hd
      exact ⟨so, [], d, nest, rfl, hso, hname, hv, nofun⟩
    · obtain ⟨d', hd', so', hso', hvis⟩ := h
      have hin : d' ∈ nest := by
        rcases List.mem_cons.mp hd' with rfl | hin
        · exact absurd ⟨so', hso', hvis⟩ hd
        · exact hin
      obtain ⟨so, inner, d1, outer, rfl, hso, hname, hv, hinner⟩ := ih ⟨d', hin, so', hso', hvis⟩
      exact ⟨so, d :: inner, d1, outer, rfl, hso, hname, hv, List.forall_mem_cons.mpr
        ⟨fun so' hso' hname' hv' => hd ⟨so', hso', hname', hv'⟩, hinner⟩⟩

/-- The innermost scope that declares the name. -/
lemma first_naming (h : ∃ d ∈ nest, ∃ so ∈ d.objs, Named name so) :
    ∃ inner d outer so, nest = inner ++ d :: outer ∧
      (∀ d' ∈ inner, ∀ so' ∈ d'.objs, ¬Named name so') ∧ so ∈ d.objs ∧ Named name so := by
  induction nest with
  | nil => simp at h
  | cons d nest ih =>
    by_cases hd : ∃ so ∈ d.objs, Named name so
    · obtain ⟨so, hso, hname⟩ := hd
      exact ⟨[], d, nest, so, rfl, nofun, hso, hname⟩
    · obtain ⟨d', hd', so', hso', hname'⟩ := h
      have hin : d' ∈ nest := by
        rcases List.mem_cons.mp hd' with rfl | hin
        · exact absurd ⟨so', hso', hname'⟩ hd
        · exact hin
      obtain ⟨inner, d1, outer, so, rfl, hinner, hso, hname⟩ := ih ⟨d', hin, so', hso', hname'⟩
      exact ⟨d :: inner, d1, outer, so, rfl, List.forall_mem_cons.mpr
        ⟨fun so' hso' hname' => hd ⟨so', hso', hname'⟩, hinner⟩, hso, hname⟩

/-- The search ends at a declaration further on. -/
lemma scopeFindObject_hidden {inner : List Declared} (hclean : ∀ d' ∈ inner ++ d :: outer, d'.Clean)
    (hinner : ∀ d' ∈ inner, ∀ so' ∈ d'.objs, ¬Named name so') (hso : so ∈ d.objs)
    (hname : Named name so) (hv : ¬Visible name so) :
    scopeFindObject name ((inner ++ d :: outer).map fun d => scopeArray d.objs) = none := by
  induction inner with
  | nil =>
    refine Option.eq_none_iff_forall_ne_some.mpr fun so' h => ?_
    exact hv ((scopeFindObject_hit (hclean d List.mem_cons_self) hso hname _).mp h).2
  | cons e inner ih =>
    obtain ⟨he, hinner⟩ := List.forall_mem_cons.mp hinner
    obtain ⟨hce, hclean⟩ := List.forall_mem_cons.mp hclean
    exact (scopeFindObject_miss hce he _).trans (ih hclean hinner)

/-- **When a name is resolved as it should be**: the search finds the innermost visible object of the
name, and nothing if there is none, but where a declaration further on in an inner scope shadows an
object that is visible. -/
theorem scopeFindObject_denotes_iff (hu : scopeDuplicated u = false) (hn : Nest u nest) :
    (∀ so, scopeFindObject name (nest.map fun d => scopeArray d.objs) = some so ↔
      Denotes name nest so) ↔ ¬Shadowed name nest := by
  have hclean := nest_clean hu hn
  constructor
  · rintro h ⟨inner, d, outer, so, rfl, hinner, hso, hname, hv, d', hd', hvisible⟩
    have hmem : d' ∈ inner ++ d :: outer := List.mem_append_right _ (List.mem_cons_of_mem _ hd')
    obtain ⟨so', hden⟩ := denotes_of_visible ⟨d', hmem, hvisible⟩
    have hsome := (h so').mpr hden
    rw [scopeFindObject_hidden hclean hinner hso hname hv] at hsome
    cases hsome
  · intro hshadow so
    rw [scopeFindObject_iff hclean]
    constructor
    · rintro ⟨inner, d, outer, rfl, hso, hname, hv, hin⟩
      exact ⟨inner, d, outer, rfl, hso, hname, hv, fun d' hd' so' hso' hname' =>
        absurd hname' (hin d' hd' so' hso')⟩
    · rintro ⟨inner, d, outer, rfl, hso, hname, hv, hin⟩
      refine ⟨inner, d, outer, rfl, hso, hname, hv, fun d' hd' so' hso' hname' => ?_⟩
      -- a scope further in that declares the name would shadow this one
      obtain ⟨inner1, d1, outer1, so1, rfl, hin1, hso1, hname1⟩ :=
        first_naming ⟨d', hd', so', hso', hname'⟩
      exact hshadow ⟨inner1, d1, outer1 ++ d :: outer, so1, by simp, hin1, hso1, hname1,
        hin d1 (by simp) so1 hso1 hname1, d, by simp, so, hso, hname, hv⟩

def earlyInner : Stmts :=
  .cons (.expr (.name ⟨[120], 13⟩))
    (.cons (.decl ⟨false, false, false, [⟨[120], 16⟩], .int .u16 1, .absent⟩) .nil)

def earlyFunc : Func :=
  ⟨false, ⟨[102], 0⟩, .nil, .none,
    .cons (.decl ⟨false, false, false, [⟨[120], 4⟩], .int .u8 1, .absent⟩)
      (.cons (.blok earlyInner) .nil)⟩

/-- `f { x: u8; { x; x: u16; } }` -/
def early : Ast.Unit := ⟨[], [.func earlyFunc]⟩

lemma early_func : Around early [funcDeclared earlyFunc, unitDeclared early] earlyFunc.stmts :=
  .func List.mem_cons_self

theorem early_outer :
    ¬Shadowed ⟨[120], 13⟩ [funcDeclared earlyFunc, unitDeclared early] ∧ ∀ so,
      scopeFindObject ⟨[120], 13⟩
        ([funcDeclared earlyFunc, unitDeclared early].map fun d => scopeArray d.objs) = some so ↔
      Denotes ⟨[120], 13⟩ [funcDeclared earlyFunc, unitDeclared early] so := by
  have hshadow : ¬Shadowed ⟨[120], 13⟩ [funcDeclared earlyFunc, unitDeclared early] := by
    rintro ⟨inner, d, outer, so, heq, -, hso, -, hv, d', hd', -⟩
    match inner, heq with
    | [], heq =>
      cases heq
      obtain rfl := List.mem_singleton.mp hso
      exact hv ⟨_, rfl, by decide⟩
    | [_], heq =>
      cases heq
      cases hd'
    | _ :: _ :: _, heq => simp at heq
  exact ⟨hshadow,
    (scopeFindObject_denotes_iff (u := early) (by decide) (.inner early_func)).mpr hshadow⟩

theorem early_inner : ¬∀ u nest name, scopeDuplicated u = false → Nest u nest → ∀ so,
    scopeFindObject name (nest.map fun d => scopeArray d.objs) = some so ↔ Denotes name nest so := by
  intro h
  have hnest : Around early [blockDeclared earlyInner, funcDeclared earlyFunc, unitDeclared early]
      earlyInner := .block early_func (by simp [stmtsBlocks, stmtBlocks, earlyFunc])
  have hfind := (h early _ ⟨[120], 13⟩ (by decide) (.inner hnest)
    ⟨⟨[120], 4⟩, .avar ⟨false, false, false, [⟨[120], 4⟩], .int .u8 1, .absent⟩⟩).mpr
    ⟨[_], _, _, rfl, List.mem_cons_self, rfl, ⟨_, rfl, by decide⟩, by
      intro d' hd' so' hso' _ hv
      obtain rfl := List.mem_singleton.mp hd'
      obtain rfl := List.mem_singleton.mp hso'
      obtain ⟨first, hfirst, hlt⟩ := hv
      cases hfirst
      exact absurd hlt (by decide)⟩
  have hnone : (scopeFindObject ⟨[120], 13⟩ ([blockDeclared earlyInner, funcDeclared earlyFunc,
      unitDeclared early].map fun d => scopeArray d.objs)).isSome = false := by decide
  rw [hfind] at hnone
  cases hnone

end Lookup

end Quaint.Scoping
