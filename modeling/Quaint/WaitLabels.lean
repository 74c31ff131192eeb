import Mathlib
import Quaint.Scoping
import Quaint.Typing
import Quaint.Listing

/-!
Wait labels.

The labels of a function are collected through its blocks, sorted, and numbered by runs of one
name. Here the number of a label is the same wherever it is looked up, and with the address of the
function it is a pair that no other label has.
-/

namespace Quaint.WaitLabels

open Types Ast Scope TypeCheck Code Codegen Emit Generated Listing Program Searching Scoping
open Typing

/-! ### Numbers -/

section Numbers

/-- The numbers start at `k`, and are equal for equal names. -/
structure Numbered (k : Nat) (ws : List (Sym × Nat)) : Prop where
  least : ∀ w ∈ ws, k ≤ w.2
  equal : ∀ w ∈ ws, ∀ w' ∈ ws, w.2 = w'.2 ↔ w.1.text = w'.1.text

variable {k : Nat} {p n : Sym} {ns : List Sym} {ws : List (Sym × Nat)}

lemma numbered_nil : Numbered k [] := ⟨nofun, nofun⟩

/-- The next label of the same name. -/
lemma Numbered.again (h : Numbered k ((p, k) :: ws)) (heq : p.text = n.text) :
    Numbered k ((p, k) :: (n, k) :: ws) := by
  have same : ∀ w ∈ (p, k) :: (n, k) :: ws, ∃ w0 ∈ (p, k) :: ws, w0.2 = w.2 ∧ w0.1.text = w.1.text := by
    intro w hw
    rcases List.mem_cons.mp hw with rfl | hw
    · exact ⟨_, List.mem_cons_self, rfl, rfl⟩
    · rcases List.mem_cons.mp hw with rfl | hw
      · exact ⟨_, List.mem_cons_self, rfl, heq⟩
      · exact ⟨w, List.mem_cons_of_mem _ hw, rfl, rfl⟩
  refine ⟨fun w hw => ?_, fun w hw w' hw' => ?_⟩
  · obtain ⟨w0, hw0, hnum, -⟩ := same w hw
    exact hnum ▸ h.least w0 hw0
  · obtain ⟨w0, hw0, hnum, htext⟩ := same w hw
    obtain ⟨w1, hw1, hnum', htext'⟩ := same w' hw'
    rw [← hnum, ← hnum', ← htext, ← htext']
    exact h.equal w0 hw0 w1 hw1

/-- A label before those of other names. -/
lemma Numbered.next (h : Numbered (k + 1) ws) (hne : ∀ w ∈ ws, p.text ≠ w.1.text) :
    Numbered k ((p, k) :: ws) := by
  have later : ∀ w ∈ ws, k ≠ w.2 := fun w hw heq =>
    absurd (h.least w hw) (heq ▸ Nat.not_succ_le_self _)
  refine ⟨fun w hw => ?_, fun w hw w' hw' => ?_⟩
  · rcases List.mem_cons.mp hw with rfl | hw
    · exact Nat.le_refl _
    · exact Nat.le_of_succ_le (h.least w hw)
  · rcases List.mem_cons.mp hw with rfl | hw <;> rcases List.mem_cons.mp hw' with rfl | hw'
    · simp
    · exact iff_of_false (later w' hw') (hne w' hw')
    · exact iff_of_false (later w hw).symm (hne w hw).symm
    · exact h.equal w hw w' hw'

/-- In a sorted list a name that is not the next one is not there any more. -/
lemma not_later (h : Sorted id (p :: n :: ns)) (hne : p.text ≠ n.text) :
    ∀ m ∈ n :: ns, p.text ≠ m.text := by
  obtain ⟨hp, hns⟩ := List.pairwise_cons.mp h
  obtain ⟨hn, -⟩ := List.pairwise_cons.mp hns
  intro m hm heq
  rcases List.mem_cons.mp hm with rfl | hm
  · exact hne heq
  · have hle : strcmp p.text n.text ≠ .gt := hp n List.mem_cons_self
    have hge : strcmp n.text m.text ≠ .gt := hn m hm
    rw [← heq, ← strcmp_swap] at hge
    cases hcmp : strcmp p.text n.text with
    | eq => exact hne (strcmp_eq hcmp)
    | lt => exact hge (by rw [hcmp]; rfl)
    | gt => exact hle hcmp

lemma numbered_from (h : Sorted id (p :: ns)) : Numbered k ((p, k) :: identifyWlabs (some p) k ns) := by
  induction ns generalizing p k with
  | nil => exact numbered_nil.next nofun
  | cons n ns ih =>
    obtain ⟨hp, hns⟩ := List.pairwise_cons.mp h
    rw [identifyWlabs]
    split
    · rename_i heq
      have hs : Sorted id (p :: ns) := List.pairwise_cons.mpr
        ⟨fun m hm => hp m (List.mem_cons_of_mem _ hm), (List.pairwise_cons.mp hns).2⟩
      exact (ih hs).again (by simpa [lexSymbolsEqual] using heq)
    · rename_i hne
      refine (ih hns).next fun w hw => ?_
      have hw : w.1 ∈ ((n, k + 1) :: identifyWlabs (some n) (k + 1) ns).map Prod.fst :=
        List.mem_map_of_mem hw
      rw [List.map_cons, identifyWlabs_names] at hw
      exact not_later h (by simpa [lexSymbolsEqual] using hne) w.1 hw

/-- **The numbers of sorted labels** start at one, and two of them are equal exactly if the names
are. -/
theorem numbered_wlabs (h : Sorted id ns) : Numbered 1 (identifyWlabs none 0 ns) := by
  cases ns with
  | nil => exact numbered_nil
  | cons n ns => exact numbered_from h

end Numbers

/-! ### The pair of a label -/

/-- The name is that of a wait label in the body, in whatever block. -/
def Occurs (f : Func) (l : Sym) : Prop := ∃ n ∈ stmtsWlabs f.stmts, n.text = l.text

instance (f : Func) (l : Sym) : Decidable (Occurs f l) :=
  inferInstanceAs (Decidable (∃ n ∈ stmtsWlabs f.stmts, n.text = l.text))

/-- The address of the function, and the number its node has for the name. -/
def labelPair (f : Func) (l : Sym) : Nat × Nat :=
  (nodeAddr f.name, ((funcSig f).wlabs.find? (fun w => lexSymbolsEqual w.1 l)).elim 0 Prod.snd)

section Pairs

variable {f g : Func} {l l' : Sym} {w : Sym × Nat} {i : Nat}

lemma wlabs_numbered (f : Func) : Numbered 1 (funcSig f).wlabs := numbered_wlabs (qsort_sorted _)

lemma occurs_iff : Occurs f l ↔ ∃ w ∈ (funcSig f).wlabs, w.1.text = l.text := by
  have hmem : ∀ n, n ∈ stmtsWlabs f.stmts ↔ n ∈ (funcSig f).wlabs.map Prod.fst := fun n => by
    rw [wlabs_names, (qsort_perm _).mem_iff]
  simp only [Occurs, hmem, List.mem_map]
  constructor
  · rintro ⟨_, ⟨w, hw, rfl⟩, hl⟩
    exact ⟨w, hw, hl⟩
  · rintro ⟨w, hw, hl⟩
    exact ⟨_, ⟨w, hw, rfl⟩, hl⟩

/-- Whichever label of the name is met, its number is that of the pair. -/
lemma pair_of_mem (hw : w ∈ (funcSig f).wlabs) (hl : w.1.text = l.text) :
    (nodeAddr f.name, w.2) = labelPair f l := by
  obtain ⟨v, hv⟩ : ∃ v, (funcSig f).wlabs.find? (fun w => lexSymbolsEqual w.1 l) = some v :=
    Option.isSome_iff_exists.mp (List.find?_isSome.mpr ⟨w, hw, by simpa [lexSymbolsEqual] using hl⟩)
  have htext : v.1.text = l.text := by simpa [lexSymbolsEqual] using List.find?_some hv
  rw [labelPair, hv, ((wlabs_numbered f).equal w hw v (List.mem_of_find?_eq_some hv)).mpr (hl.trans htext.symm)]
  rfl

/-- The search lands on a label of the name, if there is one. -/
lemma scopeFindWlab_eq_some (h : scopeFindWlab (funcSig f) l = some i) :
    Occurs f l ∧ ∃ w, (funcSig f).wlabs[i]? = some w ∧ (nodeAddr f.name, w.2) = labelPair f l := by
  obtain ⟨w, hw, hl⟩ := bsearch_sound h
  have hmem : w ∈ (funcSig f).wlabs := List.mem_of_getElem? hw
  exact ⟨occurs_iff.mpr ⟨w, hmem, hl⟩, w, hw, pair_of_mem hmem hl⟩

lemma scopeFindWlab_isSome (h : Occurs f l) : ∃ i, scopeFindWlab (funcSig f) l = some i := by
  obtain ⟨w, hw, hl⟩ := occurs_iff.mp h
  obtain ⟨i, _, hi, -, -⟩ := bsearch_complete (wlabs_sorted f) hw hl
  exact ⟨i, hi⟩

/-- What the code of `@` and of `wait` says of a label that is found. -/
lemma wlabOperand_found (h : scopeFindWlab (funcSig f) l = some i) :
    wlabOperand (.wlab (funcSig f) i) = some (labelPair f l) := by
  obtain ⟨-, w, hw, hpair⟩ := scopeFindWlab_eq_some h
  simp only [wlabOperand, hw, Option.map_some]
  exact congrArg some hpair

lemma pair_eq_iff (h : Occurs f l) (h' : Occurs f l') :
    labelPair f l = labelPair f l' ↔ l.text = l'.text := by
  obtain ⟨w, hw, hl⟩ := occurs_iff.mp h
  obtain ⟨w', hw', hl'⟩ := occurs_iff.mp h'
  rw [← pair_of_mem hw hl, ← pair_of_mem hw' hl', ← hl, ← hl']
  simpa using (wlabs_numbered f).equal w hw w' hw'

lemma pair_ne_zero (h : Occurs f l) : (labelPair f l).2 ≠ 0 := by
  obtain ⟨w, hw, hl⟩ := occurs_iff.mp h
  have := (wlabs_numbered f).least w hw
  rw [← pair_of_mem hw hl]
  show w.2 ≠ 0
  omega

lemma pair_ne_of_name (h : f.name.beg ≠ g.name.beg) : labelPair f l ≠ labelPair g l' := by
  intro heq
  have := congrArg Prod.fst heq
  simp only [labelPair, nodeAddr] at this
  omega

end Pairs

/-! ### Names that are declared once -/

section Names

variable {u : Ast.Unit} {f g : Func} {fn l : Sym} {xs : List ScopeObj} {so : ScopeObj}

lemma mem_topObjs {tops : List Top} (h : Top.func f ∈ tops) :
    ⟨f.name, .func (funcSig f)⟩ ∈ topObjs tops := by
  induction tops with
  | nil => cases h
  | cons s rest ih =>
    rcases List.mem_cons.mp h with rfl | hrest
    · exact List.mem_cons_self
    · cases s
      case decl d => exact List.mem_append_right _ (ih hrest)
      case func g => exact List.mem_cons_of_mem _ (ih hrest)
      all_goals exact ih hrest

/-- The name of a function finds it. -/
lemma scopeFindObject_func (hd : scopeDuplicated u = false) (hf : Top.func f ∈ u.stmts)
    (hfn : fn.text = f.name.text) :
    scopeFindObject fn [unitScope u] = some ⟨f.name, .func (funcSig f)⟩ := by
  have hclean := nest_clean hd .unit (unitDeclared u) List.mem_cons_self
  exact (scopeFindObject_hit hclean (List.mem_append_right _ (mem_topObjs hf)) hfn.symm []).mpr
    ⟨rfl, trivial⟩

/-- A label is resolved exactly if it occurs. -/
lemma resolveWlab_ok {a b : String} {label : WlabRef} (hd : scopeDuplicated u = false)
    (hf : Top.func f ∈ u.stmts) (hfn : fn.text = f.name.text) :
    resolveWlab (unitScope u) a b fn l = .ok label ↔
      ∃ i, scopeFindWlab (funcSig f) l = some i ∧ label = .wlab (funcSig f) i := by
  simp only [resolveWlab, scopeFindObject_func hd hf hfn]
  cases scopeFindWlab (funcSig f) l <;> simp [eq_comm]

lemma name_declared {tops : List Top} (h : Top.func f ∈ tops) : f.name ∈ topsDeclared tops := by
  induction tops with
  | nil => cases h
  | cons s rest ih =>
    rcases List.mem_cons.mp h with rfl | hrest
    · simp [topsDeclared]
    · cases s
      case decl d => exact List.mem_append_right _ (ih hrest)
      case func g => exact List.mem_append_right _ (ih hrest)
      all_goals exact ih hrest

/-- Two functions have names at different places. -/
lemma beg_ne {tops : List Top} (hn : ((topsDeclared tops).map Sym.beg).Nodup) (hf : Top.func f ∈ tops)
    (hg : Top.func g ∈ tops) (hne : f ≠ g) : f.name.beg ≠ g.name.beg := by
  have later : ∀ {h g : Func} {rest : List Top},
      ((topsDeclared (.func h :: rest)).map Sym.beg).Nodup → Top.func g ∈ rest →
      h.name.beg ≠ g.name.beg := by
    intro h g rest hn hg heq
    simp only [topsDeclared, List.cons_append, List.map_cons, List.nodup_cons] at hn
    refine hn.1 (heq ▸ List.mem_map_of_mem (List.mem_append_right _ (name_declared hg)))
  induction tops with
  | nil => cases hf
  | cons s rest ih =>
    rcases List.mem_cons.mp hf with hfs | hf' <;> rcases List.mem_cons.mp hg with hgs | hg'
    · exact absurd (Top.func.inj (hfs.trans hgs.symm)) hne
    · subst hfs
      exact later hn hg'
    · subst hgs
      exact (later hn hf').symm
    · refine ih ?_ hf' hg'
      cases s
      case decl d => exact (List.map_append ▸ hn).of_append_right
      case func h => exact (List.map_append ▸ hn).of_append_right
      all_goals exact hn

end Names

/-! ### The labels in the code -/

mutual
/-- The labels below a checked statement, as `identify_wlab` leaves them. -/
def stmtMarks : TStmt → List (Nat × Nat)
  | .wlab func id => [(func, id)]
  | .blok b | .noin b | .whil _ b | .dowh b _ => stmtsMarks b
  | .cond _ b rest => stmtsMarks b ++ elifsMarks rest
  | _ => []
def stmtsMarks : TStmts → List (Nat × Nat)
  | .nil => []
  | .cons s rest => stmtMarks s ++ stmtsMarks rest
def elifsMarks : TElifs → List (Nat × Nat)
  | .none => []
  | .els b => stmtsMarks b
  | .elif _ b rest => stmtsMarks b ++ elifsMarks rest
end

section Checked

variable {f : Func}

lemma identifyWlab_ok {l : Sym} {s : TStmt} (h : identifyWlab (funcSig f) l = .ok s) :
    s = .wlab (labelPair f l).1 (labelPair f l).2 := by
  unfold identifyWlab at h
  split at h
  · rename_i n id hfind
    obtain ⟨i, hi, hget⟩ := Option.bind_eq_some_iff.mp hfind
    obtain ⟨-, w, hw, hpair⟩ := scopeFindWlab_eq_some hi
    obtain rfl := Option.some.inj (hget.symm.trans hw)
    rw [← hpair]
    exact (TRes.ok.inj h).symm
  · cases h

/-- A node that the check skips holds no label. -/
lemma stmtWlabs_skipped {env : Env} {outer : FuncSig} {s : Stmt}
    (h : checkStmt env outer s = .ok none) : stmtWlabs s = [] := by
  cases s <;> simp [checkStmt] at h <;> rfl

mutual
/-- Every occurrence of a label gets the pair of its name. -/
lemma marks_stmt {env : Env} : ∀ (s : Stmt) (s' : TStmt), checkStmt env (funcSig f) s = .ok (some s') →
    stmtMarks s' = (stmtWlabs s).map (labelPair f)
  | .absent, _, h | .void, _, h => by cases h
  | .decl d, _, h => by
    simp only [checkStmt, res_bind_ok, TRes.ok.injEq, Option.some.injEq] at h
    obtain ⟨init, -, rfl⟩ := h
    rfl
  | .cond e b rest, _, h => by
    simp only [checkStmt, res_both_ok, TRes.ok.injEq, Option.some.injEq] at h
    obtain ⟨_, rest', ⟨e', b', -, hb, rfl⟩, hr, rfl⟩ := h
    rw [stmtMarks, stmtWlabs, List.map_append, marks_stmts b b' hb, marks_elifs rest rest' hr]
  | .blok b, _, h | .noin b, _, h => by
    simp only [checkStmt, res_bind_ok, TRes.ok.injEq, Option.some.injEq] at h
    obtain ⟨b', hb, rfl⟩ := h
    exact marks_stmts b b' hb
  | .whil e b, _, h | .dowh b e, _, h => by
    simp only [checkStmt, res_both_ok, TRes.ok.injEq, Option.some.injEq] at h
    obtain ⟨x, y, hx, hy, rfl⟩ := h
    first
      | exact marks_stmts b _ hx
      | exact marks_stmts b _ hy
  | .retn e, _, h => by
    simp only [checkStmt, res_bind_ok, TRes.ok.injEq, Option.some.injEq] at h
    obtain ⟨t, ht, rfl⟩ := h
    unfold checkRetn at ht
    split at ht <;> simp at ht
    · obtain ⟨_, -, -, rfl⟩ := ht
      rfl
    · subst ht
      rfl
  | .wait q w t nb un, _, h => by
    simp only [checkStmt, checkWait, res_bind_ok, res_both_ok, TRes.ok.injEq, Option.some.injEq] at h
    obtain ⟨_, ⟨_, _, -, -, rfl⟩, rfl⟩ := h
    rfl
  | .wlab l, _, h => by
    simp only [checkStmt, res_bind_ok, TRes.ok.injEq, Option.some.injEq] at h
    obtain ⟨t, ht, rfl⟩ := h
    rw [identifyWlab_ok ht]
    rfl
  | .expr e, _, h => by
    simp only [checkStmt, res_bind_ok, TRes.ok.injEq, Option.some.injEq] at h
    obtain ⟨e', -, rfl⟩ := h
    rfl
lemma marks_stmts {env : Env} : ∀ (b : Stmts) (b' : TStmts), checkStmts env (funcSig f) b = .ok b' →
    stmtsMarks b' = (stmtsWlabs b).map (labelPair f)
  | .nil, _, h => by
    cases h
    rfl
  | .cons s rest, _, h => by
    simp only [checkStmts, res_both_ok] at h
    obtain ⟨s', rest', hs, hr, h⟩ := h
    have ihr := marks_stmts rest rest' hr
    cases s' with
    | some s' =>
      cases h
      rw [stmtsMarks, stmtsWlabs, List.map_append, marks_stmt s s' hs, ihr]
    | none =>
      cases h
      rw [stmtsWlabs, List.map_append, ihr, stmtWlabs_skipped hs]
      rfl
lemma marks_elifs {env : Env} : ∀ (r : Elifs) (r' : TElifs), checkElifs env (funcSig f) r = .ok r' →
    elifsMarks r' = (elifsWlabs r).map (labelPair f)
  | .none, _, h => by
    cases h
    rfl
  | .els b, _, h => by
    simp only [checkElifs, res_bind_ok, TRes.ok.injEq] at h
    obtain ⟨b', hb, rfl⟩ := h
    exact marks_stmts b b' hb
  | .elif e b rest, _, h => by
    simp only [checkElifs, res_both_ok, TRes.ok.injEq] at h
    obtain ⟨_, rest', ⟨e', b', -, hb, rfl⟩, hr, rfl⟩ := h
    rw [elifsMarks, elifsWlabs, List.map_append, marks_stmts b b' hb, marks_elifs rest rest' hr]
end

end Checked

def markOf : Insn → Option (Nat × Nat)
  | .wlab func id => some (func, id)
  | _ => none

/-- The labels the code of an item passes. -/
def itemMarks : Item → List (Nat × Nat)
  | .expr _ _ | .args _ => []
  | .stmt s => stmtMarks s
  | .stmts b => stmtsMarks b
  | .elifs r _ => elifsMarks r

section Emitted

variable {cx : Cx} {x : Item} {p p' : Pt} {code c1 c2 : List Insn} {r : Option Opd} {a b : Opd}

/-- The `WLAB` instructions of the code are these, in this order. -/
def Marks (code : List Insn) (ms : List (Nat × Nat)) : Prop := code.filterMap markOf = ms

lemma Marks.append {ms ns : List (Nat × Nat)} (h1 : Marks c1 ms) (h2 : Marks c2 ns) :
    Marks (c1 ++ c2) (ms ++ ns) := by
  rw [Marks, List.filterMap_append, h1, h2]

/-- Instructions without a label may follow, or go before. -/
lemma Marks.tail {ms : List (Nat × Nat)} (h1 : Marks c1 ms) (h2 : c2.filterMap markOf = []) :
    Marks (c1 ++ c2) ms := by
  rw [Marks, List.filterMap_append, h1, h2, List.append_nil]

lemma Marks.head {ms : List (Nat × Nat)} (h2 : Marks c2 ms) (h1 : c1.filterMap markOf = []) :
    Marks (c1 ++ c2) ms := by
  rw [Marks, List.filterMap_append, h1, h2, List.nil_append]

lemma scaled_unmarked {m : Nat} (h : Scaled p m a code b p') : code.filterMap markOf = [] := by
  cases h <;> rfl

lemma indexed_unmarked {m k : Nat} (h : Indexed p m k a code b p') : code.filterMap markOf = [] := by
  cases h <;> rfl

lemma fetched_unmarked (h : Fetched p a code b p') : code.filterMap markOf = [] := by
  cases h <;> rfl

lemma base_unmarked (h : Base p a code b p') : code.filterMap markOf = [] := by
  cases h <;> rfl

lemma inits_unmarked {t : Ty} {ns : List Sym} (h : Inits cx t a ns code) : code.filterMap markOf = [] := by
  induction h with
  | nil => rfl
  | cons n ns ofs code hn h ih => exact ih

/-- **The code of an item passes the labels of the item**, in their order. -/
theorem marks_item (h : Emit cx x p code r p') : Marks code (itemMarks x) := by
  induction h with
  | assn _ _ ihl ihr | asmu _ _ _ ihl ihr | waitFor _ _ _ ihl ihr => exact (ihl.append ihr).tail rfl
  | equl hop _ _ _ ihl ihr =>
    obtain ⟨neq, rfl⟩ | ⟨cop, rfl⟩ | ⟨aop, rfl⟩ := bexpInsn_cases hop <;> exact (ihl.append ihr).tail rfl
  | plus _ _ _ hs _ ihl ihr | aspl _ _ _ hs _ ihl ihr =>
    exact ((ihl.append ihr).tail (scaled_unmarked hs)).tail rfl
  | conj _ _ _ _ ihl ihr => exact .tail (.append (.tail ihl rfl) ihr) rfl
  | coma _ _ ihl ihr | stmtsCons _ _ ihl ihr => exact ihl.append ihr
  | scop | szof | name | nmbr | argsNil | decl | stmtsNil | elifsNone | wlab | strl | retn => rfl
  | arow _ _ hf _ ih => exact (ih.tail (fetched_unmarked hf)).tail rfl
  | aexp _ _ hi ha ihb iho =>
    exact (((ihb.append iho).tail (indexed_unmarked hi)).tail (base_unmarked ha)).tail rfl
  | memb _ _ _ ih | uplus _ ih | multLvalue _ _ ih | blok _ ih | els _ ih => exact ih
  | atsi _ _ _ ih | membIndirect _ _ _ ih | cast _ _ ih | tild _ _ _ ih
  | multRvalue _ _ _ ih | multValue _ _ _ ih | multVoid _ _ _ ih | amps _ _ ih | incr _ _ _ ih
  | incrBy _ _ _ ih | xexp _ _ _ ih | xexpBy _ _ _ ih | wait _ _ ih | exprStmt _ ih
  | retnValue _ ih => exact ih.tail rfl
  | unary hop _ _ ih => obtain rfl | rfl | rfl := unaryInsn_cases hop <;> exact ih.tail rfl
  | declInit _ hi ih => exact ih.tail (inits_unmarked hi)
  | tildCall _ _ _ iha ihl | callv _ _ _ iha ihl | call _ _ _ iha ihl =>
    exact ((iha.head rfl).append ihl).tail rfl
  | texp _ _ _ _ ihc iht ihf => exact .tail (.append (.tail (.append (.tail ihc rfl) iht) rfl) ihf) rfl
  | argsCons _ _ ih ihr => exact .append (.tail ih rfl) ihr
  | whil _ _ ihe ihb => exact .tail (.append (.tail ihe rfl) ihb) rfl
  | cond _ _ _ ihe ihb ihr | elif _ _ _ ihe ihb ihr =>
    exact .append (.tail (.append (.tail ihe rfl) ihb) rfl) ihr
  | noin _ ih => exact (ih.head rfl).tail rfl
  | dowh _ _ ihb ihe => exact (ihb.tail ihe).tail rfl

end Emitted

/-- The labels of the functions of a unit, one after the other. -/
def topPairs : Top → List (Nat × Nat)
  | .func f => (stmtsWlabs f.stmts).map (labelPair f)
  | _ => []

def topMarks : TTop → List (Nat × Nat)
  | .func f => stmtsMarks f.stmts
  | _ => []

section Objects

variable {u : Ast.Unit} {tops : List TTop} {o : Obj} {f : Func}

lemma marks_tops {env : Env} {ss : List Top} {tops : List TTop} (h : checkTops env ss = .ok tops) :
    tops.flatMap topMarks = ss.flatMap topPairs := by
  induction ss generalizing tops with
  | nil =>
    cases h
    rfl
  | cons s rest ih =>
    simp only [checkTops, res_both_ok, TRes.ok.injEq] at h
    obtain ⟨s', rest', hs, hrest, rfl⟩ := h
    rw [List.flatMap_cons, List.flatMap_cons, ih hrest]
    congr 1
    cases s
    case func f =>
      simp only [checkTop, checkFunc, res_bind_ok, TRes.ok.injEq] at hs
      obtain ⟨_, ⟨b, hb, rfl⟩, rfl⟩ := hs
      exact marks_stmts f.stmts b hb
    case decl d =>
      simp only [checkTop, res_bind_ok, TRes.ok.injEq] at hs
      obtain ⟨_, -, rfl⟩ := hs
      rfl
    all_goals
      cases hs
      try rfl

lemma marks_placed {dataSize : Nat} {globals : Layout} {p p' : Pt} {fns : List Fn}
    (h : Placed dataSize globals tops p fns p') : Marks (fns.flatMap Fn.code) (tops.flatMap topMarks) := by
  induction h with
  | nil => rfl
  | other t rest p p' fns ht hr ih =>
    have hnone : topMarks t = [] := by
      cases t
      case func f => exact absurd rfl (ht f)
      all_goals rfl
    rw [List.flatMap_cons, hnone]
    exact ih
  | func fn rest p' fns hfn hr ih =>
    have hbody : Marks fn.body (stmtsMarks fn.func.stmts) := marks_item hfn
    have hincsp : Marks ([fn.incsp] ++ fn.body) (stmtsMarks fn.func.stmts) := hbody.head rfl
    have hcode : Marks fn.code (stmtsMarks fn.func.stmts) := hincsp.tail rfl
    rw [List.flatMap_cons, List.flatMap_cons]
    exact hcode.append ih

/-- **The labels an object passes** are those of the functions, and each occurrence has the pair of
its name. -/
theorem marks_object (h : Compiles u o) : o.insns.filterMap markOf = u.stmts.flatMap topPairs := by
  obtain ⟨tops, fns, ha, hl⟩ := listed_of_compiles h
  obtain ⟨p, hp, -⟩ := hl.placed
  have hlink : ∀ i, markOf (link fns i) = markOf i := fun i => by cases i <;> rfl
  have hbfun : (List.replicate scopeBfunIdCount Insn.bfun).filterMap markOf = [] := by decide
  rw [hl.insns, List.filterMap_map, ← marks_tops (accept_eq_some ha).2, ← marks_placed hp]
  simp only [Function.comp_def, hlink, List.filterMap_append, hbfun, List.nil_append]

end Objects

/-! ### Identity -/

/-- The check succeeds. -/
def Passes {α : Type} (r : TRes α) : Prop := ∃ a, r = .ok a

/-- The expression is one quaint. -/
def ScalarQuaint (env : Env) (q : Expr) : Prop :=
  ∃ q', typeFromExpr env q = .ok q' ∧ (typeOfExpr q').t = .quaint ∧ (typeOfExpr q').count = 1

/-- `f::l` -/
def labelExpr (tok f l : Sym) : Expr := .bexp tok .scop (.name f) (.name l)

/-- `q@f::l` -/
def atExpr (tok : Sym) (q : Expr) (tok' f l : Sym) : Expr := .bexp tok .atsi q (labelExpr tok' f l)

/-- The last instruction emitted is this one. -/
def EmitsLast (st st' : GenSt) (i : Insn) : Prop := ∃ code, st'.insns = st.insns ++ code ++ [i]

/-- The labels of a function, in the program: which are accepted, the pair that the code has for one
of them, and what it differs from. -/
structure Identified (u : Ast.Unit) (f : Func) : Prop where
  at_passes : ∀ env q tok tok' fn l, env.unit = unitScope u → ScalarQuaint env q → fn.text = f.name.text →
    (Passes (typeFromExpr env (atExpr tok q tok' fn l)) ↔ Occurs f l)
  wait_passes : ∀ env q tok fn l nb un, env.unit = unitScope u → ScalarQuaint env q →
    fn.text = f.name.text → (Passes (checkWait env q .absent (labelExpr tok fn l) nb un) ↔ Occurs f l)
  at_emits : ∀ env q tok tok' fn l e, env.unit = unitScope u → fn.text = f.name.text →
    typeFromExpr env (atExpr tok q tok' fn l) = .ok e →
    ∀ cx n st o st', genExpr cx e n st = .ok (o, st') →
      ∃ dst a, EmitsLast st st' (.qat dst a (labelPair f l).1 (labelPair f l).2)
  wait_emits : ∀ env q tok fn l nb un s, env.unit = unitScope u → fn.text = f.name.text →
    checkWait env q .absent (labelExpr tok fn l) nb un = .ok s →
    ∀ cx st r st', genStmt cx s st = .ok (r, st') →
      ∃ a b, EmitsLast st st' (.wait a b (labelPair f l).1 (labelPair f l).2 nb un false)
  same : ∀ l l', Occurs f l → Occurs f l' → (labelPair f l = labelPair f l' ↔ l.text = l'.text)
  apart : ∀ g, Top.func g ∈ u.stmts → f ≠ g → ∀ l l', labelPair f l ≠ labelPair g l'
  coded : ∀ l, Occurs f l → ∀ label, label = .none ∨ label = .atEnd →
    wlabOperand label ≠ some (labelPair f l)

section Identity

variable {u : Ast.Unit} {f : Func} {env : Env} {q : Expr} {tok tok' fn l : Sym} {nb un : Bool}

/-- The check of `q@f::l` looks for the label once `q` is a quaint. -/
lemma typeFromAt_ok (hd : scopeDuplicated u = false) (hf : Top.func f ∈ u.stmts)
    (henv : env.unit = unitScope u) (hfn : fn.text = f.name.text) {e : TExpr} :
    typeFromExpr env (atExpr tok q tok' fn l) = .ok e ↔
      ∃ q' i, typeFromExpr env q = .ok q' ∧ (typeOfExpr q').count = 1 ∧ (typeOfExpr q').t = .quaint ∧
        scopeFindWlab (funcSig f) l = some i ∧ e = .atsi q' (.wlab (funcSig f) i) (.int .u8 1) := by
  simp only [atExpr, labelExpr, typeFromExpr, res_bind_ok, typeFromAtsi, require_ok, typeAtLabel, henv,
    resolveWlab_ok hd hf hfn, TRes.ok.injEq, beq_iff_eq, typeIsQuaint]
  constructor
  · rintro ⟨q', hq, hcount, ht, _, ⟨i, hi, rfl⟩, rfl⟩
    exact ⟨q', i, hq, hcount, ht, hi, rfl⟩
  · rintro ⟨q', i, hq, hcount, ht, hi, rfl⟩
    exact ⟨q', hq, hcount, ht, _, ⟨i, hi, rfl⟩, rfl⟩

lemma checkWait_ok (hd : scopeDuplicated u = false) (hf : Top.func f ∈ u.stmts)
    (henv : env.unit = unitScope u) (hfn : fn.text = f.name.text) {s : TStmt} :
    checkWait env q .absent (labelExpr tok fn l) nb un = .ok s ↔
      ∃ q' i, typeFromExpr env q = .ok q' ∧ (typeOfExpr q').t = .quaint ∧
        scopeFindWlab (funcSig f) l = some i ∧ s = .wait q' none (.wlab (funcSig f) i) nb un := by
  simp only [labelExpr, checkWait, res_both_ok, res_bind_ok, require_ok, checkWunt, henv,
    resolveWlab_ok hd hf hfn, TRes.ok.injEq, beq_iff_eq]
  constructor
  · rintro ⟨q', _, ⟨_, hq, ht, rfl⟩, ⟨_, ⟨i, hi, rfl⟩, rfl⟩, rfl⟩
    exact ⟨_, i, hq, ht, hi, rfl⟩
  · rintro ⟨q', i, hq, ht, hi, rfl⟩
    exact ⟨q', _, ⟨q', hq, ht, rfl⟩, ⟨_, ⟨i, hi, rfl⟩, rfl⟩, rfl⟩

/-- The code of `@` ends with its question. -/
lemma emits_qat {cx : Cx} {e : TExpr} {label : WlabRef} {lab : Nat × Nat} {t : Ty} {n : Bool}
    {st st' : GenSt} {o : Option Opd} (hlab : wlabOperand label = some lab)
    (h : genExpr cx (.atsi e label t) n st = .ok (o, st')) :
    ∃ dst a, EmitsLast st st' (.qat dst a lab.1 lab.2) := by
  obtain ⟨code, N, hemit, hinsns⟩ := good_expr cx _ n st o st' h []
  generalize pt st' N = p' at hemit
  cases hemit with
  | atsi he hlab' =>
    obtain rfl := Option.some.inj (hlab.symm.trans hlab')
    exact ⟨_, _, _, hinsns.trans (List.append_assoc _ _ _).symm⟩

lemma emits_wait {cx : Cx} {e : TExpr} {label : WlabRef} {lab : Nat × Nat} {st st' : GenSt}
    {r : PUnit} (hlab : wlabOperand label = some lab)
    (h : genStmt cx (.wait e none label nb un) st = .ok (r, st')) :
    ∃ a b, EmitsLast st st' (.wait a b lab.1 lab.2 nb un false) := by
  obtain ⟨code, N, hemit, hinsns⟩ := good_stmt cx _ st r st' h []
  generalize pt st' N = p' at hemit
  cases hemit with
  | wait he hlab' =>
    obtain rfl := Option.some.inj (hlab.symm.trans hlab')
    exact ⟨_, _, _, hinsns.trans (List.append_assoc _ _ _).symm⟩

/-- **The identity of wait labels.** -/
theorem label_identity (hb : unitBuilt u = true) (hd : scopeDuplicated u = false) :
    (∀ f, Top.func f ∈ u.stmts → Identified u f) ∧
      ∀ o, Compiles u o → o.insns.filterMap markOf = u.stmts.flatMap topPairs := by
  refine ⟨fun f hf => ?_, fun o => marks_object⟩
  simp only [unitBuilt, Bool.and_eq_true, decide_eq_true_eq] at hb
  constructor
  case at_passes =>
    rintro env q tok tok' fn l henv ⟨q', hq, ht, hcount⟩ hfn
    constructor
    · rintro ⟨e, he⟩
      obtain ⟨_, i, -, -, -, hi, -⟩ := (typeFromAt_ok hd hf henv hfn).mp he
      exact (scopeFindWlab_eq_some hi).1
    · intro hl
      obtain ⟨i, hi⟩ := scopeFindWlab_isSome hl
      exact ⟨_, (typeFromAt_ok hd hf henv hfn).mpr ⟨q', i, hq, hcount, ht, hi, rfl⟩⟩
  case wait_passes =>
    rintro env q tok fn l nb un henv ⟨q', hq, ht, _⟩ hfn
    constructor
    · rintro ⟨s, hs⟩
      obtain ⟨_, i, -, -, hi, -⟩ := (checkWait_ok hd hf henv hfn).mp hs
      exact (scopeFindWlab_eq_some hi).1
    · intro hl
      obtain ⟨i, hi⟩ := scopeFindWlab_isSome hl
      exact ⟨_, (checkWait_ok hd hf henv hfn).mpr ⟨q', i, hq, ht, hi, rfl⟩⟩
  case at_emits =>
    intro env q tok tok' fn l e henv hfn he cx n st o st' hgen
    obtain ⟨q', i, -, -, -, hi, rfl⟩ := (typeFromAt_ok hd hf henv hfn).mp he
    exact emits_qat (wlabOperand_found hi) hgen
  case wait_emits =>
    intro env q tok fn l nb un s henv hfn hs cx st r st' hgen
    obtain ⟨q', i, -, -, hi, rfl⟩ := (checkWait_ok hd hf henv hfn).mp hs
    exact emits_wait (wlabOperand_found hi) hgen
  case same =>
    exact fun l l' hl hl' => pair_eq_iff hl hl'
  case apart =>
    exact fun g hg hne l l' => pair_ne_of_name (beg_ne hb.2 hf hg hne)
  case coded =>
    -- the numbers of labels start at one
    rintro l hl label (rfl | rfl) heq <;>
    exact pair_ne_zero hl (congrArg Prod.snd (Option.some.inj heq)).symm

/-- `q: quaint(); m { q = ~f(); wait q until f::ab; q@f::a; } f { [a] { [ab] [a] } } g { [a] }` -/
def labelledUnit : Ast.Unit :=
  let a (beg : Nat) : Stmt := .wlab (letter 97 beg)
  ⟨[],
    [.decl ⟨false, false, false, [letter 113 0], .quaint 1 .zero, .absent⟩,
     .func ⟨false, letter 109 13, .nil, .none,
       .cons (.expr (.bexp (letter 113 17) .assn (.name (letter 113 17))
         (.uexp .tild (.fexp (.name (letter 102 22)) .nil))))
       (.cons (.wait (.name (letter 113 32)) .absent (labelExpr (letter 102 40) (letter 102 40) ⟨[97, 98], 43⟩)
         false false)
       (.cons (.expr (atExpr (letter 113 47) (.name (letter 113 47)) (letter 102 49) (letter 102 49)
         (letter 97 52))) .nil))⟩,
     .func ⟨false, letter 102 57, .nil, .none,
       .cons (a 61) (.cons (.blok (.cons (.wlab ⟨[97, 98], 67⟩) (.cons (a 72) .nil))) .nil)⟩,
     .func ⟨false, letter 103 79, .nil, .none, .cons (a 84) .nil⟩]⟩

def labelledObj : Obj :=
  let temp (off size : Nat) : Opd := ⟨.temp, false, false, off, size⟩
  let entry (tsize : Nat) : Insn := .incsp (opdImm false 0 8) (opdImm false tsize 8)
  let leave : Insn := .ret (opdImm false 16 8)
  let q : Opd := opdGlob false 0 8
  ⟨8, [], List.replicate 17 Insn.bfun ++
    [entry 16, .getsp (temp 8 8), .qnt (temp 0 8) (opdImm false 26 8) (temp 8 8), .mov q (temp 0 8), .nop,
     .wait q (opdImm false 0 1) 59 2 false false false, .qat (temp 0 1) q 59 1, .nop, leave,
     entry 0, .wlab 59 1, .wlab 59 2, .wlab 59 1, leave, entry 0, .wlab 81 1, leave]⟩

/-- The label an instruction asks for. -/
def askedOf : Insn → Option (Nat × Nat)
  | .qat _ _ func id | .wait _ _ func id _ _ _ => some (func, id)
  | _ => none

/-- The labels that are passed and those that are asked for, in the program and in its code. -/
theorem label_identity_nested :
    (∀ f, Top.func f ∈ labelledUnit.stmts → Identified labelledUnit f) ∧
      labelledUnit.stmts.flatMap topPairs = [(59, 1), (59, 2), (59, 1), (81, 1)] ∧
      Compiles labelledUnit labelledObj ∧
      labelledObj.insns.filterMap markOf = [(59, 1), (59, 2), (59, 1), (81, 1)] ∧
      labelledObj.insns.filterMap askedOf = [(59, 2), (59, 1)] := by
  have hc : Compiles labelledUnit labelledObj := by decide +kernel
  have hpairs : labelledUnit.stmts.flatMap topPairs = [(59, 1), (59, 2), (59, 1), (81, 1)] := by decide
  obtain ⟨hidentified, hmarks⟩ := label_identity (u := labelledUnit) (by decide) (by decide)
  exact ⟨hidentified, hpairs, hc, (hmarks labelledObj hc).trans hpairs, by decide⟩

end Identity

end Quaint.WaitLabels
