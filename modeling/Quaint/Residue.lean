import Mathlib
import Quaint.Derivation

/-!
Right-hand sides read from the left.

What is left of the terms once a node is read, and with it which rows of nodes begin a row that the
terms are spelled by. The terms must be separated: a term that is repeated is not like one that may
follow it.
-/

namespace Quaint.Residue

open Derivation

variable {τ κ ν : Type} [DecidableEq κ] [DecidableEq ν]

/-- The terms left behind a node with a symbol. -/
def residue (s : κ ⊕ ν) : List (Term κ ν) → Option (List (Term κ ν))
  | [] => none
  | t :: ts =>
    if t.symbol = s then some (if t.isMt then t :: ts else ts)
    else if t.isMt then residue s ts
    else none

/-- The terms left behind a row of nodes. -/
def residues (w : List (κ ⊕ ν)) (ts : List (Term κ ν)) : Option (List (Term κ ν)) :=
  w.foldlM (fun ts s => residue s ts) ts

/-- The symbols a row that spells the terms may begin with. -/
def firsts : List (Term κ ν) → List (κ ⊕ ν)
  | [] => []
  | t :: ts => t.symbol :: if t.isMt then firsts ts else []

def separated : List (Term κ ν) → Bool
  | [] => true
  | t :: ts => (!t.isMt || (firsts ts).all fun s => decide (t.symbol ≠ s)) && separated ts

section Separated

variable {cls : τ → κ} {t : Term κ ν} {ts ts' : List (Term κ ν)} {n : Node τ ν} {ns : List (Node τ ν)}
  {s : κ ⊕ ν} {w : List (κ ⊕ ν)}

lemma separated_cons (h : separated (t :: ts) = true) :
    (t.isMt = true → t.symbol ∉ firsts ts) ∧ separated ts = true := by
  simp only [separated, Bool.and_eq_true, Bool.or_eq_true, Bool.not_eq_true', List.all_eq_true,
    decide_eq_true_eq] at h
  exact ⟨fun hmt hin => h.1.resolve_left (by simp [hmt]) _ hin rfl, h.2⟩

omit [DecidableEq κ] [DecidableEq ν] in
lemma first_of_spells (h : Spells cls ts (n :: ns)) : n.symbol cls ∈ firsts ts := by
  generalize hm : n :: ns = ms at h
  induction h with
  | nil => cases hm
  | one hmt hn _ _ =>
    cases hm
    rw [firsts, ← hn]
    exact List.mem_cons_self
  | skip hmt _ ih =>
    rw [firsts, if_pos hmt]
    exact List.mem_cons_of_mem _ (ih hm)
  | more hmt hn _ _ =>
    cases hm
    rw [firsts, ← hn]
    exact List.mem_cons_self

omit [DecidableEq κ] [DecidableEq ν] in
/-- A term that is not repeated takes one node. -/
lemma spells_one (hmt : t.isMt = false) :
    Spells cls (t :: ts) (n :: ns) ↔ t.symbol = n.symbol cls ∧ Spells cls ts ns := by
  constructor
  · intro h
    cases h with
    | one _ hn h => exact ⟨hn, h⟩
    | skip hmt' _ => simp [hmt] at hmt'
    | more hmt' _ _ => simp [hmt] at hmt'
  · rintro ⟨hn, h⟩
    exact .one hmt hn h

omit [DecidableEq κ] [DecidableEq ν] in
/-- A term that is repeated takes a node, or the terms behind it do. -/
lemma spells_more (hmt : t.isMt = true) :
    Spells cls (t :: ts) (n :: ns) ↔
      t.symbol = n.symbol cls ∧ Spells cls (t :: ts) ns ∨ Spells cls ts (n :: ns) := by
  constructor
  · intro h
    cases h with
    | one hmt' _ _ => simp [hmt] at hmt'
    | skip _ h => exact .inr h
    | more _ hn h => exact .inl ⟨hn, h⟩
  · rintro (⟨hn, h⟩ | h)
    · exact .more hmt hn h
    · exact .skip hmt h

/-- The residue is spelled by what the node leaves. -/
theorem spells_cons (hsep : separated ts = true) :
    Spells cls ts (n :: ns) ↔ ∃ ts', residue (n.symbol cls) ts = some ts' ∧ Spells cls ts' ns := by
  induction ts with
  | nil =>
    constructor
    · intro h
      cases h
    · rintro ⟨_, h, -⟩
      cases h
  | cons t ts ih =>
    obtain ⟨hfirst, hsep'⟩ := separated_cons hsep
    by_cases hn : t.symbol = n.symbol cls
    · rw [residue, if_pos hn]
      cases hmt : t.isMt with
      | true =>
        have hno : ¬ Spells cls ts (n :: ns) := fun h => hfirst hmt (hn ▸ first_of_spells h)
        simp [spells_more hmt, hn, hno]
      | false => simp [spells_one hmt, hn]
    · rw [residue, if_neg hn]
      cases hmt : t.isMt with
      | true => simp [spells_more hmt, hn, ih hsep']
      | false => simp [spells_one hmt, hn]

lemma residue_separated (hsep : separated ts = true) (h : residue s ts = some ts') :
    separated ts' = true := by
  induction ts with
  | nil => cases h
  | cons t ts ih =>
    rw [residue] at h
    split at h
    · cases h
      split
      · exact hsep
      · exact (separated_cons hsep).2
    · split at h
      · exact ih (separated_cons hsep).2 h
      · cases h

lemma residues_cons : residues (s :: w) ts = (residue s ts).bind (residues w) := by
  rw [residues, List.foldlM_cons]
  rfl

lemma residues_snoc : residues (w ++ [s]) ts = (residues w ts).bind (residue s) := by
  rw [residues, List.foldlM_append]
  cases h : residues w ts with
  | none => simp only [residues] at h; rw [h]; rfl
  | some ts' => simp only [residues] at h; rw [h]; simp

lemma residues_separated (hsep : separated ts = true) (h : residues w ts = some ts') :
    separated ts' = true := by
  induction w generalizing ts with
  | nil =>
    cases h
    exact hsep
  | cons s w ih =>
    rw [residues_cons, Option.bind_eq_some_iff] at h
    obtain ⟨ts'', h1, h2⟩ := h
    exact ih (residue_separated hsep h1) h2

/-- The terms that a row leaves are spelled by what may follow the row. -/
theorem spells_append {ms : List (Node τ ν)} (hsep : separated ts = true) : Spells cls ts (ns ++ ms) ↔
    ∃ ts', residues (ns.map (Node.symbol cls)) ts = some ts' ∧ Spells cls ts' ms := by
  induction ns generalizing ts with
  | nil => simp [residues]
  | cons n ns ih =>
    rw [List.cons_append, spells_cons hsep, List.map_cons, residues_cons]
    constructor
    · rintro ⟨ts1, h1, h⟩
      obtain ⟨ts2, h2, h⟩ := (ih (residue_separated hsep h1)).mp h
      exact ⟨ts2, by rw [h1]; exact h2, h⟩
    · rintro ⟨ts2, h, hms⟩
      obtain ⟨ts1, h1, h2⟩ := Option.bind_eq_some_iff.mp h
      exact ⟨ts1, h1, (ih (residue_separated hsep h1)).mpr ⟨ts2, h2, hms⟩⟩

omit [DecidableEq κ] [DecidableEq ν] in
/-- Terms without a node are all repeated. -/
lemma spells_nil : Spells cls ts ([] : List (Node τ ν)) ↔ ∀ t ∈ ts, t.isMt = true := by
  induction ts with
  | nil => simp [Spells.nil]
  | cons t ts ih =>
    constructor
    · intro h
      cases h with
      | skip hmt h => exact List.forall_mem_cons.mpr ⟨hmt, ih.mp h⟩
    · intro h
      obtain ⟨hmt, h⟩ := List.forall_mem_cons.mp h
      exact .skip hmt (ih.mpr h)

end Separated

/-- The row begins one that spells the terms. -/
def Begins (cls : τ → κ) (ts : List (Term κ ν)) (ns : List (Node τ ν)) : Prop :=
  ∃ ms, Spells cls ts (ns ++ ms)

omit [DecidableEq κ] [DecidableEq ν] in
/-- Some row spells the terms, if every class has a token. -/
lemma exists_spells {cls : τ → κ} (hcls : ∀ k, ∃ t, cls t = k) (ts : List (Term κ ν)) :
    ∃ ms, Spells cls ts ms := by
  induction ts with
  | nil => exact ⟨[], .nil⟩
  | cons t ts ih =>
    obtain ⟨ms, h⟩ := ih
    cases t with
    | tk k =>
      obtain ⟨t, ht⟩ := hcls k
      exact ⟨.leaf t :: ms, .one rfl (by rw [Term.symbol, Node.symbol, ht]) h⟩
    | nt n => exact ⟨.node n [] :: ms, .one rfl rfl h⟩
    | mt n => exact ⟨ms, .skip rfl h⟩

/-- A row begins one that spells the terms if it leaves some of them, or none. -/
theorem begins_iff {cls : τ → κ} (hcls : ∀ k, ∃ t, cls t = k) {ts : List (Term κ ν)}
    (hsep : separated ts = true) {ns : List (Node τ ν)} :
    Begins cls ts ns ↔ (residues (ns.map (Node.symbol cls)) ts).isSome = true := by
  rw [Option.isSome_iff_exists]
  constructor
  · rintro ⟨ms, h⟩
    obtain ⟨ts', h, -⟩ := (spells_append hsep).mp h
    exact ⟨ts', h⟩
  · rintro ⟨ts', h⟩
    obtain ⟨ms, hms⟩ := exists_spells hcls ts'
    exact ⟨ms, (spells_append hsep).mpr ⟨ts', h, hms⟩⟩

end Quaint.Residue
