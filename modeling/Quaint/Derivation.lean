import Mathlib

/-!
Derivation trees of a grammar whose right-hand sides may repeat a non-terminal.
-/

namespace Quaint.Derivation

variable {τ κ ν : Type}

/-- A tree: a token, or a non-terminal over its children. -/
inductive Node (τ ν : Type)
  | leaf (token : τ)
  | node (nt : ν) (children : List (Node τ ν))

/-- A term of a right-hand side: a class of tokens, a non-terminal, or any number of one. -/
inductive Term (κ ν : Type)
  | tk (tk : κ)
  | nt (nt : ν)
  | mt (nt : ν)
  deriving DecidableEq

def Term.isMt : Term κ ν → Bool
  | .mt _ => true
  | _ => false

structure Rule (κ ν : Type) where
  lhs : ν
  rhs : List (Term κ ν)
  deriving DecidableEq

/-- What a term is compared with: the class of a token, or the non-terminal of an inner node. -/
def Node.symbol (cls : τ → κ) : Node τ ν → κ ⊕ ν
  | .leaf t => .inl (cls t)
  | .node n _ => .inr n

def Term.symbol : Term κ ν → κ ⊕ ν
  | .tk t => .inl t
  | .nt n | .mt n => .inr n

mutual
/-- The tokens of a tree, from left to right. -/
def Node.leaves : Node τ ν → List τ
  | .leaf t => [t]
  | .node _ cs => leavesAll cs
def leavesAll : List (Node τ ν) → List τ
  | [] => []
  | c :: cs => c.leaves ++ leavesAll cs
end

lemma leavesAll_eq (cs : List (Node τ ν)) : leavesAll cs = cs.flatMap Node.leaves := by
  induction cs with
  | nil => rfl
  | cons c cs ih => rw [leavesAll, ih, List.flatMap_cons]

@[simp] lemma leaves_leaf (t : τ) : (Node.leaf t : Node τ ν).leaves = [t] := by rw [Node.leaves]

@[simp] lemma leaves_node (n : ν) (cs : List (Node τ ν)) :
    (Node.node n cs).leaves = cs.flatMap Node.leaves := by rw [Node.leaves, leavesAll_eq]

/-- The nodes spell the terms, one node for each, and any number for one that is repeated. -/
inductive Spells (cls : τ → κ) : List (Term κ ν) → List (Node τ ν) → Prop
  | nil : Spells cls [] []
  | one {t : Term κ ν} {ts : List (Term κ ν)} {n : Node τ ν} {ns : List (Node τ ν)}
    (hmt : t.isMt = false) (hn : t.symbol = n.symbol cls) (h : Spells cls ts ns) :
    Spells cls (t :: ts) (n :: ns)
  | skip {t : Term κ ν} {ts : List (Term κ ν)} {ns : List (Node τ ν)} (hmt : t.isMt = true)
    (h : Spells cls ts ns) : Spells cls (t :: ts) ns
  | more {t : Term κ ν} {ts : List (Term κ ν)} {n : Node τ ν} {ns : List (Node τ ν)}
    (hmt : t.isMt = true) (hn : t.symbol = n.symbol cls) (h : Spells cls (t :: ts) ns) :
    Spells cls (t :: ts) (n :: ns)

/-- Every inner node stands for a rule its children spell. -/
inductive Derived (cls : τ → κ) (rules : List (Rule κ ν)) : Node τ ν → Prop
  | leaf (t : τ) : Derived cls rules (.leaf t)
  | node (r : Rule κ ν) (hr : r ∈ rules) (cs : List (Node τ ν)) (hs : Spells cls r.rhs cs)
    (hcs : ∀ c ∈ cs, Derived cls rules c) : Derived cls rules (.node r.lhs cs)

section Inversion

variable {cls : τ → κ} {rules : List (Rule κ ν)} {ts : List (Term κ ν)} {ns cs : List (Node τ ν)} {nt : ν}

/-- Without a repeated term there is one node for each. -/
lemma Spells.forall₂ (h : Spells cls ts ns) (hmt : ∀ t ∈ ts, t.isMt = false) :
    List.Forall₂ (fun t n => t.symbol = n.symbol cls) ts ns := by
  induction h with
  | nil => exact .nil
  | one hmt' hn h ih => exact .cons hn (ih fun t ht => hmt t (List.mem_cons_of_mem _ ht))
  | skip hmt' h ih => exact absurd hmt' (by simp [hmt _ List.mem_cons_self])
  | more hmt' hn h ih => exact absurd hmt' (by simp [hmt _ List.mem_cons_self])

lemma Derived.rule (h : Derived cls rules (.node nt cs)) :
    ∃ r ∈ rules, r.lhs = nt ∧ Spells cls r.rhs cs ∧ ∀ c ∈ cs, Derived cls rules c := by
  cases h with
  | node r hr cs hs hcs => exact ⟨r, hr, rfl, hs, hcs⟩

end Inversion

end Quaint.Derivation
