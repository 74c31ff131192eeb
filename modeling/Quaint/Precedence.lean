import Mathlib
import Quaint.Infix
import Quaint.Parsing

/-!
The expressions of binary operators the parser builds.

The first rule that can match is found from the symbols on top of the stack. The parser then goes
through a sequence of atoms and operators as the algorithm that builds the tree of their
precedences does.
-/

namespace Quaint.Precedence

open Relation Lex Derivation Parse Parsing Infix

/-! ### The first rule that matches -/

section Spells

variable {τ κ ν : Type} {cls : τ → κ} {ts ts' : List (Term κ ν)} {ns ns' : List (Node τ ν)}
  {t : Term κ ν} {n : Node τ ν}

lemma Spells.append (h : Spells cls ts ns) (h' : Spells cls ts' ns') :
    Spells cls (ts ++ ts') (ns ++ ns') := by
  induction h with
  | nil => exact h'
  | one hmt hn _ ih => exact .one hmt hn ih
  | skip hmt _ ih => exact .skip hmt ih
  | more hmt hn _ ih => exact .more hmt hn ih

lemma Spells.snoc_more (hmt : t.isMt = true) (hn : t.symbol = n.symbol cls)
    (h : Spells cls (ts ++ [t]) ns) : Spells cls (ts ++ [t]) (ns ++ [n]) := by
  generalize heq : ts ++ [t] = us at h
  induction h generalizing ts with
  | nil => simp at heq
  | @one u us m ms hu hm h ih =>
    cases ts with
    | nil =>
      obtain ⟨rfl, -⟩ := List.cons.inj heq
      rw [hu] at hmt
      cases hmt
    | cons v ts =>
      obtain ⟨rfl, hus⟩ := List.cons.inj heq
      exact .one hu hm (ih hus)
  | @skip u us ms hu h ih =>
    cases ts with
    | nil =>
      obtain ⟨rfl, rfl⟩ := List.cons.inj heq
      cases h
      exact .more hmt hn (.skip hmt .nil)
    | cons v ts =>
      obtain ⟨rfl, hus⟩ := List.cons.inj heq
      exact .skip hu (ih hus)
  | @more u us m ms hu hm h ih => exact .more hu hm (ih heq)

/-- Nodes spell the terms read backwards as well. -/
lemma Spells.reverse (h : Spells cls ts ns) : Spells cls ts.reverse ns.reverse := by
  induction h with
  | nil => exact .nil
  | one hmt hn _ ih =>
    rw [List.reverse_cons, List.reverse_cons]
    exact Spells.append ih (.one hmt hn .nil)
  | skip hmt _ ih =>
    rw [List.reverse_cons]
    simpa using Spells.append ih (.skip hmt .nil)
  | more hmt hn _ ih =>
    rw [List.reverse_cons] at ih ⊢
    rw [List.reverse_cons]
    exact Spells.snoc_more hmt hn ih

end Spells

/-- Nodes with these symbols on top may be reduced to the terms, read from the last one on. -/
def compatible : List PTerm → List (Tk ⊕ Nt) → Bool
  | t :: ts, x :: xs =>
    if t.isMt then compatible ts (x :: xs) || decide (t.symbol = x)
    else decide (t.symbol = x) && compatible ts xs
  | _, _ => true

section Match

variable {stack ns tail below : List PNode} {syms : List (Tk ⊕ Nt)} {r : PRule} {n fuel : Nat}
  {prev : Option PTerm} {ts more : List PTerm}

lemma compatible_nil (ts : List PTerm) : compatible ts [] = true := by cases ts <;> rfl

lemma compatible_of_spells (h : Spells Token.tk ts ns)
    (hs : syms <+: (ns ++ tail).map (Node.symbol Token.tk)) : compatible ts syms = true := by
  induction h generalizing syms with
  | nil => simp [compatible]
  | one hmt hn _ ih =>
    cases syms with
    | nil => exact compatible_nil _
    | cons x xs =>
      rw [List.cons_append, List.map_cons, List.cons_prefix_cons] at hs
      rw [compatible, hmt, hs.1, ih hs.2]
      simp [hn]
  | skip hmt _ ih =>
    cases syms with
    | nil => exact compatible_nil _
    | cons x xs =>
      rw [compatible, hmt, ih hs]
      simp
  | more hmt hn _ _ =>
    cases syms with
    | nil => exact compatible_nil _
    | cons x xs =>
      rw [List.cons_append, List.map_cons, List.cons_prefix_cons] at hs
      rw [compatible, hmt, hs.1]
      simp [hn]

/-- A rule that matches may match what is on top. -/
lemma compatible_of_match (hr : r ∈ grammar) (h : matchRule r stack ≠ 0)
    (hs : syms <+: stack.map (Node.symbol Token.tk)) : compatible r.rhs.reverse syms = true := by
  have hsp := Spells.reverse (matchRule_spells hr h)
  rw [← List.take_append_drop (matchRule r stack) stack] at hs
  rw [List.reverse_reverse] at hsp
  exact compatible_of_spells hsp hs

lemma firstMatch_none (hs : syms <+: stack.map (Node.symbol Token.tk))
    (hf : grammar.find? (fun r => compatible r.rhs.reverse syms) = none) :
    firstMatch stack = none := by
  refine List.findSome?_eq_none_iff.mpr fun r hr => if_pos ?_
  by_contra h
  exact List.find?_eq_none.mp hf r hr (compatible_of_match hr h hs)

lemma firstMatch_of (hs : syms <+: stack.map (Node.symbol Token.tk))
    (hf : grammar.find? (fun r => compatible r.rhs.reverse syms) = some r)
    (hm : matchRule r stack = n) (hn : n ≠ 0) : firstMatch stack = some (r, n) := by
  obtain ⟨-, as, bs, hg, has⟩ := List.find?_eq_some_iff_append.mp hf
  have hnone : as.findSome? (fun r =>
      if matchRule r stack = 0 then none else some (r, matchRule r stack)) = none := by
    refine List.findSome?_eq_none_iff.mpr fun q hq => if_pos ?_
    by_contra h
    have hc := compatible_of_match (by rw [hg]; exact List.mem_append_left _ hq) h hs
    simpa [hc] using has q hq
  rw [firstMatch, hg, List.findSome?_append, hnone, Option.none_or, List.findSome?_cons, hm,
    if_neg hn]

lemma matchLoop_exact (h : List.Forall₂ (fun t n => t.symbol = n.symbol Token.tk) ts ns)
    (hmt : ∀ t ∈ ts, t.isMt = false) (hno : no ∉ ts) (hne : ts ≠ []) (hf : ts.length ≤ fuel) :
    matchLoop fuel prev (ts ++ no :: more) (ns ++ tail) = some (none, tail) := by
  induction h generalizing fuel prev with
  | nil => exact (hne rfl).elim
  | @cons t m ts ms hn hrest ih =>
    cases fuel with
    | zero => simp at hf
    | succ fuel =>
      have hstep : matchStep prev (t :: (ts ++ no :: more)) (m :: (ms ++ tail)) =
          some (none, ts ++ no :: more, ms ++ tail) := by
        rw [matchStep, if_pos (termEqNode_iff.mpr hn), hmt t List.mem_cons_self]
        rfl
      simp only [List.cons_append, matchLoop, hstep]
      cases hrest with
      | nil => rfl
      | @cons u v us vs hn' hrest' =>
        have hu : ¬ u = no := fun hu => hno (by simp [hu])
        simp only [List.cons_append, List.head?_cons, Option.some.injEq, hu, if_false,
          List.isEmpty_cons, Bool.false_eq_true]
        exact ih (fun t ht => hmt t (List.mem_cons_of_mem _ ht))
          (fun hm => hno (List.mem_cons_of_mem _ hm)) (by simp) (by simpa using hf)

/-- A rule without repeated terms matches what it says. -/
lemma matchRule_exact (hlen : r.rhs.length ≤ ruleRhsLast) (hmt : ∀ t ∈ r.rhs, t.isMt = false)
    (hno : no ∉ r.rhs) (hne : r.rhs ≠ [])
    (h : List.Forall₂ (fun t n => t.symbol = n.symbol Token.tk) r.rhs.reverse ns) :
    matchRule r (ns ++ tail) = ns.length := by
  have hrep : List.replicate (ruleRhsLast + 1 - r.rhs.length) no =
      no :: List.replicate (ruleRhsLast - r.rhs.length) no := by
    rw [Nat.succ_sub hlen, List.replicate_succ]
  have hslots : (slots r).reverse =
      r.rhs.reverse ++ no :: List.replicate (ruleRhsLast - r.rhs.length) no := by
    rw [slots, List.reverse_append, List.reverse_replicate, hrep]
  have hloop : matchLoop (ruleRhsLast + 1 + (ns ++ tail).length) none (slots r).reverse
      (ns ++ tail) = some (none, tail) := by
    rw [hslots]
    exact matchLoop_exact h (fun t ht => hmt t (List.mem_reverse.mp ht))
      (fun hm => hno (List.mem_reverse.mp hm)) (by simpa using hne) (by simp; omega)
  rw [matchRule, hloop]
  simp [dropPrev]

end Match

/-! ### Rounds -/

section Rounds

variable {stack stack' stack'' : List PNode} {rest rest' ks ks' ks'' : List Token} {t : Token}
  {r : PRule} {n : Nat}

/-- The rounds of the loop. -/
abbrev Rounds : Parsing → Parsing → Prop := ReflTransGen fun x y => parseStep x = .next y

/-- With these tokens left, less those that are skipped, the parser gets from one stack to another
with those left. -/
def Reaches (stack : List PNode) (ks : List Token) (stack' : List PNode) (ks' : List Token) :
    Prop :=
  ∀ rest, kept rest = ks →
    ∃ rest', kept rest' = ks' ∧ Rounds ⟨stack, rest, true⟩ ⟨stack', rest', true⟩

lemma Reaches.refl : Reaches stack ks stack ks := fun rest h => ⟨rest, h, .refl⟩

lemma Reaches.trans (h : Reaches stack ks stack' ks') (h' : Reaches stack' ks' stack'' ks'') :
    Reaches stack ks stack'' ks'' := by
  intro rest hk
  obtain ⟨rest1, h1, run1⟩ := h rest hk
  obtain ⟨rest2, h2, run2⟩ := h' rest1 h1
  exact ⟨rest2, h2, run1.trans run2⟩

/-- The token ahead. -/
lemma ahead_of_kept (h : kept rest = t :: ks) :
    ∃ rest', rest.dropWhile skipToken = t :: rest' ∧ kept rest' = ks ∧ skipToken t = false := by
  induction rest with
  | nil => cases h
  | cons u rest ih =>
    by_cases hu : skipToken u = true
    · rw [kept, List.filter_cons_of_neg (by simp [hu])] at h
      rw [List.dropWhile_cons_of_pos hu]
      exact ih h
    · rw [kept, List.filter_cons_of_pos (by simp [hu])] at h
      obtain ⟨rfl, rfl⟩ := List.cons.inj h
      exact ⟨rest, List.dropWhile_cons_of_neg hu, rfl, eq_false_of_ne_true hu⟩

lemma shouldShift_ahead {f : PRule → Tk → Bool} (hr : r.lhs ≠ .unit)
    (h : rest.dropWhile skipToken = t :: rest') :
    shouldShift f r rest = some (f r t.tk, t :: rest') := by
  rw [shouldShift, if_neg hr, h]

/-- The token ahead does not keep the parser from reducing. -/
lemma reaches_reduce (hm : firstMatch stack = some (r, n)) (hr : r.lhs ≠ .unit)
    (hpre : shiftsPre r t.tk = false) (hpost : shiftsPost r t.tk = false) :
    Reaches stack (t :: ks) (reduce r n stack) (t :: ks) := by
  intro rest hk
  obtain ⟨rest', hdrop, hk', ht⟩ := ahead_of_kept hk
  have hdrop' : (t :: rest').dropWhile skipToken = t :: rest' :=
    List.dropWhile_cons_of_neg (by simp [ht])
  refine ⟨t :: rest', ?_, .single ?_⟩
  · rw [kept, List.filter_cons_of_pos (by simp [ht])]
    exact congrArg _ hk'
  · simp only [parseStep, if_true, hm, shouldShift_ahead hr hdrop, hpre,
      shouldShift_ahead hr hdrop', hpost]

/-- The token ahead is shifted although a rule matches. -/
lemma reaches_shift_pre (hm : firstMatch stack = some (r, n)) (hr : r.lhs ≠ .unit)
    (hpre : shiftsPre r t.tk = true) : Reaches stack (t :: ks) (.leaf t :: stack) ks := by
  intro rest hk
  obtain ⟨rest', hdrop, hk', -⟩ := ahead_of_kept hk
  refine ⟨rest', hk', .single ?_⟩
  simp only [parseStep, if_true, hm, shouldShift_ahead hr hdrop, hpre]
  rfl

/-- The next token is shifted where no rule matches. -/
lemma rounds_shift (stack : List PNode) (hk : kept rest = t :: ks) :
    ∃ rest', kept rest' = ks ∧ Rounds ⟨stack, rest, false⟩ ⟨.leaf t :: stack, rest', true⟩ := by
  induction rest with
  | nil => cases hk
  | cons u rest ih =>
    by_cases hu : skipToken u = true
    · rw [kept, List.filter_cons_of_neg (by simp [hu])] at hk
      obtain ⟨rest', hk', run⟩ := ih hk
      refine ⟨rest', hk', .head ?_ run⟩
      simp only [parseStep, Bool.false_eq_true, if_false, hu, if_true]
    · rw [kept, List.filter_cons_of_pos (by simp [hu])] at hk
      obtain ⟨rfl, rfl⟩ := List.cons.inj hk
      refine ⟨rest, rfl, .single ?_⟩
      simp only [parseStep, Bool.false_eq_true, if_false, hu]
      rfl

lemma rounds_retry (hm : firstMatch stack = none) :
    Rounds ⟨stack, rest, true⟩ ⟨stack, rest, false⟩ := by
  refine .single ?_
  simp only [parseStep, if_true, hm]

lemma reaches_shift (hm : firstMatch stack = none) :
    Reaches stack (t :: ks) (.leaf t :: stack) ks := by
  intro rest hk
  obtain ⟨rest', hk', run⟩ := rounds_shift stack hk
  exact ⟨rest', hk', (rounds_retry hm).trans run⟩

/-- What is skipped at the end. -/
lemma rounds_end (hk : kept rest = []) : Rounds ⟨stack, rest, false⟩ ⟨stack, [], false⟩ := by
  induction rest with
  | nil => exact .refl
  | cons u rest ih =>
    have hu : skipToken u = true := by
      by_contra hu
      rw [kept, List.filter_cons_of_pos (by simp [hu])] at hk
      cases hk
    rw [kept, List.filter_cons_of_neg (by simp [hu])] at hk
    refine .head ?_ (ih hk)
    simp only [parseStep, Bool.false_eq_true, if_false, hu, if_true]

lemma parseLoop_of_rounds {fuel : Nat} {x : Parsing} (run : Rounds x ⟨stack, [], false⟩)
    (h : parseLoop fuel x ≠ .hang) : parseLoop fuel x = parseEnd stack := by
  induction fuel generalizing x with
  | zero => exact (h rfl).elim
  | succ fuel ih =>
    rcases ReflTransGen.cases_head run with rfl | ⟨y, hy, run⟩
    · rfl
    · rw [parseLoop, hy] at h ⊢
      exact ih run h

end Rounds

/-! ### Operators and atoms -/

def isAtom (t : Tk) : Bool := t == .name || t == .nmbr || t == .strl

/-- The binary operators, from `=` to `as`. -/
def isBinary (t : Tk) : Bool := Tk.ctorIdx .assn ≤ t.ctorIdx && t.ctorIdx ≤ Tk.ctorIdx .cast

def binaries : List Tk :=
  [.assn, .aspl, .asmi, .asmu, .asdi, .asmo, .asls, .asrs, .asan, .asxo, .asor, .coln, .scop, .atsi,
   .memb, .arow, .equl, .neql, .lthn, .gthn, .lteq, .gteq, .conj, .disj, .plus, .mins, .mult, .divi,
   .modu, .lshf, .rshf, .amps, .care, .pipe, .coma, .cast]

/-- The levels of the operators; assignments, `:`, `,` and `::` associate to the right. -/
def levels : Levels Token where
  prec t := precedenceOf t.tk
  right t := lexTkIsAssn t.tk || t.tk == .coln || t.tk == .coma || t.tk == .scop

/-- The tree the parser makes of an expression. -/
def exprNode : OpTree Token Token → PNode
  | .atom a => .node .expr [.node .atom [.leaf a]]
  | .bin l op r => .node .expr [.node .bexp [exprNode l, .leaf op, exprNode r]]

/-- The stack below an expression, down to the first token. -/
def below (b : Token) : Pending Token Token → List PNode
  | [] => [.leaf b]
  | (t, op) :: ps => .leaf op :: exprNode t :: below b ps

def atomRule (t : Tk) : PRule := ⟨.atom, [.tk t]⟩
def stmtRule : PRule := ⟨.stmt, [.mt .qual, .nt .expr, .tk .scol]⟩
def unitRule : PRule := ⟨.unit, [.tk .fbeg, .mt .stmt, .tk .fend]⟩

lemma mem_binaries {t : Tk} (h : isBinary t = true) : t ∈ binaries := by
  cases t <;> first | decide | cases h

section Find

lemma find_atom : ∀ t ∈ [Tk.name, .nmbr, .strl],
    grammar.find? (fun r => compatible r.rhs.reverse [.inl t]) = some (atomRule t) := by decide

lemma find_expr : ∀ n ∈ [Nt.atom, .bexp],
    grammar.find? (fun r => compatible r.rhs.reverse [.inr n]) = some (expr n) := by decide

lemma find_binary : ∀ t ∈ binaries,
    grammar.find? (fun r => compatible r.rhs.reverse [.inl t]) = none := by decide +kernel

lemma find_bexp : ∀ t ∈ binaries, t ≠ .coln →
    grammar.find? (fun r => compatible r.rhs.reverse [.inr .expr, .inl t, .inr .expr]) =
      some (bexp t) := by decide +kernel

/-- The rule of the conditional comes first, and does not match an operator that is not `?`. -/
lemma find_coln : ∀ t ∈ Tk.fbeg :: binaries,
    grammar.find? (fun r => compatible r.rhs.reverse [.inr .expr, .inl .coln, .inr .expr, .inl t]) =
      some (bexp .coln) := by decide +kernel

lemma find_fbeg : grammar.find? (fun r => compatible r.rhs.reverse [.inl .fbeg]) = none := by decide

lemma find_first :
    grammar.find? (fun r => compatible r.rhs.reverse [.inr .expr, .inl .fbeg]) = none := by decide

lemma find_stmt :
    grammar.find? (fun r => compatible r.rhs.reverse [.inl .scol, .inr .expr, .inl .fbeg]) =
      some stmtRule := by decide

lemma find_after :
    grammar.find? (fun r => compatible r.rhs.reverse [.inr .stmt, .inl .fbeg]) = none := by decide

lemma find_unit :
    grammar.find? (fun r => compatible r.rhs.reverse [.inl .fend]) = some unitRule := by decide

lemma find_done : grammar.find? (fun r => compatible r.rhs.reverse [.inr .unit]) = none := by decide

end Find

/-! ### A sequence of atoms and operators -/

section Sequence

variable {stack : List PNode} {ps : Pending Token Token} {l r e : OpTree Token Token}
  {a b op s f t : Token} {ks : List Token} {w : List (Token × Token)}

@[simp] lemma exprNode_symbol : (exprNode e).symbol Token.tk = .inr .expr := by cases e <;> rfl

@[simp] lemma leaf_symbol : (Node.leaf a : PNode).symbol Token.tk = .inl a.tk := rfl

@[simp] lemma node_symbol {n : Nt} {cs : List PNode} :
    (Node.node n cs).symbol Token.tk = .inr n := rfl

/-- The tokens of a sequence after its first atom. -/
def spread (w : List (Token × Token)) : List Token := w.flatMap fun p => [p.1, p.2]

/-- Atoms joined by binary operators. -/
def IsSequence (a : Token) (w : List (Token × Token)) : Prop :=
  isAtom a.tk = true ∧ ∀ p ∈ w, isBinary p.1.tk = true ∧ isAtom p.2.tk = true

instance : Decidable (IsSequence a w) := inferInstanceAs (Decidable (_ ∧ _))

/-- The tokens of an expression from left to right. -/
def inOrder : OpTree Token Token → List Token
  | .atom a => [a]
  | .bin l op r => inOrder l ++ op :: inOrder r

lemma inOrder_eq : inOrder e = e.first :: spread e.rest := by
  induction e with
  | atom a => rfl
  | bin l op r ihl ihr => simp [inOrder, ihl, ihr, OpTree.first, OpTree.rest, spread]

lemma spread_inj {v : List (Token × Token)} (h : spread v = spread w) : v = w := by
  induction v generalizing w with
  | nil =>
    cases w with
    | nil => rfl
    | cons q w => simp [spread] at h
  | cons p v ih =>
    cases w with
    | nil => simp [spread] at h
    | cons q w =>
      simp only [spread, List.flatMap_cons, List.cons_append, List.nil_append, List.cons.injEq] at h
      rw [Prod.ext h.1 h.2.1, ih h.2.2]

lemma shiftsPre_expr (n : Nt) (k : Tk) :
    shiftsPre (expr n) k = false ∧ shiftsPost (expr n) k = false := by
  constructor <;> simp [shiftsPre, shiftsPost, expr]

lemma shiftsPre_atom (k k' : Tk) :
    shiftsPre (atomRule k) k' = false ∧ shiftsPost (atomRule k) k' = false := by
  constructor <;> simp [shiftsPre, shiftsPost, atomRule]

/-- Whether the token ahead is shifted in the midst of two operators. -/
lemma shiftsPre_bexp (hop : isBinary op.tk = true) :
    shiftsPre (bexp t.tk) op.tk = decide (levels.RightOk t op) := by
  have hlt : isOperator op.tk = true := by
    simp only [isBinary, isOperator, Bool.and_eq_true, decide_eq_true_eq] at hop ⊢
    exact ⟨hop.1, Nat.le_trans hop.2 (by decide)⟩
  have hslot : slotTk (bexp t.tk) (ruleRhsLast - 1) = t.tk := rfl
  simp only [shiftsPre, bexp, if_true, hlt] at hslot ⊢
  simp only [hslot, Levels.RightOk, levels]
  by_cases hgt : precedenceOf t.tk > precedenceOf op.tk
  · simp [hgt]
  · by_cases heq : precedenceOf t.tk = precedenceOf op.tk
    · simp [heq, beq_eq_decide]
    · have hne : ¬ precedenceOf op.tk = precedenceOf t.tk := fun h => heq h.symm
      simp [hgt, heq, hne]

lemma shiftsPre_scol (hs : s.tk = .scol) : shiftsPre (bexp t.tk) s.tk = false := by
  rw [hs]
  rfl

/-- An atom or a reduced expression becomes an expression. -/
lemma reaches_expr {n : Nt} {cs : List PNode} (hn : n ∈ [Nt.atom, .bexp]) :
    Reaches (.node n cs :: stack) (t :: ks) (.node .expr [.node n cs] :: stack) (t :: ks) := by
  have hm : matchRule (expr n) ([.node n cs] ++ stack) = 1 :=
    matchRule_exact (by simp [expr, ruleRhsLast]) (by simp [expr, Term.isMt]) (by simp [expr, no])
      (by simp [expr])
      (.cons rfl .nil)
  have hfirst : firstMatch (.node n cs :: stack) = some (expr n, 1) :=
    firstMatch_of (by simp) (find_expr n hn) hm (by decide)
  exact reaches_reduce hfirst (by simp [expr]) (shiftsPre_expr n _).1 (shiftsPre_expr n _).2

lemma reaches_atom (ha : isAtom a.tk = true) :
    Reaches (.leaf a :: stack) (t :: ks) (exprNode (.atom a) :: stack) (t :: ks) := by
  have hmem : a.tk ∈ [Tk.name, .nmbr, .strl] := by
    simpa [isAtom, or_assoc] using ha
  have hm : matchRule (atomRule a.tk) ([.leaf a] ++ stack) = 1 := by
    refine matchRule_exact (by simp [atomRule, ruleRhsLast]) (by simp [atomRule, Term.isMt]) ?_
      (by simp [atomRule]) (.cons rfl .nil)
    simp only [atomRule, List.mem_singleton, no, Term.tk.injEq]
    intro h
    rw [← h] at hmem
    revert hmem
    decide
  have hfirst : firstMatch (.leaf a :: stack) = some (atomRule a.tk, 1) :=
    firstMatch_of (by simp) (find_atom a.tk hmem) hm (by decide)
  have h : Reaches (.leaf a :: stack) (t :: ks) (.node .atom [.leaf a] :: stack) (t :: ks) :=
    reaches_reduce hfirst (by simp [atomRule]) (shiftsPre_atom _ _).1 (shiftsPre_atom _ _).2
  exact h.trans (reaches_expr (by decide))

/-- The operator on the stack is reduced first of all. -/
lemma firstMatch_bexp (hb : b.tk = .fbeg) (hop : isBinary op.tk = true)
    (hps : ∀ p ∈ ps, isBinary p.2.tk = true) :
    firstMatch (exprNode r :: .leaf op :: exprNode l :: below b ps) = some (bexp op.tk, 3) := by
  have hmem := mem_binaries hop
  have hm : matchRule (bexp op.tk) ([exprNode r, .leaf op, exprNode l] ++ below b ps) = 3 := by
    refine matchRule_exact (by simp [bexp, ruleRhsLast]) (by simp [bexp, Term.isMt]) ?_
      (by simp [bexp]) ?_
    · simp only [bexp, List.mem_cons, no, Term.tk.injEq, reduceCtorEq, false_or, List.not_mem_nil,
        or_false]
      intro h
      rw [← h] at hmem
      revert hmem
      decide
    · exact .cons exprNode_symbol.symm (.cons rfl (.cons exprNode_symbol.symm .nil))
  by_cases hc : op.tk = .coln
  · -- the node below the expressions is the first token or another operator
    obtain ⟨x, xs, hbelow, hx⟩ : ∃ x xs, below b ps = .leaf x :: xs ∧
        x.tk ∈ Tk.fbeg :: binaries := by
      cases ps with
      | nil => exact ⟨b, [], rfl, by simp [hb]⟩
      | cons p ps =>
        exact ⟨p.2, _, rfl, List.mem_cons_of_mem _ (mem_binaries (hps p List.mem_cons_self))⟩
    rw [hbelow] at hm ⊢
    rw [hc] at hm ⊢
    exact firstMatch_of (by simp [hc]) (find_coln x.tk hx) hm (by decide)
  · exact firstMatch_of (by simp) (find_bexp op.tk hmem hc) hm (by decide)

/-- Reducing the operator on the stack. -/
lemma reaches_bexp (hb : b.tk = .fbeg) (hop : isBinary op.tk = true)
    (hps : ∀ p ∈ ps, isBinary p.2.tk = true) (hpre : shiftsPre (bexp op.tk) t.tk = false) :
    Reaches (exprNode r :: below b ((l, op) :: ps)) (t :: ks) (exprNode (.bin l op r) :: below b ps)
      (t :: ks) := by
  have h : Reaches (exprNode r :: below b ((l, op) :: ps)) (t :: ks)
      (.node .bexp [exprNode l, .leaf op, exprNode r] :: below b ps) (t :: ks) :=
    reaches_reduce (firstMatch_bexp hb hop hps) (by simp [bexp]) hpre (by simp [shiftsPost, bexp])
  exact h.trans (reaches_expr (by decide))

/-- The operator ahead is shifted when those on the stack have been reduced that do not give way. -/
lemma reaches_operator (hb : b.tk = .fbeg) (hop : isBinary op.tk = true)
    (hps : ∀ p ∈ ps, isBinary p.2.tk = true) :
    Reaches (exprNode e :: below b ps) (op :: ks)
      (.leaf op :: exprNode (reduceFor levels (some op) ps e).2 ::
        below b (reduceFor levels (some op) ps e).1) ks := by
  induction ps generalizing e with
  | nil => exact reaches_shift (firstMatch_none (by simp [below, hb]) find_first)
  | cons p ps ih =>
    obtain ⟨l, x⟩ := p
    have hx := hps (l, x) List.mem_cons_self
    have hps' : ∀ p ∈ ps, isBinary p.2.tk = true := fun p hp => hps p (List.mem_cons_of_mem _ hp)
    have hyields : yields levels x (some op) ↔ levels.RightOk x op := by simp [yields]
    rw [reduceFor]
    split
    · rename_i hy
      refine reaches_shift_pre (firstMatch_bexp hb hx hps') (by simp [bexp]) ?_
      rw [shiftsPre_bexp hop, decide_eq_true_eq]
      exact hyields.mp hy
    · rename_i hy
      refine (reaches_bexp hb hx hps' ?_).trans (ih hps')
      rw [shiftsPre_bexp hop, decide_eq_false_iff_not]
      exact fun h => hy (hyields.mpr h)

/-- All operators are reduced before a semicolon. -/
lemma reaches_close (hb : b.tk = .fbeg) (hs : s.tk = .scol)
    (hps : ∀ p ∈ ps, isBinary p.2.tk = true) :
    Reaches (exprNode e :: below b ps) (s :: ks) [exprNode (reduceFor levels none ps e).2, .leaf b]
      (s :: ks) := by
  induction ps generalizing e with
  | nil => exact .refl
  | cons p ps ih =>
    obtain ⟨l, x⟩ := p
    have hps' : ∀ p ∈ ps, isBinary p.2.tk = true := fun p hp => hps p (List.mem_cons_of_mem _ hp)
    have hno : ¬ yields levels x none := fun ⟨y, hy, _⟩ => Option.not_mem_none y hy
    rw [reduceFor, if_neg hno]
    exact (reaches_bexp hb (hps (l, x) List.mem_cons_self) hps' (shiftsPre_scol hs)).trans (ih hps')

lemma reduceFor_binary {ahead : Option Token} (hps : ∀ p ∈ ps, isBinary p.2.tk = true) :
    ∀ p ∈ (reduceFor levels ahead ps e).1, isBinary p.2.tk = true := by
  induction ps generalizing e with
  | nil => exact hps
  | cons p ps ih =>
    rw [reduceFor]
    split
    · exact hps
    · exact ih fun p hp => hps p (List.mem_cons_of_mem _ hp)

/-- The parser goes through the sequence as the algorithm does. -/
lemma reaches_build (hb : b.tk = .fbeg) (hs : s.tk = .scol)
    (hps : ∀ p ∈ ps, isBinary p.2.tk = true)
    (hw : ∀ p ∈ w, isBinary p.1.tk = true ∧ isAtom p.2.tk = true) :
    Reaches (exprNode e :: below b ps) (spread w ++ s :: ks)
      [exprNode (build levels w ps e), .leaf b] (s :: ks) := by
  induction w generalizing ps e with
  | nil => exact reaches_close hb hs hps
  | cons p w ih =>
    obtain ⟨op, a⟩ := p
    obtain ⟨⟨hop, ha⟩, hw⟩ := List.forall_mem_cons.mp hw
    have hnext : ∀ p ∈ (((reduceFor levels (some op) ps e).2, op) ::
        (reduceFor levels (some op) ps e).1), isBinary p.2.tk = true :=
      List.forall_mem_cons.mpr ⟨hop, reduceFor_binary hps⟩
    have hshift : firstMatch (.leaf op :: exprNode (reduceFor levels (some op) ps e).2 ::
        below b (reduceFor levels (some op) ps e).1) = none :=
      firstMatch_none (by simp) (find_binary op.tk (mem_binaries hop))
    obtain ⟨t, ts, hts⟩ : ∃ t ts, spread w ++ s :: ks = t :: ts := by
      cases w with
      | nil => exact ⟨s, ks, rfl⟩
      | cons p w => exact ⟨p.1, _, rfl⟩
    have hrest := ih (e := .atom a) hnext hw
    change Reaches _ (op :: a :: (spread w ++ s :: ks)) _ _
    rw [hts] at hrest ⊢
    exact (reaches_operator hb hop hps).trans ((reaches_shift hshift).trans
      ((reaches_atom ha).trans hrest))

/-- What is done with the expression of a whole unit. -/
lemma reaches_unit (hb : b.tk = .fbeg) (hs : s.tk = .scol) (hf : f.tk = .fend) :
    Reaches [exprNode e, .leaf b] [s, f]
      [.leaf f, .node .stmt [exprNode e, .leaf s], .leaf b] [] := by
  have hfirst : firstMatch [exprNode e, .leaf b] = none :=
    firstMatch_none (by simp [hb]) find_first
  have hmatch : matchRule stmtRule [.leaf s, exprNode e, .leaf b] = 2 := by
    simp [matchRule, matchLoop, matchStep, stmtRule, slots, ruleRhsLast, termEqNode, Term.symbol,
      Term.isMt, dropPrev, no, hs, hb]
  have hstmt : firstMatch [.leaf s, exprNode e, .leaf b] = some (stmtRule, 2) :=
    firstMatch_of (by simp [hs, hb]) find_stmt hmatch (by decide)
  have hafter : firstMatch [.node .stmt [exprNode e, .leaf s], .leaf b] = none :=
    firstMatch_none (by simp [hb]) find_after
  have hreduce : Reaches [.leaf s, exprNode e, .leaf b] [f]
      [.node .stmt [exprNode e, .leaf s], .leaf b] [f] :=
    reaches_reduce hstmt (by simp [stmtRule]) (by rw [hf]; decide) (by rw [hf]; decide)
  exact (reaches_shift hfirst).trans (hreduce.trans (reaches_shift hafter))

/-- The unit is what is left of the stack. -/
lemma rounds_unit {rest : List Token} {n : PNode} (hb : b.tk = .fbeg) (hf : f.tk = .fend)
    (hn : n.symbol Token.tk = .inr .stmt) (hk : kept rest = []) :
    Rounds ⟨[.leaf f, n, .leaf b], rest, true⟩
      ⟨[.node .unit [.leaf b, n, .leaf f]], [], false⟩ := by
  have hmatch : matchRule unitRule [.leaf f, n, .leaf b] = 3 := by
    simp [matchRule, matchLoop, matchStep, unitRule, slots, ruleRhsLast, termEqNode, Term.symbol,
      Term.isMt, dropPrev, no, hf, hb, hn]
  have hunit : firstMatch [.leaf f, n, .leaf b] = some (unitRule, 3) :=
    firstMatch_of (by simp [hf]) find_unit hmatch (by decide)
  have hdone : firstMatch [.node .unit [.leaf b, n, .leaf f]] = none :=
    firstMatch_none (by simp) find_done
  have hstep : parseStep ⟨[.leaf f, n, .leaf b], rest, true⟩ =
      .next ⟨[.node .unit [.leaf b, n, .leaf f]], rest, true⟩ := by
    simp only [parseStep, if_true, hunit, shouldShift, unitRule]
    rfl
  exact .head hstep ((rounds_retry hdone).trans (rounds_end hk))

/-- **Operator precedence**: a sequence of atoms joined by binary operators, followed by a
semicolon, is parsed to the one tree with these atoms and operators in which every operator may
stand where it does. -/
theorem parse_precedence {tokens : List Token} (hb : b.tk = .fbeg) (hs : s.tk = .scol)
    (hf : f.tk = .fend) (hw : IsSequence a w)
    (htokens : (tokens.filter fun t => !skipToken t) = b :: a :: spread w ++ [s, f]) :
    ∃ e, inOrder e = a :: spread w ∧ levels.Ordered e ∧
      (∀ e', inOrder e' = a :: spread w → levels.Ordered e' → e' = e) ∧
      parse tokens = .ok (.node .unit [.leaf b, .node .stmt [exprNode e, .leaf s], .leaf f]) := by
  obtain ⟨hord, hfirst, hrest⟩ := build_ordered levels a w
  refine ⟨build levels w [] (.atom a), by rw [inOrder_eq, hfirst, hrest], hord,
    fun e' he' hord' => ?_, ?_⟩
  · rw [inOrder_eq] at he'
    obtain ⟨hfirst', hrest'⟩ := List.cons.inj he'
    exact ordered_unique hord' hord (hfirst'.trans hfirst.symm)
      ((spread_inj hrest').trans hrest.symm)
  · have hnil : firstMatch [.leaf b] = none := firstMatch_none (by simp [hb]) find_fbeg
    obtain ⟨rest0, hk0, run0⟩ := rounds_shift [] htokens
    obtain ⟨t, ts, hts⟩ : ∃ t ts, spread w ++ [s, f] = t :: ts := by
      cases w with
      | nil => exact ⟨s, [f], rfl⟩
      | cons p w => exact ⟨p.1, _, rfl⟩
    have hreach : Reaches [.leaf b] (a :: spread w ++ [s, f])
        [.leaf f, .node .stmt [exprNode (build levels w [] (.atom a)), .leaf s], .leaf b] [] := by
      have hempty : ∀ p ∈ ([] : Pending Token Token), isBinary p.2.tk = true := nofun
      have hbuild : Reaches (exprNode (.atom a) :: below b []) (spread w ++ [s, f])
          [.leaf f, .node .stmt [exprNode (build levels w [] (.atom a)), .leaf s], .leaf b] [] :=
        (reaches_build hb hs hempty hw.2).trans (reaches_unit hb hs hf)
      rw [List.cons_append]
      rw [hts] at hbuild ⊢
      exact (reaches_shift hnil).trans ((reaches_atom hw.1).trans hbuild)
    obtain ⟨rest1, hk1, run1⟩ := hreach rest0 hk0
    have run := run0.trans (run1.trans (rounds_unit hb hf rfl hk1))
    rw [parse, parseLoop_of_rounds run (parse_ends tokens)]
    rfl

/-- `a = b-c : d ;` -/
def castTokens : List Token :=
  [fbegToken, ⟨.name, 0, 1⟩, ⟨.wspc, 1, 2⟩, ⟨.assn, 2, 3⟩, ⟨.wspc, 3, 4⟩, ⟨.name, 4, 5⟩,
    ⟨.mins, 5, 6⟩, ⟨.name, 6, 7⟩, ⟨.coln, 7, 8⟩, ⟨.name, 8, 9⟩, ⟨.wspc, 9, 10⟩, ⟨.scol, 10, 11⟩, fendToken]

/-- The cast binds tighter than the difference, and that tighter than the assignment. -/
def castTree : OpTree Token Token :=
  .bin (.atom ⟨.name, 0, 1⟩) ⟨.assn, 2, 3⟩ (.bin (.atom ⟨.name, 4, 5⟩) ⟨.mins, 5, 6⟩
    (.bin (.atom ⟨.name, 6, 7⟩) ⟨.coln, 7, 8⟩ (.atom ⟨.name, 8, 9⟩)))

theorem parse_precedence_cast : parse castTokens =
    .ok (.node .unit [.leaf fbegToken, .node .stmt [exprNode castTree, .leaf ⟨.scol, 10, 11⟩],
      .leaf fendToken]) := by
  obtain ⟨e, -, -, hunique, hparse⟩ := parse_precedence (b := fbegToken) (s := ⟨.scol, 10, 11⟩)
    (f := fendToken) (a := ⟨.name, 0, 1⟩)
    (w := [(⟨.assn, 2, 3⟩, ⟨.name, 4, 5⟩), (⟨.mins, 5, 6⟩, ⟨.name, 6, 7⟩),
      (⟨.coln, 7, 8⟩, ⟨.name, 8, 9⟩)])
    rfl rfl rfl (by decide) (show castTokens.filter (fun t => !skipToken t) = _ by decide)
  rw [hparse, hunique castTree rfl (by decide)]

end Sequence

end Quaint.Precedence
