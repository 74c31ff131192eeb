import Quaint.Building

/-!
Units without a complaint.

What `ast_build` returns with `AST_OK` is the tree of an accepted program: nothing is missing, every type
in it is well-formed, and the names it declares stand in the source one after the other.
-/

namespace Quaint.Formed

open Types Ast TypeCheck TRes Lex Parse Derivation Validate Program Building

/-! ### Lexemes -/

section Lexemes

variable (src : List UInt8)

/-- The lexemes of a tree, from left to right. -/
def lexemes (n : PNode) : List Sym := n.leaves.map (symOf src)

def lexemesAll (ns : List PNode) : List Sym := ns.flatMap (lexemes src)

variable {src} {n : PNode} {ns ms : List PNode} {l l₁ l₂ : List Sym}

@[simp] lemma lexemes_leaf (t : Token) : lexemes src (.leaf t) = [symOf src t] := by simp [lexemes]

@[simp] lemma lexemes_node (nt : Nt) : lexemes src (.node nt ns) = lexemesAll src ns := by
  simp only [lexemes, lexemesAll, leaves_node, List.map_flatMap]
  rfl

@[simp] lemma lexemesAll_nil : lexemesAll src [] = [] := rfl

@[simp] lemma lexemesAll_cons : lexemesAll src (n :: ns) = lexemes src n ++ lexemesAll src ns := List.flatMap_cons

lemma lexemesAll_of_suffix (h : ns <:+ ms) : (lexemesAll src ns).Sublist (lexemesAll src ms) := by
  obtain ⟨ks, rfl⟩ := h
  rw [lexemesAll, lexemesAll, List.flatMap_append]
  exact List.sublist_append_right _ _

lemma behind {l₁ : List Sym} (h : l.Sublist l₂) : l.Sublist (l₁ ++ l₂) := List.sublist_append_of_sublist_right h

lemma before {l₂ : List Sym} (h : l.Sublist l₁) : l.Sublist (l₁ ++ l₂) := List.sublist_append_of_sublist_left h

lemma exprAtom_leaves {tk : Tk} {t : Token} (h : exprAtom tk n = some t) : n.leaves = [t] := by
  unfold exprAtom at h
  split at h
  · split at h
    · cases h
      simp
    · cases h
  · cases h

lemma exprName_lexemes {s : Sym} (h : exprName src n = some s) : lexemes src n = [s] := by
  rw [exprName, Option.map_eq_some_iff] at h
  obtain ⟨t, ht, rfl⟩ := h
  rw [lexemes, exprAtom_leaves ht]
  rfl

end Lexemes

/-- What is built without a complaint. -/
abbrev Builds {α : Type} (Q : α → Prop) (r : Built α) : Prop := Gives (fun _ => True) Q r

lemma yields_imp {α : Type} {P Q : α → Prop} {r : TRes α} (hr : Yields P r) (h : ∀ a, P a → Q a) :
    Yields Q r := by
  cases r with
  | ok a => exact h a hr
  | invalid ms => exact hr
  | crash => trivial

lemma yields_and {α : Type} {P Q : α → Prop} {r : TRes α} (hP : Yields P r) (hQ : Yields Q r) :
    Yields (fun a => P a ∧ Q a) r := by
  cases r with
  | ok a => exact ⟨hP, hQ⟩
  | invalid ms => exact hP
  | crash => trivial

/-! ### Types -/

section Types

variable {src : List UInt8} {symtab : List (Sym × Ty)}

lemma pairOf_name {left : PNode} {op : Token} {type : TRes Ty} (ht : Yields (fun _ => True) type) :
    Yields (fun p => lexemes src left = [p.1]) (pairOf src left op type) := by
  refine Yields.require fun _ => ?_
  split
  · exact yields_complaint
  · rename_i name hname
    exact ht.bind fun _ _ => exprName_lexemes hname

lemma pair_name {left right : PNode} {op : Token} :
    Yields (fun p => [p.1].Sublist (lexemes src (.node .expr [.node .bexp [left, .leaf op, right]])))
      (pairOf src left op (validateTypespec src symtab right)) := by
  refine yields_imp (pairOf_name (validateTypespec_valid right).complains) fun p hp => ?_
  simp [hp]

/-- The names of a list of pairs are lexemes of it. -/
lemma pairs_names : (∀ n : PNode, (fun _ => True) n) ∧
    (∀ n, Yields (fun ps => ps.names.Sublist (lexemes src n)) (pairsLoop src symtab n)) ∧
      ∀ n, Yields (fun p => [p.1].Sublist (lexemes src n)) (validatePair src symtab n) := by
  apply validateTypespec.mutual_induct
  case case10 =>
    intro left op right hop hl hr
    rw [pairsLoop, if_pos hop]
    refine hl.bind fun p hp => hr.bind fun ps hps => ?_
    simp only [lexemes_node, lexemesAll_cons, lexemesAll_nil, List.append_nil]
    exact hp.append (behind hps)
  case case11 =>
    intro left op right hop _
    rw [pairsLoop, if_neg hop]
    exact pair_name.bind fun p hp => hp
  case case12 =>
    intro n hn
    rw [pairsLoop]
    · exact yields_complaint
    · exact hn
  case case13 =>
    intro left op right _
    rw [validatePair]
    exact pair_name
  case case14 =>
    intro n hn
    rw [validatePair]
    · exact yields_complaint
    · exact hn
  all_goals intros; trivial

/-- What `validate_name_type_pairs` lists: distinct names of the source, with types that are valid. -/
lemma validateNameTypePairs_names (n : PNode) : Yields (fun ps => DistinctPairs (SymtabValid symtab) ps ∧
    ps.names.Sublist (lexemes src n)) (validateNameTypePairs src symtab n) :=
  yields_and (validateNameTypePairs_valid n) ((pairs_names.2.1 n).bind fun _ hps => Yields.require fun _ => hps)

lemma enumNames_length (n : PNode) :
    Yields (fun names => names.length ≤ (lexemes src n).length) (enumNames src n) := by
  induction n using enumNames.induct src with
  | case1 left op right hop name hname ih =>
    rw [enumNames, if_pos hop, hname]
    refine ih.bind fun names h => ?_
    simp only [lexemes_node, lexemesAll_cons, lexemesAll_nil, lexemes_leaf, List.append_nil, List.length_append,
      List.length_cons, exprName_lexemes hname]
    simp only [Yields, List.length_cons, List.length_nil]
    omega
  | case2 left op right hop hname =>
    rw [enumNames, if_pos hop, hname]
    exact yields_complaint
  | case3 left op right hop =>
    rw [enumNames, if_neg hop]
    exact yields_complaint
  | case4 n name hn hname =>
    rw [enumNames]
    · rw [hname, exprName_lexemes hname]
      exact Nat.le_refl _
    · exact hn
  | case5 n hn hname =>
    rw [enumNames]
    · rw [hname]
      exact yields_complaint
    · exact hn

/-- An enumeration has no more values than there are lexemes. -/
lemma enumFromFexp_length {tEnum : Option TypeT} {n : PNode} :
    Yields (fun t => ∀ c vs k, t = .enum c vs k → vs.length ≤ (lexemes src n).length)
      (enumFromFexp src tEnum n) := by
  unfold enumFromFexp
  split
  · refine (enumNames_length _).bind fun names hlen => Yields.require fun _ => ?_
    refine Yields.bind (P := fun _ => True) ?_ fun k _ => ?_
    · unfold enumType
      split
      · trivial
      · split
        · trivial
        · exact Yields.require fun _ => trivial
    · rintro c vs k ⟨⟩
      simp only [lexemes_node, lexemesAll_cons, lexemesAll_nil, List.append_nil, List.length_append,
        List.length_zip, List.length_range, Nat.min_self]
      omega
  · exact yields_complaint

lemma validateTypespecEnum_length (n : PNode) :
    Yields (fun t => ∀ c vs k, t = .enum c vs k → vs.length ≤ (lexemes src n).length)
      (validateTypespecEnum src symtab n) := by
  unfold validateTypespecEnum
  split
  · rename_i fexp _ typespec
    refine (validateTypespec_valid _).bind fun explicit _ => Yields.require fun _ => ?_
    refine yields_imp enumFromFexp_length fun t ht c vs k h => (ht c vs k h).trans ?_
    simp only [lexemes_node, lexemesAll_cons, lexemesAll_nil, List.append_nil, List.length_append]
    omega
  · refine yields_imp enumFromFexp_length fun t ht c vs k h => (ht c vs k h).trans ?_
    simp
  · trivial

/-- What `validate_typespec_enum` accepts is valid, in a source that is not too long. -/
lemma enum_valid {n : PNode} (hlen : (lexemes src n).length ≤ 2 ^ 64) :
    Yields (fun t => t.valid = true) (validateTypespecEnum src symtab n) := by
  refine yields_imp (yields_and (validateTypespecEnum_valid n) (validateTypespecEnum_length n)) ?_
  rintro t ⟨⟨vs, k, rfl, hv⟩, h⟩
  exact hv ((h 1 vs k rfl).trans hlen)

end Types

/-! ### Expressions -/

section Exprs

variable {src : List UInt8} {symtab : List (Sym × Ty)}

lemma argsOf_built (e : Expr) (h : exprBuilt e = true) : argsBuilt (argsOf e) = true := by
  induction e using argsOf.induct with
  | case1 => cases h
  | case2 ltok l r ih =>
    simp only [exprBuilt, Bool.and_eq_true] at h
    simp [argsOf, argsBuilt, h.1.2, ih h.2]
  | case3 e h1 h2 =>
    rw [argsOf]
    · simp [argsBuilt, h]
    · exact h1
    · exact h2

lemma atomExpr_built {t : Token} {e : Expr} (h : atomExpr src t = some e) : exprBuilt e = true := by
  unfold atomExpr at h
  split at h <;> cases h
  · rfl
  · exact decide_eq_true (nmbrToUint_lt _)
  · rfl

/-- **What `validate_expr` returns without a complaint** is complete, and its types are valid. -/
theorem validateExpr_built (hs : SymtabValid symtab) (n : PNode) :
    Builds (exprBuilt · = true) (validateExpr src symtab n) := by
  have spec (r : PNode) : Yields (fun t => t.valid = true) (validateTypespec src symtab r) :=
    yields_imp (validateTypespec_valid r) fun _ ht => ht hs
  induction n using validateExpr.induct with
  | case1 c ih =>
    rw [validateExpr]
    exact ih
  | case2 _ c _ ih =>
    rw [validateExpr]
    exact ih
  | case3 cs =>
    rw [validateExpr]
    exact gives_complaint trivial
  | case4 l op r ihl ihr =>
    rw [validateExpr]
    refine gives_bind fun bop _ => ?_
    split
    · refine ihl.step (fun _ _ => trivial) fun l' _ hl => ?_
      exact gives_typed (spec r) (fun _ => trivial) fun t ht => by simp [exprBuilt, hl, ht]
    · rename_i hop
      have hop' : bop ≠ .cast ∧ bop ≠ .coln := not_or.mp hop
      refine ihl.step (fun _ _ => trivial) fun l' _ hl => ?_
      exact ihr.last (fun _ _ => trivial) fun r' _ hr => by simp [exprBuilt, hop', hl, hr]
  | case5 op r hop =>
    rw [validateExpr, if_pos hop]
    exact gives_typed (spec r) (fun _ => trivial) fun t ht => ht
  | case6 op r hop ih =>
    rw [validateExpr, if_neg hop]
    exact gives_bind fun uop _ => ih.last (fun _ _ => trivial) fun _ _ h => h
  | case7 l _ r _ ihl ihr =>
    rw [validateExpr]
    refine ihl.step (fun _ _ => trivial) fun l' _ hl => ihr.last (fun _ _ => trivial) fun r' _ hr => ?_
    simp [exprBuilt, hl, argsOf_built r' hr]
  | case8 l _ _ ih =>
    rw [validateExpr]
    exact ih.last (fun _ _ => trivial) fun l' _ hl => by simp [exprBuilt, argsBuilt, hl]
  | case9 l op ih =>
    rw [validateExpr]
    exact gives_bind fun xop _ => ih.last (fun _ _ => trivial) fun _ _ h => h
  | case10 b _ o _ ihb iho =>
    rw [validateExpr]
    refine ihb.step (fun _ _ => trivial) fun b' _ hb => iho.last (fun _ _ => trivial) fun o' _ ho => ?_
    simp [exprBuilt, hb, ho]
  | case11 c _ t _ f ihc iht ihf =>
    rw [validateExpr]
    refine ihc.step (fun _ _ => trivial) fun c' _ hc => iht.step (fun _ _ => trivial) fun t' _ ht =>
      ihf.last (fun _ _ => trivial) fun f' _ hf => ?_
    simp [exprBuilt, hc, ht, hf]
  | case12 t =>
    rw [validateExpr]
    intro e ms h
    simp only [Option.map_eq_some_iff, Prod.mk.injEq] at h
    obtain ⟨e', he, rfl, rfl⟩ := h
    exact ⟨trivial, fun _ => atomExpr_built he⟩
  | case13 n h1 h2 h3 h4 h5 h6 h7 h8 h9 h10 h11 =>
    rw [validateExpr] <;> first | assumption | exact gives_none

end Exprs

/-! ### Statements -/

/-- It is complete, and declares names among the lexemes, in their order. -/
def Complete (l : List Sym) (built : Bool) (declared : List Sym) : Prop := built = true ∧ declared.Sublist l

section Stmts

variable {src : List UInt8} {symtab : List (Sym × Ty)} {l : List Sym}

@[simp] lemma optBuilt_absent : optBuilt .absent = true := rfl

lemma complete_nil {built : Bool} (h : built = true) : Complete l built [] := ⟨h, List.nil_sublist _⟩

/-- A statement that may stand in the unit too. -/
structure DeclOrExprFormed (l : List Sym) (s : Stmt) : Prop where
  stmt : Complete l (stmtBuilt s) (stmtDeclared s)
  top : Complete l (topBuilt (topOf s)) (topsDeclared [topOf s])

lemma exprStmt_formed {e : Expr} (h : exprBuilt e = true) : DeclOrExprFormed l (exprStmt e) := by
  cases e <;> first | exact absurd h Bool.false_ne_true | exact ⟨complete_nil h, complete_nil h⟩

/-- The expression or the declaration after the qualifiers is one of the nodes. -/
lemma countDeclQualifiers_lexemes (unit : Bool) (q : Quals) (cs : List PNode) :
    Yields (fun p => (lexemes src p.2).Sublist (lexemesAll src cs)) (countDeclQualifiers unit q cs) := by
  fun_induction countDeclQualifiers unit q cs with
  | case1 q t rest _ ih =>
    exact Yields.require fun _ => yields_imp ih fun p hp => lexemesAll_cons.symm ▸ behind hp
  | case2 q t rest _ ih =>
    exact Yields.require fun _ => Yields.require fun _ => yields_imp ih fun p hp =>
      lexemesAll_cons.symm ▸ behind hp
  | case3 q t rest _ ih =>
    exact Yields.require fun _ => Yields.require fun _ => yields_imp ih fun p hp =>
      lexemesAll_cons.symm ▸ behind hp
  | case4 | case6 => trivial
  | case5 q child rest => exact lexemesAll_cons.symm ▸ before (List.Sublist.refl _)

/-- What the loop along the names comes to. -/
def DeclFormed (l : List Sym) : DeclOrExpr → Prop
  | .expr _ => True
  | .decl names type _ => names ≠ [] ∧ names.Sublist l ∧ Yields (fun t => t.valid = true) type

lemma declEnd_formed (hs : SymtabValid symtab) {left right : PNode} {op : Token} {initExpr : Option PNode}
    (hl : (lexemes src left).Sublist l) : DeclFormed l (declEnd src symtab left op right initExpr) := by
  unfold declEnd
  split
  · trivial
  · rename_i name hname
    split
    · exact ⟨List.cons_ne_nil _ _, exprName_lexemes hname ▸ hl,
        yields_imp (validateTypespec_valid right) fun _ ht => ht hs⟩
    · trivial

lemma declLoop_formed (hs : SymtabValid symtab) (n : PNode) :
    DeclFormed (lexemes src n) (declLoop src symtab n) := by
  fun_induction declLoop src symtab n with
  | case1 =>
    refine declEnd_formed hs ?_
    simp only [lexemes_node, lexemesAll_cons, lexemesAll_nil, List.append_nil]
    exact before (before (List.Sublist.refl _))
  | case2 | case3 | case4 | case6 | case8 => trivial
  | case5 left op right _ _ name hname names type initExpr heq ih =>
    rw [heq] at ih
    obtain ⟨-, hnames, htype⟩ := ih
    refine ⟨List.cons_ne_nil _ _, ?_, htype⟩
    simp only [lexemes_node, lexemesAll_cons, lexemesAll_nil, List.append_nil, exprName_lexemes hname]
    exact (List.Sublist.refl [name]).append (behind hnames)
  | case7 =>
    refine declEnd_formed hs ?_
    simp only [lexemes_node, lexemesAll_cons, lexemesAll_nil, List.append_nil]
    exact before (List.Sublist.refl _)

lemma validateDecl_formed (hs : SymtabValid symtab) {q : Quals} {names : List Sym} {type : TRes Ty}
    {initExpr : Option PNode} (h : DeclFormed l (.decl names type initExpr)) :
    Builds (DeclOrExprFormed l) (validateDecl src symtab q names type initExpr) := by
  obtain ⟨hne, hnames, ht⟩ := h
  have decl {t : Ty} {e : Expr} (ht : t.valid = true) (hd : namesDistinct names = true) (he : optBuilt e = true) :
      DeclOrExprFormed l (.decl ⟨q.cons, q.expo, q.stat, names, t, e⟩) := by
    have hb : declBuilt ⟨q.cons, q.expo, q.stat, names, t, e⟩ = true := by simp [declBuilt, hne, hd, ht, he]
    exact ⟨⟨hb, hnames⟩, hb, by simpa [topOf, topsDeclared] using hnames⟩
  unfold validateDecl
  split
  · exact gives_none
  · exact Gives.complaints ht rfl trivial
  · split
    · rename_i hd
      split
      · exact gives_pure trivial (decl ht hd rfl)
      · refine (validateExpr_built hs _).step (fun _ _ => trivial) fun e' _ he => ?_
        refine gives_pure trivial (decl ht hd ?_)
        cases e' <;> first | rfl | exact he
    · exact gives_complaint trivial

lemma validateDeclOrExpr_formed (hs : SymtabValid symtab) {unit : Bool} {cs : List PNode} :
    Builds (DeclOrExprFormed (lexemesAll src cs)) (validateDeclOrExpr src symtab unit cs) := by
  unfold validateDeclOrExpr
  have hq : Yields (fun p : Quals × PNode => (lexemes src p.2).Sublist (lexemesAll src cs)) _ :=
    countDeclQualifiers_lexemes unit ⟨false, false, false, false⟩ cs
  split
  · exact gives_none
  · rename_i ms heq
    exact Gives.complaints hq heq trivial
  · rename_i q child heq
    rw [heq] at hq
    have hd : DeclFormed (lexemes src child) _ := declLoop_formed hs child
    split
    · rename_i names type initExpr hloop
      rw [hloop] at hd
      exact validateDecl_formed hs ⟨hd.1, hd.2.1.trans hq, hd.2.2⟩
    · split
      · exact gives_complaint trivial
      · exact (validateExpr_built hs _).last (fun _ _ => trivial) fun _ _ => exprStmt_formed

/-- A statement that declares nothing. -/
abbrev BuildsPlain (l : List Sym) (r : Built Stmt) : Prop :=
  Builds (fun s => Complete l (stmtBuilt s) (stmtDeclared s)) r

lemma validateRetn_formed (hs : SymtabValid symtab) {cs : List PNode} :
    BuildsPlain l (validateRetn src symtab cs) := by
  unfold validateRetn
  split
  · exact (validateExpr_built hs _).step (fun _ _ => trivial) fun e' _ he => gives_pure trivial (complete_nil he)
  · exact gives_pure trivial (complete_nil rfl)

lemma validateWait_formed (hs : SymtabValid symtab) {cs : List PNode} :
    BuildsPlain l (validateWait src symtab cs) := by
  have opt {e : Expr} (he : exprBuilt e = true) : optBuilt e = true := by cases e <;> first | rfl | exact he
  unfold validateWait
  split
  · refine (validateExpr_built hs _).step (fun _ _ => trivial) fun q' _ hq => ?_
    split
    · exact gives_pure trivial (complete_nil (by simp [stmtBuilt, hq]))
    · exact gives_pure trivial (complete_nil (by simp [stmtBuilt, hq]))
    · split
      · refine (validateExpr_built hs _).step (fun _ _ => trivial) fun e' _ he => ?_
        exact gives_pure trivial (complete_nil (by simp [stmtBuilt, hq, opt he]))
      · refine (validateExpr_built hs _).step (fun _ _ => trivial) fun e' _ he => ?_
        exact gives_pure trivial (complete_nil (by simp [stmtBuilt, hq, opt he]))
    · exact gives_none
  · exact gives_none

lemma validateWlab_formed {cs : List PNode} : BuildsPlain l (validateWlab src cs) := by
  unfold validateWlab
  split
  · split
    · exact gives_complaint trivial
    · exact gives_pure trivial (complete_nil rfl)
  · exact gives_none

/-- The statements of a block. -/
abbrev BuildsStmts (l : List Sym) (r : Built Stmts) : Prop :=
  Builds (fun b => Complete l (stmtsBuilt b) (stmtsDeclared b)) r

lemma tokenStmt_formed (hs : SymtabValid symtab) {t : Token} {rest : List PNode} {block noint : Built Stmts}
    (hb : BuildsStmts l block) (hn : BuildsStmts l noint) :
    BuildsPlain l (tokenStmt src symtab t rest block noint) := by
  unfold tokenStmt
  split
  · exact gives_complaint trivial
  · exact gives_complaint trivial
  · exact gives_complaint trivial
  · exact validateWait_formed hs
  · exact validateRetn_formed hs
  · exact validateWlab_formed
  · exact hb.last (fun _ _ => trivial) fun _ _ h => h
  · exact hn.last (fun _ _ => trivial) fun _ _ h => h
  · exact gives_none

/-- An expression and the block it is about. -/
lemma guarded_formed (hs : SymtabValid symtab) {e : PNode} {block : Built Stmts} (hb : BuildsStmts l block) :
    Builds (fun p : Expr × Stmts => exprBuilt p.1 = true ∧ Complete l (stmtsBuilt p.2) (stmtsDeclared p.2))
      ((validateExpr src symtab e).both block Prod.mk) :=
  (validateExpr_built hs e).both hb (fun _ _ _ _ => trivial) fun _ _ he hb => ⟨he, hb⟩

lemma stmts_formed (hs : SymtabValid symtab) :
    (∀ n, BuildsPlain (lexemes src n) (validateStmt src symtab n)) ∧
      (∀ ns, Builds (fun b => Complete (lexemesAll src ns) (elifsBuilt b) (elifsDeclared b))
        (validateElifs src symtab ns)) ∧
      ∀ ns, BuildsStmts (lexemesAll src ns) (validateStmts src symtab ns) := by
  apply validateStmt.mutual_induct
  case case1 =>
    intro t n rest ihb ihn
    rw [validateStmt]
    refine tokenStmt_formed hs (ihb.imp fun b hb => ⟨hb.1, ?_⟩) (ihn.imp fun b hb => ⟨hb.1, ?_⟩)
    · rw [lexemes_node, lexemesAll_cons]
      exact behind hb.2
    · rw [lexemes_node, lexemesAll_cons, lexemesAll_cons]
      exact behind (behind hb.2)
  case case2 =>
    intro _ e _ block rest ihb ihr
    rw [validateStmt]
    refine (guarded_formed hs ihb).both ihr (fun _ _ _ _ => trivial) fun p rest' hp hr => ⟨?_, ?_⟩
    · simp [stmtBuilt, hp.1, hp.2.1, hr.1]
    · simp only [lexemes_node, lexemesAll_cons, lexemesAll_nil, List.append_nil, stmtDeclared]
      exact (behind (behind (behind hp.2.2))).append hr.2
  case case3 =>
    intro _ e _ block ih
    rw [validateStmt]
    refine (validateExpr_built hs e).both ih (fun _ _ _ _ => trivial) fun e' b' he hb => ⟨?_, ?_⟩
    · simp [stmtBuilt, he, hb.1]
    · simp only [lexemes_node, lexemesAll_cons, lexemesAll_nil, List.append_nil, stmtDeclared]
      exact behind (behind (behind hb.2))
  case case4 =>
    intro _ _ block _ e _ hrev ih
    rw [validateStmt, hrev]
    refine ih.both (validateExpr_built hs e) (fun _ _ _ _ => trivial) fun b' e' hb he => ⟨?_, ?_⟩
    · simp [stmtBuilt, he, hb.1]
    · simp only [lexemes_node, lexemesAll_cons, lexemesAll_nil, List.append_nil, stmtDeclared]
      exact behind (behind hb.2)
  case case5 =>
    intro _ _ block hrev
    rw [validateStmt]
    split
    · rename_i heq
      exact absurd heq (hrev _ _ _)
    · exact gives_none
  case case6 =>
    intro cs
    rw [validateStmt]
    exact gives_complaint trivial
  case case7 =>
    intro cs h1 h2 h3 h4 h5
    rw [lexemes_node, validateStmt]
    · exact (validateDeclOrExpr_formed hs).imp fun _ h => h.stmt
    all_goals assumption
  case case8 =>
    intro n h1 h2 h3 h4 h5 h6
    rw [validateStmt] <;> first | assumption | exact gives_none
  case case9 =>
    rw [validateElifs]
    exact gives_pure trivial (complete_nil rfl)
  case case10 =>
    intro _ _ block ih
    rw [validateElifs]
    refine ih.last (fun _ _ => trivial) fun b _ hb => ⟨hb.1, ?_⟩
    simp only [lexemes_node, lexemesAll_cons, lexemesAll_nil, List.append_nil, elifsDeclared]
    exact behind (behind hb.2)
  case case11 =>
    intro _ e _ block rest ihb ihr
    rw [validateElifs]
    refine (guarded_formed hs ihb).both ihr (fun _ _ _ _ => trivial) fun p rest' hp hr => ⟨?_, ?_⟩
    · simp [elifsBuilt, hp.1, hp.2.1, hr.1]
    · simp only [lexemes_node, lexemesAll_cons, elifsDeclared]
      exact (behind (behind (behind hp.2.2))).append hr.2
  case case12 =>
    intro ns h1 h2 h3
    rw [validateElifs] <;> first | assumption | exact gives_none
  case case13 =>
    intro t rest
    rw [validateStmts]
    exact gives_pure trivial (complete_nil rfl)
  case case14 =>
    intro s rest hleaf ih ihr
    rw [validateStmts]
    · refine ih.both ihr (fun _ _ _ _ => trivial) fun s' rest' h hr => ⟨?_, ?_⟩
      · simp [stmtsBuilt, h.1, hr.1]
      · rw [lexemesAll_cons, stmtsDeclared]
        exact h.2.append hr.2
    · exact hleaf
  case case15 =>
    rw [validateStmts]
    exact gives_none

end Stmts

/-! ### The unit -/

section Unit

variable {src : List UInt8} {symtab : List (Sym × Ty)} {l : List Sym}

/-- The name and the parameters of a function. -/
structure HeadFormed (l : List Sym) (h : Sym × Fields) : Prop where
  valid : h.2.valid = true
  distinct : namesDistinct h.2.names = true
  names : (h.1 :: h.2.names).Sublist l

lemma funcHead_formed (hs : SymtabValid symtab) {left : PNode} {params : Option PNode} :
    Yields (HeadFormed (lexemes src left ++ params.elim [] (lexemes src))) (funcHead src symtab left params) := by
  unfold funcHead
  split
  · exact yields_complaint
  · rename_i name hname
    rw [exprName_lexemes hname]
    split
    · exact ⟨rfl, rfl, List.Sublist.refl _⟩
    · exact (validateNameTypePairs_names _).bind fun ps hps =>
        ⟨hps.1.valid hs, hps.1.distinct, List.Sublist.cons_cons _ hps.2⟩

lemma funcLeft_formed (hs : SymtabValid symtab) {left : PNode} :
    Yields (HeadFormed (lexemes src left)) (funcLeft src symtab left) := by
  unfold funcLeft
  split
  · rename_i name hname
    rw [exprName_lexemes hname]
    exact ⟨rfl, rfl, List.Sublist.refl _⟩
  · split
    · refine yields_imp (funcHead_formed hs) fun h hh => ⟨hh.valid, hh.distinct, hh.names.trans ?_⟩
      simp only [lexemes_node, lexemesAll_cons, lexemesAll_nil, List.append_nil, Option.elim]
      exact (List.Sublist.refl _).append (behind (before (List.Sublist.refl _)))
    · refine yields_imp (funcHead_formed hs) fun h hh => ⟨hh.valid, hh.distinct, hh.names.trans ?_⟩
      simp only [lexemes_node, lexemesAll_cons, lexemesAll_nil, List.append_nil, Option.elim]
      exact before (List.Sublist.refl _)
    · exact yields_complaint

lemma funcSignature_formed (hs : SymtabValid symtab) {child : PNode} :
    Yields (fun h => HeadFormed (lexemes src child) (h.1, h.2.1) ∧ h.2.2.valid = true)
      (funcSignature src symtab child) := by
  unfold funcSignature
  split
  · refine Yields.require fun _ => (funcLeft_formed hs).bind fun head hh => ?_
    refine (validateTypespec_valid _).bind fun rt hrt => ⟨⟨hh.valid, hh.distinct, ?_⟩, hrt hs⟩
    simp only [lexemes_node, lexemesAll_cons, lexemesAll_nil, List.append_nil]
    exact before hh.names
  · exact (funcLeft_formed hs).bind fun head hh => ⟨hh, rfl⟩

lemma funcQualifiers_suffix (exposed : Bool) (cs : List PNode) :
    Yields (fun p => p.2 <:+ cs) (funcQualifiers exposed cs) := by
  fun_induction funcQualifiers exposed cs with
  | case1 | case2 => exact yields_complaint
  | case3 exposed t rest _ ih =>
    exact Yields.require fun _ => yields_imp ih fun p hp => hp.trans (List.suffix_cons _ _)
  | case4 => trivial
  | case5 => exact List.suffix_refl _

/-- A statement of the unit. -/
abbrev TopFormed (l : List Sym) (t : Top) : Prop := Complete l (topBuilt t) (topsDeclared [t])

lemma validateFunc_formed (hs : SymtabValid symtab) {cs : List PNode} :
    Builds (TopFormed (lexemesAll src cs)) (validateFunc src symtab cs) := by
  unfold validateFunc
  have hq := funcQualifiers_suffix false cs
  split
  · exact gives_none
  · rename_i ms heq
    exact Gives.complaints hq heq trivial
  · rename_i exposed child lbrc block heq
    rw [heq] at hq
    have hsig : Yields (fun h => HeadFormed (lexemes src child) (h.1, h.2.1) ∧ h.2.2.valid = true)
        (funcSignature src symtab child) := funcSignature_formed hs
    split
    · exact gives_none
    · rename_i ms heq
      exact Gives.complaints hsig heq trivial
    · rename_i name params rettype heq
      rw [heq] at hsig
      obtain ⟨hhead, hret⟩ := hsig
      refine ((stmts_formed hs).2.2 block).last (fun _ _ => trivial) fun b _ hb => ⟨?_, ?_⟩
      · simp [topBuilt, funcBuilt, hhead.valid, hhead.distinct, hret, hb.1]
      · refine List.Sublist.trans ?_ (lexemesAll_of_suffix hq)
        simp only [topsDeclared, List.append_nil, lexemesAll_cons]
        exact hhead.names.append (behind hb.2)
  · exact gives_none

lemma validateUseu_formed {cs : List PNode} : Builds (TopFormed l) (validateUseu cs) := by
  unfold validateUseu
  split
  · split
    · exact gives_complaint trivial
    · split
      · exact gives_complaint trivial
      · split
        · exact gives_complaint trivial
        · exact gives_pure trivial (complete_nil rfl)
  · split
    · exact gives_pure trivial (complete_nil rfl)
    · exact gives_complaint trivial
  · exact gives_none

/-- A statement of the unit, with the symbol table it leaves. -/
abbrev BuildsTop (l : List Sym) (r : Built (Top × List (Sym × Ty))) : Prop :=
  Builds (fun p => TopFormed l p.1 ∧ SymtabValid p.2) r

lemma validateType_formed (hs : SymtabValid symtab) {bexp : PNode} (hlen : (lexemes src bexp).length ≤ 2 ^ 64) :
    BuildsTop l (validateType src symtab bexp) := by
  unfold validateType
  split
  · rename_i typename colon typespec
    split
    · exact gives_complaint trivial
    · split
      · exact gives_complaint trivial
      · refine gives_typed (P := SymtabValid) ?_ (fun _ => trivial) fun s' hs' => ⟨complete_nil rfl, hs'⟩
        refine Yields.bind (P := fun t => t.valid = true) ?_ fun t ht => Yields.require fun _ => ?_
        · simp only [lexemes_node, lexemesAll_cons, lexemesAll_nil, List.append_nil, List.length_append] at hlen
          split
          · exact enum_valid (by omega)
          · exact yields_imp (validateTypespec_valid _) fun _ ht => ht hs
        · intro e he
          rcases List.mem_append.mp he with he | he
          · exact hs e he
          · obtain rfl := List.mem_singleton.mp he
            exact ht
  · exact gives_complaint trivial

lemma validateTop_formed (hs : SymtabValid symtab) (n : PNode) (hlen : (lexemes src n).length ≤ 2 ^ 64) :
    BuildsTop (lexemes src n) (validateTop src symtab n) := by
  have type {e : PNode} {cs : List PNode} (hn : lexemes src n = lexemesAll src cs) (he : e ∈ cs) :
      BuildsTop (lexemes src n) (validateType src symtab e) := by
    refine validateType_formed hs (le_trans ?_ hlen)
    obtain ⟨as, bs, rfl⟩ := List.append_of_mem he
    simp only [hn, lexemesAll, List.flatMap_append, List.flatMap_cons, List.length_append]
    omega
  unfold validateTop
  split
  · split
    · exact validateUseu_formed.last (fun _ _ => trivial) fun _ _ h => ⟨h, hs⟩
    · split
      · exact type (lexemes_node _) (by simp)
      · exact gives_none
    · split
      · exact type (lexemes_node _) (by simp)
      · exact gives_none
    · exact gives_complaint trivial
    · exact gives_complaint trivial
    · exact gives_complaint trivial
    · exact gives_complaint trivial
    · exact gives_complaint trivial
    · exact gives_none
  · exact gives_complaint trivial
  · refine (validateFunc_formed hs).last (fun _ _ => trivial) fun _ _ h => ⟨?_, hs⟩
    simpa using h
  · refine (validateDeclOrExpr_formed hs).last (fun _ _ => trivial) fun _ _ h => ⟨?_, hs⟩
    rw [lexemes_node]
    exact h.top
  · exact gives_none

lemma topsDeclared_cons (t : Top) (ts : List Top) :
    topsDeclared (t :: ts) = topsDeclared [t] ++ topsDeclared ts := by
  cases t <;> simp [topsDeclared]

lemma validateTops_formed (ns : List PNode) (t : Token) (hs : SymtabValid symtab)
    (hlen : (lexemesAll src ns).length ≤ 2 ^ 64) :
    Builds (fun p => (∀ s ∈ p.1, topBuilt s = true) ∧ SymtabValid p.2 ∧
      (topsDeclared p.1).Sublist (lexemesAll src ns)) (validateTops src symtab (ns ++ [.leaf t])) := by
  induction ns generalizing symtab with
  | nil => exact gives_pure trivial ⟨List.forall_mem_nil _, hs, List.nil_sublist _⟩
  | cons n rest ih =>
    cases n with
    | leaf t' => exact gives_pure trivial ⟨List.forall_mem_nil _, hs, List.nil_sublist _⟩
    | node nt cs =>
      intro p ms h
      refine ⟨trivial, ?_⟩
      rintro rfl
      simp only [List.cons_append, validateTops, Option.bind_eq_some_iff, Option.map_eq_some_iff,
        Prod.mk.injEq, List.append_eq_nil_iff] at h
      obtain ⟨⟨s, ks⟩, hs1, ⟨q, ks'⟩, hq, rfl, rfl, rfl⟩ := h
      rw [lexemesAll_cons, List.length_append] at hlen
      obtain ⟨htop, hs'⟩ := (validateTop_formed hs _ (by omega) s [] hs1).2 rfl
      obtain ⟨hall, hs'', hdecl⟩ := (ih hs' (by omega) q [] hq).2 rfl
      refine ⟨List.forall_mem_cons.mpr ⟨htop.1, hall⟩, hs'', ?_⟩
      rw [topsDeclared_cons, lexemesAll_cons]
      exact htop.2.append hdecl

/-- **What `ast_build` returns with `AST_OK`** is a built unit, if the statements between the two markers are
written in distinct tokens; and the names it declares are lexemes of them. -/
theorem astBuild_formed {t t' : Token} {stmts : List PNode} {u : Ast.Unit}
    (hnodup : ((stmts.flatMap Node.leaves).map Token.beg).Nodup)
    (hlen : (stmts.flatMap Node.leaves).length ≤ 2 ^ 64)
    (h : astBuild src (.node .unit (.leaf t :: stmts ++ [.leaf t'])) = some (u, [])) :
    unitBuilt u = true ∧ (topsDeclared u.stmts).Sublist (lexemesAll src stmts) := by
  have hlex : lexemesAll src stmts = (stmts.flatMap Node.leaves).map (symOf src) := List.map_flatMap.symm
  rw [List.cons_append, astBuild] at h
  simp only [Built.last, Option.map_eq_some_iff, Prod.mk.injEq] at h
  obtain ⟨⟨p, ms⟩, hp, rfl, rfl⟩ := h
  obtain ⟨hall, hs, hdecl⟩ :=
    (validateTops_formed stmts t' (List.forall_mem_nil _) (by rwa [hlex, List.length_map]) p [] hp).2 rfl
  refine ⟨?_, hdecl⟩
  simp only [unitBuilt, Bool.and_eq_true, List.all_eq_true, decide_eq_true_eq]
  refine ⟨⟨hs, hall⟩, (hdecl.map Sym.beg).nodup ?_⟩
  rw [hlex, List.map_map]
  exact hnodup

end Unit

end Quaint.Formed
