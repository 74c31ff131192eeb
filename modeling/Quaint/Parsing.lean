import Quaint.Parse

/-!
What the parser accepts is derived.

A reduction takes nodes that spell the right-hand side of its rule, and the leaves of the stack
are the tokens read so far. A weight of the stack and the tokens left goes down in every round.
-/

namespace Quaint.Parsing

open Lex Derivation Parse

/-! ### Matching -/

/-- The terms and nodes that `match_rule` has taken. -/
structure Taken (prev : Option PTerm) (done : List PTerm) (ns : List PNode) : Prop where
  spells : Spells Token.tk done ns
  used : no ∉ done
  prev : ∀ t, prev = some t → t.isMt = true ∧ ∃ ts, done = t :: ts

section Match

variable {prev prev' : Option PTerm} {terms terms' done : List PTerm} {nodes nodes' ns stack : List PNode}
  {fuel : Nat} {r : PRule}

lemma termEqNode_iff {t : PTerm} {n : PNode} : termEqNode t n = true ↔ t.symbol = n.symbol Token.tk := by
  rw [termEqNode, decide_eq_true_eq]

lemma taken_nil : Taken none [] [] := ⟨.nil, List.not_mem_nil, nofun⟩

lemma matchStep_taken (h : Taken prev done ns) (hno : terms.head? ≠ some no)
    (hs : matchStep prev terms nodes = some (prev', terms', nodes')) :
    ∃ done' ns', Taken prev' done' ns' ∧ terms.reverse ++ done = terms'.reverse ++ done' ∧
      nodes.reverse ++ ns = nodes'.reverse ++ ns' := by
  match terms, nodes with
  | [], _ => cases hs
  | _ :: _, [] => cases hs
  | t :: ts, n :: nodes =>
    have htno : no ∉ t :: done := by
      rw [List.mem_cons, not_or]
      exact ⟨fun heq => hno (by rw [heq]; rfl), h.used⟩
    rw [matchStep] at hs
    split at hs
    · rename_i heq
      rw [termEqNode_iff] at heq
      obtain ⟨rfl, rfl, rfl⟩ : _ = prev' ∧ ts = terms' ∧ nodes = nodes' := by simpa using hs
      refine ⟨t :: done, n :: ns, ⟨?_, htno, ?_⟩, by simp, by simp⟩
      · cases hmt : t.isMt with
        | true => exact .more hmt heq (.skip hmt h.spells)
        | false => exact .one hmt heq h.spells
      · intro u hu
        split at hu
        · rename_i hmt
          obtain rfl := Option.some.inj hu
          exact ⟨hmt, done, rfl⟩
        · cases hu
    · split at hs
      · -- the term repeated last takes one node more
        rename_i hany
        obtain ⟨rfl, rfl, rfl⟩ : prev = prev' ∧ t :: ts = terms' ∧ nodes = nodes' := by simpa using hs
        obtain ⟨u, hu, heq⟩ : ∃ u, prev = some u ∧ u.symbol = n.symbol Token.tk := by
          cases prev with
          | none => cases hany
          | some u => exact ⟨u, rfl, termEqNode_iff.mp hany⟩
        obtain ⟨hmt, rest, hdone⟩ := h.prev u hu
        refine ⟨done, n :: ns, ⟨?_, h.used, h.prev⟩, rfl, by simp⟩
        have hspells := h.spells
        rw [hdone] at hspells ⊢
        exact .more hmt heq hspells
      · split at hs
        · rename_i hmt
          obtain ⟨rfl, rfl, rfl⟩ : none = prev' ∧ ts = terms' ∧ n :: nodes = nodes' := by simpa using hs
          exact ⟨t :: done, ns, ⟨.skip hmt h.spells, htno, nofun⟩, by simp, rfl⟩
        · cases hs

lemma matchLoop_taken (h : Taken prev done ns) (hno : terms.head? ≠ some no)
    (hs : matchLoop fuel prev terms nodes = some (prev', nodes')) :
    ∃ (done' : List PTerm) (ns' : List PNode) (terms' : List PTerm), Taken prev' done' ns' ∧
      terms'.head? = some no ∧
      terms.reverse ++ done = terms'.reverse ++ done' ∧ nodes.reverse ++ ns = nodes'.reverse ++ ns' := by
  induction fuel generalizing prev terms nodes done ns with
  | zero => cases hs
  | succ fuel ih =>
    rw [matchLoop] at hs
    split at hs
    · cases hs
    · rename_i p ts nds hstep
      obtain ⟨done', ns', h', hterms, hnodes⟩ := matchStep_taken h hno hstep
      split at hs
      · rename_i hend
        obtain ⟨rfl, rfl⟩ : p = prev' ∧ nds = nodes' := by simpa using hs
        exact ⟨done', ns', ts, h', hend, hterms, hnodes⟩
      · rename_i hend
        split at hs
        · cases hs
        · obtain ⟨done'', ns'', ts', h'', hend', hterms', hnodes'⟩ := ih h' hend hs
          exact ⟨done'', ns'', ts', h'', hend', hterms.trans hterms', hnodes.trans hnodes'⟩

lemma dropPrev_taken (h : Taken prev done ns) :
    ∃ ns', Spells Token.tk done ns' ∧ nodes.reverse ++ ns = (dropPrev prev nodes).reverse ++ ns' := by
  cases prev with
  | none => exact ⟨ns, h.spells, rfl⟩
  | some t =>
    obtain ⟨hmt, ts, rfl⟩ := h.prev t rfl
    induction nodes generalizing ns with
    | nil => exact ⟨ns, h.spells, rfl⟩
    | cons n nodes ih =>
      rw [dropPrev, List.dropWhile_cons]
      split
      · rename_i heq
        obtain ⟨ns', hs, hn⟩ := ih ⟨.more hmt (termEqNode_iff.mp heq) h.spells, h.used, h.prev⟩
        exact ⟨ns', hs, by rw [← dropPrev.eq_1 nodes t, ← hn]; simp⟩
      · exact ⟨ns, h.spells, rfl⟩

/-- Every right-hand side has a term, and no unused one. -/
lemma grammar_rhs : ∀ r ∈ grammar, no ∉ r.rhs ∧ r.rhs ≠ [] := by decide

/-- What follows the last unused term of the slots is the right-hand side. -/
lemma rhs_of_slots (hr : r ∈ grammar) (ht : terms.head? = some no) (hd : no ∉ done)
    (h : slots r = terms.reverse ++ done) : done = r.rhs := by
  obtain ⟨hno, -⟩ := grammar_rhs r hr
  have hfree : ∀ l : List PTerm, no ∉ l → ∀ x ∈ l.reverse, decide (x ≠ no) = true := by
    intro l hl x hx
    rw [decide_eq_true_eq]
    rintro rfl
    exact hl (List.mem_reverse.mp hx)
  have hleft : ((terms.reverse ++ done).reverse.takeWhile (· ≠ no)) = done.reverse := by
    rw [List.reverse_append, List.reverse_reverse, List.takeWhile_append_of_pos (hfree done hd)]
    obtain ⟨ts, rfl⟩ : ∃ ts, terms = no :: ts := List.head?_eq_some_iff.mp ht
    simp
  have hright : ((slots r).reverse.takeWhile (· ≠ no)) = r.rhs.reverse := by
    rw [slots, List.reverse_append, List.takeWhile_append_of_pos (hfree r.rhs hno), List.reverse_replicate]
    cases ruleRhsLast + 1 - r.rhs.length with
    | zero => simp
    | succ n => simp [List.replicate_succ]
  rw [h, hleft] at hright
  exact List.reverse_inj.mp hright

/-- A reduction takes nodes that spell the right-hand side. -/
theorem matchRule_spells (hr : r ∈ grammar) (h : matchRule r stack ≠ 0) :
    Spells Token.tk r.rhs (stack.take (matchRule r stack)).reverse := by
  obtain ⟨hno, hne⟩ := grammar_rhs r hr
  rw [matchRule] at h ⊢
  split at h
  · exact (h rfl).elim
  · rename_i prev below hloop
    have hhead : (slots r).reverse.head? ≠ some no := by
      rw [List.head?_reverse, slots, List.getLast?_append_of_ne_nil _ hne]
      exact fun hlast => hno (List.mem_of_getLast? hlast)
    obtain ⟨done, ns, ts, htaken, hend, hterms, hnodes⟩ :=
      matchLoop_taken taken_nil hhead hloop
    rw [List.reverse_reverse, List.append_nil] at hterms
    obtain rfl := rhs_of_slots hr hend htaken.used hterms
    obtain ⟨ns', hspells, hns⟩ := dropPrev_taken htaken
    have hstack : stack = ns'.reverse ++ dropPrev prev below := by
      rw [List.append_nil, hns] at hnodes
      have := congrArg List.reverse hnodes
      simpa using this
    have hlen : stack.length - (dropPrev prev below).length = ns'.reverse.length := by
      rw [hstack, List.length_append]
      omega
    have htake : stack.take ns'.reverse.length = ns'.reverse := by
      conv_lhs => rw [hstack]
      exact List.take_left
    rw [hlen, htake, List.reverse_reverse]
    exact hspells

lemma firstMatch_some {n : Nat} (h : firstMatch stack = some (r, n)) :
    r ∈ grammar ∧ Spells Token.tk r.rhs (stack.take n).reverse := by
  obtain ⟨r', hr, hm⟩ := List.exists_of_findSome?_eq_some h
  split at hm
  · cases hm
  · rename_i hne
    obtain ⟨rfl, rfl⟩ : r' = r ∧ matchRule r' stack = n := by simpa using hm
    exact ⟨hr, matchRule_spells hr hne⟩

end Match

/-! ### Rounds -/

/-- The tokens that are parsed. -/
def kept (tokens : List Token) : List Token := tokens.filter fun t => !skipToken t

/-- The tokens on the stack, from its bottom on. -/
def yield (stack : List PNode) : List Token := stack.reverse.flatMap Node.leaves

/-- The trees on the stack are derived, and their leaves are the tokens read so far. -/
structure Sound (tokens : List Token) (x : Parsing) : Prop where
  derived : ∀ n ∈ x.stack, Derived Token.tk grammar n
  yield : yield x.stack ++ kept x.rest = kept tokens

section Rounds

variable {tokens rest rest' : List Token} {x y : Parsing} {stack : List PNode} {r : PRule} {n fuel : Nat}
  {t : Token} {f : PRule → Tk → Bool} {b b' : Bool}

lemma yield_cons (m : PNode) (stack : List PNode) : yield (m :: stack) = yield stack ++ m.leaves := by
  simp [yield]

lemma yield_append (s1 s2 : List PNode) : yield (s1 ++ s2) = yield s2 ++ yield s1 := by
  simp [yield]

/-- A reduction keeps the leaves. -/
lemma reduce_yield : yield (reduce r n stack) = yield stack := by
  rw [reduce, yield_cons, leaves_node]
  have h := yield_append (stack.take n) (stack.drop n)
  rw [List.take_append_drop] at h
  exact h.symm

lemma reduce_derived (hd : ∀ m ∈ stack, Derived Token.tk grammar m) (hr : r ∈ grammar)
    (hs : Spells Token.tk r.rhs (stack.take n).reverse) :
    ∀ m ∈ reduce r n stack, Derived Token.tk grammar m := by
  intro m hm
  rcases List.mem_cons.mp hm with rfl | hm
  · exact .node r hr _ hs fun c hc => hd c (List.mem_of_mem_take (List.mem_reverse.mp hc))
  · exact hd m (List.mem_of_mem_drop hm)

lemma kept_dropWhile (rest : List Token) : kept (rest.dropWhile skipToken) = kept rest := by
  induction rest with
  | nil => rfl
  | cons t rest ih =>
    rw [List.dropWhile_cons]
    split
    · rename_i ht
      rw [ih, kept, kept, List.filter_cons_of_neg (by simp [ht])]
    · rfl

/-- Only tokens that are not parsed are skipped to look ahead, and the token ahead is one that
is. -/
lemma shouldShift_some {b : Bool} (h : shouldShift f r rest = some (b, rest')) :
    kept rest' = kept rest ∧ rest'.length ≤ rest.length ∧
      (b = true → ∃ t r', rest' = t :: r' ∧ skipToken t = false) := by
  rw [shouldShift] at h
  split at h
  · obtain ⟨rfl, rfl⟩ : false = b ∧ rest = rest' := by simpa using h
    exact ⟨rfl, Nat.le_refl _, nofun⟩
  · split at h
    · cases h
    · rename_i t ts hdrop
      obtain ⟨-, rfl⟩ : _ = b ∧ t :: ts = rest' := by simpa using h
      have hhead := List.head?_dropWhile_not skipToken rest
      rw [hdrop] at hhead
      refine ⟨hdrop ▸ kept_dropWhile rest, ?_, fun _ => ⟨t, ts, rfl, by simpa using hhead⟩⟩
      rw [← hdrop]
      exact (List.dropWhile_suffix _).length_le

lemma Sound.shift (h : Sound tokens ⟨stack, t :: rest, b⟩) (ht : skipToken t = false) :
    Sound tokens ⟨.leaf t :: stack, rest, true⟩ := by
  refine ⟨fun m hm => ?_, ?_⟩
  · rcases List.mem_cons.mp hm with rfl | hm
    · exact .leaf t
    · exact h.derived m hm
  · have hy := h.yield
    simp only [kept, List.filter_cons, ht, Bool.not_false, if_true] at hy
    rw [yield_cons, leaves_leaf, List.append_assoc]
    exact hy

lemma Sound.skip (h : Sound tokens ⟨stack, rest, b⟩) (hr : kept rest' = kept rest) :
    Sound tokens ⟨stack, rest', b⟩ := ⟨h.derived, by rw [hr]; exact h.yield⟩

/-- Where the round goes on does not matter. -/
lemma Sound.retry (h : Sound tokens ⟨stack, rest, b⟩) (b' : Bool) : Sound tokens ⟨stack, rest, b'⟩ :=
  ⟨h.derived, h.yield⟩

lemma Sound.reduce (h : Sound tokens ⟨stack, rest, b⟩) (hr : r ∈ grammar)
    (hs : Spells Token.tk r.rhs (stack.take n).reverse) : Sound tokens ⟨reduce r n stack, rest, b⟩ :=
  ⟨reduce_derived h.derived hr hs, by rw [reduce_yield]; exact h.yield⟩

/-- What a round can do: leave `try_reduce_again`, skip a token, shift one, or reduce and perhaps
shift one. -/
lemma parseStep_cases (h : parseStep x = .next y) :
    (x.retry = true ∧ y = { x with retry := false }) ∨
    (∃ t rest, x.retry = false ∧ x.rest = t :: rest ∧ skipToken t = true ∧ y = { x with rest := rest }) ∨
    (∃ t rest, kept x.rest = kept (t :: rest) ∧ rest.length < x.rest.length ∧ skipToken t = false ∧
      y = ⟨.leaf t :: x.stack, rest, true⟩) ∨
    (∃ r n rest, x.retry = true ∧ r ∈ grammar ∧ Spells Token.tk r.rhs (x.stack.take n).reverse ∧
      kept x.rest = kept rest ∧ rest.length ≤ x.rest.length ∧
      (y = ⟨reduce r n x.stack, rest, true⟩ ∨ ∃ t rest', rest = t :: rest' ∧ skipToken t = false ∧
        y = ⟨.leaf t :: reduce r n x.stack, rest', true⟩)) := by
  obtain ⟨stack, rest, retry⟩ := x
  cases retry with
  | true =>
    simp only [parseStep, if_true] at h
    split at h
    · exact .inl ⟨rfl, (Moved.next.inj h).symm⟩
    · rename_i r n hm
      obtain ⟨hr, hs⟩ := firstMatch_some hm
      split at h
      · cases h
      · rename_i rest1 hpre
        obtain ⟨hk, hle, hahead⟩ := shouldShift_some hpre
        obtain ⟨t, rest2, rfl, ht⟩ := hahead rfl
        exact .inr (.inr (.inl ⟨t, rest2, hk.symm, hle, ht, (Moved.next.inj h).symm⟩))
      · rename_i rest1 hpre
        obtain ⟨hk1, hle1, -⟩ := shouldShift_some hpre
        split at h
        · cases h
        · rename_i rest2 hpost
          obtain ⟨hk2, hle2, hahead⟩ := shouldShift_some hpost
          obtain ⟨t, rest3, rfl, ht⟩ := hahead rfl
          exact .inr (.inr (.inr ⟨r, n, _, rfl, hr, hs, (hk2.trans hk1).symm, Nat.le_trans hle2 hle1,
            .inr ⟨t, rest3, rfl, ht, (Moved.next.inj h).symm⟩⟩))
        · rename_i rest2 hpost
          obtain ⟨hk2, hle2, -⟩ := shouldShift_some hpost
          exact .inr (.inr (.inr ⟨r, n, rest2, rfl, hr, hs, (hk2.trans hk1).symm, Nat.le_trans hle2 hle1,
            .inl (Moved.next.inj h).symm⟩))
  | false =>
    cases rest with
    | nil => cases h
    | cons t rest =>
      simp only [parseStep, Bool.false_eq_true, if_false] at h
      split at h
      · rename_i ht
        exact .inr (.inl ⟨t, rest, rfl, rfl, ht, (Moved.next.inj h).symm⟩)
      · rename_i ht
        exact .inr (.inr (.inl ⟨t, rest, rfl, Nat.lt_succ_self _, eq_false_of_ne_true ht,
          (Moved.next.inj h).symm⟩))

/-- A round keeps the invariant. -/
theorem Sound.step (h : Sound tokens x) (hs : parseStep x = .next y) : Sound tokens y := by
  obtain ⟨stack, rest, retry⟩ := x
  rcases parseStep_cases hs with ⟨-, rfl⟩ | ⟨t, rest', -, hrest, ht, rfl⟩ | ⟨t, rest', hk, -, ht, rfl⟩ |
    ⟨r, n, rest', -, hr, hspells, hk, -, rfl | ⟨t, rest'', rfl, ht, rfl⟩⟩
  · exact h.retry false
  · refine h.skip ?_
    simp only at hrest
    rw [hrest, kept, kept, List.filter_cons_of_neg (by simp [ht])]
  · exact (h.skip hk.symm).shift ht
  · exact ((h.skip hk.symm).reduce hr hspells).retry true
  · exact ((h.skip hk.symm).reduce hr hspells).shift ht

lemma parseEnd_ok {root : PNode} (h : parseEnd stack = .ok root) :
    stack = [root] ∧ ∃ cs, root = .node .unit cs := by
  unfold parseEnd at h
  split at h
  · obtain rfl := Parsed.ok.inj h
    exact ⟨rfl, _, rfl⟩
  · cases h

/-- The loop ends when no token is left. -/
lemma parseStep_stop (h : parseStep x = .stop stack) : x.stack = stack ∧ x.rest = [] := by
  obtain ⟨st, rest, retry⟩ := x
  cases retry with
  | true =>
    simp only [parseStep, if_true] at h
    split at h
    · cases h
    · split at h
      · cases h
      · rename_i rest1 _
        cases rest1 <;> cases h
      · split at h
        · cases h
        · rename_i rest2 _
          cases rest2 <;> cases h
        · cases h
  | false =>
    cases rest with
    | nil => exact ⟨Moved.stop.inj h, rfl⟩
    | cons t rest =>
      simp only [parseStep, Bool.false_eq_true, if_false] at h
      split at h <;> cases h

lemma parseLoop_sound {root : PNode} (h : Sound tokens x) (hs : parseLoop fuel x = .ok root) :
    (∃ cs, root = .node .unit cs) ∧ Derived Token.tk grammar root ∧ root.leaves = kept tokens := by
  induction fuel generalizing x with
  | zero => cases hs
  | succ fuel ih =>
    rw [parseLoop] at hs
    split at hs
    · rename_i y hstep
      exact ih (h.step hstep) hs
    · rename_i stack hstep
      obtain ⟨rfl, hunit⟩ := parseEnd_ok hs
      obtain ⟨hstack, hrest⟩ := parseStep_stop hstep
      have hy := h.yield
      rw [hstack, hrest] at hy
      refine ⟨hunit, h.derived root ?_, ?_⟩
      · rw [hstack]
        exact List.mem_singleton.mpr rfl
      · simpa [yield, kept] using hy
    · cases hs

end Rounds

/-! ### The end of the loop -/

/-- What a node on the stack may still cost. -/
def weight : Tk ⊕ Nt → Nat
  | .inl _ => 4
  | .inr .stmt => 1
  | .inr .expr | .inr .ctrl => 2
  | .inr _ => 3

def nodesWeight (ns : List PNode) : Nat := (ns.map fun n => weight (n.symbol Token.tk)).sum

def termsWeight (ts : List PTerm) : Nat :=
  ((ts.filter fun t => !t.isMt).map fun t => weight t.symbol).sum

/-- What is left to do. -/
def potential (x : Parsing) : Nat :=
  10 * x.rest.length + nodesWeight x.stack + (if x.retry then 1 else 0)

section Weight

variable {tokens : List Token} {x y : Parsing} {stack : List PNode} {r : PRule} {n fuel : Nat}

/-- Every reduction makes the stack lighter. -/
lemma grammar_weight : ∀ r ∈ grammar, weight (.inr r.lhs) < termsWeight r.rhs := by decide

lemma spells_weight {ts : List PTerm} {ns : List PNode} (h : Spells Token.tk ts ns) :
    termsWeight ts ≤ nodesWeight ns := by
  induction h with
  | nil => exact Nat.le_refl _
  | one hmt hn _ ih =>
    simp only [termsWeight, nodesWeight, List.filter_cons, hmt, Bool.not_false, if_true, List.map_cons,
      List.sum_cons, hn] at ih ⊢
    exact Nat.add_le_add_left ih _
  | skip hmt _ ih => simpa [termsWeight, List.filter_cons, hmt] using ih
  | more hmt _ _ ih =>
    refine Nat.le_trans ih ?_
    simp [nodesWeight]

lemma nodesWeight_append (ns ms : List PNode) :
    nodesWeight (ns ++ ms) = nodesWeight ns + nodesWeight ms := by
  rw [nodesWeight, List.map_append, List.sum_append]
  rfl

lemma reduce_weight (hr : r ∈ grammar) (hs : Spells Token.tk r.rhs (stack.take n).reverse) :
    nodesWeight (reduce r n stack) < nodesWeight stack := by
  have hlt : weight (.inr r.lhs) < nodesWeight (stack.take n).reverse :=
    Nat.lt_of_lt_of_le (grammar_weight r hr) (spells_weight hs)
  have hsplit : nodesWeight stack = nodesWeight (stack.take n) + nodesWeight (stack.drop n) := by
    conv_lhs => rw [← List.take_append_drop n stack, nodesWeight_append]
  have hrev : nodesWeight (stack.take n).reverse = nodesWeight (stack.take n) := by
    simp [nodesWeight, List.sum_reverse]
  have hnew : nodesWeight (reduce r n stack) = weight (.inr r.lhs) + nodesWeight (stack.drop n) := rfl
  omega

lemma potential_step (hs : parseStep x = .next y) : potential y < potential x := by
  obtain ⟨stack, rest, retry⟩ := x
  rcases parseStep_cases hs with ⟨hretry, rfl⟩ | ⟨t, rest', -, hrest, -, rfl⟩ |
    ⟨t, rest', -, hlt, -, rfl⟩ | ⟨r, n, rest', hretry, hr, hspells, -, hle, rfl | ⟨t, rest'', rfl, -, rfl⟩⟩
  · simp only at hretry
    simp [potential, hretry]
  · simp only at hrest
    simp [potential, hrest]
  · have hw : nodesWeight (.leaf t :: stack) = 4 + nodesWeight stack := rfl
    simp only [potential, hw, if_true]
    simp only at hlt
    split <;> omega
  · have hw := reduce_weight hr hspells
    simp only at hretry hle hw
    simp only [potential, hretry, if_true]
    omega
  · have hw := reduce_weight hr hspells
    have hw' : nodesWeight (.leaf t :: reduce r n stack) = 4 + nodesWeight (reduce r n stack) := rfl
    simp only [List.length_cons] at hretry hle hw
    simp only [potential, hretry, hw', if_true]
    omega

lemma parseLoop_ends (h : potential x < fuel) : parseLoop fuel x ≠ .hang := by
  induction fuel generalizing x with
  | zero => omega
  | succ fuel ih =>
    rw [parseLoop]
    split
    · rename_i y hstep
      exact ih (Nat.lt_of_lt_of_le (potential_step hstep) (Nat.le_of_lt_succ h))
    · rename_i stack _
      unfold parseEnd
      split <;> nofun
    · nofun

/-- The loop of the parser ends. -/
theorem parse_ends (tokens : List Token) : parse tokens ≠ .hang := by
  refine parseLoop_ends ?_
  simp [potential, nodesWeight]

/-- **What the parser accepts is derived**: the root is a unit, the children of every inner node
spell the right-hand side of a rule for it, and the leaves are the tokens without white space and
comments. -/
theorem parse_sound {root : PNode} (h : parse tokens = .ok root) :
    (∃ cs, root = .node .unit cs) ∧ Derived Token.tk grammar root ∧
      root.leaves = tokens.filter fun t => !skipToken t :=
  parseLoop_sound ⟨fun _ hm => (List.not_mem_nil hm).elim, rfl⟩ h

/-- The tokens of `a = b ? c + d : e ; /**/` with the parentheses `:` asks for -/
def someTokens : List Token :=
  [fbegToken, ⟨.name, 0, 1⟩, ⟨.wspc, 1, 2⟩, ⟨.assn, 2, 3⟩, ⟨.name, 3, 4⟩, ⟨.ques, 4, 5⟩, ⟨.lpar, 5, 6⟩,
    ⟨.name, 6, 7⟩, ⟨.plus, 7, 8⟩, ⟨.name, 8, 9⟩, ⟨.rpar, 9, 10⟩, ⟨.coln, 10, 11⟩, ⟨.name, 11, 12⟩,
    ⟨.scol, 12, 13⟩, ⟨.bcom, 13, 17⟩, fendToken]

/-- A statement is parsed, and its tokens are found in the tree. -/
theorem parse_sound_statement : ∃ root, parse someTokens = .ok root ∧
    root.leaves = someTokens.filter fun t => !skipToken t := by
  have hok : (parse someTokens matches .ok _) = true := by decide +kernel
  cases h : parse someTokens with
  | ok root => exact ⟨root, rfl, (parse_sound h).2.2⟩
  | reject | ub | hang => rw [h] at hok; cases hok

end Weight

end Quaint.Parsing
