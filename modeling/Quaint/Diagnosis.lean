import Quaint.Cursors
import Quaint.Residue

/-!
The diagnosis of a rejected stack.

`diagnose_error` moves a cursor for every rule along the stack, from the bottom up, and begins anew
at the node where no rule goes on. A rule that has been matched to its end stays in the race, and
its cursor is read at the next node.
-/

namespace Quaint.Diagnosis

open Relation Lex Derivation Parse Parsing Precedence Residue Cursors

/-! ### The cursors -/

/-- `struct status`; the pointers are indices into the right-hand side, `end` is the length of
it. -/
structure Status where
  prev : Option PTerm
  pos : Nat
  prefixLen : Nat
  accepted : Bool

/-- The first slot that is used, from the second one on. -/
def begOf (r : PRule) : Nat := 1 + (((slots r).drop 1).takeWhile fun t => t == no).length

def Status.init (r : PRule) : Status := ⟨none, begOf r, 0, true⟩

/-- From `match_again` on: the status of a rule behind a node, and whether the rule takes it.
Nothing if the cursor is read at the end. -/
def matchAgain (r : PRule) (n : PNode) : Nat → Status → Option (Status × Bool)
  | 0, _ => none
  | fuel + 1, s =>
    match (slots r)[s.pos]? with
    | none => none
    | some t =>
      if termEqNode t n then
        some (⟨if t.isMt then some t else none, s.pos + 1, s.prefixLen + 1, s.accepted⟩, true)
      else if s.prev.any (termEqNode · n) then some ({ s with prefixLen := s.prefixLen + 1 }, true)
      else if t.isMt then
        if s.pos + 1 ≠ ruleRhsLast + 1 then matchAgain r n fuel { s with prev := none, pos := s.pos + 1 }
        else some ({ s with prev := none, pos := s.pos + 1 }, false)
      else some ({ s with accepted := false }, false)

/-- The body of the loop over the rules -/
def matchNode (r : PRule) (n : PNode) (s : Status) : Option (Status × Bool) :=
  if s.accepted then matchAgain r n (ruleRhsLast + 2) s else some (s, false)

/-- The loop over the rules: the statuses behind a node, and whether some rule takes it -/
def matchNodes (n : PNode) : List (PRule × Status) → Option (List (PRule × Status) × Bool)
  | [] => some ([], false)
  | (r, s) :: ss =>
    (matchNode r n s).bind fun p =>
    (matchNodes n ss).map fun q => ((r, p.1) :: q.1, p.2 || q.2)

/-- How `diagnose_error` ends: with a read at the end of a rule or behind the stack, not at all,
with an error printed at a node, or without one. -/
inductive Verdict
  | ub
  | hang
  | printed (node : PNode)
  | silent

def fresh : List (PRule × Status) := grammar.map fun r => (r, Status.init r)

/-- The loop along the nodes from `st_idx` on -/
def diagnoseLoop : Nat → List (PRule × Status) → List PNode → Verdict
  | 0, _, _ => .hang
  | _ + 1, _, [] => .ub
  | fuel + 1, ss, n :: rest =>
    match matchNodes n ss with
    | none => .ub
    | some (ss', didAccept) =>
      if didAccept then if rest.isEmpty then .silent else diagnoseLoop fuel ss' rest
      else if ss'.all fun p => p.2.prefixLen == 0 then .printed n
      else diagnoseLoop fuel fresh (n :: rest)

/-- `diagnose_error` -/
def diagnoseError (stack : List PNode) : Verdict :=
  diagnoseLoop (2 * stack.length + 1) fresh stack.reverse

/-! ### Pieces of the stack -/

/-- The row begins some right-hand side. -/
def Viable (w : List PNode) : Prop := ∃ r ∈ grammar, Begins Token.tk r.rhs w

/-- The row spells a right-hand side down to its last term. -/
def Full (r : PRule) (w : List PNode) : Prop :=
  Spells Token.tk r.rhs w ∧
    w.getLast?.map (Node.symbol Token.tk) = r.rhs.getLast?.map Term.symbol

/-- The stack from the bottom up is cut into pieces. A piece goes on as long as it begins some
right-hand side, and the next one begins where it ends. A position is the piece so far, with what
is left of the stack. -/
inductive Move : List PNode × List PNode → List PNode × List PNode → Prop
  | take {w rest : List PNode} {n : PNode} (hv : Viable (w ++ [n])) : Move (w, n :: rest) (w ++ [n], rest)
  | anew {w rest : List PNode} {n : PNode} (hw : w ≠ []) (hv : ¬ Viable (w ++ [n])) :
    Move (w, n :: rest) ([], n :: rest)

/-- From a position on, no piece spells a whole right-hand side and has a node behind it. -/
def Unfinished (x : List PNode × List PNode) : Prop :=
  ∀ w n rest, ReflTransGen Move x (w, n :: rest) → ∀ r ∈ grammar, ¬ Full r w

section Positions

variable {w rest : List PNode} {n : PNode}

lemma unfinished_nil : Unfinished (w, []) := by
  intro w' n rest h
  cases h.cases_head with
  | inl h => cases h
  | inr h =>
    obtain ⟨_, h, -⟩ := h
    cases h

/-- What the move from a position leaves to look at. -/
lemma unfinished_move {y : List PNode × List PNode} (hm : Move (w, n :: rest) y)
    (huniq : ∀ z, Move (w, n :: rest) z → z = y) :
    Unfinished (w, n :: rest) ↔ (∀ r ∈ grammar, ¬ Full r w) ∧ Unfinished y := by
  constructor
  · intro h
    exact ⟨h w n rest .refl, fun w' n' rest' run => h w' n' rest' (.head hm run)⟩
  · rintro ⟨hw, hy⟩ w' n' rest' run
    rcases run.cases_head with heq | ⟨z, hz, run⟩
    · cases heq
      exact hw
    · exact hy w' n' rest' (huniq z hz ▸ run)

lemma unfinished_take (hv : Viable (w ++ [n])) :
    Unfinished (w, n :: rest) ↔ (∀ r ∈ grammar, ¬ Full r w) ∧ Unfinished (w ++ [n], rest) := by
  refine unfinished_move (.take hv) fun z hz => ?_
  cases hz with
  | take _ => rfl
  | anew _ hv' => exact absurd hv hv'

lemma unfinished_anew (hw : w ≠ []) (hv : ¬ Viable (w ++ [n])) :
    Unfinished (w, n :: rest) ↔ (∀ r ∈ grammar, ¬ Full r w) ∧ Unfinished ([], n :: rest) := by
  refine unfinished_move (.anew hw hv) fun z hz => ?_
  cases hz with
  | take hv' => exact absurd hv' hv
  | anew _ _ => rfl

/-- Where no piece begins, the walk along the stack is over. -/
lemma unfinished_end (hv : ¬ Viable [n]) : Unfinished ([], n :: rest) := by
  intro w' n' rest' run
  rcases run.cases_head with heq | ⟨z, hz, -⟩
  · cases heq
    rintro r hr ⟨-, hlast⟩
    have hrhs := (grammar_rhs r hr).2
    cases hl : r.rhs.getLast? with
    | none => exact hrhs (List.getLast?_eq_none_iff.mp hl)
    | some t => simp [hl] at hlast
  · cases hz with
    | take hv' => exact absurd hv' hv
    | anew hw _ => exact absurd rfl hw

end Positions

/-! ### What a cursor knows -/

def syms (w : List PNode) : List (Tk ⊕ Nt) := w.map (Node.symbol Token.tk)

/-- The cursor of a rule in the race: the terms it has before it are those that the piece leaves,
and the term behind it is that of the last node. -/
structure Live (r : PRule) (w : List PNode) (s : Status) : Prop where
  accepted : s.accepted = true
  pos : s.pos ≤ ruleRhsLast + 1
  left : residues (syms w) r.rhs = some (s.prev.toList ++ (slots r).drop s.pos)
  prev : ∀ t, s.prev = some t → t.isMt = true ∧ (slots r)[s.pos - 1]? = some t
  prefixLen : s.prefixLen = w.length
  last : w ≠ [] → (syms w).getLast? = ((slots r)[s.pos - 1]?).map Term.symbol

/-- The status of a rule behind a piece. One that has skipped its last term stays in the race,
although it does not take the last node. -/
inductive Tracks (r : PRule) (w : List PNode) (s : Status) : Prop
  | live (h : Live r w s)
  | dead (ha : s.accepted = false) (hr : residues (syms w) r.rhs = none)
  | spent (ha : s.accepted = true) (hpos : s.pos = ruleRhsLast + 1)
    (hr : residues (syms w) r.rhs = none) (hfull : Viable w → ∃ r' ∈ grammar, Full r' w)

section Cursor

variable {r : PRule} {w : List PNode} {n : PNode} {s s' : Status} {fuel : Nat} {b : Bool}

lemma grammar_slots : ∀ r ∈ grammar, (slots r).length = ruleRhsLast + 1 ∧
    separated r.rhs = true ∧ (slots r).drop (begOf r) = r.rhs ∧ (slots r).getLast? = r.rhs.getLast? := by
  decide +kernel

lemma syms_snoc (w : List PNode) (n : PNode) : syms (w ++ [n]) = syms w ++ [n.symbol Token.tk] := by
  simp [syms]

/-- What `match_again` comes to, by the terms before the cursor: it is read at the end, or the rule
takes the node and the cursor goes on, or the rule is out, or all that was left of it is skipped. -/
structure Again (r : PRule) (n : PNode) (s s' : Status) (b : Bool) : Prop where
  takes : b = true → s'.accepted = s.accepted ∧ s'.prefixLen = s.prefixLen + 1 ∧
    residue (n.symbol Token.tk) (s.prev.toList ++ (slots r).drop s.pos) =
      some (s'.prev.toList ++ (slots r).drop s'.pos) ∧
    (∀ t, s'.prev = some t → t.isMt = true ∧ (slots r)[s'.pos - 1]? = some t) ∧
    ((slots r)[s'.pos - 1]?).map Term.symbol = some (n.symbol Token.tk)
  leaves : b = false → s'.prefixLen = s.prefixLen ∧
    residue (n.symbol Token.tk) (s.prev.toList ++ (slots r).drop s.pos) = none ∧
    (s'.accepted = false ∨ s'.accepted = s.accepted ∧ s'.pos = ruleRhsLast + 1 ∧
      ∀ t ∈ (slots r).drop s.pos, t.isMt = true)

/-- A repeated term that does not take a node leaves it to the terms behind it. -/
lemma residue_toList {o : Option PTerm} {x : Tk ⊕ Nt} {ts : List PTerm}
    (h : ∀ t, o = some t → t.isMt = true ∧ t.symbol ≠ x) : residue x (o.toList ++ ts) = residue x ts := by
  cases o with
  | none => rfl
  | some t =>
    obtain ⟨hmt, hne⟩ := h t rfl
    rw [Option.toList_some, List.singleton_append, residue, if_neg hne, if_pos hmt]

lemma matchAgain_spec (hlen : (slots r).length = ruleRhsLast + 1) (hpos : s.pos < ruleRhsLast + 1)
    (hfuel : ruleRhsLast + 1 < s.pos + fuel)
    (hsep : separated (s.prev.toList ++ (slots r).drop s.pos) = true)
    (hprev : ∀ t, s.prev = some t → t.isMt = true ∧ (slots r)[s.pos - 1]? = some t) :
    ∃ s' b, matchAgain r n fuel s = some (s', b) ∧ Again r n s s' b := by
  induction fuel generalizing s with
  | zero => omega
  | succ fuel ih =>
    obtain ⟨t, ht⟩ : ∃ t, (slots r)[s.pos]? = some t := ⟨_, List.getElem?_eq_getElem (hlen ▸ hpos)⟩
    have hdrop : (slots r).drop s.pos = t :: (slots r).drop (s.pos + 1) := by
      obtain ⟨h, rfl⟩ := List.getElem?_eq_some_iff.mp ht
      exact List.drop_eq_getElem_cons h
    rw [hdrop] at hsep
    have hskip : ¬ s.prev.any (termEqNode · n) = true →
        ∀ p, s.prev = some p → p.isMt = true ∧ p.symbol ≠ n.symbol Token.tk := by
      intro hany p hp
      refine ⟨(hprev p hp).1, fun heq => hany ?_⟩
      rw [hp, Option.any_some, termEqNode_iff]
      exact heq
    rw [matchAgain, ht]
    simp only
    by_cases hn : termEqNode t n = true
    · -- the term before the cursor takes the node
      rw [if_pos hn]
      rw [termEqNode_iff] at hn
      refine ⟨_, true, rfl, fun _ => ⟨rfl, rfl, ?_, ?_, ?_⟩, fun h => by cases h⟩
      · have hapart : ∀ p, s.prev = some p → p.isMt = true ∧ p.symbol ≠ n.symbol Token.tk := by
          intro p hp
          rw [hp, Option.toList_some, List.singleton_append] at hsep
          refine ⟨(hprev p hp).1, fun heq => (separated_cons hsep).1 (hprev p hp).1 ?_⟩
          rw [firsts, heq, ← hn]
          exact List.mem_cons_self
        rw [hdrop, residue_toList hapart, residue, if_pos hn]
        cases t.isMt <;> rfl
      · intro u hu
        simp only at hu
        split at hu
        · rename_i hmt
          obtain rfl := Option.some.inj hu
          exact ⟨hmt, ht⟩
        · cases hu
      · simp [ht, hn]
    · rw [if_neg hn]
      rw [termEqNode_iff] at hn
      by_cases hany : s.prev.any (termEqNode · n) = true
      · -- the term repeated last takes it
        rw [if_pos hany]
        obtain ⟨p, hp, heq⟩ : ∃ p, s.prev = some p ∧ p.symbol = n.symbol Token.tk := by
          cases hp : s.prev with
          | none => simp [hp] at hany
          | some p => exact ⟨p, rfl, termEqNode_iff.mp (by simpa [hp] using hany)⟩
        refine ⟨_, true, rfl, fun _ => ⟨rfl, rfl, ?_, hprev, ?_⟩, fun h => by cases h⟩
        · simp [hp, residue, heq, (hprev p hp).1]
        · simp [(hprev p hp).2, heq]
      · rw [if_neg hany]
        have hres : residue (n.symbol Token.tk) (s.prev.toList ++ (slots r).drop s.pos) =
            if t.isMt then residue (n.symbol Token.tk) ((slots r).drop (s.pos + 1)) else none := by
          rw [residue_toList (hskip hany), hdrop, residue, if_neg hn]
        by_cases hmt : t.isMt = true
        · rw [if_pos hmt] at hres ⊢
          by_cases hend : s.pos + 1 = ruleRhsLast + 1
          · -- the last term is skipped, and the rule stays in the race
            rw [if_neg (not_not_intro hend)]
            have hnil : (slots r).drop (s.pos + 1) = [] := List.drop_eq_nil_of_le (by omega)
            refine ⟨_, false, rfl, (fun h => by cases h), fun _ => ⟨rfl, ?_, .inr ⟨rfl, hend, ?_⟩⟩⟩
            · rw [hres, hnil]
              rfl
            · rw [hdrop, hnil]
              simpa using hmt
          · rw [if_pos hend]
            have hsep' : separated ((none : Option PTerm).toList ++ (slots r).drop (s.pos + 1)) = true := by
              cases hp : s.prev with
              | none =>
                rw [hp] at hsep
                exact (separated_cons hsep).2
              | some p =>
                rw [hp] at hsep
                exact (separated_cons (separated_cons hsep).2).2
            obtain ⟨s', b, heq, hagain⟩ := ih (s := { s with prev := none, pos := s.pos + 1 })
              (by simp only; omega) (by simp only; omega) hsep' (fun t ht => by cases ht)
            refine ⟨s', b, heq, fun hb => ?_, fun hb => ?_⟩
            · obtain ⟨h1, h2, h3, h4, h5⟩ := hagain.takes hb
              exact ⟨h1, h2, hres.trans h3, h4, h5⟩
            · obtain ⟨h1, h2, h3⟩ := hagain.leaves hb
              refine ⟨h1, hres.trans h2, h3.imp_right fun h4 => ?_⟩
              obtain ⟨ha, hp, hall⟩ := h4
              refine ⟨ha, hp, ?_⟩
              rw [hdrop]
              exact List.forall_mem_cons.mpr ⟨hmt, hall⟩
        · rw [if_neg hmt] at hres ⊢
          exact ⟨_, false, rfl, (fun h => by cases h), fun _ => ⟨rfl, hres, .inl rfl⟩⟩

lemma tracks_init (hr : r ∈ grammar) : Tracks r [] (Status.init r) := by
  obtain ⟨hlen, -, hbeg, -⟩ := grammar_slots r hr
  have hle : ∀ r ∈ grammar, begOf r ≤ ruleRhsLast + 1 := by decide +kernel
  exact .live ⟨rfl, hle r hr, congrArg some hbeg.symm, nofun, rfl, fun h => absurd rfl h⟩

/-- The only right-hand side that may end without its last term. -/
def looseRule : PRule := ⟨.ctrl, [.nt .cond, .mt .elif]⟩

lemma loose_of_skipped (hr : r ∈ grammar) (hpos : s.pos < ruleRhsLast + 1)
    (hall : ∀ t ∈ (slots r).drop s.pos, t.isMt = true) : r = looseRule ∧ s.pos = ruleRhsLast := by
  have hloose : ∀ r ∈ grammar, ∀ pos < ruleRhsLast + 1, ((slots r).drop pos).all Term.isMt = true →
      r = looseRule ∧ pos = ruleRhsLast := by decide +kernel
  exact hloose r hr _ hpos (List.all_eq_true.mpr hall)

/-- Where the loose rule skips its last term, the piece is a condition alone. -/
lemma Live.loose (h : Live looseRule w s) (hpos : s.pos = ruleRhsLast) :
    ∃ m, w = [m] ∧ m.symbol Token.tk = .inr .cond := by
  have hleft := h.left
  have hlast := h.last
  rw [hpos] at hleft hlast
  cases w with
  | nil =>
    cases hp : s.prev with
    | none => simp [syms, residues, hp, looseRule, slots, ruleRhsLast] at hleft
    | some p =>
      have hmt := (h.prev p hp).1
      simp only [syms, residues, hp, looseRule, slots, ruleRhsLast, List.map_nil, List.foldlM_nil] at hleft
      cases hleft
      cases hmt
  | cons m w =>
    rw [syms, List.map_cons, residues_cons, Option.bind_eq_some_iff] at hleft
    obtain ⟨ts, h1, h2⟩ := hleft
    simp only [looseRule, residue] at h1
    split at h1
    · rename_i hm
      cases h1
      -- behind the condition the rule takes nothing but what it repeats
      have hrest : ∀ v : List (Tk ⊕ Nt), (residues v [(.mt .elif : PTerm)]).isSome = true →
          ∀ x ∈ v, x = .inr .elif := by
        intro v
        induction v with
        | nil => simp
        | cons x v ih =>
          rw [residues_cons, residue]
          by_cases hx : (Term.mt Nt.elif : PTerm).symbol = x
          · rw [if_pos hx]
            exact fun hv => List.forall_mem_cons.mpr ⟨hx.symm, ih hv⟩
          · rw [if_neg hx]
            simp [Term.isMt, residue]
      have hall := hrest (w.map (Node.symbol Token.tk)) (by
        rw [show residues (w.map (Node.symbol Token.tk)) [(.mt .elif : PTerm)] = _ from h2]
        rfl)
      refine ⟨m, ?_, hm.symm⟩
      cases w using List.reverseRecOn with
      | nil => rfl
      | append_singleton w k =>
        have hk := hall (k.symbol Token.tk) (by simp)
        have := hlast (List.cons_ne_nil _ _)
        rw [← List.cons_append, syms_snoc, List.getLast?_concat, hk] at this
        cases this
    · cases h1

/-- Another rule is spelled where the loose one is left behind. -/
lemma full_of_loose {m : PNode} (hm : m.symbol Token.tk = .inr .cond)
    (hres : residues (syms ([m] ++ [n])) looseRule.rhs = none) (hv : Viable ([m] ++ [n])) :
    ∃ r' ∈ grammar, Full r' ([m] ++ [n]) := by
  obtain ⟨r', hr', hbegins⟩ := hv
  rw [begins_iff (fun k => ⟨⟨k, 0, 0⟩, rfl⟩) (grammar_slots r' hr').2.1] at hbegins
  rw [List.map_append, List.map_singleton, List.map_singleton, hm, List.singleton_append, residues_cons]
    at hbegins
  rw [syms_snoc, syms, List.map_singleton, hm, List.singleton_append, residues_cons] at hres
  have hfirst : ∀ r ∈ grammar, residue (.inr .cond) r.rhs = none ∨
      residue (.inr .cond) r.rhs = some [.mt .elif] ∨
      residue (.inr .cond) r.rhs = some [.mt .elif, .nt .els] := by decide +kernel
  have hloose : residue (.inr .cond) looseRule.rhs = some [.mt .elif] := by decide
  rw [hloose, Option.bind_some, residues_cons] at hres
  have hne : (Term.mt Nt.elif : PTerm).symbol ≠ n.symbol Token.tk := by
    intro heq
    rw [residue, if_pos heq] at hres
    cases hres
  have hmt : (Term.mt Nt.elif : PTerm).isMt = true := rfl
  rcases hfirst r' hr' with h | h | h
  · rw [h] at hbegins
    cases hbegins
  · rw [h, Option.bind_some, residues_cons, residue, if_neg hne] at hbegins
    cases hbegins
  · rw [h, Option.bind_some, residues_cons, residue, if_neg hne, if_pos hmt, residue] at hbegins
    split at hbegins
    · rename_i heq
      refine ⟨⟨.ctrl, [.nt .cond, .mt .elif, .nt .els]⟩, by decide, ?_, ?_⟩
      · exact .one rfl hm.symm (.skip rfl (.one rfl heq .nil))
      · simp [← heq]
    · cases hbegins

lemma matchNode_end (ha : s.accepted = true) (hpos : s.pos = ruleRhsLast + 1) (hr : r ∈ grammar) :
    matchNode r n s = none := by
  have hnone : (slots r)[s.pos]? = none :=
    List.getElem?_eq_none (Nat.le_of_eq ((grammar_slots r hr).1.trans hpos.symm))
  rw [matchNode, if_pos ha, matchAgain, hnone]

/-- The status of a rule behind one node more, unless its cursor is at the end. -/
lemma Tracks.step (h : Tracks r w s) (hr : r ∈ grammar)
    (hend : ¬(s.accepted = true ∧ s.pos = ruleRhsLast + 1)) :
    ∃ s' b, matchNode r n s = some (s', b) ∧ Tracks r (w ++ [n]) s' ∧
      (b = true ↔ (residues (syms (w ++ [n])) r.rhs).isSome = true) ∧
      (b = false → s'.prefixLen = s.prefixLen) := by
  obtain ⟨hlen, hsep, -, -⟩ := grammar_slots r hr
  cases h with
  | dead ha hres =>
    have hres' : residues (syms (w ++ [n])) r.rhs = none := by
      rw [syms_snoc, residues_snoc, hres, Option.bind_none]
    exact ⟨s, false, by simp [matchNode, ha], .dead ha hres', by simp [hres'], fun _ => rfl⟩
  | spent ha hpos _ _ => exact absurd ⟨ha, hpos⟩ hend
  | live h =>
    have hpos : s.pos < ruleRhsLast + 1 := Nat.lt_of_le_of_ne h.pos fun heq => hend ⟨h.accepted, heq⟩
    have hfuel : ruleRhsLast + 1 < s.pos + (ruleRhsLast + 2) := by omega
    obtain ⟨s', b, heq, hagain⟩ :=
      matchAgain_spec (n := n) hlen hpos hfuel (residues_separated hsep h.left) h.prev
    refine ⟨s', b, by rw [matchNode, if_pos h.accepted, heq], ?_⟩
    have hres : residues (syms (w ++ [n])) r.rhs =
        residue (n.symbol Token.tk) (s.prev.toList ++ (slots r).drop s.pos) := by
      rw [syms_snoc, residues_snoc, h.left, Option.bind_some]
    cases b with
    | true =>
      obtain ⟨h1, h2, h3, h4, h5⟩ := hagain.takes rfl
      have hlt : s'.pos - 1 < (slots r).length := by
        obtain ⟨t, ht, -⟩ := Option.map_eq_some_iff.mp h5
        exact (List.getElem?_eq_some_iff.mp ht).1
      refine ⟨.live ⟨h1.trans h.accepted, ?_, hres.trans h3, h4, ?_, fun _ => ?_⟩, by simp [hres, h3], nofun⟩
      · omega
      · rw [h2, h.prefixLen, List.length_append, List.length_singleton]
      · rw [syms_snoc, List.getLast?_concat, h5]
    | false =>
      obtain ⟨h1, h2, h3⟩ := hagain.leaves rfl
      refine ⟨?_, by simp [hres, h2], fun _ => h1⟩
      rcases h3 with ha | ⟨ha, hpos', hall⟩
      · exact .dead ha (hres.trans h2)
      · refine .spent (ha.trans h.accepted) hpos' (hres.trans h2) ?_
        obtain ⟨rfl, hseven⟩ := loose_of_skipped hr hpos hall
        obtain ⟨m, rfl, hm⟩ := h.loose hseven
        exact full_of_loose hm (hres.trans h2)

lemma viable_iff : Viable w ↔ ∃ r ∈ grammar, (residues (syms w) r.rhs).isSome = true := by
  refine exists_congr fun r => and_congr_right fun hr => ?_
  exact begins_iff (fun k => ⟨⟨k, 0, 0⟩, rfl⟩) (grammar_slots r hr).2.1

/-- A rule whose cursor is at the end is spelled. -/
lemma Live.full_of_end (h : Live r w s) (hr : r ∈ grammar) (hpos : s.pos = ruleRhsLast + 1)
    (hw : w ≠ []) : Full r w := by
  obtain ⟨hlen, hsep, -, hgetLast⟩ := grammar_slots r hr
  have hleft := h.left
  rw [hpos, List.drop_eq_nil_of_le (Nat.le_of_eq hlen), List.append_nil] at hleft
  constructor
  · rw [← List.append_nil w, spells_append hsep]
    refine ⟨_, hleft, spells_nil.mpr fun t ht => ?_⟩
    exact (h.prev t (Option.mem_toList.mp ht)).1
  · have hlast := h.last hw
    rw [hpos, syms, List.getLast?_map] at hlast
    rw [hlast, ← hgetLast, List.getLast?_eq_getElem?, hlen]

lemma Tracks.end_of_full (h : Tracks r w s) (hr : r ∈ grammar) (hf : Full r w) :
    s.accepted = true ∧ s.pos = ruleRhsLast + 1 := by
  obtain ⟨hlen, hsep, -, -⟩ := grammar_slots r hr
  obtain ⟨hs, hlast⟩ := hf
  rw [← List.append_nil w, spells_append hsep] at hs
  obtain ⟨ts, hts, hnil⟩ := hs
  cases h with
  | dead _ hres => cases hres.symm.trans hts
  | spent _ _ hres _ => cases hres.symm.trans hts
  | live h =>
    refine ⟨h.accepted, ?_⟩
    by_contra hne
    obtain rfl := Option.some.inj (h.left.symm.trans hts)
    obtain ⟨rfl, hseven⟩ := loose_of_skipped hr (Nat.lt_of_le_of_ne h.pos hne) fun t ht =>
      spells_nil.mp hnil t (List.mem_append_right _ ht)
    obtain ⟨m, rfl, hm⟩ := h.loose hseven
    simp [hm, looseRule] at hlast
    cases hlast

/-- If a cursor is at the end, some rule is spelled, although it need not be that one. -/
lemma Tracks.full_of_end (h : Tracks r w s) (hr : r ∈ grammar) (hw : w = [] ∨ Viable w)
    (ha : s.accepted = true) (hpos : s.pos = ruleRhsLast + 1) : ∃ r' ∈ grammar, Full r' w := by
  cases h with
  | dead hdead _ => cases hdead.symm.trans ha
  | spent _ _ hres hfull =>
    rcases hw with rfl | hv
    · cases hres
    · exact hfull hv
  | live h =>
    by_cases hnil : w = []
    · -- no right-hand side is repeated terms alone
      subst hnil
      have hmt : ∀ r ∈ grammar, r.rhs.all Term.isMt = false := by decide
      have hleft := h.left
      rw [hpos, List.drop_eq_nil_of_le (Nat.le_of_eq (grammar_slots r hr).1), List.append_nil] at hleft
      have hall : r.rhs.all Term.isMt = true := by
        rw [Option.some.inj hleft, List.all_eq_true]
        exact fun t ht => (h.prev t (Option.mem_toList.mp ht)).1
      cases (hmt r hr).symm.trans hall
    · exact ⟨r, hr, h.full_of_end hr hpos hnil⟩

end Cursor

/-! ### The loop -/

/-- The statuses behind a piece. -/
structure Tracked (w : List PNode) (ss : List (PRule × Status)) : Prop where
  rules : ss.map Prod.fst = grammar
  each : ∀ p ∈ ss, Tracks p.1 w p.2

section Loop

variable {w rest : List PNode} {n : PNode} {ss ss' : List (PRule × Status)} {fuel : Nat}

lemma Tracked.mem (h : Tracked w ss) {p : PRule × Status} (hp : p ∈ ss) : p.1 ∈ grammar :=
  h.rules ▸ List.mem_map_of_mem hp

lemma Tracked.of_rule (h : Tracked w ss) {r : PRule} (hr : r ∈ grammar) : ∃ s, (r, s) ∈ ss := by
  rw [← h.rules] at hr
  obtain ⟨⟨r', s⟩, hp, rfl⟩ := List.mem_map.mp hr
  exact ⟨s, hp⟩

lemma tracked_fresh : Tracked [] fresh := by
  refine ⟨by rw [fresh, List.map_map]; exact List.map_id'' (fun _ => rfl) _, fun p hp => ?_⟩
  obtain ⟨r, hr, rfl⟩ := List.mem_map.mp hp
  exact tracks_init hr

lemma matchNodes_end {p : PRule × Status} (hp : p ∈ ss) (hnone : matchNode p.1 n p.2 = none) :
    matchNodes n ss = none := by
  induction ss with
  | nil => cases hp
  | cons q ss ih =>
    rw [matchNodes]
    rcases List.mem_cons.mp hp with rfl | hp
    · rw [hnone, Option.bind_none]
    · rw [ih hp]
      cases matchNode q.1 n q.2 <;> rfl

lemma matchNodes_step (hss : ∀ p ∈ ss, p.1 ∈ grammar ∧ Tracks p.1 w p.2 ∧
    ¬(p.2.accepted = true ∧ p.2.pos = ruleRhsLast + 1)) :
    ∃ ss' b, matchNodes n ss = some (ss', b) ∧ ss'.map Prod.fst = ss.map Prod.fst ∧
      (∀ p ∈ ss', Tracks p.1 (w ++ [n]) p.2) ∧
      (b = true ↔ ∃ p ∈ ss, (residues (syms (w ++ [n])) p.1.rhs).isSome = true) ∧
      (b = false → ss'.map (·.2.prefixLen) = ss.map (·.2.prefixLen)) := by
  induction ss with
  | nil => exact ⟨[], false, rfl, rfl, List.forall_mem_nil _, by simp, fun _ => rfl⟩
  | cons q ss ih =>
    obtain ⟨hq, hss⟩ := List.forall_mem_cons.mp hss
    obtain ⟨s', b, hs', htracks, hb, hlen⟩ := hq.2.1.step (n := n) hq.1 hq.2.2
    obtain ⟨ss', b', hss', hfst, hall, hb', hlens⟩ := ih hss
    refine ⟨(q.1, s') :: ss', b || b', ?_, ?_, ?_, ?_, ?_⟩
    · rw [matchNodes, hs', Option.bind_some, hss', Option.map_some]
    · rw [List.map_cons, List.map_cons, hfst]
    · exact List.forall_mem_cons.mpr ⟨htracks, hall⟩
    · rw [Bool.or_eq_true, hb, hb', List.exists_mem_cons_iff]
    · intro hor
      rw [Bool.or_eq_false_iff] at hor
      rw [List.map_cons, List.map_cons, hlens hor.2]
      exact congrArg (· :: _) (hlen hor.1)

/-- What the loop over the rules comes to, if no rule has been spelled. -/
lemma Tracked.step (h : Tracked w ss) (hno : ∀ r ∈ grammar, ¬ Full r w) (hw : w = [] ∨ Viable w) :
    ∃ ss' b, matchNodes n ss = some (ss', b) ∧ Tracked (w ++ [n]) ss' ∧
      (b = true ↔ Viable (w ++ [n])) ∧
      (b = false → ((ss'.all fun p => p.2.prefixLen == 0) = true ↔ w = [])) := by
  have hss : ∀ p ∈ ss, p.1 ∈ grammar ∧ Tracks p.1 w p.2 ∧
      ¬(p.2.accepted = true ∧ p.2.pos = ruleRhsLast + 1) := by
    refine fun p hp => ⟨h.mem hp, h.each p hp, fun ⟨ha, hpos⟩ => ?_⟩
    obtain ⟨r, hr, hf⟩ := (h.each p hp).full_of_end (h.mem hp) hw ha hpos
    exact hno r hr hf
  obtain ⟨ss', b, heq, hfst, hall, hb, hlens⟩ := matchNodes_step (n := n) hss
  refine ⟨ss', b, heq, ⟨hfst.trans h.rules, hall⟩, ?_, fun hfalse => ?_⟩
  · rw [hb, viable_iff]
    constructor
    · rintro ⟨p, hp, hsome⟩
      exact ⟨p.1, h.mem hp, hsome⟩
    · rintro ⟨r, hr, hsome⟩
      obtain ⟨s, hp⟩ := h.of_rule hr
      exact ⟨_, hp, hsome⟩
  · have hmem : ∀ l : List (PRule × Status), (l.all fun p => p.2.prefixLen == 0) = true ↔
        ∀ k ∈ l.map (·.2.prefixLen), k = 0 := by
      intro l
      simp only [List.all_eq_true, beq_iff_eq, List.forall_mem_map]
    rw [hmem, hlens hfalse, ← hmem, List.all_eq_true]
    constructor
    · intro hzero
      rcases hw with hnil | hv
      · exact hnil
      · obtain ⟨r, hr, hsome⟩ := viable_iff.mp hv
        obtain ⟨s, hp⟩ := h.of_rule hr
        have hz := hzero _ hp
        rw [beq_iff_eq] at hz
        -- a rule in the race has counted the nodes of the piece
        cases h.each _ hp with
        | live hl => exact List.length_eq_zero_iff.mp (hl.prefixLen.symm.trans hz)
        | dead _ hres => simp [hres] at hsome
        | spent _ _ hres _ => simp [hres] at hsome
    · rintro rfl p hp
      rw [beq_iff_eq]
      cases h.each p hp with
      | live hl => exact hl.prefixLen
      | dead _ hres => cases hres
      | spent _ _ hres _ => cases hres

/-- The loop returns, and reads at the end of a rule exactly if a piece spells one with a node behind
it. -/
lemma diagnoseLoop_spec (h : Tracked w ss) (hw : w = [] ∨ Viable w) (hrest : rest ≠ [])
    (hfuel : 2 * rest.length + (if w = [] then 0 else 1) ≤ fuel) :
    diagnoseLoop fuel ss rest ≠ .hang ∧
      (diagnoseLoop fuel ss rest ≠ .ub ↔ Unfinished (w, rest)) := by
  induction fuel generalizing w ss rest with
  | zero =>
    have := List.length_pos_iff.mpr hrest
    omega
  | succ fuel ih =>
    obtain ⟨n, rest, rfl⟩ := List.exists_cons_of_ne_nil hrest
    rw [diagnoseLoop]
    by_cases hno : ∀ r ∈ grammar, ¬ Full r w
    · obtain ⟨ss', b, heq, h', hb, hzero⟩ := h.step (n := n) hno hw
      simp only [heq]
      cases b with
      | true =>
        have hv := hb.mp rfl
        rw [unfinished_take hv, if_pos rfl, and_iff_right hno]
        cases rest with
        | nil => exact ⟨nofun, iff_of_true nofun unfinished_nil⟩
        | cons m rest =>
          refine ih h' (.inr hv) (List.cons_ne_nil _ _) ?_
          rw [if_neg (by simp)]
          simp only [List.length_cons] at hfuel ⊢
          omega
      | false =>
        have hv : ¬ Viable (w ++ [n]) := fun hv => by cases hb.mpr hv
        rw [if_neg (by decide)]
        by_cases hnil : w = []
        · subst hnil
          rw [if_pos ((hzero rfl).mpr rfl)]
          exact ⟨nofun, iff_of_true nofun (unfinished_end hv)⟩
        · rw [if_neg fun hz => hnil ((hzero rfl).mp hz), unfinished_anew hnil hv, and_iff_right hno]
          refine ih tracked_fresh (.inl rfl) (List.cons_ne_nil _ _) ?_
          rw [if_neg hnil] at hfuel
          rw [if_pos rfl]
          omega
    · -- a rule is spelled, and its cursor is read
      simp only [not_forall, not_not] at hno
      obtain ⟨r, hr, hf⟩ := hno
      obtain ⟨s, hp⟩ := h.of_rule hr
      obtain ⟨ha, hpos⟩ := (h.each _ hp).end_of_full hr hf
      rw [matchNodes_end hp (matchNode_end ha hpos hr)]
      exact ⟨nofun, iff_of_false (not_not_intro rfl) fun hu => hu w n rest .refl r hr hf⟩

/-- **When a diagnosis stays inside the rules**: exactly if no piece of the stack spells a whole
right-hand side and has a node behind it. It always ends. -/
theorem diagnoseError_spec {stack : List PNode} (h : stack ≠ []) :
    diagnoseError stack ≠ .hang ∧ (diagnoseError stack ≠ .ub ↔ Unfinished ([], stack.reverse)) := by
  refine diagnoseLoop_spec tracked_fresh (.inl rfl) (by simpa using h) ?_
  rw [if_pos rfl, List.length_reverse]
  omega

end Loop

/-! ### Rejected stacks -/

section Reject

variable {tokens : List Token} {stack : List PNode} {x : Parsing} {fuel : Nat}

lemma parseLoop_reject (h : Fenced x) (hs : parseLoop fuel x = .reject stack) : stack ≠ [] := by
  induction fuel generalizing x with
  | zero => cases hs
  | succ fuel ih =>
    rw [parseLoop] at hs
    cases hstep : parseStep x with
    | next y =>
      rw [hstep] at hs
      exact ih (h.step hstep) hs
    | ub =>
      rw [hstep] at hs
      cases hs
    | stop last =>
      rw [hstep] at hs
      obtain ⟨hlast, hrest⟩ := parseStep_stop hstep
      have hstack : last = stack := by
        simp only at hs
        unfold parseEnd at hs
        split at hs
        · cases hs
        · exact Parsed.reject.inj hs
      rw [← hstack, ← hlast]
      rintro hnil
      rcases h.ahead with ⟨mid, e, hk, -⟩ | ⟨-, htop⟩
      · rw [hrest] at hk
        simp [kept] at hk
      · simp [top, hnil] at htop

/-- A diagnosis returns, and no cursor is read at the end of its rule. -/
def DiagnosedInside (stack : List PNode) : Prop :=
  diagnoseError stack ≠ .hang ∧ diagnoseError stack ≠ .ub

/-- **When the diagnosis of a rejected stack stays inside the rules**: exactly if no piece of the
stack spells a whole right-hand side and has a node behind it. -/
theorem diagnosedInside_iff (h : Framed tokens) (hs : parse tokens = .reject stack) :
    DiagnosedInside stack ↔ Unfinished ([], stack.reverse) := by
  obtain ⟨hends, hinside⟩ := diagnoseError_spec (parseLoop_reject h.fenced hs)
  rw [DiagnosedInside, and_iff_right hends, hinside]

/-- Two names in a row. -/
def namesTokens : List Token := [fbegToken, ⟨.name, 0, 1⟩, ⟨.name, 2, 3⟩, fendToken]

theorem names_inside : ∃ stack, parse namesTokens = .reject stack ∧
    (DiagnosedInside stack ↔ Unfinished ([], stack.reverse)) := by
  have hframed : Framed namesTokens := ⟨rfl, namesTokens.dropLast, fendToken, rfl, rfl, by decide⟩
  have hok : (parse namesTokens matches .reject _) = true := by decide +kernel
  cases h : parse namesTokens with
  | reject stack => exact ⟨stack, rfl, diagnosedInside_iff hframed h⟩
  | ok | ub | hang => rw [h] at hok; cases hok

/-- `a = b *`, where the assignment is a whole expression and waits for what is multiplied. -/
def operandTokens : List Token :=
  [fbegToken, ⟨.name, 0, 1⟩, ⟨.assn, 1, 2⟩, ⟨.name, 2, 3⟩, ⟨.mult, 3, 4⟩, fendToken]

theorem operand_outside : Framed operandTokens ∧
    ∃ stack, parse operandTokens = .reject stack ∧ ¬ DiagnosedInside stack := by
  refine ⟨⟨rfl, operandTokens.dropLast, fendToken, rfl, rfl, by decide⟩, ?_⟩
  have hub : (match parse operandTokens with
      | .reject stack => (diagnoseError stack matches .ub)
      | _ => false) = true := by decide +kernel
  cases h : parse operandTokens with
  | reject stack =>
    refine ⟨stack, rfl, fun hinside => hinside.2 ?_⟩
    rw [h] at hub
    cases hd : diagnoseError stack with
    | ub => rfl
    | hang | printed | silent => simp [hd] at hub
  | ok | ub | hang => rw [h] at hub; cases hub

end Reject

end Quaint.Diagnosis
