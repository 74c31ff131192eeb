import Quaint.Munching

/-!
Lines and columns.

`lex_locate_linecol` walks back from a token, over the bytes of the tokens in front of it, and
counts every LF and every CR as a line of its own.
-/

namespace Quaint.Locating

open Lockstep Lex Munching

/-! ### The walk -/

def isBreak (c : UInt8) : Bool := c == 10 || c == 13

/-- The body of the inner loop, on the line and the column. -/
def countByte (p : Nat × Nat) (c : UInt8) : Nat × Nat :=
  if isBreak c then (p.1 + 1, p.2) else if p.1 = 1 then (p.1, p.2 + 1) else p

def tokenText (input : List UInt8) (t : Token) : List UInt8 := (input.drop t.beg).take (t.stop - t.beg)

/-- The two loops, over the tokens in front, the nearest first. Nothing where they would read what
is no part of a token: the inner loop reads a byte before it looks for the beginning. -/
def locateLoop (input : List UInt8) : List Token → Nat × Nat → Option (Nat × Nat)
  | [], _ => none
  | t :: before, p =>
    if t.tk = .fbeg then some p
    else if t.stop ≤ t.beg ∨ input.length < t.stop then none
    else locateLoop input before ((tokenText input t).reverse.foldl countByte p)

/-- `lex_locate_linecol`, of the token at an index -/
def lexLocateLinecol (input : List UInt8) (tokens : List Token) (i : Nat) : Option (Nat × Nat) :=
  locateLoop input (tokens.take i).reverse (1, 1)

/-! ### Lines -/

/-- The line breaks of a text; a CR with an LF behind it is one. -/
def breaks : List UInt8 → Nat
  | [] => 0
  | [c] => if isBreak c then 1 else 0
  | c :: d :: cs =>
    if c = 13 ∧ d = 10 then breaks cs + 1
    else if isBreak c then breaks (d :: cs) + 1 else breaks (d :: cs)

/-- The bytes behind the last line break of a text. -/
def column (text : List UInt8) : Nat := (text.reverse.takeWhile fun c => !isBreak c).length

/-- A CR with an LF behind it. -/
def crlf : List UInt8 := [13, 10]

/-- What stands in front of a token; the one at the end has the whole input in front of it. -/
def before (input : List UInt8) (t : Token) : List UInt8 :=
  if t.tk = .fend then input else input.take t.beg

section Breaks

variable {text : List UInt8} {c d : UInt8}

lemma infix_cons_cons (h : ¬(c = 13 ∧ d = 10)) : crlf <:+: c :: d :: text ↔ crlf <:+: d :: text := by
  refine ⟨fun hi => ?_, fun hi => hi.trans (List.suffix_cons _ _).isInfix⟩
  rcases List.infix_cons_iff.mp hi with hp | hi
  · obtain ⟨tail, heq⟩ := hp
    cases heq
    exact absurd ⟨rfl, rfl⟩ h
  · exact hi

/-- The bytes that are line breaks are as many as the line breaks, if no two of them make one. -/
lemma countP_eq_breaks (text : List UInt8) :
    breaks text ≤ text.countP isBreak ∧ (text.countP isBreak = breaks text ↔ ¬ crlf <:+: text) := by
  induction text using breaks.induct with
  | case1 => simp [breaks, crlf]
  | case2 c hbreak | case3 c hbreak =>
    have hno : ¬ crlf <:+: [c] := fun h => by simpa [crlf] using h.length_le
    simp [breaks, hno, hbreak]
  | case4 c d cs h ih =>
    obtain ⟨rfl, rfl⟩ := h
    have hin : crlf <:+: 13 :: 10 :: cs := (List.prefix_append crlf cs).isInfix
    have hc : (13 :: 10 :: cs).countP isBreak = cs.countP isBreak + 2 := by
      rw [List.countP_cons_of_pos (by decide), List.countP_cons_of_pos (by decide)]
    rw [breaks, if_pos ⟨rfl, rfl⟩, hc]
    exact ⟨by omega, iff_of_false (by omega) (not_not_intro hin)⟩
  | case5 c d cs h hbreak ih =>
    rw [breaks, if_neg h, if_pos hbreak, List.countP_cons_of_pos hbreak, infix_cons_cons h]
    exact ⟨Nat.succ_le_succ ih.1, by rw [← ih.2]; omega⟩
  | case6 c d cs h hbreak ih =>
    rw [breaks, if_neg h, if_neg hbreak, List.countP_cons_of_neg hbreak, infix_cons_cons h]
    exact ih

end Breaks

/-! ### The whole walk -/

section Walk

variable {input : List UInt8} {tokens ts us vs : List Token} {t : Token} {i p : Nat}

/-- Once a line break is met the column stays. -/
lemma foldl_countByte_later {l k : Nat} (hl : 1 < l) (cs : List UInt8) :
    cs.foldl countByte (l, k) = (l + cs.countP isBreak, k) := by
  induction cs generalizing l with
  | nil => rfl
  | cons c cs ih =>
    rw [List.foldl_cons, countByte]
    by_cases hc : isBreak c = true
    · rw [if_pos hc, ih (Nat.lt_succ_of_lt hl), List.countP_cons_of_pos hc]
      simp only [Prod.mk.injEq, and_true]
      omega
    · rw [if_neg hc, if_neg (Nat.ne_of_gt hl), ih hl, List.countP_cons_of_neg hc]

lemma foldl_countByte (k : Nat) (cs : List UInt8) : cs.foldl countByte (1, k) =
    (1 + cs.countP isBreak, k + (cs.takeWhile fun c => !isBreak c).length) := by
  induction cs generalizing k with
  | nil => rfl
  | cons c cs ih =>
    rw [List.foldl_cons, countByte]
    by_cases hc : isBreak c = true
    · rw [if_pos hc, foldl_countByte_later (Nat.lt_succ_self 1), List.countP_cons_of_pos hc,
        List.takeWhile_cons_of_neg (by simpa using hc)]
      simp only [List.length_nil, Nat.add_zero, Prod.mk.injEq, and_true]
      omega
    · rw [if_neg hc, if_pos rfl, ih, List.countP_cons_of_neg hc,
        List.takeWhile_cons_of_pos (by simpa using hc), List.length_cons]
      simp only [Prod.mk.injEq, true_and]
      omega

/-- The walk reads every byte in front, the last one first. -/
lemma locateLoop_covers (h : Covers input ts p) (q : Nat × Nat) :
    locateLoop input (ts.reverse ++ [fbegToken]) q = some ((input.take p).reverse.foldl countByte q) := by
  induction h generalizing q with
  | nil => rfl
  | snoc ts t h hlt hmunch ih =>
    have hstop : t.stop ≤ input.length := (Covers.snoc ts t h hlt hmunch).le
    have htk : t.tk ≠ .fbeg := by
      obtain ⟨f, hf⟩ := munch_class hmunch
      have hne : ∀ e ∈ tkFuncs, e.1 ≠ .fbeg := by decide
      exact hne _ hf
    have htake : input.take t.stop = input.take t.beg ++ tokenText input t := by
      rw [tokenText, ← List.take_add, Nat.add_sub_cancel' (Nat.le_of_lt hlt)]
    rw [List.reverse_append, List.reverse_singleton, List.singleton_append, List.cons_append, locateLoop,
      if_neg htk, if_neg (by omega), ih, htake, List.reverse_append, List.foldl_append]

/-- A line for every byte that is a break, and the column behind the last one. -/
lemma lexLocateLinecol_eq (h : Covers input us p) (hts : tokens.take i = fbegToken :: us) :
    lexLocateLinecol input tokens i =
      some (1 + (input.take p).countP isBreak, 1 + column (input.take p)) := by
  rw [lexLocateLinecol, hts, List.reverse_cons, locateLoop_covers h, foldl_countByte, List.countP_reverse,
    column]

/-- The tokens in front of one that the lexer returns, and where they end. -/
lemma lex_before (h : lex input = .ok tokens) (hi : 0 < i) (ht : tokens[i]? = some t) :
    ∃ us p, Covers input us p ∧ tokens.take i = fbegToken :: us ∧ before input t = input.take p := by
  obtain ⟨ts, rfl, hcov⟩ := lex_covers h
  obtain ⟨i, rfl⟩ := Nat.exists_eq_add_of_lt hi
  rw [Nat.zero_add] at *
  rw [List.cons_append, List.getElem?_cons_succ] at ht
  rw [List.cons_append, List.take_succ_cons]
  rcases Nat.lt_or_ge i ts.length with hlt | hge
  · rw [List.getElem?_append_left hlt] at ht
    have hsplit : ts = ts.take i ++ t :: ts.drop (i + 1) := by
      obtain ⟨hi, rfl⟩ := List.getElem?_eq_some_iff.mp ht
      simp
    rw [hsplit] at hcov
    have htk : t.tk ≠ .fend := by
      obtain ⟨f, hf⟩ := munch_class hcov.split.2.2
      have hne : ∀ e ∈ tkFuncs, e.1 ≠ .fend := by decide
      exact hne _ hf
    refine ⟨ts.take i, t.beg, hcov.split.1, ?_, by rw [before, if_neg htk]⟩
    rw [List.take_append_of_le_length (Nat.le_of_lt hlt)]
  · have hlen := (List.getElem?_eq_some_iff.mp ht).1
    rw [List.length_append, List.length_singleton] at hlen
    obtain rfl : i = ts.length := by omega
    rw [List.getElem?_concat_length, Option.some.injEq] at ht
    refine ⟨ts, input.length, hcov, by rw [List.take_left' rfl], ?_⟩
    rw [List.take_length, ← ht]
    rfl

/-- **When a token is located**: exactly if no CR in front of it has an LF behind it. The column is
right for every token. -/
theorem located_iff (h : lex input = .ok tokens) (hi : 0 < i) (ht : tokens[i]? = some t) :
    lexLocateLinecol input tokens i =
        some (1 + breaks (before input t), 1 + column (before input t)) ↔
      ¬ crlf <:+: before input t := by
  obtain ⟨us, p, hcov, htake, hbefore⟩ := lex_before h hi ht
  rw [lexLocateLinecol_eq hcov htake, hbefore, ← (countP_eq_breaks _).2]
  simp

end Walk

/-- A comment of a line, and a name behind it. -/
def lineInput : List UInt8 := [47, 47, 10, 97]

theorem located_line : lexLocateLinecol lineInput
    [fbegToken, ⟨.lcom, 0, 3⟩, ⟨.name, 3, 4⟩, fendToken] 2 = some (2, 1) :=
  (located_iff (t := ⟨.name, 3, 4⟩) (by decide +kernel : lex lineInput = .ok _) (by decide) rfl).mpr
    (by decide)

/-- A CR, an LF and a name, which stands on the second line. -/
def crlfInput : List UInt8 := [13, 10, 97]

theorem located_crlf : lex crlfInput = .ok [fbegToken, ⟨.wspc, 0, 2⟩, ⟨.name, 2, 3⟩, fendToken] ∧
    lexLocateLinecol crlfInput [fbegToken, ⟨.wspc, 0, 2⟩, ⟨.name, 2, 3⟩, fendToken] 2 = some (3, 1) ∧
    breaks (before crlfInput ⟨.name, 2, 3⟩) = 1 := by decide +kernel

end Quaint.Locating
