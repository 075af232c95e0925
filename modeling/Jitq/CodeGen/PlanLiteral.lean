import Jitq.Lib.Fuel
import Mathlib.Data.List.Infix
import Mathlib.Data.List.Range

namespace Jitq.CodeGen

open Fuel List

/-!
# Plans as string literals

The generated code contains compiled plans as raw string literals `R"delimiter(plan)delimiter"`.  The generator
appends underscores to the delimiter as long as it finds it in the plan, and goes on searching at the place where it
has found the last one.

* `escapeSequence` — the search, which always ends;
* `escapeSequence_returns` — it returns the shortest delimiter that is not in the plan;
* `readRawString` — how a raw string literal is read: its delimiter has at most 16 characters;
* `planLiteral_denotes_iff` — the literal denotes the plan exactly if the plan does not contain the delimiter with
  eight underscores.
-/

/-! ### The search -/

/-- `std::string::find(pattern, pos)`, `none` for `npos`. -/
def find (text pattern : List Char) (pos : ℕ) : Option ℕ :=
  (range (text.length + 1)).find? fun i => decide (pos ≤ i) && pattern.isPrefixOf (text.drop i)

variable {text pattern : List Char}

theorem find_eq_some_iff {pos p : ℕ} : find text pattern pos = some p ↔
    pos ≤ p ∧ pattern <+: text.drop p ∧ p ≤ text.length ∧ ∀ i < p, pos ≤ i → ¬ pattern <+: text.drop i := by
  unfold find
  rw [find?_range_eq_some]
  simp only [Bool.and_eq_true, decide_eq_true_iff, List.isPrefixOf_iff_prefix, mem_range, Bool.not_eq_true',
    Bool.and_eq_false_imp, Nat.lt_succ_iff, and_assoc, and_congr_right_iff]
  intro _ _ _
  refine forall₂_congr fun i _ => ?_
  rw [← Bool.not_eq_true, List.isPrefixOf_iff_prefix]

theorem find_eq_none_iff {pos : ℕ} : find text pattern pos = none ↔
    ∀ i ≤ text.length, pos ≤ i → ¬ pattern <+: text.drop i := by
  unfold find
  rw [find?_range_eq_none]
  simp only [Bool.not_eq_true', Bool.and_eq_false_imp, decide_eq_true_iff, Nat.lt_succ_iff]
  refine forall₂_congr fun i _ => ?_
  rw [← Bool.not_eq_true, List.isPrefixOf_iff_prefix]

/-- One round of the search, from the delimiter and the position of the last hit. -/
def escapeStep (plan : List Char) (s : List Char × ℕ) : Comp (List Char × ℕ ⊕ List Char) :=
  match find plan s.1 s.2 with
  | some lastPos => if lastPos < plan.length then pure (.inl (s.1 ++ ['_'], lastPos)) else pure (.inr s.1)
  | none => pure (.inr s.1)

/-- The delimiter for a plan. -/
def escapeSequence (plan : List Char) : Comp (List Char) :=
  iterate (escapeStep plan) (['J', 'I', 'T', 'Q', 'P', 'L', 'A', 'N'], 0)

/-- The format `R"%1%(%2%)%1%"`. -/
def planLiteral (escapeSequence plan : List Char) : List Char :=
  ['R', '"'] ++ escapeSequence ++ ['('] ++ plan ++ [')'] ++ escapeSequence ++ ['"']

/-! ### Raw string literals -/

/-- The characters of a delimiter: the basic source characters without blanks, parentheses and the backslash. -/
def isDChar (c : Char) : Bool := c.isAlphanum || c ∈ "_\x7b\x7d[]#<>%:;.?*+-/^&|~!=,\"'".toList

/-- Reads a raw string literal at the beginning of a text: its value, which ends at the first closing parenthesis with the
    delimiter and a quote behind it, and what comes after the literal. -/
def readRawString : List Char → Option (List Char × List Char)
  | 'R' :: '"' :: text =>
    let delim := text.takeWhile (· ≠ '(')
    match text.dropWhile (· ≠ '(') with
    | '(' :: rest =>
      if delim.length ≤ 16 ∧ delim.all isDChar then
        let closing := [')'] ++ delim ++ ['"']
        (find rest closing 0).map fun pos => (rest.take pos, rest.drop (pos + closing.length))
      else none
    | _ => none
  | _ => none

/-! ### What the search returns -/

/-- `JITQPLAN` with some underscores, the delimiters that are tried. -/
def delimiter (underscores : ℕ) : List Char := ['J', 'I', 'T', 'Q', 'P', 'L', 'A', 'N'] ++ replicate underscores '_'

theorem delimiter_succ (k : ℕ) : delimiter (k + 1) = delimiter k ++ ['_'] := by
  rw [delimiter, delimiter, replicate_succ', append_assoc]

theorem length_delimiter (k : ℕ) : (delimiter k).length = 8 + k := by
  rw [delimiter, length_append, length_replicate]
  rfl

/-- A longer delimiter is only where the shorter ones are. -/
theorem delimiter_le {j k : ℕ} (h : j ≤ k) : delimiter j <+: delimiter k := by
  refine ⟨replicate (k - j) '_', ?_⟩
  rw [delimiter, delimiter, append_assoc, replicate_append_replicate, Nat.add_sub_cancel' h]

theorem exists_drop_of_infix (h : pattern <:+: text) : ∃ i ≤ text.length, pattern <+: text.drop i := by
  obtain ⟨before, after, rfl⟩ := h
  refine ⟨before.length, by simp, after, ?_⟩
  rw [append_assoc, drop_left]

theorem infix_of_drop {i : ℕ} (h : pattern <+: text.drop i) : pattern <:+: text :=
  h.isInfix.trans (List.drop_suffix i text).isInfix

theorem escapeStep_of_none {plan escape : List Char} {pos : ℕ} (h : find plan escape pos = none) :
    escapeStep plan (escape, pos) = pure (.inr escape) := by
  simp only [escapeStep, h]

variable {plan : List Char}

/-- A delimiter has characters, so a hit is before the end of the plan. -/
theorem escapeStep_of_some {k pos lastPos : ℕ} (h : find plan (delimiter k) pos = some lastPos) :
    escapeStep plan (delimiter k, pos) = pure (.inl (delimiter (k + 1), lastPos)) ∧ 8 + k ≤ plan.length := by
  have hlen := (find_eq_some_iff.mp h).2.1.length_le
  rw [length_delimiter, length_drop] at hlen
  refine ⟨?_, by omega⟩
  have hlt : lastPos < plan.length := by omega
  simp only [escapeStep, h, hlt, if_true, delimiter_succ]

/-- The rounds from the `k`-th on.  No delimiter is missed: the next one begins with this one, and this one is not
    before the last hit.  The search ends as a delimiter that is found fits into the plan. -/
theorem escapeStep_iterates (plan : List Char) (k pos : ℕ) (hbefore : ∀ i < pos, ¬ delimiter k <+: plan.drop i)
    (hshorter : ∀ j < k, delimiter j <:+: plan) :
    ∃ m, Iterates (escapeStep plan) (delimiter k, pos) (delimiter m) ∧ ¬ delimiter m <:+: plan ∧
      ∀ j < m, delimiter j <:+: plan := by
  cases hfind : find plan (delimiter k) pos with
  | none =>
    refine ⟨k, Iterates.done ?_, ?_, hshorter⟩
    · rw [escapeStep_of_none hfind]
      exact Returns.pure _
    · intro hinfix
      obtain ⟨i, hi, hprefixed⟩ := exists_drop_of_infix hinfix
      by_cases hpos : pos ≤ i
      · exact find_eq_none_iff.mp hfind i hi hpos hprefixed
      · exact hbefore i (by omega) hprefixed
  | some lastPos =>
    obtain ⟨_, hhit, _, hfirst⟩ := find_eq_some_iff.mp hfind
    obtain ⟨hstep, hfits⟩ := escapeStep_of_some hfind
    have hbefore' : ∀ i < lastPos, ¬ delimiter (k + 1) <+: plan.drop i := by
      intro i hi hnext
      have hthis : delimiter k <+: plan.drop i := (delimiter_le (Nat.le_succ k)).trans hnext
      by_cases hpos : pos ≤ i
      · exact hfirst i hi hpos hthis
      · exact hbefore i (by omega) hthis
    have hshorter' : ∀ j < k + 1, delimiter j <:+: plan := by
      intro j hj
      exact (delimiter_le (by omega : j ≤ k)).isInfix.trans (infix_of_drop hhit)
    obtain ⟨m, hrest, hm⟩ := escapeStep_iterates plan (k + 1) lastPos hbefore' hshorter'
    refine ⟨m, Iterates.step ?_ hrest, hm⟩
    rw [hstep]
    exact Returns.pure _
termination_by plan.length - k

/-- The search returns the shortest delimiter that is not in the plan. -/
theorem escapeSequence_returns (plan : List Char) :
    ∃ m, Returns (escapeSequence plan) (delimiter m) ∧ ¬ delimiter m <:+: plan ∧ ∀ j < m, delimiter j <:+: plan := by
  obtain ⟨m, hrounds, hm⟩ := escapeStep_iterates plan 0 0 (by omega) (by omega)
  exact ⟨m, hrounds.returns, hm⟩

/-! ### What the literal denotes -/

theorem notMem_delimiter {c : Char} (hc : c ∉ ['J', 'I', 'T', 'Q', 'P', 'L', 'A', 'N', '_']) (k : ℕ) :
    c ∉ delimiter k := by
  intro hmem
  rw [delimiter, mem_append, mem_replicate] at hmem
  apply hc
  rcases hmem with hstem | ⟨_, rfl⟩
  · simp only [mem_cons, not_mem_nil, or_false] at hstem ⊢
    tauto
  · simp

theorem all_isDChar_delimiter (k : ℕ) : (delimiter k).all isDChar = true := by
  rw [delimiter, all_append, all_replicate]
  have hstem : (['J', 'I', 'T', 'Q', 'P', 'L', 'A', 'N'] : List Char).all isDChar = true := by decide
  have hunderscore : isDChar '_' = true := by decide
  simp [hstem, hunderscore]

/-- The delimiter of a literal is read back up to the parenthesis. -/
theorem span_delimiter (k : ℕ) (rest : List Char) : (delimiter k ++ '(' :: rest).takeWhile (· ≠ '(') = delimiter k ∧
      (delimiter k ++ '(' :: rest).dropWhile (· ≠ '(') = '(' :: rest := by
  have hno : ∀ c ∈ delimiter k, decide (c ≠ '(') = true := by
    intro c hc
    rw [decide_eq_true_iff]
    rintro rfl
    exact notMem_delimiter (by decide) k hc
  rw [takeWhile_append_of_pos hno, dropWhile_append_of_pos hno]
  simp

/-- If a delimiter and a quote begin in front of a parenthesis, then the delimiter is complete in front of it. -/
theorem delimiter_before_paren {k : ℕ} {before after : List Char}
    (h : delimiter k ++ ['"'] <+: before ++ ')' :: after) : delimiter k <+: before := by
  obtain ⟨rest, hrest⟩ := h
  rw [append_assoc, append_eq_append_iff] at hrest
  rcases hrest with ⟨behind, hbehind, _⟩ | ⟨overlap, hoverlap, hparen⟩
  · exact ⟨behind, hbehind.symm⟩
  · -- the delimiter would reach over the parenthesis, which it does not contain
    cases overlap with
    | nil =>
      rw [hoverlap, append_nil]
    | cons c overlap =>
      obtain rfl : ')' = c := (List.cons.inj hparen).1
      have hmem : ')' ∈ delimiter k := by
        rw [hoverlap]
        exact mem_append_right _ mem_cons_self
      exact absurd hmem (notMem_delimiter (by decide) k)

/-- The closing sequence is not found before the end of the plan, as its delimiter would be in the plan. -/
theorem find_closing {k : ℕ} (hnot : ¬ delimiter k <:+: plan) :
    find (plan ++ ([')'] ++ delimiter k ++ ['"'])) ([')'] ++ delimiter k ++ ['"']) 0 = some plan.length := by
  rw [find_eq_some_iff]
  refine ⟨by omega, by rw [drop_left], by simp, ?_⟩
  intro i hi _ hearlier
  rw [drop_append_of_le_length hi.le] at hearlier
  apply hnot
  -- the earlier sequence begins with a parenthesis in the plan
  cases hrest : plan.drop i with
  | nil =>
    have hlength := congrArg List.length hrest
    rw [length_drop, length_nil] at hlength
    omega
  | cons c rest =>
    rw [hrest] at hearlier
    have htail : delimiter k ++ ['"'] <+: rest ++ ')' :: (delimiter k ++ ['"']) := (List.cons_prefix_cons.mp hearlier).2
    have hsuffix : rest <:+ plan := (List.suffix_cons c rest).trans (hrest ▸ List.drop_suffix i plan)
    exact (delimiter_before_paren htail).isInfix.trans hsuffix.isInfix

/-- A literal with one of the delimiters is read if the delimiter has at most 16 characters. -/
theorem readRawString_planLiteral {k : ℕ} (hnot : ¬ delimiter k <:+: plan) :
    readRawString (planLiteral (delimiter k) plan) = if k ≤ 8 then some (plan, []) else none := by
  have hliteral : planLiteral (delimiter k) plan =
      'R' :: '"' :: (delimiter k ++ '(' :: (plan ++ ([')'] ++ delimiter k ++ ['"']))) := by
    simp [planLiteral]
  obtain ⟨htake, hdrop⟩ := span_delimiter k (plan ++ ([')'] ++ delimiter k ++ ['"']))
  have hvalid : ((delimiter k).length ≤ 16 ∧ (delimiter k).all isDChar = true) ↔ k ≤ 8 := by
    rw [length_delimiter]
    constructor
    · intro h
      omega
    · intro h
      exact ⟨by omega, all_isDChar_delimiter k⟩
  rw [hliteral]
  simp only [readRawString, htake, hdrop, find_closing hnot, hvalid, Option.map_some]
  simp

/-- The literal for a plan exists and denotes the plan exactly if the plan does not contain the delimiter with eight
    underscores: nine underscores are one character too many. -/
theorem planLiteral_denotes_iff (plan : List Char) :
    (∃ escape, Returns (escapeSequence plan) escape ∧ readRawString (planLiteral escape plan) = some (plan, [])) ↔
      ¬ "JITQPLAN________".toList <:+: plan := by
  obtain ⟨m, hrets, hnot, hshorter⟩ := escapeSequence_returns plan
  show _ ↔ ¬ delimiter 8 <:+: plan
  constructor
  · rintro ⟨escape, hescape, hread⟩ hinfix
    rw [hescape.unique hrets, readRawString_planLiteral hnot] at hread
    have hm : m ≤ 8 := by
      by_contra hgt
      rw [if_neg hgt] at hread
      cases hread
    exact hnot ((delimiter_le hm).isInfix.trans hinfix)
  · intro hfree
    have hm : m ≤ 8 := by
      by_contra hgt
      exact hfree (hshorter 8 (by omega))
    exact ⟨delimiter m, hrets, by rw [readRawString_planLiteral hnot, if_pos hm]⟩

/-- A plan that contains the delimiter with eight underscores gets nine of them, and the literal is not valid. -/
theorem planLiteral_too_long :
    Returns (escapeSequence "JITQPLAN________".toList) "JITQPLAN_________".toList ∧
      readRawString (planLiteral "JITQPLAN_________".toList "JITQPLAN________".toList) = none := by
  show Returns (escapeSequence (delimiter 8)) (delimiter 9) ∧
    readRawString (planLiteral (delimiter 9) (delimiter 8)) = none
  have hnine : ¬ delimiter 9 <:+: delimiter 8 := by
    intro hinfix
    have hlen := hinfix.length_le
    rw [length_delimiter, length_delimiter] at hlen
    omega
  obtain ⟨m, hrets, hnot, hshorter⟩ := escapeSequence_returns (delimiter 8)
  have hgt : 8 < m := by
    by_contra hle
    exact hnot (delimiter_le (by omega)).isInfix
  have hle : m ≤ 9 := by
    by_contra hgt
    exact hnine (hshorter 9 (by omega))
  obtain rfl : m = 9 := by omega
  exact ⟨hrets, by rw [readRawString_planLiteral hnine, if_neg (by omega)]⟩

end Jitq.CodeGen
