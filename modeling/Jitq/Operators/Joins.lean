import Jitq.Operators.Pipelined
import Jitq.Lib.HashTable

namespace Jitq.Operators

open Fuel Pull HashTable List

/-! # Hash joins — Join, AntiJoin, SemiJoin, AntiJoinPredicated

`JoinOperator` builds its table from the left input and probes it with the right one; the filtering joins
build a table from the right input and probe it with the left one.  All of them keep a table that is not empty for later opens.  `JoinOperator` also keeps the matches that it has
not returned yet: an `open` resets them only when it builds the table.  Keys are compared by `KeyTypeEquals`,
the `==` of their fields. -/

variable {τ₁ τ₂ ρ K VL VR : Type} [BEq K]

/-- `SplitTupleParameter<k>`: the first `k` fields are the key, the others are the value. -/
def splitTupleParameter {F : Type} (k : ℕ) (t : List F) : List F × List F := (t.take k, t.drop k)

/-! ### Join -/

/-- The members of `JoinOperator`; `leftMatches` is what is left between the two match iterators, and
    `last` the key and the value of the last matching right tuple. -/
structure JoinState (σ₁ σ₂ K VL VR : Type) where
  leftUpstream : σ₁
  rightUpstream : σ₂
  buildTable : List (K × List VL)
  leftMatches : List VL
  last : Option (K × VR)

section Join

variable (splitLeft : τ₁ → K × VL) (splitRight : τ₂ → K × VR) (tupleCat : K → VL → VR → ρ)
  (ul : Iter τ₁) (ur : Iter τ₂)

/-- One round of `JoinOperator::next`: with no match left, read and look up the next right tuple. -/
def joinRound (s : JoinState ul.State ur.State K VL VR) : Comp (JoinState ul.State ur.State K VL VR ⊕
      (Option ρ × JoinState ul.State ur.State K VL VR)) :=
  match s.leftMatches, s.last with
  | leftValue :: rest, some (key, value) =>
    pure (.inr (some (tupleCat key leftValue value), { s with leftMatches := rest }))
  | _, _ => ur.next s.rightUpstream >>= fun
    | (none, r) => pure (.inr (none, { s with rightUpstream := r }))
    | (some ret, r) => match s.buildTable.lookup (splitRight ret).1 with
      | none => pure (.inl { s with rightUpstream := r })
      | some ms => pure (.inl { s with
          rightUpstream := r, leftMatches := ms, last := some (splitRight ret) })

/-- `JoinOperator`. -/
def joinOperator : Iter ρ where
  State := JoinState ul.State ur.State K VL VR
  fresh := ⟨ul.fresh, ur.fresh, [], [], none⟩
  open_ s := do
    let l ← ul.open_ s.leftUpstream
    let r ← ur.open_ s.rightUpstream
    if s.buildTable ≠ [] then
      pure { s with leftUpstream := l, rightUpstream := r }
    else do
      let (table, l) ← ul.foldAll
        (fun t ret => some (emplace (· ++ ·) t ((splitLeft ret).1, [(splitLeft ret).2]))) s.buildTable l
      pure { s with leftUpstream := l, rightUpstream := r, buildTable := table, leftMatches := [] }
  next := iterate (joinRound splitRight tupleCat ul ur)
  close s := { s with
    leftUpstream := ul.close s.leftUpstream, rightUpstream := ur.close s.rightUpstream }

/-- The left values that a right tuple matches, in the order of the left input. -/
def joinMatches (ls : List τ₁) (r : τ₂) : List VL := valuesOf (splitRight r).1 (ls.map splitLeft)

/-- The results for one right tuple. -/
def joinRowsOf (ls : List τ₁) (r : τ₂) : List ρ :=
  (joinMatches splitLeft splitRight ls r).map fun v => tupleCat (splitRight r).1 v (splitRight r).2

/-- What a join returns: for each right tuple in order, its matches in the order of the left input. -/
def joinRows (ls : List τ₁) (rs : List τ₂) : List ρ := rs.flatMap (joinRowsOf splitLeft splitRight tupleCat ls)

variable {ul ur} {ls : List τ₁} {rs : List τ₂}

/-- The results for the matches that have not been returned yet. -/
def JoinState.pending {σ₁ σ₂ : Type} (s : JoinState σ₁ σ₂ K VL VR) : List ρ :=
  match s.last with
  | none => []
  | some (key, value) => s.leftMatches.map fun v => tupleCat key v value

/-- An open join over the left input `ls`: its table is built, and `rest` is what is left of the right
    input.  Matches are left only with their right tuple. -/
structure JoinAt (RL : Replay ul ls) (RR : Replay ur rs) (s : JoinState ul.State ur.State K VL VR)
    (rest : List τ₂) : Prop where
  left : ∃ us, RL.Busy s.leftUpstream us
  right : RR.Busy s.rightUpstream rest
  table : s.buildTable = groupTable (ls.map splitLeft)
  last : s.last = none → s.leftMatches = []

variable {splitLeft} {RL : Replay ul ls} {RR : Replay ur rs}
  {s : JoinState ul.State ur.State K VL VR} {rest : List τ₂}

omit [BEq K] in
theorem JoinState.pending_eq_nil {σ1 σ2 : Type} {s : JoinState σ1 σ2 K VL VR}
    (h : s.leftMatches = []) : s.pending tupleCat = [] := by
  cases hlast : s.last <;> simp [JoinState.pending, hlast, h]

/-- With a match left, `next` returns its result. -/
theorem JoinAt.emit (h : JoinAt splitLeft RL RR s rest) (hv : s.leftMatches ≠ []) :
    ∃ s' row, Returns (joinRound splitRight tupleCat ul ur s) (.inr (some row, s')) ∧
      JoinAt splitLeft RL RR s' rest ∧ s'.leftMatches = s.leftMatches.tail ∧
      s.pending tupleCat = row :: s'.pending tupleCat := by
  obtain ⟨v, vs, hv⟩ := exists_cons_of_ne_nil hv
  cases hlast : s.last with
  | none => exact absurd (h.last hlast) (by simp [hv])
  | some kv =>
    refine ⟨{ s with leftMatches := vs }, tupleCat kv.1 v kv.2, ?_,
      ⟨h.left, h.right, h.table, by simp [hlast]⟩, by simp [hv], ?_⟩
    · simp only [joinRound, hv, hlast]
      exact .pure _
    · simp [JoinState.pending, hlast, hv]

variable [PartialEquivBEq K]

/-- With no match left, a round reads a right tuple and takes its matches. -/
theorem JoinAt.fetch {r : τ₂} (h : JoinAt splitLeft RL RR s (r :: rest)) (hno : s.leftMatches = []) :
    ∃ s', Returns (joinRound splitRight tupleCat ul ur s) (.inl s') ∧ JoinAt splitLeft RL RR s' rest ∧
      s'.leftMatches = joinMatches splitLeft splitRight ls r ∧
      s'.pending tupleCat = joinRowsOf splitLeft splitRight tupleCat ls r := by
  obtain ⟨r', hnext, hr'⟩ := RR.next_cons h.right
  have hlook := lookup_groupTable (ls.map splitLeft) (splitRight r).1
  rw [← h.table, ← joinMatches] at hlook
  by_cases hm : joinMatches splitLeft splitRight ls r = []
  · rw [if_pos hm] at hlook
    refine ⟨{ s with rightUpstream := r' }, ?_, ⟨h.left, hr', h.table, h.last⟩, ?_, ?_⟩
    · simp only [joinRound, hno]
      refine hnext.bind ?_
      simp only [hlook]
      exact .pure _
    · rw [hm]
      exact hno
    · rw [joinRowsOf, hm]
      exact JoinState.pending_eq_nil tupleCat hno
  · rw [if_neg hm] at hlook
    refine ⟨{ s with rightUpstream := r', leftMatches := joinMatches splitLeft splitRight ls r,
                     last := some (splitRight r) }, ?_, ⟨h.left, hr', h.table, by simp⟩, rfl, rfl⟩
    simp only [joinRound, hno]
    refine hnext.bind ?_
    simp only [hlook]
    exact .pure _

/-- With no match left, `next` skips the right tuples without a match, and then returns the first
    result of a right tuple with one, or the end of the stream.  The induction is on the right tuples. -/
theorem JoinAt.next (h : JoinAt splitLeft RL RR s rest) (hno : s.leftMatches = []) :
    ((∀ x ∈ rest, joinMatches splitLeft splitRight ls x = []) ∧ ∃ s',
      Iterates (joinRound splitRight tupleCat ul ur) s (none, s') ∧
        JoinAt splitLeft RL RR s' [] ∧ s'.leftMatches = []) ∨
    ∃ sk r rest', rest = sk ++ r :: rest' ∧ (∀ x ∈ sk, joinMatches splitLeft splitRight ls x = []) ∧
      joinMatches splitLeft splitRight ls r ≠ [] ∧ ∃ s' row,
        Iterates (joinRound splitRight tupleCat ul ur) s (some row, s') ∧ JoinAt splitLeft RL RR s' rest' ∧
          s'.leftMatches = (joinMatches splitLeft splitRight ls r).tail ∧
            joinRowsOf splitLeft splitRight tupleCat ls r = row :: s'.pending tupleCat := by
  induction rest generalizing s with
  | nil =>
    obtain ⟨r', hnext, hr'⟩ := RR.next_nil h.right
    refine .inl ⟨nofun, { s with rightUpstream := r' }, .done ?_, ⟨h.left, hr', h.table, h.last⟩, hno⟩
    simp only [joinRound, hno]
    exact hnext.bind (.pure _)
  | cons x rest ih =>
    obtain ⟨s1, hround, hs1, hm, hp⟩ := h.fetch splitRight tupleCat hno
    by_cases hx : joinMatches splitLeft splitRight ls x = []
    · rcases ih hs1 (hm.trans hx) with ⟨hall, s', hit, hend⟩ | ⟨sk, r, rest', rfl, hsk, hr, s', row, hit, hrow⟩
      · exact .inl ⟨forall_mem_cons.mpr ⟨hx, hall⟩, s', .step hround hit, hend⟩
      · exact .inr ⟨x :: sk, r, rest', rfl, forall_mem_cons.mpr ⟨hx, hsk⟩, hr, s', row, .step hround hit, hrow⟩
    · obtain ⟨s', row, hround', hs', hm', hp'⟩ := hs1.emit splitRight tupleCat (hm ▸ hx)
      exact .inr ⟨[], x, rest, rfl, nofun, hx, s', row, .step hround (.done hround'), hs', hm ▸ hm', hp ▸ hp'⟩

omit [PartialEquivBEq K] in
theorem joinRows_eq_nil (hrest : ∀ x ∈ rest, joinMatches splitLeft splitRight ls x = []) :
    joinRows splitLeft splitRight tupleCat ls rest = [] := by
  rw [joinRows, flatMap_eq_nil_iff]
  intro x hx
  rw [joinRowsOf, hrest x hx, map_nil]

/-- Between two `next` calls, fewer matches are left than some right tuple has. -/
def Leftover (splitLeft : τ₁ → K × VL) (ls : List τ₁) (rs : List τ₂)
    (s : JoinState ul.State ur.State K VL VR) : Prop :=
  s.leftMatches = [] ∨ ∃ r ∈ rs, s.leftMatches.length < (joinMatches splitLeft splitRight ls r).length

/-- An open join returns the pending results and those for what is left of the right input. -/
def joinServing (RL : Replay ul ls) (RR : Replay ur rs) :
    Serving (joinOperator splitLeft splitRight tupleCat ul ur) :=
  .ofNext (fun s zs => ∃ rest, JoinAt splitLeft RL RR s rest ∧ rest ⊆ rs ∧ Leftover splitRight splitLeft ls rs s ∧
      zs = s.pending tupleCat ++ joinRows splitLeft splitRight tupleCat ls rest) (by
    rintro s _ ⟨rest, h, hsub, hleft, rfl⟩
    by_cases hno : s.leftMatches = []
    · rw [JoinState.pending_eq_nil tupleCat hno, nil_append]
      rcases h.next splitRight tupleCat hno with
        ⟨hall, s', hit, hs', hno'⟩ | ⟨sk, r, rest', rfl, hsk, hr, s', row, hit, hs', hm, hrow⟩
      · rw [joinRows_eq_nil splitRight tupleCat hall]
        refine ⟨s', hit.returns, [], hs', by simp, .inl hno', ?_⟩
        rw [JoinState.pending_eq_nil tupleCat hno']
        rfl
      · have hrows : joinRows splitLeft splitRight tupleCat ls (sk ++ r :: rest') =
            row :: (s'.pending tupleCat ++ joinRows splitLeft splitRight tupleCat ls rest') := by
          rw [joinRows, flatMap_append, flatMap_cons, ← joinRows, ← joinRows,
            joinRows_eq_nil splitRight tupleCat hsk, hrow]
          rfl
        have hrmem : r ∈ rs := hsub (by simp)
        have hpos := length_pos_of_ne_nil hr
        rw [hrows]
        refine ⟨s', hit.returns, rest', hs', fun x hx => hsub (by simp [hx]), .inr ⟨r, hrmem, ?_⟩, rfl⟩
        rw [hm, length_tail]
        omega
    · obtain ⟨s', row, hround, hs', hm, hrow⟩ := h.emit splitRight tupleCat hno
      obtain ⟨r, hr, hlt⟩ := hleft.resolve_left hno
      rw [hrow]
      refine ⟨s', (Iterates.done hround).returns, rest, hs', hsub, .inr ⟨r, hr, ?_⟩, rfl⟩
      rw [hm, length_tail]
      omega)

omit [PartialEquivBEq K] in
/-- `open` builds the table if it is empty; a table that is kept also keeps its pending matches. -/
theorem join_open (hl : RL.Idle s.leftUpstream) (hr : RR.Idle s.rightUpstream)
    (htable : s.buildTable = [] ∨ s.buildTable = groupTable (ls.map splitLeft))
    (hlast : s.last = none → s.leftMatches = []) :
    ∃ s', Returns ((joinOperator splitLeft splitRight tupleCat ul ur).open_ s) s' ∧
      JoinAt splitLeft RL RR s' rs ∧ s'.last = s.last ∧
      s'.leftMatches = if s.buildTable = [] then [] else s.leftMatches := by
  obtain ⟨l, hopenl, hl'⟩ := RL.opens hl
  obtain ⟨r, hopenr, hr'⟩ := RR.opens hr
  by_cases hempty : s.buildTable = []
  · obtain ⟨l', hdrain, hl''⟩ := RL.drains hl'
    have hfold := hdrain.foldAll_some
      (fun t ret => emplace (· ++ ·) t ((splitLeft ret).1, [(splitLeft ret).2])) []
    rw [foldl_emplace_eq_groupTable splitLeft] at hfold
    refine ⟨{ s with leftUpstream := l', rightUpstream := r,
                     buildTable := groupTable (ls.map splitLeft), leftMatches := [] },
      ?_, ⟨⟨[], hl''⟩, hr', rfl, fun _ => rfl⟩, rfl, by simp [hempty]⟩
    simp only [joinOperator, hempty, ne_eq, not_true_eq_false, if_false]
    exact hopenl.bind (hopenr.bind (hfold.bind (.pure _)))
  · refine ⟨{ s with leftUpstream := l, rightUpstream := r }, ?_,
      ⟨⟨ls, hl'⟩, hr', htable.resolve_left hempty, hlast⟩, rfl, by simp [hempty]⟩
    simp only [joinOperator, ne_eq, hempty, not_false_eq_true, if_true]
    exact hopenl.bind (hopenr.bind (.pure _))

/-- A join in which no right tuple has two matches replays. -/
def joinReplay (RL : Replay ul ls) (RR : Replay ur rs)
    (hone : ∀ r ∈ rs, (joinMatches splitLeft splitRight ls r).length ≤ 1) :
    Replay (joinOperator splitLeft splitRight tupleCat ul ur) (joinRows splitLeft splitRight tupleCat ls rs) where
  toServing := joinServing splitRight tupleCat RL RR
  Idle s := RL.Idle s.leftUpstream ∧ RR.Idle s.rightUpstream ∧
    (s.buildTable = [] ∨ s.buildTable = groupTable (ls.map splitLeft)) ∧ s.leftMatches = []
  fresh := ⟨RL.fresh, RR.fresh, .inl rfl, rfl⟩
  opens := by
    rintro s ⟨hl, hr, htable, hno⟩
    obtain ⟨s', hopen, hs', -, hm⟩ := join_open splitRight tupleCat hl hr htable fun _ => hno
    have hno' : s'.leftMatches = [] := by rw [hm, hno]; split <;> rfl
    refine ⟨s', hopen, rs, hs', fun _ h => h, .inl hno', ?_⟩
    rw [JoinState.pending_eq_nil tupleCat hno', nil_append]
  close := by
    rintro s zs ⟨rest, h, -, hleft, -⟩
    obtain ⟨us, hus⟩ := h.left
    refine ⟨RL.close hus, RR.close h.right, .inr h.table, ?_⟩
    rcases hleft with hno | ⟨r, hr, hlt⟩
    · exact hno
    · have hle := hone r hr
      exact length_eq_zero_iff.mp (by show s.leftMatches.length = 0; omega)

/-- A right tuple with two matches can be caught between them: some number of `next` calls leaves a
    match behind. -/
theorem JoinAt.exists_pending {s : JoinState ul.State ur.State K VL VR} {rest : List τ₂}
    (h : JoinAt splitLeft RL RR s rest) (hno : s.leftMatches = [])
    (htwo : ∃ r ∈ rest, 1 < (joinMatches splitLeft splitRight ls r).length) :
    ∃ j s' rest', Returns ((joinOperator splitLeft splitRight tupleCat ul ur).nexts j s) s' ∧
      JoinAt splitLeft RL RR s' rest' ∧ s'.leftMatches ≠ [] ∧
      ∃ r ∈ rest, s'.leftMatches.length < (joinMatches splitLeft splitRight ls r).length := by
  obtain ⟨r2, hr2, htwo⟩ := htwo
  rcases h.next splitRight tupleCat hno with ⟨hall, -⟩ | ⟨sk, r, rest', hrest, hsk, hr, s1, row, hit, hs1, hm, -⟩
  · simp [hall r2 hr2] at htwo
  have hlen := congrArg List.length hm
  have hpos := length_pos_of_ne_nil hr
  rw [length_tail] at hlen
  by_cases hmany : s1.leftMatches = []
  · -- `r` has one match, so the tuple with two is behind it
    have hr2 : r2 ∈ rest' := by
      rw [hmany, length_nil] at hlen
      rcases mem_append.mp (hrest ▸ hr2) with hmem | hmem
      · simp [hsk r2 hmem] at htwo
      · refine (mem_cons.mp hmem).resolve_left ?_
        rintro rfl
        omega
    obtain ⟨j, s', rest'', hnexts, hs', hne, r', hr', hlt⟩ := hs1.exists_pending hmany ⟨r2, hr2, htwo⟩
    exact ⟨j + 1, s', rest'', hit.returns.bind hnexts, hs', hne, r', by simp [hrest, hr'], hlt⟩
  · exact ⟨1, s1, rest', hit.returns.bind (.pure s1), hs1, hmany, r, by simp [hrest], by omega⟩
termination_by rest.length
decreasing_by
  simp [hrest]
  omega

theorem join_firstDrain (RL : Replay ul ls) (RR : Replay ur rs) :
    Returns (joinOperator splitLeft splitRight tupleCat ul ur).firstDrain
      (joinRows splitLeft splitRight tupleCat ls rs) := by
  obtain ⟨s1, hopen, hs1, -, hm⟩ := join_open splitRight tupleCat
    (s := ⟨ul.fresh, ur.fresh, [], [], none⟩) RL.fresh RR.fresh (.inl rfl) fun _ => rfl
  obtain ⟨s2, hdrain, -⟩ := (joinServing splitRight tupleCat RL RR).drains
    ⟨rs, hs1, fun _ h => h, .inl hm, rfl⟩
  rw [JoinState.pending_eq_nil tupleCat hm, nil_append] at hdrain
  exact hdrain.firstDrain hopen

/-- A join that replays has no right tuple with two matches: the second one would still be pending
    after a re-open. -/
theorem join_matches_le_one (h : Reopens (joinOperator splitLeft splitRight tupleCat ul ur)
      (joinRows splitLeft splitRight tupleCat ls rs)) (RL : Replay ul ls) (RR : Replay ur rs) :
    ∀ r ∈ rs, (joinMatches splitLeft splitRight ls r).length ≤ 1 := by
  by_contra hnot
  push Not at hnot
  obtain ⟨s1, hopen, hs1, -, hm⟩ := join_open splitRight tupleCat
    (s := ⟨ul.fresh, ur.fresh, [], [], none⟩) RL.fresh RR.fresh (.inl rfl) fun _ => rfl
  obtain ⟨j, s2, rest, hnexts, hs2, hpend, r, hr, hlt⟩ :=
    hs1.exists_pending splitRight tupleCat hm hnot
  obtain ⟨us, hus⟩ := hs2.left
  have htable : s2.buildTable ≠ [] := by
    rw [hs2.table]
    intro hnil
    have hls := groupTable_eq_nil hnil
    simp [joinMatches, hls, valuesOf] at hlt
  obtain ⟨s3, hreopen, hs3, hlast3, hm3⟩ := join_open splitRight tupleCat
    (s := { s2 with leftUpstream := ul.close s2.leftUpstream, rightUpstream := ur.close s2.rightUpstream })
    (RL.close hus) (RR.close hs2.right) (.inr hs2.table) hs2.last
  simp only [htable, if_false] at hm3
  obtain ⟨s4, hdrain, -⟩ := (joinServing splitRight tupleCat RL RR).drains
    ⟨rs, hs3, fun _ h => h, .inr ⟨r, hr, hm3 ▸ hlt⟩, rfl⟩
  have heq := (hdrain.reopenDrain hopen hnexts hreopen).unique (h.again j)
  have hlen := congrArg List.length heq
  rw [length_append] at hlen
  obtain ⟨s5, row, -, -, -, hrow⟩ := hs3.emit splitRight tupleCat (hm3 ▸ hpend)
  rw [hrow, length_cons] at hlen
  omega

end Join

/-! ### The joins that filter their left input -/

/-- The members of the filtering joins that are read. -/
structure FilterJoinState (σ₁ σ₂ E : Type) where
  leftUpstream : σ₁
  rightUpstream : σ₂
  buildTable : List E

section FilterJoin

variable {E : Type} (insert : List E → τ₂ → List E) (accepts : List E → τ₁ → Bool) (ul : Iter τ₁)
  (ur : Iter τ₂)

/-- The control flow of `AntiJoinOperator`, `SemiJoinOperator` and `AntiJoinPredicatedOperator`: `open` builds
    a table from the right input, and `next` returns the next left tuple that the table lets through. -/
def filterJoinOperator : Iter τ₁ where
  State := FilterJoinState ul.State ur.State E
  fresh := ⟨ul.fresh, ur.fresh, []⟩
  open_ s := do
    let l ← ul.open_ s.leftUpstream
    let r ← ur.open_ s.rightUpstream
    if s.buildTable ≠ [] then
      pure ⟨l, r, s.buildTable⟩
    else do
      let (table, r) ← ur.foldAll (fun t ret => some (insert t ret)) s.buildTable r
      pure ⟨l, r, table⟩
  next s :=
    ul.findNext (fun ret => if accepts s.buildTable ret then some ret else none) s.leftUpstream >>=
      fun (ret, l) => pure (ret, { s with leftUpstream := l })
  close s := { s with
    leftUpstream := ul.close s.leftUpstream, rightUpstream := ur.close s.rightUpstream }

variable {insert accepts ul ur} {ls : List τ₁} {rs : List τ₂}

/-- A filtering join replays the left tuples that the table of the right input lets through. -/
def filterJoinReplay (RL : Replay ul ls) (RR : Replay ur rs) :
    Replay (filterJoinOperator insert accepts ul ur) (ls.filter (accepts (rs.foldl insert []))) where
  toServing := .ofNext (fun s ys => ∃ rest, RL.Busy s.leftUpstream rest ∧
      (∃ us, RR.Busy s.rightUpstream us) ∧ s.buildTable = rs.foldl insert [] ∧
      ys = rest.filter (accepts (rs.foldl insert []))) (by
    rintro s _ ⟨rest, hl, hr, htable, rfl⟩
    have hrows : ∀ xs : List τ₁, xs.filter (accepts (rs.foldl insert [])) = xs.filterMap fun ret =>
        if accepts s.buildTable ret then some ret else none := fun xs => by
      rw [htable, ← filterMap_eq_filter]
      rfl
    obtain ⟨l', rest', hnext, hl', htail⟩ := RL.findNext
      (fun ret => if accepts s.buildTable ret then some ret else none) hl
    rw [← hrows, ← hrows] at htail
    rw [← hrows] at hnext
    exact ⟨{ s with leftUpstream := l' }, hnext.bind (.pure _), rest', hl', hr, htable, htail.symm⟩)
  Idle s := RL.Idle s.leftUpstream ∧ RR.Idle s.rightUpstream ∧ (s.buildTable = [] ∨ s.buildTable = rs.foldl insert [])
  fresh := ⟨RL.fresh, RR.fresh, .inl rfl⟩
  opens := by
    rintro s ⟨hl, hr, htable⟩
    obtain ⟨l, hopenl, hl'⟩ := RL.opens hl
    obtain ⟨r, hopenr, hr'⟩ := RR.opens hr
    by_cases hempty : s.buildTable = []
    · obtain ⟨r', hdrain, hr''⟩ := RR.drains hr'
      have hfold := hdrain.foldAll_some insert []
      refine ⟨⟨l, r', rs.foldl insert []⟩, ?_, ls, hl', ⟨[], hr''⟩, rfl, rfl⟩
      simp only [filterJoinOperator, hempty, ne_eq, not_true_eq_false, if_false]
      exact hopenl.bind (hopenr.bind (hfold.bind (.pure _)))
    · refine ⟨⟨l, r, s.buildTable⟩, ?_, ls, hl', ⟨rs, hr'⟩, htable.resolve_left hempty, rfl⟩
      simp only [filterJoinOperator, ne_eq, hempty, not_false_eq_true, if_true]
      exact hopenl.bind (hopenr.bind (.pure _))
  close := by
    rintro s ys ⟨rest, hl, ⟨us, hus⟩, htable, -⟩
    exact ⟨RL.close hl, RR.close hus, .inr htable⟩

end FilterJoin

/-! ### AntiJoin and SemiJoin -/

section KeySet

variable (keep : Bool) (keyLeft : τ₁ → K) (keyRight : τ₂ → K) (ul : Iter τ₁) (ur : Iter τ₂)

/-- The two joins on the set of the right keys: a left tuple is returned if its key's membership
    in the set is `keep`. -/
def keySetJoinOperator : Iter τ₁ :=
  filterJoinOperator (fun t ret => t.insert (keyRight ret)) (fun t ret => t.contains (keyLeft ret) = keep) ul ur

/-- `AntiJoinOperator`. -/
def antiJoinOperator : Iter τ₁ := keySetJoinOperator false keyLeft keyRight ul ur

/-- `SemiJoinOperator`. -/
def semiJoinOperator : Iter τ₁ := keySetJoinOperator true keyLeft keyRight ul ur

/-- What the two joins return: the left tuples whose key has (or has not) a partner on the right. -/
def keySetJoinRows (ls : List τ₁) (rs : List τ₂) : List τ₁ :=
  ls.filter fun l => (rs.map keyRight).contains (keyLeft l) = keep

variable {keep keyLeft keyRight ul ur} {ls : List τ₁} {rs : List τ₂} [PartialEquivBEq K]

theorem contains_insert (t : List K) (k k' : K) : (t.insert k').contains k = (k == k' || t.contains k) := by
  by_cases hmem : t.elem k'
  · -- `k'` is not inserted: a key that is equal to it is equal to the one it was found by
    have hk : k == k' → t.contains k := by
      intro heq
      obtain ⟨k'', hmem, heq'⟩ := contains_iff_exists_mem_beq.mp hmem
      exact contains_iff_exists_mem_beq.mpr ⟨k'', hmem, BEq.trans heq heq'⟩
    rw [List.insert, if_pos hmem]
    cases heq : k == k'
    · rfl
    · exact hk heq
  · rw [List.insert, if_neg hmem, contains_cons]

theorem contains_foldl_insert (t : List K) (k : K) : (rs.foldl (fun t r => t.insert (keyRight r)) t).contains k =
      (t.contains k || (rs.map keyRight).contains k) := by
  induction rs generalizing t with
  | nil => simp
  | cons r rs ih =>
    rw [foldl_cons, ih, contains_insert, map_cons, contains_cons, Bool.or_comm (k == keyRight r), Bool.or_assoc]

theorem keySetJoinRows_eq : keySetJoinRows keep keyLeft keyRight ls rs =
    ls.filter fun l => (rs.foldl (fun t r => t.insert (keyRight r)) []).contains (keyLeft l) = keep := by
  simp only [keySetJoinRows, contains_foldl_insert, contains_nil, Bool.false_or]

/-- The joins on the set of the right keys replay. -/
def keySetJoinReplay (RL : Replay ul ls) (RR : Replay ur rs) : Replay (keySetJoinOperator keep keyLeft keyRight ul ur)
      (keySetJoinRows keep keyLeft keyRight ls rs) := by
  rw [keySetJoinRows_eq]
  exact filterJoinReplay RL RR

end KeySet

/-! ### AntiJoinPredicated -/

section Predicated

variable (function : τ₁ → τ₂ → Bool) (splitLeft : τ₁ → K × VL) (splitRight : τ₂ → K × VR)
  (tupleCat : K → VR → τ₂) (ul : Iter τ₁) (ur : Iter τ₂)

/-- The loop of `AntiJoinPredicatedOperator::next` over the right values of a key: it stops when `res` is set.
    The right tuple is put together from the key of the *left* tuple and the stored value. -/
def someAccepted (ret : τ₁) : Bool → List VR → Bool
  | res, [] => res
  | res, v :: vs =>
    if res then res else someAccepted ret (res || function ret (tupleCat (splitLeft ret).1 v)) vs

/-- The left tuples that are returned: those without a partner, and those none of whose partners the function
    accepts. -/
def noneAccepted (buildTable : List (K × List VR)) (ret : τ₁) : Bool :=
  match buildTable.lookup (splitLeft ret).1 with
  | none => true
  | some vs => !someAccepted function splitLeft tupleCat ret false vs && !vs.isEmpty

/-- `AntiJoinPredicatedOperator`. -/
def antiJoinPredicatedOperator : Iter τ₁ :=
  filterJoinOperator (fun t ret => emplace (· ++ ·) t ((splitRight ret).1, [(splitRight ret).2]))
    (noneAccepted function splitLeft tupleCat) ul ur

/-- What the join returns: the left tuples for which the function accepts no right tuple with the same key,
    with the key of the left one. -/
def antiJoinPredicatedRows (ls : List τ₁) (rs : List τ₂) : List τ₁ :=
  ls.filter fun l => !rs.any fun r =>
    (splitRight r).1 == (splitLeft l).1 && function l (tupleCat (splitLeft l).1 (splitRight r).2)

variable {function splitLeft splitRight tupleCat ul ur} {ls : List τ₁} {rs : List τ₂}

omit [BEq K] in
theorem someAccepted_eq (ret : τ₁) (res : Bool) (vs : List VR) : someAccepted function splitLeft tupleCat ret res vs =
      (res || vs.any fun v => function ret (tupleCat (splitLeft ret).1 v)) := by
  induction vs generalizing res with
  | nil => simp [someAccepted]
  | cons v vs ih => cases res <;> simp [someAccepted, ih]

variable [PartialEquivBEq K]

theorem noneAccepted_groupTable (ret : τ₁) :
    noneAccepted function splitLeft tupleCat (groupTable (rs.map splitRight)) ret = !rs.any fun r =>
      (splitRight r).1 == (splitLeft ret).1 && function ret (tupleCat (splitLeft ret).1 (splitRight r).2) := by
  have hany : (rs.any fun r =>
      (splitRight r).1 == (splitLeft ret).1 && function ret (tupleCat (splitLeft ret).1 (splitRight r).2)) =
      (valuesOf (splitLeft ret).1 (rs.map splitRight)).any fun v =>
        function ret (tupleCat (splitLeft ret).1 v) := by
    simp only [valuesOf, any_map, any_filter, Function.comp_def]
  rw [hany, noneAccepted, lookup_groupTable]
  cases hvals : valuesOf (splitLeft ret).1 (rs.map splitRight) with
  | nil => rfl
  | cons v vs => simp [someAccepted_eq]

theorem antiJoinPredicatedRows_eq : antiJoinPredicatedRows function splitLeft splitRight tupleCat ls rs =
    ls.filter (noneAccepted function splitLeft tupleCat
      (rs.foldl (fun t ret => emplace (· ++ ·) t ((splitRight ret).1, [(splitRight ret).2])) [])) := by
  rw [foldl_emplace_eq_groupTable splitRight]
  exact filter_congr fun l _ => (noneAccepted_groupTable l).symm

def antiJoinPredicatedReplay (RL : Replay ul ls) (RR : Replay ur rs) :
    Replay (antiJoinPredicatedOperator function splitLeft splitRight tupleCat ul ur)
      (antiJoinPredicatedRows function splitLeft splitRight tupleCat ls rs) := by
  rw [antiJoinPredicatedRows_eq]
  exact filterJoinReplay RL RR

end Predicated

end Jitq.Operators
