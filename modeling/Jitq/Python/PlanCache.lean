import Jitq.Lib.Firsts
import Jitq.Python.Rdd

namespace Jitq.Python

open Text Firsts List

/-! # The plan cache — what the hash of an RDD determines

The key of the cache is built from the classes and the `self_hash` values of the operators, each object
once, in post-order.  It shows neither which object an operator takes its input from nor what
`self_hash` leaves out: the number of keys of a join, the predicate of an anti-join, the values a
function closes over.  Between queries that agree in those (`Distinguishable`) the key determines the
plan:

* `visitOrder_eq_firsts` — visiting keeps the first occurrences of the unfolded graph;
* `alike_of_labels` — the post-order of an unfolded graph determines its shape;
* `finalDict_eq_of_alike` — graphs of one shape and one sharing have one plan. -/

namespace Rdd

/-! ### The unfolded graph -/

/-- The operators in post-order, a shared one at each of its occurrences. -/
def nodes : Rdd → List Rdd
  | source id op => [source id op]
  | unary id op parent => parent.nodes ++ [unary id op parent]
  | binary id op left right => left.nodes ++ right.nodes ++ [binary id op left right]

theorem nodes_eq (r : Rdd) : r.nodes = r.parents.flatMap nodes ++ [r] := by
  cases r <;> simp [nodes, parents]

theorem self_mem_nodes (r : Rdd) : r ∈ r.nodes := by
  rw [nodes_eq]
  exact mem_append_right _ (mem_singleton_self r)

theorem parents_induction {P : Rdd → Prop} (step : ∀ r, (∀ p ∈ r.parents, P p) → P r) (r : Rdd) : P r := by
  induction r with
  | source id op => exact step _ fun p hp => absurd hp not_mem_nil
  | unary id op parent ih => exact step _ fun p hp => mem_singleton.mp hp ▸ ih
  | binary id op left right ihl ihr =>
    refine step _ fun p hp => ?_
    rcases mem_cons.mp hp with rfl | hp
    · exact ihl
    · exact mem_singleton.mp hp ▸ ihr

variable {x r p root : Rdd} {xs : List Rdd}

theorem mem_nodes : x ∈ r.nodes ↔ x = r ∨ ∃ p ∈ r.parents, x ∈ p.nodes := by
  rw [nodes_eq, mem_append, mem_flatMap, mem_singleton, or_comm]

theorem nodes_subset (h : x ∈ r.nodes) : x.nodes ⊆ r.nodes := by
  induction r using parents_induction with
  | step r ih =>
    rcases mem_nodes.mp h with rfl | ⟨p, hp, hx⟩
    · exact fun _ hy => hy
    · exact fun y hy => mem_nodes.mpr (.inr ⟨p, hp, ih p hp hx hy⟩)

theorem length_nodes_parent (hp : p ∈ r.parents) : p.nodes.length < r.nodes.length := by
  rw [r.nodes_eq, length_append, length_flatMap, length_singleton]
  exact Nat.lt_succ_of_le (single_le_sum (fun _ _ => Nat.zero_le _) _ (mem_map_of_mem hp))

theorem length_nodes_le (h : x ∈ r.nodes) : x.nodes.length ≤ r.nodes.length := by
  induction r using parents_induction with
  | step r ih =>
    rcases mem_nodes.mp h with rfl | ⟨p, hp, hx⟩
    · exact le_rfl
    · exact (ih p hp hx).trans (length_nodes_parent hp).le

/-- One object has one class, one set of fields and one list of parents. -/
def Consistent (r : Rdd) : Prop := ∀ x ∈ r.nodes, ∀ y ∈ r.nodes, x.id = y.id → x = y

/-- An object is not among its own ancestors. -/
theorem Consistent.id_ne (h : root.Consistent) (hr : r ∈ root.nodes) (hp : p ∈ r.parents) (hx : x ∈ p.nodes) :
    x.id ≠ r.id := by
  intro hid
  have hxroot : x ∈ root.nodes := nodes_subset hr (mem_nodes.mpr (.inr ⟨p, hp, hx⟩))
  have hxr : x = r := h x hxroot r hr hid
  have hlt := (length_nodes_le hx).trans_lt (length_nodes_parent hp)
  rw [hxr] at hlt
  exact lt_irrefl _ hlt

/-! ### The visitor -/

theorem visit_eq (r : Rdd) (s : List ℕ × List Rdd) :
    r.visit s = if r.id ∈ s.1 then s else
      let state := r.parents.foldl (fun state p => p.visit state) (r.id :: s.1, s.2)
      (state.1, state.2 ++ [r]) := by
  cases r <;> rfl

/-- What holds between visits: the operators called for are parts of `root`, all their inputs have been
    called for, and, among the operators of `xs`, exactly they are in the visited set. -/
structure VisitState (root : Rdd) (xs : List Rdd) (s : List ℕ × List Rdd) : Prop where
  subset : ∀ x ∈ s.2, x ∈ root.nodes
  closed : ∀ x ∈ s.2, ∀ y ∈ x.nodes, y.id ∈ s.2.map id
  visited : ∀ x ∈ xs, x.id ∈ s.1 ↔ x.id ∈ s.2.map id

theorem VisitState.mono {ys : List Rdd} {s : List ℕ × List Rdd} (h : VisitState root xs s) (hsub : ys ⊆ xs) :
    VisitState root ys s :=
  ⟨h.subset, h.closed, fun x hx => h.visited x (hsub hx)⟩

/-- The effect of visits on the operators `xs`. -/
structure Visits (xs : List Rdd) (s s' : List ℕ × List Rdd) : Prop where
  called : s'.2 = xs.foldl (addNew id) s.2
  visited : ∀ i, i ∈ s'.1 ↔ i ∈ s.1 ∨ i ∈ xs.map id

theorem VisitState.after {s s' : List ℕ × List Rdd} (h : VisitState root xs s) (hp : p ∈ root.nodes)
    (hv : Visits p.nodes s s') : VisitState root xs s' := by
  refine ⟨fun x hx => ?_, fun x hx y hy => ?_, fun x hx => ?_⟩
  · rw [hv.called] at hx
    rcases mem_foldl_addNew hx with hx | hx
    · exact h.subset x hx
    · exact nodes_subset hp hx
  · rw [hv.called] at hx ⊢
    refine mem_map_foldl_addNew.mpr ?_
    rcases mem_foldl_addNew hx with hx | hx
    · exact .inl (h.closed x hx y hy)
    · exact .inr (mem_map_of_mem (nodes_subset hx hy))
  · rw [hv.visited, hv.called, mem_map_foldl_addNew, h.visited x hx]

/-- Visiting some operators one after the other, if each visit is as expected. -/
theorem foldl_visit (ps : List Rdd) (hps : ∀ p ∈ ps, p ∈ root.nodes) (hxs : ∀ p ∈ ps, p.nodes ⊆ xs)
    (hvisit : ∀ p ∈ ps, ∀ s, VisitState root p.nodes s → Visits p.nodes s (p.visit s)) :
    ∀ s, VisitState root xs s → Visits (ps.flatMap nodes) s (ps.foldl (fun state p => p.visit state) s) := by
  induction ps with
  | nil => exact fun s _ => ⟨rfl, fun i => by simp⟩
  | cons p ps ih =>
    intro s hs
    have hmem := mem_cons_self (a := p) (l := ps)
    have hfirst := hvisit p hmem s (hs.mono (hxs p hmem))
    have hrest := ih (fun q hq => hps q (mem_cons_of_mem _ hq))
      (fun q hq => hxs q (mem_cons_of_mem _ hq))
      (fun q hq => hvisit q (mem_cons_of_mem _ hq)) (p.visit s) (hs.after (hps p hmem) hfirst)
    refine ⟨?_, fun i => ?_⟩
    · rw [flatMap_cons, foldl_append, ← hfirst.called]
      exact hrest.called
    · rw [foldl_cons, hrest.visited, hfirst.visited, flatMap_cons, map_append, mem_append, or_assoc]

theorem visits_visit (hroot : root.Consistent) (r : Rdd) (hr : r ∈ root.nodes) :
    ∀ s, VisitState root r.nodes s → Visits r.nodes s (r.visit s) := by
  induction r using parents_induction with
  | step r ih =>
    intro s hs
    rw [visit_eq]
    split
    · -- the same object has been called for, and its inputs before it
      next hvisited =>
      obtain ⟨y, hy, hid⟩ := mem_map.mp ((hs.visited r r.self_mem_nodes).mp hvisited)
      obtain rfl : y = r := hroot y (hs.subset y hy) r hr hid
      have hall : ∀ x ∈ y.nodes, x.id ∈ s.2.map id := hs.closed y hy
      refine ⟨(foldl_addNew_of_mem hall).symm, fun i => ⟨.inl, ?_⟩⟩
      rintro (hi | hi)
      · exact hi
      · obtain ⟨x, hx, rfl⟩ := mem_map.mp hi
        exact (hs.visited x hx).mpr (hall x hx)
    · next hvisited =>
      have hparent : ∀ p ∈ r.parents, p ∈ root.nodes := fun p hp =>
        nodes_subset hr (mem_nodes.mpr (.inr ⟨p, hp, p.self_mem_nodes⟩))
      -- the operator is in the visited set before its inputs, none of which is the operator itself
      have hstart : VisitState root (r.parents.flatMap nodes) (r.id :: s.1, s.2) := by
        refine ⟨hs.subset, hs.closed, fun x hx => ?_⟩
        obtain ⟨p, hp, hxp⟩ := mem_flatMap.mp hx
        have hne := hroot.id_ne hr hp hxp
        rw [mem_cons, ← hs.visited x (mem_nodes.mpr (.inr ⟨p, hp, hxp⟩))]
        exact ⟨fun hmem => hmem.resolve_left hne, .inr⟩
      have hparents := foldl_visit r.parents hparent
        (fun p hp x hx => mem_flatMap.mpr ⟨p, hp, hx⟩)
        (fun p hp => ih p hp (hparent p hp)) _ hstart
      have hnew : r.id ∉ ((r.parents.flatMap nodes).foldl (addNew id) s.2).map id := by
        rw [mem_map_foldl_addNew, ← hs.visited r r.self_mem_nodes]
        rintro (hmem | hmem)
        · exact hvisited hmem
        · obtain ⟨x, hx, hid⟩ := mem_map.mp hmem
          obtain ⟨p, hp, hxp⟩ := mem_flatMap.mp hx
          exact hroot.id_ne hr hp hxp hid
      refine ⟨?_, fun i => ?_⟩
      · show _ ++ [r] = _
        rw [hparents.called, r.nodes_eq, foldl_append, foldl_cons, foldl_nil, addNew,
          if_neg hnew]
      · show i ∈ _ ↔ _
        rw [hparents.visited, r.nodes_eq, map_append, mem_append, mem_cons,
          map_singleton, mem_singleton]
        tauto

/-- The visitor calls its function for the first occurrences in the unfolded graph. -/
theorem visitOrder_eq_firsts (h : r.Consistent) : r.visitOrder = firsts id r.nodes :=
  (visits_visit h r r.self_mem_nodes ([], [])
    ⟨fun _ hx => absurd hx not_mem_nil, fun _ hx => absurd hx not_mem_nil,
      fun _ _ => ⟨fun hx => absurd hx not_mem_nil, fun hx => absurd hx not_mem_nil⟩⟩).called

theorem visitOrder_ne_nil (r : Rdd) : r.visitOrder ≠ [] := by
  rw [visitOrder, visit_eq, if_neg not_mem_nil]
  exact append_ne_nil_of_right_ne_nil _ (cons_ne_nil r [])

/-! ### What the key shows -/

section Key

variable (py : Interpreter)

/-- What the key shows of one operator. -/
def label (r : Rdd) : String × String := (r.className, r.selfHashText py)

/-- The number of parents of a class. -/
def classArity (className : String) : ℕ :=
  if className ∈ ["ConstantTuple", "ParameterLookup", "GeneratorSource"] then 0
  else if className ∈ ["MaterializeParquetFile", "Join", "AntiJoin", "AntiJoinPredicated", "SemiJoin",
    "Cartesian", "Zip", "ExpandPattern"] then 2
  else 1

theorem length_parents (r : Rdd) : r.parents.length = classArity r.className := by
  cases r with
  | source id op => cases op <;> rfl
  | unary id op parent => cases op <;> rfl
  | binary id op left right => cases op <;> rfl

theorem className_letters (r : Rdd) : ∀ c ∈ r.className.toList, c.isDigit = false ∧ c ≠ '-' := by
  cases r with
  | source id op => cases op <;> simp [className, SourceOp.className]
  | unary id op parent => cases op <;> simp [className, UnaryOp.className]
  | binary id op left right => cases op <;> simp [className, BinaryOp.className]

theorem label_eq_of_operatorHash_eq {r s : Rdd} (h : r.operatorHash py = s.operatorHash py) :
    r.label py = s.label py := by
  obtain ⟨hclass, htext⟩ := append_toString_inj r.className_letters s.className_letters (py.hash_injective h)
  exact Prod.ext hclass (py.hash_injective htext)

variable {a b p q x y : Rdd} {i j : ℕ} {op op' : UnaryOp} {a' : String}

/-- The key determines the operators in the order of the visits, up to what `self_hash` leaves out. -/
theorem labels_eq_of_hash_eq (h : a.hash py = b.hash py) :
    a.visitOrder.map (label py) = b.visitOrder.map (label py) := by
  have htext := py.hash_injective h
  have hnumbers : a.visitOrder.map (fun r => toString (r.operatorHash py)) =
      b.visitOrder.map fun r => toString (r.operatorHash py) := by
    refine join_injective (c := '#') ?_ ?_ ?_ ?_ htext
    · exact fun hnil => a.visitOrder_ne_nil (map_eq_nil_iff.mp hnil)
    · exact fun hnil => b.visitOrder_ne_nil (map_eq_nil_iff.mp hnil)
    · simp only [forall_mem_map]
      exact fun r _ => notMem_toString (by decide) (by decide) _
    · simp only [forall_mem_map]
      exact fun r _ => notMem_toString (by decide) (by decide) _
  refine ext_getElem ?_ fun i ha hb => ?_
  · simpa using congrArg List.length hnumbers
  · simp only [length_map] at ha hb
    have hi := getElem_of_eq hnumbers (by simpa using ha)
    simp only [getElem_map] at hi ⊢
    exact label_eq_of_operatorHash_eq py (toString_int_injective hi)

/-! ### Graphs of one shape -/

/-- The same labels at the same places. -/
inductive Alike : Rdd → Rdd → Prop
  | source {i j : ℕ} {op op' : SourceOp} (hlab : (source i op).label py = (source j op').label py) :
    Alike (source i op) (source j op')
  | unary {i j : ℕ} {op op' : UnaryOp} {p q : Rdd}
    (hlab : (unary i op p).label py = (unary j op' q).label py) (hparent : Alike p q) :
    Alike (unary i op p) (unary j op' q)
  | binary {i j : ℕ} {op op' : BinaryOp} {p q p' q' : Rdd}
    (hlab : (binary i op p p').label py = (binary j op' q q').label py) (hleft : Alike p q)
    (hright : Alike p' q') : Alike (binary i op p p') (binary j op' q q')

variable {py}

theorem length_parents_of_label_eq (h : a.label py = b.label py) : a.parents.length = b.parents.length := by
  have hclass : a.className = b.className := congrArg Prod.fst h
  rw [length_parents, length_parents, hclass]

section

variable {xs ys : List (String × String)} (h : xs ++ a.nodes.map (label py) = ys ++ b.nodes.map (label py))

include h

theorem last_label_eq :
    xs ++ (a.parents.flatMap nodes).map (label py) = ys ++ (b.parents.flatMap nodes).map (label py) ∧
      a.label py = b.label py := by
  rw [a.nodes_eq, b.nodes_eq, map_append, map_append, ← append_assoc, ← append_assoc] at h
  obtain ⟨hinit, hlast⟩ := append_inj' h rfl
  exact ⟨hinit, (List.cons.inj hlast).1⟩

/-- The post-order is read from its end: the class of the last operator tells how many inputs stand
    before it. -/
theorem alike_of_append : xs = ys ∧ Alike py a b := by
  induction a generalizing b xs ys with
  | source i op =>
    obtain ⟨hinit, hlab⟩ := last_label_eq h
    have harity := length_parents_of_label_eq hlab
    cases b with
    | source j op' => exact ⟨by simpa [parents] using hinit, .source hlab⟩
    | unary j op' q => simp [parents] at harity
    | binary j op' q q' => simp [parents] at harity
  | unary i op p ih =>
    obtain ⟨hinit, hlab⟩ := last_label_eq h
    have harity := length_parents_of_label_eq hlab
    cases b with
    | source j op' => simp [parents] at harity
    | unary j op' q =>
      simp only [parents, flatMap_cons, flatMap_nil, append_nil] at hinit
      obtain ⟨hxs, hparent⟩ := ih hinit
      exact ⟨hxs, .unary hlab hparent⟩
    | binary j op' q q' => simp [parents] at harity
  | binary i op p p' ihl ihr =>
    obtain ⟨hinit, hlab⟩ := last_label_eq h
    have harity := length_parents_of_label_eq hlab
    cases b with
    | source j op' => simp [parents] at harity
    | unary j op' q => simp [parents] at harity
    | binary j op' q q' =>
      simp only [parents, flatMap_cons, flatMap_nil, append_nil, map_append, ← append_assoc] at hinit
      -- the right input stands last
      obtain ⟨hinit, hright⟩ := ihr hinit
      obtain ⟨hxs, hleft⟩ := ihl hinit
      exact ⟨hxs, .binary hlab hleft hright⟩

end

/-- The occurrences at the same places. -/
def pairs (a b : Rdd) : List (Rdd × Rdd) := a.nodes.zip b.nodes

theorem Alike.length_nodes (h : Alike py a b) : a.nodes.length = b.nodes.length := by
  induction h with
  | source _ => rfl
  | unary _ _ ih => simp [nodes, ih]
  | binary _ _ _ ihl ihr => simp [nodes, ihl, ihr]

theorem Alike.pairs_unary (h : Alike py p q) :
    pairs (.unary i op p) (.unary j op' q) = pairs p q ++ [(.unary i op p, .unary j op' q)] :=
  zip_append h.length_nodes

theorem Alike.pairs_binary {op op' : BinaryOp} {p' q' : Rdd} (h : Alike py p q) (h' : Alike py p' q') :
    pairs (.binary i op p p') (.binary j op' q q') =
      pairs p q ++ (pairs p' q' ++ [(.binary i op p p', .binary j op' q q')]) := by
  unfold pairs
  rw [nodes, nodes, zip_append (by simp [h.length_nodes, h'.length_nodes]), zip_append h.length_nodes, append_assoc]
  rfl

theorem Alike.self_mem_pairs (h : Alike py a b) : (a, b) ∈ pairs a b := by
  cases h with
  | source _ => exact mem_singleton_self _
  | unary _ h => exact h.pairs_unary ▸ mem_append_right _ (mem_singleton_self _)
  | binary _ h h' => exact h.pairs_binary h' ▸ mem_append_right _ (mem_append_right _ (mem_singleton_self _))

/-- Occurrences at the same places are alike, and so are all below them. -/
theorem Alike.occurrence (h : Alike py a b) (hxy : (x, y) ∈ pairs a b) :
    Alike py x y ∧ pairs x y ⊆ pairs a b := by
  induction h with
  | source hlab =>
    obtain ⟨rfl, rfl⟩ := Prod.mk.inj (mem_singleton.mp hxy)
    exact ⟨.source hlab, fun _ hz => hz⟩
  | unary hlab h ih =>
    rw [h.pairs_unary, mem_append, mem_singleton] at hxy
    rcases hxy with hxy | hxy
    · obtain ⟨halike, hsub⟩ := ih hxy
      exact ⟨halike, fun z hz => h.pairs_unary ▸ mem_append_left _ (hsub hz)⟩
    · cases hxy
      exact ⟨.unary hlab h, fun _ hz => hz⟩
  | binary hlab h h' ih ih' =>
    rw [h.pairs_binary h', mem_append, mem_append, mem_singleton] at hxy
    rcases hxy with hxy | hxy | hxy
    · obtain ⟨halike, hsub⟩ := ih hxy
      exact ⟨halike, fun z hz => h.pairs_binary h' ▸ mem_append_left _ (hsub hz)⟩
    · obtain ⟨halike, hsub⟩ := ih' hxy
      exact ⟨halike, fun z hz => h.pairs_binary h' ▸ mem_append_right _ (mem_append_left _ (hsub hz))⟩
    · cases hxy
      exact ⟨.binary hlab h h', fun _ hz => hz⟩

variable (py) in
/-- Two functions that are the same to the compiler, whatever the types of the arguments. -/
def SameCode (f g : UserFunc) : Prop := ∀ args, py.compile f args = py.compile g args

variable (py) in
/-- The two operators agree in what `self_hash` leaves out, or shows only up to the choice of a
    separator or of a name. -/
def Agree : Rdd → Rdd → Prop
  | source _ (.constantTuple values type), source _ (.constantTuple values' type') =>
    join "#" values = join "#" values' → values = values' ∧ type = type'
  | source _ (.parameterLookup type), source _ (.parameterLookup type') =>
    py.typeName type = py.typeName type' → type = type'
  | source _ (.generatorSource f), source _ (.generatorSource g) =>
    f.dis = g.dis → py.compileGenerator f = py.compileGenerator g
  | unary _ (.map f names) _, unary _ (.map g names') _ =>
    f.dis = g.dis → SameCode py f g ∧ names = names'
  | unary _ (.filter f) _, unary _ (.filter g) _ => f.dis = g.dis → SameCode py f g
  | unary _ (.flatMap f) _, unary _ (.flatMap g) _ =>
    f.dis = g.dis → py.compileGenerator f = py.compileGenerator g
  | unary _ (.reduce f) _, unary _ (.reduce g) _ => f.dis = g.dis → SameCode py f g
  | unary _ (.reduceByKey f) _, unary _ (.reduceByKey g) _ => f.dis = g.dis → SameCode py f g
  | unary _ (.reduceByIndex f _ _) _, unary _ (.reduceByIndex g _ _) _ =>
    f.dis = g.dis → SameCode py f g
  | unary i (.columnScan addIndex names) p, unary j (.columnScan addIndex' names') q =>
    (unary i (.columnScan addIndex names) p).typeText py = (unary j (.columnScan addIndex' names') q).typeText py →
    (unary i (.columnScan addIndex names) p).outputType py = (unary j (.columnScan addIndex' names') q).outputType py
  | unary _ (.parquetScan columns _) _, unary _ (.parquetScan columns' _) _ =>
    py.columnsText (untyped columns) = py.columnsText (untyped columns') → columns = columns'
  | binary _ (.materializeParquetFile names) _ _, binary _ (.materializeParquetFile names') _ _ =>
    join "##" names = join "##" names' → names = names'
  | binary _ (.join numKeys) _ _, binary _ (.join numKeys') _ _ => numKeys = numKeys'
  | binary _ (.antiJoinPredicated f) _ _, binary _ (.antiJoinPredicated g) _ _ => SameCode py f g
  | _, _ => True

/-- A text and a value behind the last `#`. -/
theorem append_hash_inj {α : Type} {text : α → String} (hinj : Function.Injective text)
    (hno : ∀ v, '#' ∉ (text v).toList) {a : String} {v v' : α} (h : a ++ "#" ++ text v = a' ++ "#" ++ text v') :
    a = a' ∧ v = v' := by
  obtain ⟨ha, hv⟩ := append_string_inj (c := '#') (hno v) (hno v') h
  exact ⟨ha, hinj hv⟩

theorem append_hash_toString_inj {a : String} {n n' : ℤ} (h : a ++ "#" ++ toString n = a' ++ "#" ++ toString n') :
    a = a' ∧ n = n' :=
  append_hash_inj toString_int_injective (notMem_toString (by decide) (by decide)) h

theorem append_hash_boolText_inj {a : String} {b b' : Bool} (h : a ++ "#" ++ boolText b = a' ++ "#" ++ boolText b') :
    a = a' ∧ b = b' :=
  append_hash_inj (by decide) (by decide) h

/-- The bounds of a `ReduceByIndex` stand behind the last line of the listing. -/
theorem dis_append_bounds_inj {f g : UserFunc} {m n m' n' : ℤ}
    (h : f.dis ++ (toString m ++ "#" ++ toString n) = g.dis ++ (toString m' ++ "#" ++ toString n')) :
    f.dis = g.dis ∧ m = m' ∧ n = n' := by
  obtain ⟨t, ht⟩ := f.newline
  obtain ⟨u, hu⟩ := g.newline
  have hno : ∀ m n : ℤ, '\n' ∉ (toString m ++ "#" ++ toString n).toList := by
    intro m n
    have hm := notMem_toString (c := '\n') (by decide) (by decide) m
    have hn := notMem_toString (c := '\n') (by decide) (by decide) n
    simp only [String.toList_append, mem_append]
    rintro ((hmem | hmem) | hmem)
    · exact hm hmem
    · simp at hmem
    · exact hn hmem
  rw [ht, hu] at h ⊢
  obtain ⟨htext, hbounds⟩ := append_string_inj (hno m n) (hno m' n') h
  obtain ⟨hm, hn⟩ := append_hash_toString_inj hbounds
  exact ⟨by rw [htext], toString_int_injective hm, hn⟩

theorem SameCode.compileTo_eq {f g : UserFunc} (h : SameCode py f g) (args : List NumbaType)
    (expected : String) : compileTo py f args expected = compileTo py g args expected := by
  rw [compileTo, compileTo, h args]

theorem built_source_eq {op op' : SourceOp} (hlab : (source i op).label py = (source j op').label py)
    (hagree : Agree py (source i op) (source j op')) : (source i op).built py = (source j op').built py := by
  obtain ⟨hclass, htext⟩ := Prod.mk.inj hlab
  cases op <;> cases op' <;> simp only [className, SourceOp.className, String.reduceEq] at hclass
  case constantTuple.constantTuple =>
    obtain ⟨rfl, rfl⟩ := hagree htext
    rfl
  case parameterLookup.parameterLookup =>
    obtain rfl := hagree htext
    rfl
  case generatorSource.generatorSource =>
    show Option.map _ _ = Option.map _ _
    rw [hagree htext]

/-- A `ColumnScan` leaves its output type and its flag. -/
theorem built_columnScan (i : ℕ) (addIndex : Bool) (names : List String) (p : Rdd) :
    (unary i (.columnScan addIndex names) p).built py = ((unary i (.columnScan addIndex names) p).outputType py).map
        fun type => ⟨type, [("add_index", .bool addIndex)]⟩ := by
  rw [outputType]
  simp only [built, UnaryOp.build, Option.map_bind, Function.comp_def, Option.map_map]

/-- Operators that do the same to every input. -/
theorem built_unary_congr (hin : p.built py = q.built py) (hop : ∀ input, op.build py input = op'.build py input) :
    (unary i op p).built py = (unary j op' q).built py := by
  simp only [built, hin, hop]

theorem built_unary_eq (hlab : (unary i op p).label py = (unary j op' q).label py)
    (hagree : Agree py (unary i op p) (unary j op' q)) (hin : p.built py = q.built py) :
    (unary i op p).built py = (unary j op' q).built py := by
  obtain ⟨hclass, htext⟩ := Prod.mk.inj hlab
  -- the class names leave the operators of one class
  cases op <;> cases op' <;>
    simp only [className, UnaryOp.className, String.reduceEq] at hclass
  case map.map =>
    obtain ⟨hcode, rfl⟩ := hagree htext
    exact built_unary_congr hin fun input => by simp only [UnaryOp.build, hcode [input]]
  case filter.filter =>
    have hcode : SameCode py _ _ := hagree htext
    exact built_unary_congr hin fun input => by simp only [UnaryOp.build, hcode.compileTo_eq]
  case flatMap.flatMap =>
    have hcode : py.compileGenerator _ = py.compileGenerator _ := hagree htext
    exact built_unary_congr hin fun input => by simp only [UnaryOp.build, hcode]
  case topK.topK =>
    obtain ⟨-, rfl⟩ := append_hash_toString_inj htext
    exact built_unary_congr hin fun input => rfl
  case reduce.reduce =>
    have hcode : SameCode py _ _ := hagree htext
    exact built_unary_congr hin fun input => by simp only [UnaryOp.build, hcode.compileTo_eq]
  case reduceByKey.reduceByKey =>
    have hcode : SameCode py _ _ := hagree htext
    exact built_unary_congr hin fun input => by simp only [UnaryOp.build, hcode.compileTo_eq]
  case reduceByIndex.reduceByIndex =>
    obtain ⟨hdis, rfl, rfl⟩ := dis_append_bounds_inj htext
    have hcode : SameCode py _ _ := hagree hdis
    exact built_unary_congr hin fun input => by simp only [UnaryOp.build, hcode.compileTo_eq]
  case columnScan.columnScan =>
    obtain ⟨htype, rfl⟩ := append_hash_boolText_inj htext
    rw [built_columnScan, built_columnScan, hagree htype]
  case rowScan.rowScan =>
    obtain ⟨-, rfl⟩ := append_hash_boolText_inj htext
    exact built_unary_congr hin fun input => rfl
  case parquetScan.parquetScan =>
    have hinj : Function.Injective Filesystem.text := fun f f' h => by cases f <;> cases f' <;> simp_all [Filesystem.text]
    have hno : ∀ f : Filesystem, '#' ∉ f.text.toList := fun f => by cases f <;> simp [Filesystem.text]
    obtain ⟨hcols, rfl⟩ := append_hash_inj hinj hno htext
    obtain rfl := hagree hcols
    exact built_unary_congr hin fun input => rfl
  all_goals exact built_unary_congr hin fun input => rfl

theorem built_binary_eq {op op' : BinaryOp} {p' q' : Rdd}
    (hlab : (binary i op p p').label py = (binary j op' q q').label py)
    (hagree : Agree py (binary i op p p') (binary j op' q q')) (hleft : p.built py = q.built py)
    (hright : p'.built py = q'.built py) : (binary i op p p').built py = (binary j op' q q').built py := by
  obtain ⟨hclass, htext⟩ := Prod.mk.inj hlab
  cases op <;> cases op' <;>
    simp only [className, BinaryOp.className, String.reduceEq] at hclass
  case materializeParquetFile.materializeParquetFile =>
    obtain rfl := hagree htext
    simp only [built, hleft, hright]
  case join.join =>
    obtain rfl : _ = _ := hagree
    simp only [built, hleft, hright]
  case antiJoinPredicated.antiJoinPredicated =>
    have hcode : SameCode py _ _ := hagree
    simp only [built, hleft, hright, BinaryOp.build, hcode.compileTo_eq]
  all_goals simp only [built, hleft, hright]

/-- Operators at the same places are built alike. -/
theorem Alike.built_eq (h : Alike py a b) (hagree : ∀ w ∈ pairs a b, Agree py w.1 w.2) : a.built py = b.built py := by
  induction h with
  | source hlab => exact built_source_eq hlab (hagree _ (mem_singleton_self _))
  | unary hlab h ih =>
    rw [h.pairs_unary] at hagree
    refine built_unary_eq hlab ?_ (ih fun w hw => hagree w (mem_append_left _ hw))
    exact hagree _ (mem_append_right _ (mem_singleton_self _))
  | binary hlab h h' ih ih' =>
    rw [h.pairs_binary h'] at hagree
    refine built_binary_eq hlab ?_ (ih fun w hw => hagree w (mem_append_left _ hw))
      (ih' fun w hw => hagree w (mem_append_right _ (mem_append_left _ hw)))
    exact hagree _ (mem_append_right _ (mem_append_right _ (mem_singleton_self _)))

theorem Alike.name_eq (h : Alike py a b) : a.name = b.name := by
  cases h with
  | @source i j op op' hlab =>
    have hclass : op.className = op'.className := congrArg Prod.fst hlab
    cases op <;> cases op' <;> first | rfl | simp only [SourceOp.className, String.reduceEq] at hclass
  | @unary i j op op' p q hlab _ =>
    have hclass : op.className = op'.className := congrArg Prod.fst hlab
    cases op <;> cases op' <;> first | rfl | simp only [UnaryOp.className, String.reduceEq] at hclass
  | @binary i j op op' p q p' q' hlab _ _ =>
    have hclass : op.className = op'.className := congrArg Prod.fst hlab
    cases op <;> cases op' <;> first | rfl | simp only [BinaryOp.className, String.reduceEq] at hclass

theorem Alike.isParameterLookup_eq (h : Alike py a b) : a.isParameterLookup = b.isParameterLookup := by
  cases h with
  | @source i j op op' hlab =>
    have hclass : op.className = op'.className := congrArg Prod.fst hlab
    cases op <;> cases op' <;> first | rfl | simp only [SourceOp.className, String.reduceEq] at hclass
  | unary _ _ => rfl
  | binary _ _ _ => rfl

/-! ### Graphs of one shape and one sharing -/

/-- The two graphs share at the same places: two occurrences are one object in both or in neither. -/
def SameSharing (a b : Rdd) : Prop := SamePattern (a.nodes.map id) (b.nodes.map id)

instance (a b : Rdd) : Decidable (SameSharing a b) := inferInstanceAs (Decidable (SamePattern _ _))

theorem SameSharing.id_eq_iff (h : SameSharing a b) {v w : Rdd × Rdd} (hv : v ∈ pairs a b) (hw : w ∈ pairs a b) :
    v.1.id = w.1.id ↔ v.2.id = w.2.id := by
  have hzip : ∀ w ∈ pairs a b, (w.1.id, w.2.id) ∈ (a.nodes.map id).zip (b.nodes.map id) := by
    intro w hw
    rw [zip_map]
    exact mem_map_of_mem hw
  exact h.2 _ (hzip v hv) _ (hzip w hw)

/-- The first occurrences of the pairs. -/
def firstPairs (a b : Rdd) : List (Rdd × Rdd) := firsts (fun w : Rdd × Rdd => w.1.id) (pairs a b)

theorem SameSharing.visitOrder_eq (h : SameSharing a b) (ha : a.Consistent) (hb : b.Consistent) :
    a.visitOrder = (firstPairs a b).map Prod.fst ∧ b.visitOrder = (firstPairs a b).map Prod.snd := by
  have hlen : a.nodes.length = b.nodes.length := by simpa using h.1
  constructor
  · rw [visitOrder_eq_firsts ha, firstPairs, firsts_map Prod.fst id, pairs, map_fst_zip hlen.le]
  · have hcongr : firstPairs a b = firsts (fun w : Rdd × Rdd => w.2.id) (pairs a b) :=
      firsts_congr fun v hv w hw => h.id_eq_iff hv hw
    rw [visitOrder_eq_firsts hb, hcongr, firsts_map Prod.snd id, pairs, map_snd_zip hlen.ge]

/-- Equal labels at the first occurrences are equal labels everywhere, since a later occurrence is the
    same object. -/
theorem SameSharing.alike (h : SameSharing a b) (ha : a.Consistent) (hb : b.Consistent)
    (hlabs : a.visitOrder.map (label py) = b.visitOrder.map (label py)) : Alike py a b := by
  obtain ⟨hva, hvb⟩ := h.visitOrder_eq ha hb
  rw [hva, hvb, map_map, map_map] at hlabs
  have hpair : ∀ w ∈ pairs a b, w.1.label py = w.2.label py := by
    intro w hw
    obtain ⟨v, hv, hid⟩ := exists_mem_firsts (fun w : Rdd × Rdd => w.1.id) hw
    have hvpair : v ∈ pairs a b := mem_of_mem_firsts hv
    have hid' := (h.id_eq_iff hvpair hw).mp hid
    have h1 : v.1 = w.1 := ha _ (of_mem_zip hvpair).1 _ (of_mem_zip hw).1 hid
    have h2 : v.2 = w.2 := hb _ (of_mem_zip hvpair).2 _ (of_mem_zip hw).2 hid'
    have hv : v.1.label py = v.2.label py := map_inj_left.mp hlabs v hv
    rwa [h1, h2] at hv
  have hlen : a.nodes.length = b.nodes.length := by simpa using h.1
  have hnodes : [] ++ a.nodes.map (label py) = [] ++ b.nodes.map (label py) :=
    calc a.nodes.map (label py)
        = ((pairs a b).map Prod.fst).map (label py) := by rw [pairs, map_fst_zip hlen.le]
      _ = ((pairs a b).map Prod.snd).map (label py) := by
          rw [map_map, map_map]
          exact map_congr_left hpair
      _ = b.nodes.map (label py) := by rw [pairs, map_snd_zip hlen.ge]
  exact (alike_of_append hnodes).2

/-- Two dictionaries with the same entries, under the keys of the two graphs. -/
structure SameDicts (ws : List (Rdd × Rdd)) (dicts dicts' : List (ℕ × OpDict)) : Prop where
  values : dicts.map Prod.snd = dicts'.map Prod.snd
  lookup : ∀ w ∈ ws, w.1.idIn dicts = w.2.idIn dicts'

theorem mapM_map_congr {α β γ : Type} {f : β → Option γ} {g : β → Option γ} {ws : List α}
    {left right : α → β} (h : ∀ w ∈ ws, f (left w) = g (right w)) : (ws.map left).mapM f = (ws.map right).mapM g := by
  induction ws with
  | nil => rfl
  | cons w ws ih =>
    rw [map_cons, map_cons, mapM_cons, mapM_cons, h w mem_cons_self, ih fun v hv => h v (mem_cons_of_mem _ hv)]

theorem idIn_append (dicts : List (ℕ × OpDict)) (i : ℕ) (dict : OpDict) (r : Rdd) :
    r.idIn (dicts ++ [(i, dict)]) = (r.idIn dicts).or (if r.id = i then some dict.id else none) := by
  unfold idIn
  rw [lookup_append]
  cases hlook : dicts.lookup r.id with
  | some found => rfl
  | none =>
    by_cases hid : r.id = i
    · simp [lookup, hid]
    · simp [lookup, hid, beq_eq_false_iff_ne.mpr hid]

/-- The parents at the same places. -/
theorem Alike.parents_eq (h : Alike py x y) :
    ∃ ws ⊆ pairs x y, x.parents = ws.map Prod.fst ∧ y.parents = ws.map Prod.snd := by
  cases h with
  | source _ => exact ⟨[], nil_subset _, rfl, rfl⟩
  | @unary i j op op' p q _ h =>
    refine ⟨[(p, q)], ?_, rfl, rfl⟩
    rw [h.pairs_unary]
    exact fun w hw => mem_append_left _ (mem_singleton.mp hw ▸ h.self_mem_pairs)
  | @binary i j op op' p q p' q' _ h h' =>
    refine ⟨[(p, q), (p', q')], ?_, rfl, rfl⟩
    rw [h.pairs_binary h']
    intro w hw
    rcases mem_cons.mp hw with rfl | hw
    · exact mem_append_left _ h.self_mem_pairs
    · obtain rfl := mem_singleton.mp hw
      exact mem_append_right _ (mem_append_left _ h'.self_mem_pairs)

section Lockstep

variable {a b : Rdd} (halike : Alike py a b) (hsharing : SameSharing a b)
  (hagree : ∀ w ∈ pairs a b, Agree py w.1 w.2)

include halike hagree in
theorem built_eq_of_mem_pairs {w : Rdd × Rdd} (hw : w ∈ pairs a b) : w.1.built py = w.2.built py :=
  (halike.occurrence hw).1.built_eq fun v hv => hagree v ((halike.occurrence hw).2 hv)

include halike hsharing hagree in
/-- The operators of a pair add the same entry, or both raise. -/
theorem collectOperator_same {dicts dicts' : List (ℕ × OpDict)}
    (h : SameDicts (pairs a b) dicts dicts') {w : Rdd × Rdd} (hw : w ∈ pairs a b) :
    Option.Rel (SameDicts (pairs a b)) (collectOperator py dicts w.1) (collectOperator py dicts' w.2) := by
  obtain ⟨hpair, hsub⟩ := halike.occurrence hw
  obtain ⟨ws, hws, hleft, hright⟩ := hpair.parents_eq
  have hpreds : w.1.parents.mapM (idIn dicts) = w.2.parents.mapM (idIn dicts') := by
    rw [hleft, hright]
    exact mapM_map_congr fun v hv => h.lookup v (hsub (hws hv))
  have hlen : dicts.length = dicts'.length := by simpa using congrArg List.length h.values
  unfold collectOperator
  rw [built_eq_of_mem_pairs halike hagree hw, hpreds, hpair.name_eq, hlen]
  cases w.2.built py with
  | none => exact .none
  | some result =>
    cases w.2.parents.mapM (idIn dicts') with
    | none =>
      simp only [Option.bind_eq_bind, Option.bind_some, Option.bind_none, ite_self]
      exact .none
    | some predecessors =>
      simp only [Option.bind_eq_bind, Option.bind_some]
      split
      · refine .some ⟨?_, fun v hv => ?_⟩
        · rw [map_append, map_append, h.values]
          rfl
        · rw [idIn_append, idIn_append, h.lookup v hv, if_congr (hsharing.id_eq_iff hv hw) rfl rfl]
      · exact .none

include halike hsharing hagree in
theorem foldlM_collectOperator_same {ws : List (Rdd × Rdd)} (hws : ws ⊆ pairs a b)
    {dicts dicts' : List (ℕ × OpDict)} (h : SameDicts (pairs a b) dicts dicts') :
    Option.Rel (SameDicts (pairs a b)) ((ws.map Prod.fst).foldlM (collectOperator py) dicts)
      ((ws.map Prod.snd).foldlM (collectOperator py) dicts') := by
  induction ws generalizing dicts dicts' with
  | nil => exact .some h
  | cons w ws ih =>
    rw [map_cons, map_cons, foldlM_cons, foldlM_cons]
    have hstep := collectOperator_same halike hsharing hagree h (hws mem_cons_self)
    revert hstep
    generalize collectOperator py dicts w.1 = out, collectOperator py dicts' w.2 = out'
    intro hstep
    cases hstep with
    | none => exact .none
    | some hnext => exact ih (fun v hv => hws (mem_cons_of_mem _ hv)) hnext

end Lockstep

/-- Graphs of one shape and one sharing, with operators that agree, have one plan. -/
theorem finalDict_eq_of_alike (ha : a.Consistent) (hb : b.Consistent) (halike : Alike py a b)
    (hsharing : SameSharing a b) (hagree : ∀ w ∈ pairs a b, Agree py w.1 w.2) : a.finalDict py = b.finalDict py := by
  obtain ⟨hva, hvb⟩ := hsharing.visitOrder_eq ha hb
  have hfirst : firstPairs a b ⊆ pairs a b := fun w hw => mem_of_mem_firsts hw
  have hdag : Option.Rel (SameDicts (pairs a b)) (a.writeDag py) (b.writeDag py) := by
    rw [writeDag, writeDag, hva, hvb]
    exact foldlM_collectOperator_same halike hsharing hagree hfirst ⟨rfl, fun _ _ => rfl⟩
  have hins : ∃ ws ⊆ pairs a b, a.getInputs = ws.map Prod.fst ∧ b.getInputs = ws.map Prod.snd := by
    refine ⟨(firstPairs a b).filter (isParameterLookup ∘ Prod.fst), fun w hw => hfirst (mem_of_mem_filter hw), ?_, ?_⟩
    · rw [getInputs, hva, filter_map]
    · rw [getInputs, hvb, filter_map]
      congr 1
      refine filter_congr fun w hw => ?_
      exact (halike.occurrence (hfirst hw)).1.isParameterLookup_eq.symm
  obtain ⟨ws, hws, hina, hinb⟩ := hins
  have htype : a.outputType py = b.outputType py := by
    rw [outputType, outputType, halike.built_eq hagree]
  unfold finalDict
  rw [hina, hinb, htype]
  revert hdag
  generalize a.writeDag py = dicts, b.writeDag py = dicts'
  intro hdag
  cases hdag with
  | none => rfl
  | some hsame =>
    simp only [Option.bind_eq_bind, Option.bind_some]
    rw [hsame.lookup _ halike.self_mem_pairs, hsame.values, mapM_map_congr fun w hw => hsame.lookup w (hws hw)]

end Key

end Rdd

/-! ### The cache over a sequence of queries -/

/-- A query: a graph of Python objects. -/
structure Graph where
  rdd : Rdd
  consistent : rdd.Consistent

/-- Queries whose operators look the same to `__hash__`, one by one, share at the same places and agree
    in what `self_hash` leaves out. -/
def Distinguishable (py : Interpreter) (a b : Graph) : Prop :=
  a.rdd.visitOrder.map (Rdd.label py) = b.rdd.visitOrder.map (Rdd.label py) →
    Rdd.SameSharing a.rdd b.rdd ∧ ∀ w ∈ Rdd.pairs a.rdd b.rdd, Rdd.Agree py w.1 w.2

variable {py : Interpreter}

theorem Distinguishable.finalDict_eq {a b : Graph} (h : Distinguishable py a b)
    (hhash : a.rdd.hash py = b.rdd.hash py) : a.rdd.finalDict py = b.rdd.finalDict py := by
  have hlabs := Rdd.labels_eq_of_hash_eq py hhash
  obtain ⟨hsharing, hagree⟩ := h hlabs
  have halike := hsharing.alike a.consistent b.consistent hlabs
  exact Rdd.finalDict_eq_of_alike a.consistent b.consistent halike hsharing hagree

/-- Every cached plan was computed for one of the queries. -/
def CacheFrom (py : Interpreter) (queries : List Graph) (cache : SerializationCache) : Prop :=
  ∀ entry ∈ cache, ∃ a ∈ queries, entry.1 = toString (a.rdd.hash py) ∧ a.rdd.finalDict py = some entry.2

theorem mem_of_lookup_eq_some {α β : Type} [BEq α] [LawfulBEq α] {k : α} {v : β} {l : List (α × β)}
    (h : l.lookup k = some v) : (k, v) ∈ l := by
  obtain ⟨l1, l2, rfl, -⟩ := lookup_eq_some_iff.mp h
  simp

theorem getFinalDict_eq {queries : List Graph} {cache : SerializationCache} {b : Graph}
    (hpairs : ∀ a ∈ queries, Distinguishable py a b) (hcache : CacheFrom py queries cache)
    (hb : b ∈ queries) : (getFinalDict py cache b.rdd).1 = b.rdd.finalDict py ∧
      CacheFrom py queries (getFinalDict py cache b.rdd).2 := by
  unfold getFinalDict
  dsimp only
  cases hlook : cache.lookup (toString (b.rdd.hash py)) with
  | some plan =>
    -- a hit: the plan is that of a query with the same hash
    obtain ⟨a, ha, hkey, hplan⟩ := hcache _ (mem_of_lookup_eq_some hlook)
    have hhash : a.rdd.hash py = b.rdd.hash py := (toString_int_injective hkey).symm
    exact ⟨hplan.symm.trans ((hpairs a ha).finalDict_eq hhash), hcache⟩
  | none =>
    cases hplan : b.rdd.finalDict py with
    | none => exact ⟨rfl, hcache⟩
    | some plan =>
      refine ⟨rfl, fun entry hentry => ?_⟩
      rcases mem_cons.mp hentry with rfl | hentry
      · exact ⟨b, hb, rfl, hplan⟩
      · exact hcache entry hentry

theorem runQueries_eq {queries : List Graph}
    (hpairs : ∀ a ∈ queries, ∀ b ∈ queries, Distinguishable py a b) {rest : List Graph}
    (hrest : rest ⊆ queries) {cache : SerializationCache} (hcache : CacheFrom py queries cache) :
    runQueries py cache (rest.map Graph.rdd) = rest.map fun b => b.rdd.finalDict py := by
  induction rest generalizing cache with
  | nil => rfl
  | cons b rest ih =>
    have hb := hrest mem_cons_self
    obtain ⟨hres, hnext⟩ := getFinalDict_eq (fun a ha => hpairs a ha b hb) hcache hb
    show (getFinalDict py cache b.rdd).1 :: runQueries py _ _ = _
    rw [hres, ih (fun a ha => hrest (mem_cons_of_mem _ ha)) hnext, map_cons]

/-- **The cache returns the plan of the query.**  Among queries that can be told apart, equal hashes mean
    equal plans and output types, and a whole sequence of queries on one context gets, query by query,
    what would be computed from scratch. -/
theorem planCache_correct (py : Interpreter) (queries : List Graph)
    (hpairs : ∀ a ∈ queries, ∀ b ∈ queries, Distinguishable py a b) :
    (∀ a ∈ queries, ∀ b ∈ queries, a.rdd.hash py = b.rdd.hash py →
      a.rdd.finalDict py = b.rdd.finalDict py) ∧
    runQueries py [] (queries.map Graph.rdd) = queries.map fun b => b.rdd.finalDict py :=
  ⟨fun a ha b hb => (hpairs a ha b hb).finalDict_eq,
    runQueries_eq hpairs (List.Subset.refl _) fun _ hentry => absurd hentry not_mem_nil⟩

/-! ### Queries that the cache confuses -/

/-- An interpreter whose compiler shows the closure in the code; a function of one argument returns it, a
    function of two is a predicate. -/
def sampleInterpreter : Interpreter where
  hash text := (Encodable.encode (text.toList.map Char.toNat) : ℕ)
  hash_injective _ _ h :=
    have hcodes := Encodable.encode_injective (Int.ofNat.inj h)
    String.toList_injective (map_injective_iff.mpr (fun _ _ hc => Char.toNat_inj.mp hc) hcodes)
  typeName
    | .int64 => "int64"
    | .bool => "bool"
    | _ => "(int64, int64)"
  columnsText _ := ""
  compile func args :=
    match args with
    | [type] => some (toString (func.closure.map Prod.snd), type)
    | _ => some (toString (func.closure.map Prod.snd), .bool)
  compileGenerator _ := none

/-- `lambda x: ... k ...` for one value of `k`. -/
def closureOver (k : ℤ) : UserFunc where
  dis := "LOAD_DEREF\nRETURN_VALUE\n"
  closure := [("k", k)]
  newline := ⟨"LOAD_DEREF\nRETURN_VALUE", by decide +kernel⟩

/-- A lookup of pairs. -/
def inputPairs (id : ℕ) : Rdd := .source id (.parameterLookup (.tuple [.int64, .int64]))

/-- A map over it, with a closure over `k`. -/
def mappedPairs (k : ℤ) : Graph where
  rdd := .unary 1 (.map (closureOver k) none) (inputPairs 0)
  consistent := by simp [Rdd.Consistent, Rdd.nodes, Rdd.id, inputPairs]

/-- The product of a lookup and a map over the same object; the objects are numbered from `n` on. -/
def productWithMap (n : ℕ) : Graph where
  rdd := .binary (n + 2) .cartesian (inputPairs n)
    (.unary (n + 1) (.map (closureOver 1) none) (inputPairs n))
  consistent := by simp [Rdd.Consistent, Rdd.nodes, Rdd.id, inputPairs]

/-- The product the other way around. -/
def mapWithProduct : Graph where
  rdd := .binary 2 .cartesian (.unary 1 (.map (closureOver 1) none) (inputPairs 0)) (inputPairs 0)
  consistent := by simp [Rdd.Consistent, Rdd.nodes, Rdd.id, inputPairs]

def joinedPairs (numKeys : ℤ) : Graph where
  rdd := .binary 2 (.join numKeys) (inputPairs 0) (inputPairs 1)
  consistent := by simp [Rdd.Consistent, Rdd.nodes, Rdd.id, inputPairs]

def antiJoinedPairs (k : ℤ) : Graph where
  rdd := .binary 2 (.antiJoinPredicated (closureOver k)) (inputPairs 0) (inputPairs 1)
  consistent := by simp [Rdd.Consistent, Rdd.nodes, Rdd.id, inputPairs]

/-- Two queries with different plans, of which the second gets the plan of the first. -/
def Confuses (py : Interpreter) (a b : Graph) : Prop :=
  a.rdd.hash py = b.rdd.hash py ∧ a.rdd.finalDict py ≠ b.rdd.finalDict py ∧
    ∃ plan, a.rdd.finalDict py = some plan ∧ runQueries py [] [a.rdd, b.rdd] = [some plan, some plan]

/-- The predecessors and the fields of the operators of a plan. -/
def wiring (plan : DagDict × NumbaType) : List (List (ℕ × ℕ) × List (String × AttributeValue)) :=
  plan.1.operators.map fun dict => (dict.predecessors, dict.attributes)

theorem confuses_of_wiring {a b : Graph} (hhash : a.rdd.hash py = b.rdd.hash py) (hsome : (a.rdd.finalDict py).isSome)
    (hwiring : (a.rdd.finalDict py).map wiring ≠ (b.rdd.finalDict py).map wiring) :
    Confuses py a b := by
  obtain ⟨plan, hplan⟩ := Option.isSome_iff_exists.mp hsome
  refine ⟨hhash, fun heq => hwiring (congrArg _ heq), plan, hplan, ?_⟩
  simp [runQueries, getFinalDict, hplan, hhash]

/-- The sides of a product, the number of keys of a join, the predicate of an anti-join and the values
    that a function closes over do not show in the key. -/
theorem planCache_confuses :
    Confuses sampleInterpreter (productWithMap 0) mapWithProduct ∧
    Confuses sampleInterpreter (joinedPairs 1) (joinedPairs 2) ∧
    Confuses sampleInterpreter (antiJoinedPairs 1) (antiJoinedPairs 2) ∧
    Confuses sampleInterpreter (mappedPairs 1) (mappedPairs 2) := by
  refine ⟨?_, ?_, ?_, ?_⟩
  · exact confuses_of_wiring rfl rfl (by decide)
  · exact confuses_of_wiring rfl rfl (by decide)
  · exact confuses_of_wiring rfl rfl (by decide)
  · exact confuses_of_wiring rfl rfl (by decide)

theorem planCache_correct_rebuiltProduct :
    (∀ a ∈ [productWithMap 0, productWithMap 3], ∀ b ∈ [productWithMap 0, productWithMap 3],
      Distinguishable sampleInterpreter a b) ∧
    runQueries sampleInterpreter [] [(productWithMap 0).rdd, (productWithMap 3).rdd] =
      [(productWithMap 0).rdd.finalDict sampleInterpreter,
        (productWithMap 3).rdd.finalDict sampleInterpreter] := by
  have hpairs : ∀ a ∈ [productWithMap 0, productWithMap 3],
      ∀ b ∈ [productWithMap 0, productWithMap 3], Distinguishable sampleInterpreter a b := by
    simp only [forall_mem_cons, not_mem_nil, IsEmpty.forall_iff, implies_true, and_true]
    have hagree : ∀ m n, ∀ w ∈ Rdd.pairs (productWithMap m).rdd (productWithMap n).rdd,
        Rdd.Agree sampleInterpreter w.1 w.2 := by
      simp [Rdd.pairs, productWithMap, Rdd.nodes, inputPairs, Rdd.Agree, Rdd.SameCode]
    refine ⟨⟨fun _ => ⟨?_, hagree 0 0⟩, fun _ => ⟨?_, hagree 0 3⟩⟩,
      ⟨fun _ => ⟨?_, hagree 3 0⟩, fun _ => ⟨?_, hagree 3 3⟩⟩⟩ <;> decide
  exact ⟨hpairs, (planCache_correct sampleInterpreter _ hpairs).2⟩

end Jitq.Python
