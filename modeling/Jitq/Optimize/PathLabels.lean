import Jitq.Dag.Nested
import Jitq.Lib.Partial
import Jitq.Lib.Text

namespace Jitq.Optimize

open Partial List Function

/-! # The path labels of `Canonicalize`

Every operator is labelled with the ports along a path to the sink and along a path from a source.  Of
several paths the one with the greatest label is taken.

* `pathLabels` — one of the two traversals;
* `IsLabeling` — what the labels are, without reference to the order of the visits;
* `IsLabeling.injective` — labels of paths to a single sink are distinct;
* `IsLabeling.rename` — they are the same in renamed graphs. -/

/-- The label of a path that is extended by a flow. -/
def extendLabel (label : String) (f : Flow) : String :=
  label ++ "#" ++ toString (f.source.port : ℤ) ++ "#" ++ toString (f.target.port : ℤ)

variable (flowsOf : ℕ → List Flow)

variable (next : Flow → ℕ)

/-- The visit of an operator.  `next f` is the end of the flow that has been visited before. -/
def visitLabel (labels : List (ℕ × String)) (v : ℕ) :
    Option (List (ℕ × String)) := do
  let candidates ← (flowsOf v).mapM fun f => (labels.lookup (next f)).map fun l => extendLabel l f
  guard (labels.lookup v).isNone
  some ((v, candidates.foldl max "") :: labels)

def pathLabels (order : List ℕ) : Option (List (ℕ × String)) :=
  order.foldlM (visitLabel flowsOf next) []

section

variable {Op : Type}

/-- `outgoing_path_label`, in the order of `ApplyInTopologicalOrder`. -/
def outgoingPathLabel (dag : PortedDag Op) (order : List ℕ) : Option (List (ℕ × String)) :=
  pathLabels dag.graph.outFlows (fun f => f.target.op) order

/-- `incoming_path_label`, in the order of `ApplyInReverseTopologicalOrder`. -/
def incomingPathLabel (dag : PortedDag Op) (order : List ℕ) : Option (List (ℕ × String)) :=
  pathLabels dag.graph.inFlows (fun f => f.source.op) order

end

/-! ### What the labels are -/

/-- The label of an operator is the greatest extension of the labels of its neighbours. -/
def IsLabeling (vs : List ℕ) (label : ℕ → String) : Prop :=
  ∀ v ∈ vs, label v = ((flowsOf v).map fun f => extendLabel (label (next f)) f).foldl max ""

/-- Every operator comes after its neighbours. -/
def NextFirst (order : List ℕ) : Prop :=
  ∀ done v rest, order = done ++ v :: rest → ∀ f ∈ flowsOf v, next f ∈ done

variable {flowsOf : ℕ → List Flow} {next : Flow → ℕ}

/-- The operators that have been visited so far are labelled. -/
structure Labelled (flowsOf : ℕ → List Flow) (next : Flow → ℕ) (done : List ℕ)
    (labels : List (ℕ × String)) (label : ℕ → String) : Prop where
  keys : labels.map Prod.fst = done.reverse
  lookup : ∀ v ∈ done, labels.lookup v = some (label v)
  labeling : IsLabeling flowsOf next done label
  nextDone : ∀ v ∈ done, ∀ f ∈ flowsOf v, next f ∈ done

namespace Labelled

variable {done : List ℕ} {labels : List (ℕ × String)} {label : ℕ → String}

section

variable (h : Labelled flowsOf next done labels label)

include h

theorem lookup_eq_none {v : ℕ} (hv : v ∉ done) : labels.lookup v = none := by
  refine lookup_eq_none_iff.mpr fun e he => bne_iff_ne.mpr ?_
  rintro rfl
  rw [← mem_reverse, ← h.keys] at hv
  exact hv (mem_map_of_mem he)

theorem length : labels.length = done.length := by
  rw [← length_map Prod.fst, h.keys, length_reverse]

theorem visit {v : ℕ} (hv : v ∉ done)
    (hnext : ∀ f ∈ flowsOf v, next f ∈ done) : ∃ labels' label', visitLabel flowsOf next labels v = some labels' ∧
        Labelled flowsOf next (done ++ [v]) labels' label' := by
  let new := ((flowsOf v).map fun f => extendLabel (label (next f)) f).foldl max ""
  have hmap : (flowsOf v).mapM (fun f => (labels.lookup (next f)).map fun l => extendLabel l f) =
      some ((flowsOf v).map fun f => extendLabel (label (next f)) f) :=
    mapM_eq_some_map fun f hf => by rw [h.lookup _ (hnext f hf), Option.map_some]
  have hvisit : visitLabel flowsOf next labels v = some ((v, new) :: labels) := by
    unfold visitLabel
    rw [hmap, h.lookup_eq_none hv]
    rfl
  -- the labels of the operators before `v` stay
  have hne : ∀ u ∈ done, u ≠ v := fun u hu heq => hv (heq ▸ hu)
  have hold : ∀ u ∈ done, update label v new u = label u := fun u hu => update_of_ne (hne u hu) new label
  refine ⟨(v, new) :: labels, update label v new, hvisit, ?_, ?_, ?_, ?_⟩
  · simp [h.keys]
  · intro u hu
    rw [lookup_cons]
    rcases mem_append.mp hu with hu | hu
    · rw [beq_eq_false_iff_ne.mpr (hne u hu), hold u hu]
      exact h.lookup u hu
    · obtain rfl := mem_singleton.mp hu
      rw [beq_self_eq_true, update_self]
  · intro u hu
    have hflows : ∀ f ∈ flowsOf u, next f ∈ done := by
      rcases mem_append.mp hu with hu | hu
      · exact h.nextDone u hu
      · exact mem_singleton.mp hu ▸ hnext
    have hcands : ((flowsOf u).map fun f => extendLabel (update label v new (next f)) f) =
        (flowsOf u).map fun f => extendLabel (label (next f)) f :=
      map_congr_left fun f hf => by rw [hold _ (hflows f hf)]
    rw [hcands]
    rcases mem_append.mp hu with hu | hu
    · rw [hold u hu]
      exact h.labeling u hu
    · obtain rfl := mem_singleton.mp hu
      rw [update_self]
  · intro u hu f hf
    rcases mem_append.mp hu with hu | hu
    · exact mem_append_left _ (h.nextDone u hu f hf)
    · obtain rfl := mem_singleton.mp hu
      exact mem_append_left _ (hnext f hf)

end

end Labelled

/-- **The traversal succeeds** on an order without repetitions in which each operator comes after its
    neighbours. -/
theorem exists_pathLabels {order : List ℕ} (hnd : order.Nodup) (hfirst : NextFirst flowsOf next order) :
    ∃ labels label, pathLabels flowsOf next order = some labels ∧ Labelled flowsOf next order labels label := by
  suffices ∀ done rest labels label, order = done ++ rest → Labelled flowsOf next done labels label →
      ∃ labels' label', rest.foldlM (visitLabel flowsOf next) labels = some labels' ∧
        Labelled flowsOf next order labels' label' by
    exact this [] order [] (fun _ => "") rfl ⟨rfl, by simp, by simp [IsLabeling], by simp⟩
  intro done rest
  induction rest generalizing done with
  | nil =>
    intro labels label horder h
    rw [append_nil] at horder
    exact ⟨labels, label, rfl, horder ▸ h⟩
  | cons v rest ih =>
    intro labels label horder h
    have hv : v ∉ done := by
      rw [horder] at hnd
      exact fun hmem => (nodup_append.mp hnd).2.2 v hmem v mem_cons_self rfl
    obtain ⟨labels1, label1, hvisit, h1⟩ := h.visit hv (hfirst done v rest horder)
    rw [foldlM_cons, hvisit, Option.bind_eq_bind, Option.bind_some]
    exact ih (done ++ [v]) labels1 label1 (by simp [horder]) h1

/-! ### Labels identify operators -/

theorem extendLabel_ne_empty (label : String) (f : Flow) : extendLabel label f ≠ "" := by
  intro h
  have := congrArg String.toList h
  simp [extendLabel] at this

/-- The label of the path and both ports can be read off. -/
theorem extendLabel_inj {label label' : String} {f f' : Flow} (h : extendLabel label f = extendLabel label' f') :
    label = label' ∧ f.source.port = f'.source.port ∧ f.target.port = f'.target.port := by
  have hsep : ∀ n : ℕ, '#' ∉ (toString (n : ℤ)).toList := fun n => Text.notMem_toString (by decide) (by decide) n
  obtain ⟨hfront, htgt⟩ := Text.append_string_inj (hsep _) (hsep _) h
  obtain ⟨hlab, hsrc⟩ := Text.append_string_inj (hsep _) (hsep _) hfront
  exact ⟨hlab, by exact_mod_cast Text.toString_int_injective hsrc,
    by exact_mod_cast Text.toString_int_injective htgt⟩

theorem foldl_max_mem (l : List String) (a : String) : l.foldl max a = a ∨ l.foldl max a ∈ l := by
  induction l generalizing a with
  | nil => exact .inl rfl
  | cons x l ih =>
    rw [foldl_cons]
    rcases ih (max a x) with h | h
    · rw [h]
      rcases max_choice a x with h' | h' <;> simp [h']
    · exact .inr (mem_cons_of_mem x h)

theorem le_foldl_max (l : List String) (a : String) : a ≤ l.foldl max a ∧ ∀ x ∈ l, x ≤ l.foldl max a := by
  induction l generalizing a with
  | nil => simp
  | cons x l ih =>
    obtain ⟨hacc, hrest⟩ := ih (max a x)
    refine ⟨(le_max_left a x).trans hacc, fun y hy => ?_⟩
    rcases mem_cons.mp hy with rfl | hy
    · exact (le_max_right a y).trans hacc
    · exact hrest y hy

theorem eq_empty_of_le {s : String} (h : s ≤ "") : s = "" := by
  by_contra hne
  have hlt : ("" : String).toList < s.toList := by
    cases hs : s.toList with
    | nil => exact absurd (String.toList_inj.mp hs) hne
    | cons c cs => exact nil_lt_cons c cs
  exact absurd (String.lt_iff_toList_lt.mpr hlt) (not_lt.mpr h)

variable {label : ℕ → String} {vs : List ℕ}

/-- The label of an operator with flows comes from one of them. -/
theorem IsLabeling.exists_flow (h : IsLabeling flowsOf next vs label) {v : ℕ} (hv : v ∈ vs) (hflows : flowsOf v ≠ []) :
    ∃ f ∈ flowsOf v, label v = extendLabel (label (next f)) f := by
  have hlab := h v hv
  generalize hcands : ((flowsOf v).map fun f => extendLabel (label (next f)) f) = candidates at hlab
  rcases foldl_max_mem candidates "" with hempty | hmem
  · obtain ⟨f, hf⟩ := exists_mem_of_ne_nil _ hflows
    have hmem : extendLabel (label (next f)) f ∈ candidates := hcands ▸ mem_map_of_mem hf
    have hle := (le_foldl_max candidates "").2 _ hmem
    rw [hempty] at hle
    exact absurd (eq_empty_of_le hle) (extendLabel_ne_empty _ f)
  · rw [← hcands] at hmem
    obtain ⟨f, hf, heq⟩ := mem_map.mp hmem
    rw [hcands] at heq
    exact ⟨f, hf, hlab.trans heq.symm⟩

theorem IsLabeling.eq_empty_iff (h : IsLabeling flowsOf next vs label) {v : ℕ} (hv : v ∈ vs) :
    label v = "" ↔ flowsOf v = [] := by
  constructor
  · intro hempty
    by_contra hflows
    obtain ⟨f, -, heq⟩ := h.exists_flow hv hflows
    exact extendLabel_ne_empty _ f (heq.symm.trans hempty)
  · intro hflows
    rw [h v hv, hflows]
    rfl

theorem length_lt_extendLabel (label : String) (f : Flow) : label.length < (extendLabel label f).length := by
  have hsep : ("#" : String).length = 1 := rfl
  simp only [extendLabel, String.length_append]
  omega

/-- Labels consist of ports and separators. -/
theorem IsLabeling.notMem (h : IsLabeling flowsOf next vs label) (hclosed : ∀ v ∈ vs, ∀ f ∈ flowsOf v, next f ∈ vs) :
    ∀ v ∈ vs, '_' ∉ (label v).toList := by
  intro v
  induction hlen : (label v).length using Nat.strong_induction_on generalizing v with
  | _ length ih =>
    intro hv
    by_cases hflows : flowsOf v = []
    · rw [(h.eq_empty_iff hv).mpr hflows]
      simp
    · obtain ⟨f, hf, hlab⟩ := h.exists_flow hv hflows
      have hrest := ih _ (hlen ▸ hlab ▸ length_lt_extendLabel _ f) _ rfl (hclosed v hv f hf)
      have hport : ∀ n : ℕ, '_' ∉ (toString (n : ℤ)).toList := fun n => Text.notMem_toString (by decide) (by decide) n
      rw [hlab, extendLabel]
      simp only [String.toList_append, mem_append, hrest, hport, false_or, or_false]
      decide

/-- **Paths to a single sink have distinct labels** if every port has one in-flow at most: the path can
    be followed from the sink by the target ports. -/
theorem IsLabeling.injective {Op : Type} {dag : PortedDag Op}
    (h : IsLabeling dag.graph.outFlows (fun f => f.target.op) dag.operators label)
    (htgt : ∀ f ∈ dag.flows, f.target.op ∈ dag.operators)
    (hport : ∀ f ∈ dag.flows, ∀ g ∈ dag.flows, f.target = g.target → f = g)
    (hsink : ∀ u ∈ dag.operators, ∀ v ∈ dag.operators, dag.graph.outFlows u = [] →
      dag.graph.outFlows v = [] → u = v) : ∀ u ∈ dag.operators, ∀ v ∈ dag.operators, label u = label v → u = v := by
  intro u
  induction hlen : (label u).length using Nat.strong_induction_on generalizing u with
  | _ length ih =>
    intro hu v hv heq
    by_cases hflows : dag.graph.outFlows u = []
    · have hempty : label v = "" := heq ▸ (h.eq_empty_iff hu).mpr hflows
      exact hsink u hu v hv hflows ((h.eq_empty_iff hv).mp hempty)
    · have hflows' : dag.graph.outFlows v ≠ [] := fun hnil =>
        hflows ((h.eq_empty_iff hu).mp (heq.trans ((h.eq_empty_iff hv).mpr hnil)))
      obtain ⟨f, hout, hlab⟩ := h.exists_flow hu hflows
      obtain ⟨g, hout', hlab'⟩ := h.exists_flow hv hflows'
      obtain ⟨hf, rfl⟩ := Dag.mem_outFlows.mp hout
      obtain ⟨hg, rfl⟩ := Dag.mem_outFlows.mp hout'
      obtain ⟨hnext, -, hportEq⟩ := extendLabel_inj (hlab.symm.trans (heq.trans hlab'))
      have hshorter : (label f.target.op).length < length := hlen ▸ hlab ▸ length_lt_extendLabel _ f
      have hop := ih _ hshorter _ rfl (htgt f hf) _ (htgt g hg) hnext
      rw [hport f hf g hg (congrArg₂ FlowTip.mk hop hportEq)]

/-! ### Renamed graphs -/

/-- Labels do not depend on the names of the operators and on the order of the flows. -/
theorem IsLabeling.rename {flowsOf' : ℕ → List Flow} {next' : Flow → ℕ} {vs' : List ℕ} {label' : ℕ → String}
    {ρ : ℕ → ℕ} (h : IsLabeling flowsOf next vs label) (h' : IsLabeling flowsOf' next' vs' label') (μ : ℕ → ℕ)
    (hρ : ∀ v ∈ vs, ρ v ∈ vs') (hflows : ∀ v ∈ vs, (flowsOf' (ρ v)).Perm ((flowsOf v).map (Flow.rename ρ)))
    (hnext : ∀ f, next' (f.rename ρ) = ρ (next f)) (hclosed : ∀ v ∈ vs, ∀ f ∈ flowsOf v, next f ∈ vs)
    (hμ : ∀ v ∈ vs, ∀ f ∈ flowsOf v, μ (next f) < μ v) : ∀ v ∈ vs, label' (ρ v) = label v := by
  intro v
  induction hrank : μ v using Nat.strong_induction_on generalizing v with
  | _ rank ih =>
    intro hv
    have hcands : ((flowsOf' (ρ v)).map fun f => extendLabel (label' (next' f)) f).Perm
        ((flowsOf v).map fun f => extendLabel (label (next f)) f) := by
      refine ((hflows v hv).map _).trans ?_
      rw [map_map]
      refine List.Perm.of_eq (map_congr_left fun f hf => ?_)
      show extendLabel (label' (next' (f.rename ρ))) (f.rename ρ) = _
      rw [hnext, ih _ (hrank ▸ hμ v hv f hf) _ rfl (hclosed v hv f hf)]
      rfl
    rw [h' _ (hρ v hv), h v hv, hcands.foldl_op_eq]

end Jitq.Optimize
