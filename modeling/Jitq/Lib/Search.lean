import Jitq.Lib.Graphs
import Mathlib.Data.List.TakeDrop
import Mathlib.Data.List.Perm.Subperm

namespace Search

open Graphs List

/-! # Graph searches with events

Depth-first and breadth-first search over the out-edges of a finite graph, as graph libraries offer them: the caller
hears about some of the edges that the search follows.

* `depthFirstSearch` — from a root and then from every vertex that is still white; it reports whether it has met an
  edge to a vertex on its stack.  `backEdge_iff` says that this is the case exactly if the graph has a cycle: without
  such an edge, every vertex is finished after its successors;
* `breadthFirstSearch` — from a root only; every vertex gets a color before the search. -/

variable {V : Type} [DecidableEq V] (edges : List (V × V))

def successors (u : V) : List V := (edges.filter fun e => e.1 = u).map Prod.snd

theorem mem_successors {edges : List (V × V)} {u v : V} : v ∈ successors edges u ↔ (u, v) ∈ edges := by
  simp [successors]

/-! ### Depth-first search -/

/-- The black vertices in the order in which they were finished, and whether a back edge was met. -/
structure Visited (V : Type) where
  finished : List V
  backEdge : Bool

/-- The visit of a white vertex below the gray vertices `stack`: an edge to a gray vertex is a back edge, black vertices
    are passed over, white ones are visited.  The first argument bounds the depth of the stack. -/
def visit : ℕ → List V → V → Visited V → Visited V
  | 0, _, _, s => s
  | n + 1, stack, u, s =>
    let s := (successors edges u).foldl (fun s v =>
      if v ∈ u :: stack then { s with backEdge := true }
      else if v ∈ s.finished then s
      else visit n (u :: stack) v s) s
    { s with finished := s.finished ++ [u] }

/-- The search from `root`, and then from each vertex that is still white. -/
def depthFirstSearch (vs : List V) (root : V) : Visited V :=
  (root :: vs).foldl (fun s v => if v ∈ s.finished then s else visit edges vs.length [] v s) ⟨[], false⟩

/-- Each vertex comes after its successors. -/
def FinishOrder (finished : List V) : Prop :=
  ∀ before u after, finished = before ++ u :: after → ∀ v, (u, v) ∈ edges → v ∈ before

/-- A part of a search: no vertex becomes white again, and without a back edge the order goes on as it should. -/
structure Continues (s s' : Visited V) : Prop where
  finished : ∀ v ∈ s.finished, v ∈ s'.finished
  backEdge : s'.backEdge = false → s.backEdge = false
  order : s'.backEdge = false → FinishOrder edges s.finished → FinishOrder edges s'.finished

variable {edges} {s s₁ s₂ : Visited V}

omit [DecidableEq V] in
theorem Continues.refl (s : Visited V) : Continues edges s s := ⟨fun _ h => h, id, fun _ h => h⟩

omit [DecidableEq V] in
theorem Continues.trans (h1 : Continues edges s s₁) (h2 : Continues edges s₁ s₂) : Continues edges s s₂ where
  finished v hv := h2.finished v (h1.finished v hv)
  backEdge h := h1.backEdge (h2.backEdge h)
  order h horder := h2.order h (h1.order (h2.backEdge h) horder)

omit [DecidableEq V] in
theorem FinishOrder.concat {finished : List V} {u : V} (h : FinishOrder edges finished)
    (hu : ∀ v, (u, v) ∈ edges → v ∈ finished) : FinishOrder edges (finished ++ [u]) := by
  intro before w after heq v hv
  rcases eq_nil_or_concat after with rfl | ⟨after, x, rfl⟩
  · -- the new vertex
    obtain ⟨rfl, hw⟩ := append_inj' heq rfl
    obtain rfl : u = w := by simpa using hw
    exact hu v hv
  · rw [concat_eq_append, ← cons_append, ← append_assoc] at heq
    exact h before w after (append_inj' heq rfl).1 v hv

/-- The edges of one vertex: afterwards each target is finished, unless a back edge was met. -/
theorem continues_foldl {gray : List V} {n : ℕ} {l : List V}
    (hvisit : ∀ v s, v ∈ l → v ∉ gray → Continues edges s (visit edges n gray v s) ∧
      v ∈ (visit edges n gray v s).finished) (s : Visited V) :
    let s' := l.foldl (fun s v => if v ∈ gray then { s with backEdge := true }
      else if v ∈ s.finished then s else visit edges n gray v s) s
    Continues edges s s' ∧ (s'.backEdge = false → ∀ v ∈ l, v ∈ s'.finished) := by
  induction l generalizing s with
  | nil => exact ⟨Continues.refl s, by simp⟩
  | cons v l ih =>
    rw [foldl_cons]
    -- one edge: its target is finished, or it is a back edge
    have hstep : ∀ s₁, (if v ∈ gray then { s with backEdge := true }
        else if v ∈ s.finished then s else visit edges n gray v s) = s₁ →
        Continues edges s s₁ ∧ (s₁.backEdge = false → v ∈ s₁.finished) := by
      rintro s₁ rfl
      split_ifs with hgray hblack
      · exact ⟨⟨fun _ h => h, nofun, nofun⟩, nofun⟩
      · exact ⟨Continues.refl s, fun _ => hblack⟩
      · exact (hvisit v s mem_cons_self hgray).imp_right fun h _ => h
    obtain ⟨hfirst, hv⟩ := hstep _ rfl
    obtain ⟨hcont, hall⟩ := ih (fun w s hw => hvisit w s (mem_cons_of_mem v hw)) _
    refine ⟨hfirst.trans hcont, fun h => forall_mem_cons.mpr ⟨?_, hall h⟩⟩
    exact hcont.finished v (hv (hcont.backEdge h))

/-- The search goes over its vertices as over the edges of a vertex that is not on the stack. -/
theorem depthFirstSearch_eq (vs : List V) (root : V) : depthFirstSearch edges vs root =
    (root :: vs).foldl (fun s v => if v ∈ [] then { s with backEdge := true }
      else if v ∈ s.finished then s else visit edges vs.length [] v s) ⟨[], false⟩ := by
  simp only [not_mem_nil, if_false]
  rfl

section Closed

variable {vs : List V} (hclosed : ∀ e ∈ edges, e.1 ∈ vs ∧ e.2 ∈ vs)
include hclosed

/-- A visit finishes its vertex.  The stack has no vertex twice, so it is never deeper than there are vertices. -/
theorem continues_visit {n : ℕ} {stack : List V} {u : V} (hnd : (u :: stack).Nodup)
    (hsub : ∀ w ∈ u :: stack, w ∈ vs) (hn : vs.length ≤ n + stack.length) (s : Visited V) :
    Continues edges s (visit edges n stack u s) ∧ u ∈ (visit edges n stack u s).finished := by
  induction n generalizing stack u s with
  | zero =>
    have hlen := (subperm_of_subset hnd hsub).length_le
    rw [length_cons] at hlen
    omega
  | succ n ih =>
    have hvisit : ∀ v s, v ∈ successors edges u → v ∉ u :: stack →
        Continues edges s (visit edges n (u :: stack) v s) ∧ v ∈ (visit edges n (u :: stack) v s).finished := by
      intro v s hv hgray
      refine ih (nodup_cons.mpr ⟨hgray, hnd⟩) (fun w hw => ?_) (by rw [length_cons]; omega) s
      rcases mem_cons.mp hw with rfl | hw
      · exact (hclosed _ (mem_successors.mp hv)).2
      · exact hsub w hw
    have hfold := continues_foldl hvisit s
    rw [visit]
    obtain ⟨hcont, hall⟩ := hfold
    refine ⟨⟨fun v hv => mem_append_left _ (hcont.finished v hv), hcont.backEdge, fun h horder => ?_⟩, by simp⟩
    exact (hcont.order h horder).concat fun v hv => hall h v (mem_successors.mpr hv)

/-- The search visits every vertex, unless it meets a back edge. -/
theorem continues_depthFirstSearch {root : V} (hroot : root ∈ vs) :
    Continues edges ⟨[], false⟩ (depthFirstSearch edges vs root) ∧
      ((depthFirstSearch edges vs root).backEdge = false →
        ∀ v ∈ vs, v ∈ (depthFirstSearch edges vs root).finished) := by
  have hmem : ∀ v ∈ root :: vs, v ∈ vs := by simpa using hroot
  rw [depthFirstSearch_eq]
  refine (continues_foldl (fun v s hv _ => ?_) _).imp_right fun h hback v hv =>
    h hback v (mem_cons_of_mem root hv)
  exact continues_visit hclosed (by simp) (by simpa using hmem v hv) (by simp) s

end Closed

theorem FinishOrder.acyclic {finished : List V} (h : FinishOrder edges finished)
    (hall : ∀ e ∈ edges, e.1 ∈ finished) : Acyclic edges := by
  -- positions in the finish order decrease along the edges
  have hranked : Ranked (edges.map Prod.swap) finished.idxOf := by
    intro e he
    obtain ⟨⟨u, v⟩, huv, rfl⟩ := mem_map.mp he
    have hmem := hall _ huv
    have hlt := idxOf_lt_length_of_mem hmem
    have hsplit : finished = finished.take (finished.idxOf u) ++ u :: finished.drop (finished.idxOf u + 1) := by
      conv_lhs => rw [← take_append_drop (finished.idxOf u) finished, drop_eq_getElem_cons hlt, getElem_idxOf]
    have hv := h _ u _ hsplit v huv
    exact (mem_take_iff_idxOf_lt (mem_of_mem_take hv)).mp hv
  have hswap := hranked.acyclic.swap
  rwa [map_map, Prod.swap_swap_eq, map_id] at hswap

/-- A back edge closes a cycle, if every vertex of the stack reaches the vertices that are visited. -/
theorem reaches_of_backEdge_foldl {n : ℕ} {gray l : List V}
    (hgray : ∀ v ∈ l, ∀ w ∈ gray, Reaches edges w v)
    (hvisit : ∀ v ∈ l, ∀ s, (visit edges n gray v s).backEdge = true →
      s.backEdge = true ∨ ∃ w, Reaches edges w w) {s : Visited V}
    (h : (l.foldl (fun s v => if v ∈ gray then { s with backEdge := true }
      else if v ∈ s.finished then s else visit edges n gray v s) s).backEdge = true) :
    s.backEdge = true ∨ ∃ w, Reaches edges w w := by
  induction l generalizing s with
  | nil => exact .inl h
  | cons v l ih =>
    obtain ⟨hv, hl⟩ := forall_mem_cons.mp hgray
    obtain ⟨hvisit, hrest⟩ := forall_mem_cons.mp hvisit
    rcases ih hl hrest h with hs | hs
    · dsimp only at hs
      split_ifs at hs with hback hblack
      · exact .inr ⟨v, hv v hback⟩
      · exact .inl hs
      · exact hvisit s hs
    · exact .inr hs

theorem reaches_of_backEdge_visit {n : ℕ} {stack : List V} {u : V}
    (hstack : ∀ w ∈ stack, Reaches edges w u) {s : Visited V}
    (h : (visit edges n stack u s).backEdge = true) :
    s.backEdge = true ∨ ∃ w, Reaches edges w w := by
  induction n generalizing stack u s with
  | zero => exact .inl h
  | succ n ih =>
    have hgray : ∀ v ∈ successors edges u, ∀ w ∈ u :: stack, Reaches edges w v := by
      intro v hv
      have hedge := mem_successors.mp hv
      exact forall_mem_cons.mpr ⟨.single hedge, fun w hw => (hstack w hw).tail hedge⟩
    exact reaches_of_backEdge_foldl hgray (fun v hv s hs => ih (hgray v hv) hs) h

theorem reaches_of_backEdge {vs : List V} {root : V}
    (h : (depthFirstSearch edges vs root).backEdge = true) : ∃ w, Reaches edges w w := by
  rw [depthFirstSearch_eq] at h
  have hback := reaches_of_backEdge_foldl (by simp)
    (fun v _ s hs => reaches_of_backEdge_visit (by simp) hs) h
  exact hback.resolve_left nofun

/-- **A depth-first search meets a back edge exactly if the graph has a cycle.** -/
theorem backEdge_iff {vs : List V} (hclosed : ∀ e ∈ edges, e.1 ∈ vs ∧ e.2 ∈ vs) {root : V} (hroot : root ∈ vs) :
    (depthFirstSearch edges vs root).backEdge = true ↔ ¬ Acyclic edges := by
  constructor
  · intro h hacyc
    obtain ⟨w, hw⟩ := reaches_of_backEdge h
    exact hacyc w hw
  · intro h
    by_contra hback
    rw [Bool.not_eq_true] at hback
    obtain ⟨hcont, hall⟩ := continues_depthFirstSearch hclosed hroot
    have horder := hcont.order hback (by intro before u after heq; simp at heq)
    exact h (horder.acyclic fun e he => hall hback _ (hclosed e he).1)

/-! ### Breadth-first search -/

inductive Color
  | white
  | gray
  | black
  deriving DecidableEq

/-- The color map, and whether an edge to a vertex was met that is not white. -/
structure Explored (V : Type) where
  colors : List (V × Color)
  nonTreeEdge : Bool

/-- `put(colors, v, color)`. -/
def put (colors : List (V × Color)) (v : V) (color : Color) : List (V × Color) :=
  if v ∈ colors.map Prod.fst then colors.map fun e => if e.1 = v then (v, color) else e else colors ++ [(v, color)]

/-- The out-edges of a vertex: white targets become gray and enter the queue. -/
def exploreEdges (s : List V × Explored V) (v : V) : List V × Explored V :=
  if s.2.colors.lookup v = some .white then (s.1 ++ [v], { s.2 with colors := put s.2.colors v .gray })
  else (s.1, { s.2 with nonTreeEdge := true })

variable (edges)

/-- The vertices of the queue, one after the other.  The first argument bounds their number. -/
def explore : ℕ → List V → Explored V → Explored V
  | 0, _, s => s
  | _ + 1, [], s => s
  | n + 1, u :: queue, s =>
    let (queue, s) := (successors edges u).foldl exploreEdges (queue, s)
    explore n queue { s with colors := put s.colors u .black }

def breadthFirstSearch (vs : List V) (root : V) : Explored V :=
  explore edges vs.length [root] ⟨put (vs.map fun v => (v, .white)) root .gray, false⟩

variable {edges}

theorem length_put {colors : List (V × Color)} {v : V} (h : v ∈ colors.map Prod.fst) (color : Color) :
    (put colors v color).length = colors.length ∧ (put colors v color).map Prod.fst = colors.map Prod.fst := by
  rw [put, if_pos h]
  refine ⟨length_map _, ?_⟩
  rw [map_map]
  apply map_congr_left
  intro e _
  show (if e.1 = v then (v, color) else e).1 = e.1
  split
  · rename_i heq
    exact heq.symm
  · rfl

/-- From a vertex without out-edges the search meets no edge, and all vertices have a color. -/
theorem breadthFirstSearch_of_sink {vs : List V} {root : V} (hroot : root ∈ vs) (hsink : successors edges root = []) :
    (breadthFirstSearch edges vs root).nonTreeEdge = false ∧
      (breadthFirstSearch edges vs root).colors.length = vs.length := by
  obtain ⟨n, hn⟩ : ∃ n, vs.length = n + 1 := ⟨vs.length - 1, by have := length_pos_of_mem hroot; omega⟩
  have hkeys : root ∈ (vs.map fun v => (v, Color.white)).map Prod.fst := by simpa using hroot
  obtain ⟨hlen, hfst⟩ := length_put hkeys .gray
  obtain ⟨hlen', -⟩ := length_put (hfst ▸ hkeys) .black
  have hrun : breadthFirstSearch edges vs root =
      ⟨put (put (vs.map fun v => (v, .white)) root .gray) root .black, false⟩ := by
    rw [breadthFirstSearch, hn, explore, hsink]
    cases n <;> rfl
  rw [hrun]
  exact ⟨rfl, by rw [hlen', hlen, length_map]⟩

end Search
