import Jitq.Optimize.AttributeIdTracking

namespace Jitq.Optimize

open Operators Attributes List Function Option

/-! # Chains of joins

A chain joins one tuple after the other to what it has so far, as the left or as the right input.  All joins of a chain
are on the same key, so its key fields should end up with one attribute id.

`AttributeIdTrackingVisitor` gives `MoveFields` the attribute id of the right key by reference.  After each join, the
set of the left id has therefore lost all its fields and has only the output of the join added again.

* `merge_step`, `copy_step`, `track_join` — what the calls for one join do;
* `chain_sharesId_iff` — the key fields of a chain have one id exactly if, from the second join on, the chain is the
  left input;
* `registry_sound_iff` — together with the calls of the registry itself. -/

/-- One join of a chain: whether the chain is its left input, and the fields of the other input and of the output. -/
structure ChainJoin where
  chainLeft : Bool
  numKeys : ℕ
  tuple : List ℕ
  output : List ℕ

def ChainJoin.left (j : ChainJoin) (chain : List ℕ) : List ℕ := if j.chainLeft then chain else j.tuple

def ChainJoin.right (j : ChainJoin) (chain : List ℕ) : List ℕ := if j.chainLeft then j.tuple else chain

/-- The calls for one join. -/
def trackJoin (numKeys : ℕ) (left right output : List ℕ) (s : Heap) : Option Heap :=
  (trackTuples (fun _ => []) (.join numKeys : Operator Unit) [left, right] output).bind (·.foldlM Tracking.apply s)

/-- The visits of a chain: each join comes after its inputs, and the visits of the other operators do nothing. -/
def trackChain (s : Heap) (chain : List ℕ) : List ChainJoin → Option Heap
  | [] => some s
  | j :: js => (trackJoin j.numKeys (j.left chain) (j.right chain) j.output s).bind fun s => trackChain s j.output js

/-- The key fields of a chain and of its inputs. -/
def keyFields (chain : List ℕ) (js : List ChainJoin) : List ℕ :=
  chain.take 1 ++ js.flatMap fun j => j.tuple.take 1 ++ j.output.take 1

/-! ### One call -/

section Steps

variable {s : Heap}

/-- The field is in the set of its id and in no other. -/
def Registered (s : Heap) (f : ℕ) : Prop := ∀ id, f ∈ s.fields id ↔ s.attributeId f = some id

/-- What a sequence of copies does: an output takes over the id of one of its inputs, the other fields stay as they
    are. -/
structure Copied (ts : List (ℕ × ℕ)) (s s' : Heap) : Prop where
  alive : s'.alive = s.alive
  frame : ∀ f ∉ ts.map Prod.snd, s'.attributeId f = s.attributeId f ∧ ∀ id, f ∈ s'.fields id ↔ f ∈ s.fields id
  ids : ∀ f ∈ ts.map Prod.snd, ∃ t ∈ ts, t.2 = f ∧ s'.attributeId f = s.attributeId t.1
  registered : ∀ f, Registered s f → Registered s' f

theorem copy_step {input output id : ℕ} (hid : s.attributeId input = some id) (hinp : input ∈ s.alive)
    (hne : input ≠ output) : ∃ s', Tracking.apply s (.copy input output) = some s' ∧ Copied [(input, output)] s s' := by
  have howned : (s.leaveId output).Owned id := leaveId_owned.mpr (.inr ⟨input, hinp, hne, hid⟩)
  have hmem : ∀ {f id'}, f ∈ ((s.leaveId output).enterId id output).fields id' ↔
      id' = id ∧ f = output ∨ f ∈ s.fields id' ∧ (s.attributeId output = some id' → f ≠ output) := by
    intro f id'
    simp only [Heap.enterId]
    by_cases hid' : id' = id
    · subst hid'
      simp [mem_leaveId_fields]
    · simp [mem_leaveId_fields, hid']
  have hattr : ((s.leaveId output).enterId id output).attributeId = update s.attributeId output (some id) := by
    simp [Heap.enterId]
  refine ⟨(s.leaveId output).enterId id output, ?_, leaveId_alive, fun f hf => ?_, fun f hf => ?_, fun f hreg id' => ?_⟩
  · show (s.attributeId input).bind _ = _
    rw [hid, bind_some, Heap.addField, if_pos howned]
  · have hf : f ≠ output := by simpa using hf
    exact ⟨by rw [hattr, update_of_ne hf], fun id' => by simp [hmem, hf]⟩
  · obtain rfl : f = output := by simpa using hf
    exact ⟨_, mem_singleton_self _, rfl, by rw [hattr, update_self, hid]⟩
  · rw [hmem, hreg id', hattr]
    by_cases hf : f = output
    · subst hf
      simp [eq_comm]
    · simp [hf]

/-- A merge through the reference to a registered field empties the set of the left id. -/
theorem merge_step {left right a b : ℕ} (hleft : s.attributeId left = some a) (hright : s.attributeId right = some b)
    (hmem : right ∈ s.fields b) (hfields : ∀ f ∈ s.fields b, f ∈ s.alive ∧ s.attributeId f = some b) :
    Tracking.apply s (.merge left right) = some { s with
      attributeId := fun f => if f ∈ s.fields b then some a else s.attributeId f
      fields := update s.fields a ∅ } := by
  have hloop : s.LoopSafe a b := ⟨fun f hf => (hfields f hf).1, .inr (.inr (.inl fun f hf => (hfields f hf).2))⟩
  have hagain : (s.takeFields a b).get (.member right) = some a := if_pos hmem
  have hget : s.get (.member right) = some b := hright
  show (s.attributeId left).bind _ = _
  rw [hleft, bind_some, Heap.moveFields, hget, bind_some, if_pos hloop, hagain, map_some]
  simp [Heap.takeFields]

theorem copies_step {ts : List (ℕ × ℕ)} (hts : ∀ t ∈ ts, t.1 ∉ ts.map Prod.snd ∧ t.1 ∈ s.alive ∧ s.attributeId t.1 ≠ none) :
    ∃ s', (ts.map fun t => Tracking.copy t.1 t.2).foldlM Tracking.apply s = some s' ∧ Copied ts s s' := by
  induction ts generalizing s with
  | nil => exact ⟨s, rfl, rfl, fun f _ => ⟨rfl, fun id => Iff.rfl⟩, fun f hf => absurd hf not_mem_nil, fun f h => h⟩
  | cons t ts ih =>
    obtain ⟨hin, halive, hsome⟩ := hts t mem_cons_self
    obtain ⟨id, hid⟩ := ne_none_iff_exists'.mp hsome
    obtain ⟨s1, hs1, hfirst⟩ := copy_step hid halive (ne_and_not_mem_of_not_mem_cons hin).1
    have hother : ∀ {f}, f ≠ t.2 → f ∉ [t].map Prod.snd := fun hf hmem => hf (mem_singleton.mp hmem)
    have hts1 : ∀ t' ∈ ts, t'.1 ∉ ts.map Prod.snd ∧ t'.1 ≠ t.2 ∧ t'.1 ∈ s.alive ∧ s.attributeId t'.1 ≠ none := by
      intro t' ht'
      obtain ⟨hnot, hrest⟩ := hts t' (mem_cons_of_mem t ht')
      exact ⟨(ne_and_not_mem_of_not_mem_cons hnot).2, (ne_and_not_mem_of_not_mem_cons hnot).1, hrest⟩
    obtain ⟨s', hs', hrest⟩ := @ih s1 fun t' ht' => by
      obtain ⟨hnot, hne, halive', hsome'⟩ := hts1 t' ht'
      exact ⟨hnot, hfirst.alive ▸ halive', (hfirst.frame _ (hother hne)).1 ▸ hsome'⟩
    refine ⟨s', ?_, hrest.alive.trans hfirst.alive, fun f hf => ?_, fun f hf => ?_,
      fun f hreg => hrest.registered f (hfirst.registered f hreg)⟩
    · rw [map_cons, foldlM_cons, hs1]
      exact hs'
    · obtain ⟨hne, hnot⟩ := ne_and_not_mem_of_not_mem_cons hf
      obtain ⟨hid1, hmem1⟩ := hfirst.frame f (hother hne)
      obtain ⟨hid', hmem'⟩ := hrest.frame f hnot
      exact ⟨hid'.trans hid1, fun id => (hmem' id).trans (hmem1 id)⟩
    · by_cases hlater : f ∈ ts.map Prod.snd
      · obtain ⟨t', ht', rfl, hid'⟩ := hrest.ids f hlater
        exact ⟨t', mem_cons_of_mem t ht', rfl, hid'.trans (hfirst.frame _ (hother (hts1 t' ht').2.1)).1⟩
      · obtain rfl : f = t.2 := (mem_cons.mp hf).resolve_right hlater
        obtain ⟨t', ht', -, hid'⟩ := hfirst.ids t.2 (mem_singleton_self _)
        obtain rfl := mem_singleton.mp ht'
        exact ⟨t, mem_cons_self, rfl, (hrest.frame _ hlater).1.trans hid'⟩

end Steps

/-! ### One join -/

/-- The widths of a join. -/
structure JoinTyped (numKeys : ℕ) (left right output : List ℕ) : Prop where
  keys : 1 ≤ numKeys
  keysLeft : numKeys ≤ left.length
  keysRight : numKeys ≤ right.length
  output : output.length = left.length + (right.length - numKeys)

variable {f l numKeys r o a b : ℕ} {left right output : List ℕ} {s : Heap} {js : List ChainJoin}

/-- The calls for a join: the keys are merged, then fields are copied, to the first output the left key. -/
theorem trackTuples_join (h : JoinTyped numKeys left right output) (hnd : output.Nodup) (hl : left[0]? = some l)
    (hr : right[0]? = some r) (ho : output[0]? = some o) :
    ∃ ts : List (ℕ × ℕ), trackTuples (fun _ => []) (.join numKeys : Operator Unit) [left, right] output =
        some (.merge l r :: ts.map fun t => Tracking.copy t.1 t.2) ∧ o ∈ ts.map Prod.snd ∧
      ∀ t ∈ ts, t.2 ∈ output ∧ (t.1 ∈ left ∨ t.1 ∈ right) ∧ (t.2 = o → t.1 = l) := by
  obtain ⟨hkeys, hkl, hkr, hlen⟩ := h
  let pair : ℕ × ℕ × ℕ → ℕ × ℕ := fun p => (([left, right].getD p.1 []).getD p.2.1 0, output.getD p.2.2 0)
  let indexes := copiedFields (fun _ => []) (.join numKeys : Operator Unit) [left.length, right.length] output.length
  -- every index pair is inside of its tuples, and only the first one has the first output
  have hidxs : ∀ p ∈ indexes, (p.1 = 0 ∧ p.2.1 < left.length ∨ p.1 = 1 ∧ p.2.1 < right.length) ∧
      p.2.2 < output.length ∧ (p.2.2 = 0 → p = (0, 0, 0)) := by
    intro p hp
    obtain hp | hp := mem_append.mp hp
    · obtain ⟨i, hi, rfl⟩ := mem_map.mp hp
      have hi := mem_range.mp hi
      exact ⟨.inl ⟨rfl, hi⟩, by simp only; omega, by rintro rfl; rfl⟩
    · obtain ⟨i, hi, rfl⟩ := mem_map.mp hp
      obtain ⟨hlo, hhi⟩ := mem_range'_1.mp hi
      refine ⟨.inr ⟨rfl, ?_⟩, ?_, fun hzero => ?_⟩ <;> simp only at * <;> omega
  have hpair : ∀ p ∈ indexes, (do
      let input ← ([left, right][p.1]?).bind (·[p.2.1]?)
      let output ← output[p.2.2]?
      some (Tracking.copy input output)) = some (Tracking.copy (pair p).1 (pair p).2) := by
    intro p hp
    obtain ⟨⟨hport, hlt⟩ | ⟨hport, hlt⟩, hout, -⟩ := hidxs p hp
    · simp [pair, hport, hlt, hout]
    · simp [pair, hport, hlt, hout]
  have hfirst : pair (0, 0, 0) = (l, o) := by
    simp [pair, getD_eq_getElem?_getD, hl, ho]
  have hmerges : mergedFields (.join numKeys : Operator Unit) [left, right] = some [.merge l r] := by
    simp [mergedFields, hl, hr]
  refine ⟨indexes.map pair, ?_, ?_, fun t ht => ?_⟩
  · unfold trackTuples
    rw [hmerges, bind_eq_bind, bind_some, map_cons, map_cons, map_nil, Partial.mapM_eq_some_map hpair]
    simp [List.map_map, comp_def]
  · rw [List.map_map]
    refine mem_map.mpr ⟨(0, 0, 0), mem_append_left _ (mem_map.mpr ⟨0, mem_range.mpr (by omega), rfl⟩), ?_⟩
    exact congrArg Prod.snd hfirst
  · obtain ⟨p, hp, rfl⟩ := mem_map.mp ht
    obtain ⟨hport, hlt, hzero⟩ := hidxs p hp
    have hout : output[p.2.2]? = some (pair p).2 := by
      simp [pair, getD_eq_getElem?_getD, getElem?_eq_getElem hlt]
    refine ⟨mem_of_getElem? hout, ?_, fun heq => ?_⟩
    · obtain ⟨hport, hin⟩ | ⟨hport, hin⟩ := hport
      · exact .inl (by simp [pair, hport, getD_eq_getElem?_getD, getElem?_eq_getElem hin])
      · exact .inr (by simp [pair, hport, getD_eq_getElem?_getD, getElem?_eq_getElem hin])
    · have hidx : p.2.2 = 0 := (getElem?_inj hlt hnd).mp (hout.trans (heq ▸ ho.symm))
      rw [hzero hidx, hfirst]

/-- What the visit of a join needs of its fields: the inputs have ids and are no outputs, the outputs have ids of their
    own, and the set of the right id `b` has only fields with this id, the right key among them. -/
structure JoinReady (s : Heap) (left right output : List ℕ) (r a b : ℕ) : Prop where
  inputs : ∀ f, f ∈ left ∨ f ∈ right → f ∉ output ∧ f ∈ s.alive ∧ s.attributeId f ≠ none
  outputs : ∀ f ∈ output, Registered s f ∧ s.attributeId f ≠ none ∧ s.attributeId f ≠ some a
  rightKey : r ∈ s.fields b
  moved : ∀ f ∈ s.fields b, f ∉ output ∧ f ∈ s.alive ∧ s.attributeId f = some b

/-- What the visit of a join leads to: the fields of the right id have the left id, the set of the left id has only
    outputs, and the key of the output has the left id. -/
structure Joined (s s' : Heap) (left right output : List ℕ) (o a b : ℕ) : Prop where
  alive : s'.alive = s.alive
  frame : ∀ f ∉ output, s'.attributeId f = (if f ∈ s.fields b then some a else s.attributeId f) ∧
    ∀ id, f ∈ s'.fields id ↔ id ≠ a ∧ f ∈ s.fields id
  outputs : ∀ f ∈ output, Registered s' f ∧ s'.attributeId f ≠ none
  key : s'.attributeId o = some a
  ids : ∀ f ∈ output, s'.attributeId f = s.attributeId f ∨ s'.attributeId f = some a ∨
    ∃ i, (i ∈ left ∨ i ∈ right) ∧ s'.attributeId f = s.attributeId i

theorem Joined.mem_output {s' : Heap} (h : Joined s s' left right output o a b) : ∀ f ∈ s'.fields a, f ∈ output := by
  intro f hf
  by_contra hnot
  exact (((h.frame f hnot).2 a).mp hf).1 rfl

/-- **The visit of a join.** -/
theorem track_join (htyped : JoinTyped numKeys left right output) (hnd : output.Nodup) (hl : left[0]? = some l)
    (hr : right[0]? = some r) (ho : output[0]? = some o) (ha : s.attributeId l = some a)
    (hb : s.attributeId r = some b) (h : JoinReady s left right output r a b) :
    ∃ s', trackJoin numKeys left right output s = some s' ∧ Joined s s' left right output o a b := by
  obtain ⟨ts, hcalls, hmem, hts⟩ := trackTuples_join htyped hnd hl hr ho
  -- the merge
  let s1 : Heap := { s with
    attributeId := fun f => if f ∈ s.fields b then some a else s.attributeId f
    fields := update s.fields a ∅ }
  have hs1 : Tracking.apply s (.merge l r) = some s1 := merge_step ha hb h.rightKey fun f hf => (h.moved f hf).2
  have hattr1 : ∀ f, s1.attributeId f = if f ∈ s.fields b then some a else s.attributeId f := fun f => rfl
  have hfields1 : ∀ f id, f ∈ s1.fields id ↔ id ≠ a ∧ f ∈ s.fields id := by
    intro f id
    show f ∈ update s.fields a ∅ id ↔ _
    by_cases hid : id = a
    · subst hid
      simp
    · simp [hid]
  have hout1 : ∀ f ∈ output, s1.attributeId f = s.attributeId f := by
    intro f hf
    rw [hattr1, if_neg fun hmem => (h.moved f hmem).1 hf]
  have hreg1 : ∀ f ∈ output, Registered s1 f := by
    intro f hf id
    obtain ⟨hreg, -, hne⟩ := h.outputs f hf
    rw [hfields1, hreg id, hout1 f hf]
    refine ⟨fun hid => hid.2, fun hid => ⟨?_, hid⟩⟩
    rintro rfl
    exact hne hid
  -- the copies
  have hsub : ∀ f ∈ ts.map Prod.snd, f ∈ output := by
    intro f hf
    obtain ⟨t, ht, rfl⟩ := mem_map.mp hf
    exact (hts t ht).1
  obtain ⟨s', hs', hcopied⟩ := @copies_step s1 ts fun t ht => by
    obtain ⟨hnot, halive, hsome⟩ := h.inputs t.1 (hts t ht).2.1
    refine ⟨fun hmem => hnot (hsub _ hmem), halive, ?_⟩
    rw [hattr1]
    split
    · exact some_ne_none a
    · exact hsome
  have hids : ∀ f ∈ output, s'.attributeId f = s.attributeId f ∨ s'.attributeId f = some a ∨
      ∃ i, (i ∈ left ∨ i ∈ right) ∧ s'.attributeId f = s.attributeId i := by
    intro f hf
    by_cases hft : f ∈ ts.map Prod.snd
    · obtain ⟨t, ht, -, hid⟩ := hcopied.ids f hft
      rw [hattr1] at hid
      split at hid
      · exact .inr (.inl hid)
      · exact .inr (.inr ⟨t.1, (hts t ht).2.1, hid⟩)
    · exact .inl ((hcopied.frame f hft).1.trans (hout1 f hf))
  refine ⟨s', ?_, hcopied.alive, fun f hf => ?_, fun f hf => ⟨hcopied.registered f (hreg1 f hf), ?_⟩, ?_, hids⟩
  · rw [trackJoin, hcalls, bind_some, foldlM_cons, hs1]
    exact hs'
  · obtain ⟨hid, hmem⟩ := hcopied.frame f fun hmem => hf (hsub f hmem)
    exact ⟨hid, fun id => (hmem id).trans (hfields1 f id)⟩
  · obtain hid | hid | ⟨i, hi, hid⟩ := hids f hf
    · exact hid ▸ (h.outputs f hf).2.1
    · exact hid ▸ some_ne_none a
    · exact hid ▸ (h.inputs i hi).2.2
  · obtain ⟨t, ht, hto, hid⟩ := hcopied.ids o hmem
    rw [hid, (hts t ht).2.2 hto, hattr1, ha, ite_self]

/-! ### A chain -/

/-- The field has an id of its own. -/
structure Own (s : Heap) (f : ℕ) : Prop where
  alive : f ∈ s.alive
  registered : Registered s f
  single : ∃ id, s.attributeId f = some id ∧ s.fields id = {f} ∧ ∀ g ∈ s.alive, s.attributeId g = some id → g = f

theorem Own.attributeId_ne {g id : ℕ} (h : Own s f) (hg : g ∈ s.alive) (hid : s.attributeId g = some id) (hne : g ≠ f) :
    s.attributeId f ≠ some id := by
  intro hf
  obtain ⟨c, hc, -, honly⟩ := h.single
  obtain rfl := some.inj (hf.symm.trans hc)
  exact hne (honly g hg hid)

theorem Own.attributeId_ne_none (h : Own s f) : s.attributeId f ≠ none := by
  obtain ⟨c, hc, -⟩ := h.single
  rw [hc]
  exact some_ne_none c

theorem Own.mem_fields {g id : ℕ} (h : Own s f) (hf : s.attributeId f = some id) : g ∈ s.fields id ↔ g = f := by
  obtain ⟨c, hc, hfields, -⟩ := h.single
  obtain rfl := some.inj (hf.symm.trans hc)
  rw [hfields, Finset.mem_singleton]

/-- The visit of a join leaves the ids alone that its fields do not have. -/
theorem Own.trackJoin {s' : Heap} (hf : Own s f) (hinp : f ∉ left ∧ f ∉ right ∧ f ∉ output) (hl : l ∈ left)
    (hr : r ∈ right) (ha : s.attributeId l = some a) (hb : s.attributeId r = some b)
    (h : JoinReady s left right output r a b) (hout : ∀ g ∈ output, g ∈ s.alive)
    (hjoined : Joined s s' left right output o a b) : Own s' f := by
  obtain ⟨hleft, hright, houtput⟩ := hinp
  obtain ⟨c, hc, hfields, honly⟩ := hf.single
  have hca : c ≠ a := by
    rintro rfl
    exact hleft (honly l (h.inputs l (.inl hl)).2.1 ha ▸ hl)
  have hcb : c ≠ b := by
    rintro rfl
    exact hright (honly r (h.inputs r (.inr hr)).2.1 hb ▸ hr)
  have hnotmoved : f ∉ s.fields b := by
    rw [hf.registered b, hc]
    exact fun heq => hcb (some.inj heq)
  have hc' : s'.attributeId f = some c := by
    rw [(hjoined.frame f houtput).1, if_neg hnotmoved, hc]
  -- no output takes this id over
  have houts : ∀ g ∈ output, s'.attributeId g ≠ some c := by
    intro g hg hgc
    obtain hid | hid | ⟨i, hi, hid⟩ := hjoined.ids g hg
    · exact houtput (honly g (hout g hg) (hid ▸ hgc) ▸ hg)
    · exact hca (some.inj (hgc.symm.trans hid))
    · have hif := honly i (h.inputs i hi).2.1 (hid ▸ hgc)
      exact hi.elim (fun hi => hleft (hif ▸ hi)) fun hi => hright (hif ▸ hi)
  refine ⟨hjoined.alive ▸ hf.alive, fun id => ?_, c, hc', ?_, fun g hg hgc => ?_⟩
  · rw [(hjoined.frame f houtput).2, hf.registered id, hc, hc']
    refine ⟨fun hid => hid.2, fun hid => ⟨?_, hid⟩⟩
    rintro rfl
    exact hca (some.inj hid)
  · ext g
    rw [Finset.mem_singleton]
    by_cases hg : g ∈ output
    · rw [(hjoined.outputs g hg).1 c]
      refine ⟨fun hgc => absurd hgc (houts g hg), ?_⟩
      rintro rfl
      exact absurd hg houtput
    · rw [(hjoined.frame g hg).2, hfields, Finset.mem_singleton]
      exact ⟨fun hgf => hgf.2, fun hgf => ⟨hca, hgf⟩⟩
  · by_cases hgo : g ∈ output
    · exact absurd hgc (houts g hgo)
    · rw [(hjoined.frame g hgo).1] at hgc
      split at hgc
      · exact absurd (some.inj hgc).symm hca
      · exact honly g (hjoined.alive ▸ hg) hgc

/-- The widths of the joins of a chain. -/
def ChainTyped : List ℕ → List ChainJoin → Prop
  | _, [] => True
  | chain, j :: js => JoinTyped j.numKeys (j.left chain) (j.right chain) j.output ∧ ChainTyped j.output js

/-- The first field of a tuple, whose id has only fields with this id in its set. -/
structure KeyAt (s : Heap) (tuple : List ℕ) (k id : ℕ) : Prop where
  first : tuple[0]? = some k
  attributeId : s.attributeId k = some id
  mem : k ∈ s.fields id
  members : ∀ f ∈ s.fields id, f ∈ s.alive ∧ s.attributeId f = some id

theorem KeyAt.id_eq {tuple : List ℕ} {k k' id id' : ℕ} (h : KeyAt s tuple k id)
    (h' : KeyAt s tuple k' id') : id = id' := by
  obtain rfl := some.inj (h.first.symm.trans h'.first)
  exact some.inj (h.attributeId.symm.trans h'.attributeId)

theorem exists_keyAt {tuple : List ℕ} (hne : tuple ≠ []) (hown : ∀ f ∈ tuple, Own s f) : ∃ k id, KeyAt s tuple k id := by
  obtain ⟨k, rest, rfl⟩ := exists_cons_of_ne_nil hne
  have hk : Own s k := hown k mem_cons_self
  obtain ⟨id, hid⟩ := ne_none_iff_exists'.mp hk.attributeId_ne_none
  refine ⟨k, id, rfl, hid, (hk.mem_fields hid).mpr rfl, fun f hf => ?_⟩
  obtain rfl := (hk.mem_fields hid).mp hf
  exact ⟨hk.alive, hid⟩

/-- The fields of the joins that are left. -/
def laterFields (js : List ChainJoin) : List ℕ := js.flatMap fun j => j.tuple ++ j.output

/-- The state before the visits of the rest of a chain, whose key `k` has the id `c`. -/
structure ChainAt (s : Heap) (chain : List ℕ) (js : List ChainJoin) (k c : ℕ) : Prop where
  inputs : ∀ f ∈ chain, f ∈ s.alive ∧ s.attributeId f ≠ none
  key : KeyAt s chain k c
  own : ∀ j ∈ js, ∀ f ∈ j.tuple ++ j.output, Own s f
  nodup : (chain ++ laterFields js).Nodup
  typed : ChainTyped chain js

variable {chain : List ℕ} {k c : ℕ}

/-- The fields of a chain, of a join and of later joins are different ones. -/
theorem ChainAt.disjoint {j : ChainJoin} (h : ChainAt s chain (j :: js) k c) :
    (∀ f ∈ chain, f ∉ j.tuple ∧ f ∉ j.output ∧ f ∉ laterFields js) ∧
      (∀ f ∈ j.tuple, f ∉ j.output ∧ f ∉ laterFields js) ∧ (j.output ++ laterFields js).Nodup := by
  have hnd := h.nodup
  rw [laterFields, flatMap_cons, append_assoc] at hnd
  obtain ⟨-, htail, hchain⟩ := nodup_append.mp hnd
  obtain ⟨-, houttail, htuple⟩ := nodup_append.mp htail
  refine ⟨fun f hf => ⟨fun hmem => ?_, fun hmem => ?_, fun hmem => ?_⟩, fun f hf => ⟨fun hmem => ?_, fun hmem => ?_⟩,
    houttail⟩
  · exact hchain f hf f (mem_append_left _ hmem) rfl
  · exact hchain f hf f (mem_append_right _ (mem_append_left _ hmem)) rfl
  · exact hchain f hf f (mem_append_right _ (mem_append_right _ hmem)) rfl
  · exact htuple f hf f (mem_append_left _ hmem) rfl
  · exact htuple f hf f (mem_append_right _ hmem) rfl

theorem ChainJoin.sides (j : ChainJoin) (chain : List ℕ) :
    j.chainLeft = true ∧ j.left chain = chain ∧ j.right chain = j.tuple ∨
      j.chainLeft = false ∧ j.left chain = j.tuple ∧ j.right chain = chain := by
  obtain ⟨chainLeft, numKeys, tuple, output⟩ := j
  cases chainLeft with
  | true => exact .inl ⟨rfl, rfl, rfl⟩
  | false => exact .inr ⟨rfl, rfl, rfl⟩

theorem ChainJoin.mem_sides {j : ChainJoin} : f ∈ j.left chain ∨ f ∈ j.right chain ↔ f ∈ chain ∨ f ∈ j.tuple := by
  obtain ⟨-, hl, hr⟩ | ⟨-, hl, hr⟩ := j.sides chain
  · rw [hl, hr]
  · rw [hl, hr, or_comm]

/-- The keys of the two inputs of a join. -/
theorem ChainAt.exists_keys {j : ChainJoin} (h : ChainAt s chain (j :: js) k c) :
    ∃ l a r b, KeyAt s (j.left chain) l a ∧ KeyAt s (j.right chain) r b := by
  have hk := h.key
  obtain ⟨⟨hkeys, hkl, hkr, -⟩, -⟩ := h.typed
  have htuple : j.tuple ≠ [] → ∃ t b, KeyAt s j.tuple t b := fun hne =>
    exists_keyAt hne fun f hf => h.own j mem_cons_self f (mem_append_left _ hf)
  obtain ⟨-, hl, hr⟩ | ⟨-, hl, hr⟩ := j.sides chain
  · obtain ⟨t, b, ht⟩ := htuple (ne_nil_of_length_pos (by rw [hr] at hkr; omega))
    exact ⟨k, c, t, b, by rwa [hl], by rwa [hr]⟩
  · obtain ⟨t, b, ht⟩ := htuple (ne_nil_of_length_pos (by rw [hl] at hkl; omega))
    exact ⟨t, b, k, c, by rwa [hl], by rwa [hr]⟩

/-- One join of a chain. -/
theorem ChainAt.step {j : ChainJoin} (h : ChainAt s chain (j :: js) k c) :
    ∃ s' l r o a b, KeyAt s (j.left chain) l a ∧ KeyAt s (j.right chain) r b ∧
      trackChain s chain (j :: js) = trackChain s' j.output js ∧ ChainAt s' j.output js o a ∧
      Joined s s' (j.left chain) (j.right chain) j.output o a b := by
  obtain ⟨l, a, r, b, hl, hr⟩ := h.exists_keys
  obtain ⟨htyped, htypedjs⟩ := h.typed
  obtain ⟨hchain, htuple, houttail⟩ := h.disjoint
  obtain ⟨hout, -, hdisj⟩ := nodup_append.mp houttail
  obtain ⟨o, ho⟩ : ∃ o, j.output[0]? = some o := by
    obtain ⟨hkeys, hkl, -, hlen⟩ := htyped
    exact ⟨_, getElem?_eq_getElem (by omega)⟩
  have hown : ∀ f ∈ j.output, Own s f := fun f hf => h.own j mem_cons_self f (mem_append_right _ hf)
  have hins : ∀ f, f ∈ j.left chain ∨ f ∈ j.right chain → f ∉ j.output ∧ f ∈ s.alive ∧ s.attributeId f ≠ none := by
    intro f hf
    obtain hf | hf := ChainJoin.mem_sides.mp hf
    · exact ⟨(hchain f hf).2.1, h.inputs f hf⟩
    · have hf' : Own s f := h.own j mem_cons_self f (mem_append_left _ hf)
      exact ⟨(htuple f hf).1, hf'.alive, hf'.attributeId_ne_none⟩
  have hlmem := mem_of_getElem? hl.first
  have hrmem := mem_of_getElem? hr.first
  have hready : JoinReady s (j.left chain) (j.right chain) j.output r a b := by
    refine ⟨hins, fun f hf => ⟨(hown f hf).registered, (hown f hf).attributeId_ne_none, ?_⟩, hr.mem,
      fun f hf => ⟨fun hfo => ?_, hr.members f hf⟩⟩
    · obtain ⟨hnot, halive, -⟩ := hins l (.inl hlmem)
      exact (hown f hf).attributeId_ne halive hl.attributeId fun heq => hnot (heq ▸ hf)
    · -- an output in this set would be the only field of its id, but the key is there
      obtain rfl := ((hown f hfo).mem_fields (hr.members f hf).2).mp hr.mem
      exact (hins r (.inr hrmem)).1 hfo
  obtain ⟨s', hs', hjoined⟩ := track_join htyped hout hl.first hr.first ho hl.attributeId hr.attributeId hready
  refine ⟨s', l, r, o, a, b, hl, hr, ?_, ⟨fun f hf => ?_, ⟨ho, hjoined.key, ?_, fun f hf => ?_⟩,
    fun j' hj' f hf => ?_, houttail, htypedjs⟩, hjoined⟩
  · rw [trackChain, hs']
    rfl
  · exact ⟨hjoined.alive ▸ (hown f hf).alive, (hjoined.outputs f hf).2⟩
  · exact ((hjoined.outputs o (mem_of_getElem? ho)).1 a).mpr hjoined.key
  · have hf' := hjoined.mem_output f hf
    exact ⟨hjoined.alive ▸ (hown f hf').alive, ((hjoined.outputs f hf').1 a).mp hf⟩
  · have hlater : f ∈ laterFields js := mem_flatMap.mpr ⟨j', hj', hf⟩
    have hnot : ¬ (f ∈ j.left chain ∨ f ∈ j.right chain) := fun hside =>
      (ChainJoin.mem_sides.mp hside).elim (fun hc => (hchain f hc).2.2 hlater) fun ht => (htuple f ht).2 hlater
    exact (h.own j' (mem_cons_of_mem j hj') f hf).trackJoin
      ⟨fun hside => hnot (.inl hside), fun hside => hnot (.inr hside), fun hmem => hdisj f hmem f hlater rfl⟩ hlmem hrmem
      hl.attributeId hr.attributeId hready (fun g hg => (hown g hg).alive) hjoined

/-- The output of the last join. -/
def lastTuple (chain : List ℕ) : List ChainJoin → List ℕ
  | [] => chain
  | j :: js => lastTuple j.output js

section Chain

theorem take_one {l : List ℕ} {x : ℕ} (h : l[0]? = some x) : l.take 1 = [x] := by
  cases l with
  | nil => cases h
  | cons y l => rw [show y = x from some.inj h, take_succ_cons, take_zero]

/-- After a join, its three keys have the id of the left one. -/
theorem ChainAt.keys_joined {s' : Heap} {j : ChainJoin} (h : ChainAt s chain (j :: js) k c)
    (hl : KeyAt s (j.left chain) l a) (hr : KeyAt s (j.right chain) r b)
    (ho : j.output[0]? = some o)
    (hjoined : Joined s s' (j.left chain) (j.right chain) j.output o a b) :
    ∀ f ∈ chain.take 1 ++ (j.tuple.take 1 ++ j.output.take 1),
      f ∉ laterFields js ∧ s'.attributeId f = some a := by
  obtain ⟨hchain, htuple, houttail⟩ := h.disjoint
  have hlr : ∀ f, f ∈ chain.take 1 ++ j.tuple.take 1 → f = l ∨ f = r := by
    obtain ⟨-, hleft, hright⟩ | ⟨-, hleft, hright⟩ := j.sides chain <;> rw [hleft] at hl <;> rw [hright] at hr
    · rw [take_one hl.first, take_one hr.first]
      simp
    · rw [take_one hl.first, take_one hr.first]
      simp [or_comm]
  intro f hf
  rw [← append_assoc] at hf
  obtain hf | hf := mem_append.mp hf
  · have hlater : f ∉ j.output ∧ f ∉ laterFields js := by
      obtain hf | hf := mem_append.mp hf
      · exact (hchain f (mem_of_mem_take hf)).2
      · exact htuple f (mem_of_mem_take hf)
    refine ⟨hlater.2, ?_⟩
    rw [(hjoined.frame f hlater.1).1]
    obtain rfl | rfl := hlr f hf
    · rw [hl.attributeId, ite_self]
    · rw [if_pos hr.mem]
  · rw [take_one ho, mem_singleton] at hf
    subst hf
    exact ⟨disjoint_of_nodup_append houttail (mem_of_getElem? ho), hjoined.key⟩

/-- As long as the chain is the left input, all keys get its id. -/
theorem ChainAt.shares (h : ChainAt s chain js k c) (hleft : ∀ j ∈ js, j.chainLeft = true)
    {keys : List ℕ} (hkeys : ∀ f ∈ keys, f ∉ laterFields js ∧ s.attributeId f = some c) :
    ∃ s', trackChain s chain js = some s' ∧
      ∀ f ∈ keys ++ js.flatMap (fun j => j.tuple.take 1 ++ j.output.take 1), s'.attributeId f = some c := by
  induction js generalizing s chain k keys with
  | nil => exact ⟨s, rfl, fun f hf => (hkeys f (by simpa using hf)).2⟩
  | cons j js ih =>
    obtain ⟨s1, l, r, o, a, b, hl, hr, htrack, hat, hjoined⟩ := h.step
    have hnew := h.keys_joined hl hr hat.key.first hjoined
    obtain ⟨-, hside, -⟩ | ⟨hright, -⟩ := j.sides chain
    · rw [hside] at hl
      obtain rfl := hl.id_eq h.key
      have hkeys1 : ∀ f ∈ keys ++ (j.tuple.take 1 ++ j.output.take 1),
          f ∉ laterFields js ∧ s1.attributeId f = some a := by
        intro f hf
        obtain hf | hf := mem_append.mp hf
        · obtain ⟨hlater, hid⟩ := hkeys f hf
          rw [laterFields, flatMap_cons, mem_append, mem_append, not_or, not_or] at hlater
          refine ⟨hlater.2, ?_⟩
          rw [(hjoined.frame f hlater.1.2).1, hid, ite_self]
        · exact hnew f (mem_append_right _ hf)
      obtain ⟨s', hs', hids⟩ := ih hat (fun j' hj' => hleft j' (mem_cons_of_mem j hj')) hkeys1
      refine ⟨s', htrack.trans hs', fun f hf => hids f ?_⟩
      rwa [flatMap_cons, ← append_assoc] at hf
    · exact absurd (hleft j mem_cons_self) (by simp [hright])

/-- A field that is not in the set of the chain's id keeps its id.  It is not the id of the chain once the chain has
    been a right input. -/
theorem ChainAt.apart (h : ChainAt s chain js k c) {p : ℕ} (hp : p ∈ s.alive)
    (hlater : p ∉ laterFields js) (hset : p ∉ s.fields c)
    (hapart : s.attributeId p ≠ some c ∨ ∃ j ∈ js, j.chainLeft = false) :
    ∃ s' k', trackChain s chain js = some s' ∧ (lastTuple chain js)[0]? = some k' ∧
      s'.attributeId p ≠ s'.attributeId k' := by
  induction js generalizing s chain k c with
  | nil =>
    obtain hapart | ⟨j, hj, -⟩ := hapart
    · exact ⟨s, k, rfl, h.key.first, h.key.attributeId.symm ▸ hapart⟩
    · cases hj
  | cons j js ih =>
    obtain ⟨s1, l, r, o, a, b, hl, hr, htrack, hat, hjoined⟩ := h.step
    rw [laterFields, flatMap_cons, mem_append, mem_append, not_or, not_or] at hlater
    obtain ⟨⟨hptuple, hpout⟩, hlater⟩ := hlater
    have hown : ∀ {t c}, KeyAt s j.tuple t c → Own s t ∧ p ≠ t := fun ht =>
      ⟨h.own j mem_cons_self _ (mem_append_left _ (mem_of_getElem? ht.first)),
        fun heq => hptuple (heq ▸ mem_of_getElem? ht.first)⟩
    have hpb : p ∉ s.fields b := by
      obtain ⟨-, -, hside⟩ | ⟨-, -, hside⟩ := j.sides chain <;> rw [hside] at hr
      · obtain ⟨hr', hne⟩ := hown hr
        exact fun hmem => hne ((hr'.mem_fields hr.attributeId).mp hmem)
      · rwa [hr.id_eq h.key]
    have hapart1 : s1.attributeId p ≠ some a ∨ ∃ j ∈ js, j.chainLeft = false := by
      rw [(hjoined.frame p hpout).1, if_neg hpb]
      obtain ⟨hleft, hside, -⟩ | ⟨-, hside, -⟩ := j.sides chain <;> rw [hside] at hl
      · rw [hl.id_eq h.key]
        refine hapart.imp_right fun ⟨j', hj', hright⟩ => ⟨j', ?_, hright⟩
        refine (mem_cons.mp hj').resolve_left ?_
        rintro rfl
        cases hleft.symm.trans hright
      · -- the other input has an id of its own
        obtain ⟨hl', hne⟩ := hown hl
        exact .inl fun hpa => hl'.attributeId_ne hp hpa hne hl.attributeId
    obtain ⟨s', k', hs', hk', hids⟩ := ih hat (hjoined.alive ▸ hp) hlater
      (fun hmem => hpout (hjoined.mem_output p hmem)) hapart1
    exact ⟨s', k', htrack.trans hs', hk', hids⟩

theorem lastTuple_mem_keyFields {k : ℕ} (h : (lastTuple chain js)[0]? = some k) : k ∈ keyFields chain js := by
  suffices ∀ (js : List ChainJoin) (chain : List ℕ), (lastTuple chain js)[0]? = some k →
      k ∈ chain.take 1 ++ js.flatMap fun j => j.tuple.take 1 ++ j.output.take 1 from this js chain h
  intro js
  induction js with
  | nil =>
    intro chain h
    rw [take_one (show chain[0]? = some k from h)]
    simp
  | cons j js ih =>
    intro chain h
    have hmem := ih j.output h
    rw [flatMap_cons]
    simp only [mem_append] at hmem ⊢
    tauto

/-- **The keys of a chain of joins** have one id in the end exactly if, from the second join on, the chain is the left
    input. -/
theorem chain_sharesId_iff (h : ChainAt s chain js k c) :
    ∃ s', trackChain s chain js = some s' ∧
      ((∃ id, ∀ f ∈ keyFields chain js, s'.attributeId f = some id) ↔ ∀ j ∈ js.tail, j.chainLeft = true) := by
  have hk := h.key
  cases js with
  | nil =>
    refine ⟨s, rfl, ⟨fun _ j hj => (nomatch hj), fun _ => ⟨c, fun f hf => ?_⟩⟩⟩
    rw [keyFields, take_one hk.first] at hf
    obtain rfl : f = k := by simpa using hf
    exact hk.attributeId
  | cons j js =>
    obtain ⟨s1, l, r, o, a, b, hl, hr, htrack, hat, hjoined⟩ := h.step
    have hkmem : k ∈ chain := mem_of_getElem? hk.first
    obtain ⟨-, hkout, hklater⟩ := h.disjoint.1 k hkmem
    rw [htrack, tail_cons]
    by_cases hall : ∀ j ∈ js, j.chainLeft = true
    · obtain ⟨s', hs', hids⟩ := hat.shares hall (h.keys_joined hl hr hat.key.first hjoined)
      refine ⟨s', hs', fun _ => hall, fun _ => ⟨a, fun f hf => hids f ?_⟩⟩
      rwa [keyFields, flatMap_cons, ← append_assoc] at hf
    · have hright : ∃ j ∈ js, j.chainLeft = false := by
        push Not at hall
        simpa using hall
      obtain ⟨s', last, hs', hlast, hids⟩ := hat.apart (hjoined.alive ▸ (h.inputs k hkmem).1)
        hklater (fun hmem => hkout (hjoined.mem_output k hmem)) (.inr hright)
      refine ⟨s', hs', fun ⟨id, hshare⟩ => ?_, fun hleft => absurd hleft hall⟩
      have hkey : k ∈ keyFields chain (j :: js) := by
        rw [keyFields, take_one hk.first]
        simp
      have hlastkey : last ∈ keyFields chain (j :: js) := lastTuple_mem_keyFields hlast
      exact absurd ((hshare k hkey).trans (hshare last hlastkey).symm) hids

end Chain

/-! ### The registry and the chains -/

theorem exists_chainAt (hne : chain ≠ []) (hown : ∀ f ∈ chain ++ laterFields js, Own s f)
    (hnd : (chain ++ laterFields js).Nodup) (htyped : ChainTyped chain js) :
    ∃ k c, ChainAt s chain js k c := by
  have hchain : ∀ f ∈ chain, Own s f := fun f hf => hown f (mem_append_left _ hf)
  obtain ⟨k, c, hk⟩ := exists_keyAt hne hchain
  refine ⟨k, c, fun f hf => ⟨(hchain f hf).alive, (hchain f hf).attributeId_ne_none⟩, hk,
    fun j hj f hf => ?_, hnd, htyped⟩
  exact hown f (mem_append_right _ (mem_flatMap.mpr ⟨j, hj, hf⟩))

/-- **The registry of fields and attribute ids.**  Along every sequence of safe calls the two directions agree, a
    further call keeps them so exactly if it is safe, and all fields of the two ids of a `MoveFields` have one id
    afterwards.  The keys of a chain of joins, which the visitor does not merge by safe calls, have one id exactly if
    the chain is the left input from its second join on. -/
theorem registry_sound_iff (s : Heap) :
    (∀ cs, SafeCalls cs s → Consistent s ∧
      (∀ c, s.Callable c → ((∃ s', s.call c = some s' ∧ Consistent s') ↔ s.Safe c)) ∧
      ∀ this other id s', s.get other = some id → s.call (.moveFields this other) = some s' → ∀ f ∈ s.alive,
        s.attributeId f = some this ∨ s.attributeId f = some id → s'.attributeId f = some this) ∧
    ∀ chain js, chain ≠ [] → (∀ f ∈ chain ++ laterFields js, Own s f) → (chain ++ laterFields js).Nodup →
      ChainTyped chain js → ∃ s', trackChain s chain js = some s' ∧
        ((∃ id, ∀ f ∈ keyFields chain js, s'.attributeId f = some id) ↔ ∀ j ∈ js.tail, j.chainLeft = true) := by
  refine ⟨fun cs hcalls => ?_, fun chain js hne hown hnd htyped => ?_⟩
  · have hs := hcalls.consistent
    refine ⟨hs, fun c hcall => call_consistent_iff hs hcall, ?_⟩
    intro this other id s' hget hmove f hf hid
    exact hs.moveFields_attributeId hmove hget hf hid
  · obtain ⟨k, c, hchain⟩ := exists_chainAt hne hown hnd htyped
    exact chain_sharesId_iff hchain

/-- A chain that is the right input of its second join.  The key of the first tuple keeps its id, and it is not in the
    set of this id. -/
theorem rightDeepChain_splits_id :
    ∃ s', trackChain (freshFields 5) [0] [⟨true, 1, [1], [2]⟩, ⟨false, 1, [3], [4]⟩] = some s' ∧ ¬ Consistent s' ∧
      ¬ ∃ id, ∀ f ∈ keyFields [0] [⟨true, 1, [1], [2]⟩, ⟨false, 1, [3], [4]⟩], s'.attributeId f = some id := by
  have heval : (trackChain (freshFields 5) [0] [⟨true, 1, [1], [2]⟩, ⟨false, 1, [3], [4]⟩]).map
      (fun s => (s.attributeId 0, s.attributeId 4, decide (0 ∈ s.alive), decide (0 ∈ s.fields 0))) =
      some (some 0, some 3, true, false) := by decide +kernel
  obtain ⟨s', hs', heval⟩ := Option.map_eq_some_iff.mp heval
  obtain ⟨hfirst, heval⟩ := Prod.mk.inj heval
  obtain ⟨hlast, heval⟩ := Prod.mk.inj heval
  obtain ⟨halive, hnot⟩ := Prod.mk.inj heval
  refine ⟨s', hs', fun hconsistent => ?_, fun ⟨id, hshare⟩ => ?_⟩
  · exact of_decide_eq_false hnot (hconsistent.mem_fields (of_decide_eq_true halive) hfirst)
  · have hzero := (hfirst.symm.trans (hshare 0 (by decide))).trans (hshare 4 (by decide)).symm
    exact absurd (hzero.trans hlast) (by decide)

end Jitq.Optimize
