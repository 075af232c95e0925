import Mathlib.Data.Finset.Basic
import Mathlib.Data.Finset.Lattice.Basic

namespace Jitq.Attributes

open Function Option

/-! # Attribute ids and their fields

A `Field` has a shared pointer to its `AttributeId`, and the id a set of raw pointers to its fields.  The functions
of the two classes keep both directions up to date, or are meant to.

* `Heap.call` — one call; a call that reaches a destroyed object is `none`;
* `Consistent` — both directions agree for all ids that exist;
* `Heap.Safe` — what a call must respect.  `MoveFields` must not be given the attribute id of a field by reference:
  it reads this reference again after it has changed the field, and then clears the wrong set;
* `call_consistent_iff` — the calls that keep the agreement are exactly the safe ones. -/

/-- The fields and the attribute ids.  Both are numbers (their addresses), which can be used again after the
    object is destroyed.  `held` are the ids that a shared pointer outside of the fields refers to, such as
    those in the read and write sets. -/
structure Heap where
  alive : Finset ℕ
  attributeId : ℕ → Option ℕ
  fields : ℕ → Finset ℕ
  held : Finset ℕ

/-- A `const std::shared_ptr<AttributeId> &`: to a variable, or to the member of a field. -/
inductive IdRef
  | handle (id : ℕ)
  | member (field : ℕ)
  deriving DecidableEq

namespace Heap

def empty : Heap := ⟨∅, fun _ => none, fun _ => ∅, ∅⟩

variable (s : Heap)

/-- Some shared pointer refers to the id, so that it exists. -/
def Owned (id : ℕ) : Prop := id ∈ s.held ∨ ∃ f ∈ s.alive, s.attributeId f = some id

/-- Some shared pointer other than the one in `field` refers to the id. -/
def OwnedBesides (id field : ℕ) : Prop :=
  id ∈ s.held ∨ ∃ f ∈ s.alive, f ≠ field ∧ s.attributeId f = some id

instance (s : Heap) (id : ℕ) : Decidable (s.Owned id) :=
  inferInstanceAs (Decidable (id ∈ s.held ∨ ∃ f ∈ s.alive, s.attributeId f = some id))

instance (s : Heap) (id field : ℕ) : Decidable (s.OwnedBesides id field) :=
  inferInstanceAs (Decidable (id ∈ s.held ∨ ∃ f ∈ s.alive, f ≠ field ∧ s.attributeId f = some id))

/-! ### The functions of the classes -/

/-- `AttributeId::RemoveField`. -/
def removeField (this field : ℕ) : Heap :=
  { s with
    fields := update s.fields this ((s.fields this).erase field)
    attributeId := update s.attributeId field none }

/-- The first half of `AttributeId::AddField`: the field leaves the id that it has. -/
def leaveId (field : ℕ) : Heap :=
  match s.attributeId field with
  | some id => s.removeField id field
  | none => s

/-- The second half of `AttributeId::AddField`. -/
def enterId (this field : ℕ) : Heap :=
  { s with
    fields := update s.fields this (insert field (s.fields this))
    attributeId := update s.attributeId field (some this) }

/-- `AttributeId::AddField`.  If the field was the last owner of the id, the id is destroyed before the set of
    its fields is used. -/
def addField (this field : ℕ) : Option Heap :=
  if (s.leaveId field).Owned this then some ((s.leaveId field).enterId this field) else none

/-- The id that a reference refers to now. -/
def get : IdRef → Option ℕ
  | .handle id => some id
  | .member field => s.attributeId field

/-- The loop of `MoveFields` reads the fields of an id that exist, and it does not destroy the id before the last
    of them: all of them own it, or somebody else does. -/
def LoopSafe (this id : ℕ) : Prop :=
  s.fields id ⊆ s.alive ∧ (id = this ∨ id ∈ s.held ∨ (∀ f ∈ s.fields id, s.attributeId f = some id) ∨
      ∃ f ∈ s.alive, f ∉ s.fields id ∧ s.attributeId f = some id)

instance (s : Heap) (this id : ℕ) : Decidable (s.LoopSafe this id) := inferInstanceAs (Decidable (_ ∧ _))

/-- The loop of `MoveFields`. -/
def takeFields (this id : ℕ) : Heap :=
  { s with
    fields := update s.fields this (s.fields this ∪ s.fields id)
    attributeId := fun f => if f ∈ s.fields id then some this else s.attributeId f }

/-- `AttributeId::MoveFields`.  The reference is read before the loop and again after it. -/
def moveFields (this : ℕ) (other : IdRef) : Option Heap :=
  (s.get other).bind fun id =>
    if s.LoopSafe this id then
      ((s.takeFields this id).get other).map fun id' =>
        { s.takeFields this id with fields := update (s.takeFields this id).fields id' ∅ }
    else none

/-- One round of the loop in `Tuple::Tuple(type)`: a new field with an id of its own. -/
def newField (field id : ℕ) : Heap :=
  { s with
    alive := insert field s.alive
    fields := update s.fields id {field}
    attributeId := update s.attributeId field (some id) }

/-- One round of the loop in `Tuple(const Tuple &)`: the copy constructor of `Field` copies the pointer. -/
def copyField (field copy : ℕ) : Heap :=
  { s with
    alive := insert copy s.alive
    attributeId := update s.attributeId copy (s.attributeId field) }

/-- `Field::~Field`. -/
def destroyField (field : ℕ) : Heap := { s.leaveId field with alive := s.alive.erase field }

end Heap

/-- The calls.  `hold` and `drop` make and clear shared pointers outside of the fields. -/
inductive Call
  | newField (field id : ℕ)
  | addField (this field : ℕ)
  | removeField (this field : ℕ)
  | moveFields (this : ℕ) (other : IdRef)
  | copyField (field copy : ℕ)
  | destroyField (field : ℕ)
  | hold (id : ℕ)
  | drop (id : ℕ)

namespace Heap

/-- What one call does; `none` is undefined behaviour. -/
def call (s : Heap) : Call → Option Heap
  | .newField field id => some (s.newField field id)
  | .addField this field => s.addField this field
  | .removeField this field => some (s.removeField this field)
  | .moveFields this other => s.moveFields this other
  | .copyField field copy => some (s.copyField field copy)
  | .destroyField field => some (s.destroyField field)
  | .hold id => some { s with held := insert id s.held }
  | .drop id => some { s with held := s.held.erase id }

/-- The call can be made: its objects exist, new objects get unused addresses. -/
def Callable (s : Heap) : Call → Prop
  | .newField field id => field ∉ s.alive ∧ ¬ s.Owned id
  | .addField this field => s.Owned this ∧ field ∈ s.alive
  | .removeField this field => s.Owned this ∧ field ∈ s.alive
  | .moveFields this (.handle id) => s.Owned this ∧ id ∈ s.held
  | .moveFields this (.member field) => s.Owned this ∧ field ∈ s.alive ∧ s.attributeId field ≠ none
  | .copyField field copy => field ∈ s.alive ∧ copy ∉ s.alive
  | .destroyField field => field ∈ s.alive
  | .hold id => s.Owned id
  | .drop _ => True

/-- What a call must respect.
    * A field is not added again to the id of which it is the only owner.
    * A field is removed from the id that it has (or its id is gone afterwards).
    * `MoveFields` is given neither the attribute id of a field by reference nor, as long as it has fields, the id
      itself.
    * Only fields without an id are copied. -/
def Safe (s : Heap) : Call → Prop
  | .addField this field => s.attributeId field = some this → s.OwnedBesides this field
  | .removeField this field => ∀ id, s.attributeId field = some id → id = this ∨ ¬ s.OwnedBesides id field
  | .moveFields this (.handle id) => id = this → ∀ f ∈ s.alive, s.attributeId f ≠ some id
  | .moveFields _ (.member _) => False
  | .copyField field _ => s.attributeId field = none
  | _ => True

end Heap

/-- Both directions agree: a field is in the set of an id exactly if it exists and has this id. -/
def Consistent (s : Heap) : Prop := ∀ id, s.Owned id → ∀ f, f ∈ s.fields id ↔ f ∈ s.alive ∧ s.attributeId f = some id

section Calls

variable {s : Heap} {this id field : ℕ}

theorem Consistent.mem_fields (h : Consistent s) (hf : field ∈ s.alive) (hid : s.attributeId field = some id) :
    field ∈ s.fields id :=
  (h id (.inr ⟨field, hf, hid⟩) field).mpr ⟨hf, hid⟩

theorem Heap.OwnedBesides.owned (h : s.OwnedBesides id field) : s.Owned id := by
  obtain hheld | ⟨f, hf, -, hid⟩ := h
  · exact .inl hheld
  · exact .inr ⟨f, hf, hid⟩

theorem Heap.Owned.besides (h : s.Owned id) (hne : s.attributeId field ≠ some id) : s.OwnedBesides id field := by
  obtain hheld | ⟨f, hf, hid⟩ := h
  · exact .inl hheld
  · refine .inr ⟨f, hf, ?_, hid⟩
    rintro rfl
    exact hne hid

/-! ### AddField, RemoveField and destructors -/

@[simp] theorem leaveId_alive : (s.leaveId field).alive = s.alive := by
  unfold Heap.leaveId
  split <;> rfl

@[simp] theorem leaveId_held : (s.leaveId field).held = s.held := by
  unfold Heap.leaveId
  split <;> rfl

@[simp] theorem leaveId_attributeId : (s.leaveId field).attributeId = update s.attributeId field none := by
  unfold Heap.leaveId
  split
  · rfl
  · rename_i hnone
    rw [← hnone, update_eq_self]

theorem mem_leaveId_fields {f : ℕ} : f ∈ (s.leaveId field).fields id ↔
    f ∈ s.fields id ∧ (s.attributeId field = some id → f ≠ field) := by
  unfold Heap.leaveId
  split
  · rename_i old hold
    by_cases hid : id = old
    · subst hid
      simp [Heap.removeField, hold, and_comm]
    · simp [Heap.removeField, update_of_ne hid, hold, Ne.symm hid]
  · rename_i hnone
    simp [hnone]

theorem leaveId_owned : (s.leaveId field).Owned id ↔ s.OwnedBesides id field := by
  unfold Heap.Owned Heap.OwnedBesides
  simp only [leaveId_held, leaveId_alive, leaveId_attributeId]
  refine or_congr_right (exists_congr fun f => and_congr_right fun _ => ?_)
  by_cases hf : f = field
  · simp [hf]
  · simp [hf]

section

variable (h : Consistent s)

include h

theorem Consistent.leaveId : Consistent (s.leaveId field) := by
  intro id howned f
  have hmem := h id (leaveId_owned.mp howned).owned f
  rw [mem_leaveId_fields, leaveId_alive, leaveId_attributeId, hmem]
  by_cases hf : f = field
  · subst hf
    simp
  · simp [hf]

theorem Consistent.enterId (hnone : s.attributeId field = none) (hfield : field ∈ s.alive)
    (howned : s.Owned this) : Consistent (s.enterId this field) := by
  have hback : ∀ {id}, (s.enterId this field).Owned id → s.Owned id := by
    rintro id (hheld | ⟨f, hf, hid⟩)
    · exact .inl hheld
    · by_cases hff : f = field
      · subst hff
        obtain rfl : this = id := by simpa [Heap.enterId] using hid
        exact howned
      · exact .inr ⟨f, hf, by simpa [Heap.enterId, update_of_ne hff] using hid⟩
  intro id howned' f
  have hmem := h id (hback howned') f
  show f ∈ update s.fields this (insert field (s.fields this)) id ↔
    f ∈ s.alive ∧ update s.attributeId field (some this) f = some id
  by_cases hf : f = field
  · subst hf
    by_cases hid : id = this
    · subst hid
      simp [hfield]
    · simp [update_of_ne hid, hmem, hnone, Ne.symm hid]
  · by_cases hid : id = this
    · subst hid
      simp [hf, hmem]
    · simp [update_of_ne hf, update_of_ne hid, hmem]

theorem addField_consistent_iff (howned : s.Owned this) (hfield : field ∈ s.alive) :
    (∃ s', s.addField this field = some s' ∧ Consistent s') ↔
      (s.attributeId field = some this → s.OwnedBesides this field) := by
  have hsafe : (s.attributeId field = some this → s.OwnedBesides this field) ↔ (s.leaveId field).Owned this := by
    rw [leaveId_owned]
    refine ⟨fun himp => ?_, fun hbesides _ => hbesides⟩
    by_cases hid : s.attributeId field = some this
    · exact himp hid
    · exact howned.besides hid
  rw [hsafe, Heap.addField]
  constructor
  · rintro ⟨s', hs', -⟩
    by_contra hnot
    rw [if_neg hnot] at hs'
    cases hs'
  · intro hleft
    refine ⟨_, if_pos hleft, h.leaveId.enterId ?_ ?_ hleft⟩
    · simp
    · rw [leaveId_alive]
      exact hfield

theorem Consistent.destroyField : Consistent (s.destroyField field) := by
  have hleft : Consistent (s.leaveId field) := h.leaveId
  intro id howned f
  have howned' : (s.leaveId field).Owned id := by
    obtain hheld | ⟨g, hg, hid⟩ := howned
    · exact .inl hheld
    · exact .inr ⟨g, by rw [leaveId_alive]; exact Finset.mem_of_mem_erase hg, hid⟩
  have hmem := hleft id howned' f
  show f ∈ (s.leaveId field).fields id ↔ f ∈ s.alive.erase field ∧ (s.leaveId field).attributeId f = some id
  rw [hmem, leaveId_alive]
  by_cases hf : f = field
  · subst hf
    simp
  · simp [hf]

theorem removeField_consistent_iff (hfield : field ∈ s.alive) : Consistent (s.removeField this field) ↔
      ∀ id, s.attributeId field = some id → id = this ∨ ¬ s.OwnedBesides id field := by
  have howned : ∀ id, (s.removeField this field).Owned id ↔ s.OwnedBesides id field := by
    intro id
    rw [← leaveId_owned]
    unfold Heap.Owned
    simp [Heap.removeField]
  constructor
  · intro hafter id hid
    by_contra hnot
    obtain ⟨hne, hbesides⟩ := not_or.mp hnot
    have hbesides := not_not.mp hbesides
    -- the id still exists and still has the field in its set
    have hmem := hafter id ((howned id).mpr hbesides) field
    have hin : field ∈ (s.removeField this field).fields id := by
      simp only [Heap.removeField, update_of_ne hne]
      exact h.mem_fields hfield hid
    have hattr := (hmem.mp hin).2
    simp [Heap.removeField] at hattr
  · intro hsafe id hbesides f
    have hbesides := (howned id).mp hbesides
    have hmem := h id hbesides.owned f
    show f ∈ update s.fields this ((s.fields this).erase field) id ↔
      f ∈ s.alive ∧ update s.attributeId field none f = some id
    by_cases hf : f = field
    · subst hf
      by_cases hid : id = this
      · subst hid
        simp
      · have hattr : s.attributeId f ≠ some id := by
          intro hattr
          exact (hsafe id hattr).elim hid fun hnot => hnot hbesides
        simp [update_of_ne hid, hmem, hattr]
    · by_cases hid : id = this
      · subst hid
        simp [hf, hmem]
      · simp [update_of_ne hf, update_of_ne hid, hmem]

end

/-! ### New fields and copies -/

theorem Consistent.newField (h : Consistent s) (hfield : field ∉ s.alive) (hid : ¬ s.Owned id) :
    Consistent (s.newField field id) := by
  intro id' howned f
  show f ∈ update s.fields id {field} id' ↔
    f ∈ insert field s.alive ∧ update s.attributeId field (some id) f = some id'
  by_cases hid' : id' = id
  · subst hid'
    by_cases hf : f = field
    · simp [hf]
    · -- no other field has the new id
      have hattr : f ∈ s.alive → s.attributeId f ≠ some id' := fun hf hattr => hid (.inr ⟨f, hf, hattr⟩)
      simp only [update_self, Finset.mem_singleton, hf, Finset.mem_insert, false_or,
        update_of_ne hf, false_iff, not_and]
      exact hattr
  · have howned' : s.Owned id' := by
      obtain hheld | ⟨g, hg, hattr⟩ := howned
      · exact .inl hheld
      · by_cases hgf : g = field
        · subst hgf
          exact absurd (by simpa [Heap.newField] using hattr : id = id').symm hid'
        · exact .inr ⟨g, by simpa [Heap.newField, hgf] using hg,
            by simpa [Heap.newField, update_of_ne hgf] using hattr⟩
    have hmem := h id' howned' f
    by_cases hf : f = field
    · subst hf
      simp [update_of_ne hid', hmem, hfield, Ne.symm hid']
    · simp [update_of_ne hid', hmem, hf]

theorem copyField_consistent_iff {copy : ℕ} (h : Consistent s) (hfield : field ∈ s.alive) (hcopy : copy ∉ s.alive) :
    Consistent (s.copyField field copy) ↔ s.attributeId field = none := by
  constructor
  · intro hafter
    by_contra hsome
    obtain ⟨id, hid⟩ := ne_none_iff_exists'.mp hsome
    have hin : copy ∈ (s.copyField field copy).fields id := by
      apply hafter.mem_fields
      · simp [Heap.copyField]
      · simpa [Heap.copyField] using hid
    exact hcopy ((h id (.inr ⟨field, hfield, hid⟩) copy).mp hin).1
  · intro hnone id howned f
    have howned' : s.Owned id := by
      obtain hheld | ⟨g, hg, hattr⟩ := howned
      · exact .inl hheld
      · by_cases hgc : g = copy
        · subst hgc
          simp [Heap.copyField, hnone] at hattr
        · exact .inr ⟨g, by simpa [Heap.copyField, hgc] using hg,
            by simpa [Heap.copyField, update_of_ne hgc] using hattr⟩
    have hmem := h id howned' f
    show f ∈ s.fields id ↔ f ∈ insert copy s.alive ∧ update s.attributeId copy (s.attributeId field) f = some id
    by_cases hf : f = copy
    · subst hf
      simp [hmem, hcopy, hnone]
    · simp [hmem, hf]

/-! ### MoveFields -/

section

variable (h : Consistent s)

include h

theorem Consistent.loopSafe (howned : s.Owned id) : s.LoopSafe this id := by
  refine ⟨fun f hf => ((h id howned f).mp hf).1, .inr (.inr (.inl fun f hf => ?_))⟩
  exact ((h id howned f).mp hf).2

/-- All fields that had one of the two ids have the same one, whatever the reference is. -/
theorem Consistent.moveFields_attributeId {other : IdRef} {s' : Heap}
    (hmove : s.moveFields this other = some s') (hother : s.get other = some id) {f : ℕ} (hf : f ∈ s.alive)
    (hid : s.attributeId f = some this ∨ s.attributeId f = some id) : s'.attributeId f = some this := by
  rw [Heap.moveFields, hother, bind_some] at hmove
  split at hmove
  · obtain ⟨id', -, rfl⟩ := map_eq_some_iff.mp hmove
    show (if f ∈ s.fields id then some this else s.attributeId f) = some this
    split
    · rfl
    · rename_i hnot
      obtain hthis | hother := hid
      · exact hthis
      · exact absurd (h.mem_fields hf hother) hnot
  · cases hmove

theorem moveFields_handle (hheld : id ∈ s.held) : s.moveFields this (.handle id) = some { s.takeFields this id with
      fields := update (s.takeFields this id).fields id ∅ } := by
  show (if s.LoopSafe this id then _ else none) = _
  rw [if_pos (h.loopSafe (.inl hheld))]
  rfl

theorem moveFields_handle_consistent_iff (howned : s.Owned this) (hheld : id ∈ s.held) :
    (∃ s', s.moveFields this (.handle id) = some s' ∧ Consistent s') ↔
      (id = this → ∀ f ∈ s.alive, s.attributeId f ≠ some id) := by
  rw [moveFields_handle h hheld]
  have hattr : ∀ f, (if f ∈ s.fields id then some this else s.attributeId f) = some this ↔
      f ∈ s.fields id ∨ s.attributeId f = some this := by
    intro f
    split <;> simp_all
  constructor
  · rintro ⟨s', hs', hafter⟩ rfl f hf hid
    cases hs'
    have hin := hafter.mem_fields hf ((hattr f).mpr (.inr hid))
    simp at hin
  · intro hsafe
    refine ⟨_, rfl, ?_⟩
    intro id' howned' f
    show f ∈ update (update s.fields this (s.fields this ∪ s.fields id)) id ∅ id' ↔
      f ∈ s.alive ∧ (if f ∈ s.fields id then some this else s.attributeId f) = some id'
    have hmem := h id (.inl hheld)
    by_cases hid' : id' = id
    · -- the emptied id: no field has it any more
      subst hid'
      simp only [update_self, Finset.notMem_empty, false_iff, not_and]
      intro hf hafter
      by_cases hthis : id' = this
      · have hnone := hsafe hthis f hf
        have hnot : f ∉ s.fields id' := fun hin => hnone ((hmem f).mp hin).2
        rw [if_neg hnot] at hafter
        exact hnone hafter
      · split at hafter
        · exact hthis (some.inj hafter).symm
        · rename_i hnot
          exact hnot ((hmem f).mpr ⟨hf, hafter⟩)
    · rw [update_of_ne hid']
      by_cases hthis : id' = this
      · subst hthis
        rw [update_self, Finset.mem_union, hattr, h id' howned f, hmem f]
        tauto
      · rw [update_of_ne hthis]
        have howned'' : s.Owned id' := by
          obtain hheld' | ⟨g, hg, hgid⟩ := howned'
          · exact .inl hheld'
          · refine .inr ⟨g, hg, ?_⟩
            have hgid' : (if g ∈ s.fields id then some this else s.attributeId g) = some id' := hgid
            split at hgid'
            · exact absurd (some.inj hgid').symm hthis
            · exact hgid'
        rw [h id' howned'' f]
        split
        · rename_i hin
          rw [((hmem f).mp hin).2]
          simp [Ne.symm hid', Ne.symm hthis]
        · rfl

/-- Given the attribute id of a field by reference, `MoveFields` clears the set that it has just filled. -/
theorem not_consistent_moveFields_member (hfield : field ∈ s.alive)
    (hsome : s.attributeId field ≠ none) : ¬ ∃ s', s.moveFields this (.member field) = some s' ∧ Consistent s' := by
  rintro ⟨s', hs', hafter⟩
  obtain ⟨id, hid⟩ := ne_none_iff_exists'.mp hsome
  have hmoved : field ∈ s.fields id := h.mem_fields hfield hid
  have hagain : (s.takeFields this id).get (.member field) = some this := if_pos hmoved
  have hget : s.get (.member field) = some id := hid
  rw [Heap.moveFields, hget, bind_some, if_pos (h.loopSafe (.inr ⟨field, hfield, hid⟩)), hagain,
    map_some, some_inj] at hs'
  subst hs'
  have hin := hafter.mem_fields hfield hagain
  simp at hin

end

/-! ### All calls -/

theorem Consistent.of_held {held : Finset ℕ} (h : Consistent s)
    (howned : ∀ id, ({ s with held := held } : Heap).Owned id → s.Owned id) :
    Consistent { s with held := held } := fun id hid => h id (howned id hid)

/-- **The calls that keep the two directions in agreement are the safe ones.** -/
theorem call_consistent_iff {c : Call} (h : Consistent s) (hcall : s.Callable c) :
    (∃ s', s.call c = some s' ∧ Consistent s') ↔ s.Safe c := by
  have htotal : ∀ {s'}, (∃ s'', some s' = some s'' ∧ Consistent s'') ↔ Consistent s' := by simp
  match c with
  | .newField field id => exact ⟨fun _ => trivial, fun _ => ⟨_, rfl, h.newField hcall.1 hcall.2⟩⟩
  | .addField this field => exact addField_consistent_iff h hcall.1 hcall.2
  | .removeField this field => exact htotal.trans (removeField_consistent_iff h hcall.2)
  | .moveFields this (.handle id) => exact moveFields_handle_consistent_iff h hcall.1 hcall.2
  | .moveFields this (.member field) =>
    exact ⟨fun hafter => not_consistent_moveFields_member h hcall.2.1 hcall.2.2 hafter, False.elim⟩
  | .copyField field copy => exact htotal.trans (copyField_consistent_iff h hcall.1 hcall.2)
  | .destroyField field => exact ⟨fun _ => trivial, fun _ => ⟨_, rfl, h.destroyField⟩⟩
  | .hold id =>
    refine ⟨fun _ => trivial, fun _ => ⟨_, rfl, h.of_held ?_⟩⟩
    rintro id' (hheld | hfield)
    · obtain rfl | hheld := Finset.mem_insert.mp hheld
      · exact hcall
      · exact .inl hheld
    · exact .inr hfield
  | .drop id =>
    refine ⟨fun _ => trivial, fun _ => ⟨_, rfl, h.of_held ?_⟩⟩
    rintro id' (hheld | hfield)
    · exact .inl (Finset.mem_of_mem_erase hheld)
    · exact .inr hfield

end Calls

/-! ### Sequences of calls -/

/-- Calls that can be made and that are safe, one after the other, from a start without fields. -/
inductive SafeCalls : List Call → Heap → Prop
  | nil : SafeCalls [] .empty
  | snoc {cs : List Call} {s s' : Heap} {c : Call} : SafeCalls cs s → s.Callable c → s.Safe c →
      s.call c = some s' → SafeCalls (cs ++ [c]) s'

theorem SafeCalls.consistent {cs : List Call} {s : Heap} (h : SafeCalls cs s) : Consistent s := by
  induction h with
  | nil =>
    intro id howned f
    simp [Heap.empty]
  | snoc _ hcall hsafe hs' ih =>
    obtain ⟨s'', hs'', hafter⟩ := (call_consistent_iff ih hcall).mpr hsafe
    rwa [some.inj (hs'.symm.trans hs'')]

end Jitq.Attributes
