import Mathlib.Data.List.Basic
import Mathlib.Data.Set.Basic
import Mathlib.Tactic.Linarith

namespace Jitq.Runtime.SharedPointer

open List Option

/-! # SharedPointer — reference counting

A handle owns the counter it refers to; the counter is deleted with the last handle that owns it.

* `step` — one call of a constructor, an assignment, a conversion or the destructor; a call that
  reaches a freed counter or fails an `assert` is `none`;
* `Balanced` — counts and owners agree up to a difference, which is what holds inside a call;
* `Meets` — a copy is made of a handle that points to where its counter points, and a move assignment
  between two handles to the same object finds nothing to give up;
* `sound_iff_meets` — the counts are exact along a sequence of calls iff all calls are of this kind. -/

/-! ### Memory -/

/-- The address of an object; `none` is `nullptr`. -/
abbrev Pointer := Option ℕ

structure RefCounter where
  pointer : Pointer
  counter : ℤ

/-- The fields of a `SharedPointer`; counters are numbered. -/
structure Handle where
  refCounter : Option ℕ
  pointer : Pointer

/-- Not-a-pointer. -/
def Handle.null : Handle := ⟨none, none⟩

/-- The counters and handles in the order of their creation; those that are gone are `none`. -/
structure Memory where
  counters : List (Option RefCounter)
  handles : List (Option Handle)

namespace Memory

def empty : Memory := ⟨[], []⟩

variable (m : Memory)

/-- A counter that has not been freed. -/
def counterAt (c : ℕ) : Option RefCounter := m.counters[c]?.join

/-- A handle that has not been destroyed. -/
def handleAt (h : ℕ) : Option Handle := m.handles[h]?.join

def setCounter (c : ℕ) (slot : Option RefCounter) : Memory :=
  { m with counters := m.counters.set c slot }

def setHandle (h : ℕ) (slot : Option Handle) : Memory := { m with handles := m.handles.set h slot }

def addHandle (handle : Handle) : Memory := { m with handles := m.handles ++ [some handle] }

/-- `Increment(ref_counter)`. -/
def increment : Option ℕ → Option Memory
  | none => some m
  | some c => do
    let refCounter ← m.counterAt c
    guard refCounter.pointer.isSome
    some (m.setCounter c (some { refCounter with counter := refCounter.counter + 1 }))

/-- `Decrement(ref_counter)`, which deletes the counter when nothing remains; also whether it did. -/
def decrement : Option ℕ → Option (Memory × Bool)
  | none => some (m, false)
  | some c => do
    let refCounter ← m.counterAt c
    guard refCounter.pointer.isSome
    guard (0 < refCounter.counter)
    if refCounter.counter - 1 = 0 then
      some (m.setCounter c none, true)
    else
      some (m.setCounter c (some { refCounter with counter := refCounter.counter - 1 }), false)

/-- `SharedPointer::Decrement` on the fields of a handle, which are reset when the counter is gone. -/
def decrementHandle (handle : Handle) : Option (Memory × Handle) :=
  (m.decrement handle.refCounter).map fun (m, deleted) => (m, if deleted then .null else handle)

/-- What a move assignment does first: `if (other.pointer_ != pointer_) Decrement()`. -/
def decrementUnlessSame (this : ℕ) (target source : Handle) : Option Memory :=
  if source.pointer ≠ target.pointer then
    (m.decrementHandle target).map fun (m, target) => m.setHandle this (some target)
  else
    some m

/-- `ref_counter == nullptr ? nullptr : ref_counter->pointer()`. -/
def pointerOf : Option ℕ → Option Pointer
  | none => some none
  | some c => (m.counterAt c).map RefCounter.pointer

/-- `SharedPointer(ref_counter, pointer)`: a new handle, whose counter is incremented. -/
def construct (handle : Handle) : Option Memory := (m.addHandle handle).increment handle.refCounter

end Memory

/-! ### Calls -/

/-- What a program can do with counters and handles; `other` and `this` are numbers of handles. -/
inductive Call
  | newCounter (pointer : Pointer)
  | construct
  | constructFrom (refCounter : Option ℕ)
  | constructWith (refCounter : Option ℕ) (pointer : Pointer)
  | copyConstruct (other : ℕ)
  | moveConstruct (other : ℕ)
  | copyAssign (this other : ℕ)
  | moveAssign (this other : ℕ)
  | as (other : ℕ)
  | into (other : ℕ)
  | destroy (this : ℕ)

open Memory in
/-- The effect of a call. -/
def step (m : Memory) : Call → Option Memory
  | .newCounter pointer => some { m with counters := m.counters ++ [some ⟨pointer, 0⟩] }
  | .construct => some (m.addHandle .null)
  | .constructFrom refCounter => do
    let pointer ← m.pointerOf refCounter
    m.construct ⟨refCounter, pointer⟩
  | .constructWith refCounter pointer => m.construct ⟨refCounter, pointer⟩
  | .copyConstruct other => do
    let source ← m.handleAt other
    let pointer ← m.pointerOf source.refCounter
    m.construct ⟨source.refCounter, pointer⟩
  | .moveConstruct other => do
    let source ← m.handleAt other
    some ((m.setHandle other (some .null)).addHandle source)
  | .copyAssign this other => do
    let target ← m.handleAt this
    let source ← m.handleAt other
    if this = other then
      some m
    else
      let m ← (m.setHandle this (some source)).increment source.refCounter
      (m.decrementHandle target).map Prod.fst
  | .moveAssign this other => do
    let target ← m.handleAt this
    let source ← m.handleAt other
    let m ← m.decrementUnlessSame this target source
    -- `other` is reset before `this` is written, so that a handle assigned to itself stays as it is
    let source ← m.handleAt other
    some ((m.setHandle other (some .null)).setHandle this (some source))
  | .as other => do
    let source ← m.handleAt other
    m.construct source
  | .into other => do
    let source ← m.handleAt other
    some ((m.setHandle other (some .null)).addHandle source)
  | .destroy this => do
    let target ← m.handleAt this
    let (m, _) ← m.decrementHandle target
    some (m.setHandle this none)

/-! ### What the calls have to keep -/

/-- The slot of a handle that owns a counter. -/
def owns (c : ℕ) (slot : Option Handle) : Bool := slot.bind Handle.refCounter = some c

/-- The number of handles that own a counter. -/
def Memory.owners (m : Memory) (c : ℕ) : ℕ := m.handles.countP (owns c)

/-- Counts are numbers of owners, and no handle refers to a freed counter. -/
structure Exact (m : Memory) : Prop where
  counts : ∀ c refCounter, m.counterAt c = some refCounter → refCounter.counter = m.owners c
  live : ∀ h handle c, m.handleAt h = some handle → handle.refCounter = some c → (m.counterAt c).isSome

/-- `get()` of a handle. -/
def Memory.get (m : Memory) (h : ℕ) : Option Pointer := (m.handleAt h).map Handle.pointer

/-- The copies that a call makes have the pointer of their source. -/
def CopiesAgree (m m' : Memory) : Call → Prop
  | .copyConstruct other | .as other => m'.get m.handles.length = m.get other
  | .copyAssign this other => m'.get this = m.get other
  | _ => True

/-- A call does what reference counting promises: it returns, the counts are exact afterwards, exactly the
    counters that lose their last owner are freed, and copies point to where their source points. -/
structure CallSound (m : Memory) (call : Call) (m' : Memory) : Prop where
  returns : step m call = some m'
  exact : Exact m'
  freed : ∀ c, (m.counterAt c).isSome → (m'.counterAt c = none ↔ 0 < m.owners c ∧ m'.owners c = 0)
  staysFreed : ∀ c < m.counters.length, m.counterAt c = none → m'.counterAt c = none
  copies : CopiesAgree m m' call

/-- What the program has to see to: handles are used while they exist, and a raw counter is given to a
    constructor while it lives. -/
def Permitted (m : Memory) : Call → Prop
  | .newCounter _ | .construct => True
  | .constructFrom refCounter | .constructWith refCounter _ =>
    ∀ c ∈ refCounter, ∃ r ∈ m.counterAt c, r.pointer.isSome
  | .copyConstruct other | .moveConstruct other | .as other | .into other | .destroy other =>
    (m.handleAt other).isSome
  | .copyAssign this other | .moveAssign this other => (m.handleAt this).isSome ∧ (m.handleAt other).isSome

/-- The calls that the class gets right: copies of handles that point to where their counter points, and
    move assignments that do not rely on giving up a handle to the same object. -/
def Meets (m : Memory) : Call → Prop
  | .copyConstruct other => ∀ source ∈ m.handleAt other, m.pointerOf source.refCounter = some source.pointer
  | .moveAssign this other => ∀ target ∈ m.handleAt this, ∀ source ∈ m.handleAt other,
    this = other ∨ source.pointer ≠ target.pointer ∨ target.refCounter = none
  | _ => True

/-- A property of all calls of a sequence, each in the memory that the calls before it leave. -/
def Always (P : Memory → Call → Prop) : Memory → List Call → Prop
  | _, [] => True
  | m, call :: calls => P m call ∧ ∀ m' ∈ step m call, Always P m' calls

instance (m : Memory) : (call : Call) → Decidable (Permitted m call)
  | .newCounter _ | .construct => .isTrue trivial
  | .constructFrom refCounter | .constructWith refCounter _ =>
    inferInstanceAs (Decidable (∀ c ∈ refCounter, ∃ r ∈ m.counterAt c, r.pointer.isSome))
  | .copyConstruct other | .moveConstruct other | .as other | .into other | .destroy other =>
    inferInstanceAs (Decidable ((m.handleAt other).isSome))
  | .copyAssign this other | .moveAssign this other =>
    inferInstanceAs (Decidable ((m.handleAt this).isSome ∧ (m.handleAt other).isSome))

instance (m : Memory) : (call : Call) → Decidable (Meets m call)
  | .copyConstruct other => inferInstanceAs (Decidable (∀ source ∈ m.handleAt other,
      m.pointerOf source.refCounter = some source.pointer))
  | .moveAssign this other => inferInstanceAs (Decidable (∀ target ∈ m.handleAt this, ∀ source ∈ m.handleAt other,
        this = other ∨ source.pointer ≠ target.pointer ∨ target.refCounter = none))
  | .newCounter _ | .construct | .constructFrom _ | .constructWith _ _ | .moveConstruct _
  | .copyAssign _ _ | .as _ | .into _ | .destroy _ => .isTrue trivial

instance Always.decidable (P : Memory → Call → Prop) [∀ m call, Decidable (P m call)] :
    (m : Memory) → (calls : List Call) → Decidable (Always P m calls)
  | _, [] => .isTrue trivial
  | m, call :: calls =>
    have : ∀ m', Decidable (Always P m' calls) := fun m' => Always.decidable P m' calls
    inferInstanceAs (Decidable (P m call ∧ ∀ m' ∈ step m call, Always P m' calls))

/-! ### Balance inside a call -/

/-- The contribution of a slot to the owners of a counter. -/
def owned (slot : Option Handle) (c : ℕ) : ℤ := if owns c slot then 1 else 0

/-- The contribution of a reference. -/
def refers (refCounter : Option ℕ) (c : ℕ) : ℤ := if refCounter = some c then 1 else 0

@[simp] theorem owned_none (c : ℕ) : owned none c = 0 := by simp [owned, owns]

@[simp] theorem owned_some (handle : Handle) (c : ℕ) : owned (some handle) c = refers handle.refCounter c := by
  simp [owned, owns, refers]

@[simp] theorem refers_none (c : ℕ) : refers none c = 0 := by simp [refers]

theorem refers_nonneg (refCounter : Option ℕ) (c : ℕ) : 0 ≤ refers refCounter c := by
  unfold refers
  split <;> omega

@[simp] theorem refers_self (c : ℕ) : refers (some c) c = 1 := by simp [refers]

/-- The slot of a counter that should have the given count.  A count is 0 only for a counter that is
    `idle`, which had no owner when the call began, and such a counter is not freed. -/
def Counts (idle : Prop) (count : ℤ) : Option RefCounter → Prop
  | none => count = 0 ∧ ¬ idle
  | some r => r.counter = count ∧ 0 ≤ count ∧ (0 < count → r.pointer.isSome) ∧ (count = 0 → idle)

/-- Each counter is the number of its owners plus `d`. -/
def Balanced (idle : Set ℕ) (d : ℕ → ℤ) (m : Memory) : Prop :=
  ∀ c, Counts (c ∈ idle) (m.owners c + d c) (m.counterAt c)

variable {c : ℕ} {r : RefCounter} {s : Set ℕ} {d : ℕ → ℤ} {m : Memory}

namespace Balanced

theorem of_some (h : Balanced s d m) (hr : m.counterAt c = some r) :
    r.counter = m.owners c + d c ∧ 0 ≤ m.owners c + d c ∧ (0 < m.owners c + d c → r.pointer.isSome) ∧
      (m.owners c + d c = 0 → c ∈ s) := by
  have hc := h c
  rwa [hr] at hc

theorem of_none (h : Balanced s d m) (hr : m.counterAt c = none) : m.owners c + d c = 0 ∧ c ∉ s := by
  have hc := h c
  rwa [hr] at hc

/-- Only the counters and what they should count matter. -/
theorem congr {m' : Memory} {d' : ℕ → ℤ} (h : Balanced s d m) (hat : m'.counterAt = m.counterAt)
    (hd : ∀ c, m'.owners c + d' c = m.owners c + d c) : Balanced s d' m' := by
  intro c
  rw [hat, hd]
  exact h c

/-- A counter with an owner, or one that is still owed, is live. -/
theorem live (h : Balanced s d m) (hpos : 0 < m.owners c + d c) :
    ∃ r, m.counterAt c = some r ∧ 0 < r.counter ∧ r.pointer.isSome := by
  cases hr : m.counterAt c with
  | none =>
    have := (h.of_none hr).1
    omega
  | some r =>
    obtain ⟨hcount, -, hptr, -⟩ := h.of_some hr
    exact ⟨r, rfl, by omega, hptr hpos⟩

end Balanced

/-! ### Handles -/

variable {handle : Handle}

theorem handleAt_eq_some {h : ℕ} : m.handleAt h = some handle ↔ m.handles[h]? = some (some handle) := by
  unfold Memory.handleAt
  cases m.handles[h]? <;> simp

theorem owners_setHandle {h : ℕ} {old : Option Handle} (hold : m.handles[h]? = some old)
    (new : Option Handle) (c : ℕ) : ((m.setHandle h new).owners c : ℤ) = m.owners c - owned old c + owned new c := by
  obtain ⟨hlt, hget⟩ := List.getElem?_eq_some_iff.mp hold
  unfold Memory.owners Memory.setHandle owned
  rw [countP_set hlt, hget]
  have hpos : owns c old = true → 0 < m.handles.countP (owns c) := fun howns =>
    countP_pos_iff.mpr ⟨old, mem_of_getElem? hold, howns⟩
  split <;> split <;> simp_all

theorem owners_addHandle (m : Memory) (handle : Handle) (c : ℕ) :
    ((m.addHandle handle).owners c : ℤ) = m.owners c + refers handle.refCounter c := by
  rw [← owned_some]
  unfold Memory.owners Memory.addHandle owned
  rw [countP_append, countP_singleton]
  split <;> simp

/-- An owner counts. -/
theorem refers_le_owners {h : ℕ} (hh : m.handleAt h = some handle)
    (c : ℕ) : refers handle.refCounter c ≤ m.owners c := by
  have howners := owners_setHandle (handleAt_eq_some.mp hh) none c
  rw [owned_some, owned_none] at howners
  omega

theorem Balanced.setHandle (hm : Balanced s d m) {h : ℕ} {old : Option Handle} (hold : m.handles[h]? = some old)
    (new : Option Handle) : Balanced s (fun c => d c + owned old c - owned new c) (m.setHandle h new) :=
  hm.congr rfl fun c => by rw [owners_setHandle hold]; omega

theorem Balanced.addHandle (hm : Balanced s d m) (handle : Handle) :
    Balanced s (fun c => d c - refers handle.refCounter c) (m.addHandle handle) :=
  hm.congr rfl fun c => by rw [owners_addHandle]; omega

/-! ### Counters -/

theorem counterAt_setCounter (hr : m.counterAt c = some r) (slot : Option RefCounter) (c' : ℕ) :
    (m.setCounter c slot).counterAt c' = if c' = c then slot else m.counterAt c' := by
  have hlt : c < m.counters.length := by
    by_contra hge
    rw [Memory.counterAt, getElem?_eq_none (not_lt.mp hge)] at hr
    simp at hr
  unfold Memory.counterAt Memory.setCounter
  rw [getElem?_set]
  by_cases hc : c' = c
  · rw [if_pos hc, if_pos hc.symm, if_pos hlt]
    rfl
  · rw [if_neg hc, if_neg (Ne.symm hc)]

/-- Counters that are gone stay so. -/
def StaysFreed (m m' : Memory) : Prop := ∀ c, m.counterAt c = none → m'.counterAt c = none

theorem StaysFreed.refl (m : Memory) : StaysFreed m m := fun _ h => h

/-- A counter that changes by `e`. -/
theorem Balanced.setCounter (hm : Balanced s d m) (hr : m.counterAt c = some r) (slot : Option RefCounter) {e : ℤ}
    (hslot : Counts (c ∈ s) (r.counter + e) slot) :
    Balanced s (fun c' => d c' + e * refers (some c) c') (m.setCounter c slot) := by
  intro c'
  rw [counterAt_setCounter hr]
  show Counts _ (m.owners c' + (d c' + e * refers (some c) c')) _
  by_cases hc : c' = c
  · subst hc
    rw [if_pos rfl, refers_self, mul_one, ← add_assoc, ← (hm.of_some hr).1]
    exact hslot
  · rw [if_neg hc, refers, if_neg fun heq => hc (some.inj heq).symm, mul_zero, add_zero]
    exact hm c'

theorem staysFreed_setCounter (hr : m.counterAt c = some r)
    (slot : Option RefCounter) : StaysFreed m (m.setCounter c slot) := by
  intro c' hfreed
  rw [counterAt_setCounter hr, if_neg, hfreed]
  rintro rfl
  simp [hr] at hfreed

theorem Balanced.increment (hm : Balanced s d m) {refCounter : Option ℕ}
    (hlive : ∀ c, refCounter = some c → ∃ r, m.counterAt c = some r ∧ r.pointer.isSome) :
    ∃ m', m.increment refCounter = some m' ∧ m'.handles = m.handles ∧ StaysFreed m m' ∧
      Balanced s (fun c => d c + refers refCounter c) m' := by
  cases refCounter with
  | none => exact ⟨m, rfl, rfl, StaysFreed.refl m, hm.congr rfl fun c => by simp⟩
  | some c =>
    obtain ⟨r, hr, hptr⟩ := hlive c rfl
    obtain ⟨hcount, hnonneg, -⟩ := hm.of_some hr
    have hbal := hm.setCounter hr (some { r with counter := r.counter + 1 })
      ⟨rfl, by omega, fun _ => hptr, fun hzero => by omega⟩
    refine ⟨m.setCounter c (some { r with counter := r.counter + 1 }), ?_, rfl, staysFreed_setCounter hr _,
      hbal.congr rfl fun c' => by rw [one_mul]⟩
    simp [Memory.increment, hr, hptr]

/-- A handle that is counted can be given up. -/
theorem Balanced.decrementHandle (hm : Balanced s d m) (handle : Handle)
    (hpos : ∀ c, handle.refCounter = some c → c ∉ s ∧ 0 < m.owners c + d c) :
    ∃ m' handle', m.decrementHandle handle = some (m', handle') ∧ m'.handles = m.handles ∧
      StaysFreed m m' ∧ Balanced s (fun c => d c - refers handle.refCounter c) m' := by
  unfold Memory.decrementHandle
  cases hc : handle.refCounter with
  | none =>
    exact ⟨m, handle, rfl, rfl, StaysFreed.refl m, hm.congr rfl fun c => by simp⟩
  | some c =>
    obtain ⟨hbusy, howed⟩ := hpos c hc
    obtain ⟨r, hr, hcount, hptr⟩ := hm.live howed
    have hend : ∀ slot, Counts (c ∈ s) (r.counter + -1) slot → Balanced s
        (fun c' => d c' - refers (some c) c') (m.setCounter c slot) := fun slot hslot =>
      (hm.setCounter hr slot hslot).congr rfl fun c' => by rw [neg_one_mul, ← sub_eq_add_neg]
    by_cases hlast : r.counter - 1 = 0
    · refine ⟨m.setCounter c none, .null, ?_, rfl, staysFreed_setCounter hr _, hend none ⟨hlast, hbusy⟩⟩
      simp [Memory.decrement, hr, hptr, hcount, hlast]
    · refine ⟨m.setCounter c (some { r with counter := r.counter - 1 }), handle, ?_, rfl, staysFreed_setCounter hr _,
        hend _ ⟨rfl, by omega, fun _ => hptr, fun hzero => absurd hzero hlast⟩⟩
      simp [Memory.decrement, hr, hptr, hcount, hlast]

/-! ### One call -/

namespace Memory

/-- The counters without owners. -/
def idle (m : Memory) : Set ℕ := {c | ∃ r, m.counterAt c = some r ∧ r.counter = 0}

end Memory

/-- What holds between two calls. -/
def Inv (m : Memory) : Prop := Balanced m.idle (fun _ => 0) m

theorem Balanced.inv (h : Balanced s (fun _ => 0) m) : Inv m := by
  intro c
  cases hr : m.counterAt c with
  | none => exact ⟨(h.of_none hr).1, by rintro ⟨_, hr', -⟩; cases hr.symm.trans hr'⟩
  | some r =>
    obtain ⟨hcount, hnonneg, hptr, -⟩ := h.of_some hr
    exact ⟨hcount, hnonneg, hptr, fun hzero => ⟨r, hr, hcount.trans hzero⟩⟩

theorem Inv.exact (h : Inv m) : Exact m where
  counts c r hr := by rw [(h.of_some hr).1, add_zero]
  live i handle c hi hc := by
    have hle := refers_le_owners hi c
    rw [hc, refers_self] at hle
    obtain ⟨r, hr, -⟩ := h.live (c := c) (by omega)
    rw [hr]
    rfl

/-- The counter of a handle has an owner. -/
theorem Inv.busy (h : Inv m) {i : ℕ} (hi : m.handleAt i = some handle)
    (hc : handle.refCounter = some c) : c ∉ m.idle ∧ 0 < (m.owners c : ℤ) := by
  have hle := refers_le_owners hi c
  rw [hc, refers_self] at hle
  refine ⟨?_, by omega⟩
  rintro ⟨r, hr, hzero⟩
  have := (h.of_some hr).1
  omega

/-- Exactly the counters that lose their last owner are freed. -/
theorem Inv.freed_iff {m m' : Memory} (h : Inv m) (h' : Balanced m.idle (fun _ => 0) m') (c : ℕ)
    (hlive : (m.counterAt c).isSome) :
    m'.counterAt c = none ↔ 0 < m.owners c ∧ m'.owners c = 0 := by
  obtain ⟨r, hr⟩ := isSome_iff_exists.mp hlive
  have hcount := (h.of_some hr).1
  constructor
  · intro hfreed
    obtain ⟨hzero, hbusy⟩ := h'.of_none hfreed
    by_contra hnone
    exact hbusy ⟨r, hr, by omega⟩
  · rintro ⟨hpos, hzero⟩
    by_contra hstays
    obtain ⟨r', hr'⟩ := ne_none_iff_exists'.mp hstays
    obtain ⟨r0, hr0, hzero0⟩ := (h'.of_some hr').2.2.2 (by omega)
    have := (h.of_some hr0).1
    omega

/-- A call that ends in balance is sound. -/
theorem Inv.callSound {m m' : Memory} {call : Call} (h : Inv m) (hstep : step m call = some m')
    (h' : Balanced m.idle (fun _ => 0) m') (hfreed : StaysFreed m m')
    (hcopies : CopiesAgree m m' call) : CallSound m call m' ∧ Inv m' :=
  ⟨⟨hstep, h'.inv.exact, h.freed_iff h', fun c _ => hfreed c, hcopies⟩, h'.inv⟩

/-! ### The calls one by one -/

section Calls

variable {m : Memory}

/-- A handle that refers to a live counter, or to none, can be made. -/
theorem Inv.construct (h : Inv m) (handle : Handle)
    (hlive : ∀ c, handle.refCounter = some c → ∃ r, m.counterAt c = some r ∧ r.pointer.isSome) :
    ∃ m', m.construct handle = some m' ∧ m'.handles = m.handles ++ [some handle] ∧ StaysFreed m m' ∧
      Balanced m.idle (fun _ => 0) m' := by
  obtain ⟨m', hincrement, hhandles, hfreed, hbal⟩ := (Balanced.addHandle h handle).increment hlive
  exact ⟨m', hincrement, hhandles, hfreed, hbal.congr rfl fun c => by omega⟩

/-- The counter of a handle can be given to another one. -/
theorem Inv.live (h : Inv m) {i : ℕ} (hi : m.handleAt i = some handle) (c : ℕ)
    (hc : handle.refCounter = some c) : ∃ r, m.counterAt c = some r ∧ r.pointer.isSome := by
  obtain ⟨r, hr, -, hptr⟩ := Balanced.live h (c := c) (by have := (h.busy hi hc).2; omega)
  exact ⟨r, hr, hptr⟩

/-- Ownership moves from one handle to a new one. -/
theorem Inv.move (h : Inv m) {i : ℕ} (hi : m.handleAt i = some handle) :
    Balanced m.idle (fun _ => 0) ((m.setHandle i (some .null)).addHandle handle) := by
  refine ((Balanced.setHandle h (handleAt_eq_some.mp hi) (some .null)).addHandle handle).congr rfl fun c => ?_
  rw [owned_some, owned_some, Handle.null, refers_none]
  omega

theorem get_construct {m' : Memory} (hhandles : m'.handles = m.handles ++ [some handle]) :
    m'.get m.handles.length = some handle.pointer := by
  have hat : m'.handleAt m.handles.length = some handle := by
    rw [handleAt_eq_some, hhandles]
    simp
  rw [Memory.get, hat]
  rfl

theorem handleAt_setHandle_of_ne {i j : ℕ} (hne : i ≠ j) (slot : Option Handle) :
    (m.setHandle i slot).handleAt j = m.handleAt j := by
  unfold Memory.handleAt Memory.setHandle
  rw [getElem?_set, if_neg hne]

theorem handleAt_setHandle_self {i : ℕ} (hi : m.handleAt i = some handle)
    (slot : Option Handle) : (m.setHandle i slot).handleAt i = slot := by
  have hlt := (List.getElem?_eq_some_iff.mp (handleAt_eq_some.mp hi)).1
  unfold Memory.handleAt Memory.setHandle
  rw [getElem?_set, if_pos rfl, if_pos hlt]
  rfl

section

variable (h : Inv m) {this other : ℕ} {target source : Handle} (hthis : m.handleAt this = some target)
    (hother : m.handleAt other = some source)

include h hthis hother

theorem Inv.copyAssign : ∃ m', CallSound m (.copyAssign this other) m' ∧ Inv m' := by
  by_cases hself : this = other
  · subst hself
    exact ⟨m, h.callSound (by simp [step, hthis]) h (StaysFreed.refl m) rfl⟩
  · -- both handles refer to the counter of `other` now, one of them uncounted
    have hset := Balanced.setHandle h (handleAt_eq_some.mp hthis) (some source)
    have hlive : ∀ c, source.refCounter = some c →
        ∃ r, (m.setHandle this (some source)).counterAt c = some r ∧ r.pointer.isSome :=
      fun c hc => h.live hother c hc
    obtain ⟨m1, hincrement, hhandles, hfreed1, hbal1⟩ := hset.increment hlive
    have howners : ∀ c, (m1.owners c : ℤ) =
        m.owners c - refers target.refCounter c + refers source.refCounter c := by
      intro c
      rw [← owned_some target, ← owned_some source, ← owners_setHandle (handleAt_eq_some.mp hthis)]
      unfold Memory.owners
      rw [hhandles]
    obtain ⟨m', handle', hdecrement, hhandles', hfreed', hbal'⟩ := hbal1.decrementHandle
      target fun c hc => by
        obtain ⟨hbusy, hpos⟩ := h.busy hthis hc
        refine ⟨hbusy, ?_⟩
        have hnonneg := refers_nonneg source.refCounter c
        rw [howners, owned_some, owned_some]
        omega
    refine ⟨m', h.callSound ?_ (hbal'.congr rfl fun c => ?_) (fun c hc => hfreed' c (hfreed1 c hc)) ?_⟩
    · simp [step, hthis, hother, hself, hincrement, hdecrement]
    · rw [owned_some, owned_some]
      omega
    · show m'.get this = m.get other
      unfold Memory.get Memory.handleAt
      rw [hhandles', hhandles]
      have hsame := handleAt_setHandle_self hthis (some source)
      unfold Memory.handleAt at hsame hother
      rw [hsame, hother]

theorem Inv.moveAssign (hmeets : this = other ∨ source.pointer ≠ target.pointer ∨ target.refCounter = none) :
    ∃ m', CallSound m (.moveAssign this other) m' ∧ Inv m' := by
  by_cases hself : this = other
  · subst hself
    have hstep : step m (.moveAssign this this) =
        some ((m.setHandle this (some .null)).setHandle this (some target)) := by
      simp [step, hthis, Memory.decrementUnlessSame]
    refine ⟨_, h.callSound hstep ?_ (StaysFreed.refl m) trivial⟩
    have hnull := Balanced.setHandle h (handleAt_eq_some.mp hthis) (some .null)
    have hat := handleAt_eq_some.mp (handleAt_setHandle_self hthis (some .null))
    refine (hnull.setHandle hat (some target)).congr rfl fun c => ?_
    omega
  -- `this` gives up its counter, unless it has none, and takes over the one of `other`
  obtain ⟨m1, target1, hgiven, hthis1, hother1, hfreed1, hbal1⟩ :
      ∃ m1 target1, m.decrementUnlessSame this target source = some m1 ∧
        m1.handleAt this = some target1 ∧ m1.handleAt other = some source ∧ StaysFreed m m1 ∧
          Balanced m.idle (fun c => - refers target1.refCounter c) m1 := by
    unfold Memory.decrementUnlessSame
    split
    · obtain ⟨m1, target1, hdecrement, hhandles, hfreed, hbal⟩ := Balanced.decrementHandle h
        target fun c hc => by simpa using h.busy hthis hc
      have hat : ∀ i, m1.handleAt i = m.handleAt i := fun i => by
        rw [Memory.handleAt, hhandles]
        rfl
      have hthis1 : m1.handleAt this = some target := (hat this).trans hthis
      refine ⟨m1.setHandle this (some target1), target1, by rw [hdecrement]; rfl,
        handleAt_setHandle_self hthis1 _, ?_, hfreed, ?_⟩
      · rw [handleAt_setHandle_of_ne hself, hat, hother]
      · refine (hbal.setHandle (handleAt_eq_some.mp hthis1) (some target1)).congr rfl fun c => ?_
        simp only [owned_some]
        omega
    · next hsame =>
      have hnone : target.refCounter = none := (hmeets.resolve_left hself).resolve_left hsame
      refine ⟨m, target, rfl, hthis, hother, StaysFreed.refl m, Balanced.congr h rfl fun c => ?_⟩
      rw [hnone, refers_none, neg_zero]
  have hstep : step m (.moveAssign this other) =
      some ((m1.setHandle other (some .null)).setHandle this (some source)) := by
    simp only [step, hthis, hother, bind_eq_bind, bind_some, hgiven, hother1]
  refine ⟨_, h.callSound hstep ?_ hfreed1 trivial⟩
  have hnull := hbal1.setHandle (handleAt_eq_some.mp hother1) (some .null)
  have hat : (m1.setHandle other (some .null)).handles[this]? = some (some target1) := by
    rw [← handleAt_eq_some, handleAt_setHandle_of_ne (Ne.symm hself), hthis1]
  refine (hnull.setHandle hat (some source)).congr rfl fun c => ?_
  simp only [owned_some, Handle.null, refers_none]
  omega

end

theorem counterAt_newCounter (pointer : Pointer) (c : ℕ) :
    ({ m with counters := m.counters ++ [some ⟨pointer, 0⟩] } : Memory).counterAt c =
      if c = m.counters.length then some ⟨pointer, 0⟩ else m.counterAt c := by
  unfold Memory.counterAt
  rcases lt_trichotomy c m.counters.length with hlt | rfl | hgt
  · rw [if_neg hlt.ne, getElem?_append_left hlt]
  · simp
  · have hnone : m.counters[c]? = none := getElem?_eq_none hgt.le
    rw [if_neg hgt.ne', hnone, getElem?_eq_none (by simp; omega)]

theorem Inv.newCounter (h : Inv m) (pointer : Pointer) :
    ∃ m', CallSound m (.newCounter pointer) m' ∧ Inv m' := by
  have hat := counterAt_newCounter (m := m) pointer
  -- nothing refers to the new counter yet
  have hfresh : m.counterAt m.counters.length = none := by simp [Memory.counterAt]
  have howners : m.owners m.counters.length = 0 := by
    have := (h.of_none hfresh).1
    omega
  have hinv : Inv { m with counters := m.counters ++ [some ⟨pointer, 0⟩] } := by
    intro c
    cases hr : ({ m with counters := m.counters ++ [some ⟨pointer, 0⟩] } : Memory).counterAt c with
    | none =>
      refine ⟨?_, by rintro ⟨_, hr', -⟩; cases hr.symm.trans hr'⟩
      rw [hat] at hr
      split at hr
      · cases hr
      · exact (h.of_none hr).1
    | some r =>
      suffices r.counter = m.owners c + 0 ∧ 0 ≤ m.owners c + (0 : ℤ) ∧ (0 < m.owners c + (0 : ℤ) → r.pointer.isSome) from
        ⟨this.1, this.2.1, this.2.2, fun hzero => ⟨r, hr, this.1.trans hzero⟩⟩
      rw [hat] at hr
      split at hr
      · next hc =>
        cases hr
        rw [hc, howners]
        exact ⟨rfl, le_refl 0, fun hpos => absurd hpos (lt_irrefl 0)⟩
      · obtain ⟨hcount, hnonneg, hptr, -⟩ := h.of_some hr
        exact ⟨hcount, hnonneg, hptr⟩
  refine ⟨_, ⟨rfl, hinv.exact, fun c hlive => ?_, fun c hlt hc => ?_, trivial⟩, hinv⟩
  · rw [hat]
    have hne : c ≠ m.counters.length := by
      rintro rfl
      simp [hfresh] at hlive
    rw [if_neg hne]
    constructor
    · intro hnone
      simp [hnone] at hlive
    · rintro ⟨hpos, hzero⟩
      exact absurd hzero hpos.ne'
  · rw [hat, if_neg hlt.ne, hc]

/-- A call of the right kind is sound. -/
theorem Inv.sound_of_meets (h : Inv m) {call : Call} (hpermit : Permitted m call)
    (hmeets : Meets m call) : ∃ m', CallSound m call m' ∧ Inv m' := by
  cases call with
  | newCounter pointer => exact h.newCounter pointer
  | construct =>
    have hbal : Balanced m.idle (fun _ => 0) (m.addHandle .null) :=
      (Balanced.addHandle h .null).congr rfl fun c => by simp [Handle.null]
    exact ⟨_, h.callSound rfl hbal (StaysFreed.refl m) trivial⟩
  | constructFrom refCounter =>
    obtain ⟨pointer, hptr⟩ : ∃ pointer, m.pointerOf refCounter = some pointer := by
      cases refCounter with
      | none => exact ⟨none, rfl⟩
      | some c =>
        obtain ⟨r, hr, -⟩ := hpermit c rfl
        exact ⟨r.pointer, by rw [Memory.pointerOf, hr]; rfl⟩
    obtain ⟨m', hconstr, -, hfreed, hbal⟩ :=
      h.construct ⟨refCounter, pointer⟩ hpermit
    exact ⟨m', h.callSound (by simp [step, hptr, hconstr]) hbal hfreed trivial⟩
  | constructWith refCounter pointer =>
    obtain ⟨m', hconstr, -, hfreed, hbal⟩ :=
      h.construct ⟨refCounter, pointer⟩ hpermit
    exact ⟨m', h.callSound hconstr hbal hfreed trivial⟩
  | copyConstruct other =>
    obtain ⟨source, hsrc⟩ := isSome_iff_exists.mp hpermit
    have hptr := hmeets source hsrc
    obtain ⟨m', hconstr, hhandles, hfreed, hbal⟩ := h.construct _ (h.live hsrc)
    refine ⟨m', h.callSound (by simp [step, hsrc, hptr, hconstr]) hbal hfreed ?_⟩
    show m'.get m.handles.length = m.get other
    rw [get_construct hhandles, Memory.get, hsrc]
    rfl
  | moveConstruct other =>
    obtain ⟨source, hsrc⟩ := isSome_iff_exists.mp hpermit
    exact ⟨_, h.callSound (by simp [step, hsrc]) (h.move hsrc) (StaysFreed.refl m) trivial⟩
  | copyAssign this other =>
    obtain ⟨target, htgt⟩ := isSome_iff_exists.mp hpermit.1
    obtain ⟨source, hsrc⟩ := isSome_iff_exists.mp hpermit.2
    exact h.copyAssign htgt hsrc
  | moveAssign this other =>
    obtain ⟨target, htgt⟩ := isSome_iff_exists.mp hpermit.1
    obtain ⟨source, hsrc⟩ := isSome_iff_exists.mp hpermit.2
    exact h.moveAssign htgt hsrc (hmeets target htgt source hsrc)
  | as other =>
    obtain ⟨source, hsrc⟩ := isSome_iff_exists.mp hpermit
    obtain ⟨m', hconstr, hhandles, hfreed, hbal⟩ := h.construct _ (h.live hsrc)
    refine ⟨m', h.callSound (by simp [step, hsrc, hconstr]) hbal hfreed ?_⟩
    show m'.get m.handles.length = m.get other
    rw [get_construct hhandles, Memory.get, hsrc]
    rfl
  | into other =>
    obtain ⟨source, hsrc⟩ := isSome_iff_exists.mp hpermit
    exact ⟨_, h.callSound (by simp [step, hsrc]) (h.move hsrc) (StaysFreed.refl m) trivial⟩
  | destroy this =>
    obtain ⟨target, htgt⟩ := isSome_iff_exists.mp hpermit
    obtain ⟨m1, handle', hdecrement, hhandles, hfreed, hbal⟩ :=
      Balanced.decrementHandle h target fun c hc => by simpa using h.busy htgt hc
    refine ⟨m1.setHandle this none, h.callSound (by simp [step, htgt, hdecrement]) ?_ hfreed trivial⟩
    have hat : m1.handles[this]? = some (some target) := hhandles ▸ handleAt_eq_some.mp htgt
    refine (hbal.setHandle hat none).congr rfl fun c => ?_
    simp only [owned_some, owned_none]
    omega

/-- A sound call is of the right kind. -/
theorem Inv.meets_of_sound (h : Inv m) {call : Call} {m' : Memory} (hsound : CallSound m call m') :
    Meets m call := by
  cases call with
  | copyConstruct other =>
    intro source (hsrc : m.handleAt other = some source)
    have hstep := hsound.returns
    simp only [step, hsrc, bind_eq_bind, bind_some] at hstep
    obtain ⟨pointer, hptr, hconstr⟩ := bind_eq_some_iff.mp hstep
    obtain ⟨m1, hconstr1, hhandles, -⟩ := h.construct ⟨source.refCounter, pointer⟩
      fun c hc => h.live hsrc c hc
    obtain rfl : m1 = m' := some.inj (hconstr1.symm.trans hconstr)
    have hcopy : m1.get m.handles.length = m.get other := hsound.copies
    rw [get_construct hhandles, Memory.get, hsrc] at hcopy
    rw [hptr]
    exact hcopy
  | moveAssign this other =>
    intro target (htgt : m.handleAt this = some target) source
      (hsrc : m.handleAt other = some source)
    by_contra hnot
    obtain ⟨hself, hsame, hrefers⟩ : this ≠ other ∧ source.pointer = target.pointer ∧
      target.refCounter ≠ none := by simpa [not_or] using hnot
    obtain ⟨c, hc⟩ := ne_none_iff_exists'.mp hrefers
    have hstep := hsound.returns
    simp only [step, htgt, hsrc, bind_eq_bind, bind_some,
      Memory.decrementUnlessSame, hsame, ne_eq, not_true_eq_false, if_false] at hstep
    cases hstep
    -- the counter of `this` has lost an owner, but its count is what it was
    obtain ⟨r, hr, -⟩ := h.live htgt c hc
    have hbefore := (h.of_some hr).1
    have hafter := hsound.exact.counts c r hr
    have hat : (m.setHandle other (some .null)).handles[this]? = some (some target) := by
      rw [← handleAt_eq_some, handleAt_setHandle_of_ne (Ne.symm hself), htgt]
    rw [owners_setHandle hat, owners_setHandle (handleAt_eq_some.mp hsrc)] at hafter
    simp only [owned_some, Handle.null, refers_none, hc, refers_self] at hafter
    omega
  | _ => trivial

end Calls

/-! ### Sequences of calls -/

theorem inv_empty : Inv Memory.empty :=
  fun _ => ⟨rfl, by rintro ⟨_, hr, -⟩; cases hr⟩

theorem Inv.always_sound_iff (h : Inv m) {calls : List Call} (hpermit : Always Permitted m calls) :
    Always (fun m call => ∃ m', CallSound m call m') m calls ↔ Always Meets m calls := by
  induction calls generalizing m with
  | nil => exact Iff.rfl
  | cons call calls ih =>
    obtain ⟨hfirst, hrest⟩ := hpermit
    constructor
    · rintro ⟨⟨m', hsound⟩, hsounds⟩
      have hmeets := h.meets_of_sound hsound
      obtain ⟨m1, hsound1, hinv⟩ := h.sound_of_meets hfirst hmeets
      refine ⟨hmeets, fun m2 hstep => ?_⟩
      obtain rfl : m1 = m2 := some.inj (hsound1.returns.symm.trans hstep)
      exact (ih hinv (hrest m1 hstep)).mp (hsounds m1 hstep)
    · rintro ⟨hmeets, hmeetss⟩
      obtain ⟨m1, hsound1, hinv⟩ := h.sound_of_meets hfirst hmeets
      refine ⟨⟨m1, hsound1⟩, fun m2 hstep => ?_⟩
      obtain rfl : m1 = m2 := some.inj (hsound1.returns.symm.trans hstep)
      exact (ih hinv (hrest m1 hstep)).mpr (hmeetss m1 hstep)

/-- **When reference counting is exact.**  Along every sequence of calls that uses only handles and
    counters that exist, all calls are sound iff each copy is made of a handle that points to where its
    counter points and each move assignment to another handle to the same object finds no counter to give
    up. -/
theorem sound_iff_meets (calls : List Call) (hpermit : Always Permitted Memory.empty calls) :
    Always (fun m call => ∃ m', CallSound m call m') Memory.empty calls ↔
      Always Meets Memory.empty calls :=
  inv_empty.always_sound_iff hpermit

/-- Two handles to one object, of which one is moved to the other. -/
def moveToAlias : List Call := [.newCounter (some 7), .constructFrom (some 0), .copyConstruct 0, .moveAssign 0 1]

/-- A handle that points into its object, and a copy of it. -/
def copyOfInnerPointer : List Call := [.newCounter (some 7), .constructWith (some 0) (some 8), .copyConstruct 0]

theorem not_always_sound {calls : List Call} (hpermit : Always Permitted Memory.empty calls)
    (hmeets : ¬ Always Meets Memory.empty calls) :
    ¬ Always (fun m call => ∃ m', CallSound m call m') Memory.empty calls := by
  rwa [inv_empty.always_sound_iff hpermit]

/-- **The count of a moved handle is too high**, and a copy forgets where its source points. -/
theorem not_sound_moveToAlias :
    (Always Permitted Memory.empty moveToAlias ∧
      ¬ Always (fun m call => ∃ m', CallSound m call m') Memory.empty moveToAlias) ∧
    Always Permitted Memory.empty copyOfInnerPointer ∧
      ¬ Always (fun m call => ∃ m', CallSound m call m') Memory.empty copyOfInnerPointer := by
  refine ⟨⟨by decide, ?_⟩, by decide, ?_⟩
  · exact not_always_sound (by decide) (by decide)
  · exact not_always_sound (by decide) (by decide)

/-- Calls of every kind on two objects. -/
def everyCall : List Call :=
  [.newCounter (some 7), .newCounter (some 9), .construct, .constructFrom (some 0),
    .constructWith (some 1) (some 10), .copyConstruct 1, .moveConstruct 3, .copyAssign 0 2,
    .copyAssign 0 0, .moveAssign 0 4, .moveAssign 0 0, .as 0, .into 5, .destroy 6]

theorem sound_iff_meets_everyCall :
    Always Permitted Memory.empty everyCall ∧ Always Meets Memory.empty everyCall ∧
      Always (fun m call => ∃ m', CallSound m call m') Memory.empty everyCall :=
  ⟨by decide, by decide, (sound_iff_meets everyCall (by decide)).mpr (by decide)⟩

end Jitq.Runtime.SharedPointer
