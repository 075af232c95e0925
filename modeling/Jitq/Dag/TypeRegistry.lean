import Jitq.Dag.TypeText

namespace Jitq

open Text List

/-! # The type registry

Types are objects that point to each other, and the registry owns one object for each text.  `MakeType`
prints a new object, registers it under its text unless there is one already, and returns the object that
is registered.

* `DagType.Is` — which type an object is, through the pointers of the registry;
* `RegistryConsistent` — what holds of every registry: keys and addresses are unique, and each object is registered
  under the text of a type that it is;
* `makeType_outcome`, `fromJson_outcome` — a call keeps what is registered and returns a pointer to an object
  of the type that is asked for;
* `typeRegistry_interns_iff` — whole sessions of calls. -/

/-! ### Objects and pointers -/

/-- An object of class `Atomic`, `Tuple` or `Array`; pointers are addresses. -/
inductive TypeObject
  | atomic (type : String)
  | tuple (fieldTypes : List ℕ)
  | array (layout : ArrayLayout) (numDimensions : ℕ) (tupleType : ℕ)
  deriving DecidableEq

namespace TypeObject

def isAtomic : TypeObject → Bool
  | atomic _ => true
  | _ => false

def isTuple : TypeObject → Bool
  | tuple _ => true
  | _ => false

def isArray : TypeObject → Bool
  | array .. => true
  | _ => false

/-- `Atomic` and `Array` are derived from `FieldType`. -/
def isFieldType (object : TypeObject) : Bool := object.isAtomic || object.isArray

end TypeObject

/-- A key of the registry with the object that it owns. -/
structure Registered where
  key : String
  address : ℕ
  object : TypeObject

/-- `TypeRegistry`.  `allocations` counts the objects that were allocated so far. -/
structure TypeRegistry where
  objects : List Registered
  allocations : ℕ

/-- The object at an address. -/
def deref (objects : List Registered) (address : ℕ) : Option TypeObject :=
  (objects.find? fun e => e.address = address).map Registered.object

/-- Where the next object is allocated, given the addresses that are in use. -/
structure Allocator where
  choose : ℕ → List ℕ → ℕ
  fresh : ∀ count live, choose count live ∉ live

namespace TypeObject

section Fold

variable {β : Type} (onAtomic : String → β) (onTuple : List β → β) (onArray : ArrayLayout → ℕ → β → β)

/-- A recursion over the pointers of an object; `none` if it meets an address without an object or goes
    deeper than allowed. -/
def fold (objects : List Registered) : ℕ → TypeObject → Option β
  | _, atomic type => some (onAtomic type)
  | 0, _ => none
  | depth + 1, tuple fieldTypes => (fieldTypes.mapM fun p => (deref objects p).bind (fold objects depth)).map onTuple
  | depth + 1, array layout numDimensions tupleType =>
    ((deref objects tupleType).bind (fold objects depth)).map (onArray layout numDimensions)

end Fold

/-- `to_string`. -/
def toText : List Registered → ℕ → TypeObject → Option String :=
  fold id (fun items => "[" ++ join "," items ++ "]")
    (fun layout numDimensions tupleType =>
      "\x7b" ++ tupleType ++ "\x7d" ++ layout.toText ++ numDimensions.repr)

/-- `to_json`. -/
def toJson : List Registered → ℕ → TypeObject → Option Json :=
  fold (fun type => .object [("type", .string type)]) .array
    (fun layout numDimensions tupleType => .object [("type", .string "array"),
      ("layout", .string layout.toText), ("num_dimensions", .ofNat numDimensions),
      ("tuple_type", tupleType)])

end TypeObject

/-! ### Calls -/

/-- A computation that changes the registry; `none` is an exception. -/
def Registering (α : Type) := TypeRegistry → Option α × TypeRegistry

namespace Registering

variable {α β : Type}

instance : Monad Registering where
  pure a := fun r => (some a, r)
  bind x f := fun r =>
    match x r with
    | (none, r) => (none, r)
    | (some a, r) => f a r

def ofOption (a : Option α) : Registering α := fun r => (a, r)

end Registering

namespace TypeRegistry

/-- `Registry::Register`: `emplace` does nothing if the key is there, and the new object is deleted. -/
def register (key : String) (address : ℕ) (object : TypeObject) (r : TypeRegistry) : TypeRegistry where
  objects := if r.objects.any fun e => e.key = key then r.objects else ⟨key, address, object⟩ :: r.objects
  allocations := r.allocations + 1

/-- `Registry::at`. -/
def at_ (r : TypeRegistry) (key : String) : Option ℕ := (r.objects.find? fun e => e.key = key).map Registered.address

variable (alloc : Allocator)

/-- `MakeType`. -/
def makeType (object : TypeObject) : Registering ℕ := fun r =>
  match object.toText r.objects (r.objects.length + 1) with
  | none => (none, r)
  | some str =>
    let address := alloc.choose r.allocations (r.objects.map Registered.address)
    let r := r.register str address object
    (r.at_ str, r)

/-- `boost::polymorphic_pointer_downcast`, which asserts the class of the object. -/
def downcast (is : TypeObject → Bool) (p : ℕ) : Registering ℕ := fun r =>
  (((deref r.objects p).filter is).map fun _ => p, r)

/-- `Atomic::MakeAtomic`. -/
def makeAtomic (type : String) : Registering ℕ := do
  let ret ← makeType alloc (.atomic type)
  downcast TypeObject.isAtomic ret

/-- `Tuple::MakeTuple`. -/
def makeTuple (fieldTypes : List ℕ) : Registering ℕ := do
  let ret ← makeType alloc (.tuple fieldTypes)
  downcast TypeObject.isTuple ret

/-- `Array::MakeArray`. -/
def makeArray (tupleType : ℕ) (layout : ArrayLayout) (numDimensions : ℕ) : Registering ℕ := do
  let ret ← makeType alloc (.array layout numDimensions tupleType)
  downcast TypeObject.isArray ret

mutual

/-- `from_json`: an empty object of the class that the JSON value is for, its members, and `MakeType`. -/
def fromJson : Json → Registering ℕ
  | .array elements => do
    let fieldTypes ← fromElements elements
    makeType alloc (.tuple fieldTypes)
  | .object members => do
    let type ← .ofOption ((members.lookup "type").bind Json.asString)
    if type = "array" then
      let layout ← .ofOption (((members.lookup "layout").bind Json.asString).bind ArrayLayout.ofText)
      let numDimensions ← .ofOption ((members.lookup "num_dimensions").bind Json.asNat)
      let tupleType ← fromMembers members
      makeType alloc (.array layout numDimensions tupleType)
    else
      makeType alloc (.atomic type)
  | _ => .ofOption none

/-- `Tuple::from_json`. -/
def fromElements : List Json → Registering (List ℕ)
  | [] => pure []
  | e :: es => do
    let p ← fromJson e
    let p ← downcast TypeObject.isFieldType p
    let ps ← fromElements es
    pure (p :: ps)

/-- The `tuple_type` of `Array::from_json`. -/
def fromMembers : List (String × Json) → Registering ℕ
  | [] => .ofOption none
  | (key, value) :: members =>
    if key = "tuple_type" then do
      let p ← fromJson value
      downcast TypeObject.isTuple p
    else fromMembers members

end

end TypeRegistry

/-! ### Which type an object is -/

section Is

variable (objects : List Registered)

mutual

def FieldType.Is : FieldType → TypeObject → Prop
  | .atomic type, object => object = .atomic type
  | .array layout numDimensions tupleType, object => ∃ p ps,
    object = .array layout numDimensions p ∧ deref objects p = some (.tuple ps) ∧ TupleType.Are tupleType ps

def TupleType.Are : List FieldType → List ℕ → Prop
  | [], ps => ps = []
  | t :: ts, ps => ∃ p rest object, ps = p :: rest ∧ deref objects p = some object ∧
    FieldType.Is t object ∧ TupleType.Are ts rest

end

/-- The object is of this type, with the objects that it points to. -/
def DagType.Is : DagType → TypeObject → Prop
  | field type, object => type.Is objects object
  | tuple fieldTypes, object => ∃ ps, object = .tuple ps ∧ TupleType.Are objects fieldTypes ps

/-- There is an object of this type at the address. -/
def PointsTo (p : ℕ) (t : DagType) : Prop := ∃ object, deref objects p = some object ∧ t.Is objects object

end Is

mutual

/-- How deep the pointers of a type go. -/
def FieldType.depth : FieldType → ℕ
  | .atomic _ => 0
  | .array _ _ tupleType => TupleType.itemsDepth tupleType + 2

def TupleType.itemsDepth : List FieldType → ℕ
  | [] => 0
  | t :: ts => max (FieldType.depth t) (TupleType.itemsDepth ts)

end

def DagType.depth : DagType → ℕ
  | field type => type.depth
  | tuple fieldTypes => TupleType.itemsDepth fieldTypes + 1

variable {objects objects' : List Registered}

variable {t : DagType} {object : TypeObject} {p : ℕ}

/-- All objects stay where they are. -/
def Extends (objects objects' : List Registered) : Prop :=
  ∀ p object, deref objects p = some object → deref objects' p = some object

theorem Extends.refl : Extends objects objects := fun _ _ h => h

theorem Extends.trans {objects'' : List Registered} (h : Extends objects objects')
    (h' : Extends objects' objects'') : Extends objects objects'' :=
  fun p object hp => h' p object (h p object hp)

mutual

theorem FieldType.Is.mono {t : FieldType} {object : TypeObject} (hext : Extends objects objects')
    (h : t.Is objects object) : t.Is objects' object := by
  cases t with
  | atomic type =>
    rw [FieldType.Is] at h ⊢
    exact h
  | array l n ts =>
    rw [FieldType.Is] at h ⊢
    obtain ⟨p, ps, hobj, hp, hare⟩ := h
    exact ⟨p, ps, hobj, hext p _ hp, TupleType.Are.mono hext hare⟩

theorem TupleType.Are.mono {ts : List FieldType} {ps : List ℕ} (hext : Extends objects objects')
    (h : TupleType.Are objects ts ps) : TupleType.Are objects' ts ps := by
  cases ts with
  | nil =>
    rw [TupleType.Are] at h ⊢
    exact h
  | cons t ts =>
    rw [TupleType.Are] at h ⊢
    obtain ⟨p, rest, object, hps, hp, hhead, htail⟩ := h
    exact ⟨p, rest, object, hps, hext p _ hp, FieldType.Is.mono hext hhead, TupleType.Are.mono hext htail⟩

end

theorem DagType.Is.mono (hext : Extends objects objects') (h : t.Is objects object) : t.Is objects' object := by
  cases t with
  | field t => exact FieldType.Is.mono hext h
  | tuple ts =>
    obtain ⟨ps, hobj, hare⟩ := h
    exact ⟨ps, hobj, TupleType.Are.mono hext hare⟩

theorem PointsTo.mono (hext : Extends objects objects') (h : PointsTo objects p t) : PointsTo objects' p t := by
  obtain ⟨object, hp, his⟩ := h
  exact ⟨object, hext p object hp, his.mono hext⟩

/-! ### Recursions over pointers compute what they do on types -/

/-- A function on types that is computed by a recursion over pointers. -/
structure Follows {β : Type} (onAtomic : String → β) (onTuple : List β → β)
    (onArray : ArrayLayout → ℕ → β → β) (f : FieldType → β) : Prop where
  atomic : ∀ type, f (.atomic type) = onAtomic type
  array : ∀ layout n ts, f (.array layout n ts) = onArray layout n (onTuple (ts.map f))

section Fold

variable {β : Type} {onAtomic : String → β} {onTuple : List β → β} {onArray : ArrayLayout → ℕ → β → β}
  {f : FieldType → β}

mutual

theorem FieldType.Is.fold_eq (hf : Follows onAtomic onTuple onArray f) {t : FieldType} {object : TypeObject}
    (h : t.Is objects object) {n : ℕ} (hn : t.depth ≤ n) :
    object.fold onAtomic onTuple onArray objects n = some (f t) := by
  cases t with
  | atomic type =>
    rw [FieldType.Is] at h
    rw [h, TypeObject.fold, hf.atomic]
  | array l d ts =>
    rw [FieldType.Is] at h
    obtain ⟨p, ps, rfl, hp, hare⟩ := h
    rw [FieldType.depth] at hn
    obtain ⟨n, rfl⟩ : ∃ m, n = m + 2 := ⟨n - 2, by omega⟩
    have hitems := TupleType.Are.fold_eq hf hare (n := n) (by omega)
    rw [TypeObject.fold, hp, Option.bind_some, TypeObject.fold, hitems, hf.array]
    rfl

theorem TupleType.Are.fold_eq (hf : Follows onAtomic onTuple onArray f) {ts : List FieldType} {ps : List ℕ}
    (h : TupleType.Are objects ts ps) {n : ℕ} (hn : TupleType.itemsDepth ts ≤ n) :
    (ps.mapM fun p => (deref objects p).bind (TypeObject.fold onAtomic onTuple onArray objects n)) =
      some (ts.map f) := by
  cases ts with
  | nil =>
    rw [TupleType.Are] at h
    rw [h]
    rfl
  | cons t ts =>
    rw [TupleType.Are] at h
    obtain ⟨p, rest, object, rfl, hp, hhead, htail⟩ := h
    rw [TupleType.itemsDepth] at hn
    have hfirst := FieldType.Is.fold_eq hf hhead (n := n) (by omega)
    have hrest := TupleType.Are.fold_eq hf htail (n := n) (by omega)
    rw [mapM_cons, hp, Option.bind_some, hfirst, hrest]
    rfl

end

theorem DagType.Is.fold_eq (hf : Follows onAtomic onTuple onArray f) {t : DagType} {object : TypeObject}
    (h : t.Is objects object) {n : ℕ} (hn : t.depth ≤ n) : object.fold onAtomic onTuple onArray objects n =
      some (match t with
        | .field type => f type
        | .tuple fieldTypes => onTuple (fieldTypes.map f)) := by
  cases t with
  | field t => exact FieldType.Is.fold_eq hf h hn
  | tuple ts =>
    obtain ⟨ps, rfl, hare⟩ := h
    rw [DagType.depth] at hn
    obtain ⟨n, rfl⟩ : ∃ m, n = m + 1 := ⟨n - 1, by omega⟩
    rw [TypeObject.fold, TupleType.Are.fold_eq hf hare (by omega)]
    rfl

end Fold

def DagType.asField : DagType → Option FieldType
  | field type => some type
  | tuple _ => none

def DagType.asTuple : DagType → Option TupleType
  | field _ => none
  | tuple fieldTypes => some fieldTypes

/-- An object is of one type only: the one that a recursion over its pointers builds. -/
theorem DagType.Is.unique {u : DagType} (ht : t.Is objects object) (hu : u.Is objects object) : t = u := by
  have hitems : ∀ ts : List FieldType, (ts.map field).filterMap asField = ts := fun ts => by
    rw [filterMap_map]
    exact filterMap_some
  have hread : Follows (fun type => field (.atomic type)) (fun items => tuple (items.filterMap asField))
      (fun layout n t => field (.array layout n (t.asTuple.getD []))) field :=
    ⟨fun _ => rfl, fun _ _ ts => by rw [hitems]; rfl⟩
  have hbuilt : ∀ {v : DagType}, v.Is objects object → v.depth ≤ max t.depth u.depth → object.fold
      (fun type => field (.atomic type)) (fun items => tuple (items.filterMap asField))
        (fun layout n t => field (.array layout n (t.asTuple.getD []))) objects (max t.depth u.depth) = some v := by
    intro v hv hn
    rw [hv.fold_eq hread hn]
    cases v with
    | field t => rfl
    | tuple ts => exact congrArg (some ∘ tuple) (hitems ts)
  exact Option.some.inj ((hbuilt ht (le_max_left ..)).symm.trans (hbuilt hu (le_max_right ..)))

theorem TupleType.itemTexts_eq_map (ts : List FieldType) : TupleType.itemTexts ts = ts.map FieldType.text := by
  induction ts with
  | nil => rfl
  | cons t ts ih => rw [TupleType.itemTexts, ih, map_cons]

theorem TupleType.elementsToJson_eq_map (ts : List FieldType) :
    TupleType.elementsToJson ts = ts.map FieldType.toJson := by
  induction ts with
  | nil => rfl
  | cons t ts ih => rw [TupleType.elementsToJson, ih, map_cons]

def DagType.toJson : DagType → Json
  | field type => type.toJson
  | tuple fieldTypes => TupleType.toJson fieldTypes

theorem DagType.Is.toText (h : t.Is objects object) {n : ℕ} (hn : t.depth ≤ n) :
    object.toText objects n = some t.text := by
  have htext : Follows id (fun items => "[" ++ join "," items ++ "]")
      (fun layout numDimensions tupleType =>
        "\x7b" ++ tupleType ++ "\x7d" ++ layout.toText ++ numDimensions.repr) FieldType.text :=
    ⟨fun type => by rw [FieldType.text]; rfl, fun l d ts => by rw [FieldType.text, TupleType.itemTexts_eq_map]⟩
  rw [TypeObject.toText, h.fold_eq htext hn]
  cases t with
  | field t => rfl
  | tuple ts => rw [DagType.text, TupleType.text, TupleType.itemTexts_eq_map]

theorem DagType.Is.toJson (h : t.Is objects object) {n : ℕ} (hn : t.depth ≤ n) :
    object.toJson objects n = some t.toJson := by
  have hjson : Follows (fun type => .object [("type", .string type)]) .array
      (fun layout numDimensions tupleType => .object [("type", .string "array"),
        ("layout", .string layout.toText), ("num_dimensions", .ofNat numDimensions),
        ("tuple_type", tupleType)]) FieldType.toJson :=
    ⟨fun type => by rw [FieldType.toJson], fun l d ts => by rw [FieldType.toJson, TupleType.elementsToJson_eq_map]⟩
  rw [TypeObject.toJson, h.fold_eq hjson hn]
  cases t with
  | field t => rfl
  | tuple ts => rw [DagType.toJson, TupleType.toJson, TupleType.elementsToJson_eq_map]

/-! ### Consistent registries -/

/-- What holds of the objects of a registry. -/
structure RegistryConsistent (objects : List Registered) : Prop where
  keys : (objects.map Registered.key).Nodup
  addresses : (objects.map Registered.address).Nodup
  /-- Every object is of a type with valid names, and is registered under its text. -/
  types : ∀ e ∈ objects, ∃ t : DagType, t.Named ∧ t.Is objects e.object ∧ e.key = t.text ∧ t.depth ≤ objects.length

theorem RegistryConsistent.nil : RegistryConsistent [] := ⟨.nil, .nil, fun _ he => nomatch he⟩

theorem exists_of_deref (h : deref objects p = some object) : ∃ e ∈ objects, e.address = p ∧ e.object = object := by
  obtain ⟨e, he, hobj⟩ := Option.map_eq_some_iff.mp h
  exact ⟨e, mem_of_find?_eq_some he, by simpa using find?_some he, hobj⟩

section

variable (h : RegistryConsistent objects)

include h

theorem RegistryConsistent.deref_of_mem {e : Registered} (he : e ∈ objects) :
    deref objects e.address = some e.object := by
  have hsome : (objects.find? fun e' => e'.address = e.address).isSome := by
    rw [find?_isSome]
    exact ⟨e, he, by simp⟩
  obtain ⟨e', he'⟩ := Option.isSome_iff_exists.mp hsome
  have haddr : e'.address = e.address := by simpa using find?_some he'
  have heq : e' = e := inj_on_of_nodup_map h.addresses (mem_of_find?_eq_some he') he haddr
  rw [deref, he', heq]
  rfl

/-- The type of a registered object is as deep as the registry is long, and its text is the key. -/
theorem RegistryConsistent.entry (hp : PointsTo objects p t) :
    t.Named ∧ t.depth ≤ objects.length ∧ ∃ e ∈ objects, e.address = p ∧ e.key = t.text := by
  obtain ⟨object, hderef, his⟩ := hp
  obtain ⟨e, he, haddr, rfl⟩ := exists_of_deref hderef
  obtain ⟨t', hnamed, his', hkey, hdepth⟩ := h.types e he
  obtain rfl := his.unique his'
  exact ⟨hnamed, hdepth, e, he, haddr, hkey⟩

/-- **Pointers are equal exactly if their types are.** -/
theorem RegistryConsistent.pointer_eq_iff {q : ℕ} {u : DagType}
    (hp : PointsTo objects p t) (hq : PointsTo objects q u) : p = q ↔ t = u := by
  constructor
  · rintro rfl
    obtain ⟨object, hderef, his⟩ := hp
    obtain ⟨object', hderef', his'⟩ := hq
    obtain rfl := Option.some.inj (hderef.symm.trans hderef')
    exact his.unique his'
  · rintro rfl
    obtain ⟨-, -, e, he, rfl, hkey⟩ := h.entry hp
    obtain ⟨-, -, e', he', rfl, hkey'⟩ := h.entry hq
    rw [inj_on_of_nodup_map h.keys he he' (hkey.trans hkey'.symm)]

/-- The fields of a registered tuple have valid names, and are as deep as the registry is long. -/
theorem RegistryConsistent.items {ts : List FieldType} {ps : List ℕ} (hare : TupleType.Are objects ts ps) :
    TupleType.Named ts ∧ TupleType.itemsDepth ts ≤ objects.length := by
  induction ts generalizing ps with
  | nil => exact ⟨trivial, Nat.zero_le _⟩
  | cons t ts ih =>
    obtain ⟨p, rest, object, -, hp, hhead, htail⟩ := hare
    have hfield : PointsTo objects p (.field t) := ⟨object, hp, hhead⟩
    obtain ⟨hnamed, hdepth, -⟩ := h.entry hfield
    exact ⟨⟨hnamed, (ih htail).1⟩, max_le hdepth (ih htail).2⟩

/-- An object that points to registered ones is at most one deeper than they are. -/
theorem RegistryConsistent.depth_le (his : t.Is objects object) : t.depth ≤ objects.length + 1 := by
  cases t with
  | field t =>
    cases t with
    | atomic type =>
      exact Nat.zero_le _
    | array l n ts =>
      obtain ⟨p, ps, -, hp, hare⟩ := his
      have htuple : PointsTo objects p (.tuple ts) := ⟨_, hp, ps, rfl, hare⟩
      have hdepth := (h.entry htuple).2.1
      rw [DagType.depth] at hdepth
      rw [DagType.depth, FieldType.depth]
      omega
  | tuple ts =>
    obtain ⟨ps, -, hare⟩ := his
    have hdepth := (h.items hare).2
    rw [DagType.depth]
    omega

/-- The registry with one more object at the front. -/
theorem RegistryConsistent.cons {address : ℕ} (hnamed : t.Named)
    (his : t.Is objects object) (hkey : ∀ e ∈ objects, e.key ≠ t.text)
    (haddr : address ∉ objects.map Registered.address) :
    Extends objects (⟨t.text, address, object⟩ :: objects) ∧
      RegistryConsistent (⟨t.text, address, object⟩ :: objects) := by
  have hext : Extends objects (⟨t.text, address, object⟩ :: objects) := by
    intro p o hp
    obtain ⟨e, he, rfl, -⟩ := exists_of_deref hp
    have hne : address ≠ e.address := fun heq => haddr (heq ▸ mem_map_of_mem he)
    rw [deref, find?_cons_of_neg (by simpa using hne)]
    exact hp
  refine ⟨hext, ?_, ?_, ?_⟩
  · refine nodup_cons.mpr ⟨fun hmem => ?_, h.keys⟩
    obtain ⟨e, he, heq⟩ := mem_map.mp hmem
    exact hkey e he heq
  · exact nodup_cons.mpr ⟨haddr, h.addresses⟩
  · intro e he
    rcases mem_cons.mp he with rfl | he
    · exact ⟨t, hnamed, his.mono hext, rfl, h.depth_le his⟩
    · obtain ⟨t', hnamed', his', hkey', hdepth⟩ := h.types e he
      exact ⟨t', hnamed', his'.mono hext, hkey', Nat.le_succ_of_le hdepth⟩

end

/-! ### JSON -/

/-- The type that a JSON value stands for. -/
def DagType.ofJson : Json → Option DagType
  | .array elements => (TupleType.ofElements elements).map tuple
  | json => (FieldType.ofJson json).map field

theorem DagType.ofJson_asField (json : Json) : (DagType.ofJson json).bind DagType.asField = FieldType.ofJson json := by
  cases json with
  | array elements =>
    rw [DagType.ofJson, FieldType.ofJson]
    · cases TupleType.ofElements elements <;> rfl
    · rintro _ ⟨⟩
  | _ =>
    rw [DagType.ofJson, Option.bind_map]
    · exact Option.bind_fun_some _
    · rintro _ ⟨⟩

theorem DagType.ofJson_asTuple (json : Json) : (DagType.ofJson json).bind DagType.asTuple = TupleType.ofJson json := by
  cases json with
  | array elements =>
    rw [DagType.ofJson, TupleType.ofJson, Option.bind_map]
    exact Option.bind_fun_some _
  | _ =>
    rw [DagType.ofJson, TupleType.ofJson, Option.bind_map]
    · exact Option.bind_fun_none _
    · rintro _ ⟨⟩
    · rintro _ ⟨⟩

mutual

/-- All names of types in a JSON value are valid. -/
def Json.NamesValid : Json → Prop
  | .array elements => Json.ElementsValid elements
  | .object members => (∀ type, (members.lookup "type").bind Json.asString = some type → NameValid type) ∧
      Json.MembersValid members
  | _ => True

def Json.ElementsValid : List Json → Prop
  | [] => True
  | e :: es => e.NamesValid ∧ Json.ElementsValid es

def Json.MembersValid : List (String × Json) → Prop
  | [] => True
  | (_, value) :: members => value.NamesValid ∧ Json.MembersValid members

end

mutual

theorem FieldType.Named.toJson {t : FieldType} (h : t.Named) : t.toJson.NamesValid := by
  cases t with
  | atomic type =>
    rw [FieldType.Named] at h
    rw [FieldType.toJson, Json.NamesValid]
    refine ⟨fun type' htype => ?_, ?_⟩
    · obtain rfl : type = type' := Option.some.inj htype
      exact h
    · simp only [Json.MembersValid, Json.NamesValid, and_self]
  | array l n ts =>
    rw [FieldType.Named] at h
    have helements := TupleType.Named.toJson h
    rw [FieldType.toJson, Json.NamesValid]
    refine ⟨fun type' htype => ?_, ?_⟩
    · obtain rfl : "array" = type' := Option.some.inj htype
      simp [NameValid, structural]
    · simp only [Json.MembersValid, Json.NamesValid, Json.ofNat, helements, and_self]

theorem TupleType.Named.toJson {ts : List FieldType} (h : TupleType.Named ts) :
    Json.ElementsValid (TupleType.elementsToJson ts) := by
  cases ts with
  | nil => simp only [TupleType.elementsToJson, Json.ElementsValid]
  | cons t ts =>
    rw [TupleType.Named] at h
    rw [TupleType.elementsToJson, Json.ElementsValid]
    exact ⟨FieldType.Named.toJson h.1, TupleType.Named.toJson h.2⟩

end

theorem DagType.Named.toJson (h : t.Named) : t.toJson.NamesValid := by
  cases t with
  | field t => exact FieldType.Named.toJson h
  | tuple ts =>
    exact TupleType.Named.toJson h

/-! ### What a call does -/

namespace TypeRegistry

variable {α β : Type} {r : TypeRegistry} {alloc : Allocator}

/-- A computation keeps the registry consistent and all objects where they are, and returns what is wanted of it,
    or throws if nothing is. -/
def Outcome (want : Option β) (P : List Registered → β → α → Prop) (x : Registering α) (r : TypeRegistry) : Prop :=
  ∃ res r', x r = (res, r') ∧ RegistryConsistent r'.objects ∧ Extends r.objects r'.objects ∧
    (want = none → res = none) ∧ ∀ b, want = some b → ∃ a, res = some a ∧ P r'.objects b a

variable {P : List Registered → β → α → Prop}

theorem Outcome.pure (h : RegistryConsistent r.objects) {a : α} {b : β} (hP : P r.objects b a) :
    Outcome (some b) P (pure a) r :=
  ⟨some a, r, rfl, h, .refl, nofun, fun _ hb => ⟨a, rfl, Option.some.inj hb ▸ hP⟩⟩

theorem Outcome.throw (h : RegistryConsistent r.objects) : Outcome none P (.ofOption none) r :=
  ⟨none, r, rfl, h, .refl, fun _ => rfl, fun _ hb => nomatch hb⟩

/-- A value that is there, or an exception. -/
theorem Outcome.ofOption {γ : Type} (h : RegistryConsistent r.objects) {x : Option γ} {k : γ → Option β}
    {f : γ → Registering α} (hf : ∀ c, x = some c → Outcome (k c) P (f c) r) :
    Outcome (x.bind k) P (.ofOption x >>= f) r := by
  cases x with
  | none => exact .throw h
  | some c => exact hf c rfl

theorem Outcome.bind {γ δ : Type} {want : Option β} {x : Registering α}
    {k : β → Option δ} {Q : List Registered → δ → γ → Prop} {f : α → Registering γ} (h : Outcome want P x r)
    (hf : ∀ b a r', want = some b → RegistryConsistent r'.objects → Extends r.objects r'.objects → P r'.objects b a →
      Outcome (k b) Q (f a) r') : Outcome (want.bind k) Q (x >>= f) r := by
  obtain ⟨res, r', hrun, hcons, hext, hnone, hsome⟩ := h
  cases want with
  | none =>
    refine ⟨none, r', ?_, hcons, hext, fun _ => rfl, fun _ hb => nomatch hb⟩
    show (match x r with | (none, r) => (none, r) | (some a, r) => f a r) = _
    rw [hrun, hnone rfl]
  | some b =>
    obtain ⟨a, rfl, hP⟩ := hsome b rfl
    obtain ⟨res', r'', hrun', hcons', hext', hrest⟩ := hf b a r' rfl hcons hext hP
    refine ⟨res', r'', ?_, hcons', hext.trans hext', hrest⟩
    show (match x r with | (none, r) => (none, r) | (some a, r) => f a r) = _
    rw [hrun]
    exact hrun'

variable {t : DagType} {object : TypeObject} {p : ℕ} {ts : List FieldType}

/-- `MakeType` returns a pointer to an object of the type of the new one.  If the text was registered before, it
    is the text of the same type. -/
theorem makeType_outcome (h : RegistryConsistent r.objects) (hnamed : t.Named) (his : t.Is r.objects object) :
    Outcome (some t) (fun objects t p => PointsTo objects p t) (makeType alloc object) r := by
  have htext := his.toText (h.depth_le his)
  let address := alloc.choose r.allocations (r.objects.map Registered.address)
  -- it is enough to look at the objects that are registered then
  suffices hreg : ∃ e ∈ (r.register t.text address object).objects, e.key = t.text ∧
      t.Is (r.register t.text address object).objects e.object ∧
        RegistryConsistent (r.register t.text address object).objects ∧
          Extends r.objects (r.register t.text address object).objects by
    obtain ⟨e, he, hkey, his', hcons, hext⟩ := hreg
    have hat : (r.register t.text address object).at_ t.text = some e.address := by
      obtain ⟨e', hfind⟩ : ∃ e', find? (fun e => e.key = t.text) (r.register t.text address object).objects = some e' :=
        Option.isSome_iff_exists.mp (find?_isSome.mpr ⟨e, he, by simpa using hkey⟩)
      have hkey' : e'.key = t.text := by simpa using find?_some hfind
      rw [at_, hfind, inj_on_of_nodup_map hcons.keys (mem_of_find?_eq_some hfind) he (hkey'.trans hkey.symm)]
      rfl
    refine ⟨some e.address, _, by rw [makeType, htext, ← hat], hcons, hext, nofun, ?_⟩
    rintro _ ⟨⟩
    exact ⟨e.address, rfl, e.object, hcons.deref_of_mem he, his'⟩
  unfold register
  by_cases hany : (r.objects.any fun e => e.key = t.text) = true
  · obtain ⟨e, he, hkey⟩ := any_eq_true.mp hany
    have hkey : e.key = t.text := by simpa using hkey
    obtain ⟨t', hnamed', his', htext', -⟩ := h.types e he
    obtain rfl := DagType.text_inj hnamed' hnamed (htext'.symm.trans hkey)
    rw [if_pos hany]
    exact ⟨e, he, hkey, his', h, .refl⟩
  · have hnew : ∀ e ∈ r.objects, e.key ≠ t.text := fun e he heq =>
      hany (any_eq_true.mpr ⟨e, he, by simpa using heq⟩)
    obtain ⟨hext, hcons⟩ := h.cons hnamed his hnew (alloc.fresh r.allocations _)
    rw [if_neg hany]
    exact ⟨_, mem_cons_self, rfl, his.mono hext, hcons, hext⟩

/-- A downcast succeeds exactly if the object is of the class. -/
theorem downcast_outcome (h : RegistryConsistent r.objects) (hp : PointsTo r.objects p t) (is : TypeObject → Bool)
    (as : DagType → Option β) (P : List Registered → β → ℕ → Prop)
    (his : ∀ object, t.Is r.objects object → (is object = true ↔ (as t).isSome))
    (hP : ∀ b, as t = some b → P r.objects b p) : Outcome (as t) P (downcast is p) r := by
  obtain ⟨object, hderef, hobj⟩ := hp
  have hrun : downcast is p r = (if is object then some p else none, r) := by
    rw [downcast, hderef]
    cases hclass : is object <;> simp [Option.filter, hclass]
  refine ⟨_, r, hrun, h, .refl, fun hnone => ?_, fun b hb => ⟨p, ?_, hP b hb⟩⟩
  · rw [if_neg]
    rw [his object hobj, hnone]
    exact Bool.false_ne_true
  · rw [if_pos]
    rw [his object hobj, hb]
    rfl

section

variable (h : RegistryConsistent r.objects)

include h

theorem makeTuple_outcome {ps : List ℕ} (hare : TupleType.Are r.objects ts ps) :
    Outcome (some (DagType.tuple ts)) (fun objects t p => PointsTo objects p t) (makeType alloc (.tuple ps)) r :=
  makeType_outcome h (h.items hare).1 ⟨ps, rfl, hare⟩

theorem makeArray_outcome (hp : PointsTo r.objects p (.tuple ts)) (layout : ArrayLayout) (n : ℕ) :
    Outcome (some (DagType.field (.array layout n ts))) (fun objects t p => PointsTo objects p t)
      (makeType alloc (.array layout n p)) r := by
  obtain ⟨object, hderef, ps, rfl, hare⟩ := hp
  refine makeType_outcome h ?_ ?_
  · rw [DagType.Named, FieldType.Named]
    exact (h.items hare).1
  · rw [DagType.Is, FieldType.Is]
    exact ⟨p, ps, rfl, hderef, hare⟩

theorem makeAtomic_outcome {type : String} (hname : NameValid type) :
    Outcome (some (DagType.field (.atomic type))) (fun objects t p => PointsTo objects p t)
      (makeType alloc (.atomic type)) r := by
  refine makeType_outcome h ?_ ?_
  · rw [DagType.Named, FieldType.Named]
    exact hname
  · rw [DagType.Is, FieldType.Is]

end

/-- The class of an object is that of its type. -/
theorem isFieldType_iff (h : t.Is objects object) : object.isFieldType = true ↔ t.asField.isSome := by
  cases t with
  | field t =>
    cases t with
    | atomic type =>
      rw [h]
      exact ⟨fun _ => rfl, fun _ => rfl⟩
    | array l n ts =>
      obtain ⟨p, ps, rfl, -⟩ := h
      exact ⟨fun _ => rfl, fun _ => rfl⟩
  | tuple ts =>
    obtain ⟨ps, rfl, -⟩ := h
    exact ⟨nofun, nofun⟩

theorem isTuple_iff (h : t.Is objects object) : object.isTuple = true ↔ t.asTuple.isSome := by
  cases t with
  | field t =>
    cases t with
    | atomic type =>
      rw [h]
      exact ⟨nofun, nofun⟩
    | array l n ts =>
      obtain ⟨p, ps, rfl, -⟩ := h
      exact ⟨nofun, nofun⟩
  | tuple ts =>
    obtain ⟨ps, rfl, -⟩ := h
    exact ⟨fun _ => rfl, fun _ => rfl⟩

theorem downcast_field (h : RegistryConsistent r.objects) (hp : PointsTo r.objects p t) :
    Outcome t.asField (fun objects t p => PointsTo objects p (.field t)) (downcast TypeObject.isFieldType p) r := by
  refine downcast_outcome h hp _ DagType.asField _ (fun object his => isFieldType_iff his) fun b hb => ?_
  cases t with
  | field t =>
    cases hb
    exact hp
  | tuple ts => cases hb

theorem downcast_tuple (h : RegistryConsistent r.objects) (hp : PointsTo r.objects p t) :
    Outcome t.asTuple (fun objects ts p => PointsTo objects p (.tuple ts)) (downcast TypeObject.isTuple p) r := by
  refine downcast_outcome h hp _ DagType.asTuple _ (fun object his => isTuple_iff his) fun b hb => ?_
  cases t with
  | field t => cases hb
  | tuple ts =>
    cases hb
    exact hp

mutual

/-- **`from_json` returns a pointer to the type that the JSON value stands for**, and throws if there is none. -/
theorem fromJson_outcome (json : Json) {r : TypeRegistry} (h : RegistryConsistent r.objects) (hnames : json.NamesValid) :
    Outcome (DagType.ofJson json) (fun objects t p => PointsTo objects p t) (fromJson alloc json) r := by
  cases json with
  | array elements =>
    rw [Json.NamesValid] at hnames
    rw [fromJson, DagType.ofJson, Option.map_eq_bind]
    refine (fromElements_outcome elements h hnames).bind fun ts ps r' _ hcons _ hare => ?_
    exact makeTuple_outcome hcons hare
  | object members =>
    rw [Json.NamesValid] at hnames
    have hwant : DagType.ofJson (.object members) =
        ((members.lookup "type").bind Json.asString).bind fun type =>
          if type = "array" then
            (((members.lookup "layout").bind Json.asString).bind ArrayLayout.ofText).bind fun layout =>
            ((members.lookup "num_dimensions").bind Json.asNat).bind fun n =>
            (TupleType.ofMembers members).bind fun ts => some (.field (.array layout n ts))
          else some (.field (.atomic type)) := by
      rw [DagType.ofJson, FieldType.ofJson]
      · cases (members.lookup "type").bind Json.asString with
        | none => rfl
        | some type =>
          by_cases harray : type = "array"
          · simp [harray, Option.map_bind]
          · simp [harray]
      · exact fun _ h => nomatch h
    rw [fromJson, hwant]
    refine .ofOption h fun type htype => ?_
    by_cases harray : type = "array"
    · rw [if_pos harray, if_pos harray]
      refine .ofOption h fun layout _ => .ofOption h fun n _ => ?_
      refine (fromMembers_outcome members h hnames.2).bind fun ts p r' _ hcons _ hp => ?_
      exact makeArray_outcome hcons hp layout n
    · rw [if_neg harray, if_neg harray]
      exact makeAtomic_outcome h (hnames.1 type htype)
  | bool b => exact .throw h
  | number n => exact .throw h
  | string text => exact .throw h

theorem fromElements_outcome (elements : List Json) {r : TypeRegistry} (h : RegistryConsistent r.objects)
    (hnames : Json.ElementsValid elements) :
    Outcome (TupleType.ofElements elements) TupleType.Are (fromElements alloc elements) r := by
  cases elements with
  | nil =>
    rw [fromElements, TupleType.ofElements]
    refine .pure h ?_
    rw [TupleType.Are]
  | cons e es =>
    rw [Json.ElementsValid] at hnames
    have hwant : TupleType.ofElements (e :: es) = (DagType.ofJson e).bind fun t => t.asField.bind fun t =>
        (TupleType.ofElements es).bind fun ts => some (t :: ts) := by
      rw [TupleType.ofElements, ← DagType.ofJson_asField]
      exact Option.bind_assoc _ _ _
    rw [fromElements, hwant]
    refine (fromJson_outcome e h hnames.1).bind fun t p r1 _ hcons1 _ hp => ?_
    refine (downcast_field hcons1 hp).bind fun t p r2 _ hcons2 _ hp => ?_
    refine (fromElements_outcome es hcons2 hnames.2).bind fun ts ps r3 _ hcons3 hext hare => ?_
    refine .pure hcons3 ?_
    obtain ⟨object, hderef, his⟩ := hp.mono hext
    rw [TupleType.Are]
    exact ⟨p, ps, object, rfl, hderef, his, hare⟩

theorem fromMembers_outcome (members : List (String × Json)) {r : TypeRegistry} (h : RegistryConsistent r.objects)
    (hnames : Json.MembersValid members) :
    Outcome (TupleType.ofMembers members) (fun objects ts p => PointsTo objects p (.tuple ts))
      (fromMembers alloc members) r := by
  cases members with
  | nil =>
    rw [fromMembers, TupleType.ofMembers]
    exact .throw h
  | cons m ms =>
    obtain ⟨key, value⟩ := m
    rw [Json.MembersValid] at hnames
    rw [fromMembers, TupleType.ofMembers]
    by_cases hkey : key = "tuple_type"
    · rw [if_pos hkey, if_pos hkey, ← DagType.ofJson_asTuple]
      refine (fromJson_outcome value h hnames.1).bind fun t p r1 _ hcons1 _ hp => ?_
      exact downcast_tuple hcons1 hp
    · rw [if_neg hkey, if_neg hkey]
      exact fromMembers_outcome ms h hnames.2

end

/-! ### Sessions -/

/-- A downcast of a new object to its class. -/
theorem downcast_made {x : Registering ℕ} (hx : Outcome (some t) (fun objects t p => PointsTo objects p t) x r)
    {is : TypeObject → Bool} (his : ∀ objects object, t.Is objects object → is object = true) :
    Outcome (some t) (fun objects t p => PointsTo objects p t) (x >>= downcast is) r := by
  refine hx.bind (k := some) fun t' p r' ht hcons _ hp => ?_
  obtain rfl := Option.some.inj ht
  refine downcast_outcome hcons hp is some _ (fun object hobj => ⟨fun _ => rfl, fun _ => his _ object hobj⟩) ?_
  rintro _ ⟨⟩
  exact hp

end TypeRegistry

open TypeRegistry

/-- A call of a function that returns types; tuples and arrays are made of pointers. -/
inductive TypeCall
  | makeAtomic (type : String)
  | makeTuple (fieldTypes : List ℕ)
  | makeArray (tupleType : ℕ) (layout : ArrayLayout) (numDimensions : ℕ)
  | fromJson (json : Json)

namespace TypeCall

def execute (alloc : Allocator) : TypeCall → Registering ℕ
  | makeAtomic type => TypeRegistry.makeAtomic alloc type
  | makeTuple fieldTypes => TypeRegistry.makeTuple alloc fieldTypes
  | makeArray tupleType layout numDimensions => TypeRegistry.makeArray alloc tupleType layout numDimensions
  | fromJson json => TypeRegistry.fromJson alloc json

/-- What type is asked for by a call with valid names and with pointers to types; a JSON value may stand for
    none. -/
def Wants (objects : List Registered) : TypeCall → Option DagType → Prop
  | makeAtomic type, want => NameValid type ∧ want = some (.field (.atomic type))
  | makeTuple ps, want => ∃ ts, TupleType.Are objects ts ps ∧ want = some (.tuple ts)
  | makeArray p layout n, want => ∃ ts, PointsTo objects p (.tuple ts) ∧ want = some (.field (.array layout n ts))
  | fromJson json, want => json.NamesValid ∧ want = DagType.ofJson json

theorem execute_outcome {alloc : Allocator} {r : TypeRegistry} (h : RegistryConsistent r.objects) {call : TypeCall}
    {want : Option DagType} (hwant : call.Wants r.objects want) :
    Outcome want (fun objects t p => PointsTo objects p t) (call.execute alloc) r := by
  cases call with
  | makeAtomic type =>
    obtain ⟨hname, rfl⟩ := hwant
    refine downcast_made (makeAtomic_outcome h hname) fun objects object his => ?_
    rw [his]
    rfl
  | makeTuple ps =>
    obtain ⟨ts, hare, rfl⟩ := hwant
    refine downcast_made (makeTuple_outcome h hare) fun objects object his => ?_
    obtain ⟨ps, rfl, -⟩ := his
    rfl
  | makeArray p layout n =>
    obtain ⟨ts, hp, rfl⟩ := hwant
    refine downcast_made (makeArray_outcome h hp layout n) fun objects object his => ?_
    obtain ⟨p, ps, rfl, -⟩ := his
    rfl
  | fromJson json =>
    obtain ⟨hnames, rfl⟩ := hwant
    exact fromJson_outcome json h hnames

end TypeCall

/-- A call that was made: the pointer that it returned, the object behind it at that time, and the type that
    was asked for. -/
structure CallRecord where
  result : Option ℕ
  object : Option TypeObject
  type : Option DagType

/-- The calls made so far, and the registry after them. -/
inductive Session (alloc : Allocator) : List CallRecord → TypeRegistry → Prop
  | start : Session alloc [] ⟨[], 0⟩
  | call {log : List CallRecord} {r r' : TypeRegistry} {call : TypeCall} {want : Option DagType}
      {result : Option ℕ} : Session alloc log r → call.Wants r.objects want →
      call.execute alloc r = (result, r') →
      Session alloc (⟨result, result.bind (deref r'.objects), want⟩ :: log) r'

/-- What is known about a call later on. -/
structure CallRecord.Holds (objects : List Registered) (e : CallRecord) : Prop where
  threw : e.type = none → e.result = none
  returned : ∀ t, e.type = some t → ∃ p object, e.result = some p ∧ e.object = some object ∧
    deref objects p = some object ∧ t.Is objects object

theorem CallRecord.Holds.mono {e : CallRecord} (hext : Extends objects objects') (h : e.Holds objects) :
    e.Holds objects' := by
  refine ⟨h.threw, fun t ht => ?_⟩
  obtain ⟨p, object, hres, hobj, hderef, his⟩ := h.returned t ht
  exact ⟨p, object, hres, hobj, hext p object hderef, his.mono hext⟩

/-- The induction over a session: the registry is consistent after every call, and what is known about the
    calls before stays. -/
theorem Session.holds {alloc : Allocator} {log : List CallRecord} {r : TypeRegistry}
    (h : Session alloc log r) : RegistryConsistent r.objects ∧ ∀ e ∈ log, e.Holds r.objects := by
  induction h with
  | start => exact ⟨.nil, fun _ he => nomatch he⟩
  | call _ hwant hrun ih =>
    obtain ⟨hcons, hlog⟩ := ih
    obtain ⟨res, r', hrun', hcons', hext, hnone, hsome⟩ := TypeCall.execute_outcome hcons hwant
    obtain ⟨rfl, rfl⟩ := Prod.mk.inj (hrun.symm.trans hrun')
    refine ⟨hcons', forall_mem_cons.mpr ⟨⟨hnone, fun t ht => ?_⟩, fun e he => (hlog e he).mono hext⟩⟩
    obtain ⟨p, rfl, object, hderef, his⟩ := hsome t ht
    exact ⟨p, object, rfl, hderef, hderef, his⟩

/-- `to_json` of the type behind a pointer. -/
def TypeRegistry.pointerToJson (r : TypeRegistry) (p : ℕ) : Option Json :=
  (deref r.objects p).bind (TypeObject.toJson r.objects (r.objects.length + 1))

/-- Pointers stand for types. -/
structure Interned (alloc : Allocator) (log : List CallRecord) (r : TypeRegistry) : Prop where
  /-- A call returns exactly if it asks for a type. -/
  returns : ∀ e ∈ log, e.result.isSome = e.type.isSome
  /-- Pointer equality is structural equality. -/
  equal_iff : ∀ e ∈ log, ∀ e' ∈ log, ∀ p q t u, e.result = some p → e'.result = some q → e.type = some t →
    e'.type = some u → (p = q ↔ t = u)
  /-- The object behind a pointer is still there and is the same, and it is of the type that was asked for. -/
  unchanged : ∀ e ∈ log, ∀ p t, e.result = some p → e.type = some t →
    ∃ object, e.object = some object ∧ deref r.objects p = some object ∧ t.Is r.objects object
  /-- Writing a type and reading it again returns the same pointer. -/
  roundTrip : ∀ e ∈ log, ∀ p, e.result = some p →
    ∃ json, r.pointerToJson p = some json ∧ (TypeRegistry.fromJson alloc json r).1 = some p

def DagType.plain : DagType → Bool
  | field type => type.plain
  | tuple fieldTypes => TupleType.plain fieldTypes

theorem DagType.ofJson_toJson (t : DagType) : DagType.ofJson t.toJson = if t.plain then some t else none := by
  cases t with
  | field t =>
    have hjson : DagType.ofJson t.toJson = (FieldType.ofJson t.toJson).map .field := by
      cases t with
      | atomic type =>
        rw [FieldType.toJson, DagType.ofJson]
        exact fun _ h => nomatch h
      | array l n ts =>
        rw [FieldType.toJson, DagType.ofJson]
        exact fun _ h => nomatch h
    rw [DagType.toJson, hjson, FieldType.ofJson_toJson, DagType.plain]
    cases t.plain <;> rfl
  | tuple ts =>
    rw [DagType.toJson, TupleType.toJson, DagType.ofJson, TupleType.ofElements_elementsToJson, DagType.plain]
    cases TupleType.plain ts <;> rfl

/-- Writing the type behind a pointer and reading it again: only names of atomic types that stand for arrays
    get lost. -/
theorem roundTrip_iff (alloc : Allocator) {r : TypeRegistry} (h : RegistryConsistent r.objects)
    (hp : PointsTo r.objects p t) :
    (∃ json, r.pointerToJson p = some json ∧ (TypeRegistry.fromJson alloc json r).1 = some p) ↔ t.plain = true := by
  obtain ⟨hnamed, hdepth, -⟩ := h.entry hp
  obtain ⟨object, hderef, his⟩ := id hp
  have hjson : r.pointerToJson p = some t.toJson := by
    rw [pointerToJson, hderef, Option.bind_some, his.toJson (by omega)]
  have hread : Outcome (DagType.ofJson t.toJson) (fun objects t p => PointsTo objects p t)
      (TypeRegistry.fromJson alloc t.toJson) r := fromJson_outcome t.toJson h hnamed.toJson
  obtain ⟨res, r', hrun, hcons, hext, hnone, hsome⟩ := hread
  rw [DagType.ofJson_toJson] at hnone hsome
  have hiff : (∃ json, r.pointerToJson p = some json ∧ (TypeRegistry.fromJson alloc json r).1 = some p) ↔ res = some p := by
    simp [hjson, hrun]
  rw [hiff]
  constructor
  · intro hres
    by_contra hplain
    rw [if_neg hplain] at hnone
    exact nomatch hres.symm.trans (hnone rfl)
  · intro hplain
    rw [if_pos hplain] at hsome
    obtain ⟨q, rfl, hq⟩ := hsome t rfl
    rw [(hcons.pointer_eq_iff hq (hp.mono hext)).mpr rfl]

/-- **Type interning.**  In every session pointers stand for types, and JSON values lead back to them, exactly if
    no type has an atomic type named like the class `Array`. -/
theorem typeRegistry_interns_iff (alloc : Allocator) (log : List CallRecord) (r : TypeRegistry)
    (h : Session alloc log r) :
    Interned alloc log r ↔ ∀ e ∈ log, ∀ t, e.type = some t → t.plain = true := by
  obtain ⟨hcons, hlog⟩ := h.holds
  constructor
  · intro hinterned e he t ht
    obtain ⟨p, object, hres, -, hderef, his⟩ := (hlog e he).returned t ht
    exact (roundTrip_iff alloc hcons ⟨object, hderef, his⟩).mp (hinterned.roundTrip e he p hres)
  · intro hplain
    refine ⟨?_, ?_, ?_, ?_⟩
    · intro e he
      cases htype : e.type with
      | none =>
        rw [(hlog e he).threw htype]
        rfl
      | some t =>
        obtain ⟨p, object, hres, -⟩ := (hlog e he).returned t htype
        rw [hres]
        rfl
    · intro e he e' he' p q t u hp hq ht hu
      obtain ⟨p', object, hres, -, hderef, his⟩ := (hlog e he).returned t ht
      obtain ⟨q', object', hres', -, hderef', his'⟩ := (hlog e' he').returned u hu
      obtain rfl := Option.some.inj (hres.symm.trans hp)
      obtain rfl := Option.some.inj (hres'.symm.trans hq)
      exact hcons.pointer_eq_iff ⟨object, hderef, his⟩ ⟨object', hderef', his'⟩
    · intro e he p t hp ht
      obtain ⟨p', object, hres, hobj, hderef, his⟩ := (hlog e he).returned t ht
      obtain rfl := Option.some.inj (hres.symm.trans hp)
      exact ⟨object, hobj, hderef, his⟩
    · intro e he p hp
      cases htype : e.type with
      | none => exact nomatch hp.symm.trans ((hlog e he).threw htype)
      | some t =>
        obtain ⟨p', object, hres, -, hderef, his⟩ := (hlog e he).returned t htype
        obtain rfl := Option.some.inj (hres.symm.trans hp)
        exact (roundTrip_iff alloc hcons ⟨object, hderef, his⟩).mpr (hplain e he t htype)

/-- Addresses that go up. -/
def bumpAllocator : Allocator where
  choose _ live := live.sum + 1
  fresh _ live h := by
    have hle := single_le_sum (fun _ _ => Nat.zero_le _) _ h
    omega

theorem typeRegistry_interns_int : ∃ log r, log.map CallRecord.result = [some 1, some 2, some 1] ∧
    log.map CallRecord.type = [some (.field (.atomic "int")), some (.tuple [.atomic "int"]),
      some (.field (.atomic "int"))] ∧ Interned bumpAllocator log r := by
  have hname : NameValid "int" := by simp [NameValid, structural]
  have hatomic : ∀ objects, (TypeCall.makeAtomic "int").Wants objects (some (.field (.atomic "int"))) :=
    fun _ => ⟨hname, rfl⟩
  have htuple : (TypeCall.makeTuple [1]).Wants [⟨"int", 1, .atomic "int"⟩] (some (.tuple [.atomic "int"])) :=
    ⟨[.atomic "int"], ⟨1, [], .atomic "int", rfl, rfl, rfl, rfl⟩, rfl⟩
  refine ⟨_, _, ?_, ?_, (typeRegistry_interns_iff bumpAllocator _ _
    (.call (.call (.call .start (hatomic _) rfl) htuple rfl) (hatomic _) rfl)).mpr ?_⟩
  · decide
  · rfl
  intro e he t ht
  simp only [mem_cons, not_mem_nil, or_false] at he
  rcases he with rfl | rfl | rfl <;> cases ht <;> simp [DagType.plain, FieldType.plain, TupleType.plain]

/-- An atomic type named `array` is written as `{"type": "array"}` and then read as an array without a layout. -/
theorem atomic_array_is_lost :
    (TypeRegistry.makeAtomic bumpAllocator "array" ⟨[], 0⟩).1 = some 1 ∧
      ((TypeRegistry.makeAtomic bumpAllocator "array" ⟨[], 0⟩).2.pointerToJson 1).map
        (fun json => (TypeRegistry.fromJson bumpAllocator json
          (TypeRegistry.makeAtomic bumpAllocator "array" ⟨[], 0⟩).2).1) = some none := by
  decide

end Jitq
