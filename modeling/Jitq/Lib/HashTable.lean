import Jitq.Lib.Partial
import Mathlib.Algebra.BigOperators.Group.List.Basic
import Mathlib.Algebra.Group.WithOne.Defs
import Mathlib.Data.List.Perm.Basic
import Mathlib.Data.List.Nodup

namespace HashTable

open List

/-! # Hash tables — aggregates by key, iterated in an order of the library's choice

The tables behind `std::unordered_map` and `std::unordered_set` as the loops of a query engine use
them: rows are folded into one aggregate per key, and the entries are then iterated.

* `emplace`, `reduceTable` — insert or combine, for one row and for a whole input;
* `lookup_reduceTable` — the aggregate of a key is the fold of that key's values, in input order;
* `reduceTable_eq_foldByKey` — the whole table, entry by entry;
* `IterationOrder`, `entries` — the iteration order is any rearrangement of the entries that depends
  on the keys in the order in which they were inserted;
* `Refolds` — folding an input a second time into its own aggregates changes nothing, which is when
  a table survives a second run over the same rows;
* `total` — the aggregates of a commutative and associative function are sums in `WithZero V`, which do
  not depend on the order of the rows and split along any partition of them.

Keys are compared by `==`, as the tables' `KeyEqual` does.  `==` is symmetric and transitive, but it
need not be reflexive (no key finds the entry of a NaN), and equal keys need not be the same (the two
zeros). -/

variable {K V : Type} (func : V → V → V)

/-- Keys of several fields are compared field by field. -/
theorem beq_iff_forall₂ [BEq K] {as bs : List K} :
    as == bs ↔ Forall₂ (fun a b => a == b) as bs := by
  induction as generalizing bs with
  | nil => cases bs <;> simp
  | cons a as ih => cases bs <;> simp [ih]

instance partialEquivBEqList [BEq K] [PartialEquivBEq K] : PartialEquivBEq (List K) where
  symm h := beq_iff_forall₂.mpr ((beq_iff_forall₂.mp h).imp fun _ _ hab => BEq.symm hab).flip
  trans {as bs cs} hab hbc := by
    rw [beq_iff_forall₂] at hab hbc ⊢
    induction hab generalizing cs with
    | nil => exact hbc
    | cons hhead _ ih =>
      obtain ⟨c, cs, hhead', htail, rfl⟩ := forall₂_cons_left_iff.mp hbc
      exact .cons (BEq.trans hhead hhead') (ih htail)

section KeyEqual

variable [BEq K]

/-- A hash table's emplace and update: a new key gets the value as its aggregate, a known key's
    aggregate is combined with the value.  Entries are listed in the order of their insertion. -/
def emplace : List (K × V) → K × V → List (K × V)
  | [], kv => [kv]
  | e :: es, kv => if e.1 == kv.1 then (e.1, func e.2 kv.2) :: es else e :: emplace es kv

/-- The table after the inputs `kvs`. -/
def reduceTable (table kvs : List (K × V)) : List (K × V) := kvs.foldl (emplace func) table

/-- The values that the inputs carry for one key, in their order. -/
def valuesOf (k : K) (kvs : List (K × V)) : List V := (kvs.filter fun kv => kv.1 == k).map Prod.snd

/-- Folding values into an aggregate that may not exist yet. -/
def aggregate (acc : Option V) (vs : List V) : Option V :=
  vs.foldl (fun acc v => some (match acc with | none => v | some a => func a v)) acc

/-- Folding the same values a second time into their aggregate changes nothing. -/
def Refolds (vs : List V) : Prop := aggregate func (aggregate func none vs) vs = aggregate func none vs

instance [DecidableEq V] (vs : List V) : Decidable (Refolds func vs) := by
  unfold Refolds; infer_instance

theorem aggregate_append (acc : Option V) (vs ws : List V) :
    aggregate func acc (vs ++ ws) = aggregate func (aggregate func acc vs) ws :=
  foldl_append

theorem aggregate_some (a : V) (vs : List V) :
    aggregate func (some a) vs = some (vs.foldl func a) := by
  induction vs generalizing a with
  | nil => rfl
  | cons v vs ih => exact ih (func a v)

/-- One entry per key: the first value of the key, combined with its later ones in their order.  The keys in
    `seen` have their entry already. -/
def foldByKey (seen : List K) : List (K × V) → List (K × V)
  | [] => []
  | kv :: kvs =>
    if seen.any (· == kv.1) then foldByKey seen kvs
    else (kv.1, (valuesOf kv.1 kvs).foldl func kv.2) :: foldByKey (seen ++ [kv.1]) kvs

/-- A key that the first entries do not have is looked for behind them. -/
theorem emplace_append {front : List (K × V)} {kv : K × V} (h : ∀ e ∈ front, (e.1 == kv.1) = false)
    (es : List (K × V)) : emplace func (front ++ es) kv = front ++ emplace func es kv := by
  induction front with
  | nil => rfl
  | cons e front ih =>
    have hne : ¬ (e.1 == kv.1) = true := by
      rw [h e mem_cons_self]
      exact Bool.false_ne_true
    rw [cons_append, emplace, if_neg hne, ih fun e' he' => h e' (mem_cons_of_mem _ he')]
    rfl

/-! ### Tables of lists -/

/-- A table that collects the values of each key in a list. -/
def groupTable (kvs : List (K × V)) : List (K × List V) := reduceTable (· ++ ·) [] (kvs.map fun kv => (kv.1, [kv.2]))

theorem foldl_emplace_eq_groupTable {τ : Type} (f : τ → K × V) (xs : List τ) :
    xs.foldl (fun t x => emplace (· ++ ·) t ((f x).1, [(f x).2])) [] = groupTable (xs.map f) := by
  rw [groupTable, reduceTable, map_map, foldl_map]
  rfl

theorem emplace_ne_nil (table : List (K × V)) (kv : K × V) : emplace func table kv ≠ [] := by
  cases table with
  | nil => exact cons_ne_nil _ _
  | cons e es =>
    rw [emplace]
    split <;> exact cons_ne_nil _ _

theorem reduceTable_ne_nil {table : List (K × V)} (h : table ≠ []) (kvs : List (K × V)) :
    reduceTable func table kvs ≠ [] := by
  induction kvs generalizing table with
  | nil => exact h
  | cons kv kvs ih => exact ih (emplace_ne_nil func table kv)

theorem groupTable_eq_nil {kvs : List (K × V)} (h : groupTable kvs = []) : kvs = [] := by
  cases kvs with
  | nil => rfl
  | cons kv kvs => exact absurd h (reduceTable_ne_nil _ (emplace_ne_nil _ [] _) _)

theorem aggregate_singletons (acc vs : List V) :
    aggregate (· ++ ·) (some acc) (vs.map fun v => [v]) = some (acc ++ vs) := by
  induction vs generalizing acc with
  | nil => simp [aggregate]
  | cons v vs ih =>
    have hstep : aggregate (· ++ ·) (some acc) ((v :: vs).map fun v => [v]) =
        aggregate (· ++ ·) (some (acc ++ [v])) (vs.map fun v => [v]) := rfl
    rw [hstep, ih, append_assoc, singleton_append]

section

variable [PartialEquivBEq K]

theorem lookup_emplace (table : List (K × V)) (kv : K × V) (k : K) : (emplace func table kv).lookup k =
      if k == kv.1 then aggregate func (table.lookup k) [kv.2] else table.lookup k := by
  induction table with
  | nil =>
    rw [emplace, lookup_cons, lookup_nil]
    cases k == kv.1 <;> rfl
  | cons e es ih =>
    rw [emplace, lookup_cons]
    by_cases he : e.1 == kv.1
    · -- the entry of the key itself: `k` is equal to the one exactly if it is equal to the other
      have hiff : (k == kv.1) = (k == e.1) := by
        rw [Bool.eq_iff_iff]
        exact ⟨fun h => BEq.trans h (BEq.symm he), fun h => BEq.trans h he⟩
      rw [if_pos he, lookup_cons, hiff]
      cases k == e.1 <;> rfl
    · rw [if_neg he, lookup_cons, ih]
      by_cases hk : k == e.1
      · have hne : ¬ (k == kv.1) := fun h => he (BEq.trans (BEq.symm hk) h)
        simp only [hk, if_neg hne]
      · rw [Bool.not_eq_true] at hk
        rw [hk]

/-- **A reduce table holds, for each key, the fold of the key's values.** -/
theorem lookup_reduceTable (table kvs : List (K × V)) (k : K) :
    (reduceTable func table kvs).lookup k = aggregate func (table.lookup k) (valuesOf k kvs) := by
  induction kvs generalizing table with
  | nil => rfl
  | cons kv kvs ih =>
    have hstep := ih (emplace func table kv)
    refine hstep.trans ?_
    rw [lookup_emplace]
    rw [valuesOf, valuesOf, filter_cons, BEq.comm (a := kv.1)]
    cases k == kv.1 <;> rfl

/-- The keys of a table are told apart. -/
def KeysDiffer (table : List (K × V)) : Prop := table.Pairwise fun e e' => (e.1 == e'.1) = false

/-- A known key is found in one entry. -/
theorem emplace_of_any {table : List (K × V)} {kv : K × V} (hdiffer : KeysDiffer table)
    (hany : table.any (·.1 == kv.1)) :
    emplace func table kv = table.map fun e => if e.1 == kv.1 then (e.1, func e.2 kv.2) else e := by
  induction table with
  | nil => cases hany
  | cons e es ih =>
    rw [emplace, map_cons]
    have hes := pairwise_cons.mp hdiffer
    by_cases he : e.1 == kv.1
    · rw [if_pos he, if_pos he]
      -- the entries behind it have other keys
      refine congrArg _ ?_
      symm
      refine (map_congr_left fun e' he' => if_neg fun h' => ?_).trans (map_id es)
      have := hes.1 e' he'
      rw [BEq.trans he (BEq.symm h')] at this
      cases this
    · rw [if_neg he, if_neg he]
      refine congrArg _ (ih hes.2 ?_)
      rw [any_cons, Bool.or_eq_true] at hany
      exact hany.resolve_left he

omit [PartialEquivBEq K] in
/-- A new key gets an entry behind the others. -/
theorem emplace_of_not_any {table : List (K × V)} {kv : K × V}
    (hnew : ¬ table.any (·.1 == kv.1)) : emplace func table kv = table ++ [kv] := by
  have hne : ∀ e ∈ table, (e.1 == kv.1) = false := by simpa using hnew
  have hemplace := emplace_append func hne []
  rwa [append_nil] at hemplace

/-- Inserting keeps the keys apart. -/
theorem KeysDiffer.emplace {table : List (K × V)} (h : KeysDiffer table) (kv : K × V) :
    KeysDiffer (emplace func table kv) := by
  by_cases hany : table.any (·.1 == kv.1)
  · rw [emplace_of_any func h hany]
    refine pairwise_map.mpr (h.imp fun {e e'} hne => ?_)
    split <;> split <;> exact hne
  · rw [emplace_of_not_any func hany]
    refine pairwise_append.mpr ⟨h, pairwise_singleton _ _, fun e he e' he' => ?_⟩
    rw [mem_singleton.mp he']
    exact (by simpa using hany : ∀ e ∈ table, (e.1 == kv.1) = false) e he

/-- The keys of a reduce table are told apart. -/
theorem KeysDiffer.reduceTable {table : List (K × V)} (h : KeysDiffer table) (kvs : List (K × V)) :
    KeysDiffer (reduceTable func table kvs) := by
  induction kvs generalizing table with
  | nil => exact h
  | cons kv kvs ih => exact ih (h.emplace func kv)

/-- **A reduce table has one entry per key, with the left fold of its values.** -/
theorem reduceTable_eq_foldByKey {table kvs : List (K × V)} (hdiffer : KeysDiffer table) :
    reduceTable func table kvs =
      table.map (fun e => (e.1, (valuesOf e.1 kvs).foldl func e.2)) ++ foldByKey func (table.map Prod.fst) kvs := by
  induction kvs generalizing table with
  | nil =>
    show table = table.map (fun e => (e.1, e.2)) ++ []
    rw [append_nil, map_id']
  | cons kv kvs ih =>
    rw [reduceTable, foldl_cons, ← reduceTable, foldByKey, any_map, Function.comp_def]
    have hdiffer' := hdiffer.emplace func kv
    by_cases hany : table.any (·.1 == kv.1)
    · rw [ih hdiffer', if_pos hany, emplace_of_any func hdiffer hany, map_map, map_map]
      refine congr (congrArg HAppend.hAppend (map_congr_left fun e _ => ?_)) ?_
      · rw [Function.comp_apply, valuesOf, valuesOf, filter_cons, BEq.comm (a := kv.1)]
        by_cases he : e.1 == kv.1
        · rw [if_pos he, if_pos he]
          rfl
        · rw [if_neg he, if_neg he]
      · refine congrArg (foldByKey func · kvs) (map_congr_left fun e _ => ?_)
        rw [Function.comp_apply]
        split <;> rfl
    · have hnew : ∀ e ∈ table, (e.1 == kv.1) = false := by
        simpa using hany
      have hemplace := emplace_of_not_any func hany
      rw [hemplace] at hdiffer'
      rw [hemplace, ih hdiffer', if_neg hany, map_append, map_append, append_assoc]
      refine congr (congrArg HAppend.hAppend (map_congr_left fun e he => ?_)) rfl
      rw [valuesOf, valuesOf, filter_cons, BEq.comm (a := kv.1), hnew e he]
      rfl

/-- A group table holds, for each key that occurs, the list of the key's values. -/
theorem lookup_groupTable (kvs : List (K × V)) (k : K) :
    (groupTable kvs).lookup k = if valuesOf k kvs = [] then none else some (valuesOf k kvs) := by
  have hvals : valuesOf k (kvs.map fun kv => (kv.1, [kv.2])) =
      (valuesOf k kvs).map fun v => [v] := by
    simp only [valuesOf, filter_map, map_map, Function.comp_def]
  rw [groupTable, lookup_reduceTable, hvals]
  cases valuesOf k kvs with
  | nil => rfl
  | cons v vs =>
    exact aggregate_singletons [v] vs

/-! ### Iteration -/

/-- The order in which a table is iterated: some rearrangement of the positions of its entries,
    determined by the keys in the order in which they were inserted. -/
structure IterationOrder (K : Type) where
  order : List K → List ℕ
  perm : ∀ ks, (order ks).Perm (range ks.length)

/-- The entries of a table in iteration order. -/
def entries (o : IterationOrder K) (table : List (K × V)) : List (K × V) :=
  (o.order (table.map Prod.fst)).filterMap (table[·]?)

omit [BEq K] [PartialEquivBEq K] in
theorem entries_perm (o : IterationOrder K) (table : List (K × V)) : (entries o table).Perm table := by
  have hperm := (o.perm (table.map Prod.fst)).filterMap (table[·]?)
  rwa [length_map, Partial.filterMap_getElem?_range] at hperm

omit [PartialEquivBEq K] in
/-- The keys of a reduce table come from the table before and from the inputs. -/
theorem key_mem_of_mem_reduceTable {table kvs : List (K × V)} {e : K × V}
    (h : e ∈ reduceTable func table kvs) : e.1 ∈ table.map Prod.fst ∨ e.1 ∈ kvs.map Prod.fst := by
  induction kvs generalizing table with
  | nil => exact .inl (mem_map_of_mem h)
  | cons kv kvs ih =>
    rcases ih h with htable | hkvs
    · have hemplace : ∀ t : List (K × V), e.1 ∈ (emplace func t kv).map Prod.fst →
          e.1 ∈ t.map Prod.fst ∨ e.1 = kv.1 := by
        intro t ht
        induction t with
        | nil => exact .inr (mem_singleton.mp ht)
        | cons e' es ihes =>
          rw [emplace] at ht
          split at ht
          · exact .inl ht
          · rcases mem_cons.mp ht with heq | hmem
            · exact .inl (heq ▸ mem_cons_self)
            · exact (ihes hmem).imp_left (mem_cons_of_mem _)
      rcases hemplace table htable with hold | hnew
      · exact .inl hold
      · exact .inr (hnew ▸ mem_cons_self)
    · exact .inr (mem_cons_of_mem _ hkvs)

/-- A key has at most one value in a table. -/
theorem KeysDiffer.valuesOf_eq {table : List (K × V)} (h : KeysDiffer table) (k : K) :
    valuesOf k table = (table.lookup k).toList := by
  induction table with
  | nil => rfl
  | cons e es ih =>
    obtain ⟨hnew, hes⟩ := pairwise_cons.mp h
    rw [valuesOf, filter_cons, lookup_cons, BEq.comm (a := e.1)]
    by_cases hk : k == e.1
    · have hnone : es.filter (fun kv => kv.1 == k) = [] := by
        refine filter_eq_nil_iff.mpr fun kv hkv heq => ?_
        have hne := hnew kv hkv
        rw [BEq.symm (BEq.trans heq hk)] at hne
        cases hne
      rw [if_pos hk, hnone, hk]
      rfl
    · rw [if_neg hk, Bool.eq_false_iff.mpr hk]
      exact ih hes

/-- An entry is found under its key, unless this is not equal to itself. -/
theorem KeysDiffer.lookup_of_mem {table : List (K × V)} (h : KeysDiffer table) {e : K × V}
    (he : e ∈ table) (hself : e.1 == e.1) : table.lookup e.1 = some e.2 := by
  have hmem : e.2 ∈ valuesOf e.1 table := mem_map_of_mem (mem_filter.mpr ⟨he, hself⟩)
  rw [h.valuesOf_eq, Option.mem_toList] at hmem
  exact hmem

omit [PartialEquivBEq K] in
/-- The entry that a lookup finds. -/
theorem exists_of_lookup {table : List (K × V)} {k : K} {v : V} (h : table.lookup k = some v) :
    ∃ e ∈ table, k == e.1 ∧ e.2 = v := by
  induction table with
  | nil => cases h
  | cons e es ih =>
    rw [lookup_cons] at h
    cases hk : k == e.1 with
    | true =>
      rw [hk] at h
      exact ⟨e, mem_cons_self, hk, Option.some.inj h⟩
    | false =>
      rw [hk] at h
      obtain ⟨e', he', hkey, hv⟩ := ih h
      exact ⟨e', mem_cons_of_mem e he', hkey, hv⟩

/-- Equal keys have the same values. -/
theorem valuesOf_congr {k k' : K} (h : k == k') (kvs : List (K × V)) :
    valuesOf k kvs = valuesOf k' kvs := by
  refine congrArg _ (filter_congr fun kv _ => ?_)
  rw [Bool.eq_iff_iff]
  exact ⟨fun hk => BEq.trans hk h, fun hk => BEq.trans hk (BEq.symm h)⟩

/-! ### Filling a table twice -/

section Twice

variable {kvs : List (K × V)}

omit [PartialEquivBEq K] in
theorem foldByKey_eq_nil_iff {seen : List K} :
    foldByKey func seen kvs = [] ↔ ∀ kv ∈ kvs, seen.any (· == kv.1) := by
  induction kvs with
  | nil => simp [foldByKey]
  | cons kv kvs ih =>
    rw [foldByKey, forall_mem_cons]
    by_cases hany : seen.any (· == kv.1)
    · rw [if_pos hany, ih, and_iff_right hany]
    · rw [if_neg hany]
      exact ⟨fun h => absurd h (cons_ne_nil _ _), fun h => absurd h.1 hany⟩

/-- The table has an entry for a key exactly if the key is equal to itself. -/
theorem any_keys_reduceTable {kv : K × V} (hkv : kv ∈ kvs) :
    ((reduceTable func [] kvs).map Prod.fst).any (· == kv.1) ↔ kv.1 == kv.1 := by
  rw [any_eq_true]
  constructor
  · rintro ⟨k, -, hk⟩
    exact BEq.trans (BEq.symm hk) hk
  · intro hself
    have hmem : kv.2 ∈ valuesOf kv.1 kvs := mem_map_of_mem (mem_filter.mpr ⟨hkv, hself⟩)
    obtain ⟨v, hv⟩ : ∃ v, aggregate func none (valuesOf kv.1 kvs) = some v := by
      obtain ⟨v, vs, hvs⟩ := exists_cons_of_ne_nil (ne_nil_of_mem hmem)
      rw [hvs]
      exact ⟨_, aggregate_some func v vs⟩
    rw [← lookup_nil (a := kv.1), ← lookup_reduceTable] at hv
    obtain ⟨e, he, hkey, -⟩ := exists_of_lookup hv
    exact ⟨e.1, mem_map_of_mem he, BEq.symm hkey⟩

/-- The second filling combines each aggregate with all values of its key, and makes new entries for
    the keys that are not equal to themselves. -/
theorem reduceTable_twice : reduceTable func (reduceTable func [] kvs) kvs =
    (reduceTable func [] kvs).map (fun e => (e.1, (valuesOf e.1 kvs).foldl func e.2)) ++
      foldByKey func ((reduceTable func [] kvs).map Prod.fst) kvs :=
  reduceTable_eq_foldByKey func (KeysDiffer.reduceTable func .nil kvs)

/-- An aggregate survives the second filling exactly if its values refold. -/
theorem refolds_iff_of_mem {e : K × V} (he : e ∈ reduceTable func [] kvs) (hself : e.1 == e.1) :
    Refolds func (valuesOf e.1 kvs) ↔ (valuesOf e.1 kvs).foldl func e.2 = e.2 := by
  have hlook := (KeysDiffer.reduceTable func .nil kvs).lookup_of_mem he hself
  rw [lookup_reduceTable, lookup_nil] at hlook
  rw [Refolds, hlook, aggregate_some, Option.some.injEq]

theorem foldByKey_keys_eq_nil_iff :
    foldByKey func ((reduceTable func [] kvs).map Prod.fst) kvs = [] ↔ ∀ kv ∈ kvs, kv.1 == kv.1 := by
  rw [foldByKey_eq_nil_iff]
  exact forall₂_congr fun kv hkv => any_keys_reduceTable func hkv

omit [PartialEquivBEq K] in
theorem key_self_of_mem (hkeys : ∀ kv ∈ kvs, kv.1 == kv.1) {e : K × V}
    (he : e ∈ reduceTable func [] kvs) : e.1 == e.1 := by
  have hkey := (key_mem_of_mem_reduceTable func he).resolve_left not_mem_nil
  obtain ⟨kv, hkv, heq⟩ := mem_map.mp hkey
  exact heq ▸ hkeys kv hkv

/-- If all keys are equal to themselves and no aggregate changes, the second filling of a table
    leaves it as it is. -/
theorem reduceTable_eq_self (hkeys : ∀ kv ∈ kvs, kv.1 == kv.1)
    (h : ∀ k, Refolds func (valuesOf k kvs)) :
    reduceTable func (reduceTable func [] kvs) kvs = reduceTable func [] kvs := by
  rw [reduceTable_twice, (foldByKey_keys_eq_nil_iff func).mpr hkeys, append_nil]
  refine (map_congr_left fun e he => ?_).trans (map_id _)
  rw [(refolds_iff_of_mem func he (key_self_of_mem func hkeys he)).mp (h e.1)]
  rfl

/-- If the second filling of a table leaves its entries as they are, all keys are equal to themselves
    and no aggregate changes. -/
theorem refolds_of_entries_eq (o : IterationOrder K)
    (h : entries o (reduceTable func (reduceTable func [] kvs) kvs) =
      entries o (reduceTable func [] kvs)) :
    (∀ kv ∈ kvs, kv.1 == kv.1) ∧ ∀ k, Refolds func (valuesOf k kvs) := by
  rw [reduceTable_twice] at h
  have hperm := (entries_perm o _).symm.trans (h ▸ entries_perm o (reduceTable func [] kvs))
  have hlen := hperm.length_eq
  rw [length_append, length_map] at hlen
  have hnil : foldByKey func ((reduceTable func [] kvs).map Prod.fst) kvs = [] :=
    length_eq_zero_iff.mp (by omega)
  have hkeys := (foldByKey_keys_eq_nil_iff func).mp hnil
  refine ⟨hkeys, fun k => ?_⟩
  rw [hnil, append_nil] at hperm
  cases hk : (reduceTable func [] kvs).lookup k with
  | none =>
    rw [lookup_reduceTable, lookup_nil] at hk
    rw [Refolds, hk, hk]
  | some v =>
    obtain ⟨e, he, hkey, -⟩ := exists_of_lookup hk
    have hself := key_self_of_mem func hkeys he
    rw [valuesOf_congr hkey, refolds_iff_of_mem func he hself]
    -- the entry with the new aggregate is an entry of the first filling, under the same key
    have hnew := hperm.mem_iff.mp (mem_map_of_mem he)
    have hdiffer := KeysDiffer.reduceTable func .nil kvs
    exact Option.some.inj ((hdiffer.lookup_of_mem hnew hself).symm.trans
      (hdiffer.lookup_of_mem he hself))

end Twice

end

end KeyEqual

/-! ### Sums -/

section Sums

variable {K V : Type} [BEq K]

/-- Rows with the same values for each key are the same rows in some order, if equal keys are the
    same. -/
theorem perm_of_valuesOf [LawfulBEq K] {s t : List (K × V)} (h : ∀ k, valuesOf k s = valuesOf k t) : s.Perm t := by
  classical
  have hcount : ∀ (l : List (K × V)) kv, l.count kv = (valuesOf kv.1 l).count kv.2 := by
    intro l kv
    rw [valuesOf, count, count, countP_map, countP_filter]
    exact countP_congr fun e _ => by simp [Prod.ext_iff, and_comm]
  exact perm_iff_count.mpr fun kv => by rw [hcount, hcount, h]

variable [AddCommSemigroup V]

theorem aggregate_add (acc : WithZero V) (vs : List V) :
    aggregate (· + ·) acc vs = acc + (vs.map WithZero.coe).sum := by
  induction vs generalizing acc with
  | nil => exact (add_zero acc).symm
  | cons v vs ih =>
    refine (ih _).trans ?_
    rw [map_cons, sum_cons, ← add_assoc]
    cases acc <;> rfl

theorem aggregate_none_add (vs : List V) : aggregate (· + ·) none vs = (vs.map WithZero.coe).sum := by
  rw [← zero_add (sum _)]
  exact aggregate_add 0 vs

theorem toList_add {a b : WithZero V} (h : a = 0 ∨ b = 0) : Option.toList (a + b) = Option.toList a ++ Option.toList b := by
  rcases h with rfl | rfl
  · rw [zero_add]
    rfl
  · rw [add_zero]
    exact (append_nil _).symm

theorem sum_toList (x : WithZero V) : ((Option.toList x).map WithZero.coe).sum = x := by
  cases x <;> simp [Option.toList]

/-- The sum of the values of a key, if there are any. -/
def total (k : K) (kvs : List (K × V)) : WithZero V := ((valuesOf k kvs).map WithZero.coe).sum

theorem total_eq_zero {k : K} {kvs : List (K × V)} (h : ∀ kv ∈ kvs, ¬ kv.1 == k) :
    total k kvs = 0 := by
  rw [total, valuesOf, filter_eq_nil_iff.mpr h]
  rfl

theorem total_append (k : K) (s t : List (K × V)) : total k (s ++ t) = total k s + total k t := by
  simp [total, valuesOf]

theorem total_perm {s t : List (K × V)} (h : s.Perm t) (k : K) : total k s = total k t :=
  (((h.filter _).map _).map _).sum_eq

/-- The entries of a table whose values are added up. -/
theorem valuesOf_entries [PartialEquivBEq K] (o : IterationOrder K) (kvs : List (K × V)) (k : K) :
    valuesOf k (entries o (reduceTable (· + ·) [] kvs)) = Option.toList (total k kvs) := by
  have hdiffer := KeysDiffer.reduceTable (· + ·) .nil kvs
  have hperm := ((entries_perm o (reduceTable (· + ·) [] kvs)).filter fun kv => kv.1 == k).map Prod.snd
  rw [← valuesOf, ← valuesOf, hdiffer.valuesOf_eq, lookup_reduceTable, lookup_nil,
    aggregate_none_add, ← total] at hperm
  cases h : total k kvs <;> rw [h] at hperm
  · exact perm_nil.mp hperm
  · exact perm_singleton.mp hperm

end Sums

end HashTable
