import Jitq.Dag.Json
import Jitq.Lib.Text

namespace Jitq

open Text List

/-! # The texts of types

`to_string` prints a type; the text is the key of the type in the registry.  The texts of two types are
the same only if the types are (`DagType.text_inj`): a text and what stands behind it can be told apart,
as long as the names of atomic types are not empty and contain no bracket and no comma.

The induction is on the type, with the rest of the text generalized.  Behind a field comes a comma, a
closing bracket or the end of the text (`Closes`), which neither a name nor a number contains. -/

/-! ### Printing -/

mutual

/-- `Atomic::to_string` and `Array::to_string`. -/
def FieldType.text : FieldType → String
  | .atomic type => type
  | .array layout numDimensions tupleType =>
    "\x7b" ++ ("[" ++ join "," (TupleType.itemTexts tupleType) ++ "]") ++ "\x7d" ++ layout.toText ++
      numDimensions.repr

def TupleType.itemTexts : List FieldType → List String
  | [] => []
  | t :: ts => FieldType.text t :: TupleType.itemTexts ts

end

/-- `Tuple::to_string`. -/
def TupleType.text (tuple : TupleType) : String := "[" ++ join "," (TupleType.itemTexts tuple) ++ "]"

/-- A type: that of a field, or a tuple. -/
inductive DagType
  | field (type : FieldType)
  | tuple (fieldTypes : TupleType)
  deriving DecidableEq

def DagType.text : DagType → String
  | field type => type.text
  | tuple fieldTypes => TupleType.text fieldTypes

/-! ### Names -/

/-- The characters that structure the text of a type. -/
def structural : List Char := ['[', ']', '{', '}', ',']

/-- A name is not empty and has no structural character. -/
def NameValid (name : String) : Prop := name.toList ≠ [] ∧ ∀ c ∈ name.toList, c ∉ structural

instance (name : String) : Decidable (NameValid name) := by
  unfold NameValid
  infer_instance

mutual

/-- All atomic types in a type have valid names. -/
def FieldType.Named : FieldType → Prop
  | .atomic type => NameValid type
  | .array _ _ tupleType => TupleType.Named tupleType

def TupleType.Named : List FieldType → Prop
  | [] => True
  | t :: ts => FieldType.Named t ∧ TupleType.Named ts

end

def DagType.Named : DagType → Prop
  | field type => type.Named
  | tuple fieldTypes => TupleType.Named fieldTypes

/-! ### The texts as characters -/

/-- What stands behind a field. -/
def Closes (rest : List Char) : Prop := ∀ c ∈ rest.head?, c ∈ structural

/-- The fields behind the first one, each with its comma. -/
def itemsRest (ts : List FieldType) : List Char := ts.flatMap fun t => ',' :: t.text.toList

theorem toList_join_cons (t : FieldType) (ts : List FieldType) :
    (join "," (TupleType.itemTexts (t :: ts))).toList = t.text.toList ++ itemsRest ts := by
  induction ts generalizing t with
  | nil =>
    exact (append_nil _).symm
  | cons u us ih =>
    have hjoin : join "," (TupleType.itemTexts (t :: u :: us)) =
        t.text ++ "," ++ join "," (TupleType.itemTexts (u :: us)) := by
      simp only [TupleType.itemTexts, join]
    rw [hjoin, String.toList_append, String.toList_append, ih u, append_assoc]
    rfl

theorem toList_text_tuple (ts : TupleType) : (TupleType.text ts).toList =
    '[' :: (join "," (TupleType.itemTexts ts)).toList ++ [']'] := by
  rw [TupleType.text, String.toList_append, String.toList_append]
  rfl

theorem toList_text_array (layout : ArrayLayout) (n : ℕ) (ts : TupleType) :
    (FieldType.array layout n ts).text.toList =
      '{' :: (TupleType.text ts).toList ++ '}' :: (layout.toText.toList ++ n.repr.toList) := by
  rw [FieldType.text, ← TupleType.text]
  simp only [String.toList_append, append_assoc]
  rfl

/-- The text of a field starts with a character that neither closes nor separates. -/
theorem head_text {t : FieldType} (ht : t.Named) : ∃ c rest, t.text.toList = c :: rest ∧ c ≠ ']' ∧ c ≠ ',' ∧ c ≠ '[' ∧
      (c = '{' ↔ t.isAtomic = false) := by
  cases t with
  | atomic type =>
    obtain ⟨hne, hchars⟩ : NameValid type := by rwa [FieldType.Named] at ht
    obtain ⟨c, rest, hlist⟩ := exists_cons_of_ne_nil hne
    have hc : c ∉ structural := hchars c (by rw [hlist]; exact mem_cons_self)
    refine ⟨c, rest, ?_, ?_⟩
    · rw [FieldType.text]
      exact hlist
    · simp only [structural, mem_cons, not_mem_nil, or_false, not_or] at hc
      exact ⟨hc.2.1, hc.2.2.2.2, hc.1, fun h => absurd h hc.2.2.1, fun h => nomatch h⟩
  | array layout n ts =>
    exact ⟨'{', _, toList_text_array layout n ts, by decide, by decide, by decide, fun _ => rfl, fun _ => rfl⟩

theorem closes_itemsRest (ts : List FieldType) (rest : List Char) : Closes (itemsRest ts ++ ']' :: rest) := by
  cases ts with
  | nil => exact fun c hc => (Option.some.inj hc) ▸ by decide
  | cons t ts => exact fun c hc => (Option.some.inj hc) ▸ by decide

/-- A name ends where a structural character comes. -/
theorem name_inj {name name' : String} (h : NameValid name) (h' : NameValid name')
    {rest rest' : List Char} (hrest : Closes rest) (hrest' : Closes rest')
    (heq : name.toList ++ rest = name'.toList ++ rest') : name = name' ∧ rest = rest' := by
  obtain ⟨hname, htail⟩ := append_cut_inj (p := (· ∉ structural)) h.2 h'.2
    (fun c hc => not_not.mpr (hrest c hc)) (fun c hc => not_not.mpr (hrest' c hc)) heq
  exact ⟨String.toList_inj.mp hname, htail⟩

/-- A layout is one letter, and the number behind it ends where a structural character comes. -/
theorem layout_inj {layout layout' : ArrayLayout} {n n' : ℕ} {rest rest' : List Char}
    (hrest : Closes rest) (hrest' : Closes rest') (heq : layout.toText.toList ++ n.repr.toList ++ rest =
      layout'.toText.toList ++ n'.repr.toList ++ rest') :
    layout = layout' ∧ n = n' ∧ rest = rest' := by
  have hlayout : layout = layout' ∧ n.repr.toList ++ rest = n'.repr.toList ++ rest' := by
    cases layout <;> cases layout'
    · exact ⟨rfl, (List.cons.inj heq).2⟩
    · exact absurd (List.cons.inj heq).1 (by decide)
    · exact absurd (List.cons.inj heq).1 (by decide)
    · exact ⟨rfl, (List.cons.inj heq).2⟩
  have hclosed : ∀ {rest : List Char}, Closes rest → ∀ c ∈ rest.head?, ¬ c.isDigit = true := by
    intro rest hclose c hc hdigit
    have hmem := hclose c hc
    simp only [structural, mem_cons, not_mem_nil, or_false] at hmem
    rcases hmem with rfl | rfl | rfl | rfl | rfl <;> exact absurd hdigit (by decide)
  obtain ⟨hnum, htail⟩ := append_cut_inj (p := (Char.isDigit · = true))
    (fun _ => isDigit_of_mem_repr) (fun _ => isDigit_of_mem_repr) (hclosed hrest) (hclosed hrest')
    hlayout.2
  exact ⟨hlayout.1, Nat.repr_injective (String.toList_inj.mp hnum), htail⟩

/-! ### Texts determine types -/

mutual

theorem FieldType.text_append_inj {t u : FieldType} (ht : t.Named) (hu : u.Named)
    {rest rest' : List Char} (hrest : Closes rest) (hrest' : Closes rest')
    (heq : t.text.toList ++ rest = u.text.toList ++ rest') : t = u ∧ rest = rest' := by
  cases t with
  | atomic type =>
    cases u with
    | atomic type' =>
      have hname : type.toList ++ rest = type'.toList ++ rest' := by
        rwa [FieldType.text, FieldType.text] at heq
      rw [FieldType.Named] at ht hu
      obtain ⟨rfl, htail⟩ := name_inj ht hu hrest hrest' hname
      exact ⟨rfl, htail⟩
    | array layout' n' us =>
      obtain ⟨c, tail, htext, -, -, -, hbrace⟩ := head_text ht
      rw [htext, toList_text_array] at heq
      exact nomatch hbrace.mp (List.cons.inj heq).1
  | array layout n ts =>
    cases u with
    | atomic type' =>
      obtain ⟨c, tail, htext, -, -, -, hbrace⟩ := head_text hu
      rw [htext, toList_text_array] at heq
      exact nomatch hbrace.mp (List.cons.inj heq).1.symm
    | array layout' n' us =>
      rw [FieldType.Named] at ht hu
      rw [toList_text_array, toList_text_array, toList_text_tuple, toList_text_tuple] at heq
      simp only [cons_append, append_assoc, List.cons.injEq, true_and, nil_append] at heq
      obtain ⟨rfl, htail⟩ := TupleType.items_append_inj ht hu heq
      simp only [List.cons.injEq, true_and, ← append_assoc] at htail
      obtain ⟨rfl, rfl, hend⟩ := layout_inj hrest hrest' htail
      exact ⟨rfl, hend⟩

theorem TupleType.items_append_inj {ts us : List FieldType} (hts : TupleType.Named ts)
    (hus : TupleType.Named us) {rest rest' : List Char}
    (heq : (join "," (TupleType.itemTexts ts)).toList ++ ']' :: rest =
      (join "," (TupleType.itemTexts us)).toList ++ ']' :: rest') : ts = us ∧ rest = rest' := by
  cases ts with
  | nil =>
    cases us with
    | nil => exact ⟨rfl, (List.cons.inj heq).2⟩
    | cons u us =>
      rw [TupleType.Named] at hus
      obtain ⟨c, tail, htext, hc, -⟩ := head_text hus.1
      rw [toList_join_cons, htext] at heq
      exact absurd (List.cons.inj heq).1.symm hc
  | cons t ts =>
    cases us with
    | nil =>
      rw [TupleType.Named] at hts
      obtain ⟨c, tail, htext, hc, -⟩ := head_text hts.1
      rw [toList_join_cons, htext] at heq
      exact absurd (List.cons.inj heq).1 hc
    | cons u us =>
      rw [toList_join_cons, toList_join_cons, append_assoc, append_assoc] at heq
      rw [TupleType.Named] at hts hus
      obtain ⟨rfl, htail⟩ := FieldType.text_append_inj hts.1 hus.1 (closes_itemsRest ts rest)
        (closes_itemsRest us rest') heq
      obtain ⟨rfl, hend⟩ := TupleType.rest_append_inj hts.2 hus.2 htail
      exact ⟨rfl, hend⟩

theorem TupleType.rest_append_inj {ts us : List FieldType} (hts : TupleType.Named ts)
    (hus : TupleType.Named us) {rest rest' : List Char}
    (heq : itemsRest ts ++ ']' :: rest = itemsRest us ++ ']' :: rest') : ts = us ∧ rest = rest' := by
  cases ts with
  | nil =>
    cases us with
    | nil => exact ⟨rfl, (List.cons.inj heq).2⟩
    | cons u us => exact absurd (List.cons.inj heq).1 (by decide)
  | cons t ts =>
    cases us with
    | nil => exact absurd (List.cons.inj heq).1 (by decide)
    | cons u us =>
      have htail : t.text.toList ++ (itemsRest ts ++ ']' :: rest) =
          u.text.toList ++ (itemsRest us ++ ']' :: rest') := by
        have hcons : t.text.toList ++ itemsRest ts ++ ']' :: rest =
            u.text.toList ++ itemsRest us ++ ']' :: rest' := (List.cons.inj heq).2
        rwa [append_assoc, append_assoc] at hcons
      rw [TupleType.Named] at hts hus
      obtain ⟨rfl, hrest⟩ := FieldType.text_append_inj hts.1 hus.1 (closes_itemsRest ts rest)
        (closes_itemsRest us rest') htail
      obtain ⟨rfl, hend⟩ := TupleType.rest_append_inj hts.2 hus.2 hrest
      exact ⟨rfl, hend⟩

end

/-- **The text of a type determines it.** -/
theorem DagType.text_inj {t u : DagType} (ht : t.Named) (hu : u.Named) (heq : t.text = u.text) : t = u := by
  have hlist := congrArg String.toList heq
  have hclose : Closes [] := fun c hc => nomatch hc
  cases t with
  | field t =>
    cases u with
    | field u =>
      have happ : t.text.toList ++ [] = u.text.toList ++ [] := congrArg (· ++ []) hlist
      rw [(FieldType.text_append_inj ht hu hclose hclose happ).1]
    | tuple us =>
      obtain ⟨c, tail, htext, -, -, hc, -⟩ := head_text (t := t) ht
      rw [DagType.text, DagType.text, htext, toList_text_tuple] at hlist
      exact absurd (List.cons.inj hlist).1 hc
  | tuple ts =>
    cases u with
    | field u =>
      obtain ⟨c, tail, htext, -, -, hc, -⟩ := head_text (t := u) hu
      rw [DagType.text, DagType.text, htext, toList_text_tuple] at hlist
      exact absurd (List.cons.inj hlist).1.symm hc
    | tuple us =>
      rw [DagType.text, DagType.text, toList_text_tuple, toList_text_tuple] at hlist
      rw [(TupleType.items_append_inj ht hu (List.cons.inj hlist).2).1]

end Jitq
