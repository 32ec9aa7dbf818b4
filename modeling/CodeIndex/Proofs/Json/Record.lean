import CodeIndex.Json.Record

/-! # Records that are read back

A value is read as what was written where each of its parts is. Fields are looked up by name, so
putting them in the order of their names, in the value and in all values in it, makes no difference.
-/

namespace CodeIndex.Json

namespace Value

theorem lookup_field (first name : String) (v : Value) (fields : Fields) :
    ((first, v) :: fields).lookup name = if name = first then some v else fields.lookup name := by
  rw [List.lookup_cons]
  by_cases h : name = first
  · simp [h]
  · simp [h, beq_eq_false_iff_ne.mpr h]

theorem lookup_insertField (name other : String) (v : Value) (fields : Fields) :
    (insertField name v fields).lookup other =
      if other = name then some v else fields.lookup other := by
  induction fields with
  | nil => exact lookup_field name other v []
  | cons field fields ih =>
    rcases field with ⟨first, w⟩
    rw [insertField]
    split
    · exact lookup_field name other v _
    split
    · next heq =>
      rw [lookup_field, lookup_field, heq]
      by_cases h : other = first <;> simp [h]
    · next hne =>
      rw [lookup_field, ih, lookup_field]
      by_cases h : other = name
      · simp [h, hne]
      · simp [h]

theorem lookup_sortedFields (fields : Fields) (name : String) :
    (sortedFields fields).lookup name = (fields.lookup name).map sorted := by
  induction fields with
  | nil => rfl
  | cons field fields ih =>
    rcases field with ⟨first, v⟩
    rw [sortedFields, lookup_insertField, ih, lookup_field]
    by_cases h : name = first <;> simp [h]

theorem sortedItems_map (write : α → Value) (xs : List α) :
    sortedItems (xs.map write) = xs.map fun x => (write x).sorted := by
  induction xs with
  | nil => rfl
  | cons x xs ih => rw [List.map_cons, sortedItems, ih, List.map_cons]

/-- Whether a value is read as `a`, also with all fields in the order of their names. -/
structure ReadsAs (v : Value) (read : Value → Option α) (a : α) : Prop where
  read_eq : read v = some a
  read_sorted : read v.sorted = some a

/-! ## Simple values -/

theorem readsAs_string (s : String) : (string s).ReadsAs string? s :=
  ⟨rfl, rfl⟩

theorem readsAs_word (w : UInt32) : (nat w.toNat).ReadsAs word? w := by
  have h : (nat w.toNat).natBelow? UInt32.size = some w.toNat := if_pos w.toNat_lt
  constructor <;> exact (congrArg (Option.map UInt32.ofNat) h).trans (by simp)

theorem readsAs_count {n : Nat} (h : n < UInt64.size) : (nat n).ReadsAs count? n := by
  constructor <;> exact if_pos h

theorem readsAs_id {n : Int} (h : n ≤ Int64.maxValue.toInt) : (int n).ReadsAs id? n := by
  constructor <;> exact if_pos h

theorem readsAs_list {write : α → Value} {read : Value → Option α} {xs : List α}
    (h : ∀ x ∈ xs, (write x).ReadsAs read x) :
    (array (xs.map write)).ReadsAs (list? read) xs := by
  have hlist : ∀ (write : α → Value) (xs : List α), (∀ x ∈ xs, read (write x) = some x) →
      list? read (array (xs.map write)) = some xs := by
    intro write xs hxs
    change (xs.map write).mapM read = some xs
    induction xs with
    | nil => rfl
    | cons x xs ih =>
      rw [List.map_cons, List.mapM_cons, hxs x List.mem_cons_self,
        ih fun y hy => hxs y (List.mem_cons_of_mem x hy)]
      rfl
  refine ⟨hlist _ _ fun x hx => (h x hx).read_eq, ?_⟩
  rw [sorted, sortedItems_map]
  exact hlist _ _ fun x hx => (h x hx).read_sorted

end Value

/-! ## Records -/

/-- Whether every field that was written is found, as it was written or with all fields in it in
their order. -/
def Fields.Hold (fields written : Fields) : Prop :=
  ∀ name, fields.lookup name = written.lookup name ∨
    fields.lookup name = (written.lookup name).map Value.sorted

namespace Fields

variable {fields written : Fields}

theorem Hold.required (h : fields.Hold written) (name : String) {v : Value}
    (hv : written.lookup name = some v) {read : Value → Option α} {a : α}
    (ha : v.ReadsAs read a) : fields.required name read = some a := by
  rw [Fields.required]
  rcases h name with h | h
  · rw [h, hv]
    exact ha.read_eq
  · rw [h, hv]
    exact ha.read_sorted

/-- What is written for a part that is there must not be null, which stands for its absence. -/
theorem Hold.optional (h : fields.Hold written) (name : String) (write : α → Value)
    {read : Value → Option α} {x : Option α} (hx : written.lookup name = x.map write)
    (hread : ∀ a ∈ x, write a ≠ .null ∧ (write a).ReadsAs read a) :
    fields.optional name read = some x := by
  have hsome : ∀ (v : Value) (a : α), v ≠ .null → read v = some a →
      v.optional? read = some (some a) := by
    intro v a hnull hv
    cases v <;> simp_all [Value.optional?]
  rw [Fields.optional]
  cases x with
  | none => rcases h name with h | h <;> rw [h, hx] <;> rfl
  | some a =>
    rcases hread a rfl with ⟨hnull, hv⟩
    rcases h name with h | h
    · rw [h, hx]
      exact hsome _ a hnull hv.read_eq
    · rw [h, hx]
      refine hsome _ a ?_ hv.read_sorted
      cases hw : write a <;> simp_all [Value.sorted]

end Fields

/-- A record is read back from its fields if it is read back from whatever holds them. -/
theorem Value.readsAs_object {form : RecordForm} (hform : form.extensible = true)
    {written : Fields} {decode : Fields → Option α} {a : α}
    (h : ∀ fields : Fields, fields.Hold written → decode fields = some a) :
    (object written).ReadsAs (fun v => form.fields? v >>= decode) a := by
  have hfields : ∀ fields, form.fields? (object fields) = some fields := by
    intro fields
    rw [RecordForm.fields?, hform, Bool.true_or, if_pos rfl]
  constructor
  · rw [hfields]
    exact h written fun name => .inl rfl
  · rw [sorted, hfields]
    exact h (sortedFields written) fun name => .inr (lookup_sortedFields written name)

end CodeIndex.Json
