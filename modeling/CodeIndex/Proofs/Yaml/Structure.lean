import CodeIndex.Settings.Format

/-! # JSON values as YAML values

Every JSON value is a YAML value without tags whose keys are strings. What settings ask of such a
YAML value has the answer that the JSON value gives.
-/

namespace CodeIndex.Yaml.Value

mutual

def ofJson : Json.Value → Value
  | .null => .null
  | .bool b => .bool b
  | .number (.int n) => .number (.int n)
  | .number (.float x) => .number (.float x)
  | .string s => .string s
  | .array items => .sequence (ofJsonItems items)
  | .object fields => .mapping (ofJsonFields fields)

def ofJsonItems : List Json.Value → List Value
  | [] => []
  | x :: xs => ofJson x :: ofJsonItems xs

def ofJsonFields : List (String × Json.Value) → List (Value × Value)
  | [] => []
  | (name, x) :: fields => (.string name, ofJson x) :: ofJsonFields fields

end

theorem ofJsonItems_eq (xs : List Json.Value) : ofJsonItems xs = xs.map ofJson := by
  induction xs with
  | nil => rfl
  | cons x xs ih => rw [ofJsonItems, ih, List.map_cons]

theorem ofJsonFields_eq (fields : Json.Fields) :
    ofJsonFields fields = fields.map fun field => (.string field.1, ofJson field.2) := by
  induction fields with
  | nil => rfl
  | cons field fields ih => rw [ofJsonFields, ih, List.map_cons]

mutual

theorem untaggedJson?_ofJson : ∀ v : Json.Value, (ofJson v).untaggedJson? = some v
  | .null | .bool _ | .number (.int _) | .number (.float _) | .string _ => rfl
  | .array xs => by
    rw [ofJson, untaggedJson?, untaggedJsons?_ofJson xs]
    rfl
  | .object fields => by
    rw [ofJson, untaggedJson?, untaggedEntries?_ofJson fields]
    rfl

theorem untaggedJsons?_ofJson : ∀ xs : List Json.Value, untaggedJsons? (ofJsonItems xs) = some xs
  | [] => rfl
  | x :: xs => by
    rw [ofJsonItems, untaggedJsons?, untaggedJson?_ofJson x, untaggedJsons?_ofJson xs]
    rfl

theorem untaggedEntries?_ofJson : ∀ fields : Json.Fields,
    untaggedEntries? (ofJsonFields fields) = some fields
  | [] => rfl
  | (name, x) :: fields => by
    rw [ofJsonFields, untaggedEntries?, untaggedJson?_ofJson x, untaggedEntries?_ofJson fields]
    rfl

end

/-! ## Records -/

def partsOfJson (fields : Json.Fields) : List (String × Value) :=
  fields.map fun field => (field.1, ofJson field.2)

theorem lookup_partsOfJson (fields : Json.Fields) (name : String) :
    (partsOfJson fields).lookup name = (fields.lookup name).map ofJson := by
  induction fields with
  | nil => rfl
  | cons field fields ih =>
    rw [partsOfJson, List.map_cons, List.lookup_cons, List.lookup_cons]
    split
    · rfl
    · exact ih

/-- A record has the parts that were written, if no name is given twice and all are known. -/
theorem fields?_ofJson {form : Json.RecordForm} {fields : Json.Fields} (names : List String)
    (hfields : fields.map (·.1) = names)
    (hnodup : (names.filter form.names.contains).Nodup)
    (hnames : names.all form.names.contains = true) :
    (ofJson (.object fields)).fields? form = some (partsOfJson fields) := by
  have hmap : (ofJsonFields fields).mapM (fun entry => do return (← string? entry.1, entry.2)) =
      some (partsOfJson fields) := by
    rw [ofJsonFields_eq, List.mapM_map]
    exact List.mapM_pure
  have hfirst : (partsOfJson fields).map (·.1) = names := by
    rw [partsOfJson, List.map_map, ← hfields]
    rfl
  have hall : ((partsOfJson fields).all fun part => form.names.contains part.1) = true := by
    rw [← hnames, ← hfirst, List.all_map]
    rfl
  refine (congrArg (· >>= _) hmap).trans ?_
  refine if_pos ⟨?_, ?_⟩
  · rw [hfirst]
    exact hnodup
  · rw [hall, Bool.or_true]

/-- A record has the kind and the further part that were written. -/
theorem kindedFields?_ofJson {names : String → List String} {kind name : String} {x : Json.Value}
    (hname : name ≠ "kind") :
    (ofJson (.object [("kind", .string kind), (name, x)])).kindedFields? names =
      some (kind, [(name, x)]) := by
  have hother : (Value.string name).same (.string "kind") = false := by
    simpa [same] using hname
  have hkind : (Value.string "kind").same (.string "kind") = true := by
    simp [same]
  have hnodup : ([name].filter (names kind).contains).Nodup :=
    (List.pairwise_singleton _ name).filter _
  simp only [ofJson, ofJsonFields, kindedFields?, List.find?_cons, List.filter_cons, hkind, hother]
  simp [string?, untagged, partName?, untaggedJson?_ofJson, hnodup]

end CodeIndex.Yaml.Value
