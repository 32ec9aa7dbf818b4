import CodeIndex.Proofs.Yaml.Parsing
import CodeIndex.Proofs.Yaml.Structure
import CodeIndex.Yaml.Reader

/-! # Values that are read back

An object that is written is read as the same value: the text is scanned as the tokens of its
structure, these are read as its tree, and every scalar of the tree has the value that was written.
-/

namespace CodeIndex.Yaml

open Style

/-! ## Nesting -/

mutual

/-- The greatest number of collections around a place in a value. -/
def nesting : Json.Value → Nat
  | .array items => nestingOfItems items + 1
  | .object fields => nestingOfFields fields + 1
  | _ => 0

def nestingOfItems : List Json.Value → Nat
  | [] => 0
  | x :: xs => max (nesting x) (nestingOfItems xs)

def nestingOfFields : List (String × Json.Value) → Nat
  | [] => 0
  | (_, x) :: fields => max (nesting x) (nestingOfFields fields)

end

/-! ## Scalars -/

theorem Scalar.integer?_ne_string (s t : String) : integer? s ≠ some (.ok (.string t)) := by
  intro h
  obtain ⟨n, -, hn⟩ := Option.bind_eq_some_iff.mp h
  rw [intValue?] at hn
  grind

/-- A plain scalar that is read as a string is read as its text. -/
theorem Scalar.eq_of_plainValue {s t : String} (h : plainValue s = .ok (.string t)) : t = s := by
  unfold plainValue at h
  split at h
  · cases h
  split at h
  · cases h
  split at h
  · next hinteger => exact absurd (h ▸ hinteger) (integer?_ne_string s t)
  split at h
  · cases h
    rfl
  split at h
  · cases h
  · cases h
    rfl

theorem Scalar.plainValue_of_not_isAmbiguous {s : String} (h : isAmbiguous s = false) :
    plainValue s = .ok (.string s) := by
  unfold isAmbiguous at h
  split at h
  · next t ht => rw [ht, eq_of_plainValue ht]
  · rw [Bool.or_true] at h
    cases h

namespace ComposeM

variable {depth : Nat} {c : Composition}

theorem value_scalar {plain : Bool} {text : String} {v : Value}
    (h : scalar none plain text = .ok v) :
    value depth (.scalar {} plain text) c = .ok (v, c) := by
  rw [value]
  change (liftM (scalar none plain text) >>= fun v => pure (withTag none v) : ComposeM Value) c = _
  rw [h]
  rfl

theorem value_sequence {items : List Tree} {vs : List Value}
    (h : items.mapM (value depth) c = .ok (vs, c)) :
    value (depth + 1) (.sequence {} items) c = .ok (.sequence vs, c) := by
  rw [value]
  change Except.bind (items.mapM (value depth) c) _ = _
  rw [h]
  rfl

/-- Entries are composed one by one behind those that are there. -/
theorem value_mapping {entries : List (Tree × Tree)} {done : List (Value × Value)}
    (h : ∀ step : List (Value × Value) → Tree × Tree → ComposeM (List (Value × Value)),
      (∀ done k v c, step done (k, v) c = (value depth k >>= fun k => value depth v >>= fun v =>
        liftM (addEntry done k v) : ComposeM _) c) →
      entries.foldlM step [] c = .ok (done, c)) :
    value (depth + 1) (.mapping {} entries) c = .ok (.mapping done.reverse, c) := by
  rw [value]
  change Except.bind ((List.foldlM (m := ComposeM) _ [] entries) c) _ = _
  rw [h _ fun _ _ _ _ => rfl]
  rfl

/-! ## Values -/

/-- What has to hold so that the tree of a value is composed to the value. -/
def Composes (v : Json.Value) : Prop :=
  ∀ ⦃depth : Nat⦄ ⦃c : Composition⦄, nesting v ≤ depth →
    value depth (.ofJson v) c = .ok (.ofJson v, c)

def ComposesItems (xs : List Json.Value) : Prop :=
  ∀ ⦃depth : Nat⦄ ⦃c : Composition⦄, nestingOfItems xs ≤ depth →
    (Tree.ofJsonItems xs).mapM (value depth) c = .ok (Value.ofJsonItems xs, c)

def ComposesFields (fields : List (String × Json.Value)) : Prop :=
  ∀ ⦃depth : Nat⦄ ⦃c : Composition⦄ ⦃done : List (Value × Value)⦄
    ⦃step : List (Value × Value) → Tree × Tree → ComposeM (List (Value × Value))⦄,
    nestingOfFields fields ≤ depth → (fields.map (·.1)).Nodup →
    (∀ name ∈ fields.map (·.1), ∀ entry ∈ done, entry.1.same (.string name) = false) →
    (∀ done k v c, step done (k, v) c = (value depth k >>= fun k => value depth v >>= fun v =>
      liftM (addEntry done k v) : ComposeM _) c) →
    (Tree.ofJsonFields fields).foldlM step done c =
      .ok ((Value.ofJsonFields fields).reverse ++ done, c)

theorem composesItems_cons {x : Json.Value} {xs : List Json.Value} (hx : Composes x)
    (hxs : ComposesItems xs) : ComposesItems (x :: xs) := by
  intro depth c hdepth
  obtain ⟨hfirst, hrest⟩ := Nat.max_le.mp hdepth
  rw [Tree.ofJsonItems, List.mapM_cons]
  change Except.bind (value depth (Tree.ofJson x) c) _ = _
  rw [hx hfirst]
  change Except.bind ((Tree.ofJsonItems xs).mapM (value depth) c) _ = _
  rw [hxs hrest]
  rfl

theorem composesFields_cons {name : String} {x : Json.Value} {fields : List (String × Json.Value)}
    (hname : IsFieldName name) (hx : Composes x) (hfields : ComposesFields fields) :
    ComposesFields ((name, x) :: fields) := by
  intro depth c done step hdepth hnodup hdone hstep
  obtain ⟨hfirst, hrest⟩ := Nat.max_le.mp hdepth
  rw [List.map_cons, List.nodup_cons] at hnodup
  rw [List.map_cons, List.forall_mem_cons] at hdone
  have hkey : value depth (.scalar {} true name) c = .ok (.string name, c) :=
    value_scalar (Scalar.plainValue_of_not_isAmbiguous (ofString_eq_plain hname.1).2)
  have hadd : addEntry done (.string name) (.ofJson x) = .ok ((.string name, .ofJson x) :: done) := by
    have hany : (done.any fun entry => entry.1.same (.string name)) = false :=
      List.any_eq_false.mpr fun entry hentry => by simp [hdone.1 entry hentry]
    exact if_neg (by simp [hany])
  have hentry : step done (.scalar {} true name, .ofJson x) c =
      .ok ((.string name, .ofJson x) :: done, c) := by
    rw [hstep]
    change Except.bind (value depth (.scalar {} true name) c) _ = _
    rw [hkey]
    change Except.bind (value depth (Tree.ofJson x) c) _ = _
    rw [hx hfirst]
    change (liftM (addEntry done (.string name) (.ofJson x)) : ComposeM _) c = _
    rw [hadd]
    rfl
  have hothers : ∀ name' ∈ fields.map (·.1), ∀ entry ∈ (Value.string name, Value.ofJson x) :: done,
      entry.1.same (.string name') = false := by
    intro name' hname'
    refine List.forall_mem_cons.mpr ⟨?_, hdone.2 name' hname'⟩
    have hne : name ≠ name' := fun h => hnodup.1 (h ▸ hname')
    simpa [Value.same] using hne
  rw [Tree.ofJsonFields, List.foldlM_cons]
  change Except.bind (step done (.scalar {} true name, .ofJson x) c) _ = _
  rw [hentry]
  refine (hfields hrest hnodup.2 hothers hstep).trans ?_
  rw [Value.ofJsonFields, List.reverse_cons, List.append_assoc, List.singleton_append]

theorem composes_scalar {v : Json.Value} {plain : Bool} {text : String}
    (htree : Tree.ofJson v = .scalar {} plain text)
    (h : scalar none plain text = .ok (.ofJson v)) : Composes v := by
  intro depth c _
  rw [htree]
  exact value_scalar h

theorem composes_string (s : String) : Composes (.string s) := by
  refine composes_scalar rfl ?_
  cases hstyle : ofString s with
  | plain => exact Scalar.plainValue_of_not_isAmbiguous (ofString_eq_plain hstyle).2
  | singleQuoted | doubleQuoted | literal => rfl

theorem composes_number {n : Int} (h : 0 ≤ n ∧ n < UInt64.size) : Composes (.number (.int n)) := by
  obtain ⟨n, rfl⟩ := Int.eq_ofNat_of_zero_le h.1
  exact composes_scalar rfl (Scalar.plainValue_toString (Int.ofNat_lt.mp h.2))

theorem composes_array {items : List Json.Value} (h : ComposesItems items) :
    Composes (.array items) := by
  intro depth c hdepth
  obtain ⟨depth, rfl⟩ : ∃ n, depth = n + 1 := ⟨depth - 1, by rw [nesting] at hdepth; omega⟩
  exact value_sequence (h (Nat.le_of_succ_le_succ hdepth))

theorem composes_object {fields : List (String × Json.Value)} (hnodup : (fields.map (·.1)).Nodup)
    (h : ComposesFields fields) : Composes (.object fields) := by
  intro depth c hdepth
  obtain ⟨depth, rfl⟩ : ∃ n, depth = n + 1 := ⟨depth - 1, by rw [nesting] at hdepth; omega⟩
  have hmapping : value (depth + 1) (.mapping {} (Tree.ofJsonFields fields)) c =
      .ok (.mapping (Value.ofJsonFields fields).reverse.reverse, c) := by
    refine value_mapping fun step hstep => ?_
    refine (h (Nat.le_of_succ_le_succ hdepth) hnodup (by simp) hstep).trans ?_
    rw [List.append_nil]
  rw [List.reverse_reverse] at hmapping
  exact hmapping

mutual

theorem composes_ofJson : ∀ v : Json.Value, IsWritable v → Composes v
  | .null, _ => composes_scalar rfl rfl
  | .bool true, _ => composes_scalar rfl rfl
  | .bool false, _ => composes_scalar rfl rfl
  | .number (.int _), hv => composes_number hv
  | .string s, _ => composes_string s
  | .array items, hv => composes_array (composesItems_ofJsonItems items hv)
  | .object fields, hv => composes_object hv.1 (composesFields_ofJsonFields fields hv.2)

theorem composesItems_ofJsonItems : ∀ xs : List Json.Value, AreWritable xs → ComposesItems xs
  | [], _ => fun _ _ _ => rfl
  | x :: xs, hxs => composesItems_cons (composes_ofJson x hxs.1) (composesItems_ofJsonItems xs hxs.2)

theorem composesFields_ofJsonFields :
    ∀ fields : List (String × Json.Value), AreWritableFields fields → ComposesFields fields
  | [], _ => fun _ _ _ _ _ _ _ _ => rfl
  | (_, x) :: fields, hfields => composesFields_cons hfields.1 (composes_ofJson x hfields.2.1)
      (composesFields_ofJsonFields fields hfields.2.2)

end

end ComposeM

/-! ## Documents -/

/-- A written object is read as the same value. -/
theorem Value.read_print {fields : List (String × Json.Value)} (hne : fields ≠ [])
    (h : IsWritable (.object fields)) (hdepth : nesting (.object fields) ≤ maxDepth) :
    read (print (.object fields)) = .ok (.ofJson (.object fields)) := by
  have hvalue := fun c => @ComposeM.composes_ofJson (.object fields) h maxDepth c hdepth
  rw [read, Tree.read_print hne h]
  exact congrArg (Except.map (·.1)) (hvalue _)

end CodeIndex.Yaml
