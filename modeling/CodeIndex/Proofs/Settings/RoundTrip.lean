import CodeIndex.Build.Source
import CodeIndex.Proofs.Settings.ReadBack
import CodeIndex.Proofs.Yaml.RoundTrip

/-! # Settings that survive being written

A document of settings is made of plain names, strings, and numbers of 64 bits at most, and so it is
read as the value that was written. Accepted settings name the one version of the schema, make sense
and have a source of trees, and therefore the document that is written for them is accepted as well
and gives the same settings.
-/

namespace CodeIndex

open Yaml (IsWritable AreWritable IsFieldName nesting)

/-! ## Values of settings -/

theorem areWritable_map {write : α → Json.Value} {xs : List α}
    (h : ∀ x ∈ xs, IsWritable (write x)) : AreWritable (xs.map write) := by
  induction xs with
  | nil => trivial
  | cons x xs ih =>
    obtain ⟨hx, hxs⟩ := List.forall_mem_cons.mp h
    exact ⟨hx, ih hxs⟩

theorem isWritable_object {fields : List (String × Json.Value)} (names : List String)
    (hfields : fields.map (·.1) = names) (hnodup : names.Nodup)
    (hnames : ∀ name ∈ names, IsFieldName name) (hvalues : ∀ v ∈ fields.map (·.2), IsWritable v) :
    IsWritable (.object fields) := by
  subst hfields
  refine ⟨hnodup, ?_⟩
  clear hnodup
  induction fields with
  | nil => trivial
  | cons field fields ih =>
    obtain ⟨hname, hnames⟩ := List.forall_mem_cons.mp hnames
    obtain ⟨hvalue, hvalues⟩ := List.forall_mem_cons.mp hvalues
    exact ⟨hname, hvalue, ih hvalues hnames⟩

theorem isWritable_nat {n : Nat} (h : n < UInt64.size) : IsWritable (.nat n) :=
  ⟨Int.natCast_nonneg n, Int.ofNat_lt.mpr h⟩

theorem isWritable_words (words : List String) : IsWritable (.array (words.map .string)) :=
  areWritable_map fun _ _ => trivial

theorem NodeRule.isWritable_toJson {r : NodeRule} (h : r.Fits) : IsWritable r.toJson :=
  isWritable_object form.names rfl (by decide) (by decide) (by
    simp only [List.map_cons, List.map_nil, List.forall_mem_cons]
    exact ⟨trivial, isWritable_nat h, nofun⟩)

theorem LanguageRules.isWritable_rulesJson {rules : List NodeRule} (h : ∀ rule ∈ rules, rule.Fits) :
    IsWritable (rulesJson rules) :=
  areWritable_map fun rule hrule => NodeRule.isWritable_toJson (h rule hrule)

theorem LanguageRules.isWritable_toJson {r : LanguageRules} (h : r.Fits) : IsWritable r.toJson :=
  isWritable_object form.names rfl (by decide) (by decide) (by
    simp only [List.map_cons, List.map_nil, List.forall_mem_cons]
    exact ⟨trivial, isWritable_rulesJson h.typeDefinitions, isWritable_rulesJson h.callables,
      isWritable_rulesJson h.singletonCallables, isWritable_rulesJson h.constantReferences,
      isWritable_rulesJson h.calls, nofun⟩)

theorem TreeSourceSettings.isWritable_toJson (s : TreeSourceSettings) : IsWritable s.toJson := by
  cases s with
  | sidecar suffix =>
    refine isWritable_object ["kind", "suffix"] rfl (by decide) (by decide) ?_
    simp only [List.map_cons, List.map_nil, List.forall_mem_cons]
    exact ⟨trivial, trivial, nofun⟩
  | command argv =>
    refine isWritable_object ["kind", "argv"] rfl (by decide) (by decide) ?_
    simp only [List.map_cons, List.map_nil, List.forall_mem_cons]
    exact ⟨trivial, isWritable_words argv, nofun⟩

/-! ## Nesting -/

theorem nesting_array_le {write : α → Json.Value} {xs : List α} {n : Nat}
    (h : ∀ x ∈ xs, nesting (write x) ≤ n) : nesting (.array (xs.map write)) ≤ n + 1 := by
  refine Nat.succ_le_succ ?_
  induction xs with
  | nil => exact Nat.zero_le n
  | cons x xs ih =>
    obtain ⟨hx, hxs⟩ := List.forall_mem_cons.mp h
    exact Nat.max_le.mpr ⟨hx, ih hxs⟩

theorem nesting_object_le {fields : List (String × Json.Value)} {n : Nat}
    (h : ∀ v ∈ fields.map (·.2), nesting v ≤ n) : nesting (.object fields) ≤ n + 1 := by
  refine Nat.succ_le_succ ?_
  induction fields with
  | nil => exact Nat.zero_le n
  | cons field fields ih =>
    obtain ⟨hvalue, hvalues⟩ := List.forall_mem_cons.mp h
    exact Nat.max_le.mpr ⟨hvalue, ih hvalues⟩

theorem nesting_words (words : List String) : nesting (.array (words.map .string)) ≤ 1 :=
  nesting_array_le fun _ _ => Nat.le_refl 0

theorem LanguageRules.nesting_rulesJson (rules : List NodeRule) : nesting (rulesJson rules) ≤ 2 :=
  nesting_array_le fun _ _ => Nat.le_refl 1

theorem LanguageRules.nesting_toJson (r : LanguageRules) : nesting r.toJson ≤ 3 := by
  refine nesting_object_le ?_
  simp only [List.map_cons, List.map_nil, List.forall_mem_cons]
  exact ⟨Nat.zero_le 2, nesting_rulesJson _, nesting_rulesJson _, nesting_rulesJson _,
    nesting_rulesJson _, nesting_rulesJson _, nofun⟩

theorem TreeSourceSettings.nesting_toJson (s : TreeSourceSettings) : nesting s.toJson ≤ 2 := by
  cases s with
  | sidecar suffix => exact Nat.le_succ 1
  | command argv =>
    refine nesting_object_le ?_
    simp only [List.map_cons, List.map_nil, List.forall_mem_cons]
    exact ⟨Nat.zero_le 1, nesting_words argv, nofun⟩

namespace Settings

variable {s : Settings}

theorem isFieldName_of_mem : ∀ name ∈ form.names, IsFieldName name := by
  decide

theorem isWritable_toJson (h : s.Fits) : IsWritable s.toJson := by
  have hversion : s.version.toNat < UInt64.size :=
    Nat.lt_trans s.version.toNat_lt (by decide)
  have hthreads : ∀ v ∈ (Json.Value.fieldIfAny "threads" .nat s.threads).map (·.2),
      IsWritable v := by
    cases hthreads : s.threads with
    | none => nofun
    | some n =>
      refine List.forall_mem_cons.mpr ⟨isWritable_nat (h.threads n hthreads), nofun⟩
  have hvalues : ∀ v ∈ s.fieldsJson.map (·.2), IsWritable v := by
    rw [fieldsJson, List.map_append]
    simp only [List.map_cons, List.map_nil, List.cons_append, List.nil_append,
      List.forall_mem_cons]
    exact ⟨isWritable_nat hversion, LanguageRules.isWritable_toJson h.language, trivial, trivial,
      isWritable_words _, isWritable_words _, trivial, TreeSourceSettings.isWritable_toJson _,
      trivial, trivial, hthreads⟩
  cases hthreads : s.threads with
  | none =>
    refine isWritable_object (form.names.take 10) ?_ (by decide)
      (fun name hname => isFieldName_of_mem name (List.mem_of_mem_take hname)) hvalues
    rw [hthreads]
    rfl
  | some n =>
    refine isWritable_object form.names ?_ (by decide) isFieldName_of_mem hvalues
    rw [hthreads]
    rfl

theorem nesting_toJson (s : Settings) : nesting s.toJson ≤ 4 := by
  have hthreads : ∀ v ∈ (Json.Value.fieldIfAny "threads" .nat s.threads).map (·.2),
      nesting v ≤ 3 := by
    cases s.threads with
    | none => nofun
    | some n => exact List.forall_mem_cons.mpr ⟨Nat.zero_le 3, nofun⟩
  refine nesting_object_le ?_
  rw [List.map_append]
  simp only [List.map_cons, List.map_nil, List.cons_append, List.nil_append, List.forall_mem_cons]
  exact ⟨Nat.zero_le 3, s.language.nesting_toJson, Nat.zero_le 3, Nat.zero_le 3,
    Nat.le_succ_of_le (Nat.le_succ_of_le (nesting_words _)),
    Nat.le_succ_of_le (Nat.le_succ_of_le (nesting_words _)), Nat.zero_le 3,
    Nat.le_succ_of_le s.treeSource.nesting_toJson, Nat.zero_le 3, Nat.zero_le 3, hthreads⟩

/-! ## Documents -/

/-- A document that was written for an object gives the settings that the object gives. -/
theorem ofYaml_print {fields : List (String × Json.Value)} (hne : fields ≠ [])
    (hwritable : IsWritable (.object fields)) (hnesting : nesting (.object fields) ≤ Yaml.maxDepth) :
    ofYaml (Yaml.print (.object fields)) = ofValue (Yaml.Value.ofJson (.object fields)) := by
  rw [ofYaml, Yaml.Value.read_print hne hwritable hnesting]

theorem checkVersion_ofJson (h : s.version = 1) :
    checkVersion (Yaml.Value.ofJson s.toJson) = .ok () := by
  have hversion : documentVersion? (Yaml.Value.ofJson s.toJson) =
      some (.number (.int s.version.toNat)) := by
    simp [documentVersion?, toJson, Yaml.Value.ofJson, Yaml.Value.ofJsonFields, Yaml.Value.untagged,
      Yaml.Value.same]
    rfl
  rw [checkVersion, hversion, h]
  rfl

theorem ofYaml_toYaml (hversion : s.version = 1) (hfits : s.Fits) (hvalid : s.validate = .ok ()) :
    ofYaml s.toYaml = .ok s := by
  have hprint : ofYaml s.toYaml = ofValue (Yaml.Value.ofJson s.toJson) :=
    ofYaml_print (List.cons_ne_nil _ _) (isWritable_toJson hfits)
      (Nat.le_trans s.nesting_toJson (by decide))
  rw [hprint, ofValue, checkVersion_ofJson hversion, decode?_ofJson hfits]
  change (validate s >>= _) = _
  rw [hvalid]
  rfl

theorem of_ofYaml {text : String} (h : ofYaml text = .ok s) :
    s.validate = .ok () ∧ s.version = 1 ∧ s.Fits := by
  rw [ofYaml] at h
  split at h
  · cases h
  next v _ =>
  rw [ofValue] at h
  cases hversion : checkVersion v with
  | error problem =>
    rw [hversion] at h
    cases h
  | ok _ =>
    rw [hversion] at h
    cases hdecode : Settings.decode? v with
    | none =>
      rw [hdecode] at h
      cases h
    | some s' =>
      rw [hdecode] at h
      cases hvalid : s'.validate with
      | error problem =>
        have herror : (s'.validate >>= fun _ => Except.ok s') = .ok s := h
        rw [hvalid] at herror
        cases herror
      | ok _ =>
        have hok : (s'.validate >>= fun _ => Except.ok s') = .ok s := h
        rw [hvalid] at hok
        obtain rfl := Except.ok.inj hok
        exact ⟨hvalid, version_of_decode? hversion hdecode, (of_decode? hdecode).1⟩

theorem build_of_validate [Programs] (h : s.validate = .ok ()) (cwd : Location)
    (repository : String) :
    s.treeSource.build cwd repository = .ok (s.treeSource.source cwd repository) := by
  cases hsource : s.treeSource with
  | sidecar suffix => rfl
  | command argv =>
    cases argv with
    | cons program args => rfl
    | nil =>
      have hflaw : s.flaw? ≠ none := by
        rw [flaw?, hsource]
        grind
      rw [validate] at h
      split at h
      · cases h
      · next hnone => exact absurd hnone hflaw

/-- Accepted settings make sense, are of the one version that can be read and have a source of
trees, and the document that is written for them is accepted as the same settings. -/
theorem accepted_survive_writing {text : String} (h : ofYaml text = .ok s) :
    s.validate = .ok () ∧ s.version = 1 ∧
      (∀ [Programs] (cwd : Location) (repository : String),
        s.treeSource.build cwd repository = .ok (s.treeSource.source cwd repository)) ∧
      ofYaml s.toYaml = .ok s := by
  obtain ⟨hvalid, hversion, hfits⟩ := of_ofYaml h
  exact ⟨hvalid, hversion, build_of_validate hvalid, ofYaml_toYaml hversion hfits hvalid⟩

theorem accepted_survive_writing_command :
    ∃ (text : String) (s : Settings),
      text = "version: 1\nlanguage:\n  name: ruby\n  type_definitions:\n  - kind: class\n" ++
        "  callables:\n  - kind: def\n    name_child: 0\n  calls:\n  - kind: send\n" ++
        "    name_child: 1\nscope_separator: .\ntree_source:\n  kind: command\n  argv:\n" ++
        "  - cat\n  - '\x7bpath\x7d.ast.json'\nthreads: 4\n" ∧
      s = { language := ⟨"ruby", [⟨"class", 0⟩], [⟨"def", 0⟩], [], [], [⟨"send", 1⟩]⟩
            style := { separator := "." }
            treeSource := .command ["cat", "\x7bpath\x7d.ast.json"], threads := some 4 } ∧
      ofYaml text = .ok s ∧ s.validate = .ok () ∧ s.version = 1 ∧
      (∀ [Programs] (cwd : Location) (repository : String),
        s.treeSource.build cwd repository = .ok (s.treeSource.source cwd repository)) ∧
      ofYaml s.toYaml = .ok s := by
  let fields : List (String × Json.Value) :=
    [("version", .nat 1),
      ("language", .object [("name", .string "ruby"),
        ("type_definitions", .array [.object [("kind", .string "class")]]),
        ("callables", .array [.object [("kind", .string "def"), ("name_child", .nat 0)]]),
        ("calls", .array [.object [("kind", .string "send"), ("name_child", .nat 1)]])]),
      ("scope_separator", .string "."),
      ("tree_source", .object [("kind", .string "command"),
        ("argv", .array [.string "cat", .string "\x7bpath\x7d.ast.json"])]),
      ("threads", .nat 4)]
  have hwritable : IsWritable (.object fields) := by
    simp only [fields, IsWritable, AreWritable, Yaml.AreWritableFields, Json.Value.nat,
      Json.Value.int]
    decide
  have htext := ofYaml_print (List.cons_ne_nil _ _) hwritable (by decide)
  refine ⟨_, _, rfl, rfl, ?accepted, accepted_survive_writing ?accepted⟩
  refine ((congrArg ofYaml ?document).trans htext).trans ?settings
  case document => decide +kernel
  case settings => decide +kernel

end Settings

end CodeIndex
