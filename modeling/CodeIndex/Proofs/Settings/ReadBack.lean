import CodeIndex.Proofs.Except
import CodeIndex.Proofs.Json.Record
import CodeIndex.Proofs.Repeated
import CodeIndex.Proofs.Yaml.Structure
import CodeIndex.Settings.Document

/-! # Settings that are read back

What is written for settings is read as the same settings, provided that the numbers in them fit
into 64 bits. This holds of all settings that have been read.
-/

namespace CodeIndex

open Yaml.Value (ofJson partsOfJson lookup_partsOfJson fields?_ofJson)

namespace SettingsFormat

variable {fields : Json.Fields} {name : String} {v : Json.Value} {a : α}
  {read : Yaml.Value → Option α}

theorem required_partsOfJson (hv : fields.lookup name = some v) (ha : read (ofJson v) = some a) :
    required (partsOfJson fields) name read = some a := by
  rw [required, lookup_partsOfJson, hv]
  exact ha

theorem withDefault_partsOfJson (hv : fields.lookup name = some v) (ha : read (ofJson v) = some a)
    (default : α) : withDefault (partsOfJson fields) name read default = some a := by
  rw [withDefault, lookup_partsOfJson, hv]
  exact ha

theorem string?_ofJson (s : String) : string? (ofJson (.string s)) = some s := rfl

theorem bool?_ofJson (b : Bool) : bool? (ofJson (.bool b)) = some b := rfl

theorem natBelow?_ofJson {bound n : Nat} (h : n < bound) :
    natBelow? bound (ofJson (.nat n)) = some n :=
  if_pos h

theorem list?_ofJson {write : α → Json.Value} {xs : List α}
    (h : ∀ x ∈ xs, read (ofJson (write x)) = some x) :
    list? read (ofJson (.array (xs.map write))) = some xs := by
  change (Yaml.Value.ofJsonItems (xs.map write)).mapM read = some xs
  rw [Yaml.Value.ofJsonItems_eq]
  induction xs with
  | nil => rfl
  | cons x xs ih =>
    rw [List.map_cons, List.map_cons, List.mapM_cons, h x List.mem_cons_self,
      ih fun y hy => h y (List.mem_cons_of_mem x hy)]
    rfl

theorem words_ofJson (words : List String) :
    list? string? (ofJson (.array (words.map .string))) = some words :=
  list?_ofJson fun s _ => string?_ofJson s

end SettingsFormat

open SettingsFormat

/-! ## Rules -/

def NodeRule.Fits (r : NodeRule) : Prop := r.nameChild < UInt64.size

instance (r : NodeRule) : Decidable r.Fits := inferInstanceAs (Decidable (_ < _))

theorem NodeRule.decode?_ofJson {r : NodeRule} (h : r.Fits) :
    NodeRule.decode? (ofJson r.toJson) = some r := by
  have hfields : fields? form (ofJson r.toJson) = some (partsOfJson
      [("kind", .string r.kind), ("name_child", .nat r.nameChild)]) :=
    fields?_ofJson form.names rfl (by decide) (by decide)
  rw [decode?, hfields, Option.bind_eq_bind, Option.bind_some,
    required_partsOfJson rfl (string?_ofJson r.kind), Option.bind_eq_bind, Option.bind_some,
    withDefault_partsOfJson rfl (natBelow?_ofJson h), Option.bind_eq_bind, Option.bind_some]
  rfl


namespace LanguageRules

structure Fits (r : LanguageRules) : Prop where
  typeDefinitions : ∀ rule ∈ r.typeDefinitions, rule.Fits
  callables : ∀ rule ∈ r.callables, rule.Fits
  singletonCallables : ∀ rule ∈ r.singletonCallables, rule.Fits
  constantReferences : ∀ rule ∈ r.constantReferences, rule.Fits
  calls : ∀ rule ∈ r.calls, rule.Fits

theorem rules_ofJson {rules : List NodeRule} (h : ∀ rule ∈ rules, rule.Fits) :
    list? NodeRule.decode? (ofJson (rulesJson rules)) = some rules :=
  list?_ofJson fun rule hrule => NodeRule.decode?_ofJson (h rule hrule)

theorem decode?_ofJson {r : LanguageRules} (h : r.Fits) :
    LanguageRules.decode? (ofJson r.toJson) = some r := by
  have hfields : fields? form (ofJson r.toJson) = some (partsOfJson
      [("name", .string r.name), ("type_definitions", rulesJson r.typeDefinitions),
        ("callables", rulesJson r.callables),
        ("singleton_callables", rulesJson r.singletonCallables),
        ("constant_references", rulesJson r.constantReferences),
        ("calls", rulesJson r.calls)]) :=
    fields?_ofJson form.names rfl (by decide) (by decide)
  rw [decode?, hfields]
  simp only [Option.bind_eq_bind, Option.bind_some]
  rw [required_partsOfJson rfl (string?_ofJson r.name), Option.bind_some,
    required_partsOfJson rfl (rules_ofJson h.typeDefinitions), Option.bind_some,
    required_partsOfJson rfl (rules_ofJson h.callables), Option.bind_some,
    withDefault_partsOfJson rfl (rules_ofJson h.singletonCallables), Option.bind_some,
    withDefault_partsOfJson rfl (rules_ofJson h.constantReferences), Option.bind_some,
    withDefault_partsOfJson rfl (rules_ofJson h.calls), Option.bind_some]
  rfl

end LanguageRules

/-! ## Sources of trees -/

theorem TreeSourceSettings.decode?_ofJson (s : TreeSourceSettings) :
    TreeSourceSettings.decode? (ofJson s.toJson) = some s := by
  cases s with
  | sidecar suffix =>
    have hfields : kindedFields? parts (ofJson (toJson (.sidecar suffix))) =
        some ("sidecar", [("suffix", .string suffix)]) :=
      Yaml.Value.kindedFields?_ofJson (by decide)
    rw [decode?, hfields]
    rfl
  | command argv =>
    have hfields : kindedFields? parts (ofJson (toJson (.command argv))) =
        some ("command", [("argv", .array (argv.map .string))]) :=
      Yaml.Value.kindedFields?_ofJson (by decide)
    have hargv : Json.Fields.required [("argv", .array (argv.map .string))] "argv"
        (Json.Value.list? Json.Value.string?) = some argv :=
      (Json.Value.readsAs_list fun s _ => Json.Value.readsAs_string s).read_eq
    rw [decode?, hfields]
    exact congrArg (fun o : Option (List String) => o >>= fun argv => pure (command argv)) hargv

namespace Settings

/-- Whether all numbers fit into 64 bits. -/
structure Fits (s : Settings) : Prop where
  language : s.language.Fits
  threads : ∀ n ∈ s.threads, n < UInt64.size

variable {s : Settings}

def fieldsJson (s : Settings) : Json.Fields :=
  [("version", .nat s.version.toNat), ("language", s.language.toJson),
    ("scope_separator", .string s.style.separator), ("global_scope", .string s.style.outermost),
    ("source_extensions", .array (s.extensions.map .string)),
    ("exclude_dirs", .array (s.excludedDirs.map .string)), ("follow_links", .bool s.followLinks),
    ("tree_source", s.treeSource.toJson), ("capture_source_text", .bool s.captureText),
    ("parallel", .bool s.parallel)]
  ++ Json.Value.fieldIfAny "threads" .nat s.threads

theorem decode?_ofJson (h : s.Fits) : Settings.decode? (ofJson s.toJson) = some s := by
  have hfields : fields? form (ofJson s.toJson) = some (partsOfJson s.fieldsJson) := by
    cases hthreads : s.threads with
    | none =>
      rw [toJson, fieldsJson, hthreads]
      exact fields?_ofJson (form.names.take 10) rfl (by decide) (by decide)
    | some n =>
      rw [toJson, fieldsJson, hthreads]
      exact fields?_ofJson form.names rfl (by decide) (by decide)
  have hversion : UInt32.ofNat s.version.toNat = s.version := UInt32.ofNat_toNat
  have hthreads :
      SettingsFormat.optional (partsOfJson s.fieldsJson) "threads" (natBelow? UInt64.size) =
        some s.threads := by
    rw [SettingsFormat.optional, lookup_partsOfJson]
    cases hthreads : s.threads with
    | none =>
      rw [fieldsJson, hthreads]
      rfl
    | some n =>
      rw [fieldsJson, hthreads]
      exact congrArg (Option.map some) (natBelow?_ofJson (h.threads n hthreads))
  rw [decode?, hfields]
  simp only [Option.bind_eq_bind, Option.bind_some]
  rw [withDefault_partsOfJson rfl (natBelow?_ofJson s.version.toNat_lt), Option.bind_some,
    withDefault_partsOfJson rfl (LanguageRules.decode?_ofJson h.language), Option.bind_some,
    withDefault_partsOfJson rfl (string?_ofJson s.style.separator), Option.bind_some,
    withDefault_partsOfJson rfl (string?_ofJson s.style.outermost), Option.bind_some,
    withDefault_partsOfJson rfl (words_ofJson s.extensions), Option.bind_some,
    withDefault_partsOfJson rfl (words_ofJson s.excludedDirs), Option.bind_some,
    withDefault_partsOfJson rfl (bool?_ofJson s.followLinks), Option.bind_some,
    withDefault_partsOfJson rfl (TreeSourceSettings.decode?_ofJson s.treeSource), Option.bind_some,
    withDefault_partsOfJson rfl (bool?_ofJson s.captureText), Option.bind_some,
    withDefault_partsOfJson rfl (bool?_ofJson s.parallel), Option.bind_some, hthreads,
    Option.bind_some, hversion]
  rfl

end Settings

/-! ## Settings that have been read -/

theorem SettingsFormat.of_withDefault {fields : List (String × Yaml.Value)} {name : String}
    {read : Yaml.Value → Option α} {default a : α} (P : α → Prop) (hdefault : P default)
    (hread : ∀ v a, read v = some a → P a)
    (h : withDefault fields name read default = some a) : P a := by
  rw [withDefault] at h
  split at h
  · exact Option.some.inj h ▸ hdefault
  · exact hread _ a h

theorem SettingsFormat.forall_of_list? {read : Yaml.Value → Option α} {P : α → Prop}
    (hread : ∀ v a, read v = some a → P a) {v : Yaml.Value} {as : List α}
    (h : list? read v = some as) : ∀ a ∈ as, P a := by
  obtain ⟨items, -, hitems⟩ := Option.bind_eq_some_iff.mp h
  intro a ha
  obtain ⟨v, -, hv⟩ := Option.exists_of_mapM_eq_some hitems ha
  exact hread v a hv

namespace Yaml.Value

theorem natBelow?_lt {bound n : Nat} {v : Value} (h : v.natBelow? bound = some n) :
    n < bound := by
  unfold natBelow? at h
  split at h
  · split at h
    · next hlt => exact Option.some.inj h ▸ hlt
    · cases h
  · cases h

theorem natBelow?_unique {a b m n : Nat} {v : Value} (hm : v.natBelow? a = some m)
    (hn : v.natBelow? b = some n) : m = n := by
  unfold natBelow? at hm hn
  split at hm
  · next k hk =>
    rw [hk] at hn
    simp only [Option.ite_none_right_eq_some, Option.some.injEq] at hm hn
    rw [← hm.2, ← hn.2]
  · cases hm

theorem same_string_iff {k : Value} {name : String} :
    k.same (.string name) = true ↔ k = .string name := by
  cases k <;> simp [same]

/-- A part that is found under its key is found by its name. -/
theorem lookup_of_fields? {v : Value} {form : Json.RecordForm} (hform : form.extensible = false)
    {fields : List (String × Value)} (h : v.fields? form = some fields)
    {entries : List (Value × Value)} (hv : v.untagged = .mapping entries)
    {name : String} {w : Value} (hw : (.string name, w) ∈ entries) :
    fields.lookup name = some w := by
  rw [fields?, hv] at h
  obtain ⟨_, hentries, h⟩ := Option.bind_eq_some_iff.mp h
  obtain rfl := Option.some.inj hentries
  obtain ⟨fields', hfields', h⟩ := Option.bind_eq_some_iff.mp h
  obtain ⟨⟨hnodup, hall⟩, hfields⟩ := Option.ite_none_right_eq_some.mp h
  obtain rfl := Option.some.inj hfields
  have hnames : (fields'.map (·.1)).filter form.names.contains = fields'.map (·.1) := by
    rw [List.filter_eq_self]
    rw [hform, Bool.false_or, List.all_eq_true] at hall
    intro name hname
    obtain ⟨field, hfield, rfl⟩ := List.mem_map.mp hname
    exact hall field hfield
  rw [hnames] at hnodup
  rw [lookup_eq_some_iff_mem hnodup]
  exact Option.mem_of_mapM_eq_some hfields' hw rfl

end Yaml.Value

theorem NodeRule.fits_of_decode? {v : Yaml.Value} {r : NodeRule}
    (h : NodeRule.decode? v = some r) : r.Fits := by
  obtain ⟨fields, -, h⟩ := Option.bind_eq_some_iff.mp h
  obtain ⟨kind, -, h⟩ := Option.bind_eq_some_iff.mp h
  obtain ⟨i, hi, h⟩ := Option.bind_eq_some_iff.mp h
  obtain rfl := Option.some.inj h
  exact of_withDefault (· < UInt64.size) (by decide) (fun _ _ => Yaml.Value.natBelow?_lt) hi

theorem LanguageRules.fits_of_decode? {v : Yaml.Value} {r : LanguageRules}
    (h : LanguageRules.decode? v = some r) : r.Fits := by
  have hrules : ∀ (v : Yaml.Value) (rules : List NodeRule),
      list? NodeRule.decode? v = some rules → ∀ rule ∈ rules, rule.Fits :=
    fun _ _ => forall_of_list? fun _ _ => NodeRule.fits_of_decode?
  obtain ⟨fields, -, h⟩ := Option.bind_eq_some_iff.mp h
  obtain ⟨name, -, h⟩ := Option.bind_eq_some_iff.mp h
  obtain ⟨typeDefinitions, htypes, h⟩ := Option.bind_eq_some_iff.mp h
  obtain ⟨callables, hcallables, h⟩ := Option.bind_eq_some_iff.mp h
  obtain ⟨singletons, hsingletons, h⟩ := Option.bind_eq_some_iff.mp h
  obtain ⟨constants, hconstants, h⟩ := Option.bind_eq_some_iff.mp h
  obtain ⟨calls, hcalls, h⟩ := Option.bind_eq_some_iff.mp h
  obtain rfl := Option.some.inj h
  obtain ⟨v, -, hv⟩ := Option.bind_eq_some_iff.mp htypes
  obtain ⟨w, -, hw⟩ := Option.bind_eq_some_iff.mp hcallables
  exact ⟨hrules v _ hv, hrules w _ hw, of_withDefault _ nofun hrules hsingletons,
    of_withDefault _ nofun hrules hconstants, of_withDefault _ nofun hrules hcalls⟩

theorem LanguageRules.fits_ruby : ruby.Fits := by
  constructor <;> decide

namespace Settings

variable {s : Settings} {v : Yaml.Value}

/-- What is asked of the parts of settings holds of settings that have been read. -/
theorem of_decode? (h : Settings.decode? v = some s) :
    s.Fits ∧ ∃ fields, v.fields? form = some fields ∧
      ∃ n, withDefault fields "version" (Yaml.Value.natBelow? UInt32.size) 1 = some n ∧
        s.version = UInt32.ofNat n := by
  obtain ⟨fields, hfields, h⟩ := Option.bind_eq_some_iff.mp h
  obtain ⟨version, hversion, h⟩ := Option.bind_eq_some_iff.mp h
  obtain ⟨language, hlanguage, h⟩ := Option.bind_eq_some_iff.mp h
  obtain ⟨separator, -, h⟩ := Option.bind_eq_some_iff.mp h
  obtain ⟨outermost, -, h⟩ := Option.bind_eq_some_iff.mp h
  obtain ⟨extensions, -, h⟩ := Option.bind_eq_some_iff.mp h
  obtain ⟨excludedDirs, -, h⟩ := Option.bind_eq_some_iff.mp h
  obtain ⟨followLinks, -, h⟩ := Option.bind_eq_some_iff.mp h
  obtain ⟨treeSource, -, h⟩ := Option.bind_eq_some_iff.mp h
  obtain ⟨captureText, -, h⟩ := Option.bind_eq_some_iff.mp h
  obtain ⟨parallel, -, h⟩ := Option.bind_eq_some_iff.mp h
  obtain ⟨threads, hthreads, h⟩ := Option.bind_eq_some_iff.mp h
  obtain rfl := Option.some.inj h
  refine ⟨⟨?_, ?_⟩, fields, hfields, version, hversion, rfl⟩
  · exact of_withDefault _ LanguageRules.fits_ruby (fun _ _ => LanguageRules.fits_of_decode?)
      hlanguage
  · rintro n rfl
    rw [SettingsFormat.optional] at hthreads
    split at hthreads
    · cases hthreads
    · split at hthreads
      · cases hthreads
      · obtain ⟨n', hn', heq⟩ := Option.map_eq_some_iff.mp hthreads
        exact Option.some.inj heq ▸ Yaml.Value.natBelow?_lt hn'

/-- Settings that have been read from a document of the right version have this version. -/
theorem version_of_decode? (hversion : checkVersion v = .ok ()) (h : Settings.decode? v = some s) :
    s.version = 1 := by
  obtain ⟨-, fields, hfields, n, hn, hs⟩ := of_decode? h
  rw [checkVersion] at hversion
  split at hversion
  · cases hversion
  next w hw =>
  split at hversion
  · cases hversion
  next m hm =>
  split at hversion
  · next hone =>
    rw [documentVersion?] at hw
    split at hw
    · next entries hentries =>
      obtain ⟨⟨k, w'⟩, hfind, rfl⟩ := Option.map_eq_some_iff.mp hw
      have hkey : k.same (.string "version") = true := by simpa using List.find?_some hfind
      obtain rfl := Yaml.Value.same_string_iff.mp hkey
      have hlookup := Yaml.Value.lookup_of_fields? rfl hfields hentries (List.mem_of_find?_eq_some hfind)
      have hn : w'.natBelow? UInt32.size = some n := by
        rw [withDefault, hlookup] at hn
        exact hn
      rw [hs, Yaml.Value.natBelow?_unique hn hm, hone]
      rfl
    · cases hw
  · cases hversion

end Settings

end CodeIndex
