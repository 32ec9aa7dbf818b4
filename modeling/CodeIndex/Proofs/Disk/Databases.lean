import CodeIndex.Disk.Basic

/-! # Databases on a disk

Writing the rows of a database that is on a disk leaves everything else where it was, and a database
in its place. No way through the disk is changed by that, so an address that led to the database
still does, and opening it gives the rows that were written last.
-/

namespace CodeIndex

/-! ## Entries -/

namespace Entry

theorem lookup_withEntry (name : String) (e : Entry) (es : List (String × Entry))
    (other : String) :
    (withEntry name (some e) es).lookup other =
      if other = name then some e else es.lookup other := by
  induction es with
  | nil =>
    by_cases h : other = name
    · simp [withEntry, h]
    · simp [withEntry, List.lookup_cons, h, beq_eq_false_iff_ne.mpr h]
  | cons p es ih =>
    obtain ⟨first, below⟩ := p
    by_cases hf : first = name
    · subst hf
      by_cases h : other = first
      · simp [withEntry, h]
      · simp [withEntry, List.lookup_cons, h, beq_eq_false_iff_ne.mpr h]
    · rw [withEntry, if_neg hf, List.lookup_cons, List.lookup_cons, ih]
      by_cases h : other = first
      · simp [h, hf]
      · simp [beq_eq_false_iff_ne.mpr h]

@[simp] theorem entries_folder (es : List (String × Entry)) : (folder es).entries = es := rfl

theorem at?_cons (e : Entry) (name : String) (names : Location) :
    e.at? (name :: names) = (e.entries.lookup name).bind (·.at? names) := by
  rw [at?]
  cases e.entries.lookup name <;> rfl

theorem change_cons {e below : Entry} {name : String} (h : e.entries.lookup name = some below)
    (new : Entry) (names : Location) :
    e.change (some new) (name :: names) =
      folder (withEntry name (some (below.change (some new) names)) e.entries) := by
  cases names with
  | nil => rfl
  | cons next names => rw [change, h, Option.getD_some]; nofun

theorem at?_change (e new : Entry) (l : Location) : (e.change (some new) l).at? l = some new := by
  induction l generalizing e with
  | nil => rfl
  | cons name l ih =>
    cases l with
    | nil =>
      rw [change, at?_cons, entries_folder, lookup_withEntry, if_pos rfl]
      rfl
    | cons next l =>
      rw [change, at?_cons, entries_folder, lookup_withEntry, if_pos rfl]
      · exact ih _
      · nofun

theorem withEntry_withEntry (name : String) (e e' : Entry) (es : List (String × Entry)) :
    withEntry name (some e') (withEntry name (some e) es) = withEntry name (some e') es := by
  induction es with
  | nil => simp [withEntry]
  | cons p es ih =>
    obtain ⟨first, below⟩ := p
    by_cases hf : first = name
    · simp [withEntry, hf]
    · rw [withEntry, if_neg hf, withEntry, if_neg hf, ih, withEntry, if_neg hf]

theorem change_change (e new new' : Entry) (l : Location) :
    (e.change (some new) l).change (some new') l = e.change (some new') l := by
  have hstep : ∀ (e new : Entry) (name next : String) (l : Location),
      e.change (some new) (name :: next :: l) = folder (withEntry name
        (some (((e.entries.lookup name).getD (folder [])).change (some new) (next :: l)))
        e.entries) := by
    intro e new name next l
    rw [change]
    nofun
  induction l generalizing e with
  | nil => rfl
  | cons name l ih =>
    cases l with
    | nil => rw [change, change, change, entries_folder, withEntry_withEntry]
    | cons next l =>
      rw [hstep e new, hstep _ new', hstep e new', entries_folder, lookup_withEntry, if_pos rfl,
        Option.getD_some, ih, withEntry_withEntry]

/-- What a way through a disk depends on of an entry that it passes. -/
inductive Waypoint where
  | missing
  | folder
  | link (target : String)
  | other

def waypoint : Option Entry → Waypoint
  | none => .missing
  | some (.folder _) => .folder
  | some (.link target) => .link target
  | some _ => .other

/-- Rows that are put in place of others change no way. -/
theorem waypoint_change {e : Entry} {l : Location} {rows : Database}
    (h : e.at? l = some (.database rows)) (rows' : Database) (there : Location) :
    waypoint ((e.change (some (.database rows')) l).at? there) = waypoint (e.at? there) := by
  induction l generalizing e there with
  | nil =>
    obtain rfl : e = .database rows := Option.some.inj h
    cases there <;> rfl
  | cons name l ih =>
    rw [at?_cons] at h
    obtain ⟨below, hb, hl⟩ := Option.bind_eq_some_iff.mp h
    rw [change_cons hb]
    cases there with
    | nil =>
      cases e with
      | folder => rfl
      | file | database | link | device | program => cases hb
    | cons other there =>
      simp only [at?_cons, entries_folder, lookup_withEntry]
      split
      · next ho =>
        subst ho
        rw [hb]
        exact ih hl there
      · rfl

end Entry

/-! ## Ways -/

namespace Disk

open Entry

def SameWays (d d' : Disk) : Prop :=
  ∀ l, waypoint (d.root.at? l) = waypoint (d'.root.at? l)

theorem wayTo_cons (d : Disk) (links : Nat) (here : Location) (name : String)
    (rest : List String) :
    d.wayTo links here (name :: rest) =
      if name = "" ∨ name = "." then d.wayTo links here rest
      else if name = ".." then d.wayTo links here.dropLast rest
      else if maxName < name.utf8ByteSize then none
      else
        match waypoint (d.root.at? here), waypoint (d.root.at? (here ++ [name])), links with
        | .folder, .link _, 0 => none
        | .folder, .link target, links + 1 =>
          d.wayTo links (if Path.isAbsolute target then [] else here) (Path.names target ++ rest)
        | .folder, _, links | .missing, _, links => d.wayTo links (here ++ [name]) rest
        | _, _, _ => none := by
  rw [wayTo.eq_def]
  dsimp only
  split
  · rfl
  split
  · rfl
  split
  · rfl
  cases d.root.at? here with
  | none =>
    cases d.root.at? (here ++ [name]) with
    | none => rfl
    | some below => cases below <;> rfl
  | some e =>
    cases e with
    | folder =>
      cases d.root.at? (here ++ [name]) with
      | none => rfl
      | some below => cases below <;> cases links <;> rfl
    | file | database | link | device | program => rfl

theorem wayTo_congr {d d' : Disk} (h : d.SameWays d') :
    ∀ (links : Nat) (here : Location) (names : List String),
      d.wayTo links here names = d'.wayTo links here names
  | links, here, [] => by rw [wayTo, wayTo]
  | links, here, name :: rest => by
    rw [wayTo_cons, wayTo_cons, ← h here, ← h (here ++ [name])]
    split
    · exact wayTo_congr h links here rest
    split
    · exact wayTo_congr h links here.dropLast rest
    split
    · rfl
    split
    · rfl
    · exact wayTo_congr h _ _ _
    · exact wayTo_congr h _ _ rest
    · exact wayTo_congr h _ _ rest
    · rfl
termination_by links _ names => (links, names.length)

/-! ## Opening -/

theorem at?_put (d : Disk) (l : Location) (e : Entry) : (d.put l e).root.at? l = some e :=
  Entry.at?_change d.root e l

theorem put_put (d : Disk) (l : Location) (e e' : Entry) : (d.put l e).put l e' = d.put l e' :=
  congrArg Disk.mk (Entry.change_change d.root e e' l)

theorem openAt_database {d : Disk} {l : Location} {rows : Database} (a : DatabaseAddress)
    (h : d.root.at? l = some (.database rows)) :
    d.openAt a l = .ok (d, { rows, location := some l, fixed := a.access == .readOnly }) := by
  simp only [openAt, h]

/-- What is open is what is kept. -/
theorem of_openAt {d d' : Disk} {a : DatabaseAddress} {l : Location} {o : OpenDatabase}
    (h : d.openAt a l = .ok (d', o)) :
    d'.root.at? l = some (.database o.rows) ∧ o.location = some l ∧
      o.fixed = (a.access == .readOnly) := by
  -- where there is no database yet, an empty one is made unless that is refused
  have hfresh : ∀ {d' : Disk} {o : OpenDatabase},
      (if (a.access == .readOnly) = true then (.error .notWritable : Except StoreFault _)
        else .ok (d.put l (.database {}), { location := some l })) = .ok (d', o) →
      d'.root.at? l = some (.database o.rows) ∧ o.location = some l ∧
        o.fixed = (a.access == .readOnly) := by
    intro d' o h
    split at h
    · cases h
    · next hw =>
      cases h
      exact ⟨at?_put d l _, rfl, (eq_false_of_ne_true hw).symm⟩
  match hat : d.root.at? l with
  | some (.database rows) =>
    rw [openAt_database a hat] at h
    cases h
    exact ⟨hat, rfl, rfl⟩
  | some (.file []) | some (.file [_]) =>
    rw [openAt, hat] at h
    exact hfresh h
  | some (.file (_ :: _ :: _)) | some (.link _) | some (.folder _) | some .device |
    some (.program _) =>
    rw [openAt, hat] at h
    cases hd : d.root.at? l.dropLast with
    | none => rw [hd] at h; cases h
    | some e => rw [hd] at h; cases e <;> cases h
  | none =>
    rw [openAt, hat] at h
    cases hd : d.root.at? l.dropLast with
    | none => rw [hd] at h; cases h
    | some e =>
      rw [hd] at h
      cases e with
      | folder =>
        dsimp only at h
        split at h
        · exact hfresh h
        · cases h
      | file | database | link | device | program => cases h

/-- An address that leads to an open database does so whatever rows are kept there later. -/
theorem openDatabase_put {d : Disk} {cwd : Location} {text : String} {o : OpenDatabase}
    {l : Location} (h : d.openDatabase cwd text = .ok (d, o)) (hl : o.location = some l)
    (rows : Database) :
    (d.put l (.database rows)).openDatabase cwd text =
      .ok (d.put l (.database rows), { o with rows }) := by
  unfold openDatabase at h ⊢
  cases ha : DatabaseAddress.ofText? text with
  | none => simp only [ha] at h; cases h
  | some a =>
    simp only [ha] at h ⊢
    split at h
    · cases h
      cases hl
    · next ht =>
      rw [if_neg ht]
      split at h
      · cases h
      · next l' hway =>
        obtain ⟨hat, ho, hf⟩ := of_openAt h
        obtain rfl : l' = l := Option.some.inj (ho.symm.trans hl)
        have hsame : SameWays (d.put l' (.database rows)) d :=
          waypoint_change hat rows
        rw [wayTo_congr hsame, hway]
        dsimp only
        rw [openAt_database a (at?_put d l' _), ← ho, ← hf]

end Disk

end CodeIndex
