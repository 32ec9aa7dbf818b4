import CodeIndex.Proofs.Yaml.Printable
import CodeIndex.Yaml.Tree

/-! # Trees of written values

The grammar makes the tree of a value from its tokens. Each function of the grammar goes through the
tokens of its part and leaves those behind them.
-/

namespace CodeIndex.Yaml

namespace Tree

mutual

def ofJson : Json.Value → Tree
  | .null => .scalar {} true "null"
  | .bool b => .scalar {} true (if b then "true" else "false")
  | .number n => .scalar {} true n.text
  | .string s => .scalar {} (Style.ofString s == .plain) s
  | .array items => .sequence {} (ofJsonItems items)
  | .object fields => .mapping {} (ofJsonFields fields)

def ofJsonItems : List Json.Value → List Tree
  | [] => []
  | x :: xs => ofJson x :: ofJsonItems xs

def ofJsonFields : List (String × Json.Value) → List (Tree × Tree)
  | [] => []
  | (name, x) :: fields => (.scalar {} true name, ofJson x) :: ofJsonFields fields

end

end Tree

/-! ## The first token -/

/-- Whether a token begins a value behind a dash, or else behind the name of a field. -/
def StartsValue (dash : Bool) (t : Token) : Prop :=
  t ∉ [.key, .value, .blockEnd] ∧ (dash = true → t ≠ .blockEntry)

theorem exists_startsValue (dash : Bool) (v : Json.Value) :
    ∃ t ts, valueTokens dash v = t :: ts ∧ StartsValue dash t := by
  unfold valueTokens
  split
  case h_7 x xs =>
    split
    · exact ⟨_, _, rfl, by decide, by simp⟩
    · next hdash => exact ⟨_, _, rfl, by decide, fun h => absurd h hdash⟩
  all_goals exact ⟨_, _, rfl, by simp [stringToken], by simp [stringToken]⟩

namespace ReadM

variable {fuel : Nat} {indentless : Bool} {t : Token} {ts rest : List Token}
  {handles : List (String × String)} {anchors : List (String × Nat)}

/-! ## Steps -/

theorem node_scalar (plain : Bool) (text : String) :
    node (fuel + 1) true indentless ⟨.scalar plain text :: rest, handles, anchors⟩ =
      .ok (.scalar {} plain text, ⟨rest, handles, anchors⟩) := by
  rw [node]
  rfl

theorem node_blockSequence :
    node (fuel + 1) true indentless ⟨.blockSequenceStart :: ts, handles, anchors⟩ =
      (blockItems fuel ⟨ts, handles, anchors⟩).map fun x => (.sequence {} x.1, x.2) := by
  rw [node]
  rfl

theorem node_indentless :
    node (fuel + 1) true true ⟨.blockEntry :: ts, handles, anchors⟩ =
      (indentlessItems fuel ⟨.blockEntry :: ts, handles, anchors⟩).map fun x =>
        (.sequence {} x.1, x.2) := by
  rw [node]
  rfl

theorem node_blockMapping :
    node (fuel + 1) true indentless ⟨.blockMappingStart :: ts, handles, anchors⟩ =
      (blockEntries fuel ⟨ts, handles, anchors⟩).map fun x => (.mapping {} x.1, x.2) := by
  rw [node]
  rfl

theorem node_emptySequence :
    node (fuel + 2) true indentless
      ⟨.flowSequenceStart :: .flowSequenceEnd :: rest, handles, anchors⟩ =
        .ok (.sequence {} [], ⟨rest, handles, anchors⟩) := by
  rw [node]
  rfl

theorem node_emptyMapping :
    node (fuel + 2) true indentless
      ⟨.flowMappingStart :: .flowMappingEnd :: rest, handles, anchors⟩ =
        .ok (.mapping {} [], ⟨rest, handles, anchors⟩) := by
  rw [node]
  rfl

theorem blockItems_cons (ht : StartsValue true t) :
    blockItems (fuel + 1) ⟨.blockEntry :: t :: ts, handles, anchors⟩ =
      node fuel true false ⟨t :: ts, handles, anchors⟩ >>= fun x =>
        (blockItems fuel x.2).map fun y => (x.1 :: y.1, y.2) := by
  rw [blockItems]
  cases t with
  | blockEntry => exact absurd rfl (ht.2 rfl)
  | blockEnd => simp [StartsValue] at ht
  | _ => rfl

theorem blockItems_end :
    blockItems (fuel + 1) ⟨.blockEnd :: rest, handles, anchors⟩ =
      .ok ([], ⟨rest, handles, anchors⟩) := by
  rw [blockItems]
  rfl

theorem indentlessItems_cons (ht : StartsValue true t) :
    indentlessItems (fuel + 1) ⟨.blockEntry :: t :: ts, handles, anchors⟩ =
      node fuel true false ⟨t :: ts, handles, anchors⟩ >>= fun x =>
        (indentlessItems fuel x.2).map fun y => (x.1 :: y.1, y.2) := by
  rw [indentlessItems]
  cases t with
  | blockEntry => exact absurd rfl (ht.2 rfl)
  | key | value | blockEnd => simp [StartsValue] at ht
  | _ => rfl

theorem indentlessItems_end (h : rest.head? ≠ some .blockEntry) :
    indentlessItems (fuel + 1) ⟨rest, handles, anchors⟩ = .ok ([], ⟨rest, handles, anchors⟩) := by
  rw [indentlessItems]
  cases rest with
  | nil => rfl
  | cons t rest =>
    cases t with
    | blockEntry => exact absurd rfl h
    | _ => rfl

theorem blockEntries_cons (name : String) (ht : StartsValue false t) :
    blockEntries (fuel + 2) ⟨.key :: .scalar true name :: .value :: t :: ts, handles, anchors⟩ =
      node fuel true true ⟨t :: ts, handles, anchors⟩ >>= fun x =>
        (blockEntries (fuel + 1) x.2).map fun y => ((.scalar {} true name, x.1) :: y.1, y.2) := by
  rw [blockEntries]
  cases t with
  | key | value | blockEnd => simp [StartsValue] at ht
  | _ => rfl

theorem blockEntries_end :
    blockEntries (fuel + 1) ⟨.blockEnd :: rest, handles, anchors⟩ =
      .ok ([], ⟨rest, handles, anchors⟩) := by
  rw [blockEntries]
  rfl

/-! ## Values -/

/-- What has to hold so that the tokens of a value are read as its tree. -/
def Parses (v : Json.Value) : Prop :=
  ∀ ⦃fuel : Nat⦄ ⦃dash : Bool⦄ ⦃rest : List Token⦄ ⦃handles : List (String × String)⦄
    ⦃anchors : List (String × Nat)⦄, 3 * (valueTokens dash v).length ≤ fuel →
      (dash = false → rest.head? ≠ some .blockEntry) →
        node fuel true (!dash) ⟨valueTokens dash v ++ rest, handles, anchors⟩ =
          .ok (.ofJson v, ⟨rest, handles, anchors⟩)

def ParsesItems (xs : List Json.Value) : Prop :=
  ∀ ⦃fuel : Nat⦄ ⦃rest : List Token⦄ ⦃handles : List (String × String)⦄
    ⦃anchors : List (String × Nat)⦄, 1 ≤ fuel → 3 * (itemsTokens xs).length ≤ fuel + 1 →
      blockItems fuel ⟨itemsTokens xs ++ .blockEnd :: rest, handles, anchors⟩ =
          .ok (Tree.ofJsonItems xs, ⟨rest, handles, anchors⟩) ∧
        (rest.head? ≠ some .blockEntry →
          indentlessItems fuel ⟨itemsTokens xs ++ rest, handles, anchors⟩ =
            .ok (Tree.ofJsonItems xs, ⟨rest, handles, anchors⟩))

def ParsesFields (fields : List (String × Json.Value)) : Prop :=
  ∀ ⦃fuel : Nat⦄ ⦃rest : List Token⦄ ⦃handles : List (String × String)⦄
    ⦃anchors : List (String × Nat)⦄, 1 ≤ fuel → 3 * (fieldsTokens fields).length ≤ fuel + 1 →
      blockEntries fuel ⟨fieldsTokens fields ++ .blockEnd :: rest, handles, anchors⟩ =
        .ok (Tree.ofJsonFields fields, ⟨rest, handles, anchors⟩)

theorem parsesItems_nil : ParsesItems [] := by
  intro fuel rest handles anchors hfuel _
  obtain ⟨fuel, rfl⟩ : ∃ n, fuel = n + 1 := ⟨fuel - 1, by omega⟩
  exact ⟨blockItems_end, fun h => indentlessItems_end h⟩

theorem parsesItems_cons {x : Json.Value} {xs : List Json.Value} (hx : Parses x)
    (hxs : ParsesItems xs) : ParsesItems (x :: xs) := by
  intro fuel rest handles anchors hfuel hlength
  rw [itemsTokens, List.length_cons, List.length_append] at hlength
  obtain ⟨fuel, rfl⟩ : ∃ n, fuel = n + 1 := ⟨fuel - 1, by omega⟩
  obtain ⟨t, ts, hstart, ht⟩ := exists_startsValue true x
  have hitem : ∀ rest, node fuel true false ⟨t :: (ts ++ rest), handles, anchors⟩ =
      .ok (.ofJson x, ⟨rest, handles, anchors⟩) := fun rest => by
    have hnode := @hx fuel true rest handles anchors (by omega) (fun h => Bool.noConfusion h)
    rwa [hstart] at hnode
  have hitems := fun rest => @hxs fuel rest handles anchors (by omega) (by omega)
  rw [itemsTokens, hstart, Tree.ofJsonItems]
  simp only [List.cons_append, List.append_assoc]
  refine ⟨?_, fun hrest => ?_⟩
  · rw [blockItems_cons ht, hitem]
    simp only [bind, Except.bind, (hitems rest).1]
    rfl
  · rw [indentlessItems_cons ht, hitem]
    simp only [bind, Except.bind, (hitems rest).2 hrest]
    rfl

theorem parsesFields_nil : ParsesFields [] := by
  intro fuel rest handles anchors hfuel _
  obtain ⟨fuel, rfl⟩ : ∃ n, fuel = n + 1 := ⟨fuel - 1, by omega⟩
  exact blockEntries_end

theorem parsesFields_cons {name : String} {x : Json.Value} {fields : List (String × Json.Value)}
    (hx : Parses x) (hfields : ParsesFields fields) : ParsesFields ((name, x) :: fields) := by
  intro fuel rest handles anchors hfuel hlength
  rw [fieldsTokens, List.length_cons, List.length_cons, List.length_cons, List.length_append]
    at hlength
  obtain ⟨fuel, rfl⟩ : ∃ n, fuel = n + 2 := ⟨fuel - 2, by omega⟩
  obtain ⟨t, ts, hstart, ht⟩ := exists_startsValue false x
  have hends : (fieldsTokens fields ++ .blockEnd :: rest).head? ≠ some .blockEntry := by
    cases fields <;> simp [fieldsTokens]
  have hvalue : node fuel true true
      ⟨t :: (ts ++ (fieldsTokens fields ++ .blockEnd :: rest)), handles, anchors⟩ =
        .ok (.ofJson x, ⟨fieldsTokens fields ++ .blockEnd :: rest, handles, anchors⟩) := by
    have hnode := @hx fuel false (fieldsTokens fields ++ .blockEnd :: rest) handles anchors
      (by omega) fun _ => hends
    rwa [hstart] at hnode
  have hentries := @hfields (fuel + 1) rest handles anchors (by omega) (by omega)
  rw [fieldsTokens, hstart, Tree.ofJsonFields]
  simp only [List.cons_append, List.append_assoc]
  rw [blockEntries_cons name ht, hvalue]
  simp only [bind, Except.bind, hentries]
  rfl

theorem parses_array {x : Json.Value} {xs : List Json.Value} (hitems : ParsesItems (x :: xs)) :
    Parses (.array (x :: xs)) := by
  intro fuel dash rest handles anchors hfuel hrest
  cases dash with
  | true =>
    rw [valueTokens, if_pos rfl, List.length_cons, List.length_append] at hfuel
    obtain ⟨fuel, rfl⟩ : ∃ n, fuel = n + 1 := ⟨fuel - 1, by omega⟩
    have hblock := (@hitems fuel rest handles anchors (by omega) (by omega)).1
    rw [valueTokens, if_pos rfl, List.cons_append, List.append_assoc, node_blockSequence]
    exact congrArg (Except.map _) hblock
  | false =>
    rw [valueTokens, if_neg Bool.false_ne_true] at hfuel ⊢
    have hlength : 1 ≤ (itemsTokens (x :: xs)).length := Nat.succ_pos _
    obtain ⟨fuel, rfl⟩ : ∃ n, fuel = n + 1 := ⟨fuel - 1, by omega⟩
    have hlist := (@hitems fuel rest handles anchors (by omega) (by omega)).2 (hrest rfl)
    exact node_indentless.trans (congrArg (Except.map _) hlist)

theorem parses_object {field : String × Json.Value} {fields : List (String × Json.Value)}
    (hfields : ParsesFields (field :: fields)) : Parses (.object (field :: fields)) := by
  intro fuel dash rest handles anchors hfuel _
  rw [valueTokens, List.length_cons, List.length_append] at hfuel
  obtain ⟨fuel, rfl⟩ : ∃ n, fuel = n + 1 := ⟨fuel - 1, by omega⟩
  have hblock := @hfields fuel rest handles anchors (by omega) (by omega)
  rw [valueTokens, List.cons_append, List.append_assoc, node_blockMapping]
  exact congrArg (Except.map _) hblock

theorem parses_scalar {v : Json.Value} {plain : Bool} {text : String}
    (htokens : ∀ dash, valueTokens dash v = [.scalar plain text])
    (htree : Tree.ofJson v = .scalar {} plain text) : Parses v := by
  intro fuel dash rest handles anchors hfuel _
  rw [htokens] at hfuel ⊢
  obtain ⟨fuel, rfl⟩ : ∃ n, fuel = n + 1 := ⟨fuel - 1, by simp at hfuel; omega⟩
  rw [htree]
  exact node_scalar plain text

theorem parses_brackets {v : Json.Value} {ts : List Token}
    (htokens : ∀ dash, valueTokens dash v = ts) (hlength : 1 ≤ ts.length)
    (hnode : ∀ fuel indentless rest handles anchors,
      node (fuel + 2) true indentless ⟨ts ++ rest, handles, anchors⟩ =
        .ok (.ofJson v, ⟨rest, handles, anchors⟩)) : Parses v := by
  intro fuel dash rest handles anchors hfuel _
  rw [htokens] at hfuel ⊢
  obtain ⟨fuel, rfl⟩ : ∃ n, fuel = n + 2 := ⟨fuel - 2, by omega⟩
  exact hnode fuel (!dash) rest handles anchors

mutual

/-- The tokens of a value are read as its tree. -/
theorem parses_valueTokens : ∀ v : Json.Value, Parses v
  | .null => parses_scalar (fun _ => by rw [valueTokens]) rfl
  | .bool _ => parses_scalar (fun _ => by rw [valueTokens]) rfl
  | .number _ => parses_scalar (fun _ => by rw [valueTokens]) rfl
  | .string _ => parses_scalar (fun _ => by rw [valueTokens, stringToken]) rfl
  | .array [] => parses_brackets (fun _ => by rw [valueTokens]) (by decide)
      fun _ _ _ _ _ => node_emptySequence
  | .object [] => parses_brackets (fun _ => by rw [valueTokens]) (by decide)
      fun _ _ _ _ _ => node_emptyMapping
  | .array (x :: xs) => parses_array (parsesItems_itemsTokens (x :: xs))
  | .object (field :: fields) => parses_object (parsesFields_fieldsTokens (field :: fields))

theorem parsesItems_itemsTokens : ∀ xs : List Json.Value, ParsesItems xs
  | [] => parsesItems_nil
  | x :: xs => parsesItems_cons (parses_valueTokens x) (parsesItems_itemsTokens xs)

theorem parsesFields_fieldsTokens : ∀ fields : List (String × Json.Value), ParsesFields fields
  | [] => parsesFields_nil
  | (_, x) :: fields => parsesFields_cons (parses_valueTokens x) (parsesFields_fieldsTokens fields)

end

end ReadM

/-! ## Documents -/

/-- A document that begins with a mapping has its tree. -/
theorem ReadM.document_blockMapping {fuel : Nat} {ts : List Token} {tree : Tree}
    (h : node (fuel + 1) true false ⟨.blockMappingStart :: ts, standardHandles, []⟩ =
      .ok (tree, ⟨[], standardHandles, []⟩)) :
    document (fuel + 1) ⟨.blockMappingStart :: ts, [], []⟩ =
      .ok (tree, ⟨[], standardHandles, []⟩) := by
  have hdirectives :
      (directives (fuel + 1) false).run ⟨.blockMappingStart :: ts, [], []⟩ =
        pure ((), ⟨.blockMappingStart :: ts, [], []⟩) := rfl
  have hnode : (node (fuel + 1) true false).run ⟨.blockMappingStart :: ts, standardHandles, []⟩ =
      pure (tree, ⟨[], standardHandles, []⟩) := h
  change (document (fuel + 1)).run _ = pure _
  simp [document, peek, hdirectives, hnode]

theorem Tree.read_print {fields : List (String × Json.Value)} (hne : fields ≠ [])
    (h : IsWritable (.object fields)) :
    Tree.read (print (.object fields)) = .ok (.ofJson (.object fields)) := by
  obtain ⟨field, fields, rfl⟩ := List.exists_cons_of_ne_nil hne
  have hnode := @ReadM.parses_valueTokens (.object (field :: fields))
    (3 * (valueTokens true (.object (field :: fields))).length + 3) true [] ReadM.standardHandles []
    (Nat.le_add_right _ _) (fun h => Bool.noConfusion h)
  rw [List.append_nil, valueTokens] at hnode
  rw [Tree.read, tokens_print hne h]
  exact congrArg (Except.map (·.1)) (ReadM.document_blockMapping hnode)

end CodeIndex.Yaml
