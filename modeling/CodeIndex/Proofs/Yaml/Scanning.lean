import CodeIndex.Proofs.Yaml.Literal

/-! # Scanners between tokens

Before each token a scanner passes over the gap, forgets the keys that are too far back and closes
blocks. Two scanners that are the same after this preparation find the same tokens, and so a text
can be scanned from the beginning of any of its lines, whatever came before.
-/

namespace CodeIndex.Yaml

open Style

/-! ## Positions -/

structure Position where
  line : Nat
  column : Nat
  index : Nat

namespace Position

variable {p : Position} {c : Char} {cs : List Char}

def next (p : Position) (c : Char) : Position :=
  if isBreak c then ⟨p.line + 1, 0, p.index + 1⟩ else ⟨p.line, p.column + 1, p.index + 1⟩

def after (p : Position) (cs : List Char) : Position :=
  cs.foldl next p

theorem next_of_not_isBreak (hc : isBreak c = false) :
    p.next c = ⟨p.line, p.column + 1, p.index + 1⟩ := by
  rw [next, hc, if_neg Bool.false_ne_true]

theorem next_of_isBreak (hc : isBreak c = true) : p.next c = ⟨p.line + 1, 0, p.index + 1⟩ := by
  rw [next, hc, if_pos rfl]

theorem line_le_next (p : Position) (c : Char) : p.line ≤ (p.next c).line := by
  cases hc : isBreak c with
  | true => exact next_of_isBreak hc ▸ Nat.le_succ p.line
  | false => exact next_of_not_isBreak hc ▸ Nat.le_refl p.line

theorem line_le_after (p : Position) (cs : List Char) : p.line ≤ (p.after cs).line := by
  induction cs generalizing p with
  | nil => exact Nat.le_refl _
  | cons c cs ih => exact Nat.le_trans (line_le_next p c) (ih (p.next c))

theorem after_append (p : Position) (cs ds : List Char) :
    p.after (cs ++ ds) = (p.after cs).after ds :=
  List.foldl_append

theorem after_of_line (p : Position) (hcs : ∀ c ∈ cs, isBreak c = false) :
    p.after cs = ⟨p.line, p.column + cs.length, p.index + cs.length⟩ := by
  induction cs generalizing p with
  | nil => rfl
  | cons c cs ih =>
    obtain ⟨hc, hcs⟩ := List.forall_mem_cons.mp hcs
    rw [after, List.foldl_cons, ← after, ih (p.next c) hcs, next_of_not_isBreak hc,
      List.length_cons]
    simp only [Position.mk.injEq, true_and]
    omega

theorem after_indentation (p : Position) (n : Nat) :
    p.after (indentation n) = ⟨p.line, p.column + n, p.index + n⟩ := by
  rw [p.after_of_line, indentation, List.length_replicate]
  intro c hc
  obtain rfl := List.eq_of_mem_replicate hc
  rfl

end Position

/-! ## Scanners outside brackets -/

structure Blocks where
  /-- The tokens so far, in reverse. -/
  tokens : List Token
  indent : Int
  outerIndents : List Int

namespace Blocks

/-- The scanner that goes on from a position with the text that is left. -/
def scanner (b : Blocks) (p : Position) (rest : List Char) (keyPlaces : List (Option KeyPlace))
    (keyAllowed : Bool) : Scanner :=
  { rest, line := p.line, column := p.column, index := p.index, tokens := b.tokens
    indent := b.indent, outerIndents := b.outerIndents, keyPlaces, keyAllowed }

def push (b : Blocks) (t : Token) : Blocks :=
  { b with tokens := t :: b.tokens }

/-- The blocks after a token at a column that opens one if it lies to the right. -/
def opened (b : Blocks) (column : Nat) (t : Token) : Blocks :=
  if column ≤ b.indent then b
  else { tokens := t :: b.tokens, indent := column, outerIndents := b.indent :: b.outerIndents }

theorem opened_of_le {b : Blocks} {column : Nat} {t : Token} (h : column ≤ b.indent) :
    b.opened column t = b :=
  if_pos h

theorem opened_of_lt {b : Blocks} {column : Nat} {t : Token} (h : b.indent < column) :
    b.opened column t =
      { tokens := t :: b.tokens, indent := column, outerIndents := b.indent :: b.outerIndents } :=
  if_neg (by omega)

end Blocks

namespace Scanner

variable {b : Blocks} {p : Position} {c : Char} {cs rest : List Char} {ts : List Token}
  {places : List (Option KeyPlace)} {place : Option KeyPlace} {allowed : Bool} {s s' r : Scanner}
  {n : Nat}

theorem advance_scanner :
    (b.scanner p (c :: rest) places allowed).advance =
      b.scanner (p.next c) rest places allowed := by
  rw [Position.next]
  cases hc : isBreak c <;> simp only [Blocks.scanner, advance, hc] <;> rfl

theorem advanceBy_scanner (cs : List Char) :
    (b.scanner p (cs ++ rest) places allowed).advanceBy cs.length =
      b.scanner (p.after cs) rest places allowed := by
  induction cs generalizing p with
  | nil => rfl
  | cons c cs ih =>
    rw [List.length_cons, advanceBy, List.cons_append, advance_scanner, ih]
    rfl

/-- A scanner that moves on to the rest of a text is behind what came before. -/
theorem moveTo_scanner (cs : List Char) :
    (b.scanner p (cs ++ rest) places allowed).moveTo rest =
      b.scanner (p.after cs) rest places allowed := by
  have hlength : (cs ++ rest).length - rest.length = cs.length := by
    rw [List.length_append, Nat.add_sub_cancel]
  rw [moveTo]
  exact (congrArg _ hlength).trans (advanceBy_scanner cs)

/-! ## Preparation -/

/-- What comes before each token. -/
def prepare (s : Scanner) : Except Problem Scanner := do
  let s ← (s.skipGap (s.rest.length + 1)).dropStaleKeys
  return s.closeBlocks s.column

theorem length_rest_advance (s : Scanner) : s.advance.rest.length ≤ s.rest.length := by
  rw [advance]
  split
  · exact Nat.le_refl _
  · next c rest h =>
    rw [h]
    split <;> exact Nat.le_succ _

theorem length_rest_advanceBy (s : Scanner) (n : Nat) :
    (s.advanceBy n).rest.length ≤ s.rest.length := by
  induction n generalizing s with
  | zero => exact Nat.le_refl _
  | succ n ih => exact Nat.le_trans (ih s.advance) s.length_rest_advance

theorem length_rest_skipGap (fuel : Nat) (s : Scanner) :
    (s.skipGap fuel).rest.length ≤ s.rest.length := by
  induction fuel generalizing s with
  | zero => exact Nat.le_refl _
  | succ fuel ih =>
    rw [skipGap]
    split
    · exact Nat.le_refl _
    · split
      · exact Nat.le_trans (ih _) s.length_rest_advance
      split
      · exact Nat.le_trans (ih _) (s.length_rest_advanceBy _)
      split
      · exact Nat.le_trans (ih _) s.length_rest_advance
      · exact Nat.le_refl _

theorem length_rest_prepare (h : s.prepare = .ok r) : r.rest.length ≤ s.rest.length := by
  have hrest : ∀ (s : Scanner) (column : Int), (s.closeBlocks column).rest = s.rest := by
    intro s column
    rw [closeBlocks]
    split
    · rfl
    · dsimp only
      split <;> rfl
  have hskip := length_rest_skipGap (s.rest.length + 1) s
  rw [prepare, dropStaleKeys] at h
  split at h
  · cases h
  · cases h
    rw [hrest]
    exact hskip

theorem run_error {problem : Problem} (h : s.prepare = .error problem) (fuel : Nat) :
    s.run (fuel + 1) = .error problem := by
  rw [prepare] at h
  rw [run]
  cases hs : (s.skipGap (s.rest.length + 1)).dropStaleKeys with
  | error problem' =>
    rw [hs] at h
    obtain rfl := Except.error.inj h
    rfl
  | ok r' =>
    rw [hs] at h
    cases h

theorem run_cons (h : s.prepare = .ok r) (hr : r.rest = c :: rest) (fuel : Nat) :
    s.run (fuel + 1) = (r.token c rest >>= fun s => s.run fuel) := by
  rw [prepare] at h
  rw [run]
  cases hs : (s.skipGap (s.rest.length + 1)).dropStaleKeys with
  | error problem =>
    rw [hs] at h
    cases h
  | ok r' =>
    rw [hs] at h
    obtain rfl := Except.ok.inj h
    simp only [bind, Except.bind, hr]

theorem run_nil (h : s.prepare = .ok r) (hr : r.rest = []) (fuel : Nat) :
    s.run (fuel + 1) =
      ((r.closeBlocks (-1)).forgetKey >>= fun s => Except.ok s.tokens.reverse) := by
  rw [prepare] at h
  rw [run]
  cases hs : (s.skipGap (s.rest.length + 1)).dropStaleKeys with
  | error problem =>
    rw [hs] at h
    cases h
  | ok r' =>
    rw [hs] at h
    obtain rfl := Except.ok.inj h
    simp only [bind, Except.bind, hr]
    rfl

/-- What scanning gives depends on the scanner after preparation only. -/
theorem run_eq_of_prepare_eq (h : s.prepare = s'.prepare) (fuel : Nat) :
    s.run fuel = s'.run fuel := by
  cases fuel with
  | zero => rfl
  | succ fuel =>
    cases hs : s.prepare with
    | error problem => rw [run_error hs, run_error (h.symm.trans hs)]
    | ok r =>
      cases hr : r.rest with
      | nil => rw [run_nil hs hr, run_nil (h.symm.trans hs) hr]
      | cons c rest => rw [run_cons hs hr, run_cons (h.symm.trans hs) hr]

/-- Whether the tokens of the whole text are `ts`, with steps enough for what is left of it. -/
def Runs (s : Scanner) (ts : List Token) : Prop :=
  ∃ r, s.prepare = .ok r ∧ ∀ fuel, r.rest.length < fuel → s.run fuel = .ok ts

theorem Runs.run_eq (h : s.Runs ts) {fuel : Nat} (hfuel : s.rest.length < fuel) :
    s.run fuel = .ok ts := by
  obtain ⟨r, hr, hrun⟩ := h
  exact hrun fuel (Nat.lt_of_le_of_lt (length_rest_prepare hr) hfuel)

theorem Runs.of_prepare_eq (h : s'.Runs ts) (heq : s.prepare = s'.prepare) : s.Runs ts := by
  obtain ⟨r, hr, hrun⟩ := h
  exact ⟨r, heq.trans hr, fun fuel hfuel => (run_eq_of_prepare_eq heq fuel).trans (hrun fuel hfuel)⟩

theorem Runs.of_token (h : s'.Runs ts) (hs : s.prepare = .ok r) (hr : r.rest = c :: rest)
    (htoken : r.token c rest = .ok s') (hlength : s'.rest.length ≤ rest.length) : s.Runs ts := by
  refine ⟨r, hs, fun fuel hfuel => ?_⟩
  rw [hr, List.length_cons] at hfuel
  obtain ⟨fuel, rfl⟩ : ∃ n, fuel = n + 1 := ⟨fuel - 1, by omega⟩
  rw [run_cons hs hr, htoken]
  exact h.run_eq (by omega)

/-! ## Gaps -/

theorem prepare_space :
    (b.scanner p (' ' :: rest) places allowed).prepare =
      (b.scanner (p.next ' ') rest places allowed).prepare := by
  have hskip : ∀ fuel, (b.scanner p (' ' :: rest) places allowed).skipGap (fuel + 1) =
      (b.scanner (p.next ' ') rest places allowed).skipGap fuel := fun _ => rfl
  exact congrArg (· >>= _) (congrArg dropStaleKeys (hskip (rest.length + 1)))

theorem prepare_indentation (n : Nat) :
    (b.scanner p (indentation n ++ rest) places allowed).prepare =
      (b.scanner (p.after (indentation n)) rest places allowed).prepare := by
  induction n generalizing p with
  | zero => rfl
  | succ n ih => exact prepare_space.trans ih

theorem prepare_newline :
    (b.scanner p ('\n' :: rest) [place] allowed).prepare =
      (b.scanner (p.next '\n') rest [place] true).prepare := by
  have hskip : ∀ fuel, (b.scanner p ('\n' :: rest) [place] allowed).skipGap (fuel + 1) =
      (b.scanner (p.next '\n') rest [place] true).skipGap fuel := by
    intro fuel
    cases allowed <;> rfl
  exact congrArg (· >>= _) (congrArg dropStaleKeys (hskip (rest.length + 1)))

theorem skipGap_of_atToken (h : AtToken p.column rest) (fuel : Nat) :
    (b.scanner p rest places allowed).skipGap fuel = b.scanner p rest places allowed := by
  cases fuel with
  | zero => rfl
  | succ fuel =>
    cases rest with
    | nil => rfl
    | cons c rest =>
      obtain ⟨hblank, hbreak, hcomment, hmark⟩ := h.starts c rfl
      rw [isBlank, Bool.or_eq_false_iff] at hblank
      simp [skipGap, Blocks.scanner, hblank, hbreak, hcomment, hmark]

theorem prepare_of_atToken (h : AtToken p.column rest) :
    (b.scanner p rest places allowed).prepare =
      ((b.scanner p rest places allowed).dropStaleKeys >>= fun s => .ok (s.closeBlocks s.column)) := by
  rw [prepare, skipGap_of_atToken h]
  rfl

/-! ## Keys -/

def IsIdle (line : Nat) (place : Option KeyPlace) : Prop :=
  ∀ k ∈ place, k.required = false ∧ k.line ≤ line

theorem isIdle_none (line : Nat) : IsIdle line none := nofun

theorem IsIdle.mono {line line' : Nat} (h : IsIdle line place) (hline : line ≤ line') :
    IsIdle line' place :=
  fun k hk => ⟨(h k hk).1, Nat.le_trans (h k hk).2 hline⟩

def IsFresh (p : Position) (place : Option KeyPlace) : Prop :=
  ∀ k ∈ place, k.line = p.line ∧ p.index ≤ k.index + keyLimit

theorem dropStaleKeys_of_isFresh (h : ∀ place ∈ places, IsFresh p place) :
    (b.scanner p rest places allowed).dropStaleKeys = .ok (b.scanner p rest places allowed) := by
  have hstale : ∀ place ∈ places, ∀ k ∈ place,
      (b.scanner p rest places allowed).isStale k = false := by
    intro place hplace k hk
    obtain ⟨hline, hindex⟩ := h place hplace k hk
    rw [isStale, Bool.or_eq_false_iff, decide_eq_false_iff_not, decide_eq_false_iff_not]
    exact ⟨Nat.not_lt.mpr (Nat.le_of_eq hline.symm), Nat.not_lt.mpr hindex⟩
  have hany : (places.any fun place => place.any fun k =>
      (b.scanner p rest places allowed).isStale k && k.required) = false := by
    rw [List.any_eq_false]
    intro place hplace
    cases place with
    | none => exact Bool.false_ne_true
    | some k => simp [hstale _ hplace k rfl]
  have hmap : (places.map fun place => place.filter fun k =>
      !(b.scanner p rest places allowed).isStale k) = places := by
    refine (List.map_congr_left fun place hplace => ?_).trans (List.map_id places)
    cases place with
    | none => rfl
    | some k => simp [hstale _ hplace k rfl]
  have hkeys : (b.scanner p rest places allowed).keyPlaces = places := rfl
  rw [dropStaleKeys, hkeys, hany, hmap]
  rfl

theorem dropStaleKeys_of_isIdle {line : Nat} (h : IsIdle line place) (hline : line < p.line) :
    (b.scanner p rest [place] allowed).dropStaleKeys = .ok (b.scanner p rest [none] allowed) := by
  cases place with
  | none => exact dropStaleKeys_of_isFresh (by simp [IsFresh])
  | some k =>
    obtain ⟨hrequired, hk⟩ := h k rfl
    have hstale : (b.scanner p rest [some k] allowed).isStale k = true := by
      have hlt : k.line < (b.scanner p rest [some k] allowed).line := Nat.lt_of_le_of_lt hk hline
      rw [isStale, decide_eq_true hlt, Bool.true_or]
    have hkeys : (b.scanner p rest [some k] allowed).keyPlaces = [some k] := rfl
    rw [dropStaleKeys, hkeys]
    simp only [List.any_cons, List.any_nil, List.map_cons, List.map_nil, Option.any_some,
      Option.filter_some, hstale, hrequired]
    rfl

theorem prepare_of_isIdle {line : Nat} (hrest : AtToken p.column rest) (h : IsIdle line place)
    (hline : line < p.line) :
    (b.scanner p rest [place] allowed).prepare = (b.scanner p rest [none] allowed).prepare := by
  rw [prepare_of_atToken hrest, prepare_of_atToken hrest, dropStaleKeys_of_isIdle h hline,
    dropStaleKeys_of_isIdle (isIdle_none line) hline]

/-! ## Blocks -/

theorem closeBlocks_of_le {column : Nat} (h : b.indent ≤ column) :
    (b.scanner p rest places allowed).closeBlocks column = b.scanner p rest places allowed := by
  have hlt : decide ((column : Int) < b.indent) = false := decide_eq_false (by omega)
  simp [closeBlocks, Blocks.scanner, hlt]

theorem exists_dropWhile_eq_cons {column : Int} {indents : List Int}
    (h : ∃ i ∈ indents, i ≤ column) :
    ∃ i outer, indents.dropWhile (column < ·) = i :: outer := by
  induction indents with
  | nil =>
    obtain ⟨i, hi, -⟩ := h
    cases hi
  | cons i indents ih =>
    rw [List.dropWhile_cons]
    split
    · next hlt =>
      obtain ⟨j, hj, hle⟩ := h
      refine ih ⟨j, ?_, hle⟩
      rcases List.mem_cons.mp hj with rfl | hj
      · exact absurd (of_decide_eq_true hlt) (by omega)
      · exact hj
    · exact ⟨i, indents, rfl⟩

/-- A block that begins to the right of a column ends before what stands there. -/
theorem closeBlocks_of_lt {tokens : List Token} {indent indent' column : Int} {outer : List Int}
    (h : column < indent') (hbase : ∃ i ∈ indent :: outer, i ≤ column) :
    (Blocks.scanner ⟨tokens, indent', indent :: outer⟩ p rest [place] allowed).closeBlocks column =
      (Blocks.scanner ⟨.blockEnd :: tokens, indent, outer⟩ p rest [place] allowed).closeBlocks
        column := by
  obtain ⟨i, outer', hdrop⟩ := exists_dropWhile_eq_cons hbase
  have htake : (indent' :: indent :: outer).takeWhile (column < ·) =
      indent' :: (indent :: outer).takeWhile (column < ·) := by
    rw [List.takeWhile_cons, if_pos (decide_eq_true h)]
  have hdrop' : (indent' :: indent :: outer).dropWhile (column < ·) = i :: outer' := by
    rw [List.dropWhile_cons, if_pos (decide_eq_true h), hdrop]
  simp only [closeBlocks, Blocks.scanner, htake, hdrop, hdrop', List.length_cons,
    List.replicate_succ', List.append_assoc, List.singleton_append]
  rfl

/-! ## Lines -/

/-- Whether the tokens of the whole text are `ts` if `rest` is left from the beginning of a line. -/
def Continues (b : Blocks) (rest : List Char) (ts : List Token) : Prop :=
  ∀ p : Position, p.column = 0 → (b.scanner p rest [none] true).Runs ts

/-- A scanner behind the end of a line and the indentation of the next one. -/
theorem Continues.runs_of_break {e : Char}
    (h : Continues b (indentation n ++ rest) ts) (hrest : AtToken n rest) (he : isBreak e = true)
    (hplace : IsIdle p.line place) :
    (b.scanner ((p.next e).after (indentation n)) rest [place] true).Runs ts := by
  rw [Position.next_of_isBreak he]
  refine (h ⟨p.line + 1, 0, p.index + 1⟩ rfl).of_prepare_eq ?_
  rw [prepare_indentation]
  have hcolumn : (Position.after ⟨p.line + 1, 0, p.index + 1⟩ (indentation n)).column = n := by
    rw [Position.after_indentation, Nat.zero_add]
  refine prepare_of_isIdle (hcolumn.symm ▸ hrest) hplace ?_
  rw [Position.after_indentation]
  exact Nat.lt_succ_self _

theorem Continues.runs_of_newline (h : Continues b (indentation n ++ rest) ts)
    (hrest : AtToken n rest) (hplace : IsIdle p.line place) :
    (b.scanner p ('\n' :: (indentation n ++ rest)) [place] allowed).Runs ts :=
  (h.runs_of_break hrest rfl hplace).of_prepare_eq (prepare_newline.trans (prepare_indentation n))

/-- A block ends before a line that is not indented like it. -/
theorem Continues.of_blockEnd {tokens : List Token} {indent indent' : Int} {outer : List Int}
    (h : Continues ⟨.blockEnd :: tokens, indent, outer⟩ (indentation n ++ rest) ts)
    (hrest : AtToken n rest) (hn : n < indent') (hbase : -1 ∈ indent :: outer) :
    Continues ⟨tokens, indent', indent :: outer⟩ (indentation n ++ rest) ts := by
  intro p hp
  refine (h p hp).of_prepare_eq ?_
  have hcolumn : (p.after (indentation n)).column = n := by
    rw [Position.after_indentation, hp, Nat.zero_add]
  have hfresh : ∀ place ∈ [none], IsFresh (p.after (indentation n)) place := by simp [IsFresh]
  rw [prepare_indentation, prepare_indentation, prepare_of_atToken (hcolumn.symm ▸ hrest),
    prepare_of_atToken (hcolumn.symm ▸ hrest), dropStaleKeys_of_isFresh hfresh,
    dropStaleKeys_of_isFresh hfresh]
  refine congrArg Except.ok (closeBlocks_of_lt ?_ ⟨-1, hbase, by omega⟩)
  exact (congrArg (fun k : Nat => (k : Int) < indent') hcolumn).mpr hn

/-- The end of a text ends the block that began at the first column. -/
theorem continues_nil (tokens : List Token) :
    Continues ⟨tokens, 0, [-1]⟩ [] (tokens.reverse ++ [.blockEnd]) := by
  intro p hp
  have hprepare : (Blocks.scanner ⟨tokens, 0, [-1]⟩ p [] [none] true).prepare =
      .ok (Blocks.scanner ⟨tokens, 0, [-1]⟩ p [] [none] true) := by
    rw [prepare_of_atToken (hp.symm ▸ atToken_nil), dropStaleKeys_of_isFresh (by simp [IsFresh])]
    exact congrArg Except.ok (closeBlocks_of_le (Int.natCast_nonneg p.column))
  refine ⟨_, hprepare, fun fuel hfuel => ?_⟩
  obtain ⟨fuel, rfl⟩ : ∃ n, fuel = n + 1 := ⟨fuel - 1, by omega⟩
  rw [run_nil hprepare rfl]
  exact congrArg Except.ok (List.reverse_cons ..)

end Scanner

end CodeIndex.Yaml
