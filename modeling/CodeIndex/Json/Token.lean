import CodeIndex.Text.Octet

/-! # Tokens of JSON texts

A text is cut into tokens from left to right. A token that the end of the text interrupts is kept
as a token of its own, since what such a text lacks depends on where it stands. Strings keep their
escapes: the values of ignored strings are never decoded.
-/

namespace CodeIndex.Json

open Text

/-- A number as it is written, with its digits most significant first. -/
structure Numeral where
  negative : Bool
  whole : List Nat
  /-- The digits after the point, at least one where there is a point. -/
  fraction : List Nat
  /-- The exponent's sign and digits, `none` where there is no exponent. -/
  exponent : Option (Bool × List Nat)
deriving DecidableEq, Repr

inductive Token where
  | openObject
  | closeObject
  | openArray
  | closeArray
  | comma
  | colon
  | null
  | bool (b : Bool)
  | number (n : Numeral)
  /-- The octets between the quotes of a string. -/
  | string (raw : Octets)
  | cutWord
  | cutNumber
  /-- The octets after the opening quote of a string that is never closed. -/
  | cutString (raw : Octets)
  /-- Octets with which no token begins. -/
  | invalid
deriving DecidableEq, Repr

/-- What comes of reading one token. -/
inductive Scan (α : Type) where
  | whole (value : α) (rest : Octets)
  | cut
  | bad

def isBlank (b : UInt8) : Bool :=
  b == Octet.space || b == Octet.lineFeed || b == Octet.carriageReturn || b == Octet.tab

def digits : Octets → List Nat × Octets
  | [] => ([], [])
  | b :: rest =>
    match Octet.digit? b with
    | some d =>
      let (ds, rest') := digits rest
      (d :: ds, rest')
    | none => ([], b :: rest)

def someDigits (s : Octets) : Scan (List Nat) :=
  match digits s with
  | ([], []) => .cut
  | ([], _) => .bad
  | (ds, rest) => .whole ds rest

def exponentSign : Octets → Bool × Octets
  | Octet.plus :: rest => (false, rest)
  | Octet.minus :: rest => (true, rest)
  | rest => (false, rest)

def signedDigits (s : Octets) : Scan (Option (Bool × List Nat)) :=
  let (negative, s) := exponentSign s
  match someDigits s with
  | .whole ds rest => .whole (some (negative, ds)) rest
  | .cut => .cut
  | .bad => .bad

def exponent : Octets → Scan (Option (Bool × List Nat))
  | Octet.letterE :: rest | Octet.upperE :: rest => signedDigits rest
  | rest => .whole none rest

def fraction : Octets → Scan (List Nat)
  | Octet.point :: rest => someDigits rest
  | rest => .whole [] rest

/-- The digits before the point; a leading zero stands alone. -/
def wholePart : Octets → Scan (List Nat)
  | [] => .cut
  | b :: rest =>
    match Octet.digit? b with
    | none => .bad
    | some 0 => if (digits rest).1.isEmpty then .whole [0] rest else .bad
    | some d =>
      let (ds, rest') := digits rest
      .whole (d :: ds) rest'

def numeral (negative : Bool) (s : Octets) : Scan Numeral :=
  match wholePart s with
  | .cut => .cut
  | .bad => .bad
  | .whole whole rest =>
    match fraction rest with
    | .cut => .cut
    | .bad => .bad
    | .whole fraction rest =>
      match exponent rest with
      | .cut => .cut
      | .bad => .bad
      | .whole exponent rest => .whole ⟨negative, whole, fraction, exponent⟩ rest

/-- Reads the octets that are still missing of a keyword. -/
def keyword (value : Token) : Octets → Octets → Scan Token
  | [], rest => .whole value rest
  | _ :: _, [] => .cut
  | e :: expected, b :: rest => if b = e then keyword value expected rest else .bad

/-- The letters that may follow a backslash, apart from the one of numbered characters, and the
octet that each stands for. -/
def escape? : UInt8 → Option UInt8
  | Octet.quote => some Octet.quote
  | Octet.backslash => some Octet.backslash
  | Octet.slash => some Octet.slash
  | Octet.letterB => some 0x08
  | Octet.letterF => some 0x0C
  | Octet.letterN => some Octet.lineFeed
  | Octet.letterR => some Octet.carriageReturn
  | Octet.letterT => some Octet.tab
  | _ => none

/-- The number that four hexadecimal digits stand for. -/
def unit? (a b c d : UInt8) : Option Nat := do
  return (((← Octet.hexDigit? a) * 16 + (← Octet.hexDigit? b)) * 16
    + (← Octet.hexDigit? c)) * 16 + (← Octet.hexDigit? d)

/-- Reads the rest of a string; `read` holds, in reverse, what has been read of it. -/
def stringBody (read : Octets) : Octets → Token × Octets
  | [] => (.cutString read.reverse, [])
  | Octet.quote :: rest => (.string read.reverse, rest)
  | [Octet.backslash] => (.cutString (Octet.backslash :: read).reverse, [])
  | Octet.backslash :: Octet.letterU :: a :: b :: c :: d :: rest =>
    match unit? a b c d with
    | none => (.invalid, [])
    | some _ =>
      stringBody (d :: c :: b :: a :: Octet.letterU :: Octet.backslash :: read) rest
  | Octet.backslash :: Octet.letterU :: rest =>
    (.cutString (read.reverse ++ Octet.backslash :: Octet.letterU :: rest), [])
  | Octet.backslash :: e :: rest =>
    match escape? e with
    | none => (.invalid, [])
    | some _ => stringBody (e :: Octet.backslash :: read) rest
  | b :: rest => if b < Octet.space then (.invalid, []) else stringBody (b :: read) rest

/-- Reads the token that begins with `b`. Nothing is left to read behind a token that ends the
text early. -/
def scanToken (b : UInt8) (rest : Octets) : Token × Octets :=
  match b with
  | Octet.openBrace => (.openObject, rest)
  | Octet.closeBrace => (.closeObject, rest)
  | Octet.openBracket => (.openArray, rest)
  | Octet.closeBracket => (.closeArray, rest)
  | Octet.comma => (.comma, rest)
  | Octet.colon => (.colon, rest)
  | Octet.quote => stringBody [] rest
  | Octet.letterN => word .null [Octet.letterU, Octet.letterL, Octet.letterL]
  | Octet.letterT => word (.bool true) [Octet.letterR, Octet.letterU, Octet.letterE]
  | Octet.letterF =>
    word (.bool false) [Octet.letterA, Octet.letterL, Octet.letterS, Octet.letterE]
  | Octet.minus => number (numeral true rest)
  | _ => number (numeral false (b :: rest))
where
  word (value : Token) (expected : Octets) : Token × Octets :=
    match keyword value expected rest with
    | .whole t rest' => (t, rest')
    | .cut => (.cutWord, [])
    | .bad => (.invalid, [])
  number : Scan Numeral → Token × Octets
    | .whole n rest' => (.number n, rest')
    | .cut => (.cutNumber, [])
    | .bad => (.invalid, [])

/-! ## Every token takes an octet -/

theorem digits_length (s : Octets) : (digits s).2.length ≤ s.length := by
  induction s with
  | nil => simp [digits]
  | cons b rest ih =>
    unfold digits
    split
    · simp only [List.length_cons]; omega
    · simp

theorem someDigits_length {s rest : Octets} {ds : List Nat} (h : someDigits s = .whole ds rest) :
    rest.length ≤ s.length := by
  have hd := digits_length s
  unfold someDigits at h
  split at h
  · cases h
  · cases h
  · next hs => cases h; simpa [hs] using hd

theorem exponentSign_length (s : Octets) : (exponentSign s).2.length ≤ s.length := by
  unfold exponentSign
  split <;> simp

theorem signedDigits_length {s rest : Octets} {e : Option (Bool × List Nat)}
    (h : signedDigits s = .whole e rest) : rest.length ≤ s.length := by
  have hs := exponentSign_length s
  simp only [signedDigits] at h
  split at h
  · next hd =>
    cases h
    exact Nat.le_trans (someDigits_length hd) hs
  · cases h
  · cases h

theorem exponent_length {s rest : Octets} {e : Option (Bool × List Nat)}
    (h : exponent s = .whole e rest) : rest.length ≤ s.length := by
  unfold exponent at h
  split at h
  · exact Nat.le_succ_of_le (signedDigits_length h)
  · exact Nat.le_succ_of_le (signedDigits_length h)
  · cases h; simp

theorem fraction_length {s rest : Octets} {ds : List Nat} (h : fraction s = .whole ds rest) :
    rest.length ≤ s.length := by
  unfold fraction at h
  split at h
  · have := someDigits_length h
    simp only [List.length_cons]; omega
  · cases h; simp

theorem wholePart_length {s rest : Octets} {ds : List Nat} (h : wholePart s = .whole ds rest) :
    rest.length < s.length := by
  unfold wholePart at h
  split at h
  · cases h
  · next b r =>
    have := digits_length r
    split at h
    · cases h
    · split at h
      · cases h; simp
      · cases h
    · cases h; simp only [List.length_cons]; omega

theorem numeral_length {negative : Bool} {s rest : Octets} {n : Numeral}
    (h : numeral negative s = .whole n rest) : rest.length < s.length := by
  unfold numeral at h
  split at h
  · cases h
  · cases h
  · next hw =>
    have h₁ := wholePart_length hw
    split at h
    · cases h
    · cases h
    · next hf =>
      have h₂ := fraction_length hf
      split at h
      · cases h
      · cases h
      · next he =>
        have h₃ := exponent_length he
        cases h; omega

theorem keyword_length {value t : Token} {expected s rest : Octets}
    (h : keyword value expected s = .whole t rest) : rest.length ≤ s.length := by
  induction expected generalizing s with
  | nil => simp only [keyword] at h; cases h; simp
  | cons e expected ih =>
    cases s with
    | nil => simp [keyword] at h
    | cons b s =>
      simp only [keyword] at h
      split at h
      · have := ih h
        simp only [List.length_cons]; omega
      · cases h

theorem stringBody_length (read s : Octets) : (stringBody read s).2.length ≤ s.length := by
  fun_induction stringBody read s <;> simp_all <;> omega

theorem scanToken_length (b : UInt8) (rest : Octets) :
    (scanToken b rest).2.length ≤ rest.length := by
  have hw : ∀ value expected, (scanToken.word rest value expected).2.length ≤ rest.length := by
    intro value expected
    unfold scanToken.word
    split
    · next h => exact keyword_length h
    · simp
    · simp
  have hn : ∀ negative s, s.length ≤ rest.length + 1 →
      (scanToken.number (numeral negative s)).2.length ≤ rest.length := by
    intro negative s hs
    unfold scanToken.number
    split
    · next h => have := numeral_length h; simp only; omega
    · simp
    · simp
  unfold scanToken
  split <;> first
    | exact Nat.le_refl _
    | exact stringBody_length _ _
    | exact hw _ _
    | exact hn _ _ (by simp)

/-- The tokens of a text, behind those in `read`, which are in reverse. -/
def tokensFrom (read : List Token) : Octets → List Token
  | [] => read.reverse
  | b :: rest =>
    if isBlank b then tokensFrom read rest
    else
      match _h : scanToken b rest with
      | (t, rest') => tokensFrom (t :: read) rest'
termination_by s => s.length
decreasing_by
  · simp
  · have := scanToken_length b rest
    simp_all only [List.length_cons]; omega

def tokens (s : Octets) : List Token :=
  tokensFrom [] s

end CodeIndex.Json
