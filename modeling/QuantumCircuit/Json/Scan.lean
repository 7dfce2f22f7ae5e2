import QuantumCircuit.Json.Basic

/-! From text to tokens. Each scanner takes the characters after its first one
and gives what it read and what is left. -/
namespace QuantumCircuit.Json

/-! ## Numbers -/

/-- Splits off the leading digits. -/
def takeDigits : List Char → List Digit × List Char
  | [] => ([], [])
  | c :: rest =>
    match Digit.ofChar? c with
    | some d => (d :: (takeDigits rest).1, (takeDigits rest).2)
    | none => ([], c :: rest)

/-- The digits before the point; a leading zero stands alone. -/
def scanWhole : List Char → Option (List Digit × List Char)
  | '0' :: rest => some ([Digit.zero], rest)
  | cs =>
    match takeDigits cs with
    | ([], _) => none
    | (ds, rest) => some (ds, rest)

/-- The digits after a point, if there is one; there must be some. -/
def scanFraction : List Char → Option (List Digit × List Char)
  | '.' :: rest =>
    match takeDigits rest with
    | ([], _) => none
    | (ds, rest) => some (ds, rest)
  | cs => some ([], cs)

/-- The value of an exponent after its sign. -/
def scanPower (negative : Bool) (cs : List Char) : Option (Option Int × List Char) :=
  match takeDigits cs with
  | ([], _) => none
  | (ds, rest) =>
    let n : Int := Digit.value ds
    some (some (if negative then -n else n), rest)

def scanSignedPower : List Char → Option (Option Int × List Char)
  | '+' :: rest => scanPower false rest
  | '-' :: rest => scanPower true rest
  | cs => scanPower false cs

def scanExponent : List Char → Option (Option Int × List Char)
  | 'e' :: rest => scanSignedPower rest
  | 'E' :: rest => scanSignedPower rest
  | cs => some (none, cs)

/-- A number without its sign. -/
def scanNumber (negative : Bool) (cs : List Char) : Option (Token × List Char) :=
  match scanWhole cs with
  | none => none
  | some (whole, rest) =>
    match scanFraction rest with
    | none => none
    | some (fraction, rest) =>
      match scanExponent rest with
      | none => none
      | some (exponent, rest) => some (.number ⟨negative, whole, fraction, exponent⟩, rest)

/-! ## Strings -/

def hexValue? (c : Char) : Option Nat :=
  let n := c.toNat
  if 48 ≤ n ∧ n < 58 then some (n - 48)
  else if 97 ≤ n ∧ n < 103 then some (n - 87)
  else if 65 ≤ n ∧ n < 71 then some (n - 55)
  else none

def hexUnit? (a b c d : Char) : Option Nat :=
  match hexValue? a, hexValue? b, hexValue? c, hexValue? d with
  | some a, some b, some c, some d => some (16 * (16 * (16 * a + b) + c) + d)
  | _, _, _, _ => none

/-- The character that an escape letter stands for. -/
def unescape? : Char → Option Char
  | '"' => some '"'
  | '\\' => some '\\'
  | '/' => some '/'
  | 'b' => some '\x08'
  | 'f' => some '\x0c'
  | 'n' => some '\n'
  | 'r' => some '\r'
  | 't' => some '\t'
  | _ => none

/-- The code units up to the closing quote. A character counts as one unit
whatever its size; escapes may bring in surrogates. -/
def scanUnits : List Char → Option (List Nat × List Char)
  | [] => none
  | '"' :: rest => some ([], rest)
  | '\\' :: 'u' :: a :: b :: c :: d :: rest =>
    match hexUnit? a b c d, scanUnits rest with
    | some u, some (us, rest) => some (u :: us, rest)
    | _, _ => none
  | '\\' :: e :: rest =>
    match unescape? e, scanUnits rest with
    | some u, some (us, rest) => some (u.toNat :: us, rest)
    | _, _ => none
  | c :: rest =>
    if c.toNat < 32 ∨ c = '\\' then none
    else
      match scanUnits rest with
      | some (us, rest) => some (c.toNat :: us, rest)
      | none => none

def isHighSurrogate (u : Nat) : Bool := 0xd800 ≤ u && u < 0xdc00

def isLowSurrogate (u : Nat) : Bool := 0xdc00 ≤ u && u < 0xe000

/-- Joins surrogate pairs; a surrogate without its partner spells no text. -/
def joinUnits : List Nat → Option (List Char)
  | [] => some []
  | [u] => if isHighSurrogate u || isLowSurrogate u then none else some [Char.ofNat u]
  | u :: v :: rest =>
    if isHighSurrogate u then
      if isLowSurrogate v then
        (joinUnits rest).map (Char.ofNat (0x10000 + 0x400 * (u - 0xd800) + (v - 0xdc00)) :: ·)
      else none
    else if isLowSurrogate u then none
    else (joinUnits (v :: rest)).map (Char.ofNat u :: ·)

def scanString (cs : List Char) : Option (Token × List Char) :=
  match scanUnits cs with
  | none => none
  | some (us, rest) => some (.string ((joinUnits us).map String.ofList), rest)

/-! ## Tokens -/

/-- The token that starts with `c`. -/
def scanToken (c : Char) (rest : List Char) : Option (Token × List Char) :=
  match c, rest with
  | '[', rest => some (.openArray, rest)
  | ']', rest => some (.closeArray, rest)
  | '\x7b', rest => some (.openObject, rest)
  | '\x7d', rest => some (.closeObject, rest)
  | ',', rest => some (.comma, rest)
  | ':', rest => some (.colon, rest)
  | 'n', 'u' :: 'l' :: 'l' :: rest => some (.null, rest)
  | 't', 'r' :: 'u' :: 'e' :: rest => some (.bool true, rest)
  | 'f', 'a' :: 'l' :: 's' :: 'e' :: rest => some (.bool false, rest)
  | '"', rest => scanString rest
  | '-', rest => scanNumber true rest
  | c, rest => scanNumber false (c :: rest)

def isBlank (c : Char) : Bool := c = ' ' || c = '\n' || c = '\t' || c = '\r'

theorem length_takeDigits_le (cs : List Char) : (takeDigits cs).2.length ≤ cs.length := by
  induction cs with
  | nil => simp [takeDigits]
  | cons c rest ih =>
    rw [takeDigits]
    split
    · exact Nat.le_succ_of_le ih
    · exact Nat.le_refl _

theorem length_takeDigits_lt {cs rest : List Char} {d : Digit} {ds : List Digit}
    (h : takeDigits cs = (d :: ds, rest)) : rest.length < cs.length := by
  cases cs with
  | nil => simp [takeDigits] at h
  | cons c cs =>
    have hle := length_takeDigits_le cs
    rw [takeDigits] at h
    split at h
    · simp only [Prod.mk.injEq, List.cons.injEq] at h
      rw [← h.2]
      exact Nat.lt_succ_of_le hle
    · simp at h

theorem length_scanWhole_lt {cs rest : List Char} {ds : List Digit}
    (h : scanWhole cs = some (ds, rest)) : rest.length < cs.length := by
  unfold scanWhole at h
  split at h
  · simp only [Option.some.injEq, Prod.mk.injEq] at h
    simp [← h.2]
  · split at h
    · simp at h
    · next hds hne =>
      simp only [Option.some.injEq, Prod.mk.injEq] at h
      obtain ⟨rfl, rfl⟩ := h
      cases hd : (takeDigits cs).1 with
      | nil => simp_all
      | cons d ds => exact length_takeDigits_lt (hne.trans (by rw [hne] at hd; rw [← hd]))

theorem length_scanFraction_le {cs rest : List Char} {ds : List Digit}
    (h : scanFraction cs = some (ds, rest)) : rest.length ≤ cs.length := by
  unfold scanFraction at h
  split at h
  · next tail =>
    have hle := length_takeDigits_le tail
    split at h
    · simp at h
    · next hds =>
      simp only [Option.some.injEq, Prod.mk.injEq] at h
      rw [hds, h.2] at hle
      exact Nat.le_succ_of_le hle
  · simp only [Option.some.injEq, Prod.mk.injEq] at h
    simp [← h.2]

theorem length_scanPower_le {negative : Bool} {cs rest : List Char} {e : Option Int}
    (h : scanPower negative cs = some (e, rest)) : rest.length ≤ cs.length := by
  have hle := length_takeDigits_le cs
  unfold scanPower at h
  split at h
  · simp at h
  · next hds =>
    simp only [Option.some.injEq, Prod.mk.injEq] at h
    rwa [hds, h.2] at hle

theorem length_scanSignedPower_le {cs rest : List Char} {e : Option Int}
    (h : scanSignedPower cs = some (e, rest)) : rest.length ≤ cs.length := by
  unfold scanSignedPower at h
  split at h
  · exact Nat.le_succ_of_le (length_scanPower_le h)
  · exact Nat.le_succ_of_le (length_scanPower_le h)
  · exact length_scanPower_le h

theorem length_scanExponent_le {cs rest : List Char} {e : Option Int}
    (h : scanExponent cs = some (e, rest)) : rest.length ≤ cs.length := by
  unfold scanExponent at h
  split at h
  · exact Nat.le_succ_of_le (length_scanSignedPower_le h)
  · exact Nat.le_succ_of_le (length_scanSignedPower_le h)
  · simp only [Option.some.injEq, Prod.mk.injEq] at h
    simp [← h.2]

theorem length_scanNumber_lt {negative : Bool} {cs rest : List Char} {t : Token}
    (h : scanNumber negative cs = some (t, rest)) : rest.length < cs.length := by
  unfold scanNumber at h
  split at h
  · simp at h
  · next hw =>
    have hw := length_scanWhole_lt hw
    split at h
    · simp at h
    · next hf =>
      have hf := length_scanFraction_le hf
      split at h
      · simp at h
      · next he =>
        have he := length_scanExponent_le he
        simp only [Option.some.injEq, Prod.mk.injEq] at h
        rw [← h.2]
        omega

theorem length_scanUnits_le {cs rest : List Char} {us : List Nat}
    (h : scanUnits cs = some (us, rest)) : rest.length ≤ cs.length := by
  fun_induction scanUnits cs generalizing us rest with
  | case3 a b c d tail u us' rest' _ _ ih =>
    simp only [Option.some.injEq, Prod.mk.injEq] at h
    have := ih (by assumption)
    simp only [← h.2, List.length_cons]
    omega
  | _ => grind

theorem length_scanString_le {cs rest : List Char} {t : Token}
    (h : scanString cs = some (t, rest)) : rest.length ≤ cs.length := by
  unfold scanString at h
  split at h
  · simp at h
  · next hu =>
    simp only [Option.some.injEq, Prod.mk.injEq] at h
    rw [← h.2]
    exact length_scanUnits_le hu

theorem length_scanToken_le {c : Char} {cs rest : List Char} {t : Token}
    (h : scanToken c cs = some (t, rest)) : rest.length ≤ cs.length := by
  unfold scanToken at h
  split at h
  case h_10 => exact length_scanString_le h
  case h_11 => exact Nat.le_of_lt (length_scanNumber_lt h)
  case h_12 => exact Nat.le_of_lt_succ (length_scanNumber_lt h)
  all_goals
    simp only [Option.some.injEq, Prod.mk.injEq] at h
    simp only [← h.2, List.length_cons]
    omega

/-- The tokens of a text; none if some character starts no token. -/
def scan : List Char → Option (List Token)
  | [] => some []
  | c :: rest =>
    if isBlank c then scan rest
    else
      match h : scanToken c rest with
      | none => none
      | some (t, rest') =>
        have := length_scanToken_le h
        (scan rest').map (t :: ·)
termination_by cs => cs.length

end QuantumCircuit.Json
