import Mathlib.Data.List.Chain
import Mathlib.Tactic.IntervalCases
import QuantumCircuit.Json.Scan
import QuantumCircuit.Proofs.Numeral

/-! Tokens are read back from their text. A literal ends where no digit, point or
exponent can follow, so a number token must not be followed by another one. -/
namespace QuantumCircuit

/-! ## The text of a literal -/

theorem Digit.ofChar?_toChar (d : Digit) : ofChar? d.toChar = some d := by
  revert d
  decide

/-- The decimal text of a number spells its digits. -/
theorem toList_toString_nat (n : Nat) : (toString n).toList = (digitsOf n).map Digit.toChar := by
  have hchar : ∀ d : Digit, Nat.digitChar d.val = d.toChar := by decide
  show n.repr.toList = _
  rw [Nat.toList_repr]
  fun_induction digitsOf n with
  | case1 n hlt =>
    rw [Nat.toDigits_of_lt_base hlt]
    exact congrArg (· :: []) (hchar ⟨n, hlt⟩)
  | case2 n hge ih =>
    rw [Nat.toDigits_of_base_le (by decide) (by omega), ih, List.map_append]
    exact congrArg (_ ++ [·]) (hchar ⟨n % 10, _⟩)

theorem Digit.toList_text (ds : List Digit) : (Digit.text ds).toList = ds.map Digit.toChar :=
  String.toList_ofList

namespace Numeral

def fractionChars (ds : List Digit) : List Char :=
  if ds.isEmpty then [] else '.' :: ds.map Digit.toChar

def exponentChars : Option Int → List Char
  | none => []
  | some e => 'e' :: (if e < 0 then '-' else '+') :: (digitsOf e.natAbs).map Digit.toChar

def unsignedChars (n : Numeral) : List Char :=
  n.whole.map Digit.toChar ++ (fractionChars n.fraction ++ exponentChars n.exponent)

theorem toList_text (n : Numeral) :
    n.text.toList = (if n.negative then ['-'] else []) ++ n.unsignedChars := by
  obtain ⟨negative, whole, fraction, exponent⟩ := n
  have hsign : (if negative then "-" else "").toList = if negative then ['-'] else [] := by
    cases negative <;> rfl
  have hfraction : (if fraction.isEmpty then "" else "." ++ Digit.text fraction).toList =
      fractionChars fraction := by
    cases fraction with
    | nil => rfl
    | cons d ds => simp [Digit.toList_text, fractionChars]
  cases exponent with
  | none =>
    simp only [text, String.toList_append, hsign, hfraction, Digit.toList_text, unsignedChars,
      exponentChars, List.append_assoc]
    rfl
  | some e =>
    have hmark : (if e < 0 then "e-" else "e+").toList = ['e', if e < 0 then '-' else '+'] := by
      split <;> rfl
    simp only [text, String.toList_append, hsign, hfraction, hmark, toList_toString_nat,
      Digit.toList_text, unsignedChars, exponentChars, List.append_assoc, List.cons_append,
      List.nil_append]

end Numeral

namespace Json
open Numeral

/-! ## Numbers -/

/-- What follows does not go on with a literal. -/
def EndsLiteral (rest : List Char) : Prop :=
  ∀ c ∈ rest.head?, Digit.ofChar? c = none ∧ c ≠ '.' ∧ c ≠ 'e' ∧ c ≠ 'E'

variable {rest : List Char}

theorem takeDigits_append (ds : List Digit) (h : ∀ c ∈ rest.head?, Digit.ofChar? c = none) :
    takeDigits (ds.map Digit.toChar ++ rest) = (ds, rest) := by
  induction ds with
  | nil =>
    cases rest with
    | nil => rfl
    | cons c rest =>
      have hc := h c rfl
      rw [List.map_nil, List.nil_append, takeDigits, hc]
  | cons d ds ih =>
    rw [List.map_cons, List.cons_append, takeDigits, Digit.ofChar?_toChar, ih]

theorem scanWhole_append {ds : List Digit} (hplain : ∃ d tail, ds = d :: tail ∧
    (d = Digit.zero → tail = [])) (h : ∀ c ∈ rest.head?, Digit.ofChar? c = none) :
    scanWhole (ds.map Digit.toChar ++ rest) = some (ds, rest) := by
  obtain ⟨d, tail, rfl, hzero⟩ := hplain
  by_cases hd : d = Digit.zero
  · rw [hzero hd, hd]
    rfl
  · have hchar : ∀ d : Digit, d ≠ Digit.zero → d.toChar ≠ '0' := by decide
    have htake := takeDigits_append (d :: tail) h
    unfold scanWhole
    split
    · next heq => exact absurd (List.cons.inj heq).1 (hchar d hd)
    · rw [htake]

theorem scanFraction_append (ds : List Digit)
    (h : ∀ c ∈ rest.head?, Digit.ofChar? c = none ∧ c ≠ '.') :
    scanFraction (fractionChars ds ++ rest) = some (ds, rest) := by
  cases ds with
  | nil =>
    unfold scanFraction
    split
    · next heq =>
      rw [show fractionChars [] = [] from rfl, List.nil_append] at heq
      exact absurd rfl (h '.' (by rw [heq]; rfl)).2
    · rfl
  | cons d ds =>
    have htake := takeDigits_append (d :: ds) fun c hc => (h c hc).1
    have hchars : fractionChars (d :: ds) ++ rest = '.' :: ((d :: ds).map Digit.toChar ++ rest) :=
      rfl
    rw [hchars]
    simp only [scanFraction, htake]

theorem scanExponent_append (e : Option Int) (h : EndsLiteral rest) :
    scanExponent (exponentChars e ++ rest) = some (e, rest) := by
  cases e with
  | none =>
    unfold scanExponent
    split
    · next heq => exact absurd rfl (h 'e' (by rw [show rest = _ from heq]; rfl)).2.2.1
    · next heq => exact absurd rfl (h 'E' (by rw [show rest = _ from heq]; rfl)).2.2.2
    · rfl
  | some e =>
    have htake := takeDigits_append (digitsOf e.natAbs) fun c hc => (h c hc).1
    obtain ⟨d, ds, hds, -⟩ := exists_digitsOf e.natAbs
    have hvalue : Digit.value (d :: ds) = e.natAbs := hds ▸ Digit.value_digitsOf e.natAbs
    have hpower : ∀ negative, scanPower negative ((digitsOf e.natAbs).map Digit.toChar ++ rest) =
        some (some (if negative then -(e.natAbs : Int) else e.natAbs), rest) := by
      intro negative
      rw [scanPower, htake, hds]
      simp only [hvalue]
    by_cases he : e < 0
    · have hchars : exponentChars (some e) ++ rest =
          'e' :: '-' :: ((digitsOf e.natAbs).map Digit.toChar ++ rest) := by
        simp [exponentChars, he]
      rw [hchars]
      show scanPower true _ = _
      rw [hpower, if_pos rfl]
      congr 3
      omega
    · have hchars : exponentChars (some e) ++ rest =
          'e' :: '+' :: ((digitsOf e.natAbs).map Digit.toChar ++ rest) := by
        simp [exponentChars, he]
      rw [hchars]
      show scanPower false _ = _
      rw [hpower, if_neg (by decide)]
      congr 3
      omega

theorem scanNumber_append {n : Numeral} (hn : n.IsPlain) (h : EndsLiteral rest) :
    scanNumber n.negative (n.unsignedChars ++ rest) = some (.number n, rest) := by
  have hexponent : ∀ c ∈ (exponentChars n.exponent ++ rest).head?,
      Digit.ofChar? c = none ∧ c ≠ '.' := by
    cases n.exponent with
    | none => exact fun c hc => ⟨(h c hc).1, (h c hc).2.1⟩
    | some e =>
      intro c hc
      cases hc
      decide
  have hfraction : ∀ c ∈ (fractionChars n.fraction ++ (exponentChars n.exponent ++ rest)).head?,
      Digit.ofChar? c = none := by
    cases n.fraction with
    | nil => exact fun c hc => (hexponent c hc).1
    | cons d ds =>
      intro c hc
      cases hc
      decide
  rw [unsignedChars, List.append_assoc, List.append_assoc, scanNumber,
    scanWhole_append hn hfraction]
  dsimp only
  rw [scanFraction_append n.fraction hexponent]
  dsimp only
  rw [scanExponent_append n.exponent h]

/-! ## Strings -/

theorem hexUnit?_hexDigit {n : Nat} (h : n < 32) :
    hexUnit? '0' '0' (hexDigit (n / 16)) (hexDigit (n % 16)) = some n := by
  revert n
  decide

section units
variable {tail : List Char}

theorem scanUnits_letter {e c : Char} (hu : e ≠ 'u') (h : unescape? e = some c) :
    scanUnits ('\\' :: e :: tail) = (scanUnits tail).map fun r => (c.toNat :: r.1, r.2) := by
  rw [scanUnits, h]
  · cases scanUnits tail <;> rfl
  · exact fun _ _ _ _ _ he => absurd he hu

theorem scanUnits_hex {a b c d : Char} {u : Nat} (h : hexUnit? a b c d = some u) :
    scanUnits ('\\' :: 'u' :: a :: b :: c :: d :: tail) =
      (scanUnits tail).map fun r => (u :: r.1, r.2) := by
  rw [scanUnits, h]
  cases scanUnits tail <;> rfl

theorem scanUnits_plain {c : Char} (hquote : c ≠ '"') (hslash : c ≠ '\\') (h : ¬ c.toNat < 32) :
    scanUnits (c :: tail) = (scanUnits tail).map fun r => (c.toNat :: r.1, r.2) := by
  rw [scanUnits]
  · rw [if_neg (by simp [h, hslash])]
    cases scanUnits tail <;> rfl
  · exact fun hc => hquote hc
  · exact fun _ _ _ _ _ hc => absurd hc hslash
  · exact fun _ _ hc => absurd hc hslash

/-- A character is read back from its escape. -/
theorem scanUnits_escape (c : Char) :
    scanUnits (escape c ++ tail) = (scanUnits tail).map fun r => (c.toNat :: r.1, r.2) := by
  unfold escape
  split
  case h_8 hquote hslash _ _ _ _ _ =>
    split
    · next hcontrol => exact scanUnits_hex (hexUnit?_hexDigit hcontrol)
    · next hcontrol => exact scanUnits_plain hquote hslash hcontrol
  all_goals exact scanUnits_letter (by decide) rfl

end units

theorem scanUnits_append (cs : List Char) :
    scanUnits (cs.flatMap escape ++ '"' :: rest) = some (cs.map Char.toNat, rest) := by
  induction cs with
  | nil => rfl
  | cons c cs ih =>
    rw [List.flatMap_cons, List.append_assoc, scanUnits_escape, ih]
    rfl

/-- Characters are never surrogates, so each of them is a unit of its own. -/
theorem joinUnits_toNat (cs : List Char) : joinUnits (cs.map Char.toNat) = some cs := by
  induction cs with
  | nil => rfl
  | cons c cs ih =>
    have hvalid : c.toNat < 0xd800 ∨ 0xdfff < c.toNat ∧ c.toNat < 0x110000 := c.valid
    have hhigh : isHighSurrogate c.toNat = false := by
      simp only [isHighSurrogate, Bool.and_eq_false_iff, decide_eq_false_iff_not]
      omega
    have hlow : isLowSurrogate c.toNat = false := by
      simp only [isLowSurrogate, Bool.and_eq_false_iff, decide_eq_false_iff_not]
      omega
    cases cs with
    | nil => simp [joinUnits, hhigh, hlow]
    | cons d cs =>
      rw [List.map_cons, List.map_cons, joinUnits, hhigh, hlow, ← List.map_cons, ih]
      simp

theorem scanString_append (s : String) :
    scanString (s.toList.flatMap escape ++ '"' :: rest) = some (.string (some s), rest) := by
  rw [scanString, scanUnits_append]
  dsimp only
  rw [joinUnits_toNat, Option.map_some, String.ofList_toList]

/-! ## Tokens -/

namespace Token

/-- The literal of a number token has no superfluous zeros. -/
def IsPlain : Token → Prop
  | number n => n.IsPlain
  | _ => True

def isNumber : Token → Bool
  | number _ => true
  | _ => false

/-- Only a number could go on with the literal before it. -/
theorem endsLiteral_chars {t : Token} (h : t.isNumber = false) : EndsLiteral (t.chars ++ rest) := by
  intro c hc
  cases t with
  | number n => cases h
  | bool b =>
    cases b <;> cases hc <;> decide
  | string s =>
    cases s <;> cases hc <;> decide
  | _ =>
    cases hc
    decide

end Token

theorem scan_cons {c : Char} {cs : List Char} {t : Token} (hblank : isBlank c = false)
    (h : scanToken c cs = some (t, rest)) : scan (c :: cs) = (scan rest).map (t :: ·) := by
  rw [scan, if_neg (by simp [hblank])]
  split
  · next hnone => rw [h] at hnone; cases hnone
  · next hsome =>
    rw [h] at hsome
    cases hsome
    rfl

theorem scanToken_toChar (d : Digit) (cs : List Char) :
    scanToken d.toChar cs = scanNumber false (d.toChar :: cs) := by
  obtain ⟨n, hn⟩ := d
  interval_cases n <;> rfl

theorem scan_number {n : Numeral} (hn : n.IsPlain) (h : EndsLiteral rest) :
    scan (n.text.toList ++ rest) = (scan rest).map (.number n :: ·) := by
  have hnumber := scanNumber_append hn h
  rw [toList_text]
  cases hsign : n.negative with
  | true =>
    rw [hsign] at hnumber
    exact scan_cons rfl hnumber
  | false =>
    obtain ⟨d, ds, hds, -⟩ := hn
    rw [hsign] at hnumber
    have hchars : n.unsignedChars ++ rest = d.toChar ::
        (ds.map Digit.toChar ++ (fractionChars n.fraction ++ exponentChars n.exponent) ++ rest) := by
      rw [unsignedChars, hds]
      rfl
    have hblank : ∀ d : Digit, isBlank d.toChar = false := by decide
    show scan (n.unsignedChars ++ rest) = _
    rw [hchars] at hnumber ⊢
    exact scan_cons (hblank d) ((scanToken_toChar d _).trans hnumber)

theorem scan_chars {t : Token} (ht : t.IsPlain) (h : t.isNumber = true → EndsLiteral rest) :
    scan (t.chars ++ rest) = (scan rest).map (t :: ·) := by
  cases t with
  | number n => exact scan_number ht (h rfl)
  | string s =>
    cases s with
    | none => exact scan_cons rfl rfl
    | some s =>
      refine scan_cons rfl ?_
      show scanString (s.toList.flatMap escape ++ ['"'] ++ rest) = _
      rw [List.append_assoc]
      exact scanString_append s
  | bool b => cases b <;> exact scan_cons rfl rfl
  | _ => exact scan_cons rfl rfl

/-- Tokens are read back from their text if no number follows a number. -/
theorem scan_flatMap_chars {ts : List Token} (hplain : ∀ t ∈ ts, t.IsPlain)
    (hapart : ts.IsChain fun t u => t.isNumber = true → u.isNumber = false) :
    scan (ts.flatMap Token.chars) = some ts := by
  induction ts with
  | nil => rw [List.flatMap_nil, scan]
  | cons t ts ih =>
    rw [List.isChain_cons] at hapart
    rw [List.flatMap_cons, scan_chars (hplain t List.mem_cons_self),
      ih (fun u hu => hplain u (List.mem_cons_of_mem _ hu)) hapart.2]
    · rfl
    · intro hnumber
      cases ts with
      | nil =>
        intro c hc
        cases hc
      | cons u us => exact Token.endsLiteral_chars (hapart.1 u rfl hnumber)

end Json
end QuantumCircuit
