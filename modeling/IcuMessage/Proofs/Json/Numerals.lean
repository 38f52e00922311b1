/-
Numbers as they are written in JSON: an optional minus sign, digits without a
leading zero, optionally a point with digits, optionally an exponent. Every
such numeral is scanned as a whole (`Numeral.scan_text`). If it is written as an
integer, is not `-0` and has its place in 64 bits, it stands for that integer
(`Numeral.text_int`); any other stands for a double, or for no value at all
(`Numeral.float_or_unreadable`). The digits of a natural number are the only
ones without a leading zero that denote it (`Decimal.natural_value`).
-/
import IcuMessage.Proofs.Json.Unreadable

namespace IcuMessage

/-! ## Digits -/

namespace Decimal

theorem natural_digit {c : Char} (h : c.isDigit = true) :
    c.toNat - '0'.toNat < 10 ∧ natural (c.toNat - '0'.toNat) = [c] := by
  obtain ⟨hl, hu⟩ := Char.isDigit_iff_toNat.mp h
  have hlt : c.toNat - '0'.toNat < 10 := by
    have h0 : '0'.toNat = 48 := rfl
    have h9 : '9'.toNat = 57 := rfl
    omega
  refine ⟨hlt, ?_⟩
  have hc : (c.toNat - '0'.toNat).digitChar = c := by
    apply Char.toNat_inj.mp
    rw [Nat.toNat_digitChar_of_lt_ten hlt]
    exact Nat.add_sub_cancel' hl
  rw [natural, Nat.toDigits_of_lt_base hlt, hc]

/-- Digits after those of a positive number. -/
theorem natural_ofDigitChars {digits : List Char} (hd : ∀ c ∈ digits, c.isDigit = true) {n : Nat}
    (hn : 0 < n) : natural (Nat.ofDigitChars 10 digits n) = natural n ++ digits := by
  induction digits generalizing n with
  | nil => simp
  | cons c digits ih =>
    obtain ⟨hc, hd⟩ := List.forall_mem_cons.mp hd
    obtain ⟨hlt, hnatural⟩ := natural_digit hc
    have hstep : natural (10 * n + (c.toNat - '0'.toNat)) = natural n ++ [c] := by
      rw [← hnatural]
      exact (Nat.toDigits_append_toDigits (by decide) hn hlt).symm
    rw [Nat.ofDigitChars_cons, ih hd (by omega), hstep, List.append_assoc, List.singleton_append]

theorem natural_value {digits : List Char} (hne : digits ≠ [])
    (hd : ∀ c ∈ digits, c.isDigit = true) (hz : digits.head? = some '0' → digits = ['0']) :
    natural (value digits) = digits := by
  obtain ⟨c, digits, rfl⟩ := List.exists_cons_of_ne_nil hne
  obtain ⟨hc, hd⟩ := List.forall_mem_cons.mp hd
  obtain ⟨-, hnatural⟩ := natural_digit hc
  by_cases h0 : c = '0'
  · rw [hz (by rw [h0]; rfl)]
    rfl
  · have hpos : 0 < c.toNat - '0'.toNat := by
      refine Nat.pos_of_ne_zero fun hzero => h0 ?_
      rw [hzero] at hnatural
      exact (List.cons.inj hnatural).1.symm
    rw [value, Nat.ofDigitChars_cons, Nat.mul_zero, Nat.zero_add,
      natural_ofDigitChars hd hpos, hnatural, List.singleton_append]

end Decimal

namespace Json

/-! ## Numerals -/

/-- One digit or more. -/
def IsDigits (text : List Char) : Prop :=
  text ≠ [] ∧ ∀ c ∈ text, c.isDigit = true

instance : DecidablePred IsDigits := fun text =>
  decidable_of_iff (text ≠ [] ∧ text.all Char.isDigit = true) (by simp [IsDigits])

/-- The exponent of a number, as it is written. -/
structure Exponent where
  letter : Char
  sign : List Char
  digits : List Char
  isLetter : letter = 'e' ∨ letter = 'E'
  isSign : sign = [] ∨ sign = ['+'] ∨ sign = ['-']
  isDigits : IsDigits digits

/-- A number, as it is written. -/
structure Numeral where
  negative : Bool
  whole : List Char
  fraction : Option (List Char)
  exponent : Option Exponent
  isWhole : IsDigits whole
  noLeadingZero : whole.head? = some '0' → whole = ['0']
  isFraction : ∀ digits ∈ fraction, IsDigits digits

namespace Exponent

def text (e : Exponent) : List Char :=
  e.letter :: (e.sign ++ e.digits)

/-- The power of ten it stands for. -/
def value (e : Exponent) : Int :=
  if e.sign = ['-'] then -(Decimal.value e.digits : Int) else Decimal.value e.digits

end Exponent

namespace Numeral

def fractionText (n : Numeral) : List Char :=
  match n.fraction with
  | none => []
  | some digits => '.' :: digits

def exponentText (n : Numeral) : List Char :=
  match n.exponent with
  | none => []
  | some e => e.text

def unsignedText (n : Numeral) : List Char :=
  n.whole ++ (n.fractionText ++ n.exponentText)

def text (n : Numeral) : List Char :=
  if n.negative then '-' :: n.unsignedText else n.unsignedText

/-- The literal it is scanned as. -/
def literal (n : Numeral) : Literal :=
  ⟨n.negative, n.whole, n.fraction.getD [], n.exponent.map Exponent.value⟩

/-- The integer its sign and its whole digits denote. -/
def toInt (n : Numeral) : Int :=
  if n.negative then -(Decimal.value n.whole : Int) else Decimal.value n.whole

/-- Neither fraction nor exponent is written, nor a sign before a zero. -/
def IsInteger (n : Numeral) : Prop :=
  n.fraction = none ∧ n.exponent = none ∧ n.text ≠ ['-', '0']

instance : DecidablePred IsInteger := fun n => inferInstanceAs (Decidable
  (n.fraction = none ∧ n.exponent = none ∧ n.text ≠ ['-', '0']))

/-! ## Scanning -/

theorem scan_exponent (atEnd : SyntaxError) (e : Exponent) {rest : List Char}
    (h : Literal.EndsDigits rest) :
    Literal.scanExponent atEnd (e.text ++ rest) = .ok (some e.value, rest) := by
  have hletter : (e.letter = 'e' || e.letter = 'E') = true := by simpa using e.isLetter
  have hsign : Literal.scanSign (e.sign ++ (e.digits ++ rest)) =
      (decide (e.sign = ['-']), e.digits ++ rest) := by
    obtain ⟨hne, hd⟩ := e.isDigits
    rcases e.isSign with hs | hs | hs
    · obtain ⟨c, digits, hdigits⟩ := List.exists_cons_of_ne_nil hne
      have hc : c.isDigit = true := hd c (by simp [hdigits])
      have hminus : c ≠ '-' := by rintro rfl; exact absurd hc (by decide)
      have hplus : c ≠ '+' := by rintro rfl; exact absurd hc (by decide)
      simp [hs, hdigits, Literal.scanSign, hminus, hplus]
    · simp [hs, Literal.scanSign]
    · simp [hs, Literal.scanSign]
  rw [Exponent.text, List.cons_append, List.append_assoc, Literal.scanExponent, if_pos hletter,
    hsign]
  simp only [Literal.digitsOr_append e.isDigits.1 e.isDigits.2 h, ok_bind, Exponent.value,
    decide_eq_true_eq]

theorem scan_exponentText (atEnd : SyntaxError) (n : Numeral) {rest : List Char}
    (h : EndsNumber rest) :
    Literal.scanExponent atEnd (n.exponentText ++ rest) =
        .ok (n.exponent.map Exponent.value, rest) ∧
      ∀ c ∈ (n.exponentText ++ rest).head?, c.isDigit = false ∧ c ≠ '.' := by
  rw [exponentText]
  cases n.exponent with
  | none => exact ⟨Literal.scanExponent_none h, fun c hc => ⟨(h c hc).1, (h c hc).2.1⟩⟩
  | some e =>
    refine ⟨scan_exponent atEnd e fun c hc => (h c hc).1, fun c hc => ?_⟩
    obtain rfl : e.letter = c := by simpa [Exponent.text] using hc
    rcases e.isLetter with hletter | hletter <;> rw [hletter] <;> decide

theorem scan_fractionText (atEnd : SyntaxError) (n : Numeral) {rest : List Char}
    (h : ∀ c ∈ rest.head?, c.isDigit = false ∧ c ≠ '.') :
    Literal.scanFraction atEnd (n.fractionText ++ rest) = .ok (n.fraction.getD [], rest) ∧
      Literal.EndsDigits (n.fractionText ++ rest) := by
  rw [fractionText]
  cases hf : n.fraction with
  | none => exact ⟨Literal.scanFraction_none fun hp => (h '.' hp).2 rfl, fun c hc => (h c hc).1⟩
  | some digits =>
    obtain ⟨hne, hd⟩ := n.isFraction digits hf
    refine ⟨Literal.digitsOr_append hne hd fun c hc => (h c hc).1, fun c hc => ?_⟩
    obtain rfl : '.' = c := by simpa using hc
    decide

theorem scan_unsignedText (atEnd : SyntaxError) (n : Numeral) {rest : List Char}
    (h : EndsNumber rest) :
    Literal.scanUnsigned atEnd n.negative (n.unsignedText ++ rest) = .ok (n.literal, rest) := by
  obtain ⟨hexponent, hends⟩ := scan_exponentText atEnd n h
  obtain ⟨hfraction, hends⟩ := scan_fractionText atEnd n hends
  simp only [Literal.scanUnsigned, unsignedText, List.append_assoc,
    Literal.scanWhole_append n.isWhole.1 n.isWhole.2 n.noLeadingZero hends, hfraction, hexponent,
    ok_bind, literal]

theorem head_unsignedText (n : Numeral) : ∃ c inner, n.unsignedText = c :: inner ∧
    c.isDigit = true := by
  obtain ⟨c, whole, hwhole⟩ := List.exists_cons_of_ne_nil n.isWhole.1
  exact ⟨c, _, by rw [unsignedText, hwhole]; rfl, n.isWhole.2 c (by simp [hwhole])⟩

/-- A numeral is scanned as a whole. -/
theorem scan_text (atEnd : SyntaxError) (n : Numeral) {rest : List Char} (h : EndsNumber rest) :
    Literal.scan atEnd (n.text ++ rest) = .ok (n.literal, rest) := by
  have hscan := scan_unsignedText atEnd n h
  rw [text]
  cases hn : n.negative with
  | true =>
    rw [hn] at hscan
    exact hscan
  | false =>
    rw [hn] at hscan
    obtain ⟨c, inner, htext, hc⟩ := n.head_unsignedText
    have hminus : (n.unsignedText ++ rest).head? ≠ some '-' := by
      rw [htext]
      rintro ⟨rfl⟩
      exact absurd hc (by decide)
    exact (Literal.scan_of_ne hminus).trans hscan

theorem head_text (n : Numeral) : ∃ c inner, n.text = c :: inner ∧
    (c = '-' || c.isDigit) = true := by
  rw [text]
  cases n.negative with
  | true => exact ⟨'-', _, rfl, rfl⟩
  | false =>
    obtain ⟨c, inner, htext, hc⟩ := n.head_unsignedText
    exact ⟨c, inner, htext, by simp [hc]⟩

/-! ## Values -/

theorem natural_value_whole (n : Numeral) : Decimal.natural (Decimal.value n.whole) = n.whole :=
  Decimal.natural_value n.isWhole.1 n.isWhole.2 n.noLeadingZero

theorem value_whole_eq_zero (n : Numeral) : Decimal.value n.whole = 0 ↔ n.whole = ['0'] := by
  constructor
  · intro h
    rw [← n.natural_value_whole, h]
    rfl
  · intro h
    rw [h]
    rfl

theorem literal_fraction (n : Numeral) : n.literal.fraction = [] ↔ n.fraction = none := by
  show n.fraction.getD [] = [] ↔ _
  cases hf : n.fraction with
  | none => simp
  | some digits => simpa using (n.isFraction digits hf).1

/-- What an integer is written as, up to its sign. -/
theorem text_of_isInteger {n : Numeral} (hf : n.fraction = none) (he : n.exponent = none) :
    n.text = if n.negative then '-' :: n.whole else n.whole := by
  simp [text, unsignedText, fractionText, exponentText, hf, he]

theorem isInteger_iff (n : Numeral) : n.IsInteger ↔ n.fraction = none ∧ n.exponent = none ∧
    ¬(n.negative = true ∧ Decimal.value n.whole = 0) := by
  rw [IsInteger]
  refine and_congr_right fun hf => and_congr_right fun he => not_congr ?_
  rw [text_of_isInteger hf he, value_whole_eq_zero]
  cases n.negative with
  | true => simp
  | false =>
    simp only [Bool.false_eq_true, if_false, false_and, iff_false]
    intro h
    exact absurd (n.isWhole.2 '-' (by simp [h])) (by decide)

/-- Digit for digit, an integer is written as it is read. -/
theorem integer_toInt {n : Numeral} (h : n.IsInteger) : Decimal.integer n.toInt = n.text := by
  obtain ⟨hf, he, hzero⟩ := n.isInteger_iff.mp h
  rw [text_of_isInteger hf he, toInt]
  cases hn : n.negative with
  | false => exact n.natural_value_whole
  | true =>
    obtain ⟨k, hk⟩ : ∃ k, Decimal.value n.whole = k + 1 :=
      Nat.exists_eq_succ_of_ne_zero fun h => hzero ⟨hn, h⟩
    rw [if_pos rfl, if_pos rfl, hk, ← n.natural_value_whole, hk]
    rfl

/-- The range of the integers that a literal may denote. -/
def InRange (k : Int) : Prop :=
  Int64.minValue.toInt ≤ k ∧ k < UInt64.size

theorem toInt?_of_isInteger {n : Numeral} (h : n.IsInteger) (hr : InRange n.toInt) :
    n.literal.toInt? = some n.toInt := by
  obtain ⟨hf, he, hzero⟩ := n.isInteger_iff.mp h
  have hplain : ¬(n.literal.fraction ≠ [] || n.literal.exponent ≠ none) = true := by
    simp [literal, hf, he]
  obtain ⟨hl, hu⟩ := hr
  rw [Literal.toInt?, if_neg hplain]
  rw [toInt] at hl hu ⊢
  show (if n.negative = true then _ else _) = _
  cases hn : n.negative with
  | false =>
    rw [hn, if_neg Bool.false_ne_true] at hu
    rw [if_neg Bool.false_ne_true, if_neg Bool.false_ne_true]
    exact if_pos (Int.ofNat_lt.mp hu)
  | true =>
    rw [hn, if_pos rfl] at hl
    rw [if_pos rfl, if_pos rfl]
    exact if_pos ⟨Nat.pos_of_ne_zero fun h => hzero ⟨hn, h⟩, hl⟩

theorem isInteger_of_toInt? {n : Numeral} {k : Int} (h : n.literal.toInt? = some k) :
    n.IsInteger ∧ InRange n.toInt := by
  rw [isInteger_iff, InRange, toInt]
  simp only [Literal.toInt?] at h
  split at h
  · cases h
  rename_i hplain
  obtain ⟨hf, he⟩ : n.literal.fraction = [] ∧ n.literal.exponent = none := by simpa using hplain
  rw [literal_fraction] at hf
  have he : n.exponent = none := by simpa [literal] using he
  split at h
  · rename_i hn
    have hn : n.negative = true := hn
    split at h
    · rename_i hr
      obtain ⟨hpos, hl⟩ : 0 < Decimal.value n.whole ∧
        Int64.minValue.toInt ≤ -(Decimal.value n.whole : Int) := hr
      rw [if_pos hn]
      exact ⟨⟨hf, he, fun hz => Nat.ne_of_gt hpos hz.2⟩, hl, by omega⟩
    · cases h
  · rename_i hn
    have hn : ¬n.negative = true := hn
    split at h
    · rename_i hu
      have hu : Decimal.value n.whole < UInt64.size := hu
      have hmin : Int64.minValue.toInt < 0 := by decide
      rw [if_neg hn]
      exact ⟨⟨hf, he, fun hz => hn hz.1⟩, by omega, Int.ofNat_lt.mpr hu⟩
    · cases h

theorem scalarAt_text {n : Numeral} {v : Value} (h : n.literal.value = .ok v) :
    ScalarAt n.text v [] := by
  obtain ⟨c, inner, htext, hc⟩ := n.head_text
  have hscan := n.scan_text .endInValue .nil
  rw [List.append_nil] at hscan
  rw [htext] at hscan ⊢
  exact .number hc hscan h

/-- A written integer with a place in 64 bits stands for itself. -/
theorem text_int {n : Numeral} (h : n.IsInteger) (hr : InRange n.toInt) :
    (Value.int n.toInt).Text n.text := by
  refine .scalar (scalarAt_text ?_)
  rw [Literal.value, toInt?_of_isInteger h hr]

theorem skipValue_text (n : Numeral) : skipValue n.text = .ok [] := by
  obtain ⟨c, inner, htext, hc⟩ := n.head_text
  obtain ⟨hn, ht, hf, hq, ha, ho, -⟩ := number_head hc
  have hscan := n.scan_text .invalidNumber .nil
  rw [List.append_nil, htext] at hscan
  rw [htext, skipValue, List.length_cons, skipWithin,
    skipBlanks_cons_of_not (not_isBlank_of_number hc)]
  simp only [if_neg ha, if_neg ho, skipScalar, if_neg hn, if_neg ht, if_neg hf, if_neg hq,
    if_pos hc, hscan, ok_bind]

theorem unreadable_text {n : Numeral} {e : Error} (h : n.literal.value = .error e) :
    Unreadable n.text := by
  obtain ⟨c, inner, htext, hc⟩ := n.head_text
  obtain ⟨hn, ht, hf, hq, ha, ho, -⟩ := number_head hc
  have hskip : skipBlanks n.text = c :: inner := by
    rw [htext, skipBlanks_cons_of_not (not_isBlank_of_number hc)]
  have hscan := n.scan_text .endInValue .nil
  rw [List.append_nil, htext] at hscan
  have hread : readScalar (c :: inner) = .error e := by
    simp only [readScalar, if_neg hn, if_neg ht, if_neg hf, if_neg hq, if_pos hc, hscan, ok_bind, h]
    rfl
  refine unreadable_scalar n.skipValue_text hskip ⟨ha, ho⟩ fun x hx => ?_
  cases hread.symm.trans hx

/-- Any other numeral stands for a double, or for no value where there is none. -/
theorem float_or_unreadable {n : Numeral} (h : ¬(n.IsInteger ∧ InRange n.toInt)) :
    (∃ bits, (Value.float bits).Text n.text) ∨ Unreadable n.text := by
  cases hv : n.literal.value with
  | error e => exact .inr (unreadable_text hv)
  | ok v =>
    rcases Literal.value_ok hv with ⟨k, rfl⟩ | ⟨bits, rfl⟩
    · exact absurd (isInteger_of_toInt? (Literal.toInt?_of_value hv)) h
    · exact .inl ⟨bits, .scalar (scalarAt_text hv)⟩

end Numeral

end Json

end IcuMessage
