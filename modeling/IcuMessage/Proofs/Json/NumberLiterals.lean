/-
Number literals: a literal ends only where the next character could not
belong to it, so text after one that is not at the end, or that can not go on
with it, changes nothing (`scan_append`, `scan_piece`). How an end of the text inside a
literal is called makes no difference to one that is complete.

A written integer is read back if it has its place in 64 bits
(`scan_integer`, `value_ofInt`).
-/
import Mathlib.Data.List.TakeDrop
import IcuMessage.Proofs.Json.Steps
import IcuMessage.Json.Number

namespace IcuMessage.Json

/-- No number goes on into the text. -/
def EndsNumber (text : List Char) : Prop :=
  ∀ c ∈ text.head?, c.isDigit = false ∧ c ≠ '.' ∧ c ≠ 'e' ∧ c ≠ 'E'

theorem EndsNumber.nil : EndsNumber [] := by simp [EndsNumber]

namespace Literal

/-- The text does not begin with a digit. -/
def EndsDigits (text : List Char) : Prop :=
  ∀ c ∈ text.head?, c.isDigit = false

theorem EndsDigits.append {rest more : List Char} (h : EndsDigits rest)
    (hm : rest = [] → EndsNumber more) : EndsDigits (rest ++ more) := by
  cases rest with
  | nil => exact fun c hc => (hm rfl c hc).1
  | cons d rest => exact h

/-! ## Scanning -/

theorem endsDigits_dropWhile (text : List Char) : EndsDigits (text.dropWhile Char.isDigit) := by
  intro c hc
  have := List.head?_dropWhile_not Char.isDigit text
  rw [hc] at this
  simpa using this

/-- A run of digits that has been read is the longest one. -/
theorem digitsOr_ok {atEnd : SyntaxError} {text digits rest : List Char}
    (h : digitsOr atEnd text = .ok (digits, rest)) : text = digits ++ rest ∧ digits ≠ [] ∧
      (∀ c ∈ digits, c.isDigit = true) ∧ EndsDigits rest := by
  have hdigits : ∀ c ∈ text.takeWhile Char.isDigit, c.isDigit = true :=
    List.all_eq_true.mp List.all_takeWhile
  have hsplit := List.takeWhile_append_dropWhile (p := Char.isDigit) (l := text)
  have hends := endsDigits_dropWhile text
  rw [digitsOr, List.span_eq_takeWhile_dropWhile] at h
  cases ht : text.takeWhile Char.isDigit with
  | nil => cases hd : text.dropWhile Char.isDigit <;> simp [ht, hd] at h
  | cons c cs =>
    simp only [ht, Except.ok.injEq, Prod.mk.injEq] at h
    obtain ⟨rfl, rfl⟩ := h
    rw [ht] at hsplit hdigits
    exact ⟨hsplit.symm, by simp, hdigits, hends⟩

theorem digitsOr_append {atEnd : SyntaxError} {digits rest : List Char} (hne : digits ≠ [])
    (hd : ∀ c ∈ digits, c.isDigit = true) (hr : EndsDigits rest) :
    digitsOr atEnd (digits ++ rest) = .ok (digits, rest) := by
  have htake : rest.takeWhile Char.isDigit = [] ∧ rest.dropWhile Char.isDigit = rest := by
    cases rest with
    | nil => simp
    | cons c rest => simp [hr c rfl]
  rw [digitsOr, List.span_eq_takeWhile_dropWhile, List.takeWhile_append_of_pos hd,
    List.dropWhile_append_of_pos hd, htake.1, htake.2, List.append_nil]
  cases digits with
  | nil => exact absurd rfl hne
  | cons c cs => rfl

theorem scanWhole_ok {atEnd : SyntaxError} {text whole rest : List Char}
    (h : scanWhole atEnd text = .ok (whole, rest)) : text = whole ++ rest ∧ whole ≠ [] ∧
      (∀ c ∈ whole, c.isDigit = true) ∧ (whole.head? = some '0' → whole = ['0']) ∧
      EndsDigits rest := by
  unfold scanWhole at h
  split at h
  · rename_i c rest'
    split at h
    · simp at h
    · rename_i hc
      simp only [Except.ok.injEq, Prod.mk.injEq] at h
      obtain ⟨rfl, rfl⟩ := h
      exact ⟨rfl, by simp, by simp, fun _ => rfl, by simpa [EndsDigits] using hc⟩
  · rename_i hz
    obtain ⟨rfl, hne, hd, hr⟩ := digitsOr_ok h
    refine ⟨rfl, hne, hd, fun h0 => ?_, hr⟩
    obtain ⟨c, cs, rfl⟩ := List.exists_cons_of_ne_nil hne
    obtain rfl : c = '0' := by simpa using h0
    cases cs with
    | nil => rfl
    | cons d ds => exact absurd rfl (hz d (ds ++ rest))

theorem scanWhole_append {atEnd : SyntaxError} {whole rest : List Char} (hne : whole ≠ [])
    (hd : ∀ c ∈ whole, c.isDigit = true) (hz : whole.head? = some '0' → whole = ['0'])
    (hr : EndsDigits rest) : scanWhole atEnd (whole ++ rest) = .ok (whole, rest) := by
  by_cases h0 : whole.head? = some '0'
  · rw [hz h0]
    cases rest with
    | nil => rfl
    | cons c rest => simp [scanWhole, hr c rfl]
  · rw [scanWhole]
    · exact digitsOr_append hne hd hr
    · intro c cs hc
      obtain ⟨d, ds, rfl⟩ := List.exists_cons_of_ne_nil hne
      simp only [List.cons_append, List.cons.injEq] at hc
      simp [hc.1] at h0

theorem scanFraction_ok {atEnd : SyntaxError} {text fraction rest : List Char}
    (h : scanFraction atEnd text = .ok (fraction, rest)) :
    (text = '.' :: (fraction ++ rest) ∧ fraction ≠ [] ∧ (∀ c ∈ fraction, c.isDigit = true) ∧
      EndsDigits rest) ∨ (fraction = [] ∧ text = rest ∧ rest.head? ≠ some '.') := by
  unfold scanFraction at h
  split at h
  · obtain ⟨rfl, hne, hd, hr⟩ := digitsOr_ok h
    exact .inl ⟨rfl, hne, hd, hr⟩
  · rename_i hp
    simp only [Except.ok.injEq, Prod.mk.injEq] at h
    obtain ⟨rfl, rfl⟩ := h
    refine .inr ⟨rfl, rfl, fun hh => ?_⟩
    cases text with
    | nil => simp at hh
    | cons c cs => exact hp cs (by simpa using hh)

theorem scanFraction_none {atEnd : SyntaxError} {text : List Char} (h : text.head? ≠ some '.') :
    scanFraction atEnd text = .ok ([], text) := by
  rw [scanFraction]
  rintro rest rfl
  simp at h

theorem scanFraction_append {atEnd atEnd' : SyntaxError} {text fraction rest more : List Char}
    (h : scanFraction atEnd text = .ok (fraction, rest)) (hm : rest = [] → EndsNumber more) :
    scanFraction atEnd' (text ++ more) = .ok (fraction, rest ++ more) := by
  obtain ⟨rfl, hne, hd, hr⟩ | ⟨rfl, rfl, hp⟩ := scanFraction_ok h
  · simp only [List.cons_append, List.append_assoc]
    exact digitsOr_append hne hd (hr.append hm)
  · refine scanFraction_none ?_
    cases text with
    | nil => exact fun hh => (hm rfl '.' hh).2.1 rfl
    | cons c text => exact hp

theorem length_scanFraction_le {atEnd : SyntaxError} {text fraction rest : List Char}
    (h : scanFraction atEnd text = .ok (fraction, rest)) : rest.length ≤ text.length := by
  obtain ⟨rfl, -⟩ | ⟨-, rfl, -⟩ := scanFraction_ok h
  · simp only [List.length_cons, List.length_append]
    omega
  · exact Nat.le_refl _

theorem scanSign_append {text : List Char} (hne : text ≠ []) (more : List Char) :
    scanSign (text ++ more) = ((scanSign text).1, (scanSign text).2 ++ more) := by
  obtain ⟨c, cs, rfl⟩ := List.exists_cons_of_ne_nil hne
  by_cases hm : c = '-'
  · subst hm; rfl
  · by_cases hp : c = '+'
    · subst hp; rfl
    · simp [scanSign, hm, hp]

theorem length_scanSign_le (text : List Char) : (scanSign text).2.length ≤ text.length := by
  unfold scanSign
  split <;> simp

theorem scanExponent_none {atEnd : SyntaxError} {text : List Char} (h : EndsNumber text) :
    scanExponent atEnd text = .ok (none, text) := by
  cases text with
  | nil => rfl
  | cons c text =>
    obtain ⟨-, -, he, hE⟩ := h c rfl
    simp [scanExponent, he, hE]

/-- What a successful scan of an exponent says, whatever comes after it. -/
theorem scanExponent_append {atEnd atEnd' : SyntaxError} {text rest more : List Char}
    {exponent : Option Int} (h : scanExponent atEnd text = .ok (exponent, rest))
    (hm : rest = [] → EndsNumber more) :
    scanExponent atEnd' (text ++ more) = .ok (exponent, rest ++ more) := by
  cases text with
  | nil =>
    simp only [scanExponent, Except.ok.injEq, Prod.mk.injEq] at h
    obtain ⟨rfl, rfl⟩ := h
    exact scanExponent_none (hm rfl)
  | cons c cs =>
    simp only [scanExponent, List.cons_append] at h ⊢
    split at h
    · rename_i hc
      obtain ⟨⟨digits, rest'⟩, hd, h⟩ := bind_ok_iff.mp h
      simp only [Except.ok.injEq, Prod.mk.injEq] at h
      obtain ⟨rfl, rfl⟩ := h
      obtain ⟨hs, hne, hdig, hr⟩ := digitsOr_ok hd
      have hcs : cs ≠ [] := by
        rintro rfl
        exact hne (List.append_eq_nil_iff.mp hs.symm).1
      rw [if_pos hc, scanSign_append hcs]
      simp only [hs, List.append_assoc, digitsOr_append hne hdig (hr.append hm), ok_bind]
    · rename_i hc
      simp only [Except.ok.injEq, Prod.mk.injEq] at h
      obtain ⟨rfl, rfl⟩ := h
      rw [if_neg hc]
      rfl

theorem length_scanExponent_le {atEnd : SyntaxError} {text rest : List Char}
    {exponent : Option Int} (h : scanExponent atEnd text = .ok (exponent, rest)) :
    rest.length ≤ text.length := by
  cases text with
  | nil =>
    simp only [scanExponent, Except.ok.injEq, Prod.mk.injEq] at h
    simp [← h.2]
  | cons c cs =>
    simp only [scanExponent] at h
    split at h
    · obtain ⟨⟨digits, rest'⟩, hd, h⟩ := bind_ok_iff.mp h
      simp only [Except.ok.injEq, Prod.mk.injEq] at h
      obtain ⟨-, rfl⟩ := h
      obtain ⟨hs, -⟩ := digitsOr_ok hd
      have := length_scanSign_le cs
      simp only [hs, List.length_append, List.length_cons] at *
      omega
    · simp only [Except.ok.injEq, Prod.mk.injEq] at h
      simp [← h.2]

/-- The parts of a literal that has been scanned. -/
theorem scanUnsigned_ok {atEnd : SyntaxError} {negative : Bool} {text rest : List Char}
    {l : Literal} (h : scanUnsigned atEnd negative text = .ok (l, rest)) :
    ∃ r₁ r₂, scanWhole atEnd text = .ok (l.whole, r₁) ∧
      scanFraction atEnd r₁ = .ok (l.fraction, r₂) ∧
      scanExponent atEnd r₂ = .ok (l.exponent, rest) ∧ l.negative = negative := by
  obtain ⟨⟨whole, r₁⟩, hw, h⟩ := bind_ok_iff.mp h
  obtain ⟨⟨fraction, r₂⟩, hf, h⟩ := bind_ok_iff.mp h
  obtain ⟨⟨exponent, r₃⟩, he, h⟩ := bind_ok_iff.mp h
  simp only [Except.ok.injEq, Prod.mk.injEq] at h
  obtain ⟨rfl, rfl⟩ := h
  exact ⟨r₁, r₂, hw, hf, he, rfl⟩

theorem scanUnsigned_append {atEnd atEnd' : SyntaxError} {negative : Bool}
    {text rest more : List Char} {l : Literal}
    (h : scanUnsigned atEnd negative text = .ok (l, rest)) (hm : rest = [] → EndsNumber more) :
    scanUnsigned atEnd' negative (text ++ more) = .ok (l, rest ++ more) := by
  obtain ⟨r₁, r₂, hw, hf, he, rfl⟩ := scanUnsigned_ok h
  have h₂ : r₂ = [] → EndsNumber more := by
    rintro rfl
    have := length_scanExponent_le he
    exact hm (List.eq_nil_of_length_eq_zero (by simpa using this))
  have h₁ : r₁ = [] → EndsNumber more := by
    rintro rfl
    have := length_scanFraction_le hf
    exact h₂ (List.eq_nil_of_length_eq_zero (by simpa using this))
  obtain ⟨rfl, hne, hd, hz, hr₁⟩ := scanWhole_ok hw
  simp only [scanUnsigned, List.append_assoc, scanWhole_append hne hd hz (hr₁.append h₁),
    scanFraction_append hf h₂, scanExponent_append he hm, ok_bind]

theorem length_of_scanUnsigned {atEnd : SyntaxError} {negative : Bool} {text rest : List Char}
    {l : Literal} (h : scanUnsigned atEnd negative text = .ok (l, rest)) :
    rest.length < text.length := by
  obtain ⟨r₁, r₂, hw, hf, he, -⟩ := scanUnsigned_ok h
  have := length_scanExponent_le he
  have := length_scanFraction_le hf
  obtain ⟨hs, hne, -⟩ := scanWhole_ok hw
  have := List.length_pos_iff.mpr hne
  simp only [hs, List.length_append]
  omega

theorem scan_of_ne {atEnd : SyntaxError} {text : List Char} (h : text.head? ≠ some '-') :
    scan atEnd text = scanUnsigned atEnd false text := by
  rw [scan]
  rintro rest rfl
  simp at h

/-- More text after a literal that could not go on changes nothing, nor does the error that an
end of the text inside it would have been. -/
theorem scan_append {atEnd atEnd' : SyntaxError} {text rest more : List Char} {l : Literal}
    (h : scan atEnd text = .ok (l, rest)) (hm : rest = [] → EndsNumber more) :
    scan atEnd' (text ++ more) = .ok (l, rest ++ more) := by
  unfold scan at h
  split at h
  · exact scanUnsigned_append h hm
  · rename_i hn
    have hne : text ≠ [] := by
      rintro rfl
      exact absurd (length_of_scanUnsigned h) (by simp)
    rw [scan_of_ne]
    · exact scanUnsigned_append h hm
    · obtain ⟨c, cs, rfl⟩ := List.exists_cons_of_ne_nil hne
      intro hc
      exact hn cs (by simpa using hc)

theorem scan_atEnd {atEnd : SyntaxError} {text rest : List Char} {l : Literal}
    (h : scan atEnd text = .ok (l, rest)) (atEnd' : SyntaxError) :
    scan atEnd' text = .ok (l, rest) := by
  simpa using scan_append h fun _ => EndsNumber.nil

theorem length_of_scan {atEnd : SyntaxError} {text rest : List Char} {l : Literal}
    (h : scan atEnd text = .ok (l, rest)) : rest.length < text.length := by
  unfold scan at h
  split at h
  · have := length_of_scanUnsigned h
    simp only [List.length_cons]
    omega
  · exact length_of_scanUnsigned h

/-! ## The text of a literal -/

theorem scanFraction_piece {atEnd : SyntaxError} {text fraction rest : List Char}
    (h : scanFraction atEnd text = .ok (fraction, rest)) (atEnd' : SyntaxError) :
    ∃ piece, text = piece ++ rest ∧ ∀ more, EndsDigits more → more.head? ≠ some '.' →
      scanFraction atEnd' (piece ++ more) = .ok (fraction, more) ∧ EndsDigits (piece ++ more) := by
  obtain ⟨rfl, hne, hd, -⟩ | ⟨rfl, rfl, -⟩ := scanFraction_ok h
  · refine ⟨'.' :: fraction, rfl, fun more hm _ => ⟨digitsOr_append hne hd hm, ?_⟩⟩
    intro c hc
    obtain rfl : '.' = c := by simpa using hc
    decide
  · exact ⟨[], rfl, fun more hm hp => ⟨scanFraction_none hp, hm⟩⟩

/-- A sign is only looked for where digits follow. -/
theorem scanSign_piece (text : List Char) : ∃ sign, text = sign ++ (scanSign text).2 ∧
    ∀ more, (∃ c ∈ more.head?, c.isDigit = true) →
      scanSign (sign ++ more) = ((scanSign text).1, more) := by
  unfold scanSign
  split
  · exact ⟨['-'], rfl, fun _ _ => rfl⟩
  · exact ⟨['+'], rfl, fun _ _ => rfl⟩
  · refine ⟨[], rfl, fun more hm => ?_⟩
    obtain ⟨c, hc, hd⟩ := hm
    obtain ⟨more, rfl⟩ : ∃ rest, more = c :: rest := List.head?_eq_some_iff.mp hc
    rw [List.nil_append]
    split
    · rename_i heq
      obtain ⟨rfl, -⟩ := List.cons.inj heq
      exact absurd hd (by decide)
    · rename_i heq
      obtain ⟨rfl, -⟩ := List.cons.inj heq
      exact absurd hd (by decide)
    · rfl

theorem scanExponent_piece {atEnd : SyntaxError} {text rest : List Char} {exponent : Option Int}
    (h : scanExponent atEnd text = .ok (exponent, rest)) (atEnd' : SyntaxError) :
    ∃ piece, text = piece ++ rest ∧ ∀ more, EndsNumber more →
      scanExponent atEnd' (piece ++ more) = .ok (exponent, more) ∧
        EndsDigits (piece ++ more) ∧ (piece ++ more).head? ≠ some '.' := by
  have hnone : ∀ more, EndsNumber more → scanExponent atEnd' more = .ok (none, more) ∧
      EndsDigits more ∧ more.head? ≠ some '.' := fun more hm =>
    ⟨scanExponent_none hm, fun c hc => (hm c hc).1, fun hp => (hm '.' hp).2.1 rfl⟩
  cases text with
  | nil =>
    obtain ⟨rfl, rfl⟩ : none = exponent ∧ [] = rest := by simpa [scanExponent] using h
    exact ⟨[], rfl, hnone⟩
  | cons c cs =>
    rw [scanExponent] at h
    split at h
    · rename_i hc
      obtain ⟨⟨digits, mid⟩, hd, h⟩ := bind_ok_iff.mp h
      have hs : (scanSign cs).2 = digits ++ mid := (digitsOr_ok hd).1
      obtain ⟨-, hne, hdig, -⟩ := digitsOr_ok hd
      obtain ⟨hexponent, rfl⟩ : _ = exponent ∧ mid = rest := by simpa using h
      obtain ⟨sign, hcs, hsign⟩ := scanSign_piece cs
      rw [hs] at hcs
      refine ⟨c :: (sign ++ digits), by simp [hcs], fun more hm => ⟨?_, ?_, ?_⟩⟩
      · have hdigits : ∃ d ∈ (digits ++ more).head?, d.isDigit = true := by
          obtain ⟨d, ds, rfl⟩ := List.exists_cons_of_ne_nil hne
          exact ⟨d, rfl, hdig d List.mem_cons_self⟩
        have hmore : EndsDigits more := (hnone more hm).2.1
        rw [List.cons_append, List.append_assoc, scanExponent, if_pos hc, hsign _ hdigits]
        simp only [digitsOr_append hne hdig hmore, ok_bind]
        exact congrArg (fun e => Except.ok (e, more)) hexponent
      · intro d hd
        obtain rfl : c = d := by simpa using hd
        rcases (by simpa using hc : c = 'e' ∨ c = 'E') with rfl | rfl <;> decide
      · intro hp
        obtain rfl : c = '.' := by simpa using hp
        exact absurd hc (by decide)
    · rename_i hc
      obtain ⟨rfl, rfl⟩ : none = exponent ∧ c :: cs = rest := by simpa using h
      exact ⟨[], rfl, hnone⟩

theorem scanUnsigned_piece {atEnd : SyntaxError} {negative : Bool} {text rest : List Char}
    {l : Literal} (h : scanUnsigned atEnd negative text = .ok (l, rest)) (atEnd' : SyntaxError) :
    ∃ piece, text = piece ++ rest ∧ piece ≠ [] ∧ ∀ more, EndsNumber more →
      scanUnsigned atEnd' negative (piece ++ more) = .ok (l, more) := by
  obtain ⟨r₁, r₂, hw, hf, he, rfl⟩ := scanUnsigned_ok h
  obtain ⟨rfl, hne, hd, hz, -⟩ := scanWhole_ok hw
  obtain ⟨fraction, rfl, hfraction⟩ := scanFraction_piece hf atEnd'
  obtain ⟨exponent, rfl, hexponent⟩ := scanExponent_piece he atEnd'
  refine ⟨l.whole ++ (fraction ++ exponent), by simp, by simp [hne], fun more hm => ?_⟩
  obtain ⟨hexponent, hends, hpoint⟩ := hexponent more hm
  obtain ⟨hfraction, hends⟩ := hfraction (exponent ++ more) hends hpoint
  simp only [scanUnsigned, List.append_assoc, scanWhole_append hne hd hz hends, hfraction,
    hexponent, ok_bind]

/-- What is scanned is scanned from the text up to the end of the literal, whatever comes after
that can not go on with it. -/
theorem scan_piece {atEnd : SyntaxError} {text rest : List Char} {l : Literal}
    (h : scan atEnd text = .ok (l, rest)) (atEnd' : SyntaxError) :
    ∃ piece, text = piece ++ rest ∧ piece ≠ [] ∧ ∀ more, EndsNumber more →
      scan atEnd' (piece ++ more) = .ok (l, more) := by
  unfold scan at h
  split at h
  · obtain ⟨piece, rfl, -, hpiece⟩ := scanUnsigned_piece h atEnd'
    exact ⟨'-' :: piece, rfl, by simp, hpiece⟩
  · rename_i hn
    obtain ⟨piece, rfl, hne, hpiece⟩ := scanUnsigned_piece h atEnd'
    obtain ⟨c, piece, rfl⟩ := List.exists_cons_of_ne_nil hne
    refine ⟨c :: piece, rfl, hne, fun more hm => ?_⟩
    rw [scan_of_ne fun hc => hn (piece ++ rest) (by simpa using hc)]
    exact hpiece more hm

/-! ## Written integers -/

/-- The literal of a written integer. -/
def ofInt : Int → Literal
  | .ofNat n => ⟨false, Decimal.natural n, [], none⟩
  | .negSucc n => ⟨true, Decimal.natural (n + 1), [], none⟩

theorem scanUnsigned_natural (atEnd : SyntaxError) (negative : Bool) (n : Nat) {rest : List Char}
    (h : EndsNumber rest) : scanUnsigned atEnd negative (Decimal.natural n ++ rest) =
      .ok (⟨negative, Decimal.natural n, [], none⟩, rest) := by
  have hf : scanFraction atEnd rest = .ok ([], rest) :=
    scanFraction_none fun hc => (h '.' hc).2.1 rfl
  simp only [scanUnsigned, scanWhole_append (Decimal.natural_ne_nil n)
    (fun c => Decimal.isDigit_of_mem_natural) Decimal.natural_eq_of_head
    (fun c hc => (h c hc).1), hf, scanExponent_none h, ok_bind]

theorem scan_integer (atEnd : SyntaxError) (n : Int) {rest : List Char} (h : EndsNumber rest) :
    scan atEnd (Decimal.integer n ++ rest) = .ok (ofInt n, rest) := by
  cases n with
  | negSucc n => exact scanUnsigned_natural atEnd true (n + 1) h
  | ofNat n =>
    simp only [Decimal.integer]
    rw [scan_of_ne]
    · exact scanUnsigned_natural atEnd false n h
    · intro hc
      obtain ⟨c, cs, hcs⟩ := List.exists_cons_of_ne_nil (Decimal.natural_ne_nil n)
      rw [hcs] at hc
      obtain rfl : c = '-' := by simpa using hc
      exact Decimal.minus_not_mem_natural n (hcs ▸ List.mem_cons_self)

/-- An integer in the range of either 64-bit type denotes itself. -/
theorem value_ofInt {n : Int} (hl : Int64.minValue.toInt ≤ n) (hu : n < UInt64.size) :
    (ofInt n).value = .ok (.int n) := by
  have : (ofInt n).toInt? = some n := by
    cases n with
    | ofNat n =>
      have hn : n < UInt64.size := Int.ofNat_lt.mp hu
      simp [ofInt, toInt?, Decimal.value_natural, hn]
    | negSucc n =>
      have hn : 0 < n + 1 ∧ Int64.minValue.toInt ≤ -((n + 1 : Nat) : Int) := ⟨Nat.succ_pos n, hl⟩
      show toInt? (ofInt (Int.negSucc n)) = some (-((n + 1 : Nat) : Int))
      simp only [ofInt, toInt?, Decimal.value_natural, if_pos hn]
      rfl
  simp [value, this]

/-- A literal denotes a number. -/
theorem value_ok {l : Literal} {v : Value} (h : l.value = .ok v) :
    (∃ n, v = .int n) ∨ ∃ bits, v = .float bits := by
  unfold value at h
  split at h
  · rename_i n _
    exact .inl ⟨n, (Except.ok.inj h).symm⟩
  · obtain ⟨x, -, h⟩ := bind_ok_iff.mp h
    exact .inr ⟨x.toBits, (Except.ok.inj h).symm⟩

theorem toInt?_of_value {l : Literal} {n : Int} (h : l.value = .ok (.int n)) :
    l.toInt? = some n := by
  unfold value at h
  split at h
  · rename_i k hk
    rw [hk, Value.int.inj (Except.ok.inj h)]
  · obtain ⟨x, -, h⟩ := bind_ok_iff.mp h
    nomatch h

end Literal

end IcuMessage.Json
