/-
How much longer a text is when escaped, and which texts stay as they are. A text
grows by one backslash for each brace and for each backslash with no `#` right
after it (`length_escape`), and it stays as it is where there is none of these
(`escape_eq_iff`). An escaped character is no `#` and has a backslash before it,
which the next escaping doubles, so escaping twice is escaping once only for
texts that stay as they are (`escape_escape_iff`).
-/
import IcuMessage.Proofs.EscapeUnits

namespace IcuMessage.Escape

/-- The positions with a backslash that no `#` follows directly. -/
def loneBackslashes (text : List Char) : Nat :=
  (List.range text.length).countP fun i => text[i]? = some '\\' ∧ text[i + 1]? ≠ some '#'

/-- Every backslash has a `#` right after it. -/
def HashedBackslashes (text : List Char) : Prop :=
  ∀ i : Nat, text[i]? = some '\\' → text[i + 1]? = some '#'

def Piece.isSpecial : Piece → Bool
  | .plain _ => false
  | .special _ => true
  | .backslashHash => false

/-! ## Growth -/

theorem length_written (units : List Piece) :
    (units.flatMap Piece.written).length =
      (units.flatMap Piece.source).length + units.countP Piece.isSpecial := by
  induction units with
  | nil => rfl
  | cons p units ih =>
    have hp : p.written.length = p.source.length + if p.isSpecial then 1 else 0 := by
      cases p <;> rfl
    rw [List.flatMap_cons, List.flatMap_cons, List.length_append, List.length_append, ih, hp,
      List.countP_cons]
    omega

theorem loneBackslashes_cons (c : Char) (rest : List Char) :
    loneBackslashes (c :: rest) =
      (if c = '\\' ∧ rest.head? ≠ some '#' then 1 else 0) + loneBackslashes rest := by
  rw [loneBackslashes, List.length_cons, List.range_succ_eq_map, List.countP_cons, List.countP_map,
    Nat.add_comm, loneBackslashes]
  simp [Function.comp_def, List.head?_eq_getElem?]

theorem countP_scan (text : List Char) :
    (scan text).countP Piece.isSpecial =
      text.count '{' + text.count '}' + loneBackslashes text := by
  fun_induction scan text with
  | case1 => rfl
  | case2 rest ih =>
    simp [Piece.isSpecial, loneBackslashes_cons, ih]
  | case3 c rest hc ih =>
    have hnext : c = '\\' → rest.head? ≠ some '#' := by
      rintro rfl hhash
      obtain ⟨tail, rfl⟩ := List.head?_eq_some_iff.mp hhash
      exact hc tail rfl rfl
    rw [List.countP_cons, ih, loneBackslashes_cons, List.count_cons, List.count_cons]
    by_cases hopen : c = '{'
    · subst hopen
      simp [Piece.isSpecial, Escape.isSpecial]
      omega
    by_cases hclose : c = '}'
    · subst hclose
      simp [Piece.isSpecial, Escape.isSpecial]
      omega
    by_cases hback : c = '\\'
    · subst hback
      simp [Piece.isSpecial, Escape.isSpecial, hnext]
      omega
    · simp [Piece.isSpecial, Escape.isSpecial, hopen, hclose, hback]

theorem length_escape (text : List Char) :
    (escape text).length =
      text.length + text.count '{' + text.count '}' + loneBackslashes text := by
  rw [escape, length_written, flatMap_source_scan, countP_scan]
  omega

/-! ## Texts that stay as they are -/

theorem written_eq_source {units : List Piece} (h : units.countP Piece.isSpecial = 0) :
    units.flatMap Piece.written = units.flatMap Piece.source := by
  induction units with
  | nil => rfl
  | cons p units ih =>
    rw [List.countP_cons, Nat.add_eq_zero_iff] at h
    rw [List.flatMap_cons, List.flatMap_cons, ih h.1]
    cases p with
    | plain c => rfl
    | special c => exact absurd h.2 Nat.one_ne_zero
    | backslashHash => rfl

theorem escape_eq_of_countP {text : List Char} (h : (scan text).countP Piece.isSpecial = 0) :
    escape text = text := by
  rw [escape, written_eq_source h, flatMap_source_scan]

theorem loneBackslashes_eq_zero {text : List Char} :
    loneBackslashes text = 0 ↔ HashedBackslashes text := by
  rw [loneBackslashes, List.countP_eq_zero]
  constructor
  · intro h i hi
    have hlt := (List.getElem?_eq_some_iff.mp hi).1
    simpa [hi] using h i (List.mem_range.mpr hlt)
  · intro h i _
    simpa using h i

theorem escape_eq_iff (text : List Char) :
    escape text = text ↔ '{' ∉ text ∧ '}' ∉ text ∧ HashedBackslashes text := by
  rw [← List.count_eq_zero, ← List.count_eq_zero, ← loneBackslashes_eq_zero]
  constructor
  · intro h
    have hlength := length_escape text
    rw [h] at hlength
    omega
  · rintro ⟨hopen, hclose, hback⟩
    exact escape_eq_of_countP (by rw [countP_scan, hopen, hclose, hback])

theorem escape_escape_iff (text : List Char) :
    escape (escape text) = escape text ↔ escape text = text := by
  refine ⟨fun h => escape_eq_of_countP (List.countP_eq_zero.mpr fun p hp hspecial => ?_),
    fun h => by rw [h, h]⟩
  obtain ⟨-, -, hhashed⟩ := (escape_eq_iff (escape text)).mp h
  obtain ⟨earlier, later, hscan⟩ := List.append_of_mem hp
  cases p with
  | plain c => nomatch hspecial
  | backslashHash => nomatch hspecial
  | special c =>
    have hc : Escape.isSpecial c = true := proper_scan text _ hp
    have hwritten : escape text =
        earlier.flatMap Piece.written ++ '\\' :: c :: later.flatMap Piece.written := by
      rw [escape, hscan, List.flatMap_append, List.flatMap_cons]
      rfl
    have hnext := hhashed (earlier.flatMap Piece.written).length (by simp [hwritten])
    rw [hwritten, List.getElem?_append_right (by omega)] at hnext
    exact ne_hash_of_isSpecial hc (by simpa using hnext)

/-! ## Texts with nothing to look at -/

theorem isPlain_iff (text : List Char) :
    isPlain text = true ↔ '{' ∉ text ∧ '}' ∉ text ∧ '\\' ∉ text := by
  have hchars : isPlain text = true ↔ ∀ c ∈ text, Escape.isSpecial c = false := by
    unfold isPlain
    fun_induction scan text with
    | case1 => simp
    | case2 rest ih => simp [Piece.isPlain, Escape.isSpecial]
    | case3 c rest _ ih =>
      by_cases hc : Escape.isSpecial c = true
      · simp [hc, Piece.isPlain]
      · simp [hc, Piece.isPlain, ih]
  rw [hchars]
  constructor
  · intro h
    exact ⟨fun hc => absurd (h _ hc) (by decide), fun hc => absurd (h _ hc) (by decide),
      fun hc => absurd (h _ hc) (by decide)⟩
  · rintro ⟨hopen, hclose, hback⟩ c hc
    simp [Escape.isSpecial, ne_of_mem_of_not_mem hc hopen, ne_of_mem_of_not_mem hc hclose,
      ne_of_mem_of_not_mem hc hback]

theorem backslash_hash_iff_mem {text : List Char} (h : HashedBackslashes text) :
    ['\\', '#'] <:+: text ↔ '\\' ∈ text := by
  constructor
  · exact fun hpair => hpair.subset List.mem_cons_self
  · intro hmem
    obtain ⟨earlier, later, rfl⟩ := List.append_of_mem hmem
    have hnext := h earlier.length (by simp)
    rw [List.getElem?_append_right (by omega)] at hnext
    obtain ⟨rest, rfl⟩ := List.head?_eq_some_iff.mp
      (List.head?_eq_getElem? .. |>.trans (by simpa using hnext))
    exact ⟨earlier, rest, by simp⟩

/-- **A text grows by one character for each brace and for each backslash that no `#` follows
directly**, and stays as it is exactly where there is none of them; escaping again changes every
other text once more. Escaping has nothing to look at where there is neither brace nor backslash;
so a text it does look at and leaves as it is has a `\#`, no brace and no other backslash. -/
theorem escape_growth (text : List Char) :
    (escape text).length = text.length + text.count '{' + text.count '}' +
      (List.range text.length).countP
        (fun i => text[i]? = some '\\' ∧ text[i + 1]? ≠ some '#') ∧
    (escape text = text ↔ '{' ∉ text ∧ '}' ∉ text ∧
      ∀ i : Nat, text[i]? = some '\\' → text[i + 1]? = some '#') ∧
    (escape (escape text) = escape text ↔ escape text = text) ∧
    (isPlain text = true ↔ '{' ∉ text ∧ '}' ∉ text ∧ '\\' ∉ text) ∧
    (isPlain text = false ∧ escape text = text ↔
      ['\\', '#'] <:+: text ∧ '{' ∉ text ∧ '}' ∉ text ∧
        ∀ i : Nat, text[i]? = some '\\' → text[i + 1]? = some '#') := by
  refine ⟨length_escape text, escape_eq_iff text, escape_escape_iff text, isPlain_iff text, ?_⟩
  rw [← Bool.not_eq_true, isPlain_iff, escape_eq_iff]
  constructor
  · rintro ⟨hlooked, hopen, hclose, hhashed⟩
    have hback : '\\' ∈ text :=
      Decidable.byContradiction fun hback => hlooked ⟨hopen, hclose, hback⟩
    exact ⟨(backslash_hash_iff_mem hhashed).mpr hback, hopen, hclose, hhashed⟩
  · rintro ⟨hpair, hopen, hclose, hhashed⟩
    have hback := (backslash_hash_iff_mem hhashed).mp hpair
    exact ⟨fun hplain => hplain.2.2 hback, hopen, hclose, hhashed⟩

end IcuMessage.Escape
