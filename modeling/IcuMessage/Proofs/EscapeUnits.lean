/-
Escaped texts, unit by unit. A unit is what one piece of a text is written as,
so the pieces can be read off again (`units?_written`) and a text has its
escapes taken off (`decode`). Not every sequence of units is written for a
text: a backslash before a `#` is a piece of its own, so an escaped backslash is
never followed by a plain `#`. That is the only exception
(`escape_decode`).
-/
import IcuMessage.Escape

namespace IcuMessage.Escape

/-- The pieces whose written forms, one after another, are the text; none where a unit should begin
and does not. -/
def units? : List Char → Option (List Piece)
  | [] => some []
  | '\\' :: '#' :: rest => (units? rest).map (.backslashHash :: ·)
  | '\\' :: c :: rest => if isSpecial c then (units? rest).map (.special c :: ·) else none
  | c :: rest => if isSpecial c then none else (units? rest).map (.plain c :: ·)

/-- The text with its escapes taken off, if it is one of units. -/
def decode (text : List Char) : Option (List Char) :=
  (units? text).map fun units => units.flatMap Piece.source

/-- Somewhere an escaped backslash is directly followed by a plain `#`. -/
def SplitHash (units : List Piece) : Prop :=
  [.special '\\', .plain '#'] <:+: units

/-- The piece is what the scan makes of a character, or of a backslash and a `#`. -/
def Piece.Proper : Piece → Prop
  | .plain c => isSpecial c = false
  | .special c => isSpecial c = true
  | .backslashHash => True

theorem ne_hash_of_isSpecial {c : Char} (h : isSpecial c = true) : c ≠ '#' := by
  rintro rfl
  exact absurd h (by decide)

theorem ne_backslash_of_not_isSpecial {c : Char} (h : isSpecial c = false) : c ≠ '\\' := by
  rintro rfl
  exact absurd h (by decide)

/-! ## Reading units -/

theorem units?_special {c : Char} (h : isSpecial c = true) (rest : List Char) :
    units? ('\\' :: c :: rest) = (units? rest).map (.special c :: ·) := by
  rw [units?, if_pos h]
  exact fun hc => ne_hash_of_isSpecial h hc

theorem units?_plain {c : Char} (h : isSpecial c = false) (rest : List Char) :
    units? (c :: rest) = (units? rest).map (.plain c :: ·) := by
  have hc := ne_backslash_of_not_isSpecial h
  rw [units?, if_neg (by simp [h])]
  · exact fun _ hb => absurd hb hc
  · exact fun _ _ hb => absurd hb hc

/-- What is written for pieces is read as these pieces. -/
theorem units?_written {units : List Piece} (h : ∀ p ∈ units, p.Proper) :
    units? (units.flatMap Piece.written) = some units := by
  induction units with
  | nil => rfl
  | cons p units ih =>
    obtain ⟨hp, hunits⟩ := List.forall_mem_cons.mp h
    rw [List.flatMap_cons]
    cases p with
    | plain c =>
      show units? (c :: units.flatMap Piece.written) = _
      rw [units?_plain hp, ih hunits]
      rfl
    | special c =>
      show units? ('\\' :: c :: units.flatMap Piece.written) = _
      rw [units?_special hp, ih hunits]
      rfl
    | backslashHash =>
      show units? ('\\' :: '#' :: units.flatMap Piece.written) = _
      rw [units?, ih hunits]
      rfl

/-- Only what is written for pieces is read as pieces. -/
theorem written_of_units? {text : List Char} {units : List Piece} (h : units? text = some units) :
    units.flatMap Piece.written = text ∧ ∀ p ∈ units, p.Proper := by
  fun_induction units? text generalizing units with
  | case1 =>
    obtain rfl : [] = units := Option.some.inj h
    exact ⟨rfl, List.forall_mem_nil _⟩
  | case2 rest ih =>
    obtain ⟨inner, hinner, rfl⟩ := Option.map_eq_some_iff.mp h
    obtain ⟨hwritten, hproper⟩ := ih hinner
    refine ⟨?_, List.forall_mem_cons.mpr ⟨trivial, hproper⟩⟩
    rw [List.flatMap_cons, hwritten]
    rfl
  | case3 c rest _ hc ih =>
    obtain ⟨inner, hinner, rfl⟩ := Option.map_eq_some_iff.mp h
    obtain ⟨hwritten, hproper⟩ := ih hinner
    refine ⟨?_, List.forall_mem_cons.mpr ⟨hc, hproper⟩⟩
    rw [List.flatMap_cons, hwritten]
    rfl
  | case4 c rest _ hc => simp at h
  | case5 c rest _ _ hc => simp at h
  | case6 c rest _ _ hc ih =>
    obtain ⟨inner, hinner, rfl⟩ := Option.map_eq_some_iff.mp h
    obtain ⟨hwritten, hproper⟩ := ih hinner
    refine ⟨?_, List.forall_mem_cons.mpr ⟨Bool.eq_false_iff.mpr hc, hproper⟩⟩
    rw [List.flatMap_cons, hwritten]
    rfl

/-! ## The pieces of a text -/

theorem scan_cons {c : Char} {rest : List Char} (h : ¬(c = '\\' ∧ rest.head? = some '#')) :
    scan (c :: rest) = (if isSpecial c then .special c else .plain c) :: scan rest := by
  rw [scan]
  rintro tail rfl rfl
  exact h ⟨rfl, rfl⟩

theorem proper_scan (text : List Char) : ∀ p ∈ scan text, p.Proper := by
  fun_induction scan text with
  | case1 => exact List.forall_mem_nil _
  | case2 rest ih => exact List.forall_mem_cons.mpr ⟨trivial, ih⟩
  | case3 c rest _ ih =>
    refine List.forall_mem_cons.mpr ⟨?_, ih⟩
    split
    · assumption
    · rename_i hc
      exact Bool.eq_false_iff.mpr hc

/-- The first piece is a plain `#` only where the text begins with one. -/
theorem head?_source {units : List Piece} (h : ∀ p ∈ units, p.Proper) :
    (units.flatMap Piece.source).head? = some '#' ↔ units.head? = some (.plain '#') := by
  cases units with
  | nil => simp
  | cons p units =>
    have hp := h p List.mem_cons_self
    cases p with
    | plain c => simp [Piece.source]
    | special c => simpa [Piece.source] using ne_hash_of_isSpecial hp
    | backslashHash => simp [Piece.source]

theorem splitHash_cons {p : Piece} {units : List Piece} :
    SplitHash (p :: units) ↔
      (p = .special '\\' ∧ units.head? = some (.plain '#')) ∨ SplitHash units := by
  rw [SplitHash, List.infix_cons_iff, List.cons_prefix_cons,
    List.singleton_prefix_iff_head?_eq_some, eq_comm]
  rfl

/-- Pieces are those of their own text, unless an escaped backslash and a plain `#` would be scanned
as one piece. -/
theorem scan_source {units : List Piece} (hproper : ∀ p ∈ units, p.Proper)
    (hsplit : ¬SplitHash units) : scan (units.flatMap Piece.source) = units := by
  induction units with
  | nil => simp [scan]
  | cons p units ih =>
    obtain ⟨hp, hunits⟩ := List.forall_mem_cons.mp hproper
    rw [splitHash_cons, not_or] at hsplit
    have hrest := ih hunits hsplit.2
    rw [List.flatMap_cons]
    cases p with
    | plain c =>
      have hc : isSpecial c = false := hp
      show scan (c :: units.flatMap Piece.source) = _
      rw [scan_cons fun h => ne_backslash_of_not_isSpecial hc h.1, hrest, if_neg (by simp [hc])]
    | special c =>
      have hc : isSpecial c = true := hp
      have hnext : ¬(c = '\\' ∧ (units.flatMap Piece.source).head? = some '#') := by
        rintro ⟨rfl, hhash⟩
        exact hsplit.1 ⟨rfl, (head?_source hunits).mp hhash⟩
      show scan (c :: units.flatMap Piece.source) = _
      rw [scan_cons hnext, hrest, if_pos hc]
    | backslashHash =>
      show scan ('\\' :: '#' :: units.flatMap Piece.source) = _
      rw [scan, hrest]

/-- The scan takes a backslash and a `#` after it together. -/
theorem not_splitHash_scan (text : List Char) : ¬SplitHash (scan text) := by
  fun_induction scan text with
  | case1 => simp [SplitHash]
  | case2 rest ih => simpa [splitHash_cons] using ih
  | case3 c rest hc ih =>
    rw [splitHash_cons, not_or]
    refine ⟨?_, ih⟩
    rintro ⟨hp, hnext⟩
    have hhash : rest.head? = some '#' := by
      rw [← flatMap_source_scan rest]
      exact (head?_source (proper_scan rest)).mpr hnext
    obtain ⟨tail, rfl⟩ := List.head?_eq_some_iff.mp hhash
    split at hp
    · exact hc tail (Piece.special.inj hp) rfl
    · simp at hp

/-! ## Texts that are written -/

theorem units?_escape (source : List Char) : units? (escape source) = some (scan source) :=
  units?_written (proper_scan source)

theorem escape_source {text : List Char} {units : List Piece} (h : units? text = some units)
    (hsplit : ¬SplitHash units) : escape (units.flatMap Piece.source) = text := by
  obtain ⟨hwritten, hproper⟩ := written_of_units? h
  rw [escape, scan_source hproper hsplit, hwritten]

/-- **Escapes can be taken off again, and what is written for some text is exactly a sequence of
units where no escaped backslash is followed by a plain `#`.** Such a sequence, its escapes taken
off, is written as it was. -/
theorem escape_decode (source text : List Char) :
    decode (escape source) = some source ∧
      ((∃ s, escape s = text) ↔ ∃ units, units? text = some units ∧ ¬SplitHash units) ∧
      ∀ units, units? text = some units → ¬SplitHash units →
        ∃ s, decode text = some s ∧ escape s = text := by
  refine ⟨?_, ⟨?_, ?_⟩, ?_⟩
  · rw [decode, units?_escape, Option.map_some, flatMap_source_scan]
  · rintro ⟨s, rfl⟩
    exact ⟨scan s, units?_escape s, not_splitHash_scan s⟩
  · rintro ⟨units, h, hsplit⟩
    exact ⟨_, escape_source h hsplit⟩
  · intro units h hsplit
    exact ⟨_, by rw [decode, h, Option.map_some], escape_source h hsplit⟩

/-- Three backslashes and a `#`: the last backslash belongs to the `#`. -/
example : escape ['\\', '\\', '\\', '#'] = ['\\', '\\', '\\', '\\', '\\', '#'] := by decide

end IcuMessage.Escape
