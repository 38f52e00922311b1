/-
The small steps of reading, as facts about success: what a successful bind
says, blanks, words, and where one text can be put after another without
changing how the first is read.
-/
import IcuMessage.Json.Container

namespace IcuMessage.Json

theorem bind_ok_iff {ε α β : Type} {x : Except ε α} {f : α → Except ε β} {b : β} :
    (x >>= f) = .ok b ↔ ∃ a, x = .ok a ∧ f a = .ok b := by
  cases x <;> simp [bind, Except.bind]

theorem map_ok_iff {ε α β : Type} {x : Except ε α} {f : α → β} {b : β} :
    x.map f = .ok b ↔ ∃ a, x = .ok a ∧ f a = b := by
  cases x <;> simp [Except.map]

theorem mapError_ok_iff {ε δ α : Type} {x : Except ε α} {f : ε → δ} {a : α} :
    x.mapError f = .ok a ↔ x = .ok a := by
  cases x with
  | ok b =>
    have hmap : (Except.ok b : Except ε α).mapError f = .ok b := rfl
    rw [hmap, Except.ok.injEq, Except.ok.injEq]
  | error e =>
    have hmap : (Except.error e : Except ε α).mapError f = .error (f e) := rfl
    simp [hmap]

theorem toOption_eq_some_iff {ε α : Type} {x : Except ε α} {a : α} :
    x.toOption = some a ↔ x = .ok a := by
  cases x <;> simp [Except.toOption]

@[simp] theorem ok_bind {ε α β : Type} (a : α) (f : α → Except ε β) :
    (Except.ok a >>= f) = f a := rfl

@[simp] theorem error_bind {ε α β : Type} (e : ε) (f : α → Except ε β) :
    (Except.error e >>= f) = .error e := rfl

@[simp] theorem fail_bind {α β : Type} (cause : SyntaxError) (f : α → Except Error β) :
    (fail cause >>= f) = fail cause := rfl

@[simp] theorem fail_ne_ok {α : Type} (cause : SyntaxError) (a : α) :
    fail cause ≠ Except.ok a := nofun

@[simp] theorem ok_ne_fail {α : Type} (cause : SyntaxError) (a : α) :
    Except.ok a ≠ fail cause := nofun

@[simp] theorem map_ok {ε α β : Type} (f : α → β) (a : α) :
    Except.map f (.ok a : Except ε α) = .ok (f a) := rfl

@[simp] theorem map_error {ε α β : Type} (f : α → β) (e : ε) :
    Except.map f (.error e : Except ε α) = .error e := rfl

@[simp] theorem map_fail {α β : Type} (f : α → β) (cause : SyntaxError) :
    Except.map f (fail cause) = fail cause := rfl

/-! ## Blanks -/

theorem skipBlanks_cons_of_not {c : Char} (h : isBlank c = false) (rest : List Char) :
    skipBlanks (c :: rest) = c :: rest := by
  simp [skipBlanks, h]

theorem not_isBlank_of_skipBlanks {text rest : List Char} {c : Char}
    (h : skipBlanks text = c :: rest) : isBlank c = false := by
  have := List.head?_dropWhile_not isBlank text
  rw [← skipBlanks, h] at this
  simpa using this

@[simp] theorem skipBlanks_skipBlanks (text : List Char) :
    skipBlanks (skipBlanks text) = skipBlanks text := by
  cases h : skipBlanks text with
  | nil => rfl
  | cons c rest => exact skipBlanks_cons_of_not (not_isBlank_of_skipBlanks h) rest

theorem length_skipBlanks_le (text : List Char) : (skipBlanks text).length ≤ text.length :=
  (List.dropWhile_suffix isBlank).length_le

theorem length_lt_of_skipBlanks {text rest : List Char} {c : Char}
    (h : skipBlanks text = c :: rest) : rest.length < text.length := by
  have := length_skipBlanks_le text
  simp only [h, List.length_cons] at this
  omega

theorem skipBlanks_append {text rest : List Char} {c : Char} (h : skipBlanks text = c :: rest)
    (more : List Char) : skipBlanks (text ++ more) = c :: (rest ++ more) := by
  rw [skipBlanks, List.dropWhile_append, ← skipBlanks, h]
  rfl

theorem skipBlanks_append_of_nil {text : List Char} (h : skipBlanks text = []) (more : List Char) :
    skipBlanks (text ++ more) = skipBlanks more := by
  rw [skipBlanks, List.dropWhile_append, ← skipBlanks, h]
  rfl

/-! ## Words -/

theorem expectWord_ok_iff {word text rest : List Char} :
    expectWord word text = .ok rest ↔ text = word ++ rest := by
  induction word generalizing text with
  | nil => simp [expectWord]
  | cons c word ih =>
    cases text with
    | nil => simp [expectWord]
    | cons d text =>
      by_cases h : c = d
      · subst h
        simp [expectWord, ih]
      · simp [expectWord, h, Ne.symm h]

end IcuMessage.Json
