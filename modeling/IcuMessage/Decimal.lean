/-
Integers in decimal: no leading zeros, a minus sign before a negative one.
Reading the digits of a natural number gives the number back.
-/
namespace IcuMessage.Decimal

def natural (n : Nat) : List Char :=
  Nat.toDigits 10 n

def integer : Int → List Char
  | .ofNat n => natural n
  | .negSucc n => '-' :: natural (n + 1)

/-- The number a list of digits denotes, leading zeros allowed. -/
def value (digits : List Char) : Nat :=
  Nat.ofDigitChars 10 digits 0

theorem value_natural (n : Nat) : value (natural n) = n :=
  Nat.ofDigitChars_toDigits (by decide) (by decide)

theorem natural_injective {n m : Nat} (h : natural n = natural m) : n = m := by
  rw [← value_natural n, h, value_natural]

theorem natural_ne_nil (n : Nat) : natural n ≠ [] :=
  Nat.toDigits_ne_nil

theorem isDigit_of_mem_natural {n : Nat} {c : Char} (h : c ∈ natural n) : c.isDigit = true :=
  Nat.isDigit_of_mem_toDigits (by decide) (by decide) h

/-- No leading zeros. -/
theorem natural_eq_of_head {n : Nat} (h : (natural n).head? = some '0') : natural n = ['0'] := by
  induction n using Nat.strongRecOn with
  | _ n ih =>
    by_cases hn : n < 10
    · rw [natural, Nat.toDigits_of_lt_base hn] at h ⊢
      simpa using h
    · have hle : 10 ≤ n := Nat.le_of_not_lt hn
      have hd : natural n = natural (n / 10) ++ [(n % 10).digitChar] :=
        Nat.toDigits_of_base_le (by decide) hle
      have hq : (natural (n / 10)).head? = some '0' := by
        obtain ⟨c, cs, hc⟩ := List.exists_cons_of_ne_nil (natural_ne_nil (n / 10))
        rw [hd, hc] at h
        rw [hc]
        exact h
      have hz : n / 10 = 0 := natural_injective (ih _ (by omega) hq)
      omega

theorem minus_not_mem_natural (n : Nat) : '-' ∉ natural n := fun h => by
  have := isDigit_of_mem_natural h
  simp at this

theorem isDigit_of_mem_integer {n : Int} {c : Char} (h : c ∈ integer n) :
    c = '-' ∨ c.isDigit = true := by
  cases n with
  | ofNat n => exact .inr (isDigit_of_mem_natural h)
  | negSucc n =>
    simp only [integer, List.mem_cons] at h
    exact h.imp id isDigit_of_mem_natural

theorem integer_injective {n m : Int} (h : integer n = integer m) : n = m := by
  cases n with
  | ofNat n =>
    cases m with
    | ofNat m => exact congrArg Int.ofNat (natural_injective h)
    | negSucc m =>
      simp only [integer] at h
      exact absurd (h ▸ List.mem_cons_self) (minus_not_mem_natural n)
  | negSucc n =>
    cases m with
    | ofNat m =>
      simp only [integer] at h
      exact absurd (h ▸ List.mem_cons_self) (minus_not_mem_natural m)
    | negSucc m =>
      simp only [integer, List.cons.injEq, true_and] at h
      have := natural_injective h
      omega

end IcuMessage.Decimal
