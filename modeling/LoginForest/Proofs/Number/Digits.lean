/-
  Rows of decimal digits: the digits of a number read back as the number, leading and trailing
  zeros shift it, and a row ends at the first character that is no digit.
-/
import LoginForest.Number.Format
import LoginForest.Number.Reading

namespace LoginForest.Number

/-- A row of digits. -/
def AllDigits (cs : List Char) : Prop := ∀ c ∈ cs, c.isDigit

theorem AllDigits.append {cs ds : List Char} (h : AllDigits cs) (h' : AllDigits ds) :
    AllDigits (cs ++ ds) := by
  intro c hc
  rcases List.mem_append.mp hc with hc | hc
  · exact h c hc
  · exact h' c hc

theorem allDigits_digitsOf (n : Nat) : AllDigits (digitsOf n) := fun _ hc =>
  Nat.isDigit_of_mem_toDigits (by decide) (by decide) hc

theorem allDigits_zeros (n : Nat) : AllDigits (zeros n) := by
  intro c hc
  rw [List.eq_of_mem_replicate hc]
  decide

theorem allDigits_padZeros (width n : Nat) : AllDigits (padZeros width (digitsOf n)) :=
  (allDigits_zeros _).append (allDigits_digitsOf n)

theorem AllDigits.take {cs : List Char} (h : AllDigits cs) (n : Nat) : AllDigits (cs.take n) :=
  fun c hc => h c (List.mem_of_mem_take hc)

theorem AllDigits.drop {cs : List Char} (h : AllDigits cs) (n : Nat) : AllDigits (cs.drop n) :=
  fun c hc => h c (List.mem_of_mem_drop hc)

theorem digitsOf_ne_nil (n : Nat) : digitsOf n ≠ [] := Nat.toDigits_ne_nil

theorem length_digitsOf_pos (n : Nat) : 0 < (digitsOf n).length := Nat.length_toDigits_pos

theorem length_digitsOf_le {n k : Nat} (hk : 0 < k) (h : n < tenTo k) :
    (digitsOf n).length ≤ k :=
  (Nat.length_toDigits_le_iff (by decide) hk).mpr h

/-- The digits of a positive number do not start with a zero. -/
theorem head_digitsOf {n : Nat} (h : 0 < n) : (digitsOf n).head? ≠ some '0' := by
  unfold digitsOf
  induction n using Nat.strongRecOn with
  | ind n ih =>
    by_cases hn : n < 10
    · rw [Nat.toDigits_of_lt_base hn]
      intro hzero
      have := Nat.digitChar_eq_zero.mp (Option.some.inj hzero)
      omega
    · have hfront := ih (n / 10) (by omega) (by omega)
      rw [Nat.toDigits_of_base_le (by decide) (by omega)]
      cases hd : Nat.toDigits 10 (n / 10) with
      | nil => exact absurd hd Nat.toDigits_ne_nil
      | cons c cs =>
        rw [hd] at hfront
        exact hfront

/-! ## Values -/

theorem valueFrom_eq (n : Nat) (ds : List Char) : valueFrom n ds = Nat.ofDigitChars 10 ds n := by
  unfold valueFrom Nat.ofDigitChars
  congr 1
  funext a c
  rw [Nat.mul_comm]

theorem valueFrom_append (n : Nat) (ds ds' : List Char) :
    valueFrom n (ds ++ ds') = valueFrom (valueFrom n ds) ds' := List.foldl_append

theorem valueFrom_digitsOf (n : Nat) : valueFrom 0 (digitsOf n) = n := by
  rw [valueFrom_eq]
  exact Nat.ofDigitChars_ten_toDigits

theorem valueFrom_zeros (n k : Nat) : valueFrom n (zeros k) = n * tenTo k := by
  rw [valueFrom_eq, zeros, Nat.ofDigitChars_replicate_zero, Nat.mul_comm]
  rfl

theorem valueFrom_padZeros (width n : Nat) : valueFrom 0 (padZeros width (digitsOf n)) = n := by
  unfold padZeros
  rw [valueFrom_append, valueFrom_zeros, Nat.zero_mul, valueFrom_digitsOf]

/-! ## The end of a row -/

/-- A text that does not go on with a digit. -/
def NoDigit (cs : List Char) : Prop := ∀ c, cs.head? = some c → c.isDigit = false

theorem noDigit_nil : NoDigit [] := by
  intro c h
  cases h

theorem noDigit_cons {c : Char} {cs : List Char} (h : c.isDigit = false) : NoDigit (c :: cs) := by
  intro d hd
  cases hd
  exact h

theorem takeWhile_digits {ds rest : List Char} (hds : AllDigits ds) (hrest : NoDigit rest) :
    (ds ++ rest).takeWhile Char.isDigit = ds := by
  rw [List.takeWhile_append_of_pos hds]
  cases rest with
  | nil => exact List.append_nil ds
  | cons c rest => rw [List.takeWhile_cons_of_neg (by simp [hrest c rfl]), List.append_nil]

theorem dropWhile_digits {ds rest : List Char} (hds : AllDigits ds) (hrest : NoDigit rest) :
    (ds ++ rest).dropWhile Char.isDigit = rest := by
  rw [List.dropWhile_append_of_pos hds]
  cases rest with
  | nil => rfl
  | cons c rest => exact List.dropWhile_cons_of_neg (by simp [hrest c rfl])

/-! ## Reading digits -/

theorem digits?_of_allDigits {ds : List Char} (hds : AllDigits ds) (hne : ds ≠ []) :
    digits? ds = some (valueFrom 0 ds) := by
  have hempty : ds.isEmpty = false := by simpa using hne
  have hany : ds.any (fun c => !c.isDigit) = false := by
    rw [List.any_eq_false]
    intro c hc
    simp [hds c hc]
  unfold digits?
  rw [hempty, hany]
  rfl

end LoginForest.Number
