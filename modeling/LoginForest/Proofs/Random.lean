/-
  What is known of random draws for every state of the generator: a sample has no more numbers
  than were asked for (`length_sample_le`), and a number drawn from an interval is finite and lies
  in it, the upper end left out (`between_spec`).
-/
import LoginForest.Proofs.Number.Sign
import LoginForest.Random.Sample

namespace LoginForest.Random

open Number

/-! ## Sizes of samples -/

theorem length_insertBefore_le (t j : Nat) (taken : List Nat) :
    (insertBefore t j taken).length ≤ taken.length + 1 := by
  induction taken with
  | nil => exact Nat.zero_le _
  | cons x xs ih =>
    unfold insertBefore
    split
    · exact le_rfl
    · exact Nat.succ_le_succ ih

theorem length_collect_le (mixed : Bool) (k j : Nat) (taken : List Nat) (g : Generator) :
    (collect mixed k j taken g).1.length ≤ taken.length + k := by
  induction k generalizing j taken g with
  | zero => exact le_rfl
  | succ k ih =>
    unfold collect
    generalize g.below .half (j + 1) = draw
    obtain ⟨t, g⟩ := draw
    dsimp only
    refine (ih _ _ _).trans ?_
    have hstep : (if taken.contains t then
        if mixed then insertBefore t j taken else taken ++ [j]
        else taken ++ [t]).length ≤ taken.length + 1 := by
      split
      · split
        · exact length_insertBefore_le t j taken
        · exact List.length_append.le
      · exact List.length_append.le
    omega

theorem size_swapBackward (i : Nat) (numbers : Array Nat) (g : Generator) :
    (swapBackward i numbers g).1.size = numbers.size := by
  induction i generalizing numbers g with
  | zero => rfl
  | succ i ih =>
    unfold swapBackward
    generalize g.below .half (i + 2) = draw
    obtain ⟨j, g⟩ := draw
    dsimp only
    rw [ih, Array.size_swapIfInBounds]

theorem length_sampleByCollecting_le (n k : Nat) (g : Generator) :
    (sampleByCollecting n k g).1.length ≤ k := by
  unfold sampleByCollecting
  split
  · simpa using length_collect_le true k (n - k) [] g
  · have hlength := length_collect_le false k (n - k) [] g
    show (swapBackward (k - 1) (collect false k (n - k) [] g).1.toArray
      (collect false k (n - k) [] g).2).1.toList.length ≤ k
    rw [Array.length_toList, size_swapBackward, List.size_toArray]
    rwa [List.length_nil, Nat.zero_add] at hlength

theorem length_sampleByRejection (w : Generator.Width) (n k : Nat) (taken : List Nat)
    (g : Generator) : (sampleByRejection w n k taken g).1.length = taken.length + k := by
  induction k generalizing taken g with
  | zero => exact List.length_reverse
  | succ k ih =>
    unfold sampleByRejection
    generalize drawFresh w n taken Generator.drawLimit g = draw
    obtain ⟨t, g⟩ := draw
    dsimp only
    rw [ih, List.length_cons]
    omega

/-- A sample has no more numbers than were asked for. -/
theorem length_sample_le (n k : Nat) (g : Generator) : (sample n k g).1.length ≤ k := by
  unfold sample
  split
  · rw [length_sampleByRejection, List.length_nil, Nat.zero_add]
  · split
    · unfold sampleBySwaps
      exact List.length_take_le ..
    · exact length_sampleByCollecting_le n k g
    · rw [length_sampleByRejection, List.length_nil, Nat.zero_add]

/-! ## Numbers from an interval -/

namespace Generator

/-- The bits of a number from one on and below two. -/
theorem toNat_unitBits (word : UInt64) :
    ((0x3ff0000000000000 : UInt64) ||| (word >>> 12)).toNat =
      encode false (twoTo 52 + word.toNat / 4096) (-52) := by
  have hword := word.toNat_lt
  have hlt : word.toNat / 4096 < 2 ^ 52 := by omega
  have hor := Nat.shiftLeft_add_eq_or_of_lt hlt 1023
  rw [UInt64.toNat_or, UInt64.toNat_shiftRight, Nat.shiftRight_eq_div_pow]
  show 1023 <<< 52 ||| word.toNat / 4096 = _
  rw [← hor, encode, twoTo_52, if_neg Bool.false_ne_true, Nat.shiftLeft_eq]
  omega

/-- The bits that a unit is made from spell a number from one on. -/
theorem value_unitBits (word : UInt64) :
    (Float.ofBits ((0x3ff0000000000000 : UInt64) ||| (word >>> 12))).isFinite ∧
      value (Float.ofBits ((0x3ff0000000000000 : UInt64) ||| (word >>> 12))) =
        1 + (word.toNat / 4096 : ℕ) * 2 ^ (-52 : Int) := by
  have hword := word.toNat_lt
  have hcanonical : Canonical (twoTo 52 + word.toNat / 4096) (-52) :=
    ⟨by rw [twoTo_52, twoTo_53]; omega, by decide, .inl (Nat.le_add_right ..)⟩
  have hbits : ((0x3ff0000000000000 : UInt64) ||| (word >>> 12)) =
      UInt64.ofNat (encode false (twoTo 52 + word.toNat / 4096) (-52)) := by
    rw [← toNat_unitBits, UInt64.ofNat_toNat]
  have hparts := parts_ofBits_encode hcanonical (by decide) false
  rw [← hbits] at hparts
  refine ⟨isFinite_of_parts hparts, ?_⟩
  rw [value_of_parts hparts, signedValue_false, Nat.cast_add, add_mul, twoTo_cast,
    ← zpow_add₀ (by norm_num)]
  norm_num

theorem unit_spec (word : UInt64) :
    (unit word).isFinite ∧ 0 ≤ value (unit word) ∧ value (unit word) ≤ 1 := by
  obtain ⟨hfinite, hvalue⟩ := value_unitBits word
  have hword := word.toNat_lt
  have hround := isRounding_sub hfinite isFinite_one
  rw [hvalue, value_one, add_sub_cancel_left] at hround
  have hpos := two_zpow_pos (-52)
  have hshare : ((word.toNat / 4096 : ℕ) : ℚ) ≤ twoTo 52 := by
    exact_mod_cast (show word.toNat / 4096 ≤ twoTo 52 by rw [twoTo_52]; omega)
  have hhigh := mul_le_mul_of_nonneg_right hshare hpos.le
  rw [twoTo_cast, ← zpow_add₀ (by norm_num), show ((52 : ℕ) : Int) + -52 = 0 by decide,
    zpow_zero] at hhigh
  have hbetween := hround.between isFinite_zero isFinite_one
    (by rw [value_zero]; exact mul_nonneg (Nat.cast_nonneg _) hpos.le) (by rwa [value_one])
  rwa [value_zero, value_one] at hbetween

/-- A number drawn between ends with a finite distance is finite and lies between them. -/
theorem drawBetween_spec {low high : Float} (hlt : low < high) (hdistance : (high - low).isFinite)
    (draws : Nat) (g : Generator) :
    (drawBetween low high draws g).1.isFinite ∧ low ≤ (drawBetween low high draws g).1 ∧
      (drawBetween low high draws g).1 < high := by
  obtain ⟨hhigh, hlow⟩ := isFinite_of_sub hdistance
  induction draws generalizing g with
  | zero => exact ⟨hlow, (le_iff_value hlow hlow).mpr le_rfl, hlt⟩
  | succ draws ih =>
    unfold drawBetween
    obtain ⟨word, g'⟩ := g.next
    dsimp only
    split
    case isFalse => exact ih g'
    case isTrue hless =>
      -- a share of the distance is between zero and the distance
      obtain ⟨hunit, h0, h1⟩ := unit_spec word
      have hd : 0 ≤ value (high - low) := by
        rw [← value_zero]
        refine (isRounding_sub hhigh hlow).le_value hdistance isFinite_zero ?_
        rw [value_zero]
        linarith [(lt_iff_value hlow hhigh).mp hlt]
      have hround := isRounding_mul hunit hdistance
      obtain ⟨hproduct, hnonneg, -⟩ := hround.between isFinite_zero hdistance
        (by rw [value_zero]; exact mul_nonneg h0 hd) (mul_le_of_le_one_left hd h1)
      rw [value_zero] at hnonneg
      have hge : low ≤ unit word * (high - low) + low :=
        (isRounding_add hproduct hlow).le hlow (by linarith)
      exact ⟨isFinite_of_le_of_le hlow hhigh hge (le_of_lt hless), hge, hless⟩

theorem between_spec {low high : Float} (hlt : low < high) (hdistance : (high - low).isFinite)
    (g : Generator) : (g.between low high).1.isFinite ∧ low ≤ (g.between low high).1 ∧
      (g.between low high).1 < high :=
  drawBetween_spec hlt hdistance drawLimit g

end Generator

end LoginForest.Random
