/-
  The parts of a binary64 number, seen from the arithmetic of the number type. Arithmetic takes
  a number apart and packs its result again; the parts that `parts` reads are the ones it takes
  (`unpack_toModel`), and packing canonical parts gives the number that has them (`parts_packed`).
  A canonical mantissa has 53 bits, or fewer at the least exponent, so that every number has one
  pair of mantissa and exponent.
-/
import LoginForest.Number.Binary64
import Mathlib

namespace LoginForest.Number

open Float.Model (UnpackedFloat Format)
open Float.Model.UnpackedFloat (Sign)

theorem twoTo_11 : twoTo 11 = 2048 := by decide

theorem twoTo_52 : twoTo 52 = 4503599627370496 := by decide

theorem twoTo_53 : twoTo 53 = 9007199254740992 := by decide

theorem twoTo_63 : twoTo 63 = 9223372036854775808 := by decide

theorem twoTo_64 : twoTo 64 = 18446744073709551616 := by decide

/-! ## Canonical parts and their bits -/

/-- Mantissa and exponent of a finite number, the exponent without an upper bound. -/
structure Canonical (m : Nat) (e : Int) : Prop where
  lt : m < twoTo 53
  ge : -1074 ≤ e
  normal : twoTo 52 ≤ m ∨ e = -1074

/-- The bits of a finite number. The bit that every normal mantissa starts with is added to the
exponent's place. -/
def encode (negative : Bool) (m : Nat) (e : Int) : Nat :=
  (e + 1074).toNat * twoTo 52 + m + if negative then twoTo 63 else 0

theorem encode_lt {m : Nat} {e : Int} (h : Canonical m e) (he : e ≤ 971) (negative : Bool) :
    encode negative m e < twoTo 64 := by
  obtain ⟨hm, hlow, -⟩ := h
  rw [twoTo_53] at hm
  unfold encode
  rw [twoTo_52, twoTo_63, twoTo_64]
  split <;> omega

theorem partsOfBits_eq (bits : Nat) : partsOfBits bits =
    if bits / 4503599627370496 % 2048 = 2047 then
      if bits % 4503599627370496 = 0 then .infinite (decide (9223372036854775808 ≤ bits)) else .nan
    else if bits / 4503599627370496 % 2048 = 0 then
      .finite (decide (9223372036854775808 ≤ bits)) (bits % 4503599627370496) (-1074)
    else .finite (decide (9223372036854775808 ≤ bits)) (4503599627370496 + bits % 4503599627370496)
      ((bits / 4503599627370496 % 2048 : Nat) - 1075) := by
  simp only [partsOfBits, twoTo_52, twoTo_11, twoTo_63]

theorem partsOfBits_encode {m : Nat} {e : Int} (h : Canonical m e) (he : e ≤ 971)
    (negative : Bool) : partsOfBits (encode negative m e) = .finite negative m e := by
  obtain ⟨hm, hlow, hnormal⟩ := h
  rw [twoTo_53] at hm
  rw [twoTo_52] at hnormal
  have hsign : decide (9223372036854775808 ≤ encode negative m e) = negative := by
    unfold encode
    rw [twoTo_52, twoTo_63]
    cases negative
    · exact decide_eq_false (by simp only [Bool.false_eq_true, if_false]; omega)
    · exact decide_eq_true (by simp only [if_true]; omega)
  have hplace : encode negative m e % 9223372036854775808 =
      (e + 1074).toNat * 4503599627370496 + m := by
    unfold encode
    rw [twoTo_52, twoTo_63]
    cases negative <;> simp only [Bool.false_eq_true, if_true, if_false] <;> omega
  rw [partsOfBits_eq, hsign]
  -- a normal number keeps its biased exponent, a subnormal one has none
  by_cases hn : 4503599627370496 ≤ m
  · rw [if_neg (by omega), if_neg (by omega), Parts.finite.injEq]
    exact ⟨rfl, by omega, by omega⟩
  · have he' : e = -1074 := hnormal.resolve_left hn
    rw [if_neg (by omega), if_pos (by omega), Parts.finite.injEq]
    exact ⟨rfl, by omega, he'.symm⟩

theorem encode_partsOfBits {bits : Nat} (hb : bits < twoTo 64) {negative : Bool} {m : Nat}
    {e : Int} (h : partsOfBits bits = .finite negative m e) :
    Canonical m e ∧ e ≤ 971 ∧ encode negative m e = bits := by
  rw [twoTo_64] at hb
  rw [partsOfBits_eq] at h
  by_cases hmax : bits / 4503599627370496 % 2048 = 2047
  · rw [if_pos hmax] at h
    by_cases hnone : bits % 4503599627370496 = 0
    · rw [if_pos hnone] at h; cases h
    · rw [if_neg hnone] at h; cases h
  · rw [if_neg hmax] at h
    by_cases hzero : bits / 4503599627370496 % 2048 = 0
    · rw [if_pos hzero] at h
      injection h with hs hm he
      refine ⟨⟨by rw [twoTo_53]; omega, by omega, .inr he.symm⟩, by omega, ?_⟩
      subst hs hm he
      simp only [encode, twoTo_52, twoTo_63, decide_eq_true_eq]
      by_cases hneg : 9223372036854775808 ≤ bits
      · rw [if_pos hneg]; omega
      · rw [if_neg hneg]; omega
    · rw [if_neg hzero] at h
      injection h with hs hm he
      refine ⟨⟨by rw [twoTo_53]; omega, by omega, .inl (by rw [twoTo_52]; omega)⟩, by omega, ?_⟩
      subst hs hm he
      simp only [encode, twoTo_52, twoTo_63, decide_eq_true_eq]
      by_cases hneg : 9223372036854775808 ≤ bits
      · rw [if_pos hneg]; omega
      · rw [if_neg hneg]; omega

theorem toBits_lt (x : Float) : x.toBits.toNat < twoTo 64 := x.toBits.toNat_lt

/-- Finite parts of a number are canonical and spell its bits. -/
theorem encode_parts {x : Float} {negative : Bool} {m : Nat} {e : Int}
    (h : parts x = .finite negative m e) :
    Canonical m e ∧ e ≤ 971 ∧ encode negative m e = x.toBits.toNat :=
  encode_partsOfBits (toBits_lt x) h

/-! ## Unpacked numbers -/

/-- The sign of a number that is negative or not. -/
def signOf (negative : Bool) : Sign := if negative then .negative else .positive

/-- Parts in the form that arithmetic works on. -/
def Parts.unpacked : Parts → UnpackedFloat
  | .nan => .notANumber
  | .infinite negative => .infinity (signOf negative)
  | .finite negative m e =>
    if h : 0 < m then .finite (signOf negative) m e h else .zero (signOf negative)

theorem unpacked_of_pos {n : Bool} {m : Nat} {e : Int} (hm : 0 < m) :
    (Parts.finite n m e).unpacked = .finite (signOf n) m e hm := dif_pos hm

theorem unpacked_zero (n : Bool) (e : Int) : (Parts.finite n 0 e).unpacked = .zero (signOf n) := rfl

section Fields

open Float.Model.UnpackedFloat

variable (b : BitVec 64)

theorem toNat_unpackMantissa :
    (@unpackMantissa .binary64 b).toNat = b.toNat % 4503599627370496 := by
  simp [unpackMantissa, BitVec.extractLsb_toNat]

theorem toNat_unpackExponent :
    (@unpackExponent .binary64 b).toNat = b.toNat / 4503599627370496 % 2048 := by
  simp [unpackExponent, BitVec.extractLsb_toNat, Nat.shiftRight_eq_div_pow]

theorem toNat_unpackSign :
    (@unpackSign .binary64 b).toNat = b.toNat / 9223372036854775808 % 2 := by
  have h : (@unpackSign .binary64 b).toNat = (b.extractLsb 63 63).toNat := rfl
  rw [h, BitVec.extractLsb_toNat, Nat.shiftRight_eq_div_pow]

theorem sign_unpackSign :
    Sign.ofBitVec (@unpackSign .binary64 b) =
      signOf (decide (9223372036854775808 ≤ b.toNat)) := by
  have hb := b.isLt
  have hs := toNat_unpackSign b
  unfold Sign.ofBitVec signOf
  by_cases h : 9223372036854775808 ≤ b.toNat
  · have h1 : @unpackSign .binary64 b ≠ 0#1 := by
      intro h0
      rw [h0] at hs
      simp only [BitVec.toNat_zero] at hs
      omega
    simp [h1, h]
  · have h0 : @unpackSign .binary64 b = 0#1 := by
      apply BitVec.eq_of_toNat_eq
      rw [hs]
      simp only [BitVec.toNat_zero]
      omega
    simp [h0, h]

theorem finite_congr {s s' : Sign} {m m' : Nat} {e e' : Int} (hs : s = s') (hm : m = m')
    (he : e = e') {h : 0 < m} {h' : 0 < m'} :
    UnpackedFloat.finite s m e h = .finite s' m' e' h' := by
  subst hs hm he
  rfl

/-- Unpacking bits gives the parts they spell. -/
theorem unpack_eq : UnpackedFloat.unpack .binary64 b = (partsOfBits b.toNat).unpacked := by
  have hm := toNat_unpackMantissa b
  have he := toNat_unpackExponent b
  have hs := sign_unpackSign b
  have hmax : (@unpackExponent .binary64 b = -1#_) ↔
      b.toNat / 4503599627370496 % 2048 = 2047 := by
    rw [← BitVec.toNat_inj, he]; rfl
  have hzero : (@unpackExponent .binary64 b = 0#_) ↔
      b.toNat / 4503599627370496 % 2048 = 0 := by
    rw [← BitVec.toNat_inj, he]; rfl
  have hnone : (@unpackMantissa .binary64 b = 0#_) ↔ b.toNat % 4503599627370496 = 0 := by
    rw [← BitVec.toNat_inj, hm]; rfl
  unfold UnpackedFloat.unpack
  rw [partsOfBits_eq]
  by_cases h1 : b.toNat / 4503599627370496 % 2048 = 2047
  · refine (if_pos (hmax.mpr h1)).trans ?_
    rw [if_pos h1]
    by_cases h2 : b.toNat % 4503599627370496 = 0
    · rw [if_pos h2]
      exact (if_pos (hnone.mpr h2)).trans (congrArg _ hs)
    · rw [if_neg h2]
      exact if_neg (mt hnone.mp h2)
  · refine (if_neg (mt hmax.mp h1)).trans ?_
    rw [if_neg h1]
    by_cases h3 : b.toNat / 4503599627370496 % 2048 = 0
    · refine (if_pos (hzero.mpr h3)).trans ?_
      rw [if_pos h3]
      by_cases h2 : b.toNat % 4503599627370496 = 0
      · refine (dif_pos (hnone.mpr h2)).trans ?_
        rw [h2, hs]
        rfl
      · refine (dif_neg (mt hnone.mp h2)).trans ?_
        rw [Parts.unpacked, dif_pos (Nat.pos_of_ne_zero h2)]
        exact finite_congr hs hm (by rw [he, h3]; rfl)
    · have hpos : 0 < 4503599627370496 + b.toNat % 4503599627370496 := by omega
      refine (if_neg (mt hzero.mp h3)).trans ?_
      rw [if_neg h3, Parts.unpacked, dif_pos hpos]
      refine finite_congr hs ?_ (by rw [he]; rfl)
      rw [BitVec.toNat_append, ← Nat.shiftLeft_add_eq_or_of_lt (BitVec.isLt _), hm]
      rfl

end Fields

/-- Arithmetic takes a number apart into its parts. -/
theorem unpack_toModel (x : Float) : x.toModel.unpack = (parts x).unpacked :=
  unpack_eq x.toBits.toBitVec

/-! ## Packing -/

theorem toNat_packComponents (s : Sign) (e : BitVec 11) (m : BitVec 52) :
    (Float.Model.UnpackedFloat.packComponents .binary64 s e m).toNat =
      (s.toBitVec.toNat * 2048 + e.toNat) * 4503599627370496 + m.toNat := by
  have hm := m.isLt
  have he := e.isLt
  unfold Float.Model.UnpackedFloat.packComponents
  rw [BitVec.toNat_append, ← Nat.shiftLeft_add_eq_or_of_lt hm, BitVec.toNat_append,
    ← Nat.shiftLeft_add_eq_or_of_lt he, Nat.shiftLeft_eq, Nat.shiftLeft_eq]

theorem toNat_toBitVec_signOf (negative : Bool) :
    (signOf negative).toBitVec.toNat = if negative then 1 else 0 := by
  cases negative <;> rfl

/-- The number that an unpacked number is packed to. -/
def packed (u : UnpackedFloat) : Float := .ofModel (.pack u)

theorem toNat_toBits_packed (u : UnpackedFloat) :
    (packed u).toBits.toNat = (UnpackedFloat.pack .binary64 u).toNat := rfl

/-- Packing canonical parts gives the number that has them. -/
theorem parts_packed {m : Nat} {e : Int} (h : Canonical m e) (he : e ≤ 971) (negative : Bool)
    (hpos : 0 < m) :
    parts (packed (.finite (signOf negative) m e hpos)) = .finite negative m e := by
  unfold parts
  rw [toNat_toBits_packed, ← partsOfBits_encode h he negative]
  congr 1
  obtain ⟨hm, hlow, hnormal⟩ := h
  rw [twoTo_53] at hm
  rw [twoTo_52] at hnormal
  have hbias : Format.binary64.exponentBias = 1023 := rfl
  have hbits : Format.binary64.mantissaBits = 53 := rfl
  unfold UnpackedFloat.pack encode
  simp only [hbias, hbits, twoTo_52, twoTo_63]
  rw [if_neg (by simp only [Nat.reducePow]; omega)]
  by_cases hn : 4503599627370496 ≤ m
  · have hlog : m.log2 = 52 := by
      rw [Nat.log2_eq_iff (by omega)]
      simp only [Nat.reducePow, Nat.reduceAdd]
      omega
    rw [if_pos (by omega), toNat_packComponents, toNat_toBitVec_signOf]
    simp only [BitVec.toNat_ofNat, Nat.reducePow]
    cases negative <;> simp only [if_true, if_false, Bool.false_eq_true] <;> omega
  · have he' : e = -1074 := hnormal.resolve_left hn
    have hlog : m.log2 < 52 := by
      rw [Nat.log2_lt (by omega)]
      simp only [Nat.reducePow]
      omega
    rw [if_neg (by omega), toNat_packComponents, toNat_toBitVec_signOf]
    simp only [BitVec.toNat_ofNat, Nat.reducePow]
    cases negative <;> simp only [if_true, if_false, Bool.false_eq_true] <;> omega

/-- Packing an exponent above the range gives infinity. -/
theorem parts_packed_overflow {m : Nat} {e : Int} (he : 971 < e) (negative : Bool)
    (hpos : 0 < m) : parts (packed (.finite (signOf negative) m e hpos)) = .infinite negative := by
  have hbias : Format.binary64.exponentBias = 1023 := rfl
  unfold parts
  rw [toNat_toBits_packed]
  unfold UnpackedFloat.pack
  simp only [hbias]
  rw [if_pos (by simp only [Nat.reducePow]; omega)]
  cases negative <;> rfl

theorem parts_packed_zero (negative : Bool) :
    parts (packed (.zero (signOf negative))) = .finite negative 0 (-1074) := by
  cases negative <;> rfl

theorem parts_packed_infinity (negative : Bool) :
    parts (packed (.infinity (signOf negative))) = .infinite negative := by
  cases negative <;> rfl

theorem parts_packed_nan : parts (packed .notANumber) = .nan := rfl

/-- Packing undoes taking apart. -/
theorem parts_packed_unpacked {n : Bool} {m : Nat} {e : Int} (h : Canonical m e) (he : e ≤ 971) :
    parts (packed (Parts.finite n m e).unpacked) = .finite n m e := by
  rcases Nat.eq_zero_or_pos m with rfl | hm
  · have he' : e = -1074 := h.normal.resolve_left (by decide)
    rw [unpacked_zero, he']
    exact parts_packed_zero n
  · rw [unpacked_of_pos hm]
    exact parts_packed h he n hm

/-! ## Operations on unpacked numbers -/

theorem neg_eq_packed (x : Float) : -x = packed (parts x).unpacked.neg := by
  rw [← unpack_toModel]
  rfl

theorem add_eq_packed (x y : Float) :
    x + y = packed (UnpackedFloat.add .binary64 (parts x).unpacked (parts y).unpacked) := by
  rw [← unpack_toModel, ← unpack_toModel]
  rfl

theorem sub_eq_packed (x y : Float) :
    x - y = packed (UnpackedFloat.sub .binary64 (parts x).unpacked (parts y).unpacked) := by
  rw [← unpack_toModel, ← unpack_toModel]
  rfl

theorem mul_eq_packed (x y : Float) :
    x * y = packed (UnpackedFloat.mul .binary64 (parts x).unpacked (parts y).unpacked) := by
  rw [← unpack_toModel, ← unpack_toModel]
  rfl

theorem div_eq_packed (x y : Float) :
    x / y = packed (UnpackedFloat.div .binary64 (parts x).unpacked (parts y).unpacked) := by
  rw [← unpack_toModel, ← unpack_toModel]
  rfl

/-! ## Numbers from bits -/

theorem eq_of_toBits_eq {x y : Float} (h : x.toBits.toNat = y.toBits.toNat) : x = y := by
  obtain ⟨⟨bx, hx⟩⟩ := x
  obtain ⟨⟨by', hy⟩⟩ := y
  have hb : bx = by' := UInt64.toNat.inj h
  subst hb
  rfl

/-- A finite number is told by its parts. -/
theorem eq_of_parts_eq {x y : Float} {negative : Bool} {m : Nat} {e : Int}
    (hx : parts x = .finite negative m e) (hy : parts y = .finite negative m e) : x = y := by
  apply eq_of_toBits_eq
  rw [← (encode_parts hx).2.2, ← (encode_parts hy).2.2]

theorem ofBits_eq_packed (w : UInt64) :
    Float.ofBits w = packed (partsOfBits w.toNat).unpacked := by
  rw [← UInt64.toNat_toBitVec, ← unpack_eq]
  rfl

/-- Every number is packed from its parts. -/
theorem packed_parts (x : Float) : packed (parts x).unpacked = x := by
  rw [parts, ← ofBits_eq_packed, Float.ofBits_toBits]

theorem parts_inj {x y : Float} (h : parts x = parts y) : x = y := by
  rw [← packed_parts x, h, packed_parts]

/-- The number with the bits of canonical parts has these parts. -/
theorem parts_ofBits_encode {m : Nat} {e : Int} (h : Canonical m e) (he : e ≤ 971)
    (negative : Bool) :
    parts (Float.ofBits (UInt64.ofNat (encode negative m e))) = .finite negative m e := by
  have hlt : encode negative m e < 2 ^ 64 := encode_lt h he negative
  rw [ofBits_eq_packed, UInt64.toNat_ofNat_of_lt' hlt, partsOfBits_encode h he]
  exact parts_packed_unpacked h he

end LoginForest.Number
