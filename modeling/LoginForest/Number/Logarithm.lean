/-
  The logarithm of one and a number, without the loss of adding the one. `1 + x` is a power of two
  times `1 + f` with `f` near zero. For `s = f / (2 + f)`, `ln (1 + f) = f - (h - s (h + r))` with
  `h = f² / 2` and a polynomial `r` in `s²`; the power adds its multiple of `ln 2`.
-/
import LoginForest.Number.Binary64

namespace LoginForest.Number

/-- `2^power (1 + rest)`, where what is `lost` of this number by rounding is told beside it. -/
structure Reduced where
  power : Nat
  rest : Float
  lost : Float

/-- `1 + x`, reduced so that it is between the roots of one half and of two. From `2^53` on the
one does not count. -/
def reduced (x : Float) : Reduced :=
  if x < Float.ofBits 0x3fda827a00000000 then ⟨0, x, ofNat 0⟩
  else
    let large := ofNat (twoTo 53) ≤ x
    let u := if large then x else ofNat 1 + x
    match parts u with
    | .finite _ m e =>
      let power := (e + 52).toNat
      let lost :=
        if large then ofNat 0
        else if 0 < power then ofNat 1 - (u - x)
        else x - (u - ofNat 1)
      if m < twoTo 52 + 0x6a09e * twoTo 32 then
        ⟨power, nearest false m (twoTo 52) - ofNat 1, lost / u⟩
      else ⟨power + 1, nearest false m (twoTo 53) - ofNat 1, lost / u⟩
    | _ => ⟨0, x, ofNat 0⟩

/-- The leading bits of `ln 2`, so few that its multiples are exact, and the rest of it. -/
def logTwo : Float × Float :=
  (Float.ofBits 0x3fe62e42fee00000, Float.ofBits 0x3dea39ef35793c76)

/-- The polynomial `r` at `z = s²`. -/
def tail (z : Float) : Float :=
  let z2 := z * z
  let z4 := z2 * z2
  z * Float.ofBits 0x3fe5555555555593 +
    z2 * (Float.ofBits 0x3fd999999997fa04 + z * Float.ofBits 0x3fd2492494229359) +
    z4 * (Float.ofBits 0x3fcc71c51d8e78af + z * Float.ofBits 0x3fc7466496cb03de) +
    z4 * z2 * (Float.ofBits 0x3fc39a09d078c69f + z * Float.ofBits 0x3fc2f112df3e5244)

/-- Two numbers whose difference is `f - ln (1 + f)`. Next to zero a parabola will do. -/
def bend (f : Float) : Float × Float :=
  let h := nearest false 1 2 * f * f
  if -(nearest false 3 (twoTo 21)) ≤ f ∧ f < nearest false 1 (twoTo 20) then
    (h * (ofNat 1 - nearest false 2 3 * f), ofNat 0)
  else
    let s := f / (ofNat 2 + f)
    (h, s * (h + tail (s * s)))

/-- `ln (1 + x)` of a number that is not negative. -/
def log1p (x : Float) : Float :=
  if x.isFinite then
    let u := reduced x
    let power := ofNat u.power
    let (a, b) := bend u.rest
    power * logTwo.1 - (a - (b + (power * logTwo.2 + u.lost)) - u.rest)
  else x

end LoginForest.Number
