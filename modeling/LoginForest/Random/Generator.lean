/-
  A stream of pseudo-random words: four words of state mixed by shifts, rotations and
  exclusive or. Numbers below a bound and numbers in an interval are drawn by rejection; a
  draw gives up after `drawLimit` words, each of which is rejected at most about half the time.
-/
import LoginForest.Number.Binary64

namespace LoginForest.Random

open Number (twoTo)

structure Generator where
  a : UInt64
  b : UInt64
  c : UInt64
  d : UInt64
deriving DecidableEq, Repr

namespace Generator

def rotateLeft (x k : UInt64) : UInt64 := (x <<< k) ||| (x >>> (64 - k))

/-- Spread the bits of a word over all its places. -/
def mix (x : UInt64) : UInt64 :=
  let x := (x ^^^ (x >>> 30)) * 0xbf58476d1ce4e5b9
  let x := (x ^^^ (x >>> 27)) * 0x94d049bb133111eb
  x ^^^ (x >>> 31)

/-- The generator for a seed: its state are the mixed multiples of an odd step from it. -/
def ofSeed (seed : UInt64) : Generator :=
  let word := fun k => mix (seed + k * 0x9e3779b97f4a7c15)
  ⟨word 1, word 2, word 3, word 4⟩

/-- The next word. -/
def next (g : Generator) : UInt64 × Generator :=
  let c := g.c ^^^ g.a
  let d := g.d ^^^ g.b
  (rotateLeft (g.a + g.d) 23 + g.a, ⟨g.a ^^^ d, g.b ^^^ c, c ^^^ (g.b <<< 17), rotateLeft d 45⟩)

/-- The next `n` words. -/
def words : Nat → Generator → List UInt64
  | 0, _ => []
  | n + 1, g => g.next.1 :: words n g.next.2

@[simp] theorem length_words (n : Nat) (g : Generator) : (words n g).length = n := by
  induction n generalizing g with
  | zero => rfl
  | succ n ih => simp [words, ih]

/-- Fewer words are the first ones. -/
theorem words_take {n m : Nat} (h : n ≤ m) (g : Generator) : (words m g).take n = words n g := by
  induction n generalizing m g with
  | zero => simp [words]
  | succ n ih =>
    cases m with
    | zero => omega
    | succ m => simp [words, ih (Nat.le_of_succ_le_succ h)]

/-- How many bits of a word a draw uses: all of them, or the upper half. -/
inductive Width where
  | full
  | half
deriving DecidableEq, Repr

def Width.bits : Width → Nat
  | .full => 64
  | .half => 32

def nextBits (w : Width) (g : Generator) : Nat × Generator :=
  (g.next.1.toNat >>> (64 - w.bits), g.next.2)

/-- Words after which a draw gives up. -/
def drawLimit : Nat := 256

/-- The upper part of a word times `n`, once the lower part is at most `zone`. -/
def drawBelow (w : Width) (zone n : Nat) : Nat → Generator → Nat × Generator
  | 0, g => (0, g)
  | draws + 1, g =>
    let (v, g) := g.nextBits w
    if v * n % twoTo w.bits ≤ zone then ((v * n) >>> w.bits, g) else drawBelow w zone n draws g

/-- The largest multiple of `n` by a power of two that fits, less one. -/
def shiftedZone (w : Width) (n : Nat) : Nat := n * twoTo (w.bits - 1 - n.log2) - 1

/-- The largest multiple of `n` that fits, less one. -/
def widestZone (w : Width) (n : Nat) : Nat := twoTo w.bits - 1 - twoTo w.bits % n

/-- A number below `n`, for a single draw. -/
def below (w : Width) (n : Nat) (g : Generator) : Nat × Generator :=
  drawBelow w (shiftedZone w n) n drawLimit g

theorem nextBits_lt (w : Width) (g : Generator) : (g.nextBits w).1 < twoTo w.bits := by
  have := g.next.1.toNat_lt
  cases w
  · have h : twoTo Width.full.bits = 18446744073709551616 := by decide
    simp only [nextBits, Width.bits, Nat.shiftRight_eq_div_pow] at h ⊢
    omega
  · have h : twoTo Width.half.bits = 4294967296 := by decide
    simp only [nextBits, Width.bits, Nat.shiftRight_eq_div_pow] at h ⊢
    omega

theorem drawBelow_lt {n : Nat} (h : 0 < n) (w : Width) (zone draws : Nat) (g : Generator) :
    (drawBelow w zone n draws g).1 < n := by
  induction draws generalizing g with
  | zero => exact h
  | succ draws ih =>
    simp only [drawBelow]
    split
    · rw [Nat.shiftRight_eq_div_pow]
      apply Nat.div_lt_of_lt_mul
      exact Nat.mul_lt_mul_of_pos_right (g.nextBits_lt w) h
    · exact ih _

theorem below_lt {n : Nat} (h : 0 < n) (w : Width) (g : Generator) : (g.below w n).1 < n :=
  drawBelow_lt h w _ _ g

/-- A number in [0, 1) from the upper 52 bits of a word. -/
def unit (word : UInt64) : Float :=
  Float.ofBits ((0x3ff0000000000000 : UInt64) ||| (word >>> 12)) - Number.ofNat 1

def drawBetween (low high : Float) : Nat → Generator → Float × Generator
  | 0, g => (low, g)
  | draws + 1, g =>
    let (word, g) := g.next
    let value := unit word * (high - low) + low
    if value < high then (value, g) else drawBetween low high draws g

/-- A number from `low` on and below `high`, for finite ends with a finite distance. -/
def between (low high : Float) (g : Generator) : Float × Generator :=
  drawBetween low high drawLimit g

end Generator

/-- What a random generator has to offer: a number below a bound, and one from an interval. -/
class Draws (γ : Type) where
  below : (bound : Nat) → γ → Nat × γ
  between : (low high : Float) → γ → Float × γ

instance : Draws Generator where
  below n g := g.below .full n
  between low high g := g.between low high

end LoginForest.Random
