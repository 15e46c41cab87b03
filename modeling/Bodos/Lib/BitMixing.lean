import Mathlib.Logic.Function.Basic

/-!
# Steps of a mixing function on bit vectors

A hash of machine integers is usually a composition of steps each of which can be
undone: a word is combined with its own upper bits, or multiplied by an odd number.

Results:
1. `xorShift_bijective`: a shift by at least half of the width is its own inverse.
2. `mul_bijective`: a multiplication with a factor that has an inverse.
-/

namespace BitMixing

variable {w : Nat}

/-- The word with its upper bits combined into the lower ones. -/
def xorShift (s : Nat) (x : BitVec w) : BitVec w := x >>> s ^^^ x

/-- The bits that are shifted in twice are all zero. -/
theorem xorShift_xorShift {s : Nat} (half : w ≤ s + s) (x : BitVec w) :
    xorShift s (xorShift s x) = x := by
  have gone : x >>> s >>> s = 0#w := by
    rw [← BitVec.shiftRight_add]
    exact BitVec.ushiftRight_eq_zero half
  calc xorShift s (xorShift s x)
      = x >>> s >>> s ^^^ x >>> s ^^^ (x >>> s ^^^ x) := by
        rw [xorShift, xorShift, BitVec.ushiftRight_xor_distrib]
    _ = x >>> s ^^^ (x >>> s ^^^ x) := by rw [gone, BitVec.zero_xor]
    _ = x := by rw [← BitVec.xor_assoc, BitVec.xor_self, BitVec.zero_xor]

theorem xorShift_bijective {s : Nat} (half : w ≤ s + s) :
    Function.Bijective (xorShift (w := w) s) :=
  Function.Involutive.bijective (xorShift_xorShift half)

theorem mul_bijective {c d : BitVec w} (inverse : c * d = 1) :
    Function.Bijective fun x : BitVec w => x * c := by
  have undo : Function.LeftInverse (fun x : BitVec w => x * d) fun x => x * c := by
    intro x
    show x * c * d = x
    rw [BitVec.mul_assoc, inverse]
    exact BitVec.mul_one x
  have redo : Function.RightInverse (fun x : BitVec w => x * d) fun x => x * c := by
    intro x
    show x * d * c = x
    rw [BitVec.mul_assoc, BitVec.mul_comm d, inverse]
    exact BitVec.mul_one x
  exact ⟨undo.injective, redo.surjective⟩

end BitMixing
