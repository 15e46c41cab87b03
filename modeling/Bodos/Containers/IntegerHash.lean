import Bodos.Containers.UnorderedMap
import Bodos.Lib.BitMixing
import Bodos.Lib.Memory

/-!
# `integer_hash`

`utils/hash.cpp`, which the maps with `int` and `unsigned int` keys use. A `size_t`
has 32 bits, so nothing of the last word is cut off.

Results:
1. `integerHash_bijective`: each of the five steps can be undone.
2. `integer_hash_permutes`: distinct keys have distinct hashes, and share a bucket only
   where the bucket count divides them alike.
-/

namespace Bodos

open BitMixing Mem32

def integerHash (key : Word) : Word :=
  let x := (key >>> 16 ^^^ key) * 0x119de1f3
  let x := (x >>> 16 ^^^ x) * 0x119de1f3
  x >>> 16 ^^^ x

/-- `hash<int>`. The cast keeps the bits of the key. -/
def hashInt (key : Int32) : Word := integerHash key.toBitVec

/-- `hash<unsigned int>`. -/
def hashUnsigned (key : UInt32) : Word := integerHash key.toBitVec

/-- A shift and a multiplication. -/
def hashRound (x : Word) : Word := xorShift 16 x * 0x119de1f3

theorem integerHash_eq : integerHash = xorShift 16 ∘ hashRound ∘ hashRound := rfl

theorem hashRound_bijective : Function.Bijective hashRound := by
  have inverse : (0x119de1f3 : Word) * 0x45d9f3b = 1 := by decide
  exact (mul_bijective inverse).comp (xorShift_bijective (by decide))

theorem integerHash_bijective : Function.Bijective integerHash := by
  rw [integerHash_eq]
  exact (xorShift_bijective (by decide)).comp (hashRound_bijective.comp hashRound_bijective)

theorem hashInt_injective : Function.Injective hashInt := fun _ _ same =>
  Int32.toBitVec_inj.mp (integerHash_bijective.injective same)

theorem hashUnsigned_injective : Function.Injective hashUnsigned := fun _ _ same =>
  UInt32.toBitVec_inj.mp (integerHash_bijective.injective same)

/-- Keys of a map collide only through the reduction modulo the bucket count. -/
def OnlyModulo {K : Type} (hash : K → Word) : Prop :=
  ∀ (m : UnorderedMap) (x y : K), x ≠ y →
    m.bucketIndex (fun key => (hash key).toNat) x = m.bucketIndex (fun key => (hash key).toNat) y →
    hash x ≠ hash y ∧ (hash x).toNat % m.bucketCount = (hash y).toNat % m.bucketCount

theorem onlyModulo_of_injective {K : Type} {hash : K → Word} (h : Function.Injective hash) :
    OnlyModulo hash := fun _ _ _ distinct bucket => ⟨h.ne distinct, bucket⟩

theorem integer_hash_permutes :
    Function.Bijective integerHash ∧ Function.Injective hashInt ∧
      Function.Injective hashUnsigned ∧ OnlyModulo hashInt ∧ OnlyModulo hashUnsigned :=
  ⟨integerHash_bijective, hashInt_injective, hashUnsigned_injective,
    onlyModulo_of_injective hashInt_injective, onlyModulo_of_injective hashUnsigned_injective⟩

end Bodos
