import Ostinato.Binary64.Basic

/-!
# Generators

A part leaves entries out and moves them at random, and it gives every entry an id. Neither the
random numbers nor the ids are its own: they come from a generator, of which it knows only what the
generator promises. The promises are classes of their own, so that a result asks for those that it
needs.

A generator that can be run is a counter of sixty-four bits whose values are mixed: the same seed
gives the same numbers. A number uses the upper fifty-three bits of a mixed word and is exact.

## Main definitions

* `Generator`: a source of random numbers and of ids.
* `LawfulGenerator`, `DistinctIds`: the ranges of the numbers, and that no id is given twice.
* `SplitMix`: a generator.
-/

namespace Ostinato

/-- A source of random numbers and of ids. A number is drawn from a state and comes with the state
after it; ids are told apart by how many there have been before. -/
class Generator (γ : Type) where
  share : γ → Binary64 × γ
  jitter : γ → Binary64 × γ
  entryId : Nat → Nat

/-- What is promised of the random numbers: a share is in `[0, 1)`, a jitter in `[-1, 1]`. -/
class LawfulGenerator (γ : Type) [Generator γ] : Prop where
  zero_le_share (draws : γ) : Binary64.zero.le (Generator.share draws).1 = true
  share_lt_one (draws : γ) : (Generator.share draws).1.lt .one = true
  abs_jitter_le_one (draws : γ) : (Generator.jitter draws).1.abs.le .one = true

/-- What is promised of the ids: none is given twice. -/
class DistinctIds (γ : Type) [Generator γ] : Prop where
  injective : Function.Injective (Generator.entryId γ)

/-- A counter of sixty-four bits whose values are mixed. -/
structure SplitMix where
  counter : UInt64
  deriving DecidableEq

namespace SplitMix

/-- The distance between the values of the counter. -/
def stride : UInt64 :=
  0x9E3779B97F4A7C15

/-- The counter after a number has been drawn. -/
def next (draws : SplitMix) : SplitMix :=
  ⟨draws.counter + stride⟩

/-- Mixes the bits of a counter value. -/
def mix (word : UInt64) : UInt64 :=
  let word := (word ^^^ (word >>> 30)) * 0xBF58476D1CE4E5B9
  let word := (word ^^^ (word >>> 27)) * 0x94D049BB133111EB
  word ^^^ (word >>> 31)

/-- The fifty-three bits of the next number. -/
def fraction (draws : SplitMix) : Nat :=
  (mix draws.next.counter >>> 11).toNat

theorem fraction_lt (draws : SplitMix) : draws.fraction < exactLimit := by
  rw [fraction, UInt64.toNat_shiftRight, Nat.shiftRight_eq_div_pow]
  exact Nat.div_lt_of_lt_mul (mix draws.next.counter).toNat_lt

/-- The next number in `[0, 1)`. -/
def share (draws : SplitMix) : Binary64 :=
  .round false (draws.fraction * Binary64.unitsPerOne) exactLimit

/-- The next number in `[-1, 1]`: how far the fraction lies from the middle. -/
def jitter (draws : SplitMix) : Binary64 :=
  let middle := exactLimit / 2
  let distance := (draws.fraction - middle) + (middle - draws.fraction)
  .round (draws.fraction < middle) (distance * Binary64.unitsPerOne) middle

instance : Generator SplitMix where
  share draws := (draws.share, draws.next)
  jitter draws := (draws.jitter, draws.next)
  entryId := id

end SplitMix

end Ostinato
