/-! The slot sizes of the fixed space, in words.
Small sizes go in steps, larger ones in a geometric progression; what is larger still is large and
gets a slot of its own size. The progression enters only through the sizes it proposes, so nothing
here depends on how they were computed.
-/

namespace MovingHeap

/-- The slot sizes in use, ascending. -/
structure SizeClasses where
  sizes : List Nat
  deriving DecidableEq, Repr

namespace SizeClasses

/-- All slot sizes are multiples of this. -/
def step : Nat := 2

/-- From this size on the progression takes over from single steps. -/
def preciseCutoff : Nat := 16

/-- The largest size with a class of its own. -/
def largeCutoff : Nat := 2048

/-- The least multiple of the step that is not below `words`. -/
def roundUp (words : Nat) : Nat := (words + (step - 1)) / step * step

/-- The classes below the progression. -/
def stepped : List Nat := (List.range' 1 (preciseCutoff / step - 1)).map (step * ·)

/-- Puts a size into an ascending list, once. -/
def insert (size : Nat) : List Nat → List Nat
  | [] => [size]
  | head :: rest =>
      if size < head then size :: head :: rest
      else if size = head then head :: rest
      else head :: insert size rest

/-- The sizes in ascending order, each of them once. -/
def inOrder (sizes : List Nat) : List Nat := sizes.foldr insert []

/-- Appends the sizes a progression proposes, rounded up, until one is too large; a size that was
appended last is not appended again. `none` if none of the first `limit` is too large.
-/
def extend {σ : Type} (advance : σ → σ) (size : σ → Nat)
    : (limit : Nat) → σ → List Nat → Option (List Nat)
  | 0, _, _ => none
  | limit + 1, state, sizes =>
      if largeCutoff < size state then some sizes
      else
        let rounded := roundUp (size state)
        extend advance size limit (advance state)
          (if sizes.getLast? = some rounded then sizes else sizes ++ [rounded])

/-- The sizes that a progression makes classes of, as they come: the steps, the sizes it proposes and
the cutoff. A progression without a size that is too large among its first `limit` makes none.
-/
def listed? {σ : Type} (advance : σ → σ) (size : σ → Nat) (limit : Nat) (start : σ)
    : Option (List Nat) :=
  (extend advance size limit start stepped).map (· ++ [largeCutoff])

/-- The classes of a progression. -/
def ofProgression? {σ : Type} (advance : σ → σ) (size : σ → Nat) (limit : Nat) (start : σ)
    : Option SizeClasses :=
  (listed? advance size limit start).map fun sizes => ⟨inOrder sizes⟩

/-- Powers of a factor that are tried before its progression counts as endless. -/
def maxPowers : Nat := 0x80000000

/-- `product` times `factor` to the power of `exponent`, by squaring the factor. -/
def timesPower (product factor : Float) (exponent : Nat) : Float :=
  let product := if exponent % 2 = 1 then product * factor else product
  if exponent / 2 = 0 then product else timesPower product (factor * factor) (exponent / 2)

/-- The size that the progression by `factor` proposes; it loses its fraction, and a negative one counts
as zero.
-/
def powerSize (factor : Float) (exponent : Nat) : Nat :=
  (preciseCutoff.toFloat * timesPower 1.0 factor exponent).toUInt64.toNat

/-- The classes of the progression by `factor`. -/
def ofFactor? (factor : Float) : Option SizeClasses :=
  ofProgression? (· + 1) (powerSize factor) maxPowers 0

/-- The classes of the fixed space: the progression by seven fifths, computed exactly. -/
def standard : SizeClasses :=
  (ofProgression? (fun power : Nat × Nat => (7 * power.1, 5 * power.2))
    (fun power => preciseCutoff * power.1 / power.2) 32 (1, 1)).getD ⟨[largeCutoff]⟩

/-- The number of classes, which stands for the large objects that have none. -/
def large (classes : SizeClasses) : Nat := classes.sizes.length

/-- The first class that holds `words`, or `large`. -/
def indexFor (classes : SizeClasses) (words : Nat) : Nat :=
  (classes.sizes.takeWhile (· < words)).length

/-- The slot size of a class; large slots are rounded to the step instead. -/
def capacity (classes : SizeClasses) (index words : Nat) : Nat :=
  classes.sizes[index]?.getD (roundUp words)

end SizeClasses

end MovingHeap
