/-!
# Binary floating-point formats

A floating-point constant is carried as its bit pattern, so a conversion is
arithmetic on naturals: `Format.read` splits a pattern into sign, magnitude and
exponent, `Format.round` finds the pattern nearest to `m * 2 ^ e`, and the two
together convert between formats. A half goes to the even neighbour, and what
lies past the largest finite value becomes an infinity.
-/

namespace StackCode

/-- A binary interchange format: how many bits hold the exponent and how many
the fraction. -/
structure Format where
  expBits : Nat
  fracBits : Nat

/-- What a bit pattern stands for; `finite neg m e` is `± m * 2 ^ e`. -/
inductive Reading where
  | finite (neg : Bool) (m : Nat) (e : Int)
  | infinite (neg : Bool)
  | nan (neg : Bool) (fraction : Nat)

namespace Format

/-- The `n`-th power of two. -/
def pow2 (n : Nat) : Nat := 1 <<< n

/-- The 32-bit format. -/
def single : Format := ⟨8, 23⟩

/-- The 64-bit format. -/
def double : Format := ⟨11, 52⟩

/-- The exponent field that marks infinities and not-a-numbers. -/
def topExp (f : Format) : Nat := pow2 f.expBits - 1

/-- The exponent of the unit in the last place of the smallest numbers. -/
def minExp (f : Format) : Int := 2 - pow2 (f.expBits - 1) - f.fracBits

/-- The sign bit in its place. -/
def signBit (f : Format) (neg : Bool) : Nat :=
  if neg then pow2 (f.expBits + f.fracBits) else 0

/-- The meaning of a bit pattern. -/
def read (f : Format) (bits : Nat) : Reading :=
  let neg := bits / pow2 (f.expBits + f.fracBits) % 2 == 1
  let exp := bits / pow2 f.fracBits % pow2 f.expBits
  let frac := bits % pow2 f.fracBits
  if exp = f.topExp then
    if frac = 0 then .infinite neg else .nan neg frac
  else if exp = 0 then .finite neg frac f.minExp
  else .finite neg (pow2 f.fracBits + frac) (f.minExp + (exp - 1 : Nat))

/-- The quotient `m / 2 ^ s` rounded to the nearest integer, a half to even. -/
def roundShift (m s : Nat) : Nat :=
  let q := m / pow2 s
  let r := 2 * (m % pow2 s)
  if r < pow2 s then q
  else if pow2 s < r then q + 1
  else q + q % 2

/-- The number of binary digits of `m`. -/
def bitLength (m : Nat) : Nat := if m = 0 then 0 else m.log2 + 1

/-- The bit pattern of the number nearest to `± m * 2 ^ e`. The significand keeps
`fracBits + 1` digits, fewer below the smallest normal exponent. -/
def round (f : Format) (neg : Bool) (m : Nat) (e : Int) : Nat :=
  let q := max (e + bitLength m - (f.fracBits + 1)) f.minExp
  let sig := if q ≤ e then m * pow2 (e - q).toNat else roundShift m (q - e).toNat
  let magnitude :=
    if sig < pow2 f.fracBits then sig
    else (q - f.minExp + 1).toNat * pow2 f.fracBits + (sig - pow2 f.fracBits)
  f.signBit neg + min magnitude (f.topExp * pow2 f.fracBits)

/-- The bit pattern of an infinity. -/
def infinity (f : Format) (neg : Bool) : Nat :=
  f.signBit neg + f.topExp * pow2 f.fracBits

/-- The bit pattern of a quiet not-a-number with the given fraction. -/
def quiet (f : Format) (neg : Bool) (fraction : Nat) : Nat :=
  f.infinity neg + (pow2 (f.fracBits - 1) ||| fraction)

/-- The bit pattern of the integer `n`, rounded. -/
def ofInt (f : Format) (n : Int) : Nat :=
  f.round (n < 0) n.natAbs 0

/-- Converts a bit pattern of format `f` to format `g`. A not-a-number keeps the
leading digits of its fraction and becomes quiet. -/
def convert (f g : Format) (bits : Nat) : Nat :=
  match f.read bits with
  | .finite neg m e => g.round neg m e
  | .infinite neg => g.infinity neg
  | .nan neg frac => g.quiet neg (frac * pow2 g.fracBits / pow2 f.fracBits)

/-- The integer part of a bit pattern, clamped to `[lo, hi]`; 0 for what is not a
number. -/
def toInt (f : Format) (lo hi : Int) (bits : Nat) : Int :=
  let clamp (n : Int) : Int := max lo (min hi n)
  match f.read bits with
  | .finite neg m e =>
    let n : Int := (if 0 ≤ e then m * pow2 e.toNat else m / pow2 (-e).toNat : Nat)
    clamp (if neg then -n else n)
  | .infinite neg => if neg then lo else hi
  | .nan _ _ => 0

end Format

end StackCode
