/-!
Exact values of 64-bit floating point numbers, and the number nearest to a decimal.
-/
namespace EmbeddedGraphQL.Decimal

/-- A finite number `m * 2 ^ q`, with its sign apart so that both zeros are kept. -/
structure Binary where
  negative : Bool
  m : Nat
  q : Int
  deriving DecidableEq, Repr

/-- The exact value of a number that is neither infinite nor undefined. -/
def binary? (x : Float) : Option Binary :=
  let bits := x.toBits.toNat
  let negative := bits / Nat.pow 2 63 == 1
  let exponent : Nat := bits / Nat.pow 2 52 % 2048
  let fraction : Nat := bits % Nat.pow 2 52
  if exponent = 2047 then none
  else if exponent = 0 then some ⟨negative, fraction, -1074⟩
  else some ⟨negative, Nat.pow 2 52 + fraction, (exponent : Int) - 1075⟩

/-- The whole part, rounded toward zero. -/
def Binary.truncate (b : Binary) : Int :=
  let n : Nat := if 0 ≤ b.q then b.m * Nat.pow 2 b.q.toNat else b.m / Nat.pow 2 (-b.q).toNat
  if b.negative then -n else n

def Binary.isWhole (b : Binary) : Bool :=
  decide (0 ≤ b.q) || b.m % Nat.pow 2 (-b.q).toNat == 0

/-- The number nearest to `mantissa * 10 ^ exponent`; exponents far outside the range of the
format give zero or infinity without computing the power. -/
def nearest (negative : Bool) (mantissa : Nat) (exponent : Int) : Float :=
  let digits : Int := (mantissa.log2 : Int) / 3 + 1
  let x : Float :=
    if mantissa = 0 then 0.0
    else if 400 < exponent then 1.0 / 0.0
    else if exponent + digits < -400 then 0.0
    else if 0 ≤ exponent then Float.ofScientific mantissa false exponent.toNat
    else Float.ofScientific mantissa true (-exponent).toNat
  if negative then -x else x

end EmbeddedGraphQL.Decimal
