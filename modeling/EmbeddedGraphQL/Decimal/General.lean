import EmbeddedGraphQL.Decimal.Shortest

/-!
Numbers with six significant digits: rounded half to even, without zeros at the end, and with an
exponent where the number is below a ten-thousandth or has more than six digits before the point.
-/
namespace EmbeddedGraphQL.Decimal

/-- Rounds `m * 2 ^ q` to a whole number of `10 ^ e`, a half going to the even neighbour. -/
def roundAt (m : Nat) (q e : Int) : Nat := nearer m q (floorAt m q e) e

private def dropZeros (digits : List Char) : List Char :=
  (digits.reverse.dropWhile (· == '0')).reverse

private def withPoint (whole fraction : List Char) : String :=
  if fraction.isEmpty then String.ofList whole
  else String.ofList whole ++ "." ++ String.ofList fraction

/-- The general form of a finite number. -/
def general (x : Float) : String :=
  match binary? x with
  | none => if x == x then (if x < 0.0 then "-inf" else "inf") else "nan"
  | some b =>
    let sign := if b.negative then "-" else ""
    if b.m = 0 then sign ++ "0"
    else
      let magnitude := magnitudeFrom b.m b.q (-330) 660
      let rounded := roundAt b.m b.q (magnitude - 6)
      let (rounded, magnitude) :=
        if rounded = 1000000 then (100000, magnitude + 1) else (rounded, magnitude)
      let digits := (toString rounded).toList
      let exponent := magnitude - 1
      if exponent < -4 ∨ 6 ≤ exponent then
        let size := toString exponent.natAbs
        sign ++ withPoint (digits.take 1) (dropZeros (digits.drop 1)) ++ "e" ++
          (if exponent < 0 then "-" else "+") ++ (if size.length < 2 then "0" ++ size else size)
      else if exponent < 0 then
        sign ++ withPoint ['0'] (dropZeros (List.replicate (-magnitude).toNat '0' ++ digits))
      else
        sign ++ withPoint (digits.take magnitude.toNat) (dropZeros (digits.drop magnitude.toNat))

end EmbeddedGraphQL.Decimal
