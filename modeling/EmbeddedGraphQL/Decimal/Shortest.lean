import EmbeddedGraphQL.Decimal.Binary64

/-!
Shortest decimals. Among the decimals that read back as a given number, those with the fewest
digits are taken, and of these the one nearest to the number.
-/
namespace EmbeddedGraphQL.Decimal

/-- `digits * 10 ^ exponent`. -/
structure Scientific where
  digits : Nat
  exponent : Int
  deriving DecidableEq, Repr

/-- Compares `a * 2 ^ q` with `d * 10 ^ e`. -/
def compareAt (a : Nat) (q : Int) (d : Nat) (e : Int) : Ordering :=
  compare (a * Nat.pow 2 q.toNat * Nat.pow 10 (-e).toNat)
    (d * Nat.pow 10 e.toNat * Nat.pow 2 (-q).toNat)

/-- The least `e ≥ start` with `m * 2 ^ q < 10 ^ e`, searched for at most `fuel` steps. -/
def magnitudeFrom (m : Nat) (q : Int) (start : Int) : Nat → Int
  | 0 => start
  | fuel + 1 =>
    if compareAt m q 1 start = .lt then start else magnitudeFrom m q (start + 1) fuel

/-- The value rounded down to a multiple of `10 ^ e`, as a count of such multiples. -/
def floorAt (m : Nat) (q : Int) (e : Int) : Nat :=
  (m * Nat.pow 2 q.toNat * Nat.pow 10 (-e).toNat) /
    (Nat.pow 10 e.toNat * Nat.pow 2 (-q).toNat)

/-- Whether `d * 10 ^ e` reads back as `m * 2 ^ q`: it lies no further off than halfway to the next
number on its side, and the halfway points count when `m` is even. -/
def readsBack (m : Nat) (q : Int) (d : Nat) (e : Int) : Bool :=
  let low := if m = Nat.pow 2 52 && -1074 < q then 4 * m - 1 else 4 * m - 2
  let high := 4 * m + 2
  match compareAt low (q - 2) d e, compareAt high (q - 2) d e with
  | .lt, .gt => true
  | .eq, _ => m % 2 == 0
  | _, .eq => m % 2 == 0
  | _, _ => false

/-- Of two neighbours on a decimal grid, the one nearer to the value; the even one of a tie. -/
def nearer (m : Nat) (q : Int) (d : Nat) (e : Int) : Nat :=
  match compareAt (2 * m) q (2 * d + 1) e with
  | .lt => d
  | .gt => d + 1
  | .eq => if d % 2 = 0 then d else d + 1

/-- The first decimal grid, from coarse to fine, with a point that reads back. -/
def shortestFrom (m : Nat) (q magnitude : Int) (digits : Nat) : Nat → Scientific
  | 0 => ⟨floorAt m q (magnitude - digits), magnitude - digits⟩
  | fuel + 1 =>
    let e := magnitude - digits
    let d := floorAt m q e
    match readsBack m q d e, readsBack m q (d + 1) e with
    | true, true => ⟨nearer m q d e, e⟩
    | true, false => ⟨d, e⟩
    | false, true => ⟨d + 1, e⟩
    | false, false => shortestFrom m q magnitude (digits + 1) fuel

/-- The shortest decimal of the positive number `m * 2 ^ q`. -/
def shortest (m : Nat) (q : Int) : Scientific :=
  shortestFrom m q (magnitudeFrom m q (-330) 660) 1 17

/-- How a decimal is laid out: numbers from `10 ^ low` up to `10 ^ high` are written with a point
and no exponent, others with one; `wholeSuffix` marks a number without a fraction. -/
structure Layout where
  low : Int
  high : Int
  wholeSuffix : String
  exponentDigits : Nat
  infinity : String
  undefined : String

private def padLeft (width : Nat) (digits : String) : String :=
  "".pushn '0' (width - digits.length) ++ digits

/-- Writes a number by its shortest decimal. -/
def Layout.write (layout : Layout) (x : Float) : String :=
  let sign := if x.toBits.toNat / Nat.pow 2 63 == 1 then "-" else ""
  match binary? x with
  | none => if x == x then sign ++ layout.infinity else layout.undefined
  | some b =>
    if b.m = 0 then sign ++ "0" ++ layout.wholeSuffix
    else
      let s := shortest b.m b.q
      let digits := (toString s.digits).toList
      let trimmed := (digits.reverse.dropWhile (· == '0')).reverse
      let point : Int := digits.length + s.exponent
      if layout.low < point && point ≤ layout.high then
        let text :=
          if point ≤ 0 then "0." ++ "".pushn '0' (-point).toNat ++ String.ofList trimmed
          else if trimmed.length ≤ point.toNat then
            String.ofList trimmed ++ "".pushn '0' (point.toNat - trimmed.length) ++
              layout.wholeSuffix
          else
            String.ofList (trimmed.take point.toNat) ++ "." ++
              String.ofList (trimmed.drop point.toNat)
        sign ++ text
      else
        let fraction := if trimmed.length ≤ 1 then "" else "." ++ String.ofList (trimmed.drop 1)
        let exponent := point - 1
        sign ++ String.ofList (trimmed.take 1) ++ fraction ++ "e" ++
          (if exponent < 0 then "-" else "+") ++
          padLeft layout.exponentDigits (toString exponent.natAbs)

/-- Plain notation from a ten-thousandth up to ten to the sixteenth, and a point in every number
that is written plainly. -/
def plain : Layout := ⟨-4, 16, ".0", 2, "inf", "nan"⟩

end EmbeddedGraphQL.Decimal
