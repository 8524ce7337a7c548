import TradePlan.Number.Power

/-!
# The numbers that double-precision values stand for

A `Float` is decoded into `± mantissa · 2 ^ exponent`, an infinity or no number at all, and a
quotient of natural numbers is rounded to the nearest `Float`.  Both directions are integer
arithmetic on the 64 bits, so statements about prices reduce to statements about `Nat`.

    2 ^ floorLog2 num den ≤ num / den < 2 ^ (floorLog2 num den + 1)
    nearest num den : the double closest to num / den, a tie going to the even mantissa
-/

namespace TradePlan

/-- The number a double stands for.  A finite one is `± mantissa · 2 ^ exponent`. -/
inductive Binary where
  | nan
  | infinite (negative : Bool)
  | finite (negative : Bool) (mantissa : Nat) (exponent : Int)
deriving DecidableEq

/-! ## Decoding -/

/-- The bit of the sign, `2 ^ 63`. -/
def signBit : Nat := 0x8000000000000000

/-- The count of fractions, `2 ^ 52`, and so the least mantissa with a leading one. -/
def fractionCount : Nat := 0x10000000000000

namespace Binary

/-- Eleven exponent bits and 52 fraction bits; exponent zero has no leading one. -/
def ofFloat (x : Float) : Binary :=
  let bits := x.toBits.toNat
  let negative := decide (signBit ≤ bits)
  let biased : Nat := bits / fractionCount % 2048
  let fraction := bits % fractionCount
  if biased = 2047 then
    if fraction = 0 then .infinite negative else .nan
  else if biased = 0 then
    .finite negative fraction (-1074)
  else
    .finite negative (fractionCount + fraction) ((biased : Int) - 1075)

end Binary

/-! ## Rounding a quotient -/

/-- The whole number nearest to `num / den`; a half goes to the even neighbour. -/
def divHalfEven (num den : Nat) : Nat :=
  let below := num / den
  let rest := num % den
  if 2 * rest < den ∨ (2 * rest = den ∧ below % 2 = 0) then below else below + 1

/-- The largest `k` with `2 ^ k ≤ num / den`, for positive `num` and `den`. -/
def floorLog2 (num den : Nat) : Int :=
  let guess : Int := (num.log2 : Int) - (den.log2 : Int)
  if den * power 2 guess ≤ num * power 2 (-guess) then guess else guess - 1

/-- The bits of the double nearest to `num / den`.  The spacing of doubles near the quotient is
`2 ^ spacing`; a mantissa that rounds up to `2 ^ 53` carries into the exponent by itself. -/
def nearestBits (num den : Nat) : Nat :=
  if num = 0 then 0
  else
    let spacing := max (floorLog2 num den - 52) (-1074)
    let mantissa := divHalfEven (num * power 2 (-spacing)) (den * power 2 spacing)
    min ((spacing + 1074).toNat * fractionCount + mantissa) (2047 * fractionCount)

def nearest (num den : Nat) : Float :=
  Float.ofBits (UInt64.ofNat (nearestBits num den))

/-- A magnitude with its sign put back; zero keeps its sign too. -/
def signed (negative : Bool) (magnitude : Float) : Float :=
  if negative then -magnitude else magnitude

end TradePlan
