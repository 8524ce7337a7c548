import TradePlan.Decimal.Layout
import TradePlan.Number.Whole
import TradePlan.Position.Arithmetic
import TradePlan.Text.Search

/-!
# Position size

A position is as large as the risk allows: the amount that may be lost, divided by what one share
loses at the stop, rounded down to whole shares.  If the average daily volume is known, a position
is at most a fraction of it.
-/

namespace TradePlan

/-- What a position is sized from.  `partialFill` is passed on to whoever places the order. -/
structure SizeRequest (α : Type) where
  entry : α
  stop : α
  riskPercent : α
  buyingPower : α
  volume : Option α
  partialFill : Option α

/-- Why there is no position. -/
inductive SizingError (α : Type) where
  | invalidPrice (entry stop : α)
  | nonPositiveRisk
  | zeroQuantity
deriving DecidableEq

/-- The volume limit that made a position smaller. -/
structure VolumeCap (α : Type) where
  shares : α
  percent : α
  volume : α
deriving DecidableEq

structure Position (α : Type) where
  quantity : Nat
  invested : α
  atRisk : α
  riskPercent : α
  cap : Option (VolumeCap α)
deriving DecidableEq

namespace SizeRequest

open AmountArithmetic

variable {α : Type} [AmountArithmetic α]

/-- What one share loses at the stop. -/
def riskPerShare (request : SizeRequest α) : α := abs (sub request.entry request.stop)

/-- The whole number of shares that the risk allows. -/
def riskLimit (request : SizeRequest α) : α :=
  floor (div (mul request.buyingPower (div request.riskPercent hundred)) request.riskPerShare)

/-- The volume limit, if it is below a number of shares. -/
def cap? (capFraction : α) (request : SizeRequest α) (shares : α) : Option (VolumeCap α) :=
  match request.volume with
  | none => none
  | some volume =>
    let limit := floor (mul volume capFraction)
    if greater shares limit then some ⟨limit, mul capFraction hundred, volume⟩ else none

/-- Sizes a position.  Every condition is stated so that it fails for what is not a number. -/
def size (capFraction : α) (request : SizeRequest α) : Except (SizingError α) (Position α) :=
  if !greater request.entry zero || !greater request.stop zero then
    .error (.invalidPrice request.entry request.stop)
  else if !greater request.riskPerShare zero then
    .error .nonPositiveRisk
  else
    let cap := request.cap? capFraction request.riskLimit
    let shares := (cap.map VolumeCap.shares).getD request.riskLimit
    if !atLeast shares one then .error .zeroQuantity
    else
      let quantity := toShares shares
      .ok {
        quantity
        invested := mul request.entry (ofShares quantity)
        atRisk := mul request.riskPerShare (ofShares quantity)
        riskPercent := request.riskPercent
        cap }

end SizeRequest

/-- Doubles; a whole number beyond the largest count of shares stands for that count. -/
instance : AmountArithmetic Float where
  zero := 0
  one := 1
  hundred := 100
  sub := (· - ·)
  mul := (· * ·)
  div := (· / ·)
  abs := Float.abs
  floor := WholeRule.down.round
  greater x y := decide (y < x)
  atLeast x y := decide (y ≤ x)
  ofShares n := (UInt64.ofNat n).toFloat
  toShares x := x.toUInt64.toNat

/-- The fraction of the average daily volume that one order may take, unless another is set. -/
def defaultCapFraction : Float := 0.01

/-! ## Texts -/

def SizingError.message : SizingError Float → String
  | invalidPrice entry stop =>
    "invalid entry or stop loss price (entry " ++ Decimal.plain entry ++ ", stop "
      ++ Decimal.plain stop ++ ")"
  | nonPositiveRisk => "risk per share must be positive"
  | zeroQuantity =>
    "calculated quantity is zero; check buying power, risk percent, or stop-loss distance"

def VolumeCap.note (cap : VolumeCap Float) : String :=
  "capped at " ++ Decimal.plain cap.shares ++ " shares (" ++ Decimal.plain cap.percent
    ++ "% of average daily volume " ++ Decimal.plain cap.volume ++ ")"

/-- The lines of a report on a position; amounts have two decimal places. -/
def Position.lines (position : Position Float) : List String :=
  ["quantity:        " ++ toString position.quantity,
    "amount invested: " ++ Decimal.fixed 2 position.invested,
    "amount at risk:  " ++ Decimal.fixed 2 position.atRisk,
    "risk percent:    " ++ Decimal.plain position.riskPercent ++ "%"]
  ++ (position.cap.map fun cap => "note:            " ++ cap.note).toList

def Position.text (position : Position Float) : String := Text.ofLines position.lines

end TradePlan
