/-!
# Operators

The six binary operators of a formula.  All of them group from the left, the power too.
-/

namespace TradePlan

inductive Operator where
  | add
  | sub
  | mul
  | div
  | rem
  | pow
deriving DecidableEq

namespace Operator

def symbol : Operator → Char
  | add => '+'
  | sub => '-'
  | mul => '*'
  | div => '/'
  | rem => '%'
  | pow => '^'

def ofSymbol? : Char → Option Operator
  | '+' => some add
  | '-' => some sub
  | '*' => some mul
  | '/' => some div
  | '%' => some rem
  | '^' => some pow
  | _ => none

/-- The rank in which operators bind: sums, then products, then powers. -/
def precedence : Operator → Nat
  | add | sub => 1
  | mul | div | rem => 2
  | pow => 3

theorem ofSymbol?_symbol (op : Operator) : ofSymbol? op.symbol = some op := by
  cases op <;> rfl

theorem symbol_of_ofSymbol? {c : Char} {op : Operator} (h : ofSymbol? c = some op) :
    op.symbol = c := by
  unfold ofSymbol? at h
  split at h <;> simp_all [symbol]
  all_goals subst h; rfl

end Operator

end TradePlan
