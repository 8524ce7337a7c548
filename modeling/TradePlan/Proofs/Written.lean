import Mathlib.Data.List.Forall2
import TradePlan.Formula.Expr

/-!
# The calls that a formula writes

What stands between the parentheses of a call, read off the tokens with nothing but the brackets
that are open: the arguments of a call are what its commas separate, up to its closing parenthesis
or to the end.  A tree has calls of its own, and `Call.Matches` compares the two:

    written:  max(1, min())    gives  min()  and  max  of  1  and  min()
    tree:     Expr.calls       gives the same two calls with trees for arguments

Both lists name the calls in the order in which they end.
-/

namespace TradePlan

/-- A call, with arguments of some kind. -/
structure Call (α : Type) where
  function : String
  args : List α

/-- Two calls of one function, with arguments that are related one by one. -/
def Call.Matches {α β : Type} (relation : α → β → Prop) (call : Call α) (other : Call β) : Prop :=
  call.function = other.function ∧ List.Forall₂ relation call.args other.args

/-! ## Written calls -/

/-- A bracket that is open.  A call keeps the tokens of the arguments that have ended and of the one
under way. -/
inductive Bracket where
  | paren
  | call (function : String) (ended : List (List Token)) (current : List Token)

namespace Bracket

/-- The name in front of a bracket. -/
def name? : Bracket → Option String
  | paren => none
  | call function _ _ => some function

/-- Notes tokens that stand inside a bracket. -/
def note (tokens : List Token) : Bracket → Bracket
  | paren => paren
  | call function ended current => call function ended (current ++ tokens)

/-- The call that a bracket has written when it is closed.  Directly after the opening parenthesis a
call has no arguments. -/
def written : Bracket → List (Call (List Token))
  | paren => []
  | call function [] [] => [⟨function, []⟩]
  | call function ended current => [⟨function, ended ++ [current]⟩]

end Bracket

/-- The calls that tokens write inside open brackets, the innermost bracket first.  What is open at
the end is closed there. -/
def writtenFrom (brackets : List Bracket) : List Token → List (Call (List Token))
  | [] => brackets.flatMap Bracket.written
  | .identifier name :: .leftParen :: rest =>
    writtenFrom
      (.call name [] [] :: brackets.map (Bracket.note [.identifier name, .leftParen])) rest
  | .leftParen :: rest =>
    writtenFrom (.paren :: brackets.map (Bracket.note [.leftParen])) rest
  | .comma :: rest =>
    match brackets with
    | .call function ended current :: outside =>
      writtenFrom (.call function (ended ++ [current]) [] :: outside.map (Bracket.note [.comma])) rest
    | _ => writtenFrom (brackets.map (Bracket.note [.comma])) rest
  | .rightParen :: rest =>
    match brackets with
    | [] => writtenFrom [] rest
    | bracket :: outside =>
      bracket.written ++ writtenFrom (outside.map (Bracket.note [.rightParen])) rest
  | token :: rest => writtenFrom (brackets.map (Bracket.note [token])) rest

def writtenCalls (tokens : List Token) : List (Call (List Token)) := writtenFrom [] tokens

/-! ## Calls of a tree -/

namespace Expr

mutual

def calls : Expr → List (Call Expr)
  | .number _ => []
  | .var _ => []
  | .call function args => callsAll args ++ [⟨function, args⟩]
  | .binary _ left right => left.calls ++ right.calls

def callsAll : List Expr → List (Call Expr)
  | [] => []
  | arg :: args => arg.calls ++ callsAll args

end

end Expr

end TradePlan
