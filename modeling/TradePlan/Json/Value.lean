/-!
# JSON values

A value keeps its numbers as they are written and the members of its objects in their order.  A
string may hold escapes that write no character, such as half of a surrogate pair; the text of such
a string is `none`.
-/

namespace TradePlan

inductive Json where
  | null
  | bool (value : Bool)
  | number (literal : List Char)
  | string (text : Option String)
  | array (items : List Json)
  | object (members : List (Option String × Json))

end TradePlan
