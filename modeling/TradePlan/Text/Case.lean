/-!
# Letter case of names

Names in formulas are made of ASCII letters, digits and underscores, and their letter case does not
count.  `foldCase` is the form under which they are kept.
-/

namespace TradePlan.Text

/-- A text with its ASCII capitals made small; every other character stays. -/
def foldCase (text : String) : String := String.ofList (text.toList.map Char.toLower)

end TradePlan.Text
