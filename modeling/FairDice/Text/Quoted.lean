/-!
# Texts inside messages

Such a text stands between double quotes, or in a list between brackets.
-/
namespace FairDice

def quoted (text : String) : String := "\"" ++ text ++ "\""

/-- The items between brackets, a comma and a blank after each but the last. -/
def bracketed (items : List String) : String := "[" ++ ", ".intercalate items ++ "]"

end FairDice
