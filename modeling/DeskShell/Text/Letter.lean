/-!
# Letters

Words that a person types are compared without regard to the case of ASCII letters; other letters
are compared as they are.
-/

set_option autoImplicit false

namespace DeskShell.Text

def isLetter (c : Char) : Bool := c.isAlpha

def lower (s : String) : String := String.ofList (s.toList.map Char.toLower)

/-- Whether two texts are equal up to the case of ASCII letters. -/
def sameLetters (a b : String) : Bool := lower a == lower b

theorem sameLetters_iff {a b : String} : sameLetters a b = true ↔ lower a = lower b := by
  simp [sameLetters]

end DeskShell.Text
