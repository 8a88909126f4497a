/-!
# The extent of a text

Positions in a text are counted in bytes of UTF-8. A text is worked on as its list of characters;
`utf8ByteSize_ofList` says that `byteCount` measures the list as the string is measured.
-/

set_option autoImplicit false

namespace DeskShell.Text

def byteCount : List Char → Nat
  | [] => 0
  | c :: rest => c.utf8Size + byteCount rest

@[simp] theorem byteCount_append (as bs : List Char) :
    byteCount (as ++ bs) = byteCount as + byteCount bs := by
  induction as with
  | nil => simp [byteCount]
  | cons a as ih => simp only [List.cons_append, byteCount, ih]; omega

/-- A string takes as many bytes as its characters. -/
theorem utf8ByteSize_ofList (cs : List Char) : (String.ofList cs).utf8ByteSize = byteCount cs := by
  induction cs with
  | nil => rfl
  | cons c rest ih =>
      have hsplit : String.ofList (c :: rest) = String.singleton c ++ String.ofList rest := by
        apply String.toList_injective
        simp
      rw [hsplit, String.utf8ByteSize_append, ih, String.utf8ByteSize_singleton, byteCount]

end DeskShell.Text
