/-!
# Typed input

What a user types is a sequence of bytes, read line by line. `unread` bytes are kept as raw lines,
each with the line feed that ends it; `flatten_rawLines` says that no byte is lost, and
`rawLines_append` that input which ends a line is read independently of what follows it.
-/

set_option autoImplicit false

namespace DeskShell.Terminal

/-- A line as it is typed, with its line feed; the last line may lack one. -/
abbrev RawLine := List UInt8

def lineFeed : UInt8 := 10

def rawLines : List UInt8 → List RawLine
  | [] => []
  | b :: rest =>
      if b = lineFeed then [b] :: rawLines rest
      else
        match rawLines rest with
        | [] => [[b]]
        | line :: others => (b :: line) :: others

/-- What one attempt to read a line gives. -/
inductive Reading
  /-- A line without the line feeds and carriage returns at its end. -/
  | line (text : String)
  | endOfInput
  /-- The line is not UTF-8. -/
  | notText
  deriving Repr, DecidableEq

/-- The text of a raw line, without the line feeds and carriage returns at its end. -/
def RawLine.text? (raw : RawLine) : Option String :=
  (String.fromUTF8? (ByteArray.mk raw.toArray)).map fun text =>
    String.ofList (text.toList.reverse.dropWhile (fun c => c == '\n' || c == '\r')).reverse

/-- Read one line; the rest stays unread. A line that is not text is used up all the same. -/
def readLine : List RawLine → Reading × List RawLine
  | [] => (.endOfInput, [])
  | raw :: rest =>
      match raw.text? with
      | some text => (.line text, rest)
      | none => (.notText, rest)

/-! ## Cutting input into lines -/

@[simp] theorem flatten_rawLines (bytes : List UInt8) : (rawLines bytes).flatten = bytes := by
  induction bytes with
  | nil => rfl
  | cons b rest ih =>
      rw [rawLines]
      split
      · simp [ih]
      · cases hr : rawLines rest with
        | nil =>
            rw [hr, List.flatten_nil] at ih
            simp [← ih]
        | cons line others =>
            rw [hr, List.flatten_cons] at ih
            simp [← ih]

theorem rawLines_cons (b : UInt8) (rest : List UInt8) :
    rawLines (b :: rest) =
      if b = lineFeed then [b] :: rawLines rest
      else
        match rawLines rest with
        | [] => [[b]]
        | line :: others => (b :: line) :: others := rfl

theorem rawLines_ne_nil {b : UInt8} {rest : List UInt8} : rawLines (b :: rest) ≠ [] := by
  rw [rawLines]
  split
  · simp
  · split <;> simp

/-- Input that ends a line is read independently of what follows. -/
theorem rawLines_append (first second : List UInt8) (h : first.getLast? = some lineFeed) :
    rawLines (first ++ second) = rawLines first ++ rawLines second := by
  induction first with
  | nil => simp at h
  | cons b rest ih =>
      cases rest with
      | nil =>
          simp only [List.getLast?_singleton, Option.some.injEq] at h
          subst h
          simp [rawLines]
      | cons c more =>
          have hrest : (c :: more).getLast? = some lineFeed := by
            rwa [List.getLast?_cons_cons] at h
          rw [List.cons_append, rawLines_cons b, ih hrest, rawLines_cons b]
          split
          · rfl
          · cases hr : rawLines (c :: more) with
            | nil => exact absurd hr rawLines_ne_nil
            | cons line others => rfl

end DeskShell.Terminal
