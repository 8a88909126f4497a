import DeskShell.Text.Letter

/-!
# Styled text

Three fragments of the output stand out on a terminal: days with events, the current day, and the
label of an error. Which sequences mark them is up to the terminal library, a `Palette`; all that
is known of it is that it surrounds a fragment with escape sequences and leaves the text alone. In
plain style the sequences are left out, so that plain output is the text itself.
-/

set_option autoImplicit false

namespace DeskShell.Terminal

/-- When output is styled. -/
inductive Coloring
  /-- On a terminal only. -/
  | auto
  | always
  | never
  deriving Repr, DecidableEq, Inhabited

/-- The setting that a word stands for, in any case. -/
def Coloring.ofWord? (word : String) : Option Coloring :=
  match Text.lower word with
  | "auto" => some .auto
  | "on" | "always" | "yes" | "1" => some .always
  | "off" | "never" | "no" | "0" => some .never
  | _ => none

/-! ## Markings -/

/-- Nothing but escape sequences that set attributes: each starts with an escape character and a
bracket, and the next letter `m` ends it. -/
inductive Sequences : List Char → Prop
  | nil : Sequences []
  | cons {attributes others : List Char} (closed : 'm' ∉ attributes) (h : Sequences others) :
      Sequences ('\x1b' :: '[' :: (attributes ++ 'm' :: others))

/-- A way to mark fragments. -/
structure Marking where
  apply : String → String
  /-- It puts sequences around a fragment and leaves its text as it is. -/
  surrounds : ∀ text, ∃ before after, Sequences before ∧ Sequences after ∧
    (apply text).toList = before ++ text.toList ++ after

/-- The markings that a terminal library offers to the program. -/
structure Palette where
  /-- For a day with events. -/
  eventDay : Marking
  /-- For the current day. -/
  today : Marking
  /-- For the label of an error. -/
  error : Marking

/-! ## Styles -/

/-- How fragments are marked: not at all, or by the markings of a palette. -/
inductive Style
  | plain
  | marked (palette : Palette)

namespace Style

/-- The style for a setting. `onTerminal` tells whether the output is a terminal. -/
def ofColoring (palette : Palette) (coloring : Coloring) (onTerminal : Bool) : Style :=
  let enabled :=
    match coloring with
    | .auto => onTerminal
    | .always => true
    | .never => false
  if enabled then marked palette else plain

/-- A fragment with one of the markings. -/
def mark (kind : Palette → Marking) (text : String) : Style → String
  | plain => text
  | marked palette => (kind palette).apply text

def eventDay (style : Style) (text : String) : String := style.mark Palette.eventDay text

def today (style : Style) (text : String) : String := style.mark Palette.today text

def errorLabel (style : Style) : String := style.mark Palette.error "Error:"

end Style

end DeskShell.Terminal
