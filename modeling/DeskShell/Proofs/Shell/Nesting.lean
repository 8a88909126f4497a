import DeskShell.Proofs.Terminal.History
import DeskShell.Proofs.Terminal.Lines
import DeskShell.Shell.Session

/-!
# Applications inside the shell

An application that is started in the shell hears lines until it ends, and then the shell hears the
lines behind them. While it runs, the shell is nothing but the application: its prompt, and what a
line does (`prompt_running`, `hear_running`). So an application that ends by itself hears the same
lines inside the shell as alone, no line more and no line less, whatever stands behind them
(`session_nested`).
-/

set_option autoImplicit false

namespace DeskShell.Terminal.Dialogue

open Files

variable {σ : Type}

/-- Lines behind the last one that is heard stay unread, from an opening turn on as well. -/
theorem converse_append (d : Dialogue σ) (root : String) (opening : Access (Turn σ)) (t : FileTree)
    (lines more : List RawLine) (h : (d.converse root opening t lines).ending = .finished) :
    d.converse root opening t (lines ++ more)
      = (d.converse root opening t lines).followedBy more := by
  unfold converse at h ⊢
  simp only at h ⊢
  by_cases hlast : (opening.run root t).1.last = true
  · rw [if_pos hlast, if_pos hlast]
    rfl
  · rw [if_neg hlast] at h
    rw [if_neg hlast, if_neg hlast, d.run_append root _ _ lines more h]
    rfl

end DeskShell.Terminal.Dialogue

namespace DeskShell.Shell

open Terminal Files

/-! ## Applications -/

/-- An application that its name alone starts in the shell. -/
inductive Application
  | calculator
  | calendar
  | packages
  deriving Repr, DecidableEq

namespace Application

def name : Application → String
  | calculator => "calc"
  | calendar => "calendar"
  | packages => "pkg"

/-- The line of the shell behind its last words. -/
def trailer : Application → String
  | calculator => "Calculator closed."
  | calendar => "Calendar closed."
  | packages => "Package installer finished."

def State : Application → Type
  | calculator => Unit
  | calendar => Calendar.State
  | packages => Packages.Registry

/-- The application as a dialogue of its own. -/
def dialogue (look : Calendar.Look) : (app : Application) → Dialogue app.State
  | calculator => Calculator.dialogue look.style
  | calendar => Calendar.dialogue look
  | packages => Packages.dialogue

/-- Its first words; the package installer is called with no command. -/
def opening (look : Calendar.Look) : (app : Application) → Access (Turn app.State)
  | calculator => Calculator.opening
  | calendar => Calendar.opening look
  | packages => Packages.opening ""

/-- The application as it runs in the shell. -/
def running : (app : Application) → app.State → Activity
  | calculator => fun _ => .calculator
  | calendar => .calendar
  | packages => .packages

/-- The outcome of an application alone on typed bytes. -/
def session (look : Calendar.Look) (app : Application) (root : String) (t : FileTree)
    (input : List UInt8) : Outcome app.State :=
  (app.dialogue look).converse root (app.opening look) t (rawLines input)

variable (look : Calendar.Look) (app : Application)

theorem prompt_running (s : app.State) :
    (Shell.dialogue look).prompt (some (app.running s)) = (app.dialogue look).prompt s := by
  cases app <;> rfl

theorem hear_running (s : app.State) (line : String) :
    (Shell.dialogue look).hear (some (app.running s)) line
      = Activity.turn app.running <$> (app.dialogue look).hear s line := by
  cases app <;> rfl

theorem farewell_running (s : app.State) :
    (app.running s).farewell = .sayLine app.trailer := by
  cases app <;> rfl

/-- The command that starts an application is its opening. -/
theorem hear_name {line : String} (h : Text.trim line.toList = Text.trim app.name.toList) :
    (Shell.dialogue look).hear none line = Activity.turn app.running <$> app.opening look := by
  have hcommand : Command.ofLine line = Command.ofLine app.name := by
    unfold Command.ofLine
    rw [h]
  simp only [Shell.dialogue, Shell.hear, hcommand]
  cases app <;> rfl

/-- The turn of an application as a turn of the shell, which goes on in any case. -/
theorem turn_running (turn : Turn app.State) :
    Activity.turn app.running turn =
      if turn.last then ⟨turn.written ++ .sayLine app.trailer, none, false⟩
      else ⟨turn.written, some (app.running turn.state), false⟩ := by
  unfold Activity.turn
  rw [farewell_running]

/-! ## Inside the shell -/

/-- What the shell does once an application has ended. -/
def resumed (root : String) (alone : Outcome app.State) : Outcome (Option Activity) :=
  ((Shell.dialogue look).run root none alone.tree alone.unread).after
    (alone.written ++ .sayLine app.trailer)

/-- **An application that ends by itself** hears the same lines inside the shell as alone, and then
the shell hears the rest. -/
theorem run_running (root : String) (s : app.State) (t : FileTree) (lines : List RawLine)
    (h : ((app.dialogue look).run root s t lines).ending = .finished) :
    (Shell.dialogue look).run root (some (app.running s)) t lines
      = app.resumed look root ((app.dialogue look).run root s t lines) := by
  -- the induction follows the lines, each of which is a turn of the application
  induction lines generalizing s t with
  | nil => cases h
  | cons raw rest ih =>
      rw [Dialogue.run, Dialogue.run]
      rw [Dialogue.run] at h
      cases hraw : raw.text? with
      | none =>
          rw [hraw] at h
          cases h
      | some line =>
          simp only [hraw] at h
          simp only [prompt_running, hear_running, Access.run_map, turn_running]
          -- alone and inside the shell, the line is heard on the same tree, with the same answer
          generalize ((app.dialogue look).hear s line).run root t = heard at h ⊢
          obtain ⟨turn, t'⟩ := heard
          by_cases hlast : turn.last = true
          · simp only [hlast, if_true, resumed, Bool.false_eq_true, if_false,
              Transcript.append_assoc]
          · simp only [hlast, Bool.false_eq_true, if_false] at h ⊢
            rw [ih turn.state t' h]
            simp only [resumed, Outcome.after, Transcript.append_assoc]

/-- The line that starts an application is followed by what it does alone. -/
theorem run_name (root : String) (t : FileTree) (lines : List RawLine)
    (h : ((app.dialogue look).converse root (app.opening look) t lines).ending = .finished) :
    (Shell.dialogue look).run root none t (typedLine app.name :: lines)
      = (app.resumed look root
          ((app.dialogue look).converse root (app.opening look) t lines)).after
            (.say commandPrompt) := by
  obtain ⟨heard, htext, htrim⟩ := text?_typedLine app.name
  have hstart := app.hear_name look htrim
  have hprompt : (Shell.dialogue look).prompt none = commandPrompt := rfl
  unfold Dialogue.converse at h ⊢
  rw [Dialogue.run]
  simp only [htext, hstart, hprompt, Access.run_map, turn_running]
  generalize (app.opening look).run root t = first at h ⊢
  obtain ⟨turn, t'⟩ := first
  by_cases hlast : turn.last = true
  · simp only [hlast, if_true, resumed, Bool.false_eq_true, if_false, Outcome.after,
      Transcript.append_assoc]
  · simp only [hlast, Bool.false_eq_true, if_false] at h ⊢
    rw [app.run_running look root turn.state t' lines h]
    simp only [resumed, Outcome.after, Transcript.append_assoc]

end Application

/-- The outcome of the shell on typed bytes. -/
def session (look : Calendar.Look) (root : String) (t : FileTree) (input : List UInt8) :
    Outcome (Option Activity) :=
  (Shell.dialogue look).run root none t (rawLines input)

/-- **An application consumes exactly its own lines.** If the last line of some input is the command
that ends it, then any bytes behind that input change nothing of what it does, and all of them are
left unread. So a shell in which it is started does what the application does alone, says that it is
over, and goes on with these bytes on the files that the application has left. -/
theorem session_nested (look : Calendar.Look) (app : Application) (root : String) (t : FileTree)
    (input : List UInt8) (hline : input.getLast? = some lineFeed)
    (hfinished : (app.session look root t input).ending = .finished)
    (hread : (app.session look root t input).unread = []) (rest : List UInt8) :
    let alone := app.session look root t input
    app.session look root t (input ++ rest) = { alone with unread := rawLines rest } ∧
    (app.session look root t (input ++ rest)).unread.flatten = rest ∧
    session look root t (typedLine app.name ++ (input ++ rest))
      = (session look root alone.tree rest).after
          (.say commandPrompt ++ alone.written ++ .sayLine app.trailer) := by
  intro alone
  have hlonger : app.session look root t (input ++ rest)
      = { alone with unread := rawLines rest } := by
    have happend := (app.dialogue look).converse_append root (app.opening look) t (rawLines input)
      (rawLines rest) hfinished
    have hnone : alone.unread ++ rawLines rest = rawLines rest := by
      rw [show alone.unread = [] from hread, List.nil_append]
    calc app.session look root t (input ++ rest)
        = alone.followedBy (rawLines rest) := by
          rw [Application.session, rawLines_append input rest hline, happend]
          rfl
      _ = { alone with unread := rawLines rest } := by rw [Outcome.followedBy, hnone]
  refine ⟨hlonger, by rw [hlonger, flatten_rawLines], ?_⟩
  -- the name is a line of its own, whatever is typed behind it
  have hname : lineFeed ∉ encode app.name.toList := by
    cases app <;> exact lineFeed_notMem_encode (by decide)
  have hlines : rawLines (typedLine app.name ++ (input ++ rest))
      = typedLine app.name :: rawLines (input ++ rest) := by
    rw [typedLine, List.append_assoc, List.singleton_append, rawLines_append_lineFeed hname]
  have hended : (app.session look root t (input ++ rest)).ending = .finished := by
    rw [hlonger]
    exact hfinished
  calc session look root t (typedLine app.name ++ (input ++ rest))
      = (app.resumed look root (app.session look root t (input ++ rest))).after
          (.say commandPrompt) := by
        rw [session, hlines, app.run_name look root t _ hended, Application.session]
    _ = (session look root alone.tree rest).after
          (.say commandPrompt ++ alone.written ++ .sayLine app.trailer) := by
        rw [hlonger, Application.resumed, session]
        simp only [Outcome.after, Transcript.append_assoc]

/-- An event is added to the shown month, for which the calendar asks three questions; the bytes
behind its last line are not text. -/
theorem session_nested_of_questions :
    let look : Calendar.Look := ⟨⟨2024, 2, 20, by decide⟩, .plain⟩
    let t : FileTree := ⟨["w"], [(["w"], .directory)]⟩
    let input := typed ["add", "", "1", "x", "exit"]
    let alone := Application.calendar.session look "." t input
    input.getLast? = some lineFeed ∧ alone.ending = .finished ∧ alone.unread = [] ∧
      (Application.calendar.session look "." t (input ++ [255])).unread.flatten = [255] ∧
      session look "." t (typedLine "calendar" ++ (input ++ [255]))
        = (session look "." alone.tree [255]).after
            (.say "genix> " ++ alone.written ++ .sayLine "Calendar closed.") ∧
      (session look "." alone.tree [255]).ending = .inputNotText := by
  intro look t input alone
  have hline : input.getLast? = some lineFeed := by decide
  have hends : alone.unread = [] ∧ alone.ending = .finished := by decide +kernel
  obtain ⟨hread, hfinished⟩ := hends
  have hnested := session_nested look .calendar "." t input hline hfinished hread [255]
  have hbroken : (session look "." alone.tree [255]).ending = .inputNotText := by decide +kernel
  exact ⟨hline, hfinished, hread, hnested.2.1, hnested.2.2, hbroken⟩

end DeskShell.Shell
