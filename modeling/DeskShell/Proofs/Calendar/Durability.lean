import DeskShell.Proofs.Calendar.Changes
import DeskShell.Proofs.Files.Writing

/-!
# What a calendar session leaves in its file

A session writes the whole book after each change, so its file holds the book of the session as soon
as one change has been made and written (`Kept`), and the file that was found as long as none has.
What is read from the file afterwards is therefore the book that the session held, less the carriage
returns at the ends of descriptions.
-/

set_option autoImplicit false

namespace DeskShell.Calendar

open Terminal Files

/-! ## Sessions -/

def Change.ofHeard? (heard : Heard State) : Option Change := heard.state.change? heard.line

@[simp]
theorem Change.ofHeard?_mk (s : State) (t : FileTree) (line : String) :
    Change.ofHeard? ⟨s, t, line⟩ = s.change? line := by rw [Change.ofHeard?]

section Session

variable (look : Look) (root : String) (t : FileTree) (input : List UInt8)

def session : Outcome State :=
  (dialogue look).converse root (opening look) t (rawLines input)

def sessionWrites : List Write :=
  (dialogue look).converseWrites root (opening look) t (rawLines input)

def sessionChanges : List Change :=
  ((dialogue look).converseHeard root (opening look) t (rawLines input)).filterMap Change.ofHeard?

end Session

def EventBook.stored (root : String) (t : FileTree) : EventBook := (EventBook.load.run root t).1

/-- A session starts with the book in the file, and has not touched a file by then. -/
theorem run_opening (look : Look) (root : String) (t : FileTree) :
    ((opening look).run root t).1.state.book = EventBook.stored root t ∧
      ((opening look).run root t).2 = t ∧ (opening look).writes root t = [] := by
  have hload : (EventBook.load.run root t).2 = t ∧ EventBook.load.writes root t = [] := by
    unfold EventBook.load
    rw [Access.run_bind, Access.writes_bind, Access.run_readText, Access.writes_readText]
    cases Sandbox.read root t EventBook.path <;> exact ⟨rfl, rfl⟩
  simp [opening, EventBook.stored, hload]

theorem stored_of_read {root : String} {t : FileTree} {text : String}
    (h : Sandbox.read root t EventBook.path = .ok text) :
    EventBook.stored root t = EventBook.ofText text := by
  simp [EventBook.stored, EventBook.load, h]

theorem stored_of_error {root : String} {t : FileTree} {refusal : Sandbox.Refusal}
    (h : Sandbox.read root t EventBook.path = .error refusal) :
    EventBook.stored root t = {} := by
  simp [EventBook.stored, EventBook.load, h]

theorem EventBook.storable_stored (root : String) (t : FileTree) :
    (EventBook.stored root t).Storable := by
  cases h : Sandbox.read root t EventBook.path with
  | ok text =>
      rw [stored_of_read h]
      exact storable_ofText text
  | error refusal =>
      rw [stored_of_error h]
      intro e he
      cases he

/-! ## Writes that succeed -/

/-- The book of a session and its file, where all writes succeed: the book can be stored, and
either nothing has happened yet or the file holds the book. -/
structure Kept (root : String) (t₀ : FileTree) (written : List Write) (s : State)
    (t : FileTree) : Prop where
  storable : s.book.Storable
  file : (∀ w ∈ written, w.answer = .ok ()) →
    (written = [] ∧ s.book = EventBook.stored root t₀ ∧ t = t₀) ∨
      (written ≠ [] ∧ Sandbox.read root t EventBook.path = .ok s.book.toText)

/-- **One line.** -/
theorem Kept.hear {look : Look} {root : String} {t₀ t : FileTree} {written : List Write}
    {s : State} {line : String} (h : Kept root t₀ written s t) (hline : '\n' ∉ line.toList) :
    Kept root t₀ (written ++ (s.hear look line).writes root t)
      ((s.hear look line).run root t).1.state ((s.hear look line).run root t).2 := by
  cases hchange : s.change? line with
  | none =>
      obtain ⟨hbook, htree, hwrites⟩ := hear_of_change?_eq_none look hchange root t
      refine ⟨?_, ?_⟩
      · rw [hbook]
        exact h.storable
      · rw [hbook, htree, hwrites, List.append_nil]
        exact h.file
  | some change =>
      obtain ⟨hbook, htree, hwrites⟩ := hear_of_change?_eq_some look hchange root t
      refine ⟨?_, ?_⟩
      · rw [hbook]
        exact storable_of_change? hchange h.storable hline
      · rw [hbook, htree, hwrites]
        intro hok
        have hlast := hok _ (List.mem_append_right written (List.mem_singleton_self _))
        simp only at hlast
        exact .inr ⟨by simp, Sandbox.read_write_of_ok hlast⟩

/-- **A whole session.** -/
theorem session_kept (look : Look) (root : String) (t : FileTree) (input : List UInt8) :
    Kept root t (sessionWrites look root t input) (session look root t input).state
      (session look root t input).tree := by
  obtain ⟨hbook, htree, hwrites⟩ := run_opening look root t
  -- of the history only the writes matter
  refine Dialogue.converse_induction (motive := fun _ written s t' => Kept root t written s t')
    ?_ ?_ ?_
  · refine ⟨?_, fun _ => .inl ⟨hwrites, hbook, htree⟩⟩
    rw [hbook]
    exact EventBook.storable_stored root t
  · intro _ written s t' raw line hraw htext hkept
    show Kept root t (written ++ (s.hear look line).writes root t')
      ((s.hear look line).run root t').1.state ((s.hear look line).run root t').2
    exact hkept.hear (newline_notMem_of_text? hraw htext).1
  · intro _ written s t' hkept
    simpa [dialogue] using hkept

/-- **What is read after a session whose writes all succeed.** Where nothing was written, the book
that was read is still the one that was held. Else the events come back in their order with their
dates, but a carriage return at the end of a description is lost. So the book that is read is the
one that was held exactly if nothing was written or no description ends in a carriage return. -/
theorem stored_after_session {look : Look} {root : String} {t : FileTree} {input : List UInt8}
    (h : ∀ w ∈ sessionWrites look root t input, w.answer = .ok ()) :
    (sessionWrites look root t input = [] →
      EventBook.stored root (session look root t input).tree
        = (session look root t input).state.book) ∧
    (sessionWrites look root t input ≠ [] →
      (EventBook.stored root (session look root t input).tree).events
        = (session look root t input).state.book.events.filterMap Event.reread) ∧
    (EventBook.stored root (session look root t input).tree
        = (session look root t input).state.book ↔
      sessionWrites look root t input = [] ∨
        ∀ e ∈ (session look root t input).state.book.events, ¬ e.EndsInReturn) := by
  have hkept := session_kept look root t input
  rcases hkept.file h with ⟨hnone, hbook, htree⟩ | ⟨hsome, hread⟩
  · have hsame : EventBook.stored root (session look root t input).tree
        = (session look root t input).state.book := by rw [htree, hbook]
    exact ⟨fun _ => hsame, fun hne => absurd hnone hne, fun _ => .inl hnone, fun _ => hsame⟩
  · have hstored := stored_of_read hread
    refine ⟨fun hnil => absurd hnil hsome, fun _ => ?_, ?_⟩
    · rw [hstored, EventBook.ofText_toText hkept.storable]
    · rw [hstored, EventBook.ofText_toText_eq_iff hkept.storable]
      constructor
      · exact fun hall => .inr hall
      · rintro (hnil | hall)
        · exact absurd hnil hsome
        · exact hall

/-- A session that adds one event to a file whose last line is not closed: the carriage return that
ends it is part of the description, until the line is closed. -/
theorem stored_after_session_of_open_line :
    let look : Look := ⟨⟨2024, 2, 20, by decide⟩, .plain⟩
    let t : FileTree := ⟨["w"], [(["w"], .directory), (["w", "home"], .directory),
      (["w", "home", "user"], .directory),
      (["w", "home", "user", "events.txt"], .file "2024-01-01|a\r".toUTF8)]⟩
    let input : List UInt8 := "add\n\n1\nb\nexit\n".toUTF8.toList
    (∀ w ∈ sessionWrites look "." t input, w.answer = .ok ()) ∧
      sessionWrites look "." t input ≠ [] ∧
      EventBook.stored "." (session look "." t input).tree
        ≠ (session look "." t input).state.book := by
  intro look t input
  have hok : ∀ w ∈ sessionWrites look "." t input, w.answer = .ok () := by decide +kernel
  have hwritten : sessionWrites look "." t input ≠ [] := by decide +kernel
  refine ⟨hok, hwritten, fun hsame => ?_⟩
  rcases (stored_after_session hok).2.2.1 hsame with hnone | hall
  · exact hwritten hnone
  · have hreturn : ∃ e ∈ (session look "." t input).state.book.events, e.EndsInReturn := by
      decide +kernel
    obtain ⟨e, he, hends⟩ := hreturn
    exact hall e he hends

end DeskShell.Calendar
