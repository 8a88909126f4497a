import DeskShell.Calendar.Session
import DeskShell.Proofs.Calendar.EventText
import DeskShell.Proofs.Terminal.History
import DeskShell.Proofs.Terminal.Lines

/-!
# Changes of the book

A line that a calendar session hears either leaves the book and the files alone, or makes one
change of the book and writes the book to its file (`State.hear_cases`). Which of the two it is, and
which change, is decided by the state and the line alone (`State.change?`). All books that can come
up in a session can be stored (`EventBook.Storable`).
-/

set_option autoImplicit false

namespace DeskShell.Calendar

open Text Terminal Files

/-! ## One change -/

/-- A change of a book. -/
inductive Change
  | added (event : Event)
  | described (index : Nat) (description : String)
  | erased (index : Nat)
  deriving DecidableEq

def Change.apply (b : EventBook) : Change → EventBook
  | added event => b.add event
  | described index description => b.describe index description
  | erased index => b.erase index

def Change.addition? : Change → Option Event
  | added event => some event
  | _ => none

def onlyEventOn? (b : EventBook) (line : String) : Option Nat :=
  match DateParts.ofText? line with
  | some parts =>
      match (parts.toDate?.map b.indicesOn).getD [] with
      | [index] => some index
      | _ => none
  | none => none

def State.change? (s : State) (line : String) : Option Change :=
  match s.question with
  | .description date => if line = "" then none else some (.added (.clipped date line))
  | .existingDate .delete => (onlyEventOn? s.book line).map .erased
  | .choice .delete candidates => (pick? candidates line).map .erased
  | .newDescription index => if line = "" then none else some (.described index line)
  | _ => none

/-! ## One line -/

/-- Whether a turn leaves the book and the files alone. -/
def Idle (s : State) (access : Access (Turn State)) : Prop :=
  ∃ turn : Turn State, access = pure turn ∧ turn.state.book = s.book

theorem Idle.ask (s : State) (written : Transcript) (question : Question) :
    Idle s (s.ask written question) := ⟨_, rfl, rfl⟩

theorem Idle.unchanged (look : Look) (s : State) (message : String) :
    Idle s (s.unchanged look message) := ⟨_, rfl, rfl⟩

theorem Idle.reply (s : State) (written : Transcript) : Idle s (s.reply written) := ⟨_, rfl, rfl⟩

theorem Idle.describeNew (look : Look) (s : State) (date : Option Date) :
    Idle s (s.describeNew look date) := by
  cases date with
  | none => exact .unchanged look s _
  | some d => exact .ask s _ _

theorem Idle.turnTo (look : Look) (s : State) (month : Option Month) :
    Idle s (s.turnTo look month) := by
  cases month with
  | none => exact .reply s _
  | some m => exact ⟨_, rfl, rfl⟩

theorem Idle.goTo (look : Look) (s : State) (arguments : List String) :
    Idle s (s.goTo look arguments) := by
  unfold State.goTo
  split
  · split
    · exact ⟨_, rfl, rfl⟩
    · exact .reply s _
  · exact .reply s _

theorem Idle.choose (look : Look) (s : State) (purpose : Purpose) :
    Idle s (s.choose look purpose) := by
  unfold State.choose
  split
  · exact .unchanged look s _
  · exact .ask s _ _

theorem Idle.hearCommand (look : Look) (s : State) (line : String) :
    Idle s (s.hearCommand look line) := by
  unfold State.hearCommand
  split
  · exact .reply s _
  · split
    · exact ⟨_, rfl, rfl⟩
    · exact .reply s _
    · exact .turnTo look s _
    · exact .turnTo look s _
    · exact .goTo look s _
    · exact .ask s _ _
    · exact .choose look s _
    · exact .choose look s _
    · exact .reply s _
    · exact .reply s _

/-- **What a line does**: nothing to the book and the files, or the change that it stands for. -/
theorem State.hear_cases (look : Look) (s : State) (line : String) :
    (s.change? line = none ∧ Idle s (s.hear look line)) ∨
    ∃ change message, s.change? line = some change ∧
      s.hear look line = s.changed look (change.apply s.book) message := by
  -- the question decides what a line can do
  obtain ⟨book, month, question⟩ := s
  cases question with
  | command => exact .inl ⟨rfl, .hearCommand look _ line⟩
  | eventDate =>
      refine .inl ⟨rfl, ?_⟩
      simp only [State.hear, State.hearEventDate]
      split
      · exact .ask _ _ _
      · split
        · exact .describeNew look _ _
        · exact .unchanged look _ _
  | eventDay => exact .inl ⟨rfl, .describeNew look _ _⟩
  | description date =>
      by_cases hline : line = ""
      · refine .inl ⟨by simp [State.change?, hline], ?_⟩
        simp only [State.hear, State.hearDescription, if_pos hline]
        exact .unchanged look _ _
      · refine .inr ⟨.added (.clipped date line),
          s!"Event added for {(DateParts.ofDate date).text}.", by simp [State.change?, hline], ?_⟩
        simp only [State.hear, State.hearDescription, if_neg hline]
        rfl
  | existingDate purpose =>
      simp only [State.hear, State.hearExistingDate]
      cases hparts : DateParts.ofText? line with
      | none =>
          refine .inl ⟨?_, .unchanged look _ _⟩
          cases purpose <;> simp [State.change?, onlyEventOn?, hparts]
      | some parts =>
          simp only
          match hfound : (parts.toDate?.map book.indicesOn).getD [] with
          | [] =>
              refine .inl ⟨?_, .unchanged look _ _⟩
              cases purpose <;> simp [State.change?, onlyEventOn?, hparts, hfound]
          | [index] =>
              cases purpose with
              | edit => exact .inl ⟨rfl, .ask _ _ _⟩
              | delete =>
                  refine .inr ⟨.erased index, _, ?_, rfl⟩
                  simp [State.change?, onlyEventOn?, hparts, hfound]
          | first :: second :: more =>
              -- several events on one date lead to a choice
              refine .inl ⟨?_, .ask _ _ _⟩
              cases purpose <;> simp [State.change?, onlyEventOn?, hparts, hfound]
  | choice purpose candidates =>
      simp only [State.hear, State.hearChoice]
      cases hpick : pick? candidates line with
      | none =>
          refine .inl ⟨?_, .unchanged look _ _⟩
          cases purpose <;> simp [State.change?, hpick]
      | some index =>
          cases purpose with
          | edit => exact .inl ⟨rfl, .ask _ _ _⟩
          | delete => exact .inr ⟨.erased index, _, by simp [State.change?, hpick], rfl⟩
  | newDescription index =>
      by_cases hline : line = ""
      · refine .inl ⟨by simp [State.change?, hline], ?_⟩
        simp only [State.hear, State.hearNewDescription, if_pos hline]
        exact .unchanged look _ _
      · refine .inr ⟨.described index line, "Event updated.", by simp [State.change?, hline], ?_⟩
        simp only [State.hear, State.hearNewDescription, if_neg hline]
        rfl

/-! ## On files -/

/-- A line that changes nothing: the book and the tree are what they were, and nothing is
written. -/
theorem hear_of_change?_eq_none (look : Look) {s : State} {line : String}
    (h : s.change? line = none) (root : String) (t : FileTree) :
    ((s.hear look line).run root t).1.state.book = s.book ∧
      ((s.hear look line).run root t).2 = t ∧ (s.hear look line).writes root t = [] := by
  rcases s.hear_cases look line with ⟨-, turn, hturn, hbook⟩ | ⟨change, message, hchange, -⟩
  · rw [hturn]
    exact ⟨hbook, rfl, rfl⟩
  · rw [h] at hchange
    cases hchange

/-- A line that changes the book: the changed book is held and written to its file, whether that
succeeds or not. -/
theorem hear_of_change?_eq_some (look : Look) {s : State} {line : String} {change : Change}
    (h : s.change? line = some change) (root : String) (t : FileTree) :
    ((s.hear look line).run root t).1.state.book = change.apply s.book ∧
      ((s.hear look line).run root t).2
        = (Sandbox.write root t EventBook.path (change.apply s.book).toText).1 ∧
      (s.hear look line).writes root t = [⟨EventBook.path, (change.apply s.book).toText,
        (Sandbox.write root t EventBook.path (change.apply s.book).toText).2⟩] := by
  rcases s.hear_cases look line with ⟨hnone, -⟩ | ⟨change', message, hchange, hhear⟩
  · rw [h] at hnone
    cases hnone
  · rw [h] at hchange
    cases hchange
    rw [hhear]
    simp [State.changed, EventBook.save]

/-! ## Books that can be stored -/

/-- **A typed line keeps the book fit to be stored.** -/
theorem storable_of_change? {s : State} {line : String} {change : Change}
    (h : s.change? line = some change) (hbook : s.book.Storable) (hline : '\n' ∉ line.toList) :
    (change.apply s.book).Storable := by
  -- a deletion leaves a part of the book, whichever question it is the answer to
  have herase : ∀ index, (s.book.erase index).Storable := by
    intro index e he
    exact hbook e (List.mem_of_mem_eraseIdx he)
  obtain ⟨book, month, question⟩ := s
  cases question with
  -- these three ask on and change nothing
  | command | eventDate | eventDay => cases h
  | description date =>
      simp only [State.change?] at h
      split at h
      · cases h
      · next hne =>
          cases h
          intro e he
          rcases List.mem_append.1 he with he | he
          · exact hbook e he
          · rw [List.mem_singleton.1 he]
            exact Event.storable_of_clip (by simpa using hne) hline
  | existingDate purpose =>
      cases purpose with
      | edit => cases h
      | delete =>
          obtain ⟨index, -, rfl⟩ := Option.map_eq_some_iff.1 h
          exact herase index
  | choice purpose candidates =>
      cases purpose with
      | edit => cases h
      | delete =>
          obtain ⟨index, -, rfl⟩ := Option.map_eq_some_iff.1 h
          exact herase index
  | newDescription index =>
      simp only [State.change?] at h
      split at h
      · cases h
      · next hne =>
          cases h
          intro e he
          simp only [Change.apply, EventBook.events_describe] at he
          obtain ⟨i, hi, rfl⟩ := List.getElem_of_mem he
          rw [List.getElem_modify]
          split
          · exact Event.storable_of_clip (by simpa using hne) hline
          · exact hbook _ (List.getElem_mem _)

end DeskShell.Calendar
