import DeskShell.Proofs.Calendar.Durability
import DeskShell.Proofs.Files.Growing

/-!
# What becomes of the events that stood in the file

A file may hold events on some of its lines although it is not a text as a whole (`standing`). A
session that only adds events keeps those of a file that is a text, up to carriage returns at the
ends of descriptions. Of a file that is not a text it loads nothing, and the first write that
succeeds puts the events of the session in place of all that stood there
(`standing_after_additions`).
-/

set_option autoImplicit false

namespace DeskShell.Calendar

open Text Terminal Files

/-- The events that stand on the lines of a file, whatever its other lines hold. -/
def standing (bytes : ByteArray) : List Event :=
  (readableLines bytes.data.toList).filterMap Event.ofLine?

theorem standing_of_text {bytes : ByteArray} {text : String}
    (h : String.fromUTF8? bytes = some text) : standing bytes = (EventBook.ofText text).events := by
  have hencode : encode text.toList = bytes.data.toList := fromUTF8?_eq_some_iff.1 h
  rw [standing, ← hencode, readableLines_encode]
  rfl

/-- What a session loads: the events that stand in the file, if the file is a text. -/
theorem events_stored {root : String} {t : FileTree} {bytes : ByteArray}
    (h : Sandbox.bytes root t EventBook.path = .ok bytes) :
    (EventBook.stored root t).events
      = if (String.fromUTF8? bytes).isSome then standing bytes else [] := by
  cases htext : String.fromUTF8? bytes with
  | some text =>
      have hread := Sandbox.read_eq_ok_iff.2 ⟨bytes, h, htext⟩
      rw [stored_of_read hread, standing_of_text htext]
      rfl
  | none =>
      obtain ⟨refusal, hread⟩ := Sandbox.read_eq_error_of_bytes h htext
      rw [stored_of_error hread]
      rfl

/-! ## Sessions that only add -/

def eventsText (events : List Event) : String := EventBook.toText ⟨events⟩

/-- A session that has only added events: it holds those that it loaded and those that it added,
and its file is that of such a list. -/
structure Grown (root : String) (t₀ : FileTree) (bytes : ByteArray) (added : List Event)
    (written : List Write) (s : State) (t : FileTree) : Prop where
  events_eq : s.book.events = (EventBook.stored root t₀).events ++ added
  file : Growing root EventBook.path eventsText bytes (EventBook.stored root t₀).events added
    written t

/-- **One line** that adds an event, or changes nothing. -/
theorem Grown.hear {look : Look} {root : String} {t₀ t : FileTree} {bytes : ByteArray}
    {added : List Event} {written : List Write} {s : State} {line : String}
    (h : Grown root t₀ bytes added written s t)
    (hline : ∀ change ∈ s.change? line, ∃ e, change = .added e) :
    Grown root t₀ bytes (added ++ (s.change? line).toList.filterMap Change.addition?)
      (written ++ (s.hear look line).writes root t)
      ((s.hear look line).run root t).1.state ((s.hear look line).run root t).2 := by
  cases hchange : s.change? line with
  | none =>
      obtain ⟨hbook, htree, hwrites⟩ := hear_of_change?_eq_none look hchange root t
      rw [hwrites, htree, List.append_nil]
      refine ⟨?_, ?_⟩
      · simpa [hbook] using h.events_eq
      · simpa using h.file
  | some change =>
      obtain ⟨e, rfl⟩ := hline change hchange
      obtain ⟨hbook, htree, hwrites⟩ := hear_of_change?_eq_some look hchange root t
      have hevents : ((Change.added e).apply s.book).events
          = (EventBook.stored root t₀).events ++ (added ++ [e]) := by
        rw [Change.apply, EventBook.events_add, h.events_eq, List.append_assoc]
      have htext : ((Change.added e).apply s.book).toText
          = eventsText ((EventBook.stored root t₀).events ++ (added ++ [e])) := by
        rw [← hevents]
        rfl
      have hadded : (some (Change.added e)).toList.filterMap Change.addition? = [e] := rfl
      rw [hwrites, htree, htext, hadded]
      refine ⟨?_, (h.file.more [e]).write⟩
      rw [hbook, hevents]

/-- **A whole session.** -/
theorem session_grown (look : Look) {root : String} {t : FileTree} {bytes : ByteArray}
    (input : List UInt8) (hbytes : Sandbox.bytes root t EventBook.path = .ok bytes)
    (hadds : ∀ change ∈ sessionChanges look root t input, ∃ e, change = .added e) :
    Grown root t bytes ((sessionChanges look root t input).filterMap Change.addition?)
      (sessionWrites look root t input) (session look root t input).state
      (session look root t input).tree := by
  obtain ⟨hbook, htree, hwrites⟩ := run_opening look root t
  refine Dialogue.converse_induction (motive := fun heard written s t' =>
    (∀ change ∈ heard.filterMap Change.ofHeard?, ∃ e, change = .added e) →
      Grown root t bytes ((heard.filterMap Change.ofHeard?).filterMap Change.addition?)
        written s t')
    ?_ ?_ ?_ hadds
  · intro _
    rw [hwrites, htree]
    exact ⟨by simp [hbook], .start hbytes⟩
  · intro heard written s t' raw line _ _ hgrown hall
    rw [filterMap_concat, Change.ofHeard?_mk] at hall ⊢
    rw [List.filterMap_append]
    have hbefore := hgrown fun change hchange => hall change (List.mem_append_left _ hchange)
    refine hbefore.hear fun change hchange => hall change (List.mem_append_right _ ?_)
    rwa [Option.mem_toList]
  · intro heard written s t' hgrown hall
    simpa [dialogue] using hgrown hall

theorem storable_of_mem_standing {bytes : ByteArray} {text : String}
    (h : String.fromUTF8? bytes = some text) {e : Event} (he : e ∈ standing bytes) :
    e.Storable := by
  rw [standing_of_text h] at he
  exact EventBook.storable_ofText text e he

/-- **What stands in the file after a session that only adds events.** If no write has succeeded,
the file is what it was. Else it holds the events that were loaded and a first part of those that
were added, up to carriage returns at the ends of descriptions; those that were loaded are all that
stood there, if the file was a text, and none, if it was not. So of a text all events still stand
that do not end in a carriage return. -/
theorem standing_after_additions (look : Look) {root : String} {t : FileTree} {bytes : ByteArray}
    (input : List UInt8) (hbytes : Sandbox.bytes root t EventBook.path = .ok bytes)
    (hadds : ∀ change ∈ sessionChanges look root t input, ∃ e, change = .added e) :
    ∃ bytes', Sandbox.bytes root (session look root t input).tree EventBook.path = .ok bytes' ∧
      ((∀ w ∈ sessionWrites look root t input, w.answer ≠ .ok ()) → bytes' = bytes) ∧
      ((∃ w ∈ sessionWrites look root t input, w.answer = .ok ()) →
        ∃ kept, kept <+: (sessionChanges look root t input).filterMap Change.addition? ∧
          standing bytes' = ((if (String.fromUTF8? bytes).isSome then standing bytes else [])
            ++ kept).filterMap Event.reread) ∧
      ((String.fromUTF8? bytes).isSome →
        ∀ e ∈ standing bytes, ¬ e.EndsInReturn → e ∈ standing bytes') := by
  have hgrown := session_grown look input hbytes hadds
  -- the last write that succeeded decides what stands, so the book may be ahead of the file
  rcases hgrown.file.cases with ⟨hfailed, hafter⟩ | ⟨hok, kept, hkept, hafter⟩
  · refine ⟨bytes, hafter, fun _ => rfl, ?_, fun _ e he _ => he⟩
    rintro ⟨w, hw, hanswer⟩
    exact absurd hanswer (hfailed w hw)
  · -- what is written is a first part of the book that is held, so it can be stored
    have hstorable : EventBook.Storable ⟨(EventBook.stored root t).events ++ kept⟩ := by
      intro e he
      have hpart : (EventBook.stored root t).events ++ kept
          <+: (session look root t input).state.book.events := by
        rw [hgrown.events_eq]
        exact (List.prefix_append_right_inj _).2 hkept
      exact (session_kept look root t input).storable e (hpart.subset he)
    have hstanding : standing (eventsText ((EventBook.stored root t).events ++ kept)).toUTF8
        = ((if (String.fromUTF8? bytes).isSome then standing bytes else [])
          ++ kept).filterMap Event.reread := by
      rw [standing_of_text (fromUTF8?_toUTF8 _), eventsText, EventBook.ofText_toText hstorable,
        events_stored hbytes]
    refine ⟨_, hafter, ?_, fun _ => ⟨kept, hkept, hstanding⟩, ?_⟩
    · intro hfailed
      obtain ⟨w, hw, hanswer⟩ := hok
      exact absurd hanswer (hfailed w hw)
    · intro htext e he hreturn
      obtain ⟨text, hsome⟩ := Option.isSome_iff_exists.1 htext
      have hback := (Event.reread_eq_self_iff (storable_of_mem_standing hsome he)).2 hreturn
      rw [hstanding, if_pos htext]
      exact List.mem_filterMap.2 ⟨e, List.mem_append_left _ he, hback⟩

end DeskShell.Calendar
