import DeskShell.Proofs.Files.Writing
import DeskShell.Proofs.Terminal.History

/-!
# A file that holds a growing list

An application that keeps a list in a file loads it once, adds to it, and writes the whole list from
time to time. Whatever the file held before, it is in one of two states then (`Growing`): as long
as no write has succeeded, its bytes are what they were; and since the last write that has
succeeded, it holds the list that was loaded, with a first part of what has been added.

What was loaded need not be what the file held. This is where a file gets lost that cannot be read.
-/

set_option autoImplicit false

namespace DeskShell.Files

variable {α : Type}

/-- The file at a path, where `bytes` is what it held at first, `loaded` the list with which the
application started, and `added` all that has been added to it since. -/
structure Growing (root path : String) (render : List α → String) (bytes : ByteArray)
    (loaded added : List α) (written : List Write) (t : FileTree) : Prop where
  untouched : (∀ w ∈ written, w.answer ≠ .ok ()) → Sandbox.bytes root t path = .ok bytes
  rewritten : (∃ w ∈ written, w.answer = .ok ()) → ∃ kept, kept <+: added ∧
    Sandbox.bytes root t path = .ok (render (loaded ++ kept)).toUTF8

namespace Growing

variable {root path : String} {render : List α → String} {bytes : ByteArray}
  {loaded added : List α} {written : List Write} {t : FileTree}

theorem start (h : Sandbox.bytes root t path = .ok bytes) :
    Growing root path render bytes loaded added [] t := by
  refine ⟨fun _ => h, ?_⟩
  rintro ⟨w, hw, -⟩
  cases hw

/-- What is added does not reach the file by itself. -/
theorem more (h : Growing root path render bytes loaded added written t) (further : List α) :
    Growing root path render bytes loaded (added ++ further) written t := by
  refine ⟨h.untouched, fun hok => ?_⟩
  obtain ⟨kept, hkept, hbytes⟩ := h.rewritten hok
  exact ⟨kept, hkept.trans (List.prefix_append _ _), hbytes⟩

/-- The list is written, whether that succeeds or not. -/
theorem write (h : Growing root path render bytes loaded added written t) :
    Growing root path render bytes loaded added
      (written ++ [⟨path, render (loaded ++ added),
        (Sandbox.write root t path (render (loaded ++ added))).2⟩])
      (Sandbox.write root t path (render (loaded ++ added))).1 := by
  cases hanswer : (Sandbox.write root t path (render (loaded ++ added))).2 with
  | ok _ =>
      have hbytes := Sandbox.bytes_write_of_ok hanswer
      refine ⟨fun hfailed => ?_, fun _ => ⟨added, List.prefix_refl _, hbytes⟩⟩
      exact absurd rfl (hfailed _ (List.mem_append_right _ (List.mem_singleton_self _)))
  | error refusal =>
      -- a write that fails changes no file, so the state is that before it
      constructor
      · intro hfailed
        have hbefore := h.untouched fun w hw => hfailed w (List.mem_append_left _ hw)
        exact Sandbox.bytes_write_of_error hanswer hbefore
      · rintro ⟨w, hw, hok⟩
        rcases List.mem_append.1 hw with hw | hw
        · obtain ⟨kept, hkept, hbefore⟩ := h.rewritten ⟨w, hw, hok⟩
          exact ⟨kept, hkept, Sandbox.bytes_write_of_error hanswer hbefore⟩
        · rw [List.mem_singleton.1 hw] at hok
          cases hok

theorem cases (h : Growing root path render bytes loaded added written t) :
    ((∀ w ∈ written, w.answer ≠ .ok ()) ∧ Sandbox.bytes root t path = .ok bytes) ∨
      (∃ w ∈ written, w.answer = .ok ()) ∧ ∃ kept, kept <+: added ∧
        Sandbox.bytes root t path = .ok (render (loaded ++ kept)).toUTF8 := by
  by_cases hok : ∃ w ∈ written, w.answer = .ok ()
  · exact .inr ⟨hok, h.rewritten hok⟩
  · have hfailed : ∀ w ∈ written, w.answer ≠ .ok () := by
      intro w hw hanswer
      exact hok ⟨w, hw, hanswer⟩
    exact .inl ⟨hfailed, h.untouched hfailed⟩

end Growing

end DeskShell.Files
