import DeskShell.Calendar.Page
import DeskShell.Proofs.Calendar.Days
import DeskShell.Proofs.Calendar.Months
import Mathlib.Data.List.Basic
import Mathlib.Logic.ExistsUnique

/-!
# The lists of events

The events of a month come to be seen in three ways: by a star in the grid, in the list of a day,
and in the list of the month. The three look them up differently, by existence, by index and by year
and month. They agree all the same (`event_views_agree`): of the list of a month, the events of one
day are those that the list of this day holds, in the same order.
-/

set_option autoImplicit false

namespace DeskShell.Calendar

open Text

/-! ## The list of a day -/

def dayLine (e : Event) : String := "  - " ++ e.description ++ "\n"

/-- **A day is listed** with all events on it, in their order, or said to have none. -/
theorem dayEvents_ofDate (b : EventBook) (d : Date) :
    dayEvents (DateParts.ofDate d) b
      = if b.indicesOn d = [] then s!"No events on {(DateParts.ofDate d).text}.\n"
        else s!"Events on {(DateParts.ofDate d).text}:\n"
          ++ String.join ((b.events.filter fun e => e.date == d).map dayLine) := by
  unfold dayEvents
  rw [DateParts.toDate?_ofDate]
  simp only [Option.map_some, Option.getD_some]
  split
  · next hnone => rw [if_pos hnone]
  · next hsome =>
      rw [if_neg hsome, b.filterMap_indicesOn]
      rfl

/-- A list of a day is not mistaken for the answer that there are no events. -/
theorem dayEvents_ne_iff {b : EventBook} {d : Date} :
    dayEvents (DateParts.ofDate d) b ≠ s!"No events on {(DateParts.ofDate d).text}.\n" ↔
      b.indicesOn d ≠ [] := by
  rw [dayEvents_ofDate]
  split
  · next hnone => simp [hnone]
  · next hsome =>
      refine iff_of_true (fun heq => ?_) hsome
      have hhead := congrArg (fun s : String => s.toList.head?) heq
      have hlisted : (toString "Events on ").toList.head? = some 'E' := rfl
      have hnone : (toString "No events on ").toList.head? = some 'N' := rfl
      simp [String.toList_append, hlisted, hnone] at hhead

theorem hasEventOn_iff {b : EventBook} {d : Date} :
    b.hasEventOn d = true ↔ b.indicesOn d ≠ [] := by
  rw [← List.length_pos_iff, b.length_indicesOn, EventBook.countOn, List.countP_pos_iff,
    EventBook.hasEventOn, List.any_eq_true]

/-! ## The list of a month -/

/-- **Of the events of a month**, those of one day are the events on its date, in the same order. -/
theorem filter_day {m : Month} {day : Nat} {d : Date} (h : m.day? day = some d) (b : EventBook) :
    (b.events.filter fun e => m.contains e.date).filter (fun e => e.date.day == day)
      = (b.indicesOn d).filterMap b.get? := by
  rw [b.filterMap_indicesOn, List.filter_filter]
  refine List.filter_congr fun e _ => ?_
  rw [Bool.eq_iff_iff, Bool.and_eq_true, beq_iff_eq, beq_iff_eq]
  constructor
  · rintro ⟨hday, hcontains⟩
    have hdate := Month.contains_iff.1 hcontains
    rw [hday, h] at hdate
    exact (Option.some.inj hdate).symm
  · rintro rfl
    have hcontains := Month.contains_iff_eq_containing.2 (Month.eq_containing_of_day? h)
    exact ⟨(Month.day?_eq_some_iff.1 h).2.2, hcontains⟩

theorem existsUnique_day {m : Month} {b : EventBook} {i : Nat} {e : Event} (he : b.get? i = some e)
    (hcontains : m.contains e.date = true) :
    ∃! day, 1 ≤ day ∧ day ≤ m.days ∧ ∃ d, m.day? day = some d ∧ i ∈ b.indicesOn d := by
  have hdate : m.day? e.date.day = some e.date := Month.contains_iff.1 hcontains
  obtain ⟨hone, hle⟩ := Month.isSome_day?_iff.1 (Option.isSome_iff_exists.2 ⟨_, hdate⟩)
  refine ⟨e.date.day, ⟨hone, hle, e.date, hdate, EventBook.mem_indicesOn_iff.2 ⟨e, he, rfl⟩⟩, ?_⟩
  rintro day ⟨-, -, d, hd, hi⟩
  obtain ⟨e', he', rfl⟩ := EventBook.mem_indicesOn_iff.1 hi
  rw [he] at he'
  cases he'
  exact (Month.day?_eq_some_iff.1 hd).2.2.symm

/-- **The views of the events agree.** Each event of a month is among the events of exactly one of
its days, and no other event is. On each day there is a star exactly if there are events on it, and
exactly then the list of the day is not the answer that there are none; the list of the day holds
the descriptions of its events, in the order of the book. The list of the month holds each event of
the month with its day, in the order of the book, so those with one day are the events that the list
of this day holds, in the same order. -/
theorem event_views_agree (m : Month) (b : EventBook) :
    let listed := b.events.filter fun e => m.contains e.date
    (∀ i e, b.get? i = some e → m.contains e.date = true →
      ∃! day, 1 ≤ day ∧ day ≤ m.days ∧ ∃ d, m.day? day = some d ∧ i ∈ b.indicesOn d) ∧
    (∀ day d i, m.day? day = some d → i ∈ b.indicesOn d →
      ∃ e, b.get? i = some e ∧ m.contains e.date = true) ∧
    (∀ day, 1 ≤ day → day ≤ m.days → ∃ d, m.day? day = some d ∧
      (b.hasEventOn d = true ↔ b.indicesOn d ≠ []) ∧
      (b.indicesOn d ≠ [] ↔
        dayEvents (DateParts.ofDate d) b ≠ s!"No events on {(DateParts.ofDate d).text}.\n") ∧
      (b.indicesOn d).Pairwise (· < ·) ∧
      (b.indicesOn d ≠ [] → dayEvents (DateParts.ofDate d) b
        = s!"Events on {(DateParts.ofDate d).text}:\n" ++ String.join
            (((b.indicesOn d).filterMap b.get?).map fun e => "  - " ++ e.description ++ "\n")) ∧
      listed.filter (fun e => e.date.day == day) = (b.indicesOn d).filterMap b.get?) ∧
    monthEvents m b = s!"Events for {m.text}:\n"
      ++ if listed = [] then "  (no events)\n"
        else String.join (listed.map fun e =>
          "  " ++ String.ofList (zeroPadded 2 e.date.day) ++ ": " ++ e.description ++ "\n") := by
  intro listed
  refine ⟨fun i e => existsUnique_day, ?_, ?_, ?_⟩
  · intro day d i hd hi
    obtain ⟨e, he, rfl⟩ := EventBook.mem_indicesOn_iff.1 hi
    exact ⟨e, he, Month.contains_iff_eq_containing.2 (Month.eq_containing_of_day? hd)⟩
  · intro day hone hle
    obtain ⟨d, hd, -⟩ := m.exists_date day hone hle
    refine ⟨d, hd, hasEventOn_iff, dayEvents_ne_iff.symm, b.pairwise_indicesOn d, ?_,
      filter_day hd b⟩
    intro hsome
    rw [dayEvents_ofDate, if_neg hsome, b.filterMap_indicesOn]
    rfl
  · rw [monthEvents]
    simp only [List.isEmpty_iff]
    rfl

/-- Two of four events are on one day of February 2024, and one is not in the month. -/
theorem event_views_agree_of_february :
    let m : Month := ⟨2024, 2, by decide⟩
    let valentine : Date := ⟨2024, 2, 14, by decide⟩
    let b : EventBook := ⟨[⟨valentine, "Lunch"⟩, ⟨⟨2024, 3, 1, by decide⟩, "Spring"⟩,
      ⟨valentine, "Dinner"⟩, ⟨⟨2024, 2, 1, by decide⟩, "Eve"⟩]⟩
    (∃! day, 1 ≤ day ∧ day ≤ m.days ∧ ∃ d, m.day? day = some d ∧ 2 ∈ b.indicesOn d) ∧
      dayEvents (DateParts.ofDate valentine) b
        = "Events on 2024-02-14:\n  - Lunch\n  - Dinner\n" ∧
      monthEvents m b = "Events for February 2024:\n  14: Lunch\n  14: Dinner\n  01: Eve\n" := by
  intro m valentine b
  obtain ⟨honce, -, hdays, hmonth⟩ := event_views_agree m b
  obtain ⟨d, hd, -, -, -, hlist, -⟩ := hdays 14 (by decide) (by decide)
  have hvalentine : valentine = d := Option.some.inj ((by decide : m.day? 14 = some valentine) ▸ hd)
  subst hvalentine
  refine ⟨honce 2 ⟨valentine, "Dinner"⟩ rfl (by decide), ?_, ?_⟩
  · rw [hlist (by decide)]
    decide +kernel
  · rw [hmonth]
    decide +kernel

end DeskShell.Calendar
