import DeskShell.Proofs.Calendar.Commands
import DeskShell.Proofs.Calendar.Listings
import DeskShell.Proofs.Calendar.TypedDates

/-!
# Printed dates at the prompt

A date is loaded from the file by one reader and typed at the prompt for another. The file holds
dates in any year of the calendar, while the prompt takes no year before 1. So the date of an event,
as it is printed, is understood at the prompt exactly from year 1 on
(`DateParts.ofText?_text_ofDate`), and then it leads to the event: `view` lists it, `edit` and
`delete` choose it (`printed_date_leads_to_event`).
-/

set_option autoImplicit false

namespace DeskShell.Calendar

open Text Terminal Files

/-! ## Dates that are printed and read -/

theorem daysInMonth_le (year : Int) (month : Nat) : daysInMonth year month ≤ 31 := by
  have hlengths : ∀ i, monthLengths.getD i 30 ≤ 31 := by
    intro i
    rw [List.getD_eq_getElem?_getD]
    cases hi : monthLengths[i]? with
    | none => decide
    | some n => exact (show ∀ n ∈ monthLengths, n ≤ 31 by decide) n (List.mem_of_getElem? hi)
  unfold daysInMonth
  split
  · decide
  · split
    · decide
    · exact hlengths _

namespace DateParts

/-- **A printed date is read** exactly from year 1 on, as the date that it is. -/
theorem ofText?_text_ofDate (d : Date) :
    ofText? (ofDate d).text = if 1 ≤ d.year then some (ofDate d) else none := by
  obtain ⟨hfirst, hlast, hmonth, hmonth', hday, hdays⟩ := d.isDate
  have hday' := Nat.le_trans hdays (daysInMonth_le d.year d.month)
  unfold firstYear at hfirst
  unfold lastYear at hlast
  have hread : read? ([] ++ ((ofDate d).chars ++ []))
      = if (ofDate d).InRange then some (ofDate d) else none :=
    read?_chars (show d.year.natAbs < 10 ^ 9 by omega) (show d.month < 100 by omega)
      (show d.day < 100 by omega) (by simp) []
  have hrange : (ofDate d).InRange ↔ 1 ≤ d.year :=
    ⟨fun h => h.1, fun hyear => ⟨hyear, hmonth, hmonth', hday, hday'⟩⟩
  rw [List.nil_append, List.append_nil] at hread
  rw [ofText?, text, String.toList_ofList, hread]
  exact if_congr hrange rfl rfl

end DateParts

/-! ## Lists of a day -/

theorem dayEvents_of_place {b : EventBook} (p : b.Place) :
    dayEvents (DateParts.ofDate p.event.date) b
      = s!"Events on {(DateParts.ofDate p.event.date).text}:\n"
        ++ String.join ((b.events.filter fun e => e.date == p.event.date).map dayLine) := by
  rw [dayEvents_ofDate, if_neg p.indicesOn_ne_nil]

theorem hearCommand_view (look : Look) (s : State) {line word argument : String}
    {more : List String} (hwords : (words line.toList).map String.ofList = word :: argument :: more)
    (hview : lower word = "view") {parts : DateParts}
    (hreads : DateParts.ofText? argument = some parts) :
    s.hearCommand look line = s.reply (.say (dayEvents parts s.book)) := by
  unfold State.hearCommand
  rw [hwords]
  simp only [hview, State.view, hreads]

/-! ## From a printed date to its event -/

/-- A date that is understood, and a number where it is needed, choose an event. -/
theorem chooses_of_reads {b : EventBook} (p : b.Place) {line number : String}
    (hreads : DateParts.ofText? line = some (DateParts.ofDate p.event.date))
    (hnumber : leadingInt? number.toList = some (p.number : Int)) :
    Chooses b (line :: if b.countOn p.event.date = 1 then [] else [number]) p := by
  have hcount := Nat.le_trans (Nat.succ_le_succ (Nat.zero_le _)) p.number_le
  split
  · next honly => exact .only hreads honly
  · next hne => exact .byNumber hreads (by omega) hnumber

/-- **From a printed date to its event.** The date of an event that is loaded from a text is
understood at the prompt as it is printed, if it lies in year 1 or later; before that it is refused.
Where it is understood, `view` lists the events of the date, and `edit` and `delete` carry out what
they are for on this very event: at once if it is the only one on its date, and else after any line
that is its number among them. -/
theorem printed_date_leads_to_event (look : Look) (root : String) (t : FileTree) (text : String)
    (m : Month) (p : (EventBook.ofText text).Place) :
    let s : State := { book := .ofText text, month := m }
    let printed := (DateParts.ofDate p.event.date).text
    (DateParts.ofText? printed
      = if 1 ≤ p.event.date.year then some (DateParts.ofDate p.event.date) else none) ∧
    (1 ≤ p.event.date.year →
      (∀ line word more, (words line.toList).map String.ofList = word :: printed :: more →
        lower word = "view" →
        s.hear look line = s.reply (.say (s!"Events on {printed}:\n"
          ++ String.join ((s.book.events.filter fun e => e.date == p.event.date).map dayLine)))) ∧
      (∀ purpose line number, (Errand.choose purpose).GivenBy line →
        leadingInt? number.toList = some (p.number : Int) →
        ∀ used events, Carries p purpose used events → ∀ raws,
        printed :: ((if s.book.countOn p.event.date = 1 then [] else [number]) ++ used)
          <+: answers raws →
        (conclude look root t (s.hear look line) raws).state.book.events = events)) := by
  intro s printed
  have hprinted := DateParts.ofText?_text_ofDate p.event.date
  refine ⟨hprinted, fun hyear => ?_⟩
  rw [if_pos hyear] at hprinted
  constructor
  · intro line word more hwords hview
    rw [← dayEvents_of_place p]
    exact hearCommand_view look s hwords hview hprinted
  · intro purpose line number hline hnumber used events hdone raws hused
    have hmakes : Makes s.book s.month (.choose purpose) (_ ++ used) events :=
      .carried (chooses_of_reads p hprinted hnumber) hdone
    exact ((settles_hearCommand s hline raws).2.changed _ _ hused hmakes).1

/-- An event in year 0 is loaded, but its printed date is refused. -/
theorem printed_date_of_year_zero_refused :
    ¬ ∀ text : String, ∀ e ∈ (EventBook.ofText text).events,
      DateParts.ofText? (DateParts.ofDate e.date).text = some (DateParts.ofDate e.date) := by
  intro h
  have hloaded : (⟨⟨0, 1, 1, by decide⟩, "x"⟩ : Event)
      ∈ (EventBook.ofText "0000-01-01|x\n").events := by decide +kernel
  exact absurd (h _ _ hloaded) (by decide +kernel)

/-- The second of two events on a day is listed and erased. -/
theorem printed_date_leads_to_second_event :
    let look : Look := ⟨⟨2024, 2, 20, by decide⟩, .plain⟩
    let t : FileTree := ⟨["w"], [(["w"], .directory)]⟩
    let lunch : Event := ⟨⟨2024, 2, 14, by decide⟩, "Lunch"⟩
    let dinner : Event := ⟨⟨2024, 2, 14, by decide⟩, "Dinner"⟩
    let text := "2024-02-14|Lunch\n 2024-2-14|Dinner\n"
    let s : State := { book := .ofText text, month := .containing look.today }
    (EventBook.ofText text).events = [lunch, dinner] ∧
      s.hear look "view 2024-02-14"
        = s.reply (.say "Events on 2024-02-14:\n  - Lunch\n  - Dinner\n") ∧
      (conclude look "." t (s.hear look "delete")
        (["2024-02-14", "2"].map typedLine)).state.book.events = [lunch] := by
  intro look t lunch dinner text s
  let p : (EventBook.ofText text).Place := ⟨[lunch], dinner, [], by decide +kernel⟩
  obtain ⟨hview, hchoose⟩ :=
    (printed_date_leads_to_event look "." t text (.containing look.today) p).2 (by decide)
  have hprinted : (DateParts.ofDate p.event.date).text = "2024-02-14" := by decide +kernel
  refine ⟨p.events_eq, ?_, ?_⟩
  · rw [hview "view 2024-02-14" "view" [] (by rw [hprinted]; decide +kernel) (by decide +kernel),
      hprinted]
    exact congrArg s.reply (congrArg Transcript.say (by decide +kernel))
  · refine hchoose .delete "delete" "2" (by decide) (by decide +kernel) [] _ .delete _ ?_
    decide +kernel

end DeskShell.Calendar
