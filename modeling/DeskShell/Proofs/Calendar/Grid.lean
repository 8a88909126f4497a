import DeskShell.Calendar.Page
import DeskShell.Proofs.Calendar.Months
import DeskShell.Proofs.Terminal.Style
import DeskShell.Proofs.Text.Numeral
import DeskShell.Terminal.Ansi
import Mathlib.Data.List.Range

/-!
# The grid of a month

The grid is written day by day, and a line ends after each Sunday and after the last day. So its
lines are the weeks of the month (`Month.weekDays`), from Monday to Sunday but for the first and the
last one. What a person sees is the grid without its escape sequences (`unstyled_monthGrid`), and
what they take from a line of it are the numbers on it and the stars behind them (`marks`).
-/

set_option autoImplicit false

namespace DeskShell.Calendar

open Text Terminal

/-! ## Reading a line of the grid -/

/-- The numbers of a text, from left to right, each with whether a star stands right behind it;
`pending` are the digits just read. -/
def marksFrom (pending : List Char) : List Char → List (Nat × Bool)
  | [] => if pending = [] then [] else [(value pending, false)]
  | c :: cs =>
      if c.isDigit then marksFrom (pending ++ [c]) cs
      else if pending = [] then marksFrom [] cs
      else (value pending, c == '*') :: marksFrom [] cs

/-- The numbers of a text, from left to right, each with whether a star stands right behind it. -/
def marks (cs : List Char) : List (Nat × Bool) := marksFrom [] cs

theorem marksFrom_digits {ds : List Char} (h : ∀ c ∈ ds, c.isDigit = true)
    (pending rest : List Char) :
    marksFrom pending (ds ++ rest) = marksFrom (pending ++ ds) rest := by
  induction ds generalizing pending with
  | nil => rw [List.nil_append, List.append_nil]
  | cons d ds ih =>
      rw [List.cons_append, marksFrom, if_pos (h d (by simp)), ih fun c hc => h c (by simp [hc]),
        List.append_assoc, List.singleton_append]

theorem marks_blank (rest : List Char) : marks (' ' :: rest) = marks rest := rfl

theorem marks_blanks (n : Nat) (rest : List Char) :
    marks (List.replicate n ' ' ++ rest) = marks rest := by
  induction n with
  | zero => rfl
  | succ n ih => rw [List.replicate_succ, List.cons_append, marks_blank, ih]

/-! ## The cells -/

/-- What a cell shows: the number of the day in two columns, and a star or a blank. -/
def shownCell (m : Month) (b : EventBook) (day : Nat) : List Char :=
  (twoColumns day).toList ++ [if (m.day? day).any b.hasEventOn then '*' else ' ']

theorem toList_twoColumns (n : Nat) : (twoColumns n).toList = padStart 2 ' ' (digits n) :=
  String.toList_ofList

theorem mem_shownCell {m : Month} {b : EventBook} {day : Nat} {c : Char}
    (h : c ∈ shownCell m b day) : c.isDigit = true ∨ c = ' ' ∨ c = '*' := by
  simp only [shownCell, toList_twoColumns, padStart, List.mem_append, List.mem_singleton] at h
  rcases h with (h | h) | h
  · exact .inr (.inl (List.eq_of_mem_replicate h))
  · exact .inl (isDigit_of_mem_digits h)
  · split at h
    · exact .inr (.inr h)
    · exact .inr (.inl h)

/-- A cell is read as its day, with a star exactly if there are events on it. -/
theorem marks_shownCell (m : Month) (b : EventBook) (day : Nat) (rest : List Char) :
    marks (shownCell m b day ++ rest) = (day, (m.day? day).any b.hasEventOn) :: marks rest := by
  rw [shownCell, toList_twoColumns, padStart, List.append_assoc, List.append_assoc, marks_blanks,
    marks, marksFrom_digits fun c hc => isDigit_of_mem_digits hc, List.nil_append,
    List.singleton_append]
  cases (m.day? day).any b.hasEventOn <;> simp [marksFrom, digits_ne_nil, marks]

/-- A cell shows the same in every style and on every day. -/
theorem shows_cell (m : Month) (b : EventBook) (today : Option Date) (style : Style) (day : Nat) :
    Style.Shows (cell m b today style day).toList (shownCell m b day) := by
  have hplain : Style.Shows (twoColumns day
      ++ if (m.day? day).any b.hasEventOn then "*" else " ").toList (shownCell m b day) := by
    have htext : (twoColumns day ++ if (m.day? day).any b.hasEventOn then "*" else " ").toList
        = shownCell m b day := by
      rw [String.toList_append, shownCell]
      split <;> rfl
    rw [htext]
    refine Style.shows_plain fun hescape => ?_
    rcases mem_shownCell hescape with h | h | h <;> exact absurd h (by decide)
  have hmarked := Style.Shows.ite (p := (m.day? day).any b.hasEventOn = true)
    (hplain.mark style Palette.eventDay) hplain
  exact (hmarked.mark style Palette.today).ite hmarked

/-! ## The weeks -/

namespace Month

theorem firstWeekday_lt (m : Month) : m.firstWeekday < 7 := by
  have h := m.firstWeekday_eq
  omega

theorem days_pos (m : Month) : 0 < m.days := daysInMonth_pos m.year m.number

/-- The first day of a week of the month, counted from week 0: day 1, or a Monday after it. -/
def weekStart (m : Month) (week : Nat) : Nat := max 1 (7 * week + 1 - m.firstWeekday)

def weekDays (m : Month) (week : Nat) : List Nat :=
  List.range' (m.weekStart week) (min (m.weekStart (week + 1)) (m.days + 1) - m.weekStart week)

def weekCount (m : Month) : Nat := (m.firstWeekday + m.days + 6) / 7

/-- A week has at least one day: the days from its first one to a Sunday or the end of the month. -/
theorem weekDays_eq {m : Month} {week : Nat} (h : week < m.weekCount) :
    ∃ n, m.weekDays week = List.range' (m.weekStart week) (n + 1) ∧
      m.weekStart week + n = min (m.weekStart (week + 1) - 1) m.days := by
  have hfirst := m.firstWeekday_lt
  have hpos := m.days_pos
  unfold weekCount at h
  have hstart : m.weekStart week ≤ m.days := by
    unfold weekStart
    omega
  have hnext : m.weekStart week < m.weekStart (week + 1) := by
    unfold weekStart
    omega
  refine ⟨min (m.weekStart (week + 1) - 1) m.days - m.weekStart week, ?_, by omega⟩
  rw [weekDays]
  congr 1
  omega

/-- **The weeks make up the month.** -/
theorem flatMap_weekDays (m : Month) : (List.range m.weekCount).flatMap m.weekDays
    = List.range' 1 m.days := by
  have hfirst := m.firstWeekday_lt
  -- the first weeks hold the first days
  have hweeks : ∀ n ≤ m.weekCount, (List.range n).flatMap m.weekDays
      = List.range' 1 (min (m.weekStart n - 1) m.days) := by
    intro n hn
    induction n with
    | zero =>
        have hone : m.weekStart 0 - 1 = 0 := by
          unfold weekStart
          omega
        rw [hone, Nat.zero_min]
        rfl
    | succ n ih =>
        obtain ⟨k, hdays, hlast⟩ := weekDays_eq (Nat.lt_of_succ_le hn)
        have hstart : 1 + min (m.weekStart n - 1) m.days = m.weekStart n := by
          unfold weekStart at hlast ⊢
          omega
        have hlength : min (m.weekStart n - 1) m.days + (k + 1)
            = min (m.weekStart (n + 1) - 1) m.days := by omega
        have hjoin : List.range' 1 (min (m.weekStart n - 1) m.days)
            ++ List.range' (1 + min (m.weekStart n - 1) m.days) (k + 1)
              = List.range' 1 (min (m.weekStart n - 1) m.days + (k + 1)) := List.range'_append_1
        rw [hstart, hlength] at hjoin
        rw [List.range_succ, List.flatMap_append, ih (Nat.le_of_succ_le hn), List.flatMap_singleton,
          hdays, hjoin]
  have hall : min (m.weekStart m.weekCount - 1) m.days = m.days := by
    unfold weekStart weekCount
    omega
  rw [hweeks m.weekCount (Nat.le_refl _), hall]

end Month

/-! ## The lines -/

section Lines

variable {m : Month} {b : EventBook}

/-- What the days of a week show, with a blank between two days. -/
def weekRow (m : Month) (b : EventBook) (days : List Nat) : List Char :=
  [' '].intercalate (days.map (shownCell m b))

theorem weekRow_cons (day : Nat) {days : List Nat} (h : days ≠ []) :
    weekRow m b (day :: days) = shownCell m b day ++ ' ' :: weekRow m b days := by
  rw [weekRow, List.map_cons, List.intercalate_cons_of_ne_nil (by simpa using h), List.append_assoc]
  rfl

theorem weekRow_singleton (day : Nat) : weekRow m b [day] = shownCell m b day :=
  List.intercalate_singleton

theorem prefix_weekRow (day : Nat) (days : List Nat) :
    shownCell m b day <+: weekRow m b (day :: days) := by
  by_cases hnil : days = []
  · exact ⟨[], by rw [hnil, weekRow_singleton, List.append_nil]⟩
  · rw [weekRow_cons day hnil]
    exact List.prefix_append _ _

theorem suffix_weekRow (days : List Nat) (day : Nat) :
    shownCell m b day <:+ weekRow m b (days ++ [day]) := by
  induction days with
  | nil => exact ⟨[], by rw [List.nil_append, List.nil_append, weekRow_singleton]⟩
  | cons first days ih =>
      rw [List.cons_append, weekRow_cons first (by simp)]
      exact (ih.trans (List.suffix_cons _ _)).trans (List.suffix_append _ _)

theorem mem_weekRow {days : List Nat} {c : Char} (h : c ∈ weekRow m b days) :
    c.isDigit = true ∨ c = ' ' ∨ c = '*' := by
  induction days with
  | nil => cases h
  | cons day days ih =>
      by_cases hnil : days = []
      · subst hnil
        rw [weekRow_singleton] at h
        exact mem_shownCell h
      · rw [weekRow_cons day hnil, List.mem_append, List.mem_cons] at h
        rcases h with h | h | h
        · exact mem_shownCell h
        · exact .inr (.inl h)
        · exact ih h

theorem marks_weekRow (days : List Nat) :
    marks (weekRow m b days) = days.map fun day => (day, (m.day? day).any b.hasEventOn) := by
  induction days with
  | nil => rfl
  | cons day days ih =>
      by_cases hnil : days = []
      · subst hnil
        have hcell := marks_shownCell m b day []
        rw [List.append_nil] at hcell
        rw [weekRow_singleton, hcell]
        rfl
      · rw [weekRow_cons day hnil, marks_shownCell, marks_blank, ih, List.map_cons]

def shownDay (m : Month) (b : EventBook) (day : Nat) : List Char :=
  shownCell m b day ++ (separator m day).toList

/-- Days that are followed by blanks, the last one by the end of the line, are a row and the end of
the line. -/
theorem flatMap_shownDay (start n : Nat)
    (hinside : ∀ day, start ≤ day → day < start + n → separator m day = " ")
    (hlast : separator m (start + n) = "\n") :
    (List.range' start (n + 1)).flatMap (shownDay m b)
      = weekRow m b (List.range' start (n + 1)) ++ ['\n'] := by
  induction n generalizing start with
  | zero =>
      have hlast : separator m start = "\n" := hlast
      show shownDay m b start ++ [] = weekRow m b [start] ++ ['\n']
      rw [weekRow_singleton, List.append_nil, shownDay, hlast]
      rfl
  | succ n ih =>
      have hrest := ih (start + 1)
        (fun day hday hday' => hinside day (by omega) (by omega))
        (by rw [← hlast]; congr 1; omega)
      rw [List.range'_succ, List.flatMap_cons, hrest, weekRow_cons start (by simp), shownDay,
        hinside start (by omega) (by omega), List.append_assoc, List.append_assoc]
      rfl

/-- **A week ends its line**, and no other day than its last one does. -/
theorem flatMap_week {week : Nat} (h : week < m.weekCount) :
    (m.weekDays week).flatMap (shownDay m b) = weekRow m b (m.weekDays week) ++ ['\n'] := by
  have hfirst := m.firstWeekday_lt
  obtain ⟨n, hdays, hlast⟩ := Month.weekDays_eq h
  unfold Month.weekStart at hdays hlast
  rw [hdays]
  apply flatMap_shownDay
  · intro day hday hday'
    have hno : ¬ ((m.firstWeekday + day - 1) % 7 = 6 ∨ day = m.days) := by omega
    rw [separator, if_neg (by simpa using hno)]
  · have hend : (m.firstWeekday + (max 1 (7 * week + 1 - m.firstWeekday) + n) - 1) % 7 = 6 ∨
        max 1 (7 * week + 1 - m.firstWeekday) + n = m.days := by omega
    rw [separator, if_pos (by simpa only [Bool.or_eq_true, decide_eq_true_eq] using hend)]

/-- The room for the days of the first week that are before day 1. -/
def room (m : Month) : List Char := (List.replicate m.firstWeekday "   ").flatMap String.toList

theorem eq_replicate_room (m : Month) : room m = List.replicate (3 * m.firstWeekday) ' ' := by
  rw [room]
  induction m.firstWeekday with
  | zero => rfl
  | succ n ih =>
      rw [List.replicate_succ, List.flatMap_cons, ih, Nat.mul_succ, Nat.add_comm,
        ← List.replicate_append_replicate]
      rfl

def weekLine (m : Month) (b : EventBook) (week : Nat) : List Char :=
  (if week = 0 then room m else []) ++ weekRow m b (m.weekDays week)

theorem mem_weekLine {week : Nat} {c : Char} (h : c ∈ weekLine m b week) :
    c.isDigit = true ∨ c = ' ' ∨ c = '*' := by
  rw [weekLine, List.mem_append] at h
  rcases h with h | h
  · split at h
    · rw [eq_replicate_room] at h
      exact .inr (.inl (List.eq_of_mem_replicate h))
    · cases h
  · exact mem_weekRow h

theorem marks_weekLine (week : Nat) :
    marks (weekLine m b week)
      = (m.weekDays week).map fun day => (day, (m.day? day).any b.hasEventOn) := by
  rw [weekLine, ← marks_weekRow]
  split
  · rw [eq_replicate_room, marks_blanks]
  · rfl

theorem startsOnMonday {week : Nat} (h : week < m.weekCount) (hfirst : week ≠ 0) : ∃ d : Date,
    m.contains d = true ∧ d.weekday = 0 ∧ shownCell m b d.day <+: weekLine m b week := by
  obtain ⟨n, hdays, hlast⟩ := Month.weekDays_eq h
  have hweekday := m.firstWeekday_lt
  have hmonday : m.weekStart week = 7 * week + 1 - m.firstWeekday := by
    unfold Month.weekStart
    omega
  obtain ⟨d, -, hcontains, hday, hd⟩ := m.exists_date (m.weekStart week) (by omega) (by omega)
  refine ⟨d, hcontains, ?_, ?_⟩
  · rw [hd, hmonday]
    omega
  · rw [weekLine, if_neg hfirst, List.nil_append, hday, hdays, List.range'_succ]
    exact prefix_weekRow _ _

theorem endsOnSunday {week : Nat} (h : week + 1 < m.weekCount) : ∃ d : Date,
    m.contains d = true ∧ d.weekday = 6 ∧ shownCell m b d.day <:+ weekLine m b week := by
  obtain ⟨n, hdays, hlast⟩ := Month.weekDays_eq (Nat.lt_of_succ_lt h)
  have hweekday := m.firstWeekday_lt
  have hsunday : m.weekStart week + n = 7 * week + 7 - m.firstWeekday := by
    unfold Month.weekCount at h
    unfold Month.weekStart at hlast ⊢
    omega
  obtain ⟨d, -, hcontains, hday, hd⟩ := m.exists_date (m.weekStart week + n) (by omega) (by omega)
  refine ⟨d, hcontains, ?_, ?_⟩
  · rw [hd, hsunday]
    omega
  · rw [weekLine, hday, hdays, List.range'_concat, Nat.one_mul]
    exact (suffix_weekRow _ _).trans (List.suffix_append _ _)

end Lines

/-! ## The grid -/

def weekLines (m : Month) (b : EventBook) : List (List Char) :=
  (List.range m.weekCount).map (weekLine m b)

theorem length_weekLines (m : Month) (b : EventBook) : (weekLines m b).length = m.weekCount := by
  rw [weekLines, List.length_map, List.length_range]

theorem getElem?_weekLines {m : Month} {b : EventBook} {week : Nat} {line : List Char}
    (h : (weekLines m b)[week]? = some line) : week < m.weekCount ∧ line = weekLine m b week := by
  obtain ⟨hlt, rfl⟩ := List.getElem?_eq_some_iff.1 h
  refine ⟨by rwa [length_weekLines] at hlt, ?_⟩
  simp only [weekLines, List.getElem_map, List.getElem_range]

/-- The lines of the weeks are read as the days of the month, from the first to the last one. -/
theorem flatMap_marks_weekLines (m : Month) (b : EventBook) :
    (weekLines m b).flatMap marks
      = (List.range' 1 m.days).map fun day => (day, (m.day? day).any b.hasEventOn) := by
  rw [weekLines, List.flatMap_map, ← m.flatMap_weekDays, List.map_flatMap]
  exact List.flatMap_congr fun week _ => marks_weekLine week

/-- The days, each with what follows it, are the lines of the weeks. -/
theorem flatMap_days (m : Month) (b : EventBook) :
    room m ++ (List.range' 1 m.days).flatMap (shownDay m b)
      = (weekLines m b).flatMap (· ++ ['\n']) := by
  have hpos := m.days_pos
  have hrow : ∀ week ∈ List.range m.weekCount, (m.weekDays week).flatMap (shownDay m b)
      = weekRow m b (m.weekDays week) ++ ['\n'] :=
    fun week hweek => flatMap_week (List.mem_range.1 hweek)
  obtain ⟨n, hn⟩ : ∃ n, m.weekCount = n + 1 :=
    ⟨m.weekCount - 1, by unfold Month.weekCount; omega⟩
  -- the room stands in the first line
  rw [← m.flatMap_weekDays, List.flatMap_assoc, List.flatMap_congr hrow, weekLines,
    List.flatMap_map, hn, List.range_succ_eq_map, List.flatMap_cons, List.flatMap_cons,
    List.flatMap_map, List.flatMap_map]
  simp [weekLine]

theorem escape_notMem_text (m : Month) : '\x1b' ∉ m.text.toList := by
  have hname : '\x1b' ∉ m.name.toList := by
    rw [Month.name, List.getD_eq_getElem?_getD]
    cases hi : monthNames[m.number - 1]? with
    | none => decide
    | some name =>
        exact (show ∀ name ∈ monthNames, '\x1b' ∉ name.toList by decide) name
          (List.mem_of_getElem? hi)
  have hyear : '\x1b' ∉ signed m.year := by
    have hdigits : '\x1b' ∉ digits m.year.natAbs :=
      fun h => absurd (isDigit_of_mem_digits h) (by decide)
    unfold signed
    split
    · simpa using hdigits
    · exact hdigits
  have hblank : '\x1b' ∉ " ".toList := by decide
  simp only [Month.text, String.toList_append, String.toList_ofList, List.mem_append, not_or]
  exact ⟨⟨hname, hblank⟩, hyear⟩

/-- **What the grid shows**: a blank line, the title, the weekdays, the weeks, and a blank line, in
every style and on every day. -/
theorem unstyled_monthGrid (m : Month) (b : EventBook) (today : Option Date) (style : Style) :
    unstyled (monthGrid m b today style).toList
      = ([[], m.text.toList, "Mo Tu We Th Fr Sa Su".toList] ++ weekLines m b ++ [[]]).flatMap
          (· ++ ['\n']) := by
  have hhead : Style.Shows ("\n" ++ m.text ++ "\nMo Tu We Th Fr Sa Su\n").toList
      ("\n" ++ m.text ++ "\nMo Tu We Th Fr Sa Su\n").toList := by
    refine Style.shows_plain ?_
    have htitle := escape_notMem_text m
    simpa [String.toList_append] using htitle
  have hroom : Style.Shows (room m) (room m) := by
    refine Style.shows_plain fun hescape => ?_
    rw [eq_replicate_room] at hescape
    exact absurd (List.eq_of_mem_replicate hescape) (by decide)
  have hdays : Style.Shows ((List.range' 1 m.days).flatMap
      fun day => (cell m b today style day).toList ++ (separator m day).toList)
      ((List.range' 1 m.days).flatMap (shownDay m b)) := by
    refine Style.Shows.flatMap fun day _ => (shows_cell m b today style day).append ?_
    refine Style.shows_plain ?_
    unfold separator
    split <;> decide
  have hend : Style.Shows "\n".toList "\n".toList := Style.shows_plain (by decide)
  calc unstyled (monthGrid m b today style).toList
      = unstyled (("\n" ++ m.text ++ "\nMo Tu We Th Fr Sa Su\n").toList
          ++ (room m ++ (List.range' 1 m.days).flatMap
            fun day => (cell m b today style day).toList ++ (separator m day).toList)
          ++ "\n".toList) := by
        simp only [monthGrid, room, String.toList_append, String.toList_join, List.flatMap_map,
          List.append_assoc]
    _ = ("\n" ++ m.text ++ "\nMo Tu We Th Fr Sa Su\n").toList
          ++ (room m ++ (List.range' 1 m.days).flatMap (shownDay m b)) ++ "\n".toList :=
        ((hhead.append (hroom.append hdays)).append hend).unstyled_eq
    _ = ("\n" ++ m.text ++ "\nMo Tu We Th Fr Sa Su\n").toList
          ++ (weekLines m b).flatMap (· ++ ['\n']) ++ "\n".toList := by rw [flatMap_days]
    _ = _ := by simp [String.toList_append]

/-! ## What the grid says -/

theorem any_hasEventOn_iff {m : Month} {b : EventBook} {day : Nat} :
    (m.day? day).any b.hasEventOn = true ↔ ∃ e ∈ b.events, m.day? day = some e.date := by
  cases m.day? day with
  | none => simp
  | some d =>
      simp only [Option.any_some, EventBook.hasEventOn, List.any_eq_true, beq_iff_eq,
        Option.some.injEq]
      exact exists_congr fun e => and_congr_right fun _ => eq_comm

/-- **The month is shown as it is**, without the escape sequences the same in every style and on
every day: a blank line, the title, the weekdays, one line for each week of the month, and a blank
line. The numbers on the lines of the weeks are the days of the month in their order, each once,
with a star exactly behind the days that have an event. Every line but the first one starts with a
Monday, and every line but the last one ends with a Sunday. -/
theorem month_grid_shows (m : Month) (b : EventBook) :
    ∃ weeks : List (List Char),
      (∀ today style, unstyled (monthGrid m b today style).toList
        = ([[], m.text.toList, "Mo Tu We Th Fr Sa Su".toList] ++ weeks ++ [[]]).flatMap
            (· ++ ['\n'])) ∧
      (∀ line ∈ weeks, '\n' ∉ line) ∧
      weeks.length = (m.firstWeekday + m.days + 6) / 7 ∧
      (weeks.flatMap marks).map Prod.fst = List.range' 1 m.days ∧
      (∀ day star, (day, star) ∈ weeks.flatMap marks →
        (star = true ↔ ∃ e ∈ b.events, m.day? day = some e.date)) ∧
      (∀ i line, weeks[i]? = some line → i ≠ 0 → ∃ (d : Date) (star : Bool),
        m.contains d = true ∧ d.weekday = 0 ∧
          (twoColumns d.day).toList ++ [if star then '*' else ' '] <+: line) ∧
      ∀ i line, weeks[i]? = some line → i + 1 ≠ weeks.length → ∃ (d : Date) (star : Bool),
        m.contains d = true ∧ d.weekday = 6 ∧
          (twoColumns d.day).toList ++ [if star then '*' else ' '] <:+ line := by
  refine ⟨weekLines m b, unstyled_monthGrid m b, ?_, length_weekLines m b, ?_, ?_, ?_, ?_⟩
  · intro line hline hnewline
    obtain ⟨week, -, rfl⟩ := List.mem_map.1 hline
    rcases mem_weekLine hnewline with h | h | h <;> exact absurd h (by decide)
  · rw [flatMap_marks_weekLines, List.map_map]
    exact List.map_id _
  · intro day star hmem
    rw [flatMap_marks_weekLines] at hmem
    obtain ⟨day', -, heq⟩ := List.mem_map.1 hmem
    cases heq
    exact any_hasEventOn_iff
  · intro i line hline hfirst
    obtain ⟨hlt, rfl⟩ := getElem?_weekLines hline
    obtain ⟨d, hcontains, hmonday, hstarts⟩ := startsOnMonday hlt hfirst
    exact ⟨d, _, hcontains, hmonday, hstarts⟩
  · intro i line hline hmore
    obtain ⟨hlt, rfl⟩ := getElem?_weekLines hline
    rw [length_weekLines] at hmore
    obtain ⟨d, hcontains, hsunday, hends⟩ := endsOnSunday (b := b) (by omega : i + 1 < m.weekCount)
    exact ⟨d, _, hcontains, hsunday, hends⟩

/-- February 2024 has five weeks; its 14th day has a star, its 15th has none, and its second week
starts with a Monday. -/
theorem month_grid_shows_february :
    let m : Month := ⟨2024, 2, by decide⟩
    let b : EventBook := ⟨[⟨⟨2024, 2, 14, by decide⟩, "Valentine"⟩]⟩
    ∃ weeks : List (List Char),
      unstyled (monthGrid m b none (.marked (.ansi true))).toList
        = ([[], m.text.toList, "Mo Tu We Th Fr Sa Su".toList] ++ weeks ++ [[]]).flatMap
            (· ++ ['\n']) ∧
      weeks.length = 5 ∧
      (14, true) ∈ weeks.flatMap marks ∧ (15, false) ∈ weeks.flatMap marks ∧
      ∃ line ∈ weeks[1]?, ∃ (d : Date) (star : Bool), m.contains d = true ∧ d.weekday = 0 ∧
        (twoColumns d.day).toList ++ [if star then '*' else ' '] <+: line := by
  intro m b
  obtain ⟨weeks, hshown, -, hlength, hdays, hstars, hmondays, -⟩ := month_grid_shows m b
  have hfive : weeks.length = 5 := hlength.trans (by decide)
  have hread : ∀ day, day ∈ List.range' 1 m.days → ∃ star, (day, star) ∈ weeks.flatMap marks := by
    intro day hday
    rw [← hdays] at hday
    obtain ⟨⟨_, star⟩, hmem, rfl⟩ := List.mem_map.1 hday
    exact ⟨star, hmem⟩
  obtain ⟨valentine, hvalentine⟩ := hread 14 (by decide)
  obtain ⟨morrow, hmorrow⟩ := hread 15 (by decide)
  have hstar : valentine = true := (hstars 14 valentine hvalentine).2 (by decide)
  have hnone : ¬ morrow = true := fun h => absurd ((hstars 15 morrow hmorrow).1 h) (by decide)
  rw [hstar] at hvalentine
  rw [Bool.not_eq_true] at hnone
  rw [hnone] at hmorrow
  have hline : weeks[1]? = some weeks[1] := List.getElem?_eq_getElem (by omega)
  exact ⟨weeks, hshown none _, hfive, hvalentine, hmorrow, weeks[1], hline,
    hmondays 1 weeks[1] hline (by decide)⟩

end DeskShell.Calendar
