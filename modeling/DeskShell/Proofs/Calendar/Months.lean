import DeskShell.Calendar.Month
import DeskShell.Proofs.Calendar.DayCount

/-!
# Going through the months

The months that can be shown are those from January of year 1 to December of the last year, and
`next` and `prev` step through them one at a time (`Month.next_eq_some_iff`,
`Month.prev_eq_some_iff`), so that neither can lead out of them (`Month.Visited.year_pos`). Each
month has exactly its days, and their weekdays follow each other from the first day of the month
to the first day of the next one; that this is the calendar, is said by the count of days of
`marchCount`.
-/

set_option autoImplicit false

namespace DeskShell.Calendar

namespace Month

/-! ## The steps -/

/-- The number of a month among all months: twelve to a year. -/
def serial (m : Month) : Int := 12 * m.year + m.number

theorem eq_of_serial_eq {m n : Month} (h : m.serial = n.serial) : m = n := by
  have hm := m.isMonth
  have hn := n.isMonth
  simp only [serial] at h
  have hyear : m.year = n.year := by omega
  have hnumber : m.number = n.number := by omega
  cases m
  cases n
  cases hyear
  cases hnumber
  rfl

theorem ofParts?_eq_some_iff {year : Int} {number : Nat} {m : Month} :
    ofParts? year number = some m ↔ m.year = year ∧ m.number = number ∧ 1 ≤ year := by
  unfold ofParts?
  constructor
  · intro h
    split at h
    · next hparts =>
        cases h
        exact ⟨rfl, rfl, hparts.1⟩
    · cases h
  · rintro ⟨rfl, rfl, hyear⟩
    rw [dif_pos ⟨hyear, m.isMonth.2⟩]

theorem next_cases (m : Month) :
    (∃ n, m.next = some n ∧ n.serial = m.serial + 1) ∨
      m.next = none ∧ m.year = lastYear ∧ m.number = 12 := by
  have hmonth := m.isMonth
  unfold next
  split
  · exact .inl ⟨_, rfl, by simp only [serial]; omega⟩
  · split
    · exact .inl ⟨_, rfl, by simp only [serial]; omega⟩
    · exact .inr ⟨rfl, by omega, by omega⟩

/-- **The next month** is the one with the next number. -/
theorem next_eq_some_iff {m n : Month} : m.next = some n ↔ n.serial = m.serial + 1 := by
  rcases m.next_cases with ⟨n', hnext, hserial⟩ | ⟨hnext, hyear, hnumber⟩
  · rw [hnext, Option.some.injEq]
    constructor
    · rintro rfl
      exact hserial
    · intro h
      exact eq_of_serial_eq (hserial.trans h.symm)
  · rw [hnext]
    constructor
    · intro h
      cases h
    · intro h
      have hn := n.isMonth
      simp only [serial] at h
      omega

theorem next_eq_none_iff {m : Month} : m.next = none ↔ m.year = lastYear ∧ m.number = 12 := by
  rcases m.next_cases with ⟨n, hnext, hserial⟩ | ⟨hnext, hlast⟩
  · rw [hnext]
    constructor
    · intro h
      cases h
    · rintro ⟨hyear, hnumber⟩
      have hn := n.isMonth
      simp only [serial] at hserial
      omega
  · exact ⟨fun _ => hlast, fun _ => hnext⟩

/-- **The month before** is the one with the number before, unless its year is before year 1. -/
theorem prev_eq_some_iff {m n : Month} :
    m.prev = some n ↔ n.serial + 1 = m.serial ∧ 1 ≤ n.year := by
  have hm := m.isMonth
  have hn := n.isMonth
  unfold prev
  split
  · rw [ofParts?_eq_some_iff]
    simp only [serial]
    omega
  · rw [ofParts?_eq_some_iff]
    simp only [serial]
    omega

theorem prev_eq_none_iff {m : Month} (h : 1 ≤ m.year) :
    m.prev = none ↔ m.year = 1 ∧ m.number = 1 := by
  have hm := m.isMonth
  unfold prev ofParts?
  split
  · split
    · exact ⟨fun hnone => absurd hnone (Option.some_ne_none _), fun hfirst => by omega⟩
    · exact ⟨fun _ => by omega, fun _ => rfl⟩
  · split
    · exact ⟨fun hnone => absurd hnone (Option.some_ne_none _), fun hfirst => by omega⟩
    · exact ⟨fun _ => by omega, fun _ => rfl⟩

/-! ## The months that are visited -/

/-- A month that is asked for by year and number, or contains a date from year 1 on, or that some
steps lead to from there. -/
inductive Visited : Month → Prop
  | asked {year : Int} {number : Nat} {m : Month} : ofParts? year number = some m → Visited m
  | containing {d : Date} : 1 ≤ d.year → Visited (containing d)
  | next {m n : Month} : Visited m → m.next = some n → Visited n
  | prev {m n : Month} : Visited m → m.prev = some n → Visited n

/-- **No step leads before year 1.** -/
theorem Visited.year_pos {m : Month} (h : m.Visited) : 1 ≤ m.year := by
  induction h with
  | asked h =>
      obtain ⟨hyear, -, hpositive⟩ := ofParts?_eq_some_iff.1 h
      rw [hyear]
      exact hpositive
  | containing h => exact h
  | @next m n _ h ih =>
      have hm := m.isMonth
      have hn := n.isMonth
      have hserial := next_eq_some_iff.1 h
      simp only [serial] at hserial
      omega
  | prev _ h _ => exact (prev_eq_some_iff.1 h).2

/-! ## The days of a month -/

theorem day?_eq_some_iff {m : Month} {day : Nat} {d : Date} :
    m.day? day = some d ↔ d.year = m.year ∧ d.month = m.number ∧ d.day = day :=
  Date.ofParts?_eq_some_iff

/-- **A month has its days** and no others. -/
theorem isSome_day?_iff {m : Month} {day : Nat} :
    (m.day? day).isSome = true ↔ 1 ≤ day ∧ day ≤ m.days := by
  constructor
  · intro h
    obtain ⟨d, hd⟩ := Option.isSome_iff_exists.1 h
    obtain ⟨hyear, hmonth, hday⟩ := day?_eq_some_iff.1 hd
    obtain ⟨-, -, -, -, hone, hle⟩ := d.isDate
    rw [hyear, hmonth, hday] at hle
    exact ⟨hday ▸ hone, hle⟩
  · rintro ⟨hone, hle⟩
    have hdate : IsDate m.year m.number day :=
      ⟨m.isMonth.1, m.isMonth.2.1, m.isMonth.2.2.1, m.isMonth.2.2.2, hone, hle⟩
    exact Option.isSome_iff_exists.2 ⟨⟨_, _, _, hdate⟩, day?_eq_some_iff.2 ⟨rfl, rfl, rfl⟩⟩

theorem contains_iff_eq_containing {m : Month} {d : Date} :
    m.contains d = true ↔ m = .containing d := by
  simp only [contains, Bool.and_eq_true, beq_iff_eq]
  constructor
  · rintro ⟨hyear, hmonth⟩
    apply eq_of_serial_eq
    simp only [serial, Month.containing]
    omega
  · rintro rfl
    exact ⟨rfl, rfl⟩

theorem eq_containing_of_day? {m : Month} {day : Nat} {d : Date} (h : m.day? day = some d) :
    m = .containing d := by
  obtain ⟨hyear, hmonth, -⟩ := day?_eq_some_iff.1 h
  exact contains_iff_eq_containing.1 (by simp [contains, hyear, hmonth])

/-! ## Weekdays -/

/-- A month is as long as the count of days says, up to the first day of the month after it. -/
theorem days_eq (m : Month) :
    (m.days : Int) = marchCount m.year (m.number + 1) 1 - marchCount m.year m.number 1 := by
  have hstep := marchCount_succ_month m.year m.isMonth.2.2.1 m.isMonth.2.2.2
  rw [days]
  omega

theorem firstWeekday_eq (m : Month) :
    (m.firstWeekday : Int) = (marchCount m.year m.number 1 + 2) % 7 :=
  m.firstDay.weekday_eq

/-- **The weekdays of a month** follow each other from its first day on. -/
theorem weekday_of_day? {m : Month} {day : Nat} {d : Date} (h : m.day? day = some d) :
    d.weekday = (m.firstWeekday + day - 1) % 7 := by
  obtain ⟨hyear, hmonth, hday⟩ := day?_eq_some_iff.1 h
  have hone := d.isDate.2.2.2.2.1
  have hfirst := m.firstWeekday_eq
  have hweekday := d.weekday_eq
  rw [hyear, hmonth, hday, marchCount_day] at hweekday
  omega

/-- Each day of a month is a date in it, on the weekday that its place in the month says. -/
theorem exists_date (m : Month) (day : Nat) (h : 1 ≤ day) (h' : day ≤ m.days) :
    ∃ d : Date, m.day? day = some d ∧ m.contains d = true ∧ d.day = day ∧
      d.weekday = (m.firstWeekday + day - 1) % 7 := by
  obtain ⟨d, hd⟩ := Option.isSome_iff_exists.1 (isSome_day?_iff.2 ⟨h, h'⟩)
  exact ⟨d, hd, contains_iff_eq_containing.2 (eq_containing_of_day? hd),
    (day?_eq_some_iff.1 hd).2.2, weekday_of_day? hd⟩

theorem marchCount_of_next {m n : Month} (h : m.next = some n) :
    marchCount n.year n.number 1 = marchCount m.year (m.number + 1) 1 := by
  have hm := m.isMonth
  have hn := n.isMonth
  have hserial := next_eq_some_iff.1 h
  simp only [serial] at hserial
  by_cases hnumber : m.number = 12
  · have hyear : n.year = m.year + 1 := by omega
    have hone : n.number = 1 := by omega
    rw [hyear, hone, hnumber, ← marchCount_january]
  · have hyear : n.year = m.year := by omega
    have hsucc : n.number = m.number + 1 := by omega
    rw [hyear, hsucc]

theorem firstWeekday_of_next {m n : Month} (h : m.next = some n) :
    n.firstWeekday = (m.firstWeekday + m.days) % 7 := by
  have hcount := marchCount_of_next h
  have hm := m.firstWeekday_eq
  have hn := n.firstWeekday_eq
  have hdays := m.days_eq
  omega

/-- **The months agree with the calendar**, wherever the steps have led. The year stays from 1 to
the last one. `next` and `prev` lead to the month with the next number and with the number before,
and are refused at the last and at the first month only, so each takes the other back. A month has
the days from 1 to its length, which is the one that the count of days gives, and each is the date
with the year, the month and the day, in this month and in no other. Its weekday is the one of the
count, and follows from the first weekday of the month, as the first weekday of the next month
does. -/
theorem month_arithmetic {m : Month} (h : m.Visited) :
    (1 ≤ m.year ∧ m.year ≤ 262142) ∧
    (∀ n, m.next = some n → n.serial = m.serial + 1 ∧ n.prev = some m ∧
      n.firstWeekday = (m.firstWeekday + m.days) % 7) ∧
    (m.next = none ↔ m.year = 262142 ∧ m.number = 12) ∧
    (∀ n, m.prev = some n → n.serial = m.serial - 1 ∧ n.next = some m) ∧
    (m.prev = none ↔ m.year = 1 ∧ m.number = 1) ∧
    (m.days : Int) = marchCount m.year (m.number + 1) 1 - marchCount m.year m.number 1 ∧
    (∀ day, (m.day? day).isSome = true ↔ 1 ≤ day ∧ day ≤ m.days) ∧
    ∀ day d, m.day? day = some d →
      (d.year = m.year ∧ d.month = m.number ∧ d.day = day) ∧
      (∀ n : Month, n.contains d = true ↔ n = m) ∧
      d.weekday = (m.firstWeekday + day - 1) % 7 ∧
      (d.weekday : Int) = (marchCount d.year d.month d.day + 2) % 7 := by
  have hyear := h.year_pos
  refine ⟨⟨hyear, m.isMonth.2.1⟩, ?_, next_eq_none_iff, ?_, prev_eq_none_iff hyear, m.days_eq,
    fun _ => isSome_day?_iff, ?_⟩
  · intro n hnext
    have hserial := next_eq_some_iff.1 hnext
    exact ⟨hserial, prev_eq_some_iff.2 ⟨hserial.symm, hyear⟩, firstWeekday_of_next hnext⟩
  · intro n hprev
    obtain ⟨hserial, -⟩ := prev_eq_some_iff.1 hprev
    exact ⟨by omega, next_eq_some_iff.2 hserial.symm⟩
  · intro day d hday
    refine ⟨day?_eq_some_iff.1 hday, fun n => ?_, weekday_of_day? hday, d.weekday_eq⟩
    rw [contains_iff_eq_containing, eq_containing_of_day? hday]

/-- February 1900, reached backwards, has no leap day, and March starts 28 days after it did. -/
theorem month_arithmetic_of_century :
    let february : Month := ⟨1900, 2, by decide⟩
    let march : Month := ⟨1900, 3, by decide⟩
    february.Visited ∧ february.next = some march ∧ february.day? 29 = none ∧
      march.serial = february.serial + 1 ∧ march.prev = some february ∧
      march.firstWeekday = (february.firstWeekday + 28) % 7 := by
  intro february march
  have hmarch : march.Visited := .asked (rfl : ofParts? 1900 3 = some march)
  have h : february.Visited := .prev hmarch rfl
  obtain ⟨-, hnext, -, -, -, -, hdays, -⟩ := month_arithmetic h
  have hnone : february.day? 29 = none := by
    rw [← Option.not_isSome_iff_eq_none, hdays 29]
    decide
  exact ⟨h, rfl, hnone, hnext march rfl⟩

end Month

end DeskShell.Calendar
