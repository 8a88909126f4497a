import DeskShell.Proofs.Calendar.Commands
import DeskShell.Proofs.Calendar.Months
import DeskShell.Proofs.Calendar.TypedDates
import Mathlib.Algebra.Group.Int.Defs

/-!
# Numbers at the start of an answer

A day, a year and a choice are read from the start of what is typed. Which texts start with a
number, and with which one, is said without the reader (`leadingInt?_eq_some_iff`): blanks, an
optional sign, the longest run of digits, and any text behind it, where the digits denote a number
that a signed number of 64 bits can hold.

Two facts do the work. The first character that is no digit ends the run, so the digits are read
whole; and they are compared with the bound before the sign is applied, so that neither the number
nor its negation leaves 64 bits. What the session does with a day, a choice or a year is therefore
what it does with the number that is spelled, of any size.
-/

set_option autoImplicit false

namespace DeskShell.Calendar

open Text Terminal DateParts

/-! ## How a number is spelled -/

/-- A text of blanks, an optional sign, the longest run of digits, and a rest. -/
structure LeadingNumber (cs blanks sign ds rest : List Char) : Prop where
  text_eq : cs = blanks ++ (sign ++ (ds ++ rest))
  isBlank : ∀ c ∈ blanks, isBlank c = true
  isSign : IsSign sign
  ne_nil : ds ≠ []
  isDigit : ∀ c ∈ ds, c.isDigit = true
  longest : ∀ c ∈ rest.head?, c.isDigit = false

/-- Whether a text starts with a number whose digits denote at most `2 ^ 63 - 1`. -/
def OpensWith (cs : List Char) (n : Int) : Prop :=
  ∃ blanks sign ds rest, LeadingNumber cs blanks sign ds rest ∧ value ds ≤ 2 ^ 63 - 1 ∧
    n = signedValue sign ds

/-! ## Reading it -/

section Reading

variable {cs blanks sign ds rest : List Char}

theorem LeadingNumber.trimStart (h : LeadingNumber cs blanks sign ds rest) :
    Text.trimStart cs = sign ++ (ds ++ rest) := by
  obtain ⟨d, more, hds⟩ := List.exists_cons_of_ne_nil h.ne_nil
  have hd : Text.isBlank d = false := isBlank_eq_false_of_isDigit (h.isDigit d (by simp [hds]))
  rw [h.text_eq, Text.trimStart, List.dropWhile_append_of_pos h.isBlank]
  refine dropWhile_of_head? fun c hc => ?_
  rcases h.isSign with hsign | hsign | hsign <;> rw [hsign, hds] at hc <;> cases hc
  · exact hd
  · rfl
  · rfl

/-- The digits are read whole, and nothing behind them. -/
theorem LeadingNumber.takeWhile (h : LeadingNumber cs blanks sign ds rest) :
    (ds ++ rest).takeWhile Char.isDigit = ds := by
  have hrest : rest.takeWhile Char.isDigit = [] := by
    cases rest with
    | nil => rfl
    | cons c rest => exact List.takeWhile_cons_of_neg (by simp [h.longest c rfl])
  rw [List.takeWhile_append_of_pos h.isDigit, hrest, List.append_nil]

/-- **A number is read** exactly where its digits denote no more than the bound. -/
theorem LeadingNumber.leadingInt? (h : LeadingNumber cs blanks sign ds rest) :
    Text.leadingInt? cs
      = if value ds ≤ largestInteger then some (signedValue sign ds) else none := by
  have hdigits : IsAsciiField ds.length ds := ⟨h.ne_nil, Nat.le_refl _, h.isDigit⟩
  have hempty : ds.isEmpty = false := by simpa using h.ne_nil
  rw [Text.leadingInt?, h.trimStart, takeSign_of_isSign h.isSign hdigits]
  simp only [h.takeWhile, hempty, Bool.false_or, decide_eq_true_eq]
  by_cases hbound : value ds ≤ largestInteger
  · rw [if_pos hbound, if_neg (by omega)]
    rfl
  · rw [if_neg hbound, if_pos (by omega)]

/-- What has been read as a number is one. -/
theorem exists_of_leadingInt? {n : Int} (h : Text.leadingInt? cs = some n) :
    ∃ blanks sign ds rest, LeadingNumber cs blanks sign ds rest := by
  obtain ⟨sign, hsign, hcut⟩ := exists_sign (trimStart cs)
  have hne : (takeSign (trimStart cs)).2.takeWhile Char.isDigit ≠ [] := by
    intro hnil
    simp [Text.leadingInt?, hnil] at h
  refine ⟨cs.takeWhile Text.isBlank, sign, (takeSign (trimStart cs)).2.takeWhile Char.isDigit,
    (takeSign (trimStart cs)).2.dropWhile Char.isDigit, ?_⟩
  exact
    { text_eq := by
        rw [List.takeWhile_append_dropWhile, ← hcut]
        exact List.takeWhile_append_dropWhile.symm
      isBlank := fun c hc => List.all_eq_true.1 List.all_takeWhile c hc
      isSign := hsign
      ne_nil := hne
      isDigit := fun c hc => List.all_eq_true.1 List.all_takeWhile c hc
      longest := fun c hc => by
        have hhead := List.head?_dropWhile_not Char.isDigit (takeSign (trimStart cs)).2
        rw [hc] at hhead
        simpa using hhead }

end Reading

/-- **The texts that start with a number**, and the number. -/
theorem leadingInt?_eq_some_iff {cs : List Char} {n : Int} :
    Text.leadingInt? cs = some n ↔ OpensWith cs n := by
  constructor
  · intro hread
    obtain ⟨blanks, sign, ds, rest, h⟩ := exists_of_leadingInt? hread
    rw [h.leadingInt?, Option.ite_none_right_eq_some, Option.some.injEq] at hread
    exact ⟨blanks, sign, ds, rest, h, hread.1, hread.2.symm⟩
  · rintro ⟨blanks, sign, ds, rest, h, hbound, rfl⟩
    exact h.leadingInt?.trans (if_pos hbound)

/-! ## Written numbers -/

/-- A number that is written in decimal is spelled by a sign, where it is negative, and digits. -/
theorem exists_signed (n : Int) :
    ∃ sign ds, signed n = sign ++ ds ∧ IsSign sign ∧ ds ≠ [] ∧ (∀ c ∈ ds, c.isDigit = true) ∧
      value ds = n.natAbs ∧ signedValue sign ds = n := by
  have hdigits : ∀ c ∈ digits n.natAbs, c.isDigit = true := fun c hc => isDigit_of_mem_digits hc
  have hvalue : value (digits n.natAbs) = n.natAbs := value_digits _
  by_cases hn : n < 0
  · refine ⟨['-'], digits n.natAbs, by rw [signed, if_pos hn]; rfl, .inr (.inr rfl),
      digits_ne_nil _, hdigits, hvalue, ?_⟩
    rw [signedValue, if_pos rfl, hvalue]
    omega
  · refine ⟨[], digits n.natAbs, by rw [signed, if_neg hn]; rfl, .inl rfl,
      digits_ne_nil _, hdigits, hvalue, ?_⟩
    rw [signedValue, if_neg (by simp), hvalue]
    omega

/-- **A written number is read**, behind blanks and in front of any text that does not go on with a
digit. -/
theorem opensWith_signed {n : Int} (hn : n.natAbs ≤ 2 ^ 63 - 1) {blanks rest : List Char}
    (hblanks : ∀ c ∈ blanks, isBlank c = true) (hrest : ∀ c ∈ rest.head?, c.isDigit = false) :
    OpensWith (blanks ++ (signed n ++ rest)) n := by
  obtain ⟨sign, ds, hsigned, hsign, hne, hds, hvalue, hn'⟩ := exists_signed n
  have hlead : LeadingNumber (blanks ++ (signed n ++ rest)) blanks sign ds rest :=
    { text_eq := by rw [hsigned, List.append_assoc]
      isBlank := hblanks
      isSign := hsign
      ne_nil := hne
      isDigit := hds
      longest := hrest }
  exact ⟨blanks, sign, ds, rest, hlead, hvalue ▸ hn, hn'.symm⟩

/-! ## In 64 bits -/

/-- The number that digits behind a sign denote, computed with signed numbers of 64 bits. -/
def machineValue (sign ds : List Char) : Int64 :=
  if sign = ['-'] then -Int64.ofNat (value ds) else Int64.ofNat (value ds)

/-- Within the bound neither the digits nor the negation of their number wrap around. -/
theorem toInt_machineValue {sign ds : List Char} (h : value ds ≤ 2 ^ 63 - 1) :
    (machineValue sign ds).toInt = signedValue sign ds := by
  unfold machineValue signedValue
  split
  · exact Int64.toInt_neg_ofNat_of_le (by omega)
  · exact Int64.toInt_ofNat_of_lt (by omega)

/-! ## What is named by an answer -/

/-- What comes of an answer: the result for what is named by it, if anything is, and else another
result. -/
def LeadsTo {α β : Type} (named : α → Prop) (found : α → β) (lost result : β) : Prop :=
  (∃ a, named a ∧ result = found a) ∨ ((∀ a, ¬ named a) ∧ result = lost)

theorem leadsTo_of_read {α β : Type} {named : α → Prop} {found : α → β} {lost result : β}
    {read : Option α} (hnamed : ∀ a, read = some a ↔ named a)
    (hsome : ∀ a, read = some a → result = found a) (hnone : read = none → result = lost) :
    LeadsTo named found lost result := by
  cases read with
  | some a => exact .inl ⟨a, (hnamed a).1 rfl, hsome a rfl⟩
  | none =>
      refine .inr ⟨fun a ha => ?_, hnone rfl⟩
      cases (hnamed a).2 ha

section Named

variable {m : Month} {line : String}

def NamesDay (m : Month) (line : String) (d : Date) : Prop :=
  m.contains d = true ∧ OpensWith line.toList d.day

/-- Whether a text starts with the number of a candidate, counted from 1. -/
def NamesChoice (candidates : List Nat) (line : String) (i : Nat) : Prop :=
  ∃ n : Nat, OpensWith line.toList ((n + 1 : Nat) : Int) ∧ candidates[n]? = some i

/-- Whether a word stands for the number of a month, and a text starts with its year. -/
def NamesMonth (word line : String) (target : Month) : Prop :=
  monthOfText? word = some target.number ∧ OpensWith line.toList target.year ∧ 1 ≤ target.year

theorem day?_getD_eq_some_iff {d : Date} :
    m.day? ((Text.leadingInt? line.toList).getD 0).toNat = some d ↔ NamesDay m line d := by
  rw [Month.day?_leadingInt?_eq_some_iff, leadingInt?_eq_some_iff, NamesDay, and_comm]
  simp [Month.contains]

/-- A text that starts with no number names no day, as zero does not. -/
theorem day?_bind_eq_some_iff {d : Date} :
    ((Text.leadingInt? line.toList).bind fun n => m.day? n.toNat) = some d ↔
      NamesDay m line d := by
  rw [← day?_getD_eq_some_iff]
  cases Text.leadingInt? line.toList with
  | some n => rfl
  | none =>
      refine iff_of_false (by simp) fun hday => ?_
      have hzero : d.day = 0 := (Date.ofParts?_eq_some_iff.1 hday).2.2
      have hone := d.isDate.2.2.2.2.1
      omega

theorem pick?_eq_some_iff_names {candidates : List Nat} {i : Nat} :
    pick? candidates line = some i ↔ NamesChoice candidates line i := by
  simp only [pick?_eq_some_iff, leadingInt?_eq_some_iff, NamesChoice]

theorem monthOfWords?_eq_some_iff {word : String} {target : Month} :
    monthOfWords? word line = some target ↔ NamesMonth word line target := by
  unfold monthOfWords? NamesMonth
  simp only [Option.bind_eq_bind, Option.bind_eq_some_iff, leadingInt?_eq_some_iff]
  constructor
  · rintro ⟨number, hnumber, year, hyear, htarget⟩
    obtain ⟨rfl, rfl, hpositive⟩ := Month.ofParts?_eq_some_iff.1 htarget
    exact ⟨hnumber, hyear, hpositive⟩
  · rintro ⟨hnumber, hyear, hpositive⟩
    exact ⟨_, hnumber, _, hyear, Month.ofParts?_eq_some_iff.2 ⟨rfl, rfl, hpositive⟩⟩

end Named

/-! ## At the prompt -/

section Prompt

variable (look : Look) (s : State)

theorem leadsTo_hearEventDay (line : String) :
    LeadsTo (NamesDay s.month line) (fun d => s.ask .nothing (.description d))
      (s.unchanged look "Invalid day for the specified month/year.")
      (s.hearEventDay look line) := by
  refine leadsTo_of_read (fun _ => day?_getD_eq_some_iff) (fun d hd => ?_) fun hd => ?_
  · rw [State.hearEventDay, hd, State.describeNew]
  · rw [State.hearEventDay, hd, State.describeNew]

theorem leadsTo_hearChoice (purpose : Purpose) (candidates : List Nat) (line : String) :
    LeadsTo (NamesChoice candidates line) (fun i => s.chosen look purpose i)
      (s.unchanged look "Invalid selection.")
      (s.hearChoice look purpose candidates line) := by
  refine leadsTo_of_read (fun _ => pick?_eq_some_iff_names) (fun i hi => ?_) fun hi => ?_
  · rw [State.hearChoice, hi]
  · rw [State.hearChoice, hi]

theorem leadsTo_goTo (word line : String) (more : List String) :
    LeadsTo (NamesMonth word line)
      (fun target =>
        State.reply { s with month := target } (State.page look { s with month := target }))
      (s.reply (.sayLine "Invalid month/year combination."))
      (s.goTo look (word :: line :: more)) := by
  refine leadsTo_of_read (fun _ => monthOfWords?_eq_some_iff) (fun m hm => ?_) fun hm => ?_
  · simp only [State.goTo, hm]
  · simp only [State.goTo, hm]

theorem leadsTo_view {word : String} (more : List String) (hdate : DateParts.ofText? word = none)
    (hdigit : word.toList.head?.any Char.isDigit = true) :
    LeadsTo (NamesDay s.month word)
      (fun d => Transcript.say (dayEvents (DateParts.ofDate d) s.book))
      (.sayLine "Invalid day for the current month.") (s.view (word :: more)) := by
  refine leadsTo_of_read (fun _ => day?_bind_eq_some_iff) (fun d hd => ?_) fun hd => ?_
  · simp only [State.view, hdate, hdigit, if_true, hd]
  · simp only [State.view, hdate, hdigit, if_true, hd]

end Prompt

/-- **Numbers are read exactly.** A text is read as a number exactly if it starts with blanks, an
optional sign and a longest run of digits that denote at most `2 ^ 63 - 1`, and what is read is that
number with its sign; any other text is read as none. So a number between `-(2 ^ 63 - 1)` and
`2 ^ 63 - 1` that is written in decimal is read behind any blanks and in front of any text that does
not go on with a digit. What is read fits in 64 bits, where also the negation does not wrap around.
The days, choices and years that the session acts on are those that are spelled. -/
theorem leading_number_is_exact :
    (∀ (s : String) (n : Int), leadingInt? s.toList = some n ↔ OpensWith s.toList n) ∧
    (∀ s : String, leadingInt? s.toList = none ↔ ∀ n, ¬ OpensWith s.toList n) ∧
    (∀ (blanks : String) (n : Int) (rest : String), (∀ c ∈ blanks.toList, isBlank c = true) →
      -(2 ^ 63 - 1) ≤ n → n ≤ 2 ^ 63 - 1 → (∀ c ∈ rest.toList.head?, c.isDigit = false) →
      leadingInt? (blanks ++ String.ofList (signed n) ++ rest).toList = some n) ∧
    (∀ (cs blanks sign ds rest : List Char) (n : Int), LeadingNumber cs blanks sign ds rest →
      leadingInt? cs = some n → -(2 ^ 63 - 1) ≤ n ∧ n ≤ 2 ^ 63 - 1 ∧
        (Int64.ofNat (value ds)).toInt = value ds ∧ (machineValue sign ds).toInt = n) ∧
    (∀ (look : Look) (s : State) (line : String),
      LeadsTo (NamesDay s.month line) (fun d => s.ask .nothing (.description d))
        (s.unchanged look "Invalid day for the specified month/year.")
        (s.hearEventDay look line)) ∧
    (∀ (look : Look) (s : State) (purpose : Purpose) (candidates : List Nat) (line : String),
      LeadsTo (NamesChoice candidates line) (fun i => s.chosen look purpose i)
        (s.unchanged look "Invalid selection.")
        (s.hearChoice look purpose candidates line)) ∧
    (∀ (look : Look) (s : State) (word line : String) (more : List String),
      LeadsTo (NamesMonth word line)
        (fun target =>
        State.reply { s with month := target } (State.page look { s with month := target }))
        (s.reply (.sayLine "Invalid month/year combination."))
        (s.goTo look (word :: line :: more))) ∧
    ∀ (s : State) (word : String) (more : List String), DateParts.ofText? word = none →
      word.toList.head?.any Char.isDigit = true →
      LeadsTo (NamesDay s.month word)
        (fun d => Transcript.say (dayEvents (DateParts.ofDate d) s.book))
        (.sayLine "Invalid day for the current month.") (s.view (word :: more)) := by
  refine ⟨fun s n => leadingInt?_eq_some_iff, fun s => ?_, ?_, ?_, leadsTo_hearEventDay,
    leadsTo_hearChoice, leadsTo_goTo, fun s word more => leadsTo_view s more⟩
  · simp only [Option.eq_none_iff_forall_ne_some, ne_eq, leadingInt?_eq_some_iff]
  · intro blanks n rest hblanks hlow hhigh hrest
    have hlist : (blanks ++ String.ofList (signed n) ++ rest).toList
        = blanks.toList ++ (signed n ++ rest.toList) := by
      simp [String.toList_append, String.toList_ofList]
    rw [hlist, leadingInt?_eq_some_iff]
    exact opensWith_signed (by omega) hblanks hrest
  · intro cs blanks sign ds rest n h hread
    rw [h.leadingInt?, Option.ite_none_right_eq_some, Option.some.injEq] at hread
    obtain ⟨hbound, rfl⟩ := hread
    -- the bound is symmetric, so what fits can also be negated
    have hbound' : value ds ≤ 2 ^ 63 - 1 := hbound
    have hdigits : (Int64.ofNat (value ds)).toInt = value ds :=
      Int64.toInt_ofNat_of_lt (by omega)
    refine ⟨?_, ?_, hdigits, toInt_machineValue hbound⟩
    · unfold signedValue
      split <;> omega
    · unfold signedValue
      split <;> omega

/-- The least number that is read, and a day of a leap year in front of a letter. -/
theorem leading_number_is_exact_of_least :
    (∀ c ∈ "\u3000\t".toList, isBlank c = true) ∧
      (∀ c ∈ "x7".toList.head?, c.isDigit = false) ∧
      leadingInt? "\u3000\t-9223372036854775807x7".toList = some (-9223372036854775807) ∧
      LeadingNumber "\u3000\t-9223372036854775807x7".toList ['\u3000', '\t'] ['-']
        "9223372036854775807".toList ['x', '7'] ∧
      (machineValue ['-'] "9223372036854775807".toList).toInt = -9223372036854775807 ∧
      DateParts.ofText? "29x" = none ∧
      LeadsTo (NamesDay ⟨2024, 2, by decide⟩ "29x")
        (fun d => Transcript.say (dayEvents (DateParts.ofDate d) ⟨[]⟩))
        (.sayLine "Invalid day for the current month.")
        (State.view { book := ⟨[]⟩, month := ⟨2024, 2, by decide⟩ } ["29x"]) := by
  have hblanks : ∀ c ∈ "\u3000\t".toList, isBlank c = true := List.all_eq_true.1 (by decide)
  have hrest : ∀ c ∈ "x7".toList.head?, c.isDigit = false := by
    rintro c ⟨⟩
    decide
  have htext : "\u3000\t" ++ String.ofList (signed (-9223372036854775807)) ++ "x7"
      = "\u3000\t-9223372036854775807x7" := by decide +kernel
  have hread : leadingInt? "\u3000\t-9223372036854775807x7".toList
      = some (-9223372036854775807) := by
    rw [← htext]
    exact leading_number_is_exact.2.2.1 _ _ _ hblanks (by decide) (by decide) hrest
  have hlead : LeadingNumber "\u3000\t-9223372036854775807x7".toList ['\u3000', '\t'] ['-']
      "9223372036854775807".toList ['x', '7'] :=
    ⟨by decide, hblanks, .inr (.inr rfl), by decide, List.all_eq_true.1 (by decide), hrest⟩
  have hdate : DateParts.ofText? "29x" = none := by decide
  have hmachine := (leading_number_is_exact.2.2.2.1 _ _ _ _ _ _ hlead hread).2.2.2
  exact ⟨hblanks, hrest, hread, hlead, hmachine, hdate,
    leading_number_is_exact.2.2.2.2.2.2.2 { book := ⟨[]⟩, month := ⟨2024, 2, by decide⟩ } "29x" []
      hdate (by decide)⟩

end DeskShell.Calendar
