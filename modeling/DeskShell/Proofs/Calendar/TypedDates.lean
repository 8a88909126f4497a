import DeskShell.Calendar.DateText
import DeskShell.Proofs.Text.Numeral

/-!
# Dates as they are typed

Which texts are taken for a date at the prompt, and for which one, is said without the reader
(`DateParts.read?_eq_some_iff`): blanks, an optional sign, digits for the year, the month and the
day with `-` between them, and any text behind them. The digits may be of any script as far as the
extent of the day goes, but only ASCII digits are understood; and the numbers have to be in range.

So a date that is written with zeros in front is read wherever it stands behind blanks, also in
front of a further digit, since two digits of the day are already there (`DateParts.read?_chars`).
-/

set_option autoImplicit false

namespace DeskShell.Calendar

open Text

namespace DateParts

/-! ## What is typed -/

/-- Nothing, or one of the two signs. -/
def IsSign (sign : List Char) : Prop := sign = [] ∨ sign = ['+'] ∨ sign = ['-']

/-- At least one and at most `most` digits, of any script. -/
structure IsField (most : Nat) (ds : List Char) : Prop where
  ne_nil : ds ≠ []
  length_le : ds.length ≤ most
  isDecimalDigit : ∀ c ∈ ds, isDecimalDigit c = true

/-- A text of blanks, a sign, the digits of year, month and day with `-` between them, and a rest.
The day has two digits where two digits follow the second `-`. -/
structure Typed (cs blanks sign year month day rest : List Char) : Prop where
  text_eq : cs = blanks ++ (sign ++ (year ++ '-' :: (month ++ '-' :: (day ++ rest))))
  isBlank : ∀ c ∈ blanks, isBlank c = true
  isSign : IsSign sign
  isYear : IsField 9 year
  isMonth : IsField 2 month
  isDay : IsField 2 day
  longest : day.length = 2 ∨ ∀ c ∈ rest.head?, isDecimalDigit c = false

def signedValue (sign ds : List Char) : Int := if sign = ['-'] then -(value ds : Int) else value ds

/-- Whether a year, a month and a day are in range, whatever days the month has. -/
def InRange (p : DateParts) : Prop :=
  1 ≤ p.year ∧ 1 ≤ p.month ∧ p.month ≤ 12 ∧ 1 ≤ p.day ∧ p.day ≤ 31

instance (p : DateParts) : Decidable p.InRange := by
  unfold InRange
  infer_instance

/-- A field whose digits are understood. -/
structure IsAsciiField (most : Nat) (ds : List Char) : Prop where
  ne_nil : ds ≠ []
  length_le : ds.length ≤ most
  isDigit : ∀ c ∈ ds, c.isDigit = true

theorem IsAsciiField.isField {most : Nat} {ds : List Char} (h : IsAsciiField most ds) :
    IsField most ds :=
  ⟨h.ne_nil, h.length_le, fun c hc => isDecimalDigit_of_isDigit (h.isDigit c hc)⟩

theorem IsField.ascii {most : Nat} {ds : List Char} (h : IsField most ds)
    (hds : ∀ c ∈ ds, c.isDigit = true) : IsAsciiField most ds :=
  ⟨h.ne_nil, h.length_le, hds⟩

/-! ## The sign -/

theorem takeSign_of_isSign {sign : List Char} (hsign : IsSign sign) {most : Nat} {ds : List Char}
    (hds : IsAsciiField most ds) (rest : List Char) :
    takeSign (sign ++ (ds ++ rest)) = (decide (sign = ['-']), ds ++ rest) := by
  rcases hsign with rfl | rfl | rfl
  · obtain ⟨c, ds, rfl⟩ := List.exists_cons_of_ne_nil hds.ne_nil
    exact takeSign_of_isDigit (hds.isDigit c (by simp)) _
  · rfl
  · rfl

theorem exists_sign (cs : List Char) : ∃ sign, IsSign sign ∧ cs = sign ++ (takeSign cs).2 := by
  rcases takeSign_cases cs with ⟨rest, rfl, htake⟩ | ⟨rest, rfl, htake⟩ | htake
  · exact ⟨['-'], .inr (.inr rfl), by rw [htake]; rfl⟩
  · exact ⟨['+'], .inr (.inl rfl), by rw [htake]; rfl⟩
  · exact ⟨[], .inl rfl, by rw [htake]; rfl⟩

/-! ## The year and the month -/

theorem readField_run {most : Nat} {ds : List Char} (h : IsAsciiField most ds)
    (rest : List Char) : readField most (ds ++ '-' :: rest) = some (value ds, rest) := by
  have htake := takeWhile_run h.isDigit (show '-'.isDigit = false by decide) rest
  have hdrop := dropWhile_run h.isDigit (show '-'.isDigit = false by decide) rest
  rw [readField]
  simp only [htake, hdrop]
  exact if_pos ⟨h.ne_nil, h.length_le⟩

/-- What has been read as a field is one, in front of a `-`. -/
theorem exists_of_readField {most n : Nat} {cs rest : List Char}
    (h : readField most cs = some (n, rest)) :
    ∃ ds, cs = ds ++ '-' :: rest ∧ IsAsciiField most ds := by
  unfold readField at h
  split at h
  · next rest' hdrop =>
      simp only at h
      split at h
      · next hds =>
          cases h
          refine ⟨cs.takeWhile Char.isDigit, ?_, hds.1, hds.2, ?_⟩
          · rw [← hdrop, List.takeWhile_append_dropWhile]
          · exact fun c hc => List.all_eq_true.1 List.all_takeWhile c hc
      · cases h
  · cases h

/-! ## The day -/

theorem readDay_run {ds rest : List Char} (h : IsAsciiField 2 ds)
    (hlongest : ds.length = 2 ∨ ∀ c ∈ rest.head?, isDecimalDigit c = false) :
    readDay (ds ++ rest) = some (value ds) := by
  match ds, h with
  | [], h => exact absurd rfl h.ne_nil
  | [a], h =>
      have ha : a.isDigit = true := h.isDigit a (by simp)
      cases rest with
      | nil => exact if_pos ha
      | cons b rest =>
          have hb : isDecimalDigit b = false := by simpa using hlongest
          have hb' : b.isDigit = false := by
            by_contra hdigit
            rw [isDecimalDigit_of_isDigit (by simpa using hdigit)] at hb
            cases hb
          show readDay (a :: b :: rest) = some (value [a])
          simp [readDay, ha, hb, hb']
  | [a, b], h =>
      have ha : a.isDigit = true := h.isDigit a (by simp)
      have hb : b.isDigit = true := h.isDigit b (by simp)
      show readDay (a :: b :: rest) = some (value [a, b])
      simp [readDay, ha, hb]
  | a :: b :: c :: ds, h =>
      have hlength := h.length_le
      simp only [List.length_cons] at hlength
      omega

/-- What has been read as a day is a field, of two digits where there are two of any script. -/
theorem exists_of_readDay {n : Nat} {cs : List Char} (h : readDay cs = some n) :
    ∃ ds rest, cs = ds ++ rest ∧ IsAsciiField 2 ds ∧
      (ds.length = 2 ∨ ∀ c ∈ rest.head?, isDecimalDigit c = false) := by
  match cs with
  | [] => cases h
  | [a] =>
      simp only [readDay, Option.ite_none_right_eq_some, Option.some.injEq] at h
      exact ⟨[a], [], rfl, ⟨by simp, by simp, by simpa using h.1⟩, .inr (by simp)⟩
  | a :: b :: rest =>
      rw [readDay] at h
      split at h
      · cases h
      · next ha =>
          have ha : a.isDigit = true := by simpa using ha
          split at h
          · next hb =>
              exact ⟨[a, b], rest, rfl, ⟨by simp, by simp, by simp [ha, hb]⟩, .inl rfl⟩
          · split at h
            · -- a second digit that is not understood
              cases h
            · next hb =>
                exact ⟨[a], b :: rest, rfl, ⟨by simp, by simp, by simpa using ha⟩,
                  .inr (by simpa using hb)⟩

/-! ## The whole date -/

section Typed

variable {cs blanks sign year month day rest : List Char}

theorem Typed.trimStart (h : Typed cs blanks sign year month day rest)
    (hyear : ∀ c ∈ year, c.isDigit = true) :
    Text.trimStart cs = sign ++ (year ++ '-' :: (month ++ '-' :: (day ++ rest))) := by
  obtain ⟨d, ds, hds⟩ := List.exists_cons_of_ne_nil h.isYear.ne_nil
  rw [h.text_eq, Text.trimStart, List.dropWhile_append_of_pos h.isBlank]
  refine dropWhile_of_head? fun c hc => ?_
  rcases h.isSign with hsign | hsign | hsign <;> rw [hsign, hds] at hc <;> cases hc
  · exact isBlank_eq_false_of_isDigit (hyear d (by simp [hds]))
  · rfl
  · rfl

/-- **A typed date is read**, if its digits are ASCII digits, exactly where its numbers are in
range. -/
theorem Typed.read? (h : Typed cs blanks sign year month day rest)
    (hdigits : ∀ c ∈ year ++ month ++ day, c.isDigit = true) :
    let p : DateParts := ⟨signedValue sign year, value month, value day⟩
    DateParts.read? cs = if p.InRange then some p else none := by
  intro p
  obtain ⟨hdigits, hday⟩ := List.forall_mem_append.1 hdigits
  obtain ⟨hyear, hmonth⟩ := List.forall_mem_append.1 hdigits
  rw [DateParts.read?, h.trimStart hyear, takeSign_of_isSign h.isSign (h.isYear.ascii hyear)]
  simp only [readField_run (h.isYear.ascii hyear), readField_run (h.isMonth.ascii hmonth),
    readDay_run (h.isDay.ascii hday) h.longest, Option.bind_eq_bind, Option.bind_some]
  by_cases hsign : sign = ['-']
  · -- a year behind a minus is not positive
    have hnegative : ¬ p.InRange := by
      intro hrange
      have hpositive : 1 ≤ signedValue sign year := hrange.1
      rw [signedValue, if_pos hsign] at hpositive
      omega
    rw [if_neg hnegative, if_neg (by simp [hsign])]
  · have hp : p = ⟨(value year : Nat), value month, value day⟩ := by
      rw [DateParts.mk.injEq]
      exact ⟨by rw [signedValue, if_neg hsign], rfl, rfl⟩
    rw [hp]
    refine if_congr ?_ rfl rfl
    simp only [hsign, decide_false, Bool.not_false, Bool.true_and, Bool.and_eq_true,
      decide_eq_true_eq, InRange]
    omega

end Typed

/-- **The texts that are read as a date**, and the date. -/
theorem read?_eq_some_iff {cs : List Char} {p : DateParts} :
    read? cs = some p ↔ ∃ blanks sign year month day rest,
      Typed cs blanks sign year month day rest ∧
        (∀ c ∈ year ++ month ++ day, c.isDigit = true) ∧
        p = ⟨signedValue sign year, value month, value day⟩ ∧ p.InRange := by
  constructor
  · intro hread
    -- the parts that the reader has gone through spell the text
    have h := hread
    unfold read? at h
    simp only [Option.bind_eq_bind, Option.bind_eq_some_iff, Prod.exists] at h
    obtain ⟨y, rest₁, hy, m, rest₂, hm, d, hd, -⟩ := h
    obtain ⟨sign, hsign, hcut⟩ := exists_sign (trimStart cs)
    obtain ⟨year, hyear, hisYear⟩ := exists_of_readField hy
    obtain ⟨month, rfl, hisMonth⟩ := exists_of_readField hm
    obtain ⟨day, rest, rfl, hisDay, hlongest⟩ := exists_of_readDay hd
    have htyped : Typed cs (cs.takeWhile isBlank) sign year month day rest :=
      { text_eq := by
          rw [← hyear, ← hcut]
          exact List.takeWhile_append_dropWhile.symm
        isBlank := fun c hc => List.all_eq_true.1 List.all_takeWhile c hc
        isSign := hsign
        isYear := hisYear.isField
        isMonth := hisMonth.isField
        isDay := hisDay.isField
        longest := hlongest }
    have hdigits : ∀ c ∈ year ++ month ++ day, c.isDigit = true :=
      List.forall_mem_append.2
        ⟨List.forall_mem_append.2 ⟨hisYear.isDigit, hisMonth.isDigit⟩, hisDay.isDigit⟩
    -- so what it gives is what it gives for a text that is spelled so
    rw [htyped.read? hdigits, Option.ite_none_right_eq_some, Option.some.injEq] at hread
    obtain ⟨hrange, rfl⟩ := hread
    exact ⟨_, sign, year, month, day, rest, htyped, hdigits, rfl, hrange⟩
  · rintro ⟨blanks, sign, year, month, day, rest, h, hdigits, rfl, hrange⟩
    rw [h.read? hdigits, if_pos hrange]

/-! ## Written dates -/

/-- A year that is written is a sign and at most nine digits, if it has no more. -/
theorem exists_zeroPadded_year {year : Int} (h : year.natAbs < 10 ^ 9) :
    ∃ sign ds, zeroPadded 4 year = sign ++ ds ∧ IsSign sign ∧ IsAsciiField 9 ds ∧
      signedValue sign ds = year := by
  obtain ⟨ds, hne, hds, hvalue, hpadded⟩ := zeroPadded_spec 4 year
  have hdigits : (digits year.natAbs).length ≤ 9 := length_digits_le h
  have hlength : ds.length ≤ 9 := by
    have htext := congrArg List.length hpadded
    unfold zeroPadded padStart at htext
    split at htext <;>
      simp only [List.length_cons, List.length_append, List.length_replicate] at htext <;> omega
  by_cases hnegative : year < 0
  · refine ⟨['-'], ds, by rw [hpadded, if_pos hnegative]; rfl, .inr (.inr rfl),
      ⟨hne, hlength, hds⟩, ?_⟩
    rw [signedValue, if_pos rfl, hvalue]
    omega
  · refine ⟨[], ds, by rw [hpadded, if_neg hnegative]; rfl, .inl rfl, ⟨hne, hlength, hds⟩, ?_⟩
    rw [signedValue, if_neg (by simp), hvalue]
    omega

theorem isAsciiField_zeroPadded {n : Nat} (h : n < 100) :
    IsAsciiField 2 (zeroPadded 2 n) ∧ (zeroPadded 2 n).length = 2 := by
  obtain ⟨hne, hds, -⟩ := zeroPadded_nat_spec 2 n
  have hlength : (zeroPadded 2 n).length = 2 := by
    rw [length_zeroPadded]
    exact Nat.max_eq_left (length_digits_le h)
  exact ⟨⟨hne, Nat.le_of_eq hlength, hds⟩, hlength⟩

/-- **A written date is read**, behind blanks and in front of any text, exactly where it is in
range. -/
theorem read?_chars {p : DateParts} (hyear : p.year.natAbs < 10 ^ 9) (hmonth : p.month < 100)
    (hday : p.day < 100) {blanks : List Char} (hblanks : ∀ c ∈ blanks, isBlank c = true)
    (rest : List Char) :
    read? (blanks ++ (p.chars ++ rest)) = if p.InRange then some p else none := by
  obtain ⟨sign, year, hpadded, hsign, hisYear, hvalue⟩ := exists_zeroPadded_year hyear
  obtain ⟨hisMonth, -⟩ := isAsciiField_zeroPadded hmonth
  obtain ⟨hisDay, htwo⟩ := isAsciiField_zeroPadded hday
  have htyped : Typed (blanks ++ (p.chars ++ rest)) blanks sign year (zeroPadded 2 p.month)
      (zeroPadded 2 p.day) rest :=
    { text_eq := by simp [chars, hpadded]
      isBlank := hblanks
      isSign := hsign
      isYear := hisYear.isField
      isMonth := hisMonth.isField
      isDay := hisDay.isField
      longest := .inl htwo }
  have hdigits : ∀ c ∈ year ++ zeroPadded 2 p.month ++ zeroPadded 2 p.day, c.isDigit = true :=
    List.forall_mem_append.2
      ⟨List.forall_mem_append.2 ⟨hisYear.isDigit, hisMonth.isDigit⟩, hisDay.isDigit⟩
  have hp : (⟨signedValue sign year, value (zeroPadded 2 p.month), value (zeroPadded 2 p.day)⟩ :
      DateParts) = p := by
    rw [hvalue, (zeroPadded_nat_spec 2 p.month).2.2, (zeroPadded_nat_spec 2 p.day).2.2]
  rw [htyped.read? hdigits, hp]

/-! ## Dates at the prompt -/

/-- **The dates that are understood.** A text is read as a date exactly if it starts with blanks, an
optional sign, one to nine digits, `-`, one or two digits, `-` and then two digits or one where no
second one follows, all of them ASCII digits, and their numbers are in range; and what is read are
these numbers. So a date that is in range and written with zeros in front is read behind any blanks
and in front of any text. -/
theorem typed_date_is_read :
    (∀ (s : String) (p : DateParts), ofText? s = some p ↔ ∃ blanks sign year month day rest,
      Typed s.toList blanks sign year month day rest ∧
        (∀ c ∈ year ++ month ++ day, c.isDigit = true) ∧
        p = ⟨signedValue sign year, value month, value day⟩ ∧
        1 ≤ p.year ∧ 1 ≤ p.month ∧ p.month ≤ 12 ∧ 1 ≤ p.day ∧ p.day ≤ 31) ∧
    ∀ (blanks : String) (p : DateParts) (rest : String),
      (∀ c ∈ blanks.toList, isBlank c = true) → 1 ≤ p.year → p.year ≤ 999999999 →
      1 ≤ p.month → p.month ≤ 12 → 1 ≤ p.day → p.day ≤ 31 →
      ofText? (blanks ++ p.text ++ rest) = some p := by
  refine ⟨fun s p => read?_eq_some_iff, ?_⟩
  intro blanks p rest hblanks hyear hyear' hmonth hmonth' hday hday'
  have hrange : p.InRange := ⟨hyear, hmonth, hmonth', hday, hday'⟩
  have hlist : (blanks ++ p.text ++ rest).toList = blanks.toList ++ (p.chars ++ rest.toList) := by
    simp [text, String.toList_append, String.toList_ofList]
  rw [ofText?, hlist, read?_chars (by omega) (by omega) (by omega) hblanks, if_pos hrange]

/-- A day with two digits is read in front of a third one, and though the month has no such day. -/
theorem typed_date_is_read_before_digit :
    (∀ c ∈ "\u3000 ".toList, isBlank c = true) ∧
      ofText? ("\u3000 " ++ "0007-02-30" ++ "1x") = some ⟨7, 2, 30⟩ := by
  have hblanks : ∀ c ∈ "\u3000 ".toList, isBlank c = true :=
    List.all_eq_true.1 (by decide)
  have htext : (⟨7, 2, 30⟩ : DateParts).text = "0007-02-30" := by decide +kernel
  refine ⟨hblanks, ?_⟩
  rw [← htext]
  exact typed_date_is_read.2 "\u3000 " ⟨7, 2, 30⟩ "1x" hblanks (by decide) (by decide) (by decide)
    (by decide) (by decide) (by decide)

end DateParts

end DeskShell.Calendar
