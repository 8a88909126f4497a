import DeskShell.Proofs.Text.Blank
import DeskShell.Text.Numeral
import Mathlib.Algebra.Group.Nat.Defs

/-!
# Whole numbers

A text that is a whole number is digits behind an optional sign (`exists_digits_of_int?`). A padded
number is an optional minus and digits, with zeros in front where it is short (`zeroPadded_spec`),
and reads back as the number (`int?_zeroPadded`, `nat?_zeroPadded`).
-/

set_option autoImplicit false

namespace DeskShell.Text

/-! ## Signs and digits -/

theorem takeSign_cases (cs : List Char) :
    (∃ rest, cs = '-' :: rest ∧ takeSign cs = (true, rest)) ∨
      (∃ rest, cs = '+' :: rest ∧ takeSign cs = (false, rest)) ∨ takeSign cs = (false, cs) := by
  unfold takeSign
  split
  · next rest => exact .inl ⟨rest, rfl, rfl⟩
  · next rest => exact .inr (.inl ⟨rest, rfl, rfl⟩)
  · exact .inr (.inr rfl)

theorem exists_digits_of_int? {cs : List Char} {z : Int} (h : int? cs = some z) :
    ∃ d ds, (∀ c ∈ d :: ds, c.isDigit = true) ∧
      (cs = '-' :: d :: ds ∨ cs = '+' :: d :: ds ∨ cs = d :: ds) := by
  have hdigits : ∀ ds : List Char, (ds.isEmpty || !ds.all Char.isDigit) = false →
      ∃ d ds', ds = d :: ds' ∧ ∀ c ∈ d :: ds', c.isDigit = true := by
    intro ds hds
    simp only [Bool.or_eq_false_iff, Bool.not_eq_false', List.isEmpty_eq_false_iff,
      List.all_eq_true] at hds
    obtain ⟨d, ds', rfl⟩ := List.exists_cons_of_ne_nil hds.1
    exact ⟨d, ds', rfl, hds.2⟩
  unfold int? at h
  rcases takeSign_cases cs with ⟨rest, rfl, htake⟩ | ⟨rest, rfl, htake⟩ | htake
  all_goals
    rw [htake] at h
    simp only at h
    split at h
    · cases h
    · next hds =>
        obtain ⟨d, ds, rfl, hall⟩ := hdigits _ (by simpa using hds)
        exact ⟨d, ds, hall, by simp⟩

theorem isBlank_eq_false_of_isDigit {c : Char} (hc : c.isDigit = true) : isBlank c = false := by
  simp only [Char.isDigit, Bool.and_eq_true, decide_eq_true_eq, ge_iff_le] at hc
  have hlow : 0x30 ≤ c.toNat := hc.1
  have hhigh : c.toNat ≤ 0x39 := hc.2
  simp only [isBlank, Bool.or_eq_false_iff, Bool.and_eq_false_iff, decide_eq_false_iff_not,
    beq_eq_false_iff_ne]
  omega

theorem trimStart_of_int? {cs : List Char} {z : Int} (h : int? cs = some z) (rest : List Char) :
    trimStart (cs ++ rest) = cs ++ rest := by
  obtain ⟨d, ds, hds, hcs⟩ := exists_digits_of_int? h
  have hd := isBlank_eq_false_of_isDigit (hds d (by simp))
  refine dropWhile_of_head? fun c hc => ?_
  rcases hcs with rfl | rfl | rfl <;> cases hc
  · rfl
  · rfl
  · exact hd

theorem int?_of_nat? {cs : List Char} {n : Nat} (h : nat? cs = some n) :
    int? cs = some (n : Int) := by
  unfold nat? at h
  unfold int?
  cases htake : takeSign cs with
  | mk negative ds =>
      simp only [htake] at h ⊢
      split at h
      · cases h
      · next hds =>
          simp only [Bool.or_eq_true, not_or, Bool.not_eq_true] at hds
          obtain ⟨⟨hnegative, hempty⟩, hall⟩ := hds
          cases h
          simp [hnegative, hempty, hall]

/-! ## Padded numbers -/

theorem value_append_of_zeros (n : Nat) (ds : List Char) :
    value (List.replicate n '0' ++ ds) = value ds := by
  induction n with
  | zero => rfl
  | succ n ih =>
      rw [List.replicate_succ, List.cons_append, ← ih]
      rfl

/-- A padded number is a sign, where it is negative, and digits of its value. -/
theorem zeroPadded_spec (width : Nat) (z : Int) :
    ∃ ds, ds ≠ [] ∧ (∀ c ∈ ds, c.isDigit = true) ∧ value ds = z.natAbs ∧
      zeroPadded width z = if z < 0 then '-' :: ds else ds := by
  have hpadded : ∀ w, padStart w '0' (digits z.natAbs) ≠ [] ∧
      (∀ c ∈ padStart w '0' (digits z.natAbs), c.isDigit = true) ∧
      value (padStart w '0' (digits z.natAbs)) = z.natAbs := by
    intro w
    refine ⟨?_, ?_, ?_⟩
    · simp [padStart, digits_ne_nil]
    · intro c hc
      rcases List.mem_append.1 hc with hc | hc
      · rw [List.eq_of_mem_replicate hc]
        rfl
      · exact isDigit_of_mem_digits hc
    · rw [padStart, value_append_of_zeros, value_digits]
  by_cases hz : z < 0
  · obtain ⟨hne, hdigits, hvalue⟩ := hpadded (width - 1)
    exact ⟨_, hne, hdigits, hvalue, by rw [zeroPadded, if_pos hz, if_pos hz]⟩
  · obtain ⟨hne, hdigits, hvalue⟩ := hpadded width
    exact ⟨_, hne, hdigits, hvalue, by rw [zeroPadded, if_neg hz, if_neg hz]⟩

theorem takeSign_of_isDigit {c : Char} (hc : c.isDigit = true) (cs : List Char) :
    takeSign (c :: cs) = (false, c :: cs) := by
  unfold takeSign
  split
  · next heq =>
      cases heq
      exact absurd hc (by decide)
  · next heq =>
      cases heq
      exact absurd hc (by decide)
  · rfl

theorem takeSign_digits {ds : List Char} (hne : ds ≠ []) (hds : ∀ c ∈ ds, c.isDigit = true) :
    takeSign ds = (false, ds) := by
  cases ds with
  | nil => exact absurd rfl hne
  | cons c ds => exact takeSign_of_isDigit (hds c (by simp)) ds

theorem int?_zeroPadded (width : Nat) (z : Int) : int? (zeroPadded width z) = some z := by
  obtain ⟨ds, hne, hds, hvalue, hpadded⟩ := zeroPadded_spec width z
  have hall : ds.all Char.isDigit = true := List.all_eq_true.2 hds
  have hempty : ds.isEmpty = false := by simpa using hne
  rw [hpadded]
  by_cases hz : z < 0
  · have hneg : -(z.natAbs : Int) = z := by omega
    rw [if_pos hz]
    simp only [int?, takeSign, hempty, hall, hvalue, hneg]
    rfl
  · have hpos : (z.natAbs : Int) = z := by omega
    rw [if_neg hz]
    simp only [int?, takeSign_digits hne hds, hempty, hall, hvalue, hpos]
    rfl

theorem nat?_zeroPadded (width n : Nat) : nat? (zeroPadded width n) = some n := by
  obtain ⟨ds, hne, hds, hvalue, hpadded⟩ := zeroPadded_spec width n
  have hall : ds.all Char.isDigit = true := List.all_eq_true.2 hds
  have hempty : ds.isEmpty = false := by simpa using hne
  have hn : ¬ (n : Int) < 0 := by omega
  rw [hpadded, if_neg hn]
  simp only [nat?, takeSign_digits hne hds, hempty, hall, hvalue]
  simp

/-! ## Room for digits -/

theorem length_digits_le {n k : Nat} (h : n < 10 ^ (k + 1)) : (digits n).length ≤ k + 1 := by
  induction k generalizing n with
  | zero =>
      rw [digits, if_pos (by omega)]
      exact Nat.le_refl 1
  | succ k ih =>
      rw [digits]
      split
      · exact Nat.le_add_left 1 (k + 1)
      · have hfewer : n / 10 < 10 ^ (k + 1) := by
          rw [Nat.pow_succ] at h
          omega
        rw [List.length_append, List.length_singleton]
        exact Nat.succ_le_succ (ih hfewer)

theorem length_zeroPadded (width n : Nat) :
    (zeroPadded width n).length = max width (digits n).length := by
  rw [zeroPadded, if_neg (by omega), padStart, List.length_append, List.length_replicate,
    Int.natAbs_natCast]
  omega

theorem zeroPadded_nat_spec (width n : Nat) :
    zeroPadded width n ≠ [] ∧ (∀ c ∈ zeroPadded width n, c.isDigit = true) ∧
      value (zeroPadded width n) = n := by
  obtain ⟨ds, hne, hds, hvalue, hpadded⟩ := zeroPadded_spec width n
  rw [if_neg (by omega)] at hpadded
  rw [hpadded]
  exact ⟨hne, hds, hvalue⟩

end DeskShell.Text
