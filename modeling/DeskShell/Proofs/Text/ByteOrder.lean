import DeskShell.Proofs.Terminal.Lines
import Mathlib.Algebra.Group.Nat.Defs

/-!
# The order of bytes

Texts are ordered by their characters, and that is the order of their bytes in UTF-8
(`encode_lt_encode`): of two characters, the one with the smaller number has the smaller byte at the
first place where their encodings differ (`utf8EncodeChar_append_lt`), since a longer encoding
starts with a greater byte.
-/

set_option autoImplicit false

namespace DeskShell.Text

open Terminal

/-- The first bytes decide, and where they are the same, the rest does. -/
theorem byte_cons_lt {m n : Nat} (hn : n < 256) {xs ys : List UInt8}
    (h : m < n ∨ m = n ∧ xs < ys) : UInt8.ofNat m :: xs < UInt8.ofNat n :: ys := by
  rw [List.cons_lt_cons_iff]
  rcases h with h | ⟨rfl, h⟩
  · refine .inl ?_
    rw [UInt8.lt_iff_toNat_lt, UInt8.toNat_ofNat', UInt8.toNat_ofNat']
    omega
  · exact .inr ⟨rfl, h⟩

/-- The last digits of a number to the base of 64, as the bytes behind the first one. -/
def continuation : Nat → Nat → List UInt8
  | 0, _ => []
  | k + 1, n => continuation k (n / 64) ++ [UInt8.ofNat (n % 64 + 128)]

/-- Of two numbers that are written with equally many bytes, the smaller one has the smaller bytes.
`lead` gives the first byte for what is left of a number in front of its last digits. -/
theorem continuation_append_lt {lead : Nat → Nat} (k : Nat) {m n : Nat} (h : m < n)
    (hlead : m / 64 ^ k < n / 64 ^ k → lead (m / 64 ^ k) < lead (n / 64 ^ k))
    (hn : lead (n / 64 ^ k) < 256) (xs ys : List UInt8) :
    UInt8.ofNat (lead (m / 64 ^ k)) :: (continuation k m ++ xs)
      < UInt8.ofNat (lead (n / 64 ^ k)) :: (continuation k n ++ ys) := by
  induction k generalizing m n xs ys with
  | zero =>
      simp only [Nat.pow_zero, Nat.div_one] at hlead hn ⊢
      exact byte_cons_lt hn (.inl (hlead h))
  | succ k ih =>
      have hdivide : ∀ v : Nat, v / 64 ^ (k + 1) = v / 64 / 64 ^ k := by
        intro v
        rw [Nat.div_div_eq_div_mul, Nat.pow_succ']
      simp only [continuation, hdivide, List.append_assoc, List.singleton_append] at hlead hn ⊢
      -- either the numbers differ in front of the last digit, or in the last digit alone
      have hdigits : m / 64 < n / 64 ∨ m / 64 = n / 64 ∧ m % 64 < n % 64 := by omega
      rcases hdigits with hfront | ⟨hfront, hlast⟩
      · exact ih hfront hlead hn _ _
      · rw [hfront]
        refine byte_cons_lt hn (.inr ⟨rfl, List.append_left_lt ?_⟩)
        exact byte_cons_lt (by omega) (.inl (by omega))

/-- The number of bytes behind the first one in the encoding of a character. -/
def behindFirst (n : Nat) : Nat :=
  if n ≤ 127 then 0 else if n ≤ 2047 then 1 else if n ≤ 65535 then 2 else 3

/-- The first byte of an encoding, from the number of bytes behind it and what is left of the number
of the character in front of their digits. -/
def lead : Nat → Nat → Nat
  | 0, front => front
  | 1, front => front % 32 + 192
  | 2, front => front % 16 + 224
  | _, front => front % 8 + 240

theorem utf8EncodeChar_eq (c : Char) :
    String.utf8EncodeChar c
      = UInt8.ofNat (lead (behindFirst c.val.toNat)
          (c.val.toNat / 64 ^ behindFirst c.val.toNat))
        :: continuation (behindFirst c.val.toNat) c.val.toNat := by
  unfold String.utf8EncodeChar behindFirst
  generalize c.val.toNat = n
  have hdivide : n / 4096 = n / 64 / 64 ∧ n / 262144 = n / 64 / 64 / 64 := by omega
  simp only
  split
  · simp [lead, continuation]
  · split
    · simp [lead, continuation]
    · split
      · simp [lead, continuation, hdivide]
      · simp [lead, continuation, hdivide]

theorem behindFirst_cases (n : Nat) :
    (behindFirst n = 0 ∧ n ≤ 127) ∨ (behindFirst n = 1 ∧ 127 < n ∧ n ≤ 2047) ∨
      (behindFirst n = 2 ∧ 2047 < n ∧ n ≤ 65535) ∨ (behindFirst n = 3 ∧ 65535 < n) := by
  unfold behindFirst
  split
  · omega
  · split
    · omega
    · split <;> omega

/-- A greater character starts with a greater byte if its encoding is longer, or if the numbers
differ in front of their last digits. -/
theorem lead_lt_lead {m n : Nat} (h : m < n) (hn : n < 1114112)
    (hdiffer : behindFirst m ≠ behindFirst n ∨
      m / 64 ^ behindFirst m < n / 64 ^ behindFirst n) :
    lead (behindFirst m) (m / 64 ^ behindFirst m)
      < lead (behindFirst n) (n / 64 ^ behindFirst n) := by
  rcases behindFirst_cases m with ⟨hm, hle⟩ | ⟨hm, hlt, hle⟩ | ⟨hm, hlt, hle⟩ | ⟨hm, hlt⟩ <;>
    rcases behindFirst_cases n with ⟨hn', hle'⟩ | ⟨hn', hlt', hle'⟩ | ⟨hn', hlt', hle'⟩ |
      ⟨hn', hlt'⟩ <;>
    simp only [hm, hn', lead] at hdiffer ⊢ <;> omega

theorem lead_lt {n : Nat} : lead (behindFirst n) (n / 64 ^ behindFirst n) < 256 := by
  rcases behindFirst_cases n with ⟨hn, hle⟩ | ⟨hn, hlt, hle⟩ | ⟨hn, hlt, hle⟩ | ⟨hn, hlt⟩ <;>
    simp only [hn, lead] <;> omega

/-- **A smaller character has the smaller bytes**, whatever follows. -/
theorem utf8EncodeChar_append_lt {c d : Char} (h : c.val.toNat < d.val.toNat)
    (xs ys : List UInt8) :
    String.utf8EncodeChar c ++ xs < String.utf8EncodeChar d ++ ys := by
  have hd : d.val.toNat < 1114112 := by
    rcases d.valid with hlow | ⟨-, hhigh⟩
    · exact Nat.lt_trans hlow (by decide)
    · exact hhigh
  have hlead := lead_lt_lead h hd
  have hbyte : lead _ _ < 256 := @lead_lt d.val.toNat
  rw [utf8EncodeChar_eq, utf8EncodeChar_eq, List.cons_append, List.cons_append]
  by_cases hlength : behindFirst c.val.toNat = behindFirst d.val.toNat
  · rw [hlength] at hlead ⊢
    exact continuation_append_lt _ h (fun hfront => hlead (.inr hfront)) hbyte xs ys
  · exact byte_cons_lt hbyte (.inl (hlead (.inl hlength)))

/-- **The order of texts is that of their bytes.** -/
theorem encode_lt_encode {cs ds : List Char} (h : cs < ds) : encode cs < encode ds := by
  induction cs generalizing ds with
  | nil =>
      cases ds with
      | nil => exact absurd h (List.lt_irrefl [])
      | cons d ds =>
          have hne : encode (d :: ds) ≠ [] := fun hnil => by simpa using encode_eq_nil_iff.1 hnil
          obtain ⟨b, bytes, hbytes⟩ := List.exists_cons_of_ne_nil hne
          rw [hbytes]
          exact List.nil_lt_cons b bytes
  | cons c cs ih =>
      cases ds with
      | nil => exact absurd h (List.not_lt_nil _)
      | cons d ds =>
          rcases List.cons_lt_cons_iff.1 h with hlt | ⟨rfl, hrest⟩
          · exact utf8EncodeChar_append_lt hlt (encode cs) (encode ds)
          · exact List.append_left_lt (ih hrest)

end DeskShell.Text
