import DeskShell.Proofs.Expression.Ascii
import DeskShell.Proofs.Terminal.Lines

/-!
# The first fault of a text

A text is read up to its first fault (`Stop`), and what is at fault there can be seen in what
stands at that point: a point without a digit, a numeral that no double is near, a word that is no
name, a character that starts nothing (`FaultAt`). How long the text goes on, and whether it has
more faults or too many tokens behind that point, makes no difference (`tokenize_eq_error_iff`).

Positions count bytes, and a text is read by its characters: `Stop.isValid` says that every position
that is named lies between two characters. Up to that position all of them are ASCII
(`Stop.position_eq_length`), so reading byte by byte would come to the same point.
-/

set_option autoImplicit false

namespace DeskShell.Expression

open Text

/-! ## Faults that can be seen -/

/-- The words that mean something, in any case. -/
def IsName (word : String) : Prop :=
  sameLetters word "pi" = true ∨ ∃ f : Function, sameLetters word f.name = true

/-- The characters with which a lexeme that means something may start. -/
def StartsLexeme (c : Char) : Prop :=
  c.isDigit = true ∨ c = '.' ∨ isLetter c = true ∨ c = '!' ∨ c = '(' ∨ c = ')' ∨
    ∃ op : Operator, c = op.symbol

/-- What is at fault at the start of a text, whose byte offset is `p`. -/
inductive FaultAt (p : Nat) : List Char → Fault → Prop
  /-- A point without a digit behind it. -/
  | point {rest : List Char} (alone : ∀ c ∈ rest.head?, c.isDigit = false) :
      FaultAt p ('.' :: rest) (.invalidNumber p)
  /-- A numeral whose value is beyond all doubles. -/
  | numeral {cs : List Char} {n : Numeral} (longest : n.IsLongest cs)
      (infinite : n.value.isFinite = false) : FaultAt p cs (.numberOutOfRange p)
  /-- A longest run of letters that is no name. -/
  | word {letters rest : List Char} (ne_nil : letters ≠ [])
      (isLetter : ∀ c ∈ letters, isLetter c = true)
      (longest : ∀ c ∈ rest.head?, Text.isLetter c = false)
      (unknown : ¬ IsName (String.ofList letters)) :
      FaultAt p (letters ++ rest) (.unknownWord (lower (String.ofList letters)) p)
  /-- A character that starts nothing. -/
  | character {c : Char} {rest : List Char} (notBlank : isAsciiBlank c = false)
      (startsNone : ¬ StartsLexeme c) : FaultAt p (c :: rest) (.invalidCharacter c p)

theorem FaultAt.position {p : Nat} {cs : List Char} {fault : Fault} (h : FaultAt p cs fault) :
    fault.position? = some p := by
  cases h <;> rfl

theorem Function.ofName?_eq_none_iff {word : String} :
    ofName? word = none ↔ ∀ f : Function, word ≠ f.name := by
  constructor
  · rintro h f rfl
    rw [ofName?_name] at h
    cases h
  · intro h
    unfold ofName?
    split
    · exact absurd rfl (h .sin)
    · exact absurd rfl (h .cos)
    · exact absurd rfl (h .tan)
    · exact absurd rfl (h .log)
    · exact absurd rfl (h .sqrt)
    · rfl

theorem wordToken?_eq_none_iff {word : String} :
    wordToken? (lower word) = none ↔ ¬ IsName word := by
  have hpi : sameLetters word "pi" = true ↔ lower word = "pi" := sameLetters_iff
  have hname (f : Function) : sameLetters word f.name = true ↔ lower word = f.name := by
    have hsmall : lower f.name = f.name := by cases f <;> decide
    rw [sameLetters_iff, hsmall]
  rw [IsName, hpi, not_or, not_exists, wordToken?]
  simp only [hname]
  split
  · next heq => simp [heq]
  · next hne =>
      rw [Option.map_eq_none_iff, Function.ofName?_eq_none_iff]
      exact ⟨fun h => ⟨hne, h⟩, fun h => h.2⟩

theorem markToken?_eq_none_iff {c : Char} {afterOperand : Bool} (hdigit : c.isDigit = false)
    (hpoint : c ≠ '.') (hletter : isLetter c = false) :
    markToken? afterOperand c = none ↔ ¬ StartsLexeme c := by
  simp only [StartsLexeme, hdigit, hpoint, hletter, Bool.false_eq_true, false_or, not_or,
    not_exists]
  constructor
  · intro h
    refine ⟨?_, ?_, ?_, ?_⟩
    · rintro rfl
      cases h
    · rintro rfl
      cases h
    · rintro rfl
      cases h
    · rintro op rfl
      cases op <;> cases h
  · rintro ⟨hfactorial, hopening, hclosing, hop⟩
    unfold markToken?
    split
    · exact absurd rfl (hop .add)
    · exact absurd rfl (hop .sub)
    · exact absurd rfl (hop .mul)
    · exact absurd rfl (hop .div)
    · exact absurd rfl (hop .pow)
    · exact absurd rfl hfactorial
    · exact absurd rfl hopening
    · exact absurd rfl hclosing
    · rfl

section First

variable {c : Char} {rest : List Char} {afterOperand : Bool} {p : Nat} {fault : Fault}

theorem Numeral.IsLongest.start {n : Numeral} (h : n.IsLongest (c :: rest)) :
    c.isDigit = true ∨ c = '.' := by
  obtain ⟨rfl, hdigits⟩ := Numeral.isLongest_iff.1 h
  by_contra hnone
  rw [not_or, Bool.not_eq_true] at hnone
  simp [Numeral.read, Numeral.hasDigits, hnone.1, Numeral.readFraction_of_ne hnone.2] at hdigits

theorem takeWhile_isDigit_of_head? (h : ∀ d ∈ rest.head?, d.isDigit = false) :
    rest.takeWhile Char.isDigit = [] := by
  cases rest with
  | nil => rfl
  | cons d rest => simp [h d rfl]

/-- The kinds of faults by the character with which the text starts. -/
theorem FaultAt.cases (h : FaultAt p (c :: rest) fault) :
    (c = '.' ∧ rest.takeWhile Char.isDigit = [] ∧ fault = .invalidNumber p) ∨
    ((c.isDigit = true ∨ c = '.') ∧ (Numeral.read (c :: rest)).1.hasDigits = true ∧
      (Numeral.read (c :: rest)).1.value.isFinite = false ∧ fault = .numberOutOfRange p) ∨
    (isLetter c = true ∧ ¬ IsName (String.ofList (c :: rest.takeWhile isLetter)) ∧
      fault = .unknownWord (lower (String.ofList (c :: rest.takeWhile isLetter))) p) ∨
    (¬ StartsLexeme c ∧ fault = .invalidCharacter c p) := by
  generalize hcs : c :: rest = cs at h
  cases h with
  | point alone =>
      obtain ⟨rfl, rfl⟩ := List.cons.inj hcs
      exact .inl ⟨rfl, takeWhile_isDigit_of_head? alone, rfl⟩
  | numeral longest infinite =>
      have hstart := (hcs ▸ longest).start
      obtain ⟨rfl, hdigits⟩ := Numeral.isLongest_iff.1 longest
      exact .inr (.inl ⟨hstart, hdigits, infinite, rfl⟩)
  | @word letters behind ne_nil isLetter longest unknown =>
      obtain ⟨d, letters, rfl⟩ := List.exists_cons_of_ne_nil ne_nil
      rw [List.cons_append] at hcs
      obtain ⟨rfl, rfl⟩ := List.cons.inj hcs
      rw [List.forall_mem_cons] at isLetter
      have hrun : (letters ++ behind).takeWhile Text.isLetter = letters := by
        cases behind with
        | nil => rw [List.append_nil, List.takeWhile_eq_self_iff.2 isLetter.2]
        | cons b behind => exact takeWhile_run isLetter.2 (longest b rfl) behind
      rw [hrun]
      exact .inr (.inr (.inl ⟨isLetter.1, unknown, rfl⟩))
  | character notBlank startsNone =>
      obtain ⟨rfl, rfl⟩ := List.cons.inj hcs
      exact .inr (.inr (.inr ⟨startsNone, rfl⟩))

theorem faultAt_word (hletter : isLetter c = true)
    (h : ¬ IsName (String.ofList (c :: rest.takeWhile isLetter))) :
    FaultAt p (c :: rest)
      (.unknownWord (lower (String.ofList (c :: rest.takeWhile isLetter))) p) := by
  have hrun : c :: rest = (c :: rest.takeWhile isLetter) ++ rest.dropWhile isLetter := by
    rw [List.cons_append, List.takeWhile_append_dropWhile]
  have hletters : ∀ d ∈ c :: rest.takeWhile isLetter, isLetter d = true :=
    List.forall_mem_cons.2 ⟨hletter, List.all_eq_true.1 List.all_takeWhile⟩
  rw [hrun]
  refine .word (by simp) hletters (fun d hd => ?_) h
  have hhead := List.head?_dropWhile_not isLetter rest
  rw [Option.mem_def.1 hd] at hhead
  simpa using hhead

theorem faultAt_numeral (hstart : c.isDigit = true ∨ c = '.') :
    ((Numeral.read (c :: rest)).1.hasDigits = false → FaultAt p (c :: rest) (.invalidNumber p)) ∧
    ((Numeral.read (c :: rest)).1.hasDigits = true →
      (Numeral.read (c :: rest)).1.value.isFinite = false →
        FaultAt p (c :: rest) (.numberOutOfRange p)) := by
  refine ⟨fun hdigits => ?_, fun hdigits hinfinite =>
    .numeral (Numeral.isLongest_iff.2 ⟨rfl, hdigits⟩) hinfinite⟩
  -- only a point is read without a digit
  rcases hstart with hdigit | rfl
  · simp [Numeral.read, Numeral.hasDigits, hdigit] at hdigits
  · refine .point fun d hd => ?_
    obtain ⟨rest, rfl⟩ := List.head?_eq_some_iff.1 hd
    by_contra hdigit
    simp [Numeral.read, Numeral.hasDigits, Numeral.readFraction, hdigit] at hdigits

theorem Lexeme.next_of_digit_or_point (h : c.isDigit = true ∨ c = '.') :
    (next c rest).1 = numeral (Numeral.read (c :: rest)).1 := by
  have hstart : (c.isDigit || c == '.') = true := by simpa using h
  rw [next, if_pos hstart]

theorem FaultAt.of_meaning_next (hblank : isAsciiBlank c = false)
    (h : (Lexeme.next c rest).1.meaning afterOperand p = .error fault) :
    FaultAt p (c :: rest) fault := by
  unfold Lexeme.next at h
  split at h
  · next hstart =>
      have hstart' : c.isDigit = true ∨ c = '.' := by simpa using hstart
      obtain ⟨hnone, hlarge⟩ := @faultAt_numeral c rest p hstart'
      simp only [Lexeme.meaning] at h
      split at h
      · next hdigits =>
          cases h
          exact hnone (by simpa using hdigits)
      · next hdigits =>
          split at h
          · cases h
          · next hinfinite =>
              cases h
              exact hlarge (by simpa using hdigits) (by simpa using hinfinite)
  · next hstart =>
      obtain ⟨hdigit, hpoint⟩ : c.isDigit = false ∧ c ≠ '.' := by simpa using hstart
      split at h
      · next hletter =>
          simp only [Lexeme.meaning] at h
          split at h
          · cases h
          · next hunknown =>
              cases h
              exact faultAt_word hletter (wordToken?_eq_none_iff.1 hunknown)
      · next hletter =>
          simp only [Lexeme.meaning] at h
          split at h
          · cases h
          · next hnone =>
              cases h
              have hletter' : isLetter c = false := by simpa using hletter
              exact .character hblank ((markToken?_eq_none_iff hdigit hpoint hletter').1 hnone)

theorem FaultAt.meaning_next (h : FaultAt p (c :: rest) fault) :
    (Lexeme.next c rest).1.meaning afterOperand p = .error fault := by
  rcases h.cases with ⟨rfl, hnone, rfl⟩ | ⟨hstart, hdigits, hinfinite, rfl⟩ |
    ⟨hletter, hunknown, rfl⟩ | ⟨hnone, rfl⟩
  · rw [Lexeme.next_of_digit_or_point (.inr rfl)]
    simp [Lexeme.meaning, Numeral.read, Numeral.hasDigits, Numeral.readFraction, hnone]
  · rw [Lexeme.next_of_digit_or_point hstart]
    simp [Lexeme.meaning, hdigits, hinfinite]
  · have hword : (Lexeme.next c rest).1 = .word (c :: rest.takeWhile isLetter) := by
      simp [Lexeme.next, isDigit_of_isLetter hletter, ne_point_of_isLetter hletter, hletter]
    simp only [hword, Lexeme.meaning, wordToken?_eq_none_iff.2 hunknown]
  · have hclass := hnone
    simp only [StartsLexeme, not_or, Bool.not_eq_true] at hclass
    obtain ⟨hdigit, hpoint, hletter, -⟩ := hclass
    have hmark : markToken? afterOperand c = none :=
      (markToken?_eq_none_iff hdigit hpoint hletter).2 hnone
    simp [Lexeme.next, hdigit, hpoint, hletter, Lexeme.meaning, hmark]

/-- **What is at fault with a lexeme can be seen in the text that it starts.** -/
theorem Lexeme.meaning_next_eq_error_iff (hblank : isAsciiBlank c = false) :
    (next c rest).1.meaning afterOperand p = .error fault ↔ FaultAt p (c :: rest) fault :=
  ⟨.of_meaning_next hblank, fun h => h.meaning_next⟩

end First

/-! ## Where reading stops -/

/-- **The first lexeme that cannot be taken** is at fault itself, or it is one token too many. -/
theorem tokensOf_eq_error_iff {afterOperand : Bool} {room : Nat} {lexemes : List (Nat × Lexeme)}
    {fault : Fault} :
    tokensOf afterOperand room lexemes = .error fault ↔
      ∃ first x rest tokens, lexemes = first ++ x :: rest ∧
        tokensOf afterOperand room first = .ok tokens ∧
        (x.2.meaning (Token.lastEndsOperand afterOperand tokens) x.1 = .error fault ∨
          fault = .tooLong ∧ tokens.length = room ∧
            ∃ token, x.2.meaning (Token.lastEndsOperand afterOperand tokens) x.1
              = .ok (some token)) := by
  constructor
  · intro h
    fun_induction tokensOf afterOperand room lexemes with
    -- the fault is here, in cases 2 and 4, or in the rest, where the induction finds it
    | case1 => cases h
    | case2 afterOperand room position lexeme rest other hmeaning =>
        cases h
        exact ⟨[], (position, lexeme), rest, [], rfl, rfl, .inl hmeaning⟩
    | case3 afterOperand room position lexeme rest hmeaning ih =>
        obtain ⟨first, x, behind, tokens, rfl, hfirst, hx⟩ := ih h
        refine ⟨(position, lexeme) :: first, x, behind, tokens, rfl, ?_, hx⟩
        rw [tokensOf, hmeaning]
        exact hfirst
    | case4 afterOperand position lexeme rest token hmeaning =>
        cases h
        exact ⟨[], (position, lexeme), rest, [], rfl, rfl, .inr ⟨rfl, rfl, token, hmeaning⟩⟩
    | case5 afterOperand position lexeme rest token hmeaning room ih =>
        obtain ⟨first, x, behind, tokens, rfl, hfirst, hx⟩ := ih (map_eq_error h)
        refine ⟨(position, lexeme) :: first, x, behind, token :: tokens, rfl, ?_, ?_⟩
        · rw [tokensOf_cons_of_meaning hmeaning, hfirst]
          rfl
        · rw [Token.lastEndsOperand_cons, List.length_cons, Nat.succ_inj]
          exact hx
  · rintro ⟨first, ⟨position, lexeme⟩, rest, tokens, rfl, hfirst, hx⟩
    rw [tokensOf_append, hfirst]
    show (tokensOf _ (room - tokens.length) _).map _ = _
    rcases hx with hfault | ⟨rfl, hlength, token, hmeaning⟩
    · rw [tokensOf, hfault]
      rfl
    · rw [hlength, Nat.sub_self, tokensOf, hmeaning]
      rfl

/-- What a lexeme is read from starts with a character that is not blank. -/
theorem Lexeme.next_of_scan {c : Char} {behind : List Char} {p : Nat} {l : Lexeme}
    {more : List (Nat × Lexeme)} (h : scan p (c :: behind) = (p, l) :: more) :
    isAsciiBlank c = false ∧ l = (next c behind).1 := by
  cases hblank : isAsciiBlank c with
  | true =>
      rw [scan_blank hblank] at h
      have hle := le_of_mem_scan (h ▸ List.mem_cons_self : (p, l) ∈ scan (p + 1) behind)
      simp only at hle
      omega
  | false =>
      rw [scan_cons hblank] at h
      exact ⟨rfl, (congrArg Prod.snd (List.cons.inj h).1).symm⟩

/-- A text falls apart in front of each of its lexemes. -/
theorem Lexeme.split_of_scan {cs : List Char} {first rest : List (Nat × Lexeme)} {x : Nat × Lexeme}
    (h : scan 0 cs = first ++ x :: rest) :
    ∃ before c behind, cs = before ++ c :: behind ∧ isAsciiBlank c = false ∧
      Apart 0 before (c :: behind) ∧ scan 0 before = first ∧
      x = (byteCount before, (next c behind).1) := by
  have hmem : x ∈ scan 0 cs := by simp [h]
  obtain ⟨before, after, rfl, hposition, hspelled, hapart, hscan⟩ := exists_of_mem_scan hmem
  obtain ⟨c, behind, hcs⟩ := List.exists_cons_of_ne_nil
    (List.append_ne_nil_of_left_ne_nil hspelled after)
  obtain ⟨p, l⟩ := x
  rw [Nat.zero_add] at hposition
  simp only at hposition hspelled hscan hcs
  subst hposition
  -- the lexeme stands at one place only
  have hbefore : (byteCount before, l) ∉ scan 0 before := fun hx => by
    have hlt := lt_of_mem_scan hx
    simp only at hlt
    omega
  have hafter : (byteCount before, l) ∉ scan (byteCount before + l.size) after := fun hx => by
    have hle := le_of_mem_scan hx
    have hpos : 0 < l.size := byteCount_pos hspelled
    simp only at hle
    omega
  have hwhole := h.symm.trans (scan_append hapart)
  rw [Nat.zero_add, hscan] at hwhole
  obtain ⟨hfirst, -, -⟩ := (List.append_cons_inj_of_notMem hbefore hafter).1 hwhole.symm
  rw [hcs] at hscan hapart ⊢
  obtain ⟨hblank, hnext⟩ := next_of_scan (hscan (byteCount before))
  exact ⟨before, c, behind, rfl, hblank, hapart, hfirst, by rw [hnext]⟩

/-- A point of a text up to which it has been read, in front of its next lexeme. -/
structure Stop (source : String) where
  /-- The text in front of the point. -/
  before : String
  /-- The tokens of that text. -/
  tokens : List Token
  next : Char
  behind : List Char
  text : source.toList = before.toList ++ next :: behind
  /-- No lexeme runs over the point. -/
  apart : Apart 0 before.toList (next :: behind)
  read : tokenize before = .ok tokens
  notBlank : isAsciiBlank next = false

namespace Stop

variable {source : String}

def position (s : Stop source) : Nat := s.before.utf8ByteSize

def after (s : Stop source) : List Char := s.next :: s.behind

def lexeme (s : Stop source) : Lexeme := (Lexeme.next s.next s.behind).1

theorem position_eq (s : Stop source) : s.position = byteCount s.before.toList := by
  rw [position, ← utf8ByteSize_ofList, String.ofList_toList]

/-- Whether all the tokens that there may be have been read, and one more follows. -/
def IsFull (s : Stop source) : Prop :=
  s.tokens.length = 128 ∧ ∃ token,
    s.lexeme.meaning (Token.lastEndsOperand false s.tokens) s.position = .ok (some token)

end Stop

theorem tokenize_eq_error_iff {source : String} {fault : Fault} :
    tokenize source = .error fault ↔ ∃ s : Stop source,
      FaultAt s.position s.after fault ∨ fault = .tooLong ∧ s.IsFull := by
  rw [tokenize, tokensOf_eq_error_iff]
  constructor
  · rintro ⟨first, x, rest, tokens, hscan, hfirst, hx⟩
    obtain ⟨before, c, behind, hcs, hblank, hapart, rfl, rfl⟩ := Lexeme.split_of_scan hscan
    let s : Stop source :=
      { before := String.ofList before
        tokens
        next := c
        behind
        text := by rw [hcs, String.toList_ofList]
        apart := by rwa [String.toList_ofList]
        read := by rwa [tokenize, String.toList_ofList]
        notBlank := hblank }
    have hposition : s.position = byteCount before := utf8ByteSize_ofList before
    refine ⟨s, hx.imp (fun hfault => ?_) fun hfull => ?_⟩
    · rw [hposition]
      exact (Lexeme.meaning_next_eq_error_iff hblank).1 hfault
    · obtain ⟨hfault, hlength, htoken⟩ := hfull
      rw [← hposition] at htoken
      exact ⟨hfault, hlength, htoken⟩
  · rintro ⟨s, hs⟩
    have hscan := Lexeme.scan_append s.apart
    rw [← s.text, Lexeme.scan_cons s.notBlank, Nat.zero_add, ← s.position_eq] at hscan
    refine ⟨_, _, _, s.tokens, hscan, s.read, hs.imp (fun hfault => ?_) id⟩
    exact (Lexeme.meaning_next_eq_error_iff s.notBlank).2 hfault

/-! ## Positions -/

/-- A position in front of whose bytes whole characters stand lies between two characters. -/
theorem isValid_of_toList {source : String} {first second : List Char}
    (h : source.toList = first ++ second) :
    (⟨byteCount first⟩ : String.Pos.Raw).IsValid source := by
  rw [String.Pos.Raw.isValid_iff_exists_append]
  refine ⟨String.ofList first, String.ofList second, ?_, ?_⟩
  · rw [← String.ofList_append, ← h, String.ofList_toList]
  · apply String.Pos.Raw.ext
    exact (utf8ByteSize_ofList first).symm

/-- A lexeme starts and ends between two characters, only a mark may be other than ASCII, and a
numeral with a digit is a proper one. -/
theorem Lexeme.isValid_of_mem_scan {source : String} {x : Nat × Lexeme}
    (h : x ∈ scan 0 source.toList) :
    (⟨x.1⟩ : String.Pos.Raw).IsValid source ∧ (⟨x.1 + x.2.size⟩ : String.Pos.Raw).IsValid source ∧
      ((∃ c, x.2 = mark c) ∨ ∀ c ∈ x.2.text, c.toNat < 128) ∧
      ∀ n, x.2 = numeral n → n.hasDigits = true → n.Proper := by
  obtain ⟨first, rest, hscan⟩ := List.append_of_mem h
  obtain ⟨before, c, behind, hcs, -, -, -, rfl⟩ := split_of_scan hscan
  refine ⟨isValid_of_toList hcs, ?_, mark_or_ascii_next c behind, fun n hn hdigits => ?_⟩
  · have htext : source.toList = (before ++ (next c behind).1.text) ++ (next c behind).2 := by
      rw [List.append_assoc, next_text, hcs]
    have hvalid := isValid_of_toList htext
    rwa [byteCount_append] at hvalid
  · simp only [next] at hn
    split at hn
    · cases hn
      exact Numeral.proper_read hdigits
    · split at hn <;> cases hn

theorem length_encode (cs : List Char) : (Terminal.encode cs).length = byteCount cs := by
  induction cs with
  | nil => rfl
  | cons c cs ih =>
      have hsplit : Terminal.encode (c :: cs) = String.utf8EncodeChar c ++ Terminal.encode cs := rfl
      rw [hsplit, List.length_append, String.length_utf8EncodeChar, ih, byteCount]

def blankBytes : List UInt8 := [0x20, 0x09, 0x0A, 0x0C, 0x0D]

theorem mod_of_mem_blankBytes {n : Nat} (h : UInt8.ofNat n ∈ blankBytes) :
    n % 256 = 32 ∨ n % 256 = 9 ∨ n % 256 = 10 ∨ n % 256 = 12 ∨ n % 256 = 13 := by
  simpa [blankBytes, ← UInt8.toNat_inj] using h

theorem isAsciiBlank_of_toNat {c : Char}
    (h : c.toNat = 32 ∨ c.toNat = 9 ∨ c.toNat = 10 ∨ c.toNat = 12 ∨ c.toNat = 13) :
    isAsciiBlank c = true := by
  rw [← Char.ofNat_toNat c]
  rcases h with h | h | h | h | h <;> rw [h] <;> rfl

/-- The first byte of a character that is no blank is not the byte of one. -/
theorem exists_firstByte {c : Char} (h : isAsciiBlank c = false) :
    ∃ b bytes, String.utf8EncodeChar c = b :: bytes ∧ b ∉ blankBytes := by
  have hcode : c.val.toNat = c.toNat := rfl
  simp only [String.utf8EncodeChar, hcode]
  split
  · next hascii =>
      refine ⟨_, _, rfl, fun hb => ?_⟩
      have hmod := mod_of_mem_blankBytes hb
      rw [Nat.mod_eq_of_lt (by omega)] at hmod
      rw [isAsciiBlank_of_toNat hmod] at h
      cases h
  -- the first byte of a longer encoding is at least 192
  · split
    · refine ⟨_, _, rfl, fun hb => ?_⟩
      have hmod := mod_of_mem_blankBytes hb
      omega
    · split
      · refine ⟨_, _, rfl, fun hb => ?_⟩
        have hmod := mod_of_mem_blankBytes hb
        omega
      · refine ⟨_, _, rfl, fun hb => ?_⟩
        have hmod := mod_of_mem_blankBytes hb
        omega

namespace Stop

variable {source : String} (s : Stop source)

theorem isValid : (⟨s.position⟩ : String.Pos.Raw).IsValid source := by
  rw [s.position_eq]
  exact isValid_of_toList s.text

theorem exists_byte : ∃ b, source.toUTF8.data[s.position]? = some b ∧ b ∉ blankBytes := by
  obtain ⟨b, bytes, hbytes, hblank⟩ := exists_firstByte s.notBlank
  refine ⟨b, ?_, hblank⟩
  have hencode : source.toUTF8.data.toList
      = Terminal.encode s.before.toList ++ (b :: (bytes ++ Terminal.encode s.behind)) := by
    calc source.toUTF8.data.toList
        = Terminal.encode (s.before.toList ++ s.next :: s.behind) := by
          rw [Terminal.data_toUTF8, s.text]
      _ = Terminal.encode s.before.toList
          ++ (String.utf8EncodeChar s.next ++ Terminal.encode s.behind) :=
          Terminal.encode_append _ _
      _ = _ := by rw [hbytes, List.cons_append]
  rw [← Array.getElem?_toList, hencode, s.position_eq, ← length_encode, List.getElem?_append_right
    (Nat.le_refl _), Nat.sub_self, List.getElem?_cons_zero]

theorem position_eq_length : s.position = s.before.toList.length := by
  rw [s.position_eq, byteCount_of_ascii (ascii_of_tokenize s.read)]

theorem position_lt : s.position < source.utf8ByteSize := by
  have hsize : source.utf8ByteSize = byteCount source.toList := by
    rw [← utf8ByteSize_ofList, String.ofList_toList]
  have hpos := s.next.utf8Size_pos
  rw [hsize, s.text, byteCount_append, byteCount, s.position_eq]
  omega

end Stop

/-- **A text is read up to its first fault.** A lexical fault is reported at a position exactly if
the text in front of that position can be read, no lexeme runs over it, and what stands there is at
fault by itself. A text is too long exactly if some first part of it has all the tokens that there
may be and the next lexeme, which is not at fault, stands for one more. All these positions are
smaller than the number of bytes, lie between two characters, and do not hold a blank; in front of
them each character is ASCII and so a single byte. All lexemes start and end between two characters,
a numeral or a word is ASCII, and a numeral that has a digit is spelled as a decimal number, so that
it has a value. -/
theorem tokenize_firstFault (source : String) :
    (∀ fault p, fault.position? = some p → (tokenize source = .error fault ↔
      ∃ s : Stop source, s.position = p ∧ FaultAt p s.after fault)) ∧
    (∀ fault, fault.phase = .capacity → (tokenize source = .error fault ↔
      fault = .tooLong ∧ ∃ s : Stop source, s.IsFull)) ∧
    (∀ s : Stop source, s.position < source.utf8ByteSize ∧
      (⟨s.position⟩ : String.Pos.Raw).IsValid source ∧
      (∃ b, source.toUTF8.data[s.position]? = some b ∧ b ∉ blankBytes) ∧
      (∀ c ∈ s.before.toList, c.toNat < 128) ∧ s.position = s.before.toList.length) ∧
    ∀ x ∈ Lexeme.scan 0 source.toList,
      (⟨x.1⟩ : String.Pos.Raw).IsValid source ∧
      (⟨x.1 + x.2.size⟩ : String.Pos.Raw).IsValid source ∧
      ((∃ c, x.2 = .mark c) ∨ ∀ c ∈ x.2.text, c.toNat < 128) ∧
      ∀ n, x.2 = .numeral n → n.hasDigits = true → n.Proper := by
  refine ⟨fun fault p hp => ?_, fun fault hphase => ?_,
    fun s => ⟨s.position_lt, s.isValid, s.exists_byte, ascii_of_tokenize s.read,
      s.position_eq_length⟩,
    fun x hx => Lexeme.isValid_of_mem_scan hx⟩
  · rw [tokenize_eq_error_iff]
    constructor
    · rintro ⟨s, hfault | ⟨rfl, -⟩⟩
      · have hposition : s.position = p := Option.some.inj (hfault.position.symm.trans hp)
        exact ⟨s, hposition, hposition ▸ hfault⟩
      · cases hp
    · rintro ⟨s, rfl, hfault⟩
      exact ⟨s, .inl hfault⟩
  · rw [tokenize_eq_error_iff]
    constructor
    · rintro ⟨s, hfault | ⟨hlong, hfull⟩⟩
      · have hlexical := (fault.position?_isSome_iff).1 (by rw [hfault.position]; rfl)
        rw [hphase] at hlexical
        cases hlexical
      · exact ⟨hlong, s, hfull⟩
    · rintro ⟨hlong, s, hfull⟩
      exact ⟨s, .inr ⟨hlong, hfull⟩⟩

/-- Texts with more than one fault: a numeral that is too large in front of other faults, the letter
of an exponent that is none, and a character that is reached only behind the bound. -/
theorem tokenize_firstFault_of_several :
    let large := "2*1e999#.é"
    let marker := "2e+é"
    let long := String.ofList (List.replicate 129 '(' ++ ['é'])
    tokenize large = .error (.numberOutOfRange 2) ∧
      (∃ s : Stop large, s.position = 2 ∧ FaultAt 2 s.after (.numberOutOfRange 2)) ∧
    tokenize marker = .error (.unknownWord "e" 1) ∧
      (∃ s : Stop marker, s.position = 1 ∧ FaultAt 1 s.after (.unknownWord "e" 1)) ∧
    tokenize long = .error .tooLong ∧ ∃ s : Stop long, s.IsFull := by
  intro large marker long
  have hlarge : tokenize large = .error (.numberOutOfRange 2) := by decide +kernel
  have hmarker : tokenize marker = .error (.unknownWord "e" 1) := by decide +kernel
  have hlong : tokenize long = .error .tooLong := by decide +kernel
  exact ⟨hlarge, ((tokenize_firstFault large).1 _ 2 rfl).1 hlarge,
    hmarker, ((tokenize_firstFault marker).1 _ 1 rfl).1 hmarker,
    hlong, (((tokenize_firstFault long).2.1 _ rfl).1 hlong).2⟩

end DeskShell.Expression
