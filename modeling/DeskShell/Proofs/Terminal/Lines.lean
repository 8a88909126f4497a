import DeskShell.Terminal.Input
import DeskShell.Proofs.Text.Blank
import DeskShell.Proofs.Text.Line

/-!
# Bytes and lines

The bytes of a text are the bytes of its characters one after the other (`encode`), and only the
line feed has the byte 10 among its bytes. So cutting bytes into lines and cutting characters into
lines is the same: a line that is typed holds no line feed (`newline_notMem_of_text?`), and the
lines that can be read off bytes are the lines of the text, where the bytes are a text
(`readableLines_encode`).
-/

set_option autoImplicit false

namespace DeskShell.Terminal

open Text

/-! ## The bytes of a text -/

/-- The bytes of characters in UTF-8. -/
def encode (cs : List Char) : List UInt8 := cs.flatMap String.utf8EncodeChar

@[simp]
theorem encode_append (cs ds : List Char) : encode (cs ++ ds) = encode cs ++ encode ds := by
  simp [encode]

theorem encode_cons_newline (cs : List Char) : encode ('\n' :: cs) = lineFeed :: encode cs := rfl

theorem encode_eq_nil_iff {cs : List Char} : encode cs = [] ↔ cs = [] := by
  constructor
  · intro h
    cases cs with
    | nil => rfl
    | cons c cs => simp [encode] at h
  · rintro rfl
    rfl

/-- Only the line feed has its byte among the bytes of its encoding. -/
theorem eq_newline_of_lineFeed_mem {c : Char} (h : lineFeed ∈ String.utf8EncodeChar c) :
    c = '\n' := by
  have hbyte : ∀ n : Nat, lineFeed = UInt8.ofNat n → n % 256 = 10 := fun n hn => by
    simpa [lineFeed] using (congrArg UInt8.toNat hn).symm
  apply Char.ext
  apply UInt32.toNat_inj.1
  show c.val.toNat = 10
  unfold String.utf8EncodeChar at h
  simp only at h
  -- the bytes of a longer encoding are all above 127
  split at h
  · have := hbyte _ (List.mem_singleton.1 h)
    omega
  · split at h
    · simp only [List.mem_cons, List.not_mem_nil, or_false] at h
      rcases h with h | h <;> have := hbyte _ h <;> omega
    · split at h
      · simp only [List.mem_cons, List.not_mem_nil, or_false] at h
        rcases h with h | h | h <;> have := hbyte _ h <;> omega
      · simp only [List.mem_cons, List.not_mem_nil, or_false] at h
        rcases h with h | h | h | h <;> have := hbyte _ h <;> omega

theorem lineFeed_notMem_encode {cs : List Char} (h : '\n' ∉ cs) : lineFeed ∉ encode cs := by
  intro hmem
  obtain ⟨c, hc, hbyte⟩ := List.mem_flatMap.1 hmem
  exact h (eq_newline_of_lineFeed_mem hbyte ▸ hc)

theorem data_toUTF8 (text : String) : text.toUTF8.data.toList = encode text.toList := by
  show text.toByteArray.data.toList = encode text.toList
  rw [← String.utf8Encode_toList]
  exact List.toList_data_toByteArray

theorem fromUTF8?_eq_some_iff {bytes : List UInt8} {text : String} :
    String.fromUTF8? ⟨bytes.toArray⟩ = some text ↔ encode text.toList = bytes := by
  unfold String.fromUTF8?
  constructor
  · intro h
    split at h
    · cases h
      exact (data_toUTF8 _).symm
    · cases h
  · rintro rfl
    have harray : (⟨(encode text.toList).toArray⟩ : ByteArray) = text.toByteArray := by
      rw [← data_toUTF8]
      rfl
    rw [harray, dif_pos text.isValidUTF8]
    rfl

/-! ## Raw lines -/

/-- The first line of bytes with a line feed goes up to it. -/
theorem rawLines_append_lineFeed {line : List UInt8} (h : lineFeed ∉ line) (rest : List UInt8) :
    rawLines (line ++ lineFeed :: rest) = (line ++ [lineFeed]) :: rawLines rest := by
  induction line with
  | nil => simp [rawLines]
  | cons b line ih =>
      have hb : b ≠ lineFeed := fun heq => h (by simp [heq])
      have hline : lineFeed ∉ line := fun hmem => h (List.mem_cons_of_mem _ hmem)
      rw [List.cons_append, rawLines, if_neg hb, ih hline]
      rfl

theorem rawLines_of_notMem {line : List UInt8} (h : lineFeed ∉ line) (hne : line ≠ []) :
    rawLines line = [line] := by
  induction line with
  | nil => exact absurd rfl hne
  | cons b line ih =>
      have hb : b ≠ lineFeed := fun heq => h (by simp [heq])
      have hline : lineFeed ∉ line := fun hmem => h (List.mem_cons_of_mem _ hmem)
      rw [rawLines, if_neg hb]
      cases line with
      | nil => rfl
      | cons c line => rw [ih hline (by simp)]

theorem bytes_cases (bytes : List UInt8) : lineFeed ∉ bytes ∨
    ∃ line rest, bytes = line ++ lineFeed :: rest ∧ lineFeed ∉ line := by
  by_cases h : lineFeed ∈ bytes
  · exact .inr (List.eq_append_cons_of_mem h)
  · exact .inl h

theorem lineFeed_notMem_dropLast {bytes : List UInt8} {raw : RawLine}
    (h : raw ∈ rawLines bytes) : lineFeed ∉ raw.dropLast := by
  induction hlength : bytes.length using Nat.strongRecOn generalizing bytes with
  | ind n ih =>
      rcases bytes_cases bytes with hnone | ⟨line, rest, rfl, hline⟩
      · by_cases hne : bytes = []
        · simp [hne, rawLines] at h
        · rw [rawLines_of_notMem hnone hne, List.mem_singleton] at h
          subst h
          exact fun hmem => hnone ((List.dropLast_sublist raw).subset hmem)
      · rw [rawLines_append_lineFeed hline, List.mem_cons] at h
        rcases h with rfl | h
        · simpa using hline
        · refine ih rest.length ?_ h rfl
          rw [← hlength, List.length_append, List.length_cons]
          omega

/-- **A line that is typed** holds no line feed and does not end in a carriage return. -/
theorem newline_notMem_of_text? {bytes : List UInt8} {raw : RawLine} {line : String}
    (hraw : raw ∈ rawLines bytes) (h : raw.text? = some line) :
    '\n' ∉ line.toList ∧ line.toList.getLast? ≠ some '\r' := by
  obtain ⟨text, htext, rfl⟩ := Option.map_eq_some_iff.1 h
  have hencode := fromUTF8?_eq_some_iff.1 htext
  obtain ⟨dropped, hsplit, hlast⟩ :=
    dropWhile_reverse_spec (fun c => c == '\n' || c == '\r') text.toList
  rw [String.toList_ofList]
  generalize (text.toList.reverse.dropWhile _).reverse = kept at hsplit hlast
  constructor
  · intro hmem
    obtain ⟨before, after, rfl⟩ := List.append_of_mem hmem
    -- the byte of this line feed is the last one of the line, so nothing stands behind it
    have hnone := lineFeed_notMem_dropLast hraw
    rw [← hencode, hsplit, List.append_assoc, List.cons_append, encode_append,
      encode_cons_newline] at hnone
    have hempty : after ++ dropped = [] := by
      by_cases hne : encode (after ++ dropped) = []
      · exact encode_eq_nil_iff.1 hne
      · rw [List.dropLast_append_of_ne_nil (by simp), List.dropLast_cons_of_ne_nil hne] at hnone
        simp at hnone
    have hafter : after = [] := (List.append_eq_nil_iff.1 hempty).1
    subst hafter
    exact absurd (hlast '\n' (by simp)) (by decide)
  · intro hreturn
    exact absurd (hlast '\r' hreturn) (by decide)

/-! ## Lines that can be read -/

/-- The lines of a text that can be read off bytes: those of the raw lines that are text. -/
def readableLines (bytes : List UInt8) : List (List Char) :=
  (rawLines bytes).flatMap fun raw =>
    match String.fromUTF8? ⟨raw.toArray⟩ with
    | some text => lines text.toList
    | none => []

/-- **Where bytes are a text, its lines can be read off them.** -/
theorem readableLines_encode (cs : List Char) : readableLines (encode cs) = lines cs := by
  have hread : ∀ ds : List Char, String.fromUTF8? ⟨(encode ds).toArray⟩ = some (String.ofList ds) :=
    fun ds => fromUTF8?_eq_some_iff.2 (by rw [String.toList_ofList])
  -- what stands behind the first line feed is shorter
  induction hlength : cs.length using Nat.strongRecOn generalizing cs with
  | ind n ih =>
      by_cases hmem : '\n' ∈ cs
      · obtain ⟨line, rest, rfl, hline⟩ := List.eq_append_cons_of_mem hmem
        have hrest : rest.length < n := by
          rw [← hlength, List.length_append, List.length_cons]
          omega
        have hfirst : encode line ++ [lineFeed] = encode (line ++ ['\n']) := by
          rw [encode_append]
          rfl
        rw [encode_append, encode_cons_newline, readableLines,
          rawLines_append_lineFeed (lineFeed_notMem_encode hline), List.flatMap_cons, hfirst,
          hread, lines_closed_append line rest, ← ih rest.length hrest rest rfl]
        simp only [String.toList_ofList]
        rfl
      · by_cases hne : cs = []
        · subst hne
          rfl
        · rw [readableLines, rawLines_of_notMem (lineFeed_notMem_encode hmem)
            (fun h => hne (encode_eq_nil_iff.1 h)), List.flatMap_singleton, hread]
          simp only [String.toList_ofList]

/-! ## Lines that are typed -/

def typedLine (line : String) : RawLine := encode line.toList ++ [lineFeed]

/-- The bytes of lines that are typed one after the other. -/
def typed (lines : List String) : List UInt8 := lines.flatMap typedLine

theorem rawLines_typed {lines : List String} (h : ∀ line ∈ lines, '\n' ∉ line.toList) :
    rawLines (typed lines) = lines.map typedLine := by
  induction lines with
  | nil => rfl
  | cons line lines ih =>
      have hline := lineFeed_notMem_encode (h line (List.mem_cons_self ..))
      rw [typed, List.flatMap_cons, typedLine, List.append_assoc, List.singleton_append,
        rawLines_append_lineFeed hline, List.map_cons, typedLine, ← typed,
        ih fun other hother => h other (List.mem_cons_of_mem _ hother)]

/-- The line feeds and carriage returns that are dropped at the end of a line are blanks. -/
theorem trim_dropLineEnd (cs : List Char) :
    trim (cs.reverse.dropWhile (fun c => c == '\n' || c == '\r')).reverse = trim cs := by
  have hdropped : cs = (cs.reverse.dropWhile (fun c => c == '\n' || c == '\r')).reverse
      ++ (cs.reverse.takeWhile (fun c => c == '\n' || c == '\r')).reverse := by
    rw [← List.reverse_append, List.takeWhile_append_dropWhile, List.reverse_reverse]
  conv_rhs => rw [hdropped]
  refine (trim_append_of_blank _ fun c hc => ?_).symm
  have hend := List.mem_takeWhile_imp (List.mem_reverse.1 hc)
  simp only [Bool.or_eq_true, beq_iff_eq] at hend
  rcases hend with rfl | rfl <;> rfl

/-- A typed line is heard as itself, up to blanks around it. -/
theorem text?_typedLine (line : String) :
    ∃ heard : String, (typedLine line).text? = some heard ∧
      trim heard.toList = trim line.toList := by
  have hbytes : typedLine line = encode (line.toList ++ ['\n']) := by
    rw [typedLine, encode_append]
    rfl
  have htext : String.fromUTF8? ⟨(typedLine line).toArray⟩
      = some (String.ofList (line.toList ++ ['\n'])) := by
    rw [fromUTF8?_eq_some_iff, hbytes, String.toList_ofList]
  refine ⟨_, by rw [RawLine.text?, htext]; rfl, ?_⟩
  rw [String.toList_ofList, String.toList_ofList, trim_dropLineEnd,
    trim_append_of_blank _ (by simp [isBlank])]

end DeskShell.Terminal
