import DeskShell.Packages.Registry
import DeskShell.Proofs.Files.Writing
import DeskShell.Proofs.Terminal.Lines

/-!
# Names as lines of text

A name stands on a line as what is left of the line without the blanks around it (`nameOf?`), and a
name without blanks around it and without line feeds comes back from its own line
(`standing_toText`). Reading a text keeps the first spelling of each name, so all names of its
lines are there afterwards up to case (`contains_ofText`).
-/

set_option autoImplicit false

namespace DeskShell.Packages

open Text Terminal Files

/-! ## Names on lines -/

def nameOf? (line : List Char) : Option String :=
  if (trim line).isEmpty then none else some (String.ofList (trim line))

/-- Whether a name can stand on a line of its own. -/
structure IsName (name : String) : Prop where
  ne_nil : name.toList ≠ []
  trim_eq : trim name.toList = name.toList
  newline_notMem : '\n' ∉ name.toList

theorem isName_of_nameOf? {line : List Char} {name : String} (hline : '\n' ∉ line)
    (h : nameOf? line = some name) : IsName name := by
  unfold nameOf? at h
  split at h
  · cases h
  · next hne =>
      cases h
      have htoList : (String.ofList (trim line)).toList = trim line := String.toList_ofList
      refine ⟨?_, ?_, ?_⟩
      · rw [htoList]
        simpa using hne
      · rw [htoList, trim_trim]
      · rw [htoList]
        exact fun hmem => hline ((trim_spec line).1.subset hmem)

theorem IsName.nameOf?_toList {name : String} (h : IsName name) :
    nameOf? name.toList = some name := by
  have hne : (trim name.toList).isEmpty = false := by simpa [h.trim_eq] using h.ne_nil
  rw [nameOf?, hne, h.trim_eq, String.ofList_toList]
  rfl

/-- The line of a name is the name: it does not end in a carriage return. -/
theorem IsName.dropReturn_toList {name : String} (h : IsName name) :
    dropReturn name.toList = name.toList := by
  have hlast : name.toList.getLast? ≠ some '\r' := by
    intro hreturn
    have hblank := (trim_spec name.toList).2.2 '\r' (by rw [h.trim_eq]; exact hreturn)
    exact absurd hblank (by decide)
  rw [dropReturn, if_neg hlast]

namespace Registry

/-! ## Reading -/

theorem enter_eq (r : Registry) (line : List Char) :
    r.enter line = match nameOf? line with
      | none => r
      | some name => if r.contains name then r else ⟨r.names ++ [name], false⟩ := by
  unfold enter nameOf? install?
  by_cases hblank : (trim line).isEmpty = true
  · simp [hblank]
  · by_cases hthere : r.contains (String.ofList (trim line)) = true
    · simp [hblank, hthere]
    · simp [hblank, hthere]

theorem contains_of_mem {r : Registry} {name : String} (h : name ∈ r.names) :
    r.contains name = true :=
  List.any_eq_true.2 ⟨name, h, sameLetters_iff.2 rfl⟩

/-- A line only adds names, and only its own. -/
theorem names_enter (r : Registry) (line : List Char) :
    r.names <+: (r.enter line).names ∧
      ∀ name ∈ (r.enter line).names, name ∈ r.names ∨ nameOf? line = some name := by
  rw [enter_eq]
  cases hname : nameOf? line with
  | none => exact ⟨List.prefix_refl _, fun name h => .inl h⟩
  | some own =>
      simp only
      split
      · exact ⟨List.prefix_refl _, fun name h => .inl h⟩
      · refine ⟨List.prefix_append _ _, fun name h => ?_⟩
        rcases List.mem_append.1 h with h | h
        · exact .inl h
        · rw [List.mem_singleton.1 h]
          exact .inr rfl

theorem contains_enter {r : Registry} {line : List Char} {name : String}
    (h : nameOf? line = some name) : (r.enter line).contains name = true := by
  rw [enter_eq, h]
  by_cases hcontains : r.contains name = true
  · simp [hcontains]
  · simp only [if_neg hcontains]
    exact contains_of_mem (by simp)

theorem contains_mono {r r' : Registry} (h : r.names <+: r'.names) {name : String}
    (hname : r.contains name = true) : r'.contains name = true := by
  obtain ⟨own, hown, hsame⟩ := List.any_eq_true.1 hname
  exact List.any_eq_true.2 ⟨own, h.subset hown, hsame⟩

/-- The names that are there after lines have been entered: those before, first, and the names of
the lines. -/
theorem names_foldl_enter (ls : List (List Char)) (r : Registry) :
    r.names <+: (ls.foldl enter r).names ∧
      (∀ name ∈ (ls.foldl enter r).names, name ∈ r.names ∨ name ∈ ls.filterMap nameOf?) ∧
      ∀ name ∈ ls.filterMap nameOf?, (ls.foldl enter r).contains name = true := by
  induction ls generalizing r with
  | nil => exact ⟨List.prefix_refl _, fun name h => .inl h, fun name h => by cases h⟩
  | cons line ls ih =>
      -- the other lines are entered into what the first one leaves
      obtain ⟨hbegins, hmem, hcontains⟩ := ih (r.enter line)
      obtain ⟨hbegins', hmem'⟩ := names_enter r line
      refine ⟨hbegins'.trans hbegins, fun name h => ?_, fun name h => ?_⟩
      · rcases hmem name h with h | h
        · rcases hmem' name h with h | h
          · exact .inl h
          · exact .inr (List.mem_filterMap.2 ⟨line, by simp, h⟩)
        · obtain ⟨line', hline', h⟩ := List.mem_filterMap.1 h
          exact .inr (List.mem_filterMap.2 ⟨line', List.mem_cons_of_mem _ hline', h⟩)
      · obtain ⟨line', hline', hname⟩ := List.mem_filterMap.1 h
        rcases List.mem_cons.1 hline' with rfl | hline'
        · exact contains_mono hbegins (contains_enter hname)
        · exact hcontains name (List.mem_filterMap.2 ⟨line', hline', hname⟩)

theorem isName_of_mem_ofText {text name : String} (h : name ∈ (ofText text).names) :
    IsName name := by
  rcases (names_foldl_enter (lines text.toList) {}).2.1 name h with h | h
  · cases h
  · obtain ⟨line, hline, hname⟩ := List.mem_filterMap.1 h
    exact isName_of_nameOf? (newline_notMem_of_mem_lines hline) hname

theorem contains_ofText {text name : String} (h : name ∈ (lines text.toList).filterMap nameOf?) :
    (ofText text).contains name = true :=
  (names_foldl_enter (lines text.toList) {}).2.2 name h

/-! ## Writing -/

theorem lines_toText (r : Registry) :
    lines r.toText.toList = r.names.flatMap fun name => lines (name.toList ++ ['\n']) := by
  obtain ⟨names, dirty⟩ := r
  rw [toText, String.toList_join, List.flatMap_map]
  induction names with
  | nil => rfl
  | cons name names ih =>
      have hname : (name ++ "\n").toList = name.toList ++ ['\n'] := by simp
      rw [List.flatMap_cons, List.flatMap_cons, hname, List.append_assoc, List.singleton_append,
        lines_closed_append, ih]

end Registry

/-! ## Names in a file -/

/-- The names that stand on the lines of a file, whatever its other lines hold. -/
def standing (bytes : ByteArray) : List String :=
  (readableLines bytes.data.toList).filterMap nameOf?

theorem standing_of_text {bytes : ByteArray} {text : String}
    (h : String.fromUTF8? bytes = some text) :
    standing bytes = (lines text.toList).filterMap nameOf? := by
  have hencode : encode text.toList = bytes.data.toList := fromUTF8?_eq_some_iff.1 h
  rw [standing, ← hencode, readableLines_encode]

/-- **A name that is written stands in the file**, whatever the other names are. -/
theorem mem_standing_toText {r : Registry} {name : String} (h : IsName name)
    (hmem : name ∈ r.names) : name ∈ standing r.toText.toUTF8 := by
  have hline : lines (name.toList ++ ['\n']) = [name.toList] := by
    rw [lines_append_newline _ _ h.newline_notMem, h.dropReturn_toList]
    rfl
  rw [standing_of_text (fromUTF8?_toUTF8 _), Registry.lines_toText]
  refine List.mem_filterMap.2 ⟨name.toList, ?_, h.nameOf?_toList⟩
  exact List.mem_flatMap.2 ⟨name, hmem, by rw [hline]; exact List.mem_singleton_self _⟩

end DeskShell.Packages
