import DeskShell.Proofs.Packages.Changes

/-!
# Registries that can be stored

A registry comes back from its file name by name if each name can stand on a line of its own and no
two names are one package (`Registry.Storable`, `Registry.names_ofText_toText`). Every registry that
is read is of this kind, and a change keeps it so, unless it installs a name with a line feed in it
(`Registry.Storable.apply`). Only a call can hold such a name; a typed line cannot.
-/

set_option autoImplicit false

namespace DeskShell.Packages

open Text Terminal Files

/-! ## Names of changes -/

/-- **The name in a change**: it has no blanks around it, stands in the line, and is installed only
if it was not there, and removed only if it was. -/
theorem change?_eq_some {r : Registry} {line : String} {change : Change}
    (h : change? r line = some change) :
    ∃ name : String, name.toList ≠ [] ∧ trim name.toList = name.toList ∧
      (∀ c ∈ name.toList, c ∈ line.toList) ∧
      (change = .installed name ∧ r.contains name = false ∨
        change = .removed name ∧ r.contains name = true) := by
  -- the name is cut out of the line, so a line feed in it would be one in the line
  have hin : ∀ c ∈ trim (firstWord (trim line.toList)).2, c ∈ line.toList := by
    intro c hc
    have hrest := (trim_spec (firstWord (trim line.toList)).2).1.subset hc
    have hline := (List.dropWhile_suffix _).subset ((List.drop_suffix 1 _).subset hrest)
    exact (trim_spec line.toList).1.subset hline
  unfold change? at h
  generalize firstWord (trim line.toList) = cut at h hin
  obtain ⟨word, rest⟩ := cut
  simp only at h hin
  by_cases hname : String.ofList (trim rest) = ""
  · simp [hname] at h
  · rw [if_neg hname] at h
    have htoList : (String.ofList (trim rest)).toList = trim rest := String.toList_ofList
    refine ⟨String.ofList (trim rest), ?_, ?_, ?_, ?_⟩
    · rw [htoList]
      intro hnil
      exact hname (by rw [hnil])
    · rw [htoList, trim_trim]
    · rw [htoList]
      exact hin
    · split at h
      · split at h
        · cases h
        · next hthere =>
            cases h
            exact .inl ⟨rfl, by simpa using hthere⟩
      · split at h
        · next hthere =>
            cases h
            exact .inr ⟨rfl, hthere⟩
        · cases h
      · cases h

namespace Registry

/-! ## Distinct names -/

/-- Whether no two names are one package. -/
def Distinct (r : Registry) : Prop := r.names.Pairwise fun a b => sameLetters a b = false

theorem contains_eq_false_iff {r : Registry} {name : String} :
    r.contains name = false ↔ ∀ own ∈ r.names, sameLetters own name = false := by
  simp [contains]

theorem Distinct.concat {r : Registry} (h : r.Distinct) {name : String}
    (hname : r.contains name = false) (dirty : Bool) :
    Distinct ⟨r.names ++ [name], dirty⟩ := by
  refine List.pairwise_append.2 ⟨h, List.pairwise_singleton _ _, ?_⟩
  intro own hown other hother
  rw [List.mem_singleton.1 hother]
  exact contains_eq_false_iff.1 hname own hown

theorem Distinct.enter {r : Registry} (h : r.Distinct) (line : List Char) :
    (r.enter line).Distinct := by
  rw [enter_eq]
  cases nameOf? line with
  | none => exact h
  | some name =>
      by_cases hthere : r.contains name = true
      · simpa only [if_pos hthere] using h
      · simpa only [if_neg hthere] using h.concat (by simpa using hthere) false

theorem distinct_ofText (text : String) : (ofText text).Distinct := by
  rw [ofText]
  exact List.foldlRecOn _ enter List.Pairwise.nil fun _ h line _ => h.enter line

/-! ## Registries and their files -/

/-- Whether a registry comes back from its file. -/
structure Storable (r : Registry) : Prop where
  isName : ∀ name ∈ r.names, IsName name
  distinct : r.Distinct

theorem storable_empty : Storable {} := ⟨fun _ h => absurd h List.not_mem_nil, List.Pairwise.nil⟩

theorem Storable.concat {r : Registry} (h : r.Storable) {name : String} (hname : IsName name)
    (hthere : r.contains name = false) (dirty : Bool) : Storable ⟨r.names ++ [name], dirty⟩ := by
  refine ⟨fun other hother => ?_, h.distinct.concat hthere dirty⟩
  rcases List.mem_append.1 hother with hother | hother
  · exact h.isName other hother
  · rwa [List.mem_singleton.1 hother]

theorem Storable.of_sublist {r r' : Registry} (h : r.Storable)
    (hsublist : r'.names.Sublist r.names) : r'.Storable :=
  ⟨fun name hname => h.isName name (hsublist.subset hname), h.distinct.sublist hsublist⟩

theorem storable_ofText (text : String) : (ofText text).Storable :=
  ⟨fun _ h => isName_of_mem_ofText h, distinct_ofText text⟩

theorem storable_stored (root : String) (t : FileTree) : (stored root t).Storable := by
  cases h : Sandbox.read root t path with
  | ok text =>
      rw [stored_of_read h]
      exact storable_ofText text
  | error refusal =>
      rw [stored_of_error h]
      exact storable_empty

theorem dirty_enter {r : Registry} (h : r.dirty = false) (line : List Char) :
    (r.enter line).dirty = false := by
  rw [enter_eq]
  cases nameOf? line with
  | none => exact h
  | some name => by_cases hthere : r.contains name = true <;> simp [hthere, h]

theorem dirty_ofText (text : String) : (ofText text).dirty = false := by
  rw [ofText]
  exact List.foldlRecOn (motive := fun r : Registry => r.dirty = false) _ enter rfl
    fun _ hclean line _ => dirty_enter hclean line

theorem dirty_stored (root : String) (t : FileTree) : (stored root t).dirty = false := by
  cases h : Sandbox.read root t path with
  | ok text =>
      rw [stored_of_read h]
      exact dirty_ofText text
  | error refusal => rw [stored_of_error h]

/-- The line of a name adds the name, where no name before it is the same package. -/
theorem foldl_enter_names {names before : List String}
    (hnames : ∀ name ∈ names, IsName name)
    (hdistinct : (before ++ names).Pairwise fun a b => sameLetters a b = false) :
    ((names.map String.toList).foldl enter ⟨before, false⟩).names = before ++ names := by
  induction names generalizing before with
  | nil => exact (List.append_nil before).symm
  | cons name names ih =>
      have hname : contains ⟨before, false⟩ name = false := by
        refine contains_eq_false_iff.2 fun own hown => ?_
        exact (List.pairwise_append.1 hdistinct).2.2 own hown name (List.mem_cons_self ..)
      have hassoc : before ++ name :: names = (before ++ [name]) ++ names := by simp
      rw [hassoc] at hdistinct ⊢
      have hrest := ih (fun other hother => hnames other (List.mem_cons_of_mem _ hother)) hdistinct
      rw [List.map_cons, List.foldl_cons, enter_eq,
        (hnames name (List.mem_cons_self ..)).nameOf?_toList]
      simpa only [hname, Bool.false_eq_true, if_false] using hrest

/-- **A registry that is written is read back**, name by name. -/
theorem names_ofText_toText {r : Registry} (h : r.Storable) :
    (ofText r.toText).names = r.names := by
  have hlines : lines r.toText.toList = r.names.map String.toList := by
    rw [lines_toText, List.map_eq_flatMap]
    refine List.flatMap_congr fun name hname => ?_
    have hisName := h.isName name hname
    rw [lines_append_newline _ _ hisName.newline_notMem, hisName.dropReturn_toList]
    rfl
  rw [ofText, hlines]
  exact @foldl_enter_names r.names [] h.isName h.distinct

/-! ## Changes -/

/-- A change keeps names distinct, and adds no name with a line feed unless it installs one. -/
theorem Storable.apply {r : Registry} (h : r.Storable) {line : String} {change : Change}
    (hchange : change? r line = some change) :
    (change.apply r).Distinct ∧
      ((∀ name ∈ (change.apply r).names, '\n' ∉ name.toList) → (change.apply r).Storable) := by
  obtain ⟨name, hne, htrim, -, ⟨rfl, hthere⟩ | ⟨rfl, -⟩⟩ := change?_eq_some hchange
  · refine ⟨h.distinct.concat hthere true, fun hlines => ?_⟩
    have hname := hlines name (List.mem_append_right _ (List.mem_singleton_self _))
    exact h.concat ⟨hne, htrim, hname⟩ hthere true
  · have hstorable : ((Change.removed name).apply r).Storable := h.of_sublist List.eraseP_sublist
    exact ⟨hstorable.distinct, fun _ => hstorable⟩

/-- A typed line keeps a registry fit to be stored. -/
theorem Storable.after {r : Registry} (h : r.Storable) {line : String}
    (hline : '\n' ∉ line.toList) : (r.after (change? r line)).Storable := by
  cases hchange : change? r line with
  | none => exact h
  | some change =>
      refine (h.apply hchange).2 fun name hname hmem => ?_
      obtain ⟨own, -, -, hin, ⟨rfl, -⟩ | ⟨rfl, -⟩⟩ := change?_eq_some hchange
      · rcases List.mem_append.1 hname with hname | hname
        · exact (h.isName name hname).newline_notMem hmem
        · rw [List.mem_singleton.1 hname] at hmem
          exact hline (hin _ hmem)
      · exact (h.isName name (List.eraseP_sublist.subset hname)).newline_notMem hmem

end Registry

end DeskShell.Packages
