import DeskShell.Proofs.Files.Places

/-!
# A root that has been made

In a tree that a file system can have (`FileTree.WellFormed`), making the project root leads to a
tree in which the root can be walked to (`Sandbox.opened_of_openRoot`). It stays so, since no
operation takes a directory away; and wherever it is so, a path below the root is walked from the
root on, and directories are made from there on, whatever is outside (`walk_target`,
`makeSteps_append`).
-/

set_option autoImplicit false

namespace DeskShell.Files

namespace FileTree

/-! ## Well-formed trees -/

/-- Whether a tree has one entry for each place, only directories above them, and a directory to
start from. -/
structure WellFormed (t : FileTree) : Prop where
  nodup : (t.entries.map (·.1)).Nodup
  parent : ∀ place entry, t.get? place = some entry → t.get? place.dropLast = some .directory
  working : t.get? t.workingDirectory = some .directory

theorem wellFormed_of_entries {t : FileTree} (hnodup : (t.entries.map (·.1)).Nodup)
    (hparent : ∀ e ∈ t.entries, t.get? e.1.dropLast = some .directory)
    (hworking : t.get? t.workingDirectory = some .directory) : t.WellFormed := by
  refine ⟨hnodup, fun place entry hplace => ?_, hworking⟩
  by_cases htop : place = []
  · rw [htop]
    rfl
  · rw [get?, if_neg htop] at hplace
    obtain ⟨found, hfound, -⟩ := Option.map_eq_some_iff.1 hplace
    have hfst : found.1 = place := by simpa using List.find?_some hfound
    exact hfst ▸ hparent found (List.mem_of_find?_eq_some hfound)

theorem nodup_put {t : FileTree} (h : (t.entries.map (·.1)).Nodup) (place : Location)
    (entry : Entry) : ((t.put place entry).entries.map (·.1)).Nodup := by
  have hrest : ((t.entries.filter fun e => e.1 != place).map (·.1)).Nodup :=
    (List.filter_sublist.map _).nodup h
  have hnew : place ∉ (t.entries.filter fun e => e.1 != place).map (·.1) := by simp
  rw [put, List.map_append, List.map_singleton, List.nodup_append]
  refine ⟨hrest, by simp, fun a ha b hb => ?_⟩
  rw [List.mem_singleton.1 hb]
  rintro rfl
  exact hnew ha

theorem WellFormed.put_directory {t : FileTree} (h : t.WellFormed) {base : Location}
    (hbase : t.get? base = some .directory) {name : String}
    (hnone : t.get? (base ++ [name]) = none) :
    (t.put (base ++ [name]) .directory).WellFormed := by
  have hextends := extends_put hnone .directory
  refine ⟨nodup_put h.nodup _ _, fun place entry hplace => ?_, hextends.get?_eq _ _ h.working⟩
  by_cases hnew : place = base ++ [name]
  · rw [hnew, List.dropLast_concat]
    exact hextends.get?_eq _ _ hbase
  · rw [get?_put_of_ne t _ hnew] at hplace
    exact hextends.get?_eq _ _ (h.parent place entry hplace)

theorem WellFormed.get?_start {t : FileTree} (h : t.WellFormed) (path : String) :
    t.get? (t.start path) = some .directory := by
  unfold start
  split
  · rfl
  · exact h.working

/-! ## Walking -/

theorem walk_append {t : FileTree} {base place : Location} {first : List String}
    (h : t.walk base first = .ok place) (second : List String) :
    t.walk base (first ++ second) = t.walk place second := by
  induction first generalizing base with
  | nil =>
      cases h
      rfl
  | cons piece rest ih =>
      obtain ⟨hbase, hlong, hrest⟩ := walk_cons_eq_ok_iff.1 h
      rw [← ih hrest]
      -- both walks take the same first step
      rw [List.cons_append, walk, hbase]
      unfold locate locate
      simp only [Nat.not_lt.2 hlong, if_false]
      split
      · rfl
      · split <;> rfl

/-- Whether steps lead from a directory to a directory. -/
structure Leads (t : FileTree) (base : Location) (steps : List String) : Prop where
  walk_eq : t.walk base steps = .ok (locate base steps)
  get?_eq : t.get? (locate base steps) = some .directory

theorem leads_nil {t : FileTree} {base : Location} :
    t.Leads base [] ↔ t.get? base = some .directory :=
  ⟨fun h => h.get?_eq, fun h => ⟨rfl, h⟩⟩

theorem leads_cons {t : FileTree} {base : Location} {piece : String} {rest : List String} :
    t.Leads base (piece :: rest) ↔ t.get? base = some .directory ∧
      piece.utf8ByteSize ≤ maxName ∧ t.Leads (locate base [piece]) rest := by
  have hlocate : locate base (piece :: rest) = locate (locate base [piece]) rest :=
    locate_append base [piece] rest
  constructor
  · rintro ⟨hwalk, hget⟩
    rw [hlocate] at hwalk hget
    obtain ⟨hbase, hlong, hrest⟩ := walk_cons_eq_ok_iff.1 hwalk
    exact ⟨hbase, hlong, hrest, hget⟩
  · rintro ⟨hbase, hlong, hrest, hget⟩
    rw [← hlocate] at hrest hget
    exact ⟨walk_cons_eq_ok_iff.2 ⟨hbase, hlong, hrest⟩, hget⟩

theorem Leads.start {t : FileTree} {base : Location} {steps : List String}
    (h : t.Leads base steps) : t.get? base = some .directory := by
  cases steps with
  | nil => exact leads_nil.1 h
  | cons piece rest => exact (leads_cons.1 h).1

theorem Leads.onTheWay {t : FileTree} {base place : Location} {steps : List String}
    (h : t.Leads base steps) (hplace : OnTheWay base steps place) :
    t.get? place = some .directory := by
  induction steps generalizing base with
  | nil =>
      obtain ⟨part, hne, hpart, -⟩ := hplace
      exact absurd (List.prefix_nil.1 hpart) hne
  | cons piece rest ih =>
      obtain ⟨-, -, hrest⟩ := leads_cons.1 h
      rcases onTheWay_cons.1 hplace with rfl | hplace
      · exact hrest.start
      · exact ih hrest hplace

theorem Leads.le_maxName {t : FileTree} {base : Location} {steps : List String}
    (h : t.Leads base steps) : ∀ piece ∈ steps, piece.utf8ByteSize ≤ maxName := by
  induction steps generalizing base with
  | nil => exact fun piece hpiece => absurd hpiece List.not_mem_nil
  | cons first rest ih =>
      obtain ⟨-, hlong, hrest⟩ := leads_cons.1 h
      exact List.forall_mem_cons.2 ⟨hlong, ih hrest⟩

/-- Steps lead where they did as long as no directory is taken away. -/
theorem Leads.of_directories {t t' : FileTree} {base : Location} {steps : List String}
    (h : t.Leads base steps)
    (hthere : ∀ d, t.get? d = some .directory → t'.get? d = some .directory) :
    t'.Leads base steps :=
  ⟨walk_of_directories hthere h.walk_eq, hthere _ h.get?_eq⟩

/-! ## Making directories -/

/-- Directories that are there are passed through. -/
theorem makeSteps_append {t : FileTree} {base : Location} {first : List String}
    (hthere : ∀ place, OnTheWay base first place → t.get? place = some .directory)
    (hlong : ∀ piece ∈ first, piece.utf8ByteSize ≤ maxName) (second : List String) :
    t.makeSteps base (first ++ second) = t.makeSteps (locate base first) second := by
  induction first generalizing base with
  | nil => rfl
  | cons piece rest ih =>
      have hfirst := hthere _ (onTheWay_cons.2 (.inl rfl))
      have hrest := ih (fun place hplace => hthere place (onTheWay_cons.2 (.inr hplace)))
        fun other hother => hlong other (List.mem_cons_of_mem _ hother)
      have hpiece := Nat.not_lt.2 (hlong piece (List.mem_cons_self ..))
      rw [← List.singleton_append, locate_append, ← hrest]
      unfold locate locate at hfirst ⊢
      rw [List.singleton_append, List.cons_append, makeSteps]
      by_cases hhere : piece = Path.here
      · simp only [if_pos hhere]
      · by_cases hup : piece = Path.up
        · simp only [if_neg hhere, if_pos hup]
        · simp only [if_neg hhere, if_neg hup] at hfirst
          simp only [if_neg hhere, if_neg hup, if_neg hpiece, hfirst]

theorem nodup_makeSteps {t : FileTree} (h : (t.entries.map (·.1)).Nodup) (base : Location)
    (steps : List String) : ((t.makeSteps base steps).1.entries.map (·.1)).Nodup := by
  fun_induction FileTree.makeSteps t base steps with
  | case1 | case4 | case6 | case7 => exact h
  | case2 t base rest ih => exact ih h
  | case3 t base rest hhere ih => exact ih h
  | case5 t base piece rest hhere hup hlong next hnext ih => exact ih h
  | case8 t base piece rest hhere hup hlong next hnext hrest ih => exact ih (nodup_put h _ _)

theorem nodup_makeDirectories {t : FileTree} (h : (t.entries.map (·.1)).Nodup) (path : String) :
    ((t.makeDirectories path).1.entries.map (·.1)).Nodup := by
  unfold makeDirectories
  split
  · exact h
  · split
    · exact h
    · exact nodup_makeSteps h _ _

/-- **Directories that have been made** can be walked through. -/
theorem leads_of_makeSteps {t t' : FileTree} {base : Location} {steps : List String}
    (hwell : t.WellFormed) (hbase : t.get? base = some .directory)
    (h : t.makeSteps base steps = (t', .ok ())) : t'.Leads base steps := by
  have hextends := t.makeSteps_extends base steps
  rw [h] at hextends
  have hstart := hextends.get?_eq _ _ hbase
  fun_induction FileTree.makeSteps t base steps with
  | case1 t base =>
      cases h
      exact leads_nil.2 hbase
  | case2 t base rest ih =>
      refine leads_cons.2 ⟨hstart, by decide, ?_⟩
      exact ih hwell hbase h hextends hstart
  | case3 t base rest hhere ih =>
      -- what is above a directory is a directory, also at the top
      have habove := hwell.parent base _ hbase
      refine leads_cons.2 ⟨hstart, by decide, ?_⟩
      exact ih hwell habove h hextends (hextends.get?_eq _ _ habove)
  | case4 t base piece rest hhere hup hlong => cases h
  | case5 t base piece rest hhere hup hlong next hnext ih =>
      refine leads_cons.2 ⟨hstart, Nat.not_lt.1 hlong, ?_⟩
      rw [locate, if_neg hhere, if_neg hup]
      exact ih hwell hnext h hextends (hextends.get?_eq _ _ hnext)
  | case6 t base piece rest hhere hup hlong next bytes hnext => cases h
  | case7 t base piece rest hhere hup hlong next hnext hrest => cases h
  | case8 t base piece rest hhere hup hlong next hnext hrest ih =>
      -- the new directory is there, and stays there while the others are made
      have hmade : (t.put next .directory).get? next = some .directory :=
        get?_put_self t _ (by simp [next])
      have hrestExtends := (t.put next .directory).makeSteps_extends next rest
      rw [h] at hrestExtends
      refine leads_cons.2 ⟨hstart, Nat.not_lt.1 hlong, ?_⟩
      rw [locate, if_neg hhere, if_neg hup]
      exact ih (hwell.put_directory hbase hnext) hmade h hrestExtends
        (hrestExtends.get?_eq _ _ hmade)

end FileTree

namespace Sandbox

open FileTree

/-! ## The root -/

/-- Whether the root of a sandbox is there, in a tree with one entry for each place. -/
structure Opened (root : String) (t : FileTree) : Prop where
  nodup : (t.entries.map (·.1)).Nodup
  leads : t.Leads (t.start root) (Path.pieces root)

/-- **A root that has been made** is there. -/
theorem opened_of_openRoot {root : String} {t t' : FileTree} (hwell : t.WellFormed)
    (h : openRoot root t = (t', .ok ())) : Opened root t' := by
  have hstart := hwell.get?_start root
  cases hmade : t.makeDirectories root with
  | mk made answer =>
      have hextends := t.makeDirectories_extends root
      rw [openRoot, hmade] at h
      rw [hmade] at hextends
      obtain ⟨rfl, hanswer⟩ := Prod.mk.inj h
      rw [← start_of_workingDirectory hextends.workingDirectory_eq] at hstart
      unfold makeDirectories at hmade
      split at hmade
      · next hempty =>
          cases hmade
          rw [hempty] at hstart ⊢
          exact ⟨hwell.nodup, leads_nil.2 hstart⟩
      · split at hmade
        · cases hmade
          cases hanswer
        · cases answer with
          | error fault => cases hanswer
          | ok _ =>
              have hnodup := nodup_makeSteps hwell.nodup (t.start root) (Path.pieces root)
              rw [hmade] at hnodup
              refine ⟨hnodup, ?_⟩
              rw [start_of_workingDirectory hextends.workingDirectory_eq] at hstart ⊢
              exact leads_of_makeSteps hwell hstart hmade

theorem Opened.of_directories {root : String} {t t' : FileTree} (h : Opened root t)
    (hnodup : (t'.entries.map (·.1)).Nodup)
    (hworking : t'.workingDirectory = t.workingDirectory)
    (hthere : ∀ d, t.get? d = some .directory → t'.get? d = some .directory) : Opened root t' := by
  refine ⟨hnodup, ?_⟩
  rw [start_of_workingDirectory hworking]
  exact h.leads.of_directories hthere

end Sandbox

end DeskShell.Files
