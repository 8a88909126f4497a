import DeskShell.Proofs.Files.Listing
import DeskShell.Proofs.Files.Resolution

/-!
# Writing all or nothing

A write first makes the directories above the file and then puts the file in its place
(`writeText_cases`). If anything is in the way, nothing is put: all files are what they were. If
nothing is, the file holds the text for every path to it, its directory shows it, and all other
files are what they were (`write_all_or_nothing`).
-/

set_option autoImplicit false

namespace DeskShell.Files

namespace FileTree

variable {t : FileTree} {path : String}

/-! ## What a write does -/

theorem get?_of_above (hwell : t.WellFormed) {made : FileTree}
    (h : t.makeDirectories ((Path.parent? path).getD "") = (made, .ok ())) {place : Location}
    (hplace : t.Above path place) : made.get? place = some .directory := by
  obtain ⟨parent, hparent, hway⟩ := hplace
  rw [hparent, Option.getD_some] at h
  unfold makeDirectories at h
  split at h
  · next hempty =>
      -- nothing is above an empty path
      rw [hempty] at hway
      obtain ⟨part, hne, hpart, -⟩ := hway
      exact absurd (List.prefix_nil.1 hpart) hne
  · split at h
    · cases h
    · exact (leads_of_makeSteps hwell (hwell.get?_start parent) h).onTheWay hway

/-- **What a write does**: it makes directories above the file, and then, if all of them are there
and the place can receive a file, it puts the file in its place. -/
theorem writeText_cases (hwell : t.WellFormed) (path text : String) :
    ∃ made, Footprint (t.Above path) (fun _ => False) t made ∧
      (made.entries.map (·.1)).Nodup ∧
      ((∃ fault, t.writeText path text = (made, .error fault)) ∨
        (t.writeText path text = (made.put (t.place path) (.file text.toUTF8), .ok ()) ∧
          made.Receives path (t.place path) ∧
          ∀ place, t.Above path place → made.get? place = some .directory)) := by
  have hfootprint : Footprint (t.Above path) (fun _ => False) t
      (t.makeDirectories ((Path.parent? path).getD "")).1 :=
    t.makeParents_footprint path fun place hplace => hplace
  have hnodup := nodup_makeDirectories hwell.nodup ((Path.parent? path).getD "")
  unfold writeText
  cases hmade : t.makeDirectories ((Path.parent? path).getD "") with
  | mk made answer =>
      rw [hmade] at hfootprint hnodup
      refine ⟨made, hfootprint, hnodup, ?_⟩
      cases answer with
      | error fault => exact .inl ⟨fault, rfl⟩
      | ok _ =>
          cases hwrite : made.writeBytes path text.toUTF8 with
          | mk written answer =>
              cases answer with
              | error fault =>
                  refine .inl ⟨fault, ?_⟩
                  simp only [hwrite, writeBytes_of_error hwrite]
              | ok _ =>
                  obtain ⟨place, hreceives, rfl⟩ := writeBytes_eq_ok_iff.1 hwrite
                  have hplace : place = t.place path := by
                    rw [locate_of_walk hreceives.walk_eq, FileTree.place,
                      start_of_workingDirectory hfootprint.workingDirectory_eq]
                  subst hplace
                  exact .inr ⟨hwrite, hreceives, fun place => get?_of_above hwell hmade⟩

/-! ## The way to a file -/

/-- Above a path is what its pieces lead to that matter, but the last one. -/
theorem above_iff {place : Location} :
    t.Above path place ↔ OnTheWay (t.start path)
      (Path.essential (Path.isAbsolute path) (Path.pieces path)).dropLast place := by
  cases hparent : Path.parent? path with
  | none =>
      have hnil : Path.essential (Path.isAbsolute path) (Path.pieces path) = [] := by
        rw [Path.parent?, Path.components_eq] at hparent
        split at hparent
        · next hnil => exact hnil
        · cases hparent
      rw [hnil, List.dropLast_nil]
      constructor
      · rintro ⟨parent, hsome, -⟩
        rw [hparent] at hsome
        cases hsome
      · rintro ⟨part, hne, hpart, -⟩
        exact absurd (List.prefix_nil.1 hpart) hne
  | some parent =>
      obtain ⟨habsolute, hpieces⟩ := pieces_parent hparent
      have hstart : t.start parent = t.start path := by rw [start, start, habsolute]
      rw [← hpieces, ← hstart]
      constructor
      · rintro ⟨other, hother, hway⟩
        rw [hparent] at hother
        cases hother
        exact hway
      · intro hway
        exact ⟨parent, hparent, hway⟩

theorem exists_walk_of_append {base place : Location} {first second : List String}
    (h : t.walk base (first ++ second) = .ok place) :
    ∃ middle, t.walk base first = .ok middle ∧ t.walk middle second = .ok place := by
  induction first generalizing base with
  | nil => exact ⟨base, rfl, h⟩
  | cons piece rest ih =>
      obtain ⟨hbase, hlong, hrest⟩ := walk_cons_eq_ok_iff.1 h
      obtain ⟨middle, hfirst, hsecond⟩ := ih hrest
      exact ⟨middle, walk_cons_eq_ok_iff.2 ⟨hbase, hlong, hfirst⟩, hsecond⟩

/-- A walk that arrives passes through a directory before its last step. -/
theorem leads_of_walk_concat {base place : Location} {ps : List String} {name : String}
    (h : t.walk base (ps ++ [name]) = .ok place) : t.Leads base ps := by
  obtain ⟨middle, hfirst, hlast⟩ := exists_walk_of_append h
  have hmiddle := (walk_cons_eq_ok_iff.1 hlast).1
  obtain rfl := locate_of_walk hfirst
  exact ⟨hfirst, hmiddle⟩

/-- The beginning of a path that is not refused is not refused, unless it is empty. -/
theorem pathFault?_of_append {first second : String} (h : pathFault? (first ++ second) = none)
    (hne : first ≠ "") : pathFault? first = none := by
  unfold pathFault? at h ⊢
  split at h
  · cases h
  · next hnul =>
      split at h
      · cases h
      · split at h
        · cases h
        · next hlong =>
            have hnulFirst : ¬ first.toList.contains '\x00' = true := by
              intro hmem
              rw [String.toList_append, List.contains_append, hmem, Bool.true_or] at hnul
              exact hnul rfl
            have hlongFirst : ¬ maxPath < first.utf8ByteSize := by
              rw [String.utf8ByteSize_append] at hlong
              omega
            rw [if_neg hnulFirst, if_neg hne, if_neg hlongFirst]

end FileTree

/-! ## Paths in the sandbox -/

namespace Sandbox

open FileTree

variable {root : String} {t t' : FileTree} {names : List String} {name : String}

theorem target_nil (root : String) :
    target root [] = "" ∨ Path.endsInSlash (target root []) = true := by
  rw [target, String.intercalate_nil, Path.join]
  split
  · next h =>
      rw [Bool.or_eq_true, decide_eq_true_eq] at h
      rwa [String.append_empty]
  · refine .inr ?_
    rw [String.append_empty, Path.endsInSlash, String.toList_append]
    simp

theorem target_eq_empty_iff (hnames : ∀ name ∈ names, Path.IsName name) :
    target root names = "" ↔ root = "" ∧ names = [] := by
  constructor
  · intro h
    have hpieces := pieces_target hnames root
    rw [h] at hpieces
    obtain ⟨-, rfl⟩ := List.append_eq_nil_iff.1 hpieces.symm
    obtain ⟨text, htext⟩ := Path.exists_join_eq root ("/".intercalate [])
    rw [target, htext] at h
    exact ⟨(String.append_eq_empty_iff.1 h).1, rfl⟩
  · rintro ⟨rfl, rfl⟩
    rfl

/-- The path of a directory is the beginning of the paths of what is in it. -/
theorem exists_target_concat (root : String) (names : List String) (name : String) :
    ∃ text, target root (names ++ [name]) = target root names ++ text := by
  have hjoin (first second : String) :
      Path.join root (first ++ second) = Path.join root first ++ second := by
    unfold Path.join
    split <;> simp only [String.append_assoc]
  unfold target
  by_cases hempty : names = []
  · subst hempty
    refine ⟨name, ?_⟩
    rw [List.nil_append, String.intercalate_singleton, String.intercalate_nil, ← hjoin,
      String.empty_append]
  · refine ⟨"/" ++ name, ?_⟩
    rw [String.intercalate_append_of_ne_nil hempty (List.cons_ne_nil _ _),
      String.intercalate_singleton, String.append_assoc, hjoin]

theorem ne_nil_of_receives {place : Location} (h : t.Receives (target root names) place) :
    names ≠ [] := by
  rintro rfl
  rcases target_nil root with hempty | hslash
  · have hfault := h.pathFault?_eq
    rw [hempty] at hfault
    cases hfault
  · rw [h.endsInSlash_eq] at hslash
    cases hslash

/-- Under a root that is there, the missing directories above a path are those below the root. -/
theorem Opened.above_iff (h : Opened root t) (hnames : ∀ name ∈ names, Path.IsName name)
    {place : Location} (hplace : t.get? place = none) :
    t.Above (target root names) place ↔
      ∃ part, part <+: names.dropLast ∧ place = t.place root ++ part := by
  have hhere : ∀ name ∈ names, name ≠ Path.here := fun name hname => (hnames name hname).ne_here
  rw [FileTree.above_iff, start_target hnames, pieces_target hnames,
    Path.essential_append _ _ hhere]
  generalize Path.isAbsolute (target root names) = absolute
  -- the pieces of the root lead to directories only
  have hroot : ∀ part, part <+: Path.essential absolute (Path.pieces root) →
      place ≠ locate (t.start root) part := by
    rintro part hpart rfl
    by_cases hnil : part = []
    · rw [hnil, locate, h.leads.start] at hplace
      cases hplace
    · have hway : OnTheWay (t.start root) (Path.pieces root) (locate (t.start root) part) :=
        OnTheWay.of_essential ⟨part, hnil, hpart, rfl⟩
      rw [h.leads.onTheWay hway] at hplace
      cases hplace
  -- behind them, the names of the path are added one by one
  have hbehind : ∀ rest, rest <+: names.dropLast →
      locate (t.start root) (Path.essential absolute (Path.pieces root) ++ rest)
        = t.place root ++ rest := by
    intro rest hrest
    have hisName : ∀ name ∈ rest, Path.IsName name := fun name hname =>
      hnames name (List.dropLast_subset _ (hrest.subset hname))
    rw [locate_append, locate_essential, locate_of_isName _ hisName, FileTree.place]
  have hself := hroot _ (List.prefix_refl _)
  by_cases hempty : names = []
  · subst hempty
    rw [List.append_nil, List.dropLast_nil]
    constructor
    · rintro ⟨part, -, hpart, hway⟩
      exact absurd hway (hroot part (hpart.trans (List.dropLast_prefix _)))
    · rintro ⟨part, hpart, rfl⟩
      rw [List.prefix_nil.1 hpart, List.append_nil, locate_essential] at hself
      exact absurd rfl hself
  · rw [List.dropLast_append_of_ne_nil hempty]
    constructor
    · rintro ⟨part, -, hpart, hway⟩
      rcases List.prefix_or_prefix_of_prefix hpart (List.prefix_append _ _) with
        hpart' | ⟨rest, rfl⟩
      · exact absurd hway (hroot part hpart')
      · have hrest : rest <+: names.dropLast := (List.prefix_append_right_inj _).1 hpart
        exact ⟨rest, hrest, hway.trans (hbehind rest hrest)⟩
    · rintro ⟨part, hpart, hway⟩
      refine ⟨Path.essential absolute (Path.pieces root) ++ part, ?_, ?_, ?_⟩
      · intro hnil
        obtain ⟨hrootNil, rfl⟩ := List.append_eq_nil_iff.1 hnil
        rw [List.append_nil, FileTree.place, ← locate_essential absolute] at hway
        exact hself hway
      · exact (List.prefix_append_right_inj _).2 hpart
      · rw [hway, hbehind part hpart]

theorem leads_of_receives {place : Location}
    (hnames : ∀ other ∈ names ++ [name], Path.IsName other)
    (h : t.Receives (target root (names ++ [name])) place) :
    t.Leads (t.start (target root names)) (Path.pieces (target root names)) := by
  have hdirectory : ∀ other ∈ names, Path.IsName other := fun other hother =>
    hnames other (List.mem_append_left _ hother)
  have hwalk := h.walk_eq
  rw [start_target hnames, pieces_target hnames, ← List.append_assoc] at hwalk
  rw [start_target hdirectory, pieces_target hdirectory]
  exact leads_of_walk_concat hwalk

/-! ## The law of writing -/

/-- What a write that succeeds leaves of a tree, where the file is called `name` and stands below
the root in the directory of the other names. -/
structure Written (root : String) (t t' : FileTree) (names : List String) (name text : String) :
    Prop where
  /-- Every path to the file finds it, and reads the text. -/
  read_eq : ∀ other, resolve root other = .ok (target root (names ++ [name])) →
    read root t' other = .ok text ∧ pathExists root t' other = true
  /-- Every path to its directory shows it once, as a file, among names in the order of their
  bytes; but a directory with an empty path cannot be listed. -/
  list_eq : ∀ other, resolve root other = .ok (target root names) →
    if root = "" ∧ names = [] then list root t' other = .error (.failed other .notFound)
    else ∃ listed, list root t' other = .ok listed ∧
      (listed.Pairwise fun a b => a.1.toUTF8.data.toList < b.1.toUTF8.data.toList) ∧
      listed.filter (fun e => e.1 == name) = [(name, false)]
  file_eq : t'.get? (t.place root ++ (names ++ [name])) = some (.file text.toUTF8)
  /-- All other files are what they were. -/
  file_iff : ∀ place, place ≠ t.place root ++ (names ++ [name]) → ∀ bytes,
    t'.get? place = some (.file bytes) ↔ t.get? place = some (.file bytes)
  /-- The new directories are those above the file that were missing. -/
  directory_iff : ∀ place, t'.get? place = some .directory ↔
    t.get? place = some .directory ∨
      t.get? place = none ∧ t.Above (target root (names ++ [name])) place

/-- What a write that fails leaves of a tree: all files as they were, and at most more directories
above the path. -/
structure Unwritten (t t' : FileTree) (path : String) : Prop where
  file_iff : ∀ place bytes, t'.get? place = some (.file bytes) ↔ t.get? place = some (.file bytes)
  directory_mono : ∀ place, t.get? place = some .directory → t'.get? place = some .directory
  directory_above : ∀ place, t'.get? place = some .directory →
    t.get? place = some .directory ∨ t.get? place = none ∧ t.Above path place

theorem exists_list_of_receives (hnodup : (t.entries.map (·.1)).Nodup)
    (hnames : ∀ other ∈ names ++ [name], Path.IsName other) (hne : ¬ (root = "" ∧ names = []))
    (h : t.Receives (target root (names ++ [name])) (t.place root ++ (names ++ [name])))
    (bytes : ByteArray) :
    ∃ listed, (t.put (t.place root ++ (names ++ [name])) (.file bytes)).list (target root names)
        = .ok listed ∧
      (listed.Pairwise fun a b => a.1.toUTF8.data.toList < b.1.toUTF8.data.toList) ∧
      listed.filter (fun e => e.1 == name) = [(name, false)] := by
  have hdirectory : ∀ other ∈ names, Path.IsName other := fun other hother =>
    hnames other (List.mem_append_left _ hother)
  have hfault : pathFault? (target root names) = none := by
    obtain ⟨rest, hrest⟩ := exists_target_concat root names name
    refine pathFault?_of_append (hrest ▸ h.pathFault?_eq) ?_
    rwa [Ne, target_eq_empty_iff hdirectory]
  have hleads := (leads_of_receives hnames h).of_directories
    fun d hd => get?_put_of_directory h.get?_ne (.file bytes) hd
  have hplaceNe : t.place root ++ (names ++ [name]) ≠ [] := by simp
  have hfile : (t.put (t.place root ++ (names ++ [name])) (.file bytes)).get?
      ((t.put (t.place root ++ (names ++ [name])) (.file bytes)).place (target root names)
        ++ [name]) = some (.file bytes) := by
    rw [place_target hdirectory, List.append_assoc]
    -- the root is where it was
    exact get?_put_self t _ hplaceNe
  have hnodup' := nodup_put hnodup (t.place root ++ (names ++ [name])) (.file bytes)
  exact ⟨_, list_of_leads hfault hleads, pairwise_listing hnodup' _, filter_listing hnodup' hfile⟩

/-- **A write that succeeds** leaves the text in a file, and changes nothing else but that missing
directories are made. -/
theorem written_of_writeText {text : String} (hwell : t.WellFormed)
    (hnames : ∀ other ∈ names, Path.IsName other)
    (h : t.writeText (target root names) text = (t', .ok ())) :
    ∃ before name, names = before ++ [name] ∧ Written root t t' before name text := by
  obtain ⟨made, hfootprint, hnodup, ⟨fault, hfailed⟩ | ⟨hok, hreceives, habove⟩⟩ :=
    writeText_cases hwell (target root names) text
  · rw [h] at hfailed
    cases (Prod.mk.inj hfailed).2
  obtain ⟨before, name, rfl⟩ :=
    -- the root is a directory and receives no text, so there is a last name
    (List.eq_nil_or_concat' names).resolve_left (ne_nil_of_receives hreceives)
  refine ⟨before, name, rfl, ?_⟩
  have hread := readBytes_writeText h
  have hroot : made.place root = t.place root := by
    rw [place, place, start_of_workingDirectory hfootprint.workingDirectory_eq]
  rw [place_target hnames] at hok hreceives
  obtain ⟨ht', -⟩ := Prod.mk.inj (h.symm.trans hok)
  have hfile : t'.get? (t.place root ++ (before ++ [name])) = some (.file text.toUTF8) := by
    rw [ht', get?_put_self made _ (by simp)]
  constructor
  case read_eq =>
    intro other hother
    refine ⟨read_eq_ok_iff.2 ⟨_, bytes_eq_ok_iff.2 ⟨_, hother, hread⟩, fromUTF8?_toUTF8 text⟩, ?_⟩
    obtain ⟨found, hfind⟩ := readBytes_eq_ok_iff.1 hread
    rw [pathExists, hother]
    show (t'.find (target root (before ++ [name]))).toBool = true
    rw [hfind]
    rfl
  case list_eq =>
    intro other hother
    rw [list, hother]
    show if root = "" ∧ before = [] then blame other (t'.list (target root before)) = _
      else ∃ listed, blame other (t'.list (target root before)) = _ ∧ _
    split
    · next hempty =>
        rw [hempty.1, hempty.2]
        rfl
    · next hempty =>
        rw [← hroot] at ht' hreceives
        obtain ⟨listed, hlisted, hshown⟩ :=
          exists_list_of_receives hnodup hnames hempty hreceives text.toUTF8
        rw [← ht'] at hlisted
        exact ⟨listed, congrArg (blame other) hlisted, hshown⟩
  case file_eq => exact hfile
  case file_iff =>
    intro place hplace bytes
    rw [ht', get?_put_of_ne made _ hplace, hfootprint.file_iff]
  case directory_iff =>
    intro place
    have hthere : t.get? place = some .directory ∨
          t.get? place = none ∧ t.Above (target root (before ++ [name])) place →
        made.get? place = some .directory := by
      rintro (hdirectory | ⟨-, hway⟩)
      · exact hfootprint.directory_mono hdirectory
      · exact habove place hway
    by_cases hsame : place = t.place root ++ (before ++ [name])
    · -- the place of the file is no directory, and was none
      subst hsame
      rw [hfile]
      constructor
      · intro hdirectory
        cases hdirectory
      · intro hdirectory
        exact absurd (hthere hdirectory) hreceives.get?_ne
    · rw [ht', get?_put_of_ne made _ hsame]
      exact ⟨hfootprint.directory_cases, hthere⟩

/-- **A write that fails** leaves all files as they were. -/
theorem unwritten_of_writeText {path text : String} {fault : Fault} (hwell : t.WellFormed)
    (h : t.writeText path text = (t', .error fault)) : Unwritten t t' path := by
  obtain ⟨made, hfootprint, -, ⟨other, hfailed⟩ | ⟨hok, -⟩⟩ := writeText_cases hwell path text
  · obtain ⟨rfl, -⟩ := Prod.mk.inj (h.symm.trans hfailed)
    exact ⟨hfootprint.file_iff, fun _ => hfootprint.directory_mono,
      fun _ => hfootprint.directory_cases⟩
  · rw [h] at hok
    cases (Prod.mk.inj hok).2

/-- A write in the sandbox is a write to what the path stands for, or it is refused. -/
theorem write_cases {path text : String} {answer : Except Refusal Unit}
    (h : write root t path text = (t', answer)) :
    (names? path = none ∧ t' = t ∧ answer = .error (.outside path)) ∨
      ∃ names written, names? path = some names ∧
        t.writeText (target root names) text = (t', written) ∧ answer = blame path written := by
  cases hnames : names? path with
  | none =>
      rw [write, resolve, hnames] at h
      obtain ⟨rfl, rfl⟩ := Prod.mk.inj h
      exact .inl ⟨rfl, rfl, rfl⟩
  | some names =>
      have hwrite : write root t path text = ((t.writeText (target root names) text).1,
          blame path (t.writeText (target root names) text).2) := by
        simp only [write, resolve, hnames, target]
      obtain ⟨rfl, rfl⟩ := Prod.mk.inj (hwrite.symm.trans h)
      exact .inr ⟨names, _, rfl, rfl, rfl⟩

/-- **A write is all or nothing.** If it succeeds, the path stands for a file with a name below the
root, every path to that file reads the text, its directory shows it, all other files are what they
were, and the only new directories are those above the file. If it fails, all files are what they
were, and there may be new directories above the path; if the path leads out of the root, nothing
changes at all. Where the root is there, the missing directories above a path are those between the
root and its last name. -/
theorem write_all_or_nothing {root : String} {t : FileTree} (hwell : t.WellFormed)
    (path text : String) :
    (∀ t', write root t path text = (t', .ok ()) →
      ∃ names name, names? path = some (names ++ [name]) ∧ Written root t t' names name text) ∧
    (∀ t' refusal, write root t path text = (t', .error refusal) →
      (refusal = .outside path ∧ t' = t) ∨
        ∃ names fault, names? path = some names ∧ refusal = .failed path fault ∧
          Unwritten t t' (target root names)) ∧
    (Opened root t → ∀ names, names? path = some names → ∀ place, t.get? place = none →
      (t.Above (target root names) place ↔
        ∃ part, part <+: names.dropLast ∧ place = t.place root ++ part)) := by
  refine ⟨fun t' h => ?_, fun t' refusal h => ?_, fun hopened names hnames place => ?_⟩
  -- a path that is refused never reaches the tree
  · rcases write_cases h with ⟨-, -, hanswer⟩ | ⟨names, written, hnames, hwritten, hanswer⟩
    · cases hanswer
    · cases written with
      | error fault => cases hanswer
      | ok _ =>
          obtain ⟨before, name, rfl, hleft⟩ :=
            written_of_writeText hwell (isName_of_mem_names? hnames) hwritten
          exact ⟨before, name, hnames, hleft⟩
  · rcases write_cases h with ⟨-, hsame, hanswer⟩ | ⟨names, written, hnames, hwritten, hanswer⟩
    · exact .inl ⟨Except.error.inj hanswer, hsame⟩
    · cases written with
      | ok _ => cases hanswer
      | error fault =>
          exact .inr ⟨names, fault, hnames, Except.error.inj hanswer,
            unwritten_of_writeText hwell hwritten⟩
  · exact hopened.above_iff (isName_of_mem_names? hnames)

/-- A path with a detour, for which a directory is made; a path that leaves the root; and a root
with an empty path, in which a file is written that no listing shows. -/
theorem write_all_or_nothing_of_detour :
    let t : FileTree := ⟨["w"], [(["w"], .directory), (["w", "r"], .directory)]⟩
    t.WellFormed ∧
      Written "r" t (write "r" t "d/../e/a" "x").1 ["e"] "a" "x" ∧
      (write "r" t "e/../../a" "x").1 = t ∧
      (write "" t "a" "x").2 = .ok () ∧
      read "" (write "" t "a" "x").1 "./a" = .ok "x" ∧
      list "" (write "" t "a" "x").1 "." = .error (.failed "." .notFound) := by
  intro t
  have hwell : t.WellFormed := by
    refine wellFormed_of_entries (by decide) ?_ rfl
    simp only [t, List.forall_mem_cons, List.not_mem_nil, false_implies, implies_true, and_true]
    exact ⟨rfl, rfl⟩
  have hwritten : ∀ {root path names name}, names? path = some (names ++ [name]) →
      (write root t path "x").2 = .ok () →
      Written root t (write root t path "x").1 names name "x" := by
    intro root path names name hnames hok
    obtain ⟨names', name', hnames', hleft⟩ :=
      (write_all_or_nothing hwell path "x").1 _ (Prod.ext rfl hok)
    rw [hnames, Option.some.injEq] at hnames'
    obtain ⟨rfl, hname⟩ := List.append_inj' hnames' rfl
    rwa [(List.cons.inj hname).1]
  have hdetour : Written "r" t (write "r" t "d/../e/a" "x").1 ["e"] "a" "x" :=
    hwritten (by decide +kernel) (by decide +kernel)
  have hempty : Written "" t (write "" t "a" "x").1 [] "a" "x" :=
    hwritten (by decide +kernel) (by decide +kernel)
  have hlist := hempty.list_eq "." (by decide +kernel)
  rw [if_pos ⟨rfl, rfl⟩] at hlist
  have houtside : write "r" t "e/../../a" "x"
      = ((write "r" t "e/../../a" "x").1, .error (.outside "e/../../a")) :=
    Prod.ext rfl (by decide +kernel)
  have hread := (hempty.read_eq "./a" (by decide +kernel)).1
  refine ⟨hwell, hdetour, ?_, by decide +kernel, hread, hlist⟩
  rcases (write_all_or_nothing hwell "e/../../a" "x").2.1 _ _ houtside with
    ⟨-, hsame⟩ | ⟨names, -, hnames, -⟩
  · exact hsame
  · have hnone : names? "e/../../a" = none := by decide +kernel
    rw [hnone] at hnames
    cases hnames

end Sandbox

end DeskShell.Files
