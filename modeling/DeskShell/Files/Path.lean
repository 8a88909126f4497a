import DeskShell.Text.Blank

/-!
# Paths

A path is a text whose pieces stand between slashes. The pieces `.` and `..` stand for the
directory reached so far and for the one above it. `pieces_join` says that a joined path has
the pieces of both paths one after the other, so that it can be walked as the first path and then
the second.
-/

set_option autoImplicit false

namespace DeskShell.Files

open Text

namespace Path

/-- The piece for the directory reached so far. -/
def here : String := "."

/-- The piece for the directory above. -/
def up : String := ".."

/-- Whether a path starts at the top of the file system. -/
def isAbsolute (path : String) : Bool := path.toList.head? == some '/'

def endsInSlash (path : String) : Bool := path.toList.getLast? == some '/'

def pieces (path : String) : List String :=
  ((Text.pieces (· == '/') path.toList).filter (fun p => !p.isEmpty)).map String.ofList

/-- The pieces that matter for the path above: `.` is left out, unless a relative path starts with
it. -/
def components (path : String) : List String :=
  match pieces path with
  | first :: rest =>
      let tail := rest.filter (· != here)
      if first = here && isAbsolute path then tail else first :: tail
  | [] => []

def ofPieces (absolute : Bool) (ps : List String) : String :=
  (if absolute then "/" else "") ++ "/".intercalate ps

/-- The path without its last component; the top and the empty path have none. -/
def parent? (path : String) : Option String :=
  match components path with
  | [] => none
  | cs => some (ofPieces (isAbsolute path) cs.dropLast)

/-- A path continued by a relative one: a slash is put between them unless there is one already or
the first is empty. -/
def join (path relative : String) : String :=
  if path = "" || endsInSlash path then path ++ relative else path ++ "/" ++ relative

/-! ## Pieces of a joined path -/

/-- Pieces are cut on both sides of a separator independently. -/
theorem pieces_append_cons {cut : Char → Bool} {c : Char} (hc : cut c = true)
    (as bs : List Char) :
    Text.pieces cut (as ++ c :: bs) = Text.pieces cut as ++ Text.pieces cut bs := by
  induction as with
  | nil => simp [Text.pieces, hc]
  | cons a as ih =>
      simp only [List.cons_append, Text.pieces, ih]
      by_cases ha : cut a = true
      · simp [ha]
      · simp only [ha, Bool.false_eq_true, if_false]
        cases hp : Text.pieces cut as with
        | nil => exact absurd hp (pieces_ne_nil cut as)
        | cons p ps => simp

theorem pieces_eq {path : String} {as bs : List Char} (h : path.toList = as ++ '/' :: bs) :
    pieces path = pieces (String.ofList as) ++ pieces (String.ofList bs) := by
  simp only [pieces, h, String.toList_ofList]
  rw [pieces_append_cons (by rfl)]
  simp

theorem pieces_join (path relative : String) :
    pieces (join path relative) = pieces path ++ pieces relative := by
  unfold join
  split
  case isTrue h =>
    rw [Bool.or_eq_true, decide_eq_true_eq] at h
    rcases h with rfl | h
    · simp [pieces, Text.pieces]
    · have hlast : path.toList.getLast? = some '/' := by simpa [endsInSlash] using h
      obtain ⟨hne, hslash⟩ := List.getLast?_eq_some_iff.1 hlast
      have hpath : path.toList = hne ++ '/' :: [] := hslash
      have hboth : (path ++ relative).toList = hne ++ '/' :: relative.toList := by
        simp [String.toList_append, hpath]
      rw [pieces_eq hboth, pieces_eq hpath, String.ofList_toList]
      simp [pieces, Text.pieces]
  case isFalse =>
    have hboth : (path ++ "/" ++ relative).toList = path.toList ++ '/' :: relative.toList := by
      simp [String.toList_append]
    rw [pieces_eq hboth, String.ofList_toList, String.ofList_toList]

theorem pieces_of_no_slash {cut : Char → Bool} {cs : List Char} (h : ∀ c ∈ cs, cut c = false) :
    Text.pieces cut cs = [cs] := by
  induction cs with
  | nil => rfl
  | cons c cs ih =>
      have hc : cut c = false := h c (by simp)
      have hcs : Text.pieces cut cs = [cs] := ih fun d hd => h d (List.mem_cons_of_mem _ hd)
      simp [Text.pieces, hc, hcs]

end Path

end DeskShell.Files
