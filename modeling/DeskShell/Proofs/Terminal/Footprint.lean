import DeskShell.Proofs.Files.Footprint
import DeskShell.Proofs.Terminal.History

/-!
# The footprint of a dialogue

Only writes change a tree, so the footprint of requests, and of a dialogue, is bounded by the writes
that are tried: where each of them stays within given locations, all of them together do
(`converse_footprint`).
-/

set_option autoImplicit false

namespace DeskShell.Files

open FileTree

/-- Whether a write, on any tree with a given working directory, stays within given locations. -/
def Write.Within (w : Write) (root : String) (workingDirectory : Location)
    (directories files : Location → Prop) : Prop :=
  ∀ t : FileTree, t.workingDirectory = workingDirectory →
    Footprint directories files t (Sandbox.write root t w.path w.text).1

variable {directories files : Location → Prop}

/-- **Requests** stay within the locations within which their writes do. -/
theorem Access.run_footprint {α : Type} {root : String} {x : Access α} {t : FileTree}
    (h : ∀ w ∈ x.writes root t, w.Within root t.workingDirectory directories files) :
    Footprint directories files t (x.run root t).2 := by
  induction x generalizing t with
  | done a => exact .refl t
  | read path next ih => exact ih _ h
  | list path next ih => exact ih _ h
  | write path text next ih =>
      rw [Access.writes] at h
      have hfirst := h _ (List.mem_cons_self ..) t rfl
      refine hfirst.trans (ih _ fun w hw => ?_)
      rw [hfirst.workingDirectory_eq]
      exact h w (List.mem_cons_of_mem _ hw)

end DeskShell.Files

namespace DeskShell.Terminal

open Files FileTree

variable {directories files : Location → Prop}

/-- **A dialogue** stays within the locations within which its writes do. -/
theorem Dialogue.converse_footprint {σ : Type} {d : Dialogue σ} {root : String}
    {opening : Access (Turn σ)} {t : FileTree} {lines : List RawLine}
    (h : ∀ w ∈ d.converseWrites root opening t lines,
      w.Within root t.workingDirectory directories files) :
    Footprint directories files t (d.converse root opening t lines).tree := by
  -- the writes so far bound what has become of the tree so far
  refine d.converse_induction (motive := fun _ written _ t' =>
    (∀ w ∈ written, w.Within root t.workingDirectory directories files) →
      Footprint directories files t t') Access.run_footprint ?hear ?atEnd h
  case hear =>
    intro heard written s t' raw line hraw htext hbefore hall
    have hrun := hbefore fun w hw => hall w (List.mem_append_left _ hw)
    refine hrun.trans (Access.run_footprint fun w hw => ?_)
    rw [hrun.workingDirectory_eq]
    exact hall w (List.mem_append_right _ hw)
  case atEnd =>
    intro heard written s t' hbefore hall
    have hrun := hbefore fun w hw => hall w (List.mem_append_left _ hw)
    refine hrun.trans (Access.run_footprint fun w hw => ?_)
    rw [hrun.workingDirectory_eq]
    exact hall w (List.mem_append_right _ hw)

end DeskShell.Terminal
