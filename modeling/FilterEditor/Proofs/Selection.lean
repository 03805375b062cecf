import FilterEditor.Proofs.Chain
import FilterEditor.Proofs.Rebase
import FilterEditor.Proofs.View

/-!
# The selection leads somewhere

Every command keeps the selected path one that is not the root and leads to a place of the tree.  So
whatever is selected has a preview, and the expression that is evaluated is that preview.

After a mutation the selection is rebased and then checked.  The check has nothing to do: a path that
led somewhere still does once it is rebased (`View.Valid.selected?_follow`), so the selection is lost
with the place itself and not otherwise.
-/

namespace FilterEditor

namespace Session

def View.Valid (v : View) : Prop :=
  ∀ path, v.selected? = some path → path ≠ [] ∧ (v.root.resolve? path).isSome

namespace View.Valid

variable {stem : String} {m : Mutation} {root : Pipeline} {v v' : View}

theorem of_none (h : v.selected? = none) : v.Valid := by
  intro path hpath
  rw [h] at hpath
  cases hpath

/-- A selection that leads somewhere is lost only when `rebase` loses it. -/
theorem selected?_follow (hv : v.Valid) (hm : m.applyWith stem v.root = .ok root) :
    (v.follow m root).selected? = v.selected?.bind m.rebase := by
  rw [View.follow]
  cases hsel : v.selected? with
  | none => rfl
  | some path =>
    obtain ⟨-, hres⟩ := hv path hsel
    rw [Option.bind_some]
    cases hp : m.rebase path with
    | none => rfl
    | some p => exact if_pos (Mutation.resolve?_rebase_isSome hm hres hp)

theorem follow (hv : v.Valid) (hm : m.applyWith stem v.root = .ok root) :
    (v.follow m root).Valid := by
  intro p hp
  rw [hv.selected?_follow hm, Option.bind_eq_some_iff] at hp
  obtain ⟨path, hpath, hrebase⟩ := hp
  obtain ⟨hne, hres⟩ := hv path hpath
  refine ⟨?_, Mutation.resolve?_rebase_isSome hm hres hrebase⟩
  have hlen := Mutation.length_rebase hrebase
  rw [← List.length_pos_iff] at hne ⊢
  omega

theorem turn (hv : v.Valid) (h : Turn stem v v') : v'.Valid := by
  cases h with
  | mutate hm => exact hv.follow hm
  | replace root => exact of_none rfl
  | select hne hres =>
    intro path hpath
    cases hpath
    exact ⟨hne, hres⟩
  | deselect => exact of_none rfl
  | setInput text => exact hv

theorem preview?_isSome (hv : v.Valid) :
    (v.selected?.bind v.root.preview?).isSome = v.selected?.isSome := by
  cases hsel : v.selected? with
  | none => rfl
  | some path =>
    rw [Option.bind_some, Option.isSome_some]
    exact Pipeline.preview?_isSome_iff.mpr (hv path hsel)

end View.Valid

theorem Moves.valid {s s' : Session} (h : Moves s s') (hs : s.view.Valid) : s'.view.Valid := by
  cases h with
  | still hview _ =>
    rw [hview]
    exact hs
  | turn hturn _ => exact hs.turn hturn

theorem valid_run {s : Session} (hs : s.view.Valid) (cs : List Command) :
    (run cs s).view.Valid := by
  induction cs generalizing s with
  | nil => exact hs
  | cons c rest ih => exact ih ((moves_perform c s).valid hs)

/-- **The selection never dangles.**  Whatever has been done with a session, the selected path is not
the root and leads somewhere, the selection has a preview, and the preview is what is evaluated.  A
mutation that applies next takes the selection to where `rebase` says, and drops it only when
`rebase` does. -/
theorem selection_never_dangles (id : String) (document : Document) (config : Config)
    (cs : List Command) :
    let s := run cs (ofConfig id document config)
    (∀ path, s.selectedPath? = some path → path ≠ [] ∧ (s.document.resolve? path).isSome) ∧
      s.selectedExpression?.isSome = s.selectedPath?.isSome ∧
      (s.selectedPath?.isSome → s.selectedExpression? = some s.activeExpression) ∧
      ∀ m, (s.apply m).1.isApplied →
        (s.apply m).2.selectedPath? = s.selectedPath?.bind m.rebase := by
  intro s
  have hvalid : s.view.Valid := valid_run (View.Valid.of_none rfl) cs
  have hpreview : s.selectedExpression?.isSome = s.selectedPath?.isSome := hvalid.preview?_isSome
  refine ⟨hvalid, hpreview, fun hsel => ?_, fun m happlied => ?_⟩
  · obtain ⟨text, htext⟩ := Option.isSome_iff_exists.mp (hpreview.trans hsel)
    rw [activeExpression, htext]
    rfl
  · cases hm : m.applyWith s.document.freshKeyPrefix s.document.root with
    | error e =>
      rw [apply_of_error hm] at happlied
      cases happlied
    | ok root =>
      obtain ⟨-, hview, -⟩ := apply_of_ok hm
      have hfollow := hvalid.selected?_follow hm
      rw [← hview] at hfollow
      exact hfollow

end Session

end FilterEditor
