import Pinflow.Value.Path

/-!
# Reading after writing at a dotted path

A write at a path is seen at that path and replaces what an earlier write left there. At a path
that parts from it the write is not seen, unless it had to put an object in place of something
else on the way. All of this is proved by induction on the segments of a path.
-/

namespace Pinflow

open List

namespace Path

theorem splitAt_ne_nil (separator : Char) (cs : List Char) : splitAt separator cs ≠ [] := by
  cases cs with
  | nil => exact cons_ne_nil _ _
  | cons =>
    rw [splitAt]
    split
    · exact cons_ne_nil _ _
    · split <;> exact cons_ne_nil _ _

theorem segments_ne_nil (path : String) : segments path ≠ [] :=
  fun none => splitAt_ne_nil '.' path.toList (map_eq_nil_iff.mp none)

end Path

namespace Fields

variable {root : Fields} {segment : String} {rest : List String} {v : Value}

theorem child_insert (root : Fields) (segment : String) (fields : Fields) :
    (root.insert segment (.obj fields)).child segment = fields := by
  rw [child, get?_insert_self]

/-- If there is nothing under a key or an object, what lies below is followed from its fields. -/
theorem follow?_cons
    (clear : ∀ value, root.get? segment = some value → ∃ fields, value = .obj fields)
    (more : rest ≠ []) : root.follow? (segment :: rest) = (root.child segment).follow? rest := by
  obtain ⟨next, rest, rfl⟩ := exists_cons_of_ne_nil more
  cases found : root.get? segment with
  | none => simp [follow?, child, found]
  | some value =>
    obtain ⟨fields, rfl⟩ := clear value found
    rw [follow?, child, found, Option.bind_some, foldlM_cons]
    rfl

theorem assignAt_cons (more : rest ≠ []) :
    root.assignAt (segment :: rest) v =
      root.insert segment (.obj ((root.child segment).assignAt rest v)) := by
  obtain ⟨next, rest, rfl⟩ := exists_cons_of_ne_nil more
  rfl

theorem follow?_assignAt_cons (more : rest ≠ []) {later : List String} (deeper : later ≠ []) :
    (root.assignAt (segment :: rest) v).follow? (segment :: later) =
      ((root.child segment).assignAt rest v).follow? later := by
  rw [assignAt_cons more, follow?_cons _ deeper, child_insert]
  rintro value found
  rw [get?_insert_self] at found
  cases found
  exact ⟨_, rfl⟩

theorem follow?_assignAt_self {path : List String} (some : path ≠ []) :
    (root.assignAt path v).follow? path = .some v := by
  induction path generalizing root with
  | nil => exact absurd rfl some
  | cons segment rest ih =>
    by_cases last : rest = []
    · subst last
      simp [assignAt, follow?, get?_insert_self]
    · rw [follow?_assignAt_cons last last, ih last]

theorem assignAt_assignAt (root : Fields) (path : List String) (v w : Value) :
    (root.assignAt path v).assignAt path w = root.assignAt path w := by
  induction path generalizing root with
  | nil => rfl
  | cons segment rest ih =>
    by_cases last : rest = []
    · subst last
      exact insert_insert root segment v w
    · rw [assignAt_cons last, assignAt_cons last, assignAt_cons last, insert_insert, child_insert,
        ih]

/-- Only objects are found where two paths still go together. -/
def ClearAlong (root : Fields) (p q : List String) : Prop :=
  ∀ front found, front ≠ [] → front <+: p → front <+: q → root.follow? front = some found →
    ∃ fields, found = .obj fields

/-- A write is not seen at a path that parts from it. -/
theorem follow?_assignAt_of_parted {p q : List String} (clear : root.ClearAlong p q)
    (apart : ¬ p <+: q) (apart' : ¬ q <+: p) :
    (root.assignAt p v).follow? q = root.follow? q := by
  induction p generalizing root q with
  | nil => exact absurd nil_prefix apart
  | cons segment rest ih =>
    cases q with
    | nil => exact absurd nil_prefix apart'
    | cons other later =>
      by_cases same : segment = other
      · subst same
        rw [prefix_cons_inj] at apart apart'
        have more : rest ≠ [] := fun none => apart (none ▸ nil_prefix)
        have deeper : later ≠ [] := fun none => apart' (none ▸ nil_prefix)
        have shared : ∀ front found, front <+: rest → front <+: later →
            root.follow? (segment :: front) = some found → ∃ fields, found = .obj fields :=
          fun front found isFront isFront' =>
            clear (segment :: front) found (cons_ne_nil _ _)
              ((prefix_cons_inj segment).mpr isFront)
              ((prefix_cons_inj segment).mpr isFront')
        have here : ∀ value, root.get? segment = some value → ∃ fields, value = .obj fields :=
          fun value found =>
            shared [] value nil_prefix nil_prefix (by simp [follow?, found])
        rw [follow?_assignAt_cons more deeper, ih _ apart apart', follow?_cons here deeper]
        intro front found some isFront isFront' isFound
        exact shared front found isFront isFront' ((follow?_cons here some).trans isFound)
      · -- The paths part here, so the write goes under another key.
        have elsewhere : ∀ new, (root.insert segment new).follow? (other :: later) =
            root.follow? (other :: later) := by
          intro new
          rw [follow?, follow?, get?_insert_of_ne root new same]
        cases rest with
        | nil => exact elsewhere v
        | cons => exact elsewhere _

open Pinflow.Path

/-- A write at a path is a field update: it is seen at this path, the last of two writes stands,
and a path that parts from it reads as before, provided that only objects are found where the
two paths still go together. -/
theorem assign_updates_field (root : Fields) (p q : String) (v w : Value) :
    (root.assign p v).lookup? p = some v ∧
    (root.assign p v).assign p w = root.assign p w ∧
    (¬ segments p <+: segments q → ¬ segments q <+: segments p →
      root.ClearAlong (segments p) (segments q) →
      (root.assign p v).lookup? q = root.lookup? q) := by
  refine ⟨follow?_assignAt_self (segments_ne_nil p), assignAt_assignAt root _ v w, ?_⟩
  intro apart apart' clear
  exact follow?_assignAt_of_parted clear apart apart'

def player : Fields :=
  [("player", .obj [("bag", .arr [.str "axe", .str "rope"]), ("hp", .int 10)])]

theorem assign_updates_field_player :
    (player.assign "player.pos.x" (.int 7)).lookup? "player.bag.1" = some (.str "rope") := by
  obtain ⟨-, -, apart⟩ :=
    assign_updates_field player "player.pos.x" "player.bag.1" (.int 7) .null
  refine (apart (by decide) (by decide) ?_).trans rfl
  intro front found some inPos inBag isFound
  have inPos : front <+: ["player", "pos", "x"] := inPos
  have inBag : front <+: ["player", "bag", "1"] := inBag
  -- The two paths go together for one segment.
  rcases front with - | ⟨first, - | ⟨second, later⟩⟩
  · exact absurd rfl some
  · obtain ⟨rfl, -⟩ := cons_prefix_cons.mp inPos
    cases isFound
    exact ⟨_, rfl⟩
  · simp only [cons_prefix_cons] at inPos inBag
    exact absurd (inPos.2.1.symm.trans inBag.2.1) (by decide)

end Fields

end Pinflow
