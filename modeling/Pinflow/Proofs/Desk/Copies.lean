import Pinflow.Proofs.Desk.Archiving

/-!
# Bounded copies of values

A bounded copy is the value itself or a marker that tells how long its text is and how it begins.
There is one exception: a value that nests deeper than text is read becomes null, although its
text is short enough. A run builds such values out of what a graph can hold.
-/

namespace Pinflow

open Json

namespace Value

variable {v : Value} {most : Nat}

theorem bounded_of_lt (long : most < v.render.utf8ByteSize) :
    v.bounded most = .obj [("$truncated", .bool true), ("bytes", .int v.render.utf8ByteSize),
      ("preview", .str (String.ofList (v.render.toList.take (min 128 v.render.length))))] := by
  have first : "$truncated" < "bytes" := by decide
  have second : "$truncated" < "preview" := by decide
  have third : "bytes" < "preview" := by decide
  have taken : v.render.toList.take previewLength =
      v.render.toList.take (min 128 v.render.length) :=
    List.take_eq_take_iff.mpr (by rw [String.length_toList, Nat.min_assoc, Nat.min_self]; rfl)
  rw [bounded, boundedText, if_pos long, marker, taken, object, Fields.ofList_of_increasing]
  · rfl
  · exact .cons (List.forall_mem_cons.mpr ⟨first, List.forall_mem_singleton.mpr second⟩)
      (List.pairwise_pair.mpr third)

/-- A bounded copy is the value itself if its text is short enough, and otherwise a marker with
the size of the text in bytes and its first characters. A value that nests too deep to be read
back is lost instead of kept. -/
theorem bounded_kept_or_marked_unless_deep (proper : v.Proper)
    (rereads : ∀ x ∈ v.floats, Rereads x) (most : Nat) :
    (v.render.utf8ByteSize ≤ most →
      v.bounded most = if v.depth ≤ maxDepth then v else .null) ∧
    (most < v.render.utf8ByteSize →
      v.bounded most = .obj [("$truncated", .bool true), ("bytes", .int v.render.utf8ByteSize),
        ("preview", .str (String.ofList (v.render.toList.take (min 128 v.render.length))))]) := by
  refine ⟨fun short => ?_, bounded_of_lt⟩
  rw [bounded, boundedText, if_neg (Nat.not_lt.mpr short), read?_render_eq proper rereads]
  split <;> rfl

/-- A value whose text has fewer characters than bytes. -/
def accented : Value := .obj [("é", .arr [.float 1.5, .str "\t"])]

theorem bounded_kept_or_marked_accented :
    accented.bounded 17 = accented ∧
    accented.bounded 16 = .obj [("$truncated", .bool true), ("bytes", .int 17),
      ("preview", .str "\x7b\"é\":[1.5,\"\\t\"]\x7d")] := by
  have proper : accented.Proper := by
    refine ⟨by decide, .obj (List.pairwise_singleton _ _) ?_⟩
    simp [Ordered.arr, Ordered.float, Ordered.str]
  have rereads : ∀ x ∈ accented.floats, Rereads x := List.forall_mem_singleton.mpr rfl
  have size : accented.render.utf8ByteSize = 17 := by decide +kernel
  have kept := (bounded_kept_or_marked_unless_deep proper rereads 17).1 (by rw [size])
  have marked := (bounded_kept_or_marked_unless_deep proper rereads 16).2 (by rw [size]; decide)
  refine ⟨kept, ?_⟩
  rw [marked, size]
  rfl

end Value

namespace Desk

/-- A remark that is wrapped six times on its way. -/
def wrappedRemark : Graph where
  id := "g"
  nodes := { id := "start", kind := "log" } ::
    { id := "p1"
      kind := "make_array"
      config := [("arity", .int 1), ("item_0", nested 121)] } ::
    ["p2", "p3", "p4", "p5", "p6"].map fun id =>
      { id, kind := "make_array", config := [("arity", .int 1)] }
  edges := ⟨⟨"p6", "array"⟩, ⟨"start", "message"⟩⟩ ::
    [("p1", "p2"), ("p2", "p3"), ("p3", "p4"), ("p4", "p5"), ("p5", "p6")].map fun wire =>
      ⟨⟨wire.1, "array"⟩, ⟨wire.2, "item_0"⟩⟩

/-- What a run remarks is lost in a bounded copy that has room for all of its text. -/
theorem bounded_loses_wrappedRemark :
    (∃ outcome, ((vacant []).play [tracedStart wrappedRemark]).outcome? "x" = some outcome ∧
      outcome.lines = [(nested 127).render]) ∧
    (nested 127).render.utf8ByteSize = 256 ∧ (nested 127).bounded 256 = .null := by
  have computed : (((vacant []).play [tracedStart wrappedRemark]).outcome? "x").any
      (fun outcome => outcome.lines = [(nested 127).render]) = true := by decide +kernel
  obtain ⟨outcome, ended, remarks⟩ := (Option.any_eq_true _ _).mp computed
  refine ⟨⟨outcome, ended, of_decide_eq_true remarks⟩, by decide +kernel, ?_⟩
  have lost : ((nested 127).bounded 256).isNull = true := by decide +kernel
  cases held : (nested 127).bounded 256 with
  | null => rfl
  | _ =>
    rw [held] at lost
    cases lost

end Desk

end Pinflow
