import Mathlib.Data.List.Induction
import Pinflow.Archive.Memory
import Pinflow.Proofs.Archive.Table
import Pinflow.Proofs.Circuit.Arrangement
import Pinflow.Proofs.Time.Order

/-!
# One archive for the other

What a memory and a table have in common after the same traces were persisted in both. They
hold the same traces, so both load what can be read back, and both list every id once. The
memory lists traces in the order in which their ids first came, the table by the text of their
start and then by the order in which they were last written. So the two lists are the same if
and only if the first order is the second.
-/

namespace Pinflow

open Json List

def MemoryArchive.persistAll (archive : MemoryArchive) (traces : List Trace) : MemoryArchive :=
  traces.foldl persist archive

def TableArchive.persistAll (archive : TableArchive) (traces : List Trace) : TableArchive :=
  traces.foldl persist archive

namespace Trace

def rewrite (written : List Trace) (trace : Trace) : List Trace :=
  written.filter (fun other => other.id != trace.id) ++ [trace]

/-- The traces that are left of all that were written, in the order of writing. -/
def lastWritten (traces : List Trace) : List Trace := traces.foldl rewrite []

end Trace

namespace MemoryArchive

theorem isSome_load? (archive : MemoryArchive) (id : String) :
    (archive.load? id).isSome ↔ id ∈ archive.traces.map Trace.id := by
  rw [load?, find?_isSome, mem_map]
  simp only [beq_iff_eq]

/-- An id keeps its place when its trace comes again. -/
theorem ids_persist (archive : MemoryArchive) (trace : Trace) :
    (archive.persist trace).traces.map Trace.id =
      if trace.id ∈ archive.traces.map Trace.id then archive.traces.map Trace.id
      else archive.traces.map Trace.id ++ [trace.id] := by
  rw [persist]
  by_cases known : trace.id ∈ archive.traces.map Trace.id
  · rw [if_pos known, if_pos ((isSome_load? archive trace.id).mpr known), map_map]
    apply map_congr_left
    intro other _
    by_cases same : other.id = trace.id <;> simp [same]
  · have new : ¬ (archive.load? trace.id).isSome := by rwa [isSome_load?]
    rw [if_neg known, if_neg new, map_append]
    rfl

/-- The memory holds the ids in the order in which they first came. -/
theorem ids_persistAll (traces : List Trace) :
    (persistAll {} traces).traces.map Trace.id = (traces.map Trace.id).eraseDups := by
  induction traces using reverseRecOn with
  | nil => rfl
  | append_singleton traces trace ih =>
    have last : persistAll {} (traces ++ [trace]) = (persistAll {} traces).persist trace :=
      foldl_append
    rw [last, ids_persist, ih, map_append, eraseDups_append, removeAll]
    by_cases known : trace.id ∈ traces.map Trace.id
    · have dropped : (!(traces.map Trace.id).elem trace.id) = false := by simpa using known
      rw [if_pos (mem_eraseDups.mpr known), map_singleton, filter_singleton, dropped]
      exact (append_nil _).symm
    · have kept : (!(traces.map Trace.id).elem trace.id) = true := by simpa using known
      rw [if_neg (mt mem_eraseDups.mp known), map_singleton, filter_singleton, kept]
      rfl

end MemoryArchive

structure Mirrors (memory : MemoryArchive) (table : TableArchive) (written : List Trace) :
    Prop where
  rows : table.rows = written.map TraceRow.ofTrace
  same : written.Perm memory.traces
  distinct : (written.map Trace.id).Nodup

namespace Mirrors

variable {memory : MemoryArchive} {table : TableArchive} {written : List Trace}

theorem nodup_rewrite (distinct : (written.map Trace.id).Nodup) (trace : Trace) :
    ((Trace.rewrite written trace).map Trace.id).Nodup := by
  rw [Trace.rewrite, map_append, nodup_append]
  refine ⟨distinct.sublist (filter_sublist.map Trace.id), nodup_singleton _, ?_⟩
  intro id kept other isLast
  obtain ⟨trace', member, rfl⟩ := mem_map.mp kept
  rw [mem_singleton.mp isLast]
  simpa using (mem_filter.mp member).2

theorem mem_persist {trace other : Trace} : other ∈ (memory.persist trace).traces ↔
    other ∈ memory.traces ∧ other.id ≠ trace.id ∨ other = trace := by
  rw [MemoryArchive.persist]
  split
  · rename_i known
    obtain ⟨held, member, same⟩ := find?_isSome.mp known
    constructor
    · intro isMember
      obtain ⟨before, isBefore, rfl⟩ := mem_map.mp isMember
      split
      · exact .inr rfl
      · rename_i apart
        exact .inl ⟨isBefore, by simpa using apart⟩
    · rintro (⟨isMember, apart⟩ | rfl)
      · exact mem_map.mpr ⟨other, isMember, if_neg (by simpa using apart)⟩
      · exact mem_map.mpr ⟨held, member, if_pos same⟩
  · rename_i unknown
    rw [mem_append, mem_singleton]
    refine or_congr_left (iff_self_and.mpr fun isMember same => unknown ?_)
    exact find?_isSome.mpr ⟨other, isMember, beq_iff_eq.mpr same⟩

theorem perm_persist (distinct : (memory.traces.map Trace.id).Nodup) (trace : Trace) :
    (Trace.rewrite memory.traces trace).Perm (memory.persist trace).traces := by
  have ids : ((memory.persist trace).traces.map Trace.id).Nodup := by
    rw [MemoryArchive.ids_persist]
    split
    · exact distinct
    · rename_i new
      exact distinct.append (nodup_singleton _) (disjoint_singleton.mpr new)
  refine (perm_ext_iff_of_nodup (nodup_rewrite distinct trace).of_map ids.of_map).mpr ?_
  intro other
  rw [mem_persist, Trace.rewrite, mem_append, mem_filter, mem_singleton, bne_iff_ne]

/-- Persisting a trace in both keeps them alike. -/
theorem persist (mirrors : Mirrors memory table written) (trace : Trace) :
    Mirrors (memory.persist trace) (table.persist trace) (Trace.rewrite written trace) := by
  have distinct : (memory.traces.map Trace.id).Nodup :=
    (mirrors.same.map Trace.id).nodup_iff.mp mirrors.distinct
  constructor
  · show table.rows.filter (fun row => row.id != trace.id) ++ [TraceRow.ofTrace trace] = _
    rw [mirrors.rows, filter_map, Trace.rewrite, map_append]
    rfl
  · exact ((mirrors.same.filter _).append_right _).trans (perm_persist distinct trace)
  · exact nodup_rewrite mirrors.distinct trace

theorem persistAll (mirrors : Mirrors memory table written) (traces : List Trace) :
    Mirrors (memory.persistAll traces) (table.persistAll traces)
      (traces.foldl Trace.rewrite written) := by
  induction traces generalizing memory table written with
  | nil => exact mirrors
  | cons trace traces ih => exact ih (mirrors.persist trace)

theorem ofEmpty (traces : List Trace) :
    Mirrors (MemoryArchive.persistAll {} traces) (TableArchive.persistAll {} traces)
      (Trace.lastWritten traces) :=
  persistAll ⟨rfl, Perm.refl [], nodup_nil⟩ traces

theorem row?_eq (mirrors : Mirrors memory table written) (id : String) :
    table.row? id = (memory.load? id).map TraceRow.ofTrace := by
  have found := find?_eq_of_perm mirrors.distinct mirrors.same id
  rw [TableArchive.row?, mirrors.rows, find?_map]
  exact congrArg (Option.map TraceRow.ofTrace) found

/-- The table loads what the memory loads, except for traces that nest too deep. -/
theorem load_eq (mirrors : Mirrors memory table written)
    (legible : ∀ trace ∈ memory.traces, trace.Legible) (id : String) :
    table.load id = (memory.load? id).elim (.ok none) fun trace =>
      if trace.Shallow then .ok (some trace)
      else .error (TableArchive.corruption (.ofTrace trace)) := by
  have row := mirrors.row?_eq id
  cases held : memory.load? id with
  | none =>
    rw [held] at row
    rw [TableArchive.load, row]
    rfl
  | some trace =>
    have isId : trace.id = id := by simpa using find?_some held
    subst isId
    rw [held] at row
    exact TableArchive.load_of_row? (legible trace (mem_of_find?_eq_some held)) row

end Mirrors

section Order

variable {α : Type} {a b : α} {list : List α}

/-- Two members of a list stand in one order or in the other. -/
theorem sublist_or_sublist (first : a ∈ list) (second : b ∈ list) (apart : a ≠ b) :
    [a, b].Sublist list ∨ [b, a].Sublist list := by
  induction list with
  | nil => exact absurd first not_mem_nil
  | cons x rest ih =>
    rcases mem_cons.mp first with rfl | firstLater
    · rcases mem_cons.mp second with rfl | secondLater
      · exact absurd rfl apart
      · exact .inl ((singleton_sublist.mpr secondLater).cons_cons a)
    · rcases mem_cons.mp second with rfl | secondLater
      · exact .inr ((singleton_sublist.mpr firstLater).cons_cons b)
      · exact (ih firstLater secondLater).imp (·.cons x) (·.cons x)

/-- Without repetitions they do not stand in both. -/
theorem not_sublist_of_sublist (distinct : list.Nodup) (inOrder : [a, b].Sublist list) :
    ¬ [b, a].Sublist list := by
  induction list with
  | nil => exact absurd inOrder (by simp)
  | cons x rest ih =>
    obtain ⟨new, distinct⟩ := nodup_cons.mp distinct
    intro reversed
    cases inOrder with
    | cons _ inOrder =>
      cases reversed with
      | cons _ reversed => exact ih distinct inOrder reversed
      | cons_cons => exact new (inOrder.subset (by simp))
    | cons_cons _ inOrder =>
      cases reversed with
      | cons _ reversed => exact new (reversed.subset (by simp))
      | cons_cons => exact new (singleton_sublist.mp inOrder)

/-- Sorting does not turn members round that are equal to it. -/
theorem sublist_of_sublist_mergeSort {le : α → α → Bool}
    (trans : ∀ a b c, le a b = true → le b c = true → le a c = true)
    (total : ∀ a b, (le a b || le b a) = true) (distinct : list.Nodup)
    (inOrder : [a, b].Sublist (list.mergeSort le)) (alike : le b a = true) :
    [a, b].Sublist list := by
  have sorted : (list.mergeSort le).Nodup := (mergeSort_perm list le).nodup_iff.mpr distinct
  have apart : a ≠ b := by
    intro same
    have twice := sorted.sublist inOrder
    rw [same] at twice
    simp at twice
  have first : a ∈ list := mem_mergeSort.mp (inOrder.subset (by simp))
  have second : b ∈ list := mem_mergeSort.mp (inOrder.subset (by simp))
  rcases sublist_or_sublist first second apart with stays | turned
  · exact stays
  · have kept := pair_sublist_mergeSort trans total alike turned
    exact absurd kept (not_sublist_of_sublist sorted inOrder)

theorem eq_of_map_eq {β : Type} {f : α → β} {other : List α}
    (injective : ∀ x ∈ list, ∀ y ∈ other, f x = f y → x = y) (same : list.map f = other.map f) :
    list = other := by
  induction list generalizing other with
  | nil => exact (map_eq_nil_iff.mp same.symm).symm
  | cons x list ih =>
    cases other with
    | nil => cases same
    | cons y =>
      obtain ⟨first, rest⟩ := cons.inj same
      rw [injective x mem_cons_self y mem_cons_self first]
      refine congrArg (y :: ·) (ih ?_ rest)
      intro a inList b inOther
      exact injective a (mem_cons_of_mem x inList) b (mem_cons_of_mem y inOther)

end Order

namespace Trace

/-- Of two traces that were written, the first started later, or at the same time and was
written later. -/
def Newer (written : List Trace) (a b : Trace) : Prop :=
  b.started.offsetText < a.started.offsetText ∨
    a.started.offsetText = b.started.offsetText ∧ [b, a].Sublist written

/-- The traces of a graph as a table lists them. -/
def newestFirst (written : List Trace) (graph : String) : List Trace :=
  (written.reverse.filter fun trace => trace.graph == graph).mergeSort fun a b =>
    b.started.offsetText ≤ a.started.offsetText

variable {written : List Trace} (distinct : written.Nodup)
include distinct

theorem newer_antisymm {a b : Trace} (later : Newer written a b) (earlier : Newer written b a) :
    a = b := by
  rcases later with later | ⟨same, later⟩
  · rcases earlier with earlier | ⟨same, -⟩
    · exact absurd earlier (String.lt_asymm later)
    · rw [same] at later
      exact absurd later (String.lt_irrefl _)
  · rcases earlier with earlier | ⟨-, earlier⟩
    · rw [same] at earlier
      exact absurd earlier (String.lt_irrefl _)
    · exact absurd earlier (not_sublist_of_sublist distinct later)

omit distinct in
/-- While years have four digits, a trace that is newer did not start before the other. -/
theorem not_before_of_newer {a b : Trace} (validA : a.started.Valid) (validB : b.started.Valid)
    (plainA : a.started.PlainYear) (plainB : b.started.PlainYear) (newer : Newer written a b) :
    ¬ a.started.Before b.started := by
  rw [← Instant.offsetText_lt_iff validA validB plainA plainB]
  rcases newer with later | ⟨same, -⟩
  · exact String.lt_asymm later
  · rw [same]
    exact String.lt_irrefl _

theorem pairwise_newestFirst (graph : String) :
    (newestFirst written graph).Pairwise (Newer written) := by
  have total : ∀ a b : Trace, (decide (b.started.offsetText ≤ a.started.offsetText) ||
      decide (a.started.offsetText ≤ b.started.offsetText)) = true := by
    intro a b
    simpa using String.le_total _ _
  have trans : ∀ a b c : Trace, decide (b.started.offsetText ≤ a.started.offsetText) = true →
      decide (c.started.offsetText ≤ b.started.offsetText) = true →
        decide (c.started.offsetText ≤ a.started.offsetText) = true := by
    intro a b c later latest
    simp only [decide_eq_true_eq] at *
    exact String.le_trans latest later
  have sorted := pairwise_mergeSort trans total
    (written.reverse.filter fun trace => trace.graph == graph)
  have kept : (written.reverse.filter fun trace => trace.graph == graph).Nodup :=
    (nodup_reverse.mpr distinct).filter _
  rw [pairwise_iff_forall_sublist]
  intro a b inOrder
  have notEarlier : b.started.offsetText ≤ a.started.offsetText := by
    have holds := pairwise_iff_forall_sublist.mp sorted inOrder
    simpa using holds
  by_cases same : a.started.offsetText = b.started.offsetText
  · have unsorted := sublist_of_sublist_mergeSort trans total kept inOrder (by simp [same])
    have backwards := (unsorted.trans filter_sublist).reverse
    rw [reverse_reverse] at backwards
    exact .inr ⟨same, backwards⟩
  · exact .inl (Std.lt_of_le_of_ne notEarlier (Ne.symm same))

end Trace

/-- A limit of 64 bits cuts a list of less than half as many rows, also where it has no sign. -/
theorem TableArchive.limited_eq_take {α : Type} {limit : Nat} (small : limit < unsignedBound)
    {rows : List α} (few : rows.length < signedBound) : limited limit rows = rows.take limit := by
  rw [limited, Nat.mod_eq_of_lt small]
  split
  · rfl
  · rw [take_of_length_le (by omega)]

namespace Mirrors

variable {memory : MemoryArchive} {table : TableArchive} {written : List Trace}
  (mirrors : Mirrors memory table written)
include mirrors

theorem nodup : written.Nodup := mirrors.distinct.of_map

theorem length_newestFirst (graph : String) :
    (Trace.newestFirst written graph).length ≤ memory.traces.length := by
  rw [Trace.newestFirst, length_mergeSort, ← mirrors.same.length_eq,
    ← @length_reverse _ written]
  exact length_filter_le _ _

theorem table_list_eq (graph : String) {limit : Nat} (small : limit < unsignedBound)
    (few : memory.traces.length < signedBound) :
    table.list graph limit = ((Trace.newestFirst written graph).take limit).map Trace.id := by
  have sorted : table.list graph limit =
      (TableArchive.limited limit (((written.reverse.filter fun trace => trace.graph == graph).map
        TraceRow.ofTrace).mergeSort fun a b => b.started ≤ a.started)).map TraceRow.id := by
    rw [TableArchive.list, mirrors.rows, ← map_reverse, filter_map]
    rfl
  have rows : ((Trace.newestFirst written graph).map TraceRow.ofTrace) =
      ((written.reverse.filter fun trace => trace.graph == graph).map TraceRow.ofTrace).mergeSort
        fun a b => b.started ≤ a.started := map_mergeSort fun _ _ _ _ => rfl
  have short : ((Trace.newestFirst written graph).map TraceRow.ofTrace).length < signedBound := by
    rw [length_map]
    exact Nat.lt_of_le_of_lt (mirrors.length_newestFirst graph) few
  rw [sorted, ← rows, TableArchive.limited_eq_take small short, ← map_take, map_map]
  rfl

theorem perm_newestFirst (graph : String) :
    (memory.traces.reverse.filter fun trace => trace.graph == graph).Perm
      (Trace.newestFirst written graph) := by
  have reversed : memory.traces.reverse.Perm written.reverse :=
    (reverse_perm _).trans (mirrors.same.symm.trans (reverse_perm _).symm)
  exact (reversed.filter _).trans (mergeSort_perm _ _).symm

/-- The memory lists as the table does if and only if traces came in the order of their age. -/
theorem lists_eq_iff (graph : String) (few : memory.traces.length < signedBound) :
    (∀ limit < unsignedBound, memory.list graph limit = table.list graph limit) ↔
      (memory.traces.reverse.filter fun trace => trace.graph == graph).Pairwise
        (Trace.Newer written) := by
  have perm := mirrors.perm_newestFirst graph
  have newest := Trace.pairwise_newestFirst mirrors.nodup graph
  constructor
  · intro agree
    have small : (memory.traces.reverse.filter fun trace => trace.graph == graph).length <
        unsignedBound := by
      have bounds : signedBound < unsignedBound := by decide
      have length := mirrors.length_newestFirst graph
      rw [perm.length_eq]
      omega
    have whole := agree _ small
    rw [mirrors.table_list_eq graph small few, MemoryArchive.list, take_length, perm.length_eq,
      take_length] at whole
    have injective : ∀ x ∈ memory.traces.reverse.filter (fun trace => trace.graph == graph),
        ∀ y ∈ Trace.newestFirst written graph, x.id = y.id → x = y := by
      intro x inMemory y inTable same
      have stored : ∀ {z}, z ∈ memory.traces.reverse.filter (fun trace => trace.graph == graph) →
          z ∈ written := by
        intro z member
        exact mirrors.same.mem_iff.mpr (mem_reverse.mp (mem_filter.mp member).1)
      exact inj_on_of_nodup_map mirrors.distinct (stored inMemory)
        (stored (perm.mem_iff.mpr inTable)) same
    rw [eq_of_map_eq injective whole]
    exact newest
  · intro ordered limit small
    have same :=
      perm.eq_of_pairwise (fun _ _ _ _ => Trace.newer_antisymm mirrors.nodup) ordered newest
    rw [mirrors.table_list_eq graph small few, MemoryArchive.list, same]

end Mirrors

namespace Trace

theorem mem_foldl_rewrite {traces written : List Trace} {trace : Trace}
    (member : trace ∈ traces.foldl rewrite written) : trace ∈ traces ∨ trace ∈ written := by
  induction traces generalizing written with
  | nil => exact .inr member
  | cons first traces ih =>
    rcases ih member with later | here
    · exact .inl (mem_cons_of_mem first later)
    · rcases mem_append.mp here with kept | last
      · exact .inr (mem_filter.mp kept).1
      · rw [mem_singleton.mp last]
        exact .inl mem_cons_self

theorem mem_of_mem_lastWritten {traces : List Trace} {trace : Trace}
    (member : trace ∈ lastWritten traces) : trace ∈ traces := by
  rcases mem_foldl_rewrite member with written | none
  · exact written
  · exact absurd none not_mem_nil

theorem length_foldl_rewrite_le (traces written : List Trace) :
    (traces.foldl rewrite written).length ≤ written.length + traces.length := by
  induction traces generalizing written with
  | nil => exact Nat.le_refl _
  | cons first traces ih =>
    refine Nat.le_trans (ih (rewrite written first)) ?_
    have kept : (rewrite written first).length ≤ written.length + 1 := by
      rw [rewrite, length_append]
      exact Nat.succ_le_succ (length_filter_le _ _)
    rw [length_cons]
    omega

end Trace

/-- After the same traces both archives load the same, except for traces that nest too deep. A
memory keeps traces in the order in which their ids first came. A table lists the traces of a
graph each once and newest first, by their texts and so by their starts while years have four
digits. A memory lists the same if and only if the traces of the graph came in the order of their
age. -/
theorem interchangeable_iff_came_by_age (traces : List Trace)
    (legible : ∀ trace ∈ traces, trace.Legible) (few : traces.length < signedBound) :
    (∀ id, (TableArchive.persistAll {} traces).load id =
      ((MemoryArchive.persistAll {} traces).load? id).elim (.ok none) fun trace =>
        if trace.Shallow then .ok (some trace)
        else .error (TableArchive.corruption (.ofTrace trace))) ∧
    (MemoryArchive.persistAll {} traces).traces.map Trace.id = (traces.map Trace.id).eraseDups ∧
    ∀ graph,
      (∃ newest : List Trace,
        newest.Perm ((Trace.lastWritten traces).filter fun trace => trace.graph == graph) ∧
        (newest.map Trace.id).Nodup ∧ newest.Pairwise (Trace.Newer (Trace.lastWritten traces)) ∧
        ((∀ trace ∈ traces, trace.started.PlainYear) →
          newest.Pairwise fun a b => ¬ a.started.Before b.started) ∧
        ∀ limit < unsignedBound, (TableArchive.persistAll {} traces).list graph limit =
          (newest.take limit).map Trace.id) ∧
      ((∀ limit < unsignedBound, (MemoryArchive.persistAll {} traces).list graph limit =
          (TableArchive.persistAll {} traces).list graph limit) ↔
        ((MemoryArchive.persistAll {} traces).traces.reverse.filter fun trace =>
          trace.graph == graph).Pairwise (Trace.Newer (Trace.lastWritten traces))) := by
  have mirrors := Mirrors.ofEmpty traces
  have stored : ∀ trace ∈ (MemoryArchive.persistAll {} traces).traces, trace.Legible := by
    intro trace member
    exact legible trace (Trace.mem_of_mem_lastWritten (mirrors.same.mem_iff.mpr member))
  have fewStored : (MemoryArchive.persistAll {} traces).traces.length < signedBound := by
    have bound := Trace.length_foldl_rewrite_le traces []
    have count := mirrors.same.length_eq
    rw [Trace.lastWritten] at count
    rw [length_nil] at bound
    omega
  refine ⟨mirrors.load_eq stored, MemoryArchive.ids_persistAll traces,
    fun graph => ⟨?_, mirrors.lists_eq_iff graph fewStored⟩⟩
  have perm : (Trace.newestFirst (Trace.lastWritten traces) graph).Perm
      ((Trace.lastWritten traces).filter fun trace => trace.graph == graph) :=
    (mergeSort_perm _ _).trans ((reverse_perm _).filter _)
  have newer := Trace.pairwise_newestFirst mirrors.nodup graph
  refine ⟨Trace.newestFirst (Trace.lastWritten traces) graph, perm, ?_, newer, ?_,
    fun limit small => mirrors.table_list_eq graph small fewStored⟩
  · rw [(perm.map Trace.id).nodup_iff]
    exact mirrors.distinct.sublist (filter_sublist.map Trace.id)
  · intro plain
    have persisted : ∀ trace ∈ Trace.newestFirst (Trace.lastWritten traces) graph,
        trace ∈ traces := by
      intro trace member
      exact Trace.mem_of_mem_lastWritten (mem_filter.mp (perm.mem_iff.mp member)).1
    refine newer.imp_of_mem fun {a b} memberA memberB isNewer => ?_
    have inA := persisted a memberA
    have inB := persisted b memberB
    exact Trace.not_before_of_newer (legible a inA).started (legible b inB).started (plain a inA)
      (plain b inB) isNewer

/-- A trace without steps that started at a second of the first day. -/
def startedAt (id : String) (second : Nat) : Trace :=
  { id, graph := "g", invocation := "i", started := ⟨0, second, 0⟩, status := .completed }

theorem legible_startedAt (id : String) {second : Nat} (inDay : second < 86400) :
    (startedAt id second).Legible := by
  have after : Instant.dayOf Instant.firstYear 1 1 ≤ 0 := by decide
  have before : 0 ≤ Instant.dayOf Instant.lastYear 12 31 := by decide
  refine ⟨⟨after, before, inDay, Nat.zero_lt_succ _, ?_⟩, ?_, ?_, ?_, ?_⟩
  · intro late
    exact absurd late (Nat.not_succ_le_zero _)
  · intro instant isFinished
    cases isFinished
  · exact forall_mem_nil _
  · simp [startedAt, Trace.record, optionalString]
  · exact forall_mem_nil _

/-- The later of two traces comes twice, each time with a later start. -/
def laterTwice : List Trace := [startedAt "a" 0, startedAt "b" 1, startedAt "b" 2]

theorem interchangeable_laterTwice :
    (∀ trace ∈ laterTwice, trace.Legible) ∧
    ∀ limit < unsignedBound, (MemoryArchive.persistAll {} laterTwice).list "g" limit =
      (TableArchive.persistAll {} laterTwice).list "g" limit := by
  have legible : ∀ trace ∈ laterTwice, trace.Legible := by simp [laterTwice, legible_startedAt]
  have arrived : (MemoryArchive.persistAll {} laterTwice).traces.reverse.filter
      (fun trace => trace.graph == "g") = [startedAt "b" 2, startedAt "a" 0] := rfl
  have later : (startedAt "a" 0).started.offsetText < (startedAt "b" 2).started.offsetText := by
    decide
  refine ⟨legible, ?_⟩
  apply ((interchangeable_iff_came_by_age laterTwice legible (by decide)).2.2 "g").2.mpr
  rw [arrived, pairwise_pair]
  exact .inl later

/-- A run that started first may end last, and then the memory lists it first. -/
theorem lists_differ_laterFirst :
    (MemoryArchive.persistAll {} [startedAt "later" 1, startedAt "earlier" 0]).list "g" 10 =
        ["earlier", "later"] ∧
      (TableArchive.persistAll {} [startedAt "later" 1, startedAt "earlier" 0]).list "g" 10 =
        ["later", "earlier"] := by
  have mirrors := Mirrors.ofEmpty [startedAt "later" 1, startedAt "earlier" 0]
  have kept : (Trace.lastWritten [startedAt "later" 1, startedAt "earlier" 0]).reverse.filter
      (fun trace => trace.graph == "g") = [startedAt "earlier" 0, startedAt "later" 1] := rfl
  have older : ¬ (startedAt "later" 1).started.offsetText ≤
      (startedAt "earlier" 0).started.offsetText := by decide
  have sorted : Trace.newestFirst
      (Trace.lastWritten [startedAt "later" 1, startedAt "earlier" 0]) "g" =
        [startedAt "later" 1, startedAt "earlier" 0] := by
    rw [Trace.newestFirst, kept]
    simp [mergeSort, older]
  constructor
  · decide +kernel
  · rw [mirrors.table_list_eq "g" (by decide) (by decide +kernel), sorted]
    rfl

end Pinflow
