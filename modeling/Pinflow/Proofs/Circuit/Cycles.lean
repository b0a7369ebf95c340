import Mathlib.Data.List.Chain
import Pinflow.Proofs.Circuit.Loading
import Pinflow.Proofs.Kinds.Conduct

/-!
# Cycles of data

Data edges can be wired in a circle. `Circular` says when the path that is reported for one
is genuine: it leads along links, such as data edges, from a node back to itself and visits no
node twice on the way. `circular_cyclePath` is the reason why the reported paths are: the
nodes being resolved form a chain along the data edges.

Nodes that need all of their inputs and stand on a circle of such nodes have no value.
-/

namespace Pinflow

open List

namespace Circuit

variable {circuit : Circuit}

variable {node pin : String} {f : α → Routine β} {i : Nat}

def Feeds (circuit : Circuit) (feeder reader : String) : Prop :=
  ∃ edge ∈ circuit.dataEdges, edge.source.node = feeder ∧ edge.target.node = reader

/-- The path runs from the node back to itself, each node on it is linked from the next, and
no other node occurs twice. -/
def Circular (link : String → String → Prop) (node path : String) : Prop :=
  ∃ between, path = " -> ".intercalate (node :: between ++ [node]) ∧ (node :: between).Nodup ∧
    (node :: between ++ [node]).IsChain fun reader feeder => link feeder reader

/-- No node feeds itself, directly or through others. -/
def Acyclic (circuit : Circuit) : Prop := ∀ node, ¬ Relation.TransGen circuit.Feeds node node

theorem transGen_of_isChain {α : Type} {r : α → α → Prop} {a b : α} {list : List α}
    (chain : (a :: list ++ [b]).IsChain r) : Relation.TransGen r a b := by
  induction list generalizing a with
  | nil => exact .single (isChain_pair.mp chain)
  | cons c list ih =>
    obtain ⟨first, chain⟩ := isChain_cons_cons.mp chain
    exact .head first (ih chain)

theorem not_acyclic_of_circular {path : String} (circular : Circular circuit.Feeds node path) :
    ¬ circuit.Acyclic := by
  obtain ⟨between, -, -, chain⟩ := circular
  exact fun acyclic => acyclic node (Relation.transGen_swap.mp (transGen_of_isChain chain))

/-- The path reported for a node that is being resolved already starts at its place on the
stack. -/
theorem cyclePath_eq {inside outside : List String} (outer : node ∉ outside) :
    Walk.cyclePath (inside ++ node :: outside) node =
      " -> ".intercalate (node :: inside.reverse ++ [node]) := by
  have dropped : (outside.reverse ++ node :: inside.reverse).dropWhile (· != node) =
      node :: inside.reverse := by
    rw [dropWhile_append_of_pos, dropWhile_cons_of_neg (by simp)]
    intro other member
    rw [bne_iff_ne]
    rintro rfl
    exact outer (mem_reverse.mp member)
  rw [Walk.cyclePath, reverse_append, reverse_cons, append_assoc,
    singleton_append, dropped]

/-- The nodes being resolved, innermost first, are a chain of links. If a node on it is about
to be pulled by the innermost one, the chain closes to a circle. -/
theorem circular_cyclePath {link : String → String → Prop} {resolving : List String}
    (distinct : resolving.Nodup) (member : node ∈ resolving)
    (chain : (node :: resolving).IsChain link) :
    Circular link node (Walk.cyclePath resolving node) := by
  obtain ⟨inside, outside, rfl⟩ := append_of_mem member
  obtain ⟨-, outer, apart⟩ := nodup_append.mp distinct
  refine ⟨inside.reverse, cyclePath_eq (nodup_cons.mp outer).1, ?_, ?_⟩
  · refine nodup_cons.mpr ⟨?_, nodup_reverse.mpr distinct.of_append_left⟩
    intro twice
    exact apart node (mem_reverse.mp twice) node mem_cons_self rfl
  · obtain ⟨circle, -⟩ := isChain_cons_split.mp chain
    have reversed : node :: inside.reverse ++ [node] = (node :: (inside ++ [node])).reverse := by
      simp
    rw [reversed]
    exact isChain_reverse.mpr circle

end Circuit

/-- The kinds that need all of their inputs. -/
def Kinds.strict : List Kind := [math, compare, makeArray]

namespace Circuit

variable {circuit : Circuit}

/-- A node that needs the value of another. -/
def Needs (circuit : Circuit) (feeder reader : String) : Prop :=
  circuit.Feeds feeder reader ∧ circuit.isOf Kinds.strict feeder = true ∧
    circuit.isOf Kinds.strict reader = true

/-- The node is on a circle of nodes that need all of their inputs. -/
def Vicious (circuit : Circuit) (node : String) : Prop :=
  Relation.TransGen circuit.Needs node node

/-- What a node on a vicious circle needs is on a vicious circle. -/
theorem Vicious.feeder (vicious : circuit.Vicious node) :
    circuit.isOf Kinds.strict node = true ∧ ∃ source pin,
      ⟨source, ⟨node, pin⟩⟩ ∈ circuit.dataEdges ∧ circuit.Vicious source.node := by
  obtain ⟨feeder, most, last⟩ := Relation.TransGen.tail'_iff.mp vicious
  have circle : circuit.Vicious feeder := .head' last most
  obtain ⟨⟨⟨source, ⟨_, pin⟩⟩, member, rfl, rfl⟩, -, strict⟩ := last
  exact ⟨strict, source, pin, member, circle⟩

end Circuit

namespace Kinds

theorem strict_subset : strict ⊆ builtin := by
  simp [strict, builtin]

end Kinds

/-- One input cannot be had. -/
def Denies (node pin : String) : (c : Call) → c.Answer → Prop
  | .input other name, answer => other = node → name = pin → ∃ fault, answer = .error fault
  | _, _ => True

/-- A routine that fails if one of the inputs of its node does. -/
def Relies {α : Type} (node pin : String) (routine : Routine α) : Prop :=
  Script.Meets (fun _ => True) (Denies node pin) (fun result => ∃ fault, result = .error fault)
    (ExceptT.run routine)

namespace Relies

variable {α β : Type} {node pin : String}

theorem fail (other : String) (cause : Mishap) :
    Relies node pin (Routine.fail other cause : Routine α) :=
  ⟨_, rfl⟩

theorem input : Relies node pin (Routine.input node pin) :=
  ⟨trivial, fun _ denied => denied rfl rfl⟩

theorem first {x : Routine α} (relies : Relies node pin x) (f : α → Routine β) :
    Relies node pin (x >>= f) := by
  refine Script.Meets.bind relies ?_
  rintro _ ⟨fault, rfl⟩
  exact ⟨fault, rfl⟩

theorem rest (x : Routine α) (relies : ∀ a, Relies node pin (f a)) : Relies node pin (x >>= f) := by
  have any : Script.Meets (fun _ => True) (Denies node pin) (fun _ => True) (ExceptT.run x) := by
    generalize ExceptT.run x = script
    induction script with
    | done => trivial
    | ask c next ih => exact ⟨trivial, fun answer _ => ih answer⟩
  refine Script.Meets.bind any fun result _ => ?_
  cases result with
  | ok a => exact relies a
  | error fault => exact ⟨fault, rfl⟩

/-- Settings that were read before can be read again. -/
theorem setting {x : Except Fault α} {a : α} (known : x = .ok a) (relies : Relies node pin (f a)) :
    Relies node pin (liftM x >>= f) := by
  subst known
  exact relies

theorem foldOperands (op : Arithmetic) {operands : List Nat} (member : i ∈ operands)
    (result : Option Float) :
    Relies node (Kinds.operandPin i) (Kinds.foldOperands node op result operands) := by
  induction operands generalizing result with
  | nil => cases member
  | cons j operands ih =>
    rcases mem_cons.mp member with rfl | member
    · exact input.first _
    · refine rest _ fun raw => ?_
      cases raw.toFloat? with
      | none => exact fail _ _
      | some x =>
        cases result with
        | none => exact ih member (some x)
        | some y =>
          simp only
          cases op.result? y x with
          | none => exact fail _ _
          | some z => exact ih member (some z)

theorem pullAll {name : Nat → String} {list : List Nat} (member : i ∈ list) :
    Relies node (name i) (list.mapM fun i => Routine.input node (name i)) := by
  induction list with
  | nil => cases member
  | cons j list ih =>
    rw [mapM_cons]
    rcases mem_cons.mp member with rfl | member
    · exact input.first _
    · exact rest _ fun value => (ih member).first _

end Relies

namespace Kinds

/-- A strict kind computes nothing if one of its inputs cannot be had. -/
theorem relies_of_strict {part : Part} (isStrict : part.kind ∈ strict)
    (bound : part.kind.pins part.node.config = .ok part.schema)
    (declared : (part.schema.input? pin).isSome = true) (output : String) :
    Relies part.node.id pin (part.kind.evaluate part.node output) := by
  obtain ⟨input, found⟩ := Option.isSome_iff_exists.mp declared
  obtain ⟨member, rfl⟩ := Schema.mem_of_input? found
  obtain ⟨node, kind, schema⟩ := part
  simp only [strict, mem_cons, not_mem_nil, or_false] at isStrict
  -- An output that the node does not have is not computed either.
  have single : ∀ {only pin : String} {body : Routine Value}, Relies node.id pin body →
      Relies node.id pin (if output != only then .fail node.id (.noDataOutput output)
        else body : Routine Value) := by
    intro only pin body relies
    split
    · exact .fail _ _
    · exact relies
  rcases isStrict with rfl | rfl | rfl
  · obtain ⟨op, isOp, bound⟩ := exists_of_bind_eq_ok bound
    obtain ⟨n, counted, bound⟩ := exists_of_bind_eq_ok bound
    cases bound
    obtain ⟨i, listed, rfl⟩ := mem_map.mp member
    have folds : Relies node.id (operandPin i) (foldOperands node.id op none (List.range n)) :=
      .foldOperands op listed none
    exact single (.setting isOp (.setting counted (folds.first _)))
  · obtain ⟨op, isOp, bound⟩ := exists_of_bind_eq_ok bound
    cases bound
    refine single (.rest _ fun op => ?_)
    simp only [mem_cons, not_mem_nil, or_false] at member
    rcases member with rfl | rfl
    · exact Relies.input.first _
    · exact .rest _ fun a => Relies.input.first _
  · obtain ⟨n, counted, bound⟩ := exists_of_bind_eq_ok bound
    cases bound
    obtain ⟨i, listed, rfl⟩ := mem_map.mp member
    have pulls : Relies node.id (itemPin i)
        ((List.range n).mapM fun i => Routine.input node.id (itemPin i)) := .pullAll listed
    exact single (.setting counted (pulls.first _))

end Kinds

end Pinflow
