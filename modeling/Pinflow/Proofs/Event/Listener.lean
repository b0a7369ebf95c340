import Pinflow.Event.Channel

/-!
# A subscriber by itself

All graphs and all subscribers share one channel. `Listener` is what a subscriber of one
graph would be if it had the channel to itself: the events published since it came, how far
it has read, and what it was given. `Listener.Sound` says what it can have missed, and
`Listener.answers_filter` that what others do with the channel does not matter to it. That
the channel serves every subscriber in just this way is shown in
`Pinflow.Proofs.Event.Delivery`.
-/

namespace Pinflow.Channel

open List

variable {event : Event} {i : Nat}

/-- What can be done with a channel. -/
inductive Use where
  | publish (event : Event)
  | attach (name : String)
  | detach (name : String)
  /-- A subscriber asks for the next event of its graph. -/
  | read (name graph : String)

namespace Use

def event? : Use → Option Event
  | .publish event => some event
  | .attach _ | .detach _ | .read _ _ => none

def who? : Use → Option String
  | .publish _ => none
  | .attach name | .detach name | .read name _ => some name

/-- Is it a use by this subscriber, or an event for everyone? -/
def concerns (use : Use) (name : String) : Bool := use.who?.all (· == name)

end Use

/-- What a use gives back, and the channel after it. -/
def use (channel : Channel) : Use → Option Event × Channel
  | .publish event => (none, channel.publish event)
  | .attach name => (none, channel.subscribe name)
  | .detach name => (none, channel.unsubscribe name)
  | .read name graph => channel.next name graph

def after (channel : Channel) (uses : List Use) : Channel :=
  uses.foldl (fun channel use => (channel.use use).2) channel

/-- What the uses by a subscriber gave back, in order. -/
def answers (name : String) : Channel → List Use → List (Option Event)
  | _, [] => []
  | channel, use :: uses =>
    let rest := answers name (channel.use use).2 uses
    if use.who? = some name then (channel.use use).1 :: rest else rest

/-- The events that a subscriber got, in order. -/
def received (name : String) (channel : Channel) (uses : List Use) : List Event :=
  (answers name channel uses).filterMap id

def published (uses : List Use) : List Event := uses.filterMap Use.event?

/-- For as long as a subscriber stays, its uses are reads of its graph. -/
def Steady (name graph : String) (uses : List Use) : Prop :=
  ∀ use ∈ uses, use.who? = some name → use = .read name graph

/-- A subscriber that has the channel to itself: the events published since it came, how many
of them it has read or passed by, and those it was given, each with its place. -/
structure Listener where
  log : List Event := []
  place : Nat := 0
  given : List (Nat × Event) := []

namespace Listener

/-- Where it reads on. Events that no longer fit in the room are lost. -/
def first (listener : Listener) (room : Nat) : Nat := max listener.place (listener.log.length - room)

/-- The place of the next event of a graph, or the end of the log. -/
def target (listener : Listener) (room : Nat) (graph : String) : Nat :=
  listener.first room +
    (listener.log.drop (listener.first room)).findIdx fun event => event.graph == graph

def read (listener : Listener) (room : Nat) (graph : String) : Option Event × Listener :=
  let target := listener.target room graph
  let event? := listener.log[target]?
  (event?, { listener with
    place := min listener.log.length (target + 1)
    given := listener.given ++ (event?.map fun event => (target, event)).toList })

/-- What a use of the channel is for a subscriber of a graph. -/
def use (listener : Listener) (room : Nat) (name graph : String) : Use → Option Event × Listener
  | .publish event => (none, { listener with log := listener.log ++ [event] })
  | .read other _ => if other = name then listener.read room graph else (none, listener)
  | .attach _ | .detach _ => (none, listener)

def after (listener : Listener) (room : Nat) (name graph : String) (uses : List Use) : Listener :=
  uses.foldl (fun listener use => (listener.use room name graph use).2) listener

/-- What its own uses give back, in order. -/
def answers (room : Nat) (name graph : String) : Listener → List Use → List (Option Event)
  | _, [] => []
  | listener, use :: uses =>
    let rest := answers room name graph (listener.use room name graph use).2 uses
    if use.who? = some name then (listener.use room name graph use).1 :: rest else rest

variable {listener : Listener} {room : Nat} {name graph : String}

theorem graph_of_target (found : listener.log[listener.target room graph]? = some event) :
    event.graph = graph := by
  rw [target, ← getElem?_drop] at found
  obtain ⟨inside, rfl⟩ := List.getElem?_eq_some_iff.mp found
  simpa using findIdx_getElem (w := inside)

/-- What is passed by without being lost is of other graphs. -/
theorem graph_ne_of_lt_target (reached : listener.first room ≤ i)
    (before : i < listener.target room graph) (found : listener.log[i]? = some event) :
    event.graph ≠ graph := by
  have here : (listener.log.drop (listener.first room))[i - listener.first room]? = some event := by
    rw [getElem?_drop, Nat.add_sub_cancel' reached]
    exact found
  obtain ⟨inside, rfl⟩ := List.getElem?_eq_some_iff.mp here
  simpa using not_of_lt_findIdx (Nat.sub_lt_left_of_lt_add reached before)

/-- At the end of the log it stays where it is. -/
theorem target_of_end (ended : listener.place = listener.log.length) :
    listener.target room graph = listener.log.length := by
  have first : listener.first room = listener.log.length := by
    rw [Listener.first]
    omega
  rw [target, first, drop_length]
  rfl

/-- What is lost does not change where it comes to. -/
theorem target_of_behind (behind : listener.place + room ≤ listener.log.length) :
    { listener with place := listener.log.length - room }.target room graph =
      listener.target room graph := by
  have first : { listener with place := listener.log.length - room }.first room =
      listener.first room := by
    simp only [Listener.first]
    omega
  rw [target, first, target]

/-- With nothing lost it looks at one event after the other. -/
theorem target_of_kept (here : listener.log[listener.place]? = some event)
    (near : listener.log.length ≤ listener.place + room) :
    listener.target room graph =
      if event.graph == graph then listener.place
      else { listener with place := listener.place + 1 }.target room graph := by
  obtain ⟨inside, same⟩ := List.getElem?_eq_some_iff.mp here
  have first : listener.first room = listener.place := by
    rw [Listener.first]
    omega
  have next : { listener with place := listener.place + 1 }.first room = listener.place + 1 := by
    simp only [Listener.first]
    omega
  rw [target, target, first, next, drop_eq_getElem_cons inside, same, findIdx_cons]
  cases event.graph == graph
  · simp only [cond_false, Bool.false_eq_true, if_false]
    omega
  · rfl

/-- What holds of a subscriber at any time. An event of its graph that it has read past
without getting it has at least as many later events as there is room. -/
structure Sound (room : Nat) (graph : String) (listener : Listener) : Prop where
  within : listener.place ≤ listener.log.length
  ordered : (listener.given.map Prod.fst).Pairwise (· < ·)
  below : ∀ i ∈ listener.given.map Prod.fst, i < listener.place
  own : ∀ entry ∈ listener.given, listener.log[entry.1]? = some entry.2 ∧ entry.2.graph = graph
  missed : ∀ i event, i < listener.place → listener.log[i]? = some event → event.graph = graph →
    i ∉ listener.given.map Prod.fst → i + room < listener.log.length

section

variable (sound : listener.Sound room graph)
include sound

theorem Sound.publish (event : Event) :
    ({ listener with log := listener.log ++ [event] } : Listener).Sound room graph where
  within := by
    have within := sound.within
    simp only [length_append]
    omega
  ordered := sound.ordered
  below := sound.below
  own := by
    intro entry member
    obtain ⟨here, isOwn⟩ := sound.own entry member
    refine ⟨?_, isOwn⟩
    obtain ⟨inside, -⟩ := List.getElem?_eq_some_iff.mp here
    simpa [getElem?_append_left inside] using here
  missed := by
    intro i other passed here isOwn lost
    have inside : i < listener.log.length := Nat.lt_of_lt_of_le passed sound.within
    simp only [getElem?_append_left inside] at here
    have room := sound.missed i other passed here isOwn lost
    simp only [length_append]
    omega

/-- A read goes past everything before its target. -/
theorem Sound.passed (before : i < listener.target room graph)
    (here : listener.log[i]? = some event) (isOwn : event.graph = graph)
    (lost : i ∉ listener.given.map Prod.fst) : i + room < listener.log.length := by
  by_cases past : i < listener.place
  · exact sound.missed i event past here isOwn lost
  · -- Only what fell out of the room lies between the old place and where it reads on.
    have skipped : i < listener.first room :=
      Nat.lt_of_not_le fun reached => graph_ne_of_lt_target reached before here isOwn
    rw [first] at skipped
    omega

theorem Sound.read : (listener.read room graph).2.Sound room graph := by
  have within := sound.within
  have ahead : listener.place ≤ listener.target room graph := by
    rw [target, first]
    omega
  cases here : listener.log[listener.target room graph]? with
  | none =>
    have ended := getElem?_eq_none_iff.mp here
    simp only [Listener.read, here, Option.map_none, Option.toList_none, append_nil]
    refine ⟨Nat.min_le_left _ _, sound.ordered, ?_, sound.own, ?_⟩
    · intro i member
      have below := sound.below i member
      simp only
      omega
    · intro i event passed found isOwn lost
      exact sound.passed (by simp only at passed; omega) found isOwn lost
  | some =>
    have isOwn := graph_of_target here
    obtain ⟨inside, -⟩ := List.getElem?_eq_some_iff.mp here
    have place : min listener.log.length (listener.target room graph + 1) =
        listener.target room graph + 1 := by omega
    simp only [Listener.read, here, Option.map_some, Option.toList_some, place]
    refine ⟨inside, ?_, ?_, ?_, ?_⟩
    · rw [map_append, pairwise_append]
      refine ⟨sound.ordered, pairwise_singleton _ _, fun i old j new => ?_⟩
      obtain rfl : j = listener.target room graph := by simpa using new
      exact Nat.lt_of_lt_of_le (sound.below i old) ahead
    · intro i member
      rw [map_append, mem_append] at member
      rcases member with old | new
      · exact Nat.lt_succ_of_lt (Nat.lt_of_lt_of_le (sound.below i old) ahead)
      · obtain rfl : i = listener.target room graph := by simpa using new
        exact Nat.lt_succ_self _
    · intro entry member
      rcases mem_append.mp member with old | new
      · exact sound.own entry old
      · obtain rfl := mem_singleton.mp new
        exact ⟨here, isOwn⟩
    · intro i other passed found isOwn lost
      simp only [map_append, map_cons, map_nil, mem_append,
        mem_singleton, not_or] at lost
      exact sound.passed (by simp only at passed; omega) found isOwn lost.1

theorem Sound.use (use : Use) : (listener.use room name graph use).2.Sound room graph := by
  cases use with
  | publish event => exact sound.publish event
  | read =>
    rw [Listener.use]
    split
    · exact sound.read
    · exact sound
  | _ => exact sound

theorem Sound.after (uses : List Use) : (listener.after room name graph uses).Sound room graph := by
  induction uses generalizing listener with
  | nil => exact sound
  | cons use uses ih => exact ih (sound.use use)

end

theorem sound_empty (room : Nat) (graph : String) : ({} : Listener).Sound room graph := by
  constructor <;> simp

theorem after_append (listener : Listener) (uses more : List Use) :
    listener.after room name graph (uses ++ more) =
      (listener.after room name graph uses).after room name graph more := foldl_append

theorem after_read (listener : Listener) (uses : List Use) :
    listener.after room name graph (uses ++ [.read name graph]) =
      ((listener.after room name graph uses).read room graph).2 := by
  rw [after_append]
  simp only [after, foldl_cons, foldl_nil, Listener.use, if_true]

theorem log_after (listener : Listener) (uses : List Use) :
    (listener.after room name graph uses).log = listener.log ++ published uses := by
  induction uses generalizing listener with
  | nil => exact (append_nil _).symm
  | cons use uses ih =>
    refine (ih _).trans ?_
    cases use with
    | publish => simp [Listener.use, published, Use.event?]
    | read =>
      simp only [Listener.use]
      split <;> rfl
    | _ => rfl

variable (room name graph) in
theorem given_use (listener : Listener) (use : Use) :
    listener.given <+: (listener.use room name graph use).2.given ∧
      (listener.use room name graph use).2.given.map Prod.snd = listener.given.map Prod.snd ++
        (if use.who? = some name then [(listener.use room name graph use).1] else []).filterMap id := by
  cases use with
  | publish => simp [Listener.use, Use.who?]
  | read other =>
    by_cases own : other = name
    · simp only [Listener.use, own, if_true, Use.who?, Listener.read]
      refine ⟨prefix_append _ _, ?_⟩
      cases listener.log[listener.target room graph]? <;> simp
    · simp [Listener.use, own, Use.who?]
  | attach other | detach other =>
    simp only [Listener.use, Use.who?]
    refine ⟨prefix_refl _, ?_⟩
    by_cases own : other = name <;> simp [own]

/-- What it was given it keeps. -/
theorem given_after (listener : Listener) (uses : List Use) :
    listener.given <+: (listener.after room name graph uses).given ∧
      (listener.after room name graph uses).given.map Prod.snd =
        listener.given.map Prod.snd ++ (answers room name graph listener uses).filterMap id := by
  induction uses generalizing listener with
  | nil => exact ⟨prefix_refl _, (append_nil _).symm⟩
  | cons use uses ih =>
    obtain ⟨first, one⟩ := given_use room name graph listener use
    obtain ⟨more, rest⟩ := ih (listener.use room name graph use).2
    refine ⟨first.trans more, rest.trans ?_⟩
    rw [one, append_assoc, ← filterMap_append, answers]
    split <;> rfl

/-- Uses by others do not matter to it. -/
theorem use_of_not_concerns {use : Use} (other : use.concerns name = false) :
    listener.use room name graph use = (none, listener) := by
  cases use with
  | publish => cases other
  | read who =>
    have ne : who ≠ name := by simpa [Use.concerns, Use.who?] using other
    rw [Listener.use, if_neg ne]
  | _ => rfl

theorem answers_filter (listener : Listener) (uses : List Use) :
    answers room name graph listener (uses.filter (·.concerns name)) =
      answers room name graph listener uses := by
  induction uses generalizing listener with
  | nil => rfl
  | cons use uses ih =>
    cases concerned : use.concerns name with
    | true => simp only [filter_cons, concerned, if_true, answers, ih]
    | false =>
      have notOwn : use.who? ≠ some name := by
        intro own
        simp [Use.concerns, own] at concerned
      simp only [filter_cons, concerned, Bool.false_eq_true, if_false, answers,
        use_of_not_concerns concerned, notOwn, ih]

end Listener

end Pinflow.Channel
