import Pinflow.Proofs.Event.Listener

/-!
# What subscribers receive

A channel `Tracks` a subscriber if it keeps the last of the events published since that
subscriber came, as many as it has room for, and knows how far the subscriber has read. Every
use of the channel, by the subscriber or by another, leaves it tracked, so a subscriber gets
from the channel what it would get by itself.
-/

namespace Pinflow.Channel

open List Listener Nat

variable {channel : Channel} {uses early : List Use} {other name graph : String}
  {room position new : Nat}

theorem cursor?_unsubscribe_of_ne (channel : Channel) (ne : name ≠ other) :
    (channel.unsubscribe other).cursor? name = channel.cursor? name := by
  rw [cursor?, cursor?, unsubscribe, find?_filter]
  congr 2
  funext entry
  by_cases same : entry.1 = name
  · simp [same, ne]
  · simp [same]

theorem cursor?_subscribe_of_ne (ne : name ≠ other) :
    (channel.subscribe other).cursor? name = channel.cursor? name := by
  rw [← cursor?_unsubscribe_of_ne channel ne]
  simp [cursor?, subscribe, find?_append, Ne.symm ne]

theorem cursor?_subscribe (channel : Channel) (name : String) :
    (channel.subscribe name).cursor? name = some channel.taken := by
  have gone : (channel.cursors.filter fun entry => entry.1 != name).find?
      (fun entry => entry.1 == name) = none := by
    simp [find?_filter]
  simp [cursor?, subscribe, unsubscribe, find?_append, gone]

/-- A cursor that is moved keeps its name. -/
theorem cursor?_moveTo_eq (channel : Channel) (name other : String) (position : Nat) :
    (channel.moveTo other position).cursor? name =
      (channel.cursor? name).map fun old => if name = other then position else old := by
  have named : ((fun entry : String × Nat => entry.1 == name) ∘ fun entry : String × Nat =>
      if entry.1 == other then (other, position) else entry) = fun entry => entry.1 == name := by
    funext entry
    by_cases moved : entry.1 = other <;> simp [moved]
  rw [cursor?, cursor?, moveTo, find?_map, named, Option.map_map, Option.map_map]
  cases found : channel.cursors.find? fun entry => entry.1 == name with
  | none => rfl
  | some entry =>
    have same : entry.1 = name := by simpa using find?_some found
    by_cases moved : name = other <;> simp [same, moved]

/-- Nothing has changed but the cursor of one subscriber. -/
structure OnlyCursor (other : String) (channel channel' : Channel) : Prop where
  capacity : channel'.capacity = channel.capacity
  kept : channel'.kept = channel.kept
  taken : channel'.taken = channel.taken
  cursor : ∀ name, name ≠ other → channel'.cursor? name = channel.cursor? name

theorem OnlyCursor.refl (other : String) (channel : Channel) : OnlyCursor other channel channel :=
  ⟨rfl, rfl, rfl, fun _ _ => rfl⟩

theorem OnlyCursor.trans {first second third : Channel} (before : OnlyCursor other first second)
    (after : OnlyCursor other second third) : OnlyCursor other first third :=
  ⟨after.capacity.trans before.capacity, after.kept.trans before.kept,
    after.taken.trans before.taken,
    fun name ne => (after.cursor name ne).trans (before.cursor name ne)⟩

theorem receive_onlyCursor (channel : Channel) (other : String) :
    OnlyCursor other channel (channel.receive other).2 := by
  rw [receive]
  split
  · exact .refl other channel
  · exact ⟨rfl, rfl, rfl, fun _ ne => by simp [cursor?_moveTo_eq, ne]⟩

theorem seek_onlyCursor (other graph : String) (reads : Nat) (channel : Channel) :
    OnlyCursor other channel (seek other graph reads channel).2 := by
  induction reads generalizing channel with
  | zero => exact .refl other channel
  | succ reads ih =>
    have moved := receive_onlyCursor channel other
    rw [seek]
    rcases answer : channel.receive other with ⟨delivery, channel'⟩
    rw [answer] at moved
    cases delivery with
    | empty => exact moved
    | lagged => exact moved.trans (ih channel')
    | event =>
      simp only
      split
      · exact moved
      · exact moved.trans (ih channel')

/-- A subscriber moves no cursor but its own. -/
theorem use_onlyCursor {use : Use} (own : use.who? = some other) (channel : Channel) :
    OnlyCursor other channel (channel.use use).2 := by
  cases use with
  | publish => cases own
  | attach =>
    cases own
    exact ⟨rfl, rfl, rfl, fun _ => cursor?_subscribe_of_ne⟩
  | detach =>
    cases own
    exact ⟨rfl, rfl, rfl, fun _ => cursor?_unsubscribe_of_ne channel⟩
  | read _ graph =>
    cases own
    exact seek_onlyCursor other graph _ channel

/-- A channel keeps no more events than it has room for. -/
def Fits (room : Nat) (channel : Channel) : Prop :=
  channel.capacity = room ∧ channel.kept.length ≤ room

theorem Fits.use (fits : Fits room channel) (use : Use) : Fits room (channel.use use).2 := by
  cases own : use.who? with
  | some =>
    have moved := use_onlyCursor own channel
    exact ⟨moved.capacity.trans fits.1, moved.kept ▸ fits.2⟩
  | none =>
    cases use with
    | publish =>
      simp only [Channel.use, publish]
      split
      · exact fits
      · exact ⟨fits.1, Nat.le_trans (length_take_le _ _) (Nat.le_of_eq fits.1)⟩
    | _ => cases own

theorem Fits.after (fits : Fits room channel) (uses : List Use) :
    Fits room (channel.after uses) := by
  induction uses generalizing channel with
  | nil => exact fits
  | cons use uses ih => exact ih (fits.use use)

/-- A channel that keeps the last `room` of the events published since a subscriber came, and
knows how many of them it has read. -/
structure Tracks (room : Nat) (name : String) (channel : Channel) (log : List Event)
    (place : Nat) : Prop where
  capacity : channel.capacity = room
  counted : log.length ≤ channel.taken
  within : place ≤ log.length
  cursor : channel.cursor? name = some (channel.taken - log.length + place)
  kept : ∃ older, channel.kept = (log.reverse ++ older).take room

namespace Tracks

variable {channel' : Channel} {log : List Event} {place : Nat}

theorem subscribe (fits : Fits room channel) (name : String) :
    Tracks room name (channel.subscribe name) [] 0 where
  capacity := fits.1
  counted := zero_le _
  within := Nat.le_refl _
  cursor := cursor?_subscribe channel name
  kept := ⟨channel.kept, (take_of_length_le fits.2).symm⟩

section

variable (tracks : Tracks room name channel log place)
include tracks

theorem onlyCursor (ne : name ≠ other) (moved : OnlyCursor other channel channel') :
    Tracks room name channel' log place where
  capacity := moved.capacity.trans tracks.capacity
  counted := moved.taken ▸ tracks.counted
  within := tracks.within
  cursor := by rw [moved.cursor name ne, moved.taken, tracks.cursor]
  kept := moved.kept ▸ tracks.kept

theorem publish (event : Event) :
    Tracks room name (channel.publish event) (log ++ [event]) place := by
  have someone : channel.cursors.isEmpty = false := by
    have cursor := tracks.cursor
    rw [cursor?] at cursor
    cases none : channel.cursors with
    | nil => simp [none] at cursor
    | cons => rfl
  have counted := tracks.counted
  have within := tracks.within
  obtain ⟨older, kept⟩ := tracks.kept
  have same : channel.publish event = { channel with
      kept := (event :: channel.kept).take channel.capacity, taken := channel.taken + 1 } := by
    rw [Channel.publish, someone]
    rfl
  rw [same]
  refine ⟨tracks.capacity, ?_, ?_, ?_, older, ?_⟩
  · simpa using counted
  · simp only [length_append, length_cons, length_nil]
    omega
  · have cursor := tracks.cursor
    simp only [cursor?, length_append, length_cons, length_nil,
      Nat.add_sub_add_right] at cursor ⊢
    exact cursor
  · simp only [tracks.capacity, kept, reverse_append, reverse_cons, reverse_nil,
      nil_append, cons_append]
    cases room with
    | zero => rfl
    | succ => simp [take_take]

theorem moveTo (within : new ≤ log.length) :
    Tracks room name (channel.moveTo name (channel.taken - log.length + new)) log new :=
  ⟨tracks.capacity, tracks.counted, within,
    by rw [cursor?_moveTo_eq, tracks.cursor, Option.map_some, if_pos rfl]; rfl, tracks.kept⟩

end

section

variable (tracks : Tracks room name channel log place)
include tracks

theorem receive_eq :
    channel.receive name =
      ((channel.readAt (channel.taken - log.length + place)).1,
        channel.moveTo name (channel.readAt (channel.taken - log.length + place)).2) := by
  rw [receive, tracks.cursor]

theorem receive_of_end (ended : log.length ≤ place) :
    ∃ channel', channel.receive name = (.empty, channel') ∧
      Tracks room name channel' log place := by
  have reads : channel.readAt (channel.taken - log.length + place) =
      (.empty, channel.taken - log.length + place) := by
    rw [readAt, if_pos (by omega)]
  rw [tracks.receive_eq, reads]
  exact ⟨_, rfl, tracks.moveTo tracks.within⟩

theorem length_kept :
    log.length ≤ room ∧ log.length ≤ channel.kept.length ∨
      room < log.length ∧ channel.kept.length = room := by
  obtain ⟨older, kept⟩ := tracks.kept
  have length : channel.kept.length = min room (log.length + older.length) := by
    simp [kept]
  omega

theorem receive_of_behind (behind : place + room < log.length) :
    ∃ lost channel', channel.receive name = (.lagged lost, channel') ∧
      Tracks room name channel' log (log.length - room) := by
  have counted := tracks.counted
  have length := tracks.length_kept
  have oldest : channel.oldest = channel.taken - log.length + (log.length - room) := by
    rw [Channel.oldest]
    omega
  have reads : ∃ lost, channel.readAt (channel.taken - log.length + place) =
      (.lagged lost, channel.taken - log.length + (log.length - room)) := by
    rw [readAt, if_neg (by omega), if_pos (by omega), oldest]
    exact ⟨_, rfl⟩
  obtain ⟨lost, reads⟩ := reads
  rw [tracks.receive_eq, reads]
  exact ⟨lost, _, rfl, tracks.moveTo (sub_le _ _)⟩

theorem receive_of_kept {event : Event} (here : log[place]? = some event)
    (near : log.length ≤ place + room) :
    ∃ channel', channel.receive name = (.event event, channel') ∧
      Tracks room name channel' log (place + 1) := by
  have counted := tracks.counted
  have length := tracks.length_kept
  obtain ⟨inside, -⟩ := List.getElem?_eq_some_iff.mp here
  have found : channel.kept[channel.taken - 1 - (channel.taken - log.length + place)]? =
      some event := by
    obtain ⟨older, kept⟩ := tracks.kept
    have index : channel.taken - 1 - (channel.taken - log.length + place) =
        log.length - 1 - place := by omega
    have inRoom : log.length - 1 - place < room := by omega
    have inLog : log.length - 1 - place < log.reverse.length := by
      rw [length_reverse]
      omega
    rw [kept, index, getElem?_take_of_lt inRoom, getElem?_append_left inLog,
      getElem?_reverse (by omega)]
    rw [← here]
    congr 1
    omega
  have reads : channel.readAt (channel.taken - log.length + place) =
      (.event event, channel.taken - log.length + (place + 1)) := by
    have notLost : ¬ channel.taken - log.length + place < channel.oldest := by
      rw [Channel.oldest]
      omega
    rw [readAt, if_neg (by omega), if_neg notLost, found]
    rfl
  rw [tracks.receive_eq, reads]
  exact ⟨_, rfl, tracks.moveTo inside⟩

end

/-- Reading on comes to what the subscriber would find by itself. -/
theorem seek (graph : String) (reads : Nat) {listener : Listener}
    (tracks : Tracks room name channel listener.log listener.place)
    (enough : listener.log.length < listener.place + reads) :
    ∃ channel', Channel.seek name graph reads channel = ((listener.read room graph).1, channel') ∧
      Tracks room name channel' listener.log (listener.read room graph).2.place := by
  have within := tracks.within
  induction reads generalizing channel listener with
  | zero => omega
  | succ reads ih =>
    rw [Channel.seek]
    by_cases ended : listener.log.length ≤ listener.place
    · -- Nothing is left.
      have same := Nat.le_antisymm within ended
      obtain ⟨channel', answer, tracks⟩ := tracks.receive_of_end ended
      rw [answer]
      simp only [Listener.read, target_of_end same, getElem?_eq_none (Nat.le_refl _),
        Nat.min_eq_left (le_succ _)]
      exact ⟨channel', rfl, same ▸ tracks⟩
    by_cases behind : listener.place + room < listener.log.length
    · -- The channel has dropped what would come next.
      obtain ⟨lost, channel', answer, tracks⟩ := tracks.receive_of_behind behind
      obtain ⟨last, sought, tracks⟩ :=
        @ih _ { listener with place := listener.log.length - room } tracks
          (by simp only; omega) (sub_le _ _)
      rw [answer]
      simp only [Listener.read, target_of_behind (Nat.le_of_lt behind)] at sought tracks ⊢
      exact ⟨last, sought, tracks⟩
    · -- The next event is there.
      have inside := Nat.lt_of_not_le ended
      have near := Nat.le_of_not_lt behind
      have here : listener.log[listener.place]? = some listener.log[listener.place] :=
        getElem?_eq_getElem inside
      obtain ⟨channel', answer, tracks⟩ := tracks.receive_of_kept here near
      rw [answer]
      simp only [Listener.read, target_of_kept here near]
      split
      · refine ⟨channel', by rw [here], ?_⟩
        rwa [Nat.min_eq_right inside]
      · exact @ih _ { listener with place := listener.place + 1 } tracks
          (by simp only; omega) inside

theorem use {listener : Listener} (tracks : Tracks room name channel listener.log listener.place)
    (use : Use) (steady : use.who? = some name → use = .read name graph) :
    Tracks room name (channel.use use).2 (listener.use room name graph use).2.log
        (listener.use room name graph use).2.place ∧
      (use.who? = some name → (channel.use use).1 = (listener.use room name graph use).1) := by
  cases isBy : use.who? with
  | none =>
    cases use with
    | publish event => exact ⟨tracks.publish event, nofun⟩
    | _ => cases isBy
  | some other =>
    by_cases own : other = name
    · obtain rfl := own
      obtain rfl := steady isBy
      have counted := tracks.counted
      obtain ⟨channel', sought, tracks⟩ :=
        tracks.seek graph (channel.taken + 1) (by omega)
      simp only [Channel.use, next, sought, Listener.use, if_true]
      exact ⟨tracks, fun _ => trivial⟩
    · have other : use.concerns name = false := by simpa [Use.concerns, isBy] using own
      rw [use_of_not_concerns other]
      refine ⟨tracks.onlyCursor (Ne.symm own) (use_onlyCursor isBy channel), fun same => ?_⟩
      exact absurd (Option.some.inj same) own

theorem after (listener : Listener) (tracks : Tracks room name channel listener.log listener.place)
    (steady : Steady name graph uses) :
    Tracks room name (channel.after uses) (listener.after room name graph uses).log
        (listener.after room name graph uses).place ∧
      answers name channel uses = Listener.answers room name graph listener uses := by
  induction uses generalizing channel listener with
  | nil => exact ⟨tracks, rfl⟩
  | cons use uses ih =>
    obtain ⟨tracks, same⟩ := tracks.use use (steady use mem_cons_self)
    obtain ⟨tracks, rest⟩ := ih _ tracks fun other member =>
      steady other (mem_cons_of_mem use member)
    refine ⟨tracks, ?_⟩
    rw [answers, Listener.answers, rest]
    split
    · rename_i own
      rw [same own]
    · rfl

end Tracks

theorem max_le_roundedCapacity (wish : Nat) : max wish 1 ≤ roundedCapacity wish := by
  rw [roundedCapacity]
  split
  · omega
  · have large : wish - 1 < Nat.pow 2 ((wish - 1).log2 + 1) := lt_log2_self
    omega

theorem fits_ofCapacity (wish : Nat) : Fits (roundedCapacity wish) (ofCapacity wish) :=
  ⟨rfl, zero_le _⟩

/-- What a subscriber of a graph gets of the events published since it came. Each event that
it gets stands at one place among those events, and at each of its reads an event of its graph
that it did not get by then, though it has got a later one or finds nothing more, has at least
`capacity` later events. -/
structure Delivers (capacity : Nat) (name graph : String) (channel : Channel) (uses : List Use)
    (places : List Nat) : Prop where
  ordered : places.Pairwise (· < ·)
  events : places.map ((published uses)[·]?) = (received name channel uses).map some
  own : ∀ event ∈ received name channel uses, event.graph = graph
  missed : ∀ early late, uses = early ++ .read name graph :: late →
    let got := places.take (received name channel (early ++ [.read name graph])).length
    ∀ i event, i < (published early).length → (published early)[i]? = some event →
      event.graph = graph → i ∉ got →
      ((channel.after early).next name graph).1 = none ∨ (∃ j ∈ got, i < j) →
      i + capacity < (published early).length

theorem Delivers.mono {capacity : Nat} {places : List Nat}
    (delivers : Delivers room name graph channel uses places) (less : capacity ≤ room) :
    Delivers capacity name graph channel uses places where
  ordered := delivers.ordered
  events := delivers.events
  own := delivers.own
  missed := by
    intro early late split got i event published here isOwn lost passed
    have most := delivers.missed early late split i event published here isOwn lost passed
    omega

section

/-- A subscriber that has just come, after some uses of the channel. -/
def alone (room : Nat) (name graph : String) (uses : List Use) : Listener :=
  ({} : Listener).after room name graph uses

theorem sound_alone (uses : List Use) : (alone room name graph uses).Sound room graph :=
  (sound_empty room graph).after uses

theorem log_alone (uses : List Use) : (alone room name graph uses).log = published uses :=
  log_after {} uses

variable (tracks : Tracks room name channel [] 0)
include tracks

theorem tracks_alone (steady : Steady name graph uses) :
    Tracks room name (channel.after uses) (alone room name graph uses).log
        (alone room name graph uses).place ∧
      answers name channel uses = Listener.answers room name graph {} uses :=
  Tracks.after {} tracks steady

/-- What a subscriber receives is what it would be given by itself. -/
theorem received_eq_given (steady : Steady name graph uses) :
    received name channel uses = (alone room name graph uses).given.map Prod.snd := by
  rw [received, (tracks_alone tracks steady).2, alone, (given_after {} uses).2]
  rfl

/-- A read that finds nothing comes to the end. -/
theorem place_of_nothing (steady : Steady name graph early)
    (nothing : ((channel.after early).next name graph).1 = none) :
    (alone room name graph (early ++ [.read name graph])).place = (published early).length := by
  have same := ((tracks_alone tracks steady).1.use (.read name graph) fun _ => rfl).2 rfl
  have ended : (alone room name graph early).log[
      (alone room name graph early).target room graph]? = none := by
    simpa only [Channel.use, nothing, Listener.use, if_true, Listener.read] using same.symm
  rw [getElem?_eq_none_iff, log_alone] at ended
  rw [alone, after_read]
  simp only [Listener.read]
  rw [← alone, log_alone]
  omega

/-- What it has got by some time is the beginning of what it gets in the end. -/
theorem got_eq_take {late : List Use} (steady : Steady name graph early)
    (split : uses = early ++ late) :
    ((alone room name graph uses).given.map Prod.fst).take (received name channel early).length =
      (alone room name graph early).given.map Prod.fst := by
  have grows : (alone room name graph early).given <+: (alone room name graph uses).given := by
    rw [split, alone, alone, after_append]
    exact (given_after _ late).1
  rw [received_eq_given tracks steady, length_map, ← map_take,
    ← prefix_iff_eq_take.mp grows]

/-- The places of what a subscriber gets are those at which it would find it by itself. -/
theorem delivers_of_tracks (steady : Steady name graph uses) :
    Delivers room name graph channel uses ((alone room name graph uses).given.map Prod.fst) := by
  have sound : (alone room name graph uses).Sound room graph := sound_alone uses
  refine ⟨sound.ordered, ?_, ?_, ?_⟩
  · rw [received_eq_given tracks steady, map_map, map_map, ← log_alone uses]
    exact map_congr_left fun entry member => (sound.own entry member).1
  · intro event member
    rw [received_eq_given tracks steady] at member
    obtain ⟨entry, given, rfl⟩ := mem_map.mp member
    exact (sound.own entry given).2
  · intro early late split
    rw [append_cons] at split
    have steadyRead : Steady name graph (early ++ [.read name graph]) := fun use member =>
      steady use (split ▸ mem_append_left late member)
    have steadyEarly : Steady name graph early := fun use member =>
      steadyRead use (mem_append_left _ member)
    have soundRead : (alone room name graph (early ++ [.read name graph])).Sound room graph :=
      sound_alone _
    have log : (alone room name graph (early ++ [.read name graph])).log = published early := by
      rw [log_alone, published, filterMap_append]
      exact append_nil _
    rw [got_eq_take tracks steadyRead split]
    intro got i event inside here isOwn lost passed
    have past : i < (alone room name graph (early ++ [.read name graph])).place := by
      rcases passed with nothing | ⟨j, member, later⟩
      · rwa [place_of_nothing tracks steadyEarly nothing]
      · exact Nat.lt_trans later (soundRead.below j member)
    have missed := soundRead.missed i event past
    rw [log] at missed
    exact missed here isOwn lost

end

/-- A subscriber of a graph receives events of that graph only, in the order of their
publication, each at most once, and only such as were published after it came; it misses one
only if the channel took as many later events as its capacity before the subscriber read on.
Nothing that came before and nothing that other subscribers do makes a difference. -/
theorem subscription_delivers (wish : Nat) (before uses : List Use) (name graph : String)
    (steady : Steady name graph uses) :
    let channel := ((ofCapacity wish).after before).subscribe name
    (∃ places, Delivers (max wish 1) name graph channel uses places) ∧
      ∀ others more, Steady name graph more →
        more.filter (·.concerns name) = uses.filter (·.concerns name) →
        answers name (((ofCapacity wish).after others).subscribe name) more =
          answers name channel uses := by
  intro channel
  have tracks (history : List Use) : Tracks (roundedCapacity wish) name
      (((ofCapacity wish).after history).subscribe name) [] 0 :=
    .subscribe ((fits_ofCapacity wish).after history) name
  refine ⟨⟨_, (delivers_of_tracks (tracks before) steady).mono (max_le_roundedCapacity wish)⟩, ?_⟩
  intro others more steadyMore same
  rw [(tracks_alone (tracks others) steadyMore).2, (tracks_alone (tracks before) steady).2,
    ← Listener.answers_filter, same, Listener.answers_filter]

/-- One subscriber is late, while events of two graphs come and another subscriber reads and
leaves. -/
def lateReads : List Use := [
  .publish ⟨"1", "g", .resumed⟩, .read "b" "h", .publish ⟨"2", "h", .resumed⟩,
  .publish ⟨"3", "g", .resumed⟩, .read "b" "h", .detach "b", .publish ⟨"4", "g", .completed⟩,
  .read "a" "g", .read "a" "g", .read "a" "g"]

theorem subscription_delivers_lateReads :
    let channel := ((ofCapacity 2).after [.attach "b"]).subscribe "a"
    (answers "a" channel lateReads).map (Option.map Event.session) = [some "3", some "4", none] ∧
      (∃ places, Delivers 2 "a" "g" channel lateReads places) ∧
      answers "a" ((ofCapacity 2).subscribe "a") (lateReads.filter (·.concerns "a")) =
        answers "a" channel lateReads := by
  have steady : Steady "a" "g" lateReads := by simp [Steady, lateReads, Use.who?]
  have alone : Steady "a" "g" (lateReads.filter (·.concerns "a")) := by
    simp [Steady, lateReads, Use.who?, Use.concerns]
  obtain ⟨delivers, same⟩ := subscription_delivers 2 [.attach "b"] lateReads "a" "g" steady
  exact ⟨rfl, delivers, same [] _ alone (by simp [List.filter_filter])⟩

end Pinflow.Channel
