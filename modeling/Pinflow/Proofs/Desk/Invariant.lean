import Pinflow.Proofs.Desk.Following
import Pinflow.Proofs.Desk.Lookup

/-!
# What every play keeps

The invariant of a desk and its chronicle: every invocation is kept on its course, whoever
has the move. `Desk.Sound` holds of an idle desk and is carried along by every move, and
with it the course of each invocation, which only grows.
-/

namespace Pinflow

open Invocation List Option

open Walk (Past)

variable {f : Session → Session} {desk : Desk} {deeds log : List Deed} {invocation : Invocation}
  {session : Session} {circuit : Circuit} {request : Request} {deed : Deed} {birth : Birth}
  {cancelled yields : Bool}

/-- The session of an invocation may change as long as somebody stays on its line. -/
theorem Seated.change {world world' : Surroundings} (seated : Seated world invocation)
    (alters : Alters world world' invocation cancelled f)
    (keeps : ∀ session, session.OnLine → (f session).OnLine) :
    Seated world' { invocation with cancelled } := by
  have same := alters.session
  rw [Seated] at seated ⊢
  cases stage : invocation.stage with
  | paused =>
    simp only [stage] at seated ⊢
    obtain ⟨own, lodged, found, present, onLine⟩ := seated
    refine ⟨own, lodged.change alters, f found, ?_, keeps found onLine⟩
    rw [same, present, map_some]
  | waiting =>
    simp only [stage] at seated ⊢
    exact seated.change alters
  | finished | refused =>
    simp only [stage] at seated ⊢
    rw [same, seated, map_none]
  | dropped =>
    simp only [stage] at seated ⊢
    rw [same, isSome_map]
    exact ⟨seated.1, seated.2.change alters⟩

namespace Desk.Move

variable (move : Move) (id : String)

theorem graph_onSession : (move.onSession id session).graph = session.graph := by
  cases move with
  | resume =>
    rw [onSession, Session.resume]
    split
    · split <;> rfl
    · rfl
  | stop =>
    rw [onSession]
    split <;> rfl
  | _ => rfl

/-- What is told to a session reaches nobody who does not wait for it. -/
theorem line_onSession (quiet : session.line ≠ .waiting) (manned : session.line ≠ .abandoned) :
    (move.onSession id session).line = session.line := by
  obtain ⟨_, _, _, _, _, _, line⟩ := session
  cases move with
  | resume | stop =>
    rw [onSession]
    split
    · cases line with
      | waiting => exact absurd rfl quiet
      | abandoned => exact absurd rfl manned
      | _ => rfl
    · rfl
  | _ => rfl

/-- Whoever is on the line of a session stays there. -/
theorem onLine_onSession (onLine : session.OnLine) : (move.onSession id session).OnLine := by
  rcases onLine with waiting | ⟨command, given⟩
  · obtain ⟨_, _, _, _, _, _, line⟩ := session
    cases waiting
    cases move with
    | resume | stop =>
      rw [onSession]
      split
      · exact .inr ⟨_, rfl⟩
      · exact .inl rfl
    | _ => exact .inl rfl
  · exact .inr ⟨command, (move.line_onSession id (by simp [given]) (by simp [given])).trans given⟩

/-- Nobody is stopped but by a stop. -/
theorem status_onSession (stops : move ≠ .stop id)
    (stopped : (move.onSession id session).status = .stopped) : session.status = .stopped := by
  cases move with
  | resume =>
    rw [onSession, Session.resume] at stopped
    split at stopped
    · split at stopped
      · cases stopped
      · cases stopped
      all_goals exact stopped
    · exact stopped
  | stop other =>
    have differs : other ≠ id := fun same => stops (congrArg Move.stop same)
    rwa [onSession, if_neg differs] at stopped
  | _ => exact stopped

end Desk.Move

namespace Kept

variable {world world' : Surroundings} {past : Past} {walk : Option Run}

section

variable (kept : Kept birth world log invocation past walk yields)
include kept

theorem name : invocation.name = birth.name := by
  obtain ⟨standing, rest, follows, -⟩ := kept
  exact follows.name

theorem born : birth.deed ∈ log := by
  obtain ⟨standing, rest, follows, -⟩ := kept
  exact follows.born

theorem identity : invocation.identity = birth.identity := by
  obtain ⟨standing, rest, follows, -⟩ := kept
  exact follows.identity

/-- The session of an invocation is there only if the invocation has opened it, for its own
graph. -/
theorem home (present : world.debugger.session? birth.session = some session) :
    invocation.session = some birth.session ∧ session.graph = birth.circuit.id ∧
      (session.status = .stopped → invocation.cancelled = true) := by
  obtain ⟨standing, rest, follows, placed⟩ := kept
  rw [← follows.session_eq] at present
  have opens : ((world.debugger.session? invocation.identity.session).isSome = true →
      invocation.session.isSome = true) ∧ Home world invocation := by
    cases walk with
    | some => exact ⟨fun isSome => placed.2.1 ▸ isSome, placed.2.2⟩
    | none =>
      obtain ⟨-, seated⟩ := placed
      rw [Seated] at seated
      split at seated
      · exact ⟨fun isSome => seated.2.1.1 ▸ isSome, seated.2.1.2⟩
      · exact ⟨fun isSome => seated.1 ▸ isSome, seated.2⟩
      · cases seated.symm.trans present
      · cases seated.symm.trans present
      · exact seated
  obtain ⟨id, isOpen⟩ := isSome_iff_exists.mp (opens.1 (present ▸ rfl))
  obtain ⟨graph, token⟩ := opens.2 session present
  exact ⟨follows.own isOpen ▸ isOpen, graph.trans follows.graph, token⟩

section

variable (free : walk.isSome = true → yields = true)
include free

/-- What others do, to the session of an invocation and to its token among other things. -/
theorem change (alters : Alters world world' invocation cancelled f)
    (keeps : ∀ session, session.OnLine → (f session).OnLine)
    (quiet : ∀ deed ∈ deeds, deed.Quiet birth.name)
    (token : cancelled = true ↔ .cancelled birth.name ∈ deeds ++ log) :
    Kept birth world' (deeds ++ log) { invocation with cancelled } past walk yields := by
  obtain ⟨standing, rest, follows, placed⟩ := kept
  cases walk with
  | none =>
    obtain ⟨stands, seated⟩ := placed
    exact ⟨standing, rest, follows.besides stands.rests.isOpen quiet token, stands,
      seated.change alters keeps⟩
  | some =>
    obtain ⟨busy, lodged⟩ := placed
    cases free rfl
    exact ⟨standing, rest, follows.besides trivial quiet token, busy, lodged.change alters⟩

/-- What happens elsewhere leaves an invocation where it is, also if its session is told
something. -/
theorem beside (alters : Alters world world' invocation invocation.cancelled f)
    (keeps : ∀ session, session.OnLine → (f session).OnLine)
    (others : ∀ deed ∈ deeds, deed.name? ≠ some birth.name) :
    Kept birth world' (deeds ++ log) invocation past walk yields := by
  refine kept.change free alters keeps
    (fun deed member => Deed.quiet_of_name? (others deed member)) ?_
  obtain ⟨standing, rest, follows, -⟩ := kept
  rw [follows.token, mem_append]
  exact ⟨.inr, fun member => member.resolve_left fun other => others _ other rfl⟩

theorem elsewhere
    (same : world'.debugger.session? birth.session = world.debugger.session? birth.session)
    (others : ∀ deed ∈ deeds, deed.name? ≠ some birth.name) :
    Kept birth world' (deeds ++ log) invocation past walk yields := by
  refine kept.beside (f := id) free ⟨?_, fun _ => rfl, id, fun _ _ => .inl⟩ (fun _ onLine => onLine)
    others
  rw [kept.identity, Option.map_id_fun]
  exact same

/-- The token of the invocation is cancelled, and its session may be told of it. -/
theorem cancel
    (same : world'.debugger.session? birth.session = (world.debugger.session? birth.session).map f)
    (graph : ∀ session, (f session).graph = session.graph)
    (keeps : ∀ session, session.OnLine → (f session).OnLine)
    (quiet : ∀ deed ∈ deeds, deed.Quiet birth.name) (member : .cancelled birth.name ∈ deeds) :
    Kept birth world' (deeds ++ log) { invocation with cancelled := true } past walk yields := by
  refine kept.change free ⟨?_, graph, fun _ => rfl, fun _ _ _ => .inr rfl⟩ keeps quiet
    ⟨fun _ => mem_append_left _ member, fun _ => rfl⟩
  rw [kept.identity]
  exact same

end

/-- The invocation is owed something else. -/
theorem owe (owed : Owed) : Kept birth world log { invocation with owed } past walk yields := by
  obtain ⟨standing, rest, follows, placed⟩ := kept
  refine ⟨standing, rest, follows.update rfl rfl rfl rfl rfl rfl follows.heard, ?_⟩
  cases walk with
  | none => exact placed
  | some => exact ⟨placed.1, placed.2⟩

end

/-- The session in which an invocation asks for a pause is its own, and there. -/
theorem present_of_pause {id node : String} {snapshot : Value} {next : Command → Run}
    (kept : Kept birth world log invocation past
      (some (Dialogue.ask (Query.pause id node snapshot) next)) yields) :
    id = birth.session ∧ ∃ session, world.debugger.session? birth.session = some session := by
  obtain ⟨_, _, follows, ⟨rfl, rfl⟩, lodged⟩ := kept
  refine ⟨follows.own_of_pause, isSome_iff_exists.mp ?_⟩
  rw [← follows.session_eq, lodged.1, follows.session, follows.careful.pauses id node snapshot rfl]
  rfl

/-- A turn of the invocation itself. -/
theorem wake (kept : Kept birth world log invocation past) :
    Further birth past world log (invocation.wake world).1 (invocation.wake world).2
      (invocation.turn world ++ log) := by
  rcases invocation.wake_cases world with ⟨wakes, turns⟩ |
    ⟨going, world', run, deeds, prompted, wakes, turns⟩
  · rw [wakes, turns]
    exact ⟨past, kept, .refl birth past world log⟩
  · rw [wakes, turns, append_assoc]
    exact (kept.prompted prompted).andThen fun _ going => going.drive

/-- A paused invocation is dropped. -/
theorem drop_paused {session node : String} {number : Nat} {deadline : Option Nat}
    {next : Command → Run} (kept : Kept birth world log invocation past none yields)
    (paused : invocation.stage = .paused session node number deadline next) :
    session = birth.session ∧
      Kept birth { world with debugger := world.debugger.abandon session } log
        { invocation with stage := .dropped } past none yields := by
  obtain ⟨standing, rest, follows, stands, seated⟩ := kept
  rw [Seated] at seated
  simp only [paused] at seated stands
  obtain ⟨rfl, lodged, -⟩ := seated
  cases stands
  have left : Lodged { world with debugger := world.debugger.abandon invocation.identity.session }
      invocation := by
    refine lodged.change ⟨world.debugger.amended_abandon.own, fun session => ?_, id,
      fun session _ => ?_⟩
    · rw [Session.abandon]
      split <;> rfl
    · rw [Session.abandon]
      split <;> exact .inl
  exact ⟨follows.session_eq, .ended, _, follows.drops trivial, .dropped,
    fun isOpen => left.1 ▸ isOpen, left.2⟩

/-- An invocation that waits for an answer is dropped. -/
theorem drop_waiting {next : Except Fault Value → Run}
    (kept : Kept birth world log invocation past none yields)
    (waiting : invocation.stage = .waiting next) :
    Kept birth world log { invocation with stage := .dropped } past none yields := by
  obtain ⟨standing, rest, follows, stands, seated⟩ := kept
  rw [Seated] at seated
  simp only [waiting] at seated stands
  cases stands
  exact ⟨.ended, _, follows.drops trivial, .dropped, fun isOpen => seated.1 ▸ isOpen,
    seated.2⟩

end Kept

section beginning

variable {world : Surroundings}

theorem Invocation.mem_opening {name : String} {identity : Identity} :
    deed ∈ opening circuit name identity request ↔
      deed = .started name identity circuit request ∨
        request.cancelled = true ∧ deed = .cancelled name := by
  rw [opening]
  cases request.cancelled
  · simp
  · simp [or_comm]

/-- Deeds that note the beginning of an invocation or the cancellation of its token. -/
def Deed.IsNote : Deed → Prop
  | .started _ _ _ _ | .cancelled _ => True
  | _ => False

/-- An invocation before its first question. -/
theorem Follows.begins (birth : Birth) (world : Surroundings)
    (unknown : ∀ deed ∈ log, deed.name? ≠ some birth.name) :
    Follows birth
      (opening birth.circuit birth.name birth.identity birth.request ++ log)
      (fresh birth.settings world birth.circuit birth.name birth.identity birth.request)
      .busy [] birth.walk yields := by
  refine ⟨rfl, rfl, rfl, rfl, ?_, ?_, .begins ?_ ?_, ?_, rfl, rfl⟩
  · exact mem_append_left _ (mem_opening.mpr (.inl rfl))
  · intro identity circuit request member
    rcases mem_append.mp member with member | member
    · rcases mem_opening.mp member with same | ⟨-, same⟩
      · cases same
        exact ⟨rfl, rfl, rfl⟩
      · cases same
    · exact absurd rfl (unknown _ member)
  · intro q member
    rcases mem_append.mp member with member | member
    · rcases mem_opening.mp member with same | ⟨-, same⟩ <;> cases same
    · exact unknown _ member rfl
  · refine filterMap_eq_nil_iff.mpr fun deed member => ?_
    rcases mem_append.mp member with member | member
    · rcases mem_opening.mp member with rfl | ⟨-, rfl⟩ <;> rfl
    · exact (Deed.quiet_of_name? (unknown deed member)).command?
  · constructor
    · intro cancelled
      exact mem_append_left _ (mem_opening.mpr (.inr ⟨cancelled, rfl⟩))
    · intro member
      rcases mem_append.mp member with member | member
      · rcases mem_opening.mp member with same | ⟨cancelled, -⟩
        · cases same
        · exact cancelled
      · exact absurd rfl (unknown _ member)

theorem Since.opening (birth : Birth) (world : Surroundings) (log : List Deed) :
    Since birth [] world log [] world
      (opening birth.circuit birth.name birth.identity birth.request ++ log) := by
  refine ⟨suffix_rfl, .refl world, _, rfl, fun deed member => ?_⟩
  rcases mem_opening.mp member with rfl | ⟨-, rfl⟩ <;> exact ⟨.inl rfl, nofun⟩

section

variable (free : world.debugger.session? birth.session = none)
  (unknown : ∀ deed ∈ log, deed.name? ≠ some birth.name)
include free unknown

theorem Kept.begins :
    Kept birth world (opening birth.circuit birth.name birth.identity birth.request ++ log)
      (fresh birth.settings world birth.circuit birth.name birth.identity birth.request) []
      (some birth.walk) yields := by
  refine ⟨.busy, _, .begins birth world unknown, ⟨rfl, rfl⟩, congrArg Option.isSome free, ?_⟩
  intro session present
  cases free.symm.trans present

/-- An invocation whose graph lacks the entry is over at once. -/
theorem Kept.rejects :
    Kept birth world (opening birth.circuit birth.name birth.identity birth.request ++ log)
      (rejected birth.settings world birth.circuit birth.name birth.identity birth.request) []
      none yields := by
  have follows : Follows birth _ _ .busy [] birth.walk yields := .begins birth world unknown
  exact ⟨.ended, birth.walk, { follows with
    course := .ends follows.course (.inl rfl)
    heard := fun _ same => absurd same Stage.noConfusion }, .refused, free⟩

end

theorem Invocation.kept_begin (birth : Birth) (free : world.debugger.session? birth.session = none)
    (unknown : ∀ deed ∈ log, deed.name? ≠ some birth.name) :
    let begun := begin birth.settings world birth.circuit birth.name birth.identity
      birth.request
    let deeds := beginning birth.settings world birth.circuit birth.name birth.identity
      birth.request
    Further birth [] world log begun.1 begun.2 (deeds ++ log) := by
  have since := Since.opening birth world log
  simp only [begin_eq, beginning]
  by_cases contains : birth.circuit.contains birth.request.entry = true
  · rw [if_pos contains, if_pos contains, append_assoc]
    exact Further.andThen ⟨[], .begins free unknown, since⟩ fun _ kept => kept.drive
  · rw [if_neg contains, if_neg contains, nil_append]
    exact ⟨[], .rejects free unknown, since⟩

end beginning

namespace Desk

/-- Every invocation is kept on its course; invocations have names and sessions of their
own, and everything on record, every session and every walk that is under way belongs to one of
them. -/
structure Sound (desk : Desk) (log : List Deed) (walks : String → Option Run := fun _ => none)
    (yields : Bool := false) : Prop where
  kept : ∀ invocation ∈ desk.invocations, ∃ birth past, birth.settings = desk.settings ∧
    Kept birth desk.world log invocation past (walks invocation.name) yields
  names : ∀ invocation ∈ desk.invocations, ∀ other ∈ desk.invocations,
    invocation.name = other.name → invocation = other
  sessions : ∀ invocation ∈ desk.invocations, ∀ other ∈ desk.invocations,
    invocation.identity.session = other.identity.session → invocation = other
  owners : ∀ id, (desk.world.debugger.session? id).isSome = true →
    ∃ invocation ∈ desk.invocations, invocation.identity.session = id
  named : ∀ deed ∈ log, ∀ name, deed.name? = some name →
    ∃ invocation ∈ desk.invocations, invocation.name = name
  walking : ∀ name, (walks name).isSome = true →
    yields = true ∧ ∃ invocation ∈ desk.invocations, invocation.name = name
  nodup : desk.world.debugger.ids.Nodup

/-- Every question on record was put by an invocation on the desk, where it may be. -/
theorem Sound.asked {later earlier : List Deed} {name : String} {q : Query}
    (sound : desk.Sound log) (record : log = later ++ .asked name q :: earlier) :
    ∃ invocation ∈ desk.invocations, ∃ (birth : Birth) (past : Past) (next : q.Answer → Run),
      invocation.name = name ∧ invocation.identity = birth.identity ∧
      Course false birth.walk name birth.session earlier .busy past (Dialogue.ask q next) ∧
      Walk.Careful q past := by
  have mem : .asked name q ∈ log := record ▸ mem_append_cons_self
  obtain ⟨invocation, member, named⟩ := sound.named _ mem name rfl
  obtain ⟨birth, past, -, standing, rest, follows, -, -⟩ := sound.kept invocation member
  have name_eq : birth.name = name := follows.name.symm.trans named
  have whole := follows.course
  rw [name_eq] at whole
  obtain ⟨before, next, -, course⟩ := whole.split record
  exact ⟨invocation, member, birth, before, next, named, follows.identity, course,
    (birth.walk_careful.onward course.leads).1⟩

variable {walks walks' : String → Option Run}

/-- Every invocation of a desk has gone on to another desk, further on its course. -/
def Carries (desk : Desk) (log : List Deed) (next : Desk) (log' : List Deed)
    (walks walks' : String → Option Run := fun _ => none) (yields : Bool := false) : Prop :=
  ∀ invocation ∈ desk.invocations, ∀ birth past,
    Kept birth desk.world log invocation past (walks invocation.name) yields →
    ∃ after ∈ next.invocations, ∃ past', past <:+ past' ∧
      Kept birth next.world log' after past' (walks' invocation.name) yields

theorem Carries.refl (desk : Desk) (log : List Deed) : desk.Carries log desk log walks walks yields :=
  fun invocation member _ past kept => ⟨invocation, member, past, suffix_rfl, kept⟩

theorem Carries.trans {next last : Desk} {log' log'' : List Deed}
    (first : desk.Carries log next log') (second : next.Carries log' last log'') :
    desk.Carries log last log'' := by
  intro invocation member birth past kept
  obtain ⟨after, member, past', grows, kept⟩ := first invocation member birth past kept
  obtain ⟨latest, member, past'', more, kept⟩ := second after member birth past' kept
  exact ⟨latest, member, past'', grows.trans more, kept⟩

/-- A desk goes on to another one, with these deeds, and every invocation with it. -/
def Proceeds (desk : Desk) (log : List Deed) (next : Desk) (deeds : List Deed)
    (walks walks' : String → Option Run := fun _ => none) (yields : Bool := false) : Prop :=
  next.Sound (deeds ++ log) walks' yields ∧
    desk.Carries log next (deeds ++ log) walks walks' yields

/-- A deed of one invocation is of no other. -/
theorem name_of_own {name other : String} (own : deed.name? = some name ∨ deed.name? = none)
    (isName : deed.name? = some other) : name = other := by
  rcases own with mine | nobody
  · exact Option.some.inj (mine.symm.trans isName)
  · cases nobody.symm.trans isName

namespace Sound

section

variable (sound : desk.Sound log walks yields)
include sound

/-- A name stands for one invocation. -/
theorem invocation?_eq {name : String} (member : invocation ∈ desk.invocations)
    (same : invocation.name = name) : desk.invocation? name = some invocation := by
  have isSome : (desk.invocation? name).isSome = true :=
    find?_isSome.mpr ⟨invocation, member, by simpa using same⟩
  obtain ⟨found, present⟩ := isSome_iff_exists.mp isSome
  obtain ⟨isMember, named⟩ := mem_of_invocation? present
  rw [present, sound.names found isMember invocation member (named.trans same.symm)]

/-- Others may act while a walk is under way only where walks yield. -/
theorem free (name : String) : (walks name).isSome = true → yields = true :=
  fun isSome => (sound.walking name isSome).1

/-- Who is on record is on the desk, and kept on the course that it began. -/
theorem kept_of_born (settings : birth.settings = desk.settings) (born : birth.deed ∈ log) :
    ∃ invocation past, desk.invocation? birth.name = some invocation ∧
      Kept birth desk.world log invocation past (walks birth.name) yields := by
  obtain ⟨settings', name, identity, circuit, request⟩ := birth
  obtain ⟨invocation, member, rfl⟩ := sound.named _ born name rfl
  obtain ⟨⟨_, _, _, _, _⟩, past, same, kept⟩ := sound.kept invocation member
  obtain rfl := settings.trans same.symm
  obtain rfl := kept.name
  have isKept := kept
  obtain ⟨standing, rest, follows, -⟩ := kept
  obtain ⟨rfl, rfl, rfl⟩ := follows.once identity circuit request born
  exact ⟨invocation, past, sound.invocation?_eq member rfl, isKept⟩

/-- There is one beginning of each name on record. -/
theorem born_unique {birth' : Birth} (born : birth.deed ∈ log) (born' : birth'.deed ∈ log)
    (names : birth.name = birth'.name) (settings : birth.settings = birth'.settings) :
    birth = birth' := by
  obtain ⟨settings', name, identity, circuit, request⟩ := birth'
  obtain rfl : birth.name = name := names
  obtain rfl : birth.settings = settings' := settings
  obtain ⟨invocation, member, named⟩ := sound.named _ born birth.name rfl
  obtain ⟨owner, past, -, _, _, follows, -⟩ := sound.kept invocation member
  have same : owner.name = birth.name := follows.name.symm.trans named
  have once := same ▸ follows.once
  obtain ⟨rfl, rfl, rfl⟩ := once identity circuit request born'
  obtain ⟨identity, circuit, request⟩ := once _ _ _ born
  cases birth
  cases identity
  cases circuit
  cases request
  rfl

/-- A move that changes invocations one by one. -/
theorem map (g : Invocation → Invocation) (world : Surroundings) (deeds : List Deed)
    (keeps : ∀ invocation ∈ desk.invocations, ∀ birth past,
      Kept birth desk.world log invocation past (walks invocation.name) yields →
      ∃ past', past <:+ past' ∧
        Kept birth world (deeds ++ log) (g invocation) past' (walks' invocation.name) yields)
    (owners : ∀ id, (world.debugger.session? id).isSome = true →
      (desk.world.debugger.session? id).isSome = true ∨
        ∃ invocation ∈ desk.invocations, invocation.identity.session = id)
    (named : ∀ deed ∈ deeds, ∀ name, deed.name? = some name →
      ∃ invocation ∈ desk.invocations, invocation.name = name)
    (walking : ∀ name, (walks' name).isSome = true →
      yields = true ∧ ∃ invocation ∈ desk.invocations, invocation.name = name)
    (nodup : world.debugger.ids.Nodup) :
    desk.Proceeds log { desk with invocations := desk.invocations.map g, world } deeds walks walks'
      yields := by
  -- An invocation keeps its name and its identity.
  have same : ∀ invocation ∈ desk.invocations,
      (g invocation).name = invocation.name ∧ (g invocation).identity = invocation.identity := by
    intro invocation member
    obtain ⟨birth, past, -, kept⟩ := sound.kept invocation member
    obtain ⟨past', -, after⟩ := keeps invocation member birth past kept
    exact ⟨after.name.trans kept.name.symm, after.identity.trans kept.identity.symm⟩
  have distinct {f : Invocation → String}
      (apart : ∀ first ∈ desk.invocations, ∀ second ∈ desk.invocations,
        f first = f second → first = second)
      (keeps : ∀ invocation ∈ desk.invocations, f (g invocation) = f invocation) :
      ∀ first ∈ desk.invocations.map g, ∀ second ∈ desk.invocations.map g,
        f first = f second → first = second := by
    simp only [List.forall_mem_map]
    intro first member second otherMember alike
    rw [keeps first member, keeps second otherMember] at alike
    rw [apart first member second otherMember alike]
  have stays : ∀ {name}, (∃ invocation ∈ desk.invocations, invocation.name = name) →
      ∃ invocation ∈ desk.invocations.map g, invocation.name = name := by
    rintro name ⟨invocation, member, own⟩
    exact ⟨g invocation, mem_map_of_mem member, (same invocation member).1.trans own⟩
  refine ⟨⟨?_, distinct sound.names fun invocation member => (same invocation member).1,
    distinct sound.sessions fun invocation member =>
      congrArg Identity.session (same invocation member).2, ?_, ?_, ?_, nodup⟩, ?_⟩
  · intro after isNew
    obtain ⟨invocation, member, rfl⟩ := mem_map.mp isNew
    obtain ⟨birth, past, settings, kept⟩ := sound.kept invocation member
    obtain ⟨past', -, after⟩ := keeps invocation member birth past kept
    exact ⟨birth, past', settings, (same invocation member).1 ▸ after⟩
  · intro id isSome
    have owner : ∃ invocation ∈ desk.invocations, invocation.identity.session = id :=
      (owners id isSome).elim (sound.owners id) fun owner => owner
    obtain ⟨invocation, member, own⟩ := owner
    exact ⟨g invocation, mem_map_of_mem member, (same invocation member).2 ▸ own⟩
  · intro deed member name isName
    rcases mem_append.mp member with new | old
    · exact stays (named deed new name isName)
    · exact stays (sound.named deed old name isName)
  · exact fun name isSome => (walking name isSome).imp_right stays
  · intro invocation member birth past kept
    obtain ⟨past', grows, after⟩ := keeps invocation member birth past kept
    exact ⟨g invocation, mem_map_of_mem member, past', grows, after⟩

/-- A move that changes no invocation and stops no session. -/
theorem told (move : Move) (beside : ∀ id, Beside id move desk.world (desk.make move).world)
    (stops : ∀ id, move ≠ .stop id) (nobody : ∀ deed ∈ desk.deeds move, deed.name? = none) :
    desk.Proceeds log { desk with world := (desk.make move).world } (desk.deeds move) walks walks
      yields := by
  have mapped := sound.map id (desk.make move).world (desk.deeds move) ?_ ?_ ?_ sound.walking
    ((beside "").nodup sound.nodup)
  · rwa [List.map_id_fun] at mapped
  · intro invocation member birth past kept
    refine ⟨past, suffix_rfl, kept.beside (sound.free _) ⟨(beside _).session,
      fun _ => move.graph_onSession _, id, fun _ _ stopped => .inl ?_⟩
      (fun _ => move.onLine_onSession _) fun deed member isName => ?_⟩
    · exact move.status_onSession _ (stops _) stopped
    · cases (nobody deed member).symm.trans isName
  · intro id isSome
    rw [(beside id).session, isSome_map] at isSome
    exact .inl isSome
  · intro deed member name isName
    cases (nobody deed member).symm.trans isName

/-- Nothing happens. -/
theorem same : desk.Proceeds log desk [] walks walks yields := ⟨sound, .refl desk log⟩

/-- A move that adds an invocation. -/
theorem append {past₀ past : Past} {new : Invocation} {world : Surroundings}
    (settings : birth.settings = desk.settings)
    (others : ∀ other ∈ desk.invocations,
      other.name ≠ birth.name ∧ other.identity.session ≠ birth.session)
    (kept : Kept birth world (deeds ++ log) new past (walks' birth.name) yields)
    (since : Since birth past₀ desk.world log past world (deeds ++ log))
    (walking : ∀ name, name ≠ birth.name → walks' name = walks name)
    (free : (walks' birth.name).isSome = true → yields = true) :
    desk.Proceeds log { desk with invocations := desk.invocations ++ [new], world } deeds walks
      walks' yields := by
  have stays : ∀ other ∈ desk.invocations, ∀ birth' past',
      Kept birth' desk.world log other past' (walks other.name) yields →
      Kept birth' world (deeds ++ log) other past' (walks' other.name) yields := by
    intro other member birth' past' kept'
    rw [walking other.name (others other member).1]
    refine kept'.elsewhere (sound.free _) (since.apart.sessions _ ?_) fun deed isDeed isName => ?_
    · rw [Birth.session, ← kept'.identity]
      exact (others other member).2
    · exact (others other member).1
        (kept'.name.trans (name_of_own (since.own deed isDeed).1 isName).symm)
  have newSession : new.identity.session = birth.session := congrArg Identity.session kept.identity
  have distinct {f : Invocation → String}
      (apart : ∀ first ∈ desk.invocations, ∀ second ∈ desk.invocations,
        f first = f second → first = second)
      (fresh : ∀ other ∈ desk.invocations, f other ≠ f new) :
      ∀ first ∈ desk.invocations ++ [new], ∀ second ∈ desk.invocations ++ [new],
        f first = f second → first = second := by
    simp only [forall_mem_append, forall_mem_singleton]
    refine ⟨fun first member => ⟨apart first member, fun alike => ?_⟩,
      fun second member alike => ?_, fun _ => trivial⟩
    · exact absurd alike (fresh first member)
    · exact absurd alike.symm (fresh second member)
  refine ⟨⟨?_, distinct sound.names fun other member => kept.name ▸ (others other member).1,
    distinct sound.sessions fun other member => newSession ▸ (others other member).2, ?_, ?_, ?_,
    since.apart.nodup sound.nodup⟩, ?_⟩
  · intro invocation isMember
    rcases mem_append.mp isMember with member | member
    · obtain ⟨birth', past', same, kept'⟩ := sound.kept invocation member
      exact ⟨birth', past', same, stays invocation member birth' past' kept'⟩
    · rw [mem_singleton.mp member]
      exact ⟨birth, past, settings, kept.name ▸ kept⟩
  · intro id isSome
    by_cases mine : id = birth.session
    · exact ⟨new, mem_append_cons_self, newSession.trans mine.symm⟩
    · rw [since.apart.sessions id mine] at isSome
      obtain ⟨owner, member, own⟩ := sound.owners id isSome
      exact ⟨owner, mem_append_left _ member, own⟩
  · intro deed isDeed name isName
    rcases mem_append.mp isDeed with isNew | old
    · exact ⟨new, mem_append_cons_self,
        kept.name.trans (name_of_own (since.own deed isNew).1 isName)⟩
    · obtain ⟨owner, member, own⟩ := sound.named deed old name isName
      exact ⟨owner, mem_append_left _ member, own⟩
  · intro name isSome
    by_cases mine : name = birth.name
    · subst mine
      exact ⟨free isSome, new, mem_append_cons_self, kept.name⟩
    · rw [walking name mine] at isSome
      obtain ⟨yields, owner, member, own⟩ := sound.walking name isSome
      exact ⟨yields, owner, mem_append_left _ member, own⟩
  · intro other member birth' past' kept'
    exact ⟨other, mem_append_left _ member, past', suffix_rfl,
      stays other member birth' past' kept'⟩

/-- An invocation that is admitted shares nothing with the others. -/
theorem admitted {name : String} {identity : Identity} (admits : desk.admits name identity = true) :
    (∀ other ∈ desk.invocations,
      other.name ≠ name ∧ other.identity.session ≠ identity.session) ∧
    desk.world.debugger.session? identity.session = none ∧
    ∀ deed ∈ log, deed.name? ≠ some name := by
  have others : ∀ other ∈ desk.invocations,
      other.name ≠ name ∧ other.identity.session ≠ identity.session := by
    simpa [Desk.admits] using admits
  refine ⟨others, ?_, ?_⟩
  · rw [← not_isSome_iff_eq_none]
    intro isSome
    obtain ⟨other, member, same⟩ := sound.owners _ isSome
    exact (others other member).2 same
  · intro deed member isName
    obtain ⟨other, member, same⟩ := sound.named deed member _ isName
    exact (others other member).1 same

/-- Something happens to one invocation. -/
theorem update {name : String} {changed : Invocation} (member : changed ∈ desk.invocations)
    (named : changed.name = name) (f : Invocation → Invocation) (world : Surroundings)
    (deeds : List Deed)
    (keeps : ∀ birth past, Kept birth desk.world log changed past (walks name) yields →
      ∃ past', past <:+ past' ∧
        Kept birth world (deeds ++ log) (f changed) past' (walks' name) yields)
    (apart : desk.world.Apart changed.identity.session world)
    (own : ∀ deed ∈ deeds, deed.name? = some name ∨ deed.name? = none)
    (walking : ∀ other, other ≠ name → walks' other = walks other)
    (free : (walks' name).isSome = true → yields = true) :
    desk.Proceeds log { desk.updateInvocation name f with world } deeds walks walks' yields := by
  refine sound.map (fun invocation => if invocation.name == name then f invocation else invocation)
    world deeds ?_ ?_ ?_ ?_ (apart.nodup sound.nodup)
  · intro invocation isMember birth past kept
    by_cases mine : invocation.name = name
    · obtain rfl := sound.names invocation isMember changed member (mine.trans named.symm)
      rw [if_pos (by simpa using mine)]
      rw [mine] at kept ⊢
      exact keeps birth past kept
    · rw [if_neg (by simpa using mine), walking _ mine]
      refine ⟨past, suffix_rfl, kept.elsewhere (sound.free _) (apart.sessions _ ?_) ?_⟩
      · intro sameSession
        rw [Birth.session, ← kept.identity] at sameSession
        rw [sound.sessions invocation isMember changed member sameSession] at mine
        exact mine named
      · exact fun deed isDeed isName =>
          mine (kept.name.trans (name_of_own (own deed isDeed) isName).symm)
  · intro id isSome
    by_cases mine : id = changed.identity.session
    · exact .inr ⟨changed, member, mine.symm⟩
    · rw [apart.sessions id mine] at isSome
      exact .inl isSome
  · exact fun deed isDeed _ isName =>
      ⟨changed, member, named.trans (name_of_own (own deed isDeed) isName)⟩
  · intro other isSome
    by_cases mine : other = name
    · exact ⟨free (mine ▸ isSome), changed, member, named.trans mine.symm⟩
    · exact sound.walking other (walking other mine ▸ isSome)

/-- Something happens to one invocation, but not to its walk. -/
theorem update_of_same {name : String} {changed : Invocation} (member : changed ∈ desk.invocations)
    (named : changed.name = name) (f : Invocation → Invocation) (deeds : List Deed)
    (keeps : ∀ birth past, Kept birth desk.world log changed past (walks name) yields →
      Kept birth desk.world (deeds ++ log) (f changed) past (walks name) yields)
    (own : ∀ deed ∈ deeds, deed.name? = some name ∨ deed.name? = none) :
    desk.Proceeds log (desk.updateInvocation name f) deeds walks walks yields :=
  sound.update member named f desk.world deeds
    (fun birth past kept => ⟨past, suffix_rfl, keeps birth past kept⟩) (.refl _) own
    (fun _ _ => rfl) (sound.free name)

theorem cancel (name : String) :
    desk.Proceeds log (desk.make (.cancel name)) (desk.deeds (.cancel name)) walks walks yields := by
  simp only [make, deeds]
  cases isFound : desk.invocation? name with
  | none =>
    rw [updateInvocation_of_none isFound]
    exact sound.same
  | some =>
    obtain ⟨member, named⟩ := mem_of_invocation? isFound
    refine sound.update_of_same member named _ [.cancelled name] ?_
      (forall_mem_singleton.mpr (.inl rfl))
    intro birth past kept
    refine kept.cancel (f := id) (sound.free name) ?_ (fun _ => rfl) (fun _ onLine => onLine)
      (forall_mem_singleton.mpr trivial) ?_
    · rw [Option.map_id_fun, id]
    · rw [← named, kept.name]
      exact mem_cons_self

theorem drop (name : String) (rests : walks name = none) :
    desk.Proceeds log (desk.make (.drop name)) (desk.deeds (.drop name)) walks walks yields := by
  simp only [make, Desk.drop, deeds]
  cases isFound : desk.invocation? name with
  | none => exact sound.same
  | some dropping =>
    obtain ⟨member, named⟩ := mem_of_invocation? isFound
    obtain ⟨birth, past, -, kept⟩ := sound.kept dropping member
    rw [named, rests] at kept
    cases stage : dropping.stage with
    | paused session =>
      have own : session = dropping.identity.session := by
        rw [kept.identity]
        exact (kept.drop_paused stage).1
      simp only [stage]
      refine sound.update member named _
        { desk.world with debugger := desk.world.debugger.abandon session } [] ?_
        (own ▸ desk.world.debugger.amended_abandon.apart) (forall_mem_nil _) (fun _ _ => rfl)
        (sound.free name)
      rw [rests]
      exact fun birth past kept => ⟨past, suffix_rfl, (kept.drop_paused stage).2⟩
    | waiting =>
      simp only [stage]
      refine sound.update_of_same member named _ [] ?_ (forall_mem_nil _)
      rw [rests]
      exact fun birth past kept => kept.drop_waiting stage
    | finished | refused | dropped => simpa only [stage] using sound.same

theorem release (name : String) (answer : Except Fault Value) :
    desk.Proceeds log (desk.make (.release name answer)) (desk.deeds (.release name answer)) walks
      walks yields := by
  simp only [make, deeds]
  cases isFound : desk.invocation? name with
  | none => exact sound.same
  | some =>
    obtain ⟨member, named⟩ := mem_of_invocation? isFound
    split
    · exact sound.update_of_same member named _ [] (fun birth past kept => kept.owe _)
        (forall_mem_nil _)
    · exact sound.same

theorem stop (session : String) :
    desk.Proceeds log (desk.make (.stop session)) (desk.deeds (.stop session)) walks walks yields := by
  simp only [make, deeds]
  cases stopped : desk.world.debugger.stop session with
  | error => exact sound.same
  | ok debugger =>
    have mem_cancelled : ∀ deed : Deed,
        deed ∈ (desk.invocations.filter fun invocation => invocation.session == some session).map
          (fun invocation => Deed.cancelled invocation.name) ↔
        ∃ invocation ∈ desk.invocations, invocation.session = some session ∧
          .cancelled invocation.name = deed := by
      intro deed
      simp [and_assoc]
    have beside : ∀ id, Beside id (.stop session) desk.world { desk.world with debugger } :=
      fun id => .of_amended rfl rfl (desk.world.debugger.amended_stop stopped) fun _ _ => rfl
    refine sound.map (fun invocation =>
      if invocation.session == some session then { invocation with cancelled := true }
      else invocation) { desk.world with debugger } _ ?_ ?_ ?_ sound.walking
      ((beside session).nodup sound.nodup)
    · intro invocation member birth past kept
      refine ⟨past, suffix_rfl, ?_⟩
      by_cases isOpen : invocation.session = some session
      · rw [if_pos (by simpa using isOpen)]
        refine kept.cancel (sound.free _) (beside _).session (fun _ => Move.graph_onSession _ _)
          (fun _ => Move.onLine_onSession _ _) ?_ ?_
        · intro deed isDeed
          obtain ⟨other, -, -, rfl⟩ := (mem_cancelled deed).mp isDeed
          trivial
        · exact (mem_cancelled _).mpr ⟨invocation, member, isOpen, by rw [kept.name]⟩
      · rw [if_neg (by simpa using isOpen)]
        refine kept.beside (sound.free _) ⟨(beside _).session, fun _ => Move.graph_onSession _ _,
          id, fun found present stopped => .inl (Move.status_onSession _ _ ?_ stopped)⟩
          (fun _ => Move.onLine_onSession _ _) fun deed isDeed isName => isOpen ?_
        · rintro ⟨⟩
          rw [kept.identity] at isOpen present
          exact isOpen (kept.home present).1
        · obtain ⟨other, otherMember, otherOpen, rfl⟩ := (mem_cancelled deed).mp isDeed
          have same : other.name = invocation.name :=
            (Option.some.inj isName).trans kept.name.symm
          rw [← sound.names other otherMember invocation member same]
          exact otherOpen
    · intro id isSome
      rw [(beside id).session, isSome_map] at isSome
      exact .inl isSome
    · intro deed isDeed name isName
      obtain ⟨other, member, -, rfl⟩ := (mem_cancelled deed).mp isDeed
      exact ⟨other, member, Option.some.inj isName⟩

/-- Somebody makes a move that no walk takes part in. -/
theorem moves {move : Move} (aside : move.Aside walks) :
    desk.Proceeds log (desk.make move) (desk.deeds move) walks walks yields := by
  cases move with
  | start | wake => exact aside.elim
  | cancel name => exact sound.cancel name
  | drop name => exact sound.drop name aside
  | release name answer => exact sound.release name answer
  | stop session => exact sound.stop session
  | advance span =>
    exact sound.told (.advance span) (desk.beside_make · _ trivial) nofun (forall_mem_nil _)
  | edit edit =>
    exact sound.told (.edit edit) (desk.beside_make · _ trivial) nofun (forall_mem_nil _)
  | watch change =>
    exact sound.told (.watch change) (desk.beside_make · _ trivial) nofun
      (forall_mem_singleton.mpr rfl)
  | resume id overrides =>
    refine sound.told (.resume id overrides) (desk.beside_make · _ trivial) nofun ?_
    intro deed isDeed
    rw [deeds] at isDeed
    split at isDeed
    · exact name?_of_report isDeed
    · cases isDeed

end

variable (sound : desk.Sound log)
include sound

theorem start (name : String) (identity : Identity) (circuit : Circuit) (request : Request) :
    desk.Proceeds log (desk.make (.start name identity circuit request))
      (desk.deeds (.start name identity circuit request)) := by
  by_cases admits : desk.admits name identity = true
  · obtain ⟨others, free, unknown⟩ := sound.admitted admits
    obtain ⟨past, kept, since⟩ :=
      kept_begin ⟨desk.settings, name, identity, circuit, request⟩ free unknown
    rw [make_start_of_admits admits, deeds, if_pos admits]
    exact sound.append rfl others kept since (fun _ _ => rfl) nofun
  · simp only [make, deeds, if_neg admits]
    exact sound.same

theorem wake (name : String) :
    desk.Proceeds log (desk.make (.wake name)) (desk.deeds (.wake name)) := by
  simp only [make, Desk.wake, deeds]
  cases isFound : desk.invocation? name with
  | none => exact sound.same
  | some waking =>
    obtain ⟨member, named⟩ := mem_of_invocation? isFound
    obtain ⟨birth, past, -, kept⟩ := sound.kept waking member
    obtain ⟨_, _, since⟩ := kept.wake
    have same : waking.identity.session = birth.session := congrArg Identity.session kept.identity
    refine sound.update member named (fun _ => (waking.wake desk.world).1) _ _ ?_ ?_ ?_
      (fun _ _ => rfl) (by simp)
    · intro birth past kept
      obtain ⟨past', after, since⟩ := kept.wake
      exact ⟨past', since.grows, after⟩
    · exact same ▸ since.apart
    · rw [← named, kept.name]
      exact fun deed member => (since.own deed member).1

theorem make (move : Move) : desk.Proceeds log (desk.make move) (desk.deeds move) := by
  cases move with
  | start name identity circuit request => exact sound.start name identity circuit request
  | wake name => exact sound.wake name
  | drop => exact sound.moves rfl
  | _ => exact sound.moves trivial

/-- Every play keeps every invocation on its course. -/
theorem play (moves : List Move) :
    (desk.play moves).Sound (desk.chronicle moves ++ log) ∧
      desk.Carries log (desk.play moves) (desk.chronicle moves ++ log) := by
  refine play_rule (fun next log' => next.Sound log' ∧ desk.Carries log next log') ?_
    ⟨sound, .refl desk log⟩ moves
  rintro next log' move ⟨sound, carries⟩
  obtain ⟨after, step⟩ := sound.make move
  exact ⟨after, carries.trans step⟩

end Sound

/-- An invocation that is admitted is on record. -/
theorem started_mem {name : String} {identity : Identity}
    (admits : desk.admits name identity = true) :
    .started name identity circuit request ∈ desk.deeds (.start name identity circuit request) := by
  rw [deeds, if_pos admits, beginning]
  exact mem_append_right _ (mem_opening.mpr (.inl rfl))

theorem Idle.sound (idle : desk.Idle) : desk.Sound [] (fun _ => none) yields := by
  have empty : ∀ invocation, invocation ∉ desk.invocations := by
    intro invocation member
    rw [idle.invocations] at member
    cases member
  refine ⟨?_, ?_, ?_, ?_, ?_, nofun, ?_⟩
  · exact fun invocation member => absurd member (empty invocation)
  · exact fun invocation member => absurd member (empty invocation)
  · exact fun invocation member => absurd member (empty invocation)
  · intro id isSome
    rw [Debugger.session?, idle.sessions] at isSome
    cases isSome
  · exact forall_mem_nil _
  · rw [Debugger.ids, idle.sessions]
    exact nodup_nil

theorem Idle.play (idle : desk.Idle) (moves : List Move) :
    (desk.play moves).Sound (desk.chronicle moves) :=
  chronicle_rule Sound (fun move sound => (sound.make move).1) idle.sound moves

/-- A property of the surroundings and the record that lasts: every step of an invocation keeps
it, and so does all else that is done at a desk. -/
structure Lasting (holds : Surroundings → List Deed → Prop) : Prop where
  replies : ∀ {invocation world q log answer after world' deeds}, holds world log →
    Replies invocation world q answer after world' deeds →
    holds world' (deeds ++ .asked invocation.name q :: log)
  waits : ∀ {invocation world q next log after world' deeds}, holds world log →
    Waits invocation world q next after world' deeds →
    holds world' (deeds ++ .asked invocation.name q :: log)
  ends : ∀ {invocation : Invocation} {world log} result (walker : Walker) archive, holds world log →
    holds { world with archive, debugger := world.debugger.closing walker.session result }
      (invocation.record world (Dialogue.done (result, walker)) ++ log)
  prompts : ∀ {invocation world going world' run deeds log}, holds world log →
    Prompted invocation world going world' run deeds → holds world' (deeds ++ log)
  notes : ∀ {world deeds log}, (∀ deed ∈ deeds, Deed.IsNote deed) → holds world log →
    holds world (deeds ++ log)
  abandons : ∀ {world log} id, holds world log →
    holds { world with debugger := world.debugger.abandon id } log
  advances : ∀ {world log} clock, holds world log → holds { world with clock } log
  edits : ∀ {world log} breakpoints, holds world log →
    holds { world with debugger := { world.debugger with breakpoints } } log
  resumes : ∀ {desk : Desk} {log} id overrides, holds desk.world log →
    holds (desk.make (.resume id overrides)).world (desk.deeds (.resume id overrides) ++ log)
  stops : ∀ {world log} id, holds world log →
    holds { world with debugger := world.debugger.updateSession id Session.stop } log
  watches : ∀ {desk : Desk} {log} change, holds desk.world log →
    holds (desk.make (.watch change)).world (.watched change :: log)

namespace Lasting

variable {holds : Surroundings → List Deed → Prop} (lasting : Lasting holds)
include lasting

theorem drive {world : Surroundings} {run : Run} (now : holds world log) :
    holds (invocation.drive world run).2 (invocation.record world run ++ log) := by
  refine drive_rule (fun _ world _ => holds world) (fun _ => holds) lasting.replies lasting.waits
    ?_ now
  intro going world result walker log now
  obtain ⟨archive, finished⟩ := going.finish_eq world result walker
  rw [finished]
  exact lasting.ends result walker archive now

theorem make (now : holds desk.world log) (move : Move) :
    holds (desk.make move).world (desk.deeds move ++ log) := by
  cases move with
  | start name identity circuit request =>
    rw [Desk.make, deeds]
    split
    · have opened : holds desk.world (opening circuit name identity request ++ log) := by
        refine lasting.notes (fun deed member => ?_) now
        rcases mem_opening.mp member with rfl | ⟨-, rfl⟩ <;> trivial
      change holds (begin _ _ _ _ _ _).2 _
      rw [begin_eq, beginning, append_assoc]
      split
      · exact lasting.drive opened
      · exact opened
    · exact now
  | wake name =>
    rw [Desk.make, Desk.wake, deeds]
    cases desk.invocation? name with
    | none => exact now
    | some invocation =>
      rcases invocation.wake_cases desk.world with ⟨wakes, turns⟩ |
        ⟨going, world, run, deeds, prompted, wakes, turns⟩
      · simp only [wakes, turns]
        exact now
      · simp only [wakes, turns, append_assoc]
        exact lasting.drive (lasting.prompts now prompted)
  | cancel =>
    rw [deeds]
    split
    · exact lasting.notes (forall_mem_singleton.mpr trivial) now
    · exact now
  | drop =>
    rw [Desk.make, Desk.drop]
    split
    · exact now
    · simp only
      split
      · exact lasting.abandons _ now
      all_goals exact now
  | release =>
    rw [Desk.make]
    split <;> exact now
  | advance => exact lasting.advances _ now
  | edit edit =>
    obtain ⟨breakpoints, edited⟩ := desk.world.debugger.edit_eq edit
    rw [Desk.make, edited]
    exact lasting.edits breakpoints now
  | resume id overrides => exact lasting.resumes id overrides now
  | stop id =>
    rw [Desk.make, deeds]
    cases stopped : desk.world.debugger.stop id with
    | error => exact now
    | ok =>
      obtain ⟨-, rfl⟩ := desk.world.debugger.stop_eq_ok stopped
      refine lasting.notes (fun deed member => ?_) (lasting.stops id now)
      obtain ⟨-, -, rfl⟩ := mem_map.mp member
      trivial
  | watch change => exact lasting.watches change now

/-- What lasts holds after any play. -/
theorem play (now : holds desk.world []) (moves : List Move) :
    holds (desk.play moves).world (desk.chronicle moves) :=
  chronicle_rule (fun next => holds next.world) (fun move now => lasting.make now move) now moves

end Lasting

end Desk

end Pinflow
