import Pinflow.Proofs.Walk.Logic

/-!
# Preconditions of the operations of a walk

One statement per operation of `Pinflow.Walk.Serve`. Proofs about walks cite these and
do not open the operations themselves; a property of all walks is then a property of
what is left here: the questions put, in their order, and the changes of state between.
-/

namespace Pinflow.Walk

namespace WP

variable {rule : Query → Past → Prop} {setting : Setting} {inner : Server} {walker : Walker}
  {past : Past}

variable {post : Post (Except Fault Unit)} {node pin : String} {part : Part}

theorem checkCancelled_iff :
    WP rule (ExceptT.run (checkCancelled setting)) post walker past ↔
      rule .isCancelled past ∧
        post (.error (.stopped (walker.session.getD setting.invocation))) walker
          (⟨.isCancelled, true⟩ :: past) ∧
        post (.ok ()) walker (⟨.isCancelled, false⟩ :: past) := by
  constructor
  · rintro ⟨obeys, after⟩
    exact ⟨obeys, after true, after false⟩
  · rintro ⟨obeys, stopped, going⟩
    refine ⟨obeys, fun cancelled => ?_⟩
    cases cancelled
    · exact going
    · exact stopped

/-- The operations that change what a walk remembers tell of it afterwards. -/
theorem change_iff {change : Walker → Walker} {happening : Happening} {post : Post Unit} :
    WP rule (do modify change; announce happening) post walker past ↔
      rule (.announce ⟨happening, change walker⟩) past ∧
        post () (change walker) (told happening (change walker) :: past) := by
  simp only [bind_iff, modify_iff, announce_iff]

section data

variable {source : PinRef} {value : Value} {post : Post (Except Fault Value)}

theorem pull_of_found (found : walker.memo.get? source = some value) :
    WP rule (ExceptT.run (pull setting inner source)) post walker past ↔
      post (.ok value) { walker with memo := (walker.memo.lookup source).2 } past := by
  have hit : (walker.memo.lookup source).1 = some value := found
  simp only [pull, run_bind_iff, run_get_iff, run_set_iff, hit, run_pure_iff]

theorem pull_of_missing (missing : walker.memo.get? source = none) :
    WP rule (ExceptT.run (pull setting inner source)) post walker past ↔
      let counted : Walker := { walker with memo := (walker.memo.lookup source).2 }
      if walker.resolving.contains source.node then
        post (.error (.cycle source.node (cyclePath walker.resolving source.node))) counted past
      else
        WP rule (ExceptT.run (checkCancelled setting)) (fun
          | .error fault => post (.error fault)
          | .ok () => fun walker past =>
            match setting.circuit.part source.node with
            | .error fault => post (.error fault) walker past
            | .ok part => WP rule (ExceptT.run (compute inner source part)) post walker past)
          counted past := by
  have miss : (walker.memo.lookup source).1 = none := missing
  simp only [pull, run_bind_iff, run_get_iff, run_set_iff, miss]
  split
  · exact Iff.rfl
  · rw [run_bind_iff]
    refine congr fun result walker past => ?_
    rcases result with fault | ⟨⟩
    · exact Iff.rfl
    · cases setting.circuit.part source.node <;> exact Iff.rfl

/-- Computing an output: its node is on the stack of those being resolved for as long as
its evaluator runs. -/
theorem compute_iff :
    WP rule (ExceptT.run (compute inner source part)) post walker past ↔
      rule (.announce ⟨.evaluating source part.node.config, walker⟩) past ∧
      WP rule (perform inner (ExceptT.run (part.kind.evaluate part.node source.pin)))
        (fun result walker past =>
          let left : Walker := { walker with resolving := walker.resolving.tail }
          rule (.announce ⟨.evaluated source result, left⟩) past ∧
          match result with
          | .error fault =>
            post (.error fault) left (told (.evaluated source result) left :: past)
          | .ok value =>
            post (.ok value) { left with memo := left.memo.store source value }
              (told (.evaluated source result) left :: past))
        { walker with resolving := source.node :: walker.resolving }
        (told (.evaluating source part.node.config) walker :: past) := by
  simp only [compute, run_bind_iff, run_monadLift_iff, run_modify_iff, attempt_iff, announce_iff]
  refine and_congr_right fun _ => congr fun result walker past => and_congr_right fun _ => ?_
  cases result <;> exact Iff.rfl

theorem output_iff :
    WP rule (ExceptT.run (output setting inner source)) post walker past ↔
      WP rule (ExceptT.run (pull setting inner source)) (fun result walker past =>
        rule (.announce ⟨.read source result, walker⟩) past ∧
          post result walker (told (.read source result) walker :: past)) walker past := by
  simp only [output, run_bind_iff, run_lift_iff, run_monadLift_iff, announce_iff]
  refine congr fun result walker past => and_congr_right fun _ => ?_
  cases result <;> exact Iff.rfl

/-- A wired input is read; any other has a value of its own. -/
theorem resolve_iff {default : Value} :
    WP rule (ExceptT.run (resolve setting inner node pin default)) post walker past ↔
      match setting.circuit.incoming? node pin with
      | some source =>
        WP rule (ExceptT.run (output setting inner source)) (fun
          | .error fault => post (.error fault)
          | .ok value => fun walker past =>
            rule (.announce ⟨.supplied node pin value, walker⟩) past ∧
              post (.ok value) walker (told (.supplied node pin value) walker :: past))
          walker past
      | none =>
        match setting.circuit.part node with
        | .error fault => post (.error fault) walker past
        | .ok part =>
          let value := ((part.node.config.get? pin).filter fun v => !v.isNull).getD default
          rule (.announce ⟨.supplied node pin value, walker⟩) past ∧
            post (.ok value) walker (told (.supplied node pin value) walker :: past) := by
  cases wire : setting.circuit.incoming? node pin with
  | some =>
    simp only [resolve, wire, run_bind_iff, run_monadLift_iff, announce_iff]
    refine congr fun result walker past => ?_
    cases result <;> exact Iff.rfl
  | none =>
    simp only [resolve, wire, run_bind_iff, run_liftExcept_iff, run_monadLift_iff, announce_iff]
    cases setting.circuit.part node <;> exact Iff.rfl

theorem input_iff :
    WP rule (ExceptT.run (input setting inner node pin)) post walker past ↔
      match setting.circuit.part node with
      | .error fault => post (.error fault) walker past
      | .ok part =>
        match part.schema.input? pin with
        | none => post (.error (.evaluation node (.noInputPin pin))) walker past
        | some declared =>
          WP rule (ExceptT.run (resolve setting inner node pin (declared.default.getD .null))) (fun
            | .error fault => post (.error fault)
            | .ok value =>
              if value.isNull && declared.required then post (.error (.missingInput node pin))
              else post (.ok value)) walker past := by
  simp only [input, run_bind_iff, run_liftExcept_iff]
  cases setting.circuit.part node with
  | error => exact Iff.rfl
  | ok part =>
    cases found : part.schema.input? pin with
    | none => simp only [found, run_throw_iff]
    | some =>
      simp only [found, run_bind_iff]
      refine congr fun result walker past => ?_
      cases result with
      | error => exact Iff.rfl
      | ok =>
        simp only
        split <;> exact Iff.rfl

end data

section control

variable {post : Post (Except Fault Signal)}

theorem execute_iff :
    WP rule (ExceptT.run (execute inner node part)) post walker past ↔
      rule (.announce ⟨.executing node, walker⟩) past ∧
      WP rule (perform inner (ExceptT.run (part.kind.execute part.node)))
        (fun result walker past =>
          rule (.announce ⟨.executed node result, walker⟩) past ∧
          let past := told (.executed node result) walker :: past
          match result with
          | .error fault => post (.error fault) walker past
          | .ok (.next pin) =>
            if part.schema.execOutputs.any fun declared => declared.id == pin then
              WP rule (inner (.traverse node pin)) post walker past
            else post (.error (.evaluation node (.noExecOutput pin))) walker past
          | .ok .finish => post (.ok .done) walker past
          | .ok .break => post (.ok (.broken node)) walker past
          | .ok (.forward signal) => post (.ok signal) walker past)
        walker (told (.executing node) walker :: past) := by
  simp only [execute, run_bind_iff, run_monadLift_iff, attempt_iff, announce_iff]
  refine and_congr_right fun _ => congr fun result walker past => and_congr_right fun _ => ?_
  rcases result with fault | flow
  · exact Iff.rfl
  · cases flow with
    | next =>
      simp only [run_liftExcept_iff]
      split <;> exact Iff.rfl
    | _ => exact Iff.rfl

theorem run_iff :
    WP rule (ExceptT.run (run setting inner node)) post walker past ↔
      WP rule (ExceptT.run (checkCancelled setting)) (fun
        | .error fault => post (.error fault)
        | .ok () => fun walker past =>
          match setting.circuit.part node with
          | .error fault => post (.error fault) walker past
          | .ok part =>
            WP rule (ExceptT.run (checkpoint setting node)) (fun
              | .error fault => post (.error fault)
              | .ok () =>
                WP rule (ExceptT.run (checkCancelled setting)) (fun
                  | .error fault => post (.error fault)
                  | .ok () => WP rule (ExceptT.run (execute inner node part)) post))
              walker past) walker past := by
  simp only [run, run_bind_iff, run_liftExcept_iff]
  refine congr fun result walker past => ?_
  rcases result with fault | ⟨⟩
  · exact Iff.rfl
  · cases setting.circuit.part node with
    | error => exact Iff.rfl
    | ok =>
      refine congr fun result walker past => ?_
      rcases result with fault | ⟨⟩
      · exact Iff.rfl
      · refine congr fun result walker past => ?_
        rcases result with fault | ⟨⟩ <;> exact Iff.rfl

theorem follow_iff :
    WP rule (ExceptT.run (follow setting inner node pin)) post walker past ↔
      match setting.circuit.execTarget? node pin with
      | none => post (.ok .done) walker past
      | some target =>
        rule (.announce ⟨.followed ⟨node, pin⟩ target, walker⟩) past ∧
          WP rule (ExceptT.run (run setting inner target.node)) post walker
            (told (.followed ⟨node, pin⟩ target) walker :: past) := by
  cases wire : setting.circuit.execTarget? node pin with
  | none => simp only [follow, wire, run_pure_iff]
  | some => simp only [follow, wire, run_bind_iff, run_monadLift_iff, announce_iff]

theorem traverse_iff :
    WP rule (ExceptT.run (traverse setting inner node pin)) post walker past ↔
      rule (.announce ⟨.traversing ⟨node, pin⟩, walker⟩) past ∧
      WP rule (ExceptT.run (follow setting inner node pin)) (fun result walker past =>
        rule (.announce ⟨.traversed ⟨node, pin⟩ result, walker⟩) past ∧
          post result walker (told (.traversed ⟨node, pin⟩ result) walker :: past))
        walker (told (.traversing ⟨node, pin⟩) walker :: past) := by
  simp only [traverse, run_bind_iff, run_lift_iff, run_monadLift_iff, announce_iff]
  refine and_congr_right fun _ => congr fun result walker past => and_congr_right fun _ => ?_
  cases result <;> exact Iff.rfl

end control

theorem ensureSession_iff {post : Post String} :
    WP rule ensureSession post walker past ↔
      match walker.session with
      | some session => post session walker past
      | none => rule .openSession past ∧ ∀ session,
          post session { walker with session := some session } (⟨.openSession, session⟩ :: past) := by
  rw [ensureSession, bind_iff, get_iff]
  cases walker.session with
  | some => exact Iff.rfl
  | none =>
    rw [bind_iff]
    exact ask_iff

theorem pauseAt_iff {hits : Nat} :
    WP rule (ExceptT.run (pauseAt setting node hits)) post walker past ↔
      WP rule ensureSession (fun session walker past =>
        let snapshot := walker.context.snapshot walker.memo setting.maxSnapshot
        let snapshot := (snapshot.insert "node_id" (.str node)).insert "hit_count" (.ofNat hits)
        let pause := Query.pause session node (.obj snapshot)
        rule pause past ∧
          (∀ overrides, WP rule (assignAll setting overrides) (fun _ => post (.ok ())) walker
            (⟨pause, Command.resume overrides⟩ :: past)) ∧
          post (.error (.stopped session)) walker (⟨pause, Command.stop⟩ :: past))
        walker past := by
  simp only [pauseAt, run_bind_iff, run_monadLift_iff, run_get_iff]
  refine congr fun session walker past => ask_iff.trans (and_congr_right fun _ => ?_)
  constructor
  · intro after
    exact ⟨fun overrides => run_monadLift_iff.mp (after (.resume overrides)), after .stop⟩
  · rintro ⟨resumed, stopped⟩ command
    cases command with
    | resume overrides => exact run_monadLift_iff.mpr (resumed overrides)
    | stop => exact stopped

theorem checkpoint_iff :
    WP rule (ExceptT.run (checkpoint setting node)) post walker past ↔
      let visit := Query.visit node walker.context.vars
      rule visit past ∧ post (.ok ()) walker (⟨visit, (none : Option Nat)⟩ :: past) ∧
        ∀ hits, WP rule (ExceptT.run (pauseAt setting node hits)) post walker
          (⟨visit, some hits⟩ :: past) := by
  simp only [checkpoint, run_bind_iff, run_get_iff, run_monadLift_iff]
  refine ask_iff.trans (and_congr_right fun _ => ?_)
  constructor
  · exact fun after => ⟨after none, fun hits => after (some hits)⟩
  · rintro ⟨passed, paused⟩ hit
    cases hit with
    | none => exact passed
    | some hits => exact paused hits

section checkpoint

variable {Inv : Walker → Past → Prop}

theorem assignAll_of_invariant (written : ∀ path value walker past, Inv walker past →
      WP rule (assign setting path value) (fun _ => Inv) walker past)
    (list : List (String × Value)) (holds : Inv walker past) :
    WP rule (assignAll setting list) (fun _ => Inv) walker past := by
  induction list generalizing walker past with
  | nil => exact holds
  | cons entry list ih =>
    exact (written entry.1 entry.2 walker past holds).mono fun _ walker past => ih

end checkpoint

end WP

section start

variable {rule : Query → Past → Prop} {setting : Setting} {depth : Nat} {entry : String}
  {context : Context}

/-- A walk leaves behind what running its entry does. -/
theorem start_of_served (Inv : Walker → Past → Prop)
    (served : WP rule (serve setting depth (.run entry)) (fun _ => Inv) { context } []) :
    Dialogue.WP rule (fun result past => Inv result.2 past) (start setting depth entry context)
      [] := by
  rw [start, Dialogue.WP_bind]
  refine Dialogue.WP.mono served (fun _ _ obeys => obeys) ?_
  rintro ⟨fault | signal, walker⟩ past holds
  · exact holds
  · cases signal <;> exact holds

/-- A walk keeps a rule if running its entry does. -/
theorem obeys_of_served {post : Post (Except Fault Signal)} {past : Past}
    {rest : Walk (Except Fault Unit × Walker)}
    (served : WP rule (serve setting depth (.run entry)) post { context } [])
    (course : (start setting depth entry context).Leads past rest) : History.Obeys rule past :=
  (start_of_served (fun _ _ => True) (served.mono fun _ _ _ _ => trivial)).obeys course

end start

end Pinflow.Walk
