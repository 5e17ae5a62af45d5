import HotStuff.Engine
import HotStuff.Proofs.Queue
import HotStuff.Proofs.Reporting

/-!
# Commits on Their Way to the Application

What a core commits waits in a queue until the application takes it, and the application takes its
time: it holds one commit and may be at work on that for as long as it likes, while the loop goes on
and puts more into the queue. This queue has no end, unlike that of the messages for the transport,
where those that find no room are dropped. When the loop ends nothing is put in any more, and the
run is over once the queue is empty and the application has come back.

An engine and its application are a `Tandem`, which makes moves of the one and of the other in any
order, and of the transport, which takes the messages that wait for it. While a payload is waited
for the loop stands still, so looking for a slot and proposing in it are one move, with whatever
data the source has come up with. No move loses a commit or puts it in a different place: what the
application was given and what waits is what the core has returned.

## Main definitions

* `Engine.Wake`: what the loop of an engine turns to.
* `Tandem`, `Tandem.move`: an engine beside its application.

## Main results

* `Engine.settle_eq`: what becomes of actions.
* `Tandem.Orderly.move`: every move keeps the commits together.
* `commits_reach_the_application`: the application is given what was committed, once and in order.
-/

namespace HotStuff

namespace Engine

variable {σ : Type} [StateStore σ] {e e' : Engine σ} {now : Instant}

/-! ### What becomes of actions -/

/-- What an action puts out for the transport. -/
def outgoing? : Action → Option Outgoing
  | .send receiver message => some ⟨some receiver, message⟩
  | .broadcast message => some ⟨none, message⟩
  | _ => none

omit [StateStore σ] in
/-- **Messages come to wait** in their order, as many as there is room for. The others are
dropped. -/
theorem foldl_enqueue (waiting outs : List Outgoing) :
    outs.foldl enqueue waiting = waiting ++ outs.take (outboxCapacity - waiting.length) := by
  induction outs generalizing waiting with
  | nil => simp
  | cons out rest ih =>
      rw [List.foldl_cons, ih, enqueue]
      split
      · next hroom =>
          have hleft : outboxCapacity - waiting.length =
              outboxCapacity - (waiting.length + 1) + 1 := by omega
          rw [hleft, List.take_succ_cons, List.length_append, List.length_singleton,
            List.append_assoc, List.singleton_append]
      · next hfull =>
          have hnone : outboxCapacity - waiting.length = 0 := by omega
          rw [hnone, List.take_zero, List.take_zero]

/-- The pacemaker after an action. -/
def pace (now : Instant) (p : Pacemaker) : Action → Pacemaker
  | .resetTimer timeout => p.reset now timeout
  | _ => p

omit [StateStore σ] in
/-- **What becomes of actions**: each goes to its own outlet, and all of them in their order. What
is for the transport is dropped where it finds no room. -/
theorem settle_eq (core : Core σ) (out : List Action) : e.settle now (core, out) =
    { e with
      core
      pacemaker := out.foldl (pace now) e.pacemaker
      outbox :=
        e.outbox ++ (out.filterMap outgoing?).take (outboxCapacity - e.outbox.length)
      commits := e.commits ++ dataIn out
      events := e.events ++ out.filterMap Action.event? } := by
  have hcarry (e : Engine σ) : out.foldl (carryOut now) e = { e with
      pacemaker := out.foldl (pace now) e.pacemaker
      outbox := (out.filterMap outgoing?).foldl enqueue e.outbox
      commits := e.commits ++ dataIn out
      events := e.events ++ out.filterMap Action.event? } := by
    induction out generalizing e with
    | nil => simp [dataIn]
    | cons action rest ih =>
        rw [List.foldl_cons, ih]
        cases action <;>
          simp [carryOut, pace, dataIn, List.filterMap_cons, outgoing?, Action.data?, Action.event?]
  rw [settle, hcarry, foldl_enqueue]

/-! ### The loop -/

/-- **What the loop of an engine turns to.** -/
inductive Wake where
  | arrived (bytes : Bytes)
  /-- The deadline of the view has passed. -/
  | expired
  /-- It is time to propose, and a source has data for that. -/
  | ticked (payloads : View → Bytes)
  | checked

/-- The engine after the loop has turned to something. -/
def wake (e : Engine σ) (now : Instant) : Wake → Except Overflow (Engine σ)
  | .arrived bytes => e.onBytes now bytes
  | .expired => e.onTimeout now
  | .ticked payloads => { e with payloads }.onTick now
  | .checked => .ok (e.onCheck now)

/-- What the core is asked when the loop turns to something. -/
def request? (e : Engine σ) : Wake → Option Input
  | .arrived bytes => (Message.decode? bytes).map .message
  | .expired => some .timeout
  | .ticked payloads => (e.core.slot? e.ctx).map fun slot =>
      .propose slot (if slot.needsPayload then payloads slot.view else [])
  | .checked => none

/-- The engine when the loop has turned to something, before the core is asked. -/
def prepared (e : Engine σ) (now : Instant) : Wake → Engine σ
  | .arrived bytes =>
    let metrics := match Message.decode? bytes with
      | none => e.core.metrics.messageDropped "Undecodable"
      | some message => e.core.metrics.messageReceived message.kind
    { e with core := { e.core with metrics } }
  | .expired => e
  | .ticked payloads => { e with payloads, proposalDue := now + e.config.interval.toNat }
  | .checked => e.onCheck now

/-- **A turn of the loop**: the core is asked, and what it returns is carried out; or it is not
asked. -/
theorem wake_eq (w : Wake) : e.wake now w =
    match e.request? w with
    | none => .ok (e.prepared now w)
    | some input => ((e.prepared now w).core.react e.ctx now input).map
        ((e.prepared now w).settle now) := by
  cases w with
  | arrived bytes =>
      rw [wake, onBytes, request?, prepared]
      cases Message.decode? bytes with
      | none => rfl
      | some message =>
          simp only [Option.map_some, Core.react]
          cases Core.handle e.ctx { e.core with metrics := _ } now message with
          | error => rfl
          | ok answer => rfl
  | expired =>
      simp only [wake, onTimeout, request?, prepared, Core.react]
      cases e.core.onTimeout e.ctx now with
      | error => rfl
      | ok answer => rfl
  | ticked payloads =>
      simp only [wake, onTick, request?, prepared]
      cases e.core.slot? e.ctx with
      | none => rfl
      | some slot =>
          simp only [Option.map_some, Core.react]
          cases e.core.propose e.ctx now slot _ with
          | error => rfl
          | ok answer => rfl
  | checked => rfl

/-- What the core returns when the loop turns to something. -/
def returned (e : Engine σ) (now : Instant) (w : Wake) : List Action :=
  match e.request? w with
  | none => []
  | some input =>
    match (e.prepared now w).core.react e.ctx now input with
    | .ok (_, out) => out
    | .error _ => []

/-- **What the loop comes to when it turns to something**: without a question to the core nothing is
returned, and with one the answer of the core is carried out. -/
theorem wake_ok {w : Wake} (h : e.wake now w = .ok e') :
    e' = e.prepared now w ∧ e.returned now w = [] ∨ ∃ input core,
      (e.prepared now w).core.react e.ctx now input = .ok (core, e.returned now w) ∧
        e' = (e.prepared now w).settle now (core, e.returned now w) := by
  rw [wake_eq] at h
  rw [returned]
  cases hrequest : e.request? w with
  | none =>
      rw [hrequest] at h
      exact Or.inl ⟨(Except.ok.inj h).symm, rfl⟩
  | some input =>
      simp only [hrequest] at h ⊢
      cases hreact : (e.prepared now w).core.react e.ctx now input with
      | error => rw [hreact] at h; cases h
      | ok answer =>
          rw [hreact] at h
          exact Or.inr ⟨input, answer.1, hreact, (Except.ok.inj h).symm⟩

omit [StateStore σ] in
/-- Before the core is asked no more than its metrics has changed. -/
theorem prepared_core (now : Instant) (w : Wake) :
    ∃ metrics, (e.prepared now w).core = { e.core with metrics } := by
  cases w <;> exact ⟨_, rfl⟩

omit [StateStore σ] in
/-- Before the core is asked, nothing is handed to the application and nothing taken back. -/
theorem prepared_outlets (now : Instant) (w : Wake) :
    (e.prepared now w).ctx = e.ctx ∧ (e.prepared now w).stage = e.stage ∧
      (e.prepared now w).commits = e.commits ∧ (e.prepared now w).executed = e.executed := by
  cases w <;> exact ⟨rfl, rfl, rfl, rfl⟩

omit [StateStore σ] in
/-- The transport takes no more than messages. -/
theorem sendNext_keeps (e : Engine σ) :
    e.sendNext.ctx = e.ctx ∧ e.sendNext.core = e.core ∧ e.sendNext.stage = e.stage ∧
      e.sendNext.commits = e.commits ∧ e.sendNext.executed = e.executed := by
  rw [sendNext]
  split <;> exact ⟨rfl, rfl, rfl, rfl, rfl⟩

/-- An engine that is ready to run is started. -/
theorem run_of_ready {answer : Core σ × List Action} (hready : e.stage = .ready)
    (hstart : e.core.start e.ctx now = .ok answer) :
    e.run now = .ok (settle ({ e with
      stage := .running, proposalDue := now, checkDue := now + e.config.onlineCheck.toNat })
      now answer) := by
  rw [run, hready, hstart]
  rfl

/-- **A fresh engine**, which has not run yet. -/
structure Fresh (e : Engine σ) : Prop where
  ready : e.stage = .ready
  created : ∃ store, Core.create e.ctx store = .ok e.core
  idle : e.commits = [] ∧ e.executed = []

/-- An engine is fresh when it has been created. -/
theorem fresh_of_create {config : Config} {secret : Secret} {store : σ} {payloads : View → Bytes}
    (h : create config secret store payloads now = .ok e) : e.Fresh := by
  obtain ⟨ctx, -, h⟩ := bind_eq_ok.mp h
  obtain ⟨core, hcore, h⟩ := bind_eq_ok.mp h
  obtain rfl := Except.ok.inj h
  exact ⟨rfl, ⟨store, Outcome.ofCheck_eq_ok.mp hcore⟩, rfl, rfl⟩

end Engine

/-! ### An engine beside its application -/

/-- **An engine beside its application**, with what the core has returned so far. -/
structure Tandem (σ : Type) where
  engine : Engine σ
  returned : List Action
  /-- Whether the application is at work on the commit that it took last. -/
  busy : Bool

namespace Tandem

/-- What one of them does. -/
inductive Move where
  /-- The loop turns to something. -/
  | wake (now : Instant) (w : Engine.Wake)
  /-- The loop ends: the engine was stopped, or nothing can arrive any more. -/
  | stop
  /-- The transport takes a message. -/
  | send
  /-- The application is given a commit. -/
  | take
  /-- The application is done with it. -/
  | done
  /-- The run is over. -/
  | finish

variable {σ : Type} [StateStore σ]

/-- An engine starts to run. -/
def launch (e : Engine σ) (now : Instant) : Option (Tandem σ) :=
  match e.core.start e.ctx now, e.run now with
  | .ok (_, out), .ok engine => some ⟨engine, out, false⟩
  | _, _ => none

/-- **One move**, if it can be made. The loop turns to something or ends while it is running, and
the transport takes messages meanwhile; the application takes one commit after the other; and the
run is over after the loop has ended, when no commit waits and the application is not at work. -/
def move (t : Tandem σ) : Move → Option (Tandem σ)
  | .wake now w =>
    if t.engine.stage = .running then
      match t.engine.wake now w with
      | .ok engine => some { t with engine, returned := t.returned ++ t.engine.returned now w }
      | .error _ => none
    else none
  | .stop => if t.engine.stage = .running then some { t with engine := t.engine.stop } else none
  | .send => if t.engine.stage = .running then some { t with engine := t.engine.sendNext } else none
  | .take =>
    if t.busy ∨ t.engine.commits = [] then none
    else some { t with engine := t.engine.executeNext, busy := true }
  | .done => if t.busy then some { t with busy := false } else none
  | .finish =>
    if t.engine.stage = .stopping ∧ t.engine.commits = [] ∧ ¬ t.busy then
      some { t with engine := t.engine.finish }
    else none

/-- Moves one after the other. -/
def moves : Tandem σ → List Move → Option (Tandem σ)
  | t, [] => some t
  | t, m :: rest =>
    match t.move m with
    | some t' => t'.moves rest
    | none => none

/-- **Commits are in order**: what the application was given and what waits is what was returned to
be executed, and the height counts it. -/
structure Orderly (start : Engine σ) (t : Tandem σ) : Prop where
  handed : t.engine.executed ++ t.engine.commits = dataIn t.returned
  counts : Counts start.core.replica.state.height (heightsIn t.returned)
    t.engine.core.replica.state.height
  atRest : t.engine.core.AtRest t.engine.ctx
  ended : t.engine.stage = .ended → t.engine.commits = [] ∧ t.busy = false

variable {start : Engine σ} {now : Instant} {t t' : Tandem σ} {ms : List Move}

/-- It begins in order. -/
theorem orderly_of_launch (hfresh : start.Fresh) (h : launch start now = some t) :
    t.Orderly start := by
  obtain ⟨hready, ⟨store, hcreate⟩, hcommits, hexecuted⟩ := hfresh
  have hrest := Core.atRest_of_create hcreate
  rw [launch] at h
  cases hstart : start.core.start start.ctx now with
  | error => rw [hstart] at h; cases h
  | ok answer =>
  obtain ⟨core, out⟩ := answer
  have hreact : start.core.react start.ctx now .start = .ok (core, out) := hstart
  rw [Engine.run_of_ready hready hstart, hstart, Engine.settle_eq] at h
  obtain rfl := Option.some.inj h
  refine ⟨?_, (Core.tells_of_react hrest.sound hreact).2, hrest.react hreact, by rintro ⟨⟩⟩
  rw [hexecuted, hcommits]
  rfl

/-- **Every move keeps the commits in order.** -/
theorem Orderly.move {m : Move} (horderly : t.Orderly start) (h : t.move m = some t') :
    t'.Orderly start := by
  obtain ⟨hhanded, hcounts, hrest, hended⟩ := horderly
  cases m with
  | wake now w =>
      rw [Tandem.move] at h
      split at h
      swap
      · cases h
      next hrunning =>
      split at h
      swap
      · cases h
      next engine hwake =>
      obtain rfl := Option.some.inj h
      obtain ⟨hctx, hstage, hcommits, hexecuted⟩ := t.engine.prepared_outlets now w
      obtain ⟨metrics, hcore⟩ := t.engine.prepared_core now w
      have hprepared : (t.engine.prepared now w).core.AtRest t.engine.ctx := by
        rw [hcore]
        exact ⟨hrest.shown, hrest.current, hrest.sound⟩
      have hheight : (t.engine.prepared now w).core.replica = t.engine.core.replica := by rw [hcore]
      rcases Engine.wake_ok hwake with ⟨rfl, hout⟩ | ⟨input, core, hreact, rfl⟩
      · simp only [hout, List.append_nil]
        refine ⟨?_, hheight ▸ hcounts, hctx ▸ hprepared, ?_⟩
        · rw [hexecuted, hcommits, hhanded]
        · rw [hstage, hrunning]
          rintro ⟨⟩
      · rw [Engine.settle_eq]
        refine ⟨?_, ?_, hctx ▸ hprepared.react hreact, ?_⟩
        · rw [dataIn_append, ← hhanded, hexecuted, hcommits, List.append_assoc]
        · rw [heightsIn_append]
          exact hcounts.append (hheight ▸ (Core.tells_of_react hprepared.sound hreact).2)
        · rw [hstage, hrunning]
          rintro ⟨⟩
  | stop =>
      rw [Tandem.move] at h
      split at h
      · next hrunning =>
          obtain rfl := Option.some.inj h
          rw [Engine.stop, hrunning]
          exact ⟨hhanded, hcounts, hrest, by rintro ⟨⟩⟩
      · cases h
  | send =>
      rw [Tandem.move] at h
      split at h
      · obtain rfl := Option.some.inj h
        obtain ⟨hctx, hcore, hstage, hcommits, hexecuted⟩ := t.engine.sendNext_keeps
        exact ⟨by rw [hexecuted, hcommits, hhanded], hcore ▸ hcounts, hctx ▸ hcore ▸ hrest,
          by rw [hstage, hcommits]; exact hended⟩
      · cases h
  | take =>
      rw [Tandem.move] at h
      split at h
      · cases h
      · next hfree =>
          obtain rfl := Option.some.inj h
          obtain ⟨data, rest, hcommits⟩ := List.exists_cons_of_ne_nil (not_or.mp hfree).2
          have hnot : t.engine.stage ≠ .ended := fun hstage => (not_or.mp hfree).2 (hended hstage).1
          rw [Engine.executeNext, hcommits]
          refine ⟨?_, hcounts, hrest, fun hstage => absurd hstage hnot⟩
          rw [← hhanded, hcommits, List.append_assoc, List.singleton_append]
  | done =>
      rw [Tandem.move] at h
      split at h
      · obtain rfl := Option.some.inj h
        exact ⟨hhanded, hcounts, hrest, fun hstage => ⟨(hended hstage).1, rfl⟩⟩
      · cases h
  | finish =>
      rw [Tandem.move] at h
      split at h
      · next hover =>
          obtain ⟨hstage, hempty, hidle⟩ := hover
          obtain rfl := Option.some.inj h
          rw [Engine.finish, if_pos ⟨hstage, hempty⟩]
          exact ⟨hhanded, hcounts, hrest, fun _ => ⟨hempty, by simpa using hidle⟩⟩
      · cases h

/-- Commits stay in order. -/
theorem Orderly.moves (horderly : t.Orderly start) (h : t.moves ms = some t') :
    t'.Orderly start := by
  induction ms generalizing t with
  | nil =>
      obtain rfl := Option.some.inj h
      exact horderly
  | cons m rest ih =>
      rw [Tandem.moves] at h
      split at h
      · next hmove => exact ih (horderly.move hmove) h
      · cases h

/-- When the loop has ended and the application is not at work, the run is over after as many
commits as wait. -/
theorem exists_ended_of_idle (hstage : t.engine.stage = .stopping) (hidle : t.busy = false) :
    ∃ ms t', t.moves ms = some t' ∧ t'.engine.stage = .ended ∧ t'.returned = t.returned := by
  generalize hcommits : t.engine.commits = commits
  induction commits generalizing t with
  | nil =>
      have hover : t.engine.stage = .stopping ∧ t.engine.commits = [] := ⟨hstage, hcommits⟩
      have hfinish : t.move .finish = some { t with engine := t.engine.finish } :=
        if_pos ⟨hstage, hcommits, by simp [hidle]⟩
      have hended : t.engine.finish.stage = .ended := by rw [Engine.finish, if_pos hover]
      refine ⟨[.finish], { t with engine := t.engine.finish }, ?_, hended, rfl⟩
      rw [Tandem.moves, hfinish]
      rfl
  | cons data rest ih =>
      have htake : t.move .take = some { t with engine := t.engine.executeNext, busy := true } :=
        if_neg (by simp [hidle, hcommits])
      have hnext : t.engine.executeNext =
          { t.engine with commits := rest, executed := t.engine.executed ++ [data] } := by
        rw [Engine.executeNext, hcommits]
      rw [hnext] at htake
      obtain ⟨ms, t', hmoves, hended, hreturned⟩ := @ih
        ⟨{ t.engine with commits := rest, executed := t.engine.executed ++ [data] }, t.returned,
          false⟩
        hstage rfl rfl
      refine ⟨.take :: .done :: ms, t', ?_, hended, hreturned⟩
      rw [Tandem.moves, htake]
      exact hmoves

/-- **A run that was stopped can come to its end**, whatever waits and whether or not the
application is at work. -/
theorem exists_ended (hstage : t.engine.stage = .stopping) :
    ∃ ms t', t.moves ms = some t' ∧ t'.engine.stage = .ended ∧ t'.returned = t.returned := by
  cases hbusy : t.busy with
  | false => exact exists_ended_of_idle hstage hbusy
  | true =>
      obtain ⟨ms, t', hmoves, hended, hreturned⟩ :=
        @exists_ended_of_idle _ _ { t with busy := false } hstage rfl
      refine ⟨.done :: ms, t', ?_, hended, hreturned⟩
      rw [Tandem.moves, Tandem.move, if_pos hbusy]
      exact hmoves

end Tandem

/-- For each commit there is a height. -/
theorem length_dataIn (actions : List Action) :
    (dataIn actions).length = (heightsIn actions).length := by
  induction actions with
  | nil => rfl
  | cons action rest ih =>
      cases action with
      | send _ message | broadcast message => cases message <;> exact ih
      | execute => exact congrArg (· + 1) ih
      | resetTimer | notify => exact ih

/-- **Every commit reaches the application once and in order, however slow it is.** Whatever the
loop turns to and whenever the application is done with a commit: at every moment it was given a
prefix of what the core has returned to be executed. When the run is over it was given all of it, as
many payloads as the height has grown by. And once the loop has ended, the run comes to its end as
soon as the application has taken what waits. -/
theorem commits_reach_the_application {σ : Type} [StateStore σ] {start : Engine σ} {now : Instant}
    {launched t : Tandem σ} {ms : List Tandem.Move} (hfresh : start.Fresh)
    (hlaunch : Tandem.launch start now = some launched) (hmoves : launched.moves ms = some t) :
    t.engine.executed <+: dataIn t.returned ∧
    (t.engine.stage = .ended →
      t.engine.executed = dataIn t.returned ∧
        t.engine.core.replica.state.height.toNat =
          start.core.replica.state.height.toNat + t.engine.executed.length) ∧
    (t.engine.stage = .stopping →
      ∃ ms' t', t.moves ms' = some t' ∧ t'.engine.stage = .ended ∧ t'.returned = t.returned) := by
  have horderly := (Tandem.orderly_of_launch hfresh hlaunch).moves hmoves
  refine ⟨⟨_, horderly.handed⟩, fun hended => ?_, Tandem.exists_ended⟩
  have hall : t.engine.executed = dataIn t.returned := by
    rw [← horderly.handed, (horderly.ended hended).1, List.append_nil]
  exact ⟨hall, by rw [horderly.counts.reached, hall, length_dataIn]⟩

namespace Handover

/-- An engine in a committee of one. -/
def engine : Engine MemoryStore :=
  { ctx := .alone, config := { members := Committee.alone.members }, core := Core.fresh .alone
    payloads := fun _ => [], pacemaker := .start 0 10 }

/-- The engine is fresh: nothing was done with it, and its core is that of a new process. -/
theorem fresh_engine : engine.Fresh := ⟨rfl, ⟨{}, Core.create_fresh _⟩, rfl, rfl⟩

/-- The application is at work on the first commit until the engine has been stopped. -/
def blocked : List Tandem.Move :=
  [.wake 0 (.ticked fun _ => [80]), .take, .send, .wake 1 (.ticked fun _ => [81]),
    .wake 1 (.arrived [0]), .wake 2 (.ticked fun _ => [82, 83]), .stop]

/-- Then it takes the others. -/
def released : List Tandem.Move := [.done, .take, .done, .take, .done, .finish]

end Handover

open Handover in
/-- The application is blocked by the first of three commits, and gets the others after the loop has
ended. -/
theorem commits_reach_the_application_of_blocked :
    ∃ launched waiting t : Tandem MemoryStore,
      Tandem.launch engine 0 = some launched ∧ launched.moves blocked = some waiting ∧
      waiting.engine.executed = [[80]] ∧ waiting.engine.executed <+: dataIn waiting.returned ∧
      launched.moves (blocked ++ released) = some t ∧ t.engine.executed = [[80], [81], [82, 83]] ∧
      t.engine.executed = dataIn t.returned := by
  have hcomputed : ((Tandem.launch engine 0).bind fun launched =>
      (launched.moves blocked).bind fun waiting =>
        (launched.moves (blocked ++ released)).map fun t =>
          decide (waiting.engine.executed = [[80]] ∧ t.engine.stage = .ended ∧
            t.engine.executed = [[80], [81], [82, 83]])) = some true := by decide +kernel
  obtain ⟨launched, hlaunch, h⟩ := Option.bind_eq_some_iff.mp hcomputed
  obtain ⟨waiting, hwaiting, h⟩ := Option.bind_eq_some_iff.mp h
  obtain ⟨t, hmoves, h⟩ := Option.map_eq_some_iff.mp h
  obtain ⟨hfirst, hended, hall⟩ := of_decide_eq_true h
  exact ⟨launched, waiting, t, hlaunch, hwaiting, hfirst,
    (commits_reach_the_application fresh_engine hlaunch hwaiting).1, hmoves, hall,
    ((commits_reach_the_application fresh_engine hlaunch hmoves).2.1 hended).1⟩

end HotStuff
