import Mathlib.Algebra.GroupWithZero.Nat
import HotStuff.Proofs.Handover
import HotStuff.Proofs.Lifetimes
import HotStuff.Proofs.Progress
import HotStuff.Proofs.Quorums

/-!
# A Member on Its Own

A committee of one needs nobody else: whenever its engine looks for a slot there is one, and the
proposal made in it is decided before the engine turns to anything else. What else comes due is the
deadline of the view and a count of the members online. The last thing that is done for a proposal
is to push the deadline out, by more than the time to the next tick. So the tick always comes first,
however the periods relate, and no view is given up.

A restart costs one view and nothing else. The engine takes up in the view after the one in which it
waited, with a certificate on the last payload of its chain, so nothing is left to propose again.

Time passes on a clock that jumps from one due time to the next. An engine that is stopped in the
very instant of a tick still makes it here.

## Main definitions

* `Deployment.Solo`: a committee of one.
* `Shift`, `Engine.shifts`: runs of engines, one after the other, on one store.
* `Shift.OnTime`: how far a run has come after some ticks.
* `Shift.Served`: what a run has come to when it is over.

## Main results

* `Shift.OnTime.tick`: a tick commits one payload and pushes the deadline out.
* `Shift.OnTime.advanceUpTo`: all that is due up to an instant.
* `commits_on_every_tick`: any number of runs.
-/

namespace HotStuff

/-! ### A committee of one -/

namespace Deployment

/-- **On its own**: a committee of one, whose member's seals verify. -/
structure Solo (d : Deployment) (L : d.Correct) : Prop where
  only : d.committee.members = [L.1]
  seals : d.SealsVerify

section Solo

variable {d : Deployment} {L : d.Correct} (hsolo : d.Solo L)

include hsolo

/-- Whoever is on its own always leads. -/
theorem Solo.leader (view : View) : d.committee.leader view = L.1 := by
  have hmember : d.committee.leader view ∈ d.committee.members := List.get_mem ..
  rw [hsolo.only] at hmember
  exact List.mem_singleton.mp hmember

/-- On its own a member needs no vote but its own. -/
theorem Solo.quorum_le_one : d.committee.quorum ≤ 1 := by
  have hquorum := d.committee.quorum_le
  rw [hsolo.only] at hquorum
  exact hquorum

end Solo

section Alone

variable (ctx : Context) (honly : ctx.committee.members = [ctx.me])

include honly in
/-- The member is the only one. -/
theorem eq_me {m : MemberId} (hm : m ∈ ctx.committee.members) : m = ctx.me :=
  List.mem_singleton.mp (honly ▸ hm)

/-- The deployment of the member of a committee of one. -/
def alone : Deployment where
  scheme := ctx.scheme
  committee := ctx.committee
  faulty := ∅
  keypair _ := ctx.keypair
  timeout _ := ctx.timeout
  keypair_member m := (eq_me ctx honly m.2.1).symm

/-- That member. -/
def loner : (alone ctx honly).Correct := ⟨ctx.me, ctx.me_mem, Finset.notMem_empty _⟩

/-- The member of a committee of one is on its own, if its seals verify. -/
theorem solo_alone
    (hseals : ∀ bytes, ctx.scheme.verify ctx.me bytes (ctx.scheme.sign ctx.keypair.secret bytes)) :
    (alone ctx honly).Solo (loner ctx honly) := by
  refine ⟨honly, fun m bytes => ?_⟩
  rw [eq_me ctx honly m.2.1]
  exact hseals bytes

end Alone

variable {d : Deployment} {s : ReplicaState}

/-- **A restart costs one view.** A member that has waited in a view waits in the next one. -/
theorem Waits.resumed (hwaits : d.Waits s) (hlast : s.view + 1 ≠ View.last) :
    d.Waits (s.enter (s.view + 1)) := by
  have hlater : s.view < s.view + 1 := View.lt_of_next? (if_neg hwaits.notLast)
  refine ⟨rfl, hlast, fun cert hcert => ?_, fun cert hcert => ?_, ?_⟩
  · obtain ⟨hphase, hview, hvalid, hparent⟩ := hwaits.prepared cert hcert
    exact ⟨hphase, UInt64.lt_trans hview hlater, hvalid, hparent⟩
  · obtain ⟨hview, hdigest⟩ := hwaits.locked cert hcert
    exact ⟨UInt64.lt_trans hview hlater, hdigest⟩
  · exact UInt64.le_trans hwaits.room (UInt64.le_of_lt hlater)

end Deployment

/-! ### Runs of engines -/

/-- **A run of an engine**: when it begins, how long it lasts, and the data that its source has for
each view. -/
structure Shift where
  begins : Instant
  lasts : Nat
  payloads : View → Bytes

/-- Some views from one on. -/
def viewsFrom (first n : Nat) : List View := (List.range' first n).map UInt64.ofNat

/-- Views are listed from the first one on. -/
theorem viewsFrom_succ (first n : Nat) :
    viewsFrom first (n + 1) = .ofNat first :: viewsFrom (first + 1) n := rfl

/-- One more view comes last. -/
theorem viewsFrom_concat (first n : Nat) :
    viewsFrom first (n + 1) = viewsFrom first n ++ [.ofNat (first + n)] := by
  rw [viewsFrom, List.range'_1_concat, List.map_append]
  rfl

namespace Engine

variable {σ : Type} [StateStore σ]

/-- An engine over a store, for a member with its context. -/
def boot (ctx : Context) (config : Config) (store : σ) (payloads : View → Bytes) (now : Instant) :
    Outcome (Engine σ) := do
  let core ← Outcome.ofCheck (Core.create ctx store)
  return { ctx, config, core, payloads, pacemaker := .start now config.timeout }

/-- An engine is created for the context of its configuration. -/
theorem create_eq_boot (config : Config) (secret : Secret) (store : σ) (payloads : View → Bytes)
    (now : Instant) : create config secret store payloads now =
      Context.make config secret >>= fun ctx => boot ctx config store payloads now := rfl

variable (ctx : Context) (config : Config)

/-- **One run**, on a clock that jumps and with an application that takes commits at once: the
engine is started, does all that comes due, and is stopped. -/
def shift (store : σ) (w : Shift) : Outcome (Engine σ) := do
  let created ← boot ctx config store w.payloads w.begins
  let started ← created.run w.begins
  let worked ← Outcome.ofChecked (started.advance w.begins (w.begins + w.lasts))
  return worked.stop.executeAll

/-- **A run of an engine created for a configuration** is a run for the context made for it. -/
theorem shift_of_make {ctx : Context} {config : Config} {secret : Secret}
    (hmake : Context.make config secret = .ok ctx) (store : σ) (w : Shift) :
    shift ctx config store w = (do
      let created ← create config secret store w.payloads w.begins
      let started ← created.run w.begins
      let worked ← Outcome.ofChecked (started.advance w.begins (w.begins + w.lasts))
      return worked.stop.executeAll) := by
  rw [create_eq_boot, hmake]
  rfl

/-- Runs one after the other, each on the store that the one before has left. -/
def shifts : σ → List Shift → Outcome (List (Engine σ))
  | _, [] => .ok []
  | store, w :: ws => do
    let e ← shift ctx config store w
    let rest ← shifts e.core.replica.store ws
    return e :: rest

end Engine

/-! ### Periods and chains -/

/-- **A configuration with one member** makes a context for that one. -/
theorem Context.alone_of_make {config : Config} {secret : Secret} {ctx : Context} {m : MemberId}
    (hmembers : config.members = [m]) (h : Context.make config secret = .ok ctx) :
    ctx.committee.members = [ctx.me] ∧ ctx.timeout = config.timeout ∧ config.validate = .ok () := by
  obtain ⟨⟨⟩, hvalid, h⟩ := bind_eq_ok.mp h
  obtain ⟨committee, hcommittee, h⟩ := bind_eq_ok.mp h
  have honly : committee.members = [m] := (Committee.make_ok hcommittee).1.trans hmembers
  dsimp only at h
  split at h
  swap
  · cases h
  next hmember =>
  rw [← Except.ok.inj h]
  rw [honly] at hmember
  exact ⟨honly.trans (congrArg ([·]) (List.mem_singleton.mp hmember).symm), rfl,
    Outcome.ofCheck_eq_ok.mp hvalid⟩

/-- The engine looks for a slot more often than a view times out, and no period is zero. -/
structure Config.Brisk (config : Config) (timeout : Millis) : Prop where
  interval : 0 < config.interval.toNat
  online : 0 < config.onlineCheck.toNat
  pace : config.interval.toNat < timeout.toNat

/-- **A valid configuration is brisk** if its engine looks for a slot more often than its views time
out. -/
theorem Config.brisk_of_validate {config : Config} (hvalid : config.validate = .ok ())
    (hpace : config.interval < config.timeout) : config.Brisk config.timeout := by
  have hpos {period : Millis} (hne : period ≠ 0) : 0 < period.toNat :=
    Nat.pos_of_ne_zero fun hzero => hne (UInt64.toNat_inj.mp hzero)
  simp only [Config.validate] at hvalid
  split at hvalid
  · cases hvalid
  split at hvalid
  · cases hvalid
  next hinterval =>
  split at hvalid
  · cases hvalid
  next honline =>
  exact ⟨hpos hinterval, hpos honline, UInt64.lt_iff_toNat_lt.mp hpace⟩

/-- No payload of a chain, data after data, has the digest of its parent. -/
def Scheme.NeverStalls (scheme : Scheme) : Digest → List Bytes → Prop
  | _, [] => True
  | parent, data :: rest =>
    scheme.payloadDigest ⟨parent, data⟩ ≠ parent ∧
      scheme.NeverStalls (scheme.payloadDigest ⟨parent, data⟩) rest

instance Scheme.decidableNeverStalls (scheme : Scheme) :
    (parent : Digest) → (datas : List Bytes) → Decidable (scheme.NeverStalls parent datas)
  | _, [] => .isTrue trivial
  | parent, data :: rest =>
    have := scheme.decidableNeverStalls (scheme.payloadDigest ⟨parent, data⟩) rest
    inferInstanceAs (Decidable (_ ∧ _))

/-! ### A tick -/

namespace Engine

variable {σ : Type} [StateStore σ] {e e' : Engine σ} {now limit : Instant}

omit [StateStore σ] in
/-- The application takes all commits of a loop that goes on. -/
theorem executeAll_of_running (hrunning : e.stage = .running) :
    e.executeAll = { e with commits := [], executed := e.executed ++ e.commits } := by
  have hnot : ¬ (e.stage = .stopping ∧ ([] : List Bytes) = []) := by
    rw [hrunning]
    rintro ⟨⟨⟩, -⟩
  exact if_neg hnot

omit [StateStore σ] in
/-- An engine that is stopped is done when the application has taken all commits. -/
theorem executeAll_stop (hrunning : e.stage = .running) :
    e.stop.executeAll = { e with
      stage := .ended, outbox := [], commits := [], executed := e.executed ++ e.commits } := by
  have hstop : e.stop = { e with stage := .stopping, outbox := [] } := by
    rw [stop, hrunning]
  have hdone : Stage.stopping = .stopping ∧ ([] : List Bytes) = [] := ⟨rfl, rfl⟩
  rw [hstop, executeAll, finish, if_pos hdone]

/-- Where a tick comes no later than a count and before the deadline, it comes first. -/
theorem fire_tick (hahead : e.proposalDue < e.pacemaker.deadline)
    (hfirst : e.proposalDue ≤ e.checkDue) :
    e.due = e.proposalDue ∧ e.fire e.due = e.onTick e.proposalDue := by
  have hdue : e.due = e.proposalDue := by
    rw [due, Nat.min_eq_left hfirst, Nat.min_eq_right (Nat.le_of_lt hahead)]
  refine ⟨hdue, ?_⟩
  rw [hdue, fire, if_neg (Nat.not_le.mpr hahead), if_pos (Nat.le_refl _)]

/-- Where a count comes before a tick and that before the deadline, it comes first. -/
theorem fire_check (hahead : e.proposalDue < e.pacemaker.deadline)
    (hfirst : e.checkDue < e.proposalDue) :
    e.due = e.checkDue ∧ e.fire e.due = .ok (e.onCheck e.checkDue) := by
  have hdue : e.due = e.checkDue := by
    rw [due, Nat.min_eq_right (Nat.le_of_lt hfirst),
      Nat.min_eq_right (Nat.le_of_lt (Nat.lt_trans hfirst hahead))]
  refine ⟨hdue, ?_⟩
  rw [hdue, fire, if_neg (Nat.not_le.mpr (Nat.lt_trans hfirst hahead)),
    if_neg (Nat.not_le.mpr hfirst)]

/-- What is left up to an instant, before the next tick and before the next count. -/
def left (e : Engine σ) (limit : Instant) : Nat :=
  (limit + 1 - e.proposalDue) + (limit + 1 - e.checkDue)

omit [StateStore σ] in
/-- A tick leaves less to do: the next one is later. -/
theorem left_lt_of_tick {k : Nat} (hk : 0 < k) (hdue : e.proposalDue ≤ limit)
    (hproposal : e'.proposalDue = e.proposalDue + k) (hcheck : e'.checkDue = e.checkDue) :
    e'.left limit < e.left limit := by
  rw [left, left, hproposal, hcheck]
  simp only [Instant] at *
  omega

omit [StateStore σ] in
/-- A count leaves less to do: the next one is later. -/
theorem left_lt_of_check {k : Nat} (hk : 0 < k) (hdue : e.checkDue ≤ limit)
    (hproposal : e'.proposalDue = e.proposalDue) (hcheck : e'.checkDue = e.checkDue + k) :
    e'.left limit < e.left limit := by
  rw [left, left, hproposal, hcheck]
  simp only [Instant] at *
  omega

omit [StateStore σ] in
/-- Nothing is due up to an instant when nothing is left before it. -/
theorem not_due_of_left (hahead : e.proposalDue < e.pacemaker.deadline) (hleft : e.left limit = 0) :
    ¬ e.due ≤ limit := by
  rw [left] at hleft
  rw [due]
  simp only [Instant] at *
  omega

omit [StateStore σ] in
/-- Nothing that is due next is later than the next tick. -/
theorem due_le_proposalDue : e.due ≤ e.proposalDue :=
  Nat.le_trans (Nat.min_le_right ..) (Nat.min_le_left ..)

/-- What is due is done first. -/
theorem advanceUpTo_of_due {things : Nat} (hrunning : e.stage = .running) (hdue : e.due ≤ limit) :
    e.advanceUpTo limit (things + 1) =
      e.fire e.due >>= fun fired => fired.sendAll.executeAll.advanceUpTo limit things := by
  have hgo : (e.isRunning && decide (e.due ≤ limit)) = true := by
    rw [isRunning, hrunning, decide_eq_true hdue]
    rfl
  rw [advanceUpTo, if_pos hgo]

/-- Where nothing is due nothing is done. -/
theorem advanceUpTo_of_not_due (things : Nat) (hdue : ¬ e.due ≤ limit) :
    e.advanceUpTo limit things = .ok e := by
  cases things with
  | zero => rfl
  | succ things =>
      have hstay : ¬ (e.isRunning && decide (e.due ≤ limit)) = true := by simp [hdue]
      rw [advanceUpTo, if_neg hstay]

/-- The deadline after actions that end with pushing it out. -/
theorem deadline_pace {ctx : Context} (before : List Action) (p : Pacemaker) :
    ((before ++ [Replica.rearm ctx]).foldl (pace now) p).deadline = now + ctx.timeout.toNat := by
  rw [List.foldl_append]
  rfl

end Engine

section Solo

variable {d : Deployment} {L : d.Correct} {σ : Type} [StateStore σ] [LawfulStore σ]
  {s : ReplicaState} {core : Core σ} {e : Engine σ} {t : Instant}

/-- **A tick of an engine on its own** finds a slot for fresh data, and what is proposed there is
decided at once. -/
theorem Deployment.Solo.onTick (hsolo : d.Solo L) (hctx : e.ctx = d.context L)
    (hshows : e.core.Shows (d.context L) s (d.arrived L s)) (hstored : e.core.replica.Stored)
    (hwaits : d.Waits s) (hlast : s.view + 1 ≠ View.last)
    (hfresh : d.scheme.payloadDigest ⟨s.committed, e.payloads s.view⟩ ≠ s.committed) :
    ∃ (core : Core σ) (out : List Action) (s' : ReplicaState),
      e.onTick t = .ok ({ e with proposalDue := t + e.config.interval.toNat }.settle t
        (core, out)) ∧
      d.Continues s (e.payloads s.view) s' ∧ d.Unaided L s.view (e.payloads s.view) out ∧
      core.Shows (d.context L) s' (d.arrived L s') ∧ core.replica.Stored := by
  have harrived := Deployment.arrived_of_leader (m := L) (hsolo.leader s.view)
  have hgathers := Round.Gathers.first L.1 (s.highCertificate d.scheme)
  have hall (m : MemberId) (hm : m ∈ d.committee.members) : m ∈ [L.1] := by
    rw [hsolo.only] at hm
    exact hm
  obtain ⟨s', out, hcontinues, hunaided, slot, hslot, -, hproposes⟩ :=
    Deployment.proposes_alone (σ := σ) (t := t) hsolo.seals hwaits hsolo.leader
      hsolo.quorum_le_one hlast hfresh hgathers hall
  rw [harrived] at hshows
  have hfree := Deployment.slot?_of_gathers hwaits (hsolo.leader s.view) hgathers hall
  obtain rfl := Option.some.inj (hslot.symm.trans hfree)
  obtain ⟨core, hpropose, hcore⟩ := hproposes e.core hshows.toIs
  have hfound : e.core.slot? e.ctx = some ⟨s.view, s.highCertificate d.scheme, none⟩ := by
    rw [Core.slot?, hctx, hshows.state, hshows.votes]
    exact hfree
  have hreact : e.core.react (d.context L) t
      (.propose ⟨s.view, s.highCertificate d.scheme, none⟩ (e.payloads s.view)) =
        .ok (core, out) := hpropose
  refine ⟨core, out, s', ?_, hcontinues, hunaided, hcore, Core.stored_of_react hstored hreact⟩
  rw [Engine.onTick, hfound, hctx]
  simp only [Slot.needsPayload, Option.isNone_none, if_true, hpropose]
  rfl

end Solo

/-! ### A run -/

/-- What is told of some kind by the events of actions. -/
theorem filterMap_events {β : Type} (kind : Event → Option β) (out : List Action) :
    (out.filterMap Action.event?).filterMap kind = toldIn kind out := List.filterMap_filterMap

namespace Shift

section

variable (w : Shift) (config : Config)

/-- How many ticks come in a run. The first one comes as it begins. -/
def ticks : Nat := w.lasts / config.interval.toNat + 1

/-- **On time.** A run that began in a view and at a height has come to a state with its first
ticks. Each of them has committed what the source had for its view, and the next one comes before
the deadline. -/
structure OnTime {σ : Type} [StateStore σ] (d : Deployment) (L : d.Correct) (height first n : Nat)
    (e : Engine σ) (s : ReplicaState) : Prop where
  context : e.ctx = d.context L
  configured : e.config = config
  payloads : e.payloads = w.payloads
  running : e.stage = .running
  shows : e.core.Shows (d.context L) s (d.arrived L s)
  stored : e.core.replica.Stored
  waits : d.Waits s
  view : s.view.toNat = first + n
  height : s.height.toNat = height + n
  next : e.proposalDue = w.begins + n * config.interval.toNat
  ahead : e.proposalDue < e.pacemaker.deadline
  idle : e.commits = []
  executed : e.executed = (viewsFrom first n).map w.payloads
  commits : e.events.filterMap Event.decided? = viewsFrom first n
  inTime : e.events.filterMap Event.abandoned? = []

end

namespace OnTime

variable {w : Shift} {config : Config} {d : Deployment} {L : d.Correct} {σ : Type} [StateStore σ]
  {height first n : Nat} {e : Engine σ} {s : ReplicaState} {rest later : List Bytes}
  (hontime : w.OnTime config d L height first n e s)

include hontime

/-- The view is that of the number counted up to. -/
theorem view_eq : s.view = .ofNat (first + n) := by
  rw [← hontime.view, UInt64.ofNat_toNat]

/-- Where the views to come are counted, the next one is not the last. -/
theorem view_ne_last (hroom : first + (n + 1) < 2 ^ 64 - 1) : s.view + 1 ≠ View.last := by
  intro hlast
  have hnat : (s.view + 1).toNat = 2 ^ 64 - 1 := congrArg UInt64.toNat hlast
  rw [UInt64.toNat_add, hontime.view, UInt64.toNat_one] at hnat
  omega

/-- Counting the members online changes nothing. -/
theorem check (now : Instant) :
    w.OnTime config d L height first n (e.onCheck now).sendAll.executeAll s := by
  have hrunning : (e.onCheck now).sendAll.stage = .running := hontime.running
  have htaken : e.executed ++ e.commits = e.executed := by
    rw [hontime.idle, List.append_nil]
  rw [Engine.executeAll_of_running hrunning]
  exact { hontime with
    shows := ⟨⟨hontime.shows.state, hontime.shows.votes⟩, hontime.shows.status⟩
    idle := rfl
    executed := htaken.trans hontime.executed }

variable [LawfulStore σ] (hsolo : d.Solo L) (hbrisk : config.Brisk (d.context L).timeout)

include hsolo hbrisk

/-- **A tick** commits what the source has for the view, and pushes the deadline out beyond the next
tick. -/
theorem tick (hroom : first + (n + 1) < 2 ^ 64 - 1)
    (hmoves : d.scheme.NeverStalls s.committed (w.payloads (.ofNat (first + n)) :: rest)) :
    ∃ fired s', e.onTick e.proposalDue = .ok fired ∧
      w.OnTime config d L height first (n + 1) fired.sendAll.executeAll s' ∧
      fired.sendAll.executeAll.proposalDue = e.proposalDue + config.interval.toNat ∧
      fired.sendAll.executeAll.checkDue = e.checkDue ∧ d.scheme.NeverStalls s'.committed rest := by
  obtain ⟨hfresh, hmoves⟩ := hmoves
  have hdata : w.payloads (.ofNat (first + n)) = e.payloads s.view := by
    rw [hontime.payloads, hontime.view_eq]
  rw [hdata] at hfresh hmoves
  obtain ⟨core, out, s', htick, hcontinues, hunaided, hshows, hstored⟩ :=
    hsolo.onTick (t := e.proposalDue) hontime.context hontime.shows hontime.stored hontime.waits
      (hontime.view_ne_last hroom) hfresh
  obtain ⟨before, hrearms⟩ := hunaided.rearms
  have hview : s'.view.toNat = first + (n + 1) := by
    have hnext : View.next? s.view = some s'.view := hcontinues.view ▸ if_neg hontime.waits.notLast
    rw [View.toNat_of_next? hnext, hontime.view, Nat.add_assoc]
  have hheight : s'.height.toNat = height + (n + 1) := by
    have hnext : Height.next? s.height = some s'.height :=
      hcontinues.height ▸ Height.next?_of_room hontime.waits.notLast hontime.waits.room
    rw [Height.toNat_of_next? hnext, hontime.height, Nat.add_assoc]
  have hnext : e.proposalDue + e.config.interval.toNat =
      w.begins + (n + 1) * config.interval.toNat := by
    rw [hontime.next, hontime.configured, Nat.succ_mul, Nat.add_assoc]
  have hahead : e.proposalDue + e.config.interval.toNat <
      (out.foldl (Engine.pace e.proposalDue) e.pacemaker).deadline := by
    rw [hrearms, Engine.deadline_pace, hontime.configured]
    exact Nat.add_lt_add_left hbrisk.pace _
  have hexecuted : e.executed ++ (e.commits ++ dataIn out) =
      (viewsFrom first (n + 1)).map w.payloads := by
    rw [hontime.idle, List.nil_append, hunaided.executes, hontime.executed, viewsFrom_concat,
      List.map_append, ← hdata]
    rfl
  have hcommits : (e.events ++ out.filterMap Action.event?).filterMap Event.decided? =
      viewsFrom first (n + 1) := by
    rw [List.filterMap_append, filterMap_events, hunaided.commits, hontime.commits,
      viewsFrom_concat, hontime.view_eq]
  have hinTime : (e.events ++ out.filterMap Action.event?).filterMap Event.abandoned? = [] := by
    rw [List.filterMap_append, filterMap_events, hunaided.inTime, hontime.inTime]
    rfl
  refine ⟨_, s', htick, ?_⟩
  rw [Engine.settle_eq, Engine.executeAll_of_running]
  swap
  · exact hontime.running
  refine ⟨⟨hontime.context, hontime.configured, hontime.payloads, hontime.running, hshows, hstored,
    hcontinues.waits, hview, hheight, hnext, hahead, rfl, hexecuted, hcommits, hinTime⟩, ?_, rfl,
    ?_⟩
  · rw [hontime.configured]
    rfl
  · rw [hcontinues.committed]
    exact hmoves

omit [LawfulStore σ] hsolo in
/-- The next tick is due before the end of the run if not all of them have come. -/
theorem due_iff : e.proposalDue ≤ w.begins + w.lasts ↔ n < w.ticks config := by
  rw [hontime.next, Nat.add_le_add_iff_left, ← Nat.le_div_iff_mul_le hbrisk.interval, ticks,
    Nat.lt_succ_iff]

omit [LawfulStore σ] hsolo in
/-- When nothing is due any more all ticks have come. -/
theorem all_come (hn : n ≤ w.ticks config)
    (hmoves : d.scheme.NeverStalls s.committed
      ((viewsFrom (first + n) (w.ticks config - n)).map w.payloads ++ later))
    (hdue : ¬ e.due ≤ w.begins + w.lasts) :
    n = w.ticks config ∧ d.scheme.NeverStalls s.committed later := by
  have hlate : ¬ e.proposalDue ≤ w.begins + w.lasts :=
    fun hle => hdue (Nat.le_trans Engine.due_le_proposalDue hle)
  obtain rfl : n = w.ticks config :=
    Nat.le_antisymm hn (Nat.not_lt.mp (mt (hontime.due_iff hbrisk).mpr hlate))
  rw [Nat.sub_self] at hmoves
  exact ⟨rfl, hmoves⟩

/-- **All that is due up to the end of the run.** By induction on the number that bounds the things
to do: each of them moves the next tick or the next count on, so less is left. -/
theorem advanceUpTo {things : Nat} (hroom : first + w.ticks config < 2 ^ 64 - 1)
    (hn : n ≤ w.ticks config)
    (hmoves : d.scheme.NeverStalls s.committed
      ((viewsFrom (first + n) (w.ticks config - n)).map w.payloads ++ later))
    (hthings : e.left (w.begins + w.lasts) ≤ things) :
    ∃ e' s', e.advanceUpTo (w.begins + w.lasts) things = .ok e' ∧
      w.OnTime config d L height first (w.ticks config) e' s' ∧
      d.scheme.NeverStalls s'.committed later := by
  induction things generalizing e s n with
  | zero =>
      have hdue := Engine.not_due_of_left hontime.ahead (Nat.le_zero.mp hthings)
      obtain ⟨rfl, hlater⟩ := hontime.all_come hbrisk hn hmoves hdue
      exact ⟨e, s, rfl, hontime, hlater⟩
  | succ things ih =>
      by_cases hdue : e.due ≤ w.begins + w.lasts
      swap
      · obtain ⟨rfl, hlater⟩ := hontime.all_come hbrisk hn hmoves hdue
        exact ⟨e, s, Engine.advanceUpTo_of_not_due _ hdue, hontime, hlater⟩
      rw [Engine.advanceUpTo_of_due hontime.running hdue]
      by_cases hfirst : e.proposalDue ≤ e.checkDue
      · obtain ⟨hat, hfire⟩ := Engine.fire_tick hontime.ahead hfirst
        rw [hat] at hdue
        have hlt := (hontime.due_iff hbrisk).mp hdue
        obtain ⟨k, hk⟩ : ∃ k, w.ticks config - n = k + 1 :=
          ⟨w.ticks config - (n + 1), by omega⟩
        have hnext : w.ticks config - (n + 1) = k := by omega
        rw [hk, viewsFrom_succ, List.map_cons, List.cons_append] at hmoves
        obtain ⟨fired, s', hfired, hontime', hproposal, hcheck, hmoves'⟩ :=
          hontime.tick hsolo hbrisk (by omega) hmoves
        have hleft := Engine.left_lt_of_tick hbrisk.interval hdue hproposal hcheck
        rw [hfire, hfired]
        exact ih hontime' hlt (hnext ▸ hmoves')
          (Nat.le_of_lt_succ (Nat.lt_of_lt_of_le hleft hthings))
      · obtain ⟨hat, hfire⟩ := Engine.fire_check hontime.ahead (Nat.lt_of_not_le hfirst)
        rw [hat] at hdue
        have hontime' := hontime.check e.checkDue
        have hcheck : (e.onCheck e.checkDue).sendAll.executeAll.checkDue =
            e.checkDue + config.onlineCheck.toNat := by
          rw [Engine.executeAll_of_running (e := (e.onCheck e.checkDue).sendAll) hontime.running,
            ← hontime.configured]
          rfl
        have hproposal : (e.onCheck e.checkDue).sendAll.executeAll.proposalDue = e.proposalDue := by
          rw [hontime'.next, hontime.next]
        have hleft := Engine.left_lt_of_check hbrisk.online hdue hproposal hcheck
        rw [hfire]
        exact ih hontime' hn hmoves (Nat.le_of_lt_succ (Nat.lt_of_lt_of_le hleft hthings))

end OnTime

/-- **A run that is over**, after some payloads and restarts. It has committed a payload on every
tick, in one view after the other, and each of them is what its source had for the view. No view was
given up. -/
structure Served {σ : Type} (w : Shift) (config : Config) (payloads restarts : Nat) (e : Engine σ) :
    Prop where
  ended : e.stage = .ended
  executed : e.executed = (viewsFrom (payloads + restarts) (w.ticks config)).map w.payloads
  commits : e.events.filterMap Event.decided? = viewsFrom (payloads + restarts) (w.ticks config)
  inTime : ∀ view, .timedOut view ∉ e.events
  height : e.core.status.height.toNat = payloads + w.ticks config
  view : e.core.status.view.toNat = payloads + w.ticks config + restarts

end Shift

/-! ### A process on a store -/

/-- **A process on a store begins** after some payloads and restarts, by waiting in the view of a
state. -/
structure Deployment.Begins {σ : Type} [StateStore σ] (d : Deployment) (L : d.Correct) (store : σ)
    (payloads restarts : Nat) (s : ReplicaState) : Prop where
  waits : d.Waits s
  created : ∃ r : Replica σ, Replica.create (d.context L) store = .ok r ∧ r.state = s
  view : s.view.toNat = payloads + restarts
  height : s.height.toNat = payloads

section Shifts

variable {d : Deployment} {L : d.Correct} {σ : Type} [StateStore σ] [LawfulStore σ]
  {store : σ} {s : ReplicaState} {config : Config} {w : Shift} {payloads restarts : Nat}
  {later : List Bytes}

omit [LawfulStore σ] in
/-- On an empty store a member begins in the first view. -/
theorem Deployment.begins_of_empty (hempty : StateStore.load store = .ok none) :
    d.Begins L store 0 0 (.initial d.scheme.genesisDigest) := by
  refine ⟨Deployment.ready_initial.toWaits,
    ⟨Replica.persist ⟨store, .initial d.scheme.genesisDigest⟩, ?_, rfl⟩, rfl, rfl⟩
  rw [Replica.create, hempty]
  rfl

omit [LawfulStore σ] in
/-- On the store of a replica that has waited in a view a member begins in the next one. -/
theorem Deployment.begins_of_stored {r : Replica σ} (hstored : r.Stored) (hwaits : d.Waits r.state)
    (hview : r.state.view.toNat = payloads + restarts) (hheight : r.state.height.toNat = payloads)
    (hroom : payloads + (restarts + 1) < 2 ^ 64 - 1) :
    d.Begins L r.store payloads (restarts + 1) (r.state.enter (r.state.view + 1)) := by
  have hview' : (r.state.view + 1).toNat = payloads + (restarts + 1) := by
    rw [View.toNat_of_next? (if_neg hwaits.notLast), hview, Nat.add_assoc]
  have hlast : r.state.view + 1 ≠ View.last := by
    intro hlast
    rw [hlast] at hview'
    exact absurd hroom (Nat.not_lt.mpr (Nat.le_of_eq hview'))
  exact ⟨hwaits.resumed hlast,
    (hstored.mirrored (d.context L)).resumed _ (if_neg hwaits.notLast), hview', hheight⟩

variable (hsolo : d.Solo L) (hbrisk : config.Brisk (d.context L).timeout)

include hsolo hbrisk

namespace Deployment.Begins

variable (hbegins : d.Begins L store payloads restarts s)

include hbegins

/-- **An engine starts on time.** -/
theorem run : ∃ (created started : Engine σ),
    Engine.boot (d.context L) config store w.payloads w.begins = .ok created ∧
    created.run w.begins = .ok started ∧
    w.OnTime config d L payloads (payloads + restarts) 0 started s ∧
    w.begins ≤ started.checkDue := by
  obtain ⟨hwaits, ⟨r, hcreate, rfl⟩, hview, hheight⟩ := hbegins
  let core : Core σ := ⟨r, .empty, .empty, .of (d.context L) r.state,
    .start r.state.view r.state.height⟩
  have hcore : Core.create (d.context L) store = .ok core := by
    rw [Core.create, hcreate]
    rfl
  have hboot : Engine.boot (d.context L) config store w.payloads w.begins =
      .ok { ctx := d.context L, config, core, payloads := w.payloads
            pacemaker := .start w.begins config.timeout } := by
    rw [Engine.boot, hcore]
    rfl
  have his : core.Is r.state .empty := ⟨rfl, rfl⟩
  obtain ⟨started, hstart, hshows⟩ :=
    Deployment.starts (t := w.begins) (m := L) hsolo.seals hwaits his
  have harriving : d.arriving L r.state = [Replica.rearm (d.context L)] :=
    if_pos (hsolo.leader r.state.view)
  rw [harriving] at hstart
  have hreact : core.react (d.context L) w.begins .start =
      .ok (started, [Replica.rearm (d.context L)]) := hstart
  have hstored := Core.stored_of_react (Replica.create_spec hcreate).1 hreact
  have hahead : w.begins < w.begins + (d.context L).timeout.toNat :=
    Nat.lt_add_of_pos_right (Nat.lt_trans hbrisk.interval hbrisk.pace)
  have hnext : w.begins = w.begins + 0 * config.interval.toNat := by
    rw [Nat.zero_mul]
    rfl
  exact ⟨_, _, hboot, Engine.run_of_ready rfl hstart, ⟨rfl, rfl, rfl, rfl, hshows, hstored, hwaits,
    hview, hheight, hnext, hahead, rfl, rfl, rfl, rfl⟩, Nat.le_add_right ..⟩

/-- **One run**: it is served, and a process on the store that it leaves begins one restart
later. -/
theorem shift (hroom : payloads + restarts + w.ticks config < 2 ^ 64 - 1)
    (hmoves : d.scheme.NeverStalls s.committed
      ((viewsFrom (payloads + restarts) (w.ticks config)).map w.payloads ++ later)) :
    ∃ (e : Engine σ) (parent : Digest), Engine.shift (d.context L) config store w = .ok e ∧
      w.Served config payloads restarts e ∧ d.scheme.NeverStalls parent later ∧
      (payloads + w.ticks config + (restarts + 1) < 2 ^ 64 - 1 → ∃ s', s'.committed = parent ∧
        d.Begins L e.core.replica.store (payloads + w.ticks config) (restarts + 1) s') := by
  obtain ⟨created, started, hboot, hrun, hontime, hcheck⟩ := hbegins.run (w := w) hsolo hbrisk
  have hleft : started.left (w.begins + w.lasts) ≤ 3 * (w.begins + w.lasts - w.begins + 1) := by
    rw [Engine.left, hontime.next]
    simp only [Instant] at *
    omega
  obtain ⟨e, s', hadvance, hontime', hlater⟩ :=
    hontime.advanceUpTo hsolo hbrisk hroom (Nat.zero_le _) hmoves hleft
  have hshift : Engine.shift (d.context L) config store w = .ok e.stop.executeAll := by
    have hworked : started.advance w.begins (w.begins + w.lasts) = .ok e := hadvance
    rw [Engine.shift, hboot]
    simp only [bind, Except.bind, hrun, hworked]
    rfl
  have hstatus : e.core.status = .of (d.context L) s' := hontime'.shows.status
  have hview : s'.view.toNat = payloads + w.ticks config + restarts :=
    hontime'.view.trans (Nat.add_right_comm ..)
  have hexecuted : e.executed ++ e.commits =
      (viewsFrom (payloads + restarts) (w.ticks config)).map w.payloads := by
    rw [hontime'.idle, List.append_nil, hontime'.executed]
  have hinTime (view : View) : .timedOut view ∉ e.events := fun hmem =>
    absurd (List.filterMap_eq_nil_iff.mp hontime'.inTime _ hmem) (Option.some_ne_none view)
  rw [Engine.executeAll_stop hontime'.running] at hshift
  refine ⟨_, s'.committed, hshift, ⟨rfl, hexecuted, hontime'.commits, hinTime, ?_, ?_⟩, hlater,
    fun hmore => ?_⟩
  · rw [hstatus]
    exact hontime'.height
  · rw [hstatus]
    exact hview
  · obtain rfl : e.core.replica.state = s' := hontime'.shows.state
    exact ⟨e.core.replica.state.enter (e.core.replica.state.view + 1), rfl,
      begins_of_stored hontime'.stored hontime'.waits hview hontime'.height hmore⟩

end Deployment.Begins

/-! ### Runs one after the other -/

/-- How many ticks come in some runs. -/
def ticksIn (config : Config) (ws : List Shift) : Nat := (ws.map fun w => w.ticks config).sum

/-- What is proposed in some runs, after some payloads and restarts. -/
def proposalsIn (config : Config) : (payloads restarts : Nat) → List Shift → List Bytes
  | _, _, [] => []
  | payloads, restarts, w :: ws =>
    (viewsFrom (payloads + restarts) (w.ticks config)).map w.payloads ++
      proposalsIn config (payloads + w.ticks config) (restarts + 1) ws

/-- **Runs one after the other** are all served. By induction on them; where no run is left, no
process has to begin. -/
theorem Deployment.Solo.shifts {parent : Digest} {ws : List Shift}
    (hbegins : ws ≠ [] → ∃ s, s.committed = parent ∧ d.Begins L store payloads restarts s)
    (hroom : payloads + ticksIn config ws + (restarts + ws.length) < 2 ^ 64)
    (hmoves : d.scheme.NeverStalls parent (proposalsIn config payloads restarts ws)) :
    ∃ es : List (Engine σ), Engine.shifts (d.context L) config store ws = .ok es ∧
      es.length = ws.length ∧
      ∀ (j : Nat) (w : Shift) (e : Engine σ), ws[j]? = some w → es[j]? = some e →
        w.Served config (payloads + ticksIn config (ws.take j)) (restarts + j) e := by
  induction ws generalizing store payloads restarts parent with
  | nil => exact ⟨[], rfl, rfl, fun j w e hw => by simp at hw⟩
  | cons w ws ih =>
      obtain ⟨s, rfl, hfirst⟩ := hbegins (List.cons_ne_nil w ws)
      have hticks : ticksIn config (w :: ws) = w.ticks config + ticksIn config ws := List.sum_cons
      rw [hticks, List.length_cons] at hroom
      obtain ⟨e, parent, hshift, hserved, hlater, hnext⟩ :=
        hfirst.shift hsolo hbrisk (by omega) hmoves
      have hbegins' (hmore : ws ≠ []) : ∃ s', s'.committed = parent ∧
          d.Begins L e.core.replica.store (payloads + w.ticks config) (restarts + 1) s' := by
        refine hnext ?_
        have hpos := List.length_pos_of_ne_nil hmore
        omega
      obtain ⟨es, hshifts, hlength, hall⟩ := ih hbegins' (by omega) hlater
      refine ⟨e :: es, ?_, congrArg (· + 1) hlength, fun j w' e' hw' he' => ?_⟩
      · rw [Engine.shifts, hshift]
        simp only [bind, Except.bind, hshifts]
        rfl
      cases j with
      | zero =>
          obtain rfl := Option.some.inj hw'
          obtain rfl := Option.some.inj he'
          exact hserved
      | succ j =>
          have hserved' := hall j w' e' hw' he'
          have htaken : ticksIn config ((w :: ws).take (j + 1)) =
              w.ticks config + ticksIn config (ws.take j) := List.sum_cons
          rw [htaken, ← Nat.add_assoc, Nat.add_comm j 1, ← Nat.add_assoc]
          exact hserved'

end Shifts

/-- **An engine created for a configuration with one member** commits on every tick of its run. That
member is the one with the secret: for no other one is there an engine. -/
theorem Engine.served_of_create {σ : Type} [StateStore σ] [LawfulStore σ] {config : Config}
    {secret : Secret} {ctx : Context} {m : MemberId} {store : σ} {w : Shift}
    (hmembers : config.members = [m]) (hmake : Context.make config secret = .ok ctx)
    (hseals : ∀ bytes, ctx.scheme.verify ctx.me bytes (ctx.scheme.sign ctx.keypair.secret bytes))
    (hpace : config.interval < config.timeout) (hempty : StateStore.load store = .ok none)
    (hroom : w.ticks config < 2 ^ 64 - 1)
    (hmoves : ctx.scheme.NeverStalls ctx.scheme.genesisDigest
      ((viewsFrom 0 (w.ticks config)).map w.payloads)) :
    ∃ created started worked : Engine σ,
      Engine.create config secret store w.payloads w.begins = .ok created ∧
      created.run w.begins = .ok started ∧
      started.advance w.begins (w.begins + w.lasts) = .ok worked ∧
      w.Served config 0 0 worked.stop.executeAll := by
  obtain ⟨honly, htimeout, hvalid⟩ := Context.alone_of_make hmembers hmake
  have hbrisk : config.Brisk ctx.timeout := htimeout ▸ Config.brisk_of_validate hvalid hpace
  have hbegins : (Deployment.alone ctx honly).Begins (Deployment.loner ctx honly) store 0 0
      (.initial ctx.scheme.genesisDigest) := Deployment.begins_of_empty hempty
  have hmoves' : ctx.scheme.NeverStalls ctx.scheme.genesisDigest
      ((viewsFrom 0 (w.ticks config)).map w.payloads ++ []) := by
    rwa [List.append_nil]
  obtain ⟨e, -, hshift, hserved, -⟩ :=
    hbegins.shift (Deployment.solo_alone ctx honly hseals) hbrisk (by omega) hmoves'
  have hrun : Engine.shift ctx config store w = .ok e := hshift
  rw [Engine.shift_of_make hmake] at hrun
  obtain ⟨created, hcreate, hrun⟩ := bind_eq_ok.mp hrun
  obtain ⟨started, hstart, hrun⟩ := bind_eq_ok.mp hrun
  obtain ⟨worked, hadvance, hrun⟩ := bind_eq_ok.mp hrun
  obtain rfl := Except.ok.inj hrun
  exact ⟨created, started, worked, hcreate, hstart, Outcome.ofChecked_eq_ok.mp hadvance, hserved⟩

/-- **A member on its own commits on every tick and never times out.** On an empty store, with
engines that run one after the other for any time each: a run that lasts for `t` commits one payload
on each of its `t / interval + 1` ticks, in one view after the other and each of them what the
source of the run has for its view. No view is given up. After any number of runs the height counts
all payloads, and the view is that height plus the number of restarts. -/
theorem commits_on_every_tick {σ : Type} [StateStore σ] [LawfulStore σ] (ctx : Context)
    (config : Config) (store : σ) (ws : List Shift) (honly : ctx.committee.members = [ctx.me])
    (hseals : ∀ bytes, ctx.scheme.verify ctx.me bytes (ctx.scheme.sign ctx.keypair.secret bytes))
    (hvalid : config.validate = .ok ()) (htimeout : ctx.timeout = config.timeout)
    (hpace : config.interval < config.timeout) (hempty : StateStore.load store = .ok none)
    (hroom : ticksIn config ws + ws.length < 2 ^ 64)
    (hmoves : ctx.scheme.NeverStalls ctx.scheme.genesisDigest (proposalsIn config 0 0 ws)) :
    ∃ es : List (Engine σ), Engine.shifts ctx config store ws = .ok es ∧ es.length = ws.length ∧
      ∀ (j : Nat) (w : Shift) (e : Engine σ), ws[j]? = some w → es[j]? = some e →
        w.Served config (ticksIn config (ws.take j)) j e := by
  have hbrisk : config.Brisk ctx.timeout := htimeout ▸ Config.brisk_of_validate hvalid hpace
  have hbegins : (Deployment.alone ctx honly).Begins (Deployment.loner ctx honly) store 0 0
      (.initial ctx.scheme.genesisDigest) := Deployment.begins_of_empty hempty
  obtain ⟨es, hshifts, hlength, hall⟩ := (Deployment.solo_alone ctx honly hseals).shifts
    hbrisk (fun _ => ⟨_, rfl, hbegins⟩) (by omega) hmoves
  refine ⟨es, hshifts, hlength, fun j w e hw he => ?_⟩
  have hserved := hall j w e hw he
  rwa [Nat.zero_add, Nat.zero_add] at hserved

namespace Ticking

/-- Ticks every four milliseconds, and a timeout of ten. -/
def config : Config :=
  { members := Committee.alone.members, timeout := 10, interval := 4, onlineCheck := 3 }

/-- Data that names its run and its view. -/
def data (run : UInt8) (view : View) : Bytes := [run, view.toUInt8]

/-- A run of nine milliseconds, and one of three. -/
def runs : List Shift := [⟨0, 9, data 80⟩, ⟨20, 3, data 81⟩]

end Ticking

open Ticking in
/-- Three ticks before a restart, and one after it, in view 4. -/
theorem commits_on_every_tick_of_restarted :
    (Deployment.transparent .alone ∅).SealsVerify ∧
    ∃ first second : Engine MemoryStore, Engine.shifts .alone config {} runs = .ok [first, second] ∧
      first.executed = [[80, 0], [80, 1], [80, 2]] ∧ second.executed = [[81, 4]] ∧
      (∀ view, .timedOut view ∉ first.events ++ second.events) ∧
      second.core.status.height.toNat = 4 ∧ second.core.status.view.toNat = 5 := by
  have hseals := Deployment.sealsVerify_transparent .alone ∅
  have hown := hseals ⟨Context.alone.me, Context.alone.me_mem, Finset.notMem_empty _⟩
  obtain ⟨es, hshifts, hlength, hall⟩ := commits_on_every_tick (σ := MemoryStore) .alone config {}
    runs rfl hown rfl rfl (by decide) rfl (by decide) (by decide +kernel)
  obtain ⟨first, second, rfl⟩ := List.length_eq_two.mp hlength
  have hfirst := hall 0 _ _ rfl rfl
  have hsecond := hall 1 _ _ rfl rfl
  refine ⟨hseals, first, second, hshifts, hfirst.executed, hsecond.executed, fun view hmem => ?_,
    hsecond.height, hsecond.view⟩
  exact (List.mem_append.mp hmem).elim (hfirst.inTime view) (hsecond.inTime view)

end HotStuff
