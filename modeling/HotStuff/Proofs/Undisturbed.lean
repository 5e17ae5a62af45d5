import HotStuff.Proofs.Polling
import HotStuff.Proofs.Queue
import HotStuff.Proofs.Reporting

/-!
# Answers in an Undisturbed View

What goes out when a member votes, decides or enters a view depends on who leads. A message to
another leader goes out; one to itself is delivered in place, so the leader's own vote is the first
one on each ballot that it opens, and its own announcement the first one in its view. In a committee
of one the whole view is over with the proposal.

## Main definitions

* `Deployment.arriving`, `Deployment.arrived`: what goes out when a member enters a view, and what
  it holds then.
* `Deployment.Unaided`: what goes out when a member on its own decides a view.

## Main results

* `Deployment.calms_arriving`: a member enters a view.
* `Deployment.answers_certified`, `Deployment.answers_decided`: the leader's answer to the vote that
  completes a quorum.
* `Deployment.answers_decide`: the decision reaches another member.
* `Deployment.proposes_first`, `Deployment.proposes_alone`: the proposal of a view, in a committee
  with more than one member and in a committee of one.
-/

namespace HotStuff

/-! ### Quiet actions -/

namespace Core

variable {ctx : Context} {actions : List Action} {message : Message}

/-- Where nothing is done nothing is said to oneself. -/
@[simp] theorem quiet_nil : Quiet ctx [] := fun _ => List.not_mem_nil

/-- Actions one after the other are quiet if both parts are. -/
@[simp] theorem quiet_append {more : List Action} :
    Quiet ctx (actions ++ more) ↔ Quiet ctx actions ∧ Quiet ctx more := by
  simp only [Quiet, List.mem_append, not_or, forall_and]

/-- Sending is quiet if it is to someone else. -/
@[simp] theorem quiet_send_cons {receiver : MemberId} :
    Quiet ctx (.send receiver message :: actions) ↔ receiver ≠ ctx.me ∧ Quiet ctx actions := by
  constructor
  · intro h
    refine ⟨?_, fun m hm => h m (List.mem_cons_of_mem _ hm)⟩
    rintro rfl
    exact h message (List.mem_cons_self ..)
  · rintro ⟨hne, h⟩ m hm
    rcases List.mem_cons.mp hm with heq | hm
    · exact hne (Action.send.inj heq).1.symm
    · exact h m hm

/-- Actions that send nothing do not matter. -/
theorem quiet_cons {action : Action}
    (haction : ∀ receiver message, action ≠ .send receiver message) :
    Quiet ctx (action :: actions) ↔ Quiet ctx actions := by
  constructor
  · exact fun h m hm => h m (List.mem_cons_of_mem _ hm)
  · intro h m hm
    rcases List.mem_cons.mp hm with heq | hm
    · exact haction _ _ heq.symm
    · exact h m hm

/-- Broadcasting is quiet, as it is to all others. -/
@[simp] theorem quiet_broadcast_cons :
    Quiet ctx (.broadcast message :: actions) ↔ Quiet ctx actions :=
  quiet_cons fun _ _ => Action.noConfusion

/-- Telling of an event is quiet. -/
@[simp] theorem quiet_notify_cons {event : Event} :
    Quiet ctx (.notify event :: actions) ↔ Quiet ctx actions :=
  quiet_cons fun _ _ => Action.noConfusion

/-- Executing is quiet. -/
@[simp] theorem quiet_execute_cons {view : View} {height : Height} {payload : Payload} :
    Quiet ctx (.execute view height payload :: actions) ↔ Quiet ctx actions :=
  quiet_cons fun _ _ => Action.noConfusion

/-- Setting the timer is quiet. -/
@[simp] theorem quiet_rearm_cons :
    Quiet ctx (Replica.rearm ctx :: actions) ↔ Quiet ctx actions :=
  quiet_cons fun _ _ => Action.noConfusion

end Core

/-- The view that a payload is committed in. -/
def Event.decided? : Event → Option View
  | .committed view _ _ => some view
  | _ => none

namespace Deployment

variable {d : Deployment} {s s₁ s' : ReplicaState} {c c₁ c' : Collector} {L m : d.Correct}
  {b : Ballot} {cert : Certificate} {voters : List MemberId} {r : Round} {σ : Type} [StateStore σ]
  {t : Instant} {out said later : List Action} {most : Nat}

/-! ### Messages to another leader -/

omit [StateStore σ] in
/-- A vote is quiet where someone else leads. -/
theorem quiet_voting (hother : d.committee.leader b.view ≠ m.1) :
    Core.Quiet (d.context m) (d.voting m b) := by
  simp [voting, hother]

omit [StateStore σ] in
/-- Entering a view is quiet where someone else leads it. -/
theorem quiet_entering (hother : d.committee.leader s.view ≠ m.1) :
    Core.Quiet (d.context m) (d.entering m s) := by
  simp [entering, hother]

omit [StateStore σ] in
/-- Executing a decision is quiet. -/
@[simp] theorem quiet_executing : Core.Quiet (d.context m) (d.executing cert s) := by
  simp [executing]

omit [StateStore σ] in
/-- What a leader announces is quiet: its own part in it is done in place. -/
@[simp] theorem quiet_announcing {st : Statement} :
    Core.Quiet (d.context m) (d.announcing L st) := by
  simp [announcing]

/-! ### Messages to itself -/

section Own

variable (hquiet : Core.Quiet (d.context m) out)

include hquiet

/-- The vote of a leader is delivered in place. -/
theorem calms_voting (hleader : d.committee.leader b.view = m.1)
    (hgives : Core.Gives σ (d.context m) t s c (d.ballotBy m b) said s₁ c₁)
    (hlater : Core.Calms σ (d.context m) t most s₁ c₁ (Replica.rearm (d.context m) :: said) later
      s' c') :
    Core.Calms σ (d.context m) t (most + 1) s c (out ++ d.voting m b) (out ++ later) s' c' := by
  rw [voting, hleader, ← d.context_me m]
  exact .send hquiet hgives hlater

/-- The announcement of a leader is delivered in place. -/
theorem calms_entering (hleader : d.committee.leader s.view = m.1)
    (hgives : Core.Gives σ (d.context m) t s c (d.entry m s) said s₁ c₁)
    (hlater : Core.Calms σ (d.context m) t most s₁ c₁ (Replica.rearm (d.context m) :: said) later
      s' c') :
    Core.Calms σ (d.context m) t (most + 1) s c (out ++ d.entering m s) (out ++ later) s' c' := by
  rw [entering, hleader, ← d.context_me m]
  exact .send hquiet hgives hlater

end Own

/-! ### Entering a view -/

section Entering

variable (d) in
/-- What goes out when a member enters a view: its announcement, unless that is for itself. -/
def arriving (m : d.Correct) (s : ReplicaState) : List Action :=
  if d.committee.leader s.view = m.1 then [Replica.rearm (d.context m)] else d.entering m s

variable (d) in
/-- What a member holds that has entered a view: its own announcement, if that was for itself. -/
def arrived (m : d.Correct) (s : ReplicaState) : Collector :=
  if d.committee.leader s.view = m.1 then
    .only s.view (.enteredBy m.1 (s.highCertificate d.scheme))
  else .empty

omit [StateStore σ] in
/-- The leader of a view that it has entered holds its own announcement. -/
theorem arrived_of_leader (hleader : d.committee.leader s.view = m.1) :
    d.arrived m s = .only s.view (.enteredBy m.1 (s.highCertificate d.scheme)) := if_pos hleader

omit [StateStore σ] in
/-- Who enters a view that someone else leads holds nothing. -/
theorem arrived_of_not_leader (hother : d.committee.leader s.view ≠ m.1) :
    d.arrived m s = .empty := if_neg hother

omit [StateStore σ] in
/-- What is held in a view is not forgotten there. -/
@[simp] theorem pruneBelow_arrived : (d.arrived m s).pruneBelow s.view = d.arrived m s := by
  rw [arrived]
  split
  · exact Collector.pruneBelow_only_of_le (UInt64.le_refl _)
  · rfl

omit [StateStore σ] in
/-- Nothing is executed on the way into a view. -/
theorem dataIn_arriving : dataIn (d.arriving m s) = [] := by
  rw [arriving]
  split
  · rfl
  · rfl

omit [StateStore σ] in
/-- One payload is executed when a view is decided. -/
theorem dataIn_deciding : dataIn (d.executing cert s ++ d.arriving m s) = [cert.payload.data] := by
  rw [dataIn_append, dataIn_arriving]
  rfl

/-- **A member enters a view** and leaves the earlier one behind. -/
theorem calms_arriving (hseals : d.SealsVerify) (hwaits : d.Waits s) (hbehind : c.Behind s.view)
    (hquiet : Core.Quiet (d.context m) out) :
    ∃ c', c'.pruneBelow s.view = d.arrived m s ∧
      Core.Calms σ (d.context m) t 1 s c (out ++ d.entering m s) (out ++ d.arriving m s) s c' := by
  by_cases hleader : d.committee.leader s.view = m.1
  · obtain ⟨c', hadd, hkept⟩ := hbehind.addNewView (s.highCertificate d.scheme) m.2.1
    have hgives := gives_entry (σ := σ) (t := t) hseals hwaits hleader hadd
    rw [arriving, if_pos hleader, arrived_of_leader hleader]
    exact ⟨c', hkept, calms_entering hquiet hleader hgives
      (.quiet (Core.quiet_rearm_cons.mpr Core.quiet_nil))⟩
  · have hall : Core.Quiet (d.context m) (out ++ d.entering m s) :=
      Core.quiet_append.mpr ⟨hquiet, quiet_entering hleader⟩
    rw [arriving, if_neg hleader, arrived_of_not_leader hleader]
    exact ⟨c, hbehind.pruneBelow, (Core.Calms.quiet hall).mono (Nat.zero_le 1)⟩

/-- **A member starts** in the view of its state. -/
theorem starts (hseals : d.SealsVerify) (hwaits : d.Waits s) {core : Core σ}
    (his : core.Is s .empty) : ∃ core', core.start (d.context m) t = .ok (core', d.arriving m s) ∧
      core'.Shows (d.context m) s (d.arrived m s) := by
  obtain ⟨c', hkept, hcalms⟩ := calms_arriving (σ := σ) (t := t) (m := m) hseals hwaits .empty
    Core.quiet_nil
  have hround : core.replica.startRound (d.context m) = d.entering m s := by
    rw [← his.state]
    rfl
  rw [Core.start, hround, ← hkept]
  exact hcalms.route (by decide) core his

/-- **The decision reaches a member** that does not lead the view. -/
theorem answers_decide (hseals : d.SealsVerify) (hvotes : s.Votes b) (hcert : d.Attests cert b)
    (hleader : d.committee.leader b.view = L.1) (hother : m ≠ L) (hcommit : b.phase = .commit)
    (hlast : s.view ≠ View.last) (hroom : s.height ≤ s.view)
    (hwaits : d.Waits (s.decide d.scheme cert)) :
    Core.Answers σ (d.context m) t s .empty
      (.ofStatement ((d.context L).sign (cert.statement .decide)))
      (d.executing cert (s.decide d.scheme cert) ++ d.arriving m (s.decide d.scheme cert))
      (s.decide d.scheme cert) (d.arrived m (s.decide d.scheme cert)) := by
  have hgives := gives_decide (σ := σ) (t := t) (c := .empty) hvotes hcert hseals hleader hother
    hcommit hlast hroom
  have hquiet : Core.Quiet (d.context m) (d.executing cert (s.decide d.scheme cert)) :=
    quiet_executing
  obtain ⟨c', hkept, hcalms⟩ := calms_arriving (σ := σ) (t := t) hseals hwaits .empty hquiet
  have hanswers := hgives.answers hcalms (by decide)
  rwa [hkept] at hanswers

end Entering

/-! ### The leader's answers -/

section Leading

variable (hseals : d.SealsVerify) (hleader : d.committee.leader b.view = L.1)

include hseals hleader

/-- **The leader votes first** on a ballot that it opens. -/
theorem calms_first_vote (hview : s.view = b.view) (hpolls : r.Polls (d.context L) b [])
    (hmany : 1 < d.committee.quorum) (hquiet : Core.Quiet (d.context L) out) :
    ∃ r' : Round, r'.Polls (d.context L) b [L.1] ∧
      Core.Calms σ (d.context L) t 1 s (.only b.view r) (out ++ d.voting L b)
        (out ++ [Replica.rearm (d.context L)]) s (.only b.view r') := by
  obtain ⟨r', hpolls', hgives⟩ := gives_pending (σ := σ) (m := L) (t := t) hseals hleader hview
    hpolls List.not_mem_nil hmany
  exact ⟨r', hpolls', calms_voting hquiet hleader hgives
    (.quiet (Core.quiet_rearm_cons.mpr Core.quiet_nil))⟩

variable (hvotes : s.Votes b) (hpolls : r.Polls (d.context L) b voters) (hnew : m.1 ∉ voters)
  (hquorum : d.committee.quorum ≤ voters.length + 1)

include hvotes hpolls hnew hquorum

/-- **The certificate of a ballot** is announced, and the next ballot is polled. -/
theorem answers_certified (hmany : 1 < d.committee.quorum) {next : Phase}
    (hnext : b.phase.successor = some next) (hlater : next = .preCommit ∨ next = .commit) :
    ∃ (cert : Certificate) (r' : Round), d.Attests cert b ∧
      r'.Polls (d.context L) ⟨next, b.view, b.payload⟩ [L.1] ∧
      Core.Answers σ (d.context L) t s (.only b.view r) (d.ballotBy m b)
        (d.announcing L (cert.statement next) ++ [Replica.rearm (d.context L)]) (s.follow cert)
        (.only b.view r') := by
  obtain ⟨cert, opened, hattests, hopened, hgives⟩ := gives_certified (σ := σ) (t := t) hseals
    hleader hvotes hpolls hnew hquorum hnext hlater
  have hvoted := hvotes.follow hattests.ballot hnext hlater
  obtain ⟨r', hpolls', hcalms⟩ := calms_first_vote (σ := σ) (t := t)
    (b := ⟨next, b.view, b.payload⟩) hseals hleader hvoted.view hopened hmany quiet_announcing
  have hanswers := hgives.answers hcalms (by decide)
  have hhere : (s.follow cert).view ≤ b.view := by
    rw [hvoted.view]
    exact UInt64.le_refl _
  rw [Collector.pruneBelow_only_of_le hhere] at hanswers
  exact ⟨cert, r', hattests, hpolls', hanswers⟩

/-- **The certificate of the last ballot** decides the view. -/
theorem answers_decided (hcommit : b.phase = .commit) (hlast : s.view ≠ View.last)
    (hroom : s.height ≤ s.view)
    (hwaits : ∀ cert, d.Attests cert b → d.Waits (s.decide d.scheme cert)) :
    ∃ cert : Certificate, d.Attests cert b ∧
      Core.Answers σ (d.context L) t s (.only b.view r) (d.ballotBy m b)
        (d.announcing L (cert.statement .decide) ++
          (d.executing cert (s.decide d.scheme cert) ++ d.arriving L (s.decide d.scheme cert)))
        (s.decide d.scheme cert) (d.arrived L (s.decide d.scheme cert)) := by
  obtain ⟨cert, r', hattests, hgives⟩ := gives_decided (σ := σ) (t := t) hseals hleader hvotes
    hpolls hnew hquorum hcommit hlast hroom
  have hover : b.view < (s.decide d.scheme cert).view := by
    rw [← hvotes.view]
    exact View.lt_of_next? (if_neg hlast)
  have hquiet : Core.Quiet (d.context L) (d.announcing L (cert.statement .decide) ++
      d.executing cert (s.decide d.scheme cert)) := by simp
  obtain ⟨c', hkept, hcalms⟩ := calms_arriving (σ := σ) (t := t) hseals (hwaits cert hattests)
    (.only hover (r := r')) hquiet
  rw [List.append_assoc, List.append_assoc] at hcalms
  have hanswers := hgives.answers hcalms (by decide)
  rw [hkept] at hanswers
  exact ⟨cert, hattests, hanswers⟩

end Leading

/-! ### Proposals -/

/-- **The leader proposes** in the slot of an undisturbed view; what that comes to depends on how
the vote on its own proposal is settled. -/
theorem proposes (hseals : d.SealsVerify) (hwaits : d.Waits s)
    (hleader : d.committee.leader s.view = L.1) {members : List MemberId}
    (hgathers : r.Gathers (s.highCertificate d.scheme) members)
    (hall : ∀ m ∈ d.committee.members, m ∈ members) (data : Bytes) :
    ∃ opened : Round, opened.Polls (d.context L) ⟨.prepare, s.view, ⟨s.committed, data⟩⟩ [] ∧
      ∀ {most out s' c'}, most ≤ Core.maxDeliveries →
        Core.Calms σ (d.context L) t most (s.accept (d.proposal s data)) (.only s.view opened)
          (.broadcast (.statement .prepare ((d.context L).sign (d.proposal s data))) ::
            d.voting L ⟨.prepare, s.view, ⟨s.committed, data⟩⟩) out s' c' →
        Core.Proposes σ (d.context L) t s (.only s.view r) data out s'
          (c'.pruneBelow s'.view) := by
  obtain ⟨tallies, newViews⟩ := r
  obtain rfl : tallies = ∅ := hgathers.unopened
  obtain ⟨opened, hpolls, hopen⟩ :=
    Round.Polls.first (d.context L) s.view ⟨s.committed, data⟩ newViews
  let slot : Slot := ⟨s.view, s.highCertificate d.scheme, none⟩
  have hfree : Leader.slot? (d.context L) (.only s.view ⟨∅, newViews⟩) s = some slot :=
    slot?_of_gathers hwaits hleader hgathers hall
  refine ⟨opened, hpolls, fun hmost hcalms => ⟨slot, hfree, rfl, fun core his => ?_⟩⟩
  have hslot : core.slot? (d.context L) = some slot := by
    rw [Core.slot?, his.state, his.votes]
    exact hfree
  have hpropose : Leader.propose (d.context L) core.votes slot core.replica.state.committed data =
      .ok ((d.context L).sign (d.proposal s data), .only s.view opened) := by
    rw [his.state, his.votes]
    exact bind_eq_ok.mpr ⟨_, hopen, rfl⟩
  have hvote := hwaits.onPrepare (m := L) hseals hleader data his.state
  let offered : Core σ := { core with
    votes := .only s.view opened
    replica := { core.replica with state := s.accept (d.proposal s data) } }
  have hoffer : core.offer (d.context L) slot data = some (offered,
      .broadcast (.statement .prepare ((d.context L).sign (d.proposal s data))) ::
        d.voting L ⟨.prepare, s.view, ⟨s.committed, data⟩⟩) := by
    rw [Core.offer, hslot]
    simp only [Option.map_some, ne_eq, not_true_eq_false, if_false, hpropose, hvote]
    rfl
  obtain ⟨core', hroute, hshows⟩ := hcalms.route hmost offered ⟨rfl, rfl⟩
  refine ⟨core', ?_, hshows⟩
  rw [Core.propose, hoffer]
  exact hroute

/-- **A committee with more than one member**: the proposal and the leader's own vote. -/
theorem proposes_first (hseals : d.SealsVerify) (hwaits : d.Waits s)
    (hleader : d.committee.leader s.view = L.1) {members : List MemberId}
    (hgathers : r.Gathers (s.highCertificate d.scheme) members)
    (hall : ∀ m ∈ d.committee.members, m ∈ members) (hmany : 1 < d.committee.quorum)
    (data : Bytes) :
    ∃ r' : Round, r'.Polls (d.context L) ⟨.prepare, s.view, ⟨s.committed, data⟩⟩ [L.1] ∧
      Core.Proposes σ (d.context L) t s (.only s.view r) data
        [.broadcast (.statement .prepare ((d.context L).sign (d.proposal s data))),
          Replica.rearm (d.context L)]
        (s.accept (d.proposal s data)) (.only s.view r') := by
  obtain ⟨opened, hopened, hproposes⟩ := proposes (σ := σ) (t := t) hseals hwaits hleader
    hgathers hall data
  have hquiet : Core.Quiet (d.context L)
      [.broadcast (.statement .prepare ((d.context L).sign (d.proposal s data)))] := by simp
  obtain ⟨r', hpolls, hcalms⟩ := calms_first_vote (σ := σ) (t := t)
    (s := s.accept (d.proposal s data)) (b := ⟨.prepare, s.view, ⟨s.committed, data⟩⟩)
    hseals hleader rfl hopened hmany hquiet
  have hproposed := hproposes (by decide) hcalms
  have hhere : (s.accept (d.proposal s data)).view ≤ s.view := UInt64.le_refl _
  rw [Collector.pruneBelow_only_of_le hhere] at hproposed
  exact ⟨r', hpolls, hproposed⟩

/-! ### A committee of one -/

section Alone

variable (d) in
/-- **What a member on its own puts out** for a proposal: the data is executed, and committed in the
view of the proposal; nothing is sent to anyone, no view is given up, and at the end the deadline is
pushed out. -/
structure Unaided (L : d.Correct) (view : View) (data : Bytes) (out : List Action) : Prop where
  executes : dataIn out = [data]
  commits : toldIn Event.decided? out = [view]
  sendsNothing : ∀ receiver message, .send receiver message ∉ out
  inTime : toldIn Event.abandoned? out = []
  rearms : ∃ before, out = before ++ [Replica.rearm (d.context L)]

variable (hseals : d.SealsVerify) (hwaits : d.Waits s)
  (halone : ∀ view, d.committee.leader view = L.1) (hone : d.committee.quorum ≤ 1) {data : Bytes}
  (hlast : s.view + 1 ≠ View.last)
  (hfresh : d.scheme.payloadDigest ⟨s.committed, data⟩ ≠ s.committed)

include hseals hwaits halone hone hlast hfresh

/-- **A member on its own** votes on its proposal, one ballot after the other, and enters the next
view. -/
theorem calms_alone (hopened : r.Polls (d.context L) ⟨.prepare, s.view, ⟨s.committed, data⟩⟩ []) :
    ∃ (s' : ReplicaState) (out : List Action) (c' : Collector), d.Continues s data s' ∧
      d.Unaided L s.view data out ∧ c'.pruneBelow s'.view = d.arrived L s' ∧
      Core.Calms σ (d.context L) t 4 (s.accept (d.proposal s data)) (.only s.view r)
        (.broadcast (.statement .prepare ((d.context L).sign (d.proposal s data))) ::
          d.voting L ⟨.prepare, s.view, ⟨s.committed, data⟩⟩) out s' c' := by
  have hvotes := votes_accept (d := d) (s := s) data
  have hquorum : d.committee.quorum ≤ ([] : List MemberId).length + 1 := hone
  have hnew : L.1 ∉ ([] : List MemberId) := List.not_mem_nil
  -- Each vote of the member completes a quorum.
  obtain ⟨prepared, r₂, hprepared, hpolls₂, hgives₁⟩ := gives_certified (σ := σ) (t := t) hseals
    (halone s.view) hvotes hopened hnew hquorum rfl (Or.inl rfl)
  have hvotes₂ := hvotes.follow hprepared.ballot rfl (Or.inl rfl)
  obtain ⟨locked, r₃, hlocked, hpolls₃, hgives₂⟩ := gives_certified (σ := σ) (t := t) hseals
    (halone s.view) hvotes₂ hpolls₂ hnew hquorum rfl (Or.inr rfl)
  have hvotes₃ := hvotes₂.follow hlocked.ballot rfl (Or.inr rfl)
  let s₃ := ((s.accept (d.proposal s data)).follow prepared).follow locked
  have hhere : s₃.view = s.view := hvotes₃.view
  have hroom : s₃.height ≤ s₃.view := hwaits.room_followed data prepared locked
  obtain ⟨decided, r₄, hdecided, hgives₃⟩ := gives_decided (σ := σ) (t := t) hseals
    (halone s.view) hvotes₃ hpolls₃ hnew hquorum rfl (hhere ▸ hwaits.notLast) hroom
  let s' := s₃.decide d.scheme decided
  have hcontinues : d.Continues s data s' :=
    hwaits.continues hprepared hlocked hdecided hlast hfresh
  have hlater : s.view < s'.view := hcontinues.view ▸ View.lt_of_next? (if_neg hwaits.notLast)
  -- What it sends to itself is settled from the last message back to the first.
  have hquiet (st : Statement) : Core.Quiet (d.context L)
      (Replica.rearm (d.context L) :: d.announcing L st) := by simp
  have hexecuted : Core.Quiet (d.context L) (Replica.rearm (d.context L) ::
      d.announcing L (decided.statement .decide) ++ d.executing decided s') := by simp
  have hproposal : Core.Quiet (d.context L)
      [.broadcast (.statement .prepare ((d.context L).sign (d.proposal s data)))] := by simp
  obtain ⟨c', hkept, hcalms₁⟩ := calms_arriving (σ := σ) (t := t) hseals hcontinues.waits
    (.only hlater (r := r₄)) hexecuted
  have hcalms₂ := calms_voting (hquiet (locked.statement .commit)) (halone s.view) hgives₃ hcalms₁
  have hcalms₃ := calms_voting (hquiet (prepared.statement .preCommit)) (halone s.view) hgives₂
    hcalms₂
  have hcalms := calms_voting hproposal (halone s.view) hgives₁ hcalms₃
  have hpayload : decided.payload = ⟨s.committed, data⟩ :=
    congrArg Ballot.payload hdecided.ballot
  have hview : decided.view = s.view := congrArg Ballot.view hdecided.ballot
  have harriving : d.arriving L s' = [Replica.rearm (d.context L)] := if_pos (halone s'.view)
  rw [harriving] at hcalms
  refine ⟨s', _, c', hcontinues, ⟨?_, ?_, ?_, rfl, ?_⟩, hkept, hcalms⟩
  · rw [show dataIn _ = [decided.payload.data] from rfl, hpayload]
  · rw [show toldIn Event.decided? _ = [decided.view] from rfl, hview]
  · simp [announcing, executing, Replica.rearm]
  · simp only [← List.append_assoc]
    exact ⟨_, rfl⟩

/-- The proposal of a member on its own is decided on the spot. -/
theorem proposes_alone {members : List MemberId}
    (hgathers : r.Gathers (s.highCertificate d.scheme) members)
    (hall : ∀ m ∈ d.committee.members, m ∈ members) :
    ∃ (s' : ReplicaState) (out : List Action), d.Continues s data s' ∧
      d.Unaided L s.view data out ∧
      Core.Proposes σ (d.context L) t s (.only s.view r) data out s' (d.arrived L s') := by
  obtain ⟨opened, hopened, hproposes⟩ := proposes (σ := σ) (t := t) hseals hwaits
    (halone s.view) hgathers hall data
  obtain ⟨s', out, c', hcontinues, hunaided, hkept, hcalms⟩ := calms_alone (σ := σ) (t := t)
    hseals hwaits halone hone hlast hfresh hopened
  have hproposed := hproposes (by decide) hcalms
  rw [hkept] at hproposed
  exact ⟨s', out, hcontinues, hunaided, hproposed⟩

end Alone

end Deployment

end HotStuff
