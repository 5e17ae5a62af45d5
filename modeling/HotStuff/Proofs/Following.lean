import HotStuff.Proofs.Answering
import HotStuff.Proofs.Deployment
import HotStuff.Proofs.Slots

/-!
# Following an Undisturbed View

The members of a deployment begin a view in one state, in which they wait for its proposal: their
highest certificate is an older one and leaves nothing pending, and they are locked on the tip of
the chain, if at all. Then the proposal is voted on, its certificates are followed, and with its
commit all are in one state again, and wait in the next view. If every view so far was decided, they
are `Ready` for theirs; after a restart they wait in a view that is ahead of the chain.

## Main definitions

* `Deployment.SealsVerify`: the members' own seals pass.
* `Deployment.Waits`: the state in which the members wait for the proposal of a view.
* `Deployment.Continues`: what has become of that state after the view.
* `Deployment.Ready`, `Deployment.Advances`: the same if every view so far was decided.
* `ReplicaState.Votes`: the state in which they have voted on a ballot.

## Main results

* `Deployment.Waits.onPrepare`: the proposal is voted on.
* `Deployment.gives_phase`, `Deployment.gives_decide`: what a member answers to a certificate.
* `Deployment.Waits.continues`: after a view the members wait in the next one.
-/

namespace HotStuff

/-! ### States within a view -/

namespace ReplicaState

variable (s : ReplicaState)

/-- The state after following a certificate that comes before the decision. -/
def follow (cert : Certificate) : ReplicaState :=
  if cert.phase = .prepare then s.preCommit cert else s.lock cert

/-- The state after deciding in the current view on a certificate. -/
def decide (scheme : Scheme) (cert : Certificate) : ReplicaState :=
  enter { s with committed := scheme.payloadDigest cert.payload, height := s.height + 1 }
    (s.view + 1)

/-- The member has voted on a ballot and waits for its certificate. -/
structure Votes (b : Ballot) : Prop where
  view : s.view = b.view
  phase : s.phase = b.phase
  proposal : s.proposal = some b.payload

variable {s}

/-- Following a certificate does not touch the chain. -/
@[simp] theorem follow_height (cert : Certificate) : (s.follow cert).height = s.height := by
  rw [follow]
  split
  · rfl
  · rfl

/-- Following a certificate does not leave the view. -/
@[simp] theorem follow_view (cert : Certificate) : (s.follow cert).view = s.view := by
  rw [follow]
  split
  · rfl
  · rfl

/-- After a certificate the next ballot is voted on. -/
theorem Votes.follow {b : Ballot} {cert : Certificate} {next : Phase} (hvotes : s.Votes b)
    (hcert : cert.ballot = b) (hnext : b.phase.successor = some next)
    (hlater : next = .preCommit ∨ next = .commit) :
    (s.follow cert).Votes ⟨next, b.view, b.payload⟩ := by
  have hbefore := Phase.predecessor_eq_some_iff.mpr hnext
  have hphase : cert.phase = b.phase := congrArg Ballot.phase hcert
  rw [ReplicaState.follow, hphase]
  rcases hlater with rfl | rfl
  · rw [if_pos (Option.some.inj hbefore).symm]
    exact ⟨hvotes.view, rfl, hvotes.proposal⟩
  · rw [if_neg (by rw [← Option.some.inj hbefore]; decide)]
    exact ⟨hvotes.view, rfl, hvotes.proposal⟩

end ReplicaState

/-- What the leader says on a certificate. -/
def Certificate.statement (cert : Certificate) (next : Phase) : Statement :=
  ⟨cert.view, next, cert.payload, cert⟩

/-- A height that has not overtaken a view can be counted on from, unless the view is the last. -/
theorem Height.next?_of_room {height : Height} {view : View} (hlast : view ≠ View.last)
    (hroom : height ≤ view) : Height.next? height = some (height + 1) := by
  refine if_neg fun (hfull : height = View.last) => hlast ?_
  exact UInt64.le_antisymm (View.le_last _) (hfull ▸ hroom)

/-- The bound on views lets through any view but the last that is not too far beyond the current
one, or beyond a certified one. -/
theorem checkViewBound_of_near {view here certified : View} (hlast : view ≠ View.last)
    (hnear : view.toNat - max here.toNat certified.toNat ≤ maxViewJump.toNat) :
    checkViewBound view here certified = .ok () :=
  Replica.checkViewBound_eq_ok.mpr ⟨hlast, by omega⟩

/-- A view that is not the last is not too far from itself. -/
theorem checkViewBound_self {view certified : View} (hlast : view ≠ View.last) :
    checkViewBound view view certified = .ok () :=
  checkViewBound_of_near hlast (by omega)

section Justify

variable {ctx : Context} {st : Statement}
  (h : st.justify = ctx.scheme.genesis ∨ st.justify.phase = .prepare ∧
    st.justify.view < st.view ∧ ctx.verify st.justify = .ok ())

include h

/-- A proposal may build on the genesis certificate or a valid one of an earlier view. -/
theorem Replica.checkJustify_of_older : checkJustify ctx st = .ok () := by
  rw [checkJustify]
  by_cases hgenesis : st.justify = ctx.scheme.genesis
  · rw [if_pos hgenesis]
  · obtain ⟨hphase, hview, hvalid⟩ := h.resolve_left hgenesis
    rw [if_neg hgenesis, if_neg (not_not.mpr hphase), if_neg (UInt64.not_le.mpr hview), hvalid]

/-- A member may enter a view with such a certificate. -/
theorem Leader.checkJustify_of_older : checkJustify ctx st = .ok () := by
  rw [checkJustify]
  by_cases hgenesis : st.justify = ctx.scheme.genesis
  · rw [if_pos hgenesis]
  · obtain ⟨hphase, hview, hvalid⟩ := h.resolve_left hgenesis
    rw [if_neg hgenesis, if_neg (not_or.mpr ⟨not_not.mpr hphase, UInt64.not_le.mpr hview⟩), hvalid]

end Justify

namespace Deployment

variable (d : Deployment)

/-- **Own seals verify**, whatever a member signs. -/
def SealsVerify : Prop :=
  ∀ m bytes, d.scheme.verify m.1 bytes (d.scheme.sign (d.keypair m).secret bytes)

/-- A certificate for a ballot that verifies. -/
structure Attests (cert : Certificate) (b : Ballot) : Prop where
  ballot : cert.ballot = b
  valid : d.committee.verify d.scheme cert = .ok ()

/-- **Waiting in a view** for its proposal. The certificate that the member would hand on is an
older one, over a payload that does not extend its chain any more; it is locked on the last payload
of the chain, if at all; and it has not decided more often than there were views. -/
structure Waits (s : ReplicaState) : Prop where
  phase : s.phase = .newView
  notLast : s.view ≠ View.last
  prepared : ∀ cert, s.prepared = some cert → cert.phase = .prepare ∧ cert.view < s.view ∧
    d.committee.verify d.scheme cert = .ok () ∧ cert.payload.parent ≠ s.committed
  locked : ∀ cert, s.locked = some cert → cert.view < s.view ∧
    d.scheme.payloadDigest cert.payload = s.committed
  room : s.height ≤ s.view

/-- **Ready for a view.** The member waits in it, and has decided in every view so far. -/
structure Ready (s : ReplicaState) : Prop extends d.Waits s where
  height : s.height = s.view

/-- **After a view** in which data was proposed the members wait in the next one, and the data is
the last on the chain. -/
structure Continues (s : ReplicaState) (data : Bytes) (s' : ReplicaState) : Prop where
  waits : d.Waits s'
  view : s'.view = s.view + 1
  committed : s'.committed = d.scheme.payloadDigest ⟨s.committed, data⟩
  height : s'.height = s.height + 1

/-- **After a view** in which data was proposed the members are ready for the next one, and the data
is the last on the chain. -/
structure Advances (s : ReplicaState) (data : Bytes) (s' : ReplicaState) : Prop where
  ready : d.Ready s'
  view : s'.view = s.view + 1
  committed : s'.committed = d.scheme.payloadDigest ⟨s.committed, data⟩

/-- The announcement of a member that it is in its view. -/
def entry (m : d.Correct) (s : ReplicaState) : Message :=
  let justify := s.highCertificate d.scheme
  .statement .newView ((d.context m).sign ⟨s.view, .newView, justify.payload, justify⟩)

/-- The proposal of data in the view of a state. -/
def proposal (s : ReplicaState) (data : Bytes) : Statement :=
  ⟨s.view, .prepare, ⟨s.committed, data⟩, s.highCertificate d.scheme⟩

/-- The vote of a member on a ballot. -/
def ballotBy (m : d.Correct) (b : Ballot) : Message := .vote ((d.context m).castVote b)

/-- What a member does when it votes. -/
def voting (m : d.Correct) (b : Ballot) : List Action :=
  [.send (d.committee.leader b.view) (d.ballotBy m b), Replica.rearm (d.context m)]

/-- What a member does when it enters the view of a state. -/
def entering (m : d.Correct) (s : ReplicaState) : List Action :=
  [.send (d.committee.leader s.view) (d.entry m s), Replica.rearm (d.context m)]

/-- What a leader says on the certificate of a statement. -/
def announcing (L : d.Correct) (st : Statement) : List Action :=
  [.notify (.certified st.justify.view st.justify.phase),
    .broadcast (.ofStatement ((d.context L).sign st))]

/-- What is executed when a certificate decides a view and takes a member to a state. -/
def executing (cert : Certificate) (s : ReplicaState) : List Action :=
  [.execute cert.view s.height cert.payload, .notify (.committed cert.view s.height s.committed),
    .notify (.viewChanged s.view (d.committee.leader s.view))]

variable {d} {s : ReplicaState} {m : d.Correct} {σ : Type} [StateStore σ] {t : Instant}

/-! ### Seals -/

namespace SealsVerify

variable (hseals : d.SealsVerify)

include hseals

/-- **A correct member's own seal verifies**, under its own id. -/
theorem sealedOver (m : d.Correct) (encoding : Bytes) :
    d.scheme.sealedOver encoding (d.scheme.sealOver (d.keypair m) encoding) := by
  have hmember : (d.scheme.sealOver (d.keypair m) encoding).signer = m.1 := d.keypair_member m
  rw [Scheme.sealedOver, hmember]
  exact hseals m _

/-- What a member states passes as its own. -/
theorem verifySigned (m n : d.Correct) (st : Statement) :
    (d.context m).verifySigned ((d.context n).sign st) = .ok () := by
  have hmember : ((d.context n).sign st).signer ∈ (d.context m).committee.members :=
    (d.context n).me_mem
  have hvalid : (d.context m).scheme.statementValid ((d.context n).sign st) :=
    hseals.sealedOver n st.encode
  rw [Context.verifySigned, if_neg (not_not.mpr hmember), hvalid]
  rfl

end SealsVerify

/-- The leader of a view signs for it. -/
theorem checkLeader_sign {L : d.Correct} {st : Statement}
    (hleader : d.committee.leader st.view = L.1) :
    Replica.checkLeader (d.context m) ((d.context L).sign st) = .ok () :=
  if_pos ((d.keypair_member L).trans hleader.symm)

/-! ### The proposal -/

namespace Waits

variable (hwaits : d.Waits s)

include hwaits

/-- The certificate to hand on is the genesis certificate or a valid one of an earlier view. -/
theorem high_cases : s.highCertificate d.scheme = d.scheme.genesis ∨
    (s.highCertificate d.scheme).phase = .prepare ∧ (s.highCertificate d.scheme).view < s.view ∧
      d.committee.verify d.scheme (s.highCertificate d.scheme) = .ok () := by
  rw [ReplicaState.highCertificate]
  cases hprepared : s.prepared with
  | none => exact Or.inl rfl
  | some cert =>
      obtain ⟨hphase, hview, hvalid, -⟩ := hwaits.prepared cert hprepared
      exact Or.inr ⟨hphase, hview, hvalid⟩

/-- Nothing is pending on the chain. -/
theorem pending?_eq_none : (s.highCertificate d.scheme).pending? s.committed = none := by
  rw [ReplicaState.highCertificate, Certificate.pending?]
  cases hprepared : s.prepared with
  | none => exact if_neg fun h => Phase.noConfusion h.1
  | some cert =>
      obtain ⟨-, -, -, hparent⟩ := hwaits.prepared cert hprepared
      exact if_neg fun h => hparent h.2

variable (hseals : d.SealsVerify) {L : d.Correct} (hleader : d.committee.leader s.view = L.1)

include hseals hleader

omit [StateStore σ] in
/-- The proposal passes all checks. -/
theorem checkPrepare (data : Bytes) {r : Replica σ} (hr : r.state = s) :
    r.checkPrepare (d.context m) ((d.context L).sign (d.proposal s data)) = .ok () := by
  have hsigned : (d.context m).verifySigned ((d.context L).sign (d.proposal s data)) = .ok () :=
    hseals.verifySigned m L _
  have hspeaks : Replica.checkLeader (d.context m) ((d.context L).sign (d.proposal s data)) =
      .ok () := checkLeader_sign hleader
  have hbound : checkViewBound s.view s.view (s.highCertificate d.scheme).view = .ok () :=
    checkViewBound_self hwaits.notLast
  have hjustify : Replica.checkJustify (d.context m) (d.proposal s data) = .ok () :=
    Replica.checkJustify_of_older hwaits.high_cases
  have hsafe : s.checkSafe d.scheme (d.proposal s data) = .ok () := by
    rw [ReplicaState.checkSafe]
    cases hlocked : s.locked with
    | none => rfl
    | some lock =>
        obtain ⟨-, hdigest⟩ := hwaits.locked lock hlocked
        exact if_pos (Or.inr (Or.inl hdigest.symm))
  simp only [Replica.checkPrepare, guard_throw_eq_ok, bind_eq_ok, hr]
  refine ⟨not_not.mpr rfl, ⟨⟩, hsigned, ⟨⟩, hspeaks, ?_, ?_, ⟨⟩, hbound, ⟨⟩, hjustify,
    not_not.mpr rfl, hsafe⟩
  · exact UInt64.lt_irrefl s.view
  · exact fun h => h.2 hwaits.phase

/-- **The proposal is voted on.** -/
theorem onPrepare (data : Bytes) {r : Replica σ} (hr : r.state = s) :
    r.onPrepare (d.context m) ((d.context L).sign (d.proposal s data)) =
      .ok ({ r with state := s.accept (d.proposal s data) },
        d.voting m ⟨.prepare, s.view, ⟨s.committed, data⟩⟩) := by
  subst hr
  have hstays : r.advanceTo (d.context m) r.state.view = (r, []) := if_pos (UInt64.le_refl _)
  rw [Replica.onPrepare, hwaits.checkPrepare hseals hleader data rfl]
  simp only [bind, Except.bind]
  rw [show ((d.context L).sign (d.proposal r.state data)).body.view = r.state.view from rfl, hstays]
  rfl

/-- A member votes on the proposal. -/
theorem gives_prepare (data : Bytes) {c : Collector} :
    Core.Gives σ (d.context m) t s c
      (.statement .prepare ((d.context L).sign (d.proposal s data)))
      (d.voting m ⟨.prepare, s.view, ⟨s.committed, data⟩⟩) (s.accept (d.proposal s data)) c :=
  Core.gives_of_onPrepare rfl fun _ hr => ⟨_, rfl, hwaits.onPrepare hseals hleader data hr⟩

end Waits

/-- Whoever has accepted the proposal has voted on it. -/
theorem votes_accept (data : Bytes) :
    (s.accept (d.proposal s data)).Votes ⟨.prepare, s.view, ⟨s.committed, data⟩⟩ :=
  ⟨rfl, rfl, rfl⟩

/-! ### Certificates -/

section Certificates

variable {b : Ballot} {cert : Certificate} {next : Phase}
  (hvotes : s.Votes b) (hcert : d.Attests cert b)

omit [StateStore σ] in
/-- What a member does when it votes, said of its replica. -/
theorem voting_eq {r : Replica σ} (hview : r.state.view = b.view) :
    [r.vote (d.context m) b.phase b.payload, Replica.rearm (d.context m)] = d.voting m b := by
  rw [Replica.vote, hview]
  rfl

include hvotes hcert

/-- A certificate of the current phase is one to go on with. -/
theorem fits_of_votes (hnext : b.phase.successor = some next) :
    ¬ ((cert.statement next).view ≠ s.view ∨
      s.phase.successor ≠ some (cert.statement next).phase) := by
  obtain ⟨rfl, -⟩ := hcert
  have hview : cert.view = s.view := hvotes.view.symm
  have hphase : s.phase.successor = some next := hvotes.phase ▸ hnext
  exact not_or.mpr ⟨not_not.mpr hview, not_not.mpr hphase⟩

/-- **A certificate before the decision** is followed with the next vote. -/
theorem applyPhase_vote (hnext : b.phase.successor = some next)
    (hlater : next = .preCommit ∨ next = .commit) {r : Replica σ} (hr : r.state = s) :
    ∃ r', r'.state = s.follow cert ∧ r.applyPhase (d.context m) (cert.statement next) =
      .ok (r', d.voting m ⟨next, b.view, b.payload⟩) := by
  subst hr
  have hfits := fits_of_votes hvotes hcert hnext
  have hbefore : next.predecessor = some b.phase := Phase.predecessor_eq_some_iff.mpr hnext
  have hphase : cert.phase = b.phase := congrArg Ballot.phase hcert.ballot
  have hpayload : cert.payload = b.payload := congrArg Ballot.payload hcert.ballot
  have hstate := hvotes.follow hcert.ballot hnext hlater
  simp only [Replica.applyPhase, if_neg hfits]
  rcases hlater with rfl | rfl
  · let voted : Replica σ := Replica.persist { r with state := r.state.preCommit cert }
    have hvoting := voting_eq (m := m) (r := voted) (b := ⟨.preCommit, b.view, b.payload⟩)
      hvotes.view
    have hfollow : r.state.follow cert = r.state.preCommit cert :=
      if_pos (hphase.trans (Option.some.inj hbefore).symm)
    refine ⟨voted, hfollow.symm, ?_⟩
    rw [← hvoting, ← hpayload]
    rfl
  · let voted : Replica σ := Replica.persist { r with state := r.state.lock cert }
    have hvoting := voting_eq (m := m) (r := voted) (b := ⟨.commit, b.view, b.payload⟩) hvotes.view
    have hfollow : r.state.follow cert = r.state.lock cert :=
      if_neg (by rw [hphase, ← Option.some.inj hbefore]; exact Phase.noConfusion)
    refine ⟨voted, hfollow.symm, ?_⟩
    rw [← hvoting, ← hpayload]
    rfl

/-- The certificate of the last vote is committed. -/
theorem applyPhase_commit (hcommit : b.phase = .commit) {r : Replica σ} (hr : r.state = s) :
    r.applyPhase (d.context m) (cert.statement .decide) =
      Replica.commit (d.context m) { r with state := { r.state with phase := .decide } } cert := by
  subst hr
  have hafter : b.phase.successor = some .decide := by
    rw [hcommit]
    rfl
  simp only [Replica.applyPhase, if_neg (fits_of_votes hvotes hcert hafter)]
  rfl

/-- **The certificate of the last vote** decides the view: the payload is executed, and the next
view is announced. -/
theorem applyPhase_decide (hcommit : b.phase = .commit) (hlast : s.view ≠ View.last)
    (hroom : s.height ≤ s.view) {r : Replica σ} (hr : r.state = s) :
    ∃ r', r'.state = s.decide d.scheme cert ∧ r.applyPhase (d.context m) (cert.statement .decide) =
      .ok (r', d.executing cert (s.decide d.scheme cert) ++
        d.entering m (s.decide d.scheme cert)) := by
  subst hr
  have hview : cert.view = r.state.view :=
    (congrArg Ballot.view hcert.ballot).trans hvotes.view.symm
  have hnext : View.next? r.state.view = some (r.state.view + 1) := if_neg hlast
  have hcount := Height.next?_of_room hlast hroom
  have hlater : r.state.view < r.state.view + 1 := View.lt_of_next? hnext
  let decided : Replica σ := { r with state := { r.state with
    phase := .decide, committed := d.scheme.payloadDigest cert.payload,
    height := r.state.height + 1 } }
  have hentered : decided.enterView (d.context m) (r.state.view + 1) = _ :=
    Replica.enterView_of_lt hlater
  have hleave : decided.leave (d.context m) cert.view =
      decided.enterView (d.context m) (r.state.view + 1) := by
    rw [Replica.leave, hview, hnext]
    exact if_pos hlater
  refine ⟨Replica.persist { decided with state := decided.state.enter (r.state.view + 1) }, rfl, ?_⟩
  rw [applyPhase_commit hvotes hcert hcommit rfl]
  simp only [Replica.commit, hcount]
  rw [show (d.context m).scheme = d.scheme from rfl, hleave, hentered]
  rfl

/-! ### What a member answers that does not lead the view -/

variable {L : d.Correct} (hseals : d.SealsVerify) (hleader : d.committee.leader b.view = L.1)
  (hother : m ≠ L)

include hseals hleader hother

/-- What the leader says on a certificate is applied. -/
theorem onPhase_eq_applyPhase (hnext : b.phase.successor = some next) {r : Replica σ}
    (hr : r.state = s) :
    r.onPhase (d.context m) ((d.context L).sign (cert.statement next)) =
      r.applyPhase (d.context m) (cert.statement next) := by
  subst hr
  have hcertview : cert.view = b.view := congrArg Ballot.view hcert.ballot
  have hphase : cert.phase = b.phase := congrArg Ballot.phase hcert.ballot
  have hpayload : cert.payload = b.payload := congrArg Ballot.payload hcert.ballot
  have hleads : (d.context m).leads cert.view = false := by
    rw [Context.leads, Committee.isLeader, decide_eq_false_iff_not, hcertview, context_me]
    exact fun heq => hother (Subtype.ext (heq.symm.trans hleader))
  have hsigned := hseals.verifySigned m L (cert.statement next)
  have hspeaks : Replica.checkLeader (d.context m) ((d.context L).sign (cert.statement next)) =
      .ok () := checkLeader_sign (hcertview.symm ▸ hleader : d.committee.leader cert.view = L.1)
  have hbefore : next.predecessor = some b.phase := Phase.predecessor_eq_some_iff.mpr hnext
  have hsequence : r.outOfSequence (cert.statement next) = false := by
    rw [Replica.outOfSequence, decide_eq_false_iff_not]
    rintro ⟨hdecide, hnot⟩
    obtain rfl : next = .decide := hdecide
    exact hnot ⟨hcertview.trans hvotes.view.symm, hvotes.phase.trans (Option.some.inj hbefore).symm⟩
  have hcheck : r.checkPhase (d.context m) (cert.statement next) = .ok () := by
    obtain ⟨hview, hsuccessor⟩ := not_or.mp (fits_of_votes hvotes hcert hnext)
    have hjustified : ¬ (some cert.phase ≠ next.predecessor ∨ cert.view ≠ cert.view ∨
        cert.payload ≠ cert.payload) := by
      rw [hphase, hbefore]
      simp
    have hheld : ¬ r.state.proposal ≠ some cert.payload := by
      rw [hvotes.proposal, hpayload]
      exact not_not.mpr rfl
    simp only [Replica.checkPhase, guard_throw_eq_ok]
    exact ⟨hview, hsuccessor, hjustified, hheld, hcert.valid⟩
  have hbody : ((d.context L).sign (cert.statement next)).body = cert.statement next := rfl
  rw [Replica.onPhase, hsigned, hspeaks, hbody,
    show (cert.statement next).view = cert.view from rfl,
    hleads, hsequence, hcheck]
  rfl

/-- **A member votes on** a certificate before the decision. -/
theorem gives_phase (hnext : b.phase.successor = some next)
    (hlater : next = .preCommit ∨ next = .commit) {c : Collector} :
    Core.Gives σ (d.context m) t s c
      (.ofStatement ((d.context L).sign (cert.statement next)))
      (d.voting m ⟨next, b.view, b.payload⟩) (s.follow cert) c := by
  have hafter : Phase.prepare < next := by
    rcases hlater with rfl | rfl
    · decide
    · decide
  refine Core.gives_of_onPhase rfl hafter fun r hr => ?_
  obtain ⟨r', hstate, happly⟩ := applyPhase_vote (m := m) hvotes hcert hnext hlater hr
  exact ⟨r', hstate,
    (onPhase_eq_applyPhase hvotes hcert hseals hleader hother hnext hr).trans happly⟩

/-- **A member decides** on the certificate of the last vote. -/
theorem gives_decide (hcommit : b.phase = .commit) (hlast : s.view ≠ View.last)
    (hroom : s.height ≤ s.view) {c : Collector} :
    Core.Gives σ (d.context m) t s c
      (.ofStatement ((d.context L).sign (cert.statement .decide)))
      (d.executing cert (s.decide d.scheme cert) ++ d.entering m (s.decide d.scheme cert))
      (s.decide d.scheme cert) c := by
  have hnext : b.phase.successor = some .decide := by
    rw [hcommit]
    rfl
  refine Core.gives_of_onPhase rfl (show Phase.prepare < Phase.decide by decide) fun r hr => ?_
  obtain ⟨r', hstate, happly⟩ := applyPhase_decide (m := m) hvotes hcert hcommit hlast hroom hr
  exact ⟨r', hstate,
    (onPhase_eq_applyPhase hvotes hcert hseals hleader hother hnext hr).trans happly⟩

end Certificates

/-! ### The next view -/

/-- The members begin ready for the first view. -/
theorem ready_initial : d.Ready (.initial d.scheme.genesisDigest) := by
  have hlast : (0 : View) ≠ View.last := by decide
  refine ⟨⟨rfl, hlast, ?_, ?_, UInt64.le_refl _⟩, rfl⟩
  · rintro _ ⟨⟩
  · rintro _ ⟨⟩

/-- Until the decision nothing is added to the chain. -/
theorem Waits.room_followed (hwaits : d.Waits s) (data : Bytes) (prepared locked : Certificate) :
    (((s.accept (d.proposal s data)).follow prepared).follow locked).height ≤
      (((s.accept (d.proposal s data)).follow prepared).follow locked).view := by
  simp only [ReplicaState.follow_height, ReplicaState.follow_view]
  exact hwaits.room

/-- **After a view the members wait in the next one**, unless that is the last: the payload decided
is the last one of the chain, and its digest is not that of its parent. -/
theorem Waits.continues (hwaits : d.Waits s) {data : Bytes} {prepared locked decided : Certificate}
    (hprepared : d.Attests prepared ⟨.prepare, s.view, ⟨s.committed, data⟩⟩)
    (hlocked : d.Attests locked ⟨.preCommit, s.view, ⟨s.committed, data⟩⟩)
    (hdecided : d.Attests decided ⟨.commit, s.view, ⟨s.committed, data⟩⟩)
    (hlast : s.view + 1 ≠ View.last)
    (hfresh : d.scheme.payloadDigest ⟨s.committed, data⟩ ≠ s.committed) :
    d.Continues s data ((((s.accept (d.proposal s data)).follow prepared).follow locked).decide
      d.scheme decided) := by
  have hnext : View.next? s.view = some (s.view + 1) := if_neg hwaits.notLast
  have hview : s.view < s.view + 1 := View.lt_of_next? hnext
  have hprepare : prepared.phase = .prepare := congrArg Ballot.phase hprepared.ballot
  have hpreparedview : prepared.view = s.view := congrArg Ballot.view hprepared.ballot
  have hpreparedpayload : prepared.payload = ⟨s.committed, data⟩ :=
    congrArg Ballot.payload hprepared.ballot
  have hpreCommit : locked.phase = .preCommit := congrArg Ballot.phase hlocked.ballot
  have hlockedview : locked.view = s.view := congrArg Ballot.view hlocked.ballot
  have hlockedpayload : locked.payload = ⟨s.committed, data⟩ :=
    congrArg Ballot.payload hlocked.ballot
  have hdecidedpayload : decided.payload = ⟨s.committed, data⟩ :=
    congrArg Ballot.payload hdecided.ballot
  -- The certificates of the view are newer than those from before it.
  have hnewest : ReplicaState.newer s.prepared prepared = prepared :=
    ReplicaState.newer_of_le fun cert hcert =>
      hpreparedview ▸ UInt64.le_of_lt (hwaits.prepared cert hcert).2.1
  have htaken : ReplicaState.newer s.locked locked = locked :=
    ReplicaState.newer_of_le fun cert hcert =>
      hlockedview ▸ UInt64.le_of_lt (hwaits.locked cert hcert).1
  have hfollowed : ((s.accept (d.proposal s data)).follow prepared).follow locked =
      ((s.accept (d.proposal s data)).preCommit prepared).lock locked := by
    rw [ReplicaState.follow, ReplicaState.follow, if_pos hprepare, hpreCommit,
      if_neg Phase.noConfusion]
  rw [hfollowed]
  refine ⟨⟨rfl, hlast, ?_, ?_, ?_⟩, rfl, congrArg d.scheme.payloadDigest hdecidedpayload, rfl⟩
  · intro cert hcert
    obtain rfl : prepared = cert := hnewest.symm.trans (Option.some.inj hcert)
    refine ⟨hprepare, hpreparedview ▸ hview, hprepared.valid, ?_⟩
    have hparent : d.scheme.payloadDigest decided.payload ≠ prepared.payload.parent := by
      rw [hdecidedpayload, hpreparedpayload]
      exact hfresh
    exact hparent.symm
  · intro cert hcert
    obtain rfl : locked = cert := htaken.symm.trans (Option.some.inj hcert)
    have hdigest : d.scheme.payloadDigest locked.payload =
        d.scheme.payloadDigest decided.payload := by
      rw [hlockedpayload, hdecidedpayload]
    exact ⟨hlockedview ▸ hview, hdigest⟩
  · have hcount := Height.next?_of_room hwaits.notLast hwaits.room
    have hroom : (s.height + 1).toNat ≤ (s.view + 1).toNat := by
      rw [Height.toNat_of_next? hcount, View.toNat_of_next? hnext]
      exact Nat.succ_le_succ (UInt64.le_iff_toNat_le.mp hwaits.room)
    exact UInt64.le_iff_toNat_le.mpr hroom

/-- **Members that were ready are ready for the next view.** -/
theorem Continues.advances {s' : ReplicaState} {data : Bytes} (hcontinues : d.Continues s data s')
    (hheight : s.height = s.view) : d.Advances s data s' := by
  refine ⟨⟨hcontinues.waits, ?_⟩, hcontinues.view, hcontinues.committed⟩
  rw [hcontinues.height, hcontinues.view, hheight]

end Deployment

end HotStuff
