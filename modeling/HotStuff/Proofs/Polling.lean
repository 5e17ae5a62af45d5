import HotStuff.Proofs.Following
import HotStuff.Proofs.OneRound

/-!
# Leading an Undisturbed View

While nobody but the members of a deployment sends messages, and all are in the same view, its
leader gathers their announcements, proposes, and polls one ballot after the other: the votes on it
come in until a quorum is there, its certificate opens the next ballot, and the votes that come
later are not counted. The certificate of the last ballot decides the view for the leader at once.

## Main definitions

* `Round.Gathers`: the announcements that are in.
* `Round.Polls`: the votes on the ballot that is polled.

## Main results

* `Deployment.gives_entry`: an announcement is recorded.
* `Deployment.slot?_of_gathers`: the leader may propose when all are there.
* `Deployment.gives_pending`, `Deployment.gives_certified`, `Deployment.gives_decided`,
  `Deployment.gives_late`: what the leader makes of a vote.
-/

namespace HotStuff

/-! ### Votes on a ballot -/

/-- **A ballot is polled**: some members have voted on it, the ballots before it in its view are
certified, and those after it are not opened. -/
structure Round.Polls (ctx : Context) (b : Ballot) (voters : List MemberId) (r : Round) : Prop where
  current : ∃ votes, r.tallies.get? b.phase = some ⟨b, votes, none⟩ ∧ votes.keys = voters ∧
    Tally.Sound ctx Evidence.none.voted ⟨b, votes, none⟩
  earlier : ∀ phase, phase.Voted → phase.rank < b.phase.rank →
    ∃ t, r.tallies.get? phase = some t ∧ t.certificate.isSome
  later : ∀ phase, b.phase.rank < phase.rank → r.tallies.get? phase = none

namespace Round.Polls

variable {ctx : Context} {b : Ballot} {voters : List MemberId} {r : Round} {vote : Vote}

/-- The first ballot of a view is opened before all others. -/
theorem first (ctx : Context) (view : View) (payload : Payload)
    (newViews : Table MemberId Certificate) :
    ∃ r' : Round, r'.Polls ctx ⟨.prepare, view, payload⟩ [] ∧
      (Collector.only view ⟨∅, newViews⟩).openBallot ⟨.prepare, view, payload⟩ =
        .ok (.only view r') := by
  refine ⟨_, ⟨⟨∅, ?_, rfl, ?_⟩, ?_, ?_⟩, Collector.openBallot_only rfl⟩
  · rw [Table.get?_insert, if_pos rfl]
  · exact ⟨Or.inl rfl, fun _ _ h => by cases h⟩
  · intro phase hvoted hbefore
    exact absurd hvoted.rank_pos (Nat.not_lt.mpr (Nat.le_of_lt_succ hbefore))
  · intro phase hafter
    have hne : phase ≠ .prepare := ne_of_apply_ne Phase.rank (Nat.ne_of_gt hafter)
    rw [Table.get?_insert, if_neg hne]
    rfl

/-- A valid vote of a member goes well with those that are in. -/
theorem sound_insert {votes : Table MemberId Seal}
    (hsound : Tally.Sound ctx Evidence.none.voted ⟨b, votes, none⟩)
    (hmember : vote.stamp.signer ∈ ctx.committee.members) (hvalid : ctx.scheme.voteValid vote)
    (hballot : vote.ballot = b) :
    Tally.Sound ctx Evidence.none.voted ⟨b, votes.insert vote.stamp.signer vote.stamp, none⟩ := by
  subst hballot
  refine ⟨hsound.voted, fun m s hs => ?_⟩
  rw [Table.get?_insert] at hs
  split at hs
  · next hm =>
      obtain rfl := Option.some.inj hs
      exact ⟨hm.symm, hm ▸ hmember, hvalid, trivial⟩
  · exact hsound.votes m s hs

variable (hpolls : r.Polls ctx b voters)
  (hmember : vote.stamp.signer ∈ ctx.committee.members) (hvalid : ctx.scheme.voteValid vote)

include hpolls hmember hvalid

/-- **A vote before the quorum.** -/
theorem pending (hballot : vote.ballot = b) (hnew : vote.stamp.signer ∉ voters)
    (hfew : voters.length + 1 < ctx.committee.quorum) :
    ∃ r' : Round, r'.Polls ctx b (voters ++ [vote.stamp.signer]) ∧
      (Collector.only b.view r).addVote ctx.scheme ctx.committee vote =
        .ok (.pending (voters.length + 1) ctx.committee.quorum, .only b.view r') := by
  obtain ⟨votes, hopen, hkeys, hsound⟩ := hpolls.current
  have hsize : votes.size = voters.length := hkeys ▸ votes.length_keys.symm
  have hcounted := sound_insert hsound hmember hvalid hballot
  subst hballot hkeys
  have hadd : (Collector.only vote.ballot.view r).addVote ctx.scheme ctx.committee vote = _ :=
    Collector.addVote_pending hmember hvalid rfl hopen hnew (hsize.symm ▸ hfew)
  rw [hsize] at hadd
  refine ⟨_, ⟨⟨_, ?_, Table.keys_insert_of_not_mem hnew _, hcounted⟩, ?_, ?_⟩, hadd⟩
  · rw [Table.get?_insert, if_pos rfl]
  · intro phase hvoted hbefore
    have hne : phase ≠ vote.ballot.phase := ne_of_apply_ne Phase.rank (Nat.ne_of_lt hbefore)
    rw [Table.get?_insert, if_neg hne]
    exact hpolls.earlier phase hvoted hbefore
  · intro phase hafter
    have hne : phase ≠ vote.ballot.phase := ne_of_apply_ne Phase.rank (Nat.ne_of_gt hafter)
    rw [Table.get?_insert, if_neg hne]
    exact hpolls.later phase hafter

/-- **The vote that completes the quorum** makes a certificate for the ballot. -/
theorem certified (hballot : vote.ballot = b) (hnew : vote.stamp.signer ∉ voters)
    (hquorum : ctx.committee.quorum ≤ voters.length + 1) :
    ∃ cert counted, cert.ballot = b ∧ ctx.verify cert = .ok () ∧
      (Collector.only b.view r).addVote ctx.scheme ctx.committee vote =
        .ok (.certified cert, .only b.view
          ⟨r.tallies.insert b.phase ⟨b, counted, some cert⟩, r.newViews⟩) := by
  obtain ⟨votes, hopen, hkeys, hsound⟩ := hpolls.current
  have hsize : votes.size = voters.length := hkeys ▸ votes.length_keys.symm
  have hcounted := sound_insert hsound hmember hvalid hballot
  subst hballot hkeys
  have hnot : ¬ votes.contains vote.stamp.signer := fun h => hnew ((Table.contains_iff _ _).mp h)
  have hmany : ctx.committee.quorum ≤ (votes.insert vote.stamp.signer vote.stamp).size := by
    rw [Table.size_insert_of_not_contains hnot, hsize]
    exact hquorum
  have htrusted := Collector.trusted_toCertificate hcounted hmany
  exact ⟨_, _, rfl, htrusted.valid,
    Collector.addVote_certified hmember hvalid rfl hopen hnew (hsize.symm ▸ hquorum)⟩

/-- **A vote that comes late** is not counted. -/
theorem late (hview : vote.ballot.view = b.view) (hvoted : vote.ballot.phase.Voted)
    (hbefore : vote.ballot.phase.rank < b.phase.rank) :
    (Collector.only b.view r).addVote ctx.scheme ctx.committee vote =
      .ok (.alreadyCertified, .only b.view r) := by
  obtain ⟨t, ht, hclosed⟩ := hpolls.earlier _ hvoted hbefore
  exact Collector.addVote_late hmember hvalid hview ht hclosed

omit hmember hvalid

/-- The certificate of a ballot opens the next one. -/
theorem next {next : Phase} (hnext : b.phase.successor = some next) (cert : Certificate)
    (counted : Table MemberId Seal) (hlater : next = .preCommit ∨ next = .commit) :
    ∃ r' : Round, r'.Polls ctx ⟨next, b.view, b.payload⟩ [] ∧
      (Collector.only b.view ⟨r.tallies.insert b.phase ⟨b, counted, some cert⟩,
        r.newViews⟩).openBallot ⟨next, b.view, b.payload⟩ = .ok (.only b.view r') := by
  have hrank : next.rank = b.phase.rank + 1 := Phase.rank_of_successor hnext
  have hvoted : next.Voted := Or.inr hlater
  have hne : next ≠ b.phase := ne_of_apply_ne Phase.rank (by omega)
  have hnone : (r.tallies.insert b.phase ⟨b, counted, some cert⟩).get? next = none := by
    rw [Table.get?_insert, if_neg hne]
    exact hpolls.later next (by omega)
  refine ⟨_, ⟨⟨∅, ?_, rfl, ⟨hvoted, fun _ _ h => by cases h⟩⟩, ?_, ?_⟩,
    Collector.openBallot_only hnone⟩
  · rw [Table.get?_insert, if_pos rfl]
  · intro phase hphase hbefore
    have hbefore : phase.rank < next.rank := hbefore
    have hother : phase ≠ next := ne_of_apply_ne Phase.rank (Nat.ne_of_lt hbefore)
    rw [Table.get?_insert, if_neg hother, Table.get?_insert]
    split
    · exact ⟨_, rfl, rfl⟩
    · next hnot =>
        have hdiffers : phase.rank ≠ b.phase.rank := fun h => hnot (Phase.rank_injective h)
        exact hpolls.earlier phase hphase (by omega)
  · intro phase hafter
    have hafter : next.rank < phase.rank := hafter
    have hother : phase ≠ next := ne_of_apply_ne Phase.rank (Nat.ne_of_gt hafter)
    have hcurrent : phase ≠ b.phase := ne_of_apply_ne Phase.rank (by omega)
    rw [Table.get?_insert, if_neg hother, Table.get?_insert, if_neg hcurrent]
    exact hpolls.later phase (by omega)

end Round.Polls

/-! ### Announcements -/

/-- **Announcements are gathered**: some members have entered the view, all with one certificate,
and no ballot is opened. -/
structure Round.Gathers (justify : Certificate) (members : List MemberId) (r : Round) : Prop where
  unopened : r.tallies = ∅
  entered : r.newViews.keys = members
  same : ∀ m cert, r.newViews.get? m = some cert → cert = justify

namespace Round.Gathers

variable {justify : Certificate} {members : List MemberId} {r : Round} {m : MemberId}

/-- The first member that enters the view. -/
theorem first (m : MemberId) (justify : Certificate) :
    Gathers justify [m] (.enteredBy m justify) := by
  refine ⟨rfl, rfl, fun m' cert hcert => ?_⟩
  rw [Round.enteredBy, Table.get?_insert] at hcert
  split at hcert
  · exact (Option.some.inj hcert).symm
  · cases hcert

/-- Another member that enters the view. -/
theorem enter (hgathers : r.Gathers justify members) (hnew : m ∉ members) :
    Gathers justify (members ++ [m]) ⟨∅, r.newViews.insert m justify⟩ := by
  have hkeys := Table.keys_insert_of_not_mem (hgathers.entered.symm ▸ hnew) justify
  refine ⟨rfl, hkeys.trans (congrArg (· ++ [m]) hgathers.entered), fun m' cert hcert => ?_⟩
  rw [Table.get?_insert] at hcert
  split at hcert
  · exact (Option.some.inj hcert).symm
  · exact hgathers.same m' cert hcert

end Round.Gathers

namespace Deployment

variable {d : Deployment} {s : ReplicaState} {c : Collector} {L m : d.Correct} {b : Ballot}
  {voters : List MemberId} {r : Round} {σ : Type} [StateStore σ] {t : Instant}

/-- A correct member leads the views that the committee has it lead. -/
theorem leads_of_leader {view : View} (hleader : d.committee.leader view = L.1) :
    (d.context L).leads view :=
  decide_eq_true (hleader.trans (d.context_me L).symm)

/-- Who does not lead a view may not propose in it. -/
theorem slot?_eq_none (hother : d.committee.leader s.view ≠ m.1) :
    Leader.slot? (d.context m) c s = none := by
  have hleads : (d.context m).leads s.view = false := by
    refine decide_eq_false fun h => hother ?_
    rw [← d.context_me m]
    exact h
  rw [Leader.slot?, hleads]
  rfl

/-- **An announcement passes the checks** of the leader: of a view that it has not left and that is
not too far ahead, with the genesis certificate or a valid one of an earlier view. -/
theorem checkNewView_sign (hseals : d.SealsVerify) {st : Statement} {here : View}
    (hphase : st.phase = .newView) (hleader : d.committee.leader st.view = L.1)
    (hhere : here ≤ st.view) (hjustify : st.justify = d.scheme.genesis ∨
      st.justify.phase = .prepare ∧ st.justify.view < st.view ∧
        d.committee.verify d.scheme st.justify = .ok ())
    (hlast : st.view ≠ View.last)
    (hnear : st.view.toNat - max here.toNat st.justify.view.toNat ≤ maxViewJump.toNat) :
    Leader.checkNewView (d.context L) here ((d.context m).sign st) = .ok () := by
  have hsigned : (d.context L).verifySigned ((d.context m).sign st) = .ok () :=
    hseals.verifySigned L m st
  have hmine : ¬ (!(d.context L).leads st.view) := by simp [leads_of_leader hleader]
  have hchecked : Leader.checkJustify (d.context L) st = .ok () :=
    Leader.checkJustify_of_older hjustify
  have hbound : checkViewBound st.view here st.justify.view = .ok () :=
    checkViewBound_of_near hlast hnear
  simp only [Leader.checkNewView, guard_throw_eq_ok, bind_eq_ok]
  exact ⟨not_not.mpr hphase, ⟨⟩, hsigned, hmine, UInt64.not_lt.mpr hhere, ⟨⟩, hchecked, hbound⟩

/-- An announcement that the collector takes is recorded, and nothing else comes of it. -/
theorem gives_entry (hseals : d.SealsVerify) (hwaits : d.Waits s)
    (hleader : d.committee.leader s.view = L.1) {count : Nat} {c' : Collector}
    (hadd : c.addNewView d.committee s.view m.1 (s.highCertificate d.scheme) = .ok (count, c')) :
    Core.Gives σ (d.context L) t s c (d.entry m s) [] s c' := by
  refine Core.gives_of_consider fun core his => ?_
  let justify := s.highCertificate d.scheme
  let msg := (d.context m).sign ⟨s.view, .newView, justify.payload, justify⟩
  have hnear : s.view.toNat - max s.view.toNat justify.view.toNat ≤ maxViewJump.toNat := by omega
  have hcheck : Leader.checkNewView (d.context L) s.view msg = .ok () :=
    checkNewView_sign hseals rfl hleader (UInt64.le_refl _) hwaits.high_cases hwaits.notLast hnear
  have hsigner : msg.signer = m.1 := d.keypair_member m
  have hentered : ∃ noted : Entry, noted.view = s.view ∧
      Leader.onNewView (d.context L) core.votes s.view msg = .ok (noted, c') := by
    rw [← his.votes, ← hsigner] at hadd
    exact ⟨_, rfl, bind_eq_ok.mpr ⟨⟨⟩, hcheck, bind_eq_ok.mpr ⟨_, hadd, rfl⟩⟩⟩
  obtain ⟨noted, hview, hentered⟩ := hentered
  have hnone : ¬ (noted.quorumReached && decide (s.view < noted.view)) = true := by
    rw [hview]
    simp [UInt64.lt_irrefl]
  have hrecorded : core.onNewView (d.context L) msg = .ok ({ core with votes := c' }, []) := by
    rw [Core.onNewView, his.state, hentered]
    exact if_neg hnone
  have hcheck : Core.checkEnvelope .newView msg = .ok () := if_pos rfl
  refine ⟨{ core with votes := c' }, ?_, his.state, rfl⟩
  rw [show d.entry m s = .statement .newView msg from rfl]
  simp only [Core.consider, hcheck, hrecorded]

/-- **The slot of an undisturbed view**: when all members are in it, the leader may propose fresh
data on the certificate that they brought. -/
theorem slot?_of_gathers (hwaits : d.Waits s) (hleader : d.committee.leader s.view = L.1)
    {members : List MemberId} (hgathers : r.Gathers (s.highCertificate d.scheme) members)
    (hall : ∀ m ∈ d.committee.members, m ∈ members) :
    Leader.slot? (d.context L) (.only s.view r) s =
      some ⟨s.view, s.highCertificate d.scheme, none⟩ := by
  obtain ⟨tallies, newViews⟩ := r
  have hleads : (d.context L).leads s.view := leads_of_leader hleader
  have hkeys : ∀ m ∈ d.committee.members, m ∈ newViews.keys := by
    intro m hm
    exact hgathers.entered.symm ▸ hall m hm
  have hcount : ¬ (Collector.only s.view ⟨tallies, newViews⟩).newViewCount s.view <
      d.committee.quorum := by
    have hsize := (List.subperm_of_subset d.committee.nodup hkeys).length_le
    rw [Table.length_keys] at hsize
    have hquorum := d.committee.quorum_le
    rw [Collector.newViewCount, Collector.round_only]
    simp only
    omega
  have hhigh : (Collector.only s.view ⟨tallies, newViews⟩).highCertificate d.committee s.view =
      some (s.highCertificate d.scheme) :=
    Collector.highCertificate_only L.2.1 (hkeys _ L.2.1) hgathers.same
  rw [Leader.slot?_of_highCertificate hleads hwaits.phase hcount hhigh, hwaits.pending?_eq_none]

/-! ### Votes that reach the leader -/

section Votes

variable (hseals : d.SealsVerify) (hleader : d.committee.leader b.view = L.1)

/-- A vote of a member is counted as one. -/
theorem signer_castVote : ((d.context m).castVote b).stamp.signer = m.1 := d.keypair_member m

include hleader

/-- **A vote on a view that is over** is refused. -/
theorem gives_over (hover : s.view ≠ b.view) :
    Core.Gives σ (d.context L) t s c (d.ballotBy m b) [] s c := by
  refine Core.gives_of_refused fun core his => ⟨.viewMismatch b.view s.view, ?_⟩
  have hmine : ¬ (!(d.context L).leads b.view) = true := by simp [leads_of_leader hleader]
  have hvote : Leader.onVote (d.context L) core.votes s.view ((d.context m).castVote b) =
      (.error (.viewMismatch b.view s.view), core.votes) := by
    rw [Leader.onVote]
    exact (if_neg hmine).trans (if_pos hover.symm)
  rw [show d.ballotBy m b = .vote ((d.context m).castVote b) from rfl, Core.consider, Core.onVote,
    his.state, hvote]

/-- A vote on the current view is counted. -/
theorem onVote_of_addVote (hview : s.view = b.view) {outcome : VoteOutcome} {c' : Collector}
    (hadd : c.addVote d.scheme d.committee ((d.context m).castVote b) = .ok (outcome, c')) :
    Leader.onVote (d.context L) c s.view ((d.context m).castVote b) =
      match outcome with
      | .certified cert =>
        match Leader.follow (d.context L) c' cert with
        | .error cause => (.error cause, c')
        | .ok (said, opened) => (.ok said, opened)
      | _ => (.ok none, c') := by
  have hmine : ¬ (!(d.context L).leads b.view) = true := by simp [leads_of_leader hleader]
  have hhere : ¬ b.view ≠ s.view := not_not.mpr hview.symm
  have hadd : c.addVote (d.context L).scheme (d.context L).committee ((d.context m).castVote b) =
      .ok (outcome, c') := hadd
  rw [Leader.onVote]
  refine (if_neg hmine).trans ((if_neg hhere).trans ?_)
  rw [hadd]
  cases outcome with
  | certified cert => rfl
  | pending | alreadyCertified => rfl

/-- A vote that completes nothing has no other effect. -/
theorem gives_of_addVote (hview : s.view = b.view) {outcome : VoteOutcome} {c' : Collector}
    (hadd : c.addVote d.scheme d.committee ((d.context m).castVote b) = .ok (outcome, c'))
    (hnone : ∀ cert, outcome ≠ .certified cert) :
    Core.Gives σ (d.context L) t s c (d.ballotBy m b) [] s c' := by
  refine Core.gives_of_consider fun core his => ⟨{ core with votes := c' }, ?_, his.state, rfl⟩
  have hvote := onVote_of_addVote hleader hview hadd
  rw [show d.ballotBy m b = .vote ((d.context m).castVote b) from rfl, Core.consider, Core.onVote,
    his.state, his.votes, hvote]
  cases outcome with
  | certified cert => exact absurd rfl (hnone cert)
  | pending | alreadyCertified => rfl

omit hleader in
/-- A certificate that a vote completes is announced and applied. -/
theorem gives_of_announced {vote : Vote} {st : Statement} {actions : List Action}
    {s' : ReplicaState} {c' : Collector}
    (hvote : Leader.onVote (d.context L) c s.view vote =
      (.ok (some ((d.context L).sign st)), c'))
    (happly : ∀ r : Replica σ, r.state = s → ∃ r', r'.state = s' ∧
      r.applyPhase (d.context L) st = .ok (r', actions)) :
    Core.Gives σ (d.context L) t s c (.vote vote) (d.announcing L st ++ actions) s' c' := by
  refine Core.gives_of_consider fun core his => ?_
  obtain ⟨r', hstate, happly⟩ := happly core.replica his.state
  refine ⟨{ core with votes := c', replica := r' }, ?_, hstate, rfl⟩
  have happly : core.replica.applyPhase (d.context L) ((d.context L).sign st).body =
      .ok (r', actions) := happly
  rw [Core.consider, Core.onVote, his.state, his.votes, hvote]
  simp only [happly]
  rfl

include hseals

omit [StateStore σ] hleader in
/-- The vote of a member is a valid one of a member. -/
theorem castVote_valid (m L : d.Correct) (b : Ballot) :
    ((d.context m).castVote b).stamp.signer ∈ (d.context L).committee.members ∧
      (d.context L).scheme.voteValid ((d.context m).castVote b) :=
  ⟨(d.context m).me_mem, hseals.sealedOver m b.encode⟩

/-- **A vote before the quorum** is counted. -/
theorem gives_pending (hview : s.view = b.view) (hpolls : r.Polls (d.context L) b voters)
    (hnew : m.1 ∉ voters) (hfew : voters.length + 1 < d.committee.quorum) :
    ∃ r' : Round, r'.Polls (d.context L) b (voters ++ [m.1]) ∧
      Core.Gives σ (d.context L) t s (.only b.view r) (d.ballotBy m b) [] s
        (.only b.view r') := by
  obtain ⟨hmember, hvalid⟩ := castVote_valid hseals m L b
  have hsigner : ((d.context m).castVote b).stamp.signer = m.1 := signer_castVote
  obtain ⟨r', hpolls', hadd⟩ := hpolls.pending hmember hvalid rfl (hsigner.symm ▸ hnew) hfew
  exact ⟨r', hsigner ▸ hpolls',
    gives_of_addVote hleader hview hadd fun _ => VoteOutcome.noConfusion⟩

/-- **A vote that comes late** has no effect. -/
theorem gives_late {phase : Phase} (hview : s.view = b.view)
    (hpolls : r.Polls (d.context L) b voters) (hvoted : phase.Voted)
    (hbefore : phase.rank < b.phase.rank) :
    Core.Gives σ (d.context L) t s (.only b.view r) (d.ballotBy m ⟨phase, b.view, b.payload⟩) []
      s (.only b.view r) := by
  obtain ⟨hmember, hvalid⟩ := castVote_valid hseals m L ⟨phase, b.view, b.payload⟩
  have hadd := hpolls.late hmember hvalid rfl hvoted hbefore
  exact gives_of_addVote (b := ⟨phase, b.view, b.payload⟩) hleader hview hadd
    fun _ => VoteOutcome.noConfusion

variable (hvotes : s.Votes b) (hpolls : r.Polls (d.context L) b voters) (hnew : m.1 ∉ voters)
  (hquorum : d.committee.quorum ≤ voters.length + 1)

include hvotes hpolls hnew hquorum

/-- **The vote that completes a quorum** before the last one: the leader announces the certificate,
and votes on the next ballot itself. -/
theorem gives_certified {next : Phase} (hnext : b.phase.successor = some next)
    (hlater : next = .preCommit ∨ next = .commit) :
    ∃ (cert : Certificate) (r' : Round), d.Attests cert b ∧
      r'.Polls (d.context L) ⟨next, b.view, b.payload⟩ [] ∧
      Core.Gives σ (d.context L) t s (.only b.view r) (d.ballotBy m b)
        (d.announcing L (cert.statement next) ++ d.voting L ⟨next, b.view, b.payload⟩)
        (s.follow cert) (.only b.view r') := by
  obtain ⟨hmember, hvalid⟩ := castVote_valid hseals m L b
  have hsigner : ((d.context m).castVote b).stamp.signer = m.1 := signer_castVote
  obtain ⟨cert, counted, rfl, hcertvalid, hadd⟩ :=
    hpolls.certified hmember hvalid rfl (hsigner.symm ▸ hnew) hquorum
  have hattests : d.Attests cert cert.ballot := ⟨rfl, hcertvalid⟩
  obtain ⟨r', hpolls', hopen⟩ := hpolls.next hnext cert counted hlater
  refine ⟨cert, r', hattests, hpolls', ?_⟩
  have hvote := onVote_of_addVote hleader hvotes.view hadd
  have hundecided : next ≠ .decide := by
    rintro rfl
    rcases hlater with h | h
    · cases h
    · cases h
  have hfollow : Leader.follow (d.context L) (.only cert.ballot.view
      ⟨r.tallies.insert cert.ballot.phase ⟨cert.ballot, counted, some cert⟩, r.newViews⟩) cert =
      .ok (some ((d.context L).sign (cert.statement next)), .only cert.ballot.view r') := by
    rw [Leader.follow, show cert.phase.successor = some next from hnext]
    simp only [if_neg hundecided]
    exact bind_eq_ok.mpr ⟨_, hopen, rfl⟩
  simp only [hfollow] at hvote
  exact gives_of_announced hvote fun _ hr => applyPhase_vote hvotes hattests hnext hlater hr

/-- **The vote that completes the last quorum**: the leader announces the certificate and
decides. -/
theorem gives_decided (hcommit : b.phase = .commit) (hlast : s.view ≠ View.last)
    (hroom : s.height ≤ s.view) :
    ∃ (cert : Certificate) (r' : Round), d.Attests cert b ∧
      Core.Gives σ (d.context L) t s (.only b.view r) (d.ballotBy m b)
        (d.announcing L (cert.statement .decide) ++
          (d.executing cert (s.decide d.scheme cert) ++ d.entering L (s.decide d.scheme cert)))
        (s.decide d.scheme cert) (.only b.view r') := by
  obtain ⟨hmember, hvalid⟩ := castVote_valid hseals m L b
  have hsigner : ((d.context m).castVote b).stamp.signer = m.1 := signer_castVote
  obtain ⟨cert, counted, rfl, hcertvalid, hadd⟩ :=
    hpolls.certified hmember hvalid rfl (hsigner.symm ▸ hnew) hquorum
  have hattests : d.Attests cert cert.ballot := ⟨rfl, hcertvalid⟩
  let closed : Round :=
    ⟨r.tallies.insert cert.ballot.phase ⟨cert.ballot, counted, some cert⟩, r.newViews⟩
  refine ⟨cert, closed, hattests, ?_⟩
  have hvote := onVote_of_addVote hleader hvotes.view hadd
  have hfollow (votes : Collector) : Leader.follow (d.context L) votes cert =
      .ok (some ((d.context L).sign (cert.statement .decide)), votes) := by
    rw [Leader.follow, show cert.phase = .commit from hcommit]
    rfl
  simp only [hfollow] at hvote
  exact gives_of_announced hvote fun _ hr =>
    applyPhase_decide hvotes hattests hcommit hlast hroom hr

end Votes

end Deployment

end HotStuff
