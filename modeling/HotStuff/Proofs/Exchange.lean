import HotStuff.Proofs.Leading
import HotStuff.Proofs.Progress
import HotStuff.Proofs.Repetition
import HotStuff.Proofs.Standing
import HotStuff.Proofs.Stating

/-!
# Messages between Correct Members

What a correct member sends, another one accepts: the sender builds what the receiver demands. The
two check different things. A leader goes by its collector, where the ballot of the phase before
had to be certified for it to go on; a follower goes by the view, the phase and the proposal of its
replica. A certificate is handed on with an announcement only from an earlier view, since the
replica takes up certificates of its own view in later phases than the first.

An announcement that is repeated later in a view may bring a certificate of that view, and is not
accepted then; so only those made on entering a view are promised here.

## Main definitions

* `Handed`: a member was handed a vote of another one on a ballot.
* `Core.Obeys`, `Core.Takes`, `Core.Admits`: what the receivers do.
* `World.Accepts`: a member accepts what another one says, and the other way round.

## Main results

* `Turn.countsOnly_of_kind`, `Run.countsOnly`: a leader counts only votes that it was handed.
* `Deployment.obeys_of_votes`: a certificate is followed by whoever has voted in the phase before.
* `correct_members_accept_each_other`: all of that in every world that can come about.
-/

namespace HotStuff

/-! ### Votes that were handed in -/

/-- **A member was handed a vote** of another one on a ballot. -/
def Handed {σ : Type} (h : List (Turn σ)) (b : Ballot) (m : MemberId) : Prop :=
  ∃ t ∈ h, ∃ vote, t.input = .message (.vote vote) ∧ vote.ballot = b ∧ vote.stamp.signer = m

/-- A vote that was handed in stays so in a longer history. -/
theorem Handed.append {σ : Type} {h : List (Turn σ)} {b : Ballot} {m : MemberId}
    (hhanded : Handed h b m) (h' : List (Turn σ)) : Handed (h ++ h') b m := by
  obtain ⟨t, ht, hvote⟩ := hhanded
  exact ⟨t, List.mem_append_left _ ht, hvote⟩

namespace Collector

variable {handed handed' : Ballot → MemberId → Prop} {c c' : Collector} {ctx : Context}
  {vote : Vote} {outcome : VoteOutcome}

/-- **Only votes that were handed in are counted.** -/
def CountsOnly (handed : Ballot → MemberId → Prop) (c : Collector) : Prop :=
  ∀ view phase t, c.tally? view phase = some t → ∀ m, t.votes.contains m → handed t.target m

namespace CountsOnly

/-- Nothing is counted at the beginning. -/
theorem empty : Collector.empty.CountsOnly handed := by
  rintro _ _ _ ⟨⟩

/-- What counts only some votes counts only more of them. -/
theorem mono (h : c.CountsOnly handed) (hmono : ∀ b m, handed b m → handed' b m) :
    c.CountsOnly handed' :=
  fun view phase t ht m hm => hmono _ _ (h view phase t ht m hm)

/-- Only the ballots of a collector matter. -/
theorem congr (h : c.CountsOnly handed)
    (hsame : ∀ view phase, c'.tally? view phase = c.tally? view phase) : c'.CountsOnly handed :=
  fun view phase t ht => h view phase t ((hsame view phase).symm.trans ht)

/-- A tally can be put in if its votes were handed in. -/
theorem putTally (h : c.CountsOnly handed) {t : Tally}
    (ht : ∀ m, t.votes.contains m → handed t.target m) : (c.putTally t).CountsOnly handed := by
  intro view phase t' ht'
  rw [tally?_putTally] at ht'
  split at ht'
  · obtain rfl := Option.some.inj ht'
    exact ht
  · exact h view phase t' ht'

/-- A ballot is opened without votes, so none is counted that was not handed in. -/
theorem openBallot (h : c.CountsOnly handed) {target : Ballot}
    (hok : c.openBallot target = .ok c') : c'.CountsOnly handed := by
  rcases openBallot_ok hok with ⟨-, rfl⟩ | ⟨-, rfl⟩
  · exact h
  · exact h.putTally fun _ hm => by cases hm

/-- A vote is counted when it is handed in. -/
theorem addVote (h : c.CountsOnly handed)
    (hok : c.addVote ctx.scheme ctx.committee vote = .ok (outcome, c'))
    (hvote : handed vote.ballot vote.stamp.signer) : c'.CountsOnly handed := by
  rcases addVote_ok hok with ⟨-, rfl⟩ |
    ⟨t, ht, -, htarget, -, -, counted, rfl, hsame, hvotes, -⟩
  · exact h
  · refine h.putTally fun m hm => ?_
    rw [hsame]
    rw [hvotes, Table.contains, Table.get?_insert] at hm
    split at hm
    · next heq =>
        rw [heq, htarget]
        exact hvote
    · exact h _ _ t ht m hm

/-- Forgetting views that are over counts no vote. -/
theorem pruneBelow (h : c.CountsOnly handed) (here : View) :
    (c.pruneBelow here).CountsOnly handed := by
  intro view phase t ht
  rw [tally?_pruneBelow] at ht
  split at ht
  · exact h view phase t ht
  · cases ht

end CountsOnly

/-- Where its ballot is open, the valid vote of a member is counted, or comes too late, or was
counted before. -/
theorem exists_addVote {scheme : Scheme} {committee : Committee} {t : Tally}
    (hmember : vote.stamp.signer ∈ committee.members) (hvalid : scheme.voteValid vote)
    (ht : c.tally? vote.ballot.view vote.ballot.phase = some t) (htarget : t.target = vote.ballot) :
    (∃ outcome c', c.addVote scheme committee vote = .ok (outcome, c')) ∨
      t.votes.contains vote.stamp.signer := by
  have hsealed : ¬ (!scheme.voteValid vote) = true := by simp [hvalid]
  simp only [Collector.addVote, if_neg (not_not.mpr hmember), if_neg hsealed, ht,
    if_neg (not_not.mpr htarget)]
  split
  · exact Or.inl ⟨_, _, rfl⟩
  split
  · next hcounted => exact Or.inr hcounted
  split
  · exact Or.inl ⟨_, _, rfl⟩
  · exact Or.inl ⟨_, _, rfl⟩

end Collector

section Runs

variable {σ : Type} [StateStore σ] {ctx : Context} {h : List (Turn σ)} {t : Turn σ}

/-- **A turn counts no vote but the one in it.** -/
theorem Turn.countsOnly_of_kind (hkind : t.Kind ctx)
    (hcounts : t.before.votes.CountsOnly (Handed h)) :
    t.after.votes.CountsOnly (Handed (h ++ [t])) := by
  refine Turn.votes_of_kind (P := Collector.CountsOnly (Handed (h ++ [t]))) ?_ ?_ ?_ hkind
    (hcounts.mono fun b m hhanded => hhanded.append [t])
  · intro c c' view m justify count hadd hcounts
    exact hcounts.congr (Collector.tally?_addNewView hadd)
  · intro c c' vote outcome hinput hadd hcounts
    exact hcounts.addVote hadd ⟨t, by simp, vote, hinput, rfl, rfl⟩
  · intro c c' target hopen hcounts
    exact hcounts.openBallot hopen

/-- **A leader counts only votes that it was handed.** -/
theorem Run.countsOnly [LawfulStore σ] {admits : List (Turn σ) → Input → Prop} {store : σ}
    {first core : Core σ} (hcreate : Core.create ctx store = .ok first)
    (hrun : Run ctx admits first h core) : core.votes.CountsOnly (Handed h) := by
  refine (Run.kept_induction hcreate hrun
    (P := fun h core => core.votes.CountsOnly (Handed h)) ?_ ?_ ?_ ?_).2
  · rw [(Core.create_ok hcreate).2]
    exact .empty
  · exact fun h t hcounts _ hkind => Turn.countsOnly_of_kind hkind hcounts
  · rintro h core core' hcounts ⟨status, metrics, rfl⟩
    exact hcounts.pruneBelow _
  · intro h core core' view _ _ _ hvotes
    rw [hvotes]
    exact .empty

end Runs

/-! ### What the receivers do -/

namespace Core

variable {σ : Type} [StateStore σ] (ctx : Context) (core : Core σ)

/-- **A statement of the leader is obeyed**: what goes out is the vote in its phase, to the leader,
or first of all the execution of the payload that was decided. -/
structure Obeys (leader : MemberId) (phase : Phase) (signed : SignedStatement) : Prop where
  votes : phase ≠ .decide → ∀ now, ∃ core',
    core.handle ctx now (.statement phase signed) =
      .ok (core', [.send leader (.vote (ctx.castVote signed.body.ballot)), Replica.rearm ctx])
  executes : phase = .decide → ∀ height, Height.next? core.replica.state.height = some height →
    ∀ now, ∃ core' rest, core.handle ctx now (.statement phase signed) =
      .ok (core', .execute signed.body.view height signed.body.payload :: rest)
  /-- There is no answer where the height would leave 64 bits. -/
  overflows : phase = .decide → Height.next? core.replica.state.height = none →
    ∀ now, core.handle ctx now (.statement phase signed) = .error .add

/-- **A vote is taken**: it is not refused, and is counted then or comes after the certificate.
There is no answer only where it completes the last certificate and the height would leave 64
bits. -/
def Takes (vote : Vote) : Prop :=
  (∃ actions mid, core.consider ctx (.vote vote) = .ok (.ok actions, mid) ∧
      mid.votes.HasVote vote) ∨
    (∃ o, core.consider ctx (.vote vote) = .error o) ∧
      Height.next? core.replica.state.height = none

/-- **A message is admitted**: it is not refused. -/
def Admits (message : Message) : Prop :=
  ∃ actions mid, core.consider ctx message = .ok (.ok actions, mid)

variable {ctx core} {now : Instant} {message : Message}

/-- The first action of an answer goes out first, if it is not for the member itself. -/
theorem exists_handle_cons {action : Action} {actions : List Action} {mid : Core σ}
    (hconsider : core.consider ctx message = .ok (.ok (action :: actions), mid))
    (hroom : mid.replica.HasRoom) (hown : OwnIn ctx (action :: actions))
    (haction : ∀ message, action ≠ .send ctx.me message) :
    ∃ core' rest, core.handle ctx now message = .ok (core', action :: rest) := by
  obtain ⟨heard, hdispatch, hreplica⟩ : ∃ heard,
      core.dispatch ctx now message = .ok (heard, action :: actions) ∧
        heard.replica = mid.replica := by
    rw [dispatch, hconsider]
    exact ⟨_, rfl, rfl⟩
  obtain ⟨⟨settled, out⟩, hsettle⟩ : ∃ result,
      heard.settle ctx now maxDeliveries (action :: actions) = .ok result :=
    exists_settle (hreplica ▸ hroom) hown maxDeliveries
  obtain ⟨rest, hout⟩ := settle_cons haction hsettle
  obtain rfl : out = action :: rest := hout
  exact ⟨_, rest, bind_eq_ok.mpr ⟨_, hdispatch, bind_eq_ok.mpr ⟨_, hsettle, rfl⟩⟩⟩

/-- A vote that the leader counts is taken. -/
theorem takes_of_onVote {vote : Vote} {said : Option SignedStatement} {votes : Collector}
    (hcount : Leader.onVote ctx core.votes core.replica.state.view vote = (.ok said, votes)) :
    core.Takes ctx vote := by
  have hin : votes.HasVote vote := Leader.hasVote_of_onVote hcount
  simp only [Takes, consider, onVote, hcount]
  cases said with
  | none => exact Or.inl ⟨[], { core with votes }, rfl, hin⟩
  | some next =>
  simp only
  cases happly : core.replica.applyPhase ctx next.body with
  | ok answer => exact Or.inl ⟨_, { core with replica := answer.1, votes }, rfl, hin⟩
  | error failure =>
  cases failure with
  | refused cause => exact Or.inl ⟨_, { core with votes }, rfl, hin⟩
  | overflow o =>
      refine Or.inr ⟨⟨o, rfl⟩, ?_⟩
      by_contra hheight
      rcases Replica.applyPhase_hasRoom ctx (Or.inl hheight) next.body with
        ⟨cause, hrefused⟩ | ⟨answer, hok, -⟩
      · cases hrefused.symm.trans happly
      · cases hok.symm.trans happly

/-- An announcement that passes the checks of the leader is admitted. -/
theorem admits_of_checkNewView {signed : SignedStatement} (hphase : signed.body.phase = .newView)
    (hmember : signed.signer ∈ ctx.committee.members)
    (hcheck : Leader.checkNewView ctx core.replica.state.view signed = .ok ()) :
    core.Admits ctx (.statement .newView signed) := by
  obtain ⟨count, votes, hadd⟩ : ∃ count votes, core.votes.addNewView ctx.committee signed.body.view
      signed.signer signed.body.justify = .ok (count, votes) := by
    rw [Collector.addNewView, if_neg (not_not.mpr hmember)]
    exact ⟨_, _, rfl⟩
  obtain ⟨noted, hentered⟩ : ∃ noted : Entry,
      Leader.onNewView ctx core.votes core.replica.state.view signed = .ok (noted, votes) :=
    ⟨_, bind_eq_ok.mpr ⟨⟨⟩, hcheck, bind_eq_ok.mpr ⟨_, hadd, rfl⟩⟩⟩
  obtain ⟨core', actions, hanswer⟩ : ∃ core' actions,
      core.onNewView ctx signed = .ok (core', actions) := by
    rw [onNewView, hentered]
    by_cases hfollows :
        (noted.quorumReached && decide (core.replica.state.view < noted.view)) = true
    · exact ⟨_, _, if_pos hfollows⟩
    · exact ⟨_, _, if_neg hfollows⟩
  have henvelope : checkEnvelope .newView signed = .ok () := if_pos hphase
  refine ⟨actions, core', ?_⟩
  simp only [consider, henvelope, hanswer]

end Core

/-- A vote on the current view that the collector takes is one that its leader takes. -/
theorem Leader.exists_onVote {ctx : Context} {c counted : Collector} {vote : Vote}
    {outcome : VoteOutcome} (hsound : c.Sound ctx Evidence.none.voted)
    (hleads : ctx.leads vote.ballot.view)
    (hadd : c.addVote ctx.scheme ctx.committee vote = .ok (outcome, counted)) :
    ∃ said votes, onVote ctx c vote.ballot.view vote = (.ok said, votes) := by
  have hmine : ¬ (!ctx.leads vote.ballot.view) = true := by simp [hleads]
  have hhere : ¬ vote.ballot.view ≠ vote.ballot.view := not_not.mpr rfl
  rw [onVote]
  simp only [if_neg hmine, if_neg hhere, hadd]
  cases outcome with
  | pending | alreadyCertified => exact ⟨_, _, rfl⟩
  | certified cert =>
      obtain ⟨answer, hfollow⟩ := exists_follow_of_addVote hsound hadd
      simp only [hfollow]
      exact ⟨_, _, rfl⟩

namespace Deployment

variable {d : Deployment} {L M : d.Correct} {σ : Type} [StateStore σ] {core : Core σ}

section Obeying

variable {cert : Certificate} {next : Phase} (hseals : d.SealsVerify)
  (hleader : d.committee.leader cert.view = L.1) (hother : M ≠ L)
  (hcert : d.Attests cert cert.ballot)

include hseals hleader hother hcert

/-- **A certificate before the decision** is answered with the next vote, to the leader. -/
theorem handle_vote (hvotes : core.replica.state.Votes cert.ballot)
    (hnext : cert.phase.successor = some next) (hlater : next = .preCommit ∨ next = .commit)
    (now : Instant) :
    ∃ core', core.handle (d.context M) now
        (.ofStatement ((d.context L).sign (cert.statement next))) =
      .ok (core', [.send L.1 (d.ballotBy M ⟨next, cert.view, cert.payload⟩),
        Replica.rearm (d.context M)]) := by
  have hquiet : Core.Quiet (d.context M) (d.voting M ⟨next, cert.view, cert.payload⟩) :=
    quiet_voting fun hmine => hother (Subtype.ext (hmine.symm.trans hleader))
  have hgives : Core.Gives σ (d.context M) now core.replica.state core.votes
      (.ofStatement ((d.context L).sign (cert.statement next)))
      (d.voting M ⟨next, cert.view, cert.payload⟩) (core.replica.state.follow cert) core.votes :=
    gives_phase hvotes hcert hseals hleader hother hnext hlater
  obtain ⟨core', hhandle, -⟩ := hgives.answers_quiet hquiet core ⟨rfl, rfl⟩
  refine ⟨core', ?_⟩
  rw [← hleader]
  exact hhandle

/-- **The certificate of the last vote** is answered with the execution of its payload, where the
next height stays within 64 bits. -/
theorem handle_decide (hvotes : core.replica.state.Votes cert.ballot)
    (hcommit : cert.phase = .commit) (now : Instant) :
    let decision : Message := .ofStatement ((d.context L).sign (cert.statement .decide))
    (∀ height, Height.next? core.replica.state.height = some height →
      ∃ core' rest, core.handle (d.context M) now decision =
        .ok (core', .execute cert.view height cert.payload :: rest)) ∧
    (Height.next? core.replica.state.height = none →
      core.handle (d.context M) now decision = .error .add) := by
  let msg := (d.context L).sign (cert.statement .decide)
  let decided : Replica σ :=
    { core.replica with state := { core.replica.state with phase := .decide } }
  have hnext : cert.phase.successor = some .decide := by
    rw [hcommit]
    rfl
  have hfollow : core.replica.onPhase (d.context M) msg = decided.commit (d.context M) cert :=
    (onPhase_eq_applyPhase hvotes hcert hseals hleader hother hnext rfl).trans
      (applyPhase_commit hvotes hcert hcommit rfl)
  have hconsider : core.consider (d.context M) (.ofStatement msg) =
      core.answer (decided.commit (d.context M) cert) := by
    have henvelope : Core.checkEnvelope .decide msg = .ok () := if_pos rfl
    rw [← hfollow, show Message.ofStatement msg = .statement .decide msg from rfl]
    simp only [Core.consider, henvelope]
  constructor
  · intro height hheight
    obtain ⟨answer, hanswer, hroom⟩ : ∃ answer, decided.commit (d.context M) cert = .ok answer ∧
        answer.1.HasRoom := by
      refine Replica.exists_commit (r := decided) ?_ rfl cert
      exact hheight.trans_ne (Option.some_ne_none _)
    obtain ⟨rest, hfront⟩ : ∃ rest, answer.2 = .execute cert.view height cert.payload :: rest := by
      rw [Replica.commit, show Height.next? decided.state.height = some height from hheight]
        at hanswer
      exact ⟨_, congrArg Prod.snd (Except.ok.inj hanswer).symm⟩
    have hown : OwnIn (d.context M) answer.2 := Replica.commit_own hanswer
    rw [hanswer, Core.answer, hfront] at hconsider
    rw [hfront] at hown
    exact Core.exists_handle_cons hconsider hroom hown fun _ => Action.noConfusion
  · intro hheight
    have hanswer : decided.commit (d.context M) cert = .error (.overflow .add) := by
      rw [Replica.commit, show Height.next? decided.state.height = none from hheight]
    rw [hanswer] at hconsider
    rw [Core.handle, Core.dispatch, hconsider]
    rfl

/-- **A certificate is followed** by whoever has voted on its ballot. -/
theorem obeys_of_votes (hvotes : core.replica.state.Votes cert.ballot) (hvoted : cert.phase.Voted)
    (hnext : cert.phase.successor = some next) :
    core.Obeys (d.context M) L.1 next ((d.context L).sign (cert.statement next)) := by
  have hcommit (hdecide : next = .decide) : cert.phase = .commit := by
    have hbefore := Phase.predecessor_eq_some_iff.mpr hnext
    rw [hdecide] at hbefore
    exact (Option.some.inj hbefore).symm
  constructor
  case votes =>
    intro hdecide
    have hlater : next = .preCommit ∨ next = .commit := by
      refine (hvoted.successor hnext hdecide).resolve_left fun hprepare => ?_
      have hrank := Phase.rank_of_successor hnext
      rw [hprepare] at hrank
      exact absurd hvoted.rank_pos (Nat.succ.inj hrank ▸ Nat.lt_irrefl 0)
    exact handle_vote hseals hleader hother hcert hvotes hnext hlater
  case executes =>
    rintro rfl height hheight now
    exact (handle_decide hseals hleader hother hcert hvotes (hcommit rfl) now).1 height hheight
  case overflows =>
    rintro rfl hheight now
    exact (handle_decide hseals hleader hother hcert hvotes (hcommit rfl) now).2 hheight

end Obeying

end Deployment

/-! ### Members of one deployment -/

namespace World

variable {d : Deployment} {σ : Type} [StateStore σ] (w : World d σ)

/-- What a member has said so far. -/
def Said (m : d.Correct) (message : Message) : Prop :=
  ∃ t ∈ w.history m, message ∈ messagesIn t.said

/-- **Members that accept each other's messages**: `M` follows `L`, `L` takes the votes of `M`, and
`L` admits `M` to the views that it leads. -/
structure Accepts (L M : d.Correct) : Prop where
  /-- What `L` says on a later phase is said as the leader of the view; `M` obeys it in the phase
  before, when it holds the payload as its proposal. -/
  followed : ∀ phase signed, w.Said L (.statement phase signed) → Phase.prepare < phase →
    signed.body.phase = phase ∧ d.committee.leader signed.body.view = L.1 ∧
      ∀ before : Phase, before.successor = some phase → M ≠ L →
        (w.core M).replica.state.Votes ⟨before, signed.body.view, signed.body.payload⟩ →
        (w.core M).Obeys (d.context M) L.1 phase signed
  /-- The vote that `M` answers with is taken while `L` is in the view. Only a vote that `L` was
  handed before may be refused, and that one is in. -/
  taken : ∀ phase signed, w.Said L (.statement phase signed) → Phase.prepare < phase →
    phase ≠ .decide → (w.core L).replica.state.view = signed.body.view →
      (w.core L).Takes (d.context L) ((d.context M).castVote signed.body.ballot) ∨
        Handed (w.history L) signed.body.ballot M.1 ∧
          (w.core L).votes.HasVote ((d.context M).castVote signed.body.ballot)
  /-- What `M` announces on entering a view that `L` leads, or while it waits there for a proposal,
  is admitted, if `L` has not left the view and it is not too far ahead. -/
  admitted : ∀ t ∈ w.history M, ∀ signed, .statement .newView signed ∈ messagesIn t.said →
    (t.before.replica.state.view < signed.body.view ∨ t.before.replica.state.phase = .newView) →
    d.committee.leader signed.body.view = L.1 →
    (w.core L).replica.state.view ≤ signed.body.view → signed.body.view ≠ View.last →
    signed.body.view.toNat -
        max (w.core L).replica.state.view.toNat signed.body.justify.view.toNat ≤
      maxViewJump.toNat →
    (w.core L).Admits (d.context L) (.statement .newView signed)

end World

namespace Deployment.Reaches

variable {d : Deployment} {σ : Type} [StateStore σ] [LawfulStore σ] {w : World d σ}
  (hreaches : d.Reaches w) {L M : d.Correct}

include hreaches

/-- **What is said on a later phase** is said on a valid certificate of the phase before. -/
theorem cert_of_said {phase : Phase} {signed : SignedStatement}
    (hsaid : w.Said L (.statement phase signed)) (hlater : Phase.prepare < phase) :
    ∃ cert : Certificate, signed = (d.context L).sign (cert.statement phase) ∧
      d.committee.leader cert.view = L.1 ∧ d.Attests cert cert.ballot ∧ cert.phase.Voted ∧
      cert.phase.successor = some phase := by
  obtain ⟨store, first, -, hcreate, hrun⟩ := hreaches.run L
  obtain ⟨t, ht, hmem⟩ := hsaid
  cases Run.states hcreate hrun ht hmem with
  | entry | proposal => exact absurd hlater (by decide)
  | @later _ cert _ _ hleads hvoted hnext hvalid =>
      have hleader : d.committee.leader cert.view = L.1 :=
        (of_decide_eq_true hleads).trans (d.context_me L)
      exact ⟨cert, rfl, hleader, ⟨rfl, hvalid⟩, hvoted, hnext⟩

omit [StateStore σ] [LawfulStore σ] hreaches in
/-- What is said on a later phase is said as a leader. -/
theorem mem_ledOf_of_said {phase : Phase} {signed : SignedStatement}
    (hsaid : w.Said L (.statement phase signed)) (hphase : signed.body.phase ≠ .newView) :
    signed.body ∈ ledOf (w.history L) := by
  obtain ⟨t, ht, hmem⟩ := hsaid
  refine List.mem_filter.mpr ⟨List.mem_filterMap.mpr ⟨.statement phase signed, ?_, rfl⟩, ?_⟩
  · obtain ⟨action, haction, hmessage⟩ := List.mem_filterMap.mp hmem
    exact List.mem_filterMap.mpr ⟨action, List.mem_flatMap.mpr ⟨t, ht, haction⟩, hmessage⟩
  · exact decide_eq_true hphase

/-- The ballot of a statement is open while its leader is in the view. -/
theorem open_of_said {phase : Phase} {signed : SignedStatement}
    (hsaid : w.Said L (.statement phase signed)) (hvoted : signed.body.phase.Voted)
    (hview : (w.core L).replica.state.view = signed.body.view) :
    ∃ t, (w.core L).votes.tally? signed.body.view signed.body.phase = some t ∧
      t.target = signed.body.ballot := by
  obtain ⟨store, first, -, hcreate, hrun⟩ := hreaches.run L
  have hphase : signed.body.phase ≠ .newView := by
    intro hphase
    exact absurd hvoted.rank_pos (by rw [hphase]; decide)
  have hled := mem_ledOf_of_said hsaid hphase
  obtain ⟨hleading, -⟩ := Leading.run hcreate hrun
  rw [hview] at hleading
  obtain ⟨t, ht⟩ := Option.isSome_iff_exists.mp (hleading.polled _ hled rfl hvoted)
  have hsound := (Run.kept hcreate hrun).sound
  obtain ⟨htview, htphase⟩ := hsound.place _ _ t ht
  have hpayload := (hsound.payload _ _ t ht).symm.trans (hleading.opened _ hled rfl)
  exact ⟨t, ht, Ballot.eq_of_parts htphase htview (Option.some.inj hpayload)⟩

variable (hseals : d.SealsVerify)

include hseals

/-- **A vote is taken** by the leader that has opened its ballot, as long as that is in the view,
unless it was handed one before. -/
theorem takes_of_said {phase : Phase} {signed : SignedStatement}
    (hsaid : w.Said L (.statement phase signed)) (hvoted : signed.body.phase.Voted)
    (hleader : d.committee.leader signed.body.view = L.1)
    (hview : (w.core L).replica.state.view = signed.body.view) :
    (w.core L).Takes (d.context L) ((d.context M).castVote signed.body.ballot) ∨
      Handed (w.history L) signed.body.ballot M.1 ∧
        (w.core L).votes.HasVote ((d.context M).castVote signed.body.ballot) := by
  obtain ⟨store, first, -, hcreate, hrun⟩ := hreaches.run L
  obtain ⟨t, ht, htarget⟩ := hreaches.open_of_said hsaid hvoted hview
  obtain ⟨hmember, hvalid⟩ := castVote_valid hseals M L signed.body.ballot
  have hsigner : ((d.context M).castVote signed.body.ballot).stamp.signer = M.1 := signer_castVote
  rcases Collector.exists_addVote hmember hvalid ht htarget with ⟨outcome, c', hadd⟩ | hcounted
  · obtain ⟨said, votes, hcount⟩ :=
      Leader.exists_onVote (Run.kept hcreate hrun).sound (leads_of_leader hleader) hadd
    have hcount : Leader.onVote (d.context L) (w.core L).votes (w.core L).replica.state.view
        ((d.context M).castVote signed.body.ballot) = (.ok said, votes) := by
      rw [hview]
      exact hcount
    exact Or.inl (Core.takes_of_onVote hcount)
  · refine Or.inr ⟨?_, t, ht, Or.inr hcounted⟩
    rw [← htarget, ← hsigner]
    exact Run.countsOnly hcreate hrun _ _ t ht _ hcounted

/-- **An announcement is admitted** that is made while the sender waits for a proposal. -/
theorem admits_of_waiting {t : Turn σ} (ht : t ∈ w.history M)
    (hphase : t.after.replica.state.phase = .newView)
    (hleader : d.committee.leader t.after.replica.state.view = L.1)
    (hhere : (w.core L).replica.state.view ≤ t.after.replica.state.view)
    (hlast : t.after.replica.state.view ≠ View.last)
    (hnear : t.after.replica.state.view.toNat -
      max (w.core L).replica.state.view.toNat
        (t.after.replica.highCertificate (d.context M)).view.toNat ≤ maxViewJump.toNat) :
    (w.core L).Admits (d.context L)
      (.statement .newView (t.after.replica.announcement (d.context M))) := by
  have hstanding : Standing (d.context M) t.after.replica.state :=
    ((hreaches.course M).standing (.initial _)).2 t ht
  exact Core.admits_of_checkNewView rfl (d.context M).me_mem
    (checkNewView_sign hseals rfl hleader hhere (hstanding.high_cases hphase) hlast hnear)

end Deployment.Reaches

/-- **Correct members accept each other's messages.** In every world that can come about, through
all processes of the members and whatever the faulty ones do, any two correct members accept what
the other one says. -/
theorem correct_members_accept_each_other {d : Deployment} {σ : Type} [StateStore σ]
    [LawfulStore σ] {w : World d σ} (hseals : d.SealsVerify) (hreaches : d.Reaches w)
    (L M : d.Correct) : w.Accepts L M := by
  constructor
  case followed =>
    intro phase signed hsaid hlater
    obtain ⟨cert, rfl, hleader, hcert, hvoted, hnext⟩ := hreaches.cert_of_said hsaid hlater
    refine ⟨rfl, hleader, fun before hbefore hother hvotes => ?_⟩
    obtain rfl : before = cert.phase :=
      Option.some.inj ((Phase.predecessor_eq_some_iff.mpr hbefore).symm.trans
        (Phase.predecessor_eq_some_iff.mpr hnext))
    exact Deployment.obeys_of_votes hseals hleader hother hcert hvotes hvoted hnext
  case taken =>
    intro phase signed hsaid hlater hdecide hview
    obtain ⟨cert, rfl, hleader, -, hvoted, hnext⟩ := hreaches.cert_of_said hsaid hlater
    exact hreaches.takes_of_said hseals hsaid (hvoted.successor hnext hdecide) hleader hview
  case admitted =>
    intro t ht signed hmem hentering hleader hhere hlast hnear
    obtain ⟨store, first, -, hcreate, hrun⟩ := hreaches.run M
    cases Run.states hcreate hrun ht hmem with
    | later _ _ hvoted hnext =>
        have hrank := Phase.rank_of_successor hnext
        cases hrank
    | entry hwaiting =>
        have hphase : t.after.replica.state.phase = .newView := by
          rcases hwaiting with hphase | hsame
          · exact hphase
          · rw [hsame] at hentering ⊢
            exact hentering.resolve_left (UInt64.lt_irrefl _)
        exact hreaches.admits_of_waiting hseals ht hphase hleader hhere hlast hnear

namespace Exchanging

/-- Four members, the last of which is faulty. -/
def deployment : Deployment := .transparent .four {.numbered 3}

/-- Member 0 is a correct one. -/
theorem zero_correct :
    .numbered 0 ∈ deployment.committee.members ∧ .numbered 0 ∉ deployment.faulty := by decide

/-- Member 1 is a correct one. -/
theorem one_correct :
    .numbered 1 ∈ deployment.committee.members ∧ .numbered 1 ∉ deployment.faulty := by decide

/-- Member 2 is a correct one. -/
theorem two_correct :
    .numbered 2 ∈ deployment.committee.members ∧ .numbered 2 ∉ deployment.faulty := by decide

/-- The leader of views 0 and 4. -/
def zero : deployment.Correct := Deployment.member 0 zero_correct

/-- A member that waits for what follows on the proposal. -/
def one : deployment.Correct := Deployment.member 1 one_correct

/-- A member that goes on to later views. -/
def two : deployment.Correct := Deployment.member 2 two_correct

/-- The payload proposed in view 0. -/
def payload : Payload := ⟨Scheme.transparent.genesisDigest, [80]⟩

/-- The certificate of the votes on the proposal. -/
def cert : Certificate := .numbered ⟨.prepare, 0, payload⟩ [0, 1, 2]

/-- What the leader of view 0 says on the certificate. -/
def preCommit : SignedStatement := (deployment.context zero).sign (cert.statement .preCommit)

/-- The announcement of view 4 with that certificate. -/
def entry : SignedStatement :=
  (deployment.context two).sign ⟨4, .newView, payload, cert⟩

/-- The leader is handed a vote on the proposal. -/
def votes (n : UInt8) : deployment.Correct × Cue :=
  (zero, .input (.message (.vote (Scheme.transparent.castVote (.numbered n) cert.ballot))))

/-- The leader is told that a member is in view 0. -/
def enters (n : UInt8) : deployment.Correct × Cue :=
  (zero, .input
    (.numbered n 0 .newView Scheme.transparent.genesisPayload Scheme.transparent.genesis))

/-- A member is shown the proposal. -/
def hears (m : deployment.Correct) : deployment.Correct × Cue :=
  (m, .input (.numbered 0 0 .prepare payload Scheme.transparent.genesis))

/-- The payload is proposed and certified; one of its voters hears of that and is restarted, and
gives up the views before the next one of the leader. -/
def script : List (deployment.Correct × Cue) :=
  [(zero, .input .start), (one, .input .start), (two, .input .start), enters 1, enters 2,
    (zero, .propose [80]), hears one, hears two, votes 1, votes 2,
    (two, .input (.message (.ofStatement preCommit))), (two, .restart), (two, .input .timeout),
    (two, .input .timeout), (two, .input .timeout)]

end Exchanging

open Exchanging in
/-- The leader of view 0 has said that the proposal is certified. A member that has voted on it
obeys, its next vote is taken, and another member that has come to view 4 since is admitted
there. -/
theorem correct_members_accept_each_other_of_preCommit :
    ∃ w : World deployment MemoryStore, deployment.SealsVerify ∧ deployment.Reaches w ∧
      w.Said zero (.statement .preCommit preCommit) ∧
      (w.core one).replica.state.Votes cert.ballot ∧
      (w.core one).Obeys (deployment.context one) zero.1 .preCommit preCommit ∧
      ((w.core zero).Takes (deployment.context zero)
          ((deployment.context one).castVote ⟨.preCommit, 0, payload⟩) ∨
        Handed (w.history zero) ⟨.preCommit, 0, payload⟩ one.1 ∧ (w.core zero).votes.HasVote
          ((deployment.context one).castVote ⟨.preCommit, 0, payload⟩)) ∧
      w.Said two (.statement .newView entry) ∧
      (w.core zero).Admits (deployment.context zero) (.statement .newView entry) := by
  have hseals : deployment.SealsVerify := Deployment.sealsVerify_transparent _ _
  obtain ⟨w, hreaches, hsaid, ⟨hview, hphase, hproposal⟩, hhere, t, ht, hentry, hbefore⟩ :=
    Deployment.exists_reaches (P := fun w : World deployment MemoryStore =>
      (∃ t ∈ w.history zero, .statement .preCommit preCommit ∈ messagesIn t.said) ∧
      ((w.core one).replica.state.view = 0 ∧ (w.core one).replica.state.phase = .prepare ∧
        (w.core one).replica.state.proposal = some payload) ∧
      (w.core zero).replica.state.view = 0 ∧
      ∃ t ∈ w.history two, .statement .newView entry ∈ messagesIn t.said ∧
        t.before.replica.state.view < 4)
    (show ((World.start deployment).play script).map _ = some true by decide +kernel)
  have hvotes : (w.core one).replica.state.Votes cert.ballot := ⟨hview, hphase, hproposal⟩
  have haccepts : w.Accepts zero one := correct_members_accept_each_other hseals hreaches zero one
  have hadmits : w.Accepts zero two := correct_members_accept_each_other hseals hreaches zero two
  obtain ⟨-, -, hobeys⟩ := haccepts.followed _ _ hsaid (by decide)
  refine ⟨w, hseals, hreaches, hsaid, hvotes, hobeys .prepare rfl (by decide) hvotes,
    haccepts.taken _ _ hsaid (by decide) (by decide) hhere, ⟨t, ht, hentry⟩, ?_⟩
  refine hadmits.admitted t ht entry hentry (Or.inl hbefore) (by decide) ?_ (by decide) ?_
  · rw [hhere]
    decide
  · rw [hhere]
    decide

end HotStuff
