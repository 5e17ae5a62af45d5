import HotStuff.Proofs.Admission
import HotStuff.Proofs.Holding
import HotStuff.Proofs.Refusal
import HotStuff.Proofs.Settling

/-!
# Messages That Come Twice

A network may deliver a message again. Nothing keeps a list of what was handled; each kind of
message is caught in its own way when it comes back. A vote is in its tally. The sender of an
announcement is held where it announced itself, and the view was entered if there was a quorum to
enter it with. A replica that has followed a proposal or a phase has come past it, and never goes
back. A decision does not extend the chain that it has become the end of, unless its payload is its
own parent.

Between the two deliveries the member handles what it sends to itself, so all of this is said of
what every turn keeps.

## Main definitions

* `ReplicaState.Attains`: a replica has come as far as a phase of a view.
* `Collector.HasVote`: a vote is in.
* `Core.Absorbs`: nothing comes of a message.
* `Core.Ends`: what is left when an accepted message has been dealt with.

## Main results

* `Turn.attains_of_kind`, `Turn.hasVote_of_kind`: no turn goes back, and none loses a vote.
* `Core.Reached.absorbs_of_accepted`: an accepted message comes to nothing when it comes again.
* `repetition_is_harmless`: whatever is handled twice has no effect the second time.
-/

namespace HotStuff

/-! ### A replica never goes back -/

/-- **A replica has come as far as a phase of a view**: it is in that phase or past it. -/
def ReplicaState.Attains (s : ReplicaState) (view : View) (phase : Phase) : Prop :=
  view < s.view ∨ view = s.view ∧ phase.rank ≤ s.phase.rank

namespace ReplicaState

variable {s s' : ReplicaState} {view : View} {phase : Phase}

/-- A replica has come as far as it is. -/
theorem attains_self (s : ReplicaState) : s.Attains s.view s.phase := Or.inr ⟨rfl, Nat.le_refl _⟩

/-- A replica that has gone on has come as far as it had before. -/
theorem Attains.trans (h : s.Attains view phase) (h' : s'.Attains s.view s.phase) :
    s'.Attains view phase := by
  rcases h' with hlater | ⟨hview, hrank⟩
  · rcases h with hlt | ⟨rfl, -⟩
    · exact Or.inl (UInt64.lt_trans hlt hlater)
    · exact Or.inl hlater
  · rcases h with hlt | ⟨rfl, hle⟩
    · exact Or.inl (hview ▸ hlt)
    · exact Or.inr ⟨hview, Nat.le_trans hle hrank⟩

/-- A replica is in no earlier view than one that it has come to. -/
theorem Attains.view_le (h : s.Attains view phase) : view ≤ s.view := by
  rcases h with hlt | ⟨rfl, -⟩
  · exact UInt64.le_of_lt hlt
  · exact UInt64.le_refl _

/-- A commit does not go back. -/
theorem attains_commit (s : ReplicaState) (scheme : Scheme) (cert : Certificate)
    (height : Height) : (s.commit scheme cert height).Attains s.view s.phase := by
  rcases s.commit_cases scheme cert height with ⟨next, -, hlater, h⟩ | ⟨-, h⟩
  · rw [h]
    exact Or.inl hlater
  · rw [h]
    exact Or.inr ⟨rfl, Nat.le_refl _⟩

end ReplicaState

namespace Replica

variable {σ : Type} [StateStore σ] {ctx : Context} {r : Replica σ}
  {answer : Replica σ × List Action} {msg : SignedStatement} {st : Statement}

/-- Entering a view does not go back, whether it is later or not. -/
theorem enterView_attains {view : View} (h : r.enterView ctx view = answer) :
    answer.1.state.Attains r.state.view r.state.phase := by
  subst h
  by_cases h : view ≤ r.state.view
  · rw [enterView_of_le h]
    exact r.state.attains_self
  · have h := UInt64.not_le.mp h
    rw [enterView_of_lt h]
    exact Or.inl h

/-- A timeout does not go back, in the last view either. -/
theorem onTimeout_attains (h : r.onTimeout ctx = answer) :
    answer.1.state.Attains r.state.view r.state.phase := by
  subst h
  rw [onTimeout]
  split
  · next next _ =>
      have hentered : (r.enterView ctx next).1.state.Attains r.state.view r.state.phase :=
        enterView_attains rfl
      exact hentered
  · exact r.state.attains_self

/-- A proposal that is voted on is for a later view, or the first of the current one. -/
theorem onPrepare_attains (h : r.onPrepare ctx msg = .ok answer) :
    answer.1.state.Attains msg.body.view .prepare ∧
      answer.1.state.Attains r.state.view r.state.phase := by
  obtain ⟨haccepts, hstate⟩ := onPrepare_accepts h
  rw [hstate]
  refine ⟨Or.inr ⟨rfl, Nat.le_refl _⟩, ?_⟩
  rcases UInt64.lt_or_eq_of_le haccepts.notStale with hlt | heq
  · exact Or.inl hlt
  · exact Or.inr ⟨heq, haccepts.fresh heq.symm ▸ Nat.zero_le _⟩

/-- A decision in sequence is committed. -/
theorem decide_state (hdecide : st.phase = .decide) (h : r.applyPhase ctx st = .ok answer) :
    ∃ height, answer.1.state =
      ReplicaState.commit { r.state with phase := .decide } ctx.scheme st.justify height := by
  rw [applyPhase] at h
  simp only at h
  split at h
  · cases h
  · rw [hdecide] at h
    obtain ⟨height, -, hstate, -⟩ := commit_spec h
    exact ⟨height, hstate⟩

/-- What is applied is the next phase of the current view. -/
theorem applyPhase_attains (h : r.applyPhase ctx st = .ok answer) :
    answer.1.state.Attains st.view st.phase ∧
      answer.1.state.Attains r.state.view r.state.phase := by
  have hdecide (hphase : st.phase = .decide) := decide_state hphase h
  rw [applyPhase] at h
  simp only at h
  split at h
  · cases h
  next hfits =>
  obtain ⟨hhere, hnext⟩ := not_or.mp hfits
  rw [not_not.mp hhere]
  have hrank : st.phase.rank = r.state.phase.rank + 1 := Phase.rank_of_successor (not_not.mp hnext)
  -- What has come as far as the phase that is applied has come past the one before it.
  have hboth {s : ReplicaState} (h : s.Attains r.state.view st.phase) :
      s.Attains r.state.view st.phase ∧ s.Attains r.state.view r.state.phase := by
    refine ⟨h, h.imp_right ?_⟩
    rintro ⟨hview, hle⟩
    exact ⟨hview, by omega⟩
  cases hphase : st.phase with
  | newView | prepare =>
      rw [hphase] at h
      cases h
  | preCommit | commit =>
      rw [hphase] at h hboth
      obtain rfl := Except.ok.inj h
      exact hboth (Or.inr ⟨rfl, Nat.le_refl _⟩)
  | decide =>
      obtain ⟨height, hstate⟩ := hdecide hphase
      rw [hphase] at hboth
      rw [hstate]
      exact hboth (ReplicaState.attains_commit { r.state with phase := .decide } ..)

/-- A phase that is followed is come to, and nothing before it is gone back to. A decision out of
sequence may lead elsewhere than to its own view. -/
theorem onPhase_attains (h : r.onPhase ctx msg = .ok answer) :
    (msg.body.phase ≠ .decide → answer.1.state.Attains msg.body.view msg.body.phase) ∧
      answer.1.state.Attains r.state.view r.state.phase := by
  rcases onPhase_ok h with ⟨⟨hphase, -⟩, -, hcommit⟩ | ⟨-, happly⟩
  · obtain ⟨height, -, hstate, -⟩ := commit_spec hcommit
    rw [hstate]
    exact ⟨fun hne => absurd hphase hne, r.state.attains_commit _ _ _⟩
  · obtain ⟨hthere, hforward⟩ := applyPhase_attains happly
    exact ⟨fun _ => hthere, hforward⟩

end Replica

/-- **No turn goes back.** -/
theorem Turn.attains_of_kind {σ : Type} [StateStore σ] {ctx : Context} {t : Turn σ}
    (hkind : t.Kind ctx) :
    t.after.replica.state.Attains t.before.replica.state.view t.before.replica.state.phase := by
  have hsame (hreplica : t.after.replica = t.before.replica) :
      t.after.replica.state.Attains t.before.replica.state.view t.before.replica.state.phase :=
    hreplica ▸ t.before.replica.state.attains_self
  cases hkind with
  | announced _ _ hreplica => exact hsame hreplica
  | timedOut _ hanswer => exact Replica.onTimeout_attains hanswer
  | refused _ hreplica => exact hsame hreplica
  | entered _ _ hanswer =>
      rcases hanswer with hentered | ⟨hreplica, -⟩
      · exact Replica.enterView_attains hentered
      · exact hsame hreplica
  | accepted _ _ hanswer => exact (Replica.onPrepare_attains hanswer).2
  | followed _ _ hanswer => exact (Replica.onPhase_attains hanswer).2
  | counted _ _ _ _ hreplica => exact hsame hreplica
  | certified _ _ hown =>
      rcases hown with happly | ⟨hreplica, -⟩
      · exact (Replica.applyPhase_attains happly).2
      · exact hsame hreplica
  | offered _ _ _ hown =>
      rcases hown with hprepare | ⟨hreplica, -⟩
      · exact (Replica.onPrepare_attains hprepare).2
      · exact hsame hreplica

/-! ### Votes that are in -/

namespace Collector

variable {c c' : Collector} {vote other : Vote} {scheme : Scheme} {committee : Committee}
  {outcome : VoteOutcome}

/-- **A vote is in**: its signer is counted in its phase, or the phase is certified. -/
def HasVote (vote : Vote) (c : Collector) : Prop :=
  ∃ t, c.tally? vote.ballot.view vote.ballot.phase = some t ∧
    (t.certificate.isSome ∨ t.votes.contains vote.stamp.signer)

namespace HasVote

/-- Only the ballots of a collector matter. -/
theorem congr (h : c.HasVote vote)
    (hsame : ∀ view phase, c'.tally? view phase = c.tally? view phase) : c'.HasVote vote := by
  obtain ⟨t, ht, hin⟩ := h
  exact ⟨t, (hsame _ _).trans ht, hin⟩

/-- A tally that takes the place of one whose voters it has keeps a vote in. -/
theorem putTally (h : c.HasVote vote) {t : Tally}
    (hkept : ∀ t₀, c.tally? t.target.view t.target.phase = some t₀ → t₀.certificate = none ∧
      ∀ m, t₀.votes.contains m → t.votes.contains m) : (c.putTally t).HasVote vote := by
  obtain ⟨t₀, ht₀, hin⟩ := h
  rw [HasVote, tally?_putTally]
  split
  · next hplace =>
      rw [hplace.1, hplace.2] at ht₀
      obtain ⟨hopen, hvotes⟩ := hkept t₀ ht₀
      rw [hopen] at hin
      exact ⟨t, rfl, Or.inr (hvotes _ (hin.resolve_left Bool.false_ne_true))⟩
  · exact ⟨t₀, ht₀, hin⟩

/-- Opening a ballot keeps a vote in: a ballot that is there is not opened anew. -/
theorem openBallot {target : Ballot} (h : c.HasVote vote) (hok : c.openBallot target = .ok c') :
    c'.HasVote vote := by
  rcases openBallot_ok hok with ⟨-, rfl⟩ | ⟨hnone, rfl⟩
  · exact h
  · exact h.putTally fun t₀ ht₀ => by cases hnone.symm.trans ht₀

/-- Counting another vote keeps a vote in. -/
theorem addVote (h : c.HasVote vote)
    (hok : c.addVote scheme committee other = .ok (outcome, c')) : c'.HasVote vote := by
  rcases addVote_ok hok with ⟨-, rfl⟩ |
    ⟨t, ht, hopen, htarget, -, -, counted, rfl, hsame, hvotes, -⟩
  · exact h
  · refine h.putTally fun t₀ ht₀ => ?_
    rw [hsame, htarget] at ht₀
    obtain rfl := Option.some.inj (ht.symm.trans ht₀)
    refine ⟨hopen, fun m hm => ?_⟩
    rw [hvotes, Table.contains, Table.get?_insert]
    split
    · rfl
    · exact hm

/-- A vote is kept in as long as its view is not over. -/
theorem pruneBelow {here : View} (h : c.HasVote vote) (hle : here ≤ vote.ballot.view) :
    (c.pruneBelow here).HasVote vote := by
  rw [HasVote, tally?_pruneBelow, if_pos hle]
  exact h

end HasVote

/-- A vote that is counted is in. -/
theorem hasVote_of_addVote (hok : c.addVote scheme committee vote = .ok (outcome, c')) :
    c'.HasVote vote := by
  rw [addVote] at hok
  split at hok
  · cases hok
  split at hok
  · cases hok
  split at hok
  · cases hok
  next t ht =>
  split at hok
  · next hcertified =>
      obtain ⟨-, rfl⟩ := Prod.mk.inj (Except.ok.inj hok)
      exact ⟨t, ht, Or.inl hcertified⟩
  split at hok
  · cases hok
  next htarget =>
  split at hok
  · cases hok
  have hplace : vote.ballot.view = t.target.view ∧ vote.ballot.phase = t.target.phase := by
    rw [not_not.mp htarget]
    exact ⟨rfl, rfl⟩
  have hvoted : (t.votes.insert vote.stamp.signer vote.stamp).contains vote.stamp.signer := by
    rw [Table.contains, Table.get?_insert, if_pos rfl]
    rfl
  simp only at hok
  split at hok
  · obtain ⟨-, rfl⟩ := Prod.mk.inj (Except.ok.inj hok)
    exact ⟨_, (tally?_putTally ..).trans (if_pos hplace), Or.inr hvoted⟩
  · obtain ⟨-, rfl⟩ := Prod.mk.inj (Except.ok.inj hok)
    exact ⟨_, (tally?_putTally ..).trans (if_pos hplace), Or.inr hvoted⟩

/-- A vote that is in is refused, or not counted any more. -/
theorem HasVote.addVote_again (h : c.HasVote vote) :
    (∃ cause, c.addVote scheme committee vote = .error cause) ∨
      c.addVote scheme committee vote = .ok (.alreadyCertified, c) := by
  obtain ⟨t, ht, hin⟩ := h
  rw [Collector.addVote]
  split
  · exact Or.inl ⟨_, rfl⟩
  split
  · exact Or.inl ⟨_, rfl⟩
  simp only [ht]
  split
  · exact Or.inr rfl
  next hopen =>
  split
  · exact Or.inl ⟨_, rfl⟩
  rw [if_pos (hin.resolve_left hopen)]
  exact Or.inl ⟨_, rfl⟩

end Collector

namespace Leader

variable {ctx : Context} {c c' : Collector} {here : View} {vote : Vote}

/-- A vote that the leader takes is in. -/
theorem hasVote_of_onVote {said : Option SignedStatement}
    (hok : onVote ctx c here vote = (.ok said, c')) : c'.HasVote vote := by
  rw [onVote] at hok
  split at hok
  · cases hok
  split at hok
  · cases hok
  split at hok
  · cases hok
  · next cert counted hadd =>
      have hcounted : counted.HasVote vote := Collector.hasVote_of_addVote hadd
      split at hok
      · cases hok
      · next answer opened hfollow =>
          obtain ⟨-, rfl⟩ := Prod.mk.inj hok
          rcases follow_ok hfollow with ⟨-, rfl⟩ | ⟨phase, -, -, ⟨-, rfl⟩ | ⟨-, hopen⟩⟩
          · exact hcounted
          · exact hcounted
          · exact hcounted.openBallot hopen
  · next hadd =>
      obtain ⟨-, rfl⟩ := Prod.mk.inj hok
      exact Collector.hasVote_of_addVote hadd

/-- A vote that is in, or is for another view, changes nothing. -/
theorem onVote_again (hin : vote.ballot.view = here → c.HasVote vote) :
    (∃ cause, onVote ctx c here vote = (.error cause, c)) ∨
      onVote ctx c here vote = (.ok none, c) := by
  rw [onVote]
  split
  · exact Or.inl ⟨_, rfl⟩
  split
  · exact Or.inl ⟨_, rfl⟩
  next hview =>
  have hagain : (∃ cause, c.addVote ctx.scheme ctx.committee vote = .error cause) ∨
      c.addVote ctx.scheme ctx.committee vote = .ok (.alreadyCertified, c) :=
    (hin (not_not.mp hview)).addVote_again
  rcases hagain with ⟨cause, hadd⟩ | hadd
  · rw [hadd]
    exact Or.inl ⟨cause, rfl⟩
  · rw [hadd]
    exact Or.inr rfl

end Leader

/-- No turn loses a vote that is in. -/
theorem Turn.hasVote_of_kind {σ : Type} [StateStore σ] {ctx : Context} {t : Turn σ} {vote : Vote}
    (hkind : t.Kind ctx) (h : t.before.votes.HasVote vote) : t.after.votes.HasVote vote :=
  Turn.votes_of_kind (P := Collector.HasVote vote)
    (fun _ _ _ _ _ _ hadd h => h.congr (Collector.tally?_addNewView hadd))
    (fun _ _ _ _ _ hadd h => h.addVote hadd) (fun _ _ _ hopen h => h.openBallot hopen) hkind h

/-! ### Statements that are over -/

namespace Replica

variable {σ : Type} [StateStore σ] {ctx : Context} {r : Replica σ} {msg : SignedStatement}

/-- A replica that has come as far as the vote on a proposal refuses it. -/
theorem refuses_prepare (h : r.state.Attains msg.body.view .prepare) :
    ∃ cause, r.onPrepare ctx msg = .error cause := by
  cases hprepare : r.onPrepare ctx msg with
  | error cause => exact ⟨cause, rfl⟩
  | ok answer =>
      have haccepts := (onPrepare_accepts hprepare).1
      rcases h with hover | ⟨hhere, hrank⟩
      · exact absurd hover (UInt64.not_lt.mpr haccepts.notStale)
      · rw [haccepts.fresh hhere] at hrank
        exact absurd hrank (by decide)

/-- A replica that has come as far as a phase refuses it, unless it is the decision. -/
theorem refuses_phase (hdecide : msg.body.phase ≠ .decide)
    (h : r.state.Attains msg.body.view msg.body.phase) :
    ∃ cause, r.onPhase ctx msg = .error (.refused cause) := by
  refine (r.onPhase_cases msg).resolve_right ?_
  rintro ⟨-, ⟨hout, -⟩ | ⟨-, hcheck, -⟩⟩
  · exact absurd (of_decide_eq_true hout).1 hdecide
  · simp only [checkPhase, guard_throw_eq_ok, not_not] at hcheck
    obtain ⟨hhere, hnext, -⟩ := hcheck
    have hrank : msg.body.phase.rank = r.state.phase.rank + 1 := Phase.rank_of_successor hnext
    rcases h with hover | ⟨-, hle⟩
    · exact absurd hhere (UInt64.ne_of_lt hover)
    · omega

/-- After a decision the chain ends in its payload, and in its view no decision is in sequence any
more. -/
theorem decided_of_onPhase {answer : Replica σ × List Action} (hdecide : msg.body.phase = .decide)
    (h : r.onPhase ctx msg = .ok answer) :
    answer.1.state.committed = ctx.scheme.payloadDigest msg.body.payload ∧
      answer.1.outOfSequence msg.body := by
  rcases onPhase_ok h with ⟨⟨-, hout⟩, hcheck, hcommit⟩ | ⟨hcheck, happly⟩
  · obtain ⟨⟨-, -, hpayload⟩, -, -⟩ := checkDecision_ok hcheck
    obtain ⟨height, -, hstate, -⟩ := commit_spec hcommit
    rw [outOfSequence, hstate, ← hpayload]
    refine ⟨ReplicaState.commit_committed .., decide_eq_true ⟨hdecide, ?_⟩⟩
    rintro ⟨hview, hphase⟩
    obtain ⟨hsame, hhere, -⟩ :=
      ReplicaState.commit_held (hphase.trans_ne Phase.noConfusion)
    exact hout ⟨hview.trans hhere, hsame.symm.trans hphase⟩
  · obtain ⟨-, -, -, hpayload, -⟩ := checkPhase_ok hcheck
    obtain ⟨height, hstate⟩ := decide_state hdecide happly
    rw [outOfSequence, hstate, ← hpayload]
    refine ⟨ReplicaState.commit_committed .., decide_eq_true ⟨hdecide, ?_⟩⟩
    rintro ⟨-, hphase⟩
    obtain ⟨hsame, -⟩ := ReplicaState.commit_held (hphase.trans_ne Phase.noConfusion)
    cases hsame.symm.trans hphase

/-- A decision is refused where it does not extend the chain, except in its sequence. -/
theorem refuses_decision (hout : r.outOfSequence msg.body)
    (hparent : msg.body.payload.parent ≠ r.state.committed) :
    ∃ cause, r.onPhase ctx msg = .error (.refused cause) := by
  refine (r.onPhase_cases msg).resolve_right ?_
  rintro ⟨-, ⟨-, hcheck, -⟩ | ⟨hnot, -⟩⟩
  · exact hparent (checkDecision_ok hcheck).2.1
  · exact hnot hout

end Replica

/-! ### Messages of which nothing comes -/

namespace Core

variable {σ : Type} [StateStore σ] {ctx : Context} {core core' mid : Core σ} {now : Instant}
  {message : Message} {envelope : Phase} {signed : SignedStatement} {said : List Action}

/-- **Nothing comes of a message**: it is refused, or accepted with nothing to do, and the core
stays as it is. -/
def Absorbs (ctx : Context) (core : Core σ) (message : Message) : Prop :=
  (∃ cause, core.consider ctx message = .ok (.error cause, core)) ∨
    core.consider ctx message = .ok (.ok [], core)

/-- A message of which nothing comes leaves its trace in liveness and metrics alone. -/
theorem AtRest.handle_absorbed (hrest : core.AtRest ctx) (h : core.Absorbs ctx message) :
    ∃ liveness metrics,
      core.handle ctx now message = .ok ({ core with liveness, metrics }, []) := by
  rcases h with ⟨cause, hrefused⟩ | haccepted
  · exact ⟨_, _, hrest.handle_refused hrefused⟩
  · exact ⟨_, _, hrest.handle_accepted haccepted⟩

/-- **Nothing comes of a vote that is in**, or of one for another view. -/
theorem absorbs_vote {vote : Vote}
    (hin : vote.ballot.view = core.replica.state.view → core.votes.HasVote vote) :
    core.Absorbs ctx (.vote vote) := by
  have hagain : (∃ cause, Leader.onVote ctx core.votes core.replica.state.view vote =
      (.error cause, core.votes)) ∨
      Leader.onVote ctx core.votes core.replica.state.view vote = (.ok none, core.votes) :=
    Leader.onVote_again hin
  rcases hagain with ⟨cause, hvote⟩ | hvote
  · exact Or.inl ⟨cause, by rw [consider, onVote, hvote]⟩
  · exact Or.inr (by rw [consider, onVote, hvote])

/-- Nothing comes of a statement in an envelope for another phase. -/
theorem absorbs_of_envelope
    (h : checkEnvelope envelope signed = .ok () → core.Absorbs ctx (.statement envelope signed)) :
    core.Absorbs ctx (.statement envelope signed) := by
  cases henvelope : checkEnvelope envelope signed with
  | error cause => exact Or.inl ⟨cause, by simp only [consider, henvelope]⟩
  | ok _ => exact h henvelope

/-- **Nothing comes of a proposal that the replica refuses.** -/
theorem absorbs_prepare (h : ∃ cause, core.replica.onPrepare ctx signed = .error cause) :
    core.Absorbs ctx (.statement .prepare signed) := by
  obtain ⟨cause, hrefused⟩ := h
  refine absorbs_of_envelope fun henvelope => Or.inl ⟨cause, ?_⟩
  simp only [consider, henvelope]
  exact answer_refused (by rw [hrefused, Outcome.ofCheck])

/-- **Nothing comes of a later phase that the replica refuses.** -/
theorem absorbs_phase (hlater : Phase.prepare < envelope)
    (h : ∃ cause, core.replica.onPhase ctx signed = .error (.refused cause)) :
    core.Absorbs ctx (.statement envelope signed) := by
  obtain ⟨cause, hrefused⟩ := h
  refine absorbs_of_envelope fun henvelope => Or.inl ⟨cause, ?_⟩
  cases envelope with
  | newView | prepare => exact absurd hlater (by decide)
  | preCommit | commit | decide =>
      simp only [consider, henvelope]
      exact answer_refused hrefused

/-- An announcement of a member that has come as far as the view changes nothing, unless there is a
quorum to follow there. -/
theorem absorbs_newView (honce : core.votes.HeldOnce)
    (hfrom : core.replica.state.view ≤ signed.body.view →
      core.votes.HeldFrom signed.signer signed.body.view)
    (hstays : core.replica.state.view < signed.body.view →
      core.votes.newViewCount signed.body.view < ctx.committee.quorum) :
    core.Absorbs ctx (.statement .newView signed) := by
  refine absorbs_of_envelope fun henvelope => ?_
  cases hentry : Leader.onNewView ctx core.votes core.replica.state.view signed with
  | error cause =>
      refine Or.inl ⟨cause, ?_⟩
      simp only [consider, henvelope, onNewView, hentry, bind, Except.bind]
  | ok result =>
      obtain ⟨entry, votes⟩ := result
      obtain ⟨hmember, -, -, -, hle⟩ := Leader.authorised_of_onNewView hentry
      obtain ⟨-, heq, hadd⟩ := Leader.onNewView_ok hentry
      obtain ⟨hcount, rfl⟩ := Prod.mk.inj
        (Except.ok.inj (hadd.symm.trans (honce.addNewView_again (hfrom hle) hmember _)))
      have hidle :
          (entry.quorumReached && decide (core.replica.state.view < entry.view)) = false := by
        rw [heq, hcount]
        simp only [Bool.and_eq_false_iff, decide_eq_false_iff_not]
        by_cases hlater : core.replica.state.view < signed.body.view
        · exact Or.inl (Nat.not_le.mpr (hstays hlater))
        · exact Or.inr hlater
      refine Or.inr ?_
      simp only [consider, henvelope, onNewView, hentry, bind, Except.bind, hidle]
      rfl

/-- What becomes of a message does not depend on the metrics. -/
theorem consider_metrics (metrics : Metrics) : consider ctx { core with metrics } message =
    (core.consider ctx message).map fun result => (result.1, { result.2 with metrics }) := by
  have hanswer (outcome : Outcome (Replica σ × List Action)) :
      answer { core with metrics } outcome =
        (core.answer outcome).map fun result => (result.1, { result.2 with metrics }) := by
    rcases outcome with (cause | o) | result <;> rfl
  cases message with
  | vote vote =>
      simp only [consider, onVote]
      split
      · rfl
      · rfl
      · split <;> rfl
  | statement envelope signed =>
      simp only [consider]
      split
      · rfl
      cases envelope with
      | newView =>
          simp only [onNewView]
          cases Leader.onNewView ctx core.votes core.replica.state.view signed with
          | error cause => rfl
          | ok result =>
              simp only [bind, Except.bind]
              cases result.1.quorumReached && decide (core.replica.state.view < result.1.view) with
              | false => rfl
              | true => rfl
      | prepare | preCommit | commit | decide => exact hanswer _

/-- A message that a core at rest has refused is refused again. -/
theorem AtRest.absorbs_of_refused {cause : Error} {out : List Action} (hrest : core.AtRest ctx)
    (hrefused : core.consider ctx message = .ok (.error cause, mid))
    (h : core.handle ctx now message = .ok (core', out)) : core'.Absorbs ctx message := by
  obtain rfl := hrest.eq_of_refused hrefused
  obtain ⟨rfl, -⟩ := Prod.mk.inj (Except.ok.inj (h.symm.trans (hrest.handle_refused hrefused)))
  exact Or.inl ⟨cause, by rw [consider_metrics, hrefused]; rfl⟩

/-! ### Messages that were accepted -/

section Accepted

variable {out : List Action}

/-- **After an accepted message**, before the views that are over are forgotten. What is said on it
may come to deliveries to the member itself. -/
structure Ends (ctx : Context) (mid : Core σ) (said : List Action) (r : Replica σ)
    (c : Collector) : Prop where
  /-- What every turn keeps is still there. -/
  kept : ∀ P : Replica σ → Collector → Prop,
    (∀ t : Turn σ, t.Kind ctx → P t.before.replica t.before.votes →
      P t.after.replica t.after.votes) → P mid.replica mid.votes → P r c
  /-- A last delivery does not change the replica. -/
  last : weightIn ctx.me mid.replica.state.view said ≤ 1 → r = mid.replica
  /-- Where nothing is said, nothing changes. -/
  idle : said = [] → c = mid.votes

/-- What is said on an accepted message is delivered to the member itself, and the core tidied
up. -/
theorem handle_ok (haccepted : core.consider ctx message = .ok (.ok said, mid))
    (h : core.handle ctx now message = .ok (core', out)) :
    ∃ c, core'.votes = c.pruneBelow core'.replica.state.view ∧
      Ends ctx mid said core'.replica c := by
  obtain ⟨⟨first, queue⟩, hdispatch, hroute⟩ := bind_eq_ok.mp h
  rw [dispatch, haccepted] at hdispatch
  obtain ⟨rfl, rfl⟩ := Prod.mk.inj (Except.ok.inj hdispatch)
  obtain ⟨⟨status, metrics, rfl⟩, -⟩ := route_ok hroute
  refine ⟨_, rfl, ?_, ?_, ?_⟩
  · intro P turn hP
    exact kept_of_selfTurns (P := fun core => P core.replica core.votes) turn hP
  · intro hweight
    exact replica_of_selfTurns hweight
  · rintro rfl
    rw [selfTurns_nil]
    rfl

/-- What a replica has come to is not undone. -/
theorem Ends.attains {r : Replica σ} {c : Collector} (h : Ends ctx mid said r c) {view : View}
    {phase : Phase} (hthere : mid.replica.state.Attains view phase) : r.state.Attains view phase :=
  h.kept (fun r _ => r.state.Attains view phase)
    (fun _ hkind hthere => hthere.trans (Turn.attains_of_kind hkind)) hthere

/-- A later phase that is accepted is followed by the replica. -/
theorem onPhase_of_consider (hlater : Phase.prepare < envelope)
    (haccepted : core.consider ctx (.statement envelope signed) = .ok (.ok said, mid)) :
    signed.body.phase = envelope ∧
      core.replica.onPhase ctx signed = .ok (mid.replica, said) := by
  cases considers_of_consider haccepted with
  | entered => exact absurd hlater (by decide)
  | accepted => exact absurd hlater (by decide)
  | followed hphase _ hanswer => exact ⟨hphase, hanswer⟩

/-- A vote that was accepted is in, or its view is over. -/
theorem absorbs_of_vote {vote : Vote}
    (haccepted : core.consider ctx (.vote vote) = .ok (.ok said, mid))
    (h : core.handle ctx now (.vote vote) = .ok (core', out)) : core'.Absorbs ctx (.vote vote) := by
  obtain ⟨c, hvotes, hends⟩ := handle_ok haccepted h
  have hmid : mid.votes.HasVote vote := by
    cases considers_of_consider haccepted with
    | counted hcount => exact Leader.hasVote_of_onVote hcount
    | certified hcount => exact Leader.hasVote_of_onVote hcount
  have hin : c.HasVote vote := hends.kept (fun _ c => c.HasVote vote)
    (fun _ => Turn.hasVote_of_kind) hmid
  refine absorbs_vote fun hview => ?_
  rw [hvotes]
  exact hin.pruneBelow (hview ▸ UInt64.le_refl _)

/-- The proposal has been voted on. -/
theorem absorbs_of_prepare
    (haccepted : core.consider ctx (.statement .prepare signed) = .ok (.ok said, mid))
    (h : core.handle ctx now (.statement .prepare signed) = .ok (core', out)) :
    core'.Absorbs ctx (.statement .prepare signed) := by
  obtain ⟨c, -, hends⟩ := handle_ok haccepted h
  have hmid : mid.replica.state.Attains signed.body.view .prepare := by
    cases considers_of_consider haccepted with
    | accepted _ hanswer => exact (Replica.onPrepare_attains hanswer).1
    | followed _ hlater => exact absurd hlater (by decide)
  exact absorbs_prepare (Replica.refuses_prepare (hends.attains hmid))

/-- The phase has been followed. -/
theorem absorbs_of_phase (hlater : Phase.prepare < envelope) (hdecide : envelope ≠ .decide)
    (haccepted : core.consider ctx (.statement envelope signed) = .ok (.ok said, mid))
    (h : core.handle ctx now (.statement envelope signed) = .ok (core', out)) :
    core'.Absorbs ctx (.statement envelope signed) := by
  obtain ⟨c, -, hends⟩ := handle_ok haccepted h
  obtain ⟨rfl, hanswer⟩ := onPhase_of_consider hlater haccepted
  have hthere := hends.attains ((Replica.onPhase_attains hanswer).1 hdecide)
  exact absorbs_phase hlater (Replica.refuses_phase hdecide hthere)

/-- The payload has been committed, and does not extend itself. -/
theorem absorbs_of_decision
    (hfresh : ctx.scheme.payloadDigest signed.body.payload ≠ signed.body.payload.parent)
    (haccepted : core.consider ctx (.statement .decide signed) = .ok (.ok said, mid))
    (h : core.handle ctx now (.statement .decide signed) = .ok (core', out)) :
    core'.Absorbs ctx (.statement .decide signed) := by
  obtain ⟨hdecide, hanswer⟩ := onPhase_of_consider (by decide) haccepted
  obtain ⟨hcommitted, hout⟩ := Replica.decided_of_onPhase hdecide hanswer
  obtain ⟨c, -, hends⟩ := handle_ok haccepted h
  have hsame : core'.replica = mid.replica := by
    refine hends.last (Nat.le_trans (Replica.onPhase_leaves hanswer).weight ?_)
    rw [hdecide]
    decide
  refine absorbs_phase (by decide) (Replica.refuses_decision ?_ ?_)
  · rwa [hsame]
  · rw [hsame, hcommitted]
    exact hfresh.symm

/-- The member is held in the view or further on, and a quorum in it was followed. -/
theorem absorbs_of_newView (honce : core.votes.HeldOnce)
    (haccepted : core.consider ctx (.statement .newView signed) = .ok (.ok said, mid))
    (h : core.handle ctx now (.statement .newView signed) = .ok (core', out)) :
    core'.Absorbs ctx (.statement .newView signed) := by
  obtain ⟨c, hvotes, hends⟩ := handle_ok haccepted h
  cases considers_of_consider haccepted with
  | followed _ hlater => exact absurd hlater (by decide)
  | @entered _ entry votes replica said _ hentry hanswer =>
  obtain ⟨-, heq, hadd⟩ := Leader.onNewView_ok hentry
  have hview : entry.view = signed.body.view := congrArg Entry.view heq
  obtain ⟨honce', hfrom⟩ : c.HeldOnce ∧ c.HeldFrom signed.signer signed.body.view :=
    hends.kept (fun _ c => c.HeldOnce ∧ c.HeldFrom signed.signer signed.body.view)
      (fun _ => Turn.heldFrom_of_kind) ⟨honce.addNewView hadd, honce.heldFrom hadd⟩
  refine absorbs_newView (hvotes ▸ honce'.pruneBelow _) (hvotes ▸ hfrom.pruneBelow) fun hlater => ?_
  rcases hanswer with ⟨⟨-, hbefore⟩, hmoved⟩ | ⟨hstays, hreplica, rfl⟩
  · -- The replica followed, and has not gone back since.
    rw [Replica.enterView_of_lt hbefore] at hmoved
    have hthere := hends.attains replica.state.attains_self
    have hentered : replica.state.view = entry.view := by
      rw [← (Prod.mk.inj hmoved).1]
      rfl
    rw [hentered, hview] at hthere
    exact absurd hlater (UInt64.not_lt.mpr hthere.view_le)
  · -- Nothing was said, so the announcement was all.
    have hsame : core'.replica = core.replica := (hends.last (Nat.zero_le _)).trans hreplica
    have hquorum : entry.quorumReached ↔ ctx.committee.quorum ≤ entry.count := by
      rw [heq]
      exact decide_eq_true_iff
    rw [hvotes, hends.idle rfl, Collector.newViewCount, Collector.round_pruneBelow,
      if_pos (UInt64.le_of_lt hlater)]
    rw [hsame] at hlater
    rw [hquorum, hview, Collector.count_of_addNewView hadd] at hstays
    exact Nat.not_le.mp fun hle => hstays ⟨hle, hlater⟩

/-- **A message that was accepted** comes to nothing when it comes again. -/
theorem Reached.absorbs_of_accepted (hreached : core.Reached ctx)
    (hfresh : ∀ st, message.body? = some st →
      ctx.scheme.payloadDigest st.payload ≠ st.payload.parent)
    (haccepted : core.consider ctx message = .ok (.ok said, mid))
    (h : core.handle ctx now message = .ok (core', out)) : core'.Absorbs ctx message := by
  cases message with
  | vote vote => exact absorbs_of_vote haccepted h
  | statement envelope signed =>
  cases envelope with
  | newView => exact absorbs_of_newView hreached.heldOnce haccepted h
  | prepare => exact absorbs_of_prepare haccepted h
  | preCommit | commit => exact absorbs_of_phase (by decide) Phase.noConfusion haccepted h
  | decide => exact absorbs_of_decision (hfresh _ rfl) haccepted h

end Accepted

end Core

/-- **Duplicate delivery is harmless.** Whatever state a process has come to and whatever message it
has handled, accepted or refused: when the same message comes again, at any time but with nothing in
between, nothing is said, and replica, store, collector and status stay as they were. Only a
decision relies on digests here: committing a payload that was its own parent could be repeated. -/
theorem repetition_is_harmless {σ : Type} [StateStore σ] {ctx : Context} {core core' : Core σ}
    {message : Message} {now : Instant} {out : List Action} (hreached : core.Reached ctx)
    (hfresh : ∀ st, message.body? = some st →
      ctx.scheme.payloadDigest st.payload ≠ st.payload.parent)
    (h : core.handle ctx now message = .ok (core', out)) (later : Instant) :
    ∃ liveness metrics,
      core'.handle ctx later message = .ok ({ core' with liveness, metrics }, []) := by
  have hreact : core.react ctx now (.message message) = .ok (core', out) := h
  have hrest : core'.AtRest ctx := hreached.atRest.react hreact
  obtain ⟨⟨first, said⟩, hdispatch, -⟩ := bind_eq_ok.mp h
  obtain ⟨⟨answer, mid⟩, hconsider, -⟩ := bind_eq_ok.mp hdispatch
  refine hrest.handle_absorbed ?_
  cases answer with
  | error cause => exact hreached.atRest.absorbs_of_refused hconsider h
  | ok actions => exact hreached.absorbs_of_accepted hfresh hconsider h

namespace Redelivering

/-- The leader of view 1. -/
def ctx : Context := .numbered .four 1 Committee.one_mem_four

/-- The payload that is decided. -/
def payload : Payload := ⟨Scheme.transparent.genesisDigest, [80]⟩

/-- The decision of view 0. -/
def decision : Message :=
  .numbered 0 ⟨0, .decide, payload, .numbered ⟨.commit, 0, payload⟩ [0, 1, 2]⟩

end Redelivering

open Redelivering in
/-- A fresh member catches up with the decision of view 0, and so enters the view that it leads
itself: it executes the payload, and holds its own announcement. When the decision comes again, that
is all. -/
theorem repetition_is_harmless_of_decision :
    ∃ core out, (Core.fresh ctx).handle ctx 0 decision = .ok (core, out) ∧
      executedIn out = [payload] ∧ core.replica.state.view = 1 ∧ core.votes.newViewCount 1 = 1 ∧
      ∃ liveness metrics,
        core.handle ctx 7 decision = .ok ({ core with liveness, metrics }, []) := by
  have hreached : (Core.fresh ctx).Reached ctx := ⟨{}, _, Core.create_fresh ctx, .refl⟩
  have hcomputed : ((Core.fresh ctx).handle ctx 0 decision).toOption.map (fun result =>
      (executedIn result.2, result.1.replica.state.view, result.1.votes.newViewCount 1)) =
        some ([payload], 1, 1) := by decide +kernel
  cases h : (Core.fresh ctx).handle ctx 0 decision with
  | error o =>
      rw [h] at hcomputed
      cases hcomputed
  | ok result =>
      obtain ⟨core, out⟩ := result
      rw [h] at hcomputed
      obtain ⟨hexecuted, hview, hcount⟩ : executedIn out = [payload] ∧
          core.replica.state.view = 1 ∧ core.votes.newViewCount 1 = 1 := by
        simpa [Except.toOption] using hcomputed
      refine ⟨core, out, rfl, hexecuted, hview, hcount, ?_⟩
      refine repetition_is_harmless hreached ?_ h 7
      rintro st ⟨⟩
      decide +kernel

end HotStuff
