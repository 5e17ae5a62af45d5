import HotStuff.Proofs.Deployment

/-!
# Decisions in Order

What is decided in a view leads to whatever is certified in that view or a later one:
`World.Ordered`, by induction on views. A quorum for the decision and a quorum for the later
proposal share a correct member, and what that member is locked on, when it accepts the
proposal, is led to by the decision. If the proposal is the locked payload or extends it,
nothing is left to show. Otherwise it brings a newer Prepare certificate, and by induction the
decision leads to what that certifies.

Here the rules of a replica leave a gap: they do not compare the proposal with the payload that its
certificate certifies. The certificate may be for the locked payload itself, and the proposal
another payload on the same parent. A member that votes for it swaps what it is locked on, and a
quorum of such votes overturns what was decided. The induction is for runs without that, and it
shows that nothing else makes a decision fall.

The induction also gives that committed digests only move forward, for which the members need not
have committed the same so far: a member that lags behind catches up along the same chain, and a
proposal that is overtaken by a decision while it is held is overtaken by itself.

## Main results

* `World.Sound.ordered`: decisions come first, in every view.
* `World.Sound.decisionsStand_iff`: decisions stand exactly if none is overturned.
* `World.Sound.forward`: a turn moves the committed digest forward.
-/

namespace HotStuff

section Swaps

variable {σ : Type}

/-- **A swap.** The member votes for a proposal on the parent of the payload it is locked on, but
another payload than that, although the certificate that the proposal brings is for the locked
payload. -/
structure Turn.Swaps (t : Turn σ) (lock : Certificate) (st : Statement) : Prop where
  proposed : t.proposal? = some st
  voted : .vote ⟨.prepare, st.view, st.payload⟩ ∈ t.deeds
  locked : t.before.replica.state.locked = some lock
  phase : st.justify.phase = .prepare
  again : st.justify.payload = lock.payload
  sibling : st.payload.parent = lock.payload.parent
  other : st.payload ≠ lock.payload

variable [StateStore σ] {d : Deployment} (w : World d σ)

/-- **A decision is overturned.** The member swaps a payload that has been decided, and a quorum
votes with it for the other one. -/
def World.Overturns (t : Turn σ) : Prop :=
  ∃ lock st, t.Swaps lock st ∧ w.DecidedBefore st.view lock.payload ∧
    w.Certified ⟨.prepare, st.view, st.payload⟩

/-- **Decisions stand.** Nothing that is certified in the view of a decision or later puts another
payload on its parent. -/
def World.DecisionsStand : Prop :=
  ∀ u v p q, u ≤ v → w.Certified ⟨.commit, u, p⟩ → w.Certified ⟨.prepare, v, q⟩ →
    p.parent = q.parent → p = q

/-- **The conditions of agreement**: any two quorums share a correct member, and the payloads voted
for have no collision. -/
structure World.Sound : Prop where
  reaches : d.Reaches w
  few : d.committee.size + d.faulty.card < 2 * d.committee.quorum
  free : d.scheme.CollisionFree d.scheme.genesisDigest w.Supported

/-- **Decisions come first.** What is decided in a view up to `view` leads to what is certified in
`view`. -/
def World.Ordered (view : View) : Prop :=
  ∀ u p q, u ≤ view → w.Certified ⟨.commit, u, p⟩ → w.Certified ⟨.prepare, view, q⟩ →
    d.scheme.Leads w.Supported (d.scheme.payloadDigest p) (d.scheme.payloadDigest q)

end Swaps

namespace World.Sound

variable {d : Deployment} {σ : Type} [StateStore σ] [LawfulStore σ] {w : World d σ}
  {m : d.Correct} {h : List (Turn σ)} {s : ReplicaState} {t : Turn σ} {u v view : View}
  {p q : Payload}

omit [StateStore σ] [LawfulStore σ] in
/-- A vote in Commit has a Prepare certificate behind it. -/
theorem prepared_of_vote (hcourse : w.CourseOf m h s) (hvoted : ⟨.commit, v, p⟩ ∈ ballotsOf h) :
    w.Certified ⟨.prepare, v, p⟩ := by
  have hearlier : ⟨.preCommit, v, p⟩ ∈ ballotsOf h :=
    (hcourse.voting rfl).mem_of_lt hvoted (Or.inr (Or.inl rfl)) (Nat.lt_succ_self _)
  exact hcourse.certified_of_vote hearlier rfl (by decide)

section Votes

variable (hw : w.Sound)

include hw

/-- **The votes of each correct member are in order**, tied to the state it is in. -/
theorem voting (m : d.Correct) : Voting (ballotsOf (w.history m)) (w.core m).replica.state :=
  (hw.reaches.course m).voting rfl

/-- Two certified ballots of one view are on one payload. -/
theorem payload_eq {b b' : Ballot} (hb : w.Certified b) (hb' : w.Certified b')
    (hview : b.view = b'.view) : b.payload = b'.payload :=
  hw.reaches.payload_eq hw.few hb hb' hview

/-- A decision has a Prepare certificate behind it. -/
theorem prepared (hdecided : w.Certified ⟨.commit, v, p⟩) : w.Certified ⟨.prepare, v, p⟩ := by
  obtain ⟨m, hvoted⟩ := Deployment.exists_voter hw.few hdecided
  exact prepared_of_vote (hw.reaches.course m) hvoted

omit [LawfulStore σ] in
/-- What is certified has been voted for. -/
theorem supported (hcertified : w.Certified ⟨.prepare, v, p⟩) : w.Supported p := by
  obtain ⟨m, hvoted⟩ := Deployment.exists_voter hw.few hcertified
  exact ⟨m, v, hvoted⟩

/-- What is decided has been voted for. -/
theorem supported_of_decided (hdecided : w.DecidedBefore view p) : w.Supported p := by
  obtain ⟨v, -, hcertified⟩ := hdecided
  exact hw.supported (hw.prepared hcertified)

/-- Nothing is decided in the last view, since no proposal is accepted in it. -/
theorem not_decided_last (m : d.Correct) (p : Payload) :
    ¬ w.evidence.Certified (d.context m).committee (d.context m).scheme
      ⟨.commit, View.last, p⟩ := by
  intro hdecided
  have hprepared : w.Certified ⟨.prepare, View.last, p⟩ := hw.prepared hdecided
  obtain ⟨n, hvoted⟩ := Deployment.exists_voter hw.few hprepared
  obtain ⟨h, t, st, haccepted⟩ := (hw.reaches.course n).accepted rfl hvoted rfl
  have hview : View.last = st.view := congrArg Ballot.view haccepted.ballot
  exact haccepted.accepts.notLast hview.symm

/-! ### What the genesis digest leads to -/

/-- The genesis digest leads to what is committed, if it leads to the parents of all decisions. -/
theorem leads_committed_of (hcourse : w.CourseOf m h s)
    (hparents : ∀ p, w.DecidedBefore s.view p →
      d.scheme.Leads w.Supported d.scheme.genesisDigest p.parent) :
    d.scheme.Leads w.Supported d.scheme.genesisDigest s.committed := by
  have hcommitted : s.committed = d.scheme.genesisDigest ∨ ∃ p, w.DecidedBefore s.view p ∧
      s.committed = d.scheme.payloadDigest p := hcourse.committed (hw.not_decided_last m)
  rcases hcommitted with hsame | ⟨p, hdecided, hcommitted⟩
  · rw [hsame]
    exact .refl _
  · have hon := hw.supported_of_decided hdecided
    rw [hcommitted]
    exact (hparents p hdecided).trans (.single hon)

/-- **Everything voted for descends from genesis.** -/
theorem leads_parent (hsupported : w.Supported p) :
    d.scheme.Leads w.Supported d.scheme.genesisDigest p.parent := by
  obtain ⟨m, v, hvoted⟩ := hsupported
  induction v using View.induction generalizing m p with
  | step v ih =>
      obtain ⟨h, t, st, haccepted⟩ := (hw.reaches.course m).accepted rfl hvoted rfl
      obtain ⟨-, rfl, rfl⟩ := Ballot.mk.inj haccepted.ballot
      rw [haccepted.accepts.parent]
      refine hw.leads_committed_of haccepted.course ?_
      rintro q ⟨u, hu, hdecided⟩
      obtain ⟨n, hvoted'⟩ := Deployment.exists_voter hw.few (hw.prepared hdecided)
      have hearlier : u < st.view := UInt64.lt_of_lt_of_le hu haccepted.accepts.notStale
      exact ih u hearlier n hvoted'

/-- Everything committed descends from genesis. -/
theorem leads_committed (hcourse : w.CourseOf m h s) :
    d.scheme.Leads w.Supported d.scheme.genesisDigest s.committed := by
  refine hw.leads_committed_of hcourse ?_
  intro p hdecided
  exact hw.leads_parent (hw.supported_of_decided hdecided)

end Votes

/-! ### Committed digests move forward -/

section Forward

variable (hw : w.Sound) (hordered : ∀ v, v < view → w.Ordered v)

include hw hordered

/-- Two decisions on one parent are one. -/
theorem decided_unique (hp : w.DecidedBefore view p) (hq : w.DecidedBefore view q)
    (hparent : p.parent = q.parent) : p = q := by
  have hon := hw.supported_of_decided hp
  have hon' := hw.supported_of_decided hq
  obtain ⟨u, hu, hdecided⟩ := hp
  obtain ⟨v, hv, hdecided'⟩ := hq
  rcases UInt64.le_total u v with hle | hle
  · have hleads := hordered v hv u p q hle hdecided (hw.prepared hdecided')
    have hroot := hw.leads_parent hon
    exact hw.free.eq_of_parent_eq hroot hon hon' hparent hleads
  · have hleads := hordered u hu v q p hle hdecided' (hw.prepared hdecided)
    have hroot := hw.leads_parent hon'
    exact (hw.free.eq_of_parent_eq hroot hon' hon hparent.symm hleads).symm

/-- **An overtaken decision has been committed already.** While the member held the proposal it
can only have committed that very payload, so deciding it moves the committed digest by it or
not at all. -/
theorem leads_of_held (hcourse : w.CourseOf m h s) (hphase : s.phase = .commit)
    (hheld : s.proposal = some p) (hview : s.view < view)
    (hdecided : w.Certified ⟨.commit, s.view, p⟩) :
    d.scheme.Leads (w.DecidedBefore view) s.committed (d.scheme.payloadDigest p) := by
  have hbefore : w.DecidedBefore view p := ⟨s.view, hview, hdecided⟩
  have hon := hw.supported_of_decided hbefore
  have hearlier : ∀ q, w.DecidedBefore s.view q → w.DecidedBefore view q :=
    fun _ hq => hq.mono (UInt64.le_of_lt hview)
  obtain ⟨p', hheld', hleads⟩ : ∃ p', s.proposal = some p' ∧
      d.scheme.Leads (w.DecidedBefore s.view) p'.parent s.committed :=
    hcourse.held_leads (hw.not_decided_last m) rfl (by simp [hphase])
  obtain rfl := Option.some.inj (hheld.symm.trans hheld')
  rcases hleads.head with heq | ⟨q, hq, hparent, hrest⟩
  · rw [← heq]
    exact .single hbefore
  · obtain rfl := hw.decided_unique hordered (hearlier q hq) hbefore hparent
    rcases hrest.last with heq | ⟨last, hlast, hdigest, -⟩
    · rw [heq]
      exact .refl _
    · -- The payload leads to the last one committed since, which leads back to it.
      obtain ⟨v, hv, hdecided'⟩ := hlast
      have hprepared := hw.prepared hdecided
      have hback := hordered s.view hview v last q (UInt64.le_of_lt hv) hdecided' hprepared
      rw [hdigest] at hback
      have hforth := hrest.mono fun _ hr => hw.supported_of_decided hr
      have hroot := (hw.leads_parent hon).trans (.single hon)
      rw [hw.free.leads_antisymm hroot hforth hback]
      exact .refl _

/-- A turn moves the committed digest forward, through decisions of earlier views than it
reaches. -/
theorem forward (hcourse : w.CourseOf m h s) (ht : t ∈ h)
    (hview : t.after.replica.state.view ≤ view) :
    d.scheme.Leads (w.DecidedBefore view) t.before.replica.state.committed
      t.after.replica.state.committed := by
  obtain ⟨h₁, h₂, rfl⟩ := List.append_of_mem ht
  obtain ⟨hbefore, hlawful⟩ := hcourse.split
  rcases Course.commits (hw.not_decided_last m) hlawful with
    hsame | ⟨v, p, hdecided, hlt, hcommitted, hparent | ⟨rfl, hphase, hheld⟩⟩
  · rw [hsame]
    exact .refl _
  · have hearlier : v < view := UInt64.lt_of_lt_of_le hlt hview
    rw [hcommitted, ← hparent]
    exact .single ⟨v, hearlier, hdecided⟩
  · have hearlier : t.before.replica.state.view < view := UInt64.lt_of_lt_of_le hlt hview
    rw [hcommitted]
    exact hw.leads_of_held hordered hbefore hphase hheld hearlier hdecided

/-- **Parents move forward.** Of the payloads that a member votes for in two views, the parent of
the earlier one leads to that of the later one. -/
theorem leads_parent_parent (hp : ⟨.prepare, u, p⟩ ∈ ballotsOf (w.history m))
    (hq : ⟨.prepare, view, q⟩ ∈ ballotsOf (w.history m)) (hlt : u < view) :
    d.scheme.Leads (w.DecidedBefore view) p.parent q.parent := by
  obtain ⟨h, t, st, hlater⟩ := (hw.reaches.course m).accepted rfl hq rfl
  obtain ⟨-, rfl, rfl⟩ := Ballot.mk.inj hlater.ballot
  obtain ⟨h', t', st', hearlier⟩ := hlater.course.accepted rfl (hlater.earlier _ hp hlt) rfl
  obtain ⟨-, rfl, rfl⟩ := Ballot.mk.inj hearlier.ballot
  rw [hlater.accepts.parent, hearlier.accepts.parent]
  have hpairwise : (h.map (fun t => t.before.replica.state.committed) ++
      [t.before.replica.state.committed]).Pairwise (d.scheme.Leads (w.DecidedBefore st.view)) := by
    refine hlater.course.pairwise_committed fun t'' ht'' => ?_
    have hview := hlater.course.view_le t'' ht''
    exact hw.forward hordered hlater.course ht'' (UInt64.le_trans hview hlater.accepts.notStale)
  obtain ⟨-, -, hleads⟩ := List.pairwise_append.mp hpairwise
  exact hleads _ (List.mem_map_of_mem hearlier.mem) _ (List.mem_singleton_self _)

end Forward

/-! ### The induction on views -/

omit [StateStore σ] [LawfulStore σ] in
/-- **What the lock stands for.** A member that voted in Commit for what was decided is locked,
when it accepts a later proposal, on a payload that it voted for since, and that the decision
leads to. -/
theorem leads_lock {st : Statement} (hordered : ∀ v, v < view → w.Ordered v)
    (haccepted : Course.Accepted (d.context m) w.evidence (.initial d.scheme.genesisDigest)
      (w.history m) ⟨.prepare, view, q⟩ h t st)
    (hdecided : w.Certified ⟨.commit, u, p⟩) (hlt : u < view)
    (hvoted : ⟨.commit, u, p⟩ ∈ ballotsOf (w.history m)) :
    ∃ lock, t.before.replica.state.locked = some lock ∧ u ≤ lock.view ∧ lock.view < view ∧
      ⟨.prepare, lock.view, lock.payload⟩ ∈ ballotsOf (w.history m) ∧
      d.scheme.Leads w.Supported (d.scheme.payloadDigest p)
        (d.scheme.payloadDigest lock.payload) := by
  obtain ⟨-, rfl, rfl⟩ := Ballot.mk.inj haccepted.ballot
  have hlocking := haccepted.course.locking rfl
  obtain ⟨lock, hlock, hle⟩ := hlocking.covers _ (haccepted.earlier _ hvoted hlt) rfl
  obtain ⟨-, -, hlocked⟩ := hlocking.grounded lock hlock
  have hvoting := haccepted.course.voting rfl
  have hprepare : ⟨.prepare, lock.view, lock.payload⟩ ∈ ballotsOf h :=
    hvoting.mem_of_lt hlocked (Or.inl rfl) (show 1 < 3 by decide)
  have hpast := hvoting.view_le hprepare
  have hbefore : lock.view < st.view := by
    rcases UInt64.lt_or_eq_of_le haccepted.accepts.notStale with hearlier | heq
    · exact UInt64.lt_of_le_of_lt hpast hearlier
    · have hlater := hvoting.view_lt (haccepted.accepts.fresh heq.symm) hprepare
      exact heq ▸ hlater
  have hprepared := prepared_of_vote haccepted.course hlocked
  have hleads := hordered lock.view hbefore u p lock.payload hle hdecided hprepared
  exact ⟨lock, hlock, hle, hbefore, haccepted.before _ hprepare, hleads⟩

section Order

variable (hw : w.Sound) (hordered : ∀ v, v < view → w.Ordered v)

include hw hordered

/-- **What the justification stands for.** A decision leads to what is certified in the view, if it
came before the view of the certificate that the proposal brings, unless that certifies the
decision again and the proposal puts another payload on its parent. -/
theorem leads_of_justify {j : View} {y : Payload} (hdecided : w.Certified ⟨.commit, u, p⟩)
    (hle : u ≤ j) (hj : j < view) (hjustify : w.Certified ⟨.prepare, j, y⟩)
    (hcertified : w.Certified ⟨.prepare, view, q⟩) (hsame : p = y → p.parent = q.parent → p = q) :
    d.scheme.Leads w.Supported (d.scheme.payloadDigest p) (d.scheme.payloadDigest q) := by
  have hon : w.Supported p := hw.supported (hw.prepared hdecided)
  have hony : w.Supported y := hw.supported hjustify
  have honq : w.Supported q := hw.supported hcertified
  obtain ⟨n, hearlier, hlater⟩ := Deployment.exists_common_voter hw.few hjustify hcertified
  have hmoved := hw.leads_parent_parent hordered hearlier hlater hj
  have hmoved' := hmoved.mono fun _ hr => hw.supported_of_decided hr
  have hleads := hordered j hj u p y hle hdecided hjustify
  rcases hw.free.leads_parent hony hleads with heq | hparent
  · obtain rfl : p = y := hw.free.injective p y hon hony heq
    rcases hmoved.head with hstayed | ⟨r, hr, hchild, hrest⟩
    · rw [hsame rfl hstayed]
      exact .refl _
    · -- The first payload committed since then has the parent of the decision.
      have hfirst : w.DecidedBefore view p := ⟨u, UInt64.lt_of_le_of_lt hle hj, hdecided⟩
      obtain rfl := hw.decided_unique hordered hr hfirst hchild
      have hrest' := hrest.mono fun _ hr => hw.supported_of_decided hr
      exact hrest'.trans (.single honq)
  · have hparent' := hparent.trans hmoved'
    exact hparent'.trans (.single honq)

/-- A member that has committed nothing since it voted for what was decided is still locked
on it. -/
theorem lock_eq {lock : Certificate} (hdecided : w.Certified ⟨.commit, u, p⟩)
    (hleads : d.scheme.Leads w.Supported (d.scheme.payloadDigest p)
      (d.scheme.payloadDigest lock.payload))
    (hlocked : ⟨.prepare, lock.view, lock.payload⟩ ∈ ballotsOf (w.history m))
    (hvoted : ⟨.prepare, view, q⟩ ∈ ballotsOf (w.history m)) (hlt : lock.view < view)
    (hparent : p.parent = q.parent) : lock.payload = p := by
  have hon : w.Supported p := hw.supported (hw.prepared hdecided)
  have honl : w.Supported lock.payload := ⟨m, lock.view, hlocked⟩
  rcases hw.free.leads_parent honl hleads with heq | hchild
  · exact (hw.free.injective p lock.payload hon honl heq).symm
  · have hmoved := hw.leads_parent_parent hordered hlocked hvoted hlt
    have hback := hchild.trans (hmoved.mono fun _ hr => hw.supported_of_decided hr)
    rw [← hparent] at hback
    exact absurd hback (hw.free.not_leads_parent (hw.leads_parent hon) hon)

/-- The step of the induction, if the proposal does not overturn the decision. -/
theorem leads_certified (hnone : ∀ m, ∀ t ∈ w.history m, ¬ w.Overturns t)
    (hdecided : w.Certified ⟨.commit, u, p⟩) (hlt : u < view)
    (hcertified : w.Certified ⟨.prepare, view, q⟩) :
    d.scheme.Leads w.Supported (d.scheme.payloadDigest p) (d.scheme.payloadDigest q) := by
  obtain ⟨m, hvoted, hprepare⟩ := Deployment.exists_common_voter hw.few hdecided hcertified
  obtain ⟨h, t, st, haccepted⟩ := (hw.reaches.course m).accepted rfl hprepare rfl
  obtain ⟨lock, hlock, hle, hbefore, hlocked, hleads⟩ :=
    leads_lock hordered haccepted hdecided hlt hvoted
  obtain ⟨-, rfl, rfl⟩ := Ballot.mk.inj haccepted.ballot
  have hon : w.Supported st.payload := hw.supported hcertified
  rcases haccepted.accepts.safe lock hlock with hpayload | hchild | hnewer
  · rw [hpayload]
    exact hleads
  · exact (hchild ▸ hleads).trans (.single hon)
  rcases haccepted.accepts.justified with hgenesis | ⟨hphase, hj, htrusted⟩
  · rw [hgenesis] at hnewer
    exact absurd hnewer UInt64.not_lt_zero
  · have hjustify : w.Certified ⟨.prepare, st.justify.view, st.justify.payload⟩ :=
      hphase ▸ htrusted.certified (by simp [hphase])
    have hlater : u ≤ st.justify.view := UInt64.le_trans hle (UInt64.le_of_lt hnewer)
    refine hw.leads_of_justify hordered hdecided hlater hj hjustify hcertified ?_
    -- Otherwise the member would overturn the decision: it is locked on it, and swaps.
    intro hsame hparent
    have hheld := hw.lock_eq hordered hdecided hleads hlocked hprepare hbefore hparent
    by_contra hne
    have hswaps : t.Swaps lock st :=
      { proposed := haccepted.stated.1
        voted := haccepted.voted
        locked := hlock
        phase := hphase
        again := hsame.symm.trans hheld.symm
        sibling := by rw [hheld, hparent]
        other := by rw [hheld]; exact Ne.symm hne }
    have hbefore' : w.DecidedBefore st.view lock.payload := ⟨u, hlt, hheld ▸ hdecided⟩
    exact hnone m t haccepted.mem ⟨lock, st, hswaps, hbefore', hcertified⟩

end Order

section Conclusions

variable (hw : w.Sound)

include hw

/-- **Decisions come first** in every view, if none is overturned. -/
theorem ordered (hnone : ∀ m, ∀ t ∈ w.history m, ¬ w.Overturns t) (view : View) :
    w.Ordered view := by
  induction view using View.induction with
  | step view ih =>
      intro u p q hle hdecided hcertified
      rcases UInt64.lt_or_eq_of_le hle with hlt | rfl
      · exact hw.leads_certified ih hnone hdecided hlt hcertified
      · obtain rfl : p = q := hw.payload_eq hdecided hcertified rfl
        exact .refl _

/-- **Decisions stand exactly if none is overturned.** -/
theorem decisionsStand_iff : w.DecisionsStand ↔ ∀ m, ∀ t ∈ w.history m, ¬ w.Overturns t := by
  constructor
  · rintro hstand m t - ⟨lock, st, hswaps, ⟨u, hlt, hdecided⟩, hcertified⟩
    have hsame := hstand u st.view lock.payload st.payload (UInt64.le_of_lt hlt) hdecided
      hcertified hswaps.sibling.symm
    exact hswaps.other hsame.symm
  · intro hnone u v p q hle hdecided hcertified hparent
    have hon : w.Supported p := hw.supported (hw.prepared hdecided)
    have hleads := hw.ordered hnone v u p q hle hdecided hcertified
    exact hw.free.eq_of_parent_eq (hw.leads_parent hon) hon (hw.supported hcertified) hparent
      hleads

end Conclusions

end World.Sound

end HotStuff
