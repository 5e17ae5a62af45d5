import HotStuff.Proofs.Execution
import HotStuff.Proofs.Upkeep

/-!
# The Lock

A vote in Commit binds the votes in Prepare that come later, however much later and in whichever
process of the member: `LockState` says that the lock is on the ballot voted for last in Commit, or
rather on the certificate that led to this vote, and that it is not from a later view than the
replica. Each proposal that is voted for has been compared with that lock.

## Main definitions

* `lastCommit`: the last vote in Commit among some ballots.
* `Turn.Respects`: what a vote in Prepare owes to an earlier vote in Commit.

## Main results

* `LockState.move`, `LockState.follow`: every turn keeps the lock on the last vote in Commit.
* `prepare_votes_respect_lock`: every vote in Prepare respects the last vote in Commit before it.
-/

namespace HotStuff

/-- The last vote in Commit among some ballots. -/
def lastCommit (ballots : List Ballot) : Option Ballot :=
  (ballots.filter fun b => b.phase = .commit).getLast?

/-- Without votes there is no last one in Commit. -/
@[simp] theorem lastCommit_nil : lastCommit [] = none := rfl

/-- Votes in other phases do not change the last vote in Commit. -/
theorem lastCommit_append {ballots votes : List Ballot} (h : ∀ b ∈ votes, b.phase ≠ .commit) :
    lastCommit (ballots ++ votes) = lastCommit ballots := by
  have hnone : (votes.filter fun b => b.phase = .commit) = [] :=
    List.filter_eq_nil_iff.mpr (by simpa using h)
  rw [lastCommit, List.filter_append, hnone, List.append_nil, lastCommit]

/-- One more vote in Commit is the last one. -/
@[simp] theorem lastCommit_concat (ballots : List Ballot) (view : View) (payload : Payload) :
    lastCommit (ballots ++ [⟨.commit, view, payload⟩]) = some ⟨.commit, view, payload⟩ := by
  simp [lastCommit]

/-- The last vote in Commit is one of the votes, and one in Commit. -/
theorem mem_of_lastCommit {ballots : List Ballot} {b : Ballot} (h : lastCommit ballots = some b) :
    b ∈ ballots ∧ b.phase = .commit := by
  have hmem := List.mem_of_getLast? h
  simpa using hmem

/-- **The state of the lock**, after some votes: it is on the last vote in Commit, it is from no
later view than the replica, and a view voted in Commit in is not waited for. -/
structure LockState (ballots : List Ballot) (s : ReplicaState) : Prop where
  last : ∀ b, lastCommit ballots = some b →
    ∃ lock, s.locked = some lock ∧ lock.view = b.view ∧ lock.payload = b.payload
  bound : ∀ lock, s.locked = some lock → lock.view ≤ s.view
  past : ∀ b ∈ ballots, b.phase = .commit →
    b.view < s.view ∨ b.view = s.view ∧ s.phase ≠ .newView

namespace LockState

variable {ballots votes : List Ballot} {s s' : ReplicaState} {ctx : Context} {ds : List Deed}

/-- A replica that has not voted need not be locked. -/
theorem boot (hlocked : s.locked = none) : LockState [] s :=
  ⟨by simp, by simp [hlocked], by simp⟩

/-- A turn without a vote in Commit keeps the lock, as long as the view is not entered again. -/
theorem keep (h : LockState ballots s) (hvotes : ∀ b ∈ votes, b.phase ≠ .commit)
    (hlocked : s'.locked = s.locked) (hview : s.view ≤ s'.view)
    (hback : s'.view = s.view → s.phase ≠ .newView → s'.phase ≠ .newView) :
    LockState (ballots ++ votes) s' := by
  constructor
  · intro b hb
    rw [lastCommit_append hvotes] at hb
    rw [hlocked]
    exact h.last b hb
  · intro lock hlock
    exact UInt64.le_trans (h.bound lock (hlocked ▸ hlock)) hview
  · intro b hb hphase
    have hold : b ∈ ballots := by
      rcases List.mem_append.mp hb with hold | hnew
      · exact hold
      · exact absurd hphase (hvotes b hnew)
    rcases h.past b hold hphase with hlt | ⟨heq, hactive⟩
    · exact Or.inl (UInt64.lt_of_lt_of_le hlt hview)
    · rcases UInt64.lt_or_eq_of_le hview with hlt | hsame
      · exact Or.inl (heq ▸ hlt)
      · exact Or.inr ⟨heq.trans hsame, hback hsame.symm hactive⟩

/-- The vote in Commit takes the lock to its certificate: no lock is from a later view. -/
theorem lock (h : LockState ballots s) {cert : Certificate} {payload : Payload}
    (hview : cert.view = s.view) (hpayload : cert.payload = payload) :
    LockState (ballots ++ [⟨.commit, s.view, payload⟩]) (s.lock cert) := by
  have hnewer : ReplicaState.newer s.locked cert = cert :=
    ReplicaState.newer_of_le fun lock hheld => hview ▸ h.bound lock hheld
  have hlocked : (s.lock cert).locked = some cert := congrArg some hnewer
  constructor
  · intro b hb
    rw [lastCommit_concat] at hb
    obtain rfl := Option.some.inj hb
    exact ⟨cert, hlocked, hview, hpayload⟩
  · intro lock hlock
    obtain rfl := Option.some.inj (hlocked.symm.trans hlock)
    exact hview ▸ UInt64.le_refl _
  · intro b hb hphase
    rcases List.mem_append.mp hb with hold | hnew
    · exact (h.past b hold hphase).imp_right fun ⟨heq, _⟩ => ⟨heq, by simp [ReplicaState.lock]⟩
    · obtain rfl := List.mem_singleton.mp hnew
      exact Or.inr ⟨rfl, by simp [ReplicaState.lock]⟩

/-- Entering a later view keeps the lock. -/
theorem enter (h : LockState ballots s) {view : View} (hlater : s.view < view) :
    LockState ballots (s.enter view) := by
  have hkept : LockState (ballots ++ []) (s.enter view) :=
    h.keep (by simp) rfl (UInt64.le_of_lt hlater) fun heq =>
      absurd heq.symm (UInt64.ne_of_lt hlater)
  rwa [List.append_nil] at hkept

/-- **Every move keeps the lock on the last vote in Commit.** -/
theorem move {trusted : Certificate → Prop} {heard : Statement → Prop} (h : LockState ballots s)
    (hmove : Move ctx trusted heard s ds s') :
    LockState (ballots ++ ds.filterMap Deed.ballot?) s' := by
  have hview := hmove.view_le
  have hback := hmove.not_back
  cases hmove with
  | rest => exact h.keep (by simp) rfl hview hback
  | enter => exact h.keep (by simp) rfl hview hback
  | accept => exact h.keep (by simp [Deed.ballot?]) rfl hview hback
  | preCommit => exact h.keep (by simp [Deed.ballot?]) rfl hview hback
  | lock _ _ hcert =>
      exact h.lock (congrArg Ballot.view hcert) (congrArg Ballot.payload hcert)
  | decide =>
      exact h.keep (by simp [Deed.ballot?]) (ReplicaState.commit_locked ..) hview hback
  | catchUp =>
      exact h.keep (by simp [Deed.ballot?]) (ReplicaState.commit_locked ..) hview hback

/-- **Following an own certificate keeps the lock on the last vote in Commit**, whichever proposal
the replica holds. -/
theorem follow {st : Statement} (h : LockState ballots s) (hview : st.justify.view = s.view)
    (hpayload : st.justify.payload = st.payload)
    (hfollows : Replica.Follows ctx st s ds s') :
    LockState (ballots ++ ds.filterMap Deed.ballot?) s' := by
  have hview_le := hfollows.view_le
  cases hfollows with
  | preCommit =>
      exact h.keep (by simp [Deed.ballot?]) rfl hview_le (by simp [ReplicaState.preCommit])
  | lock => exact h.lock hview hpayload
  | decide =>
      refine h.keep (by simp [Deed.ballot?]) (ReplicaState.commit_locked ..) hview_le ?_
      intro hsame _
      exact ReplicaState.commit_not_back hsame Phase.noConfusion

/-- The lock of an accepted proposal is on the last vote in Commit, so the proposal is for a later
view, and safe with respect to that vote. -/
theorem accepts (h : LockState ballots s) {st : Statement} {b : Ballot}
    (hlast : lastCommit ballots = some b)
    (haccepts : s.Accepts ctx (Trusted ctx Evidence.none.voted) st) :
    b.view < st.view ∧ (st.payload = b.payload ∨
      st.payload.parent = ctx.scheme.payloadDigest b.payload ∨
      st.justify.phase = .prepare ∧ ctx.verify st.justify = .ok () ∧
        b.view < st.justify.view ∧ st.justify.view < st.view) := by
  obtain ⟨hmem, hphase⟩ := mem_of_lastCommit hlast
  obtain ⟨lock, hlocked, hview, hpayload⟩ := h.last b hlast
  constructor
  · have hstale := haccepts.notStale
    rcases h.past b hmem hphase with hlt | ⟨heq, hactive⟩
    · exact UInt64.lt_of_lt_of_le hlt hstale
    · rcases UInt64.lt_or_eq_of_le hstale with hlt | hsame
      · exact heq ▸ hlt
      · exact absurd (haccepts.fresh hsame.symm) hactive
  · rcases haccepts.safe lock hlocked with hsame | hchild | hnewer
    · exact Or.inl (hsame.trans hpayload)
    · exact Or.inr (Or.inl (hpayload ▸ hchild))
    · right; right
      rw [hview] at hnewer
      rcases haccepts.justified with hgenesis | ⟨hprepare, hearlier, htrusted⟩
      · -- The genesis certificate is of the first view, which is later than none.
        rw [hgenesis] at hnewer
        exact absurd hnewer (UInt64.not_lt.mpr (UInt64.le_iff_toNat_le.mpr (Nat.zero_le _)))
      · exact ⟨hprepare, htrusted.valid, hnewer, hearlier⟩

end LockState

/-! ### The votes of a life -/

section Lives

variable {σ : Type} {ctx : Context} {h : List (Turn σ)}

/-- **What a vote in Prepare owes to an earlier vote in Commit**: it comes in a later view, and is
for the same payload, for one that extends it, or on a proposal that brings a valid Prepare
certificate of a view in between. -/
structure Turn.Respects (ctx : Context) (t : Turn σ) (committed voted : Ballot) : Prop where
  later : committed.view < voted.view
  safe : voted.payload = committed.payload ∨
    voted.payload.parent = ctx.scheme.payloadDigest committed.payload ∨
    ∃ st, t.proposal? = some st ∧ voted = ⟨st.phase, st.view, st.payload⟩ ∧
      st.justify.phase = .prepare ∧ ctx.verify st.justify = .ok () ∧
      committed.view < st.justify.view ∧ st.justify.view < voted.view

/-- Every vote in Prepare of a history respects the last vote in Commit before it. -/
def RespectsLock (ctx : Context) (h : List (Turn σ)) : Prop :=
  ∀ pre vote post, ballotsOf h = pre ++ vote :: post → vote.phase = .prepare →
    ∀ b, lastCommit pre = some b → ∃ t ∈ h, .vote vote ∈ t.deeds ∧ t.Respects ctx b vote

/-- A history without votes respects any lock. -/
theorem respectsLock_nil : RespectsLock ctx ([] : List (Turn σ)) := by
  intro pre vote post hsplit
  exact absurd (List.append_eq_nil_iff.mp hsplit.symm).2 (List.cons_ne_nil _ _)

/-- A turn keeps the votes in order if the vote in Prepare that it casts is its only one, and
respects the last vote in Commit of the history. -/
theorem RespectsLock.concat (hrespects : RespectsLock ctx h) {t : Turn σ}
    (hturn : ∀ vote, .vote vote ∈ t.deeds → vote.phase = .prepare → t.deeds = [.vote vote] ∧
      ∀ b, lastCommit (ballotsOf h) = some b → t.Respects ctx b vote) :
    RespectsLock ctx (h ++ [t]) := by
  intro pre vote post hsplit hphase b hlast
  rw [ballotsOf_append, ballotsOf_singleton] at hsplit
  by_cases hcast : .vote vote ∈ t.deeds
  · obtain ⟨hdeeds, hturn⟩ := hturn vote hcast hphase
    rw [hdeeds] at hsplit
    rcases concat_eq_append_cons hsplit with ⟨rfl, -, -⟩ | ⟨rest, -, hbefore⟩
    · exact ⟨t, by simp, hcast, hturn b hlast⟩
    · obtain ⟨t', ht', hcast'⟩ := hrespects pre vote rest hbefore hphase b hlast
      exact ⟨t', by simp [ht'], hcast'⟩
  · -- A vote that the turn does not cast stands in the history before it.
    have hnot : vote ∉ t.deeds.filterMap Deed.ballot? := by
      intro hvote
      rw [← ballotsOf_singleton, mem_ballotsOf] at hvote
      obtain ⟨t', ht', hcast'⟩ := hvote
      exact hcast (List.mem_singleton.mp ht' ▸ hcast')
    rcases List.append_eq_append_iff.mp hsplit with ⟨late, -, hlate⟩ | ⟨rest, hbefore, hrest⟩
    · exact absurd (hlate ▸ by simp) hnot
    · cases rest with
      | nil =>
          rw [List.nil_append] at hrest
          exact absurd (hrest ▸ List.mem_cons_self ..) hnot
      | cons a rest =>
          obtain ⟨rfl, -⟩ := List.cons.inj hrest
          obtain ⟨t', ht', hcast'⟩ := hrespects pre vote rest hbefore hphase b hlast
          exact ⟨t', by simp [ht'], hcast'⟩

variable [StateStore σ] [LawfulStore σ]

/-- **One turn** keeps the lock on the last vote in Commit, and its vote in Prepare respects the
lock. -/
theorem LockState.turn {t : Turn σ} (hlock : LockState (ballotsOf h) t.before.replica.state)
    (hrespects : RespectsLock ctx h) (hkept : t.before.Kept ctx) (hkind : t.Kind ctx) :
    LockState (ballotsOf (h ++ [t])) t.after.replica.state ∧ RespectsLock ctx (h ++ [t]) := by
  rw [ballotsOf_append, ballotsOf_singleton]
  rcases (Turn.role_of_kind hkind).moves hkept.sound with hmove | ⟨st, hannounces, hfollows⟩
  · refine ⟨hlock.move hmove, hrespects.concat fun vote hcast hphase => ?_⟩
    obtain ⟨st, hheard, haccepts, rfl, hdeeds⟩ := hmove.proposal_of_vote hcast hphase
    refine ⟨hdeeds, fun b hlast => ?_⟩
    obtain ⟨hlater, hsafe⟩ := hlock.accepts hlast haccepts
    refine ⟨hlater, hsafe.imp_right (Or.imp_right fun hjustified => ?_)⟩
    exact ⟨st, hheard, by rw [haccepts.phase], hjustified⟩
  · have hhere : st.justify.view = t.before.replica.state.view :=
      hannounces.justify_view.trans hannounces.view
    refine ⟨hlock.follow hhere hannounces.justify_payload hfollows, ?_⟩
    refine hrespects.concat fun vote hcast hphase => ?_
    generalize t.deeds = deeds, t.after.replica.state = state at hcast hfollows
    cases hfollows with
    | preCommit | lock =>
        obtain rfl := Deed.vote.inj (List.mem_singleton.mp hcast)
        cases hphase
    | decide => cases List.mem_singleton.mp hcast

/-- **The lock rule.** Through all processes of a member on one store, empty at first, whatever it
is handed: every vote in Prepare respects the last vote in Commit before it. -/
theorem prepare_votes_respect_lock {store : σ} {first core : Core σ}
    {admits : List (Turn σ) → Input → Prop} (hload : StateStore.load store = .ok none)
    (hcreate : Core.create ctx store = .ok first) (hrun : Run ctx admits first h core) :
    RespectsLock ctx h := by
  have hfirst := Core.create_of_empty hload hcreate
  have hkept : core.Kept ctx ∧ LockState (ballotsOf h) core.replica.state ∧ RespectsLock ctx h := by
    refine Run.kept_induction hcreate hrun (P := fun h core =>
      LockState (ballotsOf h) core.replica.state ∧ RespectsLock ctx h) ?_ ?_ ?_ ?_
    · exact ⟨.boot (by rw [hfirst, ReplicaState.initial]), respectsLock_nil⟩
    · rintro h t ⟨hlock, hrespects⟩ hkept hkind
      exact hlock.turn hrespects hkept hkind
    · rintro h core core' hlock ⟨status, metrics, rfl⟩
      exact hlock
    · rintro h core core' view ⟨hlock, hrespects⟩ hlater hstate -
      exact ⟨hstate ▸ hlock.enter hlater, hrespects⟩
  exact hkept.2.2

end Lives

open Overtaking in
/-- A member that is locked in view 2 is restarted, votes for the same payload in view 3, and in
view 7 for another one that brings a certificate of view 5. -/
theorem prepare_votes_respect_lock_across_restart :
    ∃ h core, StateStore.load ({} : MemoryStore) = .ok none ∧
      Core.create ctx ({} : MemoryStore) = .ok (.fresh ctx) ∧
      Run ctx (fun _ _ => True) (Core.fresh ctx) h core ∧
      ballotsOf h = [⟨.prepare, 2, payload⟩, ⟨.preCommit, 2, payload⟩, ⟨.commit, 2, payload⟩,
        ⟨.prepare, 3, payload⟩, ⟨.prepare, 7, ⟨payload.parent, [81]⟩⟩] ∧ RespectsLock ctx h := by
  obtain ⟨h, core, hrun, hballots⟩ := Run.exists_play
    (P := fun h _ => ballotsOf h = [⟨.prepare, 2, payload⟩, ⟨.preCommit, 2, payload⟩,
      ⟨.commit, 2, payload⟩, ⟨.prepare, 3, payload⟩, ⟨.prepare, 7, ⟨payload.parent, [81]⟩⟩])
    (show ((Core.fresh ctx).play ctx (fun _ _ => True) [] (locking ++ [.restart,
      .input (.numbered 3 3 .prepare payload Scheme.transparent.genesis),
      .input (.numbered 3 7 .prepare ⟨payload.parent, [81]⟩ (cert .prepare 5))])).map _ = some true
      by decide +kernel)
  exact ⟨h, core, rfl, Core.create_fresh ctx, hrun, hballots,
    prepare_votes_respect_lock rfl (Core.create_fresh ctx) hrun⟩

end HotStuff
