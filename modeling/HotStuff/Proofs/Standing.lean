import HotStuff.Proofs.Execution
import HotStuff.Proofs.Upkeep

/-!
# The Certificates a Replica Stands On

The certificates in the state of a replica are genuine, and fit its view, its phase and its
proposal. On the path of a leader nothing of this is checked: the replica follows a certificate
that its own collector has formed. It is the conduct of the member that makes these certificates as
good as checked ones, as long as nobody else has its seal.

What is executed always goes back to a Commit certificate for it, whoever has the seal.

## Main definitions

* `Standing`: the invariant of the state.
* `Turn.DecidesOn`: the certificate that a turn brings a decision on.

## Main results

* `Standing.move`: every move keeps the invariant.
* `Turn.Kind.decided`: what is executed in a turn is decided by a certificate that it brings.
* `replica_stands_on_certificates`: both along every run.
-/

namespace HotStuff

/-- A certificate for the view of a state and the proposal held in it. -/
def ReplicaState.Holds (s : ReplicaState) (held : Option Certificate) : Prop :=
  ∃ cert, held = some cert ∧ cert.view = s.view ∧ s.proposal = some cert.payload

/-- **A replica that stands on its certificates.** The Prepare certificate and the lock are valid,
the lock comes no later than the Prepare certificate, and both are for the view and the proposal
as soon as the phase has been reached that they lead to. -/
structure Standing (ctx : Context) (s : ReplicaState) : Prop where
  prepared : ∀ cert, s.prepared = some cert →
    cert.phase = .prepare ∧ ctx.verify cert = .ok () ∧ cert.view ≤ s.view
  locked : ∀ lock, s.locked = some lock → lock.phase = .preCommit ∧ ctx.verify lock = .ok ()
  lock_le : ∀ lock, s.locked = some lock → ∃ cert, s.prepared = some cert ∧
    lock.view ≤ cert.view ∧ (lock.view = cert.view → lock.payload = cert.payload)
  proposal : s.proposal.isSome ↔ s.phase ≠ .newView
  preCommit : Phase.preCommit.rank ≤ s.phase.rank → s.Holds s.prepared
  commit : Phase.commit.rank ≤ s.phase.rank → s.Holds s.locked
  /-- Before PreCommit there is no certificate of the current view yet. -/
  behind : s.phase.rank < Phase.preCommit.rank →
    ∀ cert, s.prepared = some cert → cert.view < s.view

namespace Standing

variable {ctx : Context} {s s' : ReplicaState}

/-- A replica in the initial state holds no certificate, so nothing is to be said of one. -/
theorem initial (genesis : Digest) : Standing ctx (.initial genesis) := by
  constructor <;> simp [ReplicaState.initial, Phase.rank]

/-- While a replica waits for a proposal, the certificate that it hands on is the genesis
certificate or a valid one of an earlier view. -/
theorem high_cases (h : Standing ctx s) (hphase : s.phase = .newView) :
    s.highCertificate ctx.scheme = ctx.scheme.genesis ∨
      (s.highCertificate ctx.scheme).phase = .prepare ∧
        (s.highCertificate ctx.scheme).view < s.view ∧
        ctx.verify (s.highCertificate ctx.scheme) = .ok () := by
  rw [ReplicaState.highCertificate]
  cases hprepared : s.prepared with
  | none => exact Or.inl rfl
  | some cert =>
      obtain ⟨hprepare, hvalid, -⟩ := h.prepared cert hprepared
      have hbehind := h.behind (by rw [hphase]; decide) cert hprepared
      exact Or.inr ⟨hprepare, hbehind, hvalid⟩

/-- The tip of the chain does not matter. -/
theorem congr_tip (h : Standing ctx s) (committed : Digest) (height : Height) :
    Standing ctx { s with committed, height } :=
  ⟨h.prepared, h.locked, h.lock_le, h.proposal, h.preCommit, h.commit, h.behind⟩

/-- Before PreCommit the certificates held are all left behind. -/
theorem leave (h : Standing ctx s) (hprepared : s'.prepared = s.prepared)
    (hlocked : s'.locked = s.locked) (hproposal : s'.proposal.isSome ↔ s'.phase ≠ .newView)
    (hphase : s'.phase.rank < Phase.preCommit.rank)
    (hbehind : ∀ cert, s.prepared = some cert → cert.view < s'.view) : Standing ctx s' := by
  constructor
  case prepared =>
    intro cert hcert
    rw [hprepared] at hcert
    obtain ⟨hprepare, hvalid, -⟩ := h.prepared cert hcert
    exact ⟨hprepare, hvalid, UInt64.le_of_lt (hbehind cert hcert)⟩
  case locked => exact hlocked ▸ h.locked
  case lock_le => exact hprepared ▸ hlocked ▸ h.lock_le
  case proposal => exact hproposal
  case preCommit => exact fun hle => absurd hle (Nat.not_le.mpr hphase)
  case commit => exact fun hle => absurd (Nat.le_trans (by decide) hle) (Nat.not_le.mpr hphase)
  case behind => exact fun _ => hprepared ▸ hbehind

/-- Entering a later view drops the proposal, and leaves the certificates behind. -/
theorem enter (h : Standing ctx s) {view : View} (hlater : s.view < view) :
    Standing ctx (s.enter view) := by
  refine h.leave rfl rfl (by simp [ReplicaState.enter]) (Nat.zero_lt_succ _) fun cert hcert => ?_
  obtain ⟨-, -, hle⟩ := h.prepared cert hcert
  exact UInt64.lt_of_le_of_lt hle hlater

/-- A vote in Prepare takes on a proposal, with all certificates from earlier views. -/
theorem accept (h : Standing ctx s) {trusted : Certificate → Prop} {st : Statement}
    (haccepts : s.Accepts ctx trusted st) : Standing ctx (s.accept st) := by
  refine h.leave rfl rfl (by simp [ReplicaState.accept]) (Nat.lt_succ_self _) fun cert hcert => ?_
  obtain ⟨-, -, hle⟩ := h.prepared cert hcert
  rcases UInt64.lt_or_eq_of_le haccepts.notStale with hlt | heq
  · exact UInt64.lt_of_le_of_lt hle hlt
  · have hphase := haccepts.fresh heq.symm
    have hbehind := h.behind (by rw [hphase]; decide) cert hcert
    exact UInt64.lt_of_lt_of_le hbehind haccepts.notStale

/-- The certificate that leads to PreCommit is newer than the one held and than the lock. -/
theorem follow_prepare (h : Standing ctx s) {cert : Certificate} {payload : Payload}
    (hphase : s.phase = .prepare) (hheld : s.proposal = some payload)
    (hcert : cert.ballot = ⟨.prepare, s.view, payload⟩) (hvalid : ctx.verify cert = .ok ()) :
    Standing ctx (s.preCommit cert) := by
  have hview : cert.view = s.view := congrArg Ballot.view hcert
  have hpayload : cert.payload = payload := congrArg Ballot.payload hcert
  have hbehind := h.behind (by rw [hphase]; decide)
  have hprepared : (s.preCommit cert).prepared = some cert :=
    congrArg some (ReplicaState.newer_of_le fun old hold =>
      hview ▸ UInt64.le_of_lt (hbehind old hold))
  constructor
  case prepared =>
    intro cert' hcert'
    obtain rfl := Option.some.inj (hprepared.symm.trans hcert')
    exact ⟨congrArg Ballot.phase hcert, hvalid, hview ▸ UInt64.le_refl _⟩
  case locked => exact h.locked
  case lock_le =>
    intro lock hlock
    obtain ⟨old, hold, hle, -⟩ := h.lock_le lock hlock
    have hlt : lock.view < cert.view := hview ▸ UInt64.lt_of_le_of_lt hle (hbehind old hold)
    exact ⟨cert, hprepared, UInt64.le_of_lt hlt, fun heq => absurd heq (UInt64.ne_of_lt hlt)⟩
  case proposal => simp [ReplicaState.preCommit, hheld]
  case preCommit => exact fun _ => ⟨cert, hprepared, hview, hheld.trans (hpayload ▸ rfl)⟩
  case commit => simp [ReplicaState.preCommit, Phase.rank]
  case behind => simp [ReplicaState.preCommit, Phase.rank]

/-- The certificate that leads to the lock is for the same proposal as the one before it. -/
theorem follow_preCommit (h : Standing ctx s) {cert : Certificate} {payload : Payload}
    (hphase : s.phase = .preCommit) (hheld : s.proposal = some payload)
    (hcert : cert.ballot = ⟨.preCommit, s.view, payload⟩) (hvalid : ctx.verify cert = .ok ()) :
    Standing ctx (s.lock cert) := by
  have hview : cert.view = s.view := congrArg Ballot.view hcert
  have hpayload : cert.payload = payload := congrArg Ballot.payload hcert
  obtain ⟨prepared, hprepared, hsame, hproposal⟩ := h.preCommit (by rw [hphase])
  have hlocked : (s.lock cert).locked = some cert := by
    refine congrArg some (ReplicaState.newer_of_le fun old hold => ?_)
    obtain ⟨prepared', hprepared', hle, -⟩ := h.lock_le old hold
    exact hview ▸ UInt64.le_trans hle (h.prepared prepared' hprepared').2.2
  constructor
  case prepared => exact h.prepared
  case locked =>
    intro lock hlock
    obtain rfl := Option.some.inj (hlocked.symm.trans hlock)
    exact ⟨congrArg Ballot.phase hcert, hvalid⟩
  case lock_le =>
    intro lock hlock
    obtain rfl := Option.some.inj (hlocked.symm.trans hlock)
    refine ⟨prepared, hprepared, hview.trans hsame.symm ▸ UInt64.le_refl _, fun _ => ?_⟩
    exact hpayload.trans (Option.some.inj (hheld.symm.trans hproposal))
  case proposal => simp [ReplicaState.lock, hheld]
  case preCommit => exact fun _ => ⟨prepared, hprepared, hsame, hproposal⟩
  case commit => exact fun _ => ⟨cert, hlocked, hview, hheld.trans (hpayload ▸ rfl)⟩
  case behind => simp [ReplicaState.lock, Phase.rank]

/-- Reaching the decision needs no further certificate in the state. -/
theorem decide (h : Standing ctx s) (hphase : s.phase = .commit) :
    Standing ctx { s with phase := .decide } := by
  have hproposal := h.proposal
  have hpreCommit := h.preCommit (by rw [hphase]; decide)
  have hcommit := h.commit (by rw [hphase])
  constructor
  case prepared => exact h.prepared
  case locked => exact h.locked
  case lock_le => exact h.lock_le
  case proposal => simpa [hphase] using hproposal
  case preCommit => exact fun _ => hpreCommit
  case commit => exact fun _ => hcommit
  case behind => simp [Phase.rank]

/-- A commit enters the next view, or changes nothing but the tip of the chain. -/
theorem commits (h : Standing ctx s) (scheme : Scheme) (cert : Certificate) (height : Height) :
    Standing ctx (s.commit scheme cert height) := by
  rcases s.commit_cases scheme cert height with ⟨next, -, hlater, heq⟩ | ⟨-, heq⟩
  · rw [heq]
    exact (h.congr_tip _ height).enter hlater
  · rw [heq]
    exact h.congr_tip _ height

/-- **Every move keeps a replica standing on its certificates.** -/
theorem move {genuine : Ballot → Seal → Prop} {heard : Statement → Prop} {ds : List Deed}
    (h : Standing ctx s) (hmove : Move ctx (Trusted ctx genuine) heard s ds s') :
    Standing ctx s' := by
  cases hmove with
  | rest => exact h
  | enter hlater => exact h.enter hlater
  | accept _ haccepts => exact h.accept haccepts
  | preCommit hphase hheld hcert htrusted =>
      exact h.follow_prepare hphase hheld hcert htrusted.valid
  | lock hphase hheld hcert htrusted => exact h.follow_preCommit hphase hheld hcert htrusted.valid
  | decide hphase => exact (h.decide hphase).commits _ _ _
  | catchUp => exact h.commits _ _ _

end Standing

/-- **Certificates along a course.** -/
theorem Course.standing {σ : Type} {ctx : Context} {ev : Evidence} {s₀ s : ReplicaState}
    {h : List (Turn σ)} (hcourse : Course ctx ev s₀ h s) (hfirst : Standing ctx s₀) :
    Standing ctx s ∧ ∀ t ∈ h, Standing ctx t.after.replica.state := by
  induction hcourse with
  | boot => exact ⟨hfirst, by simp⟩
  | turn _ hlawful ih =>
      obtain ⟨hbefore, hturns⟩ := ih
      have hafter := hbefore.move hlawful
      refine ⟨hafter, fun t ht => ?_⟩
      rcases List.mem_append.mp ht with ht | ht
      · exact hturns t ht
      · exact List.mem_singleton.mp ht ▸ hafter
  | resume _ hlater ih => exact ⟨ih.1.enter hlater, ih.2⟩

/-! ### What is executed -/

section Decisions

variable {σ : Type} {ctx : Context} {h : List (Turn σ)} {t : Turn σ}

/-- **The certificate that a turn decides on**: that of the Decide message in it, or the one that
the vote in it completes and that the member then announces. -/
def Turn.DecidesOn (t : Turn σ) (cert : Certificate) : Prop :=
  (∃ signed, t.input = .message (.statement .decide signed) ∧ signed.body.justify = cert) ∨
    (∃ vote, t.input = .message (.vote vote)) ∧
      ∃ st ∈ statementsIn t.said, st.phase = .decide ∧ st.justify = cert

/-- What is executed in a turn is decided by a Commit certificate for it. -/
def Turn.Decided (ctx : Context) (t : Turn σ) : Prop :=
  ∀ view height payload, .execute view height payload ∈ t.deeds →
    ∃ cert, t.DecidesOn cert ∧ cert.ballot = ⟨.commit, view, payload⟩ ∧ ctx.verify cert = .ok ()

variable [StateStore σ] [LawfulStore σ]

/-- Applying a phase executes what its certificate decides. -/
theorem Replica.Follows.execute {st : Statement} {s s' : ReplicaState} {ds : List Deed}
    (hfollows : Follows ctx st s ds s') {view : View} {height : Height} {payload : Payload}
    (hexecute : .execute view height payload ∈ ds) :
    st.phase = .decide ∧ st.justify.view = view ∧ st.justify.payload = payload := by
  cases hfollows with
  | preCommit | lock => cases List.mem_singleton.mp hexecute
  | decide _ hnext =>
      obtain ⟨rfl, -, rfl⟩ := Deed.execute.inj (List.mem_singleton.mp hexecute)
      exact ⟨hnext, rfl, rfl⟩

omit [LawfulStore σ] in
/-- What follows from a message is executed on the Commit certificate in it. -/
theorem Turn.decided_of_onPhase {signed : SignedStatement}
    (hinput : t.input = .message (.ofStatement signed))
    (hanswer : t.before.replica.onPhase ctx signed = .ok (t.after.replica, t.said)) :
    t.Decided ctx := by
  intro view height payload hexecute
  have hdecides (hphase : signed.body.phase = .decide) : t.DecidesOn signed.body.justify := by
    refine Or.inl ⟨signed, ?_, rfl⟩
    rw [hinput, Message.ofStatement, hphase]
  rcases Replica.onPhase_ok hanswer with ⟨⟨hphase, -⟩, hcheck, hcommit⟩ | ⟨hcheck, happly⟩
  · obtain ⟨⟨hcommitted, -⟩, -, hvalid⟩ := Replica.checkDecision_ok hcheck
    obtain ⟨height, -, -, hdeeds, -⟩ := Replica.commit_spec hcommit
    rw [Turn.deeds, show deedsIn t.said = _ from hdeeds] at hexecute
    obtain ⟨rfl, -, rfl⟩ := Deed.execute.inj (List.mem_singleton.mp hexecute)
    exact ⟨_, hdecides hphase, Replica.ballot_eq hcommitted.symm rfl rfl, hvalid⟩
  · obtain ⟨-, hbefore, -, -, hvalid⟩ := Replica.checkPhase_ok hcheck
    obtain ⟨-, hfollows, -⟩ := Replica.applyPhase_follows happly
    obtain ⟨hphase, hview, hpayload⟩ := hfollows.execute hexecute
    rw [hphase] at hbefore
    exact ⟨_, hdecides hphase, Replica.ballot_eq (Option.some.inj hbefore) hview hpayload, hvalid⟩

omit [LawfulStore σ] in
/-- **What is executed is decided**, in a turn of any kind. -/
theorem Turn.Kind.decided (hkind : t.Kind ctx)
    (hsound : t.before.votes.Sound ctx Evidence.none.voted) : t.Decided ctx := by
  have hidle (hnone : executedIn t.said = []) : t.Decided ctx := by
    intro view height payload hexecute
    have hmem : payload ∈ executedIn t.said := List.mem_filterMap.mpr ⟨_, hexecute, rfl⟩
    exact absurd (hnone ▸ hmem) List.not_mem_nil
  cases hkind with
  | announced _ hsaid =>
      rw [hsaid] at hidle
      exact hidle rfl
  | timedOut _ hanswer =>
      exact hidle (congrArg (List.filterMap Deed.payload?) (Replica.onTimeout_deeds hanswer))
  | refused hsaid =>
      rw [hsaid] at hidle
      exact hidle rfl
  | entered _ _ hanswer =>
      rcases hanswer with hanswer | ⟨-, hsaid⟩
      · exact hidle (congrArg (List.filterMap Deed.payload?) (Replica.enterView_deeds hanswer))
      · rw [hsaid] at hidle
        exact hidle rfl
  | accepted _ _ hanswer =>
      obtain ⟨b, hdeeds⟩ := Replica.onPrepare_deeds hanswer
      exact hidle (congrArg (List.filterMap Deed.payload?) hdeeds)
  | followed hinput _ hanswer => exact Turn.decided_of_onPhase hinput hanswer
  | counted _ _ _ hsaid =>
      rw [hsaid] at hidle
      exact hidle rfl
  | @certified vote next own hinput hcount hown hsaid =>
      intro view height payload hexecute
      have hexecute : .execute view height payload ∈ deedsIn own := by
        rwa [Turn.deeds, hsaid] at hexecute
      rcases hown with happly | ⟨-, rfl⟩
      · obtain ⟨-, -, hannounces⟩ := Leader.onVote_spec hsound hcount fun _ => trivial
        have hnext := hannounces next rfl
        obtain ⟨-, hfollows, -⟩ := Replica.applyPhase_follows happly
        obtain ⟨hphase, hview, hpayload⟩ := hfollows.execute hexecute
        have hbefore := hnext.phase
        rw [hphase] at hbefore
        refine ⟨next.body.justify, Or.inr ⟨⟨vote, hinput⟩, next.body, ?_, hphase, rfl⟩,
          Replica.ballot_eq (Option.some.inj hbefore) hview hpayload, hnext.trusted.valid⟩
        rw [hsaid]
        exact List.mem_cons_self ..
      · exact absurd hexecute List.not_mem_nil
  | offered _ _ _ hown hsaid =>
      rw [hsaid] at hidle
      rcases hown with hprepare | ⟨-, rfl⟩
      · obtain ⟨b, hdeeds⟩ := Replica.onPrepare_deeds hprepare
        exact hidle (congrArg (List.filterMap Deed.payload?) hdeeds)
      · exact hidle rfl

/-- **The certificates of a member.** Through all processes of a member on one store, empty at
first, as long as nobody else has its seal: its replica stands on its certificates at any time, and
all that it executes is decided by a valid Commit certificate for it. -/
theorem replica_stands_on_certificates {store : σ} {first core : Core σ}
    (hload : StateStore.load store = .ok none) (hcreate : Core.create ctx store = .ok first)
    (hrun : Run ctx (OwnSeals ctx) first h core) :
    Standing ctx core.replica.state ∧
      (∀ t ∈ h, Standing ctx t.after.replica.state) ∧ ∀ t ∈ h, t.Decided ctx := by
  have hfirst : Standing ctx first.replica.state := by
    rw [Core.create_of_empty hload hcreate]
    exact .initial _
  obtain ⟨hstanding, hturns⟩ :=
    (Run.conduct_of_ownSeals hcreate hrun).course.standing hfirst
  have hdecided : ∀ t ∈ h, t.Decided ctx :=
    Run.forall_turns hcreate hrun fun _ hkept hkind => hkind.decided hkept.sound
  exact ⟨hstanding, hturns, hdecided⟩

end Decisions

open Overtaking in
/-- A member that is taken up to the lock, decides and is restarted stands on the certificates it
was shown, and its execution goes back to the last of them. -/
theorem replica_stands_on_certificates_of_decision :
    ∃ h core, StateStore.load ({} : MemoryStore) = .ok none ∧
      Core.create ctx ({} : MemoryStore) = .ok (.fresh ctx) ∧
      Run ctx (OwnSeals ctx) (Core.fresh ctx) h core ∧
      core.replica.state.prepared = some (cert .prepare 2) ∧
      core.replica.state.locked = some (cert .preCommit 2) ∧ executedOf h = [payload] ∧
      Standing ctx core.replica.state ∧
      (∀ t ∈ h, Standing ctx t.after.replica.state) ∧ ∀ t ∈ h, t.Decided ctx := by
  obtain ⟨h, core, hrun, hprepared, hlocked, hexecuted⟩ := Run.exists_play
    (P := fun h core => core.replica.state.prepared = some (cert .prepare 2) ∧
      core.replica.state.locked = some (cert .preCommit 2) ∧ executedOf h = [payload])
    (show ((Core.fresh ctx).play ctx (OwnSeals ctx) [] (locking ++ [decision, .restart])).map _ =
      some true by decide +kernel)
  exact ⟨h, core, rfl, Core.create_fresh ctx, hrun, hprepared, hlocked, hexecuted,
    replica_stands_on_certificates rfl (Core.create_fresh ctx) hrun⟩

end HotStuff
