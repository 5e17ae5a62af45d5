import HotStuff.Proofs.History

/-!
# What a Replica Can Do

Whatever a replica is handed, it makes one of seven moves, or refuses and stays as it is. `Move`
lists them with all that the replica has checked by then, so later proofs split on the move and
never open a handler. A certificate counts as `Trusted` when it verifies and its valid seals are
`genuine`; what genuine means is left open here, since only the whole deployment knows what its
members have sealed.

## Main definitions

* `ReplicaState.Accepts`: all that is known of an accepted proposal.
* `Move`: the moves, with the deeds that go with each.
* `Handles`: an answer of the replica is a move, is saved, and hands out none but plain messages.

## Main results

* `Replica.onPrepare_handles`, `Replica.applyPhase_handles`, `Replica.onPhase_handles`,
  `Replica.onTimeout_handles`, `Replica.enterView_handles`: each handler makes a move.
* `Replica.create_of_stored`: a restarted replica is in the view after the saved one.
-/

namespace HotStuff

namespace ReplicaState

variable (s : ReplicaState)

/-- The state on entering a view: nothing is accepted in it yet. -/
def enter (view : View) : ReplicaState := { s with view, phase := .newView, proposal := none }

/-- The state after the vote on a proposal. -/
def accept (st : Statement) : ReplicaState :=
  { s with view := st.view, phase := .prepare, proposal := some st.payload }

/-- The state after following a Prepare certificate. -/
def preCommit (cert : Certificate) : ReplicaState :=
  { s with prepared := some (newer s.prepared cert), phase := .preCommit }

/-- The state after following a PreCommit certificate. -/
def lock (cert : Certificate) : ReplicaState :=
  { s with locked := some (newer s.locked cert), phase := .commit }

/-- The state after leaving a view for the next one, unless that is over. -/
def leave (view : View) : ReplicaState :=
  match View.next? view with
  | some next => if s.view < next then s.enter next else s
  | none => s

/-- The state after a commit. -/
def commit (scheme : Scheme) (cert : Certificate) (height : Height) : ReplicaState :=
  leave { s with committed := scheme.payloadDigest cert.payload, height } cert.view

/-- Leaving a view moves on, or changes nothing. -/
theorem leave_cases (view : View) :
    (∃ next, View.next? view = some next ∧ s.view < next ∧ s.leave view = s.enter next) ∨
      (∀ next, View.next? view = some next → next ≤ s.view) ∧ s.leave view = s := by
  rw [leave]
  cases hnext : View.next? view with
  | none => exact Or.inr ⟨by simp, rfl⟩
  | some next =>
      simp only
      split
      · next hlt => exact Or.inl ⟨next, rfl, hlt, rfl⟩
      · next hle =>
          refine Or.inr ⟨?_, rfl⟩
          intro next' hnext'
          obtain rfl := Option.some.inj hnext'
          exact UInt64.not_lt.mp hle

/-- A commit moves on to the view after the certificate, or keeps the view. -/
theorem commit_cases (scheme : Scheme) (cert : Certificate) (height : Height) :
    (∃ next, View.next? cert.view = some next ∧ s.view < next ∧ s.commit scheme cert height =
        enter { s with committed := scheme.payloadDigest cert.payload, height } next) ∨
      (∀ next, View.next? cert.view = some next → next ≤ s.view) ∧
        s.commit scheme cert height =
          { s with committed := scheme.payloadDigest cert.payload, height } :=
  leave_cases { s with committed := scheme.payloadDigest cert.payload, height } cert.view

/-- A certificate of no earlier view takes the place of the one held. -/
theorem newer_of_le {held : Option Certificate} {offered : Certificate}
    (h : ∀ cert, held = some cert → cert.view ≤ offered.view) : newer held offered = offered := by
  cases held with
  | none => rfl
  | some cert => exact if_neg (UInt64.not_lt.mpr (h cert rfl))

/-- After a commit the tip is the digest of the payload that is certified. -/
@[simp] theorem commit_committed (scheme : Scheme) (cert : Certificate) (height : Height) :
    (s.commit scheme cert height).committed = scheme.payloadDigest cert.payload := by
  rcases s.commit_cases scheme cert height with ⟨_, -, -, h⟩ | ⟨-, h⟩
  · rw [h, enter]
  · rw [h]

/-- After a commit the height is the one that the payload was given. -/
@[simp] theorem commit_height (scheme : Scheme) (cert : Certificate) (height : Height) :
    (s.commit scheme cert height).height = height := by
  rcases s.commit_cases scheme cert height with ⟨_, -, -, h⟩ | ⟨-, h⟩
  · rw [h, enter]
  · rw [h]

/-- A commit leaves the lock as it is. -/
@[simp] theorem commit_locked (scheme : Scheme) (cert : Certificate) (height : Height) :
    (s.commit scheme cert height).locked = s.locked := by
  rcases s.commit_cases scheme cert height with ⟨_, -, -, h⟩ | ⟨-, h⟩
  · rw [h, enter]
  · rw [h]

/-- A commit never goes back to an earlier view. -/
theorem view_le_commit (scheme : Scheme) (cert : Certificate) (height : Height) :
    s.view ≤ (s.commit scheme cert height).view := by
  rcases s.commit_cases scheme cert height with ⟨_, -, hlt, h⟩ | ⟨-, h⟩
  · rw [h]
    exact UInt64.le_of_lt hlt
  · rw [h]
    exact UInt64.le_refl _

/-- Only a decision of the last view leaves the replica in it. -/
theorem lt_view_commit (scheme : Scheme) {cert : Certificate} (height : Height)
    (hnot : cert.view ≠ View.last) : cert.view < (s.commit scheme cert height).view := by
  have hnext : View.next? cert.view = some (cert.view + 1) := if_neg hnot
  have hlt := View.lt_of_next? hnext
  rcases s.commit_cases scheme cert height with ⟨next, hnext', -, h⟩ | ⟨hover, h⟩
  · obtain rfl := Option.some.inj (hnext.symm.trans hnext')
    rw [h]
    exact hlt
  · rw [h]
    exact UInt64.lt_of_lt_of_le hlt (hover _ hnext)

/-- After a commit a proposal is held only where the view was not left. -/
theorem commit_held {s : ReplicaState} {scheme : Scheme} {cert : Certificate} {height : Height}
    (hphase : (s.commit scheme cert height).phase ≠ .newView) :
    (s.commit scheme cert height).phase = s.phase ∧
      (s.commit scheme cert height).view = s.view ∧
      (s.commit scheme cert height).proposal = s.proposal := by
  rcases s.commit_cases scheme cert height with ⟨_, -, -, h⟩ | ⟨-, h⟩
  · rw [h] at hphase
    exact absurd rfl hphase
  · rw [h]
    exact ⟨rfl, rfl, rfl⟩

/-- A commit that does not leave the view does not wait in it anew. -/
theorem commit_not_back {s : ReplicaState} {scheme : Scheme} {cert : Certificate} {height : Height}
    (hview : (s.commit scheme cert height).view = s.view) (hphase : s.phase ≠ .newView) :
    (s.commit scheme cert height).phase ≠ .newView := by
  rcases s.commit_cases scheme cert height with ⟨_, -, hlater, h⟩ | ⟨-, h⟩
  · rw [h] at hview
    exact absurd hview.symm (UInt64.ne_of_lt hlater)
  · rw [h]
    exact hphase

/-- **An accepted proposal.** What the replica has checked of it, and of the lock and the chain. -/
structure Accepts (ctx : Context) (trusted : Certificate → Prop) (st : Statement) : Prop where
  phase : st.phase = .prepare
  notStale : s.view ≤ st.view
  fresh : st.view = s.view → s.phase = .newView
  notLast : st.view ≠ View.last
  justified : st.justify = ctx.scheme.genesis ∨
    st.justify.phase = .prepare ∧ st.justify.view < st.view ∧ trusted st.justify
  parent : st.payload.parent = s.committed
  safe : ∀ lock, s.locked = some lock → st.payload = lock.payload ∨
    st.payload.parent = ctx.scheme.payloadDigest lock.payload ∨ lock.view < st.justify.view

end ReplicaState

/-- A certificate that verifies, and whose valid seals are genuine. -/
structure Trusted (ctx : Context) (genuine : Ballot → Seal → Prop) (cert : Certificate) : Prop where
  valid : ctx.verify cert = .ok ()
  genuine : ∀ s ∈ cert.seals, ctx.scheme.sealValid cert.ballot s → genuine cert.ballot s

/-- **The moves of a replica**, from a state, with the deeds of each: staying, entering a view,
voting on the proposal it heard, following the two certificates that lead to the lock, deciding in
sequence, and catching up with a decision that it has no preceding phase for. -/
inductive Move (ctx : Context) (trusted : Certificate → Prop) (heard : Statement → Prop)
    (s : ReplicaState) : List Deed → ReplicaState → Prop
  | rest : Move ctx trusted heard s [] s
  | enter {view} (hlater : s.view < view) : Move ctx trusted heard s [] (s.enter view)
  | accept {st} (hheard : heard st) (haccepts : s.Accepts ctx trusted st) :
      Move ctx trusted heard s [.vote ⟨.prepare, st.view, st.payload⟩] (s.accept st)
  | preCommit {payload cert} (hphase : s.phase = .prepare) (hheld : s.proposal = some payload)
      (hcert : cert.ballot = ⟨.prepare, s.view, payload⟩) (htrusted : trusted cert) :
      Move ctx trusted heard s [.vote ⟨.preCommit, s.view, payload⟩] (s.preCommit cert)
  | lock {payload cert} (hphase : s.phase = .preCommit) (hheld : s.proposal = some payload)
      (hcert : cert.ballot = ⟨.preCommit, s.view, payload⟩) (htrusted : trusted cert) :
      Move ctx trusted heard s [.vote ⟨.commit, s.view, payload⟩] (s.lock cert)
  | decide {payload cert height} (hphase : s.phase = .commit) (hheld : s.proposal = some payload)
      (hcert : cert.ballot = ⟨.commit, s.view, payload⟩) (htrusted : trusted cert)
      (hheight : Height.next? s.height = some height) :
      Move ctx trusted heard s [.execute s.view height payload]
        (ReplicaState.commit { s with phase := .decide } ctx.scheme cert height)
  | catchUp {cert height} (hphase : cert.phase = .commit)
      (hparent : cert.payload.parent = s.committed)
      (hout : ¬ (cert.view = s.view ∧ s.phase = .commit)) (htrusted : trusted cert)
      (hheight : Height.next? s.height = some height) :
      Move ctx trusted heard s [.execute cert.view height cert.payload]
        (s.commit ctx.scheme cert height)

namespace Move

variable {ctx : Context} {trusted : Certificate → Prop} {heard heard' : Statement → Prop}
  {s s' : ReplicaState} {ds : List Deed}

/-- A move on what was heard is one on more that was heard. -/
theorem mono (h : Move ctx trusted heard s ds s') (hheard : ∀ st, heard st → heard' st) :
    Move ctx trusted heard' s ds s' := by
  cases h with
  | rest => exact .rest
  | enter hlater => exact .enter hlater
  | accept hst haccepts => exact .accept (hheard _ hst) haccepts
  | preCommit hphase hheld hcert htrusted => exact .preCommit hphase hheld hcert htrusted
  | lock hphase hheld hcert htrusted => exact .lock hphase hheld hcert htrusted
  | decide hphase hheld hcert htrusted hheight => exact .decide hphase hheld hcert htrusted hheight
  | catchUp hphase hparent hout htrusted hheight =>
      exact .catchUp hphase hparent hout htrusted hheight

/-- A replica never goes back to an earlier view. -/
theorem view_le (h : Move ctx trusted heard s ds s') : s.view ≤ s'.view := by
  cases h with
  | rest => exact UInt64.le_refl _
  | enter hlater => exact UInt64.le_of_lt hlater
  | accept _ haccepts => exact haccepts.notStale
  | preCommit => exact UInt64.le_refl _
  | lock => exact UInt64.le_refl _
  | decide => exact ReplicaState.view_le_commit { s with phase := .decide } _ _ _
  | catchUp => exact ReplicaState.view_le_commit _ _ _ _

/-- A proposal that is held after a move was held before it in the same view, or is the one that the
move accepts. -/
theorem held (h : Move ctx trusted heard s ds s') (hphase : s'.phase ≠ .newView) :
    (s.phase ≠ .newView ∧ s'.view = s.view ∧ s'.proposal = s.proposal) ∨
      ∃ st, heard st ∧ s.Accepts ctx trusted st ∧ s' = s.accept st ∧
        ds = [.vote ⟨.prepare, st.view, st.payload⟩] := by
  cases h with
  | rest => exact Or.inl ⟨hphase, rfl, rfl⟩
  | enter hlater => exact absurd rfl hphase
  | accept hst haccepts => exact Or.inr ⟨_, hst, haccepts, rfl, rfl⟩
  | preCommit hprepare => exact Or.inl ⟨by simp [hprepare], rfl, rfl⟩
  | lock hpreCommit => exact Or.inl ⟨by simp [hpreCommit], rfl, rfl⟩
  | decide hcommit =>
      obtain ⟨-, hview, hproposal⟩ := ReplicaState.commit_held hphase
      exact Or.inl ⟨by simp [hcommit], hview, hproposal⟩
  | catchUp =>
      obtain ⟨hsame, hview, hproposal⟩ := ReplicaState.commit_held hphase
      exact Or.inl ⟨hsame ▸ hphase, hview, hproposal⟩

/-- A replica that is past waiting for the proposal of a view does not wait for it again. -/
theorem not_back (h : Move ctx trusted heard s ds s') (hview : s'.view = s.view)
    (hphase : s.phase ≠ .newView) : s'.phase ≠ .newView := by
  cases h with
  | rest => exact hphase
  | enter hlater => exact absurd hview.symm (UInt64.ne_of_lt hlater)
  | accept => exact Phase.noConfusion
  | preCommit => exact Phase.noConfusion
  | lock => exact Phase.noConfusion
  | decide => exact ReplicaState.commit_not_back hview Phase.noConfusion
  | catchUp => exact ReplicaState.commit_not_back hview hphase

/-- A vote in Prepare is one on a proposal that is accepted. -/
theorem proposal_of_vote (h : Move ctx trusted heard s ds s') {b : Ballot} (hvote : .vote b ∈ ds)
    (hphase : b.phase = .prepare) : ∃ st, heard st ∧ s.Accepts ctx trusted st ∧
      b = ⟨.prepare, st.view, st.payload⟩ ∧ ds = [.vote b] := by
  cases h with
  | rest => exact absurd hvote List.not_mem_nil
  | enter => exact absurd hvote List.not_mem_nil
  | accept hst haccepts =>
      obtain rfl := Deed.vote.inj (List.mem_singleton.mp hvote)
      exact ⟨_, hst, haccepts, rfl, rfl⟩
  | preCommit =>
      obtain rfl := Deed.vote.inj (List.mem_singleton.mp hvote)
      cases hphase
  | lock =>
      obtain rfl := Deed.vote.inj (List.mem_singleton.mp hvote)
      cases hphase
  | decide => cases List.mem_singleton.mp hvote
  | catchUp => cases List.mem_singleton.mp hvote

/-- A vote in a later phase follows a certificate of the phase before. -/
theorem cert_of_vote (h : Move ctx trusted heard s ds s') {b : Ballot} (hvote : .vote b ∈ ds)
    (hphase : b.phase ≠ .prepare) : ∃ cert phase, trusted cert ∧
      b.phase.predecessor = some phase ∧ cert.ballot = ⟨phase, b.view, b.payload⟩ := by
  cases h with
  | rest => exact absurd hvote List.not_mem_nil
  | enter => exact absurd hvote List.not_mem_nil
  | accept =>
      obtain rfl := Deed.vote.inj (List.mem_singleton.mp hvote)
      exact absurd rfl hphase
  | preCommit _ _ hcert htrusted =>
      obtain rfl := Deed.vote.inj (List.mem_singleton.mp hvote)
      exact ⟨_, _, htrusted, rfl, hcert⟩
  | lock _ _ hcert htrusted =>
      obtain rfl := Deed.vote.inj (List.mem_singleton.mp hvote)
      exact ⟨_, _, htrusted, rfl, hcert⟩
  | decide => cases List.mem_singleton.mp hvote
  | catchUp => cases List.mem_singleton.mp hvote

/-- What is executed has a Commit certificate. -/
theorem cert_of_execute (h : Move ctx trusted heard s ds s') {payload : Payload}
    (hexecute : payload ∈ ds.filterMap Deed.payload?) :
    ∃ cert, trusted cert ∧ cert.phase = .commit ∧ cert.payload = payload := by
  cases h with
  | rest => exact absurd hexecute List.not_mem_nil
  | enter => exact absurd hexecute List.not_mem_nil
  | accept => exact absurd hexecute List.not_mem_nil
  | preCommit => exact absurd hexecute List.not_mem_nil
  | lock => exact absurd hexecute List.not_mem_nil
  | decide _ _ hcert htrusted =>
      obtain rfl := List.mem_singleton.mp hexecute
      exact ⟨_, htrusted, congrArg Ballot.phase hcert, congrArg Ballot.payload hcert⟩
  | catchUp hphase _ _ htrusted =>
      obtain rfl := List.mem_singleton.mp hexecute
      exact ⟨_, htrusted, hphase, rfl⟩

/-- The committed digest only changes on a Commit certificate, over a payload that extends it
or over the proposal that is held, and the view of the certificate is left behind unless it
is the last. -/
theorem commits (h : Move ctx trusted heard s ds s') :
    s'.committed = s.committed ∨ ∃ cert, trusted cert ∧ cert.phase = .commit ∧
      s'.committed = ctx.scheme.payloadDigest cert.payload ∧
      (cert.view ≠ View.last → cert.view < s'.view) ∧
      (cert.payload.parent = s.committed ∨
        cert.view = s.view ∧ s.phase = .commit ∧ s.proposal = some cert.payload) := by
  cases h with
  | rest => exact Or.inl rfl
  | enter => exact Or.inl rfl
  | accept => exact Or.inl rfl
  | preCommit => exact Or.inl rfl
  | lock => exact Or.inl rfl
  | decide hphase hheld hcert htrusted =>
      exact Or.inr ⟨_, htrusted, congrArg Ballot.phase hcert, ReplicaState.commit_committed ..,
        ReplicaState.lt_view_commit _ _ _, Or.inr ⟨congrArg Ballot.view hcert, hphase,
          hheld.trans (congrArg (some ∘ Ballot.payload) hcert.symm)⟩⟩
  | catchUp hphase hparent _ htrusted =>
      exact Or.inr ⟨_, htrusted, hphase, ReplicaState.commit_committed ..,
        ReplicaState.lt_view_commit _ _ _, Or.inl hparent⟩

/-- What a move executes becomes the tip of the chain: the payload of a decision out of sequence,
which extends the chain, or the proposal that is held, whether it extends the chain or not. -/
theorem executes (h : Move ctx trusted heard s ds s') :
    (ds.filterMap Deed.payload? = [] ∧ s'.committed = s.committed ∧ s'.height = s.height) ∨
      ∃ view height payload, ds = [.execute view height payload] ∧
        Height.next? s.height = some height ∧ s'.height = height ∧
        s'.committed = ctx.scheme.payloadDigest payload ∧
        (payload.parent = s.committed ∧ ¬ (view = s.view ∧ s.phase = .commit) ∨
          view = s.view ∧ s.phase = .commit ∧ s.proposal = some payload) := by
  cases h with
  | rest => exact Or.inl ⟨rfl, rfl, rfl⟩
  | enter => exact Or.inl ⟨rfl, rfl, rfl⟩
  | accept => exact Or.inl ⟨rfl, rfl, rfl⟩
  | preCommit => exact Or.inl ⟨rfl, rfl, rfl⟩
  | lock => exact Or.inl ⟨rfl, rfl, rfl⟩
  | decide hphase hheld hcert _ hheight =>
      refine Or.inr ⟨_, _, _, rfl, hheight, ReplicaState.commit_height .., ?_,
        Or.inr ⟨rfl, hphase, hheld⟩⟩
      rw [ReplicaState.commit_committed, Certificate.payload, hcert]
  | catchUp _ hparent hout _ hheight =>
      exact Or.inr ⟨_, _, _, rfl, hheight, ReplicaState.commit_height ..,
        ReplicaState.commit_committed .., Or.inl ⟨hparent, hout⟩⟩

end Move

variable {σ : Type} [StateStore σ]

/-- The store holds the state of the replica. -/
def Replica.Stored (r : Replica σ) : Prop := StateStore.load r.store = .ok (some r.state.saved)

/-- A plain message is a vote under the own seal or the announcement of a view. -/
def Message.Plain (ctx : Context) : Message → Prop
  | .vote v => v.stamp.signer = ctx.me
  | .statement _ signed => signed.body.phase = .newView

/-- **An answer of the replica** is a move, keeps the store up to date, and hands out none but plain
messages. -/
structure Handles (ctx : Context) (genuine : Ballot → Seal → Prop) (heard : Statement → Prop)
    (r : Replica σ) (answer : Replica σ × List Action) : Prop where
  move : Move ctx (Trusted ctx genuine) heard r.state (deedsIn answer.2) answer.1.state
  stored : r.Stored → answer.1.Stored
  plain : ∀ message ∈ messagesIn answer.2, message.Plain ctx

namespace Replica

variable {ctx : Context} {genuine : Ballot → Seal → Prop} {heard : Statement → Prop}
  {r r' : Replica σ} {actions : List Action}

/-- A state that was saved is stored. -/
theorem stored_persist [LawfulStore σ] (r : Replica σ) : r.persist.Stored :=
  LawfulStore.load_save r.store r.state.saved

/-! ### Views -/

omit [StateStore σ] in
/-- The announcement of the view is the only message on entering it. -/
theorem startRound_plain {message : Message} (h : message ∈ messagesIn (r.startRound ctx)) :
    message.Plain ctx := by
  obtain rfl := List.mem_singleton.mp h
  rfl

omit [StateStore σ] in
/-- A vote and the timer are all that goes out on a phase. -/
theorem vote_plain {phase : Phase} {payload : Payload} {message : Message}
    (h : message ∈ messagesIn [r.vote ctx phase payload, rearm ctx]) : message.Plain ctx := by
  obtain rfl := List.mem_singleton.mp h
  rfl

/-- **Announcing the view** changes nothing, and says nothing but plain messages. -/
theorem startRound_handles (r : Replica σ) :
    Handles ctx genuine heard r (r, r.startRound ctx) :=
  ⟨.rest, id, fun _ => startRound_plain⟩

/-- Moving to a view does and states nothing. -/
theorem advanceTo_quiet (r : Replica σ) (view : View) :
    deedsIn (r.advanceTo ctx view).2 = [] ∧ messagesIn (r.advanceTo ctx view).2 = [] := by
  rw [advanceTo]
  split
  · exact ⟨rfl, rfl⟩
  · exact ⟨rfl, rfl⟩

/-- Moving to a view leaves a stored replica stored. -/
theorem advanceTo_stored [LawfulStore σ] {view : View} (h : r.Stored) :
    (r.advanceTo ctx view).1.Stored := by
  rw [advanceTo]
  split
  · exact h
  · exact stored_persist _

/-- A replica that has moved to the view of a proposal and takes it on has accepted it. -/
theorem advanceTo_accept {st : Statement} (h : r.state.view ≤ st.view) :
    (r.advanceTo ctx st.view).1.state.view = st.view ∧
      { (r.advanceTo ctx st.view).1.state with
        phase := .prepare, proposal := some st.payload } = r.state.accept st := by
  rw [advanceTo]
  split
  · next hle =>
      have hsame : r.state.view = st.view := UInt64.le_antisymm h hle
      refine ⟨hsame, ?_⟩
      rw [ReplicaState.accept, ← hsame]
  · exact ⟨rfl, rfl⟩

/-- A view that is not later than the replica's own is not entered. -/
theorem enterView_of_le {view : View} (h : view ≤ r.state.view) :
    r.enterView ctx view = (r, []) := by
  rw [enterView, advanceTo, if_pos h]
  rfl

/-- **Entering a later view** saves the state in it, tells of the view, and announces it to its
leader. -/
theorem enterView_of_lt {view : View} (h : r.state.view < view) :
    r.enterView ctx view =
      (persist { r with state := r.state.enter view },
        .notify (.viewChanged view (ctx.leader view)) ::
          (persist { r with state := r.state.enter view }).startRound ctx) := by
  rw [enterView, advanceTo, if_neg (UInt64.not_le.mpr h)]
  rfl

/-- Entering a view is no deed. -/
theorem enterView_deeds {view : View} {answer : Replica σ × List Action}
    (hanswer : r.enterView ctx view = answer) : deedsIn answer.2 = [] := by
  subst hanswer
  by_cases h : view ≤ r.state.view
  · rw [enterView_of_le h]
    rfl
  · rw [enterView_of_lt (UInt64.not_le.mp h)]
    rfl

/-- A replica enters a later view, or stays. -/
theorem enterView_handles [LawfulStore σ] (r : Replica σ) (view : View) :
    Handles ctx genuine heard r (r.enterView ctx view) := by
  by_cases h : view ≤ r.state.view
  · rw [enterView_of_le h]
    exact ⟨.rest, id, by simp [messagesIn]⟩
  · have h := UInt64.not_le.mp h
    rw [enterView_of_lt h]
    exact ⟨.enter h, fun _ => stored_persist _, fun _ => startRound_plain⟩

/-- A timeout takes the replica to the next view, where there is one. -/
theorem onTimeout_handles [LawfulStore σ] (r : Replica σ) :
    Handles ctx genuine heard r (r.onTimeout ctx) := by
  rw [onTimeout]
  split
  · next next _ =>
      have hentered : Handles ctx genuine heard r (r.enterView ctx next) := enterView_handles r next
      exact ⟨hentered.move, hentered.stored, hentered.plain⟩
  · exact ⟨.rest, id, by simp [messagesIn, Action.message?, rearm]⟩

/-- Giving up a view is no deed. -/
theorem onTimeout_deeds {answer : Replica σ × List Action} (hanswer : r.onTimeout ctx = answer) :
    deedsIn answer.2 = [] := by
  subst hanswer
  rw [onTimeout]
  split
  · next next _ =>
      have hdeeds : deedsIn (r.enterView ctx next).2 = [] := enterView_deeds rfl
      exact hdeeds
  · rfl

/-! ### Proposals -/

/-- **The bound on views** lets through any view but the last that is not too far past the later of
the local and the certified view. -/
theorem checkViewBound_eq_ok {view here certified : View} :
    checkViewBound view here certified = .ok () ↔
      view ≠ View.last ∧
        view.toNat ≤ max here.toNat certified.toNat + maxViewJump.toNat := by
  have hanchor : (if here < certified then certified else here).toNat =
      max here.toNat certified.toNat := by
    split
    · next hlt => exact (Nat.max_eq_right (Nat.le_of_lt (UInt64.lt_iff_toNat_lt.mp hlt))).symm
    · next hle => exact (Nat.max_eq_left (UInt64.le_iff_toNat_le.mp (UInt64.not_lt.mp hle))).symm
  -- The distance is only taken from a view that is not behind the anchor.
  have hfar : ((if here < certified then certified else here) ≤ view ∧
      maxViewJump < view - (if here < certified then certified else here)) ↔
      max here.toNat certified.toNat + maxViewJump.toNat < view.toNat := by
    rw [← hanchor]
    constructor
    · rintro ⟨hle, hfar⟩
      rw [UInt64.lt_iff_toNat_lt, UInt64.toNat_sub_of_le _ _ hle] at hfar
      omega
    · intro hfar
      have hle : (if here < certified then certified else here) ≤ view :=
        UInt64.le_iff_toNat_le.mpr (by omega)
      refine ⟨hle, ?_⟩
      rw [UInt64.lt_iff_toNat_lt, UInt64.toNat_sub_of_le _ _ hle]
      omega
  rw [checkViewBound, ← Nat.not_lt, ← hfar, ← not_or]
  refine ⟨fun h hfails => ?_, fun h => if_neg h⟩
  cases (if_pos hfails).symm.trans h

/-- The certificate of an accepted proposal is the genesis certificate, or a valid Prepare
certificate of an earlier view. -/
theorem checkJustify_ok {st : Statement} (h : checkJustify ctx st = .ok ()) :
    st.justify = ctx.scheme.genesis ∨
      st.justify.phase = .prepare ∧ st.justify.view < st.view ∧
        ctx.verify st.justify = .ok () := by
  rw [checkJustify] at h
  split at h
  · next hgenesis => exact Or.inl hgenesis
  · split at h
    · cases h
    · next hphase =>
        split at h
        · cases h
        · next hview => exact Or.inr ⟨not_not.mp hphase, UInt64.not_le.mp hview, h⟩

/-- A safe proposal keeps to the lock or brings a newer certificate. -/
theorem checkSafe_ok {s : ReplicaState} {st : Statement} {lock : Certificate}
    (h : s.checkSafe ctx.scheme st = .ok ()) (hlock : s.locked = some lock) :
    st.payload = lock.payload ∨ st.payload.parent = ctx.scheme.payloadDigest lock.payload ∨
      lock.view < st.justify.view := by
  rw [ReplicaState.checkSafe, hlock] at h
  simp only at h
  split at h
  · next hsafe => exact hsafe
  · cases h

omit [StateStore σ] in
/-- A proposal that passes the checks is sealed by the leader of its view, and acceptable. -/
theorem checkPrepare_ok {msg : SignedStatement} (h : r.checkPrepare ctx msg = .ok ())
    (hgenuine : ∀ s ∈ msg.body.justify.seals,
      ctx.scheme.sealValid msg.body.justify.ballot s → genuine msg.body.justify.ballot s) :
    ctx.verifySigned msg = .ok () ∧ msg.signer = ctx.leader msg.body.view ∧
      r.state.Accepts ctx (Trusted ctx genuine) msg.body := by
  simp only [checkPrepare, bind_eq_ok, guard_throw_eq_ok] at h
  obtain ⟨hphase, ⟨⟩, hsigned, ⟨⟩, hleader, hstale, hfresh, ⟨⟩, hbound, ⟨⟩, hjustify, hparent,
    hsafe⟩ := h
  refine ⟨hsigned, ?_, ?_⟩
  · rw [checkLeader] at hleader
    split at hleader
    · next heq => exact heq
    · cases hleader
  · refine ⟨not_not.mp hphase, UInt64.not_lt.mp hstale, ?_, (checkViewBound_eq_ok.mp hbound).1, ?_,
      not_not.mp hparent, fun lock hlock => checkSafe_ok hsafe hlock⟩
    · exact fun hview => not_not.mp fun hnot => hfresh ⟨hview, hnot⟩
    · exact (checkJustify_ok hjustify).imp id fun ⟨hph, hview, hvalid⟩ =>
        ⟨hph, hview, hvalid, hgenuine⟩

/-- A statement that passes as signed is sealed by its signer. -/
theorem statementValid_of_verifySigned {msg : SignedStatement}
    (h : ctx.verifySigned msg = .ok ()) : ctx.scheme.statementValid msg := by
  rw [Context.verifySigned] at h
  split at h
  · cases h
  · split at h
    · cases h
    · next hvalid => simpa using hvalid

/-- **An accepted proposal** is voted on, in its view. -/
theorem onPrepare_handles [LawfulStore σ] {msg : SignedStatement}
    {answer : Replica σ × List Action} (h : r.onPrepare ctx msg = .ok answer)
    (hgenuine : ∀ s ∈ msg.body.justify.seals,
      ctx.scheme.sealValid msg.body.justify.ballot s → genuine msg.body.justify.ballot s)
    (hheard : ctx.scheme.statementValid msg → msg.signer = ctx.leader msg.body.view →
      r.state.Accepts ctx (Trusted ctx genuine) msg.body → heard msg.body) :
    Handles ctx genuine heard r answer := by
  simp only [onPrepare, bind_eq_ok] at h
  obtain ⟨⟨⟩, hcheck, h⟩ := h
  obtain ⟨hsigned, hleader, haccepts⟩ := checkPrepare_ok hcheck hgenuine
  simp only [pure, Except.pure, Except.ok.injEq] at h
  subst h
  obtain ⟨hdeeds, hmessages⟩ := r.advanceTo_quiet msg.body.view
  obtain ⟨hview, haccepted⟩ := advanceTo_accept haccepts.notStale
  refine ⟨?_, advanceTo_stored, ?_⟩
  · rw [deedsIn_append, hdeeds, haccepted]
    have hheard := hheard (statementValid_of_verifySigned hsigned) hleader haccepts
    exact hview ▸ Move.accept hheard haccepts
  · rw [messagesIn_append, hmessages]
    exact fun _ => vote_plain

/-- A proposal that is voted on has been accepted. -/
theorem onPrepare_accepts {msg : SignedStatement} {answer : Replica σ × List Action}
    (h : r.onPrepare ctx msg = .ok answer) :
    r.state.Accepts ctx (Trusted ctx fun _ _ => True) msg.body ∧
      answer.1.state = r.state.accept msg.body := by
  simp only [onPrepare, bind_eq_ok] at h
  obtain ⟨⟨⟩, hcheck, h⟩ := h
  have haccepts : r.state.Accepts ctx (Trusted ctx fun _ _ => True) msg.body :=
    (checkPrepare_ok hcheck fun _ _ _ => trivial).2.2
  simp only [pure, Except.pure, Except.ok.injEq] at h
  subst h
  exact ⟨haccepts, (advanceTo_accept haccepts.notStale).2⟩

/-- The vote is the only deed on a proposal. -/
theorem onPrepare_deeds {msg : SignedStatement} {answer : Replica σ × List Action}
    (h : r.onPrepare ctx msg = .ok answer) : ∃ b, deedsIn answer.2 = [.vote b] := by
  simp only [onPrepare, bind_eq_ok] at h
  obtain ⟨⟨⟩, -, h⟩ := h
  simp only [pure, Except.pure, Except.ok.injEq] at h
  subst h
  rw [deedsIn_append, (r.advanceTo_quiet msg.body.view).1]
  exact ⟨_, rfl⟩

/-! ### Later phases -/

/-- Leaving a view does to the state what it says. -/
theorem leave_state (r : Replica σ) (view : View) :
    (r.leave ctx view).1.state = r.state.leave view := by
  rw [leave, ReplicaState.leave]
  cases View.next? view with
  | none => rfl
  | some next =>
      by_cases hlt : r.state.view < next
      · simp only [if_pos hlt]
        rw [enterView_of_lt hlt]
        rfl
      · simp only [if_neg hlt]
        rfl

/-- Leaving a view is no deed, and announces the next view if that is entered. -/
theorem leave_quiet (r : Replica σ) (view : View) :
    deedsIn (r.leave ctx view).2 = [] ∧
      ∀ message ∈ messagesIn (r.leave ctx view).2, message.Plain ctx := by
  rw [leave]
  split
  · split
    · next hlt =>
        rw [enterView_of_lt hlt]
        exact ⟨rfl, fun _ => startRound_plain⟩
    · exact ⟨rfl, by simp [messagesIn]⟩
  · exact ⟨rfl, by simp [messagesIn]⟩

/-- Leaving a view saves the state, whether or not the next one is entered. -/
theorem leave_stored [LawfulStore σ] (r : Replica σ) (view : View) :
    (r.leave ctx view).1.Stored := by
  rw [leave]
  split
  · split
    · next hlt =>
        rw [enterView_of_lt hlt]
        exact stored_persist _
    · exact stored_persist _
  · exact stored_persist _

/-- A commit sets the tip and the height, is executed, and announces the next view if it is
entered. -/
theorem commit_spec {cert : Certificate} {answer : Replica σ × List Action}
    (h : r.commit ctx cert = .ok answer) :
    ∃ height, Height.next? r.state.height = some height ∧
      answer.1.state = r.state.commit ctx.scheme cert height ∧
      deedsIn answer.2 = [.execute cert.view height cert.payload] ∧
      ∀ message ∈ messagesIn answer.2, message.Plain ctx := by
  rw [commit] at h
  split at h
  · cases h
  · next height hheight =>
      obtain rfl := Except.ok.inj h
      have hquiet := @leave_quiet _ _ ctx (⟨r.store, { r.state with
        committed := ctx.scheme.payloadDigest cert.payload, height }⟩ : Replica σ) cert.view
      exact ⟨height, hheight, leave_state _ _, congrArg (_ :: ·) hquiet.1, hquiet.2⟩

/-- **A commit leaves the replica stored**, whatever was stored before it. -/
theorem commit_stored [LawfulStore σ] {cert : Certificate} {answer : Replica σ × List Action}
    (h : r.commit ctx cert = .ok answer) : answer.1.Stored := by
  rw [commit] at h
  split at h
  · cases h
  · obtain rfl := Except.ok.inj h
    exact leave_stored _ _

/-- A replica that follows a later phase than Prepare is past waiting for the proposal. -/
theorem phase_of_applyPhase {st : Statement} {answer : Replica σ × List Action}
    (h : r.applyPhase ctx st = .ok answer) (hlater : st.phase ≠ .prepare) :
    r.state.phase ≠ .newView := by
  rw [applyPhase] at h
  simp only at h
  split at h
  · cases h
  · next hfits =>
      intro hphase
      have hnext := not_not.mp (not_or.mp hfits).2
      rw [hphase] at hnext
      exact hlater (Option.some.inj hnext).symm

/-- A ballot is known by its phase, view and payload. -/
theorem ballot_eq {cert : Certificate} {phase : Phase} {view : View} {payload : Payload}
    (hphase : phase = cert.phase) (hview : cert.view = view) (hpayload : cert.payload = payload) :
    cert.ballot = ⟨phase, view, payload⟩ := by
  subst hphase hview hpayload
  rfl

/-- **Applying a phase** of the current view takes the replica one phase further, with the vote or
the decision that belongs to it, whatever the statement is worth. -/
inductive Follows (ctx : Context) (st : Statement) (s : ReplicaState) :
    List Deed → ReplicaState → Prop
  | preCommit (hphase : s.phase = .prepare) (hnext : st.phase = .preCommit) :
      Follows ctx st s [.vote ⟨.preCommit, s.view, st.payload⟩] (s.preCommit st.justify)
  | lock (hphase : s.phase = .preCommit) (hnext : st.phase = .commit) :
      Follows ctx st s [.vote ⟨.commit, s.view, st.payload⟩] (s.lock st.justify)
  | decide {height} (hphase : s.phase = .commit) (hnext : st.phase = .decide)
      (hheight : Height.next? s.height = some height) :
      Follows ctx st s [.execute st.justify.view height st.justify.payload]
        (ReplicaState.commit { s with phase := .decide } ctx.scheme st.justify height)

omit [StateStore σ] in
/-- Applying a phase never goes back to an earlier view. -/
theorem Follows.view_le {st : Statement} {s s' : ReplicaState} {ds : List Deed}
    (h : Follows ctx st s ds s') : s.view ≤ s'.view := by
  cases h with
  | preCommit => exact UInt64.le_refl _
  | lock => exact UInt64.le_refl _
  | decide => exact ReplicaState.view_le_commit { s with phase := .decide } _ _ _

/-- What is applied is a phase of the current view. -/
theorem applyPhase_follows {st : Statement} {answer : Replica σ × List Action}
    (h : r.applyPhase ctx st = .ok answer) :
    st.view = r.state.view ∧ Follows ctx st r.state (deedsIn answer.2) answer.1.state ∧
      ∀ message ∈ messagesIn answer.2, message.Plain ctx := by
  rw [applyPhase] at h
  simp only at h
  split at h
  · cases h
  · next hfits =>
      obtain ⟨hhere, hnext⟩ := not_or.mp hfits
      refine ⟨not_not.mp hhere, ?_⟩
      have hcurrent := Phase.predecessor_eq_some_iff.mpr (not_not.mp hnext)
      cases hst : st.phase with
      | newView =>
          rw [hst] at hcurrent
          cases hcurrent
      | prepare =>
          rw [hst] at h
          cases h
      | preCommit =>
          rw [hst] at h hcurrent
          obtain rfl := Except.ok.inj h
          exact ⟨.preCommit (Option.some.inj hcurrent).symm hst, fun _ => vote_plain⟩
      | commit =>
          rw [hst] at h hcurrent
          obtain rfl := Except.ok.inj h
          exact ⟨.lock (Option.some.inj hcurrent).symm hst, fun _ => vote_plain⟩
      | decide =>
          rw [hst] at h hcurrent
          obtain ⟨height, hheight, hstate, hdeeds, hplain⟩ := commit_spec h
          refine ⟨?_, hplain⟩
          rw [hstate, hdeeds]
          exact .decide (Option.some.inj hcurrent).symm hst hheight

/-- What is applied is saved. -/
theorem applyPhase_stored [LawfulStore σ] {st : Statement} {answer : Replica σ × List Action}
    (h : r.applyPhase ctx st = .ok answer) : answer.1.Stored := by
  rw [applyPhase] at h
  simp only at h
  split at h
  · cases h
  cases hst : st.phase with
  | newView | prepare =>
      rw [hst] at h
      cases h
  | preCommit | commit =>
      rw [hst] at h
      obtain rfl := Except.ok.inj h
      exact stored_persist _
  | decide =>
      rw [hst] at h
      exact commit_stored h

/-- **A phase of the accepted proposal**, on the certificate of the phase before, is followed with
the vote or the decision that belongs to it. -/
theorem applyPhase_handles [LawfulStore σ] {st : Statement} {answer : Replica σ × List Action}
    (h : r.applyPhase ctx st = .ok answer) (hheld : r.state.proposal = some st.payload)
    (hphase : st.phase.predecessor = some st.justify.phase) (hview : st.justify.view = st.view)
    (hpayload : st.justify.payload = st.payload) (htrusted : Trusted ctx genuine st.justify) :
    Handles ctx genuine heard r answer := by
  obtain ⟨hsame, hfollows, hplain⟩ := applyPhase_follows h
  have hhere : st.justify.view = r.state.view := hview.trans hsame
  have hcert {phase : Phase} (hbefore : st.phase.predecessor = some phase) :
      st.justify.ballot = ⟨phase, r.state.view, st.payload⟩ :=
    ballot_eq (Option.some.inj (hbefore.symm.trans hphase)) hhere hpayload
  refine ⟨?_, fun _ => applyPhase_stored h, hplain⟩
  generalize deedsIn answer.2 = deeds, answer.1.state = state at hfollows ⊢
  cases hfollows with
  | preCommit hcurrent hnext =>
      exact .preCommit hcurrent hheld (hcert (by rw [hnext]; rfl)) htrusted
  | lock hcurrent hnext => exact .lock hcurrent hheld (hcert (by rw [hnext]; rfl)) htrusted
  | decide hcurrent hnext hheight =>
      rw [hhere, hpayload]
      exact .decide hcurrent hheld (hcert (by rw [hnext]; rfl)) htrusted hheight

omit [StateStore σ] in
/-- A decision that passes the checks is a Commit certificate for what extends the
committed chain. -/
theorem checkDecision_ok {st : Statement} (h : r.checkDecision ctx st = .ok ()) :
    (st.justify.phase = .commit ∧ st.justify.view = st.view ∧ st.justify.payload = st.payload) ∧
      st.payload.parent = r.state.committed ∧ ctx.verify st.justify = .ok () := by
  simpa only [checkDecision, guard_throw_eq_ok, not_or, not_not] using h

omit [StateStore σ] in
/-- A phase that passes the checks is justified by the phase before it, for the accepted
proposal. -/
theorem checkPhase_ok {st : Statement} (h : r.checkPhase ctx st = .ok ()) :
    r.state.proposal = some st.payload ∧ st.phase.predecessor = some st.justify.phase ∧
      st.justify.view = st.view ∧ st.justify.payload = st.payload ∧
      ctx.verify st.justify = .ok () := by
  simp only [checkPhase, guard_throw_eq_ok, not_or, not_not] at h
  obtain ⟨-, -, ⟨hphase, hview, hpayload⟩, hheld, hvalid⟩ := h
  exact ⟨hheld, hphase.symm, hview, hpayload, hvalid⟩

/-- What the leader says is a decision to catch up with, or a phase to apply. -/
theorem onPhase_ok {msg : SignedStatement} {answer : Replica σ × List Action}
    (h : r.onPhase ctx msg = .ok answer) :
    ((msg.body.phase = .decide ∧ ¬ (msg.body.view = r.state.view ∧ r.state.phase = .commit)) ∧
        r.checkDecision ctx msg.body = .ok () ∧ r.commit ctx msg.body.justify = .ok answer) ∨
      r.checkPhase ctx msg.body = .ok () ∧ r.applyPhase ctx msg.body = .ok answer := by
  simp only [onPhase, bind_eq_ok, guard_refuse_eq_ok, Outcome.ofCheck_eq_ok] at h
  obtain ⟨-, ⟨⟩, -, ⟨⟩, -, h⟩ := h
  split at h
  · next hout =>
      obtain ⟨⟨⟩, hcheck, hcommit⟩ := bind_eq_ok.mp h
      exact Or.inl ⟨of_decide_eq_true hout, Outcome.ofCheck_eq_ok.mp hcheck, hcommit⟩
  · obtain ⟨⟨⟩, hcheck, happly⟩ := bind_eq_ok.mp h
    exact Or.inr ⟨Outcome.ofCheck_eq_ok.mp hcheck, happly⟩

/-- **What the leader says after its proposal** is followed in sequence, or caught up with. -/
theorem onPhase_handles [LawfulStore σ] {msg : SignedStatement}
    {answer : Replica σ × List Action} (h : r.onPhase ctx msg = .ok answer)
    (hgenuine : ∀ s ∈ msg.body.justify.seals,
      ctx.scheme.sealValid msg.body.justify.ballot s → genuine msg.body.justify.ballot s) :
    Handles ctx genuine heard r answer := by
  rcases onPhase_ok h with ⟨⟨-, hout⟩, hcheck, hcommit⟩ | ⟨hcheck, happly⟩
  · obtain ⟨⟨hphase, hview, hpayload⟩, hparent, hvalid⟩ := checkDecision_ok hcheck
    obtain ⟨height, hheight, hstate, hdeeds, hplain⟩ := commit_spec hcommit
    refine ⟨?_, fun _ => commit_stored hcommit, hplain⟩
    rw [hstate, hdeeds]
    exact .catchUp hphase (hpayload ▸ hparent) (hview.symm ▸ hout) ⟨hvalid, hgenuine⟩ hheight
  · obtain ⟨hheld, hphase, hview, hpayload, hvalid⟩ := checkPhase_ok hcheck
    exact applyPhase_handles happly hheld hphase hview hpayload ⟨hvalid, hgenuine⟩

/-! ### Restarts -/

/-- **A restart** enters the view after the saved one with the saved progress, and is saved. -/
theorem create_spec [LawfulStore σ] {store : σ} (h : create ctx store = .ok r) :
    r.Stored ∧ ∃ loaded, StateStore.load store = .ok loaded ∧
      match loaded with
      | some saved => ReplicaState.resume saved = .ok r.state
      | none => r.state = .initial ctx.scheme.genesisDigest := by
  rw [create, bind_eq_ok] at h
  obtain ⟨loaded, hload, h⟩ := h
  cases loaded with
  | some saved =>
      obtain ⟨state, hstate, h⟩ := bind_eq_ok.mp h
      obtain rfl := Except.ok.inj h
      exact ⟨stored_persist _, some saved, hload, hstate⟩
  | none =>
      obtain rfl := Except.ok.inj h
      exact ⟨stored_persist _, none, hload, rfl⟩

/-- A replica that was just created waits for a proposal. -/
theorem create_phase [LawfulStore σ] {store : σ} (h : create ctx store = .ok r) :
    r.state.phase = .newView ∧ r.state.proposal = none := by
  obtain ⟨-, loaded, -, hstate⟩ := create_spec h
  cases loaded with
  | none =>
      rw [hstate]
      exact ⟨rfl, rfl⟩
  | some saved =>
      simp only [ReplicaState.resume] at hstate
      split at hstate
      · rw [← Except.ok.inj hstate]
        exact ⟨rfl, rfl⟩
      · cases hstate

/-- A replica restarted on its own store has entered the next view. -/
theorem create_of_stored [LawfulStore σ] (hstored : r.Stored)
    (h : create ctx r.store = .ok r') :
    r'.Stored ∧ ∃ view, r.state.view < view ∧ r'.state = r.state.enter view := by
  obtain ⟨hstored', loaded, hload, hresume⟩ := create_spec h
  obtain rfl := Except.ok.inj (hload.symm.trans hstored)
  refine ⟨hstored', ?_⟩
  simp only [ReplicaState.resume] at hresume
  split at hresume
  · next view hnext =>
      refine ⟨view, View.lt_of_next? hnext, ?_⟩
      exact (Except.ok.inj hresume).symm
  · cases hresume

end Replica

end HotStuff
