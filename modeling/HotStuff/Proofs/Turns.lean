import HotStuff.Proofs.Collecting

/-!
# The Kinds of Turns

A turn hands an input, or a message of the member to itself, to one of a few handlers. `Turn.Kind`
says which handler that was and what it answered, with what became of the replica and of the
collector, and `Core.Considers` says so of a message alone. Here the core is opened once; later
proofs split on the kind of a turn.

## Main results

* `Core.considers_of_consider`: what comes of a message is the answer of one handler.
* `Core.kind_of_take`: every turn is of one of the kinds.
* `Turn.collects_of_kind`: the collector is what one handler of the leader leaves, if any.
* `Turn.votes_of_kind`: a turn acts on the collector through its operations.
-/

namespace HotStuff

/-- The actions of an answer; a refusal has none. -/
def saidIn : Except Error (List Action) → List Action
  | .ok actions => actions
  | .error _ => []

namespace Core

variable {σ : Type} [StateStore σ] {ctx : Context} {core core' mid : Core σ} {now : Instant}

/-- A handled message: the handler's answer, with only liveness and metrics changed after it. -/
theorem dispatch_ok {message : Message} {said : List Action}
    (h : core.dispatch ctx now message = .ok (core', said)) :
    ∃ answer mid, core.consider ctx message = .ok (answer, mid) ∧ said = saidIn answer ∧
      core'.replica = mid.replica ∧ core'.votes = mid.votes := by
  obtain ⟨⟨answer, mid⟩, hconsider, h⟩ := bind_eq_ok.mp h
  refine ⟨answer, mid, hconsider, ?_⟩
  cases answer with
  | ok actions =>
      obtain ⟨rfl, rfl⟩ := Prod.mk.inj (Except.ok.inj h)
      exact ⟨rfl, rfl, rfl⟩
  | error cause =>
      obtain ⟨rfl, rfl⟩ := Prod.mk.inj (Except.ok.inj h)
      exact ⟨rfl, rfl, rfl⟩

omit [StateStore σ] in
/-- The replica's answer becomes the core's; a refusal leaves the core as it was. -/
theorem answer_ok {outcome : Outcome (Replica σ × List Action)}
    {answer : Except Error (List Action)} (h : core.answer outcome = .ok (answer, mid)) :
    (∃ r actions, outcome = .ok (r, actions) ∧ answer = .ok actions ∧
        mid = { core with replica := r }) ∨
      (∃ cause, answer = .error cause) ∧ mid = core := by
  cases outcome with
  | ok result =>
      obtain ⟨rfl, rfl⟩ := Prod.mk.inj (Except.ok.inj h)
      exact Or.inl ⟨_, _, rfl, rfl, rfl⟩
  | error failure =>
      cases failure with
      | refused cause =>
          obtain ⟨rfl, rfl⟩ := Prod.mk.inj (Except.ok.inj h)
          exact Or.inr ⟨⟨cause, rfl⟩, rfl⟩
      | overflow o => cases h

/-- An envelope that is let through names the phase of its statement. -/
theorem checkEnvelope_ok {envelope : Phase} {signed : SignedStatement}
    (h : checkEnvelope envelope signed = .ok ()) : signed.body.phase = envelope := by
  rw [checkEnvelope] at h
  split at h
  · next heq => exact heq
  · cases h

/-- **What comes of a message**: it is refused, or one handler answers it. A vote that is refused
may leave something in the collector. -/
inductive Considers (ctx : Context) (core : Core σ) :
    Message → Except Error (List Action) → Core σ → Prop
  | refused {message cause} : Considers ctx core message (.error cause) core
  | uncounted {vote cause votes}
      (hcount : Leader.onVote ctx core.votes core.replica.state.view vote = (.error cause, votes)) :
      Considers ctx core (.vote vote) (.error cause) { core with votes }
  | counted {vote votes}
      (hcount : Leader.onVote ctx core.votes core.replica.state.view vote = (.ok none, votes)) :
      Considers ctx core (.vote vote) (.ok []) { core with votes }
  | certified {vote next votes replica own}
      (hcount : Leader.onVote ctx core.votes core.replica.state.view vote =
        (.ok (some next), votes))
      (hown : core.replica.applyPhase ctx next.body = .ok (replica, own) ∨
        replica = core.replica ∧ own = []) :
      Considers ctx core (.vote vote)
        (.ok (.notify (.certified next.body.justify.view next.body.justify.phase) ::
          .broadcast (.ofStatement next) :: own)) { core with replica, votes }
  | entered {signed entry votes replica said} (hphase : signed.body.phase = .newView)
      (hentry : Leader.onNewView ctx core.votes core.replica.state.view signed =
        .ok (entry, votes))
      (hanswer : (entry.quorumReached ∧ core.replica.state.view < entry.view) ∧
          core.replica.enterView ctx entry.view = (replica, said) ∨
        ¬ (entry.quorumReached ∧ core.replica.state.view < entry.view) ∧
          replica = core.replica ∧ said = []) :
      Considers ctx core (.statement .newView signed) (.ok said) { core with replica, votes }
  | accepted {signed replica said} (hphase : signed.body.phase = .prepare)
      (hanswer : core.replica.onPrepare ctx signed = .ok (replica, said)) :
      Considers ctx core (.statement .prepare signed) (.ok said) { core with replica }
  | followed {envelope signed replica said} (hphase : signed.body.phase = envelope)
      (hlater : Phase.prepare < envelope)
      (hanswer : core.replica.onPhase ctx signed = .ok (replica, said)) :
      Considers ctx core (.statement envelope signed) (.ok said) { core with replica }

/-- What comes of a vote is one of the ways in which something comes of a message. -/
theorem considers_of_onVote {vote : Vote} {answer : Except Error (List Action)}
    (h : core.onVote ctx vote = .ok (answer, mid)) :
    core.Considers ctx (.vote vote) answer mid := by
  rw [onVote] at h
  cases hcount : Leader.onVote ctx core.votes core.replica.state.view vote with
  | mk said votes =>
  rw [hcount] at h
  cases said with
  | error cause =>
      obtain ⟨rfl, rfl⟩ := Prod.mk.inj (Except.ok.inj h)
      exact .uncounted hcount
  | ok said =>
  cases said with
  | none =>
      obtain ⟨rfl, rfl⟩ := Prod.mk.inj (Except.ok.inj h)
      exact .counted hcount
  | some next =>
  simp only at h
  split at h
  · next happly =>
      obtain ⟨rfl, rfl⟩ := Prod.mk.inj (Except.ok.inj h)
      exact .certified hcount (Or.inl happly)
  · obtain ⟨rfl, rfl⟩ := Prod.mk.inj (Except.ok.inj h)
    exact .certified hcount (Or.inr ⟨rfl, rfl⟩)
  · cases h

/-- **What comes of a message is the answer of one handler.** -/
theorem considers_of_consider {message : Message} {answer : Except Error (List Action)}
    (h : core.consider ctx message = .ok (answer, mid)) :
    core.Considers ctx message answer mid := by
  cases message with
  | vote vote => exact considers_of_onVote h
  | statement envelope signed =>
  simp only [consider] at h
  split at h
  · obtain ⟨rfl, rfl⟩ := Prod.mk.inj (Except.ok.inj h)
    exact .refused
  next henvelope =>
  have hphase := checkEnvelope_ok henvelope
  cases envelope with
  | newView =>
      simp only at h
      split at h
      · next entered said hentered =>
          obtain ⟨rfl, rfl⟩ := Prod.mk.inj (Except.ok.inj h)
          obtain ⟨⟨entry, votes⟩, hentry, hentered⟩ := bind_eq_ok.mp hentered
          simp only [Bool.and_eq_true, decide_eq_true_eq] at hentered
          split at hentered
          · next hfollows =>
              obtain ⟨rfl, rfl⟩ := Prod.mk.inj (Except.ok.inj hentered)
              exact .entered hphase hentry (Or.inl ⟨hfollows, rfl⟩)
          · next hstays =>
              obtain ⟨rfl, rfl⟩ := Prod.mk.inj (Except.ok.inj hentered)
              exact .entered hphase hentry (Or.inr ⟨hstays, rfl, rfl⟩)
      · obtain ⟨rfl, rfl⟩ := Prod.mk.inj (Except.ok.inj h)
        exact .refused
  | prepare =>
      rcases answer_ok h with ⟨r, actions, houtcome, rfl, rfl⟩ | ⟨⟨cause, rfl⟩, rfl⟩
      · exact .accepted hphase (Outcome.ofCheck_eq_ok.mp houtcome)
      · exact .refused
  | preCommit | commit | decide =>
      rcases answer_ok h with ⟨r, actions, houtcome, rfl, rfl⟩ | ⟨⟨cause, rfl⟩, rfl⟩
      · exact .followed hphase (by decide) houtcome
      · exact .refused

/-- An offer is made in the current view, with its ballot opened; the replica votes for
it or stays. -/
theorem offer_ok {slot : Slot} {data : Bytes} {said : List Action}
    (h : core.offer ctx slot data = some (core', said)) :
    slot.view = core.replica.state.view ∧ ∃ prepare,
      Leader.propose ctx core.votes slot core.replica.state.committed data =
        .ok (prepare, core'.votes) ∧
      ((∃ actions, core.replica.onPrepare ctx prepare = .ok (core'.replica, actions) ∧
          said = .broadcast (.statement .prepare prepare) :: actions) ∨
        core'.replica = core.replica ∧ said = [.broadcast (.statement .prepare prepare)]) := by
  rw [offer] at h
  split at h
  · cases h
  next hview =>
  have hview : slot.view = core.replica.state.view := by
    obtain ⟨current, hcurrent, heq⟩ := Option.map_eq_some_iff.mp (not_not.mp hview)
    rw [← heq]
    exact (Leader.slot?_spec hcurrent).1
  refine ⟨hview, ?_⟩
  split at h
  · cases h
  next prepare votes hpropose =>
  simp only at h
  split at h
  · next r actions hprepare =>
      obtain ⟨rfl, rfl⟩ := Prod.mk.inj (Option.some.inj h)
      exact ⟨prepare, hpropose, Or.inl ⟨actions, hprepare, rfl⟩⟩
  · obtain ⟨rfl, rfl⟩ := Prod.mk.inj (Option.some.inj h)
    exact ⟨prepare, hpropose, Or.inr ⟨rfl, rfl⟩⟩

end Core

section Kinds

variable {σ : Type} [StateStore σ] (ctx : Context) (t : Turn σ)

/-- **The kinds of turns**, by the handler that was called and its answer. Replica and collector
stay as they were unless something else is said about them. -/
inductive Turn.Kind : Prop
  /-- A member announces the view it is in. -/
  | announced (hinput : t.input = .start) (hsaid : t.said = t.before.replica.startRound ctx)
      (hreplica : t.after.replica = t.before.replica) (hvotes : t.after.votes = t.before.votes)
  | timedOut (hinput : t.input = .timeout)
      (hanswer : t.before.replica.onTimeout ctx = (t.after.replica, t.said))
      (hvotes : t.after.votes = t.before.votes)
  /-- Nothing comes of a message or a proposal. -/
  | refused (hsaid : t.said = []) (hreplica : t.after.replica = t.before.replica)
      (hvotes : t.after.votes = t.before.votes)
  /-- Someone has entered a view, and the replica may follow. -/
  | entered {signed entry} (hinput : t.input = .message (.statement .newView signed))
      (hentry : Leader.onNewView ctx t.before.votes t.before.replica.state.view signed =
        .ok (entry, t.after.votes))
      (hanswer : t.before.replica.enterView ctx entry.view = (t.after.replica, t.said) ∨
        t.after.replica = t.before.replica ∧ t.said = [])
  /-- A proposal is accepted. -/
  | accepted {signed} (hinput : t.input = .message (.statement .prepare signed))
      (hphase : signed.body.phase = .prepare)
      (hanswer : t.before.replica.onPrepare ctx signed = .ok (t.after.replica, t.said))
      (hvotes : t.after.votes = t.before.votes)
  /-- A later phase is followed. -/
  | followed {signed} (hinput : t.input = .message (.ofStatement signed))
      (hlater : signed.body.phase ≠ .newView ∧ signed.body.phase ≠ .prepare)
      (hanswer : t.before.replica.onPhase ctx signed = .ok (t.after.replica, t.said))
      (hvotes : t.after.votes = t.before.votes)
  /-- A vote is counted or refused, and nothing follows from it. -/
  | counted {vote said} (hinput : t.input = .message (.vote vote))
      (hcount : Leader.onVote ctx t.before.votes t.before.replica.state.view vote =
        (said, t.after.votes))
      (hnone : ∀ next, said ≠ .ok (some next)) (hsaid : t.said = [])
      (hreplica : t.after.replica = t.before.replica)
  /-- A vote completes a certificate. It is announced, and the replica follows it if it can. -/
  | certified {vote next own} (hinput : t.input = .message (.vote vote))
      (hcount : Leader.onVote ctx t.before.votes t.before.replica.state.view vote =
        (.ok (some next), t.after.votes))
      (hown : t.before.replica.applyPhase ctx next.body = .ok (t.after.replica, own) ∨
        t.after.replica = t.before.replica ∧ own = [])
      (hsaid : t.said = .notify (.certified next.body.justify.view next.body.justify.phase) ::
        .broadcast (.ofStatement next) :: own)
  /-- A proposal is made in the current view, and the replica votes for it if it can. -/
  | offered {slot data prepare own} (hinput : t.input = .propose slot data)
      (hview : slot.view = t.before.replica.state.view)
      (hpropose : Leader.propose ctx t.before.votes slot t.before.replica.state.committed data =
        .ok (prepare, t.after.votes))
      (hown : t.before.replica.onPrepare ctx prepare = .ok (t.after.replica, own) ∨
        t.after.replica = t.before.replica ∧ own = [])
      (hsaid : t.said = .broadcast (.statement .prepare prepare) :: own)

/-- **What becomes of the collector in a turn**: it stays as it was, or is what one handler of the
leader leaves. -/
inductive Turn.Collects : Prop
  | nothing (hvotes : t.after.votes = t.before.votes)
  | announcement {signed entry} (hinput : t.input = .message (.statement .newView signed))
      (hentry : Leader.onNewView ctx t.before.votes t.before.replica.state.view signed =
        .ok (entry, t.after.votes))
  | vote {vote said} (hinput : t.input = .message (.vote vote))
      (hcount : Leader.onVote ctx t.before.votes t.before.replica.state.view vote =
        (said, t.after.votes))
  | proposal {slot data prepare} (hview : slot.view = t.before.replica.state.view)
      (hpropose : Leader.propose ctx t.before.votes slot t.before.replica.state.committed data =
        .ok (prepare, t.after.votes))

variable {ctx t}

/-- The kind of a turn on a message. -/
theorem Turn.kind_of_considers {message : Message} {answer : Except Error (List Action)}
    {mid : Core σ} (hinput : t.input = .message message)
    (h : t.before.Considers ctx message answer mid) (hsaid : t.said = saidIn answer)
    (hreplica : t.after.replica = mid.replica) (hvotes : t.after.votes = mid.votes) :
    t.Kind ctx := by
  cases h with
  | refused => exact .refused hsaid hreplica hvotes
  | uncounted hcount =>
      have hcount' := hcount.trans (congrArg (Prod.mk _) hvotes.symm)
      exact .counted hinput hcount' (by simp) hsaid hreplica
  | counted hcount =>
      have hcount' := hcount.trans (congrArg (Prod.mk _) hvotes.symm)
      exact .counted hinput hcount' (by simp) hsaid hreplica
  | certified hcount hown =>
      have hcount' := hcount.trans (congrArg (Prod.mk _) hvotes.symm)
      exact .certified hinput hcount' (hreplica ▸ hown) hsaid
  | @entered signed entry votes replica said _ hentry hanswer =>
      have hentry' := hentry.trans (congrArg (Except.ok ∘ Prod.mk entry) hvotes.symm)
      refine .entered hinput hentry' ?_
      rw [hsaid, hreplica]
      exact hanswer.imp And.right And.right
  | accepted hphase hanswer =>
      refine .accepted hinput hphase ?_ hvotes
      rw [hsaid, hreplica]
      exact hanswer
  | @followed envelope signed replica said hphase hlater hanswer =>
      have hinput' : t.input = .message (.ofStatement signed) := by
        rw [hinput, Message.ofStatement, hphase]
      refine .followed hinput' ?_ ?_ hvotes
      · rw [hphase]
        constructor
        · rintro rfl
          exact absurd hlater (by decide)
        · rintro rfl
          exact absurd hlater (by decide)
      · rw [hsaid, hreplica]
        exact hanswer

/-- **Every turn is of one of the kinds.** -/
theorem Core.kind_of_take {core core' : Core σ} {now : Instant} {input : Input}
    {said : List Action} (h : core.take ctx now input = .ok (core', said)) :
    Turn.Kind ctx ⟨core, input, said, core'⟩ := by
  cases input with
  | start =>
      obtain ⟨rfl, rfl⟩ := Prod.mk.inj (Except.ok.inj h)
      exact .announced rfl rfl rfl rfl
  | timeout =>
      obtain ⟨rfl, rfl⟩ := Prod.mk.inj (Except.ok.inj h)
      exact .timedOut rfl rfl rfl
  | message message =>
      obtain ⟨answer, mid, hconsider, hsaid, hreplica, hvotes⟩ := dispatch_ok h
      exact Turn.kind_of_considers rfl (considers_of_consider hconsider) hsaid hreplica hvotes
  | propose slot data =>
      rw [take] at h
      cases hoffer : core.offer ctx slot data with
      | none =>
          rw [hoffer] at h
          obtain ⟨rfl, rfl⟩ := Prod.mk.inj (Except.ok.inj h)
          exact .refused rfl rfl rfl
      | some result =>
          rw [hoffer] at h
          obtain rfl := Except.ok.inj h
          obtain ⟨hview, prepare, hpropose, ⟨own, hprepare, hsaid⟩ | ⟨hreplica, hsaid⟩⟩ :=
            offer_ok hoffer
          · exact .offered rfl hview hpropose (Or.inl hprepare) hsaid
          · exact .offered rfl hview hpropose (Or.inr ⟨hreplica, rfl⟩) hsaid

/-- The handlers of the replica leave the collector alone. -/
theorem Turn.collects_of_kind (hkind : t.Kind ctx) : t.Collects ctx := by
  cases hkind with
  | announced _ _ _ hvotes => exact .nothing hvotes
  | timedOut _ _ hvotes => exact .nothing hvotes
  | refused _ _ hvotes => exact .nothing hvotes
  | entered hinput hentry _ => exact .announcement hinput hentry
  | accepted _ _ _ hvotes => exact .nothing hvotes
  | followed _ _ _ hvotes => exact .nothing hvotes
  | counted hinput hcount => exact .vote hinput hcount
  | certified hinput hcount => exact .vote hinput hcount
  | offered _ hview hpropose => exact .proposal hview hpropose

/-- **What the operations of a collector keep is kept by every turn.** -/
theorem Turn.votes_of_kind {P : Collector → Prop}
    (enter : ∀ c c' view m justify count,
      c.addNewView ctx.committee view m justify = .ok (count, c') → P c → P c')
    (count : ∀ c c' vote outcome, t.input = .message (.vote vote) →
      c.addVote ctx.scheme ctx.committee vote = .ok (outcome, c') → P c → P c')
    (poll : ∀ c c' target, c.openBallot target = .ok c' → P c → P c')
    (hkind : t.Kind ctx) (hP : P t.before.votes) : P t.after.votes := by
  cases Turn.collects_of_kind hkind with
  | nothing hvotes => rwa [hvotes]
  | announcement _ hentry =>
      obtain ⟨-, -, hadd⟩ := Leader.onNewView_ok hentry
      exact enter _ _ _ _ _ _ hadd hP
  | @vote vote _ hinput hcount =>
      exact Leader.kept_of_onVote (fun c c' outcome => count c c' vote outcome hinput) poll
        hcount hP
  | proposal _ hpropose =>
      obtain ⟨-, -, hopen⟩ := Leader.propose_ok hpropose
      exact poll _ _ _ hopen hP

end Kinds

end HotStuff
