import HotStuff.Proofs.Resting

/-!
# Who Is Listened To

A message has an effect only if it comes from the member it names and if that member may say it: a
leader speaks for its own views, votes and announcements go to the leader of their view. The checks
are spread over the handlers, in another order in each; `Message.Authorised` is what they amount to,
and a message that is not authorised is refused with nothing changed but the count of messages
dropped. What a member sends to itself it has sealed itself, so nobody else is noted as heard from
on the way.

## Main definitions

* `Message.Authorised`: sealed by a member, and one that this member may send to the local one.
* `Action.Own`: what a member does itself, with the messages that go with it.

## Main results

* `Core.consider_cases`: a message is authorised, or refused with nothing changed.
* `Turn.Kind.own`: a member seals all that it says.
* `effects_are_authorised`: whatever has an effect is authorised.
-/

namespace HotStuff

/-! ### Authority -/

/-- The seal of a message is one over exactly what the message says. -/
def Message.Sealed (scheme : Scheme) : Message → Prop
  | .statement _ signed => scheme.statementValid signed
  | .vote v => scheme.voteValid v

/-- **What a member may say**, to a member that is in view `here`. A vote goes to the leader of the
current view, an announcement to the leader of a view that is not over. All else is said by the
leader of the view, in an envelope for its phase; after the proposal, to the others only. -/
def Message.Permitted (ctx : Context) (here : View) : Message → Prop
  | .vote v => ctx.leads v.ballot.view ∧ v.ballot.view = here
  | .statement envelope signed =>
    signed.body.phase = envelope ∧
      match envelope with
      | .newView => ctx.leads signed.body.view ∧ here ≤ signed.body.view
      | .prepare => signed.signer = ctx.leader signed.body.view
      | .preCommit | .commit | .decide =>
        signed.signer = ctx.leader signed.body.view ∧ ¬ ctx.leads signed.body.view

/-- **An authorised message**: from a member, under its seal, and one that it may send. -/
structure Message.Authorised (ctx : Context) (here : View) (m : Message) : Prop where
  member : m.signer ∈ ctx.committee.members
  isSealed : m.Sealed ctx.scheme
  permitted : m.Permitted ctx here

section Checks

variable {ctx : Context} {here : View} {signed : SignedStatement}

/-- A statement passes as signed when a member has sealed it. -/
theorem Context.verifySigned_ok (h : ctx.verifySigned signed = .ok ()) :
    signed.signer ∈ ctx.committee.members ∧ ctx.scheme.statementValid signed := by
  rw [verifySigned] at h
  split at h
  · cases h
  next hmember =>
  split at h
  · cases h
  next hvalid => exact ⟨not_not.mp hmember, by simpa using hvalid⟩

/-- The leader of a view is the only one to speak for it. -/
theorem Replica.checkLeader_ok (h : checkLeader ctx signed = .ok ()) :
    signed.signer = ctx.leader signed.body.view := by
  rw [checkLeader] at h
  split at h
  · next heq => exact heq
  · cases h

/-- An announcement that is recorded is authorised. -/
theorem Leader.authorised_of_onNewView {c c' : Collector} {entry : Entry}
    (h : onNewView ctx c here signed = .ok (entry, c')) :
    (Message.statement .newView signed).Authorised ctx here := by
  obtain ⟨hcheck, -, -⟩ := onNewView_ok h
  simp only [checkNewView, bind_eq_ok, guard_throw_eq_ok] at hcheck
  obtain ⟨hphase, ⟨⟩, hsigned, hleads, hstale, -⟩ := hcheck
  obtain ⟨hmember, hvalid⟩ := Context.verifySigned_ok hsigned
  have hleads : ctx.leads signed.body.view := by simpa using hleads
  exact ⟨hmember, hvalid, not_not.mp hphase, hleads, UInt64.not_lt.mp hstale⟩

/-- A vote that is counted is authorised. -/
theorem Leader.authorised_of_addVote {c c' : Collector} {vote : Vote} {outcome : VoteOutcome}
    (hleads : ctx.leads vote.ballot.view) (hview : vote.ballot.view = here)
    (h : c.addVote ctx.scheme ctx.committee vote = .ok (outcome, c')) :
    (Message.vote vote).Authorised ctx here := by
  rw [Collector.addVote] at h
  split at h
  · cases h
  next hmember =>
  split at h
  · cases h
  next hvalid =>
  have hvalid : ctx.scheme.voteValid vote := by simpa using hvalid
  exact ⟨not_not.mp hmember, hvalid, hleads, hview⟩

/-- A vote is authorised, or refused with nothing changed. -/
theorem Leader.onVote_cases (c : Collector) (vote : Vote) :
    (∃ cause, onVote ctx c here vote = (.error cause, c)) ∨
      (Message.vote vote).Authorised ctx here := by
  rw [onVote]
  by_cases hleads : ctx.leads vote.ballot.view
  · by_cases hview : vote.ballot.view = here
    · cases hadd : c.addVote ctx.scheme ctx.committee vote with
      | error cause =>
          left
          exact ⟨cause, by rw [if_neg (by simpa using hleads), if_neg (not_not.mpr hview)]⟩
      | ok result =>
          right
          obtain ⟨outcome, counted⟩ := result
          exact authorised_of_addVote hleads hview hadd
    · left
      exact ⟨.viewMismatch vote.ballot.view here, by simp [hleads, hview]⟩
  · left
    exact ⟨.invalidVote (.notLeader vote.ballot.view), by simp [hleads]⟩

variable {σ : Type} [StateStore σ] {r : Replica σ}

/-- A proposal that is voted on is authorised. -/
theorem Replica.authorised_of_onPrepare {answer : Replica σ × List Action}
    (h : r.onPrepare ctx signed = .ok answer) :
    (Message.statement .prepare signed).Authorised ctx here := by
  simp only [onPrepare, bind_eq_ok] at h
  obtain ⟨⟨⟩, hcheck, -⟩ := h
  simp only [checkPrepare, bind_eq_ok, guard_throw_eq_ok] at hcheck
  obtain ⟨hphase, ⟨⟩, hsigned, ⟨⟩, hleader, -⟩ := hcheck
  obtain ⟨hmember, hvalid⟩ := Context.verifySigned_ok hsigned
  exact ⟨hmember, hvalid, not_not.mp hphase, checkLeader_ok hleader⟩

/-- What the leader says later is refused, or it comes from the leader of a view that the member
does not lead itself, and is caught up with or applied. -/
theorem Replica.onPhase_cases (r : Replica σ) (signed : SignedStatement) :
    (∃ cause, r.onPhase ctx signed = .error (.refused cause)) ∨
      ((signed.signer ∈ ctx.committee.members ∧ ctx.scheme.statementValid signed) ∧
        signed.signer = ctx.leader signed.body.view ∧ ¬ ctx.leads signed.body.view) ∧
      ((r.outOfSequence signed.body ∧ r.checkDecision ctx signed.body = .ok () ∧
          r.onPhase ctx signed = r.commit ctx signed.body.justify) ∨
        ¬ r.outOfSequence signed.body ∧ r.checkPhase ctx signed.body = .ok () ∧
          r.onPhase ctx signed = r.applyPhase ctx signed.body) := by
  rw [onPhase]
  by_cases hleads : ctx.leads signed.body.view
  · left
    exact ⟨.invalidProposal (.ownPhase signed.body.phase signed.body.view),
      by simp [hleads, refuse, bind, Except.bind]⟩
  cases hsigned : ctx.verifySigned signed with
  | error cause =>
      left
      exact ⟨cause, by simp [hleads, Outcome.ofCheck, bind, Except.bind]⟩
  | ok _ =>
  cases hleader : checkLeader ctx signed with
  | error cause =>
      left
      exact ⟨cause, by simp [hleads, Outcome.ofCheck, bind, Except.bind]⟩
  | ok _ =>
  have hheard := And.intro (Context.verifySigned_ok hsigned)
    (And.intro (checkLeader_ok hleader) hleads)
  cases hout : r.outOfSequence signed.body with
  | true =>
      cases hcheck : r.checkDecision ctx signed.body with
      | error cause =>
          left
          exact ⟨cause, by simp [hleads, Outcome.ofCheck, bind, Except.bind]⟩
      | ok _ =>
          right
          refine ⟨hheard, Or.inl ⟨rfl, rfl, ?_⟩⟩
          simp [hleads, Outcome.ofCheck, bind, Except.bind]
  | false =>
      cases hcheck : r.checkPhase ctx signed.body with
      | error cause =>
          left
          exact ⟨cause, by simp [hleads, Outcome.ofCheck, bind, Except.bind]⟩
      | ok _ =>
          right
          refine ⟨hheard, Or.inr ⟨Bool.false_ne_true, rfl, ?_⟩⟩
          simp [hleads, Outcome.ofCheck, bind, Except.bind]

end Checks

/-! ### Considering a message -/

namespace Core

variable {σ : Type} [StateStore σ] {ctx : Context} {core core' mid : Core σ} {now : Instant}
  {message : Message}

omit [StateStore σ] in
/-- The replica's refusal leaves the core as it was. -/
theorem answer_refused {outcome : Outcome (Replica σ × List Action)} {cause : Error}
    (h : outcome = .error (.refused cause)) : core.answer outcome = .ok (.error cause, core) := by
  rw [h, answer]

/-- **A message is authorised, or refused with nothing changed.** -/
theorem consider_cases (core : Core σ) (message : Message) :
    (∃ cause, core.consider ctx message = .ok (.error cause, core)) ∨
      message.Authorised ctx core.replica.state.view := by
  cases message with
  | vote vote =>
      rcases Leader.onVote_cases core.votes vote with ⟨cause, hrefused⟩ | hauthorised
      · exact Or.inl ⟨cause, by rw [consider, onVote, hrefused]⟩
      · exact Or.inr hauthorised
  | statement envelope signed =>
  cases henvelope : checkEnvelope envelope signed with
  | error cause => exact Or.inl ⟨cause, by simp only [consider, henvelope]⟩
  | ok _ =>
  have hphase : signed.body.phase = envelope := checkEnvelope_ok henvelope
  cases envelope with
  | newView =>
      cases hentered : core.onNewView ctx signed with
      | error cause => exact Or.inl ⟨cause, by simp only [consider, henvelope, hentered]⟩
      | ok answer =>
          obtain ⟨⟨entry, votes⟩, hentry, -⟩ := bind_eq_ok.mp hentered
          exact Or.inr (Leader.authorised_of_onNewView hentry)
  | prepare =>
      cases haccepted : core.replica.onPrepare ctx signed with
      | error cause =>
          refine Or.inl ⟨cause, ?_⟩
          simp only [consider, henvelope]
          exact answer_refused (by rw [haccepted, Outcome.ofCheck])
      | ok answer => exact Or.inr (Replica.authorised_of_onPrepare haccepted)
  | preCommit | commit | decide =>
      rcases core.replica.onPhase_cases signed with
        ⟨cause, hrefused⟩ | ⟨⟨hseal, hleader, hother⟩, -⟩
      · refine Or.inl ⟨cause, ?_⟩
        simp only [consider, henvelope]
        exact answer_refused hrefused
      · exact Or.inr ⟨hseal.1, hseal.2, hphase, hleader, hother⟩

/-- What becomes of a message does not touch the record of who was heard from. -/
theorem consider_liveness {answer : Except Error (List Action)}
    (h : core.consider ctx message = .ok (answer, mid)) : mid.liveness = core.liveness := by
  cases considers_of_consider h with
  | refused | uncounted | counted | certified | entered | accepted | followed => rfl

/-- Handling a message notes at most that its signer was heard from. -/
theorem dispatch_heard {said : List Action}
    (h : core.dispatch ctx now message = .ok (core', said)) {m : MemberId}
    (hm : m ≠ message.signer) :
    core'.liveness.lastHeard.get? m = core.liveness.lastHeard.get? m := by
  obtain ⟨⟨answer, mid⟩, hconsider, h⟩ := bind_eq_ok.mp h
  have hliveness : mid.liveness = core.liveness := consider_liveness hconsider
  cases answer with
  | ok actions =>
      obtain ⟨rfl, -⟩ := Prod.mk.inj (Except.ok.inj h)
      simp only [Liveness.record, hliveness]
      split
      · rw [Table.get?_insert, if_neg hm]
      · rfl
  | error cause =>
      obtain ⟨rfl, -⟩ := Prod.mk.inj (Except.ok.inj h)
      rw [← hliveness]

end Core

/-! ### What a member seals itself -/

/-- **An action of the member's own**: a vote to the leader of its view, the announcement of a view
to the leader of that, a statement to all, or one that hands out no message; all under its seal. -/
inductive Action.Own (ctx : Context) : Action → Prop
  | vote (ballot : Ballot) : Own ctx (.send (ctx.leader ballot.view) (.vote (ctx.castVote ballot)))
  | announce (st : Statement) (hphase : st.phase = .newView) :
      Own ctx (.send (ctx.leader st.view) (.statement .newView (ctx.sign st)))
  | broadcast {envelope : Phase} (st : Statement) :
      Own ctx (.broadcast (.statement envelope (ctx.sign st)))
  | silent {action : Action} (hsilent : action.message? = none) : Own ctx action

/-- All of some actions are the member's own. -/
def OwnIn (ctx : Context) (actions : List Action) : Prop := ∀ action ∈ actions, action.Own ctx

section Own

variable {ctx : Context} {action : Action} {as bs : List Action}

/-- The member's own messages are under its seal. -/
theorem Action.Own.signer (h : action.Own ctx) {message : Message}
    (hmessage : action.message? = some message) : message.signer = ctx.me := by
  cases h with
  | vote | announce | broadcast =>
      obtain rfl := Option.some.inj hmessage
      rfl
  | silent hsilent => cases hsilent.symm.trans hmessage

/-- Where there are no actions there is none of another member. -/
@[simp] theorem OwnIn.nil : OwnIn ctx [] := fun _ h => absurd h List.not_mem_nil

/-- Actions are the member's own if the first of them and all others are. -/
@[simp] theorem ownIn_cons : OwnIn ctx (action :: as) ↔ action.Own ctx ∧ OwnIn ctx as :=
  List.forall_mem_cons

/-- Actions that come one after the other are the member's own if both parts are. -/
@[simp] theorem ownIn_append : OwnIn ctx (as ++ bs) ↔ OwnIn ctx as ∧ OwnIn ctx bs :=
  List.forall_mem_append

variable {σ : Type} [StateStore σ] (r : Replica σ)

omit [StateStore σ] in
/-- A replica starts a round with the announcement of its view, under its own seal. -/
theorem Replica.startRound_own : OwnIn ctx (r.startRound ctx) := by
  let justify := r.highCertificate ctx
  have hannounce : Action.Own ctx _ :=
    .announce ⟨r.state.view, .newView, justify.payload, justify⟩ rfl
  exact ownIn_cons.mpr ⟨hannounce, ownIn_cons.mpr ⟨.silent rfl, .nil⟩⟩

omit [StateStore σ] in
/-- A vote is under the member's own seal. -/
theorem Replica.vote_own (phase : Phase) (payload : Payload) :
    OwnIn ctx [r.vote ctx phase payload, rearm ctx] :=
  ownIn_cons.mpr ⟨.vote ⟨phase, r.state.view, payload⟩, ownIn_cons.mpr ⟨.silent rfl, .nil⟩⟩

/-- Entering a view announces it under the member's own seal. -/
theorem Replica.enterView_own (view : View) : OwnIn ctx (r.enterView ctx view).2 := by
  by_cases h : view ≤ r.state.view
  · rw [enterView_of_le h]
    exact .nil
  · rw [enterView_of_lt (UInt64.not_le.mp h)]
    exact ownIn_cons.mpr ⟨.silent rfl, startRound_own _⟩

/-- A timeout sends nothing but the announcement of the view that is entered, if there is one. -/
theorem Replica.onTimeout_own : OwnIn ctx (r.onTimeout ctx).2 := by
  rw [onTimeout]
  split
  · next next _ => exact ownIn_cons.mpr ⟨.silent rfl, r.enterView_own next⟩
  · exact ownIn_cons.mpr ⟨.silent rfl, ownIn_cons.mpr ⟨.silent rfl, .nil⟩⟩

/-- Leaving a view sends nothing but the announcement of the next one. -/
theorem Replica.leave_own (view : View) : OwnIn ctx (r.leave ctx view).2 := by
  rw [leave]
  split
  · split
    · exact r.enterView_own _
    · exact .nil
  · exact .nil

variable {r} {answer : Replica σ × List Action}

/-- A commit is sent to nobody, and what follows it is the announcement of the next view. -/
theorem Replica.commit_own {cert : Certificate} (h : r.commit ctx cert = .ok answer) :
    OwnIn ctx answer.2 := by
  rw [commit] at h
  split at h
  · cases h
  · obtain rfl := Except.ok.inj h
    exact ownIn_cons.mpr ⟨.silent rfl, ownIn_cons.mpr ⟨.silent rfl, leave_own _ _⟩⟩

/-- What a replica does on a phase of its view is a vote of its own, or what follows a commit. -/
theorem Replica.applyPhase_own {st : Statement} (h : r.applyPhase ctx st = .ok answer) :
    OwnIn ctx answer.2 := by
  rw [applyPhase] at h
  simp only at h
  split at h
  · cases h
  split at h
  · obtain rfl := Except.ok.inj h
    exact vote_own _ _ _
  · obtain rfl := Except.ok.inj h
    exact vote_own _ _ _
  · exact commit_own h
  · cases h
  · cases h

/-- What a replica does on an accepted certificate is its own. -/
theorem Replica.onPhase_own {msg : SignedStatement} (h : r.onPhase ctx msg = .ok answer) :
    OwnIn ctx answer.2 := by
  rcases onPhase_ok h with ⟨-, -, hcommit⟩ | ⟨-, happly⟩
  · exact commit_own hcommit
  · exact applyPhase_own happly

/-- What a replica does on an accepted proposal is its own: the vote, and before it the announcement
of a later view. -/
theorem Replica.onPrepare_own {msg : SignedStatement} (h : r.onPrepare ctx msg = .ok answer) :
    OwnIn ctx answer.2 := by
  simp only [onPrepare, bind_eq_ok] at h
  obtain ⟨⟨⟩, -, h⟩ := h
  obtain rfl := Except.ok.inj h
  have hmoved : OwnIn ctx (r.advanceTo ctx msg.body.view).2 := by
    rw [advanceTo]
    split
    · exact .nil
    · exact ownIn_cons.mpr ⟨.silent rfl, .nil⟩
  exact ownIn_append.mpr ⟨hmoved, vote_own _ _ _⟩

/-- What the votes make a leader say is under its own seal. -/
theorem Leader.said_of_onVote {c c' : Collector} {here : View} {vote : Vote}
    {next : SignedStatement} (h : onVote ctx c here vote = (.ok (some next), c')) :
    ∃ st, next = ctx.sign st := by
  rcases onVote_ok h with ⟨hnone, -⟩ | ⟨-, -, outcome, counted, -, hanswer⟩
  · exact absurd rfl (hnone next)
  rcases hanswer with ⟨hnone, -⟩ | ⟨cert, said, -, hfollow, hsaid⟩
  · exact absurd rfl (hnone next)
  obtain rfl := Except.ok.inj hsaid
  rcases follow_ok hfollow with ⟨hnone, -⟩ | ⟨phase, -, hsaid, -⟩
  · cases hnone
  · exact ⟨_, Option.some.inj hsaid⟩

/-- A proposal is under the own seal. -/
theorem Leader.prepare_of_propose {c c' : Collector} {slot : Slot} {committed : Digest}
    {data : Bytes} {prepare : SignedStatement}
    (h : propose ctx c slot committed data = .ok (prepare, c')) : ∃ st, prepare = ctx.sign st := by
  obtain ⟨votes, -, h⟩ := bind_eq_ok.mp h
  exact ⟨_, (Prod.mk.inj (Except.ok.inj h)).1.symm⟩

/-- **A member seals all that it says**, whatever a turn is about. -/
theorem Turn.Kind.own {t : Turn σ} (hkind : t.Kind ctx) : OwnIn ctx t.said := by
  cases hkind with
  | announced _ hsaid =>
      rw [hsaid]
      exact Replica.startRound_own _
  | timedOut _ hanswer =>
      have hown : OwnIn ctx (t.before.replica.onTimeout ctx).2 := t.before.replica.onTimeout_own
      rwa [hanswer] at hown
  | refused hsaid =>
      rw [hsaid]
      exact .nil
  | @entered _ entry _ _ hanswer =>
      rcases hanswer with hanswer | ⟨-, hsaid⟩
      · have hown : OwnIn ctx (t.before.replica.enterView ctx entry.view).2 :=
          t.before.replica.enterView_own entry.view
        rwa [hanswer] at hown
      · rw [hsaid]
        exact .nil
  | accepted _ _ hanswer => exact Replica.onPrepare_own hanswer
  | followed _ _ hanswer => exact Replica.onPhase_own hanswer
  | counted _ _ _ hsaid =>
      rw [hsaid]
      exact .nil
  | certified _ hcount hown hsaid =>
      have hactions : OwnIn ctx _ := hown.elim Replica.applyPhase_own fun h => h.2 ▸ .nil
      obtain ⟨st, rfl⟩ := Leader.said_of_onVote hcount
      rw [hsaid]
      exact ownIn_cons.mpr ⟨.silent rfl, ownIn_cons.mpr ⟨.broadcast st, hactions⟩⟩
  | offered _ _ hpropose hown hsaid =>
      have hactions : OwnIn ctx _ := hown.elim Replica.onPrepare_own fun h => h.2 ▸ .nil
      obtain ⟨st, rfl⟩ := Leader.prepare_of_propose hpropose
      rw [hsaid]
      exact ownIn_cons.mpr ⟨.broadcast st, hactions⟩

end Own

/-! ### Effects -/

namespace Core

variable {σ : Type} [StateStore σ] {ctx : Context} {core core' : Core σ} {now : Instant}
  {message : Message}

/-- **A message that is not authorised** only adds to the count of messages dropped. -/
theorem AtRest.handle_unauthorised (hrest : core.AtRest ctx)
    (hnot : ¬ message.Authorised ctx core.replica.state.view) :
    core.handle ctx now message =
      .ok ({ core with metrics := core.metrics.messageDropped message.kind }, []) := by
  obtain ⟨cause, hrefused⟩ := (core.consider_cases message).resolve_right hnot
  exact hrest.handle_refused hrefused

/-- **Nobody else is noted as heard from**: on a message it is at most its signer, and the member
itself for what it delivers to itself. -/
theorem handle_heard {out : List Action}
    (h : core.handle ctx now message = .ok (core', out)) {m : MemberId}
    (hsigner : m ≠ message.signer) (hme : m ≠ ctx.me) :
    core'.liveness.lastHeard.get? m = core.liveness.lastHeard.get? m := by
  -- Carried along the turns: all that was said so far has the own seal.
  let admits : List (Turn σ) → Input → Prop := fun _ input => input = .message message
  let unheard : List (Turn σ) → Core σ → Prop := fun ts mid =>
    OwnIn ctx (saidOf ts) ∧ mid.liveness.lastHeard.get? m = core.liveness.lastHeard.get? m
  have hadmits : admits [] (.message message) := rfl
  have hfirst : unheard [] core := ⟨.nil, rfl⟩
  have hturn : ∀ ts mid input now mid' said, unheard ts mid →
      Comes ctx (admits ts) ts input → mid.take ctx now input = .ok (mid', said) →
      unheard (ts ++ [⟨mid, input, said, mid'⟩]) mid' := by
    rintro ts mid input now mid' said ⟨hown, hsame⟩ hcomes htake
    have hkind := kind_of_take htake
    refine ⟨?_, ?_⟩
    · rw [saidOf_append, saidOf_singleton]
      exact ownIn_append.mpr ⟨hown, hkind.own⟩
    · rcases hcomes with rfl | ⟨sent, rfl, hsent⟩
      · exact (dispatch_heard htake hsigner).trans hsame
      · have hself : sent.signer = ctx.me := (hown _ hsent).signer rfl
        exact (dispatch_heard htake (hself ▸ hme)).trans hsame
  have hturns := turns_induction hturn hadmits hfirst
    (List.prefix_refl (core.turns ctx now (.message message)))
  have hreact : core.react ctx now (.message message) = .ok (core', out) := h
  obtain ⟨rfl | ⟨status, metrics, rfl⟩, -⟩ := react_ok hreact
  · exact hturns.2
  · exact hturns.2

end Core

/-- **Only authentic, authorised messages have effects.** Where anything comes of a message, be it
an action, a change of the replica or its store, of what is collected, or of the record of who was
heard from, a member has sealed exactly that message, and may send it to the local member in the
view that this one is in. The record changes for the signer and for the local member only. -/
theorem effects_are_authorised {σ : Type} [StateStore σ] {ctx : Context} {core core' : Core σ}
    {now : Instant} {message : Message} {out : List Action} (hreached : core.Reached ctx)
    (h : core.handle ctx now message = .ok (core', out)) :
    (out ≠ [] ∨ core'.replica ≠ core.replica ∨ core'.votes ≠ core.votes ∨
        core'.liveness ≠ core.liveness →
      message.Authorised ctx core.replica.state.view) ∧
      ∀ m, m ≠ message.signer → m ≠ ctx.me →
        core'.liveness.lastHeard.get? m = core.liveness.lastHeard.get? m := by
  refine ⟨fun heffect => ?_, fun m hsigner hme => Core.handle_heard h hsigner hme⟩
  by_contra hnot
  rw [hreached.atRest.handle_unauthorised hnot] at h
  obtain ⟨rfl, rfl⟩ := Prod.mk.inj (Except.ok.inj h)
  simp only [ne_eq, not_true_eq_false, or_self] at heffect

/-- The proposal of the first leader of four has an effect on the second member, which votes. -/
theorem effects_are_authorised_of_vote :
    let ctx : Context := .numbered .four 1 (by decide)
    let genesis := Scheme.transparent.genesis
    let payload : Payload := ⟨Scheme.transparent.genesisDigest, [80]⟩
    let proposal : Message := .numbered 0 ⟨0, .prepare, payload, genesis⟩
    ∃ core' out, (Core.fresh ctx).handle ctx 5 proposal = .ok (core', out) ∧ out ≠ [] ∧
      proposal.Authorised ctx 0 ∧ core'.liveness.lastHeard.get? (.numbered 2) = none := by
  intro ctx genesis payload proposal
  have hreached : (Core.fresh ctx).Reached ctx := ⟨{}, _, Core.create_fresh ctx, .refl⟩
  have hsaid : ((Core.fresh ctx).handle ctx 5 proposal).toOption.map
      (fun result => result.2.isEmpty) = some false := by decide +kernel
  cases hhandle : (Core.fresh ctx).handle ctx 5 proposal with
  | error o =>
      rw [hhandle] at hsaid
      cases hsaid
  | ok result =>
      obtain ⟨core', out⟩ := result
      rw [hhandle] at hsaid
      have hne : out ≠ [] := by simpa [Except.toOption] using hsaid
      obtain ⟨heffect, hheard⟩ := effects_are_authorised hreached hhandle
      have hother : core'.liveness.lastHeard.get? (.numbered 2) = none :=
        hheard (.numbered 2) (by decide +kernel) (by decide +kernel)
      exact ⟨core', out, rfl, hne, heffect (Or.inl hne), hother⟩

end HotStuff
