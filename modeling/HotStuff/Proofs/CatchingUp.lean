import HotStuff.Proofs.Lifetimes
import HotStuff.Proofs.Repetition
import HotStuff.Proofs.Slots

/-!
# Catching Up With a Decision

The leader of a view speaks in four phases. A replica may hear all of it in order and follow phase
by phase; it may miss the phases before the decision and catch up with that; and what it hears can
come in any order, and again. Each of these leaves other traces on the way: the view is entered or
not, certificates are taken over or not, proposals are refused for being too far ahead or for the
lock. With the decision they all come to the same state, but for the two certificates.

Before the decision the replica `Awaits` it, and nothing but the decision changes that; afterwards
it is `Past` the view, where all that the leader said in it is refused.

## Main definitions

* `Context.Speaks`: what the leader of a view says about a payload.
* `ReplicaState.Awaits`, `ReplicaState.Past`: the state before and after the decision.

## Main results

* `Replica.awaits_of_other`, `Replica.past_of_decision`: what one message comes to.
* `phases_and_catching_up_agree`: what any deliveries come to that the decision is among.
-/

namespace HotStuff

/-- **What the leader of a view says about a payload**: a proposal, or a later phase on a valid
certificate of the phase before it. -/
structure Context.Speaks (ctx : Context) (view : View) (payload : Payload)
    (msg : SignedStatement) : Prop where
  signed : ctx.verifySigned msg = .ok ()
  leader : msg.signer = ctx.leader view
  view : msg.body.view = view
  payload : msg.body.payload = payload
  later : msg.body.phase ≠ .newView
  justified : msg.body.phase ≠ .prepare → ∃ phase, msg.body.phase.predecessor = some phase ∧
    msg.body.justify.ballot = ⟨phase, msg.body.view, msg.body.payload⟩ ∧
    ctx.verify msg.body.justify = .ok ()

namespace ReplicaState

/-- **Before the decision of a view** on a payload that extends the chain: the view has not come, or
it has, and nothing but the payload is voted on in it. -/
structure Awaits (s : ReplicaState) (view : View) (payload : Payload) (height : Height) : Prop where
  committed : s.committed = payload.parent
  height : s.height = height
  held : s.view < view ∨ s.view = view ∧ s.phase ≠ .decide ∧
    (s.phase ≠ .newView → s.proposal = some payload)

/-- **After the decision of a view**: its payload is the last on the chain, and the replica waits in
the next view. -/
structure Past (s : ReplicaState) (scheme : Scheme) (view : View) (payload : Payload)
    (height : Height) : Prop where
  view : s.view = view + 1
  phase : s.phase = .newView
  proposal : s.proposal = none
  committed : s.committed = scheme.payloadDigest payload
  height : s.height = height

/-- A replica that awaits the decision of a view has not gone past it. -/
theorem Awaits.view_le {s : ReplicaState} {view : View} {payload : Payload} {height : Height}
    (h : s.Awaits view payload height) : s.view ≤ view :=
  h.held.elim UInt64.le_of_lt fun hhere => hhere.1 ▸ UInt64.le_refl _

/-- A commit of a view that has not been left leads past it. -/
theorem past_commit {s : ReplicaState} {scheme : Scheme} {cert : Certificate} {height : Height}
    (hle : s.view ≤ cert.view) (hlast : cert.view ≠ View.last) :
    (s.commit scheme cert height).Past scheme cert.view cert.payload height := by
  have hnext : View.next? cert.view = some (cert.view + 1) := if_neg hlast
  rcases s.commit_cases scheme cert height with ⟨next, hnext', -, h⟩ | ⟨hover, -⟩
  · obtain rfl := Option.some.inj (hnext.symm.trans hnext')
    rw [h]
    exact ⟨rfl, rfl, rfl, rfl, rfl⟩
  · have hlt := View.lt_of_next? hnext
    exact absurd (UInt64.le_trans (hover _ hnext) hle) (UInt64.not_le.mpr hlt)

end ReplicaState

namespace Replica

/-- The call that hands over what a leader says. -/
def Call.ofStatement (msg : SignedStatement) : Call :=
  if msg.body.phase = .prepare then .prepare msg else .phase msg

section Deliveries

variable {σ : Type} [StateStore σ] {ctx : Context} {r r' last : Replica σ} {view : View}
  {payload : Payload} {height next : Height} {msg : SignedStatement} {said later : List Action}
  {call : Call} {calls : List Call}

/-- What a list of calls comes to is what the first of them and then all others come to. -/
theorem performAll_cons (h : r.perform ctx call = .ok (r', said))
    (hrest : r'.performAll ctx calls = .ok (last, later)) :
    r.performAll ctx (call :: calls) = .ok (last, said ++ later) := by
  rw [performAll, h]
  simp only [bind, Except.bind, hrest]
  rfl

/-- A call that is refused leaves the replica as it is, and nothing is done. -/
theorem perform_of_refused {cause : Error} (h : r.answer ctx call = .error (.refused cause)) :
    r.perform ctx call = .ok (r, []) := by
  rw [perform, h]

/-- What the leader says later is decided by the checks on it. -/
theorem onPhase_of_speaks (hleads : ctx.leads view = false)
    (hspeaks : ctx.Speaks view payload msg) :
    r.onPhase ctx msg = if r.outOfSequence msg.body then
        Outcome.ofCheck (r.checkDecision ctx msg.body) >>= fun _ => r.commit ctx msg.body.justify
      else
        Outcome.ofCheck (r.checkPhase ctx msg.body) >>= fun _ => r.applyPhase ctx msg.body := by
  have hleader : checkLeader ctx msg = .ok () := if_pos (hspeaks.leader.trans (hspeaks.view ▸ rfl))
  rw [onPhase, hspeaks.view, hleads, hspeaks.signed, hleader]
  rfl

/-! ### Before the decision -/

section Awaiting

variable (hawaits : r.state.Awaits view payload height)

include hawaits

/-- A proposal is voted on or refused; the decision is still to come. -/
theorem awaits_of_prepare (hspeaks : ctx.Speaks view payload msg)
    (hprepare : msg.body.phase = .prepare) :
    ∃ r' said, r.perform ctx (.ofStatement msg) = .ok (r', said) ∧ executedIn said = [] ∧
      r'.state.Awaits view payload height := by
  rw [Call.ofStatement, if_pos hprepare]
  cases hanswer : r.onPrepare ctx msg with
  | error cause =>
      have hrefused : r.answer ctx (.prepare msg) = .error (.refused cause) := by
        rw [answer, hanswer]
        rfl
      exact ⟨r, [], perform_of_refused hrefused, rfl, hawaits⟩
  | ok answer =>
      obtain ⟨-, hstate⟩ := onPrepare_accepts hanswer
      obtain ⟨b, hdeeds⟩ := onPrepare_deeds hanswer
      refine ⟨answer.1, answer.2, perform_of_answer (Outcome.ofCheck_eq_ok.mpr hanswer),
        congrArg (List.filterMap Deed.payload?) hdeeds, ?_⟩
      rw [hstate]
      exact ⟨hawaits.committed, hawaits.height,
        Or.inr ⟨hspeaks.view, Phase.noConfusion, fun _ => congrArg some hspeaks.payload⟩⟩

/-- A phase before the decision is followed in its turn, and refused out of turn. -/
theorem awaits_of_phase (hspeaks : ctx.Speaks view payload msg)
    (hphase : msg.body.phase = .preCommit ∨ msg.body.phase = .commit)
    (hheight : Height.next? height = some next) :
    ∃ r' said, r.perform ctx (.ofStatement msg) = .ok (r', said) ∧ executedIn said = [] ∧
      r'.state.Awaits view payload height := by
  have hprepare : msg.body.phase ≠ .prepare := by
    rcases hphase with h | h <;> rw [h] <;> decide
  have hdecide : msg.body.phase ≠ .decide := by
    rcases hphase with h | h <;> rw [h] <;> decide
  rw [Call.ofStatement, if_neg hprepare]
  have hidle {cause : Error} (hrefused : r.onPhase ctx msg = .error (.refused cause)) :
      ∃ r' said, r.perform ctx (.phase msg) = .ok (r', said) ∧ executedIn said = [] ∧
        r'.state.Awaits view payload height :=
    ⟨r, [], perform_of_refused hrefused, rfl, hawaits⟩
  rcases r.onPhase_cases msg with ⟨cause, hrefused⟩ | ⟨-, ⟨hout, -⟩ | ⟨-, hcheck, happly⟩⟩
  · exact hidle hrefused
  · exact absurd (of_decide_eq_true hout).1 hdecide
  have hroom : r.HasRoom := Or.inl (by rw [hawaits.height, hheight]; exact Option.some_ne_none _)
  rcases applyPhase_hasRoom ctx hroom msg.body with ⟨cause, hrefused⟩ | ⟨answer, hanswer, -⟩
  · exact hidle (happly.trans hrefused)
  · refine ⟨answer.1, answer.2, perform_of_answer (happly.trans hanswer), ?_⟩
    obtain ⟨hhere, hfollows, -⟩ := applyPhase_follows hanswer
    obtain ⟨hheld, -⟩ := checkPhase_ok hcheck
    have hview : r.state.view = view := hhere.symm.trans hspeaks.view
    rw [hspeaks.payload] at hheld
    rw [executedIn]
    generalize deedsIn answer.2 = deeds, answer.1.state = state at hfollows ⊢
    cases hfollows with
    | preCommit | lock =>
        exact ⟨rfl, hawaits.committed, hawaits.height,
          Or.inr ⟨hview, Phase.noConfusion, fun _ => hheld⟩⟩
    | decide _ hnext => exact absurd hnext hdecide

/-- Whatever comes before the decision, it is still to come. -/
theorem awaits_of_other (hspeaks : ctx.Speaks view payload msg) (hother : msg.body.phase ≠ .decide)
    (hheight : Height.next? height = some next) :
    ∃ r' said, r.perform ctx (.ofStatement msg) = .ok (r', said) ∧ executedIn said = [] ∧
      r'.state.Awaits view payload height := by
  cases hphase : msg.body.phase with
  | newView => exact absurd hphase hspeaks.later
  | prepare => exact awaits_of_prepare hawaits hspeaks hphase
  | preCommit => exact awaits_of_phase hawaits hspeaks (Or.inl hphase) hheight
  | commit => exact awaits_of_phase hawaits hspeaks (Or.inr hphase) hheight
  | decide => exact absurd hphase hother

/-! ### The decision -/

/-- The decision is committed: out of its sequence on the certificate alone, and in its sequence as
the proposal that is held. -/
theorem commits_decision (hleads : ctx.leads view = false) (hspeaks : ctx.Speaks view payload msg)
    (hdecide : msg.body.phase = .decide) :
    ∃ r₀ : Replica σ, r₀.state.view = r.state.view ∧ r₀.state.height = r.state.height ∧
      r.onPhase ctx msg = r₀.commit ctx msg.body.justify := by
  obtain ⟨phase, hbefore, hcert, hvalid⟩ := hspeaks.justified (by rw [hdecide]; decide)
  have hcertphase : msg.body.justify.phase = phase := congrArg Ballot.phase hcert
  have hcertview : msg.body.justify.view = msg.body.view := congrArg Ballot.view hcert
  have hcertpayload : msg.body.justify.payload = msg.body.payload := congrArg Ballot.payload hcert
  rw [onPhase_of_speaks hleads hspeaks]
  cases hout : r.outOfSequence msg.body with
  | true =>
      have hcommit : phase = .commit := by
        rw [hdecide] at hbefore
        exact (Option.some.inj hbefore).symm
      have hcheck : r.checkDecision ctx msg.body = .ok () := by
        simp only [checkDecision, guard_throw_eq_ok, not_or, not_not]
        exact ⟨⟨hcertphase.trans hcommit, hcertview, hcertpayload⟩,
          hspeaks.payload ▸ hawaits.committed.symm, hvalid⟩
      refine ⟨r, rfl, rfl, ?_⟩
      rw [hcheck]
      rfl
  | false =>
      obtain ⟨hhere, hcurrent⟩ : msg.body.view = r.state.view ∧ r.state.phase = .commit := by
        simpa [outOfSequence, hdecide] using hout
      have hnext : r.state.phase.successor = some msg.body.phase := by
        rw [hcurrent, hdecide]
        rfl
      have hheld : r.state.proposal = some msg.body.payload := by
        rw [hspeaks.payload]
        rcases hawaits.held with hlt | ⟨-, -, hheld⟩
        · exact absurd (hspeaks.view ▸ hhere) (UInt64.ne_of_lt hlt).symm
        · exact hheld (by rw [hcurrent]; decide)
      have hcheck : r.checkPhase ctx msg.body = .ok () := by
        simp only [checkPhase, guard_throw_eq_ok, not_or, not_not]
        exact ⟨hhere, hnext, ⟨hcertphase ▸ hbefore.symm, hcertview, hcertpayload⟩, hheld, hvalid⟩
      have hfits : ¬ (msg.body.view ≠ r.state.view ∨
          r.state.phase.successor ≠ some msg.body.phase) :=
        not_or.mpr ⟨not_not.mpr hhere, not_not.mpr hnext⟩
      have happly : r.applyPhase ctx msg.body =
          commit ctx { r with state := { r.state with phase := .decide } } msg.body.justify := by
        rw [applyPhase]
        simp only [if_neg hfits]
        rw [hdecide]
      refine ⟨{ r with state := { r.state with phase := .decide } }, rfl, rfl, ?_⟩
      rw [hcheck, ← happly]
      rfl

/-- **The decision leads past the view**, in its sequence or out of it, and is executed. -/
theorem past_of_decision (hleads : ctx.leads view = false) (hspeaks : ctx.Speaks view payload msg)
    (hdecide : msg.body.phase = .decide) (hlast : view ≠ View.last)
    (hheight : Height.next? height = some next) :
    ∃ r' said, r.perform ctx (.ofStatement msg) = .ok (r', said) ∧
      deedsIn said = [.execute view next payload] ∧ r'.state.Past ctx.scheme view payload next := by
  obtain ⟨phase, -, hcert, -⟩ := hspeaks.justified (by rw [hdecide]; decide)
  have hcertview : msg.body.justify.view = view := (congrArg Ballot.view hcert).trans hspeaks.view
  have hcertpayload : msg.body.justify.payload = payload :=
    (congrArg Ballot.payload hcert).trans hspeaks.payload
  obtain ⟨r₀, hview, hcount, hcommits⟩ := commits_decision hawaits hleads hspeaks hdecide
  have hnext : Height.next? r₀.state.height = some next := by
    rw [hcount, hawaits.height, hheight]
  obtain ⟨answer, hcommit⟩ : ∃ answer, r₀.commit ctx msg.body.justify = .ok answer := by
    rw [commit, hnext]
    exact ⟨_, rfl⟩
  obtain ⟨height', hnext', hstate, hdeeds, -⟩ := commit_spec hcommit
  obtain rfl := Option.some.inj (hnext.symm.trans hnext')
  refine ⟨answer.1, answer.2, ?_, ?_, ?_⟩
  · rw [Call.ofStatement, if_neg (by rw [hdecide]; decide)]
    exact perform_of_answer (hcommits.trans hcommit)
  · rw [hdeeds, hcertview, hcertpayload]
  · rw [hstate, ← hcertview, ← hcertpayload]
    refine ReplicaState.past_commit ?_ (hcertview ▸ hlast)
    rw [hview, hcertview]
    exact hawaits.view_le

end Awaiting

/-! ### After the decision -/

/-- Past the view, nothing comes of what its leader said. -/
theorem perform_past (hpast : r.state.Past ctx.scheme view payload height)
    (hfresh : ctx.scheme.payloadDigest payload ≠ payload.parent) (hlast : view ≠ View.last)
    (hspeaks : ctx.Speaks view payload msg) : r.perform ctx (.ofStatement msg) = .ok (r, []) := by
  have hlater : msg.body.view < r.state.view := by
    rw [hspeaks.view, hpast.view]
    exact View.lt_of_next? (if_neg hlast)
  by_cases hprepare : msg.body.phase = .prepare
  · obtain ⟨cause, hrefused⟩ : ∃ cause, r.onPrepare ctx msg = .error cause :=
      refuses_prepare (Or.inl hlater)
    rw [Call.ofStatement, if_pos hprepare]
    have hanswer : r.answer ctx (.prepare msg) = .error (.refused cause) := by
      rw [answer, hrefused]
      rfl
    exact perform_of_refused hanswer
  · obtain ⟨cause, hrefused⟩ : ∃ cause, r.onPhase ctx msg = .error (.refused cause) := by
      by_cases hdecide : msg.body.phase = .decide
      · refine refuses_decision (decide_eq_true ⟨hdecide, fun h => ?_⟩) ?_
        · exact UInt64.ne_of_lt hlater h.1
        · rw [hspeaks.payload, hpast.committed]
          exact hfresh.symm
      · exact refuses_phase hdecide (Or.inl hlater)
    rw [Call.ofStatement, if_neg hprepare]
    exact perform_of_refused hrefused

/-! ### Any deliveries -/

variable {msgs : List SignedStatement}

/-- After the decision of a view nothing that its leader said in it changes anything. -/
theorem performAll_past (hpast : r.state.Past ctx.scheme view payload height)
    (hfresh : ctx.scheme.payloadDigest payload ≠ payload.parent) (hlast : view ≠ View.last)
    (hspeaks : ∀ msg ∈ msgs, ctx.Speaks view payload msg) :
    r.performAll ctx (msgs.map .ofStatement) = .ok (r, []) := by
  induction msgs with
  | nil => rfl
  | cons msg msgs ih =>
      obtain ⟨hmsg, hmsgs⟩ := List.forall_mem_cons.mp hspeaks
      exact performAll_cons (perform_past hpast hfresh hlast hmsg) (ih hmsgs)

/-- Deliveries that the decision is among execute the payload once and lead past the view. -/
theorem performAll_awaits (hawaits : r.state.Awaits view payload height)
    (hleads : ctx.leads view = false) (hlast : view ≠ View.last)
    (hheight : Height.next? height = some next)
    (hfresh : ctx.scheme.payloadDigest payload ≠ payload.parent)
    (hspeaks : ∀ msg ∈ msgs, ctx.Speaks view payload msg)
    (hdecides : ∃ msg ∈ msgs, msg.body.phase = .decide) :
    ∃ r' said, r.performAll ctx (msgs.map .ofStatement) = .ok (r', said) ∧
      executedIn said = [payload] ∧ heightsIn said = [next] ∧
      r'.state.Past ctx.scheme view payload next := by
  induction msgs generalizing r with
  | nil => simp at hdecides
  | cons msg msgs ih =>
      obtain ⟨hmsg, hmsgs⟩ := List.forall_mem_cons.mp hspeaks
      by_cases hdecide : msg.body.phase = .decide
      · obtain ⟨r', said, hperform, hdeeds, hpast⟩ :=
          past_of_decision hawaits hleads hmsg hdecide hlast hheight
        refine ⟨r', said ++ [],
          performAll_cons hperform (performAll_past hpast hfresh hlast hmsgs), ?_, ?_, hpast⟩
        · rw [List.append_nil, executedIn, hdeeds]
          rfl
        · rw [List.append_nil, heightsIn, hdeeds]
          rfl
      · obtain ⟨r₁, said, hperform, hidle, hawaits₁⟩ :=
          awaits_of_other hawaits hmsg hdecide hheight
        have hlater : ∃ msg ∈ msgs, msg.body.phase = .decide := by
          obtain ⟨other, hmem, hother⟩ := hdecides
          rcases List.mem_cons.mp hmem with rfl | hmem
          · exact absurd hother hdecide
          · exact ⟨other, hmem, hother⟩
        obtain ⟨r', later, hrest, hexecuted, hheights, hpast⟩ := ih hawaits₁ hmsgs hlater
        refine ⟨r', said ++ later, performAll_cons hperform hrest, ?_, ?_, hpast⟩
        · rw [executedIn_append, hidle, hexecuted]
          rfl
        · rw [heightsIn_append, hheights]
          exact congrArg (· ++ [next]) (Deed.heights_eq_nil hidle)

end Deliveries

end Replica

/-- **Following phase by phase and catching up agree.** A replica that does not lead a view waits in
it, or has not come to it; the digest committed last is the parent of a payload. Of what the leader
says about the payload in the four phases, any messages are delivered in any order, any number of
times, the decision at least once. The payload is executed exactly once, at the next height, and the
replica ends in the next view with no proposal, the payload last on its chain: only the two
certificates depend on the deliveries. -/
theorem phases_and_catching_up_agree {σ : Type} [StateStore σ] {ctx : Context} {r : Replica σ}
    {view : View} {payload : Payload} {next : Height} {msgs : List SignedStatement}
    (hleads : ctx.leads view = false) (hlast : view ≠ View.last)
    (hbegin : r.state.view < view ∨ r.state.view = view ∧ r.state.phase = .newView)
    (hparent : r.state.committed = payload.parent)
    (hheight : Height.next? r.state.height = some next)
    (hfresh : ctx.scheme.payloadDigest payload ≠ payload.parent)
    (hspeaks : ∀ msg ∈ msgs, ctx.Speaks view payload msg)
    (hdecides : ∃ msg ∈ msgs, msg.body.phase = .decide) :
    ∃ r' said, r.performAll ctx (msgs.map .ofStatement) = .ok (r', said) ∧
      executedIn said = [payload] ∧ heightsIn said = [next] ∧
      ∃ prepared locked, r'.state =
        ⟨view + 1, .newView, prepared, locked, none, ctx.scheme.payloadDigest payload, next⟩ := by
  have hawaits : r.state.Awaits view payload r.state.height := by
    refine ⟨hparent, rfl, hbegin.imp_right fun ⟨hview, hphase⟩ => ⟨hview, ?_, ?_⟩⟩
    · rw [hphase]
      exact Phase.noConfusion
    · exact fun hnot => absurd hphase hnot
  obtain ⟨r', said, hperform, hexecuted, hheights, hpast⟩ :=
    Replica.performAll_awaits hawaits hleads hlast hheight hfresh hspeaks hdecides
  refine ⟨r', said, hperform, hexecuted, hheights, r'.state.prepared, r'.state.locked, ?_⟩
  rw [← hpast.view, ← hpast.phase, ← hpast.proposal, ← hpast.committed, ← hpast.height]

namespace Disorder

/-- A member that does not lead view 2. -/
def ctx : Context := .numbered .four 1 Committee.one_mem_four

/-- The payload proposed in view 2. -/
def payload : Payload := ⟨Scheme.transparent.genesisDigest, [80]⟩

/-- The certificate that a phase of view 2 builds on. -/
def cert : Phase → Certificate
  | .preCommit => .numbered ⟨.prepare, 2, payload⟩ [0, 1, 2]
  | .commit => .numbered ⟨.preCommit, 2, payload⟩ [1, 2, 3]
  | .decide => .numbered ⟨.commit, 2, payload⟩ [0, 2, 3]
  | .newView | .prepare => Scheme.transparent.genesis

/-- What the leader of view 2 says in a phase. -/
def said (phase : Phase) : SignedStatement :=
  Scheme.transparent.signStatement (.numbered 2) ⟨2, phase, payload, cert phase⟩

/-- What the script has the leader say is what the theorem asks of a leader: a valid statement about
one payload, with a certificate of the phase before. -/
theorem speaks {phase : Phase} (hlater : phase ≠ .newView) :
    ctx.Speaks 2 payload (said phase) := by
  cases phase with
  | newView => exact absurd rfl hlater
  | prepare =>
      exact ⟨by decide +kernel, by decide +kernel, rfl, rfl, hlater, fun h => absurd rfl h⟩
  | preCommit | commit | decide =>
      exact ⟨by decide +kernel, by decide +kernel, rfl, rfl, hlater,
        fun _ => ⟨_, rfl, rfl, by decide +kernel⟩⟩

/-- An order of delivery: a phase comes early, the proposal twice, the decision before its turn, and
then more of the same. -/
def order : List Phase :=
  [.commit, .prepare, .preCommit, .prepare, .decide, .commit, .prepare, .decide]

end Disorder

open Disorder in
/-- A fresh member in view 0 hears the leader of view 2 out of order. It executes the payload once,
and waits in view 3. -/
theorem phases_and_catching_up_agree_of_disorder :
    ∃ r' actions, (Core.fresh ctx).replica.performAll ctx
        ((order.map said).map .ofStatement) = .ok (r', actions) ∧
      executedIn actions = [payload] ∧ heightsIn actions = [1] ∧
      ∃ prepared locked, r'.state =
        ⟨3, .newView, prepared, locked, none, ctx.scheme.payloadDigest payload, 1⟩ := by
  have hleads : ctx.leads 2 = false := by decide +kernel
  have hfresh : ctx.scheme.payloadDigest payload ≠ payload.parent := by decide +kernel
  have hbehind : (Core.fresh ctx).replica.state.view < 2 := by decide
  refine phases_and_catching_up_agree hleads (by decide) (Or.inl hbehind) rfl rfl hfresh ?_ ?_
  · intro msg hmsg
    obtain ⟨phase, hphase, rfl⟩ := List.mem_map.mp hmsg
    exact speaks (by rintro rfl; exact absurd hphase (by decide))
  · exact ⟨said .decide, List.mem_map_of_mem (by decide), rfl⟩

end HotStuff
