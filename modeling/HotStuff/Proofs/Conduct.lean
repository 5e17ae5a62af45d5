import HotStuff.Proofs.Turns

/-!
# How a Member Conducts Itself

The turns of a run are projected to the moves of its replica: `Course` follows the state
through the history, each turn a lawful move and each restart the entry into a later view.
`Conduct` is the invariant of a run that makes this possible. Its heart is `active`: while a
replica holds a proposal in a view that it leads, its collector is open for that very
payload, so that the certificates it forms itself, and follows without a check, are
certificates for the proposal it holds.

What the seals of others are worth is left to an `Evidence`. A member alone has none; in a
deployment a valid seal of a correct member proves that the member voted, or made the statement.

## Main results

* `Turn.effect_of_kind`: what one turn does.
* `Run.conduct`: every run keeps the invariant.
-/

namespace HotStuff

/-- What valid seals prove: that a ballot was voted for, and that a member made a statement. -/
structure Evidence where
  voted : Ballot → Seal → Prop
  stated : MemberId → Statement → Prop

namespace Evidence

/-- Seals prove nothing. -/
def none : Evidence := ⟨fun _ _ => True, fun _ _ => True⟩

variable {σ : Type}

/-- What the member itself voted for and stated is proved. -/
structure Covers (ev : Evidence) (ctx : Context) (h : List (Turn σ)) : Prop where
  voted : ∀ ballot ∈ ballotsOf h, ∀ s : Seal, s.signer = ctx.me → ev.voted ballot s
  stated : ∀ st ∈ statementsOf h, ev.stated ctx.me st

/-- Where seals prove nothing all that a member did is covered. -/
theorem covers_none (ctx : Context) (h : List (Turn σ)) : none.Covers ctx h :=
  ⟨fun _ _ _ _ => trivial, fun _ _ => trivial⟩

/-- What covers a history covers the beginning of it. -/
theorem Covers.of_append {ev : Evidence} {ctx : Context} {h h' : List (Turn σ)}
    (hcovers : ev.Covers ctx (h ++ h')) : ev.Covers ctx h := by
  refine ⟨fun ballot hb => hcovers.voted ballot ?_, fun st hst => hcovers.stated st ?_⟩
  · rw [ballotsOf_append]
    exact List.mem_append_left _ hb
  · rw [statementsOf_append]
    exact List.mem_append_left _ hst

end Evidence

/-- **A backed input**: seals that do not check out prove nothing and may be anything; the valid
ones are backed by the evidence. -/
structure Evidence.Backs (ev : Evidence) (scheme : Scheme) (input : Input) : Prop where
  statement : ∀ signed, input.statement? = some signed → scheme.statementValid signed →
    ev.stated signed.signer signed.body
  certificate : ∀ cert, input.certificate? = some cert → ∀ s ∈ cert.seals,
    scheme.sealValid cert.ballot s → ev.voted cert.ballot s
  vote : ∀ v, input.vote? = some v → scheme.voteValid v → ev.voted v.ballot v.stamp

/-- An input that is backed stays so when more is proved. -/
theorem Evidence.Backs.mono {ev ev' : Evidence} {scheme : Scheme} {input : Input}
    (hvoted : ∀ b s, ev.voted b s → ev'.voted b s)
    (hstated : ∀ m st, ev.stated m st → ev'.stated m st)
    (h : ev.Backs scheme input) : ev'.Backs scheme input :=
  ⟨fun signed hin hvalid => hstated _ _ (h.statement signed hin hvalid),
    fun cert hin s hs hvalid => hvoted _ _ (h.certificate cert hin s hs hvalid),
    fun v hin hvalid => hvoted _ _ (h.vote v hin hvalid)⟩

/-- **An admissible input** is backed, and the seals of the member itself in it are its own. -/
structure Admissible {σ : Type} (ctx : Context) (ev : Evidence) (h : List (Turn σ))
    (input : Input) : Prop extends ev.Backs ctx.scheme input where
  own : OwnSeals ctx h input

namespace Turn

variable {σ : Type} (ctx : Context) (ev : Evidence) (t : Turn σ)

/-- The leader of its view has stated the proposal of the turn. -/
def Stated (st : Statement) : Prop :=
  t.proposal? = some st ∧ ev.stated (ctx.leader st.view) st

/-- **A lawful turn** is a move of the replica. -/
def Lawful : Prop :=
  Move ctx (Trusted ctx ev.voted) (t.Stated ctx ev) t.before.replica.state t.deeds
    t.after.replica.state

/-- A proposal is heard when it was stated, and the collector is open for it in a view that the
member leads. -/
def Heard (st : Statement) : Prop :=
  t.Stated ctx ev st ∧ (ctx.leads st.view → t.after.votes.opened st.view = some st.payload)

variable [StateStore σ]

/-- **What one turn does** to replica and collector, and what it hands out. A Prepare statement is
only made in proposing, in the current view and with the ballot open for it. -/
structure Effect : Prop where
  move : Move ctx (Trusted ctx ev.voted) (t.Heard ctx ev) t.before.replica.state t.deeds
    t.after.replica.state
  stored : t.before.replica.Stored → t.after.replica.Stored
  sound : t.after.votes.Sound ctx ev.voted
  keeps : t.before.votes.Keeps t.after.votes
  sent : ∀ receiver message, .send receiver message ∈ t.said → message.Plain ctx
  proposed : ∀ st ∈ statementsIn t.said, st.phase = .prepare →
    t.proposal? = some st ∧ (∃ slot data, t.input = .propose slot data) ∧
      st.view = t.before.replica.state.view ∧ t.after.votes.opened st.view = some st.payload

end Turn

section Course

variable {σ : Type} (ctx : Context) (ev : Evidence) (s₀ : ReplicaState)

/-- **The course of a replica** through a history: lawful turns, and restarts in a later view. -/
inductive Course : List (Turn σ) → ReplicaState → Prop
  | boot : Course [] s₀
  | turn {h t} (hcourse : Course h t.before.replica.state) (hlawful : t.Lawful ctx ev) :
      Course (h ++ [t]) t.after.replica.state
  | resume {h s view} (hcourse : Course h s) (hlater : s.view < view) : Course h (s.enter view)

variable [StateStore σ]

/-- **The invariant of a run.** -/
structure Conduct (h : List (Turn σ)) (core : Core σ) : Prop where
  course : Course ctx ev s₀ h core.replica.state
  stored : core.replica.Stored
  sound : core.votes.Sound ctx ev.voted
  active : core.replica.state.phase ≠ .newView → ∃ payload,
    core.replica.state.proposal = some payload ∧ (ctx.leads core.replica.state.view →
      core.votes.opened core.replica.state.view = some payload)
  proposed : ∀ st ∈ statementsOf h, st.phase = .prepare → st.view ≤ core.replica.state.view ∧
    (st.view = core.replica.state.view → core.votes.opened st.view = some st.payload)
  origin : ∀ st ∈ statementsOf h, st.phase = .prepare → ∃ t ∈ h,
    t.proposal? = some st ∧ ∃ slot data, t.input = .propose slot data
  sent : ∀ receiver message, .send receiver message ∈ saidOf h → message.Plain ctx

end Course

section Effects

variable {σ : Type} [StateStore σ] {ctx : Context} {ev : Evidence} {t : Turn σ}

omit [StateStore σ] in
/-- What a member sends is among its messages. -/
theorem mem_messagesIn_of_send {receiver : MemberId} {message : Message} {actions : List Action}
    (h : .send receiver message ∈ actions) : message ∈ messagesIn actions :=
  List.mem_filterMap.mpr ⟨_, h, rfl⟩

omit [StateStore σ] in
/-- Plain messages make no statement but announcements. -/
theorem phase_of_plain {actions : List Action}
    (hplain : ∀ message ∈ messagesIn actions, message.Plain ctx) {st : Statement}
    (hst : st ∈ statementsIn actions) : st.phase = .newView := by
  obtain ⟨message, hmessage, hbody⟩ := List.mem_filterMap.mp hst
  cases message with
  | vote v => cases hbody
  | statement phase signed =>
      obtain rfl := Option.some.inj hbody
      exact hplain _ hmessage

/-- An answer of the replica alone is the effect of a turn. -/
theorem Turn.effect_of_handles
    (h : Handles ctx ev.voted (t.Heard ctx ev) t.before.replica (t.after.replica, t.said))
    (hsound : t.after.votes.Sound ctx ev.voted) (hkeeps : t.before.votes.Keeps t.after.votes) :
    t.Effect ctx ev := by
  refine ⟨h.move, h.stored, hsound, hkeeps, ?_, ?_⟩
  · intro receiver message hsend
    exact h.plain message (mem_messagesIn_of_send hsend)
  · intro st hst hphase
    rw [phase_of_plain h.plain hst] at hphase
    cases hphase

/-- A turn in which the replica stays and nothing is said has no effect but on the collector. -/
theorem Turn.effect_of_rest (hreplica : t.after.replica = t.before.replica) (hsaid : t.said = [])
    (hsound : t.after.votes.Sound ctx ev.voted) (hkeeps : t.before.votes.Keeps t.after.votes) :
    t.Effect ctx ev := by
  refine Turn.effect_of_handles ⟨?_, ?_, ?_⟩ hsound hkeeps
  · rw [hreplica, hsaid]
    exact .rest
  · intro hstored
    rwa [hreplica]
  · rw [hsaid]
    exact fun _ h => absurd h List.not_mem_nil

/-! ### The turn of an own certificate or proposal -/

/-- An answer of the replica that comes with it, or none at all. -/
theorem Handles.of_own {own : List Action} {heard : Statement → Prop}
    (h : Handles ctx ev.voted heard t.before.replica (t.after.replica, own) ∨
      t.after.replica = t.before.replica ∧ own = []) :
    Handles ctx ev.voted heard t.before.replica (t.after.replica, own) := by
  rcases h with hhandles | ⟨hreplica, rfl⟩
  · exact hhandles
  · rw [hreplica]
    exact ⟨.rest, id, fun _ h => absurd h List.not_mem_nil⟩

/-- **Following an own certificate.** The replica does so with the proposal that it holds, since the
collector is open for that proposal. What is announced goes to the others only. -/
theorem Turn.effect_of_certified [LawfulStore σ] {next : SignedStatement} {own : List Action}
    (hactive : t.before.replica.state.phase ≠ .newView → ∃ payload,
      t.before.replica.state.proposal = some payload ∧
        (ctx.leads t.before.replica.state.view →
          t.before.votes.opened t.before.replica.state.view = some payload))
    (hsound : t.after.votes.Sound ctx ev.voted) (hkeeps : t.before.votes.Keeps t.after.votes)
    (hnext : Leader.Announces ctx ev.voted t.after.votes t.before.replica.state.view next.body)
    (hown : t.before.replica.applyPhase ctx next.body = .ok (t.after.replica, own) ∨
      t.after.replica = t.before.replica ∧ own = [])
    (hsaid : t.said = .notify (.certified next.body.justify.view next.body.justify.phase) ::
      .broadcast (.ofStatement next) :: own) : t.Effect ctx ev := by
  have hlater := hnext.ne_prepare
  have hown : Handles ctx ev.voted (t.Heard ctx ev) t.before.replica (t.after.replica, own) := by
    refine Handles.of_own (hown.imp_left fun happly => ?_)
    obtain ⟨payload, hproposal, hopened⟩ := hactive (Replica.phase_of_applyPhase happly hlater)
    have hopen := hkeeps _ _ (hopened hnext.leads)
    have hheld : t.before.replica.state.proposal = some next.body.payload := by
      rw [hproposal, hopen.symm.trans hnext.opened]
    exact Replica.applyPhase_handles happly hheld hnext.phase hnext.justify_view
      hnext.justify_payload hnext.trusted
  refine ⟨?_, hown.stored, hsound, hkeeps, ?_, ?_⟩
  · rw [Turn.deeds, hsaid]
    exact hown.move
  · intro receiver message hsend
    rw [hsaid] at hsend
    simp only [List.mem_cons, reduceCtorEq, false_or] at hsend
    exact hown.plain message (mem_messagesIn_of_send hsend)
  · intro st hst hprepare
    rw [hsaid] at hst
    rcases List.mem_cons.mp hst with rfl | hst
    · exact absurd hprepare hlater
    · rw [phase_of_plain hown.plain hst] at hprepare
      cases hprepare

/-- **Proposing.** The own statement is the only one made, and it is for the current view. -/
theorem Turn.effect_of_offered [LawfulStore σ] {h : List (Turn σ)} {slot : Slot} {data : Bytes}
    {prepare : SignedStatement} {own : List Action}
    (hsound : t.before.votes.Sound ctx ev.voted) (hinput : t.input = .propose slot data)
    (hadmissible : Admissible ctx ev h t.input) (hcovers : ev.Covers ctx (h ++ [t]))
    (hview : slot.view = t.before.replica.state.view)
    (hpropose : Leader.propose ctx t.before.votes slot t.before.replica.state.committed data =
      .ok (prepare, t.after.votes))
    (hown : t.before.replica.onPrepare ctx prepare = .ok (t.after.replica, own) ∨
      t.after.replica = t.before.replica ∧ own = [])
    (hsaid : t.said = .broadcast (.statement .prepare prepare) :: own) : t.Effect ctx ev := by
  obtain ⟨hsound', hkeeps, hbody, hopened⟩ := Leader.propose_spec hsound hpropose
  obtain ⟨-, hsigner, -⟩ := Leader.propose_ok hpropose
  have hproposal : t.proposal? = some prepare.body := by
    rw [Turn.proposal?, hinput, hbody]
  have hslot : prepare.body.view = slot.view := by rw [hbody]
  have hheard : prepare.signer = ctx.leader prepare.body.view → t.Heard ctx ev prepare.body := by
    intro hleader
    refine ⟨⟨hproposal, ?_⟩, fun _ => hslot ▸ hopened⟩
    rw [← hleader, hsigner]
    refine hcovers.stated _ ?_
    rw [statementsOf_append, statementsOf_singleton, hsaid]
    exact List.mem_append_right _ (List.mem_cons_self ..)
  have hgenuine := hadmissible.certificate slot.justify (by rw [hinput]; rfl)
  have hjustify : prepare.body.justify = slot.justify := by rw [hbody]
  have hown : Handles ctx ev.voted (t.Heard ctx ev) t.before.replica (t.after.replica, own) := by
    refine Handles.of_own (hown.imp_left fun hprepare => ?_)
    exact Replica.onPrepare_handles hprepare (hjustify ▸ hgenuine) fun _ hleader _ =>
      hheard hleader
  refine ⟨?_, hown.stored, hsound', hkeeps, ?_, ?_⟩
  · rw [Turn.deeds, hsaid]
    exact hown.move
  · intro receiver message hsend
    rw [hsaid] at hsend
    rcases List.mem_cons.mp hsend with heq | hsend
    · cases heq
    · exact hown.plain message (mem_messagesIn_of_send hsend)
  · intro st hst hphase
    rw [hsaid] at hst
    rcases List.mem_cons.mp hst with rfl | hst
    · refine ⟨hproposal, ⟨slot, data, hinput⟩, hslot.trans hview, ?_⟩
      rw [hslot]
      exact hopened
    · rw [phase_of_plain hown.plain hst] at hphase
      cases hphase

/-! ### The turn of any input -/

/-- What may be assumed of a message that is handled: its vote is backed by evidence, and so are the
certificate and the seal of a statement, which the member itself has made if the seal is its own. An
announcement needs no backing. -/
structure Backed (ctx : Context) (ev : Evidence) (h : List (Turn σ)) (message : Message) :
    Prop where
  vote : ∀ v, message = .vote v → ctx.scheme.voteValid v → ev.voted v.ballot v.stamp
  statement : ∀ phase signed, message = .statement phase signed → signed.body.phase ≠ .newView →
    Admissible ctx ev h (.message message)

omit [StateStore σ] in
/-- A message from outside is backed because it is admissible, and one to oneself because it
is plain. -/
theorem backed_of_comes {h : List (Turn σ)} {message : Message}
    (hcomes : Comes ctx (Admissible ctx ev h) h (.message message)) (hcovers : ev.Covers ctx h)
    (hsent : ∀ receiver message, .send receiver message ∈ saidOf h → message.Plain ctx) :
    Backed ctx ev h message := by
  rcases hcomes with hadmissible | ⟨_, ⟨⟩, hsaid⟩
  · refine ⟨?_, fun _ _ _ _ => hadmissible⟩
    rintro v rfl
    exact hadmissible.vote v rfl
  · have hplain := hsent _ _ hsaid
    refine ⟨?_, ?_⟩
    · rintro v rfl -
      exact hcovers.voted _ (mem_ballotsOf_of_said hsaid) _ hplain
    · rintro phase signed rfl hphase
      exact absurd hplain hphase

/-- **What one turn does**, whatever its kind. -/
theorem Turn.effect_of_kind [LawfulStore σ] {s₀ : ReplicaState} {h : List (Turn σ)}
    (hconduct : Conduct ctx ev s₀ h t.before) (hcomes : Comes ctx (Admissible ctx ev h) h t.input)
    (hcovers : ev.Covers ctx (h ++ [t])) (hkind : t.Kind ctx) : t.Effect ctx ev := by
  have hsound := hconduct.sound
  have hkept {votes : Collector} (hvotes : votes = t.before.votes) :
      votes.Sound ctx ev.voted ∧ t.before.votes.Keeps votes := by
    subst hvotes
    exact ⟨hsound, Collector.Keeps.refl _⟩
  have hbacked {message : Message} (hinput : t.input = .message message) :
      Backed ctx ev h message :=
    backed_of_comes (hinput ▸ hcomes) hcovers.of_append hconduct.sent
  cases hkind with
  | announced _ hsaid hreplica hvotes =>
      obtain ⟨hsound', hkeeps⟩ := hkept hvotes
      refine Turn.effect_of_handles ?_ hsound' hkeeps
      rw [hreplica, hsaid]
      exact Replica.startRound_handles _
  | timedOut _ hanswer hvotes =>
      obtain ⟨hsound', hkeeps⟩ := hkept hvotes
      exact Turn.effect_of_handles (hanswer ▸ Replica.onTimeout_handles _) hsound' hkeeps
  | refused hsaid hreplica hvotes =>
      obtain ⟨hsound', hkeeps⟩ := hkept hvotes
      exact Turn.effect_of_rest hreplica hsaid hsound' hkeeps
  | entered _ hentry hanswer =>
      obtain ⟨hsound', hkeeps⟩ := hsound.congr (Leader.onNewView_spec hentry)
      rcases hanswer with hanswer | ⟨hreplica, hsaid⟩
      · exact Turn.effect_of_handles (hanswer ▸ Replica.enterView_handles _ _) hsound' hkeeps
      · exact Turn.effect_of_rest hreplica hsaid hsound' hkeeps
  | @accepted signed hinput hphase hanswer hvotes =>
      obtain ⟨hsound', hkeeps⟩ := hkept hvotes
      have hadmissible := (hbacked hinput).statement _ signed rfl (by simp [hphase])
      refine Turn.effect_of_handles ?_ hsound' hkeeps
      refine Replica.onPrepare_handles hanswer (hadmissible.certificate _ rfl) ?_
      intro hvalid hleader haccepts
      have hproposal : t.proposal? = some signed.body := by rw [Turn.proposal?, hinput]
      refine ⟨⟨hproposal, hleader ▸ hadmissible.statement signed rfl hvalid⟩, ?_⟩
      -- A proposal for an own view was made by the member itself, in the current view.
      intro hleads
      have hme : signed.signer = ctx.me := hleader.trans (of_decide_eq_true hleads)
      have hmade := hadmissible.own signed rfl hme hvalid
      obtain ⟨hle, hopened⟩ := hconduct.proposed _ hmade haccepts.phase
      have hview := UInt64.le_antisymm hle haccepts.notStale
      rw [hvotes]
      exact hopened hview
  | @followed signed hinput hlater hanswer hvotes =>
      obtain ⟨hsound', hkeeps⟩ := hkept hvotes
      have hadmissible := (hbacked hinput).statement _ signed rfl hlater.1
      exact Turn.effect_of_handles
        (Replica.onPhase_handles hanswer (hadmissible.certificate _ rfl)) hsound' hkeeps
  | @counted vote _ hinput hcount _ hsaid hreplica =>
      obtain ⟨hsound', hkeeps, -⟩ :=
        Leader.onVote_spec hsound hcount ((hbacked hinput).vote vote rfl)
      exact Turn.effect_of_rest hreplica hsaid hsound' hkeeps
  | @certified vote next _ hinput hcount hown hsaid =>
      obtain ⟨hsound', hkeeps, hannounces⟩ :=
        Leader.onVote_spec hsound hcount ((hbacked hinput).vote vote rfl)
      exact Turn.effect_of_certified hconduct.active hsound' hkeeps (hannounces next rfl) hown hsaid
  | offered hinput hview hpropose hown hsaid =>
      have hadmissible : Admissible ctx ev h t.input := by
        rcases hcomes with hadmissible | ⟨_, hmessage, -⟩
        · exact hadmissible
        · cases hinput.symm.trans hmessage
      exact Turn.effect_of_offered hsound hinput hadmissible hcovers hview hpropose hown hsaid

end Effects

/-! ### The invariant of a run -/

section Runs

variable {σ : Type} [StateStore σ] {ctx : Context} {ev : Evidence} {s₀ : ReplicaState}
  {h : List (Turn σ)} {core core' : Core σ}

/-- A core is created over a created replica, with nothing collected. -/
theorem Core.create_ok {store : σ} (hcreate : Core.create ctx store = .ok core) :
    Replica.create ctx store = .ok core.replica ∧ core.votes = .empty := by
  obtain ⟨r, hr, hcore⟩ := bind_eq_ok.mp hcreate
  obtain rfl := Except.ok.inj hcore
  exact ⟨hr, rfl⟩

/-- A core over a store without a saved state starts from the genesis digest. -/
theorem Core.create_of_empty [LawfulStore σ] {store : σ} (hload : StateStore.load store = .ok none)
    (hcreate : Core.create ctx store = .ok core) :
    core.replica.state = .initial ctx.scheme.genesisDigest := by
  obtain ⟨-, loaded, hloaded, hstate⟩ := Replica.create_spec (Core.create_ok hcreate).1
  obtain rfl := Except.ok.inj (hload.symm.trans hloaded)
  exact hstate

namespace Conduct

/-- The first process has done nothing yet. -/
theorem boot [LawfulStore σ] {store : σ} (hcreate : Core.create ctx store = .ok core) :
    Conduct ctx ev core.replica.state [] core := by
  obtain ⟨hr, hvotes⟩ := Core.create_ok hcreate
  refine ⟨.boot, (Replica.create_spec hr).1, hvotes ▸ Collector.sound_empty, ?_, ?_, ?_, ?_⟩
  · intro hphase
    exact absurd (Replica.create_phase hr).1 hphase
  · intro st hst
    exact absurd hst List.not_mem_nil
  · intro st hst
    exact absurd hst List.not_mem_nil
  · intro receiver message hsend
    exact absurd hsend List.not_mem_nil

/-- A turn keeps the invariant. -/
theorem turn {t : Turn σ} (hconduct : Conduct ctx ev s₀ h t.before) (heffect : t.Effect ctx ev) :
    Conduct ctx ev s₀ (h ++ [t]) t.after := by
  have hview := heffect.move.view_le
  refine ⟨?_, heffect.stored hconduct.stored, heffect.sound, ?_, ?_, ?_, ?_⟩
  · exact .turn hconduct.course (heffect.move.mono fun st hst => hst.1)
  · intro hphase
    rcases heffect.move.held hphase with
      ⟨hbefore, hsame, hproposal⟩ | ⟨st, hheard, -, haccept, -⟩
    · obtain ⟨payload, hheld, hopened⟩ := hconduct.active hbefore
      rw [hsame, hproposal]
      exact ⟨payload, hheld, fun hleads => heffect.keeps _ _ (hopened hleads)⟩
    · rw [haccept]
      exact ⟨st.payload, rfl, hheard.2⟩
  · intro st hst hphase
    rw [statementsOf_append, statementsOf_singleton] at hst
    rcases List.mem_append.mp hst with hst | hst
    · obtain ⟨hle, hopened⟩ := hconduct.proposed st hst hphase
      refine ⟨UInt64.le_trans hle hview, fun heq => heffect.keeps _ _ (hopened ?_)⟩
      exact UInt64.le_antisymm hle (heq ▸ hview)
    · obtain ⟨-, -, hsame, hopened⟩ := heffect.proposed st hst hphase
      exact ⟨hsame ▸ hview, fun _ => hopened⟩
  · intro st hst hphase
    rw [statementsOf_append, statementsOf_singleton] at hst
    rcases List.mem_append.mp hst with hst | hst
    · obtain ⟨t', ht', horigin⟩ := hconduct.origin st hst hphase
      exact ⟨t', List.mem_append_left _ ht', horigin⟩
    · obtain ⟨hproposal, hinput, -⟩ := heffect.proposed st hst hphase
      exact ⟨t, List.mem_append_right _ (List.mem_singleton_self t), hproposal, hinput⟩
  · intro receiver message hsend
    rw [saidOf_append, saidOf_singleton] at hsend
    rcases List.mem_append.mp hsend with hsend | hsend
    · exact hconduct.sent receiver message hsend
    · exact heffect.sent receiver message hsend

/-- Tidying up keeps the invariant: the ballots of the current view stay. -/
theorem tidy (hconduct : Conduct ctx ev s₀ h core) (htidied : core.Tidied core') :
    Conduct ctx ev s₀ h core' := by
  obtain ⟨status, metrics, rfl⟩ := htidied
  have hcurrent : ∀ payload, core.votes.opened core.replica.state.view = some payload →
      (core.votes.pruneBelow core.replica.state.view).opened core.replica.state.view =
        some payload := fun payload hopened =>
    (Collector.opened_pruneBelow (UInt64.le_refl _)).trans hopened
  refine ⟨hconduct.course, hconduct.stored, hconduct.sound.pruneBelow _, ?_, ?_, hconduct.origin,
    hconduct.sent⟩
  · intro hphase
    obtain ⟨payload, hheld, hopened⟩ := hconduct.active hphase
    exact ⟨payload, hheld, fun hleads => hcurrent payload (hopened hleads)⟩
  · intro st hst hphase
    obtain ⟨hle, hopened⟩ := hconduct.proposed st hst hphase
    refine ⟨hle, fun heq => ?_⟩
    have hsame := hopened heq
    simp only at heq ⊢
    rw [heq] at hsame ⊢
    exact hcurrent _ hsame

/-- A restart keeps the invariant: what was stated before belongs to earlier views. -/
theorem restart [LawfulStore σ] (hconduct : Conduct ctx ev s₀ h core)
    (hcreate : Core.create ctx core.replica.store = .ok core') : Conduct ctx ev s₀ h core' := by
  obtain ⟨hr, hvotes⟩ := Core.create_ok hcreate
  obtain ⟨hstored, view, hlater, hstate⟩ := Replica.create_of_stored hconduct.stored hr
  refine ⟨hstate ▸ .resume hconduct.course hlater, hstored, hvotes ▸ Collector.sound_empty, ?_, ?_,
    hconduct.origin, hconduct.sent⟩
  · intro hphase
    exact absurd (Replica.create_phase hr).1 hphase
  · intro st hst hphase
    obtain ⟨hle, -⟩ := hconduct.proposed st hst hphase
    rw [hstate]
    have hlt : st.view < view := UInt64.lt_of_le_of_lt hle hlater
    exact ⟨UInt64.le_of_lt hlt, fun heq => absurd hlt (heq ▸ UInt64.lt_irrefl _)⟩

end Conduct

/-- **The invariant of a run.** -/
theorem Run.conduct [LawfulStore σ] {store : σ} {first : Core σ}
    (hcreate : Core.create ctx store = .ok first)
    (hrun : Run ctx (Admissible ctx ev) first h core) (hcovers : ev.Covers ctx h) :
    Conduct ctx ev first.replica.state h core := by
  revert hcovers
  refine Run.induction (P := fun h core => ev.Covers ctx h →
    Conduct ctx ev first.replica.state h core) ?_ ?_ ?_ ?_ hrun
  · intro h core input now core' said ih hcomes htake hcovers
    have hconduct := ih hcovers.of_append
    exact hconduct.turn (Turn.effect_of_kind hconduct hcomes hcovers (Core.kind_of_take htake))
  · exact fun _ => Conduct.boot hcreate
  · exact fun h core core' ih htidied hcovers => (ih hcovers).tidy htidied
  · exact fun h core core' ih hcreate' hcovers => (ih hcovers).restart hcreate'

omit [StateStore σ] in
/-- Where seals prove nothing, only the member's own seals matter. -/
theorem admissible_of_ownSeals {h : List (Turn σ)} {input : Input} (hown : OwnSeals ctx h input) :
    Admissible ctx .none h input :=
  ⟨⟨fun _ _ _ => trivial, fun _ _ _ _ _ => trivial, fun _ _ _ => trivial⟩, hown⟩

/-- A member whose own seals are not forged conducts itself, whatever the others seal. -/
theorem Run.conduct_of_ownSeals [LawfulStore σ] {store : σ} {first core : Core σ}
    (hcreate : Core.create ctx store = .ok first) (hrun : Run ctx (OwnSeals ctx) first h core) :
    Conduct ctx .none first.replica.state h core :=
  Run.conduct hcreate (hrun.mono fun _ _ => admissible_of_ownSeals) (Evidence.covers_none ctx h)

end Runs

end HotStuff
