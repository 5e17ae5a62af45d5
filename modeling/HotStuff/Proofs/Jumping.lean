import HotStuff.Proofs.Announcing
import HotStuff.Proofs.Stating

/-!
# What a Message Moves the View To

A message takes a replica to a later view in three ways. An accepted proposal takes it to the view
proposed in; an announcement, to the view that a quorum has announced by then; a decision, to the
view after its certificate. The first two bring a certificate, and may go a bounded way past it or
past the local view. The third may go any way, but a quorum has gone it before.

What the member sends to itself on the way are votes and the announcement of its own view. Those
announcements move nothing, so that of all its own messages only a vote can, by completing the
certificate of a decision.

## Main definitions

* `View.WithinReach`: a view that a certificate may take a replica to.
* `ReplicaState.LeftBehind`: a decision takes a replica to the view after its certificate.
* `Turn.Raises`: the ways in which a turn raises the view.
* `Core.Traced`: what is known of a core by its history.

## Main results

* `Core.Traced.raises`: a turn on a message raises the view in one of the ways.
* `view_jumps_are_justified`: so do all turns that a message brings about, and nothing else.
-/

namespace HotStuff

/-! ### What a statement brings -/

/-- **A view within reach**: not the last one, and not too far past the later of the local view and
the view of the certificate brought. -/
structure View.WithinReach (here certified view : View) : Prop where
  notLast : view ≠ View.last
  near : view.toNat ≤ max here.toNat certified.toNat + 65536

/-- **A statement is grounded** in the genesis certificate or a valid Prepare certificate of an
earlier view. -/
def Statement.Grounded (ctx : Context) (st : Statement) : Prop :=
  st.justify = ctx.scheme.genesis ∨
    st.justify.phase = .prepare ∧ st.justify.view < st.view ∧ ctx.verify st.justify = .ok ()

/-- The check of the view bound says how far a view may be. -/
theorem View.withinReach {here certified view : View}
    (h : checkViewBound view here certified = .ok ()) : WithinReach here certified view :=
  have hbound := Replica.checkViewBound_eq_ok.mp h
  ⟨hbound.1, hbound.2⟩

section Checks

variable {ctx : Context} {msg : SignedStatement} {here : View}

/-- A justification that passes the check is grounded. -/
theorem Leader.grounded_of_checkJustify {st : Statement} (h : checkJustify ctx st = .ok ()) :
    st.Grounded ctx := by
  rw [checkJustify] at h
  split at h
  · next hgenesis => exact Or.inl hgenesis
  split at h
  · cases h
  next hbrought =>
  obtain ⟨hphase, hview⟩ := not_or.mp hbrought
  exact Or.inr ⟨not_not.mp hphase, UInt64.not_le.mp hview, h⟩

/-- An announcement that passes the checks is grounded, and its view within reach. -/
theorem Leader.checkNewView_ok (h : checkNewView ctx here msg = .ok ()) :
    msg.body.Grounded ctx ∧ View.WithinReach here msg.body.justify.view msg.body.view := by
  simp only [checkNewView, bind_eq_ok, guard_throw_eq_ok] at h
  obtain ⟨-, ⟨⟩, -, -, -, ⟨⟩, hjustify, hbound⟩ := h
  exact ⟨grounded_of_checkJustify hjustify, View.withinReach hbound⟩

/-- So is a proposal that is accepted. -/
theorem Replica.onPrepare_near {σ : Type} [StateStore σ] {r : Replica σ}
    {answer : Replica σ × List Action} (h : r.onPrepare ctx msg = .ok answer) :
    msg.body.Grounded ctx ∧
      View.WithinReach r.state.view msg.body.justify.view msg.body.view := by
  simp only [onPrepare, checkPrepare, bind_eq_ok, guard_throw_eq_ok] at h
  obtain ⟨⟨⟩, ⟨-, ⟨⟩, -, ⟨⟩, -, -, -, ⟨⟩, hbound, ⟨⟩, hjustify, -⟩, -⟩ := h
  exact ⟨checkJustify_ok hjustify, View.withinReach hbound⟩

end Checks

/-! ### Decisions -/

/-- **A decision takes a replica on**, from a view that its certificate is not behind to the view
after it. Its payload is executed, and is the end of the chain. -/
structure ReplicaState.LeftBehind (scheme : Scheme) (cert : Certificate) (s s' : ReplicaState)
    (ds : List Deed) : Prop where
  next : View.next? cert.view = some s'.view
  notBehind : s.view ≤ cert.view
  executed : ∃ height, ds = [.execute cert.view height cert.payload]
  committed : s'.committed = scheme.payloadDigest cert.payload

namespace Replica

variable {σ : Type} [StateStore σ] {ctx : Context} {r : Replica σ} {cert : Certificate}
  {answer : Replica σ × List Action} {st : Statement} {msg : SignedStatement}

/-- A commit raises the view to the one after its certificate. -/
theorem leftBehind_of_commit (h : r.commit ctx cert = .ok answer)
    (hraised : r.state.view < answer.1.state.view) :
    r.state.LeftBehind ctx.scheme cert answer.1.state (deedsIn answer.2) := by
  obtain ⟨height, -, hstate, hdeeds, -⟩ := commit_spec h
  have hcommitted : answer.1.state.committed = ctx.scheme.payloadDigest cert.payload := by
    rw [hstate, ReplicaState.commit_committed]
  rcases r.state.commit_cases ctx.scheme cert height with
    ⟨next, hnext, hlater, hentered⟩ | ⟨-, hsame⟩
  · have hview : answer.1.state.view = next := by
      rw [hstate, hentered]
      rfl
    refine ⟨hview ▸ hnext, ?_, ⟨height, hdeeds⟩, hcommitted⟩
    have hsucc := View.toNat_of_next? hnext
    rw [UInt64.lt_iff_toNat_lt] at hlater
    rw [UInt64.le_iff_toNat_le]
    omega
  · rw [hstate, hsame] at hraised
    exact absurd hraised (UInt64.lt_irrefl _)

/-- Of the phases that are applied only a decision raises the view. -/
theorem leftBehind_of_applyPhase (h : r.applyPhase ctx st = .ok answer)
    (hraised : r.state.view < answer.1.state.view) :
    st.phase = .decide ∧
      r.state.LeftBehind ctx.scheme st.justify answer.1.state (deedsIn answer.2) := by
  rw [applyPhase] at h
  simp only at h
  split at h
  · cases h
  cases hphase : st.phase with
  | newView | prepare =>
      rw [hphase] at h
      cases h
  | preCommit | commit =>
      rw [hphase] at h
      obtain rfl := Except.ok.inj h
      exact absurd hraised (UInt64.lt_irrefl _)
  | decide =>
      rw [hphase] at h
      obtain ⟨hnext, hbehind, hexecuted, hcommitted⟩ := leftBehind_of_commit h hraised
      exact ⟨rfl, hnext, hbehind, hexecuted, hcommitted⟩

/-- What the leader says after its proposal raises the view on a valid Commit certificate. -/
theorem leftBehind_of_onPhase (h : r.onPhase ctx msg = .ok answer)
    (hraised : r.state.view < answer.1.state.view) :
    msg.body.justify.phase = .commit ∧ ctx.verify msg.body.justify = .ok () ∧
      r.state.LeftBehind ctx.scheme msg.body.justify answer.1.state (deedsIn answer.2) := by
  rcases onPhase_ok h with ⟨-, hcheck, hcommit⟩ | ⟨hcheck, happly⟩
  · obtain ⟨⟨hphase, -⟩, -, hvalid⟩ := checkDecision_ok hcheck
    exact ⟨hphase, hvalid, leftBehind_of_commit hcommit hraised⟩
  · obtain ⟨-, hbefore, -, -, hvalid⟩ := checkPhase_ok hcheck
    obtain ⟨hdecide, hleft⟩ := leftBehind_of_applyPhase happly hraised
    rw [hdecide] at hbefore
    exact ⟨(Option.some.inj hbefore).symm, hvalid, hleft⟩

end Replica

/-! ### Turns -/

/-- **The ways in which a turn raises the view**, while a message is handled; `h` is the history
with the turn in it. -/
inductive Turn.Raises {σ : Type} [StateStore σ] (ctx : Context) (h : List (Turn σ))
    (message : Message) (t : Turn σ) : Prop
  /-- The message is a proposal for the view, and is accepted. -/
  | proposed {signed} (hinput : t.input = .message message)
      (hmessage : message = .statement .prepare signed)
      (haccepted : t.before.replica.onPrepare ctx signed = .ok (t.after.replica, t.said))
      (hview : t.after.replica.state.view = signed.body.view)
      (hgrounded : signed.body.Grounded ctx)
      (hreach : View.WithinReach t.before.replica.state.view signed.body.justify.view
        signed.body.view)
  /-- The message announces the view, as the latest announcements of a quorum do. -/
  | announced {signed} (hinput : t.input = .message message)
      (hmessage : message = .statement .newView signed)
      (htaken : t.announcement? ctx = some signed)
      (hview : t.after.replica.state.view = signed.body.view)
      (hgrounded : signed.body.Grounded ctx)
      (hreach : View.WithinReach t.before.replica.state.view signed.body.justify.view
        signed.body.view)
      (hquorum : ctx.committee.quorum ≤
        (entrants ctx.committee (announcedIn ctx h) signed.body.view).length)
      (hheld : ∀ m ∈ entrants ctx.committee (announcedIn ctx h) signed.body.view,
        t.after.votes.Holds m signed.body.view)
  /-- A valid Commit certificate is applied. -/
  | decided {cert : Certificate} (hphase : cert.phase = .commit) (hvalid : ctx.verify cert = .ok ())
      (hleft : t.before.replica.state.LeftBehind ctx.scheme cert t.after.replica.state t.deeds)

/-- **What is known of a core by its history.** -/
structure Core.Traced {σ : Type} (ctx : Context) (h : List (Turn σ)) (core : Core σ) : Prop where
  sound : core.votes.Sound ctx Evidence.none.voted
  once : core.votes.HeldOnce
  members : core.votes.HoldsMembers ctx.committee
  mirrors : core.votes.Mirrors (announcedIn ctx h) core.replica.state.view

section Turns

variable {σ : Type} [StateStore σ] {ctx : Context} {core core' : Core σ} {h : List (Turn σ)}
  {now : Instant} {said : List Action}

/-- What is known of a process after its life so far. -/
theorem Core.Lives.traced {store : σ} {first : Core σ} (hcreate : Core.create ctx store = .ok first)
    (hlives : first.Lives ctx h core) : core.Traced ctx h :=
  have hreached := hlives.reached hcreate
  ⟨hreached.atRest.sound, hreached.heldOnce, hreached.holdsMembers, (hlives.mirrors hcreate).2⟩

namespace Core.Traced

/-- Every turn leaves a trace. -/
theorem take {input : Input} (htraced : core.Traced ctx h)
    (htake : core.take ctx now input = .ok (core', said)) :
    core'.Traced ctx (h ++ [⟨core, input, said, core'⟩]) := by
  have hkind := kind_of_take htake
  obtain ⟨honce, hmembers⟩ := Turn.holdsMembers_of_kind hkind ⟨htraced.once, htraced.members⟩
  exact ⟨sound_of_kind hkind htraced.sound, honce, hmembers,
    htraced.mirrors.turn htraced.once htake⟩

/-- An announcement takes the replica to a view that a quorum has announced last. -/
theorem raises_of_entered {signed : SignedStatement} {entry : Entry} {own : List Action}
    (hafter : core'.Traced ctx (h ++ [⟨core, .message (.statement .newView signed), said, core'⟩]))
    (hentry : Leader.onNewView ctx core.votes core.replica.state.view signed =
      .ok (entry, core'.votes))
    (hreached : entry.quorumReached) (hlater : core.replica.state.view < entry.view)
    (hentered : core.replica.enterView ctx entry.view = (core'.replica, own)) :
    Turn.Raises ctx (h ++ [⟨core, .message (.statement .newView signed), said, core'⟩])
      (.statement .newView signed) ⟨core, .message (.statement .newView signed), said, core'⟩ := by
  obtain ⟨hcheck, hcounted, hadd⟩ := Leader.onNewView_ok hentry
  obtain ⟨hgrounded, hreach⟩ := Leader.checkNewView_ok hcheck
  have hview : core'.replica.state.view = signed.body.view := by
    rw [Replica.enterView_of_lt hlater] at hentered
    rw [← (Prod.mk.inj hentered).1]
    exact congrArg Entry.view hcounted
  have hmirrors := hafter.mirrors
  rw [hview] at hmirrors
  have hquorum : ctx.committee.quorum ≤ core'.votes.newViewCount signed.body.view := by
    rw [congrArg Entry.quorumReached hcounted, decide_eq_true_eq] at hreached
    exact Collector.count_of_addNewView hadd ▸ hreached
  rw [hmirrors.newViewCount_eq hafter.members] at hquorum
  refine .announced rfl rfl (Turn.announcement?_eq_some.mpr ⟨rfl, hcheck⟩) hview hgrounded hreach
    hquorum fun m hm => ?_
  have hlatest : LatestIn _ m signed.body.view := of_decide_eq_true (List.mem_filter.mp hm).2
  exact (hmirrors.holds_iff (UInt64.le_refl _)).mpr hlatest

/-- **A turn on a message raises the view in one of the ways.** -/
theorem raises {message : Message} (htraced : core.Traced ctx h)
    (htake : core.take ctx now (.message message) = .ok (core', said))
    (hraised : core.replica.state.view < core'.replica.state.view) :
    Turn.Raises ctx (h ++ [⟨core, .message message, said, core'⟩]) message
      ⟨core, .message message, said, core'⟩ := by
  have hafter := htraced.take htake
  obtain ⟨answer, mid, hconsider, hsaid, hreplica, hvotes⟩ := dispatch_ok htake
  have hstay (hsame : mid.replica = core.replica) :
      Turn.Raises ctx (h ++ [⟨core, .message message, said, core'⟩]) message
        ⟨core, .message message, said, core'⟩ := by
    rw [hreplica, hsame] at hraised
    exact absurd hraised (UInt64.lt_irrefl _)
  cases considers_of_consider hconsider with
  | refused => exact hstay rfl
  | uncounted => exact hstay rfl
  | counted => exact hstay rfl
  | @certified vote next votes replica own hcount hown =>
      rcases hown with happly | ⟨hsame, -⟩
      · obtain ⟨-, -, hannounces⟩ := Leader.onVote_spec htraced.sound hcount fun _ => trivial
        have hnext := hannounces next rfl
        have hreplica : core'.replica = replica := hreplica
        rw [hreplica] at hraised
        obtain ⟨hdecide, hleft⟩ := Replica.leftBehind_of_applyPhase happly hraised
        have hbefore := hnext.phase
        rw [hdecide] at hbefore
        have hdeeds : deedsIn said = deedsIn own := by
          rw [hsaid]
          rfl
        refine .decided (Option.some.inj hbefore).symm hnext.trusted.valid ?_
        rw [Turn.deeds, hdeeds, hreplica]
        exact hleft
      · exact hstay hsame
  | @entered signed entry votes replica own hphase hentry hanswer =>
      rcases hanswer with ⟨⟨hreached, hlater⟩, hentered⟩ | ⟨-, hsame, -⟩
      · have hreplica : core'.replica = replica := hreplica
        have hvotes : core'.votes = votes := hvotes
        rw [← hvotes] at hentry
        rw [← hreplica] at hentered
        exact hafter.raises_of_entered hentry hreached hlater hentered
      · exact hstay hsame
  | @accepted signed replica own hphase hanswer =>
      obtain ⟨hgrounded, hreach⟩ := Replica.onPrepare_near hanswer
      have haccepted : core.replica.onPrepare ctx signed = .ok (core'.replica, said) := by
        rw [hreplica, hsaid]
        exact hanswer
      have hview : core'.replica.state.view = signed.body.view := by
        rw [(Replica.onPrepare_accepts haccepted).2]
        rfl
      exact .proposed rfl rfl haccepted hview hgrounded hreach
  | @followed envelope signed replica own hphase hlater hanswer =>
      have hreplica : core'.replica = replica := hreplica
      rw [hreplica] at hraised
      obtain ⟨hcommit, hvalid, hleft⟩ := Replica.leftBehind_of_onPhase hanswer hraised
      refine .decided hcommit hvalid ?_
      rw [Turn.deeds, hsaid, hreplica]
      exact hleft

end Core.Traced

end Turns

/-! ### All turns that a message brings about -/

/-- **A turn is accounted for**, after those before it in the handling of a message: it begins where
they end, raises the view in one of the ways if at all, and leaves the replica as it was if it
refuses what it is about. -/
structure Turn.Accounted {σ : Type} [StateStore σ] (ctx : Context) (h : List (Turn σ))
    (message : Message) (start : Core σ) (pre : List (Turn σ)) (t : Turn σ) : Prop where
  begins : t.before = lastOf start pre
  raises : t.before.replica.state.view < t.after.replica.state.view →
    t.Raises ctx (h ++ pre ++ [t]) message
  refused : ∀ m cause mid, t.input = .message m →
    t.before.consider ctx m = .ok (.error cause, mid) → t.after.replica = t.before.replica

/-- **A message is being handled**: the turns so far, after the history of the process. -/
structure Core.Handling {σ : Type} [StateStore σ] (ctx : Context) (h : List (Turn σ))
    (message : Message) (start : Core σ) (ts : List (Turn σ)) (core : Core σ) : Prop where
  last : core = lastOf start ts
  traced : core.Traced ctx (h ++ ts)
  /-- Of all statements the member sends itself none but announcements, of views it has come to. -/
  sent : ∀ envelope signed, .send ctx.me (.statement envelope signed) ∈ saidOf ts →
    envelope = .newView ∧ signed.body.view ≤ core.replica.state.view
  accounted : ∀ pre t post, ts = pre ++ t :: post → t.Accounted ctx h message start pre

section Handling

variable {σ : Type} [StateStore σ] {ctx : Context} {core core' start : Core σ}
  {h ts : List (Turn σ)} {now : Instant} {said : List Action} {message : Message}

omit [StateStore σ] in
/-- After one more turn the core is the one that the turn leads to. -/
theorem lastOf_concat (core : Core σ) (ts : List (Turn σ)) (t : Turn σ) :
    lastOf core (ts ++ [t]) = t.after := by
  induction ts generalizing core with
  | nil => rfl
  | cons t' ts ih => exact ih t'.after

/-- A statement that is sent to one member announces the view that the sender has come to. -/
theorem Turn.announces_of_send {t : Turn σ} (hkind : t.Kind ctx)
    (hsound : t.before.votes.Sound ctx Evidence.none.voted) {receiver : MemberId} {envelope : Phase}
    {signed : SignedStatement} (hsent : .send receiver (.statement envelope signed) ∈ t.said) :
    envelope = .newView ∧ signed.body.view = t.after.replica.state.view := by
  have hown : Action.Own ctx (.send receiver (.statement envelope signed)) := hkind.own _ hsent
  have hstates := hkind.states hsound (mem_messagesIn_of_send hsent)
  cases hown with
  | announce st hphase =>
      generalize ctx.sign st = signed at hstates
      cases hstates with
      | entry => exact ⟨rfl, rfl⟩
      | @later vote cert next _ _ _ hnext =>
          cases hcert : cert.phase <;> rw [hcert] at hnext <;> cases hnext
  | silent hsilent => cases hsilent

namespace Core.Handling

/-- A turn of the handling of a message is on that message, or on one that the member sent
itself. -/
theorem raises {m : Message} (hhandling : start.Handling ctx h message ts core)
    (hcomes : Comes ctx (fun input => ts = [] ∧ input = .message message) ts (.message m))
    (htake : core.take ctx now (.message m) = .ok (core', said))
    (hraised : core.replica.state.view < core'.replica.state.view) :
    Turn.Raises ctx (h ++ ts ++ [⟨core, .message m, said, core'⟩]) message
      ⟨core, .message m, said, core'⟩ := by
  have hraises := hhandling.traced.raises htake hraised
  rcases hcomes with ⟨-, hfirst⟩ | ⟨m', hm, hsent⟩
  · exact Input.message.inj hfirst ▸ hraises
  obtain rfl := Input.message.inj hm
  cases hraises with
  | proposed _ hmessage =>
      subst hmessage
      cases (hhandling.sent _ _ hsent).1
  | announced _ hmessage _ hview =>
      subst hmessage
      have hbehind := (hhandling.sent _ _ hsent).2
      rw [← hview] at hbehind
      exact absurd hraised (UInt64.not_lt.mpr hbehind)
  | decided hphase hvalid hleft => exact .decided hphase hvalid hleft

/-- Every turn of the handling of a message is accounted for. -/
theorem turn {input : Input} (hhandling : start.Handling ctx h message ts core)
    (hcomes : Comes ctx (fun input => ts = [] ∧ input = .message message) ts input)
    (htake : core.take ctx now input = .ok (core', said)) :
    start.Handling ctx h message (ts ++ [⟨core, input, said, core'⟩]) core' := by
  obtain ⟨m, rfl⟩ : ∃ m, input = .message m := by
    rcases hcomes with ⟨-, hfirst⟩ | ⟨m, hm, -⟩
    · exact ⟨message, hfirst⟩
    · exact ⟨m, hm⟩
  have hkind := kind_of_take htake
  have hlast : core' = lastOf start (ts ++ [⟨core, .message m, said, core'⟩]) :=
    (lastOf_concat start ts ⟨core, .message m, said, core'⟩).symm
  refine ⟨hlast, ?_, ?_, ?_⟩
  · rw [← List.append_assoc]
    exact hhandling.traced.take htake
  · intro envelope signed hsent
    rw [saidOf_append, saidOf_singleton] at hsent
    rcases List.mem_append.mp hsent with hsent | hsent
    · obtain ⟨hphase, hle⟩ := hhandling.sent envelope signed hsent
      exact ⟨hphase, UInt64.le_trans hle (Turn.attains_of_kind hkind).view_le⟩
    · obtain ⟨hphase, hview⟩ := Turn.announces_of_send hkind hhandling.traced.sound hsent
      exact ⟨hphase, hview ▸ UInt64.le_refl _⟩
  · intro pre t post hsplit
    rcases concat_eq_append_cons hsplit with ⟨rfl, rfl, -⟩ | ⟨rest, -, hbefore⟩
    · refine ⟨hhandling.last, hhandling.raises hcomes htake, ?_⟩
      rintro m' cause mid hinput hrefused
      obtain rfl := Input.message.inj hinput
      obtain ⟨answer, mid', hconsider, -, hreplica, -⟩ := dispatch_ok htake
      obtain ⟨-, rfl⟩ := Prod.mk.inj (Except.ok.inj (hrefused.symm.trans hconsider))
      rw [hreplica]
      cases considers_of_consider hrefused with
      | refused => rfl
      | uncounted => rfl
    · exact hhandling.accounted pre t rest hbefore

/-- All turns that a message brings about are accounted for. -/
theorem turns (htraced : start.Traced ctx h) (now : Instant) (message : Message) :
    start.Handling ctx h message (start.turns ctx now (.message message))
      (lastOf start (start.turns ctx now (.message message))) := by
  have hfirst : start.Handling ctx h message [] start :=
    ⟨rfl, by rwa [List.append_nil], fun _ _ hsent => absurd hsent List.not_mem_nil,
      fun pre t post hsplit => absurd hsplit.symm (by simp)⟩
  have hturn : ∀ ts core input now core' said, start.Handling ctx h message ts core →
      Comes ctx (fun input => ts = [] ∧ input = .message message) ts input →
      core.take ctx now input = .ok (core', said) →
      start.Handling ctx h message (ts ++ [⟨core, input, said, core'⟩]) core' :=
    fun ts core input now core' said hhandling hcomes htake => hhandling.turn hcomes htake
  have hall := turns_induction (P := start.Handling ctx h message) hturn
    (h := []) ⟨rfl, rfl⟩ hfirst (List.prefix_refl (start.turns ctx now (.message message)))
  rwa [List.nil_append] at hall

end Core.Handling

/-- **View jumps are bounded and justified.** Whatever a process has been through, take all the
turns that a message brings about, one after the other. A turn that raises the view is on that
message, as an accepted proposal for the view or as the announcement with which a quorum has
announced the view last, both grounded and within reach; or it applies a valid Commit certificate of
the view before. A turn that refuses leaves the replica as it is. The handling ends where the turns
end, and if the message itself is refused, the replica is as it was. -/
theorem view_jumps_are_justified {store : σ} (hcreate : Core.create ctx store = .ok start)
    (hlives : start.Lives ctx h core) (now : Instant) (message : Message) :
    (∀ pre t post, core.turns ctx now (.message message) = pre ++ t :: post →
      t.Accounted ctx h message core pre) ∧
    ∀ core' out, core.handle ctx now message = .ok (core', out) →
      core'.replica = (lastOf core (core.turns ctx now (.message message))).replica ∧
      ∀ cause mid, core.consider ctx message = .ok (.error cause, mid) →
        core'.replica = core.replica := by
  refine ⟨(Core.Handling.turns (hlives.traced hcreate) now message).accounted, ?_⟩
  intro core' out hhandle
  refine ⟨?_, fun cause mid hrefused => ?_⟩
  · have hreact : core.react ctx now (.message message) = .ok (core', out) := hhandle
    rcases (Core.react_ok hreact).1 with rfl | ⟨status, metrics, rfl⟩
    · rfl
    · rfl
  · have hrest := (hlives.reached hcreate).atRest
    obtain rfl := hrest.eq_of_refused hrefused
    obtain ⟨rfl, -⟩ :=
      Prod.mk.inj (Except.ok.inj (hhandle.symm.trans (hrest.handle_refused hrefused)))
    rfl

end Handling

/-! ### The farthest jump -/

namespace FarJump

/-- The leader of view 65536. -/
def ctx : Context := .numbered .four 0 Committee.zero_mem_four

/-- A member announces view 65536 with the genesis certificate. -/
def announcement (n : UInt8) : Message :=
  let justify := Scheme.transparent.genesis
  .ofStatement (Scheme.transparent.signStatement (.numbered n)
    ⟨65536, .newView, justify.payload, justify⟩)

/-- Two members have announced the view. -/
def script : List Input := [.message (announcement 1), .message (announcement 2)]

/-- The first turn on a message goes from view 0 to view 65536. -/
def Jumps (core : Core MemoryStore) (message : Message) : Prop :=
  ((core.turns ctx 0 (.message message)).head?.map fun t =>
    (t.before.replica.state.view, t.after.replica.state.view)) = some (0, 65536)

instance (core : Core MemoryStore) (message : Message) : Decidable (Jumps core message) :=
  inferInstanceAs (Decidable (_ = _))

end FarJump

open FarJump in
/-- With the third announcement the leader goes from view 0 to view 65536, as far as the genesis
certificate takes it. -/
theorem view_jumps_are_justified_of_quorum :
    ∃ h core t ts, Core.create ctx ({} : MemoryStore) = .ok (.fresh ctx) ∧
      (Core.fresh ctx).Lives ctx h core ∧
      core.turns ctx 0 (.message (announcement 3)) = t :: ts ∧
      t.before.replica.state.view = 0 ∧ t.after.replica.state.view = 65536 ∧
      t.Raises ctx (h ++ [t]) (announcement 3) := by
  obtain ⟨h, core, hlives, hjumps⟩ := Core.exists_life
    (P := fun _ core => Jumps core (announcement 3))
    (show ((Core.fresh ctx).live ctx [] script).map _ = some true by decide +kernel)
  obtain ⟨t, hhead, hviews⟩ := Option.map_eq_some_iff.mp hjumps
  obtain ⟨ts, hturns⟩ := List.head?_eq_some_iff.mp hhead
  obtain ⟨hbefore, hafter⟩ := Prod.mk.inj hviews
  have hcreate : Core.create ctx ({} : MemoryStore) = .ok (.fresh ctx) := Core.create_fresh ctx
  have haccounted := (view_jumps_are_justified hcreate hlives 0 (announcement 3)).1 [] t ts hturns
  have hraises := haccounted.raises (by rw [hbefore, hafter]; decide)
  rw [List.append_nil] at hraises
  exact ⟨h, core, t, ts, hcreate, hlives, hturns, hbefore, hafter, hraises⟩

end HotStuff
