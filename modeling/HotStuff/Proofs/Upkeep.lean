import HotStuff.Proofs.Conduct

/-!
# What Every Member Keeps Up

Nothing is assumed here about the inputs of a member: its own seal may be in other hands, and no
seal proves anything. A turn then still is of one of four `Turn.Role`s, by the part that the
leader has in it, the saved state is up to date, and the collector is sound. What is true of a
member on these terms is proved by `Run.kept_induction`.

## Main results

* `Turn.role_of_kind`: every turn has one of the roles.
* `Run.kept_induction`: what holds at boot and is kept by turns, tidying and resuming holds of
  every run.
* `Run.forall_turns`: what is true of every turn is true of all turns of a run.
-/

namespace HotStuff

variable {σ : Type} [StateStore σ] {ctx : Context}

/-- **The leader's part in a turn.** Where it has one, the replica does what it says, or stays. -/
inductive Turn.Role (ctx : Context) (t : Turn σ) : Prop
  /-- The replica is on its own; no ballot changes. -/
  | none (hhandles : Handles ctx Evidence.none.voted (fun st => t.proposal? = some st)
        t.before.replica (t.after.replica, t.said))
      (hsame : ∀ view phase, t.after.votes.tally? view phase = t.before.votes.tally? view phase)
  /-- A vote is counted or refused. -/
  | counted {vote said}
      (hcount : Leader.onVote ctx t.before.votes t.before.replica.state.view vote =
        (said, t.after.votes))
      (hnone : ∀ next, said ≠ .ok (some next)) (hsaid : t.said = [])
      (hreplica : t.after.replica = t.before.replica)
  /-- A vote completes a certificate, which is announced. -/
  | certified {vote next own} (hinput : t.input = .message (.vote vote))
      (hcount : Leader.onVote ctx t.before.votes t.before.replica.state.view vote =
        (.ok (some next), t.after.votes))
      (hown : t.before.replica.applyPhase ctx next.body = .ok (t.after.replica, own) ∨
        t.after.replica = t.before.replica ∧ own = [])
      (hsaid : t.said = .notify (.certified next.body.justify.view next.body.justify.phase) ::
        .broadcast (.ofStatement next) :: own)
  /-- A proposal is made in the current view. -/
  | proposed {slot data prepare own} (hview : slot.view = t.before.replica.state.view)
      (hpropose : Leader.propose ctx t.before.votes slot t.before.replica.state.committed data =
        .ok (prepare, t.after.votes))
      (hown : Handles ctx Evidence.none.voted (fun st => t.proposal? = some st)
        t.before.replica (t.after.replica, own))
      (hsaid : t.said = .broadcast (.statement .prepare prepare) :: own)

/-- **Every turn has one of the roles.** -/
theorem Turn.role_of_kind [LawfulStore σ] {t : Turn σ} (hkind : t.Kind ctx) : t.Role ctx := by
  have hsame {votes : Collector} (hvotes : votes = t.before.votes) (view : View) (phase : Phase) :
      votes.tally? view phase = t.before.votes.tally? view phase := by rw [hvotes]
  have hrest (hreplica : t.after.replica = t.before.replica) (hsaid : t.said = []) :
      Handles ctx Evidence.none.voted (fun st => t.proposal? = some st)
        t.before.replica (t.after.replica, t.said) :=
    Handles.of_own (Or.inr ⟨hreplica, hsaid⟩)
  cases hkind with
  | announced _ hsaid hreplica hvotes =>
      refine .none ?_ (hsame hvotes)
      rw [hreplica, hsaid]
      exact Replica.startRound_handles _
  | timedOut _ hanswer hvotes => exact .none (hanswer ▸ Replica.onTimeout_handles _) (hsame hvotes)
  | refused hsaid hreplica hvotes => exact .none (hrest hreplica hsaid) (hsame hvotes)
  | entered _ hentry hanswer =>
      have hsame := Leader.onNewView_spec hentry
      rcases hanswer with hanswer | ⟨hreplica, hsaid⟩
      · exact .none (hanswer ▸ Replica.enterView_handles _ _) hsame
      · exact .none (hrest hreplica hsaid) hsame
  | accepted hinput _ hanswer hvotes =>
      refine .none (Replica.onPrepare_handles hanswer (fun _ _ _ => trivial) ?_) (hsame hvotes)
      intro _ _ _
      rw [Turn.proposal?, hinput]
  | followed _ _ hanswer hvotes =>
      exact .none (Replica.onPhase_handles hanswer fun _ _ _ => trivial) (hsame hvotes)
  | counted _ hcount hnone hsaid hreplica => exact .counted hcount hnone hsaid hreplica
  | certified hinput hcount hown hsaid => exact .certified hinput hcount hown hsaid
  | @offered slot data prepare own hinput hview hpropose hown hsaid =>
      refine .proposed hview hpropose (Handles.of_own (hown.imp_left fun hprepare => ?_)) hsaid
      refine Replica.onPrepare_handles hprepare (fun _ _ _ => trivial) fun _ _ _ => ?_
      obtain ⟨hbody, -, -⟩ := Leader.propose_ok hpropose
      rw [Turn.proposal?, hinput, hbody]

/-! ### What is kept -/

/-- **A member that is kept up**: its state is saved, and its collector sound. -/
structure Core.Kept (ctx : Context) (core : Core σ) : Prop where
  stored : core.replica.Stored
  sound : core.votes.Sound ctx Evidence.none.voted

namespace Turn.Role

variable {t : Turn σ}

/-- What the replica does in a turn: a move of its own, or the phase that its leader announces. -/
theorem moves (hrole : t.Role ctx) (hsound : t.before.votes.Sound ctx Evidence.none.voted) :
    Move ctx (Trusted ctx Evidence.none.voted) (fun st => t.proposal? = some st)
        t.before.replica.state t.deeds t.after.replica.state ∨
      ∃ st, Leader.Announces ctx Evidence.none.voted t.after.votes t.before.replica.state.view st ∧
        Replica.Follows ctx st t.before.replica.state t.deeds t.after.replica.state := by
  cases hrole with
  | none hhandles => exact Or.inl hhandles.move
  | counted _ _ hsaid hreplica =>
      left
      rw [Turn.deeds, hsaid, hreplica]
      exact .rest
  | @certified vote next own _ hcount hown hsaid =>
      rw [Turn.deeds, hsaid]
      rcases hown with happly | ⟨hreplica, rfl⟩
      · obtain ⟨-, -, hannounces⟩ := Leader.onVote_spec hsound hcount fun _ => trivial
        obtain ⟨-, hfollows, -⟩ := Replica.applyPhase_follows happly
        exact Or.inr ⟨next.body, hannounces next rfl, hfollows⟩
      · left
        rw [hreplica]
        exact .rest
  | proposed _ _ hown hsaid =>
      left
      rw [Turn.deeds, hsaid]
      exact hown.move

/-- No turn goes back to an earlier view. -/
theorem view_le (hrole : t.Role ctx) (hsound : t.before.votes.Sound ctx Evidence.none.voted) :
    t.before.replica.state.view ≤ t.after.replica.state.view := by
  rcases hrole.moves hsound with hmove | ⟨st, -, hfollows⟩
  · exact hmove.view_le
  · exact hfollows.view_le

/-- Every turn leaves the member kept up. -/
theorem kept [LawfulStore σ] (hrole : t.Role ctx) (hkept : t.before.Kept ctx) :
    t.after.Kept ctx := by
  obtain ⟨hstored, hsound⟩ := hkept
  cases hrole with
  | none hhandles hsame => exact ⟨hhandles.stored hstored, (hsound.congr hsame).1⟩
  | counted hcount _ _ hreplica =>
      obtain ⟨hsound', -, -⟩ := Leader.onVote_spec hsound hcount fun _ => trivial
      exact ⟨hreplica ▸ hstored, hsound'⟩
  | certified _ hcount hown =>
      obtain ⟨hsound', -, -⟩ := Leader.onVote_spec hsound hcount fun _ => trivial
      refine ⟨?_, hsound'⟩
      rcases hown with happly | ⟨hreplica, -⟩
      · exact Replica.applyPhase_stored happly
      · exact hreplica ▸ hstored
  | proposed _ hpropose hown =>
      exact ⟨hown.stored hstored, (Leader.propose_spec hsound hpropose).1⟩

end Turn.Role

/-- **Induction on the life of any member.** What holds of the first process, and is kept by every
turn of a kept member, by tidying up and by resuming in a later view, holds after every run. -/
theorem Run.kept_induction [LawfulStore σ] {admits : List (Turn σ) → Input → Prop}
    {P : List (Turn σ) → Core σ → Prop} {store : σ} {first core : Core σ} {h : List (Turn σ)}
    (hcreate : Core.create ctx store = .ok first) (hrun : Run ctx admits first h core)
    (boot : P [] first)
    (turn : ∀ h t, P h t.before → t.before.Kept ctx → t.Kind ctx → P (h ++ [t]) t.after)
    (tidy : ∀ h core core', P h core → core.Tidied core' → P h core')
    (resume : ∀ h core core' view, P h core → core.replica.state.view < view →
      core'.replica.state = core.replica.state.enter view → core'.votes = .empty → P h core') :
    core.Kept ctx ∧ P h core := by
  refine Run.induction (P := fun h core => core.Kept ctx ∧ P h core) ?_ ?_ ?_ ?_ hrun
  · rintro h core input now core' said ⟨hkept, hP⟩ - htake
    have hkind := Core.kind_of_take htake
    exact ⟨(Turn.role_of_kind hkind).kept hkept, turn h ⟨core, input, said, core'⟩ hP hkept hkind⟩
  · obtain ⟨hr, hvotes⟩ := Core.create_ok hcreate
    exact ⟨⟨(Replica.create_spec hr).1, hvotes ▸ Collector.sound_empty⟩, boot⟩
  · rintro h core core' ⟨hkept, hP⟩ htidied
    refine ⟨?_, tidy h core core' hP htidied⟩
    obtain ⟨status, metrics, rfl⟩ := htidied
    exact ⟨hkept.stored, hkept.sound.pruneBelow _⟩
  · rintro h core core' ⟨hkept, hP⟩ hcreate'
    obtain ⟨hr, hvotes⟩ := Core.create_ok hcreate'
    obtain ⟨hstored, view, hlater, hstate⟩ := Replica.create_of_stored hkept.stored hr
    exact ⟨⟨hstored, hvotes ▸ Collector.sound_empty⟩,
      resume h core core' view hP hlater hstate hvotes⟩

/-- **Every member is kept up**, through all of its processes. -/
theorem Run.kept [LawfulStore σ] {admits : List (Turn σ) → Input → Prop} {store : σ}
    {first core : Core σ} {h : List (Turn σ)} (hcreate : Core.create ctx store = .ok first)
    (hrun : Run ctx admits first h core) : core.Kept ctx :=
  (Run.kept_induction hcreate hrun (P := fun _ _ => True) trivial (fun _ _ _ _ _ => trivial)
    (fun _ _ _ _ _ => trivial) fun _ _ _ _ _ _ _ _ => trivial).1

/-- What is true of every turn of a kept member is true of all turns of any member. -/
theorem Run.forall_turns [LawfulStore σ] {admits : List (Turn σ) → Input → Prop}
    {Q : Turn σ → Prop} {store : σ} {first core : Core σ} {h : List (Turn σ)}
    (hcreate : Core.create ctx store = .ok first) (hrun : Run ctx admits first h core)
    (turn : ∀ t, t.before.Kept ctx → t.Kind ctx → Q t) : ∀ t ∈ h, Q t := by
  refine (Run.kept_induction hcreate hrun (P := fun h _ => ∀ t ∈ h, Q t) ?_ ?_ ?_ ?_).2
  · simp
  · intro h t hbefore hkept hkind t' ht'
    rcases List.mem_append.mp ht' with ht' | ht'
    · exact hbefore t' ht'
    · exact List.mem_singleton.mp ht' ▸ turn t hkept hkind
  · exact fun _ _ _ hbefore _ => hbefore
  · exact fun _ _ _ _ hbefore _ _ _ => hbefore

end HotStuff
