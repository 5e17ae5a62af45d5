import HotStuff.Proofs.Conduct
import HotStuff.Proofs.Scenario

/-!
# A Core at Rest

Between two inputs a core is at rest: it shows how far it has come, it holds no view that is over,
and its ballots are sound. Nothing is assumed about the inputs, nor about the store, which may hold
anything at first and may refuse to save. So this is true of every state a process can be in when
the next message arrives, and of a process that was restarted on whatever an earlier one left.

## Main definitions

* `Core.Onward`, `Core.Reached`: from one input to the next, and from the creation on.
* `Core.AtRest`: what is true between two inputs.

## Main results

* `Core.Reached.induction`: what is true of every core that a process comes to.
* `Core.Reached.atRest`: every core that a process comes to is at rest.
* `Core.AtRest.route_nil`: a core at rest that has nothing to do stays as it is.
-/

namespace HotStuff

namespace Core

variable {σ : Type} [StateStore σ] {ctx : Context} {core core' : Core σ} {now : Instant}

/-- **From one input to the next**: the cores that a process comes to by its answers. -/
inductive Onward (ctx : Context) (core : Core σ) : Core σ → Prop
  | refl : Onward ctx core core
  | answer {mid core' now input out} (honward : Onward ctx core mid)
      (h : mid.react ctx now input = .ok (core', out)) : Onward ctx core core'

/-- **The cores that a process comes to**, on a store that holds anything. -/
def Reached (ctx : Context) (core : Core σ) : Prop :=
  ∃ (store : σ) (first : Core σ), Core.create ctx store = .ok first ∧ first.Onward ctx core

/-- **A core at rest.** -/
structure AtRest (ctx : Context) (core : Core σ) : Prop where
  /-- It shows the progress of its replica. -/
  shown : core.status = Status.of ctx core.replica.state
  /-- It holds no view that is over. -/
  current : ∀ view ∈ core.votes.rounds.keys, core.replica.state.view ≤ view
  sound : core.votes.Sound ctx Evidence.none.voted

/-! ### What every turn keeps -/

section Kept

variable {P : Core σ → Prop} (turn : ∀ t : Turn σ, t.Kind ctx → P t.before → P t.after)

include turn

/-- What every turn keeps is kept by the delivery of messages to itself. -/
theorem kept_of_selfTurns {deliveries : Nat} {queue : List Action} (hP : P core) :
    P (lastOf core (core.selfTurns ctx now deliveries queue)) := by
  induction deliveries generalizing core queue with
  | zero => exact hP
  | succ deliveries ih =>
      rw [selfTurns]
      split
      · exact hP
      · next message rest _ =>
          split
          · exact hP
          · next core' said hdispatch =>
              exact ih (turn ⟨core, .message message, said, core'⟩ (kind_of_take hdispatch) hP)

/-- What every turn keeps is kept by the turns of an input. -/
theorem kept_of_turns (input : Input) (hP : P core) :
    P (lastOf core (core.turns ctx now input)) := by
  rw [turns]
  split
  · exact hP
  · next core' said htake =>
      exact kept_of_selfTurns turn (turn ⟨core, input, said, core'⟩ (kind_of_take htake) hP)

/-- **Induction on a process.** What a core is created with, and every turn and tidying up keep, is
true of every core that a process comes to. -/
theorem Reached.induction (create : ∀ store core, Core.create ctx store = .ok core → P core)
    (tidy : ∀ core core', P core → core.Tidied core' → P core') (hreached : core.Reached ctx) :
    P core := by
  obtain ⟨store, first, hcreate, honward⟩ := hreached
  induction honward with
  | refl => exact create store first hcreate
  | answer _ h ih =>
      rcases (react_ok h).1 with hlast | htidied
      · exact hlast ▸ kept_of_turns turn _ ih
      · exact tidy _ _ (kept_of_turns turn _ ih) htidied

end Kept

/-- Whatever a turn is about, it keeps the ballots sound. -/
theorem sound_of_kind {t : Turn σ} (hkind : t.Kind ctx)
    (hsound : t.before.votes.Sound ctx Evidence.none.voted) :
    t.after.votes.Sound ctx Evidence.none.voted := by
  cases Turn.collects_of_kind hkind with
  | nothing hvotes => rwa [hvotes]
  | announcement _ hentry => exact (hsound.congr (Leader.onNewView_spec hentry)).1
  | vote _ hcount => exact (Leader.onVote_spec hsound hcount fun _ => trivial).1
  | proposal _ hpropose => exact (Leader.propose_spec hsound hpropose).1

/-! ### Answers -/

/-- A core whose ballots are sound is at rest when its actions are routed. -/
theorem atRest_of_route {queue out : List Action}
    (hsound : (lastOf core (core.selfTurns ctx now maxDeliveries queue)).votes.Sound ctx
      Evidence.none.voted)
    (h : core.route ctx now queue = .ok (core', out)) : core'.AtRest ctx := by
  rw [route, bind_eq_ok] at h
  obtain ⟨⟨settled, out'⟩, hsettle, h⟩ := h
  obtain ⟨rfl, rfl⟩ := Prod.mk.inj (Except.ok.inj h)
  obtain ⟨rfl, -, -⟩ := settle_ok hsettle
  refine ⟨rfl, ?_, hsound.pruneBelow _⟩
  intro view hview
  exact of_decide_eq_true ((Table.mem_keys_retain _ _ view).mp hview).2

/-- **Every answer leaves the core at rest.** -/
theorem AtRest.react {input : Input} {out : List Action} (hrest : core.AtRest ctx)
    (h : core.react ctx now input = .ok (core', out)) : core'.AtRest ctx := by
  have hsound : (lastOf core (core.turns ctx now input)).votes.Sound ctx Evidence.none.voted :=
    kept_of_turns (P := fun core => core.votes.Sound ctx Evidence.none.voted)
      (fun _ => sound_of_kind) input hrest.sound
  obtain ⟨first, said, htake, hroute | ⟨-, rfl, -, rfl⟩⟩ := react_eq h
  · rw [turns_of_ok htake] at hsound
    exact atRest_of_route hsound hroute
  · exact hrest

/-- A core is created at rest. -/
theorem atRest_of_create {store : σ} (hcreate : Core.create ctx store = .ok core) :
    core.AtRest ctx := by
  obtain ⟨r, -, h⟩ := bind_eq_ok.mp hcreate
  obtain rfl := Except.ok.inj h
  refine ⟨rfl, ?_, Collector.sound_empty⟩
  rintro view ⟨⟩

/-- **Every core that a process comes to is at rest.** -/
theorem Reached.atRest (hreached : core.Reached ctx) : core.AtRest ctx := by
  obtain ⟨store, first, hcreate, honward⟩ := hreached
  induction honward with
  | refl => exact atRest_of_create hcreate
  | answer _ h ih => exact ih.react h

/-- **A core at rest that has nothing to do stays as it is.** There is no view to forget, and no
progress to show. -/
theorem AtRest.route_nil (hrest : core.AtRest ctx) :
    core.route ctx now [] = .ok (core, []) := by
  have hvotes : core.votes.pruneBelow core.replica.state.view = core.votes := by
    have hkept : core.votes.rounds.retain (fun view => decide (core.replica.state.view ≤ view)) =
        core.votes.rounds :=
      Table.retain_eq_self fun view hview => decide_eq_true (hrest.current view hview)
    rw [Collector.pruneBelow, hkept]
  have hsettle : core.settle ctx now maxDeliveries [] = .ok (core, []) := rfl
  simp only [route, hsettle, bind, Except.bind, pure, Except.pure, hvotes, ← hrest.shown,
    Metrics.observe, List.foldl_nil]

/-- **A message of which nothing comes** changes no more than liveness and metrics. -/
theorem AtRest.handle_of_dispatch {message : Message} {liveness : Liveness} {metrics : Metrics}
    (hrest : core.AtRest ctx)
    (hdispatch : core.dispatch ctx now message = .ok ({ core with liveness, metrics }, [])) :
    core.handle ctx now message = .ok ({ core with liveness, metrics }, []) := by
  have hrest' : AtRest ctx { core with liveness, metrics } :=
    ⟨hrest.shown, hrest.current, hrest.sound⟩
  have hroute : route ctx { core with liveness, metrics } now [] = .ok (_, []) := hrest'.route_nil
  rw [handle, hdispatch]
  exact hroute

/-- **A core at rest that refuses a message** counts it as dropped, and has nothing to do. -/
theorem AtRest.handle_refused {message : Message} {cause : Error} (hrest : core.AtRest ctx)
    (hrefused : core.consider ctx message = .ok (.error cause, core)) :
    core.handle ctx now message =
      .ok ({ core with metrics := core.metrics.messageDropped message.kind }, []) := by
  refine hrest.handle_of_dispatch ?_
  rw [dispatch, hrefused]
  rfl

/-- **A core at rest that accepts a message with nothing to do** has heard from its signer. -/
theorem AtRest.handle_accepted {message : Message} (hrest : core.AtRest ctx)
    (haccepted : core.consider ctx message = .ok (.ok [], core)) :
    core.handle ctx now message =
      .ok ({ core with
        liveness := core.liveness.record ctx.committee now message.signer }, []) := by
  refine hrest.handle_of_dispatch ?_
  rw [dispatch, haccepted]
  rfl

/-! ### Scripts of inputs -/

/-- The core after some inputs, if it answers them all. -/
def after (ctx : Context) (core : Core σ) : List Input → Option (Core σ)
  | [] => some core
  | input :: inputs =>
    match core.react ctx 0 input with
    | .ok (core', _) => core'.after ctx inputs
    | .error _ => none

/-- What a core comes to on some inputs is one that it comes to by its answers. -/
theorem Onward.after {mid : Core σ} {inputs : List Input} (honward : core.Onward ctx mid)
    (h : mid.after ctx inputs = some core') : core.Onward ctx core' := by
  induction inputs generalizing mid with
  | nil =>
      obtain rfl := Option.some.inj h
      exact honward
  | cons input inputs ih =>
      rw [Core.after] at h
      split at h
      · next hreact => exact ih (.answer honward hreact) h
      · cases h

/-- What is computed of a fresh core after some inputs holds of one that a process comes to. -/
theorem exists_reached (ctx : Context) {P : Core MemoryStore → Prop} [DecidablePred P]
    {inputs : List Input}
    (h : ((Core.fresh ctx).after ctx inputs).map (fun core => decide (P core)) = some true) :
    ∃ core, core.Reached ctx ∧ P core := by
  obtain ⟨core, hafter, hP⟩ := Option.map_eq_some_iff.mp h
  exact ⟨core, ⟨{}, _, create_fresh ctx, Onward.refl.after hafter⟩, of_decide_eq_true hP⟩

end Core

end HotStuff
