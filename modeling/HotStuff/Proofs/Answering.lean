import HotStuff.Proofs.Admission

/-!
# Answers by State and Collector

What a member does next depends on the state of its replica and on its collector; the store, the
liveness record and the metrics do not matter. So what comes of a message, of the actions that are
left to settle, and of an input is said here for all cores with a given state and collector. Only
the answers to inputs show the progress of the member anew.

## Main definitions

* `Core.Is`, `Core.Shows`: the state and the collector of a core, and that it shows its progress.
* `Core.Gives`, `Core.Calms`, `Core.Answers`: what comes of a message without settling, of settling,
  and of a message from outside.
* `Core.Proposes`: what comes of a proposal.

## Main results

* `Core.Calms.send`: settling, one delivery to oneself at a time.
* `Core.Gives.answers`: what comes of a message is settled for the answer.
-/

namespace HotStuff

namespace Core

variable {σ : Type} [StateStore σ]

/-- The replica is in a state, and the collector is a given one. -/
structure Is (core : Core σ) (s : ReplicaState) (c : Collector) : Prop where
  state : core.replica.state = s
  votes : core.votes = c

/-- A core in a state, with a given collector, that shows the progress it has made. -/
structure Shows (ctx : Context) (core : Core σ) (s : ReplicaState) (c : Collector) : Prop
    extends core.Is s c where
  status : core.status = .of ctx s

section

variable (σ) (ctx : Context) (now : Instant)

/-- **Handling a message**: every core in the first state says the actions and is in the
second state. -/
def Gives (s : ReplicaState) (c : Collector) (message : Message) (actions : List Action)
    (s' : ReplicaState) (c' : Collector) : Prop :=
  ∀ core : Core σ, core.Is s c → ∃ core', core.dispatch ctx now message = .ok (core', actions) ∧
    core'.Is s' c'

/-- **Settling actions** takes no more than a number of deliveries, and some actions go out. -/
def Calms (most : Nat) (s : ReplicaState) (c : Collector) (queue out : List Action)
    (s' : ReplicaState) (c' : Collector) : Prop :=
  ∀ deliveries, most ≤ deliveries → ∀ core : Core σ, core.Is s c →
    ∃ core', core.settle ctx now deliveries queue = .ok (core', out) ∧ core'.Is s' c'

/-- **Answering a message** from outside. -/
def Answers (s : ReplicaState) (c : Collector) (message : Message) (out : List Action)
    (s' : ReplicaState) (c' : Collector) : Prop :=
  ∀ core : Core σ, core.Is s c → ∃ core', core.handle ctx now message = .ok (core', out) ∧
    core'.Shows ctx s' c'

/-- **Proposing data** in the slot of the current view. -/
def Proposes (s : ReplicaState) (c : Collector) (data : Bytes) (out : List Action)
    (s' : ReplicaState) (c' : Collector) : Prop :=
  ∃ slot, Leader.slot? ctx c s = some slot ∧ slot.view = s.view ∧
    ∀ core : Core σ, core.Is s c → ∃ core', core.propose ctx now slot data = .ok (core', out) ∧
      core'.Shows ctx s' c'

end

variable {ctx : Context} {now : Instant} {s s₁ s' : ReplicaState} {c c₁ c' : Collector}
  {message : Message} {actions out rest said later queue : List Action} {most : Nat}

/-! ### Delivery to itself -/

/-- Nothing among some actions is for the member itself. -/
def Quiet (ctx : Context) (actions : List Action) : Prop :=
  ∀ message, .send ctx.me message ∉ actions

omit [StateStore σ] in
/-- Quiet actions in front are passed over. -/
theorem splitAtSelf_append (h : Quiet ctx out) (rest : List Action) :
    splitAtSelf ctx.me (out ++ rest) =
      (out ++ (splitAtSelf ctx.me rest).1, (splitAtSelf ctx.me rest).2) := by
  induction out with
  | nil => rfl
  | cons action out ih =>
      have hout : Quiet ctx out := fun message hmem => h message (List.mem_cons_of_mem _ hmem)
      cases action with
      | send receiver message =>
          have hne : receiver ≠ ctx.me := by
            rintro rfl
            exact h message (List.mem_cons_self ..)
          rw [List.cons_append, splitAtSelf, if_neg hne, ih hout]
          rfl
      | broadcast | execute | resetTimer | notify =>
          rw [List.cons_append, splitAtSelf, ih hout]
          · rfl
          · rintro _ _ ⟨⟩

/-- Quiet actions are settled. -/
theorem Calms.quiet (h : Quiet ctx queue) : Calms σ ctx now 0 s c queue queue s c := by
  intro deliveries _ core his
  refine ⟨core, ?_, his⟩
  cases deliveries with
  | zero => rfl
  | succ deliveries =>
      have hsplit := splitAtSelf_append h []
      rw [List.append_nil] at hsplit
      rw [settle, hsplit]
      simp [splitAtSelf]

/-- More deliveries do not hurt. -/
theorem Calms.mono (h : Calms σ ctx now most s c queue out s' c') {more : Nat} (hle : most ≤ more) :
    Calms σ ctx now more s c queue out s' c' :=
  fun deliveries hmore => h deliveries (hle.trans hmore)

/-- **One delivery to oneself**, and what is left to settle after it. -/
theorem Calms.send (hquiet : Quiet ctx out) (hgives : Gives σ ctx now s c message said s₁ c₁)
    (hlater : Calms σ ctx now most s₁ c₁ (rest ++ said) later s' c') :
    Calms σ ctx now (most + 1) s c (out ++ .send ctx.me message :: rest) (out ++ later) s' c' := by
  intro deliveries hmost core his
  obtain ⟨deliveries, rfl⟩ : ∃ n, deliveries = n + 1 := ⟨deliveries - 1, by omega⟩
  obtain ⟨core₁, hdispatch, his₁⟩ := hgives core his
  obtain ⟨core', hsettle, his'⟩ := hlater deliveries (Nat.le_of_succ_le_succ hmost) core₁ his₁
  refine ⟨core', ?_, his'⟩
  have hsplit : splitAtSelf ctx.me (out ++ .send ctx.me message :: rest) =
      (out, some (message, rest)) := by
    rw [splitAtSelf_append hquiet, splitAtSelf, if_pos rfl, List.append_nil]
  rw [settle, hsplit]
  simp only [hdispatch, hsettle, bind, Except.bind, pure, Except.pure]

/-- Settled actions are routed; the views that are over are forgotten, and progress is shown. -/
theorem Calms.route (h : Calms σ ctx now most s c queue out s' c') (hmost : most ≤ maxDeliveries)
    (core : Core σ) (his : core.Is s c) :
    ∃ core', core.route ctx now queue = .ok (core', out) ∧
      core'.Shows ctx s' (c'.pruneBelow s'.view) := by
  obtain ⟨settled, hsettle, hstate, hvotes⟩ := h maxDeliveries hmost core his
  refine ⟨_, bind_eq_ok.mpr ⟨_, hsettle, rfl⟩, ⟨hstate, ?_⟩, ?_⟩
  · rw [hstate, hvotes]
  · rw [hstate]

/-! ### Answers -/

/-- **What comes of a message is settled for the answer.** -/
theorem Gives.answers (hgives : Gives σ ctx now s c message actions s₁ c₁)
    (hcalms : Calms σ ctx now most s₁ c₁ actions out s' c') (hmost : most ≤ maxDeliveries) :
    Answers σ ctx now s c message out s' (c'.pruneBelow s'.view) := by
  intro core his
  obtain ⟨core₁, hdispatch, his₁⟩ := hgives core his
  obtain ⟨core', hroute, hshows⟩ := hcalms.route hmost core₁ his₁
  exact ⟨core', bind_eq_ok.mpr ⟨_, hdispatch, hroute⟩, hshows⟩

/-- A quiet answer goes out as it is. -/
theorem Gives.answers_quiet (hgives : Gives σ ctx now s c message actions s' c')
    (hquiet : Quiet ctx actions) :
    Answers σ ctx now s c message actions s' (c'.pruneBelow s'.view) :=
  hgives.answers (.quiet hquiet) (Nat.zero_le _)

/-- What is considered and accepted is given. -/
theorem gives_of_consider
    (h : ∀ core : Core σ, core.Is s c → ∃ mid, core.consider ctx message = .ok (.ok actions, mid) ∧
      mid.Is s' c') :
    Gives σ ctx now s c message actions s' c' := by
  intro core his
  obtain ⟨mid, hconsider, hmid⟩ := h core his
  exact ⟨_, bind_eq_ok.mpr ⟨_, hconsider, rfl⟩, hmid.state, hmid.votes⟩

/-- A refused message changes nothing. -/
theorem gives_of_refused
    (h : ∀ core : Core σ, core.Is s c → ∃ cause,
      core.consider ctx message = .ok (.error cause, core)) :
    Gives σ ctx now s c message [] s c := by
  intro core his
  obtain ⟨cause, hconsider⟩ := h core his
  exact ⟨_, bind_eq_ok.mpr ⟨_, hconsider, rfl⟩, his.state, his.votes⟩

/-- An answer of the replica to a proposal. -/
theorem gives_of_onPrepare {signed : SignedStatement} (hphase : signed.body.phase = .prepare)
    (h : ∀ r : Replica σ, r.state = s → ∃ r', r'.state = s' ∧
      r.onPrepare ctx signed = .ok (r', actions)) :
    Gives σ ctx now s c (.statement .prepare signed) actions s' c := by
  refine gives_of_consider fun core his => ?_
  obtain ⟨r', hstate, hanswer⟩ := h core.replica his.state
  have hcheck : checkEnvelope .prepare signed = .ok () := if_pos hphase
  refine ⟨{ core with replica := r' }, ?_, hstate, his.votes⟩
  simp only [consider, hcheck, hanswer, Outcome.ofCheck, answer]

/-- An answer of the replica to what the leader says later. -/
theorem gives_of_onPhase {signed : SignedStatement} {later : Phase}
    (hphase : signed.body.phase = later) (hlater : Phase.prepare < later)
    (h : ∀ r : Replica σ, r.state = s → ∃ r', r'.state = s' ∧
      r.onPhase ctx signed = .ok (r', actions)) :
    Gives σ ctx now s c (.statement later signed) actions s' c := by
  refine gives_of_consider fun core his => ?_
  obtain ⟨r', hstate, hanswer⟩ := h core.replica his.state
  have hcheck : checkEnvelope later signed = .ok () := if_pos hphase
  refine ⟨{ core with replica := r' }, ?_, hstate, his.votes⟩
  cases later with
  | newView | prepare => exact absurd hlater (by decide)
  | preCommit | commit | decide => simp only [consider, hcheck, hanswer, answer]

end Core

end HotStuff
