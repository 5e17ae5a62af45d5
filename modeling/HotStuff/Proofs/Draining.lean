import HotStuff.Proofs.Limits
import HotStuff.Proofs.Slots

/-!
# Draining the Queue

What a core says in answer to an input goes through a queue. The loop takes the actions from its
front: one that is for the member itself is handled, and what comes of it joins the queue at the
end; any other one goes out. Nothing in the loop bounds the number of passes. `Core.settle` has a
bound, and finds the messages to the member itself by splitting the queue; here the loop is written
down pass by pass, with no bound, and the two are the same. A pass either delivers, which lowers the
weight of what is left to deliver, or shortens the queue. What an input leaves weighs four at most.

## Main definitions

* `Draining`, `Draining.Pass`: the loop between two passes, and one pass of it.
* `Draining.Passes`: several passes, with the actions taken and the deliveries made.
* `Draining.Halts`: a delivery overflows.
* `Draining.Answers`: what an answer consists of.

## Main results

* `Draining.wellFounded_pass`: the loop comes to an end from every state.
* `Draining.Passes.books`: what was taken is what went out and what was delivered.
* `Draining.Passes.settle_eq_ok`, `Draining.Passes.settle_eq_error`: the loop does what settling
  does.
* `self_delivery_ends`: an input leads to four deliveries at most, and what its answer consists of.
-/

namespace HotStuff

/-- The message that an action sends to `me`. -/
def Action.toSelf? (me : MemberId) : Action → Option Message
  | .send receiver message => if receiver = me then some message else none
  | _ => none

/-- The actions for the member itself are what it sends to itself. -/
theorem Action.toSelf?_eq_some {me : MemberId} {action : Action} {message : Message} :
    action.toSelf? me = some message ↔ action = .send me message := by
  cases action with
  | send receiver sent =>
      rw [toSelf?]
      split
      · next heq => simp [heq]
      · next hne => simp [hne]
  | broadcast | execute | resetTimer | notify => simp [toSelf?]

/-- All other actions are for someone else. -/
theorem Action.toSelf?_eq_none {me : MemberId} {action : Action} :
    action.toSelf? me = none ↔ ∀ message, action ≠ .send me message := by
  simp only [Option.eq_none_iff_forall_ne_some, ne_eq, toSelf?_eq_some]

/-- An action for someone else weighs nothing. -/
theorem Action.weight_of_toSelf? {me : MemberId} {here : View} {action : Action}
    (h : action.toSelf? me = none) : action.weight me here = 0 := by
  cases action with
  | send receiver message =>
      rw [toSelf?] at h
      split at h
      · cases h
      · next hne => exact if_neg hne
  | broadcast | execute | resetTimer | notify => rfl

/-- Without a message to oneself there is no weight. -/
theorem weightIn_eq_zero {me : MemberId} {here : View} {actions : List Action}
    (h : ∀ message, .send me message ∉ actions) : weightIn me here actions = 0 := by
  induction actions with
  | nil => rfl
  | cons action actions ih =>
      have hother : action.toSelf? me = none :=
        Action.toSelf?_eq_none.mpr fun message heq => h message (heq ▸ List.mem_cons_self ..)
      rw [weightIn_light_cons (Action.weight_of_toSelf? hother)]
      exact ih fun message hmem => h message (List.mem_cons_of_mem _ hmem)

/-- **The loop between two passes**: the core, what is queued, and what has gone out. -/
structure Draining (σ : Type) where
  core : Core σ
  queue : List Action
  out : List Action

namespace Draining

variable {σ : Type} [StateStore σ] (ctx : Context) (now : Instant)

/-- **One pass of the loop** takes the first action of the queue. One for the member itself is
delivered, which is a turn; any other one goes out. -/
inductive Pass : Draining σ → Action → List (Turn σ) → Draining σ → Prop
  | keep {core action queue out} (hother : action.toSelf? ctx.me = none) :
      Pass ⟨core, action :: queue, out⟩ action [] ⟨core, queue, out ++ [action]⟩
  | deliver {core action queue out message core' said}
      (hself : action.toSelf? ctx.me = some message)
      (hdispatch : core.dispatch ctx now message = .ok (core', said)) :
      Pass ⟨core, action :: queue, out⟩ action [⟨core, .message message, said, core'⟩]
        ⟨core', queue ++ said, out⟩

/-- **Passes of the loop**, with the actions taken and the deliveries made in them. -/
inductive Passes : Draining σ → List Action → List (Turn σ) → Draining σ → Prop
  | refl (s) : Passes s [] [] s
  | head {s action ts mid taken ts' last} (hpass : Pass ctx now s action ts mid)
      (hrest : Passes mid taken ts' last) : Passes s (action :: taken) (ts ++ ts') last

/-- **The loop halts**: the next delivery overflows. -/
def Halts (s : Draining σ) (o : Overflow) : Prop :=
  ∃ action queue message, s.queue = action :: queue ∧ action.toSelf? ctx.me = some message ∧
    s.core.dispatch ctx now message = .error o

/-- How many deliveries the loop can still come to. -/
def weight (s : Draining σ) : Nat := weightIn ctx.me s.core.replica.state.view s.queue

variable {ctx now} {s mid last : Draining σ} {action : Action} {taken : List Action}
  {ts : List (Turn σ)} {o : Overflow}

/-! ### One pass -/

/-- **The books of the loop**: each action that was asked for or said on the way was taken or is
still queued, in its order; of those taken, the ones for others went out and the ones for the member
itself were delivered. -/
structure Books (ctx : Context) (s : Draining σ) (taken : List Action) (ts : List (Turn σ))
    (last : Draining σ) : Prop where
  queued : taken ++ last.queue = s.queue ++ saidOf ts
  kept : last.out = s.out ++ taken.filter fun action => (action.toSelf? ctx.me).isNone
  delivered : ts.map Turn.input = (taken.filterMap (Action.toSelf? ctx.me)).map Input.message

/-- **The books are kept** by one pass: its action leaves the queue, and goes out or is
delivered. -/
theorem Pass.books (h : Pass ctx now s action ts mid) : Books ctx s [action] ts mid := by
  cases h with
  | keep hother =>
      refine ⟨(List.append_nil _).symm, ?_, ?_⟩
      · rw [List.filter_cons_of_pos (by simp [hother]), List.filter_nil]
      · rw [List.filterMap_cons_none hother, List.filterMap_nil]
        rfl
  | @deliver core _ queue out message core' said hself _ =>
      refine ⟨?_, ?_, ?_⟩
      · rw [saidOf_singleton]
        rfl
      · rw [List.filter_cons_of_neg (by simp [hself]), List.filter_nil, List.append_nil]
      · rw [List.filterMap_cons_some hself, List.filterMap_nil]
        rfl

/-- A delivery lowers the weight, and any other pass keeps it. -/
theorem Pass.weight_le (h : Pass ctx now s action ts mid) :
    ts.length + mid.weight ctx ≤ s.weight ctx := by
  cases h with
  | keep hother =>
      rw [weight, weight, weightIn_light_cons (Action.weight_of_toSelf? hother)]
      exact Nat.le_of_eq (Nat.zero_add _)
  | @deliver core _ queue out message core' said hself hdispatch =>
      obtain rfl := Action.toSelf?_eq_some.mp hself
      have hsplit : Core.splitAtSelf ctx.me (.send ctx.me message :: queue) =
          ([], some (message, queue)) := if_pos rfl
      have hless : weightIn ctx.me core'.replica.state.view (queue ++ said) <
          weightIn ctx.me core.replica.state.view (.send ctx.me message :: queue) :=
        Core.weight_after_delivery hsplit hdispatch
      rw [weight, weight, List.length_singleton, Nat.add_comm]
      exact hless

/-- **The loop comes to an end** from every state: a pass lowers the weight, or keeps it and
shortens the queue. -/
theorem wellFounded_pass (ctx : Context) (now : Instant) :
    WellFounded fun later s : Draining σ => ∃ action ts, Pass ctx now s action ts later := by
  refine Subrelation.wf ?_ (invImage (fun s : Draining σ => (s.weight ctx, s.queue.length))
    Prod.instWellFoundedRelation).wf
  rintro later s ⟨action, ts, hpass⟩
  have hweight := hpass.weight_le
  cases hpass with
  | keep hother =>
      rw [List.length_nil, Nat.zero_add] at hweight
      rcases Nat.lt_or_eq_of_le hweight with hlt | heq
      · exact Prod.Lex.left _ _ hlt
      · exact Prod.Lex.right' _ hweight (Nat.lt_succ_self _)
  | deliver =>
      rw [List.length_singleton, Nat.add_comm] at hweight
      exact Prod.Lex.left _ _ hweight

/-- There is a next pass, or the queue is empty, or the loop halts. -/
theorem exists_pass (ctx : Context) (now : Instant) (s : Draining σ) :
    s.queue = [] ∨ (∃ o, s.Halts ctx now o) ∨ ∃ action ts mid, Pass ctx now s action ts mid := by
  obtain ⟨core, queue, out⟩ := s
  cases queue with
  | nil => exact Or.inl rfl
  | cons action queue =>
      right
      cases hself : action.toSelf? ctx.me with
      | none => exact Or.inr ⟨_, _, _, .keep hself⟩
      | some message =>
          cases hdispatch : core.dispatch ctx now message with
          | error o => exact Or.inl ⟨o, action, queue, message, rfl, hself, hdispatch⟩
          | ok result => exact Or.inr ⟨_, _, _, .deliver hself hdispatch⟩

/-! ### All passes -/

omit [StateStore σ] in
/-- Books that are kept by some passes and by those after them are kept by all. -/
theorem Books.trans {taken' : List Action} {ts' : List (Turn σ)} (h : Books ctx s taken ts mid)
    (h' : Books ctx mid taken' ts' last) : Books ctx s (taken ++ taken') (ts ++ ts') last where
  queued := by
    rw [List.append_assoc, h'.queued, ← List.append_assoc, h.queued, saidOf_append,
      List.append_assoc]
  kept := by rw [h'.kept, h.kept, List.filter_append, List.append_assoc]
  delivered := by
    rw [List.map_append, h.delivered, h'.delivered, List.filterMap_append, List.map_append]

/-- **The books are kept** through all passes. -/
theorem Passes.books (h : Passes ctx now s taken ts last) : Books ctx s taken ts last := by
  induction h with
  | refl s => exact ⟨(List.append_nil _).symm, (List.append_nil _).symm, rfl⟩
  | head hpass _ ih => exact hpass.books.trans ih

/-- There are no more deliveries than the queue weighs. -/
theorem Passes.weight_le (h : Passes ctx now s taken ts last) :
    ts.length + last.weight ctx ≤ s.weight ctx := by
  induction h with
  | refl s => exact Nat.le_of_eq (Nat.zero_add _)
  | head hpass _ ih =>
      have hle := hpass.weight_le
      rw [List.length_append]
      omega

/-- **The loop ends** with an empty queue, or halts. -/
theorem exists_end (ctx : Context) (now : Instant) (s : Draining σ) :
    ∃ taken ts last, Passes ctx now s taken ts last ∧
      (last.queue = [] ∨ ∃ o, last.Halts ctx now o) := by
  apply (wellFounded_pass ctx now).induction s
  intro s ih
  rcases exists_pass ctx now s with hempty | hhalts | ⟨action, ts, mid, hpass⟩
  · exact ⟨[], [], s, .refl s, Or.inl hempty⟩
  · exact ⟨[], [], s, .refl s, Or.inr hhalts⟩
  · obtain ⟨taken, ts', last, hpasses, hend⟩ := ih mid ⟨action, ts, hpass⟩
    exact ⟨_, _, last, .head hpass hpasses, hend⟩

/-! ### Settling -/

/-- An action for someone else makes no turn. -/
theorem selfTurns_keep {core : Core σ} {queue : List Action} {deliveries : Nat}
    (hother : action.toSelf? ctx.me = none) :
    core.selfTurns ctx now deliveries (action :: queue) =
      core.selfTurns ctx now deliveries queue := by
  have hne : ∀ message, action ≠ .send ctx.me message := Action.toSelf?_eq_none.mp hother
  cases deliveries with
  | zero => rfl
  | succ deliveries =>
      rw [Core.selfTurns, Core.selfTurns, Core.splitAtSelf_cons hne]
      cases Core.splitAtSelf ctx.me queue with
      | mk before found =>
      cases found with
      | none => rfl
      | some found => rfl

/-- An action for someone else goes out before what settling the rest of the queue brings. -/
theorem settle_keep {core : Core σ} {queue : List Action} {deliveries : Nat}
    (hother : action.toSelf? ctx.me = none) :
    core.settle ctx now deliveries (action :: queue) =
      (core.settle ctx now deliveries queue).map fun result => (result.1, action :: result.2) := by
  have hne : ∀ message, action ≠ .send ctx.me message := Action.toSelf?_eq_none.mp hother
  cases deliveries with
  | zero => rfl
  | succ deliveries =>
      rw [Core.settle, Core.settle, Core.splitAtSelf_cons hne]
      cases Core.splitAtSelf ctx.me queue with
      | mk before found =>
      cases found with
      | none => rfl
      | some found =>
          simp only
          cases core.dispatch ctx now found.1 with
          | error o => rfl
          | ok result =>
          simp only [bind, Except.bind]
          cases result.1.settle ctx now deliveries (found.2 ++ result.2) with
          | error o => rfl
          | ok result' => rfl

/-- A delivery is the first turn, and what it says is queued behind the rest. -/
theorem selfTurns_deliver {core core' : Core σ} {queue said : List Action} {message : Message}
    (deliveries : Nat) (hdispatch : core.dispatch ctx now message = .ok (core', said)) :
    core.selfTurns ctx now (deliveries + 1) (.send ctx.me message :: queue) =
      ⟨core, .message message, said, core'⟩ ::
        core'.selfTurns ctx now deliveries (queue ++ said) := by
  have hsplit : Core.splitAtSelf ctx.me (.send ctx.me message :: queue) =
      ([], some (message, queue)) := if_pos rfl
  exact Core.selfTurns_of_some hsplit hdispatch

/-- Settling begins with the delivery of a message that is first in the queue. -/
theorem settle_deliver {core : Core σ} {queue : List Action} {message : Message}
    (deliveries : Nat) :
    core.settle ctx now (deliveries + 1) (.send ctx.me message :: queue) =
      core.dispatch ctx now message >>= fun result =>
        result.1.settle ctx now deliveries (queue ++ result.2) := by
  rw [Core.settle, Core.splitAtSelf, if_pos rfl]
  simp only [bind, Except.bind]
  cases core.dispatch ctx now message with
  | error o => rfl
  | ok result =>
  simp only
  cases result.1.settle ctx now deliveries (queue ++ result.2) with
  | error o => rfl
  | ok result' => rfl

/-- **Settling what is left of the loop** is settling what there was, but for what has gone out and
been delivered. -/
structure Settles (ctx : Context) (now : Instant) (s : Draining σ) (deliveries : Nat)
    (ts : List (Turn σ)) (last : Draining σ) (left : Nat) (kept : List Action) : Prop where
  enough : last.weight ctx ≤ left
  out : last.out = s.out ++ kept
  turns : s.core.selfTurns ctx now deliveries s.queue =
    ts ++ last.core.selfTurns ctx now left last.queue
  settles : s.core.settle ctx now deliveries s.queue =
    (last.core.settle ctx now left last.queue).map fun result => (result.1, kept ++ result.2)

/-- **One pass** leaves to be settled what it has not settled itself, and leaves deliveries enough
for it. -/
theorem Pass.settles {deliveries : Nat} (h : Pass ctx now s action ts mid)
    (hweight : s.weight ctx ≤ deliveries) :
    ∃ left kept, Settles ctx now s deliveries ts mid left kept := by
  have hlower := h.weight_le
  cases h with
  | keep hother =>
      rw [List.length_nil, Nat.zero_add] at hlower
      exact ⟨deliveries, [action], hlower.trans hweight, rfl, selfTurns_keep hother,
        settle_keep hother⟩
  | @deliver core _ queue out message core' said hself hdispatch =>
      rw [List.length_singleton, Nat.add_comm] at hlower
      obtain rfl := Action.toSelf?_eq_some.mp hself
      cases deliveries with
      | zero => exact absurd (hlower.trans hweight) (Nat.not_succ_le_zero _)
      | succ deliveries =>
          refine ⟨deliveries, [], Nat.le_of_succ_le_succ (hlower.trans hweight),
            (List.append_nil _).symm, selfTurns_deliver deliveries hdispatch, ?_⟩
          rw [settle_deliver, hdispatch]
          exact (congrFun Except.map_id _).symm

/-- **Settling follows the loop** through all passes. -/
theorem Passes.settles {deliveries : Nat} (h : Passes ctx now s taken ts last)
    (hweight : s.weight ctx ≤ deliveries) :
    ∃ left kept, Settles ctx now s deliveries ts last left kept := by
  induction h generalizing deliveries with
  | refl s =>
      exact ⟨deliveries, [], hweight, (List.append_nil _).symm, rfl,
        (congrFun Except.map_id _).symm⟩
  | @head s action ts mid taken ts' last hpass _ ih =>
      obtain ⟨left, kept, hfirst⟩ := hpass.settles hweight
      obtain ⟨left', kept', hrest⟩ := ih hfirst.enough
      refine ⟨left', kept ++ kept', hrest.enough, ?_, ?_, ?_⟩
      · rw [hrest.out, hfirst.out, List.append_assoc]
      · rw [hfirst.turns, hrest.turns, List.append_assoc]
      · rw [hfirst.settles, hrest.settles]
        cases last.core.settle ctx now left' last.queue with
        | error o => rfl
        | ok result => simp only [Except.map, List.append_assoc]

/-- **Where the loop ends with an empty queue**, settling comes to the same core and the same
actions, by the same deliveries. -/
theorem Passes.settle_eq_ok {core : Core σ} {queue : List Action} {deliveries : Nat}
    (h : Passes ctx now ⟨core, queue, []⟩ taken ts last) (hempty : last.queue = [])
    (hweight : weightIn ctx.me core.replica.state.view queue ≤ deliveries) :
    core.selfTurns ctx now deliveries queue = ts ∧
      core.settle ctx now deliveries queue = .ok (last.core, last.out) := by
  obtain ⟨left, kept, hsettles⟩ := h.settles hweight
  obtain ⟨-, hout, hturns, hsettle⟩ := hsettles
  rw [hempty] at hturns hsettle
  have hnothing : last.core.settle ctx now left [] = .ok (last.core, []) := by
    cases left <;> rfl
  refine ⟨?_, ?_⟩
  · rw [hturns, Core.selfTurns_nil, List.append_nil]
  · rw [hsettle, hnothing, hout]
    exact congrArg (fun kept => Except.ok (last.core, kept)) (List.append_nil _)

/-- **Where the loop halts**, so does settling, after the same deliveries. -/
theorem Passes.settle_eq_error {core : Core σ} {queue : List Action} {deliveries : Nat}
    (h : Passes ctx now ⟨core, queue, []⟩ taken ts last) (hhalts : last.Halts ctx now o)
    (hweight : weightIn ctx.me core.replica.state.view queue ≤ deliveries) :
    core.selfTurns ctx now deliveries queue = ts ∧
      core.settle ctx now deliveries queue = .error o := by
  obtain ⟨left, kept, hsettles⟩ := h.settles hweight
  obtain ⟨henough, -, hturns, hsettle⟩ := hsettles
  obtain ⟨action, rest, message, hqueue, hself, hdispatch⟩ := hhalts
  obtain rfl := Action.toSelf?_eq_some.mp hself
  have hpos : 0 < message.weight last.core.replica.state.view := message.weight_pos
  obtain ⟨left, rfl⟩ : ∃ n, left = n + 1 := by
    simp only [weight, hqueue, weightIn_cons, Action.weight, if_true] at henough
    exact Nat.exists_eq_add_one.mpr (by omega)
  rw [hqueue] at hturns hsettle
  refine ⟨?_, ?_⟩
  · rw [hturns, Core.selfTurns, Core.splitAtSelf, if_pos rfl]
    simp only [hdispatch, List.append_nil]
  · rw [hsettle, settle_deliver, hdispatch]
    rfl

end Draining

/-! ### Answers -/

namespace Core

variable {σ : Type} [StateStore σ] {ctx : Context} {core first : Core σ} {now : Instant}
  {input : Input} {said : List Action} {o : Overflow}

/-- A message overflows only at the last height. -/
theorem height_of_dispatch_error {message : Message}
    (h : core.dispatch ctx now message = .error o) :
    Height.next? core.replica.state.height = none := by
  have hconsider : core.consider ctx message = .error o := by
    cases hconsider : core.consider ctx message with
    | error o' =>
        rw [dispatch, hconsider] at h
        obtain rfl := Except.error.inj h
        rfl
    | ok result =>
        rw [dispatch, hconsider] at h
        obtain ⟨answer, mid⟩ := result
        cases answer <;> cases h
  have hanswer {outcome : Outcome (Replica σ × List Action)}
      (hover : core.answer outcome = .error o) : outcome = .error (.overflow o) := by
    cases outcome with
    | ok result => cases hover
    | error failure =>
        cases failure with
        | refused cause => cases hover
        | overflow o' =>
            obtain rfl := Except.error.inj hover
            rfl
  cases message with
  | vote vote =>
      rw [consider, onVote] at hconsider
      cases hcount : Leader.onVote ctx core.votes core.replica.state.view vote with
      | mk said votes =>
      rw [hcount] at hconsider
      rcases said with cause | _ | next
      · cases hconsider
      · cases hconsider
      · simp only at hconsider
        split at hconsider
        · cases hconsider
        · cases hconsider
        · next o' happly =>
            obtain ⟨-, -, -, -, hheight⟩ := Replica.applyPhase_eq_overflow happly
            exact hheight
  | statement envelope signed =>
      simp only [consider] at hconsider
      split at hconsider
      · cases hconsider
      cases envelope with
      | newView =>
          simp only at hconsider
          split at hconsider <;> cases hconsider
      | prepare =>
          have hover : core.replica.answer ctx (.prepare signed) = .error (.overflow o) :=
            hanswer hconsider
          exact (Replica.answer_eq_overflow hover).2.2
      | preCommit | commit | decide =>
          have hover : core.replica.answer ctx (.phase signed) = .error (.overflow o) :=
            hanswer hconsider
          exact (Replica.answer_eq_overflow hover).2.2

/-- What comes of an input is its first turn, routed; only a proposal of which nothing comes is left
at that. -/
theorem react_of_take (h : core.take ctx now input = .ok (first, said)) :
    core.react ctx now input = first.route ctx now said ∨
      said = [] ∧ core.react ctx now input = .ok (first, []) := by
  cases input with
  | start =>
      obtain ⟨rfl, rfl⟩ := Prod.mk.inj (Except.ok.inj h)
      exact Or.inl rfl
  | timeout =>
      obtain ⟨rfl, rfl⟩ := Prod.mk.inj (Except.ok.inj h)
      exact Or.inl rfl
  | message message =>
      have hdispatch : core.dispatch ctx now message = .ok (first, said) := h
      exact Or.inl (by rw [react, handle, hdispatch]; rfl)
  | propose slot data =>
      rw [take] at h
      cases hoffer : core.offer ctx slot data with
      | none =>
          rw [hoffer] at h
          obtain ⟨rfl, rfl⟩ := Prod.mk.inj (Except.ok.inj h)
          exact Or.inr ⟨rfl, by rw [react, propose, hoffer]⟩
      | some result =>
          rw [hoffer] at h
          obtain rfl := Except.ok.inj h
          exact Or.inl (by rw [react, propose, hoffer])

end Core

/-! ### Room for what follows an input -/

section Room

variable {σ : Type} [StateStore σ] {ctx : Context}

/-- A commit leaves room, or says nothing to anyone. -/
theorem Replica.commit_hasRoom {r : Replica σ} {cert : Certificate}
    {answer : Replica σ × List Action} (h : r.commit ctx cert = .ok answer) :
    answer.1.HasRoom ∨ messagesIn answer.2 = [] := by
  rw [commit] at h
  split at h
  · cases h
  next height _ =>
  obtain rfl := Except.ok.inj h
  let committed : Replica σ := { r with state := { r.state with
    committed := ctx.scheme.payloadDigest cert.payload, height } }
  have hleft : (committed.leave ctx cert.view).1.HasRoom ∨
      messagesIn (committed.leave ctx cert.view).2 = [] := by
    rw [leave]
    split
    · split
      · next hlater =>
          rw [enterView_of_lt hlater]
          exact Or.inl (Or.inr (Or.inl rfl))
      · exact Or.inr rfl
    · exact Or.inr rfl
  exact hleft

/-- **Where the next decision can be counted**, every answer leaves room, or says nothing to
anyone. -/
theorem Replica.answer_hasRoom {r r' : Replica σ} {call : Call} {said : List Action}
    (h : r.answer ctx call = .ok (r', said)) (hheight : Height.next? r.state.height ≠ none) :
    r'.HasRoom ∨ messagesIn said = [] := by
  have hroom : r.HasRoom := Or.inl hheight
  have happlied {st : Statement} (happly : r.applyPhase ctx st = .ok (r', said)) : r'.HasRoom := by
    rcases applyPhase_hasRoom ctx hroom st with ⟨cause, hrefused⟩ | ⟨answer, hok, hleft⟩
    · cases hrefused.symm.trans happly
    · obtain rfl := Except.ok.inj (hok.symm.trans happly)
      exact hleft
  cases call with
  | announce =>
      obtain ⟨rfl, -⟩ := Prod.mk.inj (Except.ok.inj h)
      exact Or.inl hroom
  | enter view =>
      have hentered : (r.enterView ctx view).1.HasRoom := enterView_hasRoom hroom view
      rw [Except.ok.inj h] at hentered
      exact Or.inl hentered
  | timeout =>
      have hanswer : r.onTimeout ctx = (r', said) := Except.ok.inj h
      rw [onTimeout] at hanswer
      split at hanswer
      · next next _ =>
          obtain ⟨rfl, -⟩ := Prod.mk.inj hanswer
          exact Or.inl (enterView_hasRoom hroom next)
      · obtain ⟨rfl, -⟩ := Prod.mk.inj hanswer
        exact Or.inl hroom
  | prepare msg =>
      have hsame := height_of_onPrepare (Outcome.ofCheck_eq_ok.mp h)
      exact Or.inl (Or.inl (hsame ▸ hheight))
  | phase msg =>
      rcases onPhase_ok h with ⟨-, -, hcommit⟩ | ⟨-, happly⟩
      · exact commit_hasRoom hcommit
      · exact Or.inl (happlied happly)
  | apply st => exact Or.inl (happlied h)

/-- A turn leaves room, or says nothing to the member itself. -/
theorem Turn.hasRoom_of_kind {t : Turn σ} (hkind : t.Kind ctx)
    (hheight : Height.next? t.before.replica.state.height ≠ none) :
    t.after.replica.HasRoom ∨ ∀ message, .send ctx.me message ∉ t.said := by
  have hsilent {as : List Action} (h : messagesIn as = []) (message : Message) :
      .send ctx.me message ∉ as := fun hsend =>
    List.not_mem_nil (h ▸ mem_messagesIn_of_send hsend)
  have hstays (h : t.after.replica = t.before.replica) : t.after.replica.HasRoom :=
    h ▸ Or.inl hheight
  have hanswers (call : Replica.Call) {said : List Action}
      (h : t.before.replica.answer ctx call = .ok (t.after.replica, said)) :
      t.after.replica.HasRoom ∨ ∀ message, .send ctx.me message ∉ said :=
    (Replica.answer_hasRoom h hheight).imp_right hsilent
  cases hkind with
  | announced _ _ hreplica => exact Or.inl (hstays hreplica)
  | timedOut _ hanswer => exact hanswers .timeout (congrArg Except.ok hanswer)
  | refused _ hreplica => exact Or.inl (hstays hreplica)
  | @entered _ entry _ _ hanswer =>
      rcases hanswer with hanswer | ⟨hreplica, -⟩
      · exact hanswers (.enter entry.view) (congrArg Except.ok hanswer)
      · exact Or.inl (hstays hreplica)
  | @accepted signed _ _ hanswer =>
      exact hanswers (.prepare signed) (Outcome.ofCheck_eq_ok.mpr hanswer)
  | @followed signed _ _ hanswer => exact hanswers (.phase signed) hanswer
  | counted _ _ _ _ hreplica => exact Or.inl (hstays hreplica)
  | @certified _ next _ _ _ hown hsaid =>
      rcases hown with happly | ⟨hreplica, -⟩
      · refine (hanswers (.apply next.body) happly).imp_right fun hnone message => ?_
        simpa [hsaid] using hnone message
      · exact Or.inl (hstays hreplica)
  | @offered _ _ prepare _ _ _ _ hown hsaid =>
      rcases hown with hprepare | ⟨hreplica, -⟩
      · refine (hanswers (.prepare prepare)
          (Outcome.ofCheck_eq_ok.mpr hprepare)).imp_right fun hnone message => ?_
        simpa [hsaid] using hnone message
      · exact Or.inl (hstays hreplica)

/-- Where the next decision can be counted, an input is settled without an overflow. -/
theorem Core.exists_settle_of_take {core first : Core σ} {now : Instant} {input : Input}
    {said : List Action} (htake : core.take ctx now input = .ok (first, said))
    (hheight : Height.next? core.replica.state.height ≠ none) :
    ∃ result, first.settle ctx now maxDeliveries said = .ok result := by
  have hkind := kind_of_take htake
  rcases Turn.hasRoom_of_kind hkind hheight with hroom | hnone
  · exact exists_settle hroom hkind.own maxDeliveries
  · have hlight : weightIn ctx.me first.replica.state.view said ≤ 0 :=
      Nat.le_of_eq (weightIn_eq_zero hnone)
    exact ⟨_, settle_eq hlight (Nat.zero_le _)⟩

end Room

/-- **What an answer consists of**, when the queue is empty: all actions that were asked for or said
on the way were taken, in their order. Those to the member itself were delivered, in that order too,
and all others went out. -/
structure Draining.Answers {σ : Type} [StateStore σ] (ctx : Context) (now : Instant) (core : Core σ)
    (input : Input) (said taken : List Action) (ts : List (Turn σ)) (last : Draining σ) : Prop where
  empty : last.queue = []
  taken_all : taken = said ++ saidOf ts
  delivered : ts.map Turn.input = (taken.filterMap (Action.toSelf? ctx.me)).map Input.message
  kept : last.out = taken.filter fun action => (action.toSelf? ctx.me).isNone
  none_to_self : ∀ message, .send ctx.me message ∉ last.out
  answer : ∃ core', core.react ctx now input = .ok (core', last.out) ∧
    (core' = last.core ∨ last.core.Tidied core')

/-- **Delivery to itself comes to an end.** From every state of the loop there are only finitely
many passes. Whatever a member is in and is asked, no more than four deliveries to itself follow,
and no message to itself is in the answer. All other actions that were asked for or said on the way
are, each of them once, in the order in which they were taken from the queue, and each message to
itself was delivered once, in that order too. There is no answer only where a decision at the last
height overflows. -/
theorem self_delivery_ends {σ : Type} [StateStore σ] (ctx : Context) (core : Core σ) (now : Instant)
    (input : Input) :
    (WellFounded fun later s : Draining σ => ∃ action ts, Draining.Pass ctx now s action ts later) ∧
    ((∃ o, core.take ctx now input = .error o ∧ core.react ctx now input = .error o ∧
        Height.next? core.replica.state.height = none) ∨
      ∃ first said, core.take ctx now input = .ok (first, said) ∧
        (∀ taken ts mid, Draining.Passes ctx now ⟨first, said, []⟩ taken ts mid → ts.length ≤ 4) ∧
        ∃ taken ts last, Draining.Passes ctx now ⟨first, said, []⟩ taken ts last ∧
          core.turns ctx now input = ⟨core, input, said, first⟩ :: ts ∧
          (Draining.Answers ctx now core input said taken ts last ∨
            ∃ o, last.Halts ctx now o ∧ core.react ctx now input = .error o ∧
              Height.next? core.replica.state.height = none)) := by
  refine ⟨Draining.wellFounded_pass ctx now, ?_⟩
  cases htake : core.take ctx now input with
  | error o =>
      left
      cases input with
      | start | timeout | propose => cases htake
      | message message =>
          have hdispatch : core.dispatch ctx now message = .error o := htake
          exact ⟨o, rfl, by rw [Core.react, Core.handle, hdispatch]; rfl,
            Core.height_of_dispatch_error hdispatch⟩
  | ok result =>
  right
  obtain ⟨first, said⟩ := result
  have hweight : weightIn ctx.me first.replica.state.view said ≤ 4 :=
    (Core.take_leaves htake).weight
  have henough : weightIn ctx.me first.replica.state.view said ≤ Core.maxDeliveries :=
    hweight.trans (by decide)
  refine ⟨first, said, rfl, fun taken ts mid hpasses => ?_, ?_⟩
  · exact (Nat.le_of_add_right_le hpasses.weight_le).trans hweight
  obtain ⟨taken, ts, last, hpasses, hend⟩ := Draining.exists_end ctx now ⟨first, said, []⟩
  refine ⟨taken, ts, last, hpasses, ?_⟩
  have hreact := Core.react_of_take htake
  rcases hend with hempty | ⟨o, hhalts⟩
  · obtain ⟨hturns, hsettle⟩ := hpasses.settle_eq_ok hempty henough
    obtain ⟨hqueued, hkept, hdelivered⟩ := hpasses.books
    rw [hempty, List.append_nil] at hqueued
    refine ⟨by rw [Core.turns_of_ok htake, hturns],
      Or.inl ⟨hempty, hqueued, hdelivered, hkept, fun message hsend => ?_, ?_⟩⟩
    · rw [hkept, List.nil_append] at hsend
      have hother := (List.mem_filter.mp hsend).2
      simp [Action.toSelf?] at hother
    · rcases hreact with hroute | ⟨rfl, hstale⟩
      · rw [hroute, Core.route, hsettle]
        exact ⟨_, rfl, Or.inr ⟨_, _, rfl⟩⟩
      · -- Nothing came of the input, and there was nothing to drain.
        have hnothing : first.settle ctx now Core.maxDeliveries [] = .ok (first, []) := rfl
        obtain ⟨hcore, hout⟩ := Prod.mk.inj (Except.ok.inj (hnothing.symm.trans hsettle))
        exact ⟨first, hout ▸ hstale, Or.inl hcore⟩
  · obtain ⟨hturns, hsettle⟩ := hpasses.settle_eq_error hhalts henough
    refine ⟨by rw [Core.turns_of_ok htake, hturns], Or.inr ⟨o, hhalts, ?_, ?_⟩⟩
    · rcases hreact with hroute | ⟨rfl, -⟩
      · rw [hroute, Core.route, hsettle]
        rfl
      · cases hsettle
    · by_contra hheight
      obtain ⟨result, hok⟩ := Core.exists_settle_of_take htake hheight
      cases hok.symm.trans hsettle

/-- The bound is reached by a member that is alone: it proposes, and delivers its three votes and
the announcement of the next view to itself. -/
example : ((Core.fresh .alone).after .alone [.start]).bind (fun core =>
    (core.slot? .alone).map fun slot => (core.turns .alone 0 (.propose slot [1])).length) =
      some (1 + 4) := by
  decide +kernel

end HotStuff
