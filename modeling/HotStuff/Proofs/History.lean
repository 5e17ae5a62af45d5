import Mathlib.Data.List.Infix
import Mathlib.Tactic.Tauto
import HotStuff.Core

/-!
# The History of a Member

A member lives through processes on one store: each takes inputs, and delivers to itself what it
sends to itself. A `Turn` is one handling, of an input or of such a message, with what was said in
it. `Run` lists the turns of all processes so far. A process may stop after any turn, in the middle
of an input too; the next one then starts from the store as it was left. What was said in a turn
counts as said, whether or not the process lived to hand it out.

## Main definitions

* `Core.react`, `Core.turns`: the answer to an input, and the turns it takes.
* `Step`, `Run`: one step of a member, and its life so far.
* `ballotsOf`, `executedOf`, `statementsOf`: what it voted for, executed and said in a history.
* `OwnSeals`: statements under the member's own seal are those it made.

## Main results

* `Core.react_ok`: an answer is that of the turns, tidied up, and does what they did besides
  sending, in their order.
* `Run.induction`: what holds at boot and is kept by turns, tidying and restarts holds of every run.
-/

namespace HotStuff

/-- A list that is split at one of its elements is split at its last one, or before that. -/
theorem concat_eq_append_cons {α : Type} {l pre post : List α} {a b : α}
    (h : l ++ [a] = pre ++ b :: post) :
    (l = pre ∧ a = b ∧ post = []) ∨ ∃ rest, post = rest ++ [a] ∧ l = pre ++ b :: rest := by
  rcases List.eq_nil_or_concat post with rfl | ⟨rest, c, rfl⟩
  · obtain ⟨hl, hab⟩ := List.append_inj' h rfl
    exact Or.inl ⟨hl, (List.cons.inj hab).1, rfl⟩
  · rw [List.concat_eq_append, ← List.cons_append, ← List.append_assoc] at h
    obtain ⟨hl, hac⟩ := List.append_inj' h rfl
    obtain rfl := (List.cons.inj hac).1
    exact Or.inr ⟨rest, List.concat_eq_append, hl⟩

/-- In a list whose elements are related in their order there is at most one of a kind, where two
of the kind would not be related. -/
theorem length_filter_le_one {α : Type} {R : α → α → Prop} {l : List α} (h : l.Pairwise R)
    {p : α → Bool} (hp : ∀ a b, p a → p b → ¬ R a b) : (l.filter p).length ≤ 1 := by
  have hfound := h.filter p
  have hmem : ∀ a ∈ l.filter p, p a := fun a ha => (List.mem_filter.mp ha).2
  generalize l.filter p = found at hfound hmem
  match found with
  | [] => simp
  | [_] => simp
  | a :: b :: rest =>
      have hab := (List.pairwise_cons.mp hfound).1 b (by simp)
      exact absurd hab (hp a b (hmem a (by simp)) (hmem b (by simp)))

/-- A store in which the state that is saved is the one that is loaded next. -/
class LawfulStore (σ : Type) [StateStore σ] : Prop where
  load_save : ∀ (store : σ) (saved : SavedState),
    StateStore.load (StateStore.save store saved).2 = .ok (some saved)

instance : LawfulStore MemoryStore := ⟨fun _ _ => rfl⟩

/-- What a core can be asked to do. -/
inductive Input where
  | start
  | message (message : Message)
  | timeout
  | propose (slot : Slot) (data : Bytes)
  deriving DecidableEq, Repr

namespace Input

/-- The signed statement that an input brings. -/
def statement? : Input → Option SignedStatement
  | .message (.statement _ signed) => some signed
  | _ => none

/-- The vote that an input brings. -/
def vote? : Input → Option Vote
  | .message (.vote vote) => some vote
  | _ => none

/-- The slot that an input asks to propose in. -/
def slot? : Input → Option Slot
  | .propose slot _ => some slot
  | _ => none

/-- The certificate that an input brings. -/
def certificate? : Input → Option Certificate
  | .message (.statement _ signed) => some signed.body.justify
  | .propose slot _ => some slot.justify
  | _ => none

end Input

/-- One handling of an input or of a message to oneself. -/
structure Turn (σ : Type) where
  before : Core σ
  input : Input
  said : List Action
  after : Core σ

/-- The proposal that a turn is about: the one in the message, or the one for the slot. -/
def Turn.proposal? {σ : Type} (t : Turn σ) : Option Statement :=
  match t.input with
  | .message (.statement _ signed) => some signed.body
  | .propose slot data =>
    some ⟨slot.view, .prepare, slot.reproposal.getD ⟨t.before.replica.state.committed, data⟩,
      slot.justify⟩
  | _ => none

/-! ### What was done and said -/

/-- A deed that cannot be taken back. -/
inductive Deed where
  | vote (ballot : Ballot)
  | execute (view : View) (height : Height) (payload : Payload)
  deriving DecidableEq, Repr

/-- The deed that an action is. -/
def Action.deed? : Action → Option Deed
  | .send _ (.vote vote) | .broadcast (.vote vote) => some (.vote vote.ballot)
  | .execute view height payload => some (.execute view height payload)
  | _ => none

/-- The message that an action hands out. -/
def Action.message? : Action → Option Message
  | .send _ message | .broadcast message => some message
  | _ => none

/-- The statement that a message makes. -/
def Message.body? : Message → Option Statement
  | .statement _ signed => some signed.body
  | .vote _ => none

namespace Deed

/-- The ballot voted for. -/
def ballot? : Deed → Option Ballot
  | vote ballot => some ballot
  | execute .. => none

/-- The payload executed. -/
def payload? : Deed → Option Payload
  | vote _ => none
  | execute _ _ payload => some payload

end Deed

/-- The deeds among actions. -/
def deedsIn (actions : List Action) : List Deed := actions.filterMap Action.deed?

/-- Deeds are in actions one after the other as they are in both parts. -/
@[simp] theorem deedsIn_append (as bs : List Action) :
    deedsIn (as ++ bs) = deedsIn as ++ deedsIn bs :=
  List.filterMap_append

/-- The payloads executed by actions. -/
def executedIn (actions : List Action) : List Payload := (deedsIn actions).filterMap Deed.payload?

/-- Payloads are executed in the order of the actions. -/
@[simp] theorem executedIn_append (as bs : List Action) :
    executedIn (as ++ bs) = executedIn as ++ executedIn bs := by
  rw [executedIn, deedsIn_append, List.filterMap_append]
  rfl

/-- The messages handed out by actions. -/
def messagesIn (actions : List Action) : List Message := actions.filterMap Action.message?

/-- Messages are handed out in the order of the actions. -/
@[simp] theorem messagesIn_append (as bs : List Action) :
    messagesIn (as ++ bs) = messagesIn as ++ messagesIn bs :=
  List.filterMap_append

/-- The statements made by actions. -/
def statementsIn (actions : List Action) : List Statement :=
  (messagesIn actions).filterMap Message.body?

/-- Statements are made in the order of the actions. -/
@[simp] theorem statementsIn_append (as bs : List Action) :
    statementsIn (as ++ bs) = statementsIn as ++ statementsIn bs := by
  rw [statementsIn, messagesIn_append, List.filterMap_append]
  rfl

section History

variable {σ : Type}

/-- The deeds of a turn. -/
def Turn.deeds (t : Turn σ) : List Deed := deedsIn t.said

/-- Everything said in a history. -/
def saidOf (h : List (Turn σ)) : List Action := h.flatMap Turn.said

/-- The ballots voted for in a history, oldest first. -/
def ballotsOf (h : List (Turn σ)) : List Ballot := (h.flatMap Turn.deeds).filterMap Deed.ballot?

/-- The payloads executed in a history, oldest first. -/
def executedOf (h : List (Turn σ)) : List Payload := (h.flatMap Turn.deeds).filterMap Deed.payload?

/-- The statements made in a history, oldest first. -/
def statementsOf (h : List (Turn σ)) : List Statement := statementsIn (saidOf h)

variable (h h' : List (Turn σ)) (t : Turn σ)

/-- A longer history has voted for what the shorter one has, and then for more. -/
@[simp] theorem ballotsOf_append : ballotsOf (h ++ h') = ballotsOf h ++ ballotsOf h' := by
  rw [ballotsOf, List.flatMap_append, List.filterMap_append]
  rfl

/-- A longer history has executed what the shorter one has, and then more. -/
@[simp] theorem executedOf_append : executedOf (h ++ h') = executedOf h ++ executedOf h' := by
  rw [executedOf, List.flatMap_append, List.filterMap_append]
  rfl

/-- A longer history has said what the shorter one has, and then more. -/
@[simp] theorem saidOf_append : saidOf (h ++ h') = saidOf h ++ saidOf h' := List.flatMap_append

/-- A longer history has stated what the shorter one has, and then more. -/
@[simp] theorem statementsOf_append :
    statementsOf (h ++ h') = statementsOf h ++ statementsOf h' := by
  rw [statementsOf, saidOf_append, statementsIn_append]
  rfl

/-- The votes of the first turn come first. -/
theorem ballotsOf_cons : ballotsOf (t :: h) = t.deeds.filterMap Deed.ballot? ++ ballotsOf h := by
  rw [ballotsOf, List.flatMap_cons, List.filterMap_append]
  rfl

/-- What is said in the first turn comes first. -/
theorem saidOf_cons : saidOf (t :: h) = t.said ++ saidOf h := List.flatMap_cons

/-- The votes of one turn are those among its deeds. -/
@[simp] theorem ballotsOf_singleton : ballotsOf [t] = t.deeds.filterMap Deed.ballot? := by
  rw [ballotsOf, List.flatMap_singleton]

/-- What one turn executes is among its deeds. -/
@[simp] theorem executedOf_singleton : executedOf [t] = t.deeds.filterMap Deed.payload? := by
  rw [executedOf, List.flatMap_singleton]

/-- What is said in one turn is said in the history of that turn. -/
@[simp] theorem saidOf_singleton : saidOf [t] = t.said := List.flatMap_singleton ..

/-- What one turn states is among what it says. -/
@[simp] theorem statementsOf_singleton : statementsOf [t] = statementsIn t.said := by
  rw [statementsOf, saidOf_singleton]

/-- A ballot is voted for in one of the turns. -/
theorem mem_ballotsOf {h : List (Turn σ)} {b : Ballot} :
    b ∈ ballotsOf h ↔ ∃ t ∈ h, .vote b ∈ t.deeds := by
  simp only [ballotsOf, List.mem_filterMap, List.mem_flatMap]
  constructor
  · rintro ⟨deed, ⟨t, ht, hdeed⟩, hballot⟩
    cases deed with
    | vote ballot =>
        obtain rfl := Option.some.inj hballot
        exact ⟨t, ht, hdeed⟩
    | execute => cases hballot
  · rintro ⟨t, ht, hvote⟩
    exact ⟨_, ⟨t, ht, hvote⟩, rfl⟩

/-- A payload is executed in one of the turns. -/
theorem mem_executedOf {h : List (Turn σ)} {p : Payload} :
    p ∈ executedOf h ↔ ∃ t ∈ h, p ∈ t.deeds.filterMap Deed.payload? := by
  rw [executedOf, List.filterMap_flatMap, List.mem_flatMap]

/-- A vote sent to someone is one of the ballots voted for. -/
theorem mem_ballotsOf_of_said {h : List (Turn σ)} {receiver : MemberId} {vote : Vote}
    (hsaid : .send receiver (.vote vote) ∈ saidOf h) : vote.ballot ∈ ballotsOf h := by
  obtain ⟨t, ht, hmem⟩ := List.mem_flatMap.mp hsaid
  exact mem_ballotsOf.mpr ⟨t, ht, List.mem_filterMap.mpr ⟨_, hmem, rfl⟩⟩

/-- The core after some turns that began with `core`. -/
def lastOf (core : Core σ) : List (Turn σ) → Core σ
  | [] => core
  | t :: ts => lastOf t.after ts

end History

/-! ### The turns of an input -/

namespace Core

variable {σ : Type} [StateStore σ] (ctx : Context) (core : Core σ) (now : Instant)

/-- The first turn of an input, before anything is delivered to the member itself. -/
def take : Input → Except Overflow (Core σ × List Action)
  | .start => .ok (core, core.replica.startRound ctx)
  | .message message => core.dispatch ctx now message
  | .timeout =>
    let (replica, actions) := core.replica.onTimeout ctx
    .ok ({ core with replica }, actions)
  | .propose slot data => .ok ((core.offer ctx slot data).getD (core, []))

/-- The answer to an input. -/
def react : Input → Except Overflow (Core σ × List Action)
  | .start => core.start ctx now
  | .message message => core.handle ctx now message
  | .timeout => core.onTimeout ctx now
  | .propose slot data => core.propose ctx now slot data

/-- The turns in which a core handles the messages to itself among actions, as
`Core.settle` does. -/
def selfTurns (now : Instant) : Nat → Core σ → List Action → List (Turn σ)
  | 0, _, _ => []
  | deliveries + 1, core, queue =>
    match splitAtSelf ctx.me queue with
    | (_, none) => []
    | (_, some (message, rest)) =>
      match core.dispatch ctx now message with
      | .error _ => []
      | .ok (core', said) =>
        ⟨core, .message message, said, core'⟩ :: selfTurns now deliveries core' (rest ++ said)

/-- **The turns of an input**: its own, and those of the messages to oneself that come of it. -/
def turns (input : Input) : List (Turn σ) :=
  match core.take ctx now input with
  | .error _ => []
  | .ok (core', said) => ⟨core, input, said, core'⟩ :: selfTurns ctx now maxDeliveries core' said

variable {ctx core now}

/-- Without a message to oneself nothing is split off. -/
theorem splitAtSelf_none {me : MemberId} {queue out : List Action}
    (h : splitAtSelf me queue = (out, none)) : out = queue := by
  fun_induction splitAtSelf me queue generalizing out with
  | case1 => simp_all
  | case2 => simp_all
  | case3 receiver message rest hne before found hrest ih =>
      simp only [Prod.mk.injEq] at h
      obtain ⟨rfl, rfl⟩ := h
      rw [ih hrest]
  | case4 action rest _ before found hrest ih =>
      simp only [Prod.mk.injEq] at h
      obtain ⟨rfl, rfl⟩ := h
      rw [ih hrest]

/-- The first message to oneself is split off with what is before and after it. -/
theorem splitAtSelf_some {me : MemberId} {queue out rest : List Action} {message : Message}
    (h : splitAtSelf me queue = (out, some (message, rest))) :
    queue = out ++ .send me message :: rest := by
  fun_induction splitAtSelf me queue generalizing out with
  | case1 => simp_all
  | case2 => simp_all
  | case3 receiver sent tail hne before found htail ih =>
      simp only [Prod.mk.injEq] at h
      obtain ⟨rfl, rfl⟩ := h
      rw [ih htail, List.cons_append]
  | case4 action tail _ before found htail ih =>
      simp only [Prod.mk.injEq] at h
      obtain ⟨rfl, rfl⟩ := h
      rw [ih htail, List.cons_append]

/-- Where nothing is queued there are no turns. -/
@[simp] theorem selfTurns_nil (deliveries : Nat) : selfTurns ctx now deliveries core [] = [] := by
  cases deliveries <;> rfl

/-- Where nothing in the queue is for the member itself there are no turns. -/
theorem selfTurns_of_none {deliveries : Nat} {queue out : List Action}
    (h : splitAtSelf ctx.me queue = (out, none)) :
    selfTurns ctx now (deliveries + 1) core queue = [] := by
  rw [selfTurns, h]

/-- The first message for the member itself makes the next turn; what it says is queued behind the
rest. -/
theorem selfTurns_of_some {deliveries : Nat} {queue out rest said : List Action}
    {message : Message} {core' : Core σ}
    (h : splitAtSelf ctx.me queue = (out, some (message, rest)))
    (hdispatch : core.dispatch ctx now message = .ok (core', said)) :
    selfTurns ctx now (deliveries + 1) core queue =
      ⟨core, .message message, said, core'⟩ ::
        selfTurns ctx now deliveries core' (rest ++ said) := by
  rw [selfTurns, h]
  simp only [hdispatch]

/-- **Settling follows the turns.** It ends where the last of them ends, what is left to go out was
asked for or said in one of them, and what is done besides sending keeps its order. -/
theorem settle_ok {deliveries : Nat} {queue out : List Action} {settled : Core σ}
    (h : settle ctx now deliveries core queue = .ok (settled, out)) :
    settled = lastOf core (selfTurns ctx now deliveries core queue) ∧
      (∀ {β : Type} {f : Action → Option β},
        (∀ receiver message, f (.send receiver message) = none) →
        out.filterMap f =
          queue.filterMap f ++ (saidOf (selfTurns ctx now deliveries core queue)).filterMap f) ∧
      ∀ a ∈ out, a ∈ queue ++ saidOf (selfTurns ctx now deliveries core queue) := by
  induction deliveries generalizing core queue out with
  | zero =>
      simp only [settle, Except.ok.injEq, Prod.mk.injEq] at h
      obtain ⟨rfl, rfl⟩ := h
      exact ⟨rfl, fun _ => (List.append_nil _).symm, fun a ha => List.mem_append_left _ ha⟩
  | succ deliveries ih =>
      rw [settle] at h
      split at h
      · next before hsplit =>
          simp only [Except.ok.injEq, Prod.mk.injEq] at h
          obtain ⟨rfl, rfl⟩ := h
          rw [selfTurns_of_none hsplit, splitAtSelf_none hsplit]
          exact ⟨rfl, fun _ => (List.append_nil _).symm, fun a ha => List.mem_append_left _ ha⟩
      · next before message rest hsplit =>
          have hqueue := splitAtSelf_some hsplit
          cases hdispatch : core.dispatch ctx now message with
          | error o => simp [hdispatch, bind, Except.bind] at h
          | ok answer =>
              obtain ⟨core', said⟩ := answer
              cases hlater : settle ctx now deliveries core' (rest ++ said) with
              | error o => simp [hdispatch, hlater, bind, Except.bind] at h
              | ok answer' =>
                  obtain ⟨settled', later⟩ := answer'
                  simp only [hdispatch, hlater, bind, Except.bind, pure, Except.pure,
                    Except.ok.injEq, Prod.mk.injEq] at h
                  obtain ⟨rfl, rfl⟩ := h
                  obtain ⟨hlast, hdone, hmem⟩ := ih hlater
                  rw [selfTurns_of_some hsplit hdispatch, hqueue]
                  refine ⟨hlast, fun hf => ?_, ?_⟩
                  · rw [List.filterMap_append, hdone hf, saidOf_cons]
                    simp only [List.filterMap_append, List.filterMap_cons_none (hf _ _),
                      List.append_assoc]
                  · intro a ha
                    rw [saidOf_cons]
                    rcases List.mem_append.mp ha with ha | ha
                    · exact List.mem_append_left _ (List.mem_append_left _ ha)
                    · have hsaid := hmem a ha
                      simp only [List.mem_append, List.mem_cons] at hsaid ⊢
                      tauto

/-- A core forgets the views that are over, and shows how far it has come. -/
def Tidied (core core' : Core σ) : Prop :=
  ∃ status metrics, core' = { core with
    votes := core.votes.pruneBelow core.replica.state.view, status, metrics }

/-- Routing settles the actions and tidies up. -/
theorem route_ok {queue out : List Action} {core' : Core σ}
    (h : core.route ctx now queue = .ok (core', out)) :
    Tidied (lastOf core (selfTurns ctx now maxDeliveries core queue)) core' ∧
      (∀ {β : Type} {f : Action → Option β},
        (∀ receiver message, f (.send receiver message) = none) →
        out.filterMap f = queue.filterMap f ++
          (saidOf (selfTurns ctx now maxDeliveries core queue)).filterMap f) ∧
      ∀ a ∈ out, a ∈ queue ++ saidOf (selfTurns ctx now maxDeliveries core queue) := by
  rw [route, bind_eq_ok] at h
  obtain ⟨⟨settled, out'⟩, hsettle, h⟩ := h
  simp only [pure, Except.pure, Except.ok.injEq, Prod.mk.injEq] at h
  obtain ⟨rfl, rfl⟩ := h
  obtain ⟨rfl, hrest⟩ := settle_ok hsettle
  exact ⟨⟨_, _, rfl⟩, hrest⟩

/-- The turns of an answer are the one of its input and those of the messages to oneself. -/
theorem turns_of_ok {input : Input} {first : Core σ} {said : List Action}
    (h : core.take ctx now input = .ok (first, said)) :
    core.turns ctx now input =
      ⟨core, input, said, first⟩ :: selfTurns ctx now maxDeliveries first said := by
  rw [turns, h]

/-- An answer is the first turn, routed; only a proposal of which nothing comes is left at that. -/
theorem react_eq {input : Input} {core' : Core σ} {out : List Action}
    (h : core.react ctx now input = .ok (core', out)) :
    ∃ first said, core.take ctx now input = .ok (first, said) ∧
      (first.route ctx now said = .ok (core', out) ∨
        said = [] ∧ core' = first ∧ out = [] ∧ first = core) := by
  cases input with
  | start => exact ⟨_, _, rfl, Or.inl h⟩
  | message message =>
      obtain ⟨⟨first, said⟩, hdispatch, h⟩ := bind_eq_ok.mp h
      exact ⟨first, said, hdispatch, Or.inl h⟩
  | timeout => exact ⟨_, _, rfl, Or.inl h⟩
  | propose slot data =>
      simp only [react, propose] at h
      split at h
      · next hoffer =>
          simp only [Except.ok.injEq, Prod.mk.injEq] at h
          obtain ⟨rfl, rfl⟩ := h
          exact ⟨core, [], by rw [take, hoffer]; rfl, Or.inr ⟨rfl, rfl, rfl, rfl⟩⟩
      · next first said hoffer => exact ⟨first, said, by rw [take, hoffer]; rfl, Or.inl h⟩

/-- **The answer to an input** leaves the core as after its last turn, but for the tidying up. What
is done besides sending was done in the turns, in that order, and all that goes out was said in
them. -/
theorem react_ok {input : Input} {core' : Core σ} {out : List Action}
    (h : core.react ctx now input = .ok (core', out)) :
    (core' = lastOf core (core.turns ctx now input) ∨
      Tidied (lastOf core (core.turns ctx now input)) core') ∧
      (∀ {β : Type} {f : Action → Option β},
        (∀ receiver message, f (.send receiver message) = none) →
        out.filterMap f = (saidOf (core.turns ctx now input)).filterMap f) ∧
      ∀ a ∈ out, a ∈ saidOf (core.turns ctx now input) := by
  obtain ⟨first, said, htake, hroute | ⟨rfl, rfl, rfl, -⟩⟩ := react_eq h
  · rw [turns_of_ok htake, saidOf_cons]
    obtain ⟨htidied, hdone, hmem⟩ := route_ok hroute
    refine ⟨Or.inr htidied, fun hf => ?_, hmem⟩
    rw [List.filterMap_append, hdone hf]
  · rw [turns_of_ok htake, selfTurns_nil]
    exact ⟨Or.inl rfl, fun _ => rfl, fun a ha => ha⟩

end Core

/-! ### Runs -/

/-- **One step of a member**: a process answers an input, or stops after some of its turns and is
followed by another one, or is restarted between two inputs. -/
inductive Step {σ : Type} [StateStore σ] (ctx : Context) (admits : Input → Prop)
    (core : Core σ) : List (Turn σ) → Core σ → Prop
  | react {now input core' out} (hadmits : admits input)
      (h : core.react ctx now input = .ok (core', out)) :
      Step ctx admits core (core.turns ctx now input) core'
  | stop {now input ts core'} (hadmits : admits input) (hts : ts <+: core.turns ctx now input)
      (h : Core.create ctx (lastOf core ts).replica.store = .ok core') :
      Step ctx admits core ts core'
  | restart {core'} (h : Core.create ctx core.replica.store = .ok core') :
      Step ctx admits core [] core'

/-- **The life of a member** from its first process on, with all turns so far. Which inputs come may
depend on what happened before. -/
inductive Run {σ : Type} [StateStore σ] (ctx : Context) (admits : List (Turn σ) → Input → Prop)
    (first : Core σ) : List (Turn σ) → Core σ → Prop
  | boot : Run ctx admits first [] first
  | step {h core ts core'} (hrun : Run ctx admits first h core)
      (hstep : Step ctx (admits h) core ts core') : Run ctx admits first (h ++ ts) core'

section Induction

variable {σ : Type} [StateStore σ] {ctx : Context} {P : List (Turn σ) → Core σ → Prop}

/-- A turn of a member comes from an input, or from a message it sent to itself. -/
def Comes (ctx : Context) (admits : Input → Prop) (h : List (Turn σ)) (input : Input) : Prop :=
  admits input ∨ ∃ message, input = .message message ∧ .send ctx.me message ∈ saidOf h

variable {admits : List (Turn σ) → Input → Prop}
  (turn : ∀ h core input now core' said, P h core → Comes ctx (admits h) h input →
    core.take ctx now input = .ok (core', said) → P (h ++ [⟨core, input, said, core'⟩]) core')

include turn

/-- What every turn keeps is kept by the turns in which a core handles its messages to itself. -/
theorem selfTurns_induction {now : Instant} {deliveries : Nat} {h : List (Turn σ)}
    {core : Core σ} {queue : List Action} (hqueue : ∀ a ∈ queue, a ∈ saidOf h) (hP : P h core)
    {ts : List (Turn σ)} (hts : ts <+: core.selfTurns ctx now deliveries queue) :
    P (h ++ ts) (lastOf core ts) := by
  induction deliveries generalizing h core queue ts with
  | zero =>
      obtain rfl := List.prefix_nil.mp hts
      rwa [List.append_nil]
  | succ deliveries ih =>
      cases ts with
      | nil => rwa [List.append_nil]
      | cons t ts =>
          rw [Core.selfTurns] at hts
          split at hts
          · exact absurd (List.prefix_nil.mp hts) (List.cons_ne_nil _ _)
          · next out message rest hsplit =>
              have hsplit := Core.splitAtSelf_some hsplit
              split at hts
              · exact absurd (List.prefix_nil.mp hts) (List.cons_ne_nil _ _)
              · next core' said hdispatch =>
                  obtain ⟨rfl, hrest⟩ := List.cons_prefix_cons.mp hts
                  have hsent : .send ctx.me message ∈ saidOf h := hqueue _ (by simp [hsplit])
                  have hP' := turn h core (.message message) now core' said hP
                    (Or.inr ⟨message, rfl, hsent⟩) hdispatch
                  rw [← List.singleton_append, ← List.append_assoc]
                  refine ih ?_ hP' hrest
                  intro a ha
                  rw [saidOf_append, saidOf_singleton, List.mem_append]
                  rcases List.mem_append.mp ha with ha | ha
                  · exact Or.inl (hqueue a (by simp [hsplit, ha]))
                  · exact Or.inr ha

/-- What every turn keeps is kept by any number of the turns of an input. -/
theorem turns_induction {now : Instant} {h : List (Turn σ)} {core : Core σ} {input : Input}
    (hadmits : admits h input) (hP : P h core) {ts : List (Turn σ)}
    (hts : ts <+: core.turns ctx now input) : P (h ++ ts) (lastOf core ts) := by
  cases ts with
  | nil => rwa [List.append_nil]
  | cons t ts =>
      rw [Core.turns] at hts
      split at hts
      · exact absurd (List.prefix_nil.mp hts) (List.cons_ne_nil _ _)
      · next core' said htake =>
          obtain ⟨rfl, hrest⟩ := List.cons_prefix_cons.mp hts
          have hP' := turn h core input now core' said hP (Or.inl hadmits) htake
          rw [← List.singleton_append, ← List.append_assoc]
          refine selfTurns_induction turn ?_ hP' hrest
          intro a ha
          rw [saidOf_append, saidOf_singleton]
          exact List.mem_append_right _ ha

/-- **Induction on a run.** What holds of the first process, and is kept by every turn, by tidying
up and by a restart, holds after every run. -/
theorem Run.induction {first : Core σ} (boot : P [] first)
    (tidy : ∀ h core core', P h core → core.Tidied core' → P h core')
    (restart : ∀ h core core', P h core →
      Core.create ctx core.replica.store = .ok core' → P h core')
    {h : List (Turn σ)} {core : Core σ} (hrun : Run ctx admits first h core) : P h core := by
  induction hrun with
  | boot => exact boot
  | @step h core ts core' hrun hstep ih =>
      cases hstep with
      | @react now input core' out hadmits hreact =>
          have hlast := turns_induction turn hadmits ih
            (List.prefix_refl (core.turns ctx now input))
          obtain ⟨rfl | htidied, -, -⟩ := Core.react_ok hreact
          · exact hlast
          · exact tidy _ _ _ hlast htidied
      | stop hadmits hts hcreate =>
          exact restart _ _ _ (turns_induction turn hadmits ih hts) hcreate
      | restart hcreate =>
          rw [List.append_nil]
          exact restart _ _ _ ih hcreate

end Induction

/-- What every turn keeps, whatever comes, is kept by all turns of an input. -/
theorem keeps_of_turns {σ : Type} [StateStore σ] {ctx : Context} {P : List (Turn σ) → Core σ → Prop}
    (turn : ∀ h core input now core' said, P h core →
      core.take ctx now input = .ok (core', said) → P (h ++ [⟨core, input, said, core'⟩]) core')
    {h : List (Turn σ)} {core : Core σ} (hP : P h core) (now : Instant) (input : Input) :
    P (h ++ core.turns ctx now input) (lastOf core (core.turns ctx now input)) := by
  have hturn (h : List (Turn σ)) (core : Core σ) (input : Input) (now : Instant) (core' : Core σ)
      (said : List Action) (hP : P h core) (_ : Comes ctx (fun _ => True) h input)
      (htake : core.take ctx now input = .ok (core', said)) :
      P (h ++ [⟨core, input, said, core'⟩]) core' := turn h core input now core' said hP htake
  exact turns_induction hturn trivial hP (List.prefix_refl _)

/-- The first turn of an input is on that input. -/
theorem Core.input_of_turns {σ : Type} [StateStore σ] {ctx : Context} {core : Core σ}
    {now : Instant} {input : Input} {t : Turn σ} {ts : List (Turn σ)}
    (hts : t :: ts <+: core.turns ctx now input) : t.input = input := by
  rw [turns] at hts
  split at hts
  · exact absurd (List.prefix_nil.mp hts) (List.cons_ne_nil _ _)
  · obtain ⟨rfl, -⟩ := List.cons_prefix_cons.mp hts
    rfl

/-- Only the inputs that were handled matter to a step. -/
theorem Step.of_inputs {σ : Type} [StateStore σ] {ctx : Context} {core core' : Core σ}
    {ts : List (Turn σ)} {admits admits' : Input → Prop} (hstep : Step ctx admits core ts core')
    (hadmits' : ∀ t ∈ ts, admits t.input → admits' t.input) : Step ctx admits' core ts core' := by
  cases hstep with
  | @react now input _ out hadmits hreact =>
      obtain ⟨first, said, htake, -⟩ := Core.react_eq hreact
      refine .react ?_ hreact
      rw [Core.turns_of_ok htake] at hadmits'
      exact hadmits' _ (List.mem_cons_self ..) hadmits
  | @stop now input ts _ hadmits hts hcreate =>
      cases ts with
      | nil => exact .restart hcreate
      | cons t ts =>
          obtain rfl := Core.input_of_turns hts
          exact .stop (hadmits' t (List.mem_cons_self ..) hadmits) hts hcreate
  | restart hcreate => exact .restart hcreate

/-- A step on fewer admitted inputs is a step. -/
theorem Step.mono {σ : Type} [StateStore σ] {ctx : Context} {core core' : Core σ}
    {ts : List (Turn σ)} {admits admits' : Input → Prop}
    (hmono : ∀ input, admits input → admits' input) (hstep : Step ctx admits core ts core') :
    Step ctx admits' core ts core' :=
  hstep.of_inputs fun t _ => hmono t.input

/-- A run of fewer admitted inputs is a run. -/
theorem Run.mono {σ : Type} [StateStore σ] {ctx : Context} {first core : Core σ}
    {admits admits' : List (Turn σ) → Input → Prop}
    (hmono : ∀ h input, admits h input → admits' h input)
    {h : List (Turn σ)} (hrun : Run ctx admits first h core) : Run ctx admits' first h core := by
  induction hrun with
  | boot => exact .boot
  | step _ hstep ih => exact .step ih (hstep.mono (hmono _))

/-- **Own seals.** A statement that an input brings under the valid seal of the member itself is one
that the member has made. -/
def OwnSeals {σ : Type} (ctx : Context) (h : List (Turn σ)) (input : Input) : Prop :=
  ∀ signed, input.statement? = some signed → signed.signer = ctx.me →
    ctx.scheme.statementValid signed → signed.body ∈ statementsOf h

end HotStuff
