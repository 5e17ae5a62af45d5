import Mathlib.Algebra.GroupWithZero.Nat
import HotStuff.Proofs.Changes
import HotStuff.Proofs.Refusal

/-!
# What a Member Shows

The metrics of a member are not read off its state. They follow the actions that it returns, and
those have come through the delivery of messages to itself, which takes some of them out and puts
others in. What is counted all the same agrees with the state, since every turn tells of what it
changes: of each view that it enters, of each payload that it executes and of each certificate that
its collector completes, and of nothing else. Delivery to itself takes out messages only.

Nothing is asked of the inputs or of the store. Counts are words of 64 bits. That is enough for
commits and for views entered, as heights and views are words too and an addition that would
overflow stops the process; the counts of timeouts and of certificates would start from zero again.

## Main definitions

* `Tells`: actions tell of a change of state.
* `Leader.emitted?`, `Turn.emitted?`: the certificate that the collector completes.
* `Metrics.Follows`: metrics after some actions.
* `Status.Shows`: a status that shows a state.
* `Core.Session`: what a process was asked, and what it returned for it.
* `Core.Truthful`: what a process shows agrees with its state and with what it has returned.

## Main results

* `Core.tells_of_take`: every turn tells of what it changes.
* `Core.tells_of_react`: so does every answer.
* `status_and_metrics_tell_the_truth`: what a process shows is true after every answer.
-/

namespace HotStuff

/-! ### Events -/

/-- The event that an action announces. -/
def Action.event? : Action → Option Event
  | .notify event => some event
  | _ => none

namespace Event

/-- The height that is announced. -/
def height? : Event → Option Height
  | .committed _ height _ => some height
  | _ => none

/-- The view that is entered. -/
def entered? : Event → Option View
  | .viewChanged view _ => some view
  | _ => none

/-- The view that is given up. -/
def abandoned? : Event → Option View
  | .timedOut view => some view
  | _ => none

/-- The phase of a certificate that was formed. -/
def certified? : Event → Option Phase
  | .certified _ phase => some phase
  | _ => none

end Event

/-- What actions announce, as far as it is of some kind. -/
def toldIn {β : Type} (kind : Event → Option β) (actions : List Action) : List β :=
  actions.filterMap fun action => action.event?.bind kind

section Told

variable {β : Type} {kind : Event → Option β} {as bs : List Action}

/-- Where nothing is done nothing is announced. -/
@[simp] theorem toldIn_nil : toldIn kind [] = [] := rfl

/-- What is announced is announced in the order of the actions. -/
@[simp] theorem toldIn_append : toldIn kind (as ++ bs) = toldIn kind as ++ toldIn kind bs :=
  List.filterMap_append

/-- An event is announced if it is of the kind. -/
@[simp] theorem toldIn_notify (event : Event) :
    toldIn kind (.notify event :: as) = (kind event).toList ++ toldIn kind as := by
  rw [toldIn, List.filterMap_cons]
  cases h : kind event with
  | none => simp [Action.event?, h, toldIn]
  | some b => simp [Action.event?, h, toldIn]

/-- An action that is no event announces nothing. -/
theorem toldIn_cons {action : Action} (h : action.event? = none) :
    toldIn kind (action :: as) = toldIn kind as := by
  rw [toldIn, List.filterMap_cons, h]
  rfl

/-- Sending announces nothing. -/
@[simp] theorem toldIn_send (receiver : MemberId) (message : Message) :
    toldIn kind (.send receiver message :: as) = toldIn kind as := toldIn_cons rfl

/-- Broadcasting announces nothing. -/
@[simp] theorem toldIn_broadcast (message : Message) :
    toldIn kind (.broadcast message :: as) = toldIn kind as := toldIn_cons rfl

/-- Setting the timer announces nothing. -/
@[simp] theorem toldIn_resetTimer (timeout : Millis) :
    toldIn kind (.resetTimer timeout :: as) = toldIn kind as := toldIn_cons rfl

/-- Executing is not announcing: the event of the commit is another action. -/
@[simp] theorem toldIn_execute (view : View) (height : Height) (payload : Payload) :
    toldIn kind (.execute view height payload :: as) = toldIn kind as := toldIn_cons rfl

/-- Where nothing is announced nothing of any kind is. -/
theorem toldIn_of_quiet (h : as.filterMap Action.event? = []) : toldIn kind as = [] := by
  rw [toldIn, ← List.filterMap_filterMap, h]
  rfl

end Told

/-! ### Climbing -/

/-- **Words that climb**, each above the one before, from a first one to the last. -/
inductive Climbs : UInt64 → List UInt64 → UInt64 → Prop
  | stay {n} : Climbs n [] n
  | step {n next rest last} (hlt : n < next) (hrest : Climbs next rest last) :
      Climbs n (next :: rest) last

namespace Climbs

variable {n next mid last : UInt64} {ns ms : List UInt64}

/-- One word above another one climbs. -/
theorem single (h : n < next) : Climbs n [next] next := .step h .stay

/-- What climbs to a word and on from it climbs all the way. -/
theorem append (h : Climbs n ns mid) (h' : Climbs mid ms last) : Climbs n (ns ++ ms) last := by
  induction h with
  | stay => exact h'
  | step hlt _ ih => exact .step hlt (ih h')

/-- What climbs increases strictly. -/
theorem pairwise (h : Climbs n ns last) : (n :: ns).Pairwise (· < ·) := by
  induction h with
  | stay => exact List.pairwise_singleton _ _
  | @step n next rest last hlt _ ih =>
      refine List.pairwise_cons.mpr ⟨fun m hm => ?_, ih⟩
      rcases List.mem_cons.mp hm with rfl | hm
      · exact hlt
      · exact UInt64.lt_trans hlt ((List.pairwise_cons.mp ih).1 m hm)

/-- There are no more words in what climbs than lie below the last one. -/
theorem length_le (h : Climbs n ns last) : ns.length ≤ last.toNat := by
  have hfrom : n.toNat + ns.length ≤ last.toNat := by
    induction h with
    | stay => exact Nat.le_refl _
    | step hlt _ ih =>
        rw [UInt64.lt_iff_toNat_lt] at hlt
        rw [List.length_cons]
        omega
  exact Nat.le_trans (Nat.le_add_left ..) hfrom

/-- What climbs ends at its last word. -/
theorem getLast? (h : Climbs n ns last) : (n :: ns).getLast? = some last := by
  induction h with
  | stay => rfl
  | step _ _ ih => rw [List.getLast?_cons_cons, ih]

/-- A gauge that is set to each word in turn is at the last one. -/
theorem foldl {γ : Type} (f : UInt64 → γ) (h : Climbs n ns last) :
    ns.foldl (fun _ m => f m) (f n) = f last := by
  induction h with
  | stay => rfl
  | step _ _ ih => exact ih

end Climbs

/-- Heights that follow one another climb. -/
theorem Counts.climbs {start last : Height} {heights : List Height}
    (h : Counts start heights last) : Climbs start heights last := by
  obtain ⟨hconsecutive, hreached⟩ := h
  induction heights generalizing start with
  | nil =>
      obtain rfl : last = start := UInt64.toNat_inj.mp hreached
      exact .stay
  | cons height rest ih =>
      rw [List.map_cons, List.length_cons, List.range'_succ] at hconsecutive
      obtain ⟨hnext, hrest⟩ := List.cons.inj hconsecutive
      rw [List.length_cons] at hreached
      refine .step (UInt64.lt_iff_toNat_lt.mpr (by omega)) (ih (hnext ▸ hrest) (by omega))

/-! ### What a replica tells -/

/-- **Actions tell of a change of state.** A commit is announced for each payload that is executed,
and a view for each that is entered; beside that, views are given up and certificates formed. -/
structure Tells (s : ReplicaState) (said : List Action) (gone : List View) (formed : List Phase)
    (s' : ReplicaState) : Prop where
  executed : toldIn Event.height? said = heightsIn said
  entered : Climbs s.view (toldIn Event.entered? said) s'.view
  abandoned : toldIn Event.abandoned? said = gone
  certified : toldIn Event.certified? said = formed

namespace Tells

variable {s s' s'' : ReplicaState} {as bs : List Action} {gone gone' : List View}
  {formed formed' : List Phase}

/-- Doing nothing tells of no change. -/
theorem nil (s : ReplicaState) : Tells s [] [] [] s := ⟨rfl, .stay, rfl, rfl⟩

/-- Actions that tell of two changes, one after the other, tell of both. -/
theorem append (h : Tells s as gone formed s') (h' : Tells s' bs gone' formed' s'') :
    Tells s (as ++ bs) (gone ++ gone') (formed ++ formed') s'' := by
  constructor
  · rw [toldIn_append, heightsIn_append, h.executed, h'.executed]
  · rw [toldIn_append]
    exact h.entered.append h'.entered
  · rw [toldIn_append, h.abandoned, h'.abandoned]
  · rw [toldIn_append, h.certified, h'.certified]

/-- Only the view of a state matters, where actions announce no more than they execute. -/
theorem congr (h : Tells s as gone formed s') {t t' : ReplicaState} (hview : t.view = s.view)
    (hview' : t'.view = s'.view) : Tells t as gone formed t' :=
  ⟨h.executed, hview ▸ hview' ▸ h.entered, h.abandoned, h.certified⟩

/-- Where nothing is announced and nothing executed, the view stays. -/
theorem quiet (hview : s'.view = s.view) (hheights : heightsIn as = [])
    (htold : as.filterMap Action.event? = []) : Tells s as [] [] s' := by
  have hnone {β : Type} (kind : Event → Option β) : toldIn kind as = [] := toldIn_of_quiet htold
  exact ⟨(hnone _).trans hheights.symm, hview ▸ (hnone Event.entered?).symm ▸ .stay, hnone _,
    hnone _⟩

end Tells

namespace Replica

variable {σ : Type} [StateStore σ] {ctx : Context} {r r' : Replica σ} {said : List Action}

omit [StateStore σ] in
/-- The announcement of a view to its leader is no event: the view was told of when it was
entered. -/
theorem startRound_tells (r : Replica σ) :
    Tells r.state (r.startRound ctx) [] [] r.state := .quiet rfl rfl rfl

/-- **Entering a view tells of it**, and of nothing where the view is not later. -/
theorem enterView_tells (r : Replica σ) (view : View) :
    Tells r.state (r.enterView ctx view).2 [] [] (r.enterView ctx view).1.state := by
  by_cases h : view ≤ r.state.view
  · rw [enterView_of_le h]
    exact .nil _
  · have hlt := UInt64.not_le.mp h
    rw [enterView_of_lt hlt]
    exact ⟨rfl, .single hlt, rfl, rfl⟩

/-- **A timeout tells of the view that is given up**, and of the next one where it is entered. -/
theorem onTimeout_tells (r : Replica σ) :
    Tells r.state (r.onTimeout ctx).2 [r.state.view] [] (r.onTimeout ctx).1.state := by
  have hgone (s : ReplicaState) : Tells s [.notify (.timedOut r.state.view)] [r.state.view] [] s :=
    ⟨rfl, .stay, rfl, rfl⟩
  rw [onTimeout]
  split
  · next next _ => exact (hgone _).append (r.enterView_tells next)
  · exact (hgone _).append (.quiet rfl rfl rfl)

/-- Leaving a view tells of the next one, if it is entered. -/
theorem leave_tells (r : Replica σ) (view : View) :
    Tells r.state (r.leave ctx view).2 [] [] (r.leave ctx view).1.state := by
  rw [leave]
  split
  · split
    · exact r.enterView_tells _
    · exact .quiet rfl rfl rfl
  · exact .quiet rfl rfl rfl

/-- **A commit tells of what it executes**, with the same height. -/
theorem commit_tells {cert : Certificate} (h : r.commit ctx cert = .ok (r', said)) :
    Tells r.state said [] [] r'.state := by
  rw [commit] at h
  split at h
  · cases h
  · next height _ =>
      obtain ⟨rfl, rfl⟩ := Prod.mk.inj (Except.ok.inj h)
      let committed : Replica σ := { r with state := { r.state with
        committed := ctx.scheme.payloadDigest cert.payload, height } }
      have hdone : Tells r.state [.execute cert.view height cert.payload,
          .notify (.committed cert.view height (ctx.scheme.payloadDigest cert.payload))] [] []
          committed.state := ⟨rfl, .stay, rfl, rfl⟩
      exact hdone.append (committed.leave_tells cert.view)

/-- Following the leader tells of a commit where the phase is the decision, and of nothing else. -/
theorem applyPhase_tells {st : Statement} (h : r.applyPhase ctx st = .ok (r', said)) :
    Tells r.state said [] [] r'.state := by
  rw [applyPhase] at h
  simp only at h
  split at h
  · cases h
  cases hphase : st.phase with
  | newView | prepare =>
      rw [hphase] at h
      cases h
  | preCommit | commit =>
      rw [hphase] at h
      obtain ⟨rfl, rfl⟩ := Prod.mk.inj (Except.ok.inj h)
      exact .quiet rfl rfl rfl
  | decide =>
      rw [hphase] at h
      exact (commit_tells h).congr rfl rfl

/-- A proposal tells of the view it is for, if that is entered for it. -/
theorem onPrepare_tells {msg : SignedStatement} (h : r.onPrepare ctx msg = .ok (r', said)) :
    Tells r.state said [] [] r'.state := by
  simp only [onPrepare, bind_eq_ok] at h
  obtain ⟨⟨⟩, -, h⟩ := h
  obtain ⟨rfl, rfl⟩ := Prod.mk.inj (Except.ok.inj h)
  have hmoved : Tells r.state (r.advanceTo ctx msg.body.view).2 [] []
      (r.advanceTo ctx msg.body.view).1.state := by
    rw [advanceTo]
    split
    · exact .nil _
    · next hle => exact ⟨rfl, .single (UInt64.not_le.mp hle), rfl, rfl⟩
  exact hmoved.append (.quiet rfl rfl rfl)

/-- An accepted certificate tells of what is committed on it. -/
theorem onPhase_tells {msg : SignedStatement} (h : r.onPhase ctx msg = .ok (r', said)) :
    Tells r.state said [] [] r'.state := by
  rcases onPhase_ok h with ⟨-, -, hcommit⟩ | ⟨-, happly⟩
  · exact commit_tells hcommit
  · exact applyPhase_tells happly

end Replica

/-! ### What a turn tells -/

/-- **The certificate that the collector emits** for a vote. A leader hands it the votes for the
current view. -/
def Leader.emitted? (ctx : Context) (votes : Collector) (here : View) (vote : Vote) :
    Option Certificate :=
  if ctx.leads vote.ballot.view ∧ vote.ballot.view = here then
    match votes.addVote ctx.scheme ctx.committee vote with
    | .ok (.certified cert, _) => some cert
    | _ => none
  else none

/-- The certificate that the collector emits in a turn. -/
def Turn.emitted? {σ : Type} (ctx : Context) (t : Turn σ) : Option Certificate :=
  match t.input with
  | .message (.vote vote) =>
    Leader.emitted? ctx t.before.votes t.before.replica.state.view vote
  | _ => none

/-- The view that is given up in a turn. -/
def Turn.abandoned? {σ : Type} (t : Turn σ) : Option View :=
  if t.input = .timeout then some t.before.replica.state.view else none

/-- A phase that is voted in is not the last one. -/
theorem Phase.Voted.exists_successor {phase : Phase} (h : phase.Voted) :
    ∃ next, phase.successor = some next := by
  rcases h with rfl | rfl | rfl <;> exact ⟨_, rfl⟩

/-- What a leader says on a certificate with a phase to follow. -/
theorem Leader.follow_says {ctx : Context} {c c' : Collector} {cert : Certificate} {next : Phase}
    {said : Option SignedStatement} (hnext : cert.phase.successor = some next)
    (h : follow ctx c cert = .ok (said, c')) :
    said = some (ctx.sign ⟨cert.view, next, cert.payload, cert⟩) := by
  simp only [follow, hnext] at h
  split at h
  · exact (Prod.mk.inj (Except.ok.inj h)).1.symm
  · obtain ⟨opened, -, h⟩ := bind_eq_ok.mp h
    exact (Prod.mk.inj (Except.ok.inj h)).1.symm

/-- **A certificate that the collector emits is what the leader goes on with**, and it goes on with
nothing else. -/
theorem Leader.emitted?_eq {ctx : Context} {c : Collector} {here : View} {vote : Vote}
    (h : c.Sound ctx Evidence.none.voted) : emitted? ctx c here vote =
      ((onVote ctx c here vote).1.toOption.bind id).map fun next => next.body.justify := by
  by_cases hplace : ctx.leads vote.ballot.view ∧ vote.ballot.view = here
  swap
  · rw [emitted?, if_neg hplace, onVote]
    split
    · rfl
    split
    · rfl
    · next hleads hview => exact absurd ⟨by simpa using hleads, not_not.mp hview⟩ hplace
  rw [emitted?, if_pos hplace, onVote, if_neg (by simp [hplace.1]), if_neg (by simp [hplace.2])]
  cases hadd : c.addVote ctx.scheme ctx.committee vote with
  | error cause => rfl
  | ok answer =>
  obtain ⟨outcome, counted⟩ := answer
  cases outcome with
  | pending | alreadyCertified => rfl
  | certified cert =>
      -- A vote is on a phase that another one follows, so the leader has something to say.
      obtain ⟨⟨said, opened⟩, hfollow⟩ := exists_follow_of_addVote h hadd
      obtain ⟨-, -, hcert⟩ := h.addVote hadd fun _ => trivial
      obtain ⟨-, hballot, hvoted, -⟩ := hcert cert rfl
      obtain ⟨next, hnext⟩ : ∃ next, cert.phase.successor = some next := by
        rw [Certificate.phase, hballot]
        exact hvoted.exists_successor
      simp only [hfollow, follow_says hnext hfollow]
      rfl

namespace Core

variable {σ : Type} [StateStore σ] {ctx : Context} {core core' : Core σ} {now : Instant}
  {input : Input} {said : List Action}

/-- What a vote comes to is told. -/
theorem tells_of_onVote {vote : Vote} {answer : Except Error (List Action)} {mid : Core σ}
    (hsound : core.votes.Sound ctx Evidence.none.voted)
    (h : core.onVote ctx vote = .ok (answer, mid)) :
    Tells core.replica.state (saidIn answer) []
      ((Leader.emitted? ctx core.votes core.replica.state.view vote).toList.map Certificate.phase)
      mid.replica.state := by
  rw [Leader.emitted?_eq hsound]
  rw [onVote] at h
  cases hcount : Leader.onVote ctx core.votes core.replica.state.view vote with
  | mk told votes =>
  rw [hcount] at h
  rcases told with cause | _ | next
  · obtain ⟨rfl, rfl⟩ := Prod.mk.inj (Except.ok.inj h)
    exact .nil _
  · obtain ⟨rfl, rfl⟩ := Prod.mk.inj (Except.ok.inj h)
    exact .nil _
  · have hformed : Tells core.replica.state
        [.notify (.certified next.body.justify.view next.body.justify.phase),
          .broadcast (.ofStatement next)] [] [next.body.justify.phase] core.replica.state :=
      ⟨rfl, .stay, rfl, rfl⟩
    simp only at h
    split at h
    · next happly =>
        obtain ⟨rfl, rfl⟩ := Prod.mk.inj (Except.ok.inj h)
        exact hformed.append (Replica.applyPhase_tells happly)
    · obtain ⟨rfl, rfl⟩ := Prod.mk.inj (Except.ok.inj h)
      exact hformed
    · cases h

/-- What a statement comes to is told. -/
theorem tells_of_statement {envelope : Phase} {signed : SignedStatement}
    {answer : Except Error (List Action)} {mid : Core σ}
    (h : core.Considers ctx (.statement envelope signed) answer mid) :
    Tells core.replica.state (saidIn answer) [] [] mid.replica.state := by
  cases h with
  | refused => exact .nil _
  | @entered _ entry _ _ _ _ _ hanswer =>
      rcases hanswer with ⟨-, henter⟩ | ⟨-, rfl, rfl⟩
      · have htells : Tells core.replica.state (core.replica.enterView ctx entry.view).2 [] []
            (core.replica.enterView ctx entry.view).1.state :=
          core.replica.enterView_tells entry.view
        rwa [henter] at htells
      · exact .nil _
  | accepted _ hanswer => exact Replica.onPrepare_tells hanswer
  | followed _ _ hanswer => exact Replica.onPhase_tells hanswer

/-- **Every turn tells of what it changes.** -/
theorem tells_of_take (hsound : core.votes.Sound ctx Evidence.none.voted)
    (h : core.take ctx now input = .ok (core', said)) :
    let t : Turn σ := ⟨core, input, said, core'⟩
    Tells core.replica.state said t.abandoned?.toList
      ((t.emitted? ctx).toList.map Certificate.phase) core'.replica.state := by
  cases input with
  | start =>
      obtain ⟨rfl, rfl⟩ := Prod.mk.inj (Except.ok.inj h)
      exact core.replica.startRound_tells
  | timeout =>
      obtain ⟨rfl, rfl⟩ := Prod.mk.inj (Except.ok.inj h)
      exact core.replica.onTimeout_tells
  | message message =>
      obtain ⟨answer, mid, hconsider, rfl, hreplica, -⟩ := dispatch_ok h
      rw [hreplica]
      cases message with
      | vote vote => exact tells_of_onVote hsound hconsider
      | statement envelope signed => exact tells_of_statement (considers_of_consider hconsider)
  | propose slot data =>
      rw [take] at h
      cases hoffer : core.offer ctx slot data with
      | none =>
          rw [hoffer] at h
          obtain ⟨rfl, rfl⟩ := Prod.mk.inj (Except.ok.inj h)
          exact .nil _
      | some result =>
          rw [hoffer] at h
          obtain rfl := Except.ok.inj h
          obtain ⟨-, prepare, -, ⟨own, hprepare, rfl⟩ | ⟨hreplica, rfl⟩⟩ := offer_ok hoffer
          · have hsaid : Tells core.replica.state [.broadcast (.statement .prepare prepare)] [] []
                core.replica.state := .quiet rfl rfl rfl
            exact hsaid.append (Replica.onPrepare_tells hprepare)
          · exact .quiet (congrArg (·.state.view) hreplica) rfl rfl

end Core

/-! ### What an answer tells -/

/-- What is kept of one thing is at most one thing. -/
theorem filterMap_singleton {α β : Type} (f : α → Option β) (a : α) :
    [a].filterMap f = (f a).toList := by
  cases h : f a with
  | none => simp [h]
  | some b => simp [h]

namespace Core

variable {σ : Type} [StateStore σ] {ctx : Context} {core core' : Core σ} {now : Instant}
  {input : Input} {out : List Action}

/-- The turns of an input tell of what they change, one after the other, and count what they
execute. -/
theorem tells_of_turns (hsound : core.votes.Sound ctx Evidence.none.voted) (now : Instant)
    (input : Input) :
    let ts := core.turns ctx now input
    Tells core.replica.state (saidOf ts) (ts.filterMap Turn.abandoned?)
        ((ts.filterMap (Turn.emitted? ctx)).map Certificate.phase) (lastOf core ts).replica.state ∧
      Counts core.replica.state.height (heightsIn (saidOf ts))
        (lastOf core ts).replica.state.height := by
  let P (h : List (Turn σ)) (core' : Core σ) : Prop :=
    core'.votes.Sound ctx Evidence.none.voted ∧
      Tells core.replica.state (saidOf h) (h.filterMap Turn.abandoned?)
        ((h.filterMap (Turn.emitted? ctx)).map Certificate.phase) core'.replica.state ∧
      Counts core.replica.state.height (heightsIn (saidOf h)) core'.replica.state.height
  have hturn (h : List (Turn σ)) (mid : Core σ) (input : Input) (now : Instant) (next : Core σ)
      (said : List Action) (hP : P h mid) (htake : mid.take ctx now input = .ok (next, said)) :
      P (h ++ [⟨mid, input, said, next⟩]) next := by
    obtain ⟨hsound, htells, hcounts⟩ := hP
    have hkind := kind_of_take htake
    refine ⟨sound_of_kind hkind hsound, ?_, ?_⟩
    · rw [saidOf_append, saidOf_singleton, List.filterMap_append, List.filterMap_append,
        List.map_append, filterMap_singleton, filterMap_singleton]
      exact htells.append (tells_of_take hsound htake)
    · rw [saidOf_append, saidOf_singleton, heightsIn_append]
      exact hcounts.append (Turn.change_of_kind hkind).counts
  have hboot : P [] core := ⟨hsound, .nil _, .nil _⟩
  exact (keeps_of_turns hturn hboot now input).2

/-- Only an input from outside makes a member give up a view. -/
theorem abandoned_of_turns (h : core.react ctx now input = .ok (core', out)) :
    ((core.turns ctx now input).filterMap Turn.abandoned?).length =
      if input = .timeout then 1 else 0 := by
  have hself : ∀ deliveries (core : Core σ) queue,
      (core.selfTurns ctx now deliveries queue).filterMap Turn.abandoned? = [] := by
    intro deliveries
    induction deliveries with
    | zero => exact fun _ _ => rfl
    | succ deliveries ih =>
        intro core queue
        rw [selfTurns]
        split
        · rfl
        · split
          · rfl
          · exact ih _ _
  obtain ⟨first, said, htake, -⟩ := react_eq h
  rw [turns_of_ok htake, ← List.singleton_append, List.filterMap_append, hself, List.append_nil,
    filterMap_singleton, Turn.abandoned?]
  split
  · rfl
  · rfl

/-- **Every answer tells of what it changes**, and counts what it executes. -/
theorem tells_of_react (hsound : core.votes.Sound ctx Evidence.none.voted)
    (h : core.react ctx now input = .ok (core', out)) :
    let ts := core.turns ctx now input
    Tells core.replica.state out (ts.filterMap Turn.abandoned?)
        ((ts.filterMap (Turn.emitted? ctx)).map Certificate.phase) core'.replica.state ∧
      Counts core.replica.state.height (heightsIn out) core'.replica.state.height := by
  obtain ⟨-, hdone, -⟩ := react_ok h
  have hlast := replica_of_react h
  have htold {β : Type} (kind : Event → Option β) :
      toldIn kind out = toldIn kind (saidOf (core.turns ctx now input)) :=
    hdone fun _ _ => rfl
  have hheights := heightsIn_of_react h
  obtain ⟨htells, hcounts⟩ := tells_of_turns hsound now input
  rw [hheights, hlast]
  refine ⟨⟨?_, ?_, ?_, ?_⟩, hcounts⟩
  · rw [htold, hheights, htells.executed]
  · rw [htold]
    exact htells.entered
  · rw [htold, htells.abandoned]
  · rw [htold, htells.certified]

end Core

/-! ### What is counted -/

/-- Phases are told apart by their names. -/
theorem Phase.name_injective {p q : Phase} (h : p.name = q.name) : p = q := by
  cases p <;> cases q <;> first | rfl | exact absurd h (by decide)

namespace Metrics

/-- The certificates counted under a phase. -/
def formed (m : Metrics) (phase : Phase) : UInt64 := (m.certified.get? phase.name).getD 0

/-- **Metrics after some actions**: all that is told has been counted, and the gauges are at what
was told last. -/
structure Follows (m : Metrics) (actions : List Action) (m' : Metrics) : Prop where
  commits : m'.commits = m.commits + .ofNat (toldIn Event.height? actions).length
  viewChanges : m'.viewChanges = m.viewChanges + .ofNat (toldIn Event.entered? actions).length
  timeouts : m'.timeouts = m.timeouts + .ofNat (toldIn Event.abandoned? actions).length
  formed : ∀ phase, m'.formed phase =
    m.formed phase + .ofNat ((toldIn Event.certified? actions).count phase)
  sizes : m'.payloadBytes.count = m.payloadBytes.count + .ofNat (executedIn actions).length
  bytes : m'.payloadBytes.sum =
    m.payloadBytes.sum + ((executedIn actions).map fun payload => payload.data.length).sum
  view : m'.view = (toldIn Event.entered? actions).foldl (fun _ view => view.toInt64) m.view
  height : m'.height =
    (toldIn Event.height? actions).foldl (fun _ height => height.toInt64) m.height

namespace Follows

variable {m m' m'' : Metrics} {as bs : List Action}

/-- Two numbers that are counted one after the other are counted as their sum. -/
theorem count_add (n : UInt64) (j k : Nat) :
    n + .ofNat j + .ofNat k = n + .ofNat (j + k) := by
  rw [UInt64.ofNat_add, UInt64.add_assoc]

/-- Metrics follow actions that come one after the other, with the counts added up. -/
theorem append (h : Follows m as m') (h' : Follows m' bs m'') : Follows m (as ++ bs) m'' := by
  constructor
  · rw [h'.commits, h.commits, toldIn_append, List.length_append, count_add]
  · rw [h'.viewChanges, h.viewChanges, toldIn_append, List.length_append, count_add]
  · rw [h'.timeouts, h.timeouts, toldIn_append, List.length_append, count_add]
  · intro phase
    rw [h'.formed, h.formed, toldIn_append, List.count_append, count_add]
  · rw [h'.sizes, h.sizes, executedIn_append, List.length_append, count_add]
  · rw [h'.bytes, h.bytes, executedIn_append, List.map_append, List.sum_append, Nat.add_assoc]
  · rw [h'.view, h.view, toldIn_append, List.foldl_append]
  · rw [h'.height, h.height, toldIn_append, List.foldl_append]

/-- Metrics stay as they are where nothing is told and nothing is executed. -/
theorem quiet (m : Metrics) (htold : as.filterMap Action.event? = [])
    (hexecuted : executedIn as = []) : Follows m as m := by
  have hnone {β : Type} (kind : Event → Option β) : toldIn kind as = [] :=
    toldIn_of_quiet htold
  constructor <;> simp [hnone, hexecuted]

/-- Dropped messages are counted apart. -/
theorem of_dropped {dropped : Labelled} (h : Follows { m with dropped } as m') : Follows m as m' :=
  ⟨h.commits, h.viewChanges, h.timeouts, h.formed, h.sizes, h.bytes, h.view, h.height⟩

end Follows

/-- A certificate is counted under its phase, and under no other. -/
theorem formed_count (m : Metrics) (phase other : Phase) :
    formed { m with certified := m.certified.count phase.name } other =
      m.formed other + .ofNat ([phase].count other) := by
  have hcount : formed { m with certified := m.certified.count phase.name } other =
      ((m.certified.count phase.name).get? other.name).getD 0 := rfl
  rw [hcount, Labelled.get?_count, List.count_singleton]
  by_cases h : other = phase
  · simp [h, formed]
  · have hname : other.name ≠ phase.name := fun heq => h (Phase.name_injective heq)
    simp [hname, Ne.symm h, formed]

/-- **Every action is counted** for what it tells. -/
theorem follows_observeAction (m : Metrics) (a : Action) : Follows m [a] (m.observeAction a) := by
  have hstays (n : UInt64) : n = n + .ofNat 0 := (UInt64.add_zero n).symm
  cases a with
  | send _ message | broadcast message => cases message <;> exact .quiet m rfl rfl
  | resetTimer => exact .quiet m rfl rfl
  | execute =>
      exact ⟨hstays _, hstays _, hstays _, fun _ => hstays _, rfl, rfl, rfl, rfl⟩
  | notify event =>
      cases event with
      | committed =>
          exact ⟨rfl, hstays _, hstays _, fun _ => hstays _, hstays _, rfl, rfl, rfl⟩
      | viewChanged =>
          exact ⟨hstays _, rfl, hstays _, fun _ => hstays _, hstays _, rfl, rfl, rfl⟩
      | timedOut =>
          exact ⟨hstays _, hstays _, rfl, fun _ => hstays _, hstays _, rfl, rfl, rfl⟩
      | certified view phase =>
          exact ⟨hstays _, hstays _, hstays _, m.formed_count phase, hstays _, rfl, rfl, rfl⟩

/-- **All that actions tell is counted.** -/
theorem follows_observe (m : Metrics) (actions : List Action) :
    Follows m actions (m.observe actions) := by
  induction actions generalizing m with
  | nil => exact .quiet m rfl rfl
  | cons action rest ih => exact (m.follows_observeAction action).append (ih _)

end Metrics

namespace Core

variable {σ : Type} [StateStore σ] {ctx : Context} {core core' : Core σ} {now : Instant}
  {input : Input} {out said : List Action}

/-- Whatever comes of a message, the handlers count nothing. -/
theorem Considers.metrics {message : Message} {answer : Except Error (List Action)} {mid : Core σ}
    (h : core.Considers ctx message answer mid) : mid.metrics = core.metrics := by
  cases h <;> rfl

/-- An offer is not counted by the core that makes it. -/
theorem metrics_of_offer {slot : Slot} {data : Bytes}
    (h : core.offer ctx slot data = some (core', said)) : core'.metrics = core.metrics := by
  rw [offer] at h
  split at h
  · cases h
  split at h
  · cases h
  simp only at h
  split at h
  · obtain ⟨rfl, -⟩ := Prod.mk.inj (Option.some.inj h)
    rfl
  · obtain ⟨rfl, -⟩ := Prod.mk.inj (Option.some.inj h)
    rfl

/-- A turn counts no more than a message that is dropped. -/
theorem metrics_of_take (h : core.take ctx now input = .ok (core', said)) :
    ∃ dropped, core'.metrics = { core.metrics with dropped } := by
  cases input with
  | start | timeout =>
      obtain ⟨rfl, -⟩ := Prod.mk.inj (Except.ok.inj h)
      exact ⟨_, rfl⟩
  | message message =>
      obtain ⟨⟨answer, mid⟩, hconsider, h⟩ := bind_eq_ok.mp h
      have hmid := (considers_of_consider hconsider).metrics
      cases answer with
      | ok actions =>
          obtain ⟨rfl, -⟩ := Prod.mk.inj (Except.ok.inj h)
          exact ⟨_, hmid⟩
      | error cause =>
          obtain ⟨rfl, -⟩ := Prod.mk.inj (Except.ok.inj h)
          exact ⟨_, congrArg (fun m => m.messageDropped message.kind) hmid⟩
  | propose slot data =>
      rw [take] at h
      cases hoffer : core.offer ctx slot data with
      | none =>
          rw [hoffer] at h
          obtain ⟨rfl, -⟩ := Prod.mk.inj (Except.ok.inj h)
          exact ⟨_, rfl⟩
      | some result =>
          rw [hoffer] at h
          obtain rfl := Except.ok.inj h
          exact ⟨_, metrics_of_offer hoffer⟩

/-- **An answer counts what it returns.** -/
theorem follows_of_react (h : core.react ctx now input = .ok (core', out)) :
    core.metrics.Follows out core'.metrics := by
  have hturns : ∃ dropped, (lastOf core (core.turns ctx now input)).metrics =
      { core.metrics with dropped } := by
    let P (_ : List (Turn σ)) (core' : Core σ) : Prop :=
      ∃ dropped, core'.metrics = { core.metrics with dropped }
    have hturn (h : List (Turn σ)) (mid : Core σ) (input : Input) (now : Instant) (next : Core σ)
        (said : List Action) (hP : P h mid) (htake : mid.take ctx now input = .ok (next, said)) :
        P (h ++ [⟨mid, input, said, next⟩]) next := by
      obtain ⟨dropped, hmid⟩ := hP
      obtain ⟨dropped', hnext⟩ := metrics_of_take htake
      exact ⟨dropped', by rw [hnext, hmid]⟩
    have hboot : P [] core := ⟨_, rfl⟩
    exact keeps_of_turns (h := []) hturn hboot now input
  obtain ⟨dropped, hlast⟩ := hturns
  obtain ⟨first, said, htake, hroute | ⟨-, hcore, rfl, rfl⟩⟩ := react_eq h
  · rw [route, bind_eq_ok] at hroute
    obtain ⟨⟨settled, out'⟩, hsettle, hroute⟩ := hroute
    obtain ⟨rfl, rfl⟩ := Prod.mk.inj (Except.ok.inj hroute)
    obtain ⟨hsettled, -, -⟩ := settle_ok hsettle
    rw [turns_of_ok htake, lastOf, ← hsettled] at hlast
    have hfollows := settled.metrics.follows_observe out'
    rw [hlast] at hfollows
    simp only [hlast]
    exact hfollows.of_dropped
  · rw [hcore]
    exact .quiet _ rfl rfl

end Core

/-! ### What is shown -/

/-- **An input and what is returned for it**, with the process that is asked. -/
structure Answered (σ : Type) where
  before : Core σ
  now : Instant
  input : Input
  out : List Action

section Shown

variable {σ : Type} [StateStore σ] {ctx : Context} {first core : Core σ}
  {as bs : List (Answered σ)}

/-- **What a process was asked**, with what it returned, since it was created. -/
inductive Core.Session (ctx : Context) (first : Core σ) : List (Answered σ) → Core σ → Prop
  | boot : Session ctx first [] first
  | ask {as core now input core' out} (h : Session ctx first as core)
      (hreact : core.react ctx now input = .ok (core', out)) :
      Session ctx first (as ++ [⟨core, now, input, out⟩]) core'

/-- All that was returned. -/
def returnedIn (as : List (Answered σ)) : List Action := as.flatMap Answered.out

/-- The certificates that the collector has emitted. -/
def emittedIn (ctx : Context) (as : List (Answered σ)) : List Certificate :=
  as.flatMap fun a => (a.before.turns ctx a.now a.input).filterMap (Turn.emitted? ctx)

/-- **A status shows a state**: the view and who leads it, the phase, the lock, and how far the
chain has come. -/
structure Status.Shows (ctx : Context) (status : Status) (state : ReplicaState) : Prop where
  view : status.view = state.view
  phase : status.phase = state.phase
  height : status.height = state.height
  committed : status.committed = state.committed
  lockedView : status.lockedView = state.locked.map Certificate.view
  leader : status.leader = ctx.committee.leader state.view
  isLeader : status.isLeader = true ↔ ctx.committee.leader state.view = ctx.me

/-- The status that is made for a state shows it. -/
theorem Status.shows_of (ctx : Context) (state : ReplicaState) :
    (Status.of ctx state).Shows ctx state :=
  ⟨rfl, rfl, rfl, rfl, rfl, rfl, decide_eq_true_iff⟩

/-- **What a process shows is true**: of its state, of what it has returned since it was created,
and of what it was asked. Timeouts and certificates are counted in words of 64 bits; of the other
counts 64 bits hold as much as there can be. -/
structure Core.Truthful (ctx : Context) (first : Core σ) (as : List (Answered σ)) (core : Core σ) :
    Prop where
  status : core.status.Shows ctx core.replica.state
  view : core.metrics.view = core.replica.state.view.toInt64
  height : core.metrics.height = core.replica.state.height.toInt64
  /-- The heights have grown by one with each payload that was executed. -/
  executed : core.replica.state.height.toNat =
    first.replica.state.height.toNat + (executedIn (returnedIn as)).length
  commits : core.metrics.commits.toNat = (executedIn (returnedIn as)).length
  sizes : core.metrics.payloadBytes.count.toNat = (executedIn (returnedIn as)).length
  bytes : core.metrics.payloadBytes.sum =
    ((executedIn (returnedIn as)).map fun payload => payload.data.length).sum
  viewChanges : core.metrics.viewChanges.toNat = (toldIn Event.entered? (returnedIn as)).length
  /-- The views that were entered increase from the first one to the current one. -/
  increasing :
    (first.replica.state.view :: toldIn Event.entered? (returnedIn as)).Pairwise (· < ·)
  current : (first.replica.state.view :: toldIn Event.entered? (returnedIn as)).getLast? =
    some core.replica.state.view
  timeouts : core.metrics.timeouts = .ofNat ((as.map Answered.input).count .timeout)
  formed : ∀ phase, core.metrics.formed phase =
    .ofNat (((emittedIn ctx as).map Certificate.phase).count phase)

/-- A word counts exactly up to its last number. -/
theorem toNat_count {k : Nat} (h : k < 2 ^ 64) : (0 + UInt64.ofNat k).toNat = k := by
  rw [UInt64.zero_add, UInt64.toNat_ofNat_of_lt' h]

/-- For each payload that is executed there is a height. -/
theorem length_heightsIn (actions : List Action) :
    (heightsIn actions).length = (executedIn actions).length := by
  rw [heightsIn, executedIn]
  induction deedsIn actions with
  | nil => rfl
  | cons deed rest ih =>
      cases deed with
      | vote => exact ih
      | execute => exact congrArg (· + 1) ih

/-- What is told in a life of a process, and what is counted. -/
theorem Core.Session.tells (hrest : first.AtRest ctx) (h : first.Session ctx as core) :
    core.AtRest ctx ∧
    (∃ gone, gone.length = (as.map Answered.input).count .timeout ∧
      Tells first.replica.state (returnedIn as) gone ((emittedIn ctx as).map Certificate.phase)
        core.replica.state) ∧
    Counts first.replica.state.height (heightsIn (returnedIn as)) core.replica.state.height ∧
    first.metrics.Follows (returnedIn as) core.metrics := by
  induction h with
  | boot => exact ⟨hrest, ⟨[], rfl, .nil _⟩, .nil _, .quiet _ rfl rfl⟩
  | @ask as core now input core' out _ hreact ih =>
      obtain ⟨hcore, ⟨gone, hgone, htells⟩, hcounts, hfollows⟩ := ih
      obtain ⟨htells', hcounts'⟩ := tells_of_react hcore.sound hreact
      have hreturned : returnedIn (as ++ [⟨core, now, input, out⟩]) = returnedIn as ++ out := by
        simp [returnedIn]
      have hemitted : emittedIn ctx (as ++ [⟨core, now, input, out⟩]) =
          emittedIn ctx as ++ (core.turns ctx now input).filterMap (Turn.emitted? ctx) := by
        simp [emittedIn]
      simp only [hreturned, hemitted, List.map_append, heightsIn_append]
      refine ⟨hcore.react hreact, ⟨_, ?_, htells.append htells'⟩, hcounts.append hcounts',
        hfollows.append (follows_of_react hreact)⟩
      rw [List.length_append, hgone, abandoned_of_turns hreact, List.count_append,
        List.map_singleton, List.count_singleton]
      simp only [beq_iff_eq]

/-- **Status and metrics tell the truth.** After every answer of a process, whatever it was asked
and whatever its store does, the status shows the state of its replica; the gauges are at its view
and height; the counts of commits and of sizes are the number of payloads that it returned to be
executed, and that is by how much its height has grown; views changed, timeouts and certificates are
counted exactly. -/
theorem status_and_metrics_tell_the_truth {store : σ} (hcreate : Core.create ctx store = .ok first)
    (h : first.Session ctx as core) : first.Truthful ctx as core := by
  obtain ⟨hrest, ⟨gone, hgone, htells⟩, hcounts, hfollows⟩ :=
    h.tells (Core.atRest_of_create hcreate)
  obtain ⟨r, -, hfirst⟩ := bind_eq_ok.mp hcreate
  obtain rfl := Except.ok.inj hfirst
  have hheights := length_heightsIn (returnedIn as)
  have hexecuted := hcounts.reached.trans (congrArg _ hheights)
  -- As heights and views are words, there are no more commits and views than a word can count.
  have hfew : (executedIn (returnedIn as)).length < 2 ^ 64 :=
    Nat.lt_of_le_of_lt (hexecuted ▸ Nat.le_add_left ..) (UInt64.toNat_lt _)
  have hentered := Nat.lt_of_le_of_lt htells.entered.length_le (UInt64.toNat_lt _)
  constructor
  case status => exact hrest.shown ▸ Status.shows_of ctx core.replica.state
  case view => exact hfollows.view.trans (htells.entered.foldl UInt64.toInt64)
  case height =>
    rw [hfollows.height, htells.executed]
    exact hcounts.climbs.foldl UInt64.toInt64
  case executed => exact hexecuted
  case commits =>
    rw [hfollows.commits, htells.executed, hheights]
    exact toNat_count hfew
  case sizes => exact (congrArg _ hfollows.sizes).trans (toNat_count hfew)
  case bytes => exact hfollows.bytes.trans (Nat.zero_add _)
  case viewChanges => exact (congrArg _ hfollows.viewChanges).trans (toNat_count hentered)
  case increasing => exact htells.entered.pairwise
  case current => exact htells.entered.getLast?
  case timeouts =>
    rw [hfollows.timeouts, htells.abandoned, hgone]
    exact UInt64.zero_add _
  case formed =>
    intro phase
    rw [hfollows.formed, htells.certified]
    exact UInt64.zero_add _

/-- Whatever a process comes to, it was asked for. -/
theorem Core.Onward.exists_session (h : first.Onward ctx core) :
    ∃ as, first.Session ctx as core := by
  induction h with
  | refl => exact ⟨[], .boot⟩
  | answer _ hreact ih =>
      obtain ⟨as, has⟩ := ih
      exact ⟨_, has.ask hreact⟩

end Shown

namespace Reporting

/-- The leader of views 1 and 5. -/
def ctx : Context := .numbered .four 1 Committee.one_mem_four

/-- A store that holds a state of view 3 and refuses to save another one. -/
def store : UnreliableStore :=
  { inner := ⟨some ⟨3, none, none, Scheme.transparent.genesisDigest, 4⟩⟩
    refusesSave := fun _ => true }

/-- The payload that is decided in view 4. -/
def decided : Payload := ⟨Scheme.transparent.genesisDigest, [80, 81, 82]⟩

/-- The payload that is proposed in view 5. -/
def proposed : Payload := ⟨Scheme.transparent.payloadDigest decided, [83]⟩

/-- The vote of a member for it. -/
def vote (n : UInt8) (phase : Phase) : Input :=
  .message (.vote (Scheme.transparent.castVote (.numbered n) ⟨phase, 5, proposed⟩))

/-- The member gives up view 4, hears of the decision there, and leads view 5 until it is locked.
One vote is repeated before there is a quorum. -/
def inputs : List Input :=
  let genesis := Scheme.transparent.genesis
  [.start, .timeout, .numbered 0 4 .decide decided (.numbered ⟨.commit, 4, decided⟩ [0, 2, 3]),
    .numbered 2 5 .newView genesis.payload genesis,
    .numbered 3 5 .newView genesis.payload genesis, .propose ⟨5, genesis, none⟩ proposed.data,
    vote 2 .prepare, vote 2 .prepare, vote 3 .prepare, vote 0 .preCommit, vote 2 .preCommit]

end Reporting

open Reporting in
/-- A member resumes at height 4 in view 4, which it gives up. It commits three bytes that others
have decided there, and leads view 5 up to its Commit phase, with a lock of that view. Its store
saves nothing of that. -/
theorem status_and_metrics_tell_the_truth_of_resumed_member :
    ∃ (first core : Core UnreliableStore) (as : List (Answered UnreliableStore)),
      Core.create ctx store = .ok first ∧ first.Session ctx as core ∧
      first.Truthful ctx as core ∧
      core.status.phase = core.replica.state.phase ∧
      core.status = ⟨5, .commit, 5, Scheme.transparent.payloadDigest decided, .numbered 1, true,
        some 5⟩ ∧
      (core.metrics.commits, core.metrics.viewChanges, core.metrics.timeouts) = (1, 1, 1) ∧
      core.metrics.payloadBytes.sum = 3 ∧ core.metrics.formed .prepare = 1 ∧
      core.metrics.formed .preCommit = 1 ∧ core.metrics.formed .commit = 0 := by
  have hcomputed : ((Core.create ctx store).toOption.bind fun first =>
      (first.after ctx inputs).map fun core => decide (
        core.status = ⟨5, .commit, 5, Scheme.transparent.payloadDigest decided, .numbered 1, true,
          some 5⟩ ∧
        (core.metrics.commits, core.metrics.viewChanges, core.metrics.timeouts) = (1, 1, 1) ∧
        core.metrics.payloadBytes.sum = 3 ∧ core.metrics.formed .prepare = 1 ∧
        core.metrics.formed .preCommit = 1 ∧ core.metrics.formed .commit = 0)) = some true := by
    decide +kernel
  obtain ⟨first, hfirst, hafter⟩ := Option.bind_eq_some_iff.mp hcomputed
  obtain ⟨core, hcore, hshown⟩ := Option.map_eq_some_iff.mp hafter
  obtain ⟨as, has⟩ := (Core.Onward.refl.after hcore).exists_session
  have hcreate : Core.create ctx store = .ok first := by
    cases hcreate : Core.create ctx store with
    | ok created => rw [hcreate] at hfirst; exact congrArg _ (Option.some.inj hfirst)
    | error cause => rw [hcreate] at hfirst; cases hfirst
  have htruthful := status_and_metrics_tell_the_truth hcreate has
  exact ⟨first, core, as, hcreate, has, htruthful, htruthful.status.phase,
    of_decide_eq_true hshown⟩

end HotStuff
