import HotStuff.Proofs.InPlace

/-!
# Refusals Are Atomic

A refused message leaves nothing behind. For most messages that is so because all checks come before
the first change. A vote is the exception: the leader puts the certificate into the collector, and
opens the ballot of the next phase only afterwards, which can be refused in general. In a sound
collector it is not, since all ballots of a view are over one payload. After that the core is
routed like after any message, and since it was at rest, that changes nothing either.

## Main results

* `Leader.refused_of_onVote`: a leader that refuses a vote has not counted it.
* `Core.AtRest.eq_of_refused`: a core that refuses a message is as it was.
* `refusal_is_atomic`: what is left of a refused message is that it was dropped.
-/

namespace HotStuff

/-! ### A certificate can be followed -/

/-- A ballot is determined by its phase, its view and its payload. -/
theorem Ballot.eq_of_parts {a b : Ballot} (hphase : a.phase = b.phase) (hview : a.view = b.view)
    (hpayload : a.payload = b.payload) : a = b := by
  cases a
  cases b
  simp_all

namespace Collector

variable {ctx : Context} {genuine : Ballot → Seal → Prop} {c : Collector}

/-- Where a view is open for a payload, every ballot on it can be opened. -/
theorem Sound.exists_openBallot (h : c.Sound ctx genuine) {target : Ballot}
    (hopened : c.opened target.view = some target.payload) :
    ∃ c', c.openBallot target = .ok c' := by
  rw [Collector.openBallot]
  cases ht : c.tally? target.view target.phase with
  | none => exact ⟨_, rfl⟩
  | some t =>
      obtain ⟨hview, hphase⟩ := h.place _ _ t ht
      have hpayload : target.payload = t.target.payload :=
        Option.some.inj (hopened.symm.trans (h.payload _ _ t ht))
      have htarget : t.target = target := Ballot.eq_of_parts hphase hview hpayload.symm
      exact ⟨c, if_pos htarget⟩

end Collector

namespace Leader

variable {ctx : Context} {genuine : Ballot → Seal → Prop} {c c' : Collector} {here : View}
  {vote : Vote}

/-- A certificate on the payload that its view is open for can be followed. -/
theorem exists_follow (h : c.Sound ctx genuine) {cert : Certificate}
    (hopened : c.opened cert.view = some cert.payload) :
    ∃ answer, follow ctx c cert = .ok answer := by
  rw [follow]
  cases cert.phase.successor with
  | none => exact ⟨_, rfl⟩
  | some next =>
      by_cases hdecide : next = .decide
      · simp only [if_pos hdecide]
        exact ⟨_, rfl⟩
      · let target : Ballot := ⟨next, cert.view, cert.payload⟩
        obtain ⟨opened, hopen⟩ : ∃ c', c.openBallot target = .ok c' := h.exists_openBallot hopened
        simp only [if_neg hdecide]
        exact ⟨_, bind_eq_ok.mpr ⟨opened, hopen, rfl⟩⟩

/-- A certificate that a vote completes can be followed. -/
theorem exists_follow_of_addVote (h : c.Sound ctx Evidence.none.voted) {cert : Certificate}
    {counted : Collector}
    (hadd : c.addVote ctx.scheme ctx.committee vote = .ok (.certified cert, counted)) :
    ∃ answer, follow ctx counted cert = .ok answer := by
  obtain ⟨hsound, -, hcert⟩ := h.addVote hadd fun _ => trivial
  obtain ⟨-, hballot, -, hopened⟩ := hcert cert rfl
  refine exists_follow hsound ?_
  rw [Certificate.view, Certificate.payload, hballot]
  exact hopened

/-- **A leader that refuses a vote has not counted it.** -/
theorem refused_of_onVote (h : c.Sound ctx Evidence.none.voted) {cause : Error}
    (hok : onVote ctx c here vote = (.error cause, c')) : c' = c := by
  rw [onVote] at hok
  split at hok
  · exact (Prod.mk.inj hok).2.symm
  split at hok
  · exact (Prod.mk.inj hok).2.symm
  split at hok
  · exact (Prod.mk.inj hok).2.symm
  · next cert counted hadd =>
      -- A certificate was formed: what follows cannot be refused.
      obtain ⟨answer, hfollow⟩ := exists_follow_of_addVote h hadd
      rw [hfollow] at hok
      cases (Prod.mk.inj hok).1
  · cases (Prod.mk.inj hok).1

end Leader

namespace Core

variable {σ : Type} [StateStore σ] {ctx : Context} {core mid : Core σ} {message : Message}
  {cause : Error}

/-- **A core that refuses a message is as it was.** -/
theorem AtRest.eq_of_refused (hrest : core.AtRest ctx)
    (h : core.consider ctx message = .ok (.error cause, mid)) : mid = core := by
  cases considers_of_consider h with
  | refused => rfl
  | uncounted hcount => rw [Leader.refused_of_onVote hrest.sound hcount]

end Core

/-! ### Atomicity -/

/-- Counting under a label adds one to that label and to no other. -/
theorem Labelled.get?_count (t : Labelled) (label other : String) :
    Table.get? (t.count label) other =
      if other = label then some ((Table.get? t label).getD 0 + 1) else Table.get? t other :=
  Table.get?_insert t label _ other

/-- **Rejection is atomic.** When the handler of a message ends in a refusal, no action comes of it,
and the core is as it was, with one more message of that kind dropped. A replica that performs its
handlers in place, writing field by field, comes to the same outcomes, and with a refusal its state
and its store are as they were. -/
theorem refusal_is_atomic {σ : Type} [StateStore σ] {ctx : Context} :
    (∀ (core mid : Core σ) (now : Instant) (message : Message) (cause : Error), core.Reached ctx →
      core.consider ctx message = .ok (.error cause, mid) →
      ∃ dropped : Labelled,
        core.handle ctx now message =
          .ok ({ core with metrics := { core.metrics with dropped } }, []) ∧
        (∀ kind, dropped.get? kind = if kind = message.kind then
          some ((core.metrics.dropped.get? message.kind).getD 0 + 1)
          else core.metrics.dropped.get? kind)) ∧
      ∀ (r : Replica σ) (msg : SignedStatement) (data : Statement),
        (InPlace.onPrepare ctx msg).Performs r (Outcome.ofCheck (r.onPrepare ctx msg)) ∧
        (InPlace.onPhase ctx msg).Performs r (r.onPhase ctx msg) ∧
        (InPlace.applyPhase ctx data).Performs r (r.applyPhase ctx data) := by
  refine ⟨?_, ?_⟩
  · intro core mid now message cause hreached hrefused
    obtain rfl := hreached.atRest.eq_of_refused hrefused
    exact ⟨_, hreached.atRest.handle_refused hrefused, Labelled.get?_count _ _⟩
  · intro r msg data
    exact ⟨InPlace.onPrepare_performs r msg, InPlace.onPhase_performs r msg,
      InPlace.applyPhase_performs r data⟩

namespace Repeating

/-- Member 0 is in the committee. -/
theorem leader_mem : .numbered 0 ∈ Committee.four.members := by decide

/-- The leader of view 0. -/
def ctx : Context := .numbered .four 0 leader_mem

/-- The payload proposed. -/
def payload : Payload := ⟨Scheme.transparent.genesisDigest, [80]⟩

/-- The vote of the second member. -/
def vote : Vote := Scheme.transparent.castVote (.numbered 1) ⟨.prepare, 0, payload⟩

/-- Two members announce view 0, the leader proposes, and the second member votes. -/
def inputs : List Input :=
  let genesis := Scheme.transparent.genesis
  [.numbered 1 0 .newView genesis.payload genesis, .numbered 2 0 .newView genesis.payload genesis,
    .start, .propose ⟨0, genesis, none⟩ payload.data, .message (.vote vote)]

/-- Why a message is refused. -/
def refusal? (core : Core MemoryStore) (message : Message) : Option Error :=
  match core.consider ctx message with
  | .ok (.error cause, _) => some cause
  | _ => none

end Repeating

open Repeating in
/-- A member votes twice in one phase. The second vote is dropped, and that is all. -/
theorem refusal_is_atomic_of_repeated_vote :
    ∃ core : Core MemoryStore, core.Reached ctx ∧ core.votes.voteCount 0 .prepare = 2 ∧
      ∃ mid dropped, core.consider ctx (.vote vote) =
          .ok (.error (.invalidVote (.repeatedVote (.numbered 1))), mid) ∧
        core.handle ctx 0 (.vote vote) =
          .ok ({ core with metrics := { core.metrics with dropped } }, []) ∧
        dropped.get? "Vote" = some 1 := by
  obtain ⟨core, hreached, hcount, hnone, hrefused⟩ := Core.exists_reached ctx
    (P := fun core => core.votes.voteCount 0 .prepare = 2 ∧
      core.metrics.dropped.get? "Vote" = none ∧
      refusal? core (.vote vote) = some (.invalidVote (.repeatedVote (.numbered 1))))
    (show ((Core.fresh ctx).after ctx inputs).map _ = some true by decide +kernel)
  rw [refusal?] at hrefused
  split at hrefused
  · next cause mid hconsider =>
      obtain rfl := Option.some.inj hrefused
      obtain ⟨dropped, hhandle, hdropped⟩ :=
        refusal_is_atomic.1 core mid 0 (.vote vote) _ hreached hconsider
      refine ⟨core, hreached, hcount, mid, dropped, hconsider, hhandle, ?_⟩
      have hkind : (Message.vote vote).kind = "Vote" := rfl
      rw [hdropped, if_pos hkind.symm, hkind, hnone]
      rfl
  · cases hrefused

end HotStuff
