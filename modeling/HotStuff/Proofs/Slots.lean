import HotStuff.Proofs.Admission

/-!
# Slots That Went Stale

A slot is taken, the data is fetched, and only then is the proposal made; any messages may be
handled in between. A slot of another view is dropped. Within a view the slot can still go out of
date, since the decision of an earlier view moves the tip of the committed chain and leaves view and
phase alone. A payload that the slot asked to propose again then no longer extends the chain; and
where the slot asked for fresh data, its certificate may be for a payload that extends the new tip.

## Main definitions

* `Statement.FitsTip`: what a proposal owes to the tip of the chain.
* `Replica.HasRoom`: the next decision in sequence can be counted, or there is none before the next
  proposal.

## Main results

* `Core.exists_settle`: delivery to itself comes to an end without an overflow where there is room.
* `proposal_fits_tip_iff`: when the proposal for a slot fits the tip.
-/

namespace HotStuff

/-! ### What a slot was taken on -/

/-- The payload of a Prepare certificate that extends the chain: some may be locked on it. -/
def Certificate.pending? (tip : Digest) (cert : Certificate) : Option Payload :=
  if cert.phase = .prepare ∧ cert.payload.parent = tip then some cert.payload else none

/-- **A proposal that fits the tip** of the chain: it extends the tip, and it is the payload that
its certificate leaves pending there, if there is one. -/
structure Statement.FitsTip (tip : Digest) (st : Statement) : Prop where
  parent : st.payload.parent = tip
  pending : ∀ p, st.justify.pending? tip = some p → st.payload = p

/-- A slot asks for what its certificate leaves pending on the chain. -/
theorem Leader.reproposal_of_slot? {ctx : Context} {c : Collector} {state : ReplicaState}
    {slot : Slot} (h : slot? ctx c state = some slot) :
    slot.reproposal = slot.justify.pending? state.committed := by
  rw [slot?] at h
  split at h
  · cases h
  split at h
  · cases h
  obtain rfl := Option.some.inj h
  simp only [Certificate.pending?, Certificate.isGenesis]
  generalize (c.highCertificate ctx.committee state.view).getD ctx.scheme.genesis = justify
  -- A Prepare certificate is not the genesis certificate.
  by_cases hphase : justify.phase = .prepare
  · simp [hphase]
  · simp [hphase]

/-- The leader of the view may propose on the highest certificate that the members there brought. -/
theorem Leader.slot?_of_highCertificate {ctx : Context} {c : Collector} {s : ReplicaState}
    {justify : Certificate} (hleads : ctx.leads s.view) (hphase : s.phase = .newView)
    (hcount : ¬ c.newViewCount s.view < ctx.committee.quorum)
    (hhigh : c.highCertificate ctx.committee s.view = some justify) :
    slot? ctx c s = some ⟨s.view, justify, justify.pending? s.committed⟩ := by
  have hwaits : ¬ (!ctx.leads s.view || decide (s.phase ≠ .newView)) = true := by
    simp [hleads, hphase]
  have hsome : ∃ again, slot? ctx c s = some ⟨s.view, justify, again⟩ := by
    rw [slot?, if_neg hwaits]
    simp only [if_neg hcount, hhigh, Option.getD_some]
    exact ⟨_, rfl⟩
  obtain ⟨again, hslot⟩ := hsome
  have hagain : again = justify.pending? s.committed := reproposal_of_slot? hslot
  rw [hslot, hagain]

/-- **When a proposal fits the tip.** It does while the tip is the one that the slot was taken on.
After that, only fresh data can fit, where the certificate leaves nothing else pending. -/
theorem Leader.fitsTip_iff {slot : Slot} {taken : Digest}
    (hslot : slot.reproposal = slot.justify.pending? taken) (tip : Digest) (data : Bytes) :
    Statement.FitsTip tip
        ⟨slot.view, .prepare, slot.reproposal.getD ⟨tip, data⟩, slot.justify⟩ ↔
      tip = taken ∨
        slot.reproposal = none ∧ ∀ p, slot.justify.pending? tip = some p → p = ⟨tip, data⟩ := by
  cases hagain : slot.reproposal with
  | none =>
      have hnone : slot.justify.pending? taken = none := hslot.symm.trans hagain
      constructor
      · rintro ⟨-, hpending⟩
        exact Or.inr ⟨rfl, fun p hp => (hpending p hp).symm⟩
      · rintro (rfl | ⟨-, hpending⟩)
        · exact ⟨rfl, fun p hp => by cases hnone.symm.trans hp⟩
        · exact ⟨rfl, fun p hp => (hpending p hp).symm⟩
  | some p =>
      have hsome : slot.justify.pending? taken = some p := hslot.symm.trans hagain
      have hp : p = slot.justify.payload ∧ p.parent = taken := by
        rw [Certificate.pending?] at hsome
        split at hsome
        · next hholds =>
            obtain rfl := Option.some.inj hsome
            exact ⟨rfl, hholds.2⟩
        · cases hsome
      constructor
      · rintro ⟨hparent, -⟩
        exact Or.inl (hparent.symm.trans hp.2)
      · rintro (rfl | ⟨hnone, -⟩)
        · exact ⟨hp.2, fun q hq => Option.some.inj (hsome.symm.trans hq)⟩
        · cases hnone

/-! ### Room for a decision -/

namespace Replica

variable {σ : Type} [StateStore σ] {ctx : Context} {r : Replica σ}

/-- **Room for a decision.** The next decision in sequence can be counted, or there is none before
the next proposal. -/
def HasRoom (r : Replica σ) : Prop :=
  Height.next? r.state.height ≠ none ∨ r.state.phase = .newView ∨ r.state.phase = .decide

/-- Entering a view keeps the room for a decision: in a view that is entered there is none before
the next proposal. -/
theorem enterView_hasRoom (hroom : r.HasRoom) (view : View) :
    (r.enterView ctx view).1.HasRoom := by
  by_cases h : view ≤ r.state.view
  · rwa [enterView_of_le h]
  · rw [enterView_of_lt (UInt64.not_le.mp h)]
    exact Or.inr (Or.inl rfl)

/-- A commit that can be counted leaves nothing more to be decided in sequence. -/
theorem exists_commit (hheight : Height.next? r.state.height ≠ none)
    (hphase : r.state.phase = .decide) (cert : Certificate) :
    ∃ answer, r.commit ctx cert = .ok answer ∧ answer.1.HasRoom := by
  obtain ⟨height, hnext⟩ := Option.ne_none_iff_exists'.mp hheight
  let committed : Replica σ := { r with state := { r.state with
    committed := ctx.scheme.payloadDigest cert.payload, height } }
  have hcommitted : committed.HasRoom := Or.inr (Or.inr hphase)
  have hleft : (committed.leave ctx cert.view).1.HasRoom := by
    rw [leave]
    split
    · split
      · exact enterView_hasRoom hcommitted _
      · exact hcommitted
    · exact hcommitted
  have hcommit : r.commit ctx cert = .ok ((committed.leave ctx cert.view).1,
      .execute cert.view height cert.payload ::
        .notify (.committed cert.view height (ctx.scheme.payloadDigest cert.payload)) ::
          (committed.leave ctx cert.view).2) := by
    rw [commit, hnext]
  exact ⟨_, hcommit, hleft⟩

/-- **Applying a phase** where there is room: it is refused, or leaves room. -/
theorem applyPhase_hasRoom (ctx : Context) (hroom : r.HasRoom) (st : Statement) :
    (∃ cause, r.applyPhase ctx st = .error (.refused cause)) ∨
      ∃ answer, r.applyPhase ctx st = .ok answer ∧ answer.1.HasRoom := by
  by_cases hfits : st.view ≠ r.state.view ∨ r.state.phase.successor ≠ some st.phase
  · exact Or.inl ⟨_, by rw [applyPhase, if_pos hfits]; rfl⟩
  have hnext : r.state.phase.successor = some st.phase := not_not.mp (not_or.mp hfits).2
  -- A phase after Prepare follows only on one in which a decision may still come.
  have hheight (hlater : st.phase ≠ .prepare) : Height.next? r.state.height ≠ none := by
    rcases hroom with hheight | hphase | hphase
    · exact hheight
    · rw [hphase] at hnext
      exact absurd (Option.some.inj hnext).symm hlater
    · rw [hphase] at hnext
      cases hnext
  simp only [applyPhase, if_neg hfits]
  cases hphase : st.phase with
  | newView | prepare => exact Or.inl ⟨_, rfl⟩
  | preCommit | commit =>
      have hcounted := hheight (by rw [hphase]; decide)
      exact Or.inr ⟨_, rfl, Or.inl hcounted⟩
  | decide =>
      have hcounted := hheight (by rw [hphase]; decide)
      let decided : Replica σ := { r with state := { r.state with phase := .decide } }
      have hcommit : ∃ answer, decided.commit ctx st.justify = .ok answer ∧ answer.1.HasRoom :=
        exists_commit (r := decided) hcounted rfl st.justify
      exact Or.inr hcommit

/-- A proposal that is accepted does not change the height. -/
theorem height_of_onPrepare {msg : SignedStatement} {answer : Replica σ × List Action}
    (h : r.onPrepare ctx msg = .ok answer) : answer.1.state.height = r.state.height := by
  rw [(onPrepare_accepts h).2]
  rfl

end Replica

/-! ### Delivery without an overflow -/

namespace Core

variable {σ : Type} [StateStore σ] {ctx : Context} {core : Core σ} {now : Instant}
  {message : Message}

/-- A vote is counted without an overflow where there is room. -/
theorem exists_onVote (hroom : core.replica.HasRoom) (vote : Vote) :
    ∃ answer mid, core.onVote ctx vote = .ok (answer, mid) ∧ mid.replica.HasRoom := by
  rw [onVote]
  cases hcount : Leader.onVote ctx core.votes core.replica.state.view vote with
  | mk said votes =>
  cases said with
  | error cause => exact ⟨_, _, rfl, hroom⟩
  | ok said =>
  cases said with
  | none => exact ⟨_, _, rfl, hroom⟩
  | some next =>
  rcases Replica.applyPhase_hasRoom ctx hroom next.body with
    ⟨cause, hrefused⟩ | ⟨⟨replica, actions⟩, hok, hleft⟩
  · simp only [hrefused]
    exact ⟨_, _, rfl, hroom⟩
  · simp only [hok]
    exact ⟨_, _, rfl, hleft⟩

/-- The announcement of a view is considered without an overflow, and leaves room. -/
theorem exists_consider_announcement (hroom : core.replica.HasRoom) (signed : SignedStatement) :
    ∃ answer mid, core.consider ctx (.statement .newView signed) = .ok (answer, mid) ∧
      mid.replica.HasRoom := by
  simp only [consider]
  split
  · exact ⟨_, _, rfl, hroom⟩
  split
  · next entered actions hentered =>
      refine ⟨_, _, rfl, ?_⟩
      obtain ⟨⟨entry, votes⟩, -, hentered⟩ := bind_eq_ok.mp hentered
      simp only at hentered
      split at hentered
      · obtain ⟨rfl, -⟩ := Prod.mk.inj (Except.ok.inj hentered)
        exact Replica.enterView_hasRoom hroom _
      · obtain ⟨rfl, -⟩ := Prod.mk.inj (Except.ok.inj hentered)
        exact hroom
  · exact ⟨_, _, rfl, hroom⟩

/-- **A message of the member to itself** is handled without an overflow where there is room. -/
theorem exists_dispatch (hroom : core.replica.HasRoom)
    (hown : (Action.send ctx.me message).Own ctx) :
    ∃ core' said, core.dispatch ctx now message = .ok (core', said) ∧ core'.replica.HasRoom ∧
      OwnIn ctx said := by
  have hconsider : ∃ answer mid, core.consider ctx message = .ok (answer, mid) ∧
      mid.replica.HasRoom := by
    generalize ctx.me = me at hown
    cases hown with
    | vote ballot => exact exists_onVote hroom _
    | announce st => exact exists_consider_announcement hroom _
    | silent hsilent => cases hsilent
  obtain ⟨answer, mid, hconsider, hleft⟩ := hconsider
  have hdispatch : ∃ core' said, core.dispatch ctx now message = .ok (core', said) ∧
      core'.replica = mid.replica := by
    rw [dispatch, hconsider]
    cases answer with
    | ok actions => exact ⟨_, _, rfl, rfl⟩
    | error cause => exact ⟨_, _, rfl, rfl⟩
  obtain ⟨core', said, hdispatch, hreplica⟩ := hdispatch
  have htake : core.take ctx now (.message message) = .ok (core', said) := hdispatch
  exact ⟨core', said, hdispatch, hreplica ▸ hleft, (kind_of_take htake).own⟩

/-- **Delivery to itself** comes to an end without an overflow where there is room. -/
theorem exists_settle (hroom : core.replica.HasRoom) {queue : List Action}
    (hown : OwnIn ctx queue) (deliveries : Nat) :
    ∃ result, core.settle ctx now deliveries queue = .ok result := by
  induction deliveries generalizing core queue with
  | zero => exact ⟨_, rfl⟩
  | succ deliveries ih =>
      rw [settle]
      split
      · exact ⟨_, rfl⟩
      · next out message rest hsplit =>
          have hqueue := splitAtSelf_some hsplit
          rw [hqueue, ownIn_append, ownIn_cons] at hown
          obtain ⟨-, hsent, hrest⟩ := hown
          obtain ⟨core', said, hdispatch, hleft, hsaid⟩ := exists_dispatch hroom hsent
          obtain ⟨result, hlater⟩ := ih hleft (ownIn_append.mpr ⟨hrest, hsaid⟩)
          exact ⟨_, bind_eq_ok.mpr ⟨_, hdispatch, bind_eq_ok.mpr ⟨result, hlater, rfl⟩⟩⟩

/-- An action in front that is not for the member itself is left out of account. -/
theorem splitAtSelf_cons {me : MemberId} {action : Action}
    (haction : ∀ message, action ≠ .send me message) (queue : List Action) :
    splitAtSelf me (action :: queue) =
      (action :: (splitAtSelf me queue).1, (splitAtSelf me queue).2) := by
  cases action with
  | send receiver message =>
      have hne : receiver ≠ me := fun heq => haction message (heq ▸ rfl)
      rw [splitAtSelf, if_neg hne]
  | broadcast | execute | resetTimer | notify => rfl

/-- An action in front that is not for the member itself goes out first. -/
theorem settle_cons {action : Action} (haction : ∀ message, action ≠ .send ctx.me message)
    {deliveries : Nat} {queue : List Action} {result : Core σ × List Action}
    (h : core.settle ctx now deliveries (action :: queue) = .ok result) :
    ∃ rest, result.2 = action :: rest := by
  cases deliveries with
  | zero =>
      obtain rfl := Except.ok.inj h
      exact ⟨queue, rfl⟩
  | succ deliveries =>
      rw [settle, splitAtSelf_cons haction] at h
      split at h
      · next hout =>
          obtain ⟨rfl, -⟩ := Prod.mk.inj hout
          obtain rfl := Except.ok.inj h
          exact ⟨_, rfl⟩
      · next hout =>
          obtain ⟨rfl, -⟩ := Prod.mk.inj hout
          obtain ⟨_, -, h⟩ := bind_eq_ok.mp h
          obtain ⟨_, -, h⟩ := bind_eq_ok.mp h
          obtain rfl := Except.ok.inj h
          exact ⟨_, rfl⟩

/-- **A proposal is made without an overflow** where the next decision can be counted. -/
theorem exists_route_offer {slot : Slot} {data : Bytes} {core' : Core σ} {said : List Action}
    (hoffer : core.offer ctx slot data = some (core', said))
    (hheight : Height.next? core.replica.state.height ≠ none) :
    ∃ result, core'.route ctx now said = .ok result := by
  have htake : core.take ctx now (.propose slot data) = .ok (core', said) := by
    rw [take, hoffer]
    rfl
  have hroom : core'.replica.HasRoom := by
    obtain ⟨-, prepare, -, ⟨actions, hprepare, -⟩ | ⟨hreplica, -⟩⟩ := offer_ok hoffer
    · exact Or.inl (Replica.height_of_onPrepare hprepare ▸ hheight)
    · exact Or.inl (hreplica ▸ hheight)
  obtain ⟨⟨settled, out⟩, hsettle⟩ :
      ∃ result, core'.settle ctx now maxDeliveries said = .ok result :=
    exists_settle hroom (kind_of_take htake).own maxDeliveries
  exact ⟨_, bind_eq_ok.mpr ⟨_, hsettle, rfl⟩⟩

end Core

/-! ### Proposals for a slot -/

/-- **When the proposal for a slot fits the tip.** A member takes a slot and proposes in it later.
Either nothing comes of it, or the proposal goes out first. It fits the tip of the chain if that is
still the one that the slot was taken on; otherwise only if the slot asked for fresh data and its
certificate leaves nothing else pending on the new tip. There is no answer only where the height
would leave 64 bits. -/
theorem proposal_fits_tip_iff {σ : Type} [StateStore σ] {ctx : Context} {taken : Core σ}
    {slot : Slot} (hslot : taken.slot? ctx = some slot) (core : Core σ) (now : Instant)
    (data : Bytes) :
    let tip := core.replica.state.committed
    core.propose ctx now slot data = .ok (core, []) ∨
      (∃ core' prepare rest,
        core.propose ctx now slot data =
          .ok (core', .broadcast (.statement .prepare prepare) :: rest) ∧
        (prepare.body.FitsTip tip ↔ tip = taken.replica.state.committed ∨
          slot.reproposal = none ∧ ∀ p, slot.justify.pending? tip = some p → p = ⟨tip, data⟩)) ∨
      ∃ o, core.propose ctx now slot data = .error o ∧
        Height.next? core.replica.state.height = none := by
  intro tip
  cases hoffer : core.offer ctx slot data with
  | none =>
      left
      rw [Core.propose, hoffer]
  | some answer =>
      right
      obtain ⟨core', said⟩ := answer
      have hpropose : core.propose ctx now slot data = core'.route ctx now said := by
        rw [Core.propose, hoffer]
      rw [hpropose]
      cases hroute : core'.route ctx now said with
      | error o =>
          right
          refine ⟨o, rfl, ?_⟩
          by_contra hheight
          obtain ⟨result, hok⟩ : ∃ result, core'.route ctx now said = .ok result :=
            Core.exists_route_offer hoffer hheight
          cases hok.symm.trans hroute
      | ok result =>
          left
          obtain ⟨-, prepare, hprepare, hsaid⟩ := Core.offer_ok hoffer
          obtain ⟨actions, hfront⟩ : ∃ actions,
              said = .broadcast (.statement .prepare prepare) :: actions := by
            rcases hsaid with ⟨actions, -, hsaid⟩ | ⟨-, hsaid⟩
            · exact ⟨actions, hsaid⟩
            · exact ⟨[], hsaid⟩
          obtain ⟨⟨settled, out⟩, hsettle, hresult⟩ := bind_eq_ok.mp hroute
          obtain ⟨rest, hout⟩ := Core.settle_cons (fun _ => Action.noConfusion) (hfront ▸ hsettle)
          obtain rfl := Except.ok.inj hresult
          have hbody := (Leader.propose_ok hprepare).1
          have hfits := Leader.fitsTip_iff (Leader.reproposal_of_slot? hslot) tip data
          exact ⟨_, prepare, rest, by rw [← hout], hbody ▸ hfits⟩

namespace OvertakenSlot

/-- Member 1, who leads view 1, is in the committee. -/
theorem leader_mem : .numbered 1 ∈ Committee.four.members := by decide

/-- The leader of view 1. -/
def ctx : Context := .numbered .four 1 leader_mem

/-- The payload of view 0. -/
def payload : Payload := ⟨Scheme.transparent.genesisDigest, [80]⟩

/-- A certificate of view 0. -/
def cert (phase : Phase) : Certificate := .numbered ⟨phase, 0, payload⟩ [0, 2, 3]

/-- The leader of view 1 gives up view 0, and two others enter view 1, one of them with a Prepare
certificate. -/
def entering : List Input :=
  let genesis := Scheme.transparent.genesis
  [.timeout, .numbered 0 1 .newView payload (cert .prepare),
    .numbered 2 1 .newView genesis.payload genesis]

/-- The last member enters view 1. -/
def late : Input :=
  .numbered 3 1 .newView Scheme.transparent.genesisPayload Scheme.transparent.genesis

/-- The decision of view 0. -/
def decision : Input := .numbered 0 0 .decide payload (cert .commit)

/-- What is taken and what it comes to: the slot after some inputs, the tip after another one, and
the proposal that is made for the slot then. -/
def proposing (taken : Core MemoryStore) (input : Input) :
    Option (Slot × Core MemoryStore × SignedStatement) :=
  match taken.slot? ctx, taken.after ctx [input] with
  | some slot, some core =>
    match core.propose ctx 0 slot [81] with
    | .ok (_, .broadcast (.statement .prepare prepare) :: _) => some (slot, core, prepare)
    | _ => none
  | _, _ => none

/-- What is proposed is proposed for a slot that was taken on the way. -/
theorem of_proposing {taken core : Core MemoryStore} {input : Input} {slot : Slot}
    {prepare : SignedStatement} (h : proposing taken input = some (slot, core, prepare)) :
    taken.slot? ctx = some slot ∧ taken.Onward ctx core ∧ ∃ core' rest,
      core.propose ctx 0 slot [81] =
        .ok (core', .broadcast (.statement .prepare prepare) :: rest) := by
  rw [proposing] at h
  split at h
  · next hslot hafter =>
      split at h
      · next hpropose =>
          simp only [Option.some.injEq, Prod.mk.injEq] at h
          obtain ⟨rfl, rfl, rfl⟩ := h
          exact ⟨hslot, Core.Onward.refl.after hafter, _, _, hpropose⟩
      · cases h
  · cases h

end OvertakenSlot

open OvertakenSlot in
/-- A late announcement does not matter to a slot that was taken before it: the payload is proposed
again, on the tip. -/
theorem proposal_fits_tip_of_late_announcement :
    ∃ (taken core : Core MemoryStore) (slot : Slot) (prepare : SignedStatement),
      taken.Reached ctx ∧ taken.slot? ctx = some slot ∧ taken.Onward ctx core ∧
      (∃ core' rest, core.propose ctx 0 slot [81] =
        .ok (core', .broadcast (.statement .prepare prepare) :: rest)) ∧
      prepare.body.payload = payload ∧ prepare.body.FitsTip core.replica.state.committed := by
  obtain ⟨taken, hreached, hsome⟩ := Core.exists_reached ctx
    (P := fun taken => (proposing taken late).map (fun found =>
      (found.2.2.body.payload, decide (found.2.1.replica.state.committed =
        taken.replica.state.committed))) = some (payload, true))
    (show ((Core.fresh ctx).after ctx entering).map _ = some true by decide +kernel)
  obtain ⟨⟨slot, core, prepare⟩, hfound, hsame⟩ := Option.map_eq_some_iff.mp hsome
  obtain ⟨hpayload, htip⟩ := Prod.mk.inj hsame
  obtain ⟨hslot, honward, core', rest, hpropose⟩ := of_proposing hfound
  refine ⟨taken, core, slot, prepare, hreached, hslot, honward, ⟨core', rest, hpropose⟩, hpayload,
    ?_⟩
  rcases proposal_fits_tip_iff hslot core 0 [81] with hnone | hsome | ⟨o, herror, -⟩
  · cases hpropose.symm.trans hnone
  · obtain ⟨core'', prepare', rest', hpropose', hfits⟩ := hsome
    cases hpropose.symm.trans hpropose'
    exact hfits.mpr (Or.inl (of_decide_eq_true htip))
  · cases hpropose.symm.trans herror

open OvertakenSlot in
/-- The decision of view 0 comes after the leader of view 1 has taken its slot. The slot is not
dropped, and what is proposed no longer extends the committed chain. -/
theorem overtaken_slot_proposed :
    ∃ (taken core : Core MemoryStore) (slot : Slot) (prepare : SignedStatement),
      taken.Reached ctx ∧ taken.slot? ctx = some slot ∧ taken.Onward ctx core ∧
      (∃ core' rest, core.propose ctx 0 slot [81] =
        .ok (core', .broadcast (.statement .prepare prepare) :: rest)) ∧
      prepare.body.payload.parent ≠ core.replica.state.committed := by
  obtain ⟨taken, hreached, hsome⟩ := Core.exists_reached ctx
    (P := fun taken => (proposing taken decision).map (fun found =>
      decide (found.2.2.body.payload.parent ≠ found.2.1.replica.state.committed)) = some true)
    (show ((Core.fresh ctx).after ctx entering).map _ = some true by decide +kernel)
  obtain ⟨⟨slot, core, prepare⟩, hfound, hstale⟩ := Option.map_eq_some_iff.mp hsome
  obtain ⟨hslot, honward, hpropose⟩ := of_proposing hfound
  exact ⟨taken, core, slot, prepare, hreached, hslot, honward, hpropose, of_decide_eq_true hstale⟩

end HotStuff
