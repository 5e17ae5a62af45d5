import HotStuff.Proofs.Conduct

/-!
# Delivery to Oneself

What a core sends to itself it handles before it answers, and that may bring more of the kind.
`Core.settle` recurses on a bound for these deliveries, and the bound is never reached. A vote
brings at most the vote of the next phase, a decision the announcement of a view, and that brings
nothing, since the member has entered the view by then. `weightIn` counts the deliveries that may
still come, and each of them lowers it.

## Main results

* `Core.dispatch_leaves`: a delivery lowers the weight of what is left to deliver.
* `Core.settle_eq`: more deliveries than the weight change nothing.
* `Core.react_settled`: an answer holds no message to the member itself.
-/

namespace HotStuff

/-! ### Weights -/

/-- How many deliveries a message to oneself can come to, in a member that is in view `here`. -/
def Message.weight (here : View) : Message → Nat
  | .vote v => 5 - v.ballot.phase.rank
  | .statement .newView signed => if here < signed.body.view then 2 else 1
  | .statement envelope _ => 6 - envelope.rank

/-- How many deliveries to `me` an action can come to. -/
def Action.weight (me : MemberId) (here : View) : Action → Nat
  | .send receiver message => if receiver = me then message.weight here else 0
  | _ => 0

/-- How many deliveries to `me` some actions can come to. -/
def weightIn (me : MemberId) (here : View) : List Action → Nat
  | [] => 0
  | action :: actions => action.weight me here + weightIn me here actions

section Weights

variable {me : MemberId} {here later : View}

/-- No actions weigh nothing. -/
@[simp] theorem weightIn_nil : weightIn me here [] = 0 := rfl

/-- Actions weigh what each of them weighs. -/
@[simp] theorem weightIn_cons (action : Action) (actions : List Action) :
    weightIn me here (action :: actions) = action.weight me here + weightIn me here actions :=
  rfl

/-- What is not for oneself weighs nothing. -/
theorem weightIn_light_cons {action : Action} (h : action.weight me here = 0)
    (actions : List Action) : weightIn me here (action :: actions) = weightIn me here actions := by
  rw [weightIn_cons, h, Nat.zero_add]

/-- Actions that come one after the other weigh what both parts weigh. -/
@[simp] theorem weightIn_append (as bs : List Action) :
    weightIn me here (as ++ bs) = weightIn me here as + weightIn me here bs := by
  induction as with
  | nil => exact (Nat.zero_add _).symm
  | cons action as ih => rw [List.cons_append, weightIn_cons, weightIn_cons, ih, Nat.add_assoc]

/-- Every message weighs something, as it is delivered once itself. -/
theorem Message.weight_pos (message : Message) : 0 < message.weight here := by
  cases message with
  | vote v =>
      have hrank := v.ballot.phase.rank_lt
      simp only [weight]
      omega
  | statement envelope signed =>
      cases envelope with
      | newView =>
          simp only [weight]
          split <;> omega
      | prepare | preCommit | commit | decide => exact Nat.succ_pos _

/-- No message weighs more than five, the weight of a proposal and what follows from it. -/
theorem Message.weight_le (message : Message) : message.weight here ≤ 5 := by
  cases message with
  | vote v => exact Nat.sub_le _ _
  | statement envelope signed =>
      cases envelope with
      | newView =>
          simp only [weight]
          split <;> omega
      | prepare | preCommit | commit | decide => exact Nat.sub_le_of_le_add (by decide)

/-- In a later view a message weighs no more. -/
theorem Message.weight_anti (message : Message) (h : here ≤ later) :
    message.weight later ≤ message.weight here := by
  cases message with
  | vote v => exact Nat.le_refl _
  | statement envelope signed =>
      cases envelope with
      | newView =>
          simp only [weight]
          by_cases hlater : later < signed.body.view
          · rw [if_pos hlater, if_pos (UInt64.lt_of_le_of_lt h hlater)]
          · rw [if_neg hlater]
            split <;> omega
      | prepare | preCommit | commit | decide => exact Nat.le_refl _

/-- In a later view actions weigh no more. -/
theorem weightIn_anti (actions : List Action) (h : here ≤ later) :
    weightIn me later actions ≤ weightIn me here actions := by
  induction actions with
  | nil => exact Nat.le_refl _
  | cons action actions ih =>
      rw [weightIn_cons, weightIn_cons]
      refine Nat.add_le_add ?_ ih
      cases action with
      | send receiver message =>
          simp only [Action.weight]
          split
          · exact message.weight_anti h
          · exact Nat.le_refl _
      | broadcast | execute | resetTimer | notify => exact Nat.le_refl _

/-- Without weight there is nothing to deliver. -/
theorem not_mem_of_weightIn {actions : List Action} (h : weightIn me here actions = 0)
    (message : Message) : .send me message ∉ actions := by
  intro hmem
  obtain ⟨before, after, rfl⟩ := List.append_of_mem hmem
  have hpos : 0 < message.weight here := message.weight_pos
  simp only [weightIn_append, weightIn_cons, Action.weight, if_true] at h
  omega

end Weights

/-! ### What the replica leaves to deliver -/

/-- **An answer with little to deliver**: the replica does not go back, and what it says weighs at
most `n` in the view it is in then. -/
structure Leaves {σ : Type} (ctx : Context) (n : Nat) (r : Replica σ)
    (answer : Replica σ × List Action) : Prop where
  forward : r.state.view ≤ answer.1.state.view
  weight : weightIn ctx.me answer.1.state.view answer.2 ≤ n

namespace Leaves

variable {σ : Type} {ctx : Context} {m n : Nat} {r : Replica σ}
  {answer : Replica σ × List Action}

/-- An answer with little to deliver is one with no more than that. -/
theorem mono (h : Leaves ctx m r answer) (hle : m ≤ n) : Leaves ctx n r answer :=
  ⟨h.forward, Nat.le_trans h.weight hle⟩

/-- Staying with nothing to say. -/
theorem rest (r : Replica σ) : Leaves ctx n r (r, []) :=
  ⟨UInt64.le_refl _, Nat.zero_le _⟩

end Leaves

namespace Replica

variable {σ : Type} [StateStore σ] {ctx : Context} {r : Replica σ}
  {answer : Replica σ × List Action}

omit [StateStore σ] in
/-- The announcement of the current view. -/
theorem startRound_weight (r : Replica σ) :
    weightIn ctx.me r.state.view (r.startRound ctx) ≤ 1 := by
  simp only [startRound, rearm, weightIn_cons, weightIn_nil, Action.weight]
  split
  · simp only [Message.weight, Context.sign, Scheme.signStatement, UInt64.lt_irrefl, if_false]
    exact Nat.le_refl _
  · exact Nat.zero_le _

omit [StateStore σ] in
/-- A vote weighs less, the later its phase. -/
theorem vote_weight (r : Replica σ) (phase : Phase) (payload : Payload) :
    weightIn ctx.me r.state.view [r.vote ctx phase payload, rearm ctx] ≤ 5 - phase.rank := by
  simp only [vote, rearm, weightIn_cons, weightIn_nil, Action.weight]
  split
  · exact Nat.le_refl _
  · exact Nat.zero_le _

/-- Entering a view leaves its announcement to deliver. -/
theorem enterView_leaves (r : Replica σ) (view : View) : Leaves ctx 1 r (r.enterView ctx view) := by
  by_cases h : view ≤ r.state.view
  · rw [enterView_of_le h]
    exact ⟨UInt64.le_refl _, Nat.zero_le _⟩
  · have h := UInt64.not_le.mp h
    rw [enterView_of_lt h]
    refine ⟨UInt64.le_of_lt h, ?_⟩
    rw [weightIn_light_cons rfl]
    exact startRound_weight _

/-- A timeout leaves the announcement of the next view to deliver. -/
theorem onTimeout_leaves (r : Replica σ) : Leaves ctx 1 r (r.onTimeout ctx) := by
  rw [onTimeout]
  split
  · next next _ =>
      obtain ⟨hforward, hweight⟩ : Leaves ctx 1 r (r.enterView ctx next) := r.enterView_leaves next
      refine ⟨hforward, ?_⟩
      rwa [weightIn_light_cons rfl]
  · exact ⟨UInt64.le_refl _, Nat.zero_le _⟩

/-- Leaving a view leaves the announcement of the next one to deliver. -/
theorem leave_leaves (r : Replica σ) (view : View) : Leaves ctx 1 r (r.leave ctx view) := by
  rw [leave]
  split
  · split
    · exact r.enterView_leaves _
    · exact ⟨UInt64.le_refl _, Nat.zero_le _⟩
  · exact ⟨UInt64.le_refl _, Nat.zero_le _⟩

/-- A commit leaves the announcement of the next view to deliver. -/
theorem commit_leaves {cert : Certificate} (h : r.commit ctx cert = .ok answer) :
    Leaves ctx 1 r answer := by
  rw [commit] at h
  split at h
  · cases h
  · next height _ =>
      obtain rfl := Except.ok.inj h
      let committed : Replica σ := { r with state := { r.state with
        committed := ctx.scheme.payloadDigest cert.payload, height } }
      obtain ⟨hforward, hweight⟩ : Leaves ctx 1 committed (committed.leave ctx cert.view) :=
        committed.leave_leaves cert.view
      refine ⟨hforward, ?_⟩
      rwa [weightIn_light_cons rfl, weightIn_light_cons rfl]

/-- A phase leaves its vote, and a decision the announcement of the next view. -/
theorem applyPhase_leaves {st : Statement} (h : r.applyPhase ctx st = .ok answer) :
    Leaves ctx (5 - st.phase.rank) r answer := by
  rw [applyPhase] at h
  simp only at h
  split at h
  · cases h
  cases hphase : st.phase with
  | newView | prepare =>
      rw [hphase] at h
      cases h
  | preCommit | commit =>
      rw [hphase] at h
      obtain rfl := Except.ok.inj h
      exact ⟨UInt64.le_refl _, vote_weight _ _ _⟩
  | decide =>
      rw [hphase] at h
      obtain ⟨hforward, hweight⟩ := commit_leaves h
      exact ⟨hforward, hweight⟩

/-- A phase that is followed leaves less to deliver, the later it is. -/
theorem onPhase_leaves {msg : SignedStatement} (h : r.onPhase ctx msg = .ok answer) :
    Leaves ctx (5 - msg.body.phase.rank) r answer := by
  simp only [onPhase, bind_eq_ok, guard_refuse_eq_ok, Outcome.ofCheck_eq_ok] at h
  obtain ⟨-, -, -, -, -, h⟩ := h
  split at h
  · next hout =>
      obtain ⟨-, -, hcommit⟩ := bind_eq_ok.mp h
      obtain ⟨hphase, -⟩ := of_decide_eq_true hout
      rw [hphase]
      exact commit_leaves hcommit
  · obtain ⟨-, -, happly⟩ := bind_eq_ok.mp h
    exact applyPhase_leaves happly

/-- A proposal leaves the vote on it to deliver, and what follows from that. -/
theorem onPrepare_leaves {msg : SignedStatement} (h : r.onPrepare ctx msg = .ok answer) :
    Leaves ctx 4 r answer := by
  simp only [onPrepare, bind_eq_ok] at h
  obtain ⟨-, -, h⟩ := h
  simp only [pure, Except.pure, Except.ok.injEq] at h
  subst h
  rw [advanceTo]
  split
  · refine ⟨UInt64.le_refl _, ?_⟩
    rw [List.nil_append]
    exact vote_weight _ .prepare _
  · next hlater =>
      refine ⟨UInt64.le_of_lt (UInt64.not_le.mp hlater), ?_⟩
      rw [List.singleton_append, weightIn_light_cons rfl]
      exact vote_weight _ .prepare _

end Replica

/-! ### Deliveries -/

/-- What a vote makes the leader say is on the phase after it. -/
theorem Leader.rank_of_onVote {ctx : Context} {c c' : Collector} {here : View} {vote : Vote}
    {next : SignedStatement} (h : onVote ctx c here vote = (.ok (some next), c')) :
    next.body.phase.rank = vote.ballot.phase.rank + 1 := by
  rcases onVote_ok h with ⟨hnone, -⟩ | ⟨-, -, outcome, counted, hadd, hanswer⟩
  · exact absurd rfl (hnone next)
  rcases hanswer with ⟨hnone, -⟩ | ⟨cert, answer, rfl, hfollow, hsaid⟩
  · exact absurd rfl (hnone next)
  obtain rfl := Except.ok.inj hsaid
  rcases follow_ok hfollow with ⟨hnone, -⟩ | ⟨phase, hphase, hnext, -⟩
  · cases hnone
  obtain rfl := Option.some.inj hnext
  have hrank := Phase.rank_of_successor hphase
  rwa [Certificate.phase, Collector.ballot_of_addVote hadd] at hrank

namespace Core

variable {σ : Type} [StateStore σ] {ctx : Context} {core core' mid : Core σ} {now : Instant}

/-- **A delivery lowers the weight** of what is left to deliver. -/
theorem dispatch_leaves {message : Message} {said : List Action}
    (h : core.dispatch ctx now message = .ok (core', said)) :
    Leaves ctx (message.weight core.replica.state.view - 1) core.replica
      (core'.replica, said) := by
  obtain ⟨answer, mid, hconsider, rfl, hreplica, -⟩ := dispatch_ok h
  rw [hreplica]
  cases considers_of_consider hconsider with
  | refused => exact .rest _
  | uncounted => exact .rest _
  | counted => exact .rest _
  | @certified vote next votes replica own hcount hown =>
      have hown : Leaves ctx (5 - next.body.phase.rank) core.replica (replica, own) := by
        rcases hown with happly | ⟨rfl, rfl⟩
        · exact Replica.applyPhase_leaves happly
        · exact .rest _
      refine ⟨hown.forward, ?_⟩
      rw [saidIn, weightIn_light_cons rfl, weightIn_light_cons rfl]
      refine Nat.le_trans hown.weight ?_
      rw [Leader.rank_of_onVote hcount, Message.weight, Nat.sub_add_eq]
  | @entered signed entry votes replica said _ hentry hanswer =>
      rcases hanswer with ⟨⟨-, hlater⟩, hentered⟩ | ⟨-, rfl, rfl⟩
      · have hview : entry.view = signed.body.view :=
          congrArg Entry.view (Leader.onNewView_ok hentry).2.1
        rw [Message.weight, if_pos (hview ▸ hlater)]
        have hleaves : Leaves ctx 1 core.replica (core.replica.enterView ctx entry.view) :=
          core.replica.enterView_leaves entry.view
        rwa [hentered] at hleaves
      · exact .rest _
  | accepted _ hanswer => exact Replica.onPrepare_leaves hanswer
  | @followed envelope signed replica said hphase hlater hanswer =>
      have hleaves := Replica.onPhase_leaves hanswer
      rw [hphase] at hleaves
      cases envelope with
      | newView | prepare => exact absurd hlater (by decide)
      | preCommit | commit | decide => exact hleaves

/-- The first turn of an input leaves little to deliver. -/
theorem take_leaves {input : Input} {said : List Action}
    (h : core.take ctx now input = .ok (core', said)) :
    Leaves ctx 4 core.replica (core'.replica, said) := by
  cases input with
  | start =>
      obtain ⟨rfl, rfl⟩ := Prod.mk.inj (Except.ok.inj h)
      exact ⟨UInt64.le_refl _, Nat.le_trans (Replica.startRound_weight _) (by decide)⟩
  | timeout =>
      obtain ⟨rfl, rfl⟩ := Prod.mk.inj (Except.ok.inj h)
      exact (Replica.onTimeout_leaves _).mono (by decide)
  | message message =>
      refine (dispatch_leaves h).mono ?_
      have hbound : message.weight core.replica.state.view ≤ 5 := message.weight_le
      omega
  | propose slot data =>
      rw [take] at h
      cases hoffer : core.offer ctx slot data with
      | none =>
          rw [hoffer] at h
          obtain ⟨rfl, rfl⟩ := Prod.mk.inj (Except.ok.inj h)
          exact .rest _
      | some result =>
          rw [hoffer, Option.getD_some] at h
          obtain rfl := Except.ok.inj h
          obtain ⟨-, prepare, -, ⟨actions, hprepare, rfl⟩ | ⟨hreplica, rfl⟩⟩ := offer_ok hoffer
          · obtain ⟨hforward, hweight⟩ := Replica.onPrepare_leaves hprepare
            refine ⟨hforward, ?_⟩
            rwa [weightIn_light_cons rfl]
          · rw [hreplica]
            exact ⟨UInt64.le_refl _, Nat.zero_le _⟩

/-! ### The bound on deliveries -/

/-- There is no message to oneself before the first one. -/
theorem not_mem_of_splitAtSelf {me : MemberId} {queue out : List Action}
    {found : Option (Message × List Action)} (h : splitAtSelf me queue = (out, found))
    (message : Message) : .send me message ∉ out := by
  fun_induction splitAtSelf me queue generalizing out found with
  | case1 =>
      obtain ⟨rfl, -⟩ := Prod.mk.inj h
      exact List.not_mem_nil
  | case2 =>
      obtain ⟨rfl, -⟩ := Prod.mk.inj h
      exact List.not_mem_nil
  | case3 receiver sent rest hne before found' hrest ih =>
      obtain ⟨rfl, -⟩ := Prod.mk.inj h
      rw [List.mem_cons, not_or]
      refine ⟨?_, ih hrest⟩
      rintro ⟨⟩
      exact hne rfl
  | case4 action rest hother before found' hrest ih =>
      obtain ⟨rfl, -⟩ := Prod.mk.inj h
      rw [List.mem_cons, not_or]
      exact ⟨fun heq => hother _ _ heq.symm, ih hrest⟩

/-- After a delivery less is left to deliver than before. -/
theorem weight_after_delivery {queue before rest said : List Action} {message : Message}
    (hsplit : splitAtSelf ctx.me queue = (before, some (message, rest)))
    (hdispatch : core.dispatch ctx now message = .ok (core', said)) :
    weightIn ctx.me core'.replica.state.view (rest ++ said) <
      weightIn ctx.me core.replica.state.view queue := by
  have hleaves := dispatch_leaves hdispatch
  have hsaid : weightIn ctx.me core'.replica.state.view said ≤
      message.weight core.replica.state.view - 1 := hleaves.weight
  have hrest : weightIn ctx.me core'.replica.state.view rest ≤
      weightIn ctx.me core.replica.state.view rest := weightIn_anti rest hleaves.forward
  have hpos : 0 < message.weight core.replica.state.view := message.weight_pos
  rw [splitAtSelf_some hsplit]
  simp only [weightIn_append, weightIn_cons, Action.weight, if_true]
  omega

/-- The last thing that a member can say to itself leaves its replica as it is. -/
theorem replica_of_last_dispatch {message : Message} {said : List Action}
    (hlast : message.weight core.replica.state.view ≤ 1)
    (h : core.dispatch ctx now message = .ok (core', said)) : core'.replica = core.replica := by
  have hkind : Turn.Kind ctx ⟨core, .message message, said, core'⟩ := kind_of_take h
  cases hkind with
  | announced hinput => cases hinput
  | timedOut hinput => cases hinput
  | offered hinput => cases hinput
  | refused _ hreplica => exact hreplica
  | counted _ _ _ _ hreplica => exact hreplica
  | @entered signed entry hinput hentry hanswer =>
      obtain rfl := Input.message.inj hinput
      rcases hanswer with hentered | ⟨hreplica, -⟩
      · have hview : entry.view = signed.body.view :=
          congrArg Entry.view (Leader.onNewView_ok hentry).2.1
        have hle : signed.body.view ≤ core.replica.state.view := by
          refine UInt64.not_lt.mp fun hlater => ?_
          rw [Message.weight, if_pos hlater] at hlast
          omega
        rw [Replica.enterView_of_le (hview ▸ hle)] at hentered
        exact (Prod.mk.inj hentered).1.symm
      · exact hreplica
  | accepted hinput =>
      obtain rfl := Input.message.inj hinput
      exact absurd hlast (by simp [Message.weight, Phase.rank])
  | @followed signed hinput hlater =>
      obtain rfl := Input.message.inj hinput
      rw [Message.ofStatement] at hlast
      generalize signed.body.phase = phase at hlater hlast
      cases phase with
      | newView => exact absurd rfl hlater.1
      | prepare => exact absurd rfl hlater.2
      | preCommit | commit | decide => exact absurd hlast (by simp [Message.weight, Phase.rank])
  | @certified vote next _ hinput hcount =>
      obtain rfl := Input.message.inj hinput
      -- There is no phase to vote on the decision for.
      have hnext := Leader.rank_of_onVote hcount
      have hrank := next.body.phase.rank_lt
      rw [Message.weight] at hlast
      omega

/-- Where no more than one delivery can come, as after a decision or the entry into a view, it
leaves the replica as it is. -/
theorem replica_of_selfTurns {deliveries : Nat} {queue : List Action}
    (hweight : weightIn ctx.me core.replica.state.view queue ≤ 1) :
    (lastOf core (core.selfTurns ctx now deliveries queue)).replica = core.replica := by
  induction deliveries generalizing core queue with
  | zero => rfl
  | succ deliveries ih =>
      rw [selfTurns]
      split
      · rfl
      · next before message rest hsplit =>
          split
          · rfl
          · next first said hdispatch =>
              have hless := weight_after_delivery hsplit hdispatch
              have hlast : message.weight core.replica.state.view ≤ 1 := by
                rw [splitAtSelf_some hsplit] at hweight
                simp only [weightIn_append, weightIn_cons, Action.weight, if_true] at hweight
                omega
              have hlater :
                  (lastOf first (first.selfTurns ctx now deliveries (rest ++ said))).replica =
                    first.replica := ih (by omega)
              exact hlater.trans (replica_of_last_dispatch hlast hdispatch)

/-- **Everything is delivered.** What is left of a queue that does not weigh more than the
deliveries that are allowed holds no message to the member itself. -/
theorem settle_settled {deliveries : Nat} {queue out : List Action}
    (hweight : weightIn ctx.me core.replica.state.view queue ≤ deliveries)
    (h : core.settle ctx now deliveries queue = .ok (core', out)) (message : Message) :
    .send ctx.me message ∉ out := by
  induction deliveries generalizing core queue out with
  | zero =>
      obtain ⟨rfl, rfl⟩ := Prod.mk.inj (Except.ok.inj h)
      exact not_mem_of_weightIn (Nat.le_zero.mp hweight) message
  | succ deliveries ih =>
      rw [settle] at h
      split at h
      · next hsplit =>
          obtain ⟨rfl, rfl⟩ := Prod.mk.inj (Except.ok.inj h)
          exact not_mem_of_splitAtSelf hsplit message
      · next before sent rest hsplit =>
          obtain ⟨⟨next, said⟩, hdispatch, h⟩ := bind_eq_ok.mp h
          obtain ⟨⟨settled, later⟩, hsettle, h⟩ := bind_eq_ok.mp h
          obtain ⟨rfl, rfl⟩ := Prod.mk.inj (Except.ok.inj h)
          have hless := weight_after_delivery hsplit hdispatch
          have hlater : .send ctx.me message ∉ later := ih (by omega) hsettle
          rw [List.mem_append, not_or]
          exact ⟨not_mem_of_splitAtSelf hsplit message, hlater⟩

/-- **The bound is never reached**: more deliveries than a queue weighs change nothing. -/
theorem settle_eq {deliveries more : Nat} {queue : List Action}
    (hweight : weightIn ctx.me core.replica.state.view queue ≤ deliveries)
    (hle : deliveries ≤ more) :
    core.settle ctx now more queue = core.settle ctx now deliveries queue := by
  induction deliveries generalizing more core queue with
  | zero =>
      cases more with
      | zero => rfl
      | succ more =>
          cases hsplit : splitAtSelf ctx.me queue with
          | mk before found =>
          cases found with
          | none =>
              rw [settle, settle, hsplit]
              simp only [splitAtSelf_none hsplit]
          | some found =>
              have hmem : .send ctx.me found.1 ∈ queue := by simp [splitAtSelf_some hsplit]
              exact absurd hmem (not_mem_of_weightIn (Nat.le_zero.mp hweight) found.1)
  | succ deliveries ih =>
      obtain ⟨more, rfl⟩ := Nat.exists_eq_add_of_lt hle
      rw [settle, settle]
      split
      · rfl
      · next before sent rest hsplit =>
          cases hdispatch : core.dispatch ctx now sent with
          | error overflow => rfl
          | ok result =>
              obtain ⟨next, said⟩ := result
              have hless := weight_after_delivery hsplit hdispatch
              have hsame : next.settle ctx now (deliveries + more) (rest ++ said) =
                  next.settle ctx now deliveries (rest ++ said) := ih (by omega) (by omega)
              simp only [bind, Except.bind, hsame]

/-- **An answer is settled**: it holds no message to the member itself. -/
theorem react_settled {input : Input} {out : List Action}
    (h : core.react ctx now input = .ok (core', out)) (message : Message) :
    .send ctx.me message ∉ out := by
  obtain ⟨first, said, htake, hroute | ⟨rfl, rfl, rfl, -⟩⟩ := react_eq h
  · have hweight : weightIn ctx.me first.replica.state.view said ≤ maxDeliveries :=
      Nat.le_trans (take_leaves htake).weight (by decide)
    rw [route, bind_eq_ok] at hroute
    obtain ⟨⟨settled, out'⟩, hsettle, hroute⟩ := hroute
    obtain ⟨-, rfl⟩ := Prod.mk.inj (Except.ok.inj hroute)
    exact settle_settled hweight hsettle message
  · exact List.not_mem_nil

end Core

end HotStuff
