import Mathlib.Algebra.Group.Nat.Defs
import Mathlib.Data.List.NodupEquivFin
import HotStuff.Proofs.Chain
import HotStuff.Proofs.Rehearsal
import HotStuff.Proofs.Stages

/-!
# Progress Without Disturbance

When all members run, no message is lost, and all messages travel through one queue, a cycle of
proposals decides a view: what was proposed is executed by everyone, and everyone waits in the next
view. This holds for every committee, every quorum and all data, for as long as there are views.

## Main definitions

* `Cluster.Cycle`, `Cluster.Cycles`: everything is delivered, everybody may propose, and everything
  is delivered again.
* `Deployment.Runs`: the fresh members start, and go through some cycles.

## Main results

* `Deployment.cycles_execute_proposals`: what the members have come to after any number of cycles.
-/

namespace HotStuff

/-! ### Cycles -/

namespace Cluster

/-- **One cycle**: everything is delivered, everybody may propose, and everything is delivered. -/
def Cycle (data : View → Bytes) (c c' : Cluster) : Prop :=
  ∃ settled proposed, c.Settles settled ∧
    settled.inputAll (fun c i => c.proposeWith data i) = .ok proposed ∧ proposed.1.Settles c'

/-- Some cycles, one after the other. -/
inductive Cycles (data : View → Bytes) : Nat → Cluster → Cluster → Prop
  | zero {c} : Cycles data 0 c c
  | succ {k c c' c''} (hcycles : Cycles data k c c') (hcycle : Cycle data c' c'') :
      Cycles data (k + 1) c c''

variable {data : View → Bytes} {c c' c'' : Cluster} {k : Nat}

/-- A cycle comes to one end only. -/
theorem Cycle.unique (hcycle : Cycle data c c') (hcycle' : Cycle data c c'') : c' = c'' := by
  obtain ⟨settled, proposed, hsettles, hpropose, hend⟩ := hcycle
  obtain ⟨settled', proposed', hsettles', hpropose', hend'⟩ := hcycle'
  obtain rfl := hsettles.unique hsettles'
  obtain rfl := Except.ok.inj (hpropose.symm.trans hpropose')
  exact hend.unique hend'

/-- Cycles come to one end only. -/
theorem Cycles.unique (hcycles : Cycles data k c c') (hcycles' : Cycles data k c c'') :
    c' = c'' := by
  induction hcycles generalizing c'' with
  | zero =>
      cases hcycles'
      rfl
  | succ _ hcycle ih =>
      cases hcycles' with
      | succ hcycles' hcycle' =>
          obtain rfl := ih hcycles'
          exact hcycle.unique hcycle'

end Cluster

/-! ### Inputs to all members -/

section Inputs

variable {d : Deployment} {who : Fin d.committee.size ≃ d.Correct} {L i : Fin d.committee.size}
  {s s' : ReplicaState} {votes c' : Collector} {e : List Bytes} {c : Cluster}
  {x : Scene d.committee.size} {data : View → Bytes} {out : List Action}

/-- **Everybody starts**: the leader takes note of itself, and the others announce that they are
there. -/
theorem Cluster.Shows.start (hseals : d.SealsVerify) (hcorrect : d.faulty = ∅) (hready : d.Ready s)
    (hshows : c.Shows who ⟨fun _ => ⟨s, .empty, e⟩, []⟩) :
    ∃ answer x missing, c.inputAll Cluster.startAt = .ok answer ∧ answer.1.Shows who x ∧
      x.Entering who s e missing := by
  obtain ⟨N, hleader⟩ := exists_leader who hcorrect s.view
  have hstep : ∀ i c y, Cluster.Shows who c y → y.seat i = ⟨s, .empty, e⟩ →
      ∃ answer, c.startAt i.val = .ok answer ∧ answer.1.Shows who
        (y.put i ⟨s, d.arrived (who i) s, e⟩ (postsIn who i (d.arriving (who i) s))) := by
    intro i c y hy hseat
    obtain ⟨answer, hinput, hlater⟩ := hy.input i hseat
      (f := fun node => node.core.start node.ctx 0) fun core _ his =>
        Deployment.starts hseals hready.toWaits his
    rw [Deployment.dataIn_arriving, List.append_nil] at hlater
    exact ⟨answer, hinput, hlater⟩
  obtain ⟨answer, hanswer, hstarted⟩ := hshows.inputAll hstep
  simp only [posts_arriving hleader, flatMap_unless, List.nil_append] at hstarted
  exact ⟨answer, _, _, hanswer, hstarted, Scene.entering_of_arrived hleader (nodup_cons_others N)
    fun i => List.mem_cons.mpr ((em (i = N)).imp_right mem_others.mpr)⟩

/-- The leader proposes in its slot. -/
theorem Cluster.Shows.propose_leading (hshows : c.Shows who x) (hseat : x.seat L = ⟨s, votes, e⟩)
    (hproposes : Core.Proposes MemoryStore (d.context (who L)) 0 s votes (data s.view) out s' c') :
    ∃ answer, c.proposeWith data L.val = .ok answer ∧ answer.1.Shows who
      (x.put L ⟨s', c', e ++ dataIn out⟩ (postsIn who L out)) := by
  obtain ⟨slot, hslot, hview, hanswers⟩ := hproposes
  obtain ⟨core, hnode, hcore⟩ := hshows.node L
  have hfound : core.slot? (d.context (who L)) = some slot := by
    rw [Core.slot?, hcore.votes, hcore.state, hseat]
    exact hslot
  obtain ⟨answer, hinput, hlater⟩ := hshows.input L hseat
    (f := fun node => node.core.propose node.ctx 0 slot (data slot.view)) fun core _ his =>
      hview.symm ▸ hanswers core his
  refine ⟨(answer.1, .slot L slot.view slot.needsPayload :: answer.2), ?_, hlater⟩
  rw [Cluster.proposeWith, hnode]
  simp only [hfound, hinput]
  rfl

/-- Who does not lead has no slot. -/
theorem Cluster.Shows.propose_following (hshows : c.Shows who x)
    (hother : d.committee.leader (x.seat i).state.view ≠ (who i).1) :
    c.proposeWith data i.val = .ok (c, []) := by
  obtain ⟨core, hnode, hcore⟩ := hshows.node i
  have hnone : core.slot? (d.context (who i)) = none := by
    rw [Core.slot?, hcore.state]
    exact Deployment.slot?_eq_none hother
  rw [Cluster.proposeWith, hnode]
  simp only [hnone]
  rfl

/-- **Everybody may propose**, and only the leader does. -/
theorem Cluster.Shows.propose (hleader : d.committee.leader s.view = (who L).1)
    (hproposes : Core.Proposes MemoryStore (d.context (who L)) 0 s votes (data s.view) out s' c')
    (hshows : c.Shows who (.led L ⟨s, votes, e⟩ ⟨s, .empty, e⟩ [])) :
    ∃ answer, c.inputAll (fun c i => c.proposeWith data i) = .ok answer ∧ answer.1.Shows who
      (.led L ⟨s', c', e ++ dataIn out⟩ ⟨s, .empty, e⟩ (postsIn who L out)) := by
  let after : Scene d.committee.size := .led L ⟨s', c', e ++ dataIn out⟩ ⟨s, .empty, e⟩ []
  let asked (i : Fin d.committee.size) : List Delivery := if i = L then postsIn who L out else []
  have hstep : ∀ i c y, Cluster.Shows who c y →
      y.seat i = (Scene.led L ⟨s, votes, e⟩ ⟨s, .empty, e⟩ []).seat i →
        ∃ answer, c.proposeWith data i.val = .ok answer ∧
          answer.1.Shows who (y.put i (after.seat i) (asked i)) := by
    intro i c y hy hseat
    by_cases hi : i = L
    · subst hi
      rw [Scene.seat_led_self] at hseat
      simp only [asked, if_true, after, Scene.seat_led_self]
      exact hy.propose_leading hseat hproposes
    · rw [Scene.seat_led_of_ne hi] at hseat
      have hother : d.committee.leader (y.seat i).state.view ≠ (who i).1 := by
        rw [hseat]
        exact fun h => hi ((place_inj who).mp (h.symm.trans hleader))
      refine ⟨(c, []), hy.propose_following hother, ?_⟩
      simp only [asked, if_neg hi, after, Scene.seat_led_of_ne hi]
      rw [← hseat, Scene.put_seat, List.append_nil]
      exact hy
  obtain ⟨answer, hanswer, hproposed⟩ := hshows.inputAll hstep
  have hposts : (List.finRange d.committee.size).flatMap asked = postsIn who L out :=
    flatMap_only (List.nodup_finRange _) (List.mem_finRange L)
  rw [hposts] at hproposed
  exact ⟨answer, hanswer, hproposed⟩

end Inputs

/-! ### A cycle -/

section Cycles

variable {d : Deployment} {who : Fin d.committee.size ≃ d.Correct} {L : Fin d.committee.size}
  {s : ReplicaState} {e : List Bytes} {c : Cluster} {r : Round} {data : Bytes}

/-- **A view**: the proposal of the leader takes everybody to the next view. -/
theorem Flows.view (hseals : d.SealsVerify) (hcorrect : d.faulty = ∅) (hready : d.Ready s)
    (hleader : d.committee.leader s.view = (who L).1)
    (hpolls : r.Polls (d.context (who L)) ⟨.prepare, s.view, ⟨s.committed, data⟩⟩ [(who L).1])
    (hmany : 1 < d.committee.quorum) (hlast : s.view + 1 ≠ View.last)
    (hfresh : d.scheme.payloadDigest ⟨s.committed, data⟩ ≠ s.committed) :
    ∃ s' x missing, d.Advances s data s' ∧ x.Entering who s' (e ++ [data]) missing ∧ Flows who
      (.led L ⟨s.accept (d.proposal s data), .only s.view r, e⟩ ⟨s, .empty, e⟩
        ((others L).map fun i =>
          ⟨i.val, .statement .prepare ((d.context (who L)).sign (d.proposal s data))⟩)) x := by
  have hoffer := Flows.offer (r := r) (e := e) hseals hready.toWaits data hleader
  have hvotes := Deployment.votes_accept (d := d) (s := s) data
  obtain ⟨prepared, r₂, hprepared, hpolls₂, hpoll₁⟩ :=
    Flows.poll (e := e) hseals hleader hvotes hpolls hmany rfl (Or.inl rfl)
  have hvotes₂ := hvotes.follow hprepared.ballot rfl (Or.inl rfl)
  obtain ⟨locked, r₃, hlocked, hpolls₃, hpoll₂⟩ :=
    Flows.poll (e := e) hseals hleader hvotes₂ hpolls₂ hmany rfl (Or.inr rfl)
  have hvotes₃ := hvotes₂.follow hlocked.ballot rfl (Or.inr rfl)
  let s₃ := ((s.accept (d.proposal s data)).follow prepared).follow locked
  have hhere : s₃.view = s.view := hvotes₃.view
  have hroom : s₃.height ≤ s₃.view := hready.room_followed data prepared locked
  have hadvances (decided : Certificate)
      (hdecided : d.Attests decided ⟨.commit, s.view, ⟨s.committed, data⟩⟩) :
      d.Advances s data (s₃.decide d.scheme decided) :=
    (hready.continues hprepared hlocked hdecided hlast hfresh).advances hready.height
  obtain ⟨decided, x, missing, hdecided, hdecide, hentering⟩ :=
    Flows.decide (e := e) hseals hleader hvotes₃ hpolls₃ hmany hcorrect rfl
      (hhere ▸ hready.notLast) hroom fun decided hdecided =>
        (hadvances decided hdecided).ready.toWaits
  exact ⟨_, x, missing, hadvances decided hdecided, hentering,
    hoffer.trans (hpoll₁.trans (hpoll₂.trans hdecide))⟩

section Settled

variable {data : View → Bytes} {present : List (Fin d.committee.size)}
  (hseals : d.SealsVerify) (hready : d.Ready s) (hlast : s.view + 1 ≠ View.last)
  (hfresh : d.scheme.payloadDigest ⟨s.committed, data s.view⟩ ≠ s.committed)
  (hleader : d.committee.leader s.view = (who L).1)
  (hgathers : r.Gathers (s.highCertificate d.scheme) (present.map fun i => (who i).1))
  (hall : ∀ m ∈ d.committee.members, m ∈ present.map fun i => (who i).1)
  (hshows : c.Shows who (.led L ⟨s, .only s.view r, e⟩ ⟨s, .empty, e⟩ []))

include hseals hready hlast hfresh hleader hgathers hall hshows

/-- **Several members** decide the proposal of their leader. -/
theorem Cluster.Shows.settle_proposal (hcorrect : d.faulty = ∅) (hmany : 1 < d.committee.quorum) :
    ∃ proposed c' s' x', c.inputAll (fun c i => c.proposeWith data i) = .ok proposed ∧
      proposed.1.Settles c' ∧ d.Advances s (data s.view) s' ∧
        x'.Entering who s' (e ++ [data s.view]) [] ∧ c'.Shows who x' := by
  obtain ⟨r', hpolls, hproposes⟩ := Deployment.proposes_first (σ := MemoryStore) (t := 0) hseals
    hready.toWaits hleader hgathers hall hmany (data s.view)
  obtain ⟨proposed, hpropose, hproposed⟩ := hshows.propose hleader hproposes
  obtain ⟨s', x, missing, hadvances, hentering, hview⟩ :=
    Flows.view (e := e) hseals hcorrect hready hleader hpolls hmany hlast hfresh
  obtain ⟨x', henter, hempty, hentered⟩ := Flows.enter hseals hadvances.ready.toWaits hentering
  have hposts : postsIn who L
      [.broadcast (.statement .prepare ((d.context (who L)).sign (d.proposal s (data s.view)))),
        Replica.rearm (d.context (who L))] =
      (others L).map fun i => ⟨i.val, .statement .prepare
        ((d.context (who L)).sign (d.proposal s (data s.view)))⟩ := List.append_nil _
  rw [hposts, show dataIn _ = [] from rfl, List.append_nil] at hproposed
  obtain ⟨c', hsettles, hshows'⟩ := (hview.trans henter).settles hempty hproposed
  exact ⟨proposed, c', s', x', hpropose, hsettles, hadvances, hentered, hshows'⟩

/-- **A member on its own** decides its proposal at once. -/
theorem Cluster.Shows.settle_alone (hcorrect : d.faulty = ∅) (hone : d.committee.quorum ≤ 1) :
    ∃ proposed c' s' x', c.inputAll (fun c i => c.proposeWith data i) = .ok proposed ∧
      proposed.1.Settles c' ∧ d.Advances s (data s.view) s' ∧
        x'.Entering who s' (e ++ [data s.view]) [] ∧ c'.Shows who x' := by
  have hsize : d.committee.size = 1 := by
    have hmajority : d.committee.size < 2 * d.committee.quorum := d.committee.lt_two_mul_quorum
    have hpos := d.committee.size_pos
    omega
  have honly : ∀ i, i = L := fun i => Fin.ext (by omega)
  have halone : ∀ view, d.committee.leader view = (who L).1 := by
    intro view
    obtain ⟨i, hi⟩ := exists_leader who hcorrect view
    rw [hi, honly i]
  obtain ⟨s', out, hcontinues, hunaided, hproposes⟩ :=
    Deployment.proposes_alone (σ := MemoryStore) (t := 0) hseals hready.toWaits halone hone hlast
      hfresh hgathers hall
  have hadvances := hcontinues.advances hready.height
  obtain ⟨proposed, hpropose, hproposed⟩ := hshows.propose hleader hproposes
  have hothers : others L = [] := List.eq_nil_iff_forall_not_mem.mpr fun i hi =>
    mem_others.mp hi (honly i)
  have hposts : postsIn who L out = [] := by
    refine List.flatMap_eq_nil_iff.mpr fun action haction => ?_
    cases action with
    | send receiver message => exact absurd haction (hunaided.sendsNothing receiver message)
    | broadcast message => exact congrArg (List.map _) hothers
    | execute | resetTimer | notify => rfl
  rw [hposts, hunaided.executes] at hproposed
  let arrived (i : Fin d.committee.size) : Seat := ⟨s', d.arrived (who i) s', e ++ [data s.view]⟩
  have hentering : Scene.Entering who s' (e ++ [data s.view]) [] ⟨arrived, []⟩ :=
    Scene.entering_of_arrived (halone s'.view) (List.nodup_singleton L)
      fun i => List.mem_singleton.mpr (honly i)
  have hsame : Scene.mk arrived [] = .led L (arrived L) ⟨s, .empty, e⟩ [] :=
    Scene.eq_led rfl fun i hi => absurd (honly i) hi
  rw [← hsame] at hproposed
  exact ⟨proposed, proposed.1, s', _, hpropose, ⟨0, [], rfl, hproposed.queue⟩, hadvances, hentering,
    hproposed⟩

end Settled

/-- **One cycle** takes members that enter a view to the next one. -/
theorem Cluster.Shows.cycle {data : View → Bytes} {x : Scene d.committee.size}
    {missing : List (Fin d.committee.size)} (hseals : d.SealsVerify) (hcorrect : d.faulty = ∅)
    (hready : d.Ready s) (hlast : s.view + 1 ≠ View.last)
    (hfresh : d.scheme.payloadDigest ⟨s.committed, data s.view⟩ ≠ s.committed)
    (hentering : x.Entering who s e missing) (hshows : c.Shows who x) :
    ∃ c' s' x', Cluster.Cycle data c c' ∧ d.Advances s (data s.view) s' ∧
      x'.Entering who s' (e ++ [data s.view]) [] ∧ c'.Shows who x' := by
  obtain ⟨y, hflows, hempty, hentered⟩ := Flows.enter hseals hready.toWaits hentering
  obtain ⟨settled, hsettles, hsettled⟩ := hflows.settles hempty hshows
  obtain ⟨L, r, present, hleader, hgathers, hnodup, hall, rfl⟩ := hentered.gathered
  have heverybody : ∀ m ∈ d.committee.members, m ∈ present.map fun i => (who i).1 := by
    intro m hm
    obtain ⟨i, hi⟩ := exists_place who hcorrect hm
    exact List.mem_map.mpr ⟨i, List.append_nil present ▸ hall i, hi⟩
  have hproposal : ∃ proposed c' s' x',
      settled.inputAll (fun c i => c.proposeWith data i) = .ok proposed ∧
        proposed.1.Settles c' ∧ d.Advances s (data s.view) s' ∧
          x'.Entering who s' (e ++ [data s.view]) [] ∧ c'.Shows who x' := by
    by_cases hmany : 1 < d.committee.quorum
    · exact hsettled.settle_proposal hseals hready hlast hfresh hleader hgathers heverybody hcorrect
        hmany
    · exact hsettled.settle_alone hseals hready hlast hfresh hleader hgathers heverybody hcorrect
        (not_lt.mp hmany)
  obtain ⟨proposed, c', s', x', hpropose, hend, hadvances, hentering', hshows'⟩ := hproposal
  exact ⟨c', s', x', ⟨settled, proposed, hsettles, hpropose, hend⟩, hadvances, hentering', hshows'⟩

end Cycles

/-! ### The chain of the first views -/

namespace Scheme

variable (scheme : Scheme) (data : View → Bytes)

/-- The payloads of the first views, each one chained to the one before. -/
def chainOf : Nat → List Payload
  | 0 => []
  | k + 1 => chainOf k ++ [⟨scheme.tip scheme.genesisDigest (chainOf k), data (.ofNat k)⟩]

variable {scheme data}

/-- **The payloads of the first views form a chain** over the genesis digest. -/
theorem chained_chainOf (k : Nat) :
    scheme.Chained scheme.genesisDigest (scheme.chainOf data k) := by
  induction k with
  | zero => exact chained_nil
  | succ k ih => exact chained_concat.mpr ⟨ih, rfl⟩

/-- The payload of the next view has a new digest. -/
theorem CollisionFree.digest_ne_tip {k : Nat}
    (hfree : scheme.CollisionFree scheme.genesisDigest (· ∈ scheme.chainOf data (k + 1))) :
    scheme.payloadDigest
        ⟨scheme.tip scheme.genesisDigest (scheme.chainOf data k), data (.ofNat k)⟩ ≠
      scheme.tip scheme.genesisDigest (scheme.chainOf data k) := by
  have hroot : scheme.Leads (· ∈ scheme.chainOf data (k + 1)) scheme.genesisDigest
      (scheme.tip scheme.genesisDigest (scheme.chainOf data k)) :=
    ⟨scheme.chainOf data k, fun p hp => List.mem_append_left _ hp, chained_chainOf k, rfl⟩
  intro hsame
  refine hfree.not_leads_parent
    (p := ⟨scheme.tip scheme.genesisDigest (scheme.chainOf data k), data (.ofNat k)⟩) hroot
    (List.mem_append_right _ (List.mem_singleton_self _)) ?_
  rw [hsame]
  exact .refl _

end Scheme

/-! ### Runs -/

/-- The views that are counted up to the bound are not the last one. -/
theorem View.ofNat_ne_last {k : Nat} (hk : k ≤ 2 ^ 64 - 2) : UInt64.ofNat k ≠ View.last := by
  intro heq
  have hlt : k < 2 ^ 64 := by omega
  have hnat : k = 2 ^ 64 - 1 := by
    rw [← UInt64.toNat_ofNat_of_lt' hlt, heq]
    rfl
  omega

namespace Deployment

section

variable (d : Deployment)

/-- The members, each with a fresh core. -/
def fresh {n : Nat} (who : Fin n ≃ d.Correct) : Cluster where
  nodes := List.ofFn fun i => { ctx := d.context (who i), core := .fresh (d.context (who i)) }

/-- **A run**: the fresh members start, one after the other, and go through some cycles. -/
def Runs {n : Nat} (who : Fin n ≃ d.Correct) (data : View → Bytes) (k : Nat) (c : Cluster) : Prop :=
  ∃ started, (d.fresh who).inputAll Cluster.startAt = .ok started ∧
    Cluster.Cycles data k started.1 c

/-- **The state after the first views**, in each of which its proposal was decided. -/
structure Stands (data : View → Bytes) (k : Nat) (s : ReplicaState) : Prop where
  ready : d.Ready s
  view : s.view = .ofNat k
  committed : s.committed = d.scheme.tip d.scheme.genesisDigest (d.scheme.chainOf data k)

end

variable {d : Deployment} {data : View → Bytes} {k : Nat} {s s' : ReplicaState}

/-- Before any view the members stand on the genesis digest. -/
theorem stands_initial : d.Stands data 0 (.initial d.scheme.genesisDigest) :=
  ⟨ready_initial, rfl, rfl⟩

/-- One more view. -/
theorem Stands.succ (hstands : d.Stands data k s) (hadvances : d.Advances s (data s.view) s') :
    d.Stands data (k + 1) s' := by
  refine ⟨hadvances.ready, ?_, ?_⟩
  · rw [hadvances.view, hstands.view, UInt64.ofNat_add]
    rfl
  · rw [hadvances.committed, hstands.view, hstands.committed]
    exact (Scheme.tip_concat _ _).symm

variable {n : Nat} {who : Fin n ≃ d.Correct} {c c' : Cluster}

/-- Fresh members show nothing but the state that all of them start in. -/
theorem fresh_shows :
    (d.fresh who).Shows who ⟨fun _ => ⟨.initial d.scheme.genesisDigest, .empty, []⟩, []⟩ := by
  refine ⟨List.length_ofFn, fun i => ⟨.fresh (d.context (who i)), ?_, ⟨rfl, rfl⟩, rfl⟩, rfl, rfl⟩
  rw [fresh, List.getElem?_ofFn, dif_pos i.isLt]

/-- **A run comes to one end only.** -/
theorem Runs.unique (hruns : d.Runs who data k c) (hruns' : d.Runs who data k c') : c = c' := by
  obtain ⟨started, hstart, hcycles⟩ := hruns
  obtain ⟨started', hstart', hcycles'⟩ := hruns'
  obtain rfl := Except.ok.inj (hstart.symm.trans hstart')
  exact hcycles.unique hcycles'

/-- **There is a run** of any length, and it takes all members to one state. -/
theorem exists_run (who : Fin d.committee.size ≃ d.Correct) (hcorrect : d.faulty = ∅)
    (hseals : d.SealsVerify) (hk : k ≤ 2 ^ 64 - 2)
    (hfree : d.scheme.CollisionFree d.scheme.genesisDigest (· ∈ d.scheme.chainOf data k)) :
    ∃ c s x missing, d.Runs who data k c ∧ d.Stands data k s ∧
      x.Entering who s ((List.range k).map fun v => data (.ofNat v)) missing ∧ c.Shows who x := by
  induction k with
  | zero =>
      obtain ⟨started, x, missing, hstart, hshows, hentering⟩ :=
        fresh_shows.start hseals hcorrect ready_initial
      exact ⟨started.1, _, x, missing, ⟨started, hstart, .zero⟩, stands_initial, hentering, hshows⟩
  | succ k ih =>
      have hprefix : ∀ p, p ∈ d.scheme.chainOf data k → p ∈ d.scheme.chainOf data (k + 1) :=
        fun p hp => List.mem_append_left _ hp
      obtain ⟨c, s, x, missing, ⟨started, hstart, hcycles⟩, hstands, hentering, hshows⟩ :=
        ih (by omega) (hfree.mono hprefix)
      have hlast : s.view + 1 ≠ View.last := by
        rw [hstands.view]
        exact UInt64.ofNat_add k 1 ▸ View.ofNat_ne_last hk
      have hfresh : d.scheme.payloadDigest ⟨s.committed, data s.view⟩ ≠ s.committed := by
        rw [hstands.view, hstands.committed]
        exact hfree.digest_ne_tip
      obtain ⟨c', s', x', hcycle, hadvances, hentering', hshows'⟩ :=
        hshows.cycle hseals hcorrect hstands.ready hlast hfresh hentering
      have hexecuted : ((List.range k).map fun v => data (.ofNat v)) ++ [data s.view] =
          (List.range (k + 1)).map fun v => data (.ofNat v) := by
        rw [List.range_succ, List.map_append, hstands.view]
        rfl
      rw [hexecuted] at hentering'
      exact ⟨c', s', x', [], ⟨started, hstart, hcycles.succ hcycle⟩, hstands.succ hadvances,
        hentering', hshows'⟩

/-- The members in the order of the committee, when nobody is faulty. -/
def inOrder (hcorrect : d.faulty = ∅) : Fin d.committee.size ≃ d.Correct :=
  (d.committee.nodup.getEquiv d.committee.members).trans
    (Equiv.subtypeEquivRight fun m => by simp [hcorrect])

/-- Seals of the transparent scheme verify. -/
theorem sealsVerify_transparent (committee : Committee) (faulty : Finset MemberId) :
    (transparent committee faulty).SealsVerify := by
  intro m bytes
  let text := Scheme.transparentSignature m.1.bytes bytes
  have hlength : text.length = 40 := by
    simp [text, Scheme.transparentSignature]
  have hshort : text.length ≤ 64 := by omega
  have hread : (text.take 64 ++ List.replicate (64 - text.length) 0).take 40 = text := by
    rw [List.take_of_length_le hshort]
    exact List.take_left' hlength
  exact beq_iff_eq.mpr hread

/-- **Progress without disturbance.** In a committee of any size, with any quorum, all members up
and no message lost, after any number of cycles that views can count all members have executed what
was proposed in these views, in their order, and wait in the next view with the same chain. -/
theorem cycles_execute_proposals (d : Deployment) (who : Fin d.committee.size ≃ d.Correct)
    (hcorrect : d.faulty = ∅) (hseals : d.SealsVerify) (data : View → Bytes) (k : Nat)
    (hk : k ≤ 2 ^ 64 - 2)
    (hfree : d.scheme.CollisionFree d.scheme.genesisDigest (· ∈ d.scheme.chainOf data k)) :
    (∃ c, d.Runs who data k c) ∧ ∀ c, d.Runs who data k c →
      c.nodes.length = d.committee.size ∧ ∀ node ∈ c.nodes,
        node.executed = (List.range k).map (fun v => data (.ofNat v)) ∧
          node.core.status.view = .ofNat k ∧ node.core.status.phase = .newView ∧
            node.core.status.height = .ofNat k ∧
              node.core.status.committed =
                d.scheme.tip d.scheme.genesisDigest (d.scheme.chainOf data k) := by
  obtain ⟨c, s, x, missing, hruns, hstands, hentering, hshows⟩ :=
    exists_run who hcorrect hseals hk hfree
  refine ⟨⟨c, hruns⟩, fun c' hruns' => ?_⟩
  obtain rfl := hruns.unique hruns'
  refine ⟨hshows.length, fun node hnode => ?_⟩
  obtain ⟨i, hi⟩ := List.mem_iff_getElem?.mp hnode
  obtain ⟨i, rfl, -⟩ := hshows.node_at hi
  obtain ⟨core, hat, hcore⟩ := hshows.node i
  obtain rfl := Option.some.inj (hi.symm.trans hat)
  obtain ⟨hstate, hexecuted⟩ := hentering.seat_eq i
  have hstatus : core.status = .of (d.context (who i)) s := hstate ▸ hcore.status
  refine ⟨hexecuted, ?_, ?_, ?_, ?_⟩
  · rw [hstatus]
    exact hstands.view
  · rw [hstatus]
    exact hstands.ready.phase
  · rw [hstatus]
    exact hstands.ready.height.trans hstands.view
  · rw [hstatus]
    exact hstands.committed

/-- Two cycles of four members. -/
theorem four_execute_two_proposals :
    (transparent .four ∅).SealsVerify ∧ ∃ c,
      (transparent .four ∅).Runs (inOrder rfl) (fun view => [view.toUInt8]) 2 c ∧
        c.nodes.length = 4 ∧ ∀ node ∈ c.nodes, node.executed = [[0], [1]] ∧
          node.core.status.view = 2 ∧ node.core.status.phase = .newView ∧
            node.core.status.height = 2 := by
  let data (view : View) : Bytes := [view.toUInt8]
  have hseals : (transparent .four ∅).SealsVerify := sealsVerify_transparent .four ∅
  have hinjective : ∀ p ∈ Scheme.transparent.chainOf data 2,
      ∀ q ∈ Scheme.transparent.chainOf data 2, Scheme.transparent.payloadDigest p =
        Scheme.transparent.payloadDigest q → p = q := by decide
  have hroot : ∀ p ∈ Scheme.transparent.chainOf data 2,
      Scheme.transparent.payloadDigest p ≠ Scheme.transparent.genesisDigest := by decide
  have hfree : (transparent .four ∅).scheme.CollisionFree Scheme.transparent.genesisDigest
      (· ∈ Scheme.transparent.chainOf data 2) :=
    ⟨fun p q hp hq => hinjective p hp q hq, hroot⟩
  obtain ⟨⟨c, hruns⟩, hall⟩ := cycles_execute_proposals (transparent .four ∅) (inOrder rfl) rfl
    hseals data 2 (by decide) hfree
  obtain ⟨hlength, hnodes⟩ := hall c hruns
  refine ⟨hseals, c, hruns, hlength, fun node hnode => ?_⟩
  obtain ⟨hexecuted, hview, hphase, hheight, -⟩ := hnodes node hnode
  exact ⟨hexecuted, hview, hphase, hheight⟩

end Deployment

end HotStuff
