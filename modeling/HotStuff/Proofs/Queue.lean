import Mathlib.Data.List.FinRange
import HotStuff.Cluster
import HotStuff.Proofs.Answering
import HotStuff.Proofs.Deployment

/-!
# One Queue for All Messages

A cluster in which all members are up and no message is lost is known by its `Scene`: for each
member the state, the collector and what it has executed, and the queue. `Flows` follows the
delivery from the front of the queue on scenes; whatever happens there happens to every cluster that
shows the scene, so a run is worked out on scenes alone.

## Main definitions

* `Scene`, `Cluster.Shows`: what matters of a cluster.
* `Flows`: delivery from the front of the queue.
* `Cluster.Settles`: delivery until the queue is empty.

## Main results

* `Flows.settles`: a flow that empties the queue is what happens to the cluster.
* `Flows.deal`: one message to several members, with its consequences.
* `Cluster.Shows.inputAll`: an input to every member.
* `Cluster.Settles.unique`: the queue can be emptied in one way only.
-/

namespace HotStuff

/-! ### Scenes -/

/-- What is seen of a member. -/
structure Seat where
  state : ReplicaState
  votes : Collector
  /-- The data executed, oldest first. -/
  executed : List Bytes

/-- What is seen of `n` members and of the messages between them. -/
structure Scene (n : Nat) where
  seat : Fin n → Seat
  queue : List Delivery

/-- A member comes to something else, and messages are queued. -/
def Scene.put {n : Nat} (x : Scene n) (i : Fin n) (seat : Seat) (posts : List Delivery) : Scene n :=
  ⟨Function.update x.seat i seat, x.queue ++ posts⟩

namespace Scene

variable {n : Nat} (x : Scene n) {i j : Fin n} (seat : Seat) (qs : List Delivery)

/-- Messages are queued at the end. -/
@[simp] theorem queue_put : (x.put i seat qs).queue = x.queue ++ qs := rfl

/-- A member is where it was put. -/
@[simp] theorem seat_put_self : (x.put i seat qs).seat i = seat := Function.update_self ..

/-- What is put last counts; the deliveries add up. -/
theorem put_put (seat' : Seat) (qs' : List Delivery) :
    (x.put i seat qs).put i seat' qs' = x.put i seat' (qs ++ qs') := by
  simp only [put, Function.update_idem, List.append_assoc]

/-- Putting one member somewhere leaves the others where they are. -/
theorem seat_put_of_ne (h : j ≠ i) : (x.put i seat qs).seat j = x.seat j :=
  Function.update_of_ne h ..

/-- A member stays where it is. -/
theorem put_seat (i : Fin n) : x.put i (x.seat i) qs = ⟨x.seat, x.queue ++ qs⟩ :=
  congrArg (Scene.mk · _) (Function.update_eq_self i x.seat)

/-- Some members come to something else, and deliveries are queued in their order. -/
def each (is : List (Fin n)) (g : Fin n → Seat) (p : Fin n → List Delivery) : Scene n :=
  ⟨fun i => if i ∈ is then g i else x.seat i, x.queue ++ is.flatMap p⟩

variable {is : List (Fin n)} {g : Fin n → Seat} {p : Fin n → List Delivery}

/-- Where nobody comes to anything else nothing changes. -/
theorem each_nil : x.each [] g p = x := by simp [each]

/-- One member after the other. -/
theorem each_cons (hnew : i ∉ is) : (x.put i (g i) (p i)).each is g p = x.each (i :: is) g p := by
  have hseat : (fun j => if j ∈ is then g j else Function.update x.seat i (g i) j) =
      fun j => if j ∈ i :: is then g j else x.seat j := by
    funext j
    by_cases hji : j = i
    · subst hji
      simp [hnew]
    · simp [hji]
  rw [each, each, queue_put, List.flatMap_cons, List.append_assoc]
  exact congrArg (Scene.mk · _) hseat

end Scene

/-- The data that an action executes. -/
def Action.data? : Action → Option Bytes
  | .execute _ _ payload => some payload.data
  | .send .. | .broadcast _ | .resetTimer _ | .notify _ => none

/-- The data that actions execute. -/
def dataIn (actions : List Action) : List Bytes := actions.filterMap Action.data?

/-- Data is executed in the order of the actions. -/
theorem dataIn_append (actions more : List Action) :
    dataIn (actions ++ more) = dataIn actions ++ dataIn more := List.filterMap_append

section Posts

variable {d : Deployment} {n : Nat} (who : Fin n ≃ d.Correct)

/-- The deliveries that an action of a member asks for. -/
def posts (i : Fin n) : Action → List Delivery
  | .send receiver message =>
    ((List.finRange n).filter fun j => (who j).1 = receiver).map fun j => ⟨j.val, message⟩
  | .broadcast message => ((List.finRange n).filter (· ≠ i)).map fun j => ⟨j.val, message⟩
  | .execute .. | .resetTimer _ | .notify _ => []

/-- The deliveries that actions of a member ask for. -/
def postsIn (i : Fin n) (actions : List Action) : List Delivery := actions.flatMap (posts who i)

variable {who}

/-- A message to a member reaches that one. -/
theorem posts_send (i j : Fin n) (message : Message) :
    posts who i (.send (who j).1 message) = [⟨j, message⟩] := by
  have hfilter : (List.finRange n).filter (fun k => (who k).1 = (who j).1) = [j] := by
    refine List.perm_singleton.mp ((List.perm_ext_iff_of_nodup
      ((List.nodup_finRange n).filter _) (List.nodup_singleton j)).mpr fun k => ?_)
    have hwho : (who k).1 = (who j).1 ↔ k = j :=
      ⟨fun h => who.injective (Subtype.ext h), fun h => h ▸ rfl⟩
    simp [hwho]
  rw [posts, hfilter]
  rfl

end Posts

/-! ### Clusters that show a scene -/

/-- **The cluster shows a scene**: all members are up, in their states, and no message is lost. -/
structure Cluster.Shows {d : Deployment} {n : Nat} (who : Fin n ≃ d.Correct) (c : Cluster)
    (x : Scene n) : Prop where
  length : c.nodes.length = n
  node : ∀ i : Fin n, ∃ core,
    c.nodes[i.val]? = some ⟨d.context (who i), core, true, (x.seat i).executed⟩ ∧
      core.Shows (d.context (who i)) (x.seat i).state (x.seat i).votes
  queue : c.queue = x.queue
  losing : c.losing = []

/-- What is done after the first thing does not depend on what that logged. -/
theorem Cluster.sequence_cons_fst {α : Type} (f : Cluster → α → Cluster × List LogEntry)
    (c : Cluster) (a : α) (as : List α) :
    (sequence f c (a :: as)).1 = (sequence f (f c a).1 as).1 := by
  have hlog (log log' : List LogEntry) (as : List α) (c : Cluster) :
      (as.foldl (fun done a => ((f done.1 a).1, done.2 ++ (f done.1 a).2)) (c, log)).1 =
        (as.foldl (fun done a => ((f done.1 a).1, done.2 ++ (f done.1 a).2)) (c, log')).1 := by
    induction as generalizing c log log' with
    | nil => rfl
    | cons a as ih => exact ih _ _ _
  exact hlog _ _ as _

namespace Cluster.Shows

variable {d : Deployment} {n : Nat} {who : Fin n ≃ d.Correct} {c : Cluster} {x : Scene n}

/-- Every node is that of a member. -/
theorem node_at (hshows : c.Shows who x) {k : Nat} {node : ClusterNode}
    (hk : c.nodes[k]? = some node) : ∃ i : Fin n, k = i.val ∧ node.ctx = d.context (who i) := by
  obtain ⟨hlt, -⟩ := List.getElem?_eq_some_iff.mp hk
  obtain ⟨core, hnode, -⟩ := hshows.node ⟨k, hshows.length ▸ hlt⟩
  obtain rfl := Option.some.inj (hk.symm.trans hnode)
  exact ⟨_, rfl, rfl⟩

/-- The places are those of the members. -/
theorem range_eq (hshows : c.Shows who x) :
    List.range c.nodes.length = (List.finRange n).map Fin.val := by
  rw [hshows.length]
  exact List.ext_getElem (by simp) (by simp)

/-- A member is found at its place. -/
theorem indexOf?_member (hshows : c.Shows who x) (j : Fin n) :
    c.indexOf? (who j).1 = some j.val := by
  obtain ⟨core, hnode, -⟩ := hshows.node j
  obtain ⟨hlt, hget⟩ := List.getElem?_eq_some_iff.mp hnode
  refine List.findIdx?_eq_some_iff_getElem.mpr ⟨hlt, ?_, ?_⟩
  · rw [hget]
    exact beq_iff_eq.mpr (d.context_me (who j))
  · intro k hk hme
    have hk' : c.nodes[k]? = some c.nodes[k] := List.getElem?_eq_getElem (hk.trans hlt)
    obtain ⟨i, hi, hctx⟩ := hshows.node_at hk'
    have hsame : (who i).1 = (who j).1 := by
      rw [← d.context_me (who i), ← hctx]
      exact beq_iff_eq.mp hme
    obtain rfl : i = j := who.injective (Subtype.ext hsame)
    omega

/-- Nobody else is found. -/
theorem indexOf?_other (hshows : c.Shows who x) {m : MemberId} (hother : ∀ j, (who j).1 ≠ m) :
    c.indexOf? m = none := by
  refine List.findIdx?_eq_none_iff.mpr fun node hnode => ?_
  obtain ⟨k, hk⟩ := List.mem_iff_getElem?.mp hnode
  obtain ⟨i, -, hctx⟩ := hshows.node_at hk
  rw [hctx, d.context_me]
  exact beq_eq_false_iff_ne.mpr (hother i)

/-- A member comes to something else. -/
theorem renew (hshows : c.Shows who x) (i : Fin n) {nodes : List ClusterNode} {seat : Seat}
    {core : Core MemoryStore} (hlength : nodes.length = c.nodes.length)
    (hself : nodes[i.val]? = some ⟨d.context (who i), core, true, seat.executed⟩)
    (hcore : core.Shows (d.context (who i)) seat.state seat.votes)
    (hothers : ∀ k : Nat, k ≠ i.val → nodes[k]? = c.nodes[k]?) :
    Cluster.Shows who { c with nodes } (x.put i seat []) := by
  refine ⟨hlength.trans hshows.length, fun j => ?_, ?_, hshows.losing⟩
  · by_cases hij : j = i
    · subst hij
      rw [Scene.seat_put_self]
      exact ⟨core, hself, hcore⟩
    · obtain ⟨core', hnode, hcore'⟩ := hshows.node j
      have hne : j.val ≠ i.val := fun h => hij (Fin.ext h)
      rw [Scene.seat_put_of_ne _ _ _ hij]
      exact ⟨core', (hothers j hne).trans hnode, hcore'⟩
  · exact hshows.queue.trans (List.append_nil _).symm

/-! ### Actions -/

/-- A message is queued. -/
theorem send (hshows : c.Shows who x) (i j : Nat) (message : Message) :
    (c.send i j message).1.Shows who ⟨x.seat, x.queue ++ [⟨j, message⟩]⟩ := by
  have hkept : ¬ c.losing.contains message.kind = true := by
    rw [hshows.losing]
    exact Bool.false_ne_true
  rw [Cluster.send, if_neg hkept]
  exact ⟨hshows.length, hshows.node, congrArg (· ++ _) hshows.queue, hshows.losing⟩

/-- Messages to some receivers are queued in their order. -/
theorem sends (hshows : c.Shows who x) (i : Nat) (message : Message) (js : List Nat) :
    (Cluster.sequence (fun c j => c.send i j message) c js).1.Shows who
      ⟨x.seat, x.queue ++ js.map fun j => ⟨j, message⟩⟩ := by
  induction js generalizing c x with
  | nil => simpa [Cluster.sequence] using hshows
  | cons j js ih =>
      rw [Cluster.sequence_cons_fst, List.map_cons, List.append_cons]
      exact ih (hshows.send i j message)

/-- **One action** of a member. -/
theorem carryOut (hshows : c.Shows who x) (i : Fin n) (action : Action) :
    (c.carryOut i action).1.Shows who (x.put i
      ⟨(x.seat i).state, (x.seat i).votes, (x.seat i).executed ++ dataIn [action]⟩
      (posts who i action)) := by
  have hidle (qs : List Delivery) : x.put i
      ⟨(x.seat i).state, (x.seat i).votes, (x.seat i).executed ++ []⟩ qs =
        ⟨x.seat, x.queue ++ qs⟩ := by
    rw [List.append_nil]
    exact x.put_seat qs i
  cases action with
  | resetTimer | notify =>
      rw [show dataIn [_] = [] from rfl, hidle, posts, List.append_nil]
      exact hshows
  | send receiver message =>
      rw [show dataIn [_] = [] from rfl, hidle, Cluster.carryOut]
      by_cases hmember : ∃ j, (who j).1 = receiver
      · obtain ⟨j, rfl⟩ := hmember
        rw [hshows.indexOf?_member, posts_send]
        exact hshows.send i j message
      · have hother : ∀ j, (who j).1 ≠ receiver := not_exists.mp hmember
        have hnone : posts who i (.send receiver message) = [] := by
          rw [posts, List.filter_eq_nil_iff.mpr (by simp [hother])]
          rfl
        rw [hshows.indexOf?_other hother, hnone, List.append_nil]
        exact hshows
  | broadcast message =>
      rw [show dataIn [_] = [] from rfl, hidle, Cluster.carryOut]
      have hothers : (List.range c.nodes.length).filter (· ≠ i.val) =
          ((List.finRange n).filter (· ≠ i)).map Fin.val := by
        rw [hshows.range_eq, List.filter_map]
        simp [Function.comp_def, Fin.ext_iff]
      have hposts : posts who i (.broadcast message) =
          ((List.range c.nodes.length).filter (· ≠ i.val)).map fun j => ⟨j, message⟩ := by
        rw [hothers, List.map_map, posts]
        rfl
      rw [hposts]
      exact hshows.sends i message _
  | execute view height payload =>
      obtain ⟨core, hnode, hcore⟩ := hshows.node i
      rw [Cluster.carryOut, posts]
      refine hshows.renew i (List.length_modify ..) ?_ hcore ?_
      · rw [List.getElem?_modify_eq, hnode]
        rfl
      · exact fun k hk => List.getElem?_modify_ne _ _ hk.symm

/-- **All actions** of a member. -/
theorem carryOuts (hshows : c.Shows who x) (i : Fin n) (actions : List Action) :
    (Cluster.sequence (Cluster.carryOut i) c actions).1.Shows who (x.put i
      ⟨(x.seat i).state, (x.seat i).votes, (x.seat i).executed ++ dataIn actions⟩
      (postsIn who i actions)) := by
  induction actions generalizing c x with
  | nil =>
      have hsame : x.put i ⟨(x.seat i).state, (x.seat i).votes,
          (x.seat i).executed ++ dataIn []⟩ (postsIn who i []) = x := by
        rw [dataIn, List.filterMap_nil, List.append_nil, postsIn, List.flatMap_nil]
        exact (x.put_seat [] i).trans (congrArg (Scene.mk _) (List.append_nil _))
      rw [hsame]
      exact hshows
  | cons action actions ih =>
      rw [Cluster.sequence_cons_fst]
      have hlater := ih (hshows.carryOut i action)
      have hdata : dataIn (action :: actions) = dataIn [action] ++ dataIn actions :=
        List.filterMap_append (l := [action])
      have hposts : postsIn who i (action :: actions) =
          posts who i action ++ postsIn who i actions := rfl
      rw [Scene.seat_put_self, Scene.put_put] at hlater
      rw [hdata, hposts, ← List.append_assoc]
      exact hlater

/-! ### Inputs -/

/-- **An input** to a member, and all that comes of it. -/
theorem input (hshows : c.Shows who x) (i : Fin n) {seat : Seat} (hseat : x.seat i = seat)
    {f : ClusterNode → Except Overflow (Core MemoryStore × List Action)} {out : List Action}
    {s' : ReplicaState} {c' : Collector}
    (hf : ∀ core executed, core.Is seat.state seat.votes →
      ∃ core', f ⟨d.context (who i), core, true, executed⟩ = .ok (core', out) ∧
        core'.Shows (d.context (who i)) s' c') :
    ∃ answer, c.input i f = .ok answer ∧ answer.1.Shows who
      (x.put i ⟨s', c', seat.executed ++ dataIn out⟩ (postsIn who i out)) := by
  obtain ⟨core, hnode, hcore⟩ := hshows.node i
  rw [hseat] at hnode hcore
  obtain ⟨core', hanswer, hcore'⟩ := hf core seat.executed hcore.toIs
  let answered : Cluster := { c with
    nodes := c.nodes.set i ⟨d.context (who i), core', true, seat.executed⟩ }
  have hanswered : answered.Shows who (x.put i ⟨s', c', seat.executed⟩ []) := by
    refine hshows.renew i List.length_set ?_ hcore' ?_
    · exact List.getElem?_set_self (List.getElem?_eq_some_iff.mp hnode).1
    · exact fun k hk => List.getElem?_set_ne hk.symm
  refine ⟨Cluster.sequence (Cluster.carryOut i) answered out, ?_, ?_⟩
  · rw [Cluster.input, hnode]
    exact bind_eq_ok.mpr ⟨_, hanswer, rfl⟩
  · have hcarried := hanswered.carryOuts i out
    rw [Scene.seat_put_self, Scene.put_put] at hcarried
    exact hcarried

/-- **The message in front** is delivered to a member that is up. -/
theorem deliver (hshows : c.Shows who x) {i : Fin n} {message : Message} {rest : List Delivery}
    (hqueue : x.queue = ⟨i, message⟩ :: rest) {out : List Action} {s' : ReplicaState}
    {c' : Collector} (hanswers : Core.Answers MemoryStore (d.context (who i)) 0 (x.seat i).state
      (x.seat i).votes message out s' c') :
    ∃ answer, c.deliver 0 = .ok answer ∧ answer.1.Shows who (Scene.put ⟨x.seat, rest⟩ i
      ⟨s', c', (x.seat i).executed ++ dataIn out⟩ (postsIn who i out)) := by
  have hfront : c.queue = ⟨i, message⟩ :: rest := hshows.queue.trans hqueue
  let taken : Cluster := { c with queue := rest }
  have htaken : taken.Shows who ⟨x.seat, rest⟩ := ⟨hshows.length, hshows.node, rfl, hshows.losing⟩
  obtain ⟨core, hnode, -⟩ := htaken.node i
  obtain ⟨answer, hinput, hlater⟩ := htaken.input i rfl
    (f := fun node => node.core.handle node.ctx 0 message) (fun core _ his => hanswers core his)
  refine ⟨answer, ?_, hlater⟩
  have hposition : 0 % c.queue.length = 0 := Nat.zero_mod _
  rw [Cluster.deliver, hposition, hfront]
  simp only [List.getElem?_cons_zero, List.eraseIdx_cons_zero]
  rw [Cluster.receive, hnode]
  exact hinput

end Cluster.Shows

/-! ### Flows -/

section Flows

variable {d : Deployment} {n : Nat} (who : Fin n ≃ d.Correct)

/-- **A flow**: messages are delivered from the front of the queue, and what comes of each is queued
at its end. -/
inductive Flows : Scene n → Scene n → Prop
  | refl {x} : Flows x x
  | deliver {x z : Scene n} {i : Fin n} {message : Message} {rest : List Delivery}
      {out : List Action} {s' : ReplicaState} {c' : Collector}
      (hqueue : x.queue = ⟨i, message⟩ :: rest)
      (hanswers : Core.Answers MemoryStore (d.context (who i)) 0 (x.seat i).state
        (x.seat i).votes message out s' c')
      (hlater : Flows (Scene.put ⟨x.seat, rest⟩ i
        ⟨s', c', (x.seat i).executed ++ dataIn out⟩ (postsIn who i out)) z) : Flows x z

/-- The queue is emptied from its front. -/
def Cluster.Settles (c c' : Cluster) : Prop :=
  ∃ fuel log, drain (fun _ => 0) fuel c = .ok (c', log) ∧ c'.queue = []

variable {who} {x y z : Scene n} {c c' c'' : Cluster}

/-- Flows that follow one another are one flow. -/
theorem Flows.trans (hfirst : Flows who x y) (hlater : Flows who y z) : Flows who x z := by
  induction hfirst with
  | refl => exact hlater
  | deliver hqueue hanswers _ ih => exact .deliver hqueue hanswers (ih hlater)

/-- **A flow that empties the queue** is what happens to the cluster. -/
theorem Flows.settles (hflows : Flows who x z) (hempty : z.queue = []) (hshows : c.Shows who x) :
    ∃ c', c.Settles c' ∧ c'.Shows who z := by
  induction hflows generalizing c with
  | refl => exact ⟨c, ⟨0, [], rfl, hshows.queue.trans hempty⟩, hshows⟩
  | deliver hqueue hanswers _ ih =>
      obtain ⟨⟨mid, log⟩, hdeliver, hmid⟩ := hshows.deliver hqueue hanswers
      obtain ⟨c', ⟨fuel, more, hdrain, hdone⟩, hshows'⟩ := ih hempty hmid
      refine ⟨c', ⟨fuel + 1, log ++ more, ?_, hdone⟩, hshows'⟩
      have hfull : ¬ c.queue.isEmpty = true := by
        rw [hshows.queue, hqueue]
        exact Bool.false_ne_true
      rw [Cluster.drain, if_neg hfull]
      exact bind_eq_ok.mpr ⟨_, hdeliver, bind_eq_ok.mpr ⟨_, hdrain, rfl⟩⟩

/-- An empty queue is left as it is. -/
theorem Cluster.drain_of_empty {pick : Nat → Nat} (hempty : c.queue = []) (fuel : Nat) :
    drain pick fuel c = .ok (c, []) := by
  cases fuel with
  | zero => rfl
  | succ fuel => exact if_pos (List.isEmpty_iff.mpr hempty)

/-- **The queue can be emptied in one way only.** -/
theorem Cluster.Settles.unique (hsettles : c.Settles c') (hsettles' : c.Settles c'') :
    c' = c'' := by
  obtain ⟨fuel, log, hdrain, hdone⟩ := hsettles
  obtain ⟨fuel', log', hdrain', hdone'⟩ := hsettles'
  induction fuel generalizing c fuel' log log' with
  | zero =>
      obtain ⟨rfl, -⟩ := Prod.mk.inj (Except.ok.inj hdrain)
      rw [drain_of_empty hdone] at hdrain'
      exact (Prod.mk.inj (Except.ok.inj hdrain')).1
  | succ fuel ih =>
      by_cases hempty : c.queue = []
      · rw [drain_of_empty hempty] at hdrain hdrain'
        exact (Prod.mk.inj (Except.ok.inj (hdrain.symm.trans hdrain'))).1
      · cases fuel' with
        | zero =>
            obtain ⟨rfl, -⟩ := Prod.mk.inj (Except.ok.inj hdrain')
            exact absurd hdone' hempty
        | succ fuel' =>
            have hfull : ¬ c.queue.isEmpty = true := mt List.isEmpty_iff.mp hempty
            rw [drain, if_neg hfull] at hdrain hdrain'
            obtain ⟨⟨mid, said⟩, hdeliver, hdrain⟩ := bind_eq_ok.mp hdrain
            obtain ⟨⟨mid', said'⟩, hdeliver', hdrain'⟩ := bind_eq_ok.mp hdrain'
            obtain ⟨rfl, -⟩ := Prod.mk.inj (Except.ok.inj (hdeliver.symm.trans hdeliver'))
            obtain ⟨⟨last, more⟩, hlater, hresult⟩ := bind_eq_ok.mp hdrain
            obtain ⟨⟨last', more'⟩, hlater', hresult'⟩ := bind_eq_ok.mp hdrain'
            obtain ⟨rfl, -⟩ := Prod.mk.inj (Except.ok.inj hresult)
            obtain ⟨rfl, -⟩ := Prod.mk.inj (Except.ok.inj hresult')
            exact ih _ hlater _ _ hlater'

/-- **One message for several members**: each answers it in turn, and what they ask for is queued
in their order. -/
theorem Flows.deal {is : List (Fin n)} (hnodup : is.Nodup) {message : Message} {g : Fin n → Seat}
    {out : Fin n → List Action} (hanswers : ∀ i ∈ is,
      Core.Answers MemoryStore (d.context (who i)) 0 (x.seat i).state (x.seat i).votes message
        (out i) (g i).state (g i).votes ∧ (g i).executed = (x.seat i).executed ++ dataIn (out i))
    {rest : List Delivery} (hqueue : x.queue = is.map (fun i => ⟨i.val, message⟩) ++ rest) :
    Flows who x (Scene.each ⟨x.seat, rest⟩ is g fun i => postsIn who i (out i)) := by
  induction is generalizing x rest with
  | nil =>
      obtain ⟨seat, queue⟩ := x
      obtain rfl : queue = rest := hqueue
      rw [Scene.each_nil]
      exact .refl
  | cons i is ih =>
      obtain ⟨hnew, hnodup⟩ := List.nodup_cons.mp hnodup
      obtain ⟨hanswer, hexecuted⟩ := hanswers i (List.mem_cons_self ..)
      refine .deliver hqueue hanswer ?_
      rw [← hexecuted, ← Scene.each_cons _ hnew]
      -- The others are still as they were.
      have hothers : ∀ j ∈ is, Core.Answers MemoryStore (d.context (who j)) 0
          (Function.update x.seat i (g i) j).state (Function.update x.seat i (g i) j).votes message
          (out j) (g j).state (g j).votes ∧
            (g j).executed = (Function.update x.seat i (g i) j).executed ++ dataIn (out j) := by
        intro j hj
        have hne : j ≠ i := by
          rintro rfl
          exact hnew hj
        rw [Function.update_of_ne hne]
        exact hanswers j (List.mem_cons_of_mem _ hj)
      exact ih hnodup hothers (List.append_assoc ..)

/-- **Messages to one member** that it only takes note of. -/
theorem Flows.gather {L : Fin n} {message : Fin n → Message}
    {P : List (Fin n) → Collector → Prop} {s : ReplicaState} {e : List Bytes}
    {js done : List (Fin n)} {votes : Collector} {rest : List Delivery}
    (hstep : ∀ before j votes, before ++ [j] <+: done ++ js → P before votes → ∃ votes',
      P (before ++ [j]) votes' ∧
        Core.Answers MemoryStore (d.context (who L)) 0 s votes (message j) [] s votes')
    (hdone : P done votes) (hseat : x.seat L = ⟨s, votes, e⟩)
    (hqueue : x.queue = js.map (fun j => ⟨L.val, message j⟩) ++ rest) :
    ∃ votes', P (done ++ js) votes' ∧
      Flows who x (Scene.put ⟨x.seat, rest⟩ L ⟨s, votes', e⟩ []) := by
  induction js generalizing x done votes with
  | nil =>
      obtain ⟨seat, queue⟩ := x
      obtain rfl : queue = rest := hqueue
      refine ⟨votes, (List.append_nil done).symm ▸ hdone, ?_⟩
      rw [Scene.put, List.append_nil, ← hseat, Function.update_eq_self]
      exact .refl
  | cons j js ih =>
      have hjs : done ++ j :: js = done ++ [j] ++ js := List.append_cons ..
      obtain ⟨noted, hnoted, hanswers⟩ := hstep done j votes (hjs ▸ List.prefix_append ..) hdone
      rw [hjs] at hstep ⊢
      let heard : Scene n := Scene.put ⟨x.seat, js.map (fun j => ⟨L.val, message j⟩) ++ rest⟩ L
        ⟨s, noted, e⟩ []
      obtain ⟨votes', hlast, hlater⟩ := ih (x := heard) hstep hnoted
        (Scene.seat_put_self ..) (List.append_nil _)
      refine ⟨votes', hlast, .deliver hqueue (by rw [hseat]; exact hanswers) ?_⟩
      rw [hseat]
      have hput : Scene.put ⟨heard.seat, rest⟩ L ⟨s, votes', e⟩ [] =
          Scene.put ⟨x.seat, rest⟩ L ⟨s, votes', e⟩ [] := by
        simp only [heard, Scene.put, Function.update_idem]
      rw [hput] at hlater
      have hsame : (⟨s, noted, e ++ dataIn []⟩ : Seat) = ⟨s, noted, e⟩ := by
        rw [dataIn, List.filterMap_nil, List.append_nil]
      rw [hsame]
      exact hlater

/-! ### An input for every member -/

/-- **An input to every member**: each answers in turn. -/
theorem Cluster.Shows.inputAll {f : Cluster → Nat → Except Overflow (Cluster × List LogEntry)}
    {g : Fin n → Seat} {p : Fin n → List Delivery}
    (hstep : ∀ i c y, Cluster.Shows who c y → y.seat i = x.seat i →
      ∃ answer, f c i.val = .ok answer ∧ answer.1.Shows who (y.put i (g i) (p i)))
    (hshows : c.Shows who x) :
    ∃ answer, c.inputAll f = .ok answer ∧ answer.1.Shows who
      ⟨g, x.queue ++ (List.finRange n).flatMap p⟩ := by
  let step : Cluster × List LogEntry → Nat → Except Overflow (Cluster × List LogEntry) :=
    fun done i => do
      if (done.1.nodes[i]?).any ClusterNode.isUp then
        let answer ← f done.1 i
        return (answer.1, done.2 ++ answer.2)
      else return (done.1, done.2)
  have hsome (is : List (Fin n)) (hnodup : is.Nodup) (y : Scene n)
      (hsame : ∀ i ∈ is, y.seat i = x.seat i) (c : Cluster) (log : List LogEntry)
      (hshows : c.Shows who y) :
      ∃ answer, (is.map Fin.val).foldlM step (c, log) = .ok answer ∧
        answer.1.Shows who (y.each is g p) := by
    induction is generalizing y c log with
    | nil => exact ⟨_, rfl, y.each_nil.symm ▸ hshows⟩
    | cons i is ih =>
        obtain ⟨hnew, hnodup⟩ := List.nodup_cons.mp hnodup
        obtain ⟨⟨mid, more⟩, hf, hmid⟩ := hstep i c y hshows (hsame i (List.mem_cons_self ..))
        obtain ⟨core, hnode, -⟩ := hshows.node i
        have hup : (c.nodes[i.val]?).any ClusterNode.isUp = true := by
          rw [hnode]
          rfl
        have hfirst : step (c, log) i.val = .ok (mid, log ++ more) :=
          (if_pos hup).trans (bind_eq_ok.mpr ⟨_, hf, rfl⟩)
        have hothers : ∀ j ∈ is, (y.put i (g i) (p i)).seat j = x.seat j := by
          intro j hj
          have hne : j ≠ i := by
            rintro rfl
            exact hnew hj
          rw [Scene.seat_put_of_ne _ _ _ hne]
          exact hsame j (List.mem_cons_of_mem _ hj)
        obtain ⟨answer, hfold, hanswer⟩ := ih hnodup _ hothers mid (log ++ more) hmid
        rw [Scene.each_cons _ hnew] at hanswer
        exact ⟨answer, bind_eq_ok.mpr ⟨_, hfirst, hfold⟩, hanswer⟩
  obtain ⟨answer, hfold, hanswer⟩ := hsome (List.finRange n) (List.nodup_finRange n) x
    (fun _ _ => rfl) c [] hshows
  have hall : x.each (List.finRange n) g p = ⟨g, x.queue ++ (List.finRange n).flatMap p⟩ := by
    simp [Scene.each, List.mem_finRange]
  rw [hall] at hanswer
  refine ⟨answer, ?_, hanswer⟩
  rw [Cluster.inputAll, hshows.range_eq]
  exact hfold

end Flows

end HotStuff
