import HotStuff.Proofs.Undisturbed

/-!
# The Stages of an Undisturbed View

All members are up, and their messages travel through one queue. At each stage of a view they are in
one state, apart from the leader, which is ahead of the others by what it has just announced. So a
scene is known by the leader's seat, the seat of all others, and the queue: the announcements of the
members that are still to come, the votes on the ballot that is polled, or what the leader has told
the others. Each stage leads to the next one, and the last one to the first stage of the next view.

## Main definitions

* `Scene.led`: one member in one seat, all others in another.
* `Scene.Entering`: some members' announcements are still to come.
* `Scene.polling`: the others' votes on a ballot are on their way.

## Main results

* `Flows.enter`: all announcements come in.
* `Flows.poll`: the votes on a ballot lead to those on the next one.
* `Flows.decide`: the votes on the last ballot lead to the next view.
-/

namespace HotStuff

/-! ### A leader and the others -/

section Led

variable {n : Nat}

/-- All members but one. -/
def others (L : Fin n) : List (Fin n) := (List.finRange n).filter (· ≠ L)

/-- The others are all but the one. -/
@[simp] theorem mem_others {L i : Fin n} : i ∈ others L ↔ i ≠ L := by simp [others]

/-- No member is twice among the others. -/
theorem nodup_others (L : Fin n) : (others L).Nodup := (List.nodup_finRange n).filter _

/-- The one is not among the others, so all members can be listed with it in front. -/
theorem nodup_cons_others (L : Fin n) : (L :: others L).Nodup :=
  List.nodup_cons.mpr ⟨by simp, nodup_others L⟩

/-- Two members may be set apart. -/
theorem nodup_cons_cons_others {N L : Fin n} (h : N ≠ L) :
    (N :: L :: (others L).filter (· ≠ N)).Nodup := by
  have hrest : (L :: (others L).filter (· ≠ N)).Nodup :=
    List.nodup_cons.mpr ⟨by simp, (nodup_others L).filter _⟩
  exact List.nodup_cons.mpr ⟨by simp [h], hrest⟩

/-- With two members set apart all members are listed. -/
theorem mem_cons_cons_others (N L i : Fin n) : i ∈ N :: L :: (others L).filter (· ≠ N) := by
  by_cases hN : i = N
  · simp [hN]
  · by_cases hL : i = L
    · simp [hL]
    · simp [hN, hL]

/-- There is one fewer among the others than there are members. -/
theorem length_others (L : Fin n) : (others L).length + 1 = n := by
  have hperm : (L :: others L).Perm (List.finRange n) :=
    (List.perm_ext_iff_of_nodup (nodup_cons_others L) (List.nodup_finRange n)).mpr fun i => by
      simp [List.mem_finRange, em]
  simpa using hperm.length_eq

/-- Of all but one of some members something is asked. -/
theorem flatMap_unless {α : Type} (N : Fin n) (f : Fin n → α) (is : List (Fin n)) :
    (is.flatMap fun i => if i = N then [] else [f i]) = (is.filter (· ≠ N)).map f := by
  induction is with
  | nil => rfl
  | cons i is ih =>
      by_cases h : i = N
      · simp [h, ih]
      · simp [h, ih]

/-- Of one of some members something is asked. -/
theorem flatMap_only {α : Type} {N : Fin n} {ps : List α} {is : List (Fin n)} (hnodup : is.Nodup)
    (hN : N ∈ is) : (is.flatMap fun i => if i = N then ps else []) = ps := by
  induction is with
  | nil => cases hN
  | cons i is ih =>
      obtain ⟨hnew, hnodup⟩ := List.nodup_cons.mp hnodup
      by_cases h : i = N
      · subst h
        have hrest : (is.flatMap fun j => if j = i then ps else []) = [] :=
          List.flatMap_eq_nil_iff.mpr fun j hj => if_neg (by rintro rfl; exact hnew hj)
        rw [List.flatMap_cons, if_pos rfl, hrest, List.append_nil]
      · rw [List.flatMap_cons, if_neg h, List.nil_append]
        exact ih hnodup ((List.mem_cons.mp hN).resolve_left (Ne.symm h))

/-- **The leader in one seat**, all others in another. -/
def Scene.led (L : Fin n) (lead other : Seat) (queue : List Delivery) : Scene n :=
  ⟨Function.update (fun _ => other) L lead, queue⟩

namespace Scene

variable {L i : Fin n} {lead other : Seat} {qs : List Delivery}

/-- The leader is in its own seat. -/
@[simp] theorem seat_led_self : (led L lead other qs).seat L = lead := by simp [led]

/-- All others are in the other seat. -/
theorem seat_led_of_ne (h : i ≠ L) : (led L lead other qs).seat i = other := by simp [led, h]

/-- A scene is known by the leader's seat and that of all others. -/
theorem eq_led {seat : Fin n → Seat} (hlead : seat L = lead)
    (hother : ∀ i, i ≠ L → seat i = other) : Scene.mk seat qs = led L lead other qs := by
  refine congrArg (Scene.mk · qs) (funext fun i => ?_)
  by_cases h : i = L
  · rw [h, hlead, Function.update_self]
  · rw [hother i h, Function.update_of_ne h]

/-- The leader comes to something else. -/
theorem put_led (lead' : Seat) (rest qs' : List Delivery) :
    Scene.put ⟨(led L lead other qs).seat, rest⟩ L lead' qs' = led L lead' other (rest ++ qs') := by
  simp only [led, put, Function.update_idem]

end Scene

variable {d : Deployment} {who : Fin n ≃ d.Correct} {L : Fin n} {lead other : Seat}
  {s s' : ReplicaState} {votes c c' : Collector} {e : List Bytes} {rest qs : List Delivery}
  {message : Message} {z : Scene n}

namespace Flows

/-- The leader answers the message in front. -/
theorem led_deliver {out : List Action}
    (hanswers : Core.Answers MemoryStore (d.context (who L)) 0 s c message out s' c')
    (hlater : Flows who (.led L ⟨s', c', e ++ dataIn out⟩ other (rest ++ postsIn who L out)) z) :
    Flows who (.led L ⟨s, c, e⟩ other (⟨L.val, message⟩ :: rest)) z := by
  let x : Scene n := .led L ⟨s, c, e⟩ other (⟨L.val, message⟩ :: rest)
  have hanswers : Core.Answers MemoryStore (d.context (who L)) 0 (x.seat L).state (x.seat L).votes
      message out s' c' := by
    rw [Scene.seat_led_self]
    exact hanswers
  refine .deliver rfl hanswers ?_
  rw [Scene.put_led, Scene.seat_led_self]
  exact hlater

/-- The leader takes note of some messages. -/
theorem led_gather (other : Seat) (rest : List Delivery) {tells : Fin n → Message}
    {P : List (Fin n) → Collector → Prop} {js done : List (Fin n)}
    (hstep : ∀ before j votes, before ++ [j] <+: done ++ js → P before votes → ∃ votes',
      P (before ++ [j]) votes' ∧ Core.Answers MemoryStore (d.context (who L)) 0 s votes (tells j) []
        s votes') (hdone : P done votes) :
    ∃ votes', P (done ++ js) votes' ∧
      Flows who (.led L ⟨s, votes, e⟩ other (js.map (fun j => ⟨L.val, tells j⟩) ++ rest))
        (.led L ⟨s, votes', e⟩ other rest) := by
  obtain ⟨votes', hlast, hflows⟩ := Flows.gather
    (x := .led L ⟨s, votes, e⟩ other (js.map (fun j => ⟨L.val, tells j⟩) ++ rest)) hstep hdone
    Scene.seat_led_self rfl
  rw [Scene.put_led, List.append_nil] at hflows
  exact ⟨votes', hlast, hflows⟩

/-- The others answer a message of the leader, each in its own way. -/
theorem led_deal_each (lead : Seat) (rest : List Delivery) {out : Fin n → List Action}
    {g : Fin n → Seat}
    (hanswers : ∀ i, i ≠ L → Core.Answers MemoryStore (d.context (who i)) 0 s c message (out i)
      (g i).state (g i).votes ∧ (g i).executed = e ++ dataIn (out i)) :
    Flows who (.led L lead ⟨s, c, e⟩ ((others L).map (fun i => ⟨i.val, message⟩) ++ rest))
      ⟨Function.update g L lead, rest ++ (others L).flatMap fun i => postsIn who i (out i)⟩ := by
  let x : Scene n := .led L lead ⟨s, c, e⟩ ((others L).map (fun i => ⟨i.val, message⟩) ++ rest)
  have hdealt : ∀ i ∈ others L, Core.Answers MemoryStore (d.context (who i)) 0 (x.seat i).state
      (x.seat i).votes message (out i) (g i).state (g i).votes ∧
        (g i).executed = (x.seat i).executed ++ dataIn (out i) := by
    intro i hi
    rw [Scene.seat_led_of_ne (mem_others.mp hi)]
    exact hanswers i (mem_others.mp hi)
  have hqueue : x.queue = (others L).map (fun i => ⟨i.val, message⟩) ++ rest := rfl
  have hflows := Flows.deal (nodup_others L) hdealt hqueue
  have hseat : (fun i => if i ∈ others L then g i else x.seat i) = Function.update g L lead := by
    funext i
    by_cases h : i = L
    · simp [h, x]
    · simp [h]
  rw [Scene.each, hseat] at hflows
  exact hflows

/-- The others answer a message of the leader, and come to the same. -/
theorem led_deal {out : Fin n → List Action} {data : List Bytes}
    (hanswers : ∀ i, i ≠ L →
      Core.Answers MemoryStore (d.context (who i)) 0 s c message (out i) s' c' ∧
        dataIn (out i) = data) :
    Flows who (.led L lead ⟨s, c, e⟩ ((others L).map (fun i => ⟨i.val, message⟩) ++ rest))
      (.led L lead ⟨s', c', e ++ data⟩
        (rest ++ (others L).flatMap fun i => postsIn who i (out i))) :=
  led_deal_each (g := fun _ => ⟨s', c', e ++ data⟩) lead rest fun i hi =>
    ⟨(hanswers i hi).1, congrArg (e ++ ·) (hanswers i hi).2.symm⟩

end Flows

end Led

/-! ### Who leads -/

section Committee

variable {d : Deployment} {n : Nat} (who : Fin n ≃ d.Correct)

/-- Where nobody is faulty, every member has a place. -/
theorem exists_place (hcorrect : d.faulty = ∅) {m : MemberId} (hm : m ∈ d.committee.members) :
    ∃ i, (who i).1 = m := by
  have hnot : m ∉ d.faulty := by
    rw [hcorrect]
    exact Finset.notMem_empty m
  exact ⟨who.symm ⟨m, hm, hnot⟩, congrArg Subtype.val (who.apply_symm_apply _)⟩

/-- Where nobody is faulty, the leader of every view has a place. -/
theorem exists_leader (hcorrect : d.faulty = ∅) (view : View) :
    ∃ L, d.committee.leader view = (who L).1 := by
  obtain ⟨L, hL⟩ := exists_place who hcorrect (List.get_mem d.committee.members
    ⟨view.toNat % d.committee.size, Nat.mod_lt _ d.committee.size_pos⟩)
  exact ⟨L, hL.symm⟩

/-- Places are told apart by their members. -/
theorem place_inj {i j : Fin n} : (who i).1 = (who j).1 ↔ i = j :=
  ⟨fun h => who.injective (Subtype.ext h), fun h => h ▸ rfl⟩

/-- The last of some distinct places is not that of an earlier member. -/
theorem place_not_mem {before : List (Fin n)} {j : Fin n} (hnodup : (before ++ [j]).Nodup) :
    (who j).1 ∉ before.map fun i => (who i).1 := by
  intro hmem
  obtain ⟨i, hi, heq⟩ := List.mem_map.mp hmem
  obtain rfl : i = j := (place_inj who).mp heq
  obtain ⟨-, -, hapart⟩ := List.nodup_append.mp hnodup
  exact hapart i hi i (List.mem_singleton_self i) rfl

/-- **Rotation.** In a committee with more than one member the next view has another leader. -/
theorem Committee.leader_add_one_ne (c : Committee) (hmany : 1 < c.size) {view : View}
    (hlast : view ≠ View.last) : c.leader (view + 1) ≠ c.leader view := by
  intro hsame
  have hnext : (view + 1).toNat = view.toNat + 1 := View.toNat_of_next? (if_neg hlast)
  have hindex := (List.nodup_iff_injective_get.mp c.nodup) hsame
  have hmod : (view + 1).toNat % c.size = view.toNat % c.size := congrArg Fin.val hindex
  rw [hnext] at hmod
  have hone : (view.toNat + 1 - view.toNat) % c.size = 0 := Nat.sub_mod_eq_zero_of_mod_eq hmod
  rw [Nat.add_sub_cancel_left, Nat.mod_eq_of_lt hmany] at hone
  cases hone

end Committee

/-! ### Announcements -/

section Stages

variable {d : Deployment} {who : Fin d.committee.size ≃ d.Correct}

/-- **The members enter the view of a state**: the announcements of some have not reached the leader
yet. -/
structure Scene.Entering (who : Fin d.committee.size ≃ d.Correct) (s : ReplicaState)
    (e : List Bytes) (missing : List (Fin d.committee.size)) (x : Scene d.committee.size) :
    Prop where
  gathered : ∃ (L : Fin d.committee.size) (r : Round) (present : List (Fin d.committee.size)),
    d.committee.leader s.view = (who L).1 ∧
    r.Gathers (s.highCertificate d.scheme) (present.map fun i => (who i).1) ∧
    (present ++ missing).Nodup ∧ (∀ i, i ∈ present ++ missing) ∧
    x = .led L ⟨s, .only s.view r, e⟩ ⟨s, .empty, e⟩
      (missing.map fun i => ⟨L.val, d.entry (who i) s⟩)

variable {s : ReplicaState} {e : List Bytes} {x : Scene d.committee.size}
  {missing : List (Fin d.committee.size)}

/-- Whoever has just entered a view holds what it should. -/
theorem Scene.entering_of_arrived {N : Fin d.committee.size}
    (hleader : d.committee.leader s.view = (who N).1) (hnodup : (N :: missing).Nodup)
    (hall : ∀ i, i ∈ N :: missing) :
    Scene.Entering who s e missing ⟨fun i => ⟨s, d.arrived (who i) s, e⟩,
      missing.map fun i => ⟨N.val, d.entry (who i) s⟩⟩ := by
  refine ⟨N, _, [N], hleader, .first (who N).1 _, hnodup, hall, Scene.eq_led ?_ fun i hi => ?_⟩
  · exact congrArg (Seat.mk s · e) (Deployment.arrived_of_leader hleader)
  · have hother : d.committee.leader s.view ≠ (who i).1 :=
      fun h => hi ((place_inj who).mp (h.symm.trans hleader))
    exact congrArg (Seat.mk s · e) (Deployment.arrived_of_not_leader hother)

/-- All members are in one state and have executed the same. -/
theorem Scene.Entering.seat_eq (hentering : x.Entering who s e missing)
    (i : Fin d.committee.size) : (x.seat i).state = s ∧ (x.seat i).executed = e := by
  obtain ⟨L, r, -, -, -, -, -, rfl⟩ := hentering.gathered
  by_cases h : i = L
  · rw [h, Scene.seat_led_self]
    exact ⟨rfl, rfl⟩
  · rw [Scene.seat_led_of_ne h]
    exact ⟨rfl, rfl⟩

/-- **All announcements come in.** -/
theorem Flows.enter (hseals : d.SealsVerify) (hwaits : d.Waits s)
    (hentering : x.Entering who s e missing) :
    ∃ y, Flows who x y ∧ y.queue = [] ∧ y.Entering who s e [] := by
  obtain ⟨L, r, present, hleader, hgathers, hnodup, hall, rfl⟩ := hentering.gathered
  let P : List (Fin d.committee.size) → Collector → Prop := fun is votes => ∃ r : Round,
    votes = .only s.view r ∧ r.Gathers (s.highCertificate d.scheme) (is.map fun i => (who i).1)
  have hstep : ∀ before j votes, before ++ [j] <+: present ++ missing → P before votes →
      ∃ votes', P (before ++ [j]) votes' ∧ Core.Answers MemoryStore (d.context (who L)) 0 s votes
        (d.entry (who j) s) [] s votes' := by
    rintro before j votes hprefix ⟨⟨tallies, newViews⟩, rfl, hgathers⟩
    have hnew : (who j).1 ∉ before.map fun i => (who i).1 :=
      place_not_mem who (hnodup.sublist hprefix.sublist)
    obtain rfl : tallies = ∅ := hgathers.unopened
    have hadd : (Collector.only s.view ⟨∅, newViews⟩).addNewView d.committee s.view (who j).1
        (s.highCertificate d.scheme) = _ :=
      Collector.addNewView_only (who j).2.1 (hgathers.entered.symm ▸ hnew)
    have hgives := Deployment.gives_entry (σ := MemoryStore) (t := 0) hseals hwaits hleader hadd
    have hanswers := hgives.answers_quiet Core.quiet_nil
    rw [Collector.pruneBelow_only_of_le (UInt64.le_refl _)] at hanswers
    have hentered := hgathers.enter hnew
    exact ⟨_, ⟨_, rfl, by rw [List.map_append]; exact hentered⟩, hanswers⟩
  obtain ⟨votes, ⟨r', rfl, hgathers'⟩, hflows⟩ := Flows.led_gather (P := P) ⟨s, .empty, e⟩ []
    hstep ⟨r, rfl, hgathers⟩
  rw [List.append_nil] at hflows
  refine ⟨_, hflows, rfl, ⟨L, r', present ++ missing, hleader, hgathers', ?_, ?_, rfl⟩⟩
  · rwa [List.append_nil]
  · rwa [List.append_nil]

/-! ### Votes -/

/-- **A ballot is polled**: the members have voted on it, and the votes of the others are on their
way to the leader. -/
def Scene.polling (who : Fin d.committee.size ≃ d.Correct) (L : Fin d.committee.size)
    (s : ReplicaState) (e : List Bytes) (b : Ballot) (r : Round) : Scene d.committee.size :=
  .led L ⟨s, .only b.view r, e⟩ ⟨s, .empty, e⟩
    ((others L).map fun i => ⟨L.val, d.ballotBy (who i) b⟩)

variable {s' : ReplicaState} {L : Fin d.committee.size} {b : Ballot} {r : Round} {other : Seat}
  {rest : List Delivery}

/-- Votes that do not complete the quorum come in. -/
theorem Flows.pend (other : Seat) (rest : List Delivery) (hseals : d.SealsVerify)
    (hleader : d.committee.leader b.view = (who L).1)
    (hview : s.view = b.view) (hpolls : r.Polls (d.context (who L)) b [(who L).1])
    {early : List (Fin d.committee.size)} (hnodup : (L :: early).Nodup)
    (hfew : early.length + 1 < d.committee.quorum) :
    ∃ r' : Round, r'.Polls (d.context (who L)) b ((L :: early).map fun i => (who i).1) ∧
      Flows who
        (.led L ⟨s, .only b.view r, e⟩ other
          (early.map (fun i => ⟨L.val, d.ballotBy (who i) b⟩) ++ rest))
        (.led L ⟨s, .only b.view r', e⟩ other rest) := by
  let P : List (Fin d.committee.size) → Collector → Prop := fun is votes => ∃ r : Round,
    votes = .only b.view r ∧ r.Polls (d.context (who L)) b (is.map fun i => (who i).1)
  have hstep : ∀ before j votes, before ++ [j] <+: [L] ++ early → P before votes →
      ∃ votes', P (before ++ [j]) votes' ∧ Core.Answers MemoryStore (d.context (who L)) 0 s votes
        (d.ballotBy (who j) b) [] s votes' := by
    rintro before j votes hprefix ⟨r, rfl, hpolls⟩
    have hnew : (who j).1 ∉ before.map fun i => (who i).1 :=
      place_not_mem who (hnodup.sublist hprefix.sublist)
    have hlength : (before.map fun i => (who i).1).length + 1 < d.committee.quorum := by
      have hle := hprefix.length_le
      simp only [List.length_append, List.length_singleton, List.length_map] at hle ⊢
      omega
    obtain ⟨r', hpolls', hgives⟩ := Deployment.gives_pending (σ := MemoryStore) (t := 0)
      hseals hleader hview hpolls hnew hlength
    have hanswers := hgives.answers_quiet Core.quiet_nil
    rw [Collector.pruneBelow_only_of_le (hview ▸ UInt64.le_refl _)] at hanswers
    exact ⟨_, ⟨r', rfl, by rw [List.map_append]; exact hpolls'⟩, hanswers⟩
  obtain ⟨votes, ⟨r', rfl, hpolls'⟩, hflows⟩ := Flows.led_gather (P := P) (e := e) other rest hstep
    ⟨r, rfl, hpolls⟩
  exact ⟨r', hpolls', hflows⟩

/-- Messages that the leader takes no note of come in. -/
theorem Flows.ignore {votes : Collector} {late : List (Fin d.committee.size)}
    {tells : Fin d.committee.size → Message}
    (hanswers : ∀ j, Core.Answers MemoryStore (d.context (who L)) 0 s votes (tells j) [] s votes) :
    Flows who (.led L ⟨s, votes, e⟩ other (late.map (fun i => ⟨L.val, tells i⟩) ++ rest))
      (.led L ⟨s, votes, e⟩ other rest) := by
  have hstep : ∀ before j votes', before ++ [j] <+: [] ++ late → votes' = votes →
      ∃ votes'', votes'' = votes ∧
        Core.Answers MemoryStore (d.context (who L)) 0 s votes' (tells j) [] s votes'' := by
    rintro before j _ - rfl
    exact ⟨_, rfl, hanswers j⟩
  obtain ⟨votes', rfl, hflows⟩ := Flows.led_gather (P := fun _ votes' => votes' = votes) (e := e)
    other rest hstep rfl
  exact hflows

/-- The votes of the others, up to the one that completes the quorum, and those after it. -/
theorem exists_decisive (L : Fin d.committee.size) (hmany : 1 < d.committee.quorum) :
    ∃ early j late, others L = early ++ j :: late ∧ early.length + 2 = d.committee.quorum := by
  have hlength : (others L).length + 1 = d.committee.size := length_others L
  have hquorum : d.committee.quorum ≤ d.committee.size := d.committee.quorum_le
  have hlt : d.committee.quorum - 2 < (others L).length := by omega
  refine ⟨(others L).take (d.committee.quorum - 2), (others L)[d.committee.quorum - 2],
    (others L).drop (d.committee.quorum - 2 + 1), ?_, ?_⟩
  · rw [List.cons_getElem_drop_succ, List.take_append_drop]
  · rw [List.length_take]
    omega

/-- What the leader says on a certificate is queued for each of the others. -/
theorem posts_announcing (st : Statement) (actions : List Action) :
    postsIn who L (d.announcing (who L) st ++ actions) =
      (others L).map (fun i => ⟨i.val, .ofStatement ((d.context (who L)).sign st)⟩) ++
        postsIn who L actions := rfl

/-- The votes of the others go to the leader. -/
theorem posts_voting (hleader : d.committee.leader b.view = (who L).1) :
    ((others L).flatMap fun i => postsIn who i (d.voting (who i) b)) =
      (others L).map fun i => ⟨L.val, d.ballotBy (who i) b⟩ := by
  have hone (i : Fin d.committee.size) : postsIn who i (d.voting (who i) b) =
      [⟨L.val, d.ballotBy (who i) b⟩] := by
    rw [Deployment.voting, hleader, postsIn, List.flatMap_cons, posts_send]
    rfl
  simp only [hone]
  exact List.map_eq_flatMap.symm

/-- Whoever enters a view announces itself to its leader. -/
theorem posts_entering {i N : Fin d.committee.size}
    (hleader : d.committee.leader s.view = (who N).1) :
    postsIn who i (d.entering (who i) s) = [⟨N.val, d.entry (who i) s⟩] := by
  rw [Deployment.entering, hleader, postsIn, List.flatMap_cons, posts_send]
  rfl

/-- Whoever leads the view that it enters announces itself to nobody else. -/
theorem posts_arriving {i N : Fin d.committee.size}
    (hleader : d.committee.leader s.view = (who N).1) :
    postsIn who i (d.arriving (who i) s) =
      if i = N then [] else [⟨N.val, d.entry (who i) s⟩] := by
  by_cases h : i = N
  · subst h
    rw [Deployment.arriving, if_pos hleader, if_pos rfl]
    rfl
  · have hother : d.committee.leader s.view ≠ (who i).1 :=
      fun heq => h ((place_inj who).mp (heq.symm.trans hleader))
    rw [Deployment.arriving, if_neg hother, if_neg h]
    exact posts_entering hleader

/-- **The others vote** on what the leader tells them. -/
theorem Flows.vote {message : Message} (hleader : d.committee.leader b.view = (who L).1)
    (hgives : ∀ i, who i ≠ who L → Core.Gives MemoryStore (d.context (who i)) 0 s .empty message
      (d.voting (who i) b) s' .empty) :
    Flows who (.led L ⟨s', .only b.view r, e⟩ ⟨s, .empty, e⟩
      ((others L).map fun i => ⟨i.val, message⟩)) (.polling who L s' e b r) := by
  have hanswers (i : Fin d.committee.size) (hi : i ≠ L) : Core.Answers MemoryStore
      (d.context (who i)) 0 s .empty message (d.voting (who i) b) s' .empty := by
    have hquiet : Core.Quiet (d.context (who i)) (d.voting (who i) b) :=
      Deployment.quiet_voting fun h => hi ((place_inj who).mp (h.symm.trans hleader))
    exact (hgives i fun h => hi (who.injective h)).answers_quiet hquiet
  have hdeal : Flows who
      (.led L ⟨s', .only b.view r, e⟩ ⟨s, .empty, e⟩
        ((others L).map (fun i => ⟨i.val, message⟩) ++ []))
      (.led L ⟨s', .only b.view r, e⟩ ⟨s', .empty, e ++ []⟩
        ([] ++ (others L).flatMap fun i => postsIn who i (d.voting (who i) b))) :=
    .led_deal fun i hi => ⟨hanswers i hi, rfl⟩
  rwa [posts_voting hleader, List.append_nil, List.append_nil, List.nil_append] at hdeal

/-- **The proposal reaches the others**, and they vote on it. -/
theorem Flows.offer (hseals : d.SealsVerify) (hwaits : d.Waits s) (data : Bytes)
    (hleader : d.committee.leader s.view = (who L).1) :
    Flows who
      (.led L ⟨s.accept (d.proposal s data), .only s.view r, e⟩ ⟨s, .empty, e⟩
        ((others L).map fun i =>
          ⟨i.val, .statement .prepare ((d.context (who L)).sign (d.proposal s data))⟩))
      (.polling who L (s.accept (d.proposal s data)) e ⟨.prepare, s.view, ⟨s.committed, data⟩⟩ r) :=
  .vote hleader fun _ _ => hwaits.gives_prepare hseals hleader data

/-- **The votes on a ballot come in** up to the one that completes the quorum. -/
theorem Flows.count (hseals : d.SealsVerify) (hleader : d.committee.leader b.view = (who L).1)
    (hview : s.view = b.view) (hpolls : r.Polls (d.context (who L)) b [(who L).1])
    (hmany : 1 < d.committee.quorum) :
    ∃ (voters : List MemberId) (j : Fin d.committee.size) (late : List (Fin d.committee.size))
      (r' : Round), r'.Polls (d.context (who L)) b voters ∧ (who j).1 ∉ voters ∧
        d.committee.quorum ≤ voters.length + 1 ∧
        Flows who (.polling who L s e b r)
          (.led L ⟨s, .only b.view r', e⟩ ⟨s, .empty, e⟩ (⟨L.val, d.ballotBy (who j) b⟩ ::
            late.map fun i => ⟨L.val, d.ballotBy (who i) b⟩)) := by
  obtain ⟨early, j, late, hothers, hearly⟩ := exists_decisive L hmany
  have hnodup : (L :: early ++ [j] ++ late).Nodup := by
    have hall := nodup_cons_others L
    rwa [hothers, List.append_cons, ← List.cons_append, ← List.cons_append] at hall
  have hvoters : (L :: early ++ [j]).Nodup := hnodup.sublist (List.sublist_append_left ..)
  obtain ⟨r', hpolls', hpend⟩ := Flows.pend (e := e) ⟨s, .empty, e⟩
    (⟨L.val, d.ballotBy (who j) b⟩ :: late.map fun i => ⟨L.val, d.ballotBy (who i) b⟩) hseals
    hleader hview hpolls (hvoters.sublist (List.sublist_append_left ..)) (by omega)
  refine ⟨_, j, late, r', hpolls', place_not_mem who hvoters, ?_, ?_⟩
  · rw [List.length_map, List.length_cons]
    omega
  · rw [Scene.polling, hothers, List.map_append, List.map_cons]
    exact hpend

variable (hseals : d.SealsVerify) (hleader : d.committee.leader b.view = (who L).1)
  (hvotes : s.Votes b) (hpolls : r.Polls (d.context (who L)) b [(who L).1])
  (hmany : 1 < d.committee.quorum)

include hseals hleader hvotes hpolls hmany

/-- **The votes on a ballot lead to those on the next one.** -/
theorem Flows.poll {next : Phase} (hnext : b.phase.successor = some next)
    (hlater : next = .preCommit ∨ next = .commit) :
    ∃ (cert : Certificate) (r' : Round), d.Attests cert b ∧
      r'.Polls (d.context (who L)) ⟨next, b.view, b.payload⟩ [(who L).1] ∧
      Flows who (.polling who L s e b r)
        (.polling who L (s.follow cert) e ⟨next, b.view, b.payload⟩ r') := by
  obtain ⟨voters, j, late, r₁, hpolls₁, hnew, hquorum, hcount⟩ :=
    Flows.count (e := e) hseals hleader hvotes.view hpolls hmany
  obtain ⟨cert, r', hattests, hpolls', hanswers⟩ := Deployment.answers_certified
    (σ := MemoryStore) (t := 0) hseals hleader hvotes hpolls₁ hnew hquorum hmany hnext hlater
  refine ⟨cert, r', hattests, hpolls', ?_⟩
  have hvoted := hvotes.follow hattests.ballot hnext hlater
  -- The votes that are still on their way come too late.
  have hrank : b.phase.rank < next.rank := by
    rw [Phase.rank_of_successor hnext]
    exact Nat.lt_succ_self _
  obtain ⟨_, _, hsound⟩ := hpolls.current
  have hlate (i : Fin d.committee.size) : Core.Answers MemoryStore (d.context (who L)) 0
      (s.follow cert) (.only b.view r') (d.ballotBy (who i) b) [] (s.follow cert)
      (.only b.view r') := by
    have hgives := Deployment.gives_late (σ := MemoryStore) (t := 0) (m := who i) hseals
      (b := ⟨next, b.view, b.payload⟩) hleader hvoted.view hpolls' hsound.2.voted hrank
    have hanswers := hgives.answers_quiet Core.quiet_nil
    rwa [Collector.pruneBelow_only_of_le (hvoted.view ▸ UInt64.le_refl _)] at hanswers
  have hvote : Flows who
      (.led L ⟨s.follow cert, .only b.view r', e⟩ ⟨s, .empty, e⟩ ((others L).map fun i =>
        ⟨i.val, .ofStatement ((d.context (who L)).sign (cert.statement next))⟩))
      (.polling who L (s.follow cert) e ⟨next, b.view, b.payload⟩ r') :=
    .vote (b := ⟨next, b.view, b.payload⟩) hleader fun _ hother =>
      Deployment.gives_phase hvotes hattests hseals hleader hother hnext hlater
  refine hcount.trans (Flows.led_deliver hanswers ?_)
  rw [posts_announcing, show dataIn _ = [] from rfl,
    show postsIn who L [Replica.rearm _] = [] from rfl, List.append_nil, List.append_nil]
  exact (Flows.ignore hlate).trans hvote

omit hpolls hmany in
/-- **The decision reaches the others**, and they enter the next view after its leader. -/
theorem Flows.spread {cert : Certificate} {N : Fin d.committee.size} (hattests : d.Attests cert b)
    (hcommit : b.phase = .commit) (hlast : s.view ≠ View.last) (hroom : s.height ≤ s.view)
    (hwaits : d.Waits (s.decide d.scheme cert))
    (hnext : d.committee.leader (s.view + 1) = (who N).1) (rest : List Delivery) :
    Flows who
      (.led L ⟨s.decide d.scheme cert, d.arrived (who L) (s.decide d.scheme cert),
          e ++ [cert.payload.data]⟩ ⟨s, .empty, e⟩
        ((others L).map (fun i => ⟨i.val,
          .ofStatement ((d.context (who L)).sign (cert.statement .decide))⟩) ++ rest))
      ⟨fun i => ⟨s.decide d.scheme cert, d.arrived (who i) (s.decide d.scheme cert),
          e ++ [cert.payload.data]⟩,
        rest ++ ((others L).filter (· ≠ N)).map fun i =>
          ⟨N.val, d.entry (who i) (s.decide d.scheme cert)⟩⟩ := by
  let decided (i : Fin d.committee.size) : Seat :=
    ⟨s.decide d.scheme cert, d.arrived (who i) (s.decide d.scheme cert), e ++ [cert.payload.data]⟩
  have hanswers (i : Fin d.committee.size) (hi : i ≠ L) :=
    Deployment.answers_decide (σ := MemoryStore) (t := 0) hseals hvotes hattests hleader
      (fun h => hi (who.injective h)) hcommit hlast hroom hwaits
  have hposts (i : Fin d.committee.size) : postsIn who i
      (d.executing cert (s.decide d.scheme cert) ++ d.arriving (who i) (s.decide d.scheme cert)) =
        if i = N then [] else [⟨N.val, d.entry (who i) (s.decide d.scheme cert)⟩] :=
    posts_arriving hnext
  have hdeal := Flows.led_deal_each (L := L) (g := decided) (decided L) rest
    fun i hi => ⟨hanswers i hi, congrArg (e ++ ·) Deployment.dataIn_deciding.symm⟩
  rw [Function.update_eq_self] at hdeal
  simp only [hposts, flatMap_unless] at hdeal
  exact hdeal

/-- **The votes on the last ballot lead to the next view.** -/
theorem Flows.decide (hcorrect : d.faulty = ∅) (hcommit : b.phase = .commit)
    (hlast : s.view ≠ View.last) (hroom : s.height ≤ s.view)
    (hwaits : ∀ cert, d.Attests cert b → d.Waits (s.decide d.scheme cert)) :
    ∃ cert x missing, d.Attests cert b ∧ Flows who (.polling who L s e b r) x ∧
      x.Entering who (s.decide d.scheme cert) (e ++ [b.payload.data]) missing := by
  have hsize : 1 < d.committee.size := hmany.trans_le d.committee.quorum_le
  obtain ⟨N, hnext⟩ := exists_leader who hcorrect (s.view + 1)
  have hNL : N ≠ L := by
    rintro rfl
    refine d.committee.leader_add_one_ne hsize hlast ?_
    rw [hnext, hvotes.view, hleader]
  obtain ⟨voters, j, late, r₁, hpolls₁, hnew, hquorum, hcount⟩ :=
    Flows.count (e := e) hseals hleader hvotes.view hpolls hmany
  obtain ⟨cert, hattests, hanswers⟩ := Deployment.answers_decided (σ := MemoryStore) (t := 0)
    hseals hleader hvotes hpolls₁ hnew hquorum hcommit hlast hroom hwaits
  let s' := s.decide d.scheme cert
  have hpayload : cert.payload = b.payload := congrArg Ballot.payload hattests.ballot
  -- The leader has left the view; the votes still on their way are refused.
  have hlate (i : Fin d.committee.size) : Core.Answers MemoryStore (d.context (who L)) 0 s'
      (d.arrived (who L) s') (d.ballotBy (who i) b) [] s' (d.arrived (who L) s') := by
    have hover : s'.view ≠ b.view := by
      rw [← hvotes.view]
      exact (UInt64.ne_of_lt (View.lt_of_next? (if_neg hlast))).symm
    have hgives := Deployment.gives_over (σ := MemoryStore) (t := 0) (m := who i)
      (c := d.arrived (who L) s') hleader hover
    have hanswers := hgives.answers_quiet Core.quiet_nil
    rwa [Deployment.pruneBelow_arrived] at hanswers
  have hspread := Flows.spread (e := e) hseals hleader hvotes hattests hcommit hlast hroom
    (hwaits cert hattests) hnext [⟨N.val, d.entry (who L) s'⟩]
  have hentering := Scene.entering_of_arrived (e := e ++ [cert.payload.data]) (s := s') hnext
    (nodup_cons_cons_others hNL) (mem_cons_cons_others N L)
  have hposts : postsIn who L (d.executing cert s' ++ d.arriving (who L) s') =
      [⟨N.val, d.entry (who L) s'⟩] := (posts_arriving hnext).trans (if_neg hNL.symm)
  have hexecuted : dataIn (d.announcing (who L) (cert.statement .decide) ++
      (d.executing cert s' ++ d.arriving (who L) s')) = [cert.payload.data] :=
    Deployment.dataIn_deciding
  rw [← hpayload]
  refine ⟨cert, _, _, hattests, hcount.trans (Flows.led_deliver hanswers ?_), hentering⟩
  rw [posts_announcing, hposts, hexecuted]
  exact (Flows.ignore hlate).trans hspread

end Stages

end HotStuff
