import HotStuff.Proofs.Repetition

/-!
# What a Collector Can Hold

Anyone can announce views to a leader, as many as there are, and no announcement for a later view is
refused as long as that is near enough. Still the memory is bounded by the committee: what a member
announced before is forgotten, with the round if nothing else is in there. A round that is left
without members has a ballot, and ballots are only opened in the view of the replica. So between two
inputs there is one round for that view, and for each member at most one more.

## Main definitions

* `Collector.InUse`: there is a ballot or a member in a view.
* `Collector.Packed`: every round is in use.
* `Collector.PolledBy`: ballots are open in no view after a given one.

## Main results

* `Core.Reached.packed`, `Core.Reached.polledBy`: both are kept by every turn.
* `collector_stays_bounded`: the bound, whatever comes to a member.
-/

namespace HotStuff

namespace Collector

variable {c c' : Collector} {m m' : MemberId} {view v here later : View} {justify : Certificate}
  {committee : Committee} {count : Nat}

/-! ### Rounds in use -/

/-- **A view is in use**: a ballot is open in it, or a member is held there. -/
def InUse (c : Collector) (view : View) : Prop :=
  (∃ phase, (c.tally? view phase).isSome) ∨ ∃ m, c.Holds m view

/-- **Every round is in use.** -/
def Packed (c : Collector) : Prop := ∀ view ∈ c.rounds.keys, c.InUse view

/-- All who are held are members. -/
def HoldsMembers (committee : Committee) (c : Collector) : Prop :=
  ∀ m view, c.Holds m view → m ∈ committee.members

/-- A round that is not empty is in use. -/
theorem inUse_of_not_isEmpty (h : ¬ (c.round view).isEmpty) : c.InUse view := by
  rw [Round.isEmpty, Bool.and_eq_true, not_and_or] at h
  rcases h with hpolled | hheld
  · obtain ⟨phase, t, ht⟩ := Table.exists_get?_of_not_isEmpty hpolled
    exact Or.inl ⟨phase, Option.isSome_iff_exists.mpr ⟨t, ht⟩⟩
  · obtain ⟨m, brought, hbrought⟩ := Table.exists_get?_of_not_isEmpty hheld
    exact Or.inr ⟨m, Option.isSome_iff_exists.mpr ⟨brought, hbrought⟩⟩

/-- A view stays in use where no ballot and no member is lost. -/
theorem InUse.mono (h : c.InUse view)
    (hpolled : ∀ phase, (c.tally? view phase).isSome → (c'.tally? view phase).isSome)
    (hheld : ∀ m, c.Holds m view → c'.Holds m view) : c'.InUse view := by
  rcases h with ⟨phase, hphase⟩ | ⟨m, hm⟩
  · exact Or.inl ⟨phase, hpolled phase hphase⟩
  · exact Or.inr ⟨m, hheld m hm⟩

namespace Packed

/-- A collector begins without rounds. -/
theorem empty : Collector.empty.Packed := by
  rintro view ⟨⟩

/-- A ballot that is put in puts its round in use. -/
theorem putTally (h : c.Packed) (t : Tally) : (c.putTally t).Packed := by
  intro view hview
  by_cases heq : view = t.target.view
  · subst heq
    refine Or.inl ⟨t.target.phase, ?_⟩
    rw [tally?_putTally, if_pos ⟨rfl, rfl⟩]
    rfl
  · have hbefore : view ∈ c.rounds.keys :=
      ((Table.mem_keys_insert c.rounds ..).mp hview).resolve_left heq
    refine (h view hbefore).mono (fun phase hphase => ?_) fun m hm => ?_
    · rwa [tally?_putTally, if_neg fun hplace => heq hplace.1]
    · exact (holdsSame_putTally c t).holds.mpr hm

/-- Opening a ballot leaves no round that is not in use. -/
theorem openBallot {target : Ballot} (h : c.Packed) (hok : c.openBallot target = .ok c') :
    c'.Packed := by
  rcases openBallot_ok hok with ⟨-, rfl⟩ | ⟨-, rfl⟩
  · exact h
  · exact h.putTally _

/-- Counting a vote leaves no round that is not in use. -/
theorem addVote {scheme : Scheme} {vote : Vote} {outcome : VoteOutcome} (h : c.Packed)
    (hok : c.addVote scheme committee vote = .ok (outcome, c')) : c'.Packed := by
  rcases addVote_ok hok with ⟨-, rfl⟩ | ⟨-, -, -, -, -, -, counted, rfl, -⟩
  · exact h
  · exact h.putTally counted

/-- A round that a member enters is in use. -/
theorem hold (h : c.Packed) (m : MemberId) (view : View) (justify : Certificate) :
    (c.hold m view justify).Packed := by
  intro v hv
  by_cases heq : v = view
  · exact Or.inr ⟨m, holds_hold.mpr (Or.inl ⟨rfl, heq⟩)⟩
  · have hbefore : v ∈ c.rounds.keys :=
      ((Table.mem_keys_insert c.rounds ..).mp hv).resolve_left heq
    refine (h v hbefore).mono (fun phase hphase => ?_) fun m' hm' => ?_
    · rwa [tally?_hold]
    · exact holds_hold.mpr (Or.inr hm')

/-- A round that a member leaves is in use, or gone. -/
theorem release (h : c.Packed) (m : MemberId) (view : View) : (c.release m view).Packed := by
  intro v hv
  have hother (hne : v ≠ view) (hbefore : v ∈ c.rounds.keys) : (c.release m view).InUse v := by
    refine (h v hbefore).mono (fun phase hphase => ?_) fun m' hm' => ?_
    · rwa [tally?_release]
    · exact holds_release.mpr ⟨fun hleft => hne hleft.2, hm'⟩
  by_cases hempty : Round.isEmpty
      { c.round view with newViews := (c.round view).newViews.erase m }
  · have hkept : c.release m view = ⟨c.rounds.erase view⟩ := if_pos hempty
    rw [hkept] at hv
    obtain ⟨hbefore, hne⟩ := (Table.mem_keys_retain _ _ v).mp hv
    exact hother (of_decide_eq_true hne) hbefore
  · have hleft : c.release m view = ⟨c.rounds.insert view
        { c.round view with newViews := (c.round view).newViews.erase m }⟩ := if_neg hempty
    by_cases heq : v = view
    · subst heq
      refine inUse_of_not_isEmpty ?_
      rwa [hleft, round_insert, if_pos rfl]
    · rw [hleft] at hv
      exact hother heq (((Table.mem_keys_insert c.rounds ..).mp hv).resolve_left heq)

/-- Recording an announcement leaves no round that is not in use: the round that the member leaves
is dropped if nothing else is in it. -/
theorem addNewView (h : c.Packed)
    (hadd : c.addNewView committee view m justify = .ok (count, c')) : c'.Packed := by
  rw [Collector.addNewView] at hadd
  split at hadd
  · cases hadd
  obtain ⟨-, rfl⟩ := Prod.mk.inj (Except.ok.inj hadd)
  split
  · exact h.hold m view justify
  split
  · exact h
  split
  · next held _ _ _ => exact (h.release m held).hold m view justify
  · exact h.hold m view justify

/-- Forgetting views that are over leaves no round that is not in use. -/
theorem pruneBelow (h : c.Packed) (here : View) : (c.pruneBelow here).Packed := by
  intro view hview
  obtain ⟨hbefore, hle⟩ := (Table.mem_keys_retain _ _ view).mp hview
  have hle : here ≤ view := of_decide_eq_true hle
  refine (h view hbefore).mono (fun phase hphase => ?_) fun m hm => ?_
  · rwa [tally?_pruneBelow, if_pos hle]
  · exact holds_pruneBelow.mpr ⟨hle, hm⟩

end Packed

/-- Only members are taken in. -/
theorem HoldsMembers.addNewView (h : c.HoldsMembers committee) (honce : c.HeldOnce)
    (hadd : c.addNewView committee view m justify = .ok (count, c')) :
    c'.HoldsMembers committee := by
  have hmember : m ∈ committee.members := by
    rw [Collector.addNewView] at hadd
    split at hadd
    · cases hadd
    · next hmember => exact not_not.mp hmember
  rcases holds_addNewView honce hadd with ⟨-, -, -, rfl⟩ | ⟨-, hholds⟩
  · exact h
  · intro m' v hv
    by_cases hm : m' = m
    · exact hm ▸ hmember
    · rw [hholds, if_neg hm] at hv
      exact h m' v hv

/-! ### Where ballots are open -/

/-- **Ballots are open in no view after `here`.** -/
def PolledBy (here : View) (c : Collector) : Prop :=
  ∀ view phase, (c.tally? view phase).isSome → view ≤ here

namespace PolledBy

/-- Where ballots are open in no view after one, they are open in none after a later one. -/
theorem mono (h : c.PolledBy here) (hle : here ≤ later) : c.PolledBy later :=
  fun view phase ht => UInt64.le_trans (h view phase ht) hle

/-- Only the ballots of a collector matter. -/
theorem congr (h : c.PolledBy here)
    (hsame : ∀ view phase, c'.tally? view phase = c.tally? view phase) : c'.PolledBy here :=
  fun view phase ht => h view phase (hsame view phase ▸ ht)

/-- A ballot of a view that has come can be put in. -/
theorem putTally (h : c.PolledBy here) {t : Tally} (hview : t.target.view ≤ here) :
    (c.putTally t).PolledBy here := by
  intro view phase ht
  rw [tally?_putTally] at ht
  split at ht
  · next hplace => exact hplace.1 ▸ hview
  · exact h view phase ht

/-- A ballot of a view that has come can be opened. -/
theorem openBallot {target : Ballot} (h : c.PolledBy here) (hview : target.view ≤ here)
    (hok : c.openBallot target = .ok c') : c'.PolledBy here := by
  rcases openBallot_ok hok with ⟨-, rfl⟩ | ⟨-, rfl⟩
  · exact h
  · exact h.putTally hview

/-- Counting a vote opens no ballot. -/
theorem addVote {scheme : Scheme} {vote : Vote} {outcome : VoteOutcome} (h : c.PolledBy here)
    (hok : c.addVote scheme committee vote = .ok (outcome, c')) : c'.PolledBy here := by
  rcases addVote_ok hok with ⟨-, rfl⟩ | ⟨t, ht, -, htarget, -, -, counted, rfl, hsame, -⟩
  · exact h
  · refine h.putTally ?_
    rw [hsame, htarget]
    exact h _ _ (Option.isSome_iff_exists.mpr ⟨t, ht⟩)

/-- Forgetting views opens no ballot. -/
theorem pruneBelow (h : c.PolledBy here) (below : View) : (c.pruneBelow below).PolledBy here := by
  intro view phase ht
  rw [tally?_pruneBelow] at ht
  split at ht
  · exact h view phase ht
  · cases ht

/-- A leader opens ballots in the view that the votes are for, and no later one. -/
theorem onVote {ctx : Context} {vote : Vote} {said : Except Error (Option SignedStatement)}
    (h : c.PolledBy here) (hok : Leader.onVote ctx c here vote = (said, c')) :
    c'.PolledBy here := by
  rcases Leader.onVote_ok hok with ⟨-, rfl⟩ | ⟨-, hview, outcome, counted, hadd, hrest⟩
  · exact h
  have hcounted : counted.PolledBy here := h.addVote hadd
  rcases hrest with ⟨-, rfl⟩ | ⟨cert, answer, rfl, hfollow, -⟩
  · exact hcounted
  rcases Leader.follow_ok hfollow with ⟨-, rfl⟩ | ⟨phase, -, -, ⟨-, rfl⟩ | ⟨-, hopen⟩⟩
  · exact hcounted
  · exact hcounted
  · refine hcounted.openBallot ?_ hopen
    change cert.ballot.view ≤ here
    rw [ballot_of_addVote hadd, hview]
    exact UInt64.le_refl _

end PolledBy

end Collector

/-! ### Every process -/

section Processes

variable {σ : Type} [StateStore σ] {ctx : Context} {t : Turn σ} {core : Core σ}

/-- No turn leaves an unused round. -/
theorem Turn.packed_of_kind (hkind : t.Kind ctx) (h : t.before.votes.Packed) :
    t.after.votes.Packed :=
  Turn.votes_of_kind (P := Collector.Packed) (fun _ _ _ _ _ _ hadd h => h.addNewView hadd)
    (fun _ _ _ _ _ hadd h => h.addVote hadd) (fun _ _ _ hopen h => h.openBallot hopen) hkind h

/-- No turn takes in anyone but members. -/
theorem Turn.holdsMembers_of_kind (hkind : t.Kind ctx)
    (h : t.before.votes.HeldOnce ∧ t.before.votes.HoldsMembers ctx.committee) :
    t.after.votes.HeldOnce ∧ t.after.votes.HoldsMembers ctx.committee := by
  refine Turn.votes_of_kind
    (P := fun c => c.HeldOnce ∧ c.HoldsMembers ctx.committee) ?_ ?_ ?_ hkind h
  · rintro c c' view m justify count hadd ⟨honce, hmembers⟩
    exact ⟨honce.addNewView hadd, hmembers.addNewView honce hadd⟩
  · rintro c c' vote outcome - hadd ⟨honce, hmembers⟩
    have hsame := Collector.holdsSame_addVote hadd
    exact ⟨honce.congr hsame, fun m view hm => hmembers m view (hsame.holds.mp hm)⟩
  · rintro c c' target hopen ⟨honce, hmembers⟩
    have hsame := Collector.holdsSame_openBallot hopen
    exact ⟨honce.congr hsame, fun m view hm => hmembers m view (hsame.holds.mp hm)⟩

/-- No turn opens a ballot in a view that the replica has not come to. -/
theorem Turn.polledBy_of_kind (hkind : t.Kind ctx)
    (h : t.before.votes.PolledBy t.before.replica.state.view) :
    t.after.votes.PolledBy t.after.replica.state.view := by
  refine Collector.PolledBy.mono ?_ (Turn.attains_of_kind hkind).view_le
  cases Turn.collects_of_kind hkind with
  | nothing hvotes => rwa [hvotes]
  | announcement _ hentry => exact h.congr (Leader.onNewView_spec hentry)
  | vote _ hcount => exact h.onVote hcount
  | proposal hview hpropose =>
      obtain ⟨-, -, hopen⟩ := Leader.propose_ok hpropose
      exact h.openBallot (hview ▸ UInt64.le_refl _) hopen

/-- **A process holds no unused round.** -/
theorem Core.Reached.packed (hreached : core.Reached ctx) : core.votes.Packed := by
  refine hreached.induction (P := fun core => core.votes.Packed)
    (fun _ => Turn.packed_of_kind) ?_ ?_
  · intro store core hcreate
    rw [(Core.create_ok hcreate).2]
    exact .empty
  · rintro core core' h ⟨status, metrics, rfl⟩
    exact h.pruneBelow _

/-- **A process holds members only.** -/
theorem Core.Reached.holdsMembers (hreached : core.Reached ctx) :
    core.votes.HoldsMembers ctx.committee := by
  refine (hreached.induction
    (P := fun core => core.votes.HeldOnce ∧ core.votes.HoldsMembers ctx.committee)
    (fun _ => Turn.holdsMembers_of_kind) ?_ ?_).2
  · intro store core hcreate
    rw [(Core.create_ok hcreate).2]
    exact ⟨.empty, fun m view hm => absurd hm (Collector.not_holds_empty m view)⟩
  · rintro core core' ⟨honce, hmembers⟩ ⟨status, metrics, rfl⟩
    exact ⟨honce.pruneBelow _,
      fun m view hm => hmembers m view (Collector.holds_pruneBelow.mp hm).2⟩

/-- **A process has ballots open in no view that its replica has not come to.** -/
theorem Core.Reached.polledBy (hreached : core.Reached ctx) :
    core.votes.PolledBy core.replica.state.view := by
  refine hreached.induction (P := fun core => core.votes.PolledBy core.replica.state.view)
    (fun _ => Turn.polledBy_of_kind) ?_ ?_
  · intro store core hcreate
    rw [(Core.create_ok hcreate).2]
    rintro view phase ⟨⟩
  · rintro core core' h ⟨status, metrics, rfl⟩
    exact h.pruneBelow _

/-- Between two inputs each round is that of the current view, or one where a member is held. -/
theorem Core.Reached.keys_subset (hreached : core.Reached ctx) :
    core.votes.rounds.keys ⊆
      core.replica.state.view :: ctx.committee.members.filterMap core.votes.viewOf := by
  intro view hview
  rcases hreached.packed view hview with ⟨phase, hphase⟩ | ⟨m, hm⟩
  · have hle := hreached.polledBy view phase hphase
    have hcurrent := hreached.atRest.current view hview
    exact List.mem_cons.mpr (Or.inl (UInt64.le_antisymm hle hcurrent))
  · have hmember := hreached.holdsMembers m view hm
    have hheld := hreached.heldOnce.viewOf_eq hm
    exact List.mem_cons_of_mem _ (List.mem_filterMap.mpr ⟨m, hmember, hheld⟩)

/-- **A collector stays bounded.** Whatever comes to a member, from members or others: after each
answer there are at most as many rounds as members and one more, each of them in use and none of
them over, and no member is held in two of them. -/
theorem collector_stays_bounded (hreached : core.Reached ctx) :
    core.votes.roundCount ≤ ctx.committee.size + 1 ∧
      (∀ view ∈ core.votes.rounds.keys,
        core.votes.InUse view ∧ core.replica.state.view ≤ view) ∧
      core.votes.HeldOnce := by
  refine ⟨?_, fun view hview => ⟨hreached.packed view hview, hreached.atRest.current view hview⟩,
    hreached.heldOnce⟩
  calc core.votes.roundCount
      = core.votes.rounds.keys.length := (Table.length_keys _).symm
    _ ≤ (core.replica.state.view :: ctx.committee.members.filterMap core.votes.viewOf).length :=
        (List.subperm_of_subset core.votes.rounds.nodup_keys hreached.keys_subset).length_le
    _ ≤ ctx.committee.size + 1 := Nat.succ_le_succ (List.length_filterMap_le ..)

end Processes

namespace Flooding

/-- The leader of view 1, and of every fourth view after it. -/
def ctx : Context := .numbered .four 1 Committee.one_mem_four

/-- A member announces a view, on the genesis certificate. -/
def announcement (n : UInt8) (view : View) : Input :=
  .numbered n view .newView Scheme.transparent.genesisPayload Scheme.transparent.genesis

/-- The leader enters view 1 and proposes in it. Then all members announce one later view after the
other, an outsider does so too, and one announcement is for a view too far away. -/
def inputs : List Input :=
  [.timeout, announcement 0 1, announcement 2 1,
    .propose ⟨1, Scheme.transparent.genesis, none⟩ [80],
    announcement 0 5, announcement 2 5, announcement 2 9, announcement 3 5, announcement 3 13,
    announcement 1 17, announcement 7 21, announcement 0 131073]

end Flooding

open Flooding in
/-- The ballot of the proposal is still open, and each member is held in a view of its own: there is
one round more than there are members. -/
theorem collector_stays_bounded_under_flood :
    ∃ core : Core MemoryStore, core.Reached ctx ∧
      core.votes.rounds.keys = [1, 5, 9, 13, 17] ∧ (core.votes.tally? 1 .prepare).isSome ∧
      core.votes.roundCount ≤ ctx.committee.size + 1 ∧
      (∀ view ∈ core.votes.rounds.keys,
        core.votes.InUse view ∧ core.replica.state.view ≤ view) ∧ core.votes.HeldOnce := by
  obtain ⟨core, hreached, hkeys, hpolled⟩ := Core.exists_reached ctx
    (P := fun core => core.votes.rounds.keys = [1, 5, 9, 13, 17] ∧
      (core.votes.tally? 1 .prepare).isSome)
    (show ((Core.fresh ctx).after ctx inputs).map _ = some true by decide +kernel)
  exact ⟨core, hreached, hkeys, hpolled, collector_stays_bounded hreached⟩

end HotStuff
