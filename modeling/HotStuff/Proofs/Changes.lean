import HotStuff.Proofs.Advancing
import HotStuff.Proofs.Lifetimes

/-!
# What a Call Changes

Whatever a replica is asked, its state changes in one of five ways, and it makes at most one attempt
to save, of the state that it ends in. Nothing is asked of the store for this. It may refuse every
attempt, or lose what it took; the replica goes on as if it had saved.

## Main definitions

* `Change`: the ways in which a state changes, with the deeds of each.
* `Replica.SavesOnce`: a state is saved at most once on the way.

## Main results

* `Replica.answer_change`, `Replica.answer_savesOnce`: what every answer comes to.
* `Change.precedes`, `Change.counts`, `Change.vote_place`: no change goes back, all of them count,
  and a vote is for the place that is reached by it.
-/

namespace HotStuff

/-- **A change of state**, with its deeds: there is none, or a view is entered, a proposal accepted,
a phase followed, or a decision committed. -/
inductive Change (ctx : Context) (s : ReplicaState) : List Deed → ReplicaState → Prop
  | rest : Change ctx s [] s
  | enter {view} (hlater : s.view < view) : Change ctx s [] (s.enter view)
  | accept {st} (haccepts : s.Accepts ctx (Trusted ctx fun _ _ => True) st) :
      Change ctx s [.vote ⟨.prepare, st.view, st.payload⟩] (s.accept st)
  | follow {st ds s'} (hfollows : Replica.Follows ctx st s ds s') : Change ctx s ds s'
  | commit {cert height} (hheight : Height.next? s.height = some height) :
      Change ctx s [.execute cert.view height cert.payload] (s.commit ctx.scheme cert height)

namespace Change

variable {ctx : Context} {s s' : ReplicaState} {ds : List Deed}

/-- **No change goes back.** -/
theorem precedes (h : Change ctx s ds s') : s.Precedes s' := by
  cases h with
  | rest => exact .refl s
  | enter hlater => exact ReplicaState.precedes_enter hlater
  | accept haccepts => exact ReplicaState.precedes_accept haccepts
  | follow hfollows => exact hfollows.precedes
  | commit hheight => exact ReplicaState.precedes_commit hheight

/-- What is executed is counted. -/
theorem counts (h : Change ctx s ds s') :
    Counts s.height (ds.filterMap Deed.height?) s'.height := by
  cases h with
  | rest => exact .nil _
  | enter => exact .nil _
  | accept => exact .nil _
  | follow hfollows => exact hfollows.counts
  | commit hheight =>
      rw [ReplicaState.commit_height]
      exact .next hheight

/-- **A vote is for the place that is reached by it**, which lies ahead of the place before, and no
other vote goes with it. -/
theorem vote_place {b : Ballot} (h : Change ctx s ds s') (hvote : .vote b ∈ ds) :
    ds = [.vote b] ∧ s'.view = b.view ∧ s'.phase = b.phase ∧
      (s.view < b.view ∨ s.view = b.view ∧ s.phase.rank < b.phase.rank) := by
  cases h with
  | rest => exact absurd hvote List.not_mem_nil
  | enter => exact absurd hvote List.not_mem_nil
  | accept haccepts =>
      obtain rfl := Deed.vote.inj (List.mem_singleton.mp hvote)
      refine ⟨rfl, rfl, rfl, ?_⟩
      rcases UInt64.lt_or_eq_of_le haccepts.notStale with hlt | heq
      · exact Or.inl hlt
      · exact Or.inr ⟨heq, by rw [haccepts.fresh heq.symm]; exact Nat.zero_lt_one⟩
  | follow hfollows =>
      cases hfollows with
      | preCommit hphase =>
          obtain rfl := Deed.vote.inj (List.mem_singleton.mp hvote)
          exact ⟨rfl, rfl, rfl, Or.inr ⟨rfl, by rw [hphase]; exact Nat.lt_succ_self _⟩⟩
      | lock hphase =>
          obtain rfl := Deed.vote.inj (List.mem_singleton.mp hvote)
          exact ⟨rfl, rfl, rfl, Or.inr ⟨rfl, by rw [hphase]; exact Nat.lt_succ_self _⟩⟩
      | decide => cases List.mem_singleton.mp hvote
  | commit => cases List.mem_singleton.mp hvote

end Change

namespace Replica

variable {σ : Type} [StateStore σ] {ctx : Context} {r r' : Replica σ} {call : Call}
  {said : List Action}

/-! ### Changes of state -/

/-- Entering a view changes a state by entering it, or by nothing where the view is not later. -/
theorem enterView_change (ctx : Context) (r : Replica σ) (view : View) :
    Change ctx r.state (deedsIn (r.enterView ctx view).2) (r.enterView ctx view).1.state := by
  by_cases h : view ≤ r.state.view
  · rw [enterView_of_le h]
    exact .rest
  · have h := UInt64.not_le.mp h
    rw [enterView_of_lt h]
    exact .enter h

/-- A timeout changes a state as entering the next view does; in the last view it changes
nothing. -/
theorem onTimeout_change (ctx : Context) (r : Replica σ) :
    Change ctx r.state (deedsIn (r.onTimeout ctx).2) (r.onTimeout ctx).1.state := by
  rw [onTimeout]
  split
  · next next _ =>
      have hentered : Change ctx r.state (deedsIn (r.enterView ctx next).2)
          (r.enterView ctx next).1.state := r.enterView_change ctx next
      exact hentered
  · exact .rest

/-- An accepted proposal changes a state by the proposal, and the vote for it goes out with the
change. -/
theorem onPrepare_change {msg : SignedStatement} {answer : Replica σ × List Action}
    (h : r.onPrepare ctx msg = .ok answer) :
    Change ctx r.state (deedsIn answer.2) answer.1.state := by
  obtain ⟨haccepts, -⟩ := onPrepare_accepts h
  simp only [onPrepare, bind_eq_ok] at h
  obtain ⟨⟨⟩, -, h⟩ := h
  obtain rfl := Except.ok.inj h
  obtain ⟨hview, haccepted⟩ := advanceTo_accept haccepts.notStale
  rw [deedsIn_append, (r.advanceTo_quiet msg.body.view).1, haccepted]
  exact hview ▸ .accept haccepts

/-- A decision out of sequence changes a state by the commit. -/
theorem commit_change {cert : Certificate} {answer : Replica σ × List Action}
    (h : r.commit ctx cert = .ok answer) :
    Change ctx r.state (deedsIn answer.2) answer.1.state := by
  obtain ⟨height, hheight, hstate, hdeeds, -⟩ := commit_spec h
  rw [hstate, hdeeds]
  exact .commit hheight

/-- **Every answer is a change of state**, with the deeds that go with it. -/
theorem answer_change (h : r.answer ctx call = .ok (r', said)) :
    Change ctx r.state (deedsIn said) r'.state := by
  cases call with
  | announce =>
      obtain ⟨rfl, rfl⟩ := Prod.mk.inj (Except.ok.inj h)
      exact .rest
  | enter view =>
      have hchange := r.enterView_change ctx view
      rwa [Except.ok.inj h] at hchange
  | timeout =>
      have hchange := r.onTimeout_change ctx
      rwa [Except.ok.inj h] at hchange
  | prepare msg => exact onPrepare_change (Outcome.ofCheck_eq_ok.mp h)
  | phase msg =>
      rcases onPhase_ok h with ⟨-, -, hcommit⟩ | ⟨-, happly⟩
      · exact commit_change hcommit
      · exact .follow (applyPhase_follows happly).2.1
  | apply st => exact .follow (applyPhase_follows h).2.1

/-! ### Attempts to save -/

/-- **A state is saved at most once**: the store and what it should hold are as before, or there was
one attempt to save, of what it should hold now. -/
def SavesOnce (r r' : Replica σ) : Prop :=
  r'.store = r.store ∧ r'.state.saved = r.state.saved ∨
    r'.store = (StateStore.save r.store r'.state.saved).2

/-- Entering a view saves what it changes. -/
theorem enterView_savesOnce (ctx : Context) (r : Replica σ) (view : View) :
    r.SavesOnce (r.enterView ctx view).1 := by
  by_cases h : view ≤ r.state.view
  · rw [enterView_of_le h]
    exact Or.inl ⟨rfl, rfl⟩
  · rw [enterView_of_lt (UInt64.not_le.mp h)]
    exact Or.inr rfl

/-- A timeout saves at most what entering the next view changes. -/
theorem onTimeout_savesOnce (ctx : Context) (r : Replica σ) :
    r.SavesOnce (r.onTimeout ctx).1 := by
  rw [onTimeout]
  split
  · next next _ => exact r.enterView_savesOnce ctx next
  · exact Or.inl ⟨rfl, rfl⟩

/-- A proposal is saved with the view that it brings. One for the replica's own view changes nothing
that is saved. -/
theorem onPrepare_savesOnce {msg : SignedStatement} {answer : Replica σ × List Action}
    (h : r.onPrepare ctx msg = .ok answer) : r.SavesOnce answer.1 := by
  obtain ⟨haccepts, hstate⟩ := onPrepare_accepts h
  simp only [onPrepare, bind_eq_ok] at h
  obtain ⟨⟨⟩, -, h⟩ := h
  obtain rfl := Except.ok.inj h
  rw [SavesOnce, hstate, advanceTo]
  split
  · next hle =>
      -- In its own view the replica holds what it held before, but for the proposal.
      have hview : msg.body.view = r.state.view := UInt64.le_antisymm hle haccepts.notStale
      refine Or.inl ⟨rfl, ?_⟩
      simp only [ReplicaState.accept, ReplicaState.saved, hview]
  · exact Or.inr rfl

/-- Leaving a view saves, whether or not the next one is entered. -/
theorem leave_saves (r : Replica σ) (view : View) :
    (r.leave ctx view).1.store =
      (StateStore.save r.store (r.leave ctx view).1.state.saved).2 := by
  rw [leave]
  split
  · split
    · next hlt =>
        rw [enterView_of_lt hlt]
        rfl
    · rfl
  · rfl

/-- A commit is saved once, with the view that is entered after it. -/
theorem commit_savesOnce {cert : Certificate} {answer : Replica σ × List Action}
    (h : r.commit ctx cert = .ok answer) : r.SavesOnce answer.1 := by
  rw [commit] at h
  split at h
  · cases h
  · next height _ =>
      obtain rfl := Except.ok.inj h
      let committed : Replica σ := { r with state := { r.state with
        committed := ctx.scheme.payloadDigest cert.payload, height } }
      exact Or.inr (committed.leave_saves cert.view)

/-- Following the leader is saved once, in each phase. -/
theorem applyPhase_savesOnce {st : Statement} {answer : Replica σ × List Action}
    (h : r.applyPhase ctx st = .ok answer) : r.SavesOnce answer.1 := by
  rw [applyPhase] at h
  simp only at h
  split at h
  · cases h
  cases hphase : st.phase with
  | newView | prepare =>
      rw [hphase] at h
      cases h
  | preCommit | commit =>
      rw [hphase] at h
      obtain rfl := Except.ok.inj h
      exact Or.inr rfl
  | decide =>
      rw [hphase] at h
      -- The phase that is decided in is not saved.
      have hsaves : SavesOnce ⟨r.store, { r.state with phase := .decide }⟩ answer.1 :=
        commit_savesOnce h
      exact hsaves

/-- **Every answer saves at most once**, and then the state that it ends in. -/
theorem answer_savesOnce (h : r.answer ctx call = .ok (r', said)) : r.SavesOnce r' := by
  cases call with
  | announce =>
      obtain ⟨rfl, -⟩ := Prod.mk.inj (Except.ok.inj h)
      exact Or.inl ⟨rfl, rfl⟩
  | enter view =>
      have hsaves := r.enterView_savesOnce ctx view
      rwa [Except.ok.inj h] at hsaves
  | timeout =>
      have hsaves := r.onTimeout_savesOnce ctx
      rwa [Except.ok.inj h] at hsaves
  | prepare msg => exact onPrepare_savesOnce (Outcome.ofCheck_eq_ok.mp h)
  | phase msg =>
      rcases onPhase_ok h with ⟨-, -, hcommit⟩ | ⟨-, happly⟩
      · exact commit_savesOnce hcommit
      · exact applyPhase_savesOnce happly
  | apply st => exact applyPhase_savesOnce h

/-- **A process starts** from what its store holds, or afresh, and attempts to save the state that
it starts in. -/
theorem create_attempts {store : σ} (h : create ctx store = .ok r) :
    r.store = (StateStore.save store r.state.saved).2 ∧
      ∃ loaded, StateStore.load store = .ok loaded ∧
        match loaded with
        | some saved => ReplicaState.resume saved = .ok r.state
        | none => r.state = .initial ctx.scheme.genesisDigest := by
  rw [create, bind_eq_ok] at h
  obtain ⟨loaded, hload, h⟩ := h
  cases loaded with
  | some saved =>
      obtain ⟨state, hstate, h⟩ := bind_eq_ok.mp h
      obtain rfl := Except.ok.inj h
      exact ⟨rfl, some saved, hload, hstate⟩
  | none =>
      obtain rfl := Except.ok.inj h
      exact ⟨rfl, none, hload, rfl⟩

end Replica

section Turns

variable {σ : Type} [StateStore σ] {ctx : Context} {t : Turn σ}

/-- A turn changes the state in one of the ways, and its deeds go with that. -/
theorem Turn.change_of_kind (hkind : t.Kind ctx) :
    Change ctx t.before.replica.state t.deeds t.after.replica.state := by
  rcases Turn.answer_of_kind hkind with ⟨hreplica, hdeeds⟩ | ⟨call, said, hanswer, hdeeds⟩
  · rw [Turn.deeds, hreplica, hdeeds]
    exact .rest
  · rw [Turn.deeds, hdeeds]
    exact Replica.answer_change hanswer

/-- A turn makes at most one attempt to save. -/
theorem Turn.savesOnce_of_kind (hkind : t.Kind ctx) :
    t.before.replica.SavesOnce t.after.replica := by
  rcases Turn.answer_of_kind hkind with ⟨hreplica, -⟩ | ⟨call, said, hanswer, -⟩
  · exact Or.inl ⟨congrArg Replica.store hreplica,
      congrArg (ReplicaState.saved ∘ Replica.state) hreplica⟩
  · exact Replica.answer_savesOnce hanswer

end Turns

end HotStuff
