import HotStuff.Proofs.Conduct
import HotStuff.Proofs.Scenario

/-!
# The Votes of a Member

A member votes at most once in each phase of a view, for one payload per view, and in the order of
the phases, through all of its processes. The votes come from three handlers, but the course of the
replica only shows that each of them goes one phase further in the view it is in; a restart enters
a later view, where no vote can have been cast.

## Main results

* `Course.voting`: the invariant that ties the votes cast to view, phase and proposal of the state.
* `votes_disciplined`: at most one vote per phase of a view, on one payload per view, in order.
-/

namespace HotStuff

/-- A vote that may come before another: in an earlier view, or in an earlier phase of the same
view on the same payload. -/
def Ballot.Precedes (a b : Ballot) : Prop :=
  a.view < b.view ∨ a.view = b.view ∧ a.phase < b.phase ∧ a.payload = b.payload

/-- **The votes cast so far**, by a replica in a state: they are in order, those of the current
view go as far as its phase and are on its proposal, and each has those of the earlier phases
before it. -/
structure Voting (ballots : List Ballot) (s : ReplicaState) : Prop where
  voted : ∀ b ∈ ballots, b.phase.Voted
  ordered : ballots.Pairwise Ballot.Precedes
  past : ∀ b ∈ ballots, b.view < s.view ∨
    b.view = s.view ∧ b.phase.rank ≤ s.phase.rank ∧ s.proposal = some b.payload
  current : s.phase ≠ .newView → ∃ payload, s.proposal = some payload ∧
    ∀ phase : Phase, phase.Voted → phase.rank ≤ s.phase.rank → ⟨phase, s.view, payload⟩ ∈ ballots
  supported : ∀ pre b post, ballots = pre ++ b :: post →
    ∀ phase : Phase, phase.Voted → phase < b.phase → ⟨phase, b.view, b.payload⟩ ∈ pre

namespace Voting

variable {ballots : List Ballot} {s s' : ReplicaState}

/-- A replica that waits for its first proposal has cast no vote. -/
theorem boot (hphase : s.phase = .newView) : Voting [] s :=
  ⟨by simp, .nil, by simp, fun h => absurd hphase h, by simp⟩

/-- Every vote is in a view that has been reached. -/
theorem view_le (h : Voting ballots s) {b : Ballot} (hb : b ∈ ballots) : b.view ≤ s.view := by
  rcases h.past b hb with hlt | ⟨heq, -⟩
  · exact UInt64.le_of_lt hlt
  · exact heq ▸ UInt64.le_refl _

/-- No vote is cast in a view whose proposal is waited for. -/
theorem view_lt (h : Voting ballots s) (hphase : s.phase = .newView) {b : Ballot}
    (hb : b ∈ ballots) : b.view < s.view := by
  rcases h.past b hb with hlt | ⟨-, hrank, -⟩
  · exact hlt
  · rw [hphase] at hrank
    exact absurd (h.voted b hb).rank_pos (Nat.not_lt.mpr hrank)

/-- There is one payload per view. -/
theorem payload_eq (h : Voting ballots s) :
    ∀ a ∈ ballots, ∀ b ∈ ballots, a.view = b.view → a.payload = b.payload := by
  have hpairwise : ballots.Pairwise fun a b => a.view = b.view → a.payload = b.payload := by
    refine h.ordered.imp ?_
    rintro a b (hlt | ⟨-, -, hpayload⟩) heq
    · exact absurd heq (UInt64.ne_of_lt hlt)
    · exact hpayload
  intro a ha b hb
  refine hpairwise.forall_of_forall_of_flip (fun _ _ _ => rfl) ?_ ha hb
  exact hpairwise.imp fun hab heq => (hab heq.symm).symm

/-- The votes of the earlier phases of a view are there. -/
theorem mem_of_lt (h : Voting ballots s) {b : Ballot} (hb : b ∈ ballots) {phase : Phase}
    (hvoted : phase.Voted) (hlt : phase < b.phase) : ⟨phase, b.view, b.payload⟩ ∈ ballots := by
  obtain ⟨pre, post, rfl⟩ := List.append_of_mem hb
  exact List.mem_append_left _ (h.supported pre b post rfl phase hvoted hlt)

/-- There is one vote per phase of a view. -/
theorem length_le_one (h : Voting ballots s) (view : View) (phase : Phase) :
    (ballots.filter fun b => b.view = view ∧ b.phase = phase).length ≤ 1 := by
  refine length_filter_le_one h.ordered fun a b ha hb => ?_
  obtain ⟨rfl, rfl⟩ := of_decide_eq_true ha
  obtain ⟨hview, hphase⟩ := of_decide_eq_true hb
  rintro (hlt | ⟨-, hlt, -⟩)
  · exact absurd hview.symm (UInt64.ne_of_lt hlt)
  · rw [hphase] at hlt
    exact absurd hlt (Nat.lt_irrefl _)

/-- Entering a later view leaves all votes behind. -/
theorem enter (h : Voting ballots s) {view : View} (hlater : s.view < view) :
    Voting ballots (s.enter view) :=
  ⟨h.voted, h.ordered, fun _ hb => Or.inl (UInt64.lt_of_le_of_lt (h.view_le hb) hlater),
    fun hphase => absurd rfl hphase, h.supported⟩

/-- What a vote does not depend on may change. -/
theorem congr (h : Voting ballots s) (hview : s'.view = s.view) (hphase : s'.phase = s.phase)
    (hproposal : s'.proposal = s.proposal) : Voting ballots s' := by
  refine ⟨h.voted, h.ordered, ?_, ?_, h.supported⟩
  · rw [hview, hphase, hproposal]
    exact h.past
  · rw [hview, hphase, hproposal]
    exact h.current

/-- A commit casts no vote. -/
theorem commit (h : Voting ballots s) (scheme : Scheme) (cert : Certificate) (height : Height) :
    Voting ballots (s.commit scheme cert height) := by
  rcases s.commit_cases scheme cert height with ⟨next, -, hlater, heq⟩ | ⟨-, heq⟩
  · rw [heq]
    exact Voting.enter (s := { s with committed := _, height }) (h.congr rfl rfl rfl) hlater
  · rw [heq]
    exact h.congr rfl rfl rfl

/-- Reaching the decision without leaving the view casts no vote. -/
theorem decide (h : Voting ballots s) (hphase : s.phase = .commit) :
    Voting ballots { s with phase := .decide } := by
  refine ⟨h.voted, h.ordered, ?_, ?_, h.supported⟩
  · intro b hb
    exact (h.past b hb).imp id fun ⟨hview, _, hproposal⟩ =>
      ⟨hview, (h.voted b hb).rank_le.trans (show 3 ≤ 4 by decide), hproposal⟩
  · intro _
    obtain ⟨payload, hproposal, hcast⟩ := h.current (by simp [hphase])
    exact ⟨payload, hproposal, fun phase hvoted _ =>
      hcast phase hvoted (hphase ▸ hvoted.rank_le)⟩

/-- **Casting a vote** that comes after all others, in the phase and on the proposal that the state
then has, when the votes of the earlier phases are there. -/
theorem cast (h : Voting ballots s) {b : Ballot} (hvoted : b.phase.Voted)
    (hafter : ∀ a ∈ ballots, a.Precedes b) (hview : s'.view = b.view) (hphase : s'.phase = b.phase)
    (hproposal : s'.proposal = some b.payload)
    (hearlier : ∀ phase : Phase, phase.Voted → phase < b.phase →
      ⟨phase, b.view, b.payload⟩ ∈ ballots) : Voting (ballots ++ [b]) s' := by
  refine ⟨?_, ?_, ?_, ?_, ?_⟩
  · intro a ha
    rcases List.mem_append.mp ha with ha | ha
    · exact h.voted a ha
    · exact List.mem_singleton.mp ha ▸ hvoted
  · refine List.pairwise_append.mpr ⟨h.ordered, List.pairwise_singleton _ _, ?_⟩
    intro a ha b' hb'
    exact List.mem_singleton.mp hb' ▸ hafter a ha
  · intro a ha
    rw [hview, hphase, hproposal]
    rcases List.mem_append.mp ha with ha | ha
    · rcases hafter a ha with hlt | ⟨heq, hrank, hpayload⟩
      · exact Or.inl hlt
      · exact Or.inr ⟨heq, Nat.le_of_lt hrank, congrArg some hpayload.symm⟩
    · obtain rfl := List.mem_singleton.mp ha
      exact Or.inr ⟨rfl, Nat.le_refl _, rfl⟩
  · intro _
    rw [hview, hphase]
    refine ⟨b.payload, hproposal, fun phase hphase' hrank => ?_⟩
    rcases Nat.lt_or_eq_of_le hrank with hlt | heq
    · exact List.mem_append_left _ (hearlier phase hphase' hlt)
    · obtain rfl := Phase.rank_injective heq
      exact List.mem_append_right _ (List.mem_singleton_self _)
  · intro pre a post hsplit phase hphase' hlt
    rcases concat_eq_append_cons hsplit with ⟨rfl, rfl, rfl⟩ | ⟨rest, rfl, rfl⟩
    · exact hearlier phase hphase' hlt
    · exact h.supported pre a rest rfl phase hphase' hlt

/-- Casting the vote of the next phase on the proposal that is held. -/
theorem advance (h : Voting ballots s) {phase : Phase} {payload : Payload} (hvoted : phase.Voted)
    (hactive : s.phase ≠ .newView) (hnext : phase.rank = s.phase.rank + 1)
    (hheld : s.proposal = some payload) (hview : s'.view = s.view) (hphase : s'.phase = phase)
    (hproposal : s'.proposal = s.proposal) :
    Voting (ballots ++ [⟨phase, s.view, payload⟩]) s' := by
  refine h.cast hvoted ?_ hview hphase (hproposal.trans hheld) ?_
  · intro a ha
    rcases h.past a ha with hlt | ⟨heq, hrank, hsame⟩
    · exact Or.inl hlt
    · refine Or.inr ⟨heq, ?_, Option.some.inj (hsame.symm.trans hheld)⟩
      show a.phase.rank < phase.rank
      omega
  · intro earlier hearlier hlt
    obtain ⟨payload', hheld', hcast⟩ := h.current hactive
    obtain rfl := Option.some.inj (hheld.symm.trans hheld')
    have hlt : earlier.rank < phase.rank := hlt
    exact hcast earlier hearlier (by omega)

/-- **Every move keeps the votes in order.** -/
theorem move {ctx : Context} {trusted : Certificate → Prop} {heard : Statement → Prop}
    {ds : List Deed} (h : Voting ballots s) (hmove : Move ctx trusted heard s ds s') :
    Voting (ballots ++ ds.filterMap Deed.ballot?) s' := by
  cases hmove with
  | rest =>
      rw [List.filterMap_nil, List.append_nil]
      exact h
  | enter hlater =>
      rw [List.filterMap_nil, List.append_nil]
      exact h.enter hlater
  | @accept st _ haccepts =>
      refine h.cast (b := ⟨.prepare, st.view, st.payload⟩) (Or.inl rfl) ?_ rfl rfl rfl ?_
      · intro a ha
        rcases UInt64.lt_or_eq_of_le haccepts.notStale with hlt | heq
        · exact Or.inl (UInt64.lt_of_le_of_lt (h.view_le ha) hlt)
        · exact Or.inl (heq ▸ h.view_lt (haccepts.fresh heq.symm) ha)
      · intro phase hvoted hlt
        exact absurd hvoted.rank_pos (Nat.not_lt.mpr (Nat.lt_succ_iff.mp hlt))
  | preCommit hphase hheld =>
      have hrank : Phase.preCommit.rank = s.phase.rank + 1 := by rw [hphase]; rfl
      exact h.advance (Or.inr (Or.inl rfl)) (by simp [hphase]) hrank hheld rfl rfl rfl
  | lock hphase hheld =>
      have hrank : Phase.commit.rank = s.phase.rank + 1 := by rw [hphase]; rfl
      exact h.advance (Or.inr (Or.inr rfl)) (by simp [hphase]) hrank hheld rfl rfl rfl
  | decide hphase =>
      rw [show List.filterMap Deed.ballot? [Deed.execute ..] = [] from rfl, List.append_nil]
      exact (h.decide hphase).commit _ _ _
  | catchUp =>
      rw [show List.filterMap Deed.ballot? [Deed.execute ..] = [] from rfl, List.append_nil]
      exact h.commit _ _ _

end Voting

variable {σ : Type} {ctx : Context} {h : List (Turn σ)}

/-- **The votes along a course.** -/
theorem Course.voting {ev : Evidence} {s₀ s : ReplicaState} (hcourse : Course ctx ev s₀ h s)
    (hphase : s₀.phase = .newView) : Voting (ballotsOf h) s := by
  induction hcourse with
  | boot => exact .boot hphase
  | turn _ hlawful ih =>
      rw [ballotsOf_append, ballotsOf_singleton]
      exact ih.move hlawful
  | resume _ hlater ih => exact ih.enter hlater

variable [StateStore σ] [LawfulStore σ]

/-- **Disciplined votes**: votes in the three phases of agreement only, at most one in each phase
of a view, on one payload in each view, in PreCommit only after Prepare and in Commit only after
PreCommit, in that view and on that payload. -/
structure Disciplined (ballots : List Ballot) : Prop where
  voted : ∀ b ∈ ballots, b.phase = .prepare ∨ b.phase = .preCommit ∨ b.phase = .commit
  once : ∀ view phase, (ballots.filter fun b => b.view = view ∧ b.phase = phase).length ≤ 1
  payload : ∀ a ∈ ballots, ∀ b ∈ ballots, a.view = b.view → a.payload = b.payload
  preCommit : ∀ before b after, ballots = before ++ b :: after → b.phase = .preCommit →
    ⟨.prepare, b.view, b.payload⟩ ∈ before
  commit : ∀ before b after, ballots = before ++ b :: after → b.phase = .commit →
    ⟨.preCommit, b.view, b.payload⟩ ∈ before

/-- **The discipline of votes.** Through all processes of a member on one store, whatever it
is handed and wherever a process stops, its votes are disciplined, as long as nobody else has
its seal. -/
theorem votes_disciplined {store : σ} {first core : Core σ}
    (hcreate : Core.create ctx store = .ok first) (hrun : Run ctx (OwnSeals ctx) first h core) :
    Disciplined (ballotsOf h) := by
  have hphase : first.replica.state.phase = .newView :=
    (Replica.create_phase (Core.create_ok hcreate).1).1
  have hvoting : Voting (ballotsOf h) core.replica.state :=
    (Run.conduct_of_ownSeals hcreate hrun).course.voting hphase
  refine ⟨hvoting.voted, hvoting.length_le_one, hvoting.payload_eq, ?_, ?_⟩
  · intro before b after hsplit hb
    exact hvoting.supported before b after hsplit .prepare (Or.inl rfl) (hb ▸ by decide)
  · intro before b after hsplit hb
    exact hvoting.supported before b after hsplit .preCommit (Or.inr (Or.inl rfl)) (hb ▸ by decide)

/-- A member alone proposes, restarts, and proposes again: it votes in views 0 and 2, and never in
the view that the restart left out. -/
theorem votes_disciplined_of_restart :
    ∃ h core, Core.create .alone ({} : MemoryStore) = .ok (.fresh .alone) ∧
      Run .alone (OwnSeals .alone) (Core.fresh .alone) h core ∧
      (ballotsOf h).map (fun b => (b.view, b.phase)) =
        [(0, .prepare), (0, .preCommit), (0, .commit),
          (2, .prepare), (2, .preCommit), (2, .commit)] ∧ Disciplined (ballotsOf h) := by
  obtain ⟨h, core, hrun, hballots⟩ := Run.exists_play
    (P := fun h _ => (ballotsOf h).map (fun b => (b.view, b.phase)) =
      [(0, .prepare), (0, .preCommit), (0, .commit), (2, .prepare), (2, .preCommit), (2, .commit)])
    (show ((Core.fresh .alone).play .alone (OwnSeals .alone) []
      [.input .start, .propose [1], .restart, .input .start, .propose [2]]).map _ = some true by
        decide +kernel)
  exact ⟨h, core, Core.create_fresh _, hrun, hballots, votes_disciplined (Core.create_fresh _) hrun⟩

end HotStuff
