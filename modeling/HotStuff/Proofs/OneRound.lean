import HotStuff.Proofs.Refusal

/-!
# A Collector of One Round

A member that hears only from members in its own view collects for that view and no other, and one
that does not lead the view collects nothing. So on an undisturbed run a collector is empty, or it
is `Collector.only` of the current view, and every operation stays within that form.

## Main definitions

* `Collector.only`: the collector that holds one view.

## Main results

* `Collector.addNewView_only`, `Collector.highCertificate_only`: members that enter the view.
* `Collector.addVote_pending`, `Collector.addVote_certified`, `Collector.addVote_late`: a vote
  before the quorum, the one that completes it, and one after it.
-/

namespace HotStuff

/-- What is held of a view in which one member has entered. -/
def Round.enteredBy (m : MemberId) (justify : Certificate) : Round :=
  ⟨∅, (∅ : Table MemberId Certificate).insert m justify⟩

namespace Collector

/-- The collector that holds one view. -/
def only (view : View) (r : Round) : Collector := ⟨⟨[(view, r)], List.nodup_singleton view⟩⟩

/-- At most one view is held, and it is an earlier one. -/
inductive Behind (view : View) : Collector → Prop
  | empty : Behind view .empty
  | only {earlier : View} {r : Round} (h : earlier < view) : Behind view (only earlier r)

variable {view : View} {r : Round} {tallies : Table Phase Tally}
  {newViews : Table MemberId Certificate}

/-! ### Reading -/

/-- The round that is held is the one of its view. -/
@[simp] theorem round_only : (only view r).round view = r := by
  simp [round, only, Table.get?, Table.find]

/-- The ballots that are held are those of the round. -/
@[simp] theorem tally?_only (phase : Phase) :
    (only view r).tally? view phase = r.tallies.get? phase := by
  rw [tally?, round_only]

/-- Nobody is held in an empty collector. -/
theorem viewOf_empty (m : MemberId) : empty.viewOf m = none := rfl

/-- Who is held is held in the one view. -/
theorem viewOf_only (m : MemberId) :
    (only view r).viewOf m = if r.newViews.contains m then some view else none := by
  by_cases h : r.newViews.contains m <;> simp [viewOf, only, h]

/-! ### Writing -/

/-- Whatever is put in place of the one round, it is the one round. -/
theorem insert_only (r' : Round) :
    Collector.mk ((only view r).rounds.insert view r') = only view r' := by
  simp [only, Table.insert, Table.put]

/-- A tally that is put in is put in the round. -/
theorem putTally_only (target : Ballot) (votes : Table MemberId Seal)
    (certificate : Option Certificate) :
    (only target.view r).putTally ⟨target, votes, certificate⟩ = only target.view
      { r with tallies := r.tallies.insert target.phase ⟨target, votes, certificate⟩ } := by
  rw [putTally, round_only, insert_only]

/-- A member that enters the view is held in the round, with the certificate it brought first. -/
theorem hold_only (m : MemberId) (justify : Certificate) :
    (only view r).hold m view justify =
      only view { r with newViews := r.newViews.insert m ((r.newViews.get? m).getD justify) } := by
  rw [hold, round_only, insert_only]

/-- The first member that enters a view makes the round. -/
theorem hold_empty (m : MemberId) (justify : Certificate) :
    empty.hold m view justify = only view (.enteredBy m justify) := rfl

/-- Forgetting earlier views keeps the round. -/
theorem pruneBelow_only_of_le {here : View} (h : here ≤ view) :
    (only view r).pruneBelow here = only view r := by
  simp [pruneBelow, only, Table.retain, h]

/-- Forgetting the view of the round leaves nothing. -/
theorem pruneBelow_only_of_lt {here : View} (h : view < here) :
    (only view r).pruneBelow here = empty := by
  have hnot : ¬ here ≤ view := UInt64.not_le.mpr h
  simp [pruneBelow, only, Table.retain, hnot, empty, EmptyCollection.emptyCollection, Table.empty]

/-! ### Entering the view -/

section Entering

variable {committee : Committee} {m : MemberId} {justify : Certificate}

/-- The first member that enters the view. -/
theorem addNewView_empty (hmember : m ∈ committee.members) :
    empty.addNewView committee view m justify = .ok (1, only view (.enteredBy m justify)) := by
  rw [addNewView, if_neg (not_not.mpr hmember)]
  simp only [viewOf_empty, hold_empty, newViewCount, round_only]
  rfl

/-- Another member enters the view. -/
theorem addNewView_only (hmember : m ∈ committee.members) (hnew : m ∉ newViews.keys) :
    (only view ⟨tallies, newViews⟩).addNewView committee view m justify =
      .ok (newViews.size + 1, only view ⟨tallies, newViews.insert m justify⟩) := by
  have hcontains : ¬ newViews.contains m := fun h => hnew ((Table.contains_iff _ _).mp h)
  have hget : newViews.get? m = none := by
    simpa [Table.contains] using hcontains
  rw [addNewView, if_neg (not_not.mpr hmember)]
  simp only [viewOf_only, hcontains, hold_only, hget, newViewCount]
  simp [Table.size_insert_of_not_contains hcontains]

/-- A member enters a later view; the one that is held is over then. -/
theorem addNewView_next {next : View} (hmember : m ∈ committee.members) (hlater : view < next) :
    ∃ c', (only view r).addNewView committee next m justify = .ok (1, c') ∧
      c'.pruneBelow next = only next (.enteredBy m justify) := by
  have hne : view ≠ next := UInt64.ne_of_lt hlater
  have hnot : ¬ next ≤ view := UInt64.not_le.mpr hlater
  have hheld (r : Round) : ((only view r).hold m next justify).newViewCount next = 1 ∧
      ((only view r).hold m next justify).pruneBelow next = only next (.enteredBy m justify) := by
    have hround : (only view r).round next = ⟨∅, ∅⟩ := by
      simp [round, only, Table.get?, Table.find, hne]
    constructor
    · rw [newViewCount, hold, hround, round, Table.get?_insert, if_pos rfl]
      rfl
    · rw [hold, hround]
      simp [pruneBelow, only, Table.retain, Table.insert, Table.put, hne, hnot]
      rfl
  rw [addNewView, if_neg (not_not.mpr hmember)]
  by_cases hin : r.newViews.contains m
  · -- The member is taken out of the earlier view, which may leave nothing there.
    have hview : (only view r).viewOf m = some view := by rw [viewOf_only, if_pos hin]
    have hafter : ¬ next < view := UInt64.lt_asymm hlater
    simp only [hview, if_neg hafter, if_pos hlater]
    have hrelease : (only view r).release m view = empty ∨
        ∃ left, (only view r).release m view = only view left := by
      rw [release, round_only]
      split
      · left
        simp [only, Table.erase, Table.retain, empty, EmptyCollection.emptyCollection, Table.empty]
      · exact Or.inr ⟨_, insert_only _⟩
    rcases hrelease with hnone | ⟨left, hleft⟩
    · rw [hnone, hold_empty]
      refine ⟨_, ?_, pruneBelow_only_of_le (UInt64.le_refl _)⟩
      rw [newViewCount, round_only]
      rfl
    · rw [hleft, (hheld left).1]
      exact ⟨_, rfl, (hheld left).2⟩
  · have hview : (only view r).viewOf m = none := by rw [viewOf_only, if_neg hin]
    simp only [hview, (hheld r).1]
    exact ⟨_, rfl, (hheld r).2⟩

/-- A collector that is behind is empty when the views that are over are forgotten. -/
theorem Behind.pruneBelow {c : Collector} (hbehind : c.Behind view) :
    c.pruneBelow view = Collector.empty := by
  cases hbehind with
  | empty => rfl
  | only h => exact pruneBelow_only_of_lt h

/-- The first member that enters a later view. -/
theorem Behind.addNewView {c : Collector} (hbehind : c.Behind view) (justify : Certificate)
    (hmember : m ∈ committee.members) :
    ∃ c', c.addNewView committee view m justify = .ok (1, c') ∧
      c'.pruneBelow view = Collector.only view (.enteredBy m justify) := by
  cases hbehind with
  | empty => exact ⟨_, addNewView_empty hmember, pruneBelow_only_of_le (UInt64.le_refl _)⟩
  | only h => exact addNewView_next hmember h

/-- Where all members in the view bring the same certificate, that is the highest one. -/
theorem highCertificate_only (hmember : m ∈ committee.members) (hheld : m ∈ newViews.keys)
    (hsame : ∀ m c, newViews.get? m = some c → c = justify) :
    (only view ⟨tallies, newViews⟩).highCertificate committee view = some justify := by
  have hfound : ∀ c ∈ committee.members.filterMap newViews.get?, c = justify := by
    intro c hc
    obtain ⟨m', -, hget⟩ := List.mem_filterMap.mp hc
    exact hsame m' c hget
  obtain ⟨held, hget⟩ := (Table.mem_keys_iff _ _).mp hheld
  have hmem : held ∈ committee.members.filterMap newViews.get? :=
    List.mem_filterMap.mpr ⟨m, hmember, hget⟩
  rw [highCertificate, round_only]
  obtain ⟨best, hbest⟩ := exists_latest hmem
  rw [hbest, hfound best (latest_ok hbest).1]

end Entering

/-! ### Voting in the view -/

section Voting

/-- A ballot in a phase without one is opened. -/
theorem openBallot_only {phase : Phase} {payload : Payload} (h : tallies.get? phase = none) :
    (only view ⟨tallies, newViews⟩).openBallot ⟨phase, view, payload⟩ =
      .ok (only view ⟨tallies.insert phase ⟨⟨phase, view, payload⟩, ∅, none⟩, newViews⟩) := by
  simp only [openBallot, tally?_only, h]
  exact congrArg Except.ok (putTally_only ⟨phase, view, payload⟩ ∅ none)

variable {scheme : Scheme} {committee : Committee} {vote : Vote} {votes : Table MemberId Seal}

/-- **A vote before the quorum** is put with the others. -/
theorem addVote_pending (hmember : vote.stamp.signer ∈ committee.members)
    (hvalid : scheme.voteValid vote) (hview : vote.ballot.view = view)
    (hopen : tallies.get? vote.ballot.phase = some ⟨vote.ballot, votes, none⟩)
    (hnew : vote.stamp.signer ∉ votes.keys) (hfew : votes.size + 1 < committee.quorum) :
    (only view ⟨tallies, newViews⟩).addVote scheme committee vote =
      .ok (.pending (votes.size + 1) committee.quorum,
        only view ⟨tallies.insert vote.ballot.phase
          ⟨vote.ballot, votes.insert vote.stamp.signer vote.stamp, none⟩, newViews⟩) := by
  subst hview
  have hcontains : ¬ votes.contains vote.stamp.signer :=
    fun h => hnew ((Table.contains_iff _ _).mp h)
  have hsize : (votes.insert vote.stamp.signer vote.stamp).size = votes.size + 1 :=
    Table.size_insert_of_not_contains hcontains vote.stamp
  simp only [addVote, tally?_only, hopen, hsize]
  rw [if_neg (not_not.mpr hmember), if_neg (by simpa using hvalid), if_neg (by simp),
    if_neg (not_not.mpr rfl), if_neg hcontains, if_pos hfew, putTally_only]

/-- **The vote that completes the quorum** makes the certificate. -/
theorem addVote_certified (hmember : vote.stamp.signer ∈ committee.members)
    (hvalid : scheme.voteValid vote) (hview : vote.ballot.view = view)
    (hopen : tallies.get? vote.ballot.phase = some ⟨vote.ballot, votes, none⟩)
    (hnew : vote.stamp.signer ∉ votes.keys) (hquorum : committee.quorum ≤ votes.size + 1) :
    let counted := votes.insert vote.stamp.signer vote.stamp
    let cert := toCertificate committee ⟨vote.ballot, counted, none⟩
    (only view ⟨tallies, newViews⟩).addVote scheme committee vote =
      .ok (.certified cert,
        only view ⟨tallies.insert vote.ballot.phase ⟨vote.ballot, counted, some cert⟩,
          newViews⟩) := by
  subst hview
  have hcontains : ¬ votes.contains vote.stamp.signer :=
    fun h => hnew ((Table.contains_iff _ _).mp h)
  have hsize : (votes.insert vote.stamp.signer vote.stamp).size = votes.size + 1 :=
    Table.size_insert_of_not_contains hcontains vote.stamp
  simp only [addVote, tally?_only, hopen, hsize]
  rw [if_neg (not_not.mpr hmember), if_neg (by simpa using hvalid), if_neg (by simp),
    if_neg (not_not.mpr rfl), if_neg hcontains, if_neg (Nat.not_lt.mpr hquorum),
    putTally_only]

/-- **A vote after the certificate** is not counted. -/
theorem addVote_late (hmember : vote.stamp.signer ∈ committee.members)
    (hvalid : scheme.voteValid vote) (hview : vote.ballot.view = view)
    {t : Tally} (ht : tallies.get? vote.ballot.phase = some t) (hclosed : t.certificate.isSome) :
    (only view ⟨tallies, newViews⟩).addVote scheme committee vote =
      .ok (.alreadyCertified, only view ⟨tallies, newViews⟩) := by
  subst hview
  simp only [addVote, tally?_only, ht]
  rw [if_neg (not_not.mpr hmember), if_neg (by simpa using hvalid), if_pos hclosed]

end Voting

end Collector

end HotStuff
