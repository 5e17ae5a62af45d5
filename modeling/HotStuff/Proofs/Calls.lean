import HotStuff.Proofs.Collecting

/-!
# Calls to a Collector

A collector is asked, in any order, to open ballots, to count votes, to let members enter views and
to forget the views that are over. The operations answer with a new collector or with an error, so
an error has nothing to spoil. A machine that changes one collector bit by bit has to make sure of
that: what it wrote before an error would stay. The operations are written down here as such a
machine performs them, every write in its turn. They come to the same answers, and no error finds
the collector other than it was.

## Main definitions

* `Collector.Call`, `Collector.answer`: the calls, and what they return.
* `Collector.afterCalls`, `Collector.log`: what a sequence of calls leaves and returns.
* `Collector.Machine`: a computation that reads and writes one collector.

## Main results

* `Collector.InPlace.run_answer`: calls can be answered in place.
-/

namespace HotStuff

namespace Collector

/-- A call to a collector. -/
inductive Call where
  | openBallot (target : Ballot)
  | addVote (vote : Vote)
  | addNewView (view : View) (m : MemberId) (justify : Certificate)
  | pruneBelow (view : View)
  deriving DecidableEq, Repr

/-- What is returned for a call, unless it is an error. -/
inductive Reply where
  | opened
  | voted (outcome : VoteOutcome)
  | entered (members : Nat)
  | pruned
  deriving DecidableEq, Repr

section Calls

variable (scheme : Scheme) (committee : Committee)

/-- Answers a call. -/
def answer (c : Collector) : Call → Except Error (Reply × Collector)
  | .openBallot target => (c.openBallot target).map fun c' => (.opened, c')
  | .addVote vote => (c.addVote scheme committee vote).map fun (outcome, c') => (.voted outcome, c')
  | .addNewView view m justify =>
    (c.addNewView committee view m justify).map fun (members, c') => (.entered members, c')
  | .pruneBelow view => .ok (.pruned, c.pruneBelow view)

/-- What a call returns. -/
def replyTo (c : Collector) (call : Call) : Except Error Reply :=
  (c.answer scheme committee call).map Prod.fst

/-- The collector after a call; it is the same one after an error. -/
def afterCall (c : Collector) (call : Call) : Collector :=
  match c.answer scheme committee call with
  | .ok (_, c') => c'
  | .error _ => c

/-- The collector after calls. -/
def afterCalls (c : Collector) (calls : List Call) : Collector :=
  calls.foldl (afterCall scheme committee) c

/-- Calls with what they return. -/
def log : Collector → List Call → List (Call × Except Error Reply)
  | _, [] => []
  | c, call :: calls =>
    (call, c.replyTo scheme committee call) :: log (c.afterCall scheme committee call) calls

end Calls

variable {scheme : Scheme} {committee : Committee} {c c' : Collector} {target : Ballot}
  {call : Call} {calls : List Call} {vote : Vote}

/-- One more call is made of the collector after the calls before it. -/
theorem afterCalls_concat :
    c.afterCalls scheme committee (calls ++ [call]) =
      (c.afterCalls scheme committee calls).afterCall scheme committee call := by
  rw [afterCalls, List.foldl_append]
  rfl

/-- One more call is logged with what the collector returns after the calls before it. -/
theorem log_concat :
    c.log scheme committee (calls ++ [call]) = c.log scheme committee calls ++
      [(call, (c.afterCalls scheme committee calls).replyTo scheme committee call)] := by
  induction calls generalizing c with
  | nil => rfl
  | cons first calls ih => exact congrArg (_ :: ·) ih

/-- A vote is answered with its outcome. -/
theorem replyTo_addVote : c.replyTo scheme committee (.addVote vote) =
    (c.addVote scheme committee vote).map fun answer => .voted answer.1 := by
  rw [replyTo, answer]
  cases c.addVote scheme committee vote with
  | error cause => rfl
  | ok answer => rfl

/-- A vote that is refused leaves the collector as it is. -/
theorem afterCall_addVote : c.afterCall scheme committee (.addVote vote) =
    match c.addVote scheme committee vote with
    | .ok (_, c') => c'
    | .error _ => c := by
  rw [afterCall, answer]
  cases c.addVote scheme committee vote with
  | error cause => rfl
  | ok answer => rfl

/-! ### Calls in place -/

/-- **A computation in place**: it reads and writes one collector, and what it has written stays,
however it ends. -/
abbrev Machine (α : Type) := EStateM Error Collector α

/-- What a computation in place comes to where an error finds the collector as it was. -/
def inPlace {α : Type} (c : Collector) : Except Error (α × Collector) →
    EStateM.Result Error Collector α
  | .ok (a, c') => .ok a c'
  | .error cause => .error cause c

namespace InPlace

variable (scheme : Scheme) (committee : Committee)

/-- Makes a round for a view that has none. -/
def reserve (view : View) : Machine Unit :=
  modify fun c => if c.rounds.contains view then c else ⟨c.rounds.insert view ⟨∅, ∅⟩⟩

/-- Opens a ballot. The round of its view is made before anything is checked. -/
def openBallot (target : Ballot) : Machine Unit := do
  reserve target.view
  match (← get).tally? target.view target.phase with
  | some t =>
    if t.target = target then return ()
    else throw (.invalidProposal (.targetTaken target.view target.phase))
  | none => modify fun c => c.putTally ⟨target, ∅, none⟩

/-- Counts a vote. The vote is put with the others before the quorum is looked at, and the
certificate after it. -/
def addVote (vote : Vote) : Machine VoteOutcome := do
  let signer := vote.stamp.signer
  if signer ∉ committee.members then throw (.unknownSigner signer)
  else if !scheme.voteValid vote then throw (.badSignature signer)
  else
    match (← get).tally? vote.ballot.view vote.ballot.phase with
    | none => throw (.invalidVote (.noTarget vote.ballot.phase vote.ballot.view))
    | some t =>
      if t.certificate.isSome then return .alreadyCertified
      else if t.target ≠ vote.ballot then throw (.invalidVote (.otherPayload signer))
      else if t.votes.contains signer then throw (.invalidVote (.repeatedVote signer))
      else
        let counted := { t with votes := t.votes.insert signer vote.stamp }
        modify fun c => c.putTally counted
        if counted.votes.size < committee.quorum then
          return .pending counted.votes.size committee.quorum
        else
          let cert := toCertificate committee counted
          modify fun c => c.putTally { counted with certificate := some cert }
          return .certified cert

/-- A member enters a view. It is taken out of an earlier one first. -/
def addNewView (view : View) (m : MemberId) (justify : Certificate) : Machine Nat := do
  if m ∉ committee.members then throw (.unknownSigner m)
  else
    match (← get).viewOf m with
    | none => modify fun c => c.hold m view justify
    | some held =>
      if view < held then pure ()
      else if held < view then
        modify fun c => c.release m held
        modify fun c => c.hold m view justify
      else modify fun c => c.hold m view justify
    return (← get).newViewCount view

/-- Answers a call. -/
def answer : Call → Machine Reply
  | .openBallot target => do
    openBallot target
    return .opened
  | .addVote vote => return .voted (← addVote scheme committee vote)
  | .addNewView view m justify => return .entered (← addNewView committee view m justify)
  | .pruneBelow view => do
    modify fun c => c.pruneBelow view
    return .pruned

end InPlace

/-- What is written last for a ballot stays. -/
theorem putTally_putTally (target : Ballot) (votes votes' : Table MemberId Seal)
    (certificate certificate' : Option Certificate) :
    (c.putTally ⟨target, votes, certificate⟩).putTally ⟨target, votes', certificate'⟩ =
      c.putTally ⟨target, votes', certificate'⟩ := by
  rw [putTally, putTally, round_insert, if_pos rfl]
  simp only [Table.insert_insert]
  rfl

namespace InPlace

/-- **Opening a ballot in place** comes to what it comes to with two values of a collector. -/
theorem run_openBallot : (openBallot target).run c =
    c.inPlace ((c.openBallot target).map fun c' => ((), c')) := by
  rw [Collector.openBallot, openBallot, reserve]
  simp only [EStateM.run_bind, EStateM.run_modify, EStateM.run_get]
  by_cases hround : c.rounds.contains target.view
  · rw [if_pos hround]
    cases c.tally? target.view target.phase with
    | none => rfl
    | some t =>
        simp only
        split
        · rfl
        · rfl
  · -- Where there was no round there is no ballot, so the round is written again and not refused.
    have hnone : c.tally? target.view target.phase = none := by
      rw [tally?, round, Option.not_isSome_iff_eq_none.mp hround]
      rfl
    have hreserved : Collector.tally? ⟨c.rounds.insert target.view ⟨∅, ∅⟩⟩ target.view
        target.phase = none := by
      rw [tally?, round_insert, if_pos rfl]
      rfl
    have hput : Collector.putTally ⟨c.rounds.insert target.view ⟨∅, ∅⟩⟩ ⟨target, ∅, none⟩ =
        c.putTally ⟨target, ∅, none⟩ := by
      rw [putTally, putTally, round_insert, if_pos rfl, round,
        Option.not_isSome_iff_eq_none.mp hround]
      simp only [Table.insert_insert]
      rfl
    rw [if_neg hround, hreserved, hnone]
    simp only [EStateM.run_modify, hput]
    rfl

/-- **Counting a vote in place** comes to what it comes to with two values of a collector: the
certificate is put in after the vote, and nothing is refused between the two. -/
theorem run_addVote : (addVote scheme committee vote).run c =
    c.inPlace (c.addVote scheme committee vote) := by
  rw [Collector.addVote]
  simp only [addVote]
  split
  · rfl
  split
  · rfl
  simp only [EStateM.run_bind, EStateM.run_get]
  cases c.tally? vote.ballot.view vote.ballot.phase with
  | none => rfl
  | some t =>
      simp only
      split
      · rfl
      split
      · rfl
      split
      · rfl
      simp only [EStateM.run_bind, EStateM.run_modify]
      split
      · rfl
      · simp only [EStateM.run_bind, EStateM.run_modify, EStateM.run_pure]
        rw [putTally_putTally]
        rfl

/-- **Recording an announcement in place** comes to what it comes to with two values of a
collector. -/
theorem run_addNewView {view : View} {m : MemberId} {justify : Certificate} :
    (addNewView committee view m justify).run c =
      c.inPlace (c.addNewView committee view m justify) := by
  rw [Collector.addNewView]
  simp only [addNewView]
  split
  · rfl
  simp only [EStateM.run_bind, EStateM.run_get]
  cases c.viewOf m with
  | none => rfl
  | some held =>
      simp only
      split
      · rfl
      split
      · rfl
      · rfl

/-- **An error changes nothing**: what a call writes in place before an error is what was there. -/
theorem run_answer :
    (answer scheme committee call).run c = c.inPlace (c.answer scheme committee call) := by
  cases call with
  | openBallot target =>
      rw [answer, EStateM.run_bind, run_openBallot, Collector.answer]
      cases c.openBallot target with
      | error cause => rfl
      | ok c' => rfl
  | addVote vote =>
      rw [answer, EStateM.run_bind, run_addVote, Collector.answer]
      cases c.addVote scheme committee vote with
      | error cause => rfl
      | ok c' => rfl
  | addNewView view m justify =>
      rw [answer, EStateM.run_bind, run_addNewView, Collector.answer]
      cases c.addNewView committee view m justify with
      | error cause => rfl
      | ok c' => rfl
  | pruneBelow view => rfl

end InPlace

end Collector

end HotStuff
