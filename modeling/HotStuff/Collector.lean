import HotStuff.Committee
import HotStuff.Table

/-!
# Collecting Votes

A leader collects two things per view: votes on the ballots it has opened, and announcements by
members that they entered the view, each with the highest certificate that member knows. A ballot
that gathers votes from a quorum becomes a certificate, once. A member is held in the latest view it
announced and in no other, so announcements cannot fill the memory.

## Main definitions

* `Collector.openBallot`, `Collector.addVote`: from an opened ballot to its certificate.
* `Collector.addNewView`: a member enters a view.
* `Collector.highCertificate`: the certificate that a proposal in a view has to build on.
-/

namespace HotStuff

/-- What became of a vote that was not refused. -/
inductive VoteOutcome where
  /-- Counted; a quorum is not reached. -/
  | pending (votes quorum : Nat)
  /-- Counted; this vote completed the quorum. -/
  | certified (cert : Certificate)
  /-- Not counted: the certificate was there before. -/
  | alreadyCertified
  deriving DecidableEq, Repr

/-- The votes on one opened ballot. -/
structure Tally where
  target : Ballot
  /-- The seal of each voter. -/
  votes : Table MemberId Seal
  /-- The certificate, once a quorum has voted. -/
  certificate : Option Certificate

/-- All that is collected for one view. -/
structure Round where
  tallies : Table Phase Tally
  /-- The certificate that each member brought on entering the view. -/
  newViews : Table MemberId Certificate

/-- Whether a round holds nothing. -/
def Round.isEmpty (r : Round) : Bool := r.tallies.isEmpty && r.newViews.isEmpty

/-- The rounds of the views that are still of interest. -/
structure Collector where
  rounds : Table View Round

namespace Collector

/-- The collector without rounds. -/
def empty : Collector := ⟨∅⟩

instance : Inhabited Collector := ⟨empty⟩

variable (c : Collector)

/-- What is held for a view. -/
def round (view : View) : Round := (c.rounds.get? view).getD ⟨∅, ∅⟩

/-- The votes on the ballot opened in a phase of a view. -/
def tally? (view : View) (phase : Phase) : Option Tally := (c.round view).tallies.get? phase

/-- Puts votes in place of those held for the same phase of the same view. -/
def putTally (t : Tally) : Collector :=
  let r := c.round t.target.view
  ⟨c.rounds.insert t.target.view { r with tallies := r.tallies.insert t.target.phase t }⟩

/-! ### Ballots and votes -/

/-- Opens a ballot for votes. The same ballot may be opened again, another one for the same phase
of the same view may not. -/
def openBallot (target : Ballot) : Except Error Collector :=
  match c.tally? target.view target.phase with
  | some t =>
    if t.target = target then .ok c
    else .error (.invalidProposal (.targetTaken target.view target.phase))
  | none => .ok (c.putTally ⟨target, ∅, none⟩)

/-- The certificate that the votes amount to, with the seals in the committee's order. -/
def toCertificate (committee : Committee) (t : Tally) : Certificate :=
  ⟨t.target, committee.members.filterMap t.votes.get?⟩

/-- **Counting a vote.** The voter has to be a member and the seal valid, the ballot open, not yet
certified and the one voted on, and the member must not have voted on it before. -/
def addVote (scheme : Scheme) (committee : Committee) (vote : Vote) :
    Except Error (VoteOutcome × Collector) :=
  let signer := vote.stamp.signer
  if signer ∉ committee.members then .error (.unknownSigner signer)
  else if !scheme.voteValid vote then .error (.badSignature signer)
  else
    match c.tally? vote.ballot.view vote.ballot.phase with
    | none => .error (.invalidVote (.noTarget vote.ballot.phase vote.ballot.view))
    | some t =>
      if t.certificate.isSome then .ok (.alreadyCertified, c)
      else if t.target ≠ vote.ballot then .error (.invalidVote (.otherPayload signer))
      else if t.votes.contains signer then .error (.invalidVote (.repeatedVote signer))
      else
        let counted := { t with votes := t.votes.insert signer vote.stamp }
        if counted.votes.size < committee.quorum then
          .ok (.pending counted.votes.size committee.quorum, c.putTally counted)
        else
          let cert := toCertificate committee counted
          .ok (.certified cert, c.putTally { counted with certificate := some cert })

/-- The number of votes counted in a phase of a view. -/
def voteCount (view : View) (phase : Phase) : Nat :=
  ((c.tally? view phase).map fun t => t.votes.size).getD 0

/-- The certificate formed in a phase of a view. -/
def certificate (view : View) (phase : Phase) : Option Certificate :=
  (c.tally? view phase).bind Tally.certificate

/-! ### Entering views -/

/-- The view that a member is held in. -/
def viewOf (m : MemberId) : Option View :=
  (c.rounds.entries.find? fun e => e.2.newViews.contains m).map Prod.fst

/-- The number of members known to have entered a view. -/
def newViewCount (view : View) : Nat := (c.round view).newViews.size

/-- Takes a member out of a view, and the round with it if nothing else is in there. -/
def release (m : MemberId) (view : View) : Collector :=
  let r := c.round view
  let left := { r with newViews := r.newViews.erase m }
  if left.isEmpty then ⟨c.rounds.erase view⟩ else ⟨c.rounds.insert view left⟩

/-- Puts a member into a view; a certificate it brought there before stays. -/
def hold (m : MemberId) (view : View) (justify : Certificate) : Collector :=
  let r := c.round view
  let brought := (r.newViews.get? m).getD justify
  ⟨c.rounds.insert view { r with newViews := r.newViews.insert m brought }⟩

/-- **Entering a view.** A member moves to the latest view it announced; an announcement for an
earlier view changes nothing. The result is the number of members in the announced view. -/
def addNewView (committee : Committee) (view : View) (m : MemberId) (justify : Certificate) :
    Except Error (Nat × Collector) :=
  if m ∉ committee.members then .error (.unknownSigner m)
  else
    let moved : Collector :=
      match c.viewOf m with
      | none => c.hold m view justify
      | some held =>
        if view < held then c
        else if held < view then (c.release m held).hold m view justify
        else c.hold m view justify
    .ok (moved.newViewCount view, moved)

/-- The last of the certificates that no other one in the list exceeds, by view and then by
phase. -/
def latest : List Certificate → Option Certificate
  | [] => none
  | first :: rest =>
    some (rest.foldl (fun best x => if best.atMost x then x else best) first)

/-- The highest certificate that the members in a view brought, the last one in the committee's
order if there are several. -/
def highCertificate (committee : Committee) (view : View) : Option Certificate :=
  latest (committee.members.filterMap (c.round view).newViews.get?)

/-! ### Memory -/

/-- Forgets every view before `view`. -/
def pruneBelow (view : View) : Collector := ⟨c.rounds.retain fun v => decide (view ≤ v)⟩

/-- The number of views held. -/
def roundCount : Nat := c.rounds.size

end Collector

end HotStuff
