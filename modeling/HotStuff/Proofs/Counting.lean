import HotStuff.Proofs.Calls
import HotStuff.Proofs.Scenario

/-!
# Counting up to the Certificate

A collector answers calls in any order: ballots are opened and voted on, members move from view to
view, and the views that are over are forgotten. From the call that opens a ballot until its view is
forgotten, what is held for the ballot is known from the votes that were counted, whatever else the
collector is asked in between; so what the next vote comes to depends on nothing but the members
that have voted. The vote of the last member that a quorum needs makes the certificate, and no other
vote does.

## Main definitions

* `Ballot.certifiedBy`: the certificate that votes on a ballot make.
* `Collector.counted`, `Collector.certified`, `Collector.voters`: the votes counted on a ballot, the
  certificates returned for it, and the members that voted for it.
* `Collector.Counting`: the invariant from the opening of a ballot on.

## Main results

* `Collector.Counting.addVote_eq`: what the next vote comes to.
* `Collector.Counting.step`, `Collector.Counting.run`: one call keeps the invariant, and so do many.
* `Collector.certifies_once`: the certificate of a ballot is made once, from the votes of a quorum.
-/

namespace HotStuff

/-! ### The certificate that votes make -/

/-- Whether a ballot is for the same phase of the same view as another. -/
def Ballot.SamePlace (a b : Ballot) : Prop := a.view = b.view ∧ a.phase = b.phase

instance (a b : Ballot) : Decidable (a.SamePlace b) :=
  inferInstanceAs (Decidable (a.view = b.view ∧ a.phase = b.phase))

/-- The signers of votes. -/
def signersOf (votes : List Vote) : List MemberId := (votes.map Vote.stamp).map Seal.signer

/-- **The certificate that votes on a ballot make**: the seal of each member that voted, in the
order of the committee. -/
def Ballot.certifiedBy (committee : Committee) (target : Ballot) (votes : List Vote) :
    Certificate :=
  ⟨target, committee.members.filterMap fun m =>
    (votes.map Vote.stamp).find? fun s => s.signer = m⟩

/-- The votes on an opened ballot, and the certificate once they are a quorum. -/
def Tally.of (committee : Committee) (target : Ballot) (votes : List Vote) : Tally :=
  ⟨target, votes.foldl (fun table v => table.insert v.stamp.signer v.stamp) ∅,
    if committee.quorum ≤ votes.length then some (target.certifiedBy committee votes) else none⟩

section Votes

variable {committee : Committee} {target : Ballot} {votes votes' : List Vote} {vote : Vote}

/-- The signer of one more vote comes last. -/
theorem signersOf_concat (votes : List Vote) (vote : Vote) :
    signersOf (votes ++ [vote]) = signersOf votes ++ [vote.stamp.signer] := by
  simp [signersOf]

/-- A vote of a member that has not voted yet keeps the signers distinct. -/
theorem nodup_concat (hnodup : (signersOf votes).Nodup)
    (hnew : vote.stamp.signer ∉ signersOf votes) :
    (signersOf (votes ++ [vote])).Nodup := by
  rw [signersOf_concat, List.nodup_append_comm]
  exact List.nodup_cons.mpr ⟨hnew, hnodup⟩

/-- The seal found for a member is the one it voted with. -/
theorem find?_stamp (hnodup : (signersOf votes).Nodup) {m : MemberId} {s : Seal} :
    (votes.map Vote.stamp).find? (fun s => s.signer = m) = some s ↔
      s ∈ votes.map Vote.stamp ∧ s.signer = m := by
  constructor
  · intro h
    exact ⟨List.mem_of_find?_eq_some h, by simpa using List.find?_some h⟩
  · rintro ⟨hmem, rfl⟩
    cases hfind : (votes.map Vote.stamp).find? (fun t => t.signer = s.signer) with
    | none => exact absurd (List.find?_eq_none.mp hfind s hmem) (by simp)
    | some t =>
        have hsame : t.signer = s.signer := by simpa using List.find?_some hfind
        rw [List.inj_on_of_nodup_map hnodup (List.mem_of_find?_eq_some hfind) hmem hsame]

/-- The tally of some votes is one of their ballot. -/
theorem target_of : (Tally.of committee target votes).target = target := rfl

/-- One more vote. -/
theorem insert_of (votes : List Vote) (vote : Vote) :
    (Tally.of committee target votes).votes.insert vote.stamp.signer vote.stamp =
      (Tally.of committee target (votes ++ [vote])).votes := by
  simp only [Tally.of, List.foldl_append, List.foldl_cons, List.foldl_nil]

/-- Votes are held under their signers. -/
theorem get?_of (hnodup : (signersOf votes).Nodup) (m : MemberId) :
    (Tally.of committee target votes).votes.get? m =
      (votes.map Vote.stamp).find? fun s => s.signer = m := by
  induction votes using List.reverseRecOn with
  | nil => rfl
  | append_singleton votes vote ih =>
      rw [signersOf_concat] at hnodup
      obtain ⟨hvotes, -, hnew⟩ := List.nodup_append.mp hnodup
      rw [← insert_of, Table.get?_insert, ih hvotes, List.map_append, List.find?_append]
      by_cases hm : m = vote.stamp.signer
      · subst hm
        have hnone :
            (votes.map Vote.stamp).find? (fun s => s.signer = vote.stamp.signer) = none := by
          rw [List.find?_eq_none]
          intro s hs hsame
          obtain ⟨v, hv, rfl⟩ := List.mem_map.mp hs
          exact hnew _ (List.mem_map_of_mem hs) _ (List.mem_singleton_self _) (by simpa using hsame)
        simp [hnone]
      · have hne : ¬ vote.stamp.signer = m := Ne.symm hm
        simp [hm, hne]

/-- The votes held amount to the certificate that they make. -/
theorem toCertificate_of (hnodup : (signersOf votes).Nodup) (certificate : Option Certificate) :
    Collector.toCertificate committee { Tally.of committee target votes with certificate } =
      target.certifiedBy committee votes := by
  have hget : (Tally.of committee target votes).votes.get? =
      fun m => (votes.map Vote.stamp).find? fun s => s.signer = m := funext (get?_of hnodup)
  simp only [Collector.toCertificate, Ballot.certifiedBy]
  rw [hget]
  rfl

/-- A vote is held for exactly those who voted. -/
theorem contains_of (hnodup : (signersOf votes).Nodup) {m : MemberId} :
    (Tally.of committee target votes).votes.contains m ↔ m ∈ signersOf votes := by
  rw [Table.contains, get?_of hnodup, List.find?_isSome]
  simp [signersOf]

/-- As many votes are held as were counted, if nobody voted twice. -/
theorem size_of (hnodup : (signersOf votes).Nodup) :
    (Tally.of committee target votes).votes.size = votes.length := by
  have hkeys : (Tally.of committee target votes).votes.keys.Perm (signersOf votes) :=
    (List.perm_ext_iff_of_nodup (Table.nodup_keys _) hnodup).mpr fun m =>
      (Table.contains_iff _ m).symm.trans (contains_of hnodup)
  rw [← Table.length_keys, hkeys.length_eq, signersOf, List.length_map, List.length_map]

namespace Ballot

/-- The certificate carries the seal of every vote, and no other. -/
theorem perm_seals (hnodup : (signersOf votes).Nodup)
    (hmember : ∀ v ∈ votes, v.stamp.signer ∈ committee.members) :
    (target.certifiedBy committee votes).seals.Perm (votes.map Vote.stamp) := by
  have hstamps : (votes.map Vote.stamp).Nodup := hnodup.of_map
  refine (List.perm_ext_iff_of_nodup ?_ hstamps).mpr fun s => ?_
  · refine committee.nodup.filterMap fun m m' s hm hm' => ?_
    exact ((find?_stamp hnodup).mp hm).2.symm.trans ((find?_stamp hnodup).mp hm').2
  · rw [certifiedBy, List.mem_filterMap]
    constructor
    · rintro ⟨m, -, hfind⟩
      exact ((find?_stamp hnodup).mp hfind).1
    · intro hs
      obtain ⟨v, hv, rfl⟩ := List.mem_map.mp hs
      exact ⟨_, hmember v hv, (find?_stamp hnodup).mpr ⟨hs, rfl⟩⟩

/-- The seals are in the order of the committee. -/
theorem ascending_seals (hnodup : (signersOf votes).Nodup) :
    (target.certifiedBy committee votes).seals.Pairwise fun s t =>
      committee.members.idxOf s.signer < committee.members.idxOf t.signer := by
  have hmembers : committee.members.Pairwise fun m m' =>
      committee.members.idxOf m < committee.members.idxOf m' := by
    rw [List.pairwise_iff_getElem]
    intro i j hi hj hlt
    rwa [committee.nodup.idxOf_getElem, committee.nodup.idxOf_getElem]
  refine hmembers.filterMap _ fun m m' hlt s hs t ht => ?_
  rwa [((find?_stamp hnodup).mp hs).2, ((find?_stamp hnodup).mp ht).2]

/-- The order in which votes come does not matter. -/
theorem certifiedBy_perm (hnodup : (signersOf votes).Nodup) (hperm : votes'.Perm votes) :
    target.certifiedBy committee votes' = target.certifiedBy committee votes := by
  have hnodup' : (signersOf votes').Nodup :=
    ((hperm.map Vote.stamp).map Seal.signer).nodup_iff.mpr hnodup
  have hfind (m : MemberId) : (votes'.map Vote.stamp).find? (fun s => s.signer = m) =
      (votes.map Vote.stamp).find? fun s => s.signer = m := by
    refine Option.ext fun s => ?_
    rw [find?_stamp hnodup', find?_stamp hnodup, (hperm.map Vote.stamp).mem_iff]
  rw [certifiedBy, certifiedBy]
  exact congrArg _ (List.filterMap_congr fun m _ => hfind m)

/-- **Votes of a quorum certify their ballot.** -/
theorem certifies_certifiedBy {scheme : Scheme} (hnodup : (signersOf votes).Nodup)
    (hvotes : ∀ v ∈ votes, v.ballot = target ∧ v.stamp.signer ∈ committee.members ∧
      scheme.voteValid v) (hmany : committee.quorum ≤ votes.length) :
    committee.Certifies scheme (target.certifiedBy committee votes) := by
  have hperm : (target.certifiedBy committee votes).seals.Perm (votes.map Vote.stamp) :=
    perm_seals hnodup fun v hv => (hvotes v hv).2.1
  constructor
  · intro s hs
    obtain ⟨v, hv, rfl⟩ := List.mem_map.mp (hperm.mem_iff.mp hs)
    exact (hvotes v hv).2.1
  · intro s hs
    obtain ⟨v, hv, rfl⟩ := List.mem_map.mp (hperm.mem_iff.mp hs)
    obtain ⟨rfl, -, hvalid⟩ := hvotes v hv
    exact hvalid
  · exact (hperm.map Seal.signer).nodup_iff.mpr hnodup
  · rw [hperm.length_eq, List.length_map]
    exact hmany

end Ballot

end Votes

namespace Collector

/-! ### What was counted -/

section Counted

variable (scheme : Scheme) (committee : Committee)

/-- The vote of a call, if it was counted and is for the place of a ballot. -/
def counted? (target : Ballot) : Call × Except Error Reply → Option Vote
  | (.addVote vote, .ok (.voted (.pending ..)))
  | (.addVote vote, .ok (.voted (.certified _))) =>
    if vote.ballot.SamePlace target then some vote else none
  | _ => none

/-- The certificate that a call returns, if its vote is for the place of a ballot. -/
def certified? (target : Ballot) : Call × Except Error Reply → Option Certificate
  | (.addVote vote, .ok (.voted (.certified cert))) =>
    if vote.ballot.SamePlace target then some cert else none
  | _ => none

/-- The member whose valid vote for a ballot a call brings, if it brings one. -/
def voter? (target : Ballot) : Call → Option MemberId
  | .addVote vote =>
    if vote.ballot = target ∧ vote.stamp.signer ∈ committee.members ∧ scheme.voteValid vote then
      some vote.stamp.signer
    else none
  | _ => none

/-- **The votes counted** in the place of a ballot, in their order. -/
def counted (target : Ballot) (log : List (Call × Except Error Reply)) : List Vote :=
  log.filterMap (counted? target)

/-- **The certificates returned** for the place of a ballot, in their order. -/
def certified (target : Ballot) (log : List (Call × Except Error Reply)) : List Certificate :=
  log.filterMap (certified? target)

/-- **The members that voted** for a ballot, counted or not. -/
def voters (target : Ballot) (calls : List Call) : Finset MemberId :=
  (calls.filterMap (voter? scheme committee target)).toFinset

end Counted

variable {scheme : Scheme} {committee : Committee} {c c' : Collector} {target : Ballot}
  {call : Call} {calls : List Call} {reply : Reply} {vote : Vote} {votes : List Vote}

/-- A member voted where one of the calls brings its valid vote. -/
theorem mem_voters {m : MemberId} : m ∈ voters scheme committee target calls ↔
    ∃ vote, .addVote vote ∈ calls ∧ (vote.ballot = target ∧
      vote.stamp.signer ∈ committee.members ∧ scheme.voteValid vote) ∧ vote.stamp.signer = m := by
  rw [voters, List.mem_toFinset, List.mem_filterMap]
  constructor
  · rintro ⟨call, hcall, hvoter⟩
    rw [voter?.eq_def] at hvoter
    split at hvoter
    · next vote =>
        split at hvoter
        · next hauthentic => exact ⟨vote, hcall, hauthentic, Option.some.inj hvoter⟩
        · cases hvoter
    · cases hvoter
  · rintro ⟨vote, hcall, hauthentic, rfl⟩
    exact ⟨_, hcall, if_pos hauthentic⟩

/-- Nothing is counted for a ballot but votes for its place. -/
theorem counted?_elsewhere (h : ∀ vote, call = .addVote vote → ¬ vote.ballot.SamePlace target)
    (reply : Except Error Reply) : counted? target (call, reply) = none := by
  rw [counted?.eq_def]
  split
  · next hentry => exact if_neg (h _ (Prod.mk.inj hentry).1)
  · next hentry => exact if_neg (h _ (Prod.mk.inj hentry).1)
  · rfl

/-- No certificate comes out for a ballot but on votes for its place. -/
theorem certified?_elsewhere (h : ∀ vote, call = .addVote vote → ¬ vote.ballot.SamePlace target)
    (reply : Except Error Reply) : certified? target (call, reply) = none := by
  rw [certified?.eq_def]
  split
  · next hentry => exact if_neg (h _ (Prod.mk.inj hentry).1)
  · rfl

/-! ### What is held for an open ballot -/

/-- **Counting**: what a collector holds for a ballot, from its opening on, is what the votes that
were counted make; and those of the members that voted are all counted, up to a quorum. -/
structure Counting (scheme : Scheme) (committee : Committee) (target : Ballot)
    (voters : Finset MemberId) (votes : List Vote) (certs : List Certificate) (c : Collector) :
    Prop where
  tally : c.tally? target.view target.phase = some (.of committee target votes)
  authentic : ∀ v ∈ votes, v.ballot = target ∧ v.stamp.signer ∈ committee.members ∧
    scheme.voteValid v
  nodup : (signersOf votes).Nodup
  few : votes.length ≤ committee.quorum
  voted : (signersOf votes).toFinset ⊆ voters
  all : votes.length < committee.quorum → voters ⊆ (signersOf votes).toFinset
  certs : certs = if committee.quorum ≤ votes.length then [target.certifiedBy committee votes]
    else []

namespace Counting

variable {voters : Finset MemberId} {certs : List Certificate}

/-- Every member that voted is counted, until a quorum is. -/
theorem length_eq (h : Counting scheme committee target voters votes certs c) :
    votes.length = min committee.quorum voters.card := by
  have hcard : (signersOf votes).toFinset.card = votes.length := by
    rw [List.toFinset_card_of_nodup h.nodup, signersOf, List.length_map, List.length_map]
  have hle := Finset.card_le_card h.voted
  rcases Nat.lt_or_eq_of_le h.few with hlt | heq
  · have hge := Finset.card_le_card (h.all hlt)
    omega
  · omega

/-- A ballot that was just opened. -/
theorem first (h : c.tally? target.view target.phase = some ⟨target, ∅, none⟩) :
    Counting scheme committee target ∅ [] [] c := by
  have hpos : ¬ committee.quorum ≤ 0 := by
    have := committee.lt_two_mul_quorum
    omega
  refine ⟨?_, by simp, List.nodup_nil, Nat.zero_le _, by simp [signersOf], by simp, ?_⟩
  · rw [h, Tally.of, List.length_nil, if_neg hpos]
    rfl
  · rw [List.length_nil, if_neg hpos]

/-- **The next vote.** It is refused, late, pending or decisive, according to what was counted. -/
theorem addVote_eq (h : Counting scheme committee target voters votes certs c)
    (hplace : vote.ballot.SamePlace target) :
    c.addVote scheme committee vote =
      if vote.stamp.signer ∉ committee.members then .error (.unknownSigner vote.stamp.signer)
      else if ¬ scheme.voteValid vote then .error (.badSignature vote.stamp.signer)
      else if committee.quorum ≤ votes.length then .ok (.alreadyCertified, c)
      else if vote.ballot ≠ target then .error (.invalidVote (.otherPayload vote.stamp.signer))
      else if vote.stamp.signer ∈ signersOf votes then
        .error (.invalidVote (.repeatedVote vote.stamp.signer))
      else if votes.length + 1 < committee.quorum then
        .ok (.pending (votes.length + 1) committee.quorum,
          c.putTally (.of committee target (votes ++ [vote])))
      else
        .ok (.certified (target.certifiedBy committee (votes ++ [vote])),
          c.putTally (.of committee target (votes ++ [vote]))) := by
  have htally :
      c.tally? vote.ballot.view vote.ballot.phase = some (.of committee target votes) := by
    rw [hplace.1, hplace.2]
    exact h.tally
  rw [addVote]
  simp only [htally, insert_of, target_of]
  by_cases hmember : vote.stamp.signer ∉ committee.members
  · rw [if_pos hmember, if_pos hmember]
  by_cases hvalid : ¬ scheme.voteValid vote
  · rw [if_neg hmember, if_neg hmember, if_pos (by simpa using hvalid), if_pos hvalid]
  by_cases hfull : committee.quorum ≤ votes.length
  · rw [if_neg hmember, if_neg hmember, if_neg (by simpa using hvalid), if_neg hvalid,
      if_pos (by simp [Tally.of, hfull]), if_pos hfull]
  rw [if_neg hmember, if_neg hmember, if_neg (by simpa using hvalid), if_neg hvalid,
    if_neg (by simp [Tally.of, hfull]), if_neg hfull]
  by_cases htarget : vote.ballot = target
  · rw [if_neg (not_not.mpr htarget.symm), if_neg (not_not.mpr htarget)]
    by_cases hrepeated : vote.stamp.signer ∈ signersOf votes
    · rw [if_pos ((contains_of h.nodup).mpr hrepeated), if_pos hrepeated]
    have hnodup := nodup_concat h.nodup hrepeated
    have hlength : (votes ++ [vote]).length = votes.length + 1 := by simp
    rw [if_neg fun hcontains => hrepeated ((contains_of h.nodup).mp hcontains), if_neg hrepeated,
      size_of hnodup, hlength]
    split
    · next hfew =>
        have hopen : Tally.of committee target (votes ++ [vote]) =
            ⟨target, (Tally.of committee target (votes ++ [vote])).votes,
              (Tally.of committee target votes).certificate⟩ := by
          simp only [Tally.of, hlength, if_neg hfull, if_neg (Nat.not_le.mpr hfew)]
        rw [← hopen]
    · next hmany =>
        have hclosed : Tally.of committee target (votes ++ [vote]) =
            ⟨target, (Tally.of committee target (votes ++ [vote])).votes,
              some (target.certifiedBy committee (votes ++ [vote]))⟩ := by
          simp only [Tally.of, hlength, if_pos (Nat.not_lt.mp hmany)]
        have hcert : toCertificate committee ⟨target, (Tally.of committee target
            (votes ++ [vote])).votes, (Tally.of committee target votes).certificate⟩ =
              target.certifiedBy committee (votes ++ [vote]) := toCertificate_of hnodup _
        rw [hcert, ← hclosed]
  · rw [if_pos (Ne.symm htarget), if_pos htarget]

/-- Where nothing is counted, the members that voted have been counted before, or need not be. -/
theorem keep (h : Counting scheme committee target voters votes certs c)
    {entry : Call × Except Error Reply} {new : Finset MemberId}
    (htally : c'.tally? target.view target.phase = c.tally? target.view target.phase)
    (hcounted : counted? target entry = none) (hcertified : certified? target entry = none)
    (hnew : votes.length < committee.quorum → new ⊆ (signersOf votes).toFinset) :
    Counting scheme committee target (voters ∪ new) (votes ++ counted target [entry])
      (certs ++ certified target [entry]) c' := by
  have hvotes : votes ++ counted target [entry] = votes := by simp [counted, hcounted]
  have hcerts : certs ++ certified target [entry] = certs := by simp [certified, hcertified]
  rw [hvotes, hcerts]
  exact ⟨htally.trans h.tally, h.authentic, h.nodup, h.few, h.voted.trans Finset.subset_union_left,
    fun hlt => Finset.union_subset (h.all hlt) (hnew hlt), h.certs⟩

/-- **A vote that is counted** is put with the others, and makes the certificate with them where
they are a quorum. -/
theorem count (h : Counting scheme committee target voters votes certs c)
    {entry : Call × Except Error Reply}
    (hauthentic : vote.ballot = target ∧ vote.stamp.signer ∈ committee.members ∧
      scheme.voteValid vote)
    (hopen : votes.length < committee.quorum) (hnew : vote.stamp.signer ∉ signersOf votes)
    (hcounted : counted? target entry = some vote)
    (hcertified : certified? target entry = if committee.quorum ≤ votes.length + 1 then
      some (target.certifiedBy committee (votes ++ [vote])) else none) :
    Counting scheme committee target (voters ∪ {vote.stamp.signer})
      (votes ++ counted target [entry]) (certs ++ certified target [entry])
      (c.putTally (.of committee target (votes ++ [vote]))) := by
  have hvotes : counted target [entry] = [vote] := by simp [counted, hcounted]
  have hcerts : certified target [entry] = if committee.quorum ≤ votes.length + 1 then
      [target.certifiedBy committee (votes ++ [vote])] else [] := by
    by_cases hmany : committee.quorum ≤ votes.length + 1 <;> simp [certified, hcertified, hmany]
  have hlength : (votes ++ [vote]).length = votes.length + 1 := by simp
  have hsigners : (signersOf (votes ++ [vote])).toFinset =
      (signersOf votes).toFinset ∪ {vote.stamp.signer} := by
    rw [signersOf_concat, List.toFinset_append]
    rfl
  rw [hvotes, hcerts]
  constructor
  · rw [tally?_putTally, if_pos ⟨rfl, rfl⟩]
  · intro v hv
    rcases List.mem_append.mp hv with hv | hv
    · exact h.authentic v hv
    · obtain rfl := List.mem_singleton.mp hv
      exact hauthentic
  · exact nodup_concat h.nodup hnew
  · rw [hlength]
    exact hopen
  · rw [hsigners]
    exact Finset.union_subset_union_left h.voted
  · intro _
    rw [hsigners]
    exact Finset.union_subset_union_left (h.all hopen)
  · rw [h.certs, if_neg (Nat.not_le.mpr hopen), hlength, List.nil_append]

end Counting

/-! ### One call -/

/-- Only votes for the place of an open ballot, and forgetting its view, touch what is held for
it. -/
theorem tally?_afterCall {t : Tally} (h : c.tally? target.view target.phase = some t)
    (hvote : ∀ vote, call = .addVote vote → ¬ vote.ballot.SamePlace target)
    (hprune : ∀ view, call = .pruneBelow view → view ≤ target.view) :
    (c.afterCall scheme committee call).tally? target.view target.phase =
      c.tally? target.view target.phase := by
  rw [afterCall]
  cases hcall : c.answer scheme committee call with
  | error cause => rfl
  | ok answer =>
      cases call with
      | openBallot opened =>
          obtain ⟨c', hopen, rfl⟩ := map_eq_ok.mp hcall
          rcases openBallot_ok hopen with ⟨-, rfl⟩ | ⟨hnone, rfl⟩
          · rfl
          · refine (tally?_putTally ..).trans (if_neg fun hsame => ?_)
            rw [← hsame.1, ← hsame.2, h] at hnone
            cases hnone
      | addVote vote =>
          obtain ⟨⟨outcome, c'⟩, hadd, rfl⟩ := map_eq_ok.mp hcall
          rcases addVote_ok hadd with ⟨-, rfl⟩ | ⟨t', -, -, htarget, -, -, counted, rfl, hsame, -⟩
          · rfl
          · refine (tally?_putTally ..).trans (if_neg fun hplace => ?_)
            rw [hsame, htarget] at hplace
            exact hvote vote rfl ⟨hplace.1.symm, hplace.2.symm⟩
      | addNewView view m justify =>
          obtain ⟨⟨members, c'⟩, hadd, rfl⟩ := map_eq_ok.mp hcall
          exact tally?_addNewView hadd _ _
      | pruneBelow view =>
          obtain rfl := Except.ok.inj hcall
          exact (tally?_pruneBelow ..).trans (if_pos (hprune view rfl))

namespace Counting

variable {voters : Finset MemberId} {certs : List Certificate}

/-- **A vote for the place of the ballot** is counted, or nothing is. -/
theorem addVote (h : Counting scheme committee target voters votes certs c)
    (hplace : vote.ballot.SamePlace target) :
    Counting scheme committee target
      (voters ∪ Collector.voters scheme committee target [.addVote vote])
      (votes ++ counted target [(.addVote vote, c.replyTo scheme committee (.addVote vote))])
      (certs ++ certified target [(.addVote vote, c.replyTo scheme committee (.addVote vote))])
      (c.afterCall scheme committee (.addVote vote)) := by
  rw [replyTo_addVote, afterCall_addVote]
  have heq := h.addVote_eq hplace
  by_cases hcounted : (vote.ballot = target ∧ vote.stamp.signer ∈ committee.members ∧
      scheme.voteValid vote) ∧ votes.length < committee.quorum ∧
        vote.stamp.signer ∉ signersOf votes
  · obtain ⟨hauthentic, hopen, hnew⟩ := hcounted
    have hvoters : Collector.voters scheme committee target [.addVote vote] =
        {vote.stamp.signer} := by
      simp [Collector.voters, voter?, hauthentic]
    rw [if_neg (not_not.mpr hauthentic.2.1), if_neg (not_not.mpr hauthentic.2.2),
      if_neg (Nat.not_le.mpr hopen), if_neg (not_not.mpr hauthentic.1), if_neg hnew] at heq
    rw [hvoters]
    split at heq
    · next hfew =>
        rw [heq]
        exact h.count hauthentic hopen hnew (if_pos hplace) (if_neg (Nat.not_le.mpr hfew)).symm
    · next hmany =>
        have hmany := Nat.not_lt.mp hmany
        rw [heq]
        exact h.count hauthentic hopen hnew (if_pos hplace)
          ((if_pos hplace).trans (if_pos hmany).symm)
  · have hnew : votes.length < committee.quorum →
        Collector.voters scheme committee target [.addVote vote] ⊆ (signersOf votes).toFinset := by
      intro hopen m hm
      obtain ⟨vote', hmem, hauthentic, rfl⟩ := mem_voters.mp hm
      obtain rfl := Call.addVote.inj (List.mem_singleton.mp hmem)
      by_contra hnew
      exact hcounted ⟨hauthentic, hopen, fun hmem => hnew (List.mem_toFinset.mpr hmem)⟩
    have hnone : (∃ cause, c.addVote scheme committee vote = .error cause) ∨
        c.addVote scheme committee vote = .ok (.alreadyCertified, c) := by
      rw [heq]
      split
      · exact Or.inl ⟨_, rfl⟩
      next hmember =>
      split
      · exact Or.inl ⟨_, rfl⟩
      next hvalid =>
      split
      · exact Or.inr rfl
      next hopen =>
      split
      · exact Or.inl ⟨_, rfl⟩
      next htarget =>
      split
      · exact Or.inl ⟨_, rfl⟩
      next hnew =>
      exact absurd ⟨⟨not_not.mp htarget, not_not.mp hmember, not_not.mp hvalid⟩,
        Nat.not_le.mp hopen, hnew⟩ hcounted
    rcases hnone with ⟨cause, hrefused⟩ | hlate
    · rw [hrefused]
      exact h.keep rfl rfl rfl hnew
    · rw [hlate]
      exact h.keep rfl rfl rfl hnew

/-- **One call** keeps what is held for an open ballot tied to the votes that were counted. -/
theorem step (h : Counting scheme committee target voters votes certs c)
    (hprune : ∀ view, call = .pruneBelow view → view ≤ target.view) :
    Counting scheme committee target
      (voters ∪ Collector.voters scheme committee target [call])
      (votes ++ counted target [(call, c.replyTo scheme committee call)])
      (certs ++ certified target [(call, c.replyTo scheme committee call)])
      (c.afterCall scheme committee call) := by
  by_cases hvote : ∃ vote, call = .addVote vote ∧ vote.ballot.SamePlace target
  · obtain ⟨vote, rfl, hplace⟩ := hvote
    exact h.addVote hplace
  · have helsewhere : ∀ vote, call = .addVote vote → ¬ vote.ballot.SamePlace target :=
      fun vote hcall hplace => hvote ⟨vote, hcall, hplace⟩
    have hvoters :
        Collector.voters scheme committee target [call] ⊆ (signersOf votes).toFinset := by
      intro m hm
      obtain ⟨vote, hmem, hauthentic, -⟩ := mem_voters.mp hm
      have hcall := (List.mem_singleton.mp hmem).symm
      exact absurd ⟨congrArg Ballot.view hauthentic.1, congrArg Ballot.phase hauthentic.1⟩
        (helsewhere vote hcall)
    exact h.keep (tally?_afterCall h.tally helsewhere hprune) (counted?_elsewhere helsewhere _)
      (certified?_elsewhere helsewhere _) fun _ => hvoters

/-- **A run of calls** from the opening of a ballot on, as long as its view is not forgotten. -/
theorem run (hopened : c.tally? target.view target.phase = some ⟨target, ∅, none⟩)
    (hprune : ∀ view, .pruneBelow view ∈ calls → view ≤ target.view) :
    Counting scheme committee target (Collector.voters scheme committee target calls)
      (counted target (c.log scheme committee calls))
      (certified target (c.log scheme committee calls))
      (c.afterCalls scheme committee calls) := by
  induction calls using List.reverseRecOn with
  | nil => exact first hopened
  | append_singleton calls call ih =>
      have hbefore := ih fun view hmem => hprune view (List.mem_append_left _ hmem)
      have hstep := hbefore.step fun view hcall => hprune view (List.mem_append_right _
        (List.mem_singleton.mpr hcall.symm))
      rw [log_concat, afterCalls_concat]
      simpa only [counted, certified, Collector.voters, List.filterMap_append, List.toFinset_append]
        using hstep

/-- Whether a member is among those that voted shows in the votes counted, up to a quorum. -/
theorem mem_voters_iff (h : Counting scheme committee target voters votes certs c)
    (hopen : votes.length < committee.quorum) {m : MemberId} :
    m ∈ voters ↔ m ∈ signersOf votes := by
  rw [← List.mem_toFinset]
  exact ⟨fun hm => h.all hopen hm, fun hm => h.voted hm⟩

/-- What the next vote returns depends on nothing but the members that have voted. -/
theorem replyTo_eq (h : Counting scheme committee target voters votes certs c)
    (hplace : vote.ballot.SamePlace target) :
    c.replyTo scheme committee (.addVote vote) =
      if vote.stamp.signer ∉ committee.members then .error (.unknownSigner vote.stamp.signer)
      else if ¬ scheme.voteValid vote then .error (.badSignature vote.stamp.signer)
      else if committee.quorum ≤ voters.card then .ok (.voted .alreadyCertified)
      else if vote.ballot ≠ target then .error (.invalidVote (.otherPayload vote.stamp.signer))
      else if vote.stamp.signer ∈ voters then
        .error (.invalidVote (.repeatedVote vote.stamp.signer))
      else if voters.card + 1 < committee.quorum then
        .ok (.voted (.pending (voters.card + 1) committee.quorum))
      else .ok (.voted (.certified (target.certifiedBy committee (votes ++ [vote])))) := by
  have hlength := h.length_eq
  have hfull : committee.quorum ≤ votes.length ↔ committee.quorum ≤ voters.card := by omega
  rw [replyTo_addVote, h.addVote_eq hplace]
  simp only [hfull]
  split
  · rfl
  split
  · rfl
  split
  · rfl
  next hopen =>
  have hsame : votes.length = voters.card := by omega
  have hopen : votes.length < committee.quorum := Nat.not_le.mp (hsame ▸ hopen)
  simp only [h.mem_voters_iff hopen, hsame]
  split
  · rfl
  split
  · rfl
  split
  · rfl
  · rfl

end Counting

/-! ### From the opening of a ballot on -/

/-- **A certificate made once.** What has become of a ballot since it was opened, where `voters` are
the members whose valid votes for it have come, `log` is what was returned since, and `c` is the
collector now. -/
structure CertifiedOnce (scheme : Scheme) (committee : Committee) (target : Ballot)
    (voters : Finset MemberId) (log : List (Call × Except Error Reply)) (c : Collector) : Prop where
  /-- Only valid votes of members for the ballot have been counted. -/
  authentic : ∀ v ∈ counted target log, v.ballot = target ∧ v.stamp.signer ∈ committee.members ∧
    scheme.voteValid v
  /-- No member was counted twice. -/
  distinct : (signersOf (counted target log)).Nodup
  /-- All members that voted were counted, up to a quorum. -/
  count : (counted target log).length = min committee.quorum voters.card
  /-- One vote returned a certificate if a quorum has voted, and none did before. -/
  once : certified target log = if committee.quorum ≤ voters.card then
    [target.certifiedBy committee (counted target log)] else []
  /-- The certificate is kept. -/
  kept : c.certificate target.view target.phase = if committee.quorum ≤ voters.card then
    some (target.certifiedBy committee (counted target log)) else none
  /-- It is for the ballot, and carries as many seals as a quorum has members, in the order of the
  committee. -/
  seals : committee.quorum ≤ voters.card →
    (target.certifiedBy committee (counted target log)).ballot = target ∧
    (target.certifiedBy committee (counted target log)).seals.length = committee.quorum ∧
    (target.certifiedBy committee (counted target log)).seals.Pairwise fun s t =>
      committee.members.idxOf s.signer < committee.members.idxOf t.signer
  /-- It is valid. -/
  valid : committee.quorum ≤ voters.card →
    committee.verify scheme (target.certifiedBy committee (counted target log)) = .ok ()
  /-- It would be the same if the votes had come in another order. -/
  order : ∀ votes, votes.Perm (counted target log) → target.certifiedBy committee votes =
    target.certifiedBy committee (counted target log)
  /-- The next vote for this phase of the view is refused, late, pending or decisive. -/
  next : ∀ vote : Vote, vote.ballot.SamePlace target →
    c.replyTo scheme committee (.addVote vote) =
      if vote.stamp.signer ∉ committee.members then .error (.unknownSigner vote.stamp.signer)
      else if ¬ scheme.voteValid vote then .error (.badSignature vote.stamp.signer)
      else if committee.quorum ≤ voters.card then .ok (.voted .alreadyCertified)
      else if vote.ballot ≠ target then .error (.invalidVote (.otherPayload vote.stamp.signer))
      else if vote.stamp.signer ∈ voters then
        .error (.invalidVote (.repeatedVote vote.stamp.signer))
      else if voters.card + 1 < committee.quorum then
        .ok (.voted (.pending (voters.card + 1) committee.quorum))
      else .ok (.voted (.certified
        (target.certifiedBy committee (counted target log ++ [vote]))))

/-- What is counted makes the certificate once. -/
theorem Counting.certifiedOnce {log : List (Call × Except Error Reply)} {voters : Finset MemberId}
    (h : Counting scheme committee target voters (counted target log) (certified target log) c) :
    CertifiedOnce scheme committee target voters log c := by
  have hlength := h.length_eq
  have hfull : committee.quorum ≤ (counted target log).length ↔ committee.quorum ≤ voters.card := by
    omega
  refine ⟨h.authentic, h.nodup, hlength, ?_, ?_, fun hmany => ⟨rfl, ?_, ?_⟩, fun hmany => ?_, ?_,
    fun vote => h.replyTo_eq⟩
  · rw [h.certs]
    simp only [hfull]
  · rw [certificate, h.tally]
    simp only [Option.bind_some, Tally.of, hfull]
  · have hperm : (target.certifiedBy committee (counted target log)).seals.Perm _ :=
      Ballot.perm_seals h.nodup fun v hv => (h.authentic v hv).2.1
    rw [hperm.length_eq, List.length_map]
    omega
  · exact Ballot.ascending_seals h.nodup
  · have hcertifies := Ballot.certifies_certifiedBy h.nodup h.authentic (hfull.mpr hmany)
    exact Committee.verify_eq_ok.mpr (Or.inr hcertifies)
  · exact fun votes hperm => Ballot.certifiedBy_perm h.nodup hperm

/-- **A collector certifies a ballot once.** An error leaves the collector as it was, at whatever
point of the call it occurs. And after the opening of a ballot, whatever calls come until its view
is forgotten: the vote of the last member that a quorum needs returns the certificate, and no other
one does; the certificate is valid, and made of the votes that were counted, whatever their order;
a vote counted before is pending, and any authentic one after it is too late. -/
theorem certifies_once (scheme : Scheme) (committee : Committee) :
    (∀ (c : Collector) (call : Call),
      (InPlace.answer scheme committee call).run c = c.inPlace (c.answer scheme committee call)) ∧
    ∀ (c : Collector) (target : Ballot), c.tally? target.view target.phase = none →
      ∃ opened, c.openBallot target = .ok opened ∧
        ∀ calls : List Call, (∀ view, .pruneBelow view ∈ calls → view ≤ target.view) →
          CertifiedOnce scheme committee target (voters scheme committee target calls)
            (opened.log scheme committee calls) (opened.afterCalls scheme committee calls) := by
  refine ⟨fun c call => InPlace.run_answer, fun c target hclosed => ?_⟩
  refine ⟨c.putTally ⟨target, ∅, none⟩, ?_, fun calls hprune => ?_⟩
  · rw [openBallot, hclosed]
  · have hopened : (c.putTally ⟨target, ∅, none⟩).tally? target.view target.phase =
        some ⟨target, ∅, none⟩ := by
      rw [tally?_putTally, if_pos ⟨rfl, rfl⟩]
    exact (Counting.run hopened hprune).certifiedOnce

end Collector

namespace Counted

open Collector

/-- The ballot that is opened. -/
def target : Ballot := ⟨.prepare, 1, ⟨⟨[0]⟩, [7]⟩⟩

/-- Another ballot for its place. -/
def rival : Ballot := ⟨.prepare, 1, ⟨⟨[0]⟩, [8]⟩⟩

/-- A vote of a numbered member. -/
def vote (n : UInt8) (ballot : Ballot) : Call :=
  .addVote (Scheme.transparent.castVote (.numbered n) ballot)

/-- A numbered member enters a view. -/
def enters (n : UInt8) (view : View) : Call :=
  .addNewView view (.numbered n) Scheme.transparent.genesis

/-- Votes for the ballot among others, with members that come and go. -/
def calls : List Call :=
  [vote 3 target, enters 2 1, vote 3 target, vote 0 rival, .openBallot rival, enters 2 2,
    vote 9 target, vote 1 target, .pruneBelow 1, vote 0 target, vote 2 rival, vote 2 target]

end Counted

open Counted in
/-- Votes that are repeated, for another payload or from outside are refused, and the third member
that votes for the ballot completes the certificate, though the members that left the round first
took nothing with them; those that vote later, for whatever payload, are too late. -/
theorem certifies_once_amid_other_calls :
    ∃ opened, Collector.empty.openBallot target = .ok opened ∧
      (opened.log .transparent .four calls).map (fun entry => entry.2.toOption) =
        [some (.voted (.pending 1 3)), some (.entered 1), none, none, none, some (.entered 1),
          none, some (.voted (.pending 2 3)), some .pruned,
          some (.voted (.certified (.numbered target [0, 1, 3]))),
          some (.voted .alreadyCertified), some (.voted .alreadyCertified)] ∧
      Collector.CertifiedOnce .transparent .four target
        (Collector.voters .transparent .four target calls) (opened.log .transparent .four calls)
        (opened.afterCalls .transparent .four calls) := by
  obtain ⟨opened, hopen, honce⟩ :=
    (Collector.certifies_once .transparent .four).2 .empty target rfl
  have hopened : opened = Collector.empty.putTally ⟨target, ∅, none⟩ :=
    (Except.ok.inj hopen).symm
  have hprune : ∀ view, .pruneBelow view ∈ calls → view ≤ target.view := by
    intro view hmem
    obtain rfl : view = 1 := by simpa [calls, vote, enters] using hmem
    decide
  refine ⟨opened, hopen, ?_, honce calls hprune⟩
  rw [hopened]
  decide +kernel

end HotStuff
