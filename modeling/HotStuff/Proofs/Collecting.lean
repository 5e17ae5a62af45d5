import HotStuff.Leader
import HotStuff.Proofs.Certification
import HotStuff.Proofs.Moves

/-!
# What a Leader Collects

A collector is read through `Collector.tally?` alone: entering and leaving views do not touch
it, pruning only removes tallies, and putting a tally changes one place. `Collector.Sound` is
the invariant: every ballot of a view is over the payload of the view's Prepare ballot, and
its votes are valid, genuine, and those of members. A certificate formed from a sound tally
is therefore trusted.

## Main results

* `Collector.trusted_toCertificate`: a quorum of sound votes makes a trusted certificate.
* `Leader.propose_spec`, `Leader.onVote_spec`, `Leader.onNewView_spec`: what each operation of a
  leader leaves in the collector, and what it says.
-/

namespace HotStuff

namespace Collector

variable {ctx : Context} {genuine : Ballot → Seal → Prop} {c c' : Collector}

/-! ### Reading the ballots -/

/-- A round is read where it was written, and all others are as before. -/
theorem round_insert (c : Collector) (view v : View) (r : Round) :
    Collector.round ⟨c.rounds.insert view r⟩ v = if v = view then r else c.round v := by
  rw [round, Table.get?_insert]
  split
  · rfl
  · rfl

/-- A tally is found in the place of its ballot, and no other place changes. -/
theorem tally?_putTally (c : Collector) (t : Tally) (view : View) (phase : Phase) :
    (c.putTally t).tally? view phase =
      if view = t.target.view ∧ phase = t.target.phase then some t else c.tally? view phase := by
  rw [tally?, putTally, round_insert]
  by_cases hview : view = t.target.view
  · rw [if_pos hview, Table.get?_insert, hview]
    by_cases hphase : phase = t.target.phase
    · rw [if_pos hphase, if_pos ⟨rfl, hphase⟩]
    · rw [if_neg hphase, if_neg fun h => hphase h.2]
      rfl
  · rw [if_neg hview, if_neg fun h => hview h.1]
    rfl

/-- A member that leaves a view takes no vote with it. -/
theorem tally?_release (c : Collector) (m : MemberId) (view v : View) (phase : Phase) :
    (c.release m view).tally? v phase = c.tally? v phase := by
  rw [release]
  split
  · next hempty =>
      rw [tally?, round, Table.get?_erase]
      split
      · next hv =>
          -- The round is dropped only when it holds no ballot.
          subst hv
          rw [Round.isEmpty, Bool.and_eq_true] at hempty
          exact (Table.get?_of_isEmpty hempty.1 phase).symm
      · rfl
  · rw [tally?, round_insert]
    split
    · next hv =>
        subst hv
        rfl
    · rfl

/-- A member that enters a view changes no vote. -/
theorem tally?_hold (c : Collector) (m : MemberId) (view : View) (justify : Certificate) (v : View)
    (phase : Phase) : (c.hold m view justify).tally? v phase = c.tally? v phase := by
  rw [hold, tally?, round_insert]
  split
  · next hv =>
      subst hv
      rfl
  · rfl

/-- Recording an announcement changes no vote. -/
theorem tally?_addNewView {committee : Committee} {view : View} {m : MemberId}
    {justify : Certificate} {count : Nat}
    (h : c.addNewView committee view m justify = .ok (count, c')) (v : View) (phase : Phase) :
    c'.tally? v phase = c.tally? v phase := by
  rw [addNewView] at h
  split at h
  · cases h
  · simp only [Except.ok.injEq, Prod.mk.injEq] at h
    obtain ⟨-, rfl⟩ := h
    split
    · exact tally?_hold ..
    · split
      · rfl
      · split
        · rw [tally?_hold, tally?_release]
        · exact tally?_hold ..

/-- Forgetting the views that are over keeps the ballots of the others. -/
theorem tally?_pruneBelow (c : Collector) (here v : View) (phase : Phase) :
    (c.pruneBelow here).tally? v phase = if here ≤ v then c.tally? v phase else none := by
  rw [tally?, round, pruneBelow, Table.get?_retain]
  by_cases h : here ≤ v
  · rw [if_pos (decide_eq_true h), if_pos h]
    rfl
  · rw [if_neg (by simpa using h), if_neg h]
    rfl

/-- The payload of the Prepare ballot that is open in a view. -/
def opened (c : Collector) (view : View) : Option Payload :=
  (c.tally? view .prepare).map fun t => t.target.payload

/-- Putting in a tally opens its ballot, and that is all it opens. -/
theorem opened_putTally (c : Collector) (t : Tally) (view : View) :
    (c.putTally t).opened view =
      if view = t.target.view ∧ .prepare = t.target.phase then some t.target.payload
      else c.opened view := by
  rw [opened, tally?_putTally]
  split
  · rfl
  · rfl

/-- Forgetting the views that are over keeps what is open in the others. -/
theorem opened_pruneBelow {here view : View} (h : here ≤ view) :
    (c.pruneBelow here).opened view = c.opened view := by
  rw [opened, tally?_pruneBelow, if_pos h]
  rfl

/-! ### What the operations change -/

/-- A ballot was open before, or is opened without votes. -/
theorem openBallot_ok {target : Ballot} (hok : c.openBallot target = .ok c') :
    (∃ t, c.tally? target.view target.phase = some t ∧ t.target = target) ∧ c' = c ∨
      c.tally? target.view target.phase = none ∧ c' = c.putTally ⟨target, ∅, none⟩ := by
  rw [openBallot] at hok
  split at hok
  · next t ht =>
      split at hok
      · next heq =>
          obtain rfl := Except.ok.inj hok
          exact Or.inl ⟨⟨t, ht, heq⟩, rfl⟩
      · cases hok
  · next hnone =>
      obtain rfl := Except.ok.inj hok
      exact Or.inr ⟨hnone, rfl⟩

/-- **Counting a vote** changes nothing once its ballot is certified. Before, the valid vote of a
member is put with the others, and with the certificate where that makes a quorum. -/
theorem addVote_ok {scheme : Scheme} {committee : Committee} {vote : Vote} {outcome : VoteOutcome}
    (hok : c.addVote scheme committee vote = .ok (outcome, c')) :
    outcome = .alreadyCertified ∧ c' = c ∨
      ∃ t, c.tally? vote.ballot.view vote.ballot.phase = some t ∧ t.certificate = none ∧
        t.target = vote.ballot ∧ vote.stamp.signer ∈ committee.members ∧ scheme.voteValid vote ∧
        ∃ counted : Tally, c' = c.putTally counted ∧ counted.target = t.target ∧
          counted.votes = t.votes.insert vote.stamp.signer vote.stamp ∧
          ((∀ cert, outcome ≠ .certified cert) ∨ committee.quorum ≤ counted.votes.size ∧
            outcome = .certified (toCertificate committee counted) ∧
              counted.certificate.isSome) := by
  rw [addVote] at hok
  split at hok
  · cases hok
  next hmember =>
  split at hok
  · cases hok
  next hvalid =>
  have hvalid : scheme.voteValid vote := by simpa using hvalid
  split at hok
  · cases hok
  next t ht =>
  split at hok
  · obtain ⟨rfl, rfl⟩ := Prod.mk.inj (Except.ok.inj hok)
    exact Or.inl ⟨rfl, rfl⟩
  next hopen =>
  have hopen : t.certificate = none := by simpa using hopen
  split at hok
  · cases hok
  next htarget =>
  split at hok
  · cases hok
  refine Or.inr ⟨t, ht, hopen, not_not.mp htarget, not_not.mp hmember, hvalid, ?_⟩
  simp only at hok
  split at hok
  · obtain ⟨rfl, rfl⟩ := Prod.mk.inj (Except.ok.inj hok)
    exact ⟨_, rfl, rfl, rfl, Or.inl fun _ => VoteOutcome.noConfusion⟩
  · next hquorum =>
      obtain ⟨rfl, rfl⟩ := Prod.mk.inj (Except.ok.inj hok)
      exact ⟨_, rfl, rfl, rfl, Or.inr ⟨Nat.not_lt.mp hquorum, rfl, rfl⟩⟩

/-- A certificate that a vote completes is one for the ballot voted on. -/
theorem ballot_of_addVote {scheme : Scheme} {committee : Committee} {vote : Vote}
    {cert : Certificate} (hok : c.addVote scheme committee vote = .ok (.certified cert, c')) :
    cert.ballot = vote.ballot := by
  rcases addVote_ok hok with ⟨⟨⟩, -⟩ | ⟨t, -, -, htarget, -, -, counted, -, hsame, -, houtcome⟩
  rcases houtcome with hpending | ⟨-, hcertified, -⟩
  · exact absurd rfl (hpending cert)
  · obtain rfl := VoteOutcome.certified.inj hcertified
    exact hsame.trans htarget

end Collector

/-! ### The highest certificate -/

namespace Certificate

variable {a b c : Certificate}

/-- **The order of certificates**: by view, and within a view by phase. -/
theorem atMost_iff :
    a.atMost b ↔ a.view < b.view ∨ a.view = b.view ∧ a.phase.rank ≤ b.phase.rank := by
  simp [atMost]

/-- A certificate is at most itself. -/
theorem atMost_refl (a : Certificate) : a.atMost a := atMost_iff.mpr (Or.inr ⟨rfl, Nat.le_refl _⟩)

/-- The order of certificates is transitive, so that the highest of any number of them can be found
one by one. -/
theorem atMost_trans (h : a.atMost b) (h' : b.atMost c) : a.atMost c := by
  rw [atMost_iff] at h h' ⊢
  rcases h with hlt | ⟨heq, hle⟩
  · rcases h' with hlt' | ⟨heq', -⟩
    · exact Or.inl (UInt64.lt_trans hlt hlt')
    · exact Or.inl (heq' ▸ hlt)
  · rcases h' with hlt' | ⟨heq', hle'⟩
    · exact Or.inl (heq ▸ hlt')
    · exact Or.inr ⟨heq.trans heq', Nat.le_trans hle hle'⟩

/-- A certificate that does not come up to another one comes after it. -/
theorem atMost_of_not (h : ¬ a.atMost b) : b.atMost a := by
  rw [atMost_iff, not_or, UInt64.not_lt] at h
  rw [atMost_iff]
  rcases UInt64.lt_or_eq_of_le h.1 with hlt | heq
  · exact Or.inl hlt
  · refine Or.inr ⟨heq, Nat.le_of_lt (Nat.not_le.mp fun hle => h.2 ⟨heq.symm, hle⟩)⟩

end Certificate

namespace Collector

/-- **The latest certificate of a list** is one of them, and no other one exceeds it. -/
theorem latest_ok {certs : List Certificate} {best : Certificate} (h : latest certs = some best) :
    best ∈ certs ∧ ∀ cert ∈ certs, cert.atMost best := by
  cases certs with
  | nil => cases h
  | cons first rest =>
      obtain rfl := Option.some.inj h
      induction rest generalizing first with
      | nil => simp [Certificate.atMost_refl]
      | cons next rest ih =>
          rw [List.foldl_cons]
          -- The better of the first two goes on in their place.
          have hstep : first.atMost (if first.atMost next then next else first) ∧
              next.atMost (if first.atMost next then next else first) := by
            split
            · next hle => exact ⟨hle, next.atMost_refl⟩
            · next hnot => exact ⟨first.atMost_refl, Certificate.atMost_of_not hnot⟩
          obtain ⟨hmem, hmax⟩ := ih (if first.atMost next then next else first) rfl
          have hbest := hmax _ (List.mem_cons_self ..)
          refine ⟨?_, ?_⟩
          · rcases List.mem_cons.mp hmem with heq | hrest
            · rw [heq]
              split <;> simp
            · exact List.mem_cons_of_mem _ (List.mem_cons_of_mem _ hrest)
          · intro cert hcert
            rcases List.mem_cons.mp hcert with rfl | hcert
            · exact Certificate.atMost_trans hstep.1 hbest
            rcases List.mem_cons.mp hcert with rfl | hcert
            · exact Certificate.atMost_trans hstep.2 hbest
            · exact hmax cert (List.mem_cons_of_mem _ hcert)

/-- Where there are certificates there is a latest one. -/
theorem exists_latest {certs : List Certificate} {cert : Certificate} (h : cert ∈ certs) :
    ∃ best, latest certs = some best := by
  cases certs with
  | nil => cases h
  | cons first rest => exact ⟨_, rfl⟩

end Collector

/-! ### Sound ballots -/

/-- Each phase ranks one above the phase before it. -/
theorem Phase.rank_of_successor {phase next : Phase} (h : phase.successor = some next) :
    next.rank = phase.rank + 1 := by
  cases phase <;> cases h <;> rfl

/-- A phase that members vote in. -/
def Phase.Voted (phase : Phase) : Prop := phase = .prepare ∨ phase = .preCommit ∨ phase = .commit

/-- Nobody votes to enter a view. -/
theorem Phase.Voted.rank_pos {phase : Phase} (h : phase.Voted) : 0 < phase.rank := by
  rcases h with rfl | rfl | rfl <;> decide

/-- The last phase that is voted in is the commit. -/
theorem Phase.Voted.rank_le {phase : Phase} (h : phase.Voted) : phase.rank ≤ Phase.commit.rank := by
  rcases h with rfl | rfl | rfl <;> decide

/-- What follows a phase that is voted in is voted in too, unless it is the decision. -/
theorem Phase.Voted.successor {phase next : Phase} (h : phase.Voted)
    (hnext : phase.successor = some next) (hdecide : next ≠ .decide) : next.Voted := by
  rcases h with rfl | rfl | rfl
  · obtain rfl := Option.some.inj hnext
    exact Or.inr (Or.inl rfl)
  · obtain rfl := Option.some.inj hnext
    exact Or.inr (Or.inr rfl)
  · exact absurd (Option.some.inj hnext).symm hdecide

/-- The votes on a ballot are valid and genuine, and those of members. -/
structure Tally.Sound (ctx : Context) (genuine : Ballot → Seal → Prop) (t : Tally) : Prop where
  voted : t.target.phase.Voted
  votes : ∀ m s, t.votes.get? m = some s → s.signer = m ∧ m ∈ ctx.committee.members ∧
    ctx.scheme.sealValid t.target s ∧ genuine t.target s

namespace Collector

/-- **A sound collector.** Every tally is sound and in the place of its ballot, and all ballots of
a view are over the payload that its Prepare ballot was opened for. -/
structure Sound (ctx : Context) (genuine : Ballot → Seal → Prop) (c : Collector) : Prop where
  place : ∀ view phase t, c.tally? view phase = some t →
    t.target.view = view ∧ t.target.phase = phase
  payload : ∀ view phase t, c.tally? view phase = some t → c.opened view = some t.target.payload
  tallies : ∀ view phase t, c.tally? view phase = some t → t.Sound ctx genuine

variable {ctx : Context} {genuine : Ballot → Seal → Prop} {c c' : Collector}

/-- What is opened in one collector is opened in another. -/
def Keeps (c c' : Collector) : Prop := ∀ view payload, c.opened view = some payload →
  c'.opened view = some payload

/-- A collector keeps what it has opened. -/
theorem Keeps.refl (c : Collector) : c.Keeps c := fun _ _ h => h

/-- What is kept twice is kept: over any number of operations no ballot is opened anew for another
payload. -/
theorem Keeps.trans {c'' : Collector} (h : c.Keeps c') (h' : c'.Keeps c'') : c.Keeps c'' :=
  fun view payload hopened => h' view payload (h view payload hopened)

/-- A collector without ballots is sound. -/
theorem sound_empty : empty.Sound ctx genuine := by
  refine ⟨?_, ?_, ?_⟩
  · rintro _ _ _ ⟨⟩
  · rintro _ _ _ ⟨⟩
  · rintro _ _ _ ⟨⟩

/-- Only the ballots matter. -/
theorem Sound.congr (h : c.Sound ctx genuine)
    (heq : ∀ view phase, c'.tally? view phase = c.tally? view phase) :
    c'.Sound ctx genuine ∧ c.Keeps c' := by
  have hopened : ∀ view, c'.opened view = c.opened view := fun view => by
    rw [opened, heq, opened]
  refine ⟨⟨?_, ?_, ?_⟩, fun view payload hview => (hopened view).trans hview⟩
  · intro view phase t ht
    exact h.place view phase t (heq view phase ▸ ht)
  · intro view phase t ht
    rw [hopened]
    exact h.payload view phase t (heq view phase ▸ ht)
  · intro view phase t ht
    exact h.tallies view phase t (heq view phase ▸ ht)

/-- Forgetting views that are over keeps a collector sound. -/
theorem Sound.pruneBelow (h : c.Sound ctx genuine) (here : View) :
    (c.pruneBelow here).Sound ctx genuine := by
  have hsome : ∀ {view phase t}, (c.pruneBelow here).tally? view phase = some t →
      here ≤ view ∧ c.tally? view phase = some t := by
    intro view phase t ht
    rw [tally?_pruneBelow] at ht
    split at ht
    · next hle => exact ⟨hle, ht⟩
    · cases ht
  refine ⟨?_, ?_, ?_⟩
  · intro view phase t ht
    exact h.place view phase t (hsome ht).2
  · intro view phase t ht
    rw [opened_pruneBelow (hsome ht).1]
    exact h.payload view phase t (hsome ht).2
  · intro view phase t ht
    exact h.tallies view phase t (hsome ht).2

/-- A sound tally may be put where the view is opened for its payload, or as the ballot that
opens it. -/
theorem Sound.putTally (h : c.Sound ctx genuine) {t : Tally} (ht : t.Sound ctx genuine)
    (hopened : c.opened t.target.view = some t.target.payload ∨
      t.target.phase = .prepare ∧ c.opened t.target.view = none) :
    (c.putTally t).Sound ctx genuine ∧ c.Keeps (c.putTally t) ∧
      (c.putTally t).opened t.target.view = some t.target.payload := by
  have hkeeps : c.Keeps (c.putTally t) := by
    intro view payload hview
    rw [opened_putTally]
    split
    · next hplace =>
        obtain ⟨rfl, -⟩ := hplace
        rcases hopened with hsame | ⟨-, hnone⟩
        · exact hsame.symm.trans hview
        · cases hnone.symm.trans hview
    · exact hview
  have hopen : (c.putTally t).opened t.target.view = some t.target.payload := by
    rcases hopened with hsame | ⟨hphase, -⟩
    · exact hkeeps _ _ hsame
    · rw [opened_putTally, if_pos ⟨rfl, hphase.symm⟩]
  have hsplit : ∀ {view phase t'}, (c.putTally t).tally? view phase = some t' →
      (t.target.view = view ∧ t.target.phase = phase ∧ t = t') ∨
        c.tally? view phase = some t' := by
    intro view phase t' ht'
    rw [tally?_putTally] at ht'
    split at ht'
    · next hplace => exact Or.inl ⟨hplace.1.symm, hplace.2.symm, Option.some.inj ht'⟩
    · exact Or.inr ht'
  refine ⟨⟨?_, ?_, ?_⟩, hkeeps, hopen⟩
  · intro view phase t' ht'
    rcases hsplit ht' with ⟨rfl, rfl, rfl⟩ | hold
    · exact ⟨rfl, rfl⟩
    · exact h.place view phase t' hold
  · intro view phase t' ht'
    rcases hsplit ht' with ⟨rfl, rfl, rfl⟩ | hold
    · exact hopen
    · exact hkeeps _ _ (h.payload view phase t' hold)
  · intro view phase t' ht'
    rcases hsplit ht' with ⟨rfl, rfl, rfl⟩ | hold
    · exact ht
    · exact h.tallies view phase t' hold

/-- Opening a ballot opens its view for its payload. -/
theorem Sound.openBallot (h : c.Sound ctx genuine) {target : Ballot}
    (hok : c.openBallot target = .ok c') (hvoted : target.phase.Voted)
    (hopened : target.phase = .prepare ∨ c.opened target.view = some target.payload) :
    c'.Sound ctx genuine ∧ c.Keeps c' ∧ c'.opened target.view = some target.payload := by
  rcases openBallot_ok hok with ⟨⟨t, ht, rfl⟩, rfl⟩ | ⟨hnone, rfl⟩
  · exact ⟨h, Keeps.refl _, h.payload _ _ t ht⟩
  · have hfresh : Tally.Sound ctx genuine ⟨target, ∅, none⟩ :=
      ⟨hvoted, fun m s hs => by cases hs⟩
    refine h.putTally hfresh ?_
    rcases hopened with hphase | hsame
    · refine Or.inr ⟨hphase, ?_⟩
      rw [hphase] at hnone
      rw [opened, hnone]
      rfl
    · exact Or.inl hsame

/-! ### Certificates from votes -/

/-- The signers of the votes that are found for some members are those members. -/
theorem map_signer_filterMap {votes : Table MemberId Seal}
    (hvotes : ∀ m s, votes.get? m = some s → s.signer = m) (ms : List MemberId) :
    (ms.filterMap votes.get?).map Seal.signer = ms.filter votes.contains := by
  induction ms with
  | nil => rfl
  | cons m ms ih =>
      cases hm : votes.get? m with
      | none =>
          rw [List.filterMap_cons_none hm, List.filter_cons_of_neg (by simp [Table.contains, hm])]
          exact ih
      | some s =>
          rw [List.filterMap_cons_some hm, List.filter_cons_of_pos (by simp [Table.contains, hm]),
            List.map_cons, ih, hvotes m s hm]

/-- **A quorum of sound votes makes a trusted certificate.** -/
theorem trusted_toCertificate {t : Tally} (h : t.Sound ctx genuine)
    (hquorum : ctx.committee.quorum ≤ t.votes.size) :
    Trusted ctx genuine (toCertificate ctx.committee t) := by
  have hfound : ∀ s ∈ (toCertificate ctx.committee t).seals,
      ∃ m, t.votes.get? m = some s := by
    intro s hs
    obtain ⟨m, -, hm⟩ := List.mem_filterMap.mp hs
    exact ⟨m, hm⟩
  have hsigners : (toCertificate ctx.committee t).seals.map Seal.signer =
      ctx.committee.members.filter t.votes.contains :=
    map_signer_filterMap (fun m s hs => (h.votes m s hs).1) _
  have hsize : t.votes.size ≤ (toCertificate ctx.committee t).seals.length := by
    have hsubset : t.votes.keys ⊆ ctx.committee.members.filter t.votes.contains := by
      intro m hm
      have hcontains : t.votes.contains m := (Table.contains_iff t.votes m).mpr hm
      obtain ⟨s, hs⟩ := Option.isSome_iff_exists.mp hcontains
      exact List.mem_filter.mpr ⟨(h.votes m s hs).2.1, hcontains⟩
    have hle := (List.subperm_of_subset t.votes.nodup_keys hsubset).length_le
    rw [← hsigners, List.length_map] at hle
    simpa [Table.size] using hle
  refine ⟨Committee.verify_eq_ok.mpr (Or.inr ⟨?_, ?_, ?_, hquorum.trans hsize⟩), ?_⟩
  · intro s hs
    obtain ⟨m, hm⟩ := hfound s hs
    obtain ⟨rfl, hmember, -⟩ := h.votes m s hm
    exact hmember
  · intro s hs
    obtain ⟨m, hm⟩ := hfound s hs
    exact (h.votes m s hm).2.2.1
  · rw [hsigners]
    exact ctx.committee.nodup.filter _
  · intro s hs _
    obtain ⟨m, hm⟩ := hfound s hs
    exact (h.votes m s hm).2.2.2

/-- **Counting a vote** keeps the collector sound; a certificate that comes of it is trusted and
one for the ballot voted on. -/
theorem Sound.addVote (h : c.Sound ctx genuine) {vote : Vote} {outcome : VoteOutcome}
    (hok : c.addVote ctx.scheme ctx.committee vote = .ok (outcome, c'))
    (hgenuine : ctx.scheme.voteValid vote → genuine vote.ballot vote.stamp) :
    c'.Sound ctx genuine ∧ c.Keeps c' ∧ ∀ cert, outcome = .certified cert →
      Trusted ctx genuine cert ∧ cert.ballot = vote.ballot ∧ vote.ballot.phase.Voted ∧
        c'.opened vote.ballot.view = some vote.ballot.payload := by
  rcases addVote_ok hok with ⟨rfl, rfl⟩ |
    ⟨t, ht, -, htarget, hmember, hvalid, counted, rfl, hsame, hvotes, houtcome⟩
  · exact ⟨h, Keeps.refl _, fun _ hcert => by cases hcert⟩
  have htally := h.tallies _ _ t ht
  have hopened : c.opened counted.target.view = some counted.target.payload := by
    rw [hsame, (h.place _ _ t ht).1]
    exact h.payload _ _ t ht
  have hcounted : counted.Sound ctx genuine := by
    refine ⟨hsame ▸ htally.voted, fun m s hs => ?_⟩
    rw [hvotes, Table.get?_insert] at hs
    rw [hsame]
    split at hs
    · next hm =>
        obtain rfl := Option.some.inj hs
        subst hm
        rw [htarget]
        exact ⟨rfl, hmember, hvalid, hgenuine hvalid⟩
    · exact htally.votes m s hs
  obtain ⟨hsound, hkeeps, hopened'⟩ := h.putTally hcounted (Or.inl hopened)
  refine ⟨hsound, hkeeps, fun cert hcert => ?_⟩
  rcases houtcome with hpending | ⟨hquorum, hcertified, -⟩
  · exact absurd hcert (hpending cert)
  · obtain rfl := VoteOutcome.certified.inj (hcert.symm.trans hcertified)
    have hballot : counted.target = vote.ballot := hsame.trans htarget
    exact ⟨trusted_toCertificate hcounted hquorum, hballot, hballot ▸ hcounted.voted,
      hballot ▸ hopened'⟩

end Collector

/-! ### What a leader says -/

namespace Leader

variable {ctx : Context} {genuine : Ballot → Seal → Prop} {c c' : Collector}

/-- **A statement on a certificate** that the leader of a view formed: on the phase after it, over
the payload that the view is opened for. -/
structure Announces (ctx : Context) (genuine : Ballot → Seal → Prop) (c : Collector) (here : View)
    (st : Statement) : Prop where
  leads : ctx.leads here
  view : st.view = here
  phase : st.phase.predecessor = some st.justify.phase
  voted : st.justify.phase.Voted
  justify_view : st.justify.view = st.view
  justify_payload : st.justify.payload = st.payload
  trusted : Trusted ctx genuine st.justify
  opened : c.opened here = some st.payload

/-- What is announced is on a later phase than Prepare. -/
theorem Announces.ne_prepare {here : View} {st : Statement} (h : Announces ctx genuine c here st) :
    st.phase ≠ .prepare := by
  intro hprepare
  have hphase := h.phase
  rw [hprepare] at hphase
  rcases h.voted with hvoted | hvoted | hvoted <;> rw [hvoted] at hphase <;> cases hphase

/-- A slot is one of the current view, which the member leads and has not proposed in. Where it asks
for fresh data, its certificate is not for a payload that extends the committed chain. -/
theorem slot?_spec {state : ReplicaState} {slot : Slot} (h : slot? ctx c state = some slot) :
    slot.view = state.view ∧ ctx.leads state.view ∧ state.phase = .newView ∧
      (slot.reproposal = some slot.justify.payload ∨ slot.reproposal = none ∧
        (slot.justify.phase = .prepare → slot.justify.payload.parent ≠ state.committed)) := by
  rw [slot?] at h
  split at h
  · cases h
  next hturn =>
  simp only [Bool.or_eq_true, Bool.not_eq_true', decide_eq_true_eq, not_or, Bool.not_eq_false,
    not_not] at hturn
  split at h
  · cases h
  obtain rfl := Option.some.inj h
  refine ⟨rfl, hturn.1, hturn.2, ?_⟩
  simp only
  split
  · exact Or.inl rfl
  · next hagain =>
      refine Or.inr ⟨rfl, fun hphase hparent => hagain ?_⟩
      simp [Certificate.isGenesis, hphase, hparent]

/-- An announcement that is recorded has passed the checks, and counts for the view it names. -/
theorem onNewView_ok {here : View} {msg : SignedStatement} {entry : Entry}
    (hok : onNewView ctx c here msg = .ok (entry, c')) :
    checkNewView ctx here msg = .ok () ∧
      entry = ⟨msg.body.view, entry.count, decide (ctx.committee.quorum ≤ entry.count)⟩ ∧
      c.addNewView ctx.committee msg.body.view msg.signer msg.body.justify =
        .ok (entry.count, c') := by
  simp only [onNewView, bind_eq_ok] at hok
  obtain ⟨⟨⟩, hcheck, ⟨count, votes⟩, hadd, hok⟩ := hok
  obtain ⟨rfl, rfl⟩ := Prod.mk.inj (Except.ok.inj hok)
  exact ⟨hcheck, rfl, hadd⟩

/-- Entering a view changes no ballot. -/
theorem onNewView_spec {here : View} {msg : SignedStatement} {entry : Entry}
    (hok : onNewView ctx c here msg = .ok (entry, c')) (view : View) (phase : Phase) :
    c'.tally? view phase = c.tally? view phase := by
  obtain ⟨-, -, hadd⟩ := onNewView_ok hok
  exact Collector.tally?_addNewView hadd view phase

/-- A proposal is made for its slot, under the own seal, with its ballot opened. -/
theorem propose_ok {slot : Slot} {committed : Digest} {data : Bytes} {prepare : SignedStatement}
    (hok : propose ctx c slot committed data = .ok (prepare, c')) :
    prepare.body = ⟨slot.view, .prepare, slot.reproposal.getD ⟨committed, data⟩, slot.justify⟩ ∧
      prepare.signer = ctx.me ∧
      c.openBallot ⟨.prepare, slot.view, prepare.body.payload⟩ = .ok c' := by
  obtain ⟨votes, hopen, hok⟩ := bind_eq_ok.mp hok
  obtain ⟨rfl, rfl⟩ := Prod.mk.inj (Except.ok.inj hok)
  exact ⟨rfl, rfl, hopen⟩

/-- A proposal opens its view for its payload. -/
theorem propose_spec (h : c.Sound ctx genuine) {slot : Slot} {committed : Digest} {data : Bytes}
    {prepare : SignedStatement} (hok : propose ctx c slot committed data = .ok (prepare, c')) :
    c'.Sound ctx genuine ∧ c.Keeps c' ∧ prepare.body =
      ⟨slot.view, .prepare, slot.reproposal.getD ⟨committed, data⟩, slot.justify⟩ ∧
      c'.opened slot.view = some prepare.body.payload := by
  obtain ⟨hbody, -, hopen⟩ := propose_ok hok
  obtain ⟨hsound, hkeeps, hopened⟩ := h.openBallot hopen (Or.inl rfl) (Or.inl rfl)
  exact ⟨hsound, hkeeps, hbody, hopened⟩

/-- Following a certificate says that the next phase is reached, with its ballot opened. Nothing
follows the decision, and it is not voted on. -/
theorem follow_ok {cert : Certificate} {said : Option SignedStatement}
    (hok : follow ctx c cert = .ok (said, c')) :
    said = none ∧ c' = c ∨ ∃ phase, cert.phase.successor = some phase ∧
      said = some (ctx.sign ⟨cert.view, phase, cert.payload, cert⟩) ∧
      (phase = .decide ∧ c' = c ∨
        phase ≠ .decide ∧ c.openBallot ⟨phase, cert.view, cert.payload⟩ = .ok c') := by
  rw [follow] at hok
  split at hok
  · obtain ⟨rfl, rfl⟩ := Prod.mk.inj (Except.ok.inj hok)
    exact Or.inl ⟨rfl, rfl⟩
  · next phase hnext =>
      refine Or.inr ⟨phase, hnext, ?_⟩
      simp only at hok
      split at hok
      · next hdecide =>
          obtain ⟨rfl, rfl⟩ := Prod.mk.inj (Except.ok.inj hok)
          exact ⟨rfl, Or.inl ⟨hdecide, rfl⟩⟩
      · next hdecide =>
          obtain ⟨votes, hopen, hok⟩ := bind_eq_ok.mp hok
          obtain ⟨rfl, rfl⟩ := Prod.mk.inj (Except.ok.inj hok)
          exact ⟨rfl, Or.inr ⟨hdecide, hopen⟩⟩

/-- A vote is refused, or counted in the current view; where it completes a certificate, that is
followed. -/
theorem onVote_ok {here : View} {vote : Vote} {said : Except Error (Option SignedStatement)}
    (hok : onVote ctx c here vote = (said, c')) :
    (∀ next, said ≠ .ok (some next)) ∧ c' = c ∨
      ctx.leads here ∧ vote.ballot.view = here ∧ ∃ outcome counted,
        c.addVote ctx.scheme ctx.committee vote = .ok (outcome, counted) ∧
        ((∀ next, said ≠ .ok (some next)) ∧ c' = counted ∨ ∃ cert answer,
          outcome = .certified cert ∧ follow ctx counted cert = .ok (answer, c') ∧
            said = .ok answer) := by
  rw [onVote] at hok
  split at hok
  · obtain ⟨rfl, rfl⟩ := Prod.mk.inj hok
    exact Or.inl ⟨by simp, rfl⟩
  next hleads =>
  have hleads : ctx.leads vote.ballot.view := by simpa using hleads
  split at hok
  · obtain ⟨rfl, rfl⟩ := Prod.mk.inj hok
    exact Or.inl ⟨by simp, rfl⟩
  next hview =>
  obtain rfl := not_not.mp hview
  split at hok
  · obtain ⟨rfl, rfl⟩ := Prod.mk.inj hok
    exact Or.inl ⟨by simp, rfl⟩
  · next cert counted hadd =>
      refine Or.inr ⟨hleads, rfl, _, counted, hadd, ?_⟩
      split at hok
      · obtain ⟨rfl, rfl⟩ := Prod.mk.inj hok
        exact Or.inl ⟨by simp, rfl⟩
      · next answer votes hfollow =>
          obtain ⟨rfl, rfl⟩ := Prod.mk.inj hok
          exact Or.inr ⟨cert, answer, rfl, hfollow, rfl⟩
  · next outcome counted _ hadd =>
      obtain ⟨rfl, rfl⟩ := Prod.mk.inj hok
      exact Or.inr ⟨hleads, rfl, outcome, _, hadd, Or.inl ⟨by simp, rfl⟩⟩

/-- What counting a vote and opening ballots keep is kept by all that a leader does on the vote. -/
theorem kept_of_onVote {P : Collector → Prop} {here : View} {vote : Vote}
    {said : Except Error (Option SignedStatement)}
    (count : ∀ c c' outcome,
      c.addVote ctx.scheme ctx.committee vote = .ok (outcome, c') → P c → P c')
    (poll : ∀ c c' target, c.openBallot target = .ok c' → P c → P c')
    (hok : onVote ctx c here vote = (said, c')) (hP : P c) : P c' := by
  rcases onVote_ok hok with ⟨-, rfl⟩ | ⟨-, -, outcome, counted, hadd, hanswer⟩
  · exact hP
  have hcounted : P counted := count _ _ _ hadd hP
  rcases hanswer with ⟨-, rfl⟩ | ⟨cert, answer, -, hfollow, -⟩
  · exact hcounted
  rcases follow_ok hfollow with ⟨-, rfl⟩ | ⟨phase, -, -, ⟨-, rfl⟩ | ⟨-, hopen⟩⟩
  · exact hcounted
  · exact hcounted
  · exact poll _ _ _ hopen hcounted

/-- Following a trusted certificate opens the next ballot on its payload, and announces it. -/
theorem follow_spec (h : c.Sound ctx genuine) {cert : Certificate}
    {said : Option SignedStatement} (hok : follow ctx c cert = .ok (said, c'))
    (hleads : ctx.leads cert.view) (hvoted : cert.phase.Voted) (htrusted : Trusted ctx genuine cert)
    (hopened : c.opened cert.view = some cert.payload) :
    c'.Sound ctx genuine ∧ c.Keeps c' ∧
      ∀ next, said = some next → Announces ctx genuine c' cert.view next.body := by
  rcases follow_ok hok with ⟨rfl, rfl⟩ | ⟨phase, hnext, rfl, hvotes⟩
  · exact ⟨h, Collector.Keeps.refl _, fun _ hsaid => by cases hsaid⟩
  have hopen : c'.Sound ctx genuine ∧ c.Keeps c' := by
    rcases hvotes with ⟨-, rfl⟩ | ⟨hdecide, hopen⟩
    · exact ⟨h, Collector.Keeps.refl _⟩
    · obtain ⟨hsound, hkeeps, -⟩ :=
        h.openBallot hopen (hvoted.successor hnext hdecide) (Or.inr hopened)
      exact ⟨hsound, hkeeps⟩
  obtain ⟨hsound, hkeeps⟩ := hopen
  refine ⟨hsound, hkeeps, ?_⟩
  rintro next ⟨⟩
  exact ⟨hleads, rfl, Phase.predecessor_eq_some_iff.mpr hnext, hvoted, rfl, rfl, htrusted,
    hkeeps _ _ hopened⟩

/-- **Counting a vote** keeps the collector sound, and what it makes the leader say is justified. -/
theorem onVote_spec (h : c.Sound ctx genuine) {here : View} {vote : Vote}
    {said : Except Error (Option SignedStatement)} (hok : onVote ctx c here vote = (said, c'))
    (hgenuine : ctx.scheme.voteValid vote → genuine vote.ballot vote.stamp) :
    c'.Sound ctx genuine ∧ c.Keeps c' ∧
      ∀ next, said = .ok (some next) → Announces ctx genuine c' here next.body := by
  rcases onVote_ok hok with ⟨hnone, rfl⟩ | ⟨hleads, rfl, outcome, counted, hadd, hanswer⟩
  · exact ⟨h, Collector.Keeps.refl _, fun next hsaid => absurd hsaid (hnone next)⟩
  obtain ⟨hsound, hkeeps, hcert⟩ := h.addVote hadd hgenuine
  rcases hanswer with ⟨hnone, rfl⟩ | ⟨cert, answer, rfl, hfollow, rfl⟩
  · exact ⟨hsound, hkeeps, fun next hsaid => absurd hsaid (hnone next)⟩
  obtain ⟨htrusted, hballot, hvoted, hopened⟩ := hcert cert rfl
  have hview : cert.view = vote.ballot.view := congrArg Ballot.view hballot
  have hphase : cert.phase.Voted := by
    rw [Certificate.phase, hballot]
    exact hvoted
  have hopen : counted.opened cert.view = some cert.payload := by
    rw [hview, Certificate.payload, hballot]
    exact hopened
  obtain ⟨hsound', hkeeps', hsaid⟩ :=
    follow_spec hsound hfollow (hview ▸ hleads) hphase htrusted hopen
  refine ⟨hsound', hkeeps.trans hkeeps', fun next hnext => ?_⟩
  rw [← hview]
  exact hsaid next (Except.ok.inj hnext)

end Leader

end HotStuff
