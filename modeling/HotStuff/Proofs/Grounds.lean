import HotStuff.Proofs.Execution
import HotStuff.Proofs.Voting

/-!
# The Grounds of Votes and Commits

What a member does rests on certificates: a vote in a later phase on one of the phase before, a
commit on a Commit certificate, a proposal it votes for on what it had committed. This module reads
these grounds off the course of one member. It does not yet say what the members have in common.

The last view is special, since nothing follows it: a decision there would leave the member in its
view. No proposal is accepted in it, so with faulty members too few to form a certificate there is
no such decision, and the theorems here that need it take it as a hypothesis.

## Main results

* `Course.accepted`: a vote in Prepare goes back to an accepted proposal.
* `Course.locking`: a member that has voted in Commit stays locked on that view or a later one.
* `Course.held_leads`: the parent of a held proposal leads to the committed digest through decisions
  of earlier views.
* `Course.pairwise_committed`: a committed digest that moves forward in every turn never goes back.
-/

namespace HotStuff

/-- **A certified ballot**: a quorum has sealed it, with genuine seals only. -/
def Evidence.Certified (ev : Evidence) (c : Committee) (scheme : Scheme) (b : Ballot) : Prop :=
  ∃ cert : Certificate, cert.ballot = b ∧ c.Certifies scheme cert ∧ ∀ s ∈ cert.seals, ev.voted b s

/-- A payload that was decided in a view before `view`. -/
def Evidence.DecidedBefore (ev : Evidence) (c : Committee) (scheme : Scheme) (view : View)
    (p : Payload) : Prop :=
  ∃ v, v < view ∧ ev.Certified c scheme ⟨.commit, v, p⟩

variable {ctx : Context} {ev : Evidence}

/-- A trusted certificate other than the genesis certificate certifies its ballot. -/
theorem Trusted.certified {cert : Certificate} (h : Trusted ctx ev.voted cert)
    (hphase : cert.phase ≠ .newView) : ev.Certified ctx.committee ctx.scheme cert.ballot := by
  rcases Committee.verify_eq_ok.mp h.valid with rfl | hcertifies
  · exact absurd rfl hphase
  · exact ⟨cert, rfl, hcertifies, fun s hs => h.genuine s hs (hcertifies.valid s hs)⟩

/-- What was decided before a view was decided before any later one. -/
theorem Evidence.DecidedBefore.mono {c : Committee} {scheme : Scheme} {v w : View} {p : Payload}
    (h : ev.DecidedBefore c scheme v p) (hle : v ≤ w) : ev.DecidedBefore c scheme w p := by
  obtain ⟨u, hu, hcertified⟩ := h
  exact ⟨u, UInt64.lt_of_lt_of_le hu hle, hcertified⟩

variable {σ : Type} {s₀ s : ReplicaState} {h : List (Turn σ)} {t : Turn σ}

namespace Course

/-! ### Turns of a course -/

/-- The course up to a turn, which is lawful. -/
theorem split {h₁ h₂ : List (Turn σ)} (hcourse : Course ctx ev s₀ (h₁ ++ t :: h₂) s) :
    Course ctx ev s₀ h₁ t.before.replica.state ∧ t.Lawful ctx ev := by
  generalize hsplit : h₁ ++ t :: h₂ = h at hcourse
  induction hcourse generalizing h₂ with
  | boot => exact absurd (List.append_eq_nil_iff.mp hsplit).2 (List.cons_ne_nil _ _)
  | turn hcourse hlawful ih =>
      rcases concat_eq_append_cons hsplit.symm with ⟨rfl, rfl, -⟩ | ⟨rest, -, rfl⟩
      · exact ⟨hcourse, hlawful⟩
      · exact ih rfl
  | resume _ _ ih => exact ih hsplit

/-- Every turn of a course is lawful. -/
theorem lawful (hcourse : Course ctx ev s₀ h s) (ht : t ∈ h) : t.Lawful ctx ev := by
  obtain ⟨h₁, h₂, rfl⟩ := List.append_of_mem ht
  exact hcourse.split.2

/-- No turn ends in a later view than the course. -/
theorem view_le (hcourse : Course ctx ev s₀ h s) :
    ∀ t ∈ h, t.after.replica.state.view ≤ s.view := by
  induction hcourse with
  | boot => simp
  | turn _ hlawful ih =>
      intro t ht
      rcases List.mem_append.mp ht with ht | ht
      · exact UInt64.le_trans (ih t ht) hlawful.view_le
      · obtain rfl := List.mem_singleton.mp ht
        exact UInt64.le_refl _
  | resume _ hlater ih =>
      exact fun t ht => UInt64.le_trans (ih t ht) (UInt64.le_of_lt hlater)

/-- **A committed digest that moves forward** in every turn has moved forward between any two. -/
theorem pairwise_committed {on : Payload → Prop} (hcourse : Course ctx ev s₀ h s)
    (hforward : ∀ t ∈ h, ctx.scheme.Leads on t.before.replica.state.committed
      t.after.replica.state.committed) :
    (h.map (fun t => t.before.replica.state.committed) ++ [s.committed]).Pairwise
      (ctx.scheme.Leads on) := by
  induction hcourse with
  | boot => exact List.pairwise_singleton _ _
  | @turn h t hcourse _ ih =>
      have hpairwise := ih fun t' ht' => hforward t' (List.mem_append_left _ ht')
      have hlast := hforward t (List.mem_append_right _ (List.mem_singleton_self t))
      rw [List.map_append, List.map_singleton]
      refine List.pairwise_append.mpr ⟨hpairwise, List.pairwise_singleton _ _, ?_⟩
      intro c hc d hd
      obtain rfl := List.mem_singleton.mp hd
      rcases List.mem_append.mp hc with hc | hc
      · obtain ⟨-, -, hbefore⟩ := List.pairwise_append.mp hpairwise
        exact (hbefore c hc _ (List.mem_singleton_self _)).trans hlast
      · exact List.mem_singleton.mp hc ▸ hlast
  | resume _ _ ih => exact ih hforward

/-! ### Votes -/

/-- **The ground of a vote in Prepare**: the turn that accepted the proposal, and the history
before it, in which the votes of all earlier views were cast. -/
structure Accepted (ctx : Context) (ev : Evidence) (s₀ : ReplicaState) (h : List (Turn σ))
    (b : Ballot) (h₁ : List (Turn σ)) (t : Turn σ) (st : Statement) : Prop where
  course : Course ctx ev s₀ h₁ t.before.replica.state
  mem : t ∈ h
  stated : t.Stated ctx ev st
  accepts : t.before.replica.state.Accepts ctx (Trusted ctx ev.voted) st
  ballot : b = ⟨.prepare, st.view, st.payload⟩
  voted : .vote b ∈ t.deeds
  before : ∀ a ∈ ballotsOf h₁, a ∈ ballotsOf h
  earlier : ∀ a ∈ ballotsOf h, a.view < b.view → a ∈ ballotsOf h₁

/-- A vote in Prepare goes back to an accepted proposal. -/
theorem accepted (hcourse : Course ctx ev s₀ h s) (hphase : s₀.phase = .newView) {b : Ballot}
    (hb : b ∈ ballotsOf h) (hprepare : b.phase = .prepare) :
    ∃ h₁ t st, Accepted ctx ev s₀ h b h₁ t st := by
  obtain ⟨t, ht, hvote⟩ := mem_ballotsOf.mp hb
  have hordered := (hcourse.voting hphase).ordered
  obtain ⟨h₁, h₂, rfl⟩ := List.append_of_mem ht
  obtain ⟨hbefore, hlawful⟩ := hcourse.split
  obtain ⟨st, hstated, haccepts, hballot, hdeeds⟩ := hlawful.proposal_of_vote hvote hprepare
  refine ⟨h₁, t, st, hbefore, ht, hstated, haccepts, hballot, hvote, ?_, ?_⟩
  · intro a ha
    rw [ballotsOf_append]
    exact List.mem_append_left _ ha
  have hballots : ballotsOf (h₁ ++ t :: h₂) = ballotsOf h₁ ++ b :: ballotsOf h₂ := by
    rw [ballotsOf_append, ballotsOf_cons, hdeeds]
    rfl
  rw [hballots] at hordered ⊢
  intro a ha hlt
  rcases List.mem_append.mp ha with ha | ha
  · exact ha
  · rcases List.mem_cons.mp ha with rfl | ha
    · exact absurd hlt (UInt64.lt_irrefl _)
    · have hprecedes := (List.pairwise_cons.mp (List.pairwise_append.mp hordered).2.1).1 a ha
      rcases hprecedes with hlt' | ⟨heq, -⟩
      · exact absurd (UInt64.lt_trans hlt hlt') (UInt64.lt_irrefl _)
      · exact absurd heq.symm (UInt64.ne_of_lt hlt)

/-- A vote in a later phase rests on a certificate of the phase before it. -/
theorem certified_of_vote (hcourse : Course ctx ev s₀ h s) {b : Ballot} (hb : b ∈ ballotsOf h)
    {phase : Phase} (hlater : b.phase.predecessor = some phase) (hphase : phase ≠ .newView) :
    ev.Certified ctx.committee ctx.scheme ⟨phase, b.view, b.payload⟩ := by
  obtain ⟨t, ht, hvote⟩ := mem_ballotsOf.mp hb
  have hnot : b.phase ≠ .prepare := by
    intro hprepare
    rw [hprepare] at hlater
    exact hphase (Option.some.inj hlater).symm
  obtain ⟨cert, phase', htrusted, hlater', hcert⟩ := (hcourse.lawful ht).cert_of_vote hvote hnot
  obtain rfl := Option.some.inj (hlater.symm.trans hlater')
  rw [← hcert]
  exact htrusted.certified (by rw [Certificate.phase, hcert]; exact hphase)

/-- What is executed was decided. -/
theorem certified_of_executed (hcourse : Course ctx ev s₀ h s) {p : Payload}
    (hp : p ∈ executedOf h) : ∃ v, ev.Certified ctx.committee ctx.scheme ⟨.commit, v, p⟩ := by
  obtain ⟨t, ht, hexecuted⟩ := mem_executedOf.mp hp
  obtain ⟨cert, htrusted, hphase, rfl⟩ := (hcourse.lawful ht).cert_of_execute hexecuted
  have hcertified := htrusted.certified (by simp [hphase])
  exact ⟨cert.view, hphase ▸ hcertified⟩

/-! ### The lock -/

/-- **The state of the lock**: it is on a certificate that the member voted in Commit for, and no
view that it voted in Commit in is later. -/
structure Locking (ctx : Context) (ev : Evidence) (ballots : List Ballot) (s : ReplicaState) :
    Prop where
  grounded : ∀ lock, s.locked = some lock → Trusted ctx ev.voted lock ∧ lock.phase = .preCommit ∧
    ⟨.commit, lock.view, lock.payload⟩ ∈ ballots
  covers : ∀ b ∈ ballots, b.phase = .commit → ∃ lock, s.locked = some lock ∧ b.view ≤ lock.view

/-- The newer of two certificates is the one held if that is of a later view, and the one offered
otherwise. -/
theorem newer_cases (held : Option Certificate) (offered : Certificate) :
    (∃ lock, held = some lock ∧ offered.view < lock.view ∧
        ReplicaState.newer held offered = lock) ∨
      (∀ lock, held = some lock → lock.view ≤ offered.view) ∧
        ReplicaState.newer held offered = offered := by
  cases held with
  | none => exact Or.inr ⟨by simp, rfl⟩
  | some lock =>
      by_cases hlt : offered.view < lock.view
      · exact Or.inl ⟨lock, rfl, hlt, if_pos hlt⟩
      · refine Or.inr ⟨?_, if_neg hlt⟩
        rintro _ ⟨⟩
        exact UInt64.not_lt.mp hlt

namespace Locking

variable {ballots : List Ballot} {s' : ReplicaState}

/-- Votes in other phases do not concern the lock. -/
theorem congr {votes : List Ballot} (hlocking : Locking ctx ev ballots s)
    (hlocked : s'.locked = s.locked) (hvotes : ∀ b ∈ votes, b.phase ≠ .commit) :
    Locking ctx ev (ballots ++ votes) s' := by
  refine ⟨?_, ?_⟩
  · intro lock hlock
    obtain ⟨htrusted, hphase, hvoted⟩ := hlocking.grounded lock (hlocked ▸ hlock)
    exact ⟨htrusted, hphase, List.mem_append_left _ hvoted⟩
  · intro b hb hphase
    rw [hlocked]
    rcases List.mem_append.mp hb with hb | hb
    · exact hlocking.covers b hb hphase
    · exact absurd hphase (hvotes b hb)

/-- The vote in Commit takes the lock to its certificate, unless that is on a later view. -/
theorem lock (hlocking : Locking ctx ev ballots s) {cert : Certificate} {payload : Payload}
    (hcert : cert.ballot = ⟨.preCommit, s.view, payload⟩) (htrusted : Trusted ctx ev.voted cert) :
    Locking ctx ev (ballots ++ [⟨.commit, s.view, payload⟩]) (s.lock cert) := by
  have hview : cert.view = s.view := congrArg Ballot.view hcert
  rcases newer_cases s.locked cert with ⟨lock, hheld, hlt, heq⟩ | ⟨hle, heq⟩
  · have hlocked : (s.lock cert).locked = some lock := congrArg some heq
    refine ⟨?_, ?_⟩
    · intro lock' hlock'
      obtain rfl := Option.some.inj (hlocked.symm.trans hlock')
      obtain ⟨htrusted', hphase, hvoted⟩ := hlocking.grounded lock hheld
      exact ⟨htrusted', hphase, List.mem_append_left _ hvoted⟩
    · intro b hb hphase
      refine ⟨lock, hlocked, ?_⟩
      rcases List.mem_append.mp hb with hb | hb
      · obtain ⟨lock', hheld', hle⟩ := hlocking.covers b hb hphase
        obtain rfl := Option.some.inj (hheld.symm.trans hheld')
        exact hle
      · obtain rfl := List.mem_singleton.mp hb
        exact UInt64.le_of_lt (hview ▸ hlt)
  · have hlocked : (s.lock cert).locked = some cert := congrArg some heq
    refine ⟨?_, ?_⟩
    · intro lock' hlock'
      obtain rfl := Option.some.inj (hlocked.symm.trans hlock')
      refine ⟨htrusted, congrArg Ballot.phase hcert, List.mem_append_right _ ?_⟩
      rw [hview, show cert.payload = payload from congrArg Ballot.payload hcert]
      exact List.mem_singleton_self _
    · intro b hb hphase
      refine ⟨cert, hlocked, ?_⟩
      rcases List.mem_append.mp hb with hb | hb
      · obtain ⟨lock', hheld', hle'⟩ := hlocking.covers b hb hphase
        exact UInt64.le_trans hle' (hle lock' hheld')
      · obtain rfl := List.mem_singleton.mp hb
        exact hview ▸ UInt64.le_refl _

/-- **Every move keeps the state of the lock.** -/
theorem move {heard : Statement → Prop} {ds : List Deed} (hlocking : Locking ctx ev ballots s)
    (hmove : Move ctx (Trusted ctx ev.voted) heard s ds s') :
    Locking ctx ev (ballots ++ ds.filterMap Deed.ballot?) s' := by
  cases hmove with
  | rest => exact hlocking.congr rfl (by simp)
  | enter => exact hlocking.congr rfl (by simp)
  | accept => exact hlocking.congr rfl (by simp [Deed.ballot?])
  | preCommit => exact hlocking.congr rfl (by simp [Deed.ballot?])
  | lock _ _ hcert htrusted => exact hlocking.lock hcert htrusted
  | decide => exact hlocking.congr (ReplicaState.commit_locked ..) (by simp [Deed.ballot?])
  | catchUp => exact hlocking.congr (ReplicaState.commit_locked ..) (by simp [Deed.ballot?])

end Locking

/-- **The lock along a course.** -/
theorem locking (hcourse : Course ctx ev s₀ h s) (hfirst : s₀.locked = none) :
    Locking ctx ev (ballotsOf h) s := by
  induction hcourse with
  | boot => exact ⟨by simp [hfirst], fun b hb => absurd hb List.not_mem_nil⟩
  | turn _ hlawful ih =>
      rw [ballotsOf_append, ballotsOf_singleton]
      exact ih.move hlawful
  | resume _ _ ih => exact ⟨ih.grounded, ih.covers⟩

/-! ### The committed digest -/

section Committed

variable (hlast : ∀ p, ¬ ev.Certified ctx.committee ctx.scheme ⟨.commit, View.last, p⟩)

include hlast

/-- A turn that commits does so on a decision, and leaves the view of the decision behind. -/
theorem commits (hlawful : t.Lawful ctx ev) :
    t.after.replica.state.committed = t.before.replica.state.committed ∨ ∃ v p,
      ev.Certified ctx.committee ctx.scheme ⟨.commit, v, p⟩ ∧ v < t.after.replica.state.view ∧
      t.after.replica.state.committed = ctx.scheme.payloadDigest p ∧
      (p.parent = t.before.replica.state.committed ∨ v = t.before.replica.state.view ∧
        t.before.replica.state.phase = .commit ∧ t.before.replica.state.proposal = some p) := by
  rcases hlawful.commits with hsame | ⟨cert, htrusted, hphase, hcommitted, hview, hwhy⟩
  · exact Or.inl hsame
  · have hcertified : ev.Certified ctx.committee ctx.scheme ⟨.commit, cert.view, cert.payload⟩ :=
      hphase ▸ htrusted.certified (by simp [hphase])
    refine Or.inr ⟨cert.view, cert.payload, hcertified, hview ?_, hcommitted, hwhy⟩
    intro heq
    exact hlast _ (heq ▸ hcertified)

/-- What is committed is what the member started with, or a decision of an earlier view. -/
theorem committed (hcourse : Course ctx ev s₀ h s) : s.committed = s₀.committed ∨ ∃ p,
    ev.DecidedBefore ctx.committee ctx.scheme s.view p ∧
      s.committed = ctx.scheme.payloadDigest p := by
  induction hcourse with
  | boot => exact Or.inl rfl
  | turn _ hlawful ih =>
      rcases commits hlast hlawful with hsame | ⟨v, p, hcertified, hlt, hcommitted, -⟩
      · rw [hsame]
        exact ih.imp id fun ⟨p, hdecided, heq⟩ => ⟨p, hdecided.mono hlawful.view_le, heq⟩
      · exact Or.inr ⟨p, ⟨v, hlt, hcertified⟩, hcommitted⟩
  | resume _ hlater ih =>
      exact ih.imp id fun ⟨p, hdecided, heq⟩ => ⟨p, hdecided.mono (UInt64.le_of_lt hlater), heq⟩

/-- **A held proposal** was accepted on what was committed then, and only decisions of earlier
views have been committed since. -/
theorem held_leads (hcourse : Course ctx ev s₀ h s) (hfirst : s₀.phase = .newView) :
    s.phase ≠ .newView → ∃ p, s.proposal = some p ∧
      ctx.scheme.Leads (ev.DecidedBefore ctx.committee ctx.scheme s.view) p.parent s.committed := by
  induction hcourse with
  | boot => exact fun hphase => absurd hfirst hphase
  | @turn h t _ hlawful ih =>
      intro hphase
      rcases hlawful.held hphase with ⟨hbefore, hview, hproposal⟩ | ⟨st, -, haccepts, hafter, -⟩
      · obtain ⟨p, hheld, hleads⟩ := ih hbefore
        refine ⟨p, hproposal.trans hheld, ?_⟩
        rw [hview]
        rcases commits hlast hlawful with hsame | ⟨v, q, hcertified, hlt, hcommitted, hwhy⟩
        · rwa [hsame]
        · rw [hview] at hlt
          rw [hcommitted]
          rcases hwhy with hparent | ⟨rfl, -⟩
          · refine hleads.trans ?_
            rw [← hparent]
            exact .single ⟨v, hlt, hcertified⟩
          · exact absurd hlt (UInt64.lt_irrefl _)
      · rw [hafter]
        refine ⟨st.payload, rfl, ?_⟩
        rw [haccepts.parent]
        exact .refl _
  | resume => exact fun hphase => absurd rfl hphase

end Committed

end Course

end HotStuff
