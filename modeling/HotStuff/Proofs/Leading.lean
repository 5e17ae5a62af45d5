import HotStuff.Proofs.Scenario
import HotStuff.Proofs.Upkeep

/-!
# What a Leader Says

A leader says the same throughout a view. What it says is tied to its collector, where a view is
opened for one payload and a ballot is certified once: `Leading` is that tie, and holds however
stale or hand-made the slots are that the member is asked to propose in, and whoever has its seal.
The collector forgets views that are over, and a restart forgets all of them, but the replica is in
a later view by then.

## Main definitions

* `ledOf`: the statements made as a leader.
* `Collector.Extends`: one collector has all that another has, and the ballots of some statements.
* `Unequivocal`: one payload per view, each phase after the one before and on its certificate.

## Main results

* `Leading.turn`: every turn keeps what is said tied to the collector, and in order.
* `leader_never_equivocates`: what any member says as a leader is unequivocal.
-/

namespace HotStuff

/-! ### Statements of a leader -/

/-- The ballot that a statement is about. -/
def Statement.ballot (st : Statement) : Ballot := ⟨st.phase, st.view, st.payload⟩

/-- The statements that are made as a leader: all but announcements of views. -/
def ledIn (actions : List Action) : List Statement :=
  (statementsIn actions).filter fun st => st.phase ≠ .newView

/-- What is said as a leader in a history, oldest first. -/
def ledOf {σ : Type} (h : List (Turn σ)) : List Statement := ledIn (saidOf h)

/-- One more turn says what it says as a leader, after all else. -/
@[simp] theorem ledOf_concat {σ : Type} (h : List (Turn σ)) (t : Turn σ) :
    ledOf (h ++ [t]) = ledOf h ++ ledIn t.said := by
  rw [ledOf, saidOf_append, saidOf_singleton, ledIn, statementsIn_append, List.filter_append]
  rfl

/-- Plain messages are not those of a leader. -/
theorem ledIn_of_plain {ctx : Context} {actions : List Action}
    (hplain : ∀ message ∈ messagesIn actions, message.Plain ctx) : ledIn actions = [] := by
  refine List.filter_eq_nil_iff.mpr fun st hst => ?_
  simp [phase_of_plain hplain hst]

/-- What a leader makes known comes before what its replica answers. -/
theorem ledIn_broadcast_cons {ctx : Context} {envelope : Phase} {signed : SignedStatement}
    {actions : List Action} (hphase : signed.body.phase ≠ .newView)
    (hplain : ∀ message ∈ messagesIn actions, message.Plain ctx) :
    ledIn (.broadcast (.statement envelope signed) :: actions) = [signed.body] := by
  have hcons : ledIn (.broadcast (.statement envelope signed) :: actions) =
      signed.body :: ledIn actions := List.filter_cons_of_pos (by simpa using hphase)
  rw [hcons, ledIn_of_plain hplain]

/-- A statement that may come before another: in an earlier view, or on the same payload in the same
view, where proposals may be repeated and all else goes on to later phases. -/
def Statement.Precedes (a b : Statement) : Prop :=
  a.view < b.view ∨
    a.view = b.view ∧ a.payload = b.payload ∧ (b.phase = .prepare ∨ a.phase < b.phase)

/-- **A statement on a certificate** of the phase before, for its view and payload. -/
structure Statement.Justified (ctx : Context) (st : Statement) : Prop where
  phase : st.phase.predecessor = some st.justify.phase
  view : st.justify.view = st.view
  payload : st.justify.payload = st.payload
  valid : ctx.verify st.justify = .ok ()

/-- What an announced statement brings is its justification. -/
theorem Leader.Announces.justified {ctx : Context} {genuine : Ballot → Seal → Prop}
    {c : Collector} {here : View} {st : Statement} (h : Announces ctx genuine c here st) :
    st.Justified ctx :=
  ⟨h.phase, h.justify_view, h.justify_payload, h.trusted.valid⟩

/-- **Statements in order**: each may come after all before it, has the phase before it among
them, and is justified, unless it is a proposal. -/
structure Orderly (ctx : Context) (sts : List Statement) : Prop where
  ordered : sts.Pairwise Statement.Precedes
  supported : ∀ pre st post, sts = pre ++ st :: post → ∀ phase, st.phase.predecessor = some phase →
    phase ≠ .newView → ∃ st' ∈ pre, st'.ballot = ⟨phase, st.view, st.payload⟩
  justified : ∀ st ∈ sts, st.phase ≠ .prepare → st.Justified ctx

namespace Orderly

variable {ctx : Context} {sts : List Statement}

/-- No statements are in order. -/
theorem nil : Orderly ctx [] := ⟨.nil, by simp, by simp⟩

/-- One more statement that may come after all others. -/
theorem concat (h : Orderly ctx sts) {st : Statement} (hafter : ∀ a ∈ sts, a.Precedes st)
    (hsupported : ∀ phase, st.phase.predecessor = some phase → phase ≠ .newView →
      ∃ st' ∈ sts, st'.ballot = ⟨phase, st.view, st.payload⟩)
    (hjustified : st.phase ≠ .prepare → st.Justified ctx) : Orderly ctx (sts ++ [st]) := by
  constructor
  · refine List.pairwise_append.mpr ⟨h.ordered, List.pairwise_singleton _ _, ?_⟩
    intro a ha b hb
    exact List.mem_singleton.mp hb ▸ hafter a ha
  · intro pre b post hsplit
    rcases concat_eq_append_cons hsplit with ⟨rfl, rfl, rfl⟩ | ⟨rest, rfl, rfl⟩
    · exact hsupported
    · exact h.supported pre b rest rfl
  · intro b hb
    rcases List.mem_append.mp hb with hb | hb
    · exact h.justified b hb
    · exact List.mem_singleton.mp hb ▸ hjustified

/-- There is one payload per view. -/
theorem payload_eq (h : Orderly ctx sts) :
    ∀ a ∈ sts, ∀ b ∈ sts, a.view = b.view → a.payload = b.payload := by
  have hpairwise : sts.Pairwise fun a b => a.view = b.view → a.payload = b.payload := by
    refine h.ordered.imp ?_
    rintro a b (hlt | ⟨-, hpayload, -⟩) heq
    · exact absurd heq (UInt64.ne_of_lt hlt)
    · exact hpayload
  intro a ha b hb
  refine hpairwise.forall_of_forall_of_flip (fun _ _ _ => rfl) ?_ ha hb
  exact hpairwise.imp fun hab heq => (hab heq.symm).symm

/-- Only proposals are repeated. -/
theorem length_le_one (h : Orderly ctx sts) (view : View) {phase : Phase}
    (hphase : phase ≠ .prepare) :
    (sts.filter fun st => st.view = view ∧ st.phase = phase).length ≤ 1 := by
  refine length_filter_le_one h.ordered fun a b ha hb => ?_
  obtain ⟨rfl, rfl⟩ := of_decide_eq_true ha
  obtain ⟨hview, hsame⟩ := of_decide_eq_true hb
  rintro (hlt | ⟨-, -, hprepare | hlt⟩)
  · exact absurd hview.symm (UInt64.ne_of_lt hlt)
  · exact absurd (hsame.symm.trans hprepare) hphase
  · rw [hsame] at hlt
    exact absurd hlt (Nat.lt_irrefl _)

end Orderly

/-! ### What a collector keeps -/

namespace Collector

variable {ctx : Context} {c c' c'' : Collector} {said : List Statement}

/-- **One collector extends another**: every ballot is still open, and certified if it was, and new
ballots are only those of the statements made. -/
structure Extends (c c' : Collector) (said : List Statement) : Prop where
  kept : ∀ view phase t, c.tally? view phase = some t → ∃ t', c'.tally? view phase = some t' ∧
    t'.target = t.target ∧ (t.certificate.isSome → t'.certificate.isSome)
  new : ∀ view phase t', c'.tally? view phase = some t' →
    (∃ t, c.tally? view phase = some t ∧ t.target = t'.target) ∨ ∃ st ∈ said, st.ballot = t'.target

namespace Extends

/-- Where the ballots stay the same nothing is opened or forgotten. -/
theorem of_same (hsame : ∀ view phase, c'.tally? view phase = c.tally? view phase) :
    c.Extends c' said := by
  constructor
  · intro view phase t ht
    exact ⟨t, (hsame view phase).trans ht, rfl, id⟩
  · intro view phase t ht
    exact Or.inl ⟨t, (hsame view phase).symm.trans ht, rfl⟩

/-- Ballots may be taken up by an operation that makes no statement and one after it that makes
some. -/
theorem trans (h : c.Extends c' []) (h' : c'.Extends c'' said) : c.Extends c'' said := by
  constructor
  · intro view phase t ht
    obtain ⟨t', ht', htarget, hcertified⟩ := h.kept view phase t ht
    obtain ⟨t'', ht'', htarget', hcertified'⟩ := h'.kept view phase t' ht'
    exact ⟨t'', ht'', htarget'.trans htarget, hcertified' ∘ hcertified⟩
  · intro view phase t'' ht''
    rcases h'.new view phase t'' ht'' with ⟨t', ht', htarget'⟩ | hsaid
    · rcases h.new view phase t' ht' with ⟨t, ht, htarget⟩ | ⟨_, hnone, -⟩
      · exact Or.inl ⟨t, ht, htarget.trans htarget'⟩
      · cases hnone
    · exact Or.inr hsaid

/-- What is opened stays opened for its payload. -/
theorem opened (h : c.Extends c' said) : c.Keeps c' := by
  intro view payload hopened
  obtain ⟨t, ht, rfl⟩ := Option.map_eq_some_iff.mp hopened
  obtain ⟨t', ht', htarget, -⟩ := h.kept view .prepare t ht
  rw [Collector.opened, ht', Option.map_some, htarget]

/-- What is polled stays polled. -/
theorem polled (h : c.Extends c' said) {view : View} {phase : Phase}
    (hpolled : (c.tally? view phase).isSome) : (c'.tally? view phase).isSome := by
  obtain ⟨t, ht⟩ := Option.isSome_iff_exists.mp hpolled
  obtain ⟨t', ht', -⟩ := h.kept view phase t ht
  exact Option.isSome_of_mem ht'

/-- What is certified stays certified. -/
theorem certified (h : c.Extends c' said) {view : View} {phase : Phase}
    (hcertified : (c.certificate view phase).isSome) : (c'.certificate view phase).isSome := by
  obtain ⟨cert, hcert⟩ := Option.isSome_iff_exists.mp hcertified
  obtain ⟨t, ht, hsome⟩ := Option.bind_eq_some_iff.mp hcert
  obtain ⟨t', ht', -, hkept⟩ := h.kept view phase t ht
  rw [certificate, ht', Option.bind_some]
  exact hkept (Option.isSome_of_mem hsome)

end Extends

/-- A tally may take the place of one on the same ballot, or come as that of a statement. -/
theorem extends_putTally {t : Tally}
    (hold : ∀ t₀, c.tally? t.target.view t.target.phase = some t₀ →
      t₀.target = t.target ∧ (t₀.certificate.isSome → t.certificate.isSome))
    (hnew : (c.tally? t.target.view t.target.phase).isSome ∨ ∃ st ∈ said, st.ballot = t.target) :
    c.Extends (c.putTally t) said := by
  constructor
  · intro view phase t₀ ht₀
    rw [tally?_putTally]
    split
    · next hplace =>
        obtain ⟨rfl, rfl⟩ := hplace
        obtain ⟨htarget, hcertified⟩ := hold t₀ ht₀
        exact ⟨t, rfl, htarget.symm, hcertified⟩
    · exact ⟨t₀, ht₀, rfl, id⟩
  · intro view phase t' ht'
    rw [tally?_putTally] at ht'
    split at ht'
    · next hplace =>
        obtain ⟨rfl, rfl⟩ := hplace
        obtain rfl := Option.some.inj ht'
        refine hnew.imp_left fun hsome => ?_
        obtain ⟨t₀, ht₀⟩ := Option.isSome_iff_exists.mp hsome
        exact ⟨t₀, ht₀, (hold t₀ ht₀).1⟩
    · exact Or.inl ⟨t', ht', rfl⟩

/-- Opening the ballot of a statement. -/
theorem extends_openBallot {st : Statement} (hok : c.openBallot st.ballot = .ok c') :
    c.Extends c' [st] := by
  rcases openBallot_ok hok with ⟨-, rfl⟩ | ⟨hnone, rfl⟩
  · exact .of_same fun _ _ => rfl
  · refine extends_putTally ?_ (Or.inr ⟨st, by simp, rfl⟩)
    intro t₀ ht₀
    cases hnone.symm.trans ht₀

/-- A ballot that was opened is there. -/
theorem polled_openBallot {target : Ballot} (hok : c.openBallot target = .ok c') :
    (c'.tally? target.view target.phase).isSome := by
  rcases openBallot_ok hok with ⟨⟨t, ht, -⟩, rfl⟩ | ⟨-, rfl⟩
  · exact Option.isSome_of_mem ht
  · rw [tally?_putTally, if_pos ⟨rfl, rfl⟩]
    rfl

/-- Counting a vote opens no ballot. A certificate that it completes was not there before. -/
theorem extends_addVote {vote : Vote} {outcome : VoteOutcome}
    (hok : c.addVote ctx.scheme ctx.committee vote = .ok (outcome, c')) :
    c.Extends c' [] ∧ ∀ cert, outcome = .certified cert →
      (∃ t, c.tally? vote.ballot.view vote.ballot.phase = some t ∧ t.target = vote.ballot ∧
        t.certificate = none) ∧
      (c'.certificate vote.ballot.view vote.ballot.phase).isSome := by
  rcases addVote_ok hok with ⟨rfl, rfl⟩ |
    ⟨t, ht, hnone, htarget, -, -, counted, rfl, hsame, -, houtcome⟩
  · exact ⟨.of_same fun _ _ => rfl, fun _ hcert => by cases hcert⟩
  have hplace : counted.target = vote.ballot := hsame.trans htarget
  have hextends : c.Extends (c.putTally counted) [] := by
    refine extends_putTally ?_ (Or.inl ?_)
    · intro t₀ ht₀
      rw [hplace] at ht₀ ⊢
      obtain rfl := Option.some.inj (ht.symm.trans ht₀)
      refine ⟨htarget, fun hsome => ?_⟩
      rw [hnone] at hsome
      cases hsome
    · rw [hplace, ht]
      rfl
  refine ⟨hextends, fun cert hcert => ⟨⟨t, ht, htarget, hnone⟩, ?_⟩⟩
  rcases houtcome with hpending | ⟨-, -, hcertified⟩
  · exact absurd hcert (hpending cert)
  · rw [certificate, tally?_putTally, hplace, if_pos ⟨rfl, rfl⟩]
    exact hcertified

/-- A vote from which nothing follows opens no ballot. -/
theorem extends_onVote {here : View} {vote : Vote} {said : Except Error (Option SignedStatement)}
    (hok : Leader.onVote ctx c here vote = (said, c')) (hnone : ∀ next, said ≠ .ok (some next)) :
    c.Extends c' [] := by
  rcases Leader.onVote_ok hok with ⟨-, rfl⟩ | ⟨-, -, outcome, counted, hadd, hanswer⟩
  · exact .of_same fun _ _ => rfl
  obtain ⟨hextends, -⟩ := extends_addVote hadd
  rcases hanswer with ⟨-, rfl⟩ | ⟨cert, answer, -, hfollow, hsaid⟩
  · exact hextends
  rcases Leader.follow_ok hfollow with ⟨-, rfl⟩ | ⟨phase, -, hnext, -⟩
  · exact hextends
  · exact absurd (hsaid.trans (congrArg _ hnext)) (hnone _)

/-- A vote from which a statement follows certifies the ballot before, which it was not until then,
and opens none but that of the statement. -/
theorem extends_onVote_some {here : View} {vote : Vote} {next : SignedStatement}
    (hok : Leader.onVote ctx c here vote = (.ok (some next), c')) :
    c.Extends c' [next.body] ∧
      (∃ t, c.tally? here next.body.justify.phase = some t ∧
        t.target = next.body.justify.ballot ∧ t.certificate = none) ∧
      (c'.certificate here next.body.justify.phase).isSome ∧
      (next.body.phase.Voted → (c'.tally? here next.body.phase).isSome) := by
  rcases Leader.onVote_ok hok with ⟨hnone, -⟩ | ⟨-, rfl, outcome, counted, hadd, hanswer⟩
  · exact absurd rfl (hnone next)
  rcases hanswer with ⟨hnone, -⟩ | ⟨cert, answer, rfl, hfollow, hsaid⟩
  · exact absurd rfl (hnone next)
  obtain rfl := Except.ok.inj hsaid
  obtain ⟨hextends, hcert⟩ := extends_addVote hadd
  obtain ⟨hopen, hcertified⟩ := hcert cert rfl
  have hballot : cert.ballot = vote.ballot := ballot_of_addVote hadd
  rcases Leader.follow_ok hfollow with ⟨hnone, -⟩ | ⟨phase, -, hnext, hvotes⟩
  · cases hnone
  obtain rfl := Option.some.inj hnext
  have hphase : cert.phase = vote.ballot.phase := congrArg Ballot.phase hballot
  have hfollowed : counted.Extends c' [⟨cert.view, phase, cert.payload, cert⟩] := by
    rcases hvotes with ⟨-, rfl⟩ | ⟨-, hopen⟩
    · exact .of_same fun _ _ => rfl
    · exact extends_openBallot hopen
  have hview : cert.view = vote.ballot.view := congrArg Ballot.view hballot
  obtain ⟨t, ht, htarget, hnone⟩ := hopen
  refine ⟨hextends.trans hfollowed, ⟨t, ?_, htarget.trans hballot.symm, hnone⟩, ?_, ?_⟩
  · rw [← hphase] at ht
    exact ht
  · rw [← hphase] at hcertified
    exact hfollowed.certified hcertified
  · intro (hvoted : phase.Voted)
    rcases hvotes with ⟨rfl, -⟩ | ⟨-, hopen⟩
    · exact absurd hvoted.rank_le (by decide)
    · exact hview ▸ polled_openBallot hopen

end Collector

/-! ### What is said, and what is collected -/

/-- **What a leader has said, tied to its collector** in the current view: the view is opened for
the payload of every statement made in it, its phase is polled and the phases before it are
certified, and there is no ballot without a statement. -/
structure Leading (sts : List Statement) (c : Collector) (here : View) : Prop where
  past : ∀ st ∈ sts, st.view ≤ here
  opened : ∀ st ∈ sts, st.view = here → c.opened here = some st.payload
  polled : ∀ st ∈ sts, st.view = here → st.phase.Voted → (c.tally? here st.phase).isSome
  certified : ∀ st ∈ sts, st.view = here → ∀ phase : Phase, phase.Voted → phase < st.phase →
    (c.certificate here phase).isSome
  said : ∀ view phase t, c.tally? view phase = some t → ∃ st ∈ sts, st.ballot = t.target

namespace Leading

variable {sts said : List Statement} {c c' : Collector} {here view : View} {ctx : Context}

/-- A leader that has said nothing has an empty collector. -/
theorem boot : Leading [] .empty here := by
  refine ⟨by simp, by simp, by simp, by simp, ?_⟩
  rintro _ _ _ ⟨⟩

/-- A collector with no more ballots is tied to the same statements. -/
theorem extend (h : Leading sts c here) (hextends : c.Extends c' []) : Leading sts c' here := by
  constructor
  · exact h.past
  · exact fun st hst hview => hextends.opened _ _ (h.opened st hst hview)
  · exact fun st hst hview hvoted => hextends.polled (h.polled st hst hview hvoted)
  · exact fun st hst hview phase hvoted hlt =>
      hextends.certified (h.certified st hst hview phase hvoted hlt)
  · intro view phase t ht
    rcases hextends.new view phase t ht with ⟨t₀, ht₀, htarget⟩ | ⟨_, hnone, -⟩
    · exact htarget ▸ h.said view phase t₀ ht₀
    · cases hnone

/-- A statement in the current view, whose payload it is opened for, whose phase is polled and whose
earlier phases are certified. -/
theorem announce (h : Leading sts c here) {st : Statement} (hextends : c.Extends c' [st])
    (hview : st.view = here) (hopened : c'.opened here = some st.payload)
    (hpolled : st.phase.Voted → (c'.tally? here st.phase).isSome)
    (hcertified : ∀ phase : Phase, phase.Voted → phase < st.phase →
      (c'.certificate here phase).isSome) : Leading (sts ++ [st]) c' here := by
  constructor
  · intro a ha
    rcases List.mem_append.mp ha with ha | ha
    · exact h.past a ha
    · obtain rfl := List.mem_singleton.mp ha
      exact hview ▸ UInt64.le_refl _
  · intro a ha heq
    rcases List.mem_append.mp ha with ha | ha
    · exact hextends.opened _ _ (h.opened a ha heq)
    · exact List.mem_singleton.mp ha ▸ hopened
  · intro a ha heq hvoted
    rcases List.mem_append.mp ha with ha | ha
    · exact hextends.polled (h.polled a ha heq hvoted)
    · obtain rfl := List.mem_singleton.mp ha
      exact hpolled hvoted
  · intro a ha heq phase hvoted hlt
    rcases List.mem_append.mp ha with ha | ha
    · exact hextends.certified (h.certified a ha heq phase hvoted hlt)
    · obtain rfl := List.mem_singleton.mp ha
      exact hcertified phase hvoted hlt
  · intro view phase t ht
    rcases hextends.new view phase t ht with ⟨t₀, ht₀, htarget⟩ | ⟨a, ha, hballot⟩
    · obtain ⟨a, ha, hballot⟩ := h.said view phase t₀ ht₀
      exact ⟨a, List.mem_append_left _ ha, hballot.trans htarget⟩
    · exact ⟨a, List.mem_append_right _ ha, hballot⟩

/-- In a later view nothing has been said yet. -/
theorem leave (h : Leading sts c here) (hlater : here < view)
    (hsaid : ∀ view phase t, c'.tally? view phase = some t → ∃ st ∈ sts, st.ballot = t.target) :
    Leading sts c' view := by
  have hpast : ∀ st ∈ sts, st.view < view := fun st hst =>
    UInt64.lt_of_le_of_lt (h.past st hst) hlater
  constructor
  · exact fun st hst => UInt64.le_of_lt (hpast st hst)
  · exact fun st hst heq => absurd heq (UInt64.ne_of_lt (hpast st hst))
  · exact fun st hst heq => absurd heq (UInt64.ne_of_lt (hpast st hst))
  · exact fun st hst heq => absurd heq (UInt64.ne_of_lt (hpast st hst))
  · exact hsaid

/-- The replica may go on to a later view. -/
theorem advance (h : Leading sts c here) (hle : here ≤ view) : Leading sts c view := by
  rcases UInt64.lt_or_eq_of_le hle with hlt | rfl
  · exact h.leave hlt h.said
  · exact h

/-- Forgetting the views that are over keeps all of the current one. -/
theorem prune (h : Leading sts c here) : Leading sts (c.pruneBelow here) here := by
  have hsame (phase : Phase) : (c.pruneBelow here).tally? here phase = c.tally? here phase := by
    rw [Collector.tally?_pruneBelow, if_pos (UInt64.le_refl _)]
  constructor
  · exact h.past
  · intro st hst heq
    rw [Collector.opened_pruneBelow (UInt64.le_refl _)]
    exact h.opened st hst heq
  · intro st hst heq hvoted
    rw [hsame]
    exact h.polled st hst heq hvoted
  · intro st hst heq phase hvoted hlt
    rw [Collector.certificate, hsame]
    exact h.certified st hst heq phase hvoted hlt
  · intro view phase t ht
    rw [Collector.tally?_pruneBelow] at ht
    split at ht
    · exact h.said view phase t ht
    · cases ht

/-- **A proposal** comes after all that was said, since its ballot could be opened. -/
theorem propose (h : Leading sts c here) (horderly : Orderly ctx sts)
    (hsound : c.Sound ctx Evidence.none.voted) {slot : Slot} {committed : Digest} {data : Bytes}
    {prepare : SignedStatement} (hview : slot.view = here)
    (hok : Leader.propose ctx c slot committed data = .ok (prepare, c')) :
    prepare.body.phase = .prepare ∧ Leading (sts ++ [prepare.body]) c' here ∧
      Orderly ctx (sts ++ [prepare.body]) := by
  obtain ⟨-, -, hbody, hopened⟩ := Leader.propose_spec hsound hok
  obtain ⟨-, -, hopen⟩ := Leader.propose_ok hok
  have hphase : prepare.body.phase = .prepare := by rw [hbody]
  have hhere : prepare.body.view = here := by rw [hbody, ← hview]
  have hballot : prepare.body.ballot = ⟨.prepare, slot.view, prepare.body.payload⟩ := by
    rw [Statement.ballot, hphase, hhere, hview]
  have hextends : c.Extends c' [prepare.body] := Collector.extends_openBallot (hballot ▸ hopen)
  rw [hview] at hopened
  have hpolled : prepare.body.phase.Voted → (c'.tally? here prepare.body.phase).isSome := by
    intro _
    rw [hphase, ← hview]
    exact Collector.polled_openBallot hopen
  refine ⟨hphase, h.announce hextends hhere hopened hpolled ?_, horderly.concat ?_ ?_ ?_⟩
  · intro phase hvoted hlt
    rw [hphase] at hlt
    exact absurd hvoted.rank_pos (Nat.not_lt.mpr (Nat.lt_succ_iff.mp hlt))
  · intro a ha
    rcases UInt64.lt_or_eq_of_le (h.past a ha) with hlt | heq
    · exact Or.inl (hhere ▸ hlt)
    · have hsame := hextends.opened _ _ (h.opened a ha heq)
      have hpayload := Option.some.inj (hsame.symm.trans hopened)
      exact Or.inr ⟨heq.trans hhere.symm, hpayload, Or.inl hphase⟩
  · intro phase hbefore hne
    rw [hphase] at hbefore
    exact absurd (Option.some.inj hbefore).symm hne
  · exact fun hne => absurd hphase hne

/-- **What follows from a vote** comes after all that was said: the ballot before it was opened for
a statement, and had no certificate, so no later phase has been reached. -/
theorem follow (h : Leading sts c here) (horderly : Orderly ctx sts)
    (hsound : c.Sound ctx Evidence.none.voted) {vote : Vote} {next : SignedStatement}
    (hok : Leader.onVote ctx c here vote = (.ok (some next), c')) :
    next.body.phase ≠ .newView ∧ Leading (sts ++ [next.body]) c' here ∧
      Orderly ctx (sts ++ [next.body]) := by
  obtain ⟨-, -, hannounces⟩ := Leader.onVote_spec hsound hok fun _ => trivial
  have hnext := hannounces next rfl
  obtain ⟨hextends, ⟨t, ht, htarget, hopen⟩, hcertified, hpolled⟩ :=
    Collector.extends_onVote_some hok
  have hrank : next.body.phase.rank = next.body.justify.phase.rank + 1 :=
    Phase.rank_of_successor (Phase.predecessor_eq_some_iff.mp hnext.phase)
  -- The statement that the ballot before was opened for.
  obtain ⟨before, hbefore, hballot⟩ := h.said here _ t ht
  have hballot : before.ballot = ⟨next.body.justify.phase, next.body.view, next.body.payload⟩ := by
    rw [hballot, htarget]
    exact Replica.ballot_eq rfl hnext.justify_view hnext.justify_payload
  have hhere : before.view = here := (congrArg Ballot.view hballot).trans hnext.view
  have hphase : before.phase = next.body.justify.phase := congrArg Ballot.phase hballot
  refine ⟨?_, ?_, ?_⟩
  · intro hphase
    rw [hphase] at hrank
    cases hrank
  · refine h.announce hextends hnext.view hnext.opened hpolled ?_
    intro phase hvoted (hlt : phase.rank < next.body.phase.rank)
    have hle : phase.rank ≤ next.body.justify.phase.rank := Nat.lt_succ_iff.mp (hrank ▸ hlt :)
    rcases Nat.lt_or_eq_of_le hle with hlt | heq
    · exact hextends.certified (h.certified before hbefore hhere phase hvoted (hphase ▸ hlt))
    · exact Phase.rank_injective heq ▸ hcertified
  · refine horderly.concat ?_ ?_ fun _ => hnext.justified
    · intro a ha
      rcases UInt64.lt_or_eq_of_le (h.past a ha) with hlt | heq
      · exact Or.inl (hnext.view ▸ hlt)
      have hsame := hextends.opened _ _ (h.opened a ha heq)
      have hpayload := Option.some.inj (hsame.symm.trans hnext.opened)
      refine Or.inr ⟨heq.trans hnext.view.symm, hpayload, Or.inr (Nat.lt_of_not_le fun hle => ?_)⟩
      have hlt : next.body.justify.phase < a.phase := by
        show next.body.justify.phase.rank < a.phase.rank
        omega
      have hthere := h.certified a ha heq _ hnext.voted hlt
      rw [Collector.certificate, ht, Option.bind_some, hopen] at hthere
      cases hthere
    · intro phase hpredecessor _
      obtain rfl := Option.some.inj (hnext.phase.symm.trans hpredecessor)
      exact ⟨before, hbefore, hballot⟩

variable {σ : Type} [StateStore σ] [LawfulStore σ] {h : List (Turn σ)} {t : Turn σ}

/-- **One turn** keeps what the member says as a leader tied to its collector, and in order. -/
theorem turn (hleading : Leading (ledOf h) t.before.votes t.before.replica.state.view)
    (horderly : Orderly ctx (ledOf h)) (hkept : t.before.Kept ctx) (hkind : t.Kind ctx) :
    Leading (ledOf (h ++ [t])) t.after.votes t.after.replica.state.view ∧
      Orderly ctx (ledOf (h ++ [t])) := by
  have hrole := Turn.role_of_kind hkind
  have hview := hrole.view_le hkept.sound
  rw [ledOf_concat]
  cases hrole with
  | none hhandles hsame =>
      rw [ledIn_of_plain hhandles.plain, List.append_nil]
      exact ⟨(hleading.extend (.of_same hsame)).advance hview, horderly⟩
  | counted hcount hnone hsaid =>
      rw [hsaid, show ledIn [] = [] from rfl, List.append_nil]
      exact ⟨(hleading.extend (Collector.extends_onVote hcount hnone)).advance hview, horderly⟩
  | @certified vote next own _ hcount hown hsaid =>
      obtain ⟨hphase, hleading', horderly'⟩ := hleading.follow horderly hkept.sound hcount
      have hplain : ∀ message ∈ messagesIn own, message.Plain ctx := by
        rcases hown with happly | ⟨-, rfl⟩
        · exact (Replica.applyPhase_follows happly).2.2
        · exact fun _ hmem => absurd hmem List.not_mem_nil
      have hled : ledIn t.said = [next.body] := by
        rw [hsaid]
        exact ledIn_broadcast_cons hphase hplain
      rw [hled]
      exact ⟨hleading'.advance hview, horderly'⟩
  | @proposed slot data prepare own hslot hpropose hown hsaid =>
      obtain ⟨hphase, hleading', horderly'⟩ :=
        hleading.propose horderly hkept.sound hslot hpropose
      have hled : ledIn t.said = [prepare.body] := by
        rw [hsaid]
        exact ledIn_broadcast_cons (by simp [hphase]) hown.plain
      rw [hled]
      exact ⟨hleading'.advance hview, horderly'⟩

end Leading

/-! ### The life of a leader -/

section Lives

variable {σ : Type} [StateStore σ] [LawfulStore σ] {ctx : Context} {h : List (Turn σ)}

/-- **Statements without equivocation**: all of one view on one payload, and in each view at most
one of each later phase than Prepare, after one of the phase before it and with a valid certificate
of that phase, for the same view and payload. -/
structure Unequivocal (ctx : Context) (sts : List Statement) : Prop where
  payload : ∀ a ∈ sts, ∀ b ∈ sts, a.view = b.view → a.payload = b.payload
  once : ∀ view phase, phase ≠ .prepare →
    (sts.filter fun st => st.view = view ∧ st.phase = phase).length ≤ 1
  order : ∀ pre st post, sts = pre ++ st :: post → st.phase ≠ .prepare →
    ∃ before ∈ pre, before.view = st.view ∧ st.phase.predecessor = some before.phase
  justified : ∀ st ∈ sts, st.phase ≠ .prepare → st.Justified ctx

/-- **The life of a leader**: what it says stays tied to its collector, and in order. -/
theorem Leading.run {store : σ} {first core : Core σ} {admits : List (Turn σ) → Input → Prop}
    (hcreate : Core.create ctx store = .ok first) (hrun : Run ctx admits first h core) :
    Leading (ledOf h) core.votes core.replica.state.view ∧ Orderly ctx (ledOf h) := by
  refine (Run.kept_induction hcreate hrun (P := fun h core =>
    Leading (ledOf h) core.votes core.replica.state.view ∧ Orderly ctx (ledOf h)) ?_ ?_ ?_ ?_).2
  · rw [(Core.create_ok hcreate).2]
    exact ⟨.boot, .nil⟩
  · rintro h t ⟨hleading, horderly⟩ hkept hkind
    exact hleading.turn horderly hkept hkind
  · rintro h core core' ⟨hleading, horderly⟩ ⟨status, metrics, rfl⟩
    exact ⟨hleading.prune, horderly⟩
  · rintro h core core' view ⟨hleading, horderly⟩ hlater hstate hvotes
    rw [hstate, hvotes]
    exact ⟨hleading.leave hlater (by rintro _ _ _ ⟨⟩), horderly⟩

/-- **A leader never equivocates.** Through all processes of a member on one store, whatever it is
handed and asked to propose: what it says as a leader is unequivocal. -/
theorem leader_never_equivocates {store : σ} {first core : Core σ}
    {admits : List (Turn σ) → Input → Prop} (hcreate : Core.create ctx store = .ok first)
    (hrun : Run ctx admits first h core) : Unequivocal ctx (ledOf h) := by
  obtain ⟨-, horderly⟩ := Leading.run hcreate hrun
  refine ⟨horderly.payload_eq, fun view phase => horderly.length_le_one view, ?_,
    horderly.justified⟩
  intro pre st post hsplit hne
  have hbefore := (horderly.justified st (hsplit ▸ by simp) hne).phase
  have hlater : st.justify.phase ≠ .newView := by
    intro hnewView
    rw [hnewView] at hbefore
    exact hne (Option.some.inj (Phase.predecessor_eq_some_iff.mp hbefore)).symm
  obtain ⟨before, hmem, hballot⟩ := horderly.supported pre st post hsplit _ hbefore hlater
  have hphase : before.phase = st.justify.phase := congrArg Ballot.phase hballot
  exact ⟨before, hmem, congrArg Ballot.view hballot, hphase ▸ hbefore⟩

end Lives

namespace Straying

/-- The leader of view 0. -/
def ctx : Context := .numbered .four 0 (by decide)

/-- A payload that does not extend the committed chain. -/
def payload : Payload := ⟨⟨[9]⟩, [80]⟩

/-- A member announces view 0. -/
def enters (n : UInt8) : Cue :=
  .input (.numbered n 0 .newView Scheme.transparent.genesisPayload Scheme.transparent.genesis)

/-- The leader is asked to propose the payload in a slot that is made up. -/
def proposes : Cue := .input (.propose ⟨0, Scheme.transparent.genesis, some payload⟩ [])

/-- The leader is asked to propose something else. -/
def changes : Cue := .input (.propose ⟨0, Scheme.transparent.genesis, none⟩ [81])

/-- All others vote for the payload. -/
def votes (phase : Phase) : List Cue :=
  [1, 2, 3].map fun n =>
    .input (.message (.vote (Scheme.transparent.castVote (.numbered n) ⟨phase, 0, payload⟩)))

/-- The payload is taken through view 0, against the replica of the leader. -/
def script : List Cue :=
  [.input .start, enters 1, enters 2, proposes, changes] ++ votes .prepare ++ [proposes] ++
    votes .preCommit ++ votes .commit ++ [.restart, proposes]

end Straying

open Straying in
/-- A leader is asked for a proposal that its own replica rejects, for another one, and for the
first one again after it was certified. All that it says is on the first one, and it says nothing on
it after a restart. -/
theorem leader_never_equivocates_on_stray_slots :
    ∃ h core, Core.create ctx ({} : MemoryStore) = .ok (.fresh ctx) ∧
      Run ctx (fun _ _ => True) (Core.fresh ctx) h core ∧
      (ledOf h).map Statement.ballot = [⟨.prepare, 0, payload⟩, ⟨.preCommit, 0, payload⟩,
        ⟨.prepare, 0, payload⟩, ⟨.commit, 0, payload⟩, ⟨.decide, 0, payload⟩] ∧
      Unequivocal ctx (ledOf h) := by
  obtain ⟨h, core, hrun, hled⟩ := Run.exists_play
    (P := fun h _ => (ledOf h).map Statement.ballot = [⟨.prepare, 0, payload⟩,
      ⟨.preCommit, 0, payload⟩, ⟨.prepare, 0, payload⟩, ⟨.commit, 0, payload⟩,
      ⟨.decide, 0, payload⟩])
    (show ((Core.fresh ctx).play ctx (fun _ _ => True) [] script).map _ = some true by
      decide +kernel)
  exact ⟨h, core, Core.create_fresh ctx, hrun, hled,
    leader_never_equivocates (Core.create_fresh ctx) hrun⟩

end HotStuff
