import HotStuff.Proofs.Changes

/-!
# What Leaves Before It Is Saved

A vote binds its member, and so does the announcement of a view or an executed payload: none of them
should leave before the state behind it is saved, or a restart may take the member back behind its
own word. But a replica whose attempt to save is refused goes on all the same. Here saving may fail
at any attempt, and a process may be restarted from whatever was stored last.

What is handed out is durable, and no two payloads are voted for in one phase of a view, as long as
nothing that binds leaves from a state that the store has refused. Nothing else can go wrong. A vote
that was durable when it left is kept whatever is refused later: every later vote is for a later
place.

## Main definitions

* `Replica.Durable`, `Replica.Refused`: the store holds the state of a replica, or has refused it.
* `Action.binds`, `Turn.Exposed`: something that binds leaves from a refused state.
* `DurableFirst`: nothing that binds leaves before it is durable, and no phase is voted in twice.
* `Ballot.Before`, `VotedBefore`: the order of places, and that of votes in a history.

## Main results

* `Run.durable_or_refused`: a state that is not stored was refused at the last attempt to save.
* `Run.before_of_durable`: a durable vote is kept.
* `durableFirst_iff_not_exposed`: nothing else can go wrong.
* `refused_save_votes_twice`: one refused attempt is enough for two votes in one phase.
-/

namespace HotStuff

/-! ### Stores that refuse -/

namespace UnreliableStore

variable (store : UnreliableStore) (saved : SavedState)

/-- Every attempt to save is counted. -/
@[simp] theorem saves_save : (StateStore.save store saved).2.saves = store.saves + 1 := by
  simp only [StateStore.save]
  split <;> rfl

/-- Which attempts are refused does not change. -/
@[simp] theorem refusesSave_save :
    (StateStore.save store saved).2.refusesSave = store.refusesSave := by
  simp only [StateStore.save]
  split <;> rfl

/-- An attempt that is refused leaves what was stored before it. -/
@[simp] theorem inner_save :
    (StateStore.save store saved).2.inner.state =
      if store.refusesSave store.saves then store.inner.state else some saved := by
  simp only [StateStore.save]
  split <;> rfl

variable {store}

/-- What is loaded is what is stored. -/
theorem state_of_load {loaded : Option SavedState} (h : StateStore.load store = .ok loaded) :
    store.inner.state = loaded := by
  simp only [StateStore.load] at h
  split at h
  · cases h
  · exact Except.ok.inj h

end UnreliableStore

namespace Replica

variable (r : Replica UnreliableStore)

/-- **A durable replica.** The store holds its progress. -/
def Durable : Prop := r.store.inner.state = some r.state.saved

instance : Decidable r.Durable := inferInstanceAs (Decidable (_ = _))

/-- **A refused state.** The last attempt to save was refused, and the store holds something else
than the progress of the replica, or nothing. -/
def Refused : Prop := r.store.refusesSave (r.store.saves - 1) = true ∧ ¬ r.Durable

instance : Decidable r.Refused := inferInstanceAs (Decidable (_ ∧ _))

variable {r} {r' : Replica UnreliableStore}

/-- After an attempt to save the state is stored, unless it was refused. -/
theorem durable_or_refused_of_save {store : UnreliableStore}
    (h : r.store = (StateStore.save store r.state.saved).2) : r.Durable ∨ r.Refused := by
  by_cases hdurable : r.Durable
  · exact Or.inl hdurable
  · refine Or.inr ⟨?_, hdurable⟩
    rw [Durable, h, UnreliableStore.inner_save] at hdurable
    rw [h, UnreliableStore.refusesSave_save, UnreliableStore.saves_save, Nat.add_sub_cancel]
    by_contra haccepts
    exact hdurable (if_neg haccepts)

/-- Saving at most once leaves a state that is stored, or that was refused, so again. -/
theorem SavesOnce.durable_or_refused (hsaves : r.SavesOnce r') (h : r.Durable ∨ r.Refused) :
    r'.Durable ∨ r'.Refused := by
  rcases hsaves with ⟨hstore, hsaved⟩ | hsave
  · simpa only [Durable, Refused, hstore, hsaved] using h
  · exact durable_or_refused_of_save hsave

end Replica

/-! ### What binds a member -/

/-- Whether an action binds the member: it casts a vote, announces a view or executes a payload. -/
def Action.binds : Action → Bool
  | .send _ (.vote _) | .broadcast (.vote _) => true
  | .send _ (.statement .newView _) | .broadcast (.statement .newView _) => true
  | .execute .. => true
  | _ => false

/-- Every deed binds. -/
theorem Action.binds_of_deed? {a : Action} {deed : Deed} (h : a.deed? = some deed) :
    a.binds = true := by
  cases a with
  | send _ message | broadcast message =>
      cases message with
      | vote => rfl
      | statement => cases h
  | execute => rfl
  | resetTimer | notify => cases h

/-- Something that binds the member is said in a turn. -/
def Turn.Binds {σ : Type} (t : Turn σ) : Prop := ∃ a ∈ t.said, a.binds = true

instance {σ : Type} (t : Turn σ) : Decidable t.Binds :=
  inferInstanceAs (Decidable (∃ a ∈ t.said, a.binds = true))

/-- A vote binds. -/
theorem Turn.binds_of_vote {σ : Type} {t : Turn σ} {b : Ballot} (h : .vote b ∈ t.deeds) :
    t.Binds := by
  obtain ⟨a, ha, hdeed⟩ := List.mem_filterMap.mp h
  exact ⟨a, ha, Action.binds_of_deed? hdeed⟩

/-- **Exposed.** Something that binds the member leaves from a state that the store has refused. -/
def Turn.Exposed (t : Turn UnreliableStore) : Prop := t.Binds ∧ t.after.replica.Refused

instance (t : Turn UnreliableStore) : Decidable t.Exposed := inferInstanceAs (Decidable (_ ∧ _))

/-- **Durable first.** Whenever something that binds the member leaves, the state behind it is
stored; and there are no votes for different payloads in one phase of a view. -/
structure DurableFirst (h : List (Turn UnreliableStore)) : Prop where
  durable : ∀ t ∈ h, t.Binds → t.after.replica.Durable
  single : ∀ b ∈ ballotsOf h, ∀ b' ∈ ballotsOf h,
    b.view = b'.view → b.phase = b'.phase → b.payload = b'.payload

/-- One ballot is for an earlier place than another one. -/
def Ballot.Before (b b' : Ballot) : Prop :=
  b.view < b'.view ∨ b.view = b'.view ∧ b.phase.rank < b'.phase.rank

/-- Ballots of one view, of which one is before the other, are of different phases. -/
theorem Ballot.Before.not_same {b b' : Ballot} (h : b.Before b') (hview : b.view = b'.view) :
    b.phase ≠ b'.phase := by
  intro hphase
  rcases h with hlt | ⟨-, hlt⟩
  · exact absurd hview (UInt64.ne_of_lt hlt)
  · exact absurd (congrArg Phase.rank hphase) (Nat.ne_of_lt hlt)

/-- One ballot is voted for in an earlier turn of a history than another one. -/
def VotedBefore {σ : Type} (h : List (Turn σ)) (b b' : Ballot) : Prop :=
  ∃ pre t post, h = pre ++ t :: post ∧ .vote b ∈ t.deeds ∧ b' ∈ ballotsOf post

/-- Two ballots are voted for in one turn, or one of them before the other. -/
theorem votedBefore_cases {σ : Type} {h : List (Turn σ)} {b b' : Ballot} (hb : b ∈ ballotsOf h)
    (hb' : b' ∈ ballotsOf h) :
    (∃ t ∈ h, .vote b ∈ t.deeds ∧ .vote b' ∈ t.deeds) ∨ VotedBefore h b b' ∨
      VotedBefore h b' b := by
  obtain ⟨t, ht, hvote⟩ := mem_ballotsOf.mp hb
  obtain ⟨t', ht', hvote'⟩ := mem_ballotsOf.mp hb'
  obtain ⟨pre, post, rfl⟩ := List.append_of_mem ht
  rcases List.mem_append.mp ht' with hpre | hpost
  · obtain ⟨pre, mid, rfl⟩ := List.append_of_mem hpre
    refine Or.inr (Or.inr ⟨pre, t', mid ++ t :: post, by simp, hvote', ?_⟩)
    exact mem_ballotsOf.mpr ⟨t, by simp, hvote⟩
  · rcases List.mem_cons.mp hpost with rfl | hpost
    · exact Or.inl ⟨t', ht, hvote, hvote'⟩
    · exact Or.inr (Or.inl ⟨pre, t, post, rfl, hvote, mem_ballotsOf.mpr ⟨t', hpost, hvote'⟩⟩)

/-! ### Runs on a store that refuses -/

section Runs

variable {ctx : Context} {admits : List (Turn UnreliableStore) → Input → Prop}
  {store : UnreliableStore} {first core : Core UnreliableStore}
  {h pre post : List (Turn UnreliableStore)} {t : Turn UnreliableStore} {b : Ballot}

/-- **A state that is not stored was refused** at the last attempt to save it, whatever turns led
there. -/
theorem Run.durable_or_refused (hcreate : Core.create ctx store = .ok first)
    (hrun : Run ctx admits first h core) :
    (core.replica.Durable ∨ core.replica.Refused) ∧
      ∀ t ∈ h, t.Kind ctx ∧ (t.after.replica.Durable ∨ t.after.replica.Refused) := by
  have hstart {store : UnreliableStore} {core : Core UnreliableStore}
      (hcreate : Core.create ctx store = .ok core) : core.replica.Durable ∨ core.replica.Refused :=
    Replica.durable_or_refused_of_save (Replica.create_attempts (Core.create_ok hcreate).1).1
  refine Run.induction (P := fun h core => (core.replica.Durable ∨ core.replica.Refused) ∧
    ∀ t ∈ h, t.Kind ctx ∧ (t.after.replica.Durable ∨ t.after.replica.Refused))
    ?turn ⟨hstart hcreate, fun t ht => absurd ht List.not_mem_nil⟩ ?tidy ?restart hrun
  case turn =>
    intro h core input now core' said ⟨hcore, hturns⟩ _ htake
    have hkind := Core.kind_of_take htake
    have hcore' := (Turn.savesOnce_of_kind hkind).durable_or_refused hcore
    refine ⟨hcore', fun t ht => ?_⟩
    rcases List.mem_append.mp ht with ht | ht
    · exact hturns t ht
    · obtain rfl := List.mem_singleton.mp ht
      exact ⟨hkind, hcore'⟩
  case tidy =>
    rintro h core _ hP ⟨status, metrics, rfl⟩
    exact hP
  case restart =>
    intro h core core' ⟨_, hturns⟩ hcreate
    exact ⟨hstart hcreate, hturns⟩

/-- **A place that is reached for good**: the replica is there or past it, and the store holds a
state of that view or a later one. -/
structure Replica.Reaches (r : Replica UnreliableStore) (b : Ballot) : Prop where
  reached : r.state.Attains b.view b.phase
  stored : ∃ saved, r.store.inner.state = some saved ∧ b.view ≤ saved.view

namespace Replica.Reaches

variable {r r' : Replica UnreliableStore}

/-- The place of a vote is reached for good as soon as the state behind it is stored. -/
theorem of_vote (hplace : r.state.view = b.view ∧ r.state.phase = b.phase) (hdurable : r.Durable) :
    r.Reaches b := by
  obtain ⟨hview, hphase⟩ := hplace
  exact ⟨Or.inr ⟨hview.symm, hphase ▸ Nat.le_refl _⟩,
    _, hdurable, hview ▸ UInt64.le_refl _⟩

/-- An attempt to save does not bring a view back, refused or not. -/
theorem stored_of_save {store : UnreliableStore} {saved : SavedState} (hview : b.view ≤ saved.view)
    (h : ∃ saved, store.inner.state = some saved ∧ b.view ≤ saved.view) :
    ∃ saved', (StateStore.save store saved).2.inner.state = some saved' ∧ b.view ≤ saved'.view := by
  rw [UnreliableStore.inner_save]
  split
  · exact h
  · exact ⟨saved, rfl, hview⟩

/-- What is reached stays so. -/
theorem change (h : r.Reaches b) {ds : List Deed} (hchange : Change ctx r.state ds r'.state)
    (hsaves : r.SavesOnce r') : r'.Reaches b := by
  have hreached := h.reached.trans hchange.precedes.place
  refine ⟨hreached, ?_⟩
  rcases hsaves with ⟨hstore, -⟩ | hsave
  · exact hstore ▸ h.stored
  · exact hsave ▸ stored_of_save hreached.view_le h.stored

/-- A process that starts from the store begins in a later view. -/
theorem create (h : r.Reaches b) (hcreate : Replica.create ctx r.store = .ok r') :
    r'.Reaches b := by
  obtain ⟨saved, hsaved, hview⟩ := h.stored
  obtain ⟨hstore, loaded, hload, hstate⟩ := Replica.create_attempts hcreate
  obtain rfl := hsaved.symm.trans (UnreliableStore.state_of_load hload)
  have hlater : b.view < r'.state.view := by
    simp only [ReplicaState.resume] at hstate
    split at hstate
    · next view hnext =>
        rw [← Except.ok.inj hstate]
        exact UInt64.lt_of_le_of_lt hview (View.lt_of_next? hnext)
    · cases hstate
  exact ⟨Or.inl hlater, hstore ▸ stored_of_save (UInt64.le_of_lt hlater) h.stored⟩

/-- Whatever is voted for next comes later. -/
theorem before (h : r.Reaches b) {ds : List Deed} {s' : ReplicaState}
    (hchange : Change ctx r.state ds s') {b' : Ballot} (hvote : .vote b' ∈ ds) : b.Before b' := by
  obtain ⟨-, -, -, hahead⟩ := hchange.vote_place hvote
  rcases h.reached with hlt | ⟨hview, hrank⟩
  · rcases hahead with hlater | ⟨hsame, -⟩
    · exact Or.inl (UInt64.lt_trans hlt hlater)
    · exact Or.inl (hsame ▸ hlt)
  · rcases hahead with hlater | ⟨hsame, hnext⟩
    · exact Or.inl (hview ▸ hlater)
    · exact Or.inr ⟨hview.trans hsame, Nat.lt_of_le_of_lt hrank hnext⟩

end Replica.Reaches

/-- The place of a durable vote stays reached, and every later vote comes after it. The induction is
on the run up to the present; the vote is in its last turn, or in one before. -/
theorem Run.reaches_of_durable (hrun : Run ctx admits first h core) (hsplit : h = pre ++ t :: post)
    (hdurable : t.after.replica.Durable) (hvote : .vote b ∈ t.deeds) :
    core.replica.Reaches b ∧ ∀ b' ∈ ballotsOf post, b.Before b' := by
  refine Run.induction (P := fun h core => ∀ post, h = pre ++ t :: post →
    core.replica.Reaches b ∧ ∀ b' ∈ ballotsOf post, b.Before b')
    ?turn (fun post hnil => ?boot) ?tidy ?restart hrun post hsplit
  case boot => exact absurd hnil.symm (by simp)
  case turn =>
    intro h core input now core' said hP _ htake post hsplit
    have hkind := Core.kind_of_take htake
    have hchange := Turn.change_of_kind hkind
    rcases concat_eq_append_cons hsplit with ⟨-, rfl, rfl⟩ | ⟨rest, rfl, hh⟩
    · obtain ⟨-, hview, hphase, -⟩ := hchange.vote_place hvote
      exact ⟨.of_vote ⟨hview, hphase⟩ hdurable, fun b' hb' => absurd hb' List.not_mem_nil⟩
    · obtain ⟨hreaches, hbefore⟩ := hP rest hh
      refine ⟨hreaches.change hchange (Turn.savesOnce_of_kind hkind), fun b' hb' => ?_⟩
      rw [ballotsOf_append, List.mem_append] at hb'
      rcases hb' with hb' | hb'
      · exact hbefore b' hb'
      · obtain ⟨t', ht', hvote'⟩ := mem_ballotsOf.mp hb'
        obtain rfl := List.mem_singleton.mp ht'
        exact hreaches.before hchange hvote'
  case tidy =>
    rintro h core _ hP ⟨status, metrics, rfl⟩
    exact hP
  case restart =>
    intro h core core' hP hcreate post hsplit
    obtain ⟨hreaches, hbefore⟩ := hP post hsplit
    exact ⟨hreaches.create (Core.create_ok hcreate).1, hbefore⟩

/-- **A durable vote is kept.** Every later vote is for a later place, whatever is refused. -/
theorem Run.before_of_durable (hrun : Run ctx admits first (pre ++ t :: post) core)
    (hdurable : t.after.replica.Durable) (hvote : .vote b ∈ t.deeds) :
    ∀ b' ∈ ballotsOf post, b.Before b' :=
  (hrun.reaches_of_durable rfl hdurable hvote).2

/-- Where everything that binds is durable, votes of later turns are for later places. -/
theorem Run.before_of_votedBefore (hrun : Run ctx admits first h core)
    (hdurable : ∀ t ∈ h, t.Binds → t.after.replica.Durable) {b b' : Ballot}
    (hvoted : VotedBefore h b b') : b.Before b' := by
  obtain ⟨pre, t, post, rfl, hvote, hlater⟩ := hvoted
  have ht : t ∈ pre ++ t :: post := List.mem_append_right pre (List.mem_cons_self ..)
  exact hrun.before_of_durable (hdurable t ht (Turn.binds_of_vote hvote)) hvote b' hlater

/-- Durable votes in one phase of a view are for one payload. -/
theorem Run.payload_eq_of_durable (hcreate : Core.create ctx store = .ok first)
    (hrun : Run ctx admits first h core)
    (hdurable : ∀ t ∈ h, t.Binds → t.after.replica.Durable) {b b' : Ballot}
    (hb : b ∈ ballotsOf h) (hb' : b' ∈ ballotsOf h) (hview : b.view = b'.view)
    (hphase : b.phase = b'.phase) : b.payload = b'.payload := by
  rcases votedBefore_cases hb hb' with ⟨t, ht, hvote, hvote'⟩ | hlater | hearlier
  · have hkind := ((hrun.durable_or_refused hcreate).2 t ht).1
    have hone := ((Turn.change_of_kind hkind).vote_place hvote).1
    obtain rfl := Deed.vote.inj (List.mem_singleton.mp (hone ▸ hvote'))
    rfl
  · exact absurd hphase ((hrun.before_of_votedBefore hdurable hlater).not_same hview)
  · exact absurd hphase.symm ((hrun.before_of_votedBefore hdurable hearlier).not_same hview.symm)

/-- **Nothing else can go wrong.** On a store that may refuse any attempt to save, through all
processes of a member, nothing that binds leaves before it is durable, and no two payloads are voted
for in one phase of a view, exactly if nothing that binds leaves from a refused state. Where
something does, each vote that was durable when it left is kept all the same. -/
theorem durableFirst_iff_not_exposed (hcreate : Core.create ctx store = .ok first)
    (hrun : Run ctx admits first h core) :
    (DurableFirst h ↔ ∀ t ∈ h, ¬ t.Exposed) ∧
      ∀ pre t post, h = pre ++ t :: post → t.after.replica.Durable →
        ∀ b, .vote b ∈ t.deeds → ∀ b' ∈ ballotsOf post, b.Before b' := by
  refine ⟨⟨fun hfirst t ht hexposed => ?_, fun hsafe => ?_⟩, ?_⟩
  · obtain ⟨hbinds, -, hnot⟩ := hexposed
    exact hnot (hfirst.durable t ht hbinds)
  · have hdurable : ∀ t ∈ h, t.Binds → t.after.replica.Durable := fun t ht hbinds =>
      ((hrun.durable_or_refused hcreate).2 t ht).2.resolve_right fun hrefused =>
        hsafe t ht ⟨hbinds, hrefused⟩
    exact ⟨hdurable, fun b hb b' hb' => hrun.payload_eq_of_durable hcreate hdurable hb hb'⟩
  · rintro pre t post rfl hdurable b hvote
    exact hrun.before_of_durable hdurable hvote

end Runs

namespace Refusing

/-- The second of four members. -/
def ctx : Context := .numbered .four 1 Committee.one_mem_four

/-- An empty store that refuses the first attempt to save. -/
def store : UnreliableStore := { refusesSave := fun attempt => attempt == 0 }

/-- The core that starts on it, in view 0, with nothing stored. -/
def core : Core UnreliableStore :=
  let state := ReplicaState.initial ctx.scheme.genesisDigest
  ⟨Replica.persist ⟨store, state⟩, .empty, .empty, .of ctx state, .start state.view state.height⟩

/-- A core starts on the store although the first attempt to save is refused. -/
theorem create_store : Core.create ctx store = .ok core := rfl

/-- A payload on the genesis digest. -/
def payload (data : UInt8) : Payload := ⟨Scheme.transparent.genesisDigest, [data]⟩

/-- A proposal of a view from its leader. -/
def proposal (leader : UInt8) (view : View) (data : UInt8) : Cue :=
  .input (.numbered leader view .prepare (payload data) Scheme.transparent.genesis)

/-- A ballot for a proposal. -/
def ballot (view : View) (data : UInt8) : Ballot := ⟨.prepare, view, payload data⟩

end Refusing

open Refusing in
/-- The first attempt to save is refused. Proposals for later views are saved before they are voted
for, so the votes before and after a restart are in different views. -/
theorem durableFirst_of_later_views :
    ∃ h core', Core.create ctx store = .ok core ∧ Run ctx (OwnSeals ctx) core h core' ∧
      ballotsOf h = [ballot 2 80, ballot 3 81] ∧ (∀ t ∈ h, ¬ t.Exposed) ∧ DurableFirst h := by
  obtain ⟨h, core', hrun, hballots, hsafe⟩ := Run.exists_play
    (P := fun h _ => ballotsOf h = [ballot 2 80, ballot 3 81] ∧ ∀ t ∈ h, ¬ t.Exposed)
    (show (core.play ctx (OwnSeals ctx) []
      [proposal 2 2 80, .restart, proposal 3 3 81]).map _ = some true by decide +kernel)
  exact ⟨h, core', create_store, hrun, hballots, hsafe,
    (durableFirst_iff_not_exposed create_store hrun).1.mpr hsafe⟩

open Refusing in
/-- **One refused attempt, two votes.** The store refuses the state that the first process starts
in. The member votes for the proposal of view 0 all the same, though nothing is stored. A restart
begins in view 0 again, where the member votes for another payload. -/
theorem refused_save_votes_twice :
    ∃ h core', Core.create ctx store = .ok core ∧ Run ctx (OwnSeals ctx) core h core' ∧
      ballotsOf h = [ballot 0 80, ballot 0 81] ∧ (∃ t ∈ h, t.Binds ∧ ¬ t.after.replica.Durable) ∧
      ¬ DurableFirst h := by
  obtain ⟨h, core', hrun, hballots, hlost⟩ := Run.exists_play
    (P := fun h _ => ballotsOf h = [ballot 0 80, ballot 0 81] ∧
      ∃ t ∈ h, t.Binds ∧ ¬ t.after.replica.Durable)
    (show (core.play ctx (OwnSeals ctx) []
      [proposal 0 0 80, .restart, proposal 0 0 81]).map _ = some true by decide +kernel)
  refine ⟨h, core', create_store, hrun, hballots, hlost, fun hfirst => ?_⟩
  have hpayload := hfirst.single (ballot 0 80) (by simp [hballots]) (ballot 0 81)
    (by simp [hballots]) rfl rfl
  exact absurd hpayload (by decide)

end HotStuff
