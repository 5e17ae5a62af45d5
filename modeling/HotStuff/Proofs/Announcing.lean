import HotStuff.Proofs.Capacity
import HotStuff.Proofs.Slots

/-!
# The History of Announcements

A leader keeps one entry for each member, moves it with every later announcement, drops rounds that
are left empty, and forgets what is over. What it proposes on does not depend on any of this. Let
the announcements be listed that it took since its process was created. A member counts for the
current view if that is the latest view it announced, and with the certificate it brought there
first. So announcements of different members may come in any order.

The invariant is `Collector.Mirrors`: whoever is held in a view has announced it and none after it;
and of the views that are not over, whoever announced one last is held there with what it brought
first. The replica moves on and views are forgotten, and the second half asks for less.

## Main definitions

* `Core.Lives`: a process with all its turns since it was created.
* `announcedIn`: the announcements that were taken in a history.
* `LatestIn`, `firstIn`, `entrants`: who announced a view last, and what it brought first.
* `Collector.Mirrors`: a collector mirrors the announcements.
* `slotFor`: the slot that the announcements amount to.

## Main results

* `Core.Lives.mirrors`: the collector of a process mirrors the announcements it took.
* `Core.Lives.slot?_eq`: the slot of a process is the one that the announcements amount to.
* `slot_decided_by_announcements`: when there is a slot, on which certificate, and in which orders.
-/

namespace HotStuff

/-! ### The life of a process -/

section Lives

variable {σ : Type} [StateStore σ] {ctx : Context} {first core core' : Core σ} {h : List (Turn σ)}

/-- **The life of a process**: all turns since it was created, and the core after them. -/
inductive Core.Lives (ctx : Context) (first : Core σ) : List (Turn σ) → Core σ → Prop
  | boot : Lives ctx first [] first
  | answer {h core now input core' out} (hlives : Lives ctx first h core)
      (hreact : core.react ctx now input = .ok (core', out)) :
      Lives ctx first (h ++ core.turns ctx now input) core'

namespace Core.Lives

/-- What a process has lived through takes its core onward. -/
theorem onward (hlives : first.Lives ctx h core) : first.Onward ctx core := by
  induction hlives with
  | boot => exact .refl
  | answer _ hreact ih => exact .answer ih hreact

/-- What a process on a store has lived through is reached by inputs. -/
theorem reached {store : σ} (hcreate : Core.create ctx store = .ok first)
    (hlives : first.Lives ctx h core) : core.Reached ctx :=
  ⟨store, first, hcreate, hlives.onward⟩

/-- **Induction on the life of a process.** What holds at its creation, and is kept by every turn
and by tidying up, holds at any time. -/
theorem induction {P : List (Turn σ) → Core σ → Prop} (hlives : first.Lives ctx h core)
    (boot : P [] first)
    (turn : ∀ h core input now core' said, P h core →
      core.take ctx now input = .ok (core', said) → P (h ++ [⟨core, input, said, core'⟩]) core')
    (tidy : ∀ h core core', P h core → core.Tidied core' → P h core') : P h core := by
  induction hlives with
  | boot => exact boot
  | @answer h core now input core' out _ hreact ih =>
      have hlast := keeps_of_turns turn ih now input
      rcases (Core.react_ok hreact).1 with rfl | htidied
      · exact hlast
      · exact tidy _ _ _ hlast htidied

end Core.Lives

end Lives

/-! ### Announcements -/

/-- The announcement that a turn takes: one that passes all checks of the leader. -/
def Turn.announcement? {σ : Type} (ctx : Context) (t : Turn σ) : Option SignedStatement :=
  match t.input with
  | .message (.statement .newView signed) =>
    match Leader.checkNewView ctx t.before.replica.state.view signed with
    | .ok _ => some signed
    | .error _ => none
  | _ => none

/-- **The announcements taken in a history**, oldest first. -/
def announcedIn {σ : Type} (ctx : Context) (h : List (Turn σ)) : List SignedStatement :=
  h.filterMap (Turn.announcement? ctx)

/-- **The latest view of a member**, among announcements: it announced that one, and none after
it. -/
def LatestIn (as : List SignedStatement) (m : MemberId) (view : View) : Prop :=
  (∃ a ∈ as, a.signer = m ∧ a.body.view = view) ∧ ∀ a ∈ as, a.signer = m → a.body.view ≤ view

instance (as : List SignedStatement) (m : MemberId) (view : View) :
    Decidable (LatestIn as m view) :=
  inferInstanceAs (Decidable (_ ∧ _))

/-- The certificate that a member brought when it announced a view first. -/
def firstIn (as : List SignedStatement) (m : MemberId) (view : View) : Option Certificate :=
  (as.find? fun a => a.signer = m ∧ a.body.view = view).map fun a => a.body.justify

/-- **The members in a view**: those whose latest view it is. -/
def entrants (committee : Committee) (as : List SignedStatement) (view : View) : List MemberId :=
  committee.members.filter fun m => LatestIn as m view

/-- **The slot that announcements amount to**, for a replica. -/
def slotFor (ctx : Context) (as : List SignedStatement) (s : ReplicaState) : Option Slot :=
  let present := entrants ctx.committee as s.view
  if ctx.leads s.view ∧ s.phase = .newView ∧ ctx.committee.quorum ≤ present.length then
    (Collector.latest (present.filterMap fun m => firstIn as m s.view)).map fun justify =>
      ⟨s.view, justify, justify.pending? s.committed⟩
  else none

section Announced

variable {as bs : List SignedStatement} {a : SignedStatement} {m : MemberId} {view v : View}
  {cert : Certificate}

/-- A member announces at most one view last. -/
theorem LatestIn.eq (h : LatestIn as m view) (h' : LatestIn as m v) : view = v := by
  obtain ⟨⟨a, ha, ham, rfl⟩, hmax⟩ := h
  obtain ⟨⟨b, hb, hbm, rfl⟩, hmax'⟩ := h'
  exact UInt64.le_antisymm (hmax' a ha ham) (hmax b hb hbm)

/-- Who announced a view has a latest one. -/
theorem exists_latestIn (h : ∃ a ∈ as, a.signer = m) : ∃ view, LatestIn as m view := by
  induction as with
  | nil => simp at h
  | cons b as ih =>
      by_cases hrest : ∃ a ∈ as, a.signer = m
      · obtain ⟨view, ⟨c, hc, hcm, hcview⟩, hmax⟩ := ih hrest
        by_cases hb : b.signer = m ∧ view < b.body.view
        · refine ⟨b.body.view, ⟨b, List.mem_cons_self .., hb.1, rfl⟩, fun a ha ham => ?_⟩
          rcases List.mem_cons.mp ha with rfl | ha
          · exact UInt64.le_refl _
          · exact UInt64.le_trans (hmax a ha ham) (UInt64.le_of_lt hb.2)
        · refine ⟨view, ⟨c, List.mem_cons_of_mem _ hc, hcm, hcview⟩, fun a ha ham => ?_⟩
          rcases List.mem_cons.mp ha with rfl | ha
          · exact UInt64.not_lt.mp fun hlt => hb ⟨ham, hlt⟩
          · exact hmax a ha ham
      · obtain ⟨a, ha, ham⟩ := h
        have hab : a = b := (List.mem_cons.mp ha).resolve_right fun ha => hrest ⟨a, ha, ham⟩
        refine ⟨b.body.view, ⟨b, List.mem_cons_self .., hab ▸ ham, rfl⟩, fun c hc hcm => ?_⟩
        rcases List.mem_cons.mp hc with rfl | hc
        · exact UInt64.le_refl _
        · exact absurd ⟨c, hc, hcm⟩ hrest

/-- An announcement of another member does not matter. -/
theorem latestIn_concat_of_ne (hne : m ≠ a.signer) :
    LatestIn (as ++ [a]) m view ↔ LatestIn as m view := by
  have hmem {b : SignedStatement} (hb : b.signer = m) : b ∈ as ++ [a] ↔ b ∈ as := by
    rw [List.mem_append, List.mem_singleton]
    exact or_iff_left fun heq => hne (heq ▸ hb.symm)
  constructor
  · rintro ⟨⟨b, hb, hbm, hview⟩, hmax⟩
    exact ⟨⟨b, (hmem hbm).mp hb, hbm, hview⟩, fun c hc hcm => hmax c ((hmem hcm).mpr hc) hcm⟩
  · rintro ⟨⟨b, hb, hbm, hview⟩, hmax⟩
    exact ⟨⟨b, (hmem hbm).mpr hb, hbm, hview⟩, fun c hc hcm => hmax c ((hmem hcm).mp hc) hcm⟩

/-- An announcement that is behind the latest one does not matter. -/
theorem latestIn_concat_of_lt (h : LatestIn as a.signer view) (hlt : a.body.view < view) :
    LatestIn (as ++ [a]) a.signer v ↔ LatestIn as a.signer v := by
  have hagain : LatestIn (as ++ [a]) a.signer view := by
    obtain ⟨⟨b, hb, hbm, hview⟩, hmax⟩ := h
    refine ⟨⟨b, List.mem_append_left _ hb, hbm, hview⟩, fun c hc hcm => ?_⟩
    rcases List.mem_append.mp hc with hc | hc
    · exact hmax c hc hcm
    · exact List.mem_singleton.mp hc ▸ UInt64.le_of_lt hlt
  exact ⟨fun hv => hagain.eq hv ▸ h, fun hv => h.eq hv ▸ hagain⟩

/-- An announcement that is behind none is the latest one. -/
theorem latestIn_concat_of_le (hmax : ∀ b ∈ as, b.signer = a.signer → b.body.view ≤ a.body.view) :
    LatestIn (as ++ [a]) a.signer v ↔ v = a.body.view := by
  have hlatest : LatestIn (as ++ [a]) a.signer a.body.view := by
    refine ⟨⟨a, by simp, rfl, rfl⟩, fun b hb hbm => ?_⟩
    rcases List.mem_append.mp hb with hb | hb
    · exact hmax b hb hbm
    · exact List.mem_singleton.mp hb ▸ UInt64.le_refl _
  exact ⟨fun hv => hv.eq hlatest, fun hv => hv ▸ hlatest⟩

/-- Something was brought to a view exactly if the view was announced. -/
theorem firstIn_isSome :
    (firstIn as m view).isSome ↔ ∃ a ∈ as, a.signer = m ∧ a.body.view = view := by
  simp [firstIn]

/-- What was brought first stays, and an announcement counts where there was none before it. -/
theorem firstIn_concat : firstIn (as ++ [a]) m view = (firstIn as m view).or
    (if a.signer = m ∧ a.body.view = view then some a.body.justify else none) := by
  rw [firstIn, List.find?_append, Option.map_or, firstIn, List.find?_singleton]
  simp only [decide_eq_true_eq]
  split
  · rfl
  · rfl

/-! ### Orders of announcements -/

/-- **Only the announcements of a member itself matter** to where it is. -/
theorem latestIn_filter :
    LatestIn (as.filter fun a => a.signer = m) m view ↔ LatestIn as m view := by
  simp only [LatestIn, List.mem_filter, decide_eq_true_eq, and_imp]
  constructor
  · rintro ⟨⟨a, ⟨ha, -⟩, ham, hview⟩, hmax⟩
    exact ⟨⟨a, ha, ham, hview⟩, fun b hb hbm => hmax b hb hbm hbm⟩
  · rintro ⟨⟨a, ha, ham, hview⟩, hmax⟩
    exact ⟨⟨a, ⟨ha, ham⟩, ham, hview⟩, fun b hb hbm _ => hmax b hb hbm⟩

/-- Only the announcements of a member itself matter to what it brought first. -/
theorem firstIn_filter : firstIn (as.filter fun a => a.signer = m) m view = firstIn as m view := by
  rw [firstIn, firstIn, List.find?_filter]
  congr 2
  funext a
  by_cases ha : a.signer = m <;> simp [ha]

/-- **Announcements in another order.** Each member announced the same, in the same order. -/
def SameByMember (as bs : List SignedStatement) : Prop :=
  ∀ m, (as.filter fun a => a.signer = m) = bs.filter fun a => a.signer = m

/-- Two changes of order one after the other are one. -/
theorem SameByMember.trans {cs : List SignedStatement} (h : SameByMember as bs)
    (h' : SameByMember bs cs) : SameByMember as cs := fun m => (h m).trans (h' m)

/-- The same announcement may come before announcements in two orders. -/
theorem SameByMember.cons (a : SignedStatement) (h : SameByMember as bs) :
    SameByMember (a :: as) (a :: bs) := by
  intro m
  rw [List.filter_cons, List.filter_cons, h m]

/-- Two announcements of different members may change places. -/
theorem SameByMember.swap {b : SignedStatement} (hne : a.signer ≠ b.signer) :
    SameByMember (a :: b :: as) (b :: a :: as) := by
  intro m
  by_cases ha : a.signer = m
  · have hb : b.signer ≠ m := fun hb => hne (ha.trans hb.symm)
    simp [ha, hb]
  · simp [List.filter_cons, ha]

/-- The order in which announcements of different members come does not matter to who is in a
view. -/
theorem SameByMember.entrants_eq (hsame : SameByMember as bs) (committee : Committee)
    (view : View) : entrants committee as view = entrants committee bs view := by
  refine List.filter_congr fun m _ => decide_eq_decide.mpr ?_
  rw [← latestIn_filter, hsame m, latestIn_filter]

/-- The order in which announcements of different members come does not matter to what one of them
brought first. -/
theorem SameByMember.firstIn_eq (hsame : SameByMember as bs) (m : MemberId) (view : View) :
    firstIn as m view = firstIn bs m view := by
  rw [← firstIn_filter, hsame m, firstIn_filter]

/-- The order in which announcements of different members come does not matter to the certificate of
a slot. -/
theorem SameByMember.slotFor_justify (hsame : SameByMember as bs) (ctx : Context)
    {s s' : ReplicaState} (hview : s'.view = s.view) (hphase : s'.phase = s.phase) :
    (slotFor ctx as s).map Slot.justify = (slotFor ctx bs s').map Slot.justify := by
  simp only [slotFor, hview, hphase, hsame.entrants_eq, hsame.firstIn_eq]
  split
  · simp only [Option.map_map]
    rfl
  · rfl

end Announced

/-! ### The collector mirrors the announcements -/

namespace Collector

variable {c c' : Collector} {as : List SignedStatement} {a : SignedStatement} {m : MemberId}
  {here later view : View} {committee : Committee} {count : Nat}

/-- **A collector mirrors announcements**, for a replica in the view `here`. -/
structure Mirrors (c : Collector) (as : List SignedStatement) (here : View) : Prop where
  /-- Whoever is held in a view announced it last. -/
  latest : ∀ m view, c.Holds m view → LatestIn as m view
  /-- Whoever announced a view last that is not over is held there with what it brought first. -/
  brought : ∀ m view, here ≤ view → LatestIn as m view → c.brought? m view = firstIn as m view

namespace Mirrors

/-- In a view that is not over, those are held who announced it last. -/
theorem holds_iff (h : c.Mirrors as here) (hle : here ≤ view) :
    c.Holds m view ↔ LatestIn as m view := by
  refine ⟨h.latest m view, fun hlatest => ?_⟩
  rw [Collector.holds_iff, h.brought m view hle hlatest, firstIn_isSome]
  exact hlatest.1

/-- A collector begins as the mirror of no announcements. -/
theorem empty (here : View) : Collector.empty.Mirrors [] here :=
  ⟨fun m view hm => absurd hm (not_holds_empty m view), fun _ _ _ hlatest => by
    obtain ⟨a, ha, -⟩ := hlatest.1
    cases ha⟩

/-- A replica that has moved on asks for less. -/
theorem mono (h : c.Mirrors as here) (hle : here ≤ later) : c.Mirrors as later :=
  ⟨h.latest, fun m view hview => h.brought m view (UInt64.le_trans hle hview)⟩

/-- A collector that holds the same mirrors the same announcements. -/
theorem congr (h : c.Mirrors as here) (hsame : c.HoldsSame c') : c'.Mirrors as here :=
  ⟨fun m view hm => h.latest m view (hsame.holds.mp hm), fun m view hle hlatest => by
    rw [brought?, hsame]
    exact h.brought m view hle hlatest⟩

/-- Views that are over can be forgotten. -/
theorem pruneBelow (h : c.Mirrors as here) : (c.pruneBelow here).Mirrors as here := by
  refine ⟨fun m view hm => h.latest m view (holds_pruneBelow.mp hm).2, fun m view hle hlatest => ?_⟩
  rw [brought?, round_pruneBelow, if_pos hle]
  exact h.brought m view hle hlatest

/-- Nobody has announced a later view than the one it is held in, among those that are not over. -/
theorem announced_le (h : c.Mirrors as here) (hhere : here ≤ view)
    (hheld : ∀ held, c.Holds m held → held ≤ view) :
    ∀ b ∈ as, b.signer = m → b.body.view ≤ view := by
  intro b hb hbm
  obtain ⟨last, hlast⟩ := exists_latestIn ⟨b, hb, hbm⟩
  have hle : b.body.view ≤ last := hlast.2 b hb hbm
  by_cases hover : here ≤ last
  · exact UInt64.le_trans hle (hheld last ((h.holds_iff hover).mpr hlast))
  · exact UInt64.le_trans hle (UInt64.le_trans (UInt64.le_of_lt (UInt64.not_le.mp hover)) hhere)

/-- **An announcement that is taken** joins the others. -/
theorem addNewView (h : c.Mirrors as here) (honce : c.HeldOnce) (hhere : here ≤ a.body.view)
    (hadd : c.addNewView committee a.body.view a.signer a.body.justify = .ok (count, c')) :
    c'.Mirrors (as ++ [a]) here := by
  rcases brought_addNewView honce hadd with ⟨held, hlt, hheld, rfl⟩ | ⟨hle, hbrought⟩
  · -- It is behind where its member is held, and nothing changes.
    have hlast := h.latest _ _ hheld
    have hsame (m : MemberId) (view : View) : LatestIn (as ++ [a]) m view ↔ LatestIn as m view := by
      by_cases hm : m = a.signer
      · exact hm ▸ latestIn_concat_of_lt hlast hlt
      · exact latestIn_concat_of_ne hm
    refine ⟨fun m view hm => (hsame m view).mpr (h.latest m view hm),
      fun m view hview hlatest => ?_⟩
    have hbefore := (hsame m view).mp hlatest
    rw [h.brought m view hview hbefore, firstIn_concat]
    obtain ⟨cert, hcert⟩ := Option.isSome_iff_exists.mp (firstIn_isSome.mpr hbefore.1)
    rw [hcert]
    rfl
  · -- Its member is held in the view announced, which is the latest one now.
    have hmax := h.announced_le hhere hle
    constructor
    · intro m view hm
      rw [Collector.holds_iff, hbrought] at hm
      by_cases heq : m = a.signer
      · subst heq
        rw [latestIn_concat_of_le hmax]
        rw [if_pos rfl] at hm
        split at hm
        · next hview => exact hview
        · cases hm
      · rw [if_neg heq] at hm
        exact (latestIn_concat_of_ne heq).mpr (h.latest m view hm)
    · intro m view hview hlatest
      rw [hbrought, firstIn_concat]
      by_cases heq : m = a.signer
      · subst heq
        obtain rfl := (latestIn_concat_of_le hmax).mp hlatest
        rw [if_pos rfl, if_pos rfl, if_pos ⟨rfl, rfl⟩]
        -- What it brought there before is held, if it did.
        have hbefore : c.brought? a.signer a.body.view = firstIn as a.signer a.body.view := by
          by_cases hbefore : LatestIn as a.signer a.body.view
          · exact h.brought _ _ hhere hbefore
          · have hnone : firstIn as a.signer a.body.view = none :=
              Option.not_isSome_iff_eq_none.mp fun hsome =>
                hbefore ⟨firstIn_isSome.mp hsome, hmax⟩
            rw [hnone]
            exact Option.not_isSome_iff_eq_none.mp fun hholds => hbefore (h.latest _ _ hholds)
        rw [hbefore]
        cases firstIn as a.signer a.body.view with
        | none => rfl
        | some cert => rfl
      · rw [if_neg heq, if_neg fun hplace => heq hplace.1.symm, Option.or_none]
        exact h.brought m view hview ((latestIn_concat_of_ne heq).mp hlatest)

/-- As many are held in the view of the replica as announced it last. -/
theorem newViewCount_eq (h : c.Mirrors as here) (hmembers : c.HoldsMembers committee) :
    c.newViewCount here = (entrants committee as here).length := by
  have hmem (m : MemberId) :
      m ∈ (c.round here).newViews.keys ↔ m ∈ entrants committee as here := by
    rw [← Table.contains_iff, entrants, List.mem_filter, decide_eq_true_eq,
      ← h.holds_iff (UInt64.le_refl here)]
    exact ⟨fun hm => ⟨hmembers m here hm, hm⟩, And.right⟩
  have hperm : List.Perm (c.round here).newViews.keys (entrants committee as here) :=
    (List.perm_ext_iff_of_nodup (c.round here).newViews.nodup_keys
      (committee.nodup.filter _)).mpr hmem
  rw [newViewCount, ← Table.length_keys]
  exact hperm.length_eq

/-- The highest certificate in the view of the replica is that of those who announced it last. -/
theorem highCertificate_eq (h : c.Mirrors as here) :
    c.highCertificate committee here =
      Collector.latest ((entrants committee as here).filterMap fun m => firstIn as m here) := by
  rw [highCertificate, entrants, List.filterMap_filter]
  refine congrArg Collector.latest (List.filterMap_congr fun m _ => ?_)
  have hle := UInt64.le_refl here
  change c.brought? m here = _
  by_cases hlatest : LatestIn as m here
  · rw [h.brought m here hle hlatest, if_pos (decide_eq_true hlatest)]
  · rw [if_neg (by simpa using hlatest)]
    exact Option.not_isSome_iff_eq_none.mp fun hm => hlatest ((h.holds_iff hle).mp hm)

end Mirrors

end Collector

/-! ### Turns -/

section Turns

variable {σ : Type} [StateStore σ] {ctx : Context} {core core' first : Core σ} {now : Instant}
  {h : List (Turn σ)}

/-- An announcement that passes the checks is accepted. -/
theorem Core.accepts_announcement {signed : SignedStatement}
    (hcheck : Leader.checkNewView ctx core.replica.state.view signed = .ok ()) :
    ∃ said mid, core.consider ctx (.statement .newView signed) = .ok (.ok said, mid) := by
  obtain ⟨hphase, hsigned⟩ : signed.body.phase = .newView ∧ ctx.verifySigned signed = .ok () := by
    simp only [Leader.checkNewView, bind_eq_ok, guard_throw_eq_ok, not_not] at hcheck
    obtain ⟨hphase, ⟨⟩, hsigned, -⟩ := hcheck
    exact ⟨hphase, hsigned⟩
  have hmember := (Context.verifySigned_ok hsigned).1
  have henvelope : checkEnvelope .newView signed = .ok () := if_pos hphase
  have hentry : ∃ entry votes, Leader.onNewView ctx core.votes core.replica.state.view signed =
      .ok (entry, votes) := by
    simp only [Leader.onNewView, hcheck, Collector.addNewView, if_neg (not_not.mpr hmember)]
    exact ⟨_, _, rfl⟩
  obtain ⟨entry, votes, hentry⟩ := hentry
  have hanswer : ∃ mid said, core.onNewView ctx signed = .ok (mid, said) := by
    rw [Core.onNewView, hentry]
    simp only [bind, Except.bind]
    split
    · exact ⟨_, _, rfl⟩
    · exact ⟨_, _, rfl⟩
  obtain ⟨mid, said, hanswer⟩ := hanswer
  exact ⟨said, mid, by simp only [consider, henvelope, hanswer]⟩

omit [StateStore σ] in
/-- A turn brings an announcement exactly if it is the turn of one that passes the check at the
entry. -/
theorem Turn.announcement?_eq_some {t : Turn σ} {a : SignedStatement} :
    t.announcement? ctx = some a ↔ t.input = .message (.statement .newView a) ∧
      Leader.checkNewView ctx t.before.replica.state.view a = .ok () := by
  rw [announcement?]
  constructor
  · intro hsome
    split at hsome
    · next signed hinput =>
        split at hsome
        · next hcheck =>
            obtain rfl := Option.some.inj hsome
            exact ⟨hinput, hcheck⟩
        · cases hsome
    · cases hsome
  · rintro ⟨hinput, hcheck⟩
    simp only [hinput, hcheck]

/-- What a leader does on a vote moves no member. -/
theorem Leader.holdsSame_of_onVote {c c' : Collector} {here : View} {vote : Vote}
    {said : Except Error (Option SignedStatement)} (hok : onVote ctx c here vote = (said, c')) :
    c.HoldsSame c' := by
  refine kept_of_onVote (P := c.HoldsSame) ?_ ?_ hok fun _ => rfl
  · intro mid mid' outcome hadd hsame view
    rw [Collector.holdsSame_addVote hadd, hsame]
  · intro mid mid' target hopen hsame view
    rw [Collector.holdsSame_openBallot hopen, hsame]

/-- **A turn takes an announcement into the collector, or moves no member.** -/
theorem Turn.takes_of_take {input : Input} {said : List Action}
    (htake : core.take ctx now input = .ok (core', said)) :
    (∃ a count, Turn.announcement? ctx ⟨core, input, said, core'⟩ = some a ∧
        core.replica.state.view ≤ a.body.view ∧
        core.votes.addNewView ctx.committee a.body.view a.signer a.body.justify =
          .ok (count, core'.votes)) ∨
      Turn.announcement? ctx ⟨core, input, said, core'⟩ = none ∧
        core.votes.HoldsSame core'.votes := by
  cases hannounced : Turn.announcement? ctx ⟨core, input, said, core'⟩ with
  | some a =>
      left
      obtain ⟨rfl, hcheck⟩ := Turn.announcement?_eq_some.mp hannounced
      obtain ⟨accepted, mid', haccepted⟩ := Core.accepts_announcement hcheck
      obtain ⟨answer, mid, hconsider, -, -, hvotes⟩ := Core.dispatch_ok htake
      obtain ⟨rfl, rfl⟩ := Prod.mk.inj (Except.ok.inj (haccepted.symm.trans hconsider))
      cases Core.considers_of_consider hconsider with
      | entered _ hentry =>
          have hhere := (Leader.authorised_of_onNewView hentry).permitted.2.2
          obtain ⟨-, -, hadd⟩ := Leader.onNewView_ok hentry
          exact ⟨a, _, rfl, hhere, by rw [hvotes]; exact hadd⟩
      | followed _ hlater => exact absurd hlater (by decide)
  | none =>
      refine Or.inr ⟨rfl, ?_⟩
      cases Turn.collects_of_kind (Core.kind_of_take htake) with
      | nothing hvotes =>
          intro view
          rw [hvotes]
      | announcement hinput hentry =>
          obtain ⟨hcheck, -, -⟩ := Leader.onNewView_ok hentry
          cases hannounced.symm.trans (Turn.announcement?_eq_some.mpr ⟨hinput, hcheck⟩)
      | vote _ hcount => exact Leader.holdsSame_of_onVote hcount
      | proposal _ hpropose =>
          obtain ⟨-, -, hopen⟩ := Leader.propose_ok hpropose
          exact Collector.holdsSame_openBallot hopen

omit [StateStore σ] in
/-- One more turn adds its announcement, if it brings one. -/
theorem announcedIn_concat (h : List (Turn σ)) (t : Turn σ) :
    announcedIn ctx (h ++ [t]) = announcedIn ctx h ++ (t.announcement? ctx).toList := by
  rw [announcedIn, List.filterMap_append]
  cases hannounced : t.announcement? ctx with
  | none => simp [announcedIn, hannounced]
  | some a => simp [announcedIn, hannounced]

/-- Every turn keeps the collector a mirror of the announcements. -/
theorem Collector.Mirrors.turn {input : Input} {said : List Action}
    (hmirrors : core.votes.Mirrors (announcedIn ctx h) core.replica.state.view)
    (honce : core.votes.HeldOnce) (htake : core.take ctx now input = .ok (core', said)) :
    core'.votes.Mirrors (announcedIn ctx (h ++ [⟨core, input, said, core'⟩]))
      core'.replica.state.view := by
  have hforward : core.replica.state.view ≤ core'.replica.state.view :=
    (Turn.attains_of_kind (Core.kind_of_take htake)).view_le
  refine Collector.Mirrors.mono ?_ hforward
  rw [announcedIn_concat]
  rcases Turn.takes_of_take htake with ⟨a, count, hannounced, hhere, hadd⟩ | ⟨hnone, hsame⟩
  · rw [hannounced]
    exact hmirrors.addNewView honce hhere hadd
  · rw [hnone, Option.toList_none, List.append_nil]
    exact hmirrors.congr hsame

/-- **The collector of a process mirrors the announcements it took.** -/
theorem Core.Lives.mirrors {store : σ} (hcreate : Core.create ctx store = .ok first)
    (hlives : first.Lives ctx h core) :
    core.votes.HeldOnce ∧ core.votes.Mirrors (announcedIn ctx h) core.replica.state.view := by
  refine hlives.induction (P := fun h core => core.votes.HeldOnce ∧
    core.votes.Mirrors (announcedIn ctx h) core.replica.state.view) ?_ ?_ ?_
  · rw [(Core.create_ok hcreate).2]
    exact ⟨.empty, .empty _⟩
  · rintro h core input now core' said ⟨honce, hmirrors⟩ htake
    exact ⟨Turn.heldOnce_of_kind (Core.kind_of_take htake) honce, hmirrors.turn honce htake⟩
  · rintro h core core' ⟨honce, hmirrors⟩ ⟨status, metrics, rfl⟩
    exact ⟨honce.pruneBelow _, hmirrors.pruneBelow⟩

end Turns

/-! ### Slots -/

/-- A quorum is not empty. -/
theorem Committee.quorum_pos (committee : Committee) : 0 < committee.quorum := by
  have := committee.lt_two_mul_quorum
  omega

section Slots

variable {ctx : Context} {as : List SignedStatement} {s : ReplicaState} {slot : Slot}
  {m : MemberId} {view : View}

/-- Who is in a view has brought a certificate there. -/
theorem exists_firstIn (hm : m ∈ entrants ctx.committee as view) :
    ∃ cert, firstIn as m view = some cert := by
  have hlatest : LatestIn as m view := of_decide_eq_true (List.mem_filter.mp hm).2
  exact Option.isSome_iff_exists.mp (firstIn_isSome.mpr hlatest.1)

/-- Announcements amount to a slot when a quorum is in the view of a leader that waits. -/
theorem slotFor_isSome : (slotFor ctx as s).isSome ↔
    ctx.leads s.view ∧ s.phase = .newView ∧
      ctx.committee.quorum ≤ (entrants ctx.committee as s.view).length := by
  simp only [slotFor]
  split
  · next hready =>
      refine iff_of_true ?_ hready
      obtain ⟨m, hm⟩ := List.exists_mem_of_length_pos
        (Nat.lt_of_lt_of_le ctx.committee.quorum_pos hready.2.2)
      obtain ⟨cert, hcert⟩ := exists_firstIn hm
      have hmem : cert ∈ (entrants ctx.committee as s.view).filterMap
          fun m => firstIn as m s.view := List.mem_filterMap.mpr ⟨m, hm, hcert⟩
      obtain ⟨best, hbest⟩ := Collector.exists_latest hmem
      rw [hbest]
      rfl
  · next hnot => exact iff_of_false Bool.false_ne_true hnot

/-- A slot is on the latest certificate that the members in the view brought. -/
theorem slotFor_eq_some (h : slotFor ctx as s = some slot) :
    slot.view = s.view ∧
      (∃ m ∈ entrants ctx.committee as s.view, firstIn as m s.view = some slot.justify) ∧
      (∀ m ∈ entrants ctx.committee as s.view, ∀ cert, firstIn as m s.view = some cert →
        cert.atMost slot.justify) ∧
      slot.reproposal = slot.justify.pending? s.committed := by
  simp only [slotFor] at h
  split at h
  · obtain ⟨best, hbest, rfl⟩ := Option.map_eq_some_iff.mp h
    obtain ⟨hmem, hmax⟩ := Collector.latest_ok hbest
    exact ⟨rfl, List.mem_filterMap.mp hmem,
      fun m hm cert hcert => hmax cert (List.mem_filterMap.mpr ⟨m, hm, hcert⟩), rfl⟩
  · cases h

/-- **A collector that mirrors the announcements has the slot that they amount to.** -/
theorem Leader.slot?_eq_slotFor {c : Collector} (hmirrors : c.Mirrors as s.view)
    (hmembers : c.HoldsMembers ctx.committee) : slot? ctx c s = slotFor ctx as s := by
  have hcount := hmirrors.newViewCount_eq hmembers
  by_cases hready : ctx.leads s.view ∧ s.phase = .newView ∧
      ctx.committee.quorum ≤ (entrants ctx.committee as s.view).length
  · obtain ⟨slot, hslot⟩ := Option.isSome_iff_exists.mp (slotFor_isSome.mpr hready)
    obtain ⟨best, hbest, rfl⟩ : ∃ best, c.highCertificate ctx.committee s.view = some best ∧
        slot = ⟨s.view, best, best.pending? s.committed⟩ := by
      rw [slotFor, if_pos hready] at hslot
      obtain ⟨best, hbest, rfl⟩ := Option.map_eq_some_iff.mp hslot
      exact ⟨best, hmirrors.highCertificate_eq.trans hbest, rfl⟩
    have hquorum : ¬ c.newViewCount s.view < ctx.committee.quorum := by
      rw [hcount]
      exact Nat.not_lt.mpr hready.2.2
    rw [hslot, slot?_of_highCertificate hready.1 hready.2.1 hquorum hbest]
  · rw [slotFor, if_neg hready, slot?]
    split
    · rfl
    next hwaits =>
    split
    · rfl
    next hquorum =>
    simp only [Bool.or_eq_true, Bool.not_eq_true', decide_eq_true_eq, not_or, Bool.not_eq_false,
      not_not] at hwaits
    exact absurd ⟨hwaits.1, hwaits.2, hcount ▸ Nat.not_lt.mp hquorum⟩ hready

end Slots

section Decided

variable {σ : Type} [StateStore σ] {ctx : Context} {store : σ} {first core : Core σ}
  {h : List (Turn σ)}

/-- **The slot of a process** is the one that the announcements it took amount to. -/
theorem Core.Lives.slot?_eq (hcreate : Core.create ctx store = .ok first)
    (hlives : first.Lives ctx h core) :
    core.slot? ctx = slotFor ctx (announcedIn ctx h) core.replica.state :=
  Leader.slot?_eq_slotFor (hlives.mirrors hcreate).2 (hlives.reached hcreate).holdsMembers

/-- **A slot is decided by the announcements, not by their order.** Whatever a process has been
through: there is a slot when its member leads the current view and waits, and a quorum has
announced that view last. The slot is on a certificate that one of these brought there first, and
none of them brought a later one. What it asks to propose again is the payload of that certificate,
if that is a Prepare certificate for what extends the chain. Another process that is as far, and
took the same announcements of each member, has a slot on the same certificate. -/
theorem slot_decided_by_announcements (hcreate : Core.create ctx store = .ok first)
    (hlives : first.Lives ctx h core) :
    let as := announcedIn ctx h
    let s := core.replica.state
    let present := entrants ctx.committee as s.view
    ((core.slot? ctx).isSome ↔
      ctx.leads s.view ∧ s.phase = .newView ∧ ctx.committee.quorum ≤ present.length) ∧
    (∀ slot, core.slot? ctx = some slot →
      slot.view = s.view ∧
      (∃ m ∈ present, firstIn as m s.view = some slot.justify) ∧
      (∀ m ∈ present, ∀ cert, firstIn as m s.view = some cert → cert.atMost slot.justify) ∧
      slot.reproposal =
        if slot.justify.phase = .prepare ∧ slot.justify.payload.parent = s.committed then
          some slot.justify.payload
        else none) ∧
    ∀ (store' : σ) (first' core' : Core σ) (h' : List (Turn σ)),
      Core.create ctx store' = .ok first' → first'.Lives ctx h' core' →
      SameByMember as (announcedIn ctx h') →
      core'.replica.state.view = s.view → core'.replica.state.phase = s.phase →
      (core'.slot? ctx).map Slot.justify = (core.slot? ctx).map Slot.justify := by
  intro as s present
  have hslot : core.slot? ctx = slotFor ctx as s := hlives.slot?_eq hcreate
  refine ⟨?_, ?_, ?_⟩
  · rw [hslot]
    exact slotFor_isSome
  · intro slot hsome
    exact slotFor_eq_some (hslot.symm.trans hsome)
  · intro store' first' core' h' hcreate' hlives' hsame hview hphase
    rw [hslot, hlives'.slot?_eq hcreate']
    exact (hsame.slotFor_justify ctx hview hphase).symm

end Decided

/-! ### Two orders of the same announcements -/

section Scripts

variable {σ : Type} [StateStore σ] {ctx : Context} {first core core' : Core σ}
  {h h' : List (Turn σ)}

/-- The life of a process on some inputs, if it answers them all. -/
def Core.live (ctx : Context) : List (Turn σ) → Core σ → List Input →
    Option (List (Turn σ) × Core σ)
  | h, core, [] => some (h, core)
  | h, core, input :: inputs =>
    match core.react ctx 0 input with
    | .ok (core', _) => live ctx (h ++ core.turns ctx 0 input) core' inputs
    | .error _ => none

/-- What was computed of a process on further inputs is lived through. -/
theorem Core.Lives.of_live {inputs : List Input} (hlives : first.Lives ctx h core)
    (hlive : core.live ctx h inputs = some (h', core')) : first.Lives ctx h' core' := by
  induction inputs generalizing h core with
  | nil =>
      obtain ⟨rfl, rfl⟩ := Prod.mk.inj (Option.some.inj hlive)
      exact hlives
  | cons input inputs ih =>
      rw [Core.live] at hlive
      split at hlive
      · next hreact => exact ih (hlives.answer hreact) hlive
      · cases hlive

/-- What is computed of a process on some inputs holds of its life. -/
theorem Core.exists_life {P : List (Turn σ) → Core σ → Prop} [∀ h core, Decidable (P h core)]
    {inputs : List Input} (hlive : (first.live ctx [] inputs).map
      (fun lived => decide (P lived.1 lived.2)) = some true) :
    ∃ h core, first.Lives ctx h core ∧ P h core := by
  obtain ⟨⟨h, core⟩, hlived, hP⟩ := Option.map_eq_some_iff.mp hlive
  exact ⟨h, core, Core.Lives.boot.of_live hlived, of_decide_eq_true hP⟩

end Scripts

namespace Reordering

/-- The leader of view 1. -/
def ctx : Context := .numbered .four 1 Committee.one_mem_four

/-- The payload of view 0. -/
def payload : Payload := ⟨Scheme.transparent.genesisDigest, [80]⟩

/-- The Prepare certificate of view 0. -/
def cert : Certificate := .numbered ⟨.prepare, 0, payload⟩ [0, 2, 3]

/-- A member announces a view. -/
def announcement (n : UInt8) (view : View) (justify : Certificate) : SignedStatement :=
  Scheme.transparent.signStatement (.numbered n) ⟨view, .newView, justify.payload, justify⟩

/-- The first member announces view 1 with the certificate of view 0. -/
def informed : SignedStatement := announcement 0 1 cert

/-- A member announces a view with the genesis certificate. -/
def plain (n : UInt8) (view : View) : SignedStatement :=
  announcement n view Scheme.transparent.genesis

/-- The first member announces view 1 once more, with less. -/
def early : List SignedStatement := [plain 2 1, informed, plain 1 1, plain 0 1]

/-- The same announcements in another order. -/
def late : List SignedStatement := [plain 1 1, informed, plain 0 1, plain 2 1]

/-- The announcement of the third member comes last, and the leader's own first. -/
theorem sameByMember : SameByMember early late := by
  have hlast : SameByMember early [informed, plain 1 1, plain 0 1, plain 2 1] :=
    ((SameByMember.swap (by decide +kernel)).trans (.cons _ (.swap (by decide +kernel)))).trans
      (.cons _ (.cons _ (.swap (by decide +kernel))))
  exact hlast.trans (.swap (by decide +kernel))

/-- The inputs that bring announcements. -/
def bring (as : List SignedStatement) : List Input := as.map fun a => .message (.ofStatement a)

/-- Two announcements come before the leader gives up view 0 and announces view 1 itself. -/
def script : List Input := bring (early.take 2) ++ [.timeout] ++ bring (early.drop 3)

/-- All announcements of others come after that. -/
def script' : List Input := [.timeout] ++ bring (late.drop 1)

end Reordering

open Reordering in
/-- In both orders the first, second and third member are in view 1, and the slot is on the
certificate that the first one brought there first. -/
theorem slot_decided_by_announcements_in_two_orders :
    ∃ h core h' core', Core.create ctx ({} : MemoryStore) = .ok (.fresh ctx) ∧
      (Core.fresh ctx).Lives ctx h core ∧ (Core.fresh ctx).Lives ctx h' core' ∧
      announcedIn ctx h = early ∧ announcedIn ctx h' = late ∧
      entrants ctx.committee early 1 = [.numbered 0, .numbered 1, .numbered 2] ∧
      (core.slot? ctx).isSome ∧
      core'.slot? ctx = some ⟨1, cert, some payload⟩ ∧
      (core.slot? ctx).map Slot.justify = some cert := by
  obtain ⟨h, core, hlives, has, hview, hphase⟩ := Core.exists_life
    (P := fun h core => announcedIn ctx h = early ∧ core.replica.state.view = 1 ∧
      core.replica.state.phase = .newView)
    (show ((Core.fresh ctx).live ctx [] script).map _ = some true by decide +kernel)
  obtain ⟨h', core', hlives', has', hview', hphase', hslot'⟩ := Core.exists_life
    (P := fun h core => announcedIn ctx h = late ∧ core.replica.state.view = 1 ∧
      core.replica.state.phase = .newView ∧ core.slot? ctx = some ⟨1, cert, some payload⟩)
    (show ((Core.fresh ctx).live ctx [] script').map _ = some true by decide +kernel)
  have hpresent : entrants ctx.committee early 1 = [.numbered 0, .numbered 1, .numbered 2] := by
    decide +kernel
  have hsame : SameByMember early late := sameByMember
  have hcreate : Core.create ctx ({} : MemoryStore) = .ok (.fresh ctx) := Core.create_fresh ctx
  obtain ⟨hsome, -, horder⟩ := slot_decided_by_announcements hcreate hlives
  refine ⟨h, core, h', core', hcreate, hlives, hlives', has, has', hpresent, ?_, hslot', ?_⟩
  · rw [hsome, hview, has, hpresent]
    exact ⟨by decide, hphase, by decide⟩
  · rw [← horder {} _ core' h' hcreate hlives' (has.symm ▸ has'.symm ▸ hsame)
      (hview'.trans hview.symm) (hphase'.trans hphase.symm), hslot']
    rfl

end HotStuff
