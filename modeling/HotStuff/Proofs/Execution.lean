import HotStuff.Proofs.Chain
import HotStuff.Proofs.Conduct
import HotStuff.Proofs.Scenario

/-!
# What a Member Executes

Executed payloads are meant to form one chain over the committed digest that a member started with,
each payload once. A decision out of sequence is checked against the chain, and so is a proposal,
but a decision in sequence is not: it commits the accepted proposal, whose parent was compared with
the committed digest when it was accepted. A decision of an earlier view moves that digest and
leaves the member in its view. `Overtaken` says that this happened to a proposal which was then
decided; it is the only way for the chain to break, and whenever it happens the chain does break.

## Main results

* `Course.executing`: the invariant that ties the accepted proposal to the chain at its acceptance.
* `chained_iff_not_overtaken`: exactly the runs in which no decided proposal was overtaken execute
  one chain, and then no payload twice.
* `overtaken_proposal_executed_twice`: a run in which one is, and a payload is executed twice.
-/

namespace HotStuff

section Overtaking

variable {σ : Type} (t : Turn σ) (h : List (Turn σ))

/-- The turn executes a payload while a proposal is held, and stays in the view. -/
def Turn.Overtakes (view : View) : Prop :=
  t.before.replica.state.view = view ∧ t.before.replica.state.phase ≠ .newView ∧
    t.after.replica.state.view = view ∧ t.deeds.filterMap Deed.payload? ≠ []

/-- The turn completes the current view: it executes its payload in sequence. -/
def Turn.Completes : Prop :=
  t.before.replica.state.phase = .commit ∧ ∃ height payload,
    .execute t.before.replica.state.view height payload ∈ t.deeds

/-- **An overtaken proposal.** A view is completed after something else was executed in it. -/
def Overtaken : Prop :=
  ∃ before t after, h = before ++ t :: after ∧ t.Completes ∧
    ∃ t' ∈ before, t'.Overtakes t.before.replica.state.view

/-- Nothing has been overtaken before anything was done. -/
theorem not_overtaken_nil : ¬ Overtaken ([] : List (Turn σ)) := by
  rintro ⟨before, t, after, hsplit, -⟩
  exact List.cons_ne_nil _ _ (List.append_eq_nil_iff.mp hsplit.symm).2

/-- A longer history is overtaken in the shorter one, or at its last turn. -/
theorem overtaken_concat {h : List (Turn σ)} {t : Turn σ} :
    Overtaken (h ++ [t]) ↔ Overtaken h ∨ t.Completes ∧
      ∃ t' ∈ h, t'.Overtakes t.before.replica.state.view := by
  constructor
  · rintro ⟨before, u, after, hsplit, hu⟩
    rcases concat_eq_append_cons hsplit with ⟨rfl, rfl, rfl⟩ | ⟨rest, rfl, rfl⟩
    · exact Or.inr hu
    · exact Or.inl ⟨before, u, rest, rfl, hu⟩
  · rintro (⟨before, u, after, rfl, hu⟩ | hu)
    · exact ⟨before, u, after ++ [t], by simp, hu⟩
    · exact ⟨h, t, [], rfl, hu⟩

end Overtaking

/-- **The state of execution.** The committed digest and the height follow what was executed. The
accepted proposal extends the chain as it was when `n` payloads had been executed, and more have
been since exactly if it was overtaken. The chain is intact if and, without collisions, only if
nothing that was overtaken has been completed. -/
structure Executing {σ : Type} (scheme : Scheme) (s₀ : ReplicaState) (h : List (Turn σ))
    (s : ReplicaState) : Prop where
  tip : s.committed = scheme.tip s₀.committed (executedOf h)
  height : s.height.toNat = s₀.height.toNat + (executedOf h).length
  busy : ∀ t ∈ h, t.before.replica.state.phase ≠ .newView →
    t.before.replica.state.view < s.view ∨
      t.before.replica.state.view = s.view ∧ s.phase ≠ .newView
  held : s.phase ≠ .newView → ∃ payload n, s.proposal = some payload ∧
    n ≤ (executedOf h).length ∧
    payload.parent = scheme.tip s₀.committed ((executedOf h).take n) ∧
    (n < (executedOf h).length ↔ ∃ t ∈ h, t.Overtakes s.view)
  chained : ¬ Overtaken h → scheme.Chained s₀.committed (executedOf h)
  broken : scheme.CollisionFree s₀.committed (· ∈ executedOf h) →
    scheme.Chained s₀.committed (executedOf h) → ¬ Overtaken h

namespace Executing

variable {σ : Type} {ctx : Context} {ev : Evidence} {s₀ s : ReplicaState} {h : List (Turn σ)}
  {t : Turn σ}

/-- A member that waits in a view and has done nothing has an intact chain. -/
theorem boot (hphase : s₀.phase = .newView) :
    Executing ctx.scheme s₀ ([] : List (Turn σ)) s₀ :=
  ⟨rfl, rfl, by simp, fun h => absurd hphase h, fun _ => Scheme.chained_nil,
    fun _ _ => not_overtaken_nil⟩

/-- Entering a later view, where nothing is held. -/
theorem enter (hs : Executing ctx.scheme s₀ h s) {view : View} (hlater : s.view < view) :
    Executing ctx.scheme s₀ h (s.enter view) := by
  refine ⟨hs.tip, hs.height, ?_, fun hphase => absurd rfl hphase, hs.chained, hs.broken⟩
  intro t ht hphase
  refine Or.inl ?_
  rcases hs.busy t ht hphase with hlt | ⟨heq, -⟩
  · exact UInt64.lt_trans hlt hlater
  · exact heq ▸ hlater

/-- A turn that executes nothing completes nothing. -/
theorem not_completes (hdeeds : t.deeds.filterMap Deed.payload? = []) : ¬ t.Completes := by
  rintro ⟨-, height, payload, hmem⟩
  have hexecuted : payload ∈ t.deeds.filterMap Deed.payload? :=
    List.mem_filterMap.mpr ⟨_, hmem, rfl⟩
  rw [hdeeds] at hexecuted
  exact absurd hexecuted List.not_mem_nil

section Turn

variable (hs : Executing ctx.scheme s₀ h t.before.replica.state) (hlawful : t.Lawful ctx ev)

include hs hlawful

/-- **A turn moves the tip** as it executes: what it executes becomes the end of the chain. -/
theorem turn_tip : t.after.replica.state.committed =
    ctx.scheme.tip s₀.committed (executedOf (h ++ [t])) := by
  rw [executedOf_append, executedOf_singleton]
  rcases hlawful.executes with
    ⟨hdeeds, hcommitted, -⟩ | ⟨_, _, payload, hdeeds, -, -, hcommitted, -⟩
  · rw [hdeeds, List.append_nil, hcommitted, hs.tip]
  · rw [hdeeds, hcommitted]
    exact (Scheme.tip_concat _ payload).symm

/-- **A turn counts what it executes**, at most one payload. -/
theorem turn_height : t.after.replica.state.height.toNat =
    s₀.height.toNat + (executedOf (h ++ [t])).length := by
  rw [executedOf_append, executedOf_singleton]
  have hheight := hs.height
  rcases hlawful.executes with ⟨hdeeds, -, hsame⟩ | ⟨_, _, _, hdeeds, hnext, hafter, -⟩
  · rw [hdeeds, List.append_nil, hsame, hs.height]
  · rw [hdeeds, hafter, Height.toNat_of_next? hnext, hheight, List.length_append]
    rfl

/-- A view that has been left waiting is not waited in again: after a turn the replica is in a later
view, or still past the announcement. -/
theorem turn_busy : ∀ t' ∈ h ++ [t], t'.before.replica.state.phase ≠ .newView →
    t'.before.replica.state.view < t.after.replica.state.view ∨
      t'.before.replica.state.view = t.after.replica.state.view ∧
        t.after.replica.state.phase ≠ .newView := by
  intro t' ht' hphase
  have hnow : t'.before.replica.state.view < t.before.replica.state.view ∨
      t'.before.replica.state.view = t.before.replica.state.view ∧
        t.before.replica.state.phase ≠ .newView := by
    rcases List.mem_append.mp ht' with ht' | ht'
    · exact hs.busy t' ht' hphase
    · obtain rfl := List.mem_singleton.mp ht'
      exact Or.inr ⟨rfl, hphase⟩
  have hview := hlawful.view_le
  rcases hnow with hlt | ⟨heq, hbusy⟩
  · exact Or.inl (UInt64.lt_of_lt_of_le hlt hview)
  · rw [heq]
    rcases UInt64.lt_or_eq_of_le hview with hlt | hsame
    · exact Or.inl hlt
    · exact Or.inr ⟨hsame, hlawful.not_back hsame.symm hbusy⟩

/-- **The held proposal.** One that was held before keeps its place in the chain, and is overtaken
by what the turn executes; one that is accepted now is at the end of it. -/
theorem turn_held (hphase : t.after.replica.state.phase ≠ .newView) :
    ∃ payload n, t.after.replica.state.proposal = some payload ∧
      n ≤ (executedOf (h ++ [t])).length ∧
      payload.parent = ctx.scheme.tip s₀.committed ((executedOf (h ++ [t])).take n) ∧
      (n < (executedOf (h ++ [t])).length ↔
        ∃ t' ∈ h ++ [t], t'.Overtakes t.after.replica.state.view) := by
  rw [executedOf_append, executedOf_singleton]
  rcases hlawful.held hphase with ⟨hbefore, hview, hproposal⟩ | ⟨st, -, haccepts, hafter, hdeeds⟩
  · obtain ⟨payload, n, hheld, hn, hparent, hiff⟩ := hs.held hbefore
    refine ⟨payload, n, hproposal.trans hheld, ?_, ?_, ?_⟩
    · rw [List.length_append]
      omega
    · rw [List.take_append_of_le_length hn]
      exact hparent
    · have hnow : t.Overtakes t.after.replica.state.view ↔
          t.deeds.filterMap Deed.payload? ≠ [] := by
        rw [Turn.Overtakes, hview]
        exact ⟨fun h => h.2.2.2, fun h => ⟨rfl, hbefore, rfl, h⟩⟩
      simp only [List.mem_append, List.mem_singleton, or_and_right, exists_or, exists_eq_left, hnow]
      rw [hview, ← hiff, List.length_append, ← List.length_pos_iff]
      omega
  · have hquiet : t.deeds.filterMap Deed.payload? = [] := by rw [hdeeds]; rfl
    rw [hquiet, List.append_nil, hafter]
    refine ⟨st.payload, (executedOf h).length, rfl, Nat.le_refl _, ?_, ?_⟩
    · rw [List.take_length, haccepts.parent, hs.tip]
    · refine iff_of_false (Nat.lt_irrefl _) ?_
      rintro ⟨t', ht', hview, hbusy, -, hexecuted⟩
      rcases List.mem_append.mp ht' with ht' | ht'
      · -- No turn was busy in the view before the proposal was accepted.
        have hview : t'.before.replica.state.view = st.view := hview
        rcases hs.busy t' ht' hbusy with hlt | ⟨heq, hnow⟩
        · exact UInt64.not_le.mpr (hview ▸ hlt) haccepts.notStale
        · exact hnow (haccepts.fresh (hview.symm.trans heq))
      · obtain rfl := List.mem_singleton.mp ht'
        exact hexecuted hquiet

/-- The chain grows intact, unless an overtaken proposal is completed. -/
theorem turn_chained (hnot : ¬ Overtaken (h ++ [t])) :
    ctx.scheme.Chained s₀.committed (executedOf (h ++ [t])) := by
  rw [overtaken_concat, not_or] at hnot
  have hchain := hs.chained hnot.1
  rw [executedOf_append, executedOf_singleton]
  rcases hlawful.executes with ⟨hdeeds, -⟩ | ⟨view, height, payload, hdeeds, -, -, -, hwhy⟩
  · rwa [hdeeds, List.append_nil]
  · rw [hdeeds]
    refine Scheme.chained_concat.mpr ⟨hchain, ?_⟩
    rcases hwhy with ⟨hparent, -⟩ | ⟨rfl, hphase, hheld⟩
    · rw [hparent, hs.tip]
    · obtain ⟨payload', n, hheld', hn, hparent, hiff⟩ := hs.held (by simp [hphase])
      obtain rfl := Option.some.inj (hheld.symm.trans hheld')
      have hcompletes : t.Completes := ⟨hphase, height, payload, by simp [hdeeds]⟩
      have hfull : ¬ n < (executedOf h).length := fun hlt =>
        hnot.2 ⟨hcompletes, hiff.mp hlt⟩
      rw [hparent, List.take_of_length_le (Nat.not_lt.mp hfull)]

/-- An overtaken proposal that is completed breaks the chain: its parent is a digest that the chain
has left behind. -/
theorem turn_broken (hfree : ctx.scheme.CollisionFree s₀.committed (· ∈ executedOf (h ++ [t])))
    (hchain : ctx.scheme.Chained s₀.committed (executedOf (h ++ [t]))) :
    ¬ Overtaken (h ++ [t]) := by
  rw [executedOf_append] at hfree hchain
  have hold : ctx.scheme.CollisionFree s₀.committed (· ∈ executedOf h) :=
    hfree.mono fun _ hp => List.mem_append_left _ hp
  have hchained := (Scheme.chained_append.mp hchain).1
  rw [overtaken_concat]
  rintro (hbefore | ⟨⟨hphase, height, payload, hmem⟩, hovertaken⟩)
  · exact hs.broken hold hchained hbefore
  · rcases hlawful.executes with ⟨hdeeds, -⟩ | ⟨view, _, payload', hdeeds, -, -, -, hwhy⟩
    · exact not_completes hdeeds ⟨hphase, height, payload, hmem⟩
    · rw [hdeeds, List.mem_singleton] at hmem
      obtain ⟨rfl, -, rfl⟩ := Deed.execute.inj hmem
      rcases hwhy with ⟨-, hout⟩ | ⟨-, -, hheld⟩
      · exact hout ⟨rfl, hphase⟩
      · obtain ⟨payload', n, hheld', hn, hparent, hiff⟩ := hs.held (by simp [hphase])
        obtain rfl := Option.some.inj (hheld.symm.trans hheld')
        have hlt := hiff.mpr hovertaken
        rw [executedOf_singleton, hdeeds] at hchain
        have hparent' := (Scheme.chained_concat.mp hchain).2
        have hnodup := hold.nodup_trail (fun _ hp => hp) hchained
        rw [← List.take_append_drop n (executedOf h)] at hnodup hparent'
        have hnil := Scheme.eq_nil_of_tip_eq hnodup (hparent'.symm.trans hparent)
        rw [List.drop_eq_nil_iff] at hnil
        omega

end Turn

/-- **Every lawful turn keeps the state of execution.** -/
theorem turn (hs : Executing ctx.scheme s₀ h t.before.replica.state) (hlawful : t.Lawful ctx ev) :
    Executing ctx.scheme s₀ (h ++ [t]) t.after.replica.state :=
  ⟨hs.turn_tip hlawful, hs.turn_height hlawful, hs.turn_busy hlawful, hs.turn_held hlawful,
    hs.turn_chained hlawful, hs.turn_broken hlawful⟩

end Executing

section Runs

variable {σ : Type} {ctx : Context} {h : List (Turn σ)}

/-- **Execution along a course.** -/
theorem Course.executing {ev : Evidence} {s₀ s : ReplicaState} (hcourse : Course ctx ev s₀ h s)
    (hphase : s₀.phase = .newView) : Executing ctx.scheme s₀ h s := by
  induction hcourse with
  | boot => exact .boot hphase
  | turn _ hlawful ih => exact ih.turn hlawful
  | resume _ hlater ih => exact ih.enter hlater

variable [StateStore σ] [LawfulStore σ]

/-- **What a member executes.** Through all processes of a member on one store, as long as nobody
else has its seal: the payloads executed form one chain over the committed digest it started with,
exactly if no proposal was overtaken by another execution in its view and then decided. They are
all distinct then, and the height counts them. -/
theorem chained_iff_not_overtaken {store : σ} {first core : Core σ}
    (hcreate : Core.create ctx store = .ok first) (hrun : Run ctx (OwnSeals ctx) first h core)
    (hfree : ctx.scheme.CollisionFree first.replica.state.committed (· ∈ executedOf h)) :
    (ctx.scheme.Chained first.replica.state.committed (executedOf h) ↔ ¬ Overtaken h) ∧
      (¬ Overtaken h → (executedOf h).Nodup) ∧
      core.replica.state.height.toNat =
        first.replica.state.height.toNat + (executedOf h).length := by
  have hphase : first.replica.state.phase = .newView :=
    (Replica.create_phase (Core.create_ok hcreate).1).1
  have hs := (Run.conduct_of_ownSeals hcreate hrun).course.executing hphase
  refine ⟨⟨hs.broken hfree, hs.chained⟩, ?_, hs.height⟩
  intro hnot
  exact hfree.nodup_of_chained (fun _ hp => hp) (hs.chained hnot)

end Runs

/-! ### A proposal in order, and one that is overtaken -/

namespace Overtaking

/-- A payload that extends the genesis digest. -/
def payload : Payload := ⟨Scheme.transparent.genesisDigest, [80]⟩

/-- The certificate that three members formed on the payload, in a phase of a view. -/
def cert (phase : Phase) (view : View) : Certificate := .numbered ⟨phase, view, payload⟩ [0, 2, 3]

/-- The member that executes. -/
def ctx : Context := .numbered .four 1 (by decide)

/-- The leader of view 2 takes the payload up to the lock. -/
def locking : List Cue :=
  [.input (.numbered 2 2 .prepare payload Scheme.transparent.genesis),
    .input (.numbered 2 2 .preCommit payload (cert .prepare 2)),
    .input (.numbered 2 2 .commit payload (cert .preCommit 2))]

/-- The decision of view 2. -/
def decision : Cue := .input (.numbered 2 2 .decide payload (cert .commit 2))

/-- The decision of view 0 on the same payload. -/
def earlier : Cue := .input (.numbered 0 0 .decide payload (cert .commit 0))

/-- The one payload has no collision. -/
theorem collisionFree {executed : List Payload} (h : ∀ p ∈ executed, p = payload) :
    Scheme.transparent.CollisionFree (Core.fresh ctx).replica.state.committed (· ∈ executed) := by
  refine ⟨fun p q hp hq _ => (h p hp).trans (h q hq).symm, fun p hp => ?_⟩
  rw [h p hp]
  decide

end Overtaking

open Overtaking in
/-- In order the payload is executed once, and the chain is intact. -/
theorem chained_of_decision_in_order :
    ∃ h core, Core.create ctx ({} : MemoryStore) = .ok (.fresh ctx) ∧
      Run ctx (OwnSeals ctx) (Core.fresh ctx) h core ∧
      Scheme.transparent.CollisionFree (Core.fresh ctx).replica.state.committed
        (· ∈ executedOf h) ∧
      executedOf h = [payload] ∧ ¬ Overtaken h ∧ (executedOf h).Nodup ∧
      core.replica.state.height.toNat = 1 := by
  obtain ⟨h, core, hrun, hexecuted⟩ := Run.exists_play (P := fun h _ => executedOf h = [payload])
    (show ((Core.fresh ctx).play ctx (OwnSeals ctx) [] (locking ++ [decision])).map _ = some true by
      decide +kernel)
  have hfree := collisionFree (show ∀ p ∈ executedOf h, p = payload by simp [hexecuted])
  obtain ⟨hiff, hnodup, hheight⟩ :=
    chained_iff_not_overtaken (Core.create_fresh ctx) hrun hfree
  have hnot : ¬ Overtaken h := hiff.mp (by rw [hexecuted]; exact ⟨rfl, trivial⟩)
  refine ⟨h, core, Core.create_fresh ctx, hrun, hfree, hexecuted, hnot, hnodup hnot, ?_⟩
  rw [hheight, hexecuted]
  rfl

open Overtaking in
/-- **A payload executed twice.** The decision of view 0 reaches a member that is locked on the same
payload in view 2. It is executed and the member stays in view 2; the decision of view 2 executes it
again, though its parent is no longer the committed digest. -/
theorem overtaken_proposal_executed_twice :
    ∃ h core, Core.create ctx ({} : MemoryStore) = .ok (.fresh ctx) ∧
      Run ctx (OwnSeals ctx) (Core.fresh ctx) h core ∧
      Scheme.transparent.CollisionFree (Core.fresh ctx).replica.state.committed
        (· ∈ executedOf h) ∧
      executedOf h = [payload, payload] ∧ core.replica.state.height.toNat = 2 ∧
      ¬ Scheme.transparent.Chained (Core.fresh ctx).replica.state.committed (executedOf h) ∧
      ¬ (executedOf h).Nodup := by
  obtain ⟨h, core, hrun, hexecuted, hheight⟩ := Run.exists_play
    (P := fun h core => executedOf h = [payload, payload] ∧ core.replica.state.height.toNat = 2)
    (show ((Core.fresh ctx).play ctx (OwnSeals ctx) [] (locking ++ [earlier, decision])).map _ =
      some true by decide +kernel)
  refine ⟨h, core, Core.create_fresh ctx, hrun, ?_, hexecuted, hheight, ?_, ?_⟩
  · exact collisionFree (by simp [hexecuted])
  · rw [hexecuted]
    decide
  · rw [hexecuted]
    decide

end HotStuff
