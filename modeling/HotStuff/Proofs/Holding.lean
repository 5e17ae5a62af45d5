import HotStuff.Proofs.Resting

/-!
# Where a Member Is Held

A leader keeps the certificate that each member brought in the view the member announced last. So a
member is held in one view at most, and it only ever moves to a later one. What was announced once
can therefore be announced again: the member is held there or further on, and the certificate that
it brought first stays.

## Main definitions

* `Collector.brought?`: the certificate that a member is held in a view with.
* `Collector.Holds`: a member is held in a view.
* `Collector.HeldOnce`: no member is held in two views.
* `Collector.HeldFrom`: a member is held in some view or a later one.

## Main results

* `Collector.brought_addNewView`: what is held, after an announcement.
* `Collector.HeldOnce.addNewView_again`: an announcement that is repeated changes nothing.
* `Core.Reached.heldOnce`: a process holds no member twice.
-/

namespace HotStuff

namespace Collector

variable {c c' : Collector} {m m' : MemberId} {view v w here : View} {justify : Certificate}
  {committee : Committee} {count : Nat}

/-- The certificate that a member is held in a view with. -/
def brought? (c : Collector) (m : MemberId) (view : View) : Option Certificate :=
  (c.round view).newViews.get? m

/-- A member is held in a view. -/
def Holds (c : Collector) (m : MemberId) (view : View) : Prop := (c.round view).newViews.contains m

/-- **No member is held twice.** -/
def HeldOnce (c : Collector) : Prop := ∀ m v w, c.Holds m v → c.Holds m w → v = w

/-- **A member has come as far as a view**: it is held there or in a later one. -/
def HeldFrom (c : Collector) (m : MemberId) (view : View) : Prop :=
  ∃ held, view ≤ held ∧ c.Holds m held

/-- In the views of two collectors the same members are held. -/
def HoldsSame (c c' : Collector) : Prop :=
  ∀ view, (c'.round view).newViews = (c.round view).newViews

/-! ### Reading -/

/-- Who is held in a view has brought a certificate there. -/
theorem holds_iff : c.Holds m view ↔ (c.brought? m view).isSome := Iff.rfl

/-- A round is read where it stands among the entries. -/
theorem round_of_mem {r : Round} (h : (view, r) ∈ c.rounds.entries) : c.round view = r := by
  rw [round, (Table.mem_entries_iff _ _ _).mp h]
  rfl

/-- Nobody is held in a collector without rounds. -/
theorem not_holds_empty (m : MemberId) (view : View) : ¬ empty.Holds m view := by
  rintro ⟨⟩

/-- A round that holds a member is there. -/
theorem mem_of_holds (h : c.Holds m view) : (view, c.round view) ∈ c.rounds.entries := by
  rw [Table.mem_entries_iff]
  rw [Holds, round] at h
  rw [round]
  cases hround : c.rounds.get? view with
  | none =>
      rw [hround] at h
      cases h
  | some r => rfl

/-- A member is held in the view that it is found in. -/
theorem holds_of_viewOf (h : c.viewOf m = some view) : c.Holds m view := by
  obtain ⟨⟨v, r⟩, hfind, rfl⟩ := Option.map_eq_some_iff.mp h
  have hcontains : r.newViews.contains m := by simpa using List.find?_some hfind
  rw [Holds, round_of_mem (List.mem_of_find?_eq_some hfind)]
  exact hcontains

/-- A member that is not found is not held in any view. -/
theorem not_holds_of_viewOf (h : c.viewOf m = none) : ¬ c.Holds m view := by
  intro hholds
  have hnone := List.find?_eq_none.mp (Option.map_eq_none_iff.mp h) _ (mem_of_holds hholds)
  exact hnone hholds

/-- A member that is held once is found where it is held. -/
theorem HeldOnce.viewOf_eq (honce : c.HeldOnce) (h : c.Holds m view) : c.viewOf m = some view := by
  cases hview : c.viewOf m with
  | none => exact absurd h (not_holds_of_viewOf hview)
  | some held => rw [honce m held view (holds_of_viewOf hview) h]

/-! ### Writing -/

/-- Collectors that hold the same hold the same members. -/
theorem HoldsSame.holds (h : c.HoldsSame c') : c'.Holds m view ↔ c.Holds m view := by
  rw [Holds, Holds, h]

/-- Putting in a tally changes nobody's place. -/
theorem holdsSame_putTally (c : Collector) (t : Tally) : c.HoldsSame (c.putTally t) := by
  intro view
  rw [putTally, round_insert]
  split
  · next hview => rw [hview]
  · rfl

/-- Forgetting the views that are over empties these, and keeps the others. -/
theorem round_pruneBelow (c : Collector) (here view : View) :
    (c.pruneBelow here).round view = if here ≤ view then c.round view else ⟨∅, ∅⟩ := by
  rw [round, pruneBelow, Table.get?_retain]
  by_cases h : here ≤ view
  · rw [if_pos (decide_eq_true h), if_pos h]
    rfl
  · rw [if_neg (by simpa using h), if_neg h]
    rfl

/-- Forgetting the views that are over lets go of those who are held in them, and of nobody else. -/
theorem holds_pruneBelow :
    (c.pruneBelow here).Holds m view ↔ here ≤ view ∧ c.Holds m view := by
  rw [Holds, round_pruneBelow]
  by_cases h : here ≤ view
  · rw [if_pos h]
    exact (and_iff_right h).symm
  · rw [if_neg h]
    exact iff_of_false Bool.false_ne_true fun hholds => h hholds.1

/-- A member that enters a view brings a certificate there, unless it has brought one. -/
theorem brought_hold :
    (c.hold m view justify).brought? m' v =
      if m' = m ∧ v = view then some ((c.brought? m view).getD justify) else c.brought? m' v := by
  rw [brought?, hold, round_insert]
  by_cases hv : v = view
  · subst hv
    rw [if_pos rfl, Table.get?_insert]
    by_cases hm : m' = m
    · rw [if_pos hm, if_pos ⟨hm, rfl⟩]
      rfl
    · rw [if_neg hm, if_neg fun h => hm h.1]
      rfl
  · rw [if_neg hv, if_neg fun h => hv h.2]
    rfl

/-- A member that leaves a view takes its certificate along, and nothing else changes. -/
theorem brought_release :
    (c.release m view).brought? m' v =
      if m' = m ∧ v = view then none else c.brought? m' v := by
  have hleft : (c.release m view).brought? m' v =
      if v = view then ((c.round view).newViews.erase m).get? m' else c.brought? m' v := by
    rw [brought?, release]
    split
    · next hempty =>
        rw [round, Table.get?_erase]
        split
        · -- The round is dropped only when it holds no member.
          rw [Round.isEmpty, Bool.and_eq_true] at hempty
          exact (Table.get?_of_isEmpty hempty.2 m').symm
        · rfl
    · rw [round_insert]
      split
      · rfl
      · rfl
  rw [hleft]
  by_cases hv : v = view
  · subst hv
    rw [if_pos rfl, Table.get?_erase]
    by_cases hm : m' = m
    · rw [if_pos hm, if_pos ⟨hm, rfl⟩]
    · rw [if_neg hm, if_neg fun h => hm h.1]
      rfl
  · rw [if_neg hv, if_neg fun h => hv h.2]

/-- A member that enters a view is held there, and nobody else moves. -/
theorem holds_hold :
    (c.hold m view justify).Holds m' v ↔ m' = m ∧ v = view ∨ c.Holds m' v := by
  rw [holds_iff, brought_hold]
  split
  · next hplace => exact iff_of_true rfl (Or.inl hplace)
  · next hplace => exact (or_iff_right hplace).symm

/-- A member that leaves a view is no longer held there, and nobody else moves. -/
theorem holds_release :
    (c.release m view).Holds m' v ↔ ¬ (m' = m ∧ v = view) ∧ c.Holds m' v := by
  rw [holds_iff, brought_release]
  split
  · next hplace => exact iff_of_false Bool.false_ne_true fun hholds => hholds.1 hplace
  · next hplace => exact (and_iff_right hplace).symm

/-- Bringing a certificate where the member is held changes nothing. -/
theorem hold_of_holds (h : c.Holds m view) : c.hold m view justify = c := by
  obtain ⟨brought, hbrought⟩ := Option.isSome_iff_exists.mp h
  have hround : c.rounds.get? view = some (c.round view) :=
    (Table.mem_entries_iff _ _ _).mp (mem_of_holds h)
  rw [hold]
  simp only [hbrought, Option.getD_some, Table.insert_of_get? hbrought]
  exact congrArg Collector.mk (Table.insert_of_get? hround)

/-! ### Announcements -/

/-- The answer to an announcement is the number of members in the view. -/
theorem count_of_addNewView (h : c.addNewView committee view m justify = .ok (count, c')) :
    count = c'.newViewCount view := by
  rw [addNewView] at h
  split at h
  · cases h
  · obtain ⟨rfl, rfl⟩ := Prod.mk.inj (Except.ok.inj h)
    rfl

/-- **What is held, after an announcement.** It is behind where the member is held, and changes
nothing; or the member is held in the view announced, which is no earlier, and nowhere else. What it
had brought there before stays. -/
theorem brought_addNewView (honce : c.HeldOnce)
    (h : c.addNewView committee view m justify = .ok (count, c')) :
    (∃ held, view < held ∧ c.Holds m held ∧ c' = c) ∨
      (∀ held, c.Holds m held → held ≤ view) ∧
        ∀ m' v, c'.brought? m' v =
          if m' = m then
            if v = view then some ((c.brought? m view).getD justify) else none
          else c.brought? m' v := by
  rw [addNewView] at h
  split at h
  · cases h
  obtain ⟨-, rfl⟩ := Prod.mk.inj (Except.ok.inj h)
  -- Where the member is held before it is put into the view, that is the view itself.
  have hput {base : Collector} (hother : ∀ m' v, m' ≠ m → base.brought? m' v = c.brought? m' v)
      (hhere : base.brought? m view = c.brought? m view)
      (hnowhere : ∀ v, v ≠ view → base.brought? m v = none) (m' : MemberId) (v : View) :
      (base.hold m view justify).brought? m' v =
        if m' = m then
          if v = view then some ((c.brought? m view).getD justify) else none
        else c.brought? m' v := by
    rw [brought_hold, hhere]
    by_cases hm : m' = m
    · subst hm
      rw [if_pos rfl]
      by_cases hv : v = view
      · rw [if_pos ⟨rfl, hv⟩, if_pos hv]
      · rw [if_neg fun hplace => hv hplace.2, if_neg hv, hnowhere v hv]
    · rw [if_neg hm, if_neg fun hplace => hm hplace.1, hother m' v hm]
  have hnone {v : View} (hnot : ¬ c.Holds m v) : c.brought? m v = none :=
    Option.not_isSome_iff_eq_none.mp hnot
  split
  · next hnothing =>
      have hnot : ∀ v, ¬ c.Holds m v := fun v => not_holds_of_viewOf hnothing
      exact Or.inr ⟨fun held hheld => absurd hheld (hnot held),
        hput (fun _ _ _ => rfl) rfl fun v _ => hnone (hnot v)⟩
  next held hview =>
  have hheld : c.Holds m held := holds_of_viewOf hview
  have hle {v : View} (hv : c.Holds m v) : v = held := honce m v held hv hheld
  split
  · next hlater => exact Or.inl ⟨held, hlater, hheld, rfl⟩
  next hnot =>
  refine Or.inr ⟨fun v hv => hle hv ▸ UInt64.not_lt.mp hnot, ?_⟩
  split
  · next hearlier =>
      have hne : view ≠ held := fun heq => UInt64.ne_of_lt hearlier heq.symm
      refine hput (fun m' v hm => ?_) ?_ fun v _ => ?_
      · rw [brought_release, if_neg fun hplace => hm hplace.1]
      · rw [brought_release, if_neg fun hplace => hne hplace.2]
      · rw [brought_release]
        split
        · rfl
        · next hplace => exact hnone fun hv => hplace ⟨rfl, hle hv⟩
  · next hsame =>
      have heq : held = view := UInt64.le_antisymm (UInt64.not_lt.mp hnot) (UInt64.not_lt.mp hsame)
      exact hput (fun _ _ _ => rfl) rfl fun v hv => hnone fun hholds => hv ((hle hholds).trans heq)

/-- **Who is held where, after an announcement.** It is behind where the member is held, and changes
nothing; or the member is held in the view announced, which is no earlier, and nowhere else. -/
theorem holds_addNewView (honce : c.HeldOnce)
    (h : c.addNewView committee view m justify = .ok (count, c')) :
    (∃ held, view < held ∧ c.Holds m held ∧ c' = c) ∨
      (∀ held, c.Holds m held → held ≤ view) ∧
        ∀ m' v, c'.Holds m' v ↔ if m' = m then v = view else c.Holds m' v := by
  refine (brought_addNewView honce h).imp_right (And.imp_right fun hbrought m' v => ?_)
  rw [holds_iff, hbrought]
  by_cases hm : m' = m
  · rw [if_pos hm, if_pos hm]
    split
    · next hv => exact iff_of_true rfl hv
    · next hv => exact iff_of_false Bool.false_ne_true hv
  · rw [if_neg hm, if_neg hm]
    exact holds_iff.symm

namespace HeldOnce

/-- Nobody is held twice in a collector without rounds. -/
theorem empty : Collector.empty.HeldOnce := fun m v _ h => absurd h (not_holds_empty m v)

/-- Only who is held matters. -/
theorem congr (h : c.HeldOnce) (hsame : c.HoldsSame c') : c'.HeldOnce :=
  fun m v w hv hw => h m v w (hsame.holds.mp hv) (hsame.holds.mp hw)

/-- Forgetting views holds nobody anew. -/
theorem pruneBelow (h : c.HeldOnce) (here : View) : (c.pruneBelow here).HeldOnce :=
  fun m v w hv hw => h m v w (holds_pruneBelow.mp hv).2 (holds_pruneBelow.mp hw).2

/-- **An announcement holds nobody twice**: a member leaves the view it was held in when it comes to
a later one. -/
theorem addNewView (h : c.HeldOnce)
    (hadd : c.addNewView committee view m justify = .ok (count, c')) : c'.HeldOnce := by
  rcases holds_addNewView h hadd with ⟨-, -, -, rfl⟩ | ⟨-, hholds⟩
  · exact h
  · intro m' v w hv hw
    rw [hholds] at hv hw
    split at hv
    · next hm => exact hv.trans (if_pos hm ▸ hw :).symm
    · next hm => exact h m' v w hv (if_neg hm ▸ hw :)

/-- The member has come as far as the view it announced. -/
theorem heldFrom (h : c.HeldOnce)
    (hadd : c.addNewView committee view m justify = .ok (count, c')) : c'.HeldFrom m view := by
  rcases holds_addNewView h hadd with ⟨held, hlater, hheld, rfl⟩ | ⟨-, hholds⟩
  · exact ⟨held, UInt64.le_of_lt hlater, hheld⟩
  · exact ⟨view, UInt64.le_refl _, (hholds m view).mpr (if_pos rfl ▸ rfl)⟩

/-- **An announcement that is repeated changes nothing.** -/
theorem addNewView_again (h : c.HeldOnce) (hfrom : c.HeldFrom m view)
    (hmember : m ∈ committee.members) (justify : Certificate) :
    c.addNewView committee view m justify = .ok (c.newViewCount view, c) := by
  obtain ⟨held, hle, hheld⟩ := hfrom
  rw [Collector.addNewView, if_neg (not_not.mpr hmember), h.viewOf_eq hheld]
  rcases UInt64.lt_or_eq_of_le hle with hlt | rfl
  · simp only [if_pos hlt]
  · simp only [UInt64.lt_irrefl, if_false, hold_of_holds hheld]

end HeldOnce

namespace HeldFrom

/-- A collector that holds the same has the member where it was. -/
theorem congr (h : c.HeldFrom m view) (hsame : c.HoldsSame c') : c'.HeldFrom m view := by
  obtain ⟨held, hle, hheld⟩ := h
  exact ⟨held, hle, hsame.holds.mpr hheld⟩

/-- Forgetting earlier views keeps the members of later ones. -/
theorem pruneBelow (h : c.HeldFrom m view) (hle : here ≤ view) :
    (c.pruneBelow here).HeldFrom m view := by
  obtain ⟨held, hview, hheld⟩ := h
  exact ⟨held, hview, holds_pruneBelow.mpr ⟨UInt64.le_trans hle hview, hheld⟩⟩

/-- **A member never goes back.** -/
theorem addNewView (h : c.HeldFrom m view) (honce : c.HeldOnce)
    (hadd : c.addNewView committee v m' justify = .ok (count, c')) : c'.HeldFrom m view := by
  obtain ⟨held, hle, hheld⟩ := h
  rcases holds_addNewView honce hadd with ⟨-, -, -, rfl⟩ | ⟨hforward, hholds⟩
  · exact ⟨held, hle, hheld⟩
  · by_cases hm : m = m'
    · subst hm
      exact ⟨v, UInt64.le_trans hle (hforward held hheld), (hholds m v).mpr (if_pos rfl ▸ rfl)⟩
    · exact ⟨held, hle, (hholds m held).mpr (if_neg hm ▸ hheld)⟩

end HeldFrom

/-! ### Ballots and votes -/

/-- Opening a ballot moves no member. -/
theorem holdsSame_openBallot {target : Ballot} (hok : c.openBallot target = .ok c') :
    c.HoldsSame c' := by
  rcases openBallot_ok hok with ⟨-, rfl⟩ | ⟨-, rfl⟩
  · exact fun _ => rfl
  · exact holdsSame_putTally c _

/-- Counting a vote moves no member. -/
theorem holdsSame_addVote {scheme : Scheme} {vote : Vote} {outcome : VoteOutcome}
    (hok : c.addVote scheme committee vote = .ok (outcome, c')) : c.HoldsSame c' := by
  rcases addVote_ok hok with ⟨-, rfl⟩ | ⟨-, -, -, -, -, -, counted, rfl, -⟩
  · exact fun _ => rfl
  · exact holdsSame_putTally c counted

end Collector

/-! ### Turns -/

section Turns

variable {σ : Type} [StateStore σ] {ctx : Context} {t : Turn σ} {core : Core σ}

/-- No turn holds a member twice. -/
theorem Turn.heldOnce_of_kind (hkind : t.Kind ctx) (h : t.before.votes.HeldOnce) :
    t.after.votes.HeldOnce :=
  Turn.votes_of_kind (P := Collector.HeldOnce) (fun _ _ _ _ _ _ hadd h => h.addNewView hadd)
    (fun _ _ _ _ _ hadd h => h.congr (Collector.holdsSame_addVote hadd))
    (fun _ _ _ hopen h => h.congr (Collector.holdsSame_openBallot hopen)) hkind h

/-- No turn takes a member back. -/
theorem Turn.heldFrom_of_kind {m : MemberId} {view : View} (hkind : t.Kind ctx)
    (h : t.before.votes.HeldOnce ∧ t.before.votes.HeldFrom m view) :
    t.after.votes.HeldOnce ∧ t.after.votes.HeldFrom m view := by
  refine Turn.votes_of_kind (P := fun c => c.HeldOnce ∧ c.HeldFrom m view) ?_ ?_ ?_ hkind h
  · rintro c c' v m' justify count hadd ⟨honce, hfrom⟩
    exact ⟨honce.addNewView hadd, hfrom.addNewView honce hadd⟩
  · rintro c c' vote outcome - hadd ⟨honce, hfrom⟩
    have hsame := Collector.holdsSame_addVote hadd
    exact ⟨honce.congr hsame, hfrom.congr hsame⟩
  · rintro c c' target hopen ⟨honce, hfrom⟩
    have hsame := Collector.holdsSame_openBallot hopen
    exact ⟨honce.congr hsame, hfrom.congr hsame⟩

/-- **A process holds no member twice.** -/
theorem Core.Reached.heldOnce (hreached : core.Reached ctx) : core.votes.HeldOnce := by
  refine hreached.induction (P := fun core => core.votes.HeldOnce)
    (fun _ => Turn.heldOnce_of_kind) ?_ ?_
  · intro store core hcreate
    obtain ⟨r, -, h⟩ := bind_eq_ok.mp hcreate
    obtain rfl := Except.ok.inj h
    exact Collector.HeldOnce.empty
  · rintro core core' h ⟨status, metrics, rfl⟩
    exact h.pruneBelow _

end Turns

end HotStuff
