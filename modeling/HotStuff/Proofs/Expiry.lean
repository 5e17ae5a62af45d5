import HotStuff.Pacemaker
import Mathlib.Data.List.Sort
import Mathlib.Logic.Relation
import Mathlib.Order.Bounds.Basic
import Mathlib.Order.OrderIsoNat

/-!
# The Deadline in Force

A wait for the deadline reads it once and sleeps until the instant it has read, which a reset may
have left behind by then. Two things make up for that. A reset leaves a mark that wakes the wait, or
keeps it from falling asleep; one mark stands for any number of resets. And a wait that has slept to
its end reads the deadline again before it is over.

So the invariant of a sleeping wait is that there is a mark or the deadline is the one it has read.
Time only passes when there is no mark, which makes the wait sleep until the deadline in force, and
that is still to come. Here resets, the wait and the clock take their steps in any order that the
time allows: a reset at an instant before or after anything that the wait does then, and several
resets of one instant with the wait in between.

## Main definitions

* `Pacemaker.inForce`: the deadline that the resets so far have left.
* `Pacemaker.Step`: a reset, a move of the wait, or a millisecond.
* `Pacemaker.FiresAt`: the first instant at which the deadline in force has come.

## Main results

* `Pacemaker.Kept.step`: what a sleeping wait relies on is kept by every step.
* `Pacemaker.Step.measure_lt`: what every step makes smaller, so that no wait goes on for ever.
* `wait_is_over_when_it_fires`: a wait is over exactly when the deadline in force has come.
* `Pacemaker.wait_eq_of_over`: a wait of limited length sees the same.
-/

namespace HotStuff

namespace Pacemaker

/-! ### Resets -/

/-- A reset: when it is made, and how far from then it moves the deadline. -/
structure Reset where
  at_ : Instant
  timeout : Millis
  deriving DecidableEq, Repr

/-- The deadline that a reset leaves. -/
def Reset.deadline (r : Reset) : Instant := r.at_ + r.timeout.toNat

/-- The deadline after some resets. -/
def lastDeadline (initial : Instant) (resets : List Reset) : Instant :=
  (resets.getLast?.map Reset.deadline).getD initial

/-- **The deadline in force** at an instant: that of the last reset not after it. -/
def inForce (initial : Instant) (resets : List Reset) (t : Instant) : Instant :=
  lastDeadline initial (resets.filter fun r => r.at_ ≤ t)

section Resets

variable {initial t : Instant} {done later : List Reset}

/-- One more reset leaves its own deadline. -/
theorem lastDeadline_concat (initial : Instant) (done : List Reset) (r : Reset) :
    lastDeadline initial (done ++ [r]) = r.deadline := by
  rw [lastDeadline, List.getLast?_concat]
  rfl

/-- Resets that are all made leave the last deadline. -/
theorem inForce_of_le (h : ∀ r ∈ done, r.at_ ≤ t) :
    inForce initial done t = lastDeadline initial done := by
  rw [inForce, List.filter_eq_self.mpr fun r hr => decide_eq_true (h r hr)]

/-- Resets to come leave no deadline yet. -/
theorem inForce_append_of_lt (h : ∀ r ∈ later, t < r.at_) :
    inForce initial (done ++ later) t = inForce initial done t := by
  have hnone : later.filter (fun r => r.at_ ≤ t) = [] :=
    List.filter_eq_nil_iff.mpr fun r hr => by simpa using h r hr
  rw [inForce, List.filter_append, hnone, List.append_nil, inForce]

end Resets

/-! ### Waiting -/

/-- Where a wait is. -/
inductive Waiting where
  | idle
  /-- About to read the deadline. -/
  | reading
  /-- Until the deadline that it has read, unless it notices a reset. -/
  | sleeping (until_ : Instant)
  | ended (at_ : Instant)
  deriving DecidableEq, Repr

/-- Whether a wait is over. -/
def Waiting.isOver : Waiting → Bool
  | ended _ => true
  | idle | reading | sleeping _ => false

/-- **A move of the wait.** It begins when it is asked for, reads the deadline, and sleeps. It
notices a reset, of which the pacemaker then keeps no mark, and reads again; or it has slept to the
end, and looks whether the deadline has come. -/
inductive Turn (begins now : Instant) : Pacemaker → Waiting → Pacemaker → Waiting → Prop
  | begin {p} (hbegins : begins ≤ now) : Turn begins now p .idle p .reading
  | read {p} : Turn begins now p .reading p (.sleeping p.deadline)
  | notice {p until_} (hchanged : p.changed = true) :
      Turn begins now p (.sleeping until_) { p with changed := false } .reading
  | expire {p until_} (hwakes : until_ ≤ now) (hcome : p.deadline ≤ now) :
      Turn begins now p (.sleeping until_) p (.ended now)
  | again {p until_} (hwakes : until_ ≤ now) (hmoved : now < p.deadline) :
      Turn begins now p (.sleeping until_) p .reading

/-- A sleeping wait moves when it is said to wake. -/
theorem wakesAt_le_iff {begins now until_ : Instant} {p : Pacemaker} :
    p.wakesAt now until_ ≤ now ↔
      ∃ p' waiting, Turn begins now p (.sleeping until_) p' waiting := by
  constructor
  · intro hwakes
    cases hchanged : p.changed with
    | true => exact ⟨_, _, .notice hchanged⟩
    | false =>
        rw [wakesAt, hchanged] at hwakes
        rcases Nat.lt_or_ge now p.deadline with hmoved | hcome
        · exact ⟨_, _, .again hwakes hmoved⟩
        · exact ⟨_, _, .expire hwakes hcome⟩
  · rintro ⟨p', waiting, hturn⟩
    cases hturn with
    | notice hchanged => exact (if_pos hchanged).le
    | expire hwakes | again hwakes =>
        rw [wakesAt]
        split
        · exact Nat.le_refl _
        · exact hwakes

/-- When a wait cannot move, it is to begin yet, or sleeps without a mark until an instant to
come. -/
theorem quiet_cases {begins now : Instant} {p : Pacemaker} {waiting : Waiting}
    (hopen : waiting.isOver = false)
    (hquiet : ∀ p' waiting', ¬ Turn begins now p waiting p' waiting') :
    (waiting = .idle ∧ now < begins) ∨
      ∃ until_, waiting = .sleeping until_ ∧ p.changed = false ∧ now < until_ := by
  cases waiting with
  | idle => exact Or.inl ⟨rfl, Nat.not_le.mp fun hbegins => hquiet _ _ (.begin hbegins)⟩
  | reading => exact absurd .read (hquiet _ _)
  | sleeping until_ =>
      have hwakes : now < p.wakesAt now until_ := by
        refine Nat.not_le.mp fun hwakes => ?_
        obtain ⟨p', waiting, hturn⟩ := wakesAt_le_iff.mp hwakes
        exact hquiet p' waiting hturn
      rw [wakesAt] at hwakes
      split at hwakes
      · exact absurd hwakes (Nat.lt_irrefl _)
      · next hmark => exact Or.inr ⟨until_, rfl, Bool.eq_false_of_not_eq_true hmark, hwakes⟩
  | ended t => cases hopen

/-- A pacemaker with a wait and a clock, and the resets to come. -/
structure Watch where
  now : Instant
  pacemaker : Pacemaker
  waiting : Waiting
  coming : List Reset

/-- **A step**: a reset that is due, a move of the wait, or a millisecond in which there is neither.
With the end of the wait the steps end. -/
inductive Step (begins : Instant) : Watch → Watch → Prop
  | reset {w r later} (hopen : w.waiting.isOver = false) (hcoming : w.coming = r :: later)
      (hdue : r.at_ = w.now) :
      Step begins w
        { w with pacemaker := w.pacemaker.reset w.now r.timeout, coming := later }
  | turn {w p waiting} (hturn : Turn begins w.now w.pacemaker w.waiting p waiting) :
      Step begins w { w with pacemaker := p, waiting }
  | pass {w} (hopen : w.waiting.isOver = false)
      (hquiet : ∀ p waiting, ¬ Turn begins w.now w.pacemaker w.waiting p waiting)
      (hlater : ∀ r ∈ w.coming, w.now < r.at_) :
      Step begins w { w with now := w.now + 1 }

/-- Any number of steps. -/
abbrev Reaches (begins : Instant) : Watch → Watch → Prop := Relation.ReflTransGen (Step begins)

/-! ### What is kept -/

/-- **What the steps keep**, with the resets that were made: the deadline is the last of theirs, a
sleeping wait has a mark or has read it, and so far the deadline in force was always to come. -/
structure Kept (initial begins : Instant) (resets done : List Reset) (w : Watch) : Prop where
  split : resets = done ++ w.coming
  ordered : w.coming.Pairwise fun r s => r.at_ ≤ s.at_
  done_le : ∀ r ∈ done, r.at_ ≤ w.now
  le_coming : ∀ r ∈ w.coming, w.now ≤ r.at_
  deadline : w.pacemaker.deadline = lastDeadline initial done
  begun : w.waiting ≠ .idle → begins ≤ w.now
  asleep : ∀ until_, w.waiting = .sleeping until_ →
    w.pacemaker.changed = true ∨ until_ = w.pacemaker.deadline
  come : ∀ t, w.waiting = .ended t → t = w.now ∧ w.pacemaker.deadline ≤ t
  early : ∀ t, begins ≤ t → t < w.now → t < inForce initial resets t

section Keeping

variable {initial begins : Instant} {resets done : List Reset} {w w' : Watch}

/-- With the resets that are due made, the deadline is the one in force. -/
theorem Kept.inForce_now (h : Kept initial begins resets done w)
    (hlater : ∀ r ∈ w.coming, w.now < r.at_) :
    inForce initial resets w.now = w.pacemaker.deadline := by
  rw [h.split, inForce_append_of_lt hlater, inForce_of_le h.done_le, h.deadline]

/-- Resets that are not due are to come. -/
theorem Kept.lt_coming (h : Kept initial begins resets done w)
    (hnone : ¬ ∃ r later, w.coming = r :: later ∧ r.at_ = w.now) :
    ∀ r ∈ w.coming, w.now < r.at_ := by
  cases hcoming : w.coming with
  | nil => exact fun _ hr => by cases hr
  | cons first later =>
      have hle := h.le_coming
      have hordered := h.ordered
      rw [hcoming] at hle hordered
      have hfirst : w.now < first.at_ := Nat.lt_of_le_of_ne (hle first (List.mem_cons_self ..))
        fun hdue => hnone ⟨first, later, hcoming, hdue.symm⟩
      intro r hr
      rcases List.mem_cons.mp hr with rfl | hr
      · exact hfirst
      · exact Nat.lt_of_lt_of_le hfirst (List.rel_of_pairwise_cons hordered hr)

/-- When time can pass, the deadline in force is to come, or the wait has not begun. -/
theorem Kept.lt_of_quiet (h : Kept initial begins resets done w)
    (hopen : w.waiting.isOver = false)
    (hquiet : ∀ p waiting, ¬ Turn begins w.now w.pacemaker w.waiting p waiting)
    (hbegins : begins ≤ w.now) : w.now < w.pacemaker.deadline := by
  rcases quiet_cases hopen hquiet with ⟨-, hearly⟩ | ⟨until_, hwaiting, hmark, hahead⟩
  · exact absurd hbegins (Nat.not_le.mpr hearly)
  · rcases h.asleep until_ hwaiting with hchanged | rfl
    · cases hmark.symm.trans hchanged
    · exact hahead

/-- A move of the wait keeps it: what it reads is the deadline, and a mark goes only when it is
about to read. -/
theorem Kept.turn {p : Pacemaker} {waiting : Waiting} (h : Kept initial begins resets done w)
    (hturn : Turn begins w.now w.pacemaker w.waiting p waiting) :
    Kept initial begins resets done { w with pacemaker := p, waiting } := by
  obtain ⟨now, before, stage, coming⟩ := w
  cases hturn with
  | begin hbegins =>
      exact { h with
        begun := fun _ => hbegins
        asleep := fun _ hsleeping => by cases hsleeping
        come := fun _ hover => by cases hover }
  | read =>
      exact { h with
        begun := fun _ => h.begun (by simp)
        asleep := fun _ hsleeping => Or.inr (Waiting.sleeping.inj hsleeping).symm
        come := fun _ hover => by cases hover }
  | notice hchanged =>
      exact { h with
        begun := fun _ => h.begun (by simp)
        asleep := fun _ hsleeping => by cases hsleeping
        come := fun _ hover => by cases hover }
  | expire hwakes hcome =>
      exact { h with
        begun := fun _ => h.begun (by simp)
        asleep := fun _ hsleeping => by cases hsleeping
        come := fun t hover => Waiting.ended.inj hover ▸ ⟨rfl, hcome⟩ }
  | again hwakes hmoved =>
      exact { h with
        begun := fun _ => h.begun (by simp)
        asleep := fun _ hsleeping => by cases hsleeping
        come := fun _ hover => by cases hover }

/-- A reset keeps it: it leaves a mark. -/
theorem Kept.reset {r : Reset} {later : List Reset} (h : Kept initial begins resets done w)
    (hopen : w.waiting.isOver = false) (hcoming : w.coming = r :: later) (hdue : r.at_ = w.now) :
    Kept initial begins resets (done ++ [r])
      { w with pacemaker := w.pacemaker.reset w.now r.timeout, coming := later } := by
  obtain ⟨now, before, stage, coming⟩ := w
  obtain rfl : coming = r :: later := hcoming
  obtain rfl : r.at_ = now := hdue
  obtain ⟨hfirst, hordered⟩ := List.pairwise_cons.mp h.ordered
  exact {
    split := by rw [h.split, List.append_assoc, List.singleton_append]
    ordered := hordered
    done_le := fun s hs => by
      rcases List.mem_append.mp hs with hs | hs
      · exact h.done_le s hs
      · obtain rfl := List.mem_singleton.mp hs
        exact Nat.le_refl _
    le_coming := fun s hs => hfirst s hs
    deadline := (lastDeadline_concat initial done r).symm
    begun := h.begun
    asleep := fun _ _ => Or.inl rfl
    come := fun t hover => by
      obtain rfl : stage = .ended t := hover
      cases hopen
    early := h.early }

/-- A millisecond keeps it: all resets that are due are made, and the deadline is to come. -/
theorem Kept.pass (h : Kept initial begins resets done w) (hopen : w.waiting.isOver = false)
    (hquiet : ∀ p waiting, ¬ Turn begins w.now w.pacemaker w.waiting p waiting)
    (hlater : ∀ r ∈ w.coming, w.now < r.at_) :
    Kept initial begins resets done { w with now := w.now + 1 } := by
  refine { h with
    done_le := fun r hr => Nat.le_succ_of_le (h.done_le r hr)
    le_coming := fun r hr => hlater r hr
    begun := fun hbegun => Nat.le_succ_of_le (h.begun hbegun)
    come := fun t hover => ?_
    early := fun t hbegins ht => ?_ }
  · rw [show w.waiting = .ended t from hover] at hopen
    cases hopen
  · rcases Nat.lt_succ_iff_lt_or_eq.mp ht with hearlier | rfl
    · exact h.early t hbegins hearlier
    · rw [h.inForce_now hlater]
      exact h.lt_of_quiet hopen hquiet hbegins

/-- **A step keeps it.** -/
theorem Kept.step (h : Kept initial begins resets done w) (hstep : Step begins w w') :
    ∃ done, Kept initial begins resets done w' := by
  cases hstep with
  | reset hopen hcoming hdue => exact ⟨_, h.reset hopen hcoming hdue⟩
  | turn hturn => exact ⟨_, h.turn hturn⟩
  | pass hopen hquiet hlater => exact ⟨_, h.pass hopen hquiet hlater⟩

/-- Any number of steps keeps it. By induction on them, from the end, as the resets that are made
grow with each step. -/
theorem Kept.reaches (h : Kept initial begins resets done w) (hrun : Reaches begins w w') :
    ∃ done, Kept initial begins resets done w' := by
  induction hrun with
  | refl => exact ⟨done, h⟩
  | tail hrun hstep ih =>
      obtain ⟨done, hkept⟩ := ih
      exact hkept.step hstep

/-- It holds before the wait begins and before any reset. -/
theorem Kept.start {birth : Instant} (p : Pacemaker) (hbegins : birth ≤ begins)
    (hbirth : ∀ r ∈ resets, birth ≤ r.at_)
    (hordered : resets.Pairwise fun r s => r.at_ ≤ s.at_) :
    Kept p.deadline begins resets [] ⟨birth, p, .idle, resets⟩ where
  split := rfl
  ordered := hordered
  done_le := fun _ hr => by cases hr
  le_coming := hbirth
  deadline := rfl
  begun := fun hbegun => absurd rfl hbegun
  asleep := fun _ hsleeping => by cases hsleeping
  come := fun _ hover => by cases hover
  early := fun _ ht hearlier => absurd (Nat.le_trans hbegins ht) (Nat.not_le.mpr hearlier)

/-! ### No wait without end -/

/-- As long as the wait is not over, something can happen. -/
theorem Kept.exists_step (h : Kept initial begins resets done w)
    (hopen : w.waiting.isOver = false) : ∃ w', Step begins w w' := by
  by_cases hdue : ∃ r later, w.coming = r :: later ∧ r.at_ = w.now
  · obtain ⟨r, later, hcoming, hdue⟩ := hdue
    exact ⟨_, .reset hopen hcoming hdue⟩
  by_cases hturn : ∃ p waiting, Turn begins w.now w.pacemaker w.waiting p waiting
  · obtain ⟨p, waiting, hturn⟩ := hturn
    exact ⟨_, .turn hturn⟩
  · exact ⟨_, .pass hopen (fun p waiting h => hturn ⟨p, waiting, h⟩) (h.lt_coming hdue)⟩

end Keeping

section Ending

variable {begins : Instant} {w w' : Watch}

/-- How far a wait is from its end, as long as nothing else happens: a mark makes it read once more,
and so does a deadline that it has not read. -/
def Waiting.rank (p : Pacemaker) : Waiting → Nat
  | idle => 7
  | reading => 3 * p.changed.toNat + 2
  | sleeping until_ => 3 * p.changed.toNat + if until_ = p.deadline then 1 else 3
  | ended _ => 0

/-- The latest instant that a wait waits for. -/
def Waiting.horizon (begins : Instant) (p : Pacemaker) : Waiting → Instant
  | idle | reading | ended _ => max begins p.deadline
  | sleeping until_ => max begins (max p.deadline until_)

/-- A move of the wait lowers the rank, and adds nothing to wait for. -/
theorem Turn.rank_lt {now : Instant} {p p' : Pacemaker} {waiting waiting' : Waiting}
    (h : Turn begins now p waiting p' waiting') :
    waiting'.horizon begins p' ≤ waiting.horizon begins p ∧
      waiting'.rank p' < waiting.rank p := by
  cases h with
  | begin =>
      have hmark := p.changed.toNat_le
      simp only [Waiting.horizon, Waiting.rank, Instant]
      omega
  | read =>
      simp only [Waiting.horizon, Waiting.rank, Instant, if_true]
      omega
  | notice hchanged =>
      simp only [Waiting.horizon, Waiting.rank, Instant, hchanged, Bool.toNat_true,
        Bool.toNat_false]
      omega
  | expire =>
      simp only [Waiting.horizon, Waiting.rank, Instant]
      split <;> omega
  | again hwakes hmoved =>
      have hstale := Nat.ne_of_lt (Nat.lt_of_le_of_lt hwakes hmoved)
      simp only [Waiting.horizon, Waiting.rank, Instant, if_neg hstale]
      omega

/-- What every step makes smaller: the resets to come, then the time that is left and the rank. -/
def Watch.measure (begins : Instant) (w : Watch) : Nat × Nat :=
  (w.coming.length, 8 * (w.waiting.horizon begins w.pacemaker - w.now) + w.waiting.rank w.pacemaker)

/-- Time passes only towards something that the wait waits for. -/
theorem Watch.now_lt_horizon (hopen : w.waiting.isOver = false)
    (hquiet : ∀ p waiting, ¬ Turn begins w.now w.pacemaker w.waiting p waiting) :
    w.now < w.waiting.horizon begins w.pacemaker := by
  rcases quiet_cases hopen hquiet with ⟨hwaiting, hearly⟩ | ⟨until_, hwaiting, -, hahead⟩
  · rw [hwaiting]
    exact Nat.lt_of_lt_of_le hearly (Nat.le_max_left ..)
  · rw [hwaiting]
    exact Nat.lt_of_lt_of_le hahead (Nat.le_trans (Nat.le_max_right ..) (Nat.le_max_right ..))

/-- **A step makes it smaller.** -/
theorem Step.measure_lt (h : Step begins w w') :
    Prod.Lex (· < ·) (· < ·) (w'.measure begins) (w.measure begins) := by
  cases h with
  | reset hopen hcoming hdue =>
      refine Prod.Lex.left _ _ ?_
      rw [hcoming]
      exact Nat.lt_succ_self _
  | turn hturn =>
      obtain ⟨hhorizon, hrank⟩ := hturn.rank_lt
      refine Prod.Lex.right _ ?_
      simp only [Instant] at *
      omega
  | pass hopen hquiet hlater =>
      have hahead := Watch.now_lt_horizon hopen hquiet
      refine Prod.Lex.right _ ?_
      simp only [Instant] at *
      omega

/-- **There is no endless run**: every step lowers the measure. -/
theorem wellFounded_step (begins : Instant) : WellFounded fun w' w => Step begins w w' :=
  Subrelation.wf Step.measure_lt
    (InvImage.wf (Watch.measure begins) (Nat.lt_wfRel.wf.prod_lex Nat.lt_wfRel.wf))

/-- **No wait goes on for ever.** -/
theorem not_exists_endless (begins : Instant) :
    ¬ ∃ run : Nat → Watch, ∀ n, Step begins (run n) (run (n + 1)) := by
  rintro ⟨run, hrun⟩
  have hempty := wellFounded_iff_isEmpty_descending_chain.mp (wellFounded_step begins)
  exact hempty.false ⟨run, hrun⟩

end Ending

/-! ### When the wait is over -/

/-- **When a deadline fires**, after some resets and before the others: none of the others is made
before, and it is the first instant, from the beginning of the wait on, at which the deadline in
force has come. A reset at that very instant may be among those or among these. -/
structure FiresAt (initial begins : Instant) (done later : List Reset) (t : Instant) : Prop where
  done_le : ∀ r ∈ done, r.at_ ≤ t
  le_later : ∀ r ∈ later, t ≤ r.at_
  first : IsLeast {s | begins ≤ s ∧ inForce initial done s ≤ s} t

section Firing

variable {initial begins t : Instant} {resets done later : List Reset} {w : Watch}

/-- Before it fires, the resets after that do not count. -/
theorem FiresAt.inForce_append (h : FiresAt initial begins done later t) {s : Instant}
    (hs : s < t) : inForce initial (done ++ later) s = inForce initial done s :=
  inForce_append_of_lt fun r hr => Nat.lt_of_lt_of_le hs (h.le_later r hr)

/-- With no reset left at that instant, it is the first one for all the resets. -/
theorem FiresAt.isLeast (h : FiresAt initial begins done later t)
    (hlater : ∀ r ∈ later, r.at_ ≠ t) :
    IsLeast {s | begins ≤ s ∧ inForce initial (done ++ later) s ≤ s} t := by
  obtain ⟨⟨hbegins, hforce⟩, hfirst⟩ := h.first
  have hcoming : ∀ r ∈ later, t < r.at_ := fun r hr =>
    Nat.lt_of_le_of_ne (h.le_later r hr) (hlater r hr).symm
  refine ⟨⟨hbegins, (inForce_append_of_lt hcoming).trans_le hforce⟩, ?_⟩
  rintro s ⟨hs, hforce⟩
  by_contra hearlier
  rw [h.inForce_append (Nat.not_le.mp hearlier)] at hforce
  exact hearlier (hfirst ⟨hs, hforce⟩)

/-- **A wait is over when the deadline fires.** -/
theorem Kept.firesAt (h : Kept initial begins resets done w) (hover : w.waiting = .ended t) :
    FiresAt initial begins done w.coming t := by
  obtain ⟨rfl, hcome⟩ := h.come t hover
  have hbegins : begins ≤ w.now := h.begun (by simp [hover])
  refine ⟨h.done_le, h.le_coming, ⟨hbegins, ?_⟩, ?_⟩
  · rw [inForce_of_le h.done_le, ← h.deadline]
    exact hcome
  · rintro s ⟨hs, hforce⟩
    by_contra hearlier
    have hearlier : s < w.now := Nat.not_le.mp hearlier
    have hlater : ∀ r ∈ w.coming, s < r.at_ := fun r hr =>
      Nat.lt_of_lt_of_le hearlier (h.le_coming r hr)
    have hahead := h.early s hs hearlier
    rw [h.split, inForce_append_of_lt hlater] at hahead
    exact absurd hforce (Nat.not_le.mpr hahead)

/-- On the way to where a deadline fires, with the resets at this instant made as far as they count,
the deadline in force is to come; at the end of it, it has come. -/
theorem Kept.on_the_way {done₀ : List Reset} (h : Kept initial begins resets done₀ w)
    (hfires : FiresAt initial begins done later t) (hsplit : resets = done ++ later)
    (hnow : w.now ≤ t) (hsuffix : later <:+ w.coming)
    (hdone : w.coming = later ∨ ¬ ∃ r rest, w.coming = r :: rest ∧ r.at_ = w.now) :
    (w.now < t ∧ (∀ r ∈ w.coming, w.now < r.at_) ∧
        (begins ≤ w.now → w.now < w.pacemaker.deadline)) ∨
      (w.now = t ∧ w.coming = later ∧ w.pacemaker.deadline ≤ w.now) := by
  have hahead (hlt : w.now < t) (hlater : ∀ r ∈ w.coming, w.now < r.at_)
      (hbegins : begins ≤ w.now) : w.now < w.pacemaker.deadline := by
    by_contra hcome
    have hforce : inForce initial done w.now = w.pacemaker.deadline := by
      rw [← hfires.inForce_append hlt, ← hsplit, h.inForce_now hlater]
    have hfirst : t ≤ w.now := hfires.first.2 ⟨hbegins, hforce ▸ Nat.not_lt.mp hcome⟩
    exact absurd hlt (Nat.not_lt.mpr hfirst)
  by_cases hsame : w.coming = later
  · rcases Nat.lt_or_eq_of_le hnow with hlt | heq
    · have hlater : ∀ r ∈ w.coming, w.now < r.at_ := fun r hr =>
        Nat.lt_of_lt_of_le hlt (hfires.le_later r (hsame ▸ hr))
      exact Or.inl ⟨hlt, hlater, hahead hlt hlater⟩
    · have hdone₀ : done₀ = done :=
        List.append_cancel_right (h.split.symm.trans (hsame ▸ hsplit))
      have hcome := hfires.first.1.2
      rw [inForce_of_le hfires.done_le, ← hdone₀, ← h.deadline, ← heq] at hcome
      exact Or.inr ⟨heq, hsame, hcome⟩
  · have hlater := h.lt_coming (hdone.resolve_left hsame)
    obtain ⟨between, hbetween⟩ := hsuffix
    have hsome : between ≠ [] := by
      rintro rfl
      exact hsame hbetween.symm
    obtain ⟨r, hr⟩ := List.exists_mem_of_ne_nil between hsome
    have hall : done₀ ++ between = done := by
      have hwhole : done₀ ++ between ++ later = done ++ later := by
        rw [List.append_assoc, hbetween, ← h.split, hsplit]
      exact List.append_cancel_right hwhole
    have hlt : w.now < t := Nat.lt_of_lt_of_le
      (hlater r (hbetween ▸ List.mem_append_left _ hr))
      (hfires.done_le r (hall ▸ List.mem_append_right _ hr))
    exact Or.inl ⟨hlt, hlater, hahead hlt hlater⟩

/-- **Wherever a deadline may fire, some run is over**, whatever the order at that instant. -/
theorem Kept.exists_over {done₀ : List Reset} (h : Kept initial begins resets done₀ w)
    (hopen : w.waiting.isOver = false) (hfires : FiresAt initial begins done later t)
    (hsplit : resets = done ++ later) (hnow : w.now ≤ t) (hsuffix : later <:+ w.coming) :
    ∃ w', Reaches begins w w' ∧ w'.waiting = .ended t ∧ w'.coming = later := by
  induction w using (wellFounded_step begins).induction generalizing done₀ with
  | _ w ih =>
  by_cases hdue : w.coming ≠ later ∧ ∃ r rest, w.coming = r :: rest ∧ r.at_ = w.now
  · obtain ⟨hmore, r, rest, hcoming, hdue⟩ := hdue
    rw [hcoming] at hsuffix hmore
    have hrest : later <:+ rest := (List.suffix_cons_iff.mp hsuffix).resolve_left hmore.symm
    have hstep : Step begins w _ := .reset hopen hcoming hdue
    obtain ⟨w', hrun, hend⟩ := ih _ hstep (h.reset hopen hcoming hdue) hopen hnow hrest
    exact ⟨w', .head hstep hrun, hend⟩
  have hway := h.on_the_way hfires hsplit hnow hsuffix
    ((Classical.em (w.coming = later)).imp_right fun hmore hr => hdue ⟨hmore, hr⟩)
  by_cases hturn : ∃ p waiting, Turn begins w.now w.pacemaker w.waiting p waiting
  · obtain ⟨p, waiting, hturn⟩ := hturn
    have hkept := h.turn hturn
    have hstep : Step begins w _ := .turn hturn
    cases waiting with
    | idle | reading | sleeping =>
        obtain ⟨w', hrun, hend⟩ := ih _ hstep hkept rfl hnow hsuffix
        exact ⟨w', .head hstep hrun, hend⟩
    | ended t' =>
        obtain ⟨ht', hcome⟩ : t' = w.now ∧ p.deadline ≤ t' := hkept.come t' rfl
        have hsame : p.deadline = w.pacemaker.deadline := hkept.deadline.trans h.deadline.symm
        rcases hway with ⟨-, -, hahead⟩ | ⟨heq, hcoming, -⟩
        · have hbegins : begins ≤ w.now := hkept.begun (by simp)
          rw [hsame, ht'] at hcome
          exact absurd hcome (Nat.not_le.mpr (hahead hbegins))
        · exact ⟨_, .single hstep, congrArg Waiting.ended (ht'.trans heq), hcoming⟩
  · have hquiet : ∀ p waiting, ¬ Turn begins w.now w.pacemaker w.waiting p waiting :=
      fun p waiting h => hturn ⟨p, waiting, h⟩
    rcases hway with ⟨hlt, hlater, -⟩ | ⟨heq, -, hcome⟩
    · have hstep : Step begins w _ := .pass hopen hquiet hlater
      obtain ⟨w', hrun, hend⟩ := ih _ hstep (h.pass hopen hquiet hlater) hopen hlt hsuffix
      exact ⟨w', .head hstep hrun, hend⟩
    · have hbegins : begins ≤ w.now := heq ▸ hfires.first.1.1
      exact absurd hcome (Nat.not_le.mpr (h.lt_of_quiet hopen hquiet hbegins))

end Firing

/-- A wait of limited length is over at the deadline, or now if that is past, or at its limit. -/
theorem wait_eq (p : Pacemaker) (now : Instant) (limit : Nat) :
    (p.wait now limit).1 =
      if max now p.deadline ≤ now + limit then (true, max now p.deadline)
      else (false, now + limit) := by
  rw [wait, poll]
  by_cases hcome : p.deadline ≤ now
  · rw [if_pos hcome, Nat.max_eq_left hcome, if_pos (Nat.le_add_right ..)]
  · rw [if_neg hcome, Nat.max_eq_right (Nat.le_of_not_le hcome)]
    exact apply_ite Prod.fst ..

/-- **A wait of limited length** sees what the steps of the wait do: it is over when they are, or at
its limit. -/
theorem wait_eq_of_over {p : Pacemaker} {now t : Instant} {limit : Nat} {coming : List Reset}
    {w : Watch} (hcoming : ∀ r ∈ coming, now + limit < r.at_)
    (hordered : coming.Pairwise fun r s => r.at_ ≤ s.at_)
    (hrun : Reaches now ⟨now, p, .idle, coming⟩ w) (hover : w.waiting = .ended t) :
    (p.wait now limit).1 = if t ≤ now + limit then (true, t) else (false, now + limit) := by
  have hfuture : ∀ r ∈ coming, now ≤ r.at_ := fun r hr =>
    Nat.le_of_lt (Nat.lt_of_le_of_lt (Nat.le_add_right now limit) (hcoming r hr))
  obtain ⟨done, hkept⟩ := (Kept.start p (Nat.le_refl now) hfuture hordered).reaches hrun
  have hfires := hkept.firesAt hover
  have hahead (s : Instant) (hs : now ≤ s) (ht : s < t) (hlimit : s ≤ now + limit) :
      s < p.deadline := by
    have hplain : inForce p.deadline coming s = p.deadline :=
      @inForce_append_of_lt p.deadline s [] coming fun r hr =>
        Nat.lt_of_le_of_lt hlimit (hcoming r hr)
    rw [(hkept.come t hover).1] at ht
    exact hplain ▸ hkept.early s hs ht
  rw [wait_eq]
  by_cases hlimit : t ≤ now + limit
  · have hnone : done = [] := List.eq_nil_iff_forall_not_mem.mpr fun r hr =>
      absurd (hcoming r (hkept.split ▸ List.mem_append_left _ hr))
        (Nat.not_lt.mpr (Nat.le_trans (hfires.done_le r hr) hlimit))
    obtain ⟨hbegins, hforce⟩ := hfires.first.1
    rw [hnone] at hforce
    have hle : max now p.deadline ≤ t := Nat.max_le.mpr ⟨hbegins, hforce⟩
    have hsame : max now p.deadline = t := by
      refine Nat.le_antisymm hle (Nat.not_lt.mp fun hlt => ?_)
      have hpast := hahead _ (Nat.le_max_left ..) hlt (Nat.le_trans hle hlimit)
      exact absurd hpast (Nat.not_lt.mpr (Nat.le_max_right ..))
    rw [hsame]
  · have hlong : now + limit < p.deadline :=
      hahead _ (Nat.le_add_right ..) (Nat.not_le.mp hlimit) (Nat.le_refl _)
    have hlater : ¬ max now p.deadline ≤ now + limit :=
      Nat.not_le.mpr (Nat.lt_of_lt_of_le hlong (Nat.le_max_right ..))
    rw [if_neg hlimit, if_neg hlater]

end Pacemaker

/-- **A wait is over exactly when the deadline in force has come.** Let a pacemaker be made at some
instant, with any timeout; let resets be made at any instants from then on, in their order, several
at one instant or not, with any timeouts; and let a wait begin at any instant. Then the instants at
which some run of the three is over, with some resets left, are those at which the deadline fires
before these: at such an instant the deadline in force has come, for the first time since the wait
began, and only resets at this very instant may be made before or after. No run is late: as long as
it is not over, the deadline in force was always to come, and something can happen; and none goes on
for ever. A wait of limited length that begins then tells the same, if no reset comes in between. -/
theorem wait_is_over_when_it_fires {birth begins : Instant} {timeout : Millis}
    {resets : List Pacemaker.Reset} (hbegins : birth ≤ begins)
    (hbirth : ∀ r ∈ resets, birth ≤ r.at_)
    (hordered : resets.Pairwise fun r s => r.at_ ≤ s.at_) :
    let start : Pacemaker.Watch := ⟨birth, .start birth timeout, .idle, resets⟩
    let initial := birth + timeout.toNat
    (∀ t later,
      (∃ w, Pacemaker.Reaches begins start w ∧ w.waiting = .ended t ∧ w.coming = later) ↔
        ∃ done, resets = done ++ later ∧ Pacemaker.FiresAt initial begins done later t) ∧
    (∀ w t, Pacemaker.Reaches begins start w → w.waiting = .ended t →
      (∀ r ∈ w.coming, r.at_ ≠ t) →
        IsLeast {s | begins ≤ s ∧ Pacemaker.inForce initial resets s ≤ s} t) ∧
    (∀ w, Pacemaker.Reaches begins start w → w.waiting.isOver = false →
      (∀ t, begins ≤ t → t < w.now → t < Pacemaker.inForce initial resets t) ∧
      ∃ w', Pacemaker.Step begins w w') ∧
    (¬ ∃ run : Nat → Pacemaker.Watch, ∀ n, Pacemaker.Step begins (run n) (run (n + 1))) ∧
    (∀ w w' t limit, Pacemaker.Reaches begins start w → w.waiting = .idle → w.now = begins →
      (∀ r ∈ w.coming, begins + limit < r.at_) →
      Pacemaker.Reaches begins w w' → w'.waiting = .ended t →
        (w.pacemaker.wait begins limit).1 =
          if t ≤ begins + limit then (true, t) else (false, begins + limit)) := by
  intro start initial
  have hstart : Pacemaker.Kept initial begins resets [] start :=
    .start (.start birth timeout) hbegins hbirth hordered
  refine ⟨fun t later => ⟨?_, ?_⟩, ?_, ?_, Pacemaker.not_exists_endless begins, ?_⟩
  · rintro ⟨w, hrun, hover, rfl⟩
    obtain ⟨done, hkept⟩ := hstart.reaches hrun
    exact ⟨done, hkept.split, hkept.firesAt hover⟩
  · rintro ⟨done, hsplit, hfires⟩
    exact hstart.exists_over rfl hfires hsplit (Nat.le_trans hbegins hfires.first.1.1)
      ⟨done, hsplit.symm⟩
  · intro w t hrun hover hlater
    obtain ⟨done, hkept⟩ := hstart.reaches hrun
    rw [hkept.split]
    exact (hkept.firesAt hover).isLeast hlater
  · intro w hrun hopen
    obtain ⟨done, hkept⟩ := hstart.reaches hrun
    exact ⟨hkept.early, hkept.exists_step hopen⟩
  · rintro ⟨now, p, waiting, coming⟩ w' t limit hrun hidle hnow hcoming hrest hover
    obtain ⟨done, hkept⟩ := hstart.reaches hrun
    obtain rfl : waiting = .idle := hidle
    obtain rfl : now = begins := hnow
    exact Pacemaker.wait_eq_of_over hcoming hkept.ordered hrest hover

namespace OnTheDeadline

open Pacemaker

/-- Before the wait begins, a reset that puts the deadline off; later two at one instant, the second
of them to an earlier deadline; and one on that deadline. -/
def resets : List Reset := [⟨0, 200⟩, ⟨10, 500⟩, ⟨10, 60⟩, ⟨70, 30⟩]

/-- At its making the pacemaker has a timeout of 100. -/
def start : Watch := ⟨0, .start 0 100, .idle, resets⟩

/-- The deadline fires before the last reset. -/
theorem firesAt_before : FiresAt 100 5 [⟨0, 200⟩, ⟨10, 500⟩, ⟨10, 60⟩] [⟨70, 30⟩] 70 := by
  have hnone : ∀ s < 70, ¬ (5 ≤ s ∧ inForce 100 [⟨0, 200⟩, ⟨10, 500⟩, ⟨10, 60⟩] s ≤ s) := by
    decide +kernel
  exact ⟨by decide, by decide, ⟨by decide, by decide⟩,
    fun s hs => Nat.not_lt.mp fun hearlier => hnone s hearlier hs⟩

/-- The deadline fires after all resets. -/
theorem firesAt_after : FiresAt 100 5 resets [] 100 := by
  have hnone : ∀ s < 100, ¬ (5 ≤ s ∧ inForce 100 resets s ≤ s) := by decide +kernel
  exact ⟨by decide, by decide, ⟨by decide, by decide⟩,
    fun s hs => Nat.not_lt.mp fun hearlier => hnone s hearlier hs⟩

end OnTheDeadline

open OnTheDeadline in
/-- A wait that begins at 5 may be over at 70, where a reset falls on the deadline, or at 100, to
which that reset has moved it. -/
theorem wait_is_over_before_or_after_a_reset :
    (∀ r ∈ resets, 0 ≤ r.at_) ∧ resets.Pairwise (fun r s => r.at_ ≤ s.at_) ∧
    (∃ w, Pacemaker.Reaches 5 start w ∧ w.waiting = .ended 70 ∧ w.coming = [⟨70, 30⟩]) ∧
    ∃ w, Pacemaker.Reaches 5 start w ∧ w.waiting = .ended 100 ∧ w.coming = [] := by
  have hbirth : ∀ r ∈ resets, 0 ≤ r.at_ := by decide
  have hordered : resets.Pairwise (fun r s => r.at_ ≤ s.at_) := by decide
  obtain ⟨hover, -⟩ := @wait_is_over_when_it_fires 0 5 100 resets (Nat.zero_le 5) hbirth hordered
  exact ⟨hbirth, hordered, (hover 70 _).mpr ⟨_, rfl, firesAt_before⟩,
    (hover 100 _).mpr ⟨_, (List.append_nil _).symm, firesAt_after⟩⟩

end HotStuff
