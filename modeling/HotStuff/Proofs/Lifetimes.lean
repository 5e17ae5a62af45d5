import HotStuff.Proofs.Scenario
import HotStuff.Proofs.Upkeep

/-!
# Lifetimes on One Store

A member lives through processes on one store. Saving is scattered over the handlers: some save when
they move to a view, some at their end, some not at all, and one input can set off several of them.
Whenever a member is done with what it was asked, its store is up to date all the same. So the next
process takes up where the last one stopped, in the next view, and what all of them execute is
counted without a gap.

What a core does to its replica is a sequence of calls to it, so a member's lifetimes are those of
its replica.

## Main definitions

* `Replica.Call`, `Replica.perform`: what a replica can be asked, and what comes of it.
* `Process`, `Process.Lifetimes`: what is asked of one process after the other.
* `Replica.Mirrored`: the store holds the progress, and a restart takes it up.
* `Counts`: heights that follow one another.

## Main results

* `Replica.perform_spec`: every call leaves the replica stored, and counts what it executes.
* `Process.replica_of_core`: the lifetimes of a core are lifetimes of its replica.
* `store_mirrors_replica`: store and heights, for replicas and for cores.
-/

namespace HotStuff

/-! ### Heights -/

/-- The height of what is executed. -/
def Deed.height? : Deed → Option Height
  | vote _ => none
  | execute _ height _ => some height

/-- The heights of what is executed by actions. -/
def heightsIn (actions : List Action) : List Height := (deedsIn actions).filterMap Deed.height?

/-- Heights are given in the order of the actions. -/
@[simp] theorem heightsIn_append (as bs : List Action) :
    heightsIn (as ++ bs) = heightsIn as ++ heightsIn bs := by
  rw [heightsIn, deedsIn_append, List.filterMap_append]
  rfl

/-- **Heights that follow one another**, counted on from one height and up to another. -/
structure Counts (start : Height) (heights : List Height) (last : Height) : Prop where
  consecutive : heights.map UInt64.toNat = List.range' (start.toNat + 1) heights.length
  reached : last.toNat = start.toNat + heights.length

namespace Counts

variable {start mid last : Height} {ns ms : List Height}

/-- Where nothing is executed the height stays. -/
theorem nil (start : Height) : Counts start [] start := ⟨rfl, rfl⟩

/-- What is executed is given the next height. -/
theorem next (h : Height.next? start = some last) : Counts start [last] last := by
  have hnext := Height.toNat_of_next? h
  exact ⟨congrArg ([·]) hnext, hnext⟩

/-- Heights that are counted on after others follow these. -/
theorem append (h : Counts start ns mid) (h' : Counts mid ms last) :
    Counts start (ns ++ ms) last := by
  constructor
  · rw [List.map_append, h.consecutive, h'.consecutive, h.reached, List.length_append,
      ← List.range'_append_1, Nat.add_right_comm]
  · rw [h'.reached, h.reached, List.length_append, Nat.add_assoc]

end Counts

/-- Where no payload is executed there is no height. -/
theorem Deed.heights_eq_nil {ds : List Deed} (h : ds.filterMap Deed.payload? = []) :
    ds.filterMap Deed.height? = [] := by
  rw [List.filterMap_eq_nil_iff] at h ⊢
  intro deed hdeed
  cases deed with
  | vote => rfl
  | execute => cases h _ hdeed

/-- **A move counts what it executes**: the height of the state and the heights given out go up
together. -/
theorem Move.counts {ctx : Context} {trusted : Certificate → Prop} {heard : Statement → Prop}
    {s s' : ReplicaState} {ds : List Deed} (h : Move ctx trusted heard s ds s') :
    Counts s.height (ds.filterMap Deed.height?) s'.height := by
  rcases h.executes with ⟨hidle, -, hheight⟩ | ⟨view, height, payload, rfl, hnext, rfl, -⟩
  · rw [Deed.heights_eq_nil hidle, hheight]
    exact .nil _
  · exact .next hnext

namespace Replica

/-- **Following the leader counts what it executes**, which is nothing before the decision. -/
theorem Follows.counts {ctx : Context} {st : Statement} {s s' : ReplicaState} {ds : List Deed}
    (h : Follows ctx st s ds s') : Counts s.height (ds.filterMap Deed.height?) s'.height := by
  cases h with
  | preCommit => exact .nil _
  | lock => exact .nil _
  | decide _ _ hheight =>
      rw [ReplicaState.commit_height]
      exact .next hheight

/-! ### Calls to a replica -/

/-- What a replica can be asked. -/
inductive Call where
  /-- To announce its view. -/
  | announce
  | enter (view : View)
  | timeout
  | prepare (msg : SignedStatement)
  | phase (msg : SignedStatement)
  /-- To follow a statement of its own leader. -/
  | apply (st : Statement)
  deriving DecidableEq, Repr

variable {σ : Type} [StateStore σ] (ctx : Context) (r : Replica σ)

/-- The answer to a call. -/
def answer : Call → Outcome (Replica σ × List Action)
  | .announce => .ok (r, r.startRound ctx)
  | .enter view => .ok (r.enterView ctx view)
  | .timeout => .ok (r.onTimeout ctx)
  | .prepare msg => Outcome.ofCheck (r.onPrepare ctx msg)
  | .phase msg => r.onPhase ctx msg
  | .apply st => r.applyPhase ctx st

/-- **What comes of a call**: a refused one changes nothing, and nothing is done. -/
def perform (call : Call) : Except Overflow (Replica σ × List Action) :=
  match r.answer ctx call with
  | .ok answer => .ok answer
  | .error (.refused _) => .ok (r, [])
  | .error (.overflow o) => .error o

/-- What comes of calls, one after the other. -/
def performAll (ctx : Context) : Replica σ → List Call → Except Overflow (Replica σ × List Action)
  | r, [] => .ok (r, [])
  | r, call :: calls => do
    let (r', said) ← r.perform ctx call
    let (last, later) ← performAll ctx r' calls
    return (last, said ++ later)

variable {ctx r} {r' : Replica σ} {call : Call} {said : List Action}

/-- A call with an answer comes to that answer. -/
theorem perform_of_answer (h : r.answer ctx call = .ok (r', said)) :
    r.perform ctx call = .ok (r', said) := by
  rw [perform, h]

/-- **Every call leaves the replica stored**, if it was, and counts what it executes. -/
theorem answer_spec [LawfulStore σ] (h : r.answer ctx call = .ok (r', said)) :
    (r.Stored → r'.Stored) ∧ Counts r.state.height (heightsIn said) r'.state.height := by
  have hspec (hhandles : Handles ctx Evidence.none.voted (fun _ => True) r (r', said)) :
      (r.Stored → r'.Stored) ∧ Counts r.state.height (heightsIn said) r'.state.height :=
    ⟨hhandles.stored, hhandles.move.counts⟩
  cases call with
  | announce =>
      obtain ⟨rfl, rfl⟩ := Prod.mk.inj (Except.ok.inj h)
      exact hspec (startRound_handles r)
  | enter view =>
      refine hspec ?_
      rw [← Except.ok.inj h]
      exact enterView_handles r view
  | timeout =>
      refine hspec ?_
      rw [← Except.ok.inj h]
      exact onTimeout_handles r
  | prepare msg =>
      exact hspec (onPrepare_handles (Outcome.ofCheck_eq_ok.mp h) (fun _ _ _ => trivial)
        fun _ _ _ => trivial)
  | phase msg => exact hspec (onPhase_handles h fun _ _ _ => trivial)
  | apply st =>
      obtain ⟨-, hfollows, -⟩ := applyPhase_follows h
      exact ⟨fun _ => applyPhase_stored h, hfollows.counts⟩

/-- **Every call leaves the replica stored**, if it was, and counts what it executes, also if it is
refused. -/
theorem perform_spec [LawfulStore σ] (h : r.perform ctx call = .ok (r', said)) :
    (r.Stored → r'.Stored) ∧ Counts r.state.height (heightsIn said) r'.state.height := by
  rw [perform] at h
  split at h
  · next hanswer =>
      obtain rfl := Except.ok.inj h
      exact answer_spec hanswer
  · obtain ⟨rfl, rfl⟩ := Prod.mk.inj (Except.ok.inj h)
    exact ⟨id, .nil _⟩
  · cases h

variable (ctx r)

/-- **A mirrored replica.** The store holds its progress. A replica built on that store has the same
certificates and the same chain, and waits in the next view; after the last view there is none. -/
structure Mirrored : Prop where
  stored : StateStore.load r.store = .ok (some r.state.saved)
  resumed : ∀ view, View.next? r.state.view = some view →
    ∃ r', create ctx r.store = .ok r' ∧ r'.state = r.state.enter view
  ended : r.state.view = View.last →
    create ctx r.store = .error (.viewOutOfRange View.last View.last)

variable {r}

/-- What is stored can be taken up. -/
theorem Stored.mirrored (h : r.Stored) : r.Mirrored ctx := by
  refine ⟨h, fun view hnext => ?_, fun hlast => ?_⟩
  · have hresume : ReplicaState.resume r.state.saved = .ok (r.state.enter view) := by
      rw [ReplicaState.resume, show r.state.saved.view = r.state.view from rfl, hnext]
      rfl
    refine ⟨_, bind_eq_ok.mpr ⟨_, h, bind_eq_ok.mpr ⟨_, hresume, rfl⟩⟩, rfl⟩
  · have hresume : ReplicaState.resume r.state.saved =
        .error (.viewOutOfRange View.last View.last) := by
      rw [ReplicaState.resume, show r.state.saved.view = View.last from hlast]
      rfl
    have hload : StateStore.load r.store = .ok (some r.state.saved) := h
    rw [create, hload]
    simp only [bind, Except.bind, hresume]

end Replica

/-! ### Processes -/

/-- **What runs as a process** over a store, with its replica, and what can be asked of it. -/
structure Process (σ M C : Type) where
  create : σ → Except Error M
  replica : M → Replica σ
  ask : M → C → Except Overflow (M × List Action)

namespace Process

section Lifetimes

variable {σ M C : Type} (p : Process σ M C)

/-- **Processes one after the other**, with all that they did: each is asked one thing at a time,
and at any time another one is started on the store that it leaves. -/
inductive Lifetimes (first : M) : List Action → M → Prop
  | boot : Lifetimes first [] first
  | ask {said m call m' out} (h : Lifetimes first said m) (hask : p.ask m call = .ok (m', out)) :
      Lifetimes first (said ++ out) m'
  | restart {said m m'} (h : Lifetimes first said m)
      (hcreate : p.create (p.replica m).store = .ok m') : Lifetimes first said m'

/-- What comes of a script, in which nothing to ask stands for a restart. -/
def play : List Action → M → List (Option C) → Option (List Action × M)
  | said, m, [] => some (said, m)
  | said, m, some call :: script =>
    match p.ask m call with
    | .ok (m', out) => play (said ++ out) m' script
    | .error _ => none
  | said, m, none :: script =>
    match p.create (p.replica m).store with
    | .ok m' => play said m' script
    | .error _ => none

variable {p} {first m m' : M} {said said' : List Action} {script : List (Option C)}

/-- A script is played in lifetimes. -/
theorem Lifetimes.of_play (h : p.Lifetimes first said m)
    (hplay : p.play said m script = some (said', m')) : p.Lifetimes first said' m' := by
  induction script generalizing said m with
  | nil =>
      obtain ⟨rfl, rfl⟩ := Prod.mk.inj (Option.some.inj hplay)
      exact h
  | cons cue script ih =>
      cases cue with
      | some call =>
          rw [play] at hplay
          split at hplay
          · next hask => exact ih (h.ask hask) hplay
          · cases hplay
      | none =>
          rw [play] at hplay
          split at hplay
          · next hcreate => exact ih (h.restart hcreate) hplay
          · cases hplay

/-- What is computed of a script holds of lifetimes. -/
theorem exists_lifetimes {P : List Action → M → Prop} [∀ said m, Decidable (P said m)]
    (h : (p.play [] first script).map (fun played => decide (P played.1 played.2)) = some true) :
    ∃ said m, p.Lifetimes first said m ∧ P said m := by
  obtain ⟨⟨said, m⟩, hplay, hP⟩ := Option.map_eq_some_iff.mp h
  exact ⟨said, m, Lifetimes.boot.of_play hplay, of_decide_eq_true hP⟩

end Lifetimes

variable {σ : Type} [StateStore σ] (ctx : Context)

/-- A replica as a process. -/
def ofReplica : Process σ (Replica σ) Replica.Call where
  create := Replica.create ctx
  replica r := r
  ask r := r.perform ctx

/-- A core as a process. -/
def ofCore : Process σ (Core σ) (Instant × Input) where
  create := Core.create ctx
  replica := Core.replica
  ask core | (now, input) => core.react ctx now input

end Process

/-! ### What a core does to its replica -/

section Turns

variable {σ : Type} [StateStore σ] {ctx : Context}

/-- **A turn calls the replica once**, or leaves it alone, and does what comes of that. -/
theorem Turn.answer_of_kind {t : Turn σ} (hkind : t.Kind ctx) :
    t.after.replica = t.before.replica ∧ deedsIn t.said = [] ∨
      ∃ call said, t.before.replica.answer ctx call = .ok (t.after.replica, said) ∧
        deedsIn t.said = deedsIn said := by
  cases hkind with
  | announced _ hsaid hreplica => exact Or.inl ⟨hreplica, hsaid ▸ rfl⟩
  | timedOut _ hanswer => exact Or.inr ⟨.timeout, _, congrArg Except.ok hanswer, rfl⟩
  | refused hsaid hreplica => exact Or.inl ⟨hreplica, hsaid ▸ rfl⟩
  | @entered _ entry _ _ hanswer =>
      rcases hanswer with hanswer | ⟨hreplica, hsaid⟩
      · exact Or.inr ⟨.enter entry.view, _, congrArg Except.ok hanswer, rfl⟩
      · exact Or.inl ⟨hreplica, hsaid ▸ rfl⟩
  | @accepted signed _ _ hanswer =>
      exact Or.inr ⟨.prepare signed, _, Outcome.ofCheck_eq_ok.mpr hanswer, rfl⟩
  | @followed signed _ _ hanswer => exact Or.inr ⟨.phase signed, _, hanswer, rfl⟩
  | counted _ _ _ hsaid hreplica => exact Or.inl ⟨hreplica, hsaid ▸ rfl⟩
  | @certified _ next _ _ _ hown hsaid =>
      rcases hown with happly | ⟨hreplica, rfl⟩
      · exact Or.inr ⟨.apply next.body, _, happly, hsaid ▸ rfl⟩
      · exact Or.inl ⟨hreplica, hsaid ▸ rfl⟩
  | @offered _ _ prepare _ _ _ _ hown hsaid =>
      rcases hown with hprepare | ⟨hreplica, rfl⟩
      · exact Or.inr ⟨.prepare prepare, _, Outcome.ofCheck_eq_ok.mpr hprepare, hsaid ▸ rfl⟩
      · exact Or.inl ⟨hreplica, hsaid ▸ rfl⟩

/-- What a turn executes is what comes of the call. -/
theorem Turn.perform_of_kind {t : Turn σ} (hkind : t.Kind ctx) :
    t.after.replica = t.before.replica ∧ heightsIn t.said = [] ∨
      ∃ call said, t.before.replica.perform ctx call = .ok (t.after.replica, said) ∧
        heightsIn t.said = heightsIn said := by
  rcases Turn.answer_of_kind hkind with ⟨hreplica, hdeeds⟩ | ⟨call, said, hanswer, hdeeds⟩
  · exact Or.inl ⟨hreplica, congrArg (List.filterMap Deed.height?) hdeeds⟩
  · exact Or.inr ⟨call, said, Replica.perform_of_answer hanswer,
      congrArg (List.filterMap Deed.height?) hdeeds⟩

/-- A turn adds to the lifetimes of the replica. -/
theorem Turn.lifetimes_of_kind {first : Replica σ} {said : List Action} {t : Turn σ}
    (hkind : t.Kind ctx) (h : (Process.ofReplica ctx).Lifetimes first said t.before.replica) :
    ∃ own, (Process.ofReplica ctx).Lifetimes first (said ++ own) t.after.replica ∧
      heightsIn own = heightsIn t.said := by
  rcases Turn.perform_of_kind hkind with ⟨hreplica, hidle⟩ | ⟨call, own, hperform, hown⟩
  · refine ⟨[], ?_, hidle.symm⟩
    rwa [List.append_nil, hreplica]
  · exact ⟨own, h.ask hperform, hown.symm⟩

/-- All turns of an input together do. -/
theorem Core.lifetimes_of_turns {first : Replica σ} {said : List Action} {core : Core σ}
    (h : (Process.ofReplica ctx).Lifetimes first said core.replica) (now : Instant)
    (input : Input) :
    ∃ own, (Process.ofReplica ctx).Lifetimes first (said ++ own)
        (lastOf core (core.turns ctx now input)).replica ∧
      heightsIn own = heightsIn (saidOf (core.turns ctx now input)) := by
  let P (h : List (Turn σ)) (core : Core σ) : Prop :=
    ∃ own, (Process.ofReplica ctx).Lifetimes first (said ++ own) core.replica ∧
      heightsIn own = heightsIn (saidOf h)
  have hturn (h : List (Turn σ)) (core : Core σ) (input : Input) (now : Instant) (core' : Core σ)
      (out : List Action) (hP : P h core) (htake : core.take ctx now input = .ok (core', out)) :
      P (h ++ [⟨core, input, out, core'⟩]) core' := by
    obtain ⟨own, hlives, hheights⟩ := hP
    obtain ⟨own', hlives', hheights'⟩ := Turn.lifetimes_of_kind (Core.kind_of_take htake) hlives
    refine ⟨own ++ own', List.append_assoc said own own' ▸ hlives', ?_⟩
    rw [heightsIn_append, hheights, hheights', saidOf_append, saidOf_singleton, heightsIn_append]
  have hboot : P [] core := ⟨[], (List.append_nil said).symm ▸ h, rfl⟩
  exact keeps_of_turns hturn hboot now input

omit [StateStore σ] in
/-- Heights are read off the actions one by one. -/
theorem heightsIn_eq (as : List Action) :
    heightsIn as = as.filterMap fun a => a.deed?.bind Deed.height? :=
  List.filterMap_filterMap

/-- An answer leaves the replica that its turns do. -/
theorem Core.replica_of_react {core core' : Core σ} {now : Instant} {input : Input}
    {out : List Action} (h : core.react ctx now input = .ok (core', out)) :
    core'.replica = (lastOf core (core.turns ctx now input)).replica := by
  rcases (react_ok h).1 with rfl | ⟨status, metrics, rfl⟩
  · rfl
  · rfl

/-- An answer executes what its turns do. -/
theorem Core.heightsIn_of_react {core core' : Core σ} {now : Instant} {input : Input}
    {out : List Action} (h : core.react ctx now input = .ok (core', out)) :
    heightsIn out = heightsIn (saidOf (core.turns ctx now input)) := by
  obtain ⟨-, hdone, -⟩ := react_ok h
  rw [heightsIn_eq, heightsIn_eq]
  refine hdone fun receiver message => ?_
  cases message with
  | statement => rfl
  | vote => rfl

/-- **The lifetimes of a core are lifetimes of its replica**, with the same heights. -/
theorem Process.replica_of_core {first core : Core σ} {said : List Action}
    (h : (ofCore ctx).Lifetimes first said core) :
    ∃ said', (ofReplica ctx).Lifetimes first.replica said' core.replica ∧
      heightsIn said' = heightsIn said := by
  induction h with
  | boot => exact ⟨[], .boot, rfl⟩
  | @ask said core call core' out _ hreact ih =>
      obtain ⟨now, input⟩ := call
      obtain ⟨said', hlives, hheights⟩ := ih
      obtain ⟨own, hlast, hown⟩ := Core.lifetimes_of_turns hlives now input
      refine ⟨said' ++ own, Core.replica_of_react hreact ▸ hlast, ?_⟩
      rw [heightsIn_append, heightsIn_append, hheights, hown, Core.heightsIn_of_react hreact]
  | restart _ hcreate ih =>
      obtain ⟨said', hlives, hheights⟩ := ih
      exact ⟨said', hlives.restart (Core.create_ok hcreate).1, hheights⟩

end Turns

/-! ### Store and heights -/

section Mirror

variable {σ : Type} [StateStore σ] [LawfulStore σ] {ctx : Context}

/-- A replica that is stored stays so in all its lifetimes, and counts on from its height. -/
theorem Process.Lifetimes.keeps_stored {first r : Replica σ} {said : List Action}
    (hfirst : first.Stored) (h : (ofReplica ctx).Lifetimes first said r) :
    r.Stored ∧ Counts first.state.height (heightsIn said) r.state.height := by
  induction h with
  | boot => exact ⟨hfirst, .nil _⟩
  | ask _ hperform ih =>
      obtain ⟨hstored, hcounts⟩ := ih
      obtain ⟨hkept, hcounts'⟩ := Replica.perform_spec hperform
      rw [heightsIn_append]
      exact ⟨hkept hstored, hcounts.append hcounts'⟩
  | restart _ hrestart ih =>
      obtain ⟨hstored, hcounts⟩ := ih
      obtain ⟨hstored', view, -, hstate⟩ := Replica.create_of_stored hstored hrestart
      exact ⟨hstored', hstate ▸ hcounts⟩

/-- In all its lifetimes a replica is stored, and counts on from the height that it began with. -/
theorem Process.Lifetimes.stored {store : σ} {first r : Replica σ} {said : List Action}
    (hcreate : Replica.create ctx store = .ok first)
    (h : (ofReplica ctx).Lifetimes first said r) :
    r.Stored ∧ Counts first.state.height (heightsIn said) r.state.height :=
  h.keeps_stored (Replica.create_spec hcreate).1

/-- A core whose replica is stored leaves it stored. -/
theorem Core.stored_of_react {core core' : Core σ} {now : Instant} {input : Input}
    {out : List Action} (hstored : core.replica.Stored)
    (h : core.react ctx now input = .ok (core', out)) : core'.replica.Stored := by
  have hask : (Process.ofCore ctx).ask core (now, input) = .ok (core', out) := h
  have hlives : (Process.ofCore ctx).Lifetimes core ([] ++ out) core' := .ask .boot hask
  obtain ⟨said, hreplica, -⟩ := Process.replica_of_core hlives
  exact (hreplica.keeps_stored hstored).1

/-- **The store mirrors the replica, and a restart resumes it.** Whenever a replica is done with a
call, or a core with an input, the store holds its view, its certificates, its committed digest and
its height as they are. A replica built on that store takes them up in the next view, where there is
one. What is executed over all lifetimes together has consecutive heights, up to the current one. -/
theorem store_mirrors_replica {store : σ} :
    (∀ (first r : Replica σ) (said : List Action), Replica.create ctx store = .ok first →
      (Process.ofReplica ctx).Lifetimes first said r →
      r.Mirrored ctx ∧ Counts first.state.height (heightsIn said) r.state.height) ∧
    ∀ (first core : Core σ) (said : List Action), Core.create ctx store = .ok first →
      (Process.ofCore ctx).Lifetimes first said core →
      core.replica.Mirrored ctx ∧
        Counts first.replica.state.height (heightsIn said) core.replica.state.height := by
  have hreplica (first r : Replica σ) (said : List Action)
      (hcreate : Replica.create ctx store = .ok first)
      (h : (Process.ofReplica ctx).Lifetimes first said r) :
      r.Mirrored ctx ∧ Counts first.state.height (heightsIn said) r.state.height := by
    obtain ⟨hstored, hcounts⟩ := h.stored hcreate
    exact ⟨hstored.mirrored ctx, hcounts⟩
  refine ⟨hreplica, fun first core said hcreate h => ?_⟩
  obtain ⟨said', hlives, hheights⟩ := Process.replica_of_core h
  rw [← hheights]
  exact hreplica _ _ _ (Core.create_ok hcreate).1 hlives

end Mirror

namespace Resuming

/-- The second of four members. -/
def ctx : Context := .numbered .four 1 Committee.one_mem_four

/-- The payload on the genesis digest. -/
def first : Payload := ⟨Scheme.transparent.genesisDigest, [80]⟩

/-- The payload on the first one. -/
def second : Payload := ⟨Scheme.transparent.payloadDigest first, [81]⟩

/-- The decision of a view, from its leader. -/
def decision (leader : UInt8) (view : View) (payload : Payload) : Input :=
  .numbered leader view .decide payload (.numbered ⟨.commit, view, payload⟩ [0, 1, 2])

/-- The decision of view 0, a timeout in view 1, a restart that enters view 3, and the decision of
that view, which comes twice. -/
def script : List (Option (Instant × Input)) :=
  [some (0, decision 0 0 first), some (1, .timeout), none, some (2, decision 3 3 second),
    some (3, decision 3 3 second)]

end Resuming

open Resuming in
/-- A member executes a payload before a restart and another one after it: their heights are 1 and
2, and the next process will enter view 5. -/
theorem store_mirrors_replica_of_restart :
    ∃ said core, (Process.ofCore ctx).Lifetimes (Core.fresh ctx) said core ∧
      heightsIn said = [1, 2] ∧ Counts 0 [1, 2] core.replica.state.height ∧
      StateStore.load core.replica.store = .ok (some core.replica.state.saved) ∧
      ∃ r, Replica.create ctx core.replica.store = .ok r ∧ r.state.view = 5 := by
  obtain ⟨said, core, hlives, hheights, hview⟩ := Process.exists_lifetimes
    (p := Process.ofCore ctx) (P := fun said core =>
      heightsIn said = [1, 2] ∧ core.replica.state.view = 4)
    (show ((Process.ofCore ctx).play [] (Core.fresh ctx) script).map _ = some true by
      decide +kernel)
  obtain ⟨hmirrored, hcounts⟩ :=
    store_mirrors_replica.2 _ core said (Core.create_fresh ctx) hlives
  obtain ⟨r, hcreate, hstate⟩ := hmirrored.resumed 5 (by rw [hview]; rfl)
  exact ⟨said, core, hlives, hheights, hheights ▸ hcounts, hmirrored.stored, r, hcreate,
    hstate ▸ rfl⟩

end HotStuff
