import HotStuff.Node.Hosting
import HotStuff.Proofs.Keys
import HotStuff.Proofs.Limits
import Mathlib.Data.List.Forall2

/-!
# How a Validated Node Starts

The checks on the configuration of a node are made twice. Validation makes them before anything is
started, on all keys at once and over one committee; starting makes them again, for one engine after
the other, each over a context of its own. A check that only one of the two made would let a node
start half-way, or refuse one that could run.

They agree on all but the size of the inboxes. A configuration is valid exactly if it names a
network, hosts someone, gives inboxes room, and every key is that of another member and has a
context. What is left to fail on, once a configuration is valid, is the disk: the directory for
saved states, or a store that cannot be read or holds a state in the last view. Only counters at
their limit stop the engines after that.

Validation compares the size of the inboxes with zero, as there is no inbox without room. But there
is none with room for 2^61 messages either, and nothing is compared with that: such a configuration
is valid, and the start ends when the first member joins the network.

A quorum that outgrows the check of it is valid for neither of the two.

## Main definitions

* `NodeConfig.Runnable`: what the engines of a node need, with the secrets of the keys.
* `Unusable`: a store gives nothing to go on from.
* `Node.Starts`: how starting a valid node ends.

## Main results

* `NodeConfig.validate_eq_ok_iff`: a configuration is valid exactly if it is runnable.
* `Node.engine_eq_error_iff`: an engine of a valid node fails only on its store.
* `valid_node_starts_iff_inboxes_fit`: both, with the spellings of keys and the start as a whole,
  which fails on the configuration exactly if the inboxes are too large.
* `valid_node_without_inboxes`: a valid node that does not start, whatever is on the disk.
-/

namespace HotStuff

/-! ### Contexts -/

/-- **A context is made** for a secret of a member, of a committee that there is. -/
theorem Context.exists_make_iff {config : Config} {secret : Secret} :
    (∃ ctx, Context.make config secret = .ok ctx) ↔
      config.validate = .ok () ∧ ∃ c, Committee.make config.members config.quorum = .ok c ∧
        config.hash.scheme.publicKey secret ∈ c.members := by
  constructor
  · rintro ⟨ctx, hmake⟩
    obtain ⟨⟨⟩, hvalid, hmake⟩ := bind_eq_ok.mp hmake
    obtain ⟨c, hc, hmake⟩ := bind_eq_ok.mp hmake
    refine ⟨Outcome.ofCheck_eq_ok.mp hvalid, c, hc, ?_⟩
    simp only at hmake
    split at hmake
    · next hmem => exact hmem
    · cases hmake
  · rintro ⟨hvalid, c, hc, hmem⟩
    exact ⟨_, bind_eq_ok.mpr ⟨(), Outcome.ofCheck_eq_ok.mpr hvalid,
      bind_eq_ok.mpr ⟨c, hc, dif_pos hmem⟩⟩⟩

/-! ### Validation -/

namespace NodeConfig

/-- The texts are spellings of the secrets. -/
def Decodes (texts : List String) (secrets : List Secret) : Prop :=
  List.Forall₂ (fun text secret => Secret.ofText (utf8 text) = .ok secret) texts secrets

/-- **Runnable.** What the engines of a node need: a name for what they propose, someone to host,
room in the inboxes, and for every key a context as another member. -/
structure Runnable (config : NodeConfig) (secrets : List Secret) : Prop where
  named : config.network ≠ ""
  hosts : config.keys ≠ []
  room : config.mailboxSize ≠ 0
  decodes : Decodes config.keys secrets
  distinct : (secrets.map config.member).Nodup
  contexts : ∀ secret ∈ secrets, ∃ ctx, Context.make config.consensus secret = .ok ctx

variable {config : NodeConfig} {texts : List String} {secrets : List Secret}

/-- Secrets come from texts that are spellings of them, wherever the positions begin that are named
in faults. -/
theorem secretsFrom_eq_ok_iff {position : Nat} :
    secretsFrom position texts = .ok secrets ↔ Decodes texts secrets := by
  induction texts generalizing position secrets with
  | nil =>
      rw [secretsFrom, Decodes, List.forall₂_nil_left_iff]
      exact ⟨fun h => (Except.ok.inj h).symm, fun h => congrArg _ h.symm⟩
  | cons text texts ih =>
      rw [secretsFrom, Decodes, List.forall₂_cons_left_iff]
      split
      · next fault hfault =>
          refine iff_of_false (fun h => by cases h) ?_
          rintro ⟨secret, later, hsecret, -⟩
          cases hfault.symm.trans hsecret
      · next secret hsecret =>
          constructor
          · intro h
            obtain ⟨later, hlater, h⟩ := bind_eq_ok.mp h
            exact ⟨secret, later, hsecret, ih.mp hlater, (Except.ok.inj h).symm⟩
          · rintro ⟨secret', later, hsecret', hlater, rfl⟩
            obtain rfl := Except.ok.inj (hsecret.symm.trans hsecret')
            exact bind_eq_ok.mpr ⟨later, ih.mpr hlater, rfl⟩

/-- A configuration has the secrets that its keys are spellings of. -/
theorem secrets_eq_ok_iff : config.secrets = .ok secrets ↔ Decodes config.keys secrets :=
  secretsFrom_eq_ok_iff

/-- Hosted members pass if they are members, each of them new. -/
theorem checkHosted_eq_ok_iff {committee seen ms : List MemberId} :
    checkHosted committee seen ms = .ok () ↔
      (∀ m ∈ ms, m ∈ committee) ∧ ms.Nodup ∧ ∀ m ∈ ms, m ∉ seen := by
  induction ms generalizing seen with
  | nil => simp [checkHosted]
  | cons m ms ih =>
      rw [checkHosted, List.forall_mem_cons, List.nodup_cons, List.forall_mem_cons]
      split
      · next hout => exact iff_of_false (fun h => by cases h) fun h => hout h.1.1
      split
      · next hseen => exact iff_of_false (fun h => by cases h) fun h => h.2.2.1 hseen
      · next hin hseen =>
          rw [ih]
          constructor
          · rintro ⟨hmembers, hdistinct, hnew⟩
            have hfirst : m ∉ ms := fun hmem => hnew m hmem (List.mem_cons_self ..)
            exact ⟨⟨not_not.mp hin, hmembers⟩, ⟨hfirst, hdistinct⟩, hseen,
              fun x hx hxs => hnew x hx (List.mem_cons_of_mem _ hxs)⟩
          · rintro ⟨⟨-, hmembers⟩, ⟨hfirst, hdistinct⟩, -, hnew⟩
            refine ⟨hmembers, hdistinct, fun x hx hxs => ?_⟩
            rcases List.mem_cons.mp hxs with rfl | hxs
            · exact hfirst hx
            · exact hnew x hx hxs

/-- A failure of the consensus stays one when a node reports it. -/
theorem ofConsensus_eq_ok_iff {α : Type} {x : Outcome α} {a : α} :
    ofConsensus x = .ok a ↔ x = .ok a := by
  cases x with
  | error failure => simp [ofConsensus]
  | ok b => simp [ofConsensus]

/-- The hosted members are those with the secrets of the keys. -/
theorem members_eq_ok_iff {ms : List MemberId} :
    config.members = .ok ms ↔ ∃ secrets, config.secrets = .ok secrets ∧
      secrets.map config.member = ms := by
  simp only [members, bind_eq_ok, pure, Except.pure, Except.ok.injEq]

/-- **Valid is runnable.** -/
theorem validate_eq_ok_iff : config.validate = .ok () ↔ ∃ secrets, config.Runnable secrets := by
  rw [validate, guard_throw_eq_ok, guard_throw_eq_ok, guard_throw_eq_ok]
  constructor
  · rintro ⟨hname, hkeys, hroom, h⟩
    obtain ⟨⟨⟩, hvalid, h⟩ := bind_eq_ok.mp h
    obtain ⟨c, hc, h⟩ := bind_eq_ok.mp h
    obtain ⟨ms, hms, h⟩ := bind_eq_ok.mp h
    obtain ⟨secrets, hsecrets, rfl⟩ := members_eq_ok_iff.mp hms
    obtain ⟨hmembers, hdistinct, -⟩ := checkHosted_eq_ok_iff.mp h
    rw [ofConsensus_eq_ok_iff] at hvalid hc
    refine ⟨secrets, mt String.isEmpty_iff.mpr hname, mt List.isEmpty_iff.mpr hkeys, hroom,
      secrets_eq_ok_iff.mp hsecrets, hdistinct, fun secret hsecret => ?_⟩
    exact Context.exists_make_iff.mpr ⟨Outcome.ofCheck_eq_ok.mp hvalid, c, hc,
      hmembers _ (List.mem_map_of_mem hsecret)⟩
  · rintro ⟨secrets, hname, hkeys, hroom, hdecodes, hdistinct, hcontexts⟩
    -- The context of any key tells that the parameters are valid, and what the committee is.
    have hsome : secrets ≠ [] := by
      rintro rfl
      exact hkeys (List.forall₂_nil_right_iff.mp hdecodes)
    obtain ⟨first, hfirst⟩ := List.exists_mem_of_ne_nil secrets hsome
    obtain ⟨hvalid, c, hc, -⟩ := Context.exists_make_iff.mp (hcontexts first hfirst)
    have hmembers : ∀ m ∈ secrets.map config.member, m ∈ c.members := by
      intro m hm
      obtain ⟨secret, hsecret, rfl⟩ := List.mem_map.mp hm
      obtain ⟨-, c', hc', hmem⟩ := Context.exists_make_iff.mp (hcontexts secret hsecret)
      obtain rfl := Except.ok.inj (hc.symm.trans hc')
      exact hmem
    refine ⟨mt String.isEmpty_iff.mp hname, mt List.isEmpty_iff.mp hkeys, hroom, ?_⟩
    refine bind_eq_ok.mpr ⟨(), ofConsensus_eq_ok_iff.mpr (Outcome.ofCheck_eq_ok.mpr hvalid), ?_⟩
    refine bind_eq_ok.mpr ⟨c, ofConsensus_eq_ok_iff.mpr hc, ?_⟩
    refine bind_eq_ok.mpr
      ⟨_, members_eq_ok_iff.mpr ⟨secrets, secrets_eq_ok_iff.mpr hdecodes, rfl⟩, ?_⟩
    exact checkHosted_eq_ok_iff.mpr ⟨hmembers, hdistinct, fun _ _ => List.not_mem_nil⟩

/-- The secret of a key stands where the key stands. -/
theorem Decodes.getElem? (h : Decodes texts secrets) {i : Nat} {text : String}
    (htext : texts[i]? = some text) :
    ∃ secret, secrets[i]? = some secret ∧ Secret.ofText (utf8 text) = .ok secret := by
  induction h generalizing i with
  | nil => cases htext
  | cons hfirst hrest ih =>
      cases i with
      | zero =>
          obtain rfl := Option.some.inj htext
          exact ⟨_, rfl, hfirst⟩
      | succ i => exact ih htext

/-- **Two spellings of one secret** are not both keys of a runnable configuration. -/
theorem Runnable.eq_of_sameKey (h : config.Runnable secrets) {i j : Nat} {a b : String}
    (ha : config.keys[i]? = some a) (hb : config.keys[j]? = some b) (hsame : SameKey a b) :
    i = j := by
  obtain ⟨secret, hi, hsecret⟩ := h.decodes.getElem? ha
  obtain ⟨secret', hj, hsecret'⟩ := h.decodes.getElem? hb
  obtain rfl := Except.ok.inj ((hsame.ofText hsecret).symm.trans hsecret')
  have hbound : i < (secrets.map config.member).length := by
    rw [List.length_map]
    exact (List.getElem?_eq_some_iff.mp hi).1
  refine (List.getElem?_inj hbound h.distinct).mp ?_
  rw [List.getElem?_map, List.getElem?_map, hi, hj]

end NodeConfig

/-! ### Stores -/

section Stores

variable {σ : Type} [StateStore σ] {store : σ} {cause : Error}

/-- **An unusable store**: it cannot be read, or it holds a state in the last view. -/
inductive Unusable (store : σ) : Error → Prop
  | unreadable {cause : Error} (hload : StateStore.load store = .error cause) : Unusable store cause
  | exhausted {saved : SavedState} (hload : StateStore.load store = .ok (some saved))
      (hlast : saved.view = View.last) : Unusable store (.viewOutOfRange saved.view saved.view)

/-- **A replica is created** unless its store is unusable. -/
theorem Replica.create_eq_error_iff {ctx : Context} :
    Replica.create ctx store = .error cause ↔ Unusable store cause := by
  constructor
  · intro h
    rw [Replica.create] at h
    cases hload : StateStore.load store with
    | error other =>
        rw [hload] at h
        obtain rfl := Except.error.inj h
        exact .unreadable hload
    | ok held =>
        cases held with
        | none =>
            rw [hload] at h
            cases h
        | some saved =>
            cases hnext : View.next? saved.view with
            | none =>
                simp only [hload, ReplicaState.resume, hnext, bind, Except.bind] at h
                obtain rfl := Except.error.inj h
                exact .exhausted hload (View.next?_eq_none_iff.mp hnext)
            | some view =>
                simp only [hload, ReplicaState.resume, hnext, bind, Except.bind] at h
                cases h
  · intro h
    cases h with
    | unreadable hload => simp only [Replica.create, hload, bind, Except.bind]
    | exhausted hload hlast =>
        simp only [Replica.create, hload, ReplicaState.resume, View.next?_eq_none_iff.mpr hlast,
          bind, Except.bind]

/-- **A core is created** unless its store is unusable. -/
theorem Core.create_eq_error_iff {ctx : Context} :
    Core.create ctx store = .error cause ↔ Unusable store cause := by
  rw [← Replica.create_eq_error_iff, Core.create]
  cases Replica.create ctx store with
  | error other => simp [bind, Except.bind]
  | ok replica => exact iff_of_false (fun h => by cases h) (fun h => by cases h)

end Stores

namespace Node

open NodeConfig

variable {config : NodeConfig} {disk : Disk} {secret : Secret} {secrets : List Secret}
  {fault : NodeFault}

/-- **An engine with a context fails only on its store.** -/
theorem engine_eq_error_iff (hctx : ∃ ctx, Context.make config.consensus secret = .ok ctx) :
    engine config disk secret = .error fault ↔
      ∃ cause, Unusable (NodeStore.ofConfig config disk (config.member secret)) cause ∧
        fault = .noEngine (config.member secret) (.refused cause) := by
  obtain ⟨ctx, hctx⟩ := hctx
  rw [engine, Engine.create, hctx]
  cases hcore : Core.create ctx (NodeStore.ofConfig config disk (config.member secret)) with
  | error cause =>
      simp only [bind, Except.bind, Outcome.ofCheck, hcore]
      constructor
      · intro h
        exact ⟨cause, Core.create_eq_error_iff.mp hcore, (Except.error.inj h).symm⟩
      · rintro ⟨cause', hcause, rfl⟩
        obtain rfl := Except.error.inj (hcore.symm.trans (Core.create_eq_error_iff.mpr hcause))
        rfl
  | ok core =>
      simp only [bind, Except.bind, Outcome.ofCheck, hcore]
      refine iff_of_false (fun h => by cases h) ?_
      rintro ⟨cause, hcause, -⟩
      cases hcore.symm.trans (Core.create_eq_error_iff.mpr hcause)

end Node

/-! ### Starting -/

section Launching

variable {σ : Type} [StateStore σ]

/-- An engine that was created has not run yet. -/
theorem Engine.create_ready {config : Config} {secret : Secret} {store : σ}
    {payloads : View → Bytes} {now : Instant} {e : Engine σ}
    (h : Engine.create config secret store payloads now = .ok e) : e.stage = .ready := by
  obtain ⟨ctx, -, h⟩ := bind_eq_ok.mp h
  obtain ⟨core, -, h⟩ := bind_eq_ok.mp h
  obtain rfl := Except.ok.inj h
  rfl

/-- An engine that has not run yet can be run. -/
theorem Engine.run_ne_refused {e : Engine σ} (hready : e.stage = .ready) (now : Instant)
    (cause : Error) : e.run now ≠ .error (.refused cause) := by
  rw [Engine.run, hready]
  cases e.core.start e.ctx now with
  | error o => exact fun h => by cases h
  | ok answer => exact fun h => by cases h

namespace Devnet

/-- Starts the engine at a position. -/
def startAt (d : Devnet σ) (i : Nat) : Outcome (Devnet σ) := do
  match d.engines[i]? with
  | some e => return d.put i (← e.run d.now)
  | none => return d

/-- Starting an engine that has not run yet is not refused. There may be none at the position. -/
theorem startAt_ne_refused {d : Devnet σ} {i : Nat}
    (hready : ∀ e, d.engines[i]? = some e → e.stage = .ready) (cause : Error) :
    d.startAt i ≠ .error (.refused cause) := by
  rw [startAt]
  cases hat : d.engines[i]? with
  | none => exact fun h => by cases h
  | some e =>
      intro h
      cases hrun : e.run d.now with
      | error failure =>
          simp only [hrun, bind, Except.bind] at h
          obtain rfl := Except.error.inj h
          exact Engine.run_ne_refused (hready e hat) _ _ hrun
      | ok e' =>
          simp only [hrun, bind, Except.bind] at h
          cases h

omit [StateStore σ] in
/-- An engine that is put back takes the place of what stood there. -/
theorem put_engines (d : Devnet σ) (i : Nat) (e : Engine σ) :
    ∃ e', (d.put i e).engines = d.engines.set i e' :=
  ⟨_, rfl⟩

/-- The engines at other positions stay as they are. -/
theorem startAt_getElem? {d d' : Devnet σ} {i j : Nat} (h : d.startAt i = .ok d') (hne : i ≠ j) :
    d'.engines[j]? = d.engines[j]? := by
  rw [startAt] at h
  split at h
  · next e hat =>
      obtain ⟨e', -, h⟩ := bind_eq_ok.mp h
      obtain rfl := Except.ok.inj h
      obtain ⟨_, hengines⟩ := d.put_engines i e'
      rw [hengines, List.getElem?_set_ne hne]
  · obtain rfl := Except.ok.inj h
    rfl

/-- Engines are started one after the other, each of them once. -/
theorem foldlM_startAt_ne_refused {is : List Nat} (hdistinct : is.Nodup) {d : Devnet σ}
    (hready : ∀ i ∈ is, ∀ e, d.engines[i]? = some e → e.stage = .ready) (cause : Error) :
    is.foldlM startAt d ≠ .error (.refused cause) := by
  induction is generalizing d with
  | nil => exact fun h => by cases h
  | cons i is ih =>
      obtain ⟨hfirst, hrest⟩ := List.forall_mem_cons.mp hready
      obtain ⟨hnew, hdistinct⟩ := List.nodup_cons.mp hdistinct
      rw [List.foldlM_cons]
      cases hstart : d.startAt i with
      | error failure =>
          intro h
          obtain rfl := Except.error.inj h
          exact startAt_ne_refused hfirst cause hstart
      | ok d' =>
          refine ih hdistinct fun j hj e hat => hrest j hj e ?_
          rwa [startAt_getElem? hstart (fun hij => hnew (hij ▸ hj))] at hat

/-- Launching starts all engines in their order, and then hands out what they have said. -/
theorem launch_eq (d : Devnet σ) :
    d.launch = (List.range d.engines.length).foldlM startAt d >>= fun started =>
      Outcome.ofChecked (pump maxRounds started) := rfl

/-- **New engines are launched** unless a counter overflows. -/
theorem launch_ne_refused {d : Devnet σ} (hready : ∀ e ∈ d.engines, e.stage = .ready)
    (cause : Error) : d.launch ≠ .error (.refused cause) := by
  have hstarts : (List.range d.engines.length).foldlM startAt d ≠ .error (.refused cause) :=
    foldlM_startAt_ne_refused List.nodup_range
      (fun i _ e hat => hready e (List.mem_of_getElem? hat)) cause
  rw [launch_eq]
  cases hfold : (List.range d.engines.length).foldlM startAt d with
  | error failure =>
      intro h
      obtain rfl := Except.error.inj h
      exact hstarts hfold
  | ok started =>
      show Outcome.ofChecked (pump maxRounds started) ≠ _
      cases pump maxRounds started with
      | error o => exact fun h => by cases h
      | ok d' => exact fun h => by cases h

end Devnet

end Launching

namespace Node

/-- The inbox of each hosted member when it has joined. -/
def inbox (config : NodeConfig) : Inbox := ⟨config.mailboxSize.toNat, [], true⟩

/-- A network after the members with some secrets have joined it. -/
def joined (config : NodeConfig) (n : Network) (secrets : List Secret) : Network :=
  secrets.foldl
    (fun n secret => { n with inboxes := n.inboxes.insert (config.member secret) (inbox config) }) n

/-- The engines of a node on their network, before any of them runs. -/
def hosted (config : NodeConfig) (secrets : List Secret) (engines : List (Engine NodeStore)) :
    Devnet NodeStore :=
  { engines, network := joined config .empty secrets }

/-- There is an engine for every secret. -/
def Built (config : NodeConfig) (disk : Disk) (secrets : List Secret)
    (engines : List (Engine NodeStore)) : Prop :=
  List.Forall₂ (fun secret e => engine config disk secret = .ok e) secrets engines

/-- **How starting a valid node ends.** The directory cannot be made; or the inboxes are too large;
or the store of a member is unusable; or there is an engine for every key, and they run on one
network until they are asked to stop or a counter overflows. -/
inductive Starts (config : NodeConfig) (disk : Disk) (secrets : List Secret) :
    Except NodeFault Node → Prop
  | noDirectory {directory : Path} (hdir : config.dataDir = some directory)
      (hmake : (disk.createDirectories directory).isOk = false) :
      Starts config disk secrets (.error (.noDirectory directory))
  | noInbox {made : Disk} (hmade : prepare config disk = .ok made)
      (hlarge : Inbox.maxCapacity < config.mailboxSize.toNat) :
      Starts config disk secrets (.error (.noInbox .tooLarge))
  | unusable {made : Disk} {secret : Secret} {cause : Error}
      (hmade : prepare config disk = .ok made)
      (hfits : config.mailboxSize.toNat ≤ Inbox.maxCapacity) (hhosted : secret ∈ secrets)
      (hstore : Unusable (NodeStore.ofConfig config made (config.member secret)) cause) :
      Starts config disk secrets (.error (.noEngine (config.member secret) (.refused cause)))
  | running {made : Disk} {engines : List (Engine NodeStore)} {net : Devnet NodeStore}
      (hmade : prepare config disk = .ok made)
      (hfits : config.mailboxSize.toNat ≤ Inbox.maxCapacity)
      (hengines : Built config made secrets engines)
      (hlaunch : (hosted config secrets engines).launch = .ok net) :
      Starts config disk secrets (.ok ⟨net, made⟩)
  | overflow {made : Disk} {engines : List (Engine NodeStore)} {o : Overflow}
      (hmade : prepare config disk = .ok made)
      (hfits : config.mailboxSize.toNat ≤ Inbox.maxCapacity)
      (hengines : Built config made secrets engines)
      (hlaunch : (hosted config secrets engines).launch = .error (.overflow o)) :
      Starts config disk secrets (.error (.consensus (.overflow o)))

variable {config : NodeConfig} {secrets : List Secret}

/-- The engine of a hosted member has not run yet. -/
theorem engine_ready {disk : Disk} {secret : Secret} {e : Engine NodeStore}
    (h : engine config disk secret = .ok e) : e.stage = .ready := by
  rw [engine] at h
  split at h
  · next e' hcreate =>
      obtain rfl := Except.ok.inj h
      exact Engine.create_ready hcreate
  · cases h

/-- Either all engines are created, one for every secret, or the first that is not decides the
fault. -/
theorem mapM_engine_cases (config : NodeConfig) (disk : Disk) (secrets : List Secret) :
    (∃ engines, secrets.mapM (engine config disk) = .ok engines ∧
      Built config disk secrets engines) ∨
    ∃ secret ∈ secrets, ∃ fault, engine config disk secret = .error fault ∧
      secrets.mapM (engine config disk) = .error fault := by
  induction secrets with
  | nil => exact Or.inl ⟨[], rfl, .nil⟩
  | cons secret secrets ih =>
      rw [List.mapM_cons]
      cases hfirst : engine config disk secret with
      | error fault => exact Or.inr ⟨secret, List.mem_cons_self .., fault, hfirst, rfl⟩
      | ok e =>
          rcases ih with ⟨engines, hmap, hengines⟩ | ⟨other, hother, fault, hfault, hmap⟩
          · rw [hmap]
            exact Or.inl ⟨e :: engines, rfl, .cons hfirst hengines⟩
          · rw [hmap]
            exact Or.inr ⟨other, List.mem_cons_of_mem _ hother, fault, hfault, rfl⟩

/-- Each engine was built for one of the secrets. -/
theorem Built.engine_of_mem {disk : Disk} {engines : List (Engine NodeStore)}
    (h : Built config disk secrets engines) {e : Engine NodeStore} (he : e ∈ engines) :
    ∃ secret ∈ secrets, engine config disk secret = .ok e := by
  induction h with
  | nil => cases he
  | cons hfirst hrest ih =>
      rcases List.mem_cons.mp he with rfl | he
      · exact ⟨_, List.mem_cons_self .., hfirst⟩
      · obtain ⟨secret, hsecret, hbuilt⟩ := ih he
        exact ⟨secret, List.mem_cons_of_mem _ hsecret, hbuilt⟩

/-- The engines that were built can be launched. -/
theorem Built.launch_ne_refused {disk : Disk} {engines : List (Engine NodeStore)}
    (h : Built config disk secrets engines) (cause : Error) :
    (hosted config secrets engines).launch ≠ .error (.refused cause) := by
  refine Devnet.launch_ne_refused (fun e he => ?_) cause
  obtain ⟨secret, -, hbuilt⟩ := h.engine_of_mem he
  exact engine_ready hbuilt

/-- **Hosting** comes to nothing where there are no inboxes of the size, as soon as there is a
member to host. -/
theorem hostAll_of_noInbox {disk : Disk} {fault : InboxFault} (hsome : secrets ≠ [])
    (hmake : Inbox.make config.mailboxSize.toNat = .error fault) (n : Network) :
    hostAll config disk secrets n = .error (.noInbox fault) := by
  obtain ⟨secret, rest, rfl⟩ := List.exists_cons_of_ne_nil hsome
  have hjoin : n.join (config.member secret) config.mailboxSize.toNat = .error fault := by
    rw [Network.join, hmake]
    rfl
  rw [hostAll, host, hjoin]
  rfl

/-- **Hosting** creates the engines one after the other where there are inboxes of the size. By
induction on the secrets, on whatever network has come about before. -/
theorem hostAll_of_inbox {disk : Disk}
    (hmake : Inbox.make config.mailboxSize.toNat = .ok (inbox config)) (n : Network) :
    hostAll config disk secrets n =
      (secrets.mapM (engine config disk)).map fun engines =>
        (joined config n secrets, engines) := by
  induction secrets generalizing n with
  | nil => rfl
  | cons secret rest ih =>
      have hjoin : n.join (config.member secret) config.mailboxSize.toNat =
          .ok (joined config n [secret]) := by
        rw [Network.join, hmake]
        rfl
      rw [hostAll, host, hjoin, List.mapM_cons]
      cases engine config disk secret with
      | error fault => rfl
      | ok e =>
          simp only [bind, Except.bind, pure, Except.pure, ih]
          cases rest.mapM (engine config disk) with
          | error fault => rfl
          | ok engines => rfl

/-- With its engines made, a node starts as their network is launched. -/
theorem start_of_built {disk made : Disk} {engines : List (Engine NodeStore)}
    (hprepare : prepare config disk = .ok made) (hsecrets : config.secrets = .ok secrets)
    (hmake : Inbox.make config.mailboxSize.toNat = .ok (inbox config))
    (hmap : secrets.mapM (engine config made) = .ok engines) (hsome : engines ≠ []) :
    start config disk =
      (NodeConfig.ofConsensus (hosted config secrets engines).launch).map
        fun net => ⟨net, made⟩ := by
  have hnone : engines.isEmpty = false := List.isEmpty_eq_false_iff.mpr hsome
  rw [start, hprepare, hsecrets]
  simp only [bind, Except.bind, hostAll_of_inbox hmake, hmap, Except.map, hnone,
    Bool.false_eq_true, if_false]
  rw [hosted]
  split
  · rfl
  · rfl

/-- **A runnable node starts**, as far as its inboxes, the disk and the counters let it. -/
theorem starts_of_runnable (h : config.Runnable secrets) (disk : Disk) :
    Starts config disk secrets (start config disk) := by
  have hsecrets : config.secrets = .ok secrets := NodeConfig.secrets_eq_ok_iff.mpr h.decodes
  cases hprepare : prepare config disk with
  | error fault =>
      rw [start, hprepare]
      rw [prepare] at hprepare
      split at hprepare
      · cases hprepare
      · next directory hdir =>
          split at hprepare
          · cases hprepare
          · next hmake =>
              obtain rfl := Except.error.inj hprepare
              exact .noDirectory hdir (by rw [hmake]; rfl)
  | ok made =>
      have hsome : secrets ≠ [] := by
        rintro rfl
        exact h.hosts (List.forall₂_nil_right_iff.mp h.decodes)
      have hroom : config.mailboxSize.toNat ≠ 0 := fun hzero =>
        h.room (UInt64.toNat_inj.mp hzero)
      by_cases hlarge : Inbox.maxCapacity < config.mailboxSize.toNat
      · have hmake : Inbox.make config.mailboxSize.toNat = .error .tooLarge := by
          rw [Inbox.make, if_neg hroom, if_pos hlarge]
        rw [start, hprepare, hsecrets]
        simp only [bind, Except.bind, hostAll_of_noInbox hsome hmake]
        exact .noInbox hprepare hlarge
      have hfits := Nat.not_lt.mp hlarge
      have hmake : Inbox.make config.mailboxSize.toNat = .ok (inbox config) :=
        Inbox.make_eq_ok_iff.mpr ⟨Nat.pos_of_ne_zero hroom, hfits, rfl⟩
      rcases mapM_engine_cases config made secrets with
        ⟨engines, hmap, hbuilt⟩ | ⟨secret, hsecret, fault, hfault, hmap⟩
      · have hbuiltSome : engines ≠ [] := by
          rintro rfl
          exact hsome (List.forall₂_nil_right_iff.mp hbuilt)
        rw [start_of_built hprepare hsecrets hmake hmap hbuiltSome]
        cases hlaunch : (hosted config secrets engines).launch with
        | ok net => exact .running hprepare hfits hbuilt hlaunch
        | error failure =>
            cases failure with
            | refused cause => exact absurd hlaunch (hbuilt.launch_ne_refused cause)
            | overflow o => exact .overflow hprepare hfits hbuilt hlaunch
      · obtain ⟨cause, hcause, rfl⟩ :=
          (engine_eq_error_iff (h.contexts secret hsecret)).mp hfault
        rw [start, hprepare, hsecrets]
        simp only [hostAll_of_inbox hmake, hmap, Except.map, bind, Except.bind]
        exact .unusable hprepare hfits hsecret hcause

/-- **A valid node has no inbox** exactly if its inboxes are too large, once the directory for saved
states is there. -/
theorem Starts.noInbox_iff {disk : Disk} {result : Except NodeFault Node}
    (h : Starts config disk secrets result) :
    (∃ fault, result = .error (.noInbox fault)) ↔
      (prepare config disk).isOk = true ∧ Inbox.maxCapacity < config.mailboxSize.toNat := by
  cases h with
  | noDirectory hdir hmake =>
      refine iff_of_false (by rintro ⟨_, ⟨⟩⟩) fun hmade => ?_
      simp only [prepare, hdir] at hmade
      split at hmade
      · next hdisk =>
          rw [hdisk] at hmake
          cases hmake
      · cases hmade.1
  | noInbox hmade hlarge => exact iff_of_true ⟨_, rfl⟩ ⟨by rw [hmade]; rfl, hlarge⟩
  | unusable _ hfits | running _ hfits | overflow _ hfits =>
      exact iff_of_false (by rintro ⟨_, ⟨⟩⟩) fun hmade => Nat.not_lt.mpr hfits hmade.2

end Node

/-- **A valid node starts exactly if its inboxes fit.** A configuration is valid exactly if it is
runnable. In a valid one no two keys are spellings of one secret, the keys are those of some
secrets, and no engine for one of these fails but on its store, whatever is on the disk. The start
ends in one of a few ways. The one for which the configuration is to blame is that no inbox can be
made, and it comes exactly with inboxes that are too large. -/
theorem valid_node_starts_iff_inboxes_fit (config : NodeConfig) :
    (config.validate = .ok () ↔ ∃ secrets, config.Runnable secrets) ∧
    (∀ (i j : Nat) (a b : String), i ≠ j → config.keys[i]? = some a →
      config.keys[j]? = some b → SameKey a b → config.validate ≠ .ok ()) ∧
    (config.validate = .ok () → ∃ secrets, config.secrets = .ok secrets ∧ ∀ disk,
      (∀ secret ∈ secrets, ∀ fault, Node.engine config disk secret = .error fault ↔
        ∃ cause, Unusable (NodeStore.ofConfig config disk (config.member secret)) cause ∧
          fault = .noEngine (config.member secret) (.refused cause)) ∧
      Node.Starts config disk secrets (Node.start config disk) ∧
      ((∃ fault, Node.start config disk = .error (.noInbox fault)) ↔
        (Node.prepare config disk).isOk = true ∧
          Inbox.maxCapacity < config.mailboxSize.toNat)) := by
  refine ⟨NodeConfig.validate_eq_ok_iff, ?_, ?_⟩
  · intro i j a b hne ha hb hsame hvalid
    obtain ⟨secrets, hrunnable⟩ := NodeConfig.validate_eq_ok_iff.mp hvalid
    exact hne (hrunnable.eq_of_sameKey ha hb hsame)
  · intro hvalid
    obtain ⟨secrets, hrunnable⟩ := NodeConfig.validate_eq_ok_iff.mp hvalid
    refine ⟨secrets, NodeConfig.secrets_eq_ok_iff.mpr hrunnable.decodes, fun disk =>
      ⟨fun secret hsecret fault =>
        Node.engine_eq_error_iff (hrunnable.contexts secret hsecret), ?_⟩⟩
    have hstarts := Node.starts_of_runnable hrunnable disk
    exact ⟨hstarts, hstarts.noInbox_iff⟩

namespace RespelledKey

/-- The first secret of a network for development, as it is written. -/
def plain : String := "af5570f5a1810b7af78caf4bc70a660f0df51e42baf91d4de5b2328de0e83dfc"

/-- The same, written with a narrow blank before it, a line end after it and some capitals. -/
def respelled : String := "\u202fAF5570F5a1810b7af78caf4bc70a660f0df51e42baf91d4de5b2328de0e83dfc\n"

/-- A node that hosts a committee of one. -/
def config : NodeConfig := { NodeConfig.devnet 1 with keys := [respelled] }

/-- The same with its key listed twice. -/
def twice : NodeConfig := { config with keys := [plain, respelled] }

end RespelledKey

open RespelledKey in
/-- A respelled key makes a valid configuration, and the engine for it is made on any disk, as the
state is kept in memory. The inboxes fit, so it is not for want of one if the node does not start.
Beside its plain spelling the key is refused. -/
theorem valid_node_starts_of_respelled_key :
    config.validate = .ok () ∧
    (∃ secret, config.Runnable [secret] ∧
      ∀ disk, (∃ e, Node.engine config disk secret = .ok e) ∧
        ∀ fault, Node.start config disk ≠ .error (.noInbox fault)) ∧
    twice.validate ≠ .ok () := by
  obtain ⟨hvalid_iff, -, hstarts⟩ := valid_node_starts_iff_inboxes_fit config
  have hvalid : config.validate = .ok () := Replica.eq_ok_of_isOk (by decide +kernel)
  have htwice : twice.validate ≠ .ok () :=
    (valid_node_starts_iff_inboxes_fit twice).2.1 0 1 plain respelled (by decide) rfl rfl
      (by decide)
  obtain ⟨secrets, hrunnable⟩ := hvalid_iff.mp hvalid
  obtain ⟨secrets', hsecrets, hstarts⟩ := hstarts hvalid
  obtain rfl := Except.ok.inj
    ((NodeConfig.secrets_eq_ok_iff.mpr hrunnable.decodes).symm.trans hsecrets)
  obtain ⟨secret, later, -, hlater, rfl⟩ := List.forall₂_cons_left_iff.mp hrunnable.decodes
  obtain rfl := List.forall₂_nil_left_iff.mp hlater
  refine ⟨hvalid, ⟨secret, hrunnable, fun disk => ?_⟩, htwice⟩
  obtain ⟨hfails, -, hinbox⟩ := hstarts disk
  refine ⟨?_, fun fault hnone => absurd (hinbox.mp ⟨fault, hnone⟩).2 (by decide)⟩
  cases hengine : Node.engine config disk secret with
  | ok e => exact ⟨e, rfl⟩
  | error fault =>
      obtain ⟨cause, hstore, -⟩ := (hfails secret (List.mem_singleton_self _) fault).mp hengine
      cases hstore with
      | unreadable hload => cases hload
      | exhausted hload => cases hload

/-- A node for development with inboxes for one message more than there are permits. -/
def NodeConfig.oversized : NodeConfig :=
  { NodeConfig.devnet 1 with mailboxSize := .ofNat (Inbox.maxCapacity + 1) }

/-- **A valid node that does not start.** The check of the inboxes looks for those without room
only. When the first member joins, the start ends, whatever is on the disk. -/
theorem valid_node_without_inboxes :
    NodeConfig.oversized.consensus.quorum = none ∧ NodeConfig.oversized.validate = .ok () ∧
      ∀ disk, Node.start NodeConfig.oversized disk = .error (.noInbox .tooLarge) := by
  have hvalid : NodeConfig.oversized.validate = .ok () :=
    Replica.eq_ok_of_isOk (by decide +kernel)
  refine ⟨rfl, hvalid, fun disk => ?_⟩
  obtain ⟨secrets, hrunnable⟩ := NodeConfig.validate_eq_ok_iff.mp hvalid
  have hstarts := Node.starts_of_runnable hrunnable disk
  have hlarge : Inbox.maxCapacity < NodeConfig.oversized.mailboxSize.toNat := by decide +kernel
  obtain ⟨fault, hnone⟩ := hstarts.noInbox_iff.mpr ⟨rfl, hlarge⟩
  rw [hnone] at hstarts ⊢
  cases hstarts
  rfl

end HotStuff
