import HotStuff.Proofs.Encoding
import HotStuff.Proofs.Rehearsal

/-!
# Seals Over Bytes

A seal is over the digest of some bytes, and says nothing of what these bytes are meant to be. In a
world that `Unfolds` it is only this much that cannot be forged: where a seal of a correct member is
valid over some bytes, the member has signed these bytes. As long as the digest separates
all that is sealed, the member has then sealed the very ballot or statement, since encodings
can be read back. So these worlds are those that can come about on inputs that are backed.

A certificate that is assembled from such seals is therefore voted for by its signers, and two of
them for one view are for one payload.

## Main definitions

* `sealedOf`: what a member has sealed.
* `World.Unforged`, `Deployment.Unfolds`: what can be assumed of a seal, and the worlds on that
  assumption alone.
* `Scheme.Separates`: the digest has no collision where it matters.

## Main results

* `Deployment.Unfolds.reaches`: a world on unforged seals can come about on backed inputs.
* `certificates_of_view_agree`: two valid certificates for one view are for one payload.
-/

namespace HotStuff

/-- What a member has put its seal on in a history: the ballots voted for, and the statements. -/
def sealedOf {σ : Type} (h : List (Turn σ)) : List Sealable :=
  (ballotsOf h).map .ballot ++ (statementsOf h).map .statement

/-- The ballots under the seal of a member are those that it voted for. -/
@[simp] theorem ballot_mem_sealedOf {σ : Type} {h : List (Turn σ)} {b : Ballot} :
    .ballot b ∈ sealedOf h ↔ b ∈ ballotsOf h := by
  simp [sealedOf]

/-- The statements under the seal of a member are those that it made. -/
@[simp] theorem statement_mem_sealedOf {σ : Type} {h : List (Turn σ)} {st : Statement} :
    .statement st ∈ sealedOf h ↔ st ∈ statementsOf h := by
  simp [sealedOf]

/-- What is under a seal in a certificate, with the seal. -/
def Certificate.sealed (cert : Certificate) : List (Sealable × Seal) :=
  cert.seals.map fun s => (.ballot cert.ballot, s)

/-- What is under a seal in an input, with the seal. -/
def Input.sealed (input : Input) : List (Sealable × Seal) :=
  (input.statement?.toList.map fun signed => (.statement signed.body, signed.stamp)) ++
    input.certificate?.toList.flatMap Certificate.sealed ++
    input.vote?.toList.map fun vote => (.ballot vote.ballot, vote.stamp)

namespace Scheme

/-- **A digest that separates** what is sealed: lengths can be written down, and no two encodings
have the same digest. -/
structure Separates (scheme : Scheme) (on : Sealable → Prop) : Prop where
  fits : ∀ x, on x → x.Fits
  injective : ∀ x y, on x → on y → scheme.hash x.encode = scheme.hash y.encode →
    x.encode = y.encode

/-- A digest that separates what is sealed separates any part of it. -/
theorem Separates.mono {scheme : Scheme} {on on' : Sealable → Prop} (h : scheme.Separates on')
    (hmono : ∀ x, on x → on' x) : scheme.Separates on :=
  ⟨fun x hx => h.fits x (hmono x hx), fun x y hx hy => h.injective x y (hmono x hx) (hmono y hy)⟩

/-- What is sealed is determined by the bytes that are signed. -/
theorem Separates.eq_of_signedBytes {scheme : Scheme} {on : Sealable → Prop}
    (h : scheme.Separates on) {x y : Sealable} (hx : on x) (hy : on y)
    (hsigned : scheme.signedBytes x.encode = scheme.signedBytes y.encode) : x = y := by
  have hhash : scheme.hash x.encode = scheme.hash y.encode := by
    cases hx' : scheme.hash x.encode
    cases hy' : scheme.hash y.encode
    rw [signedBytes, signedBytes, hx', hy'] at hsigned
    exact congrArg Digest.mk hsigned
  exact Sealable.encode_injective (h.fits x hx) (h.fits y hy) (h.injective x y hx hy hhash)

end Scheme

namespace World

variable {d : Deployment} {σ : Type} (w : World d σ)

/-- **A seal that is not forged**: if it is a valid one of a correct member, the member has signed
the same bytes. -/
def Unforged (x : Sealable) (s : Seal) : Prop :=
  ∀ m : d.Correct, s.signer = m.1 → d.scheme.sealedOver x.encode s →
    ∃ y ∈ sealedOf (w.history m), d.scheme.signedBytes y.encode = d.scheme.signedBytes x.encode

/-- What is under a seal in a world: what a correct member has sealed, or was handed. -/
def Occurs (x : Sealable) : Prop :=
  ∃ m, x ∈ sealedOf (w.history m) ∨ ∃ t ∈ w.history m, ∃ s, (x, s) ∈ t.input.sealed

/-- A certificate that can be assembled in a world: none of its seals is forged. -/
def Assembles (cert : Certificate) : Prop := ∀ s ∈ cert.seals, w.Unforged (.ballot cert.ballot) s

variable {w} {on : Sealable → Prop} {x : Sealable} {s : Seal}

/-- What occurs in a world occurs in all that come after it. -/
theorem occurs_after (m : d.Correct) (ts : List (Turn σ)) (core : Core σ) (hoccurs : w.Occurs x) :
    (w.after m ts core).Occurs x := by
  obtain ⟨n, hn⟩ := hoccurs
  obtain ⟨ts', heq⟩ := history_after (w := w) m ts core n
  refine ⟨n, ?_⟩
  rw [heq]
  rcases hn with hsealed | ⟨t, ht, s, hs⟩
  · left
    rw [sealedOf, ballotsOf_append, statementsOf_append]
    rw [sealedOf] at hsealed
    simp only [List.map_append, List.mem_append] at hsealed ⊢
    tauto
  · exact Or.inr ⟨t, List.mem_append_left _ ht, s, hs⟩

/-- What is under a valid seal of a correct member, not forged, the member has sealed. -/
theorem Unforged.mem (hunforged : w.Unforged x s) (hseparates : d.scheme.Separates on)
    (hsealed : ∀ y, w.Occurs y → on y) (hx : on x) {m : d.Correct} (hsigner : s.signer = m.1)
    (hvalid : d.scheme.sealedOver x.encode s) : x ∈ sealedOf (w.history m) := by
  obtain ⟨y, hy, hsigned⟩ := hunforged m hsigner hvalid
  have hon : on y := hsealed y ⟨m, Or.inl hy⟩
  exact hseparates.eq_of_signedBytes hon hx hsigned ▸ hy

/-- An input without forged seals is backed. -/
theorem backs_of_unforged {input : Input}
    (hunforged : ∀ p ∈ input.sealed, w.Unforged p.1 p.2) (hseparates : d.scheme.Separates on)
    (hsealed : ∀ y, w.Occurs y → on y) (hinput : ∀ p ∈ input.sealed, on p.1) :
    w.evidence.Backs d.scheme input := by
  have hmem : ∀ p ∈ input.sealed, ∀ m : d.Correct, p.2.signer = m.1 →
      d.scheme.sealedOver p.1.encode p.2 → p.1 ∈ sealedOf (w.history m) := by
    intro p hp m hsigner hvalid
    exact (hunforged p hp).mem hseparates hsealed (hinput p hp) hsigner hvalid
  constructor
  · intro signed hin hvalid m hsigner
    have hp : (.statement signed.body, signed.stamp) ∈ input.sealed := by simp [Input.sealed, hin]
    exact statement_mem_sealedOf.mp (hmem _ hp m hsigner hvalid)
  · intro cert hin s hs hvalid m hsigner
    have hp : (.ballot cert.ballot, s) ∈ input.sealed := by
      simp [Input.sealed, Certificate.sealed, hin, hs]
    exact ballot_mem_sealedOf.mp (hmem _ hp m hsigner hvalid)
  · intro vote hin hvalid m hsigner
    have hp : (.ballot vote.ballot, vote.stamp) ∈ input.sealed := by simp [Input.sealed, hin]
    exact ballot_mem_sealedOf.mp (hmem _ hp m hsigner hvalid)

/-- The seals of an input that is backed are not forged. -/
theorem unforged_of_backs {input : Input} (hbacks : w.evidence.Backs d.scheme input) :
    ∀ p ∈ input.sealed, w.Unforged p.1 p.2 := by
  rintro ⟨x, s⟩ hp m hsigner hvalid
  refine ⟨x, ?_, rfl⟩
  simp only [Input.sealed, Certificate.sealed, List.mem_append, List.mem_map, List.mem_flatMap,
    Option.mem_toList, Prod.mk.injEq] at hp
  rcases hp with (⟨signed, hin, rfl, rfl⟩ | ⟨cert, hin, s, hs, rfl, rfl⟩) | ⟨vote, hin, rfl, rfl⟩
  · exact statement_mem_sealedOf.mpr (hbacks.statement signed hin hvalid m hsigner)
  · exact ballot_mem_sealedOf.mpr (hbacks.certificate cert hin s hs hvalid m hsigner)
  · exact ballot_mem_sealedOf.mpr (hbacks.vote vote hin hvalid m hsigner)

end World

namespace Deployment

/-- **The worlds on unforged seals**: from the first processes on, one correct member after the
other takes a step, on an input in which no seal of a correct member is forged. -/
inductive Unfolds {σ : Type} [StateStore σ] (d : Deployment) : World d σ → Prop
  | boot {w : World d σ} (hfresh : w.Fresh) : Unfolds d w
  | step {w : World d σ} {m : d.Correct} {ts : List (Turn σ)} {core : Core σ}
      (hunfolds : Unfolds d w)
      (hstep : Step (d.context m) (fun input => ∀ p ∈ input.sealed, w.Unforged p.1 p.2)
        (w.core m) ts core) : Unfolds d (w.after m ts core)

variable {d : Deployment} {σ : Type} [StateStore σ] {w : World d σ}

/-- Inputs that are backed bring no forged seals. -/
theorem Reaches.unfolds (hreaches : d.Reaches w) : d.Unfolds w := by
  induction hreaches with
  | boot hfresh => exact .boot hfresh
  | step _ hstep ih => exact .step ih (hstep.mono fun _ => World.unforged_of_backs)

/-- **A world on unforged seals can come about** on inputs that are backed, as long as the digest
separates all that is sealed in it. -/
theorem Unfolds.reaches (hunfolds : d.Unfolds w) (hseparates : d.scheme.Separates w.Occurs) :
    d.Reaches w := by
  induction hunfolds with
  | boot hfresh => exact .boot hfresh
  | @step w m ts core hunfolds hstep ih =>
      have hgrows : ∀ y, w.Occurs y → (w.after m ts core).Occurs y := fun _ =>
        World.occurs_after m ts core
      refine .step (ih (hseparates.mono hgrows)) (hstep.of_inputs fun t ht hunforged => ?_)
      refine World.backs_of_unforged hunforged hseparates hgrows ?_
      rintro ⟨x, s⟩ hp
      refine ⟨m, Or.inr ⟨t, ?_, s, hp⟩⟩
      rw [show (w.after m ts core).history m = w.history m ++ ts from Function.update_self ..]
      exact List.mem_append_right _ ht

end Deployment

variable {d : Deployment} {σ : Type} [StateStore σ] [LawfulStore σ] {w : World d σ}

omit [StateStore σ] [LawfulStore σ] in
/-- A valid certificate that can be assembled is one that its signers have voted for. -/
theorem World.Assembles.certified {on : Sealable → Prop} {cert : Certificate}
    (hassembles : w.Assembles cert) (hseparates : d.scheme.Separates on)
    (hsealed : ∀ y, w.Occurs y → on y) (hballot : on (.ballot cert.ballot))
    (hvalid : d.committee.verify d.scheme cert = .ok ()) (hgenesis : cert ≠ d.scheme.genesis) :
    w.Certified cert.ballot := by
  rcases Committee.verify_eq_ok.mp hvalid with rfl | hcertifies
  · exact absurd rfl hgenesis
  refine ⟨cert, rfl, hcertifies, fun s hs m hsigner => ?_⟩
  have hmem := (hassembles s hs).mem hseparates hsealed hballot hsigner (hcertifies.valid s hs)
  exact ballot_mem_sealedOf.mp hmem

/-- **Certificates for one view agree.** In every world on unforged seals, with faulty members
fewer than what two quorums have in common, two valid certificates that can be assembled from its
seals, other than the genesis certificate, are for one payload if they are for one view, in
whichever phases. -/
theorem certificates_of_view_agree (hunfolds : d.Unfolds w)
    (hfew : d.committee.size + d.faulty.card < 2 * d.committee.quorum) {cert cert' : Certificate}
    (hseparates : d.scheme.Separates fun x =>
      w.Occurs x ∨ x = .ballot cert.ballot ∨ x = .ballot cert'.ballot)
    (hassembles : w.Assembles cert) (hassembles' : w.Assembles cert')
    (hvalid : d.committee.verify d.scheme cert = .ok ())
    (hvalid' : d.committee.verify d.scheme cert' = .ok ())
    (hgenesis : cert ≠ d.scheme.genesis) (hgenesis' : cert' ≠ d.scheme.genesis)
    (hview : cert.view = cert'.view) : cert.payload = cert'.payload := by
  have hreaches : d.Reaches w := hunfolds.reaches (hseparates.mono fun _ => Or.inl)
  have hcertified : w.Certified cert.ballot :=
    hassembles.certified hseparates (fun _ => Or.inl) (Or.inr (Or.inl rfl)) hvalid hgenesis
  have hcertified' : w.Certified cert'.ballot :=
    hassembles'.certified hseparates (fun _ => Or.inl) (Or.inr (Or.inr rfl)) hvalid' hgenesis'
  exact hreaches.payload_eq hfew hcertified hcertified' hview

namespace Witnessing

/-- Four members, the last of which is faulty and leads view 3. -/
def deployment : Deployment := .transparent .four {.numbered 3}

/-- The payload that the leader of view 3 proposes. -/
def payload : Payload := ⟨Scheme.transparent.genesisDigest, [80]⟩

/-- The ballot that all vote for. -/
def ballot : Ballot := ⟨.prepare, 3, payload⟩

/-- A member is shown the proposal. -/
def hears (m : deployment.Correct) : deployment.Correct × Cue :=
  (m, .input (.numbered 3 3 .prepare payload Scheme.transparent.genesis))

/-- Member 0 is a correct one. -/
theorem zero_correct :
    .numbered 0 ∈ deployment.committee.members ∧ .numbered 0 ∉ deployment.faulty := by decide

/-- Member 1 is a correct one. -/
theorem one_correct :
    .numbered 1 ∈ deployment.committee.members ∧ .numbered 1 ∉ deployment.faulty := by decide

/-- Member 2 is a correct one. -/
theorem two_correct :
    .numbered 2 ∈ deployment.committee.members ∧ .numbered 2 ∉ deployment.faulty := by decide

/-- Every correct member is shown the proposal. -/
def script : List (deployment.Correct × Cue) :=
  [hears (Deployment.member 0 zero_correct), hears (Deployment.member 1 one_correct),
    hears (Deployment.member 2 two_correct)]

/-- The certificate with the seals of two correct members and of the faulty one. -/
def cert (m n : UInt8) : Certificate := .numbered ballot [m, n, 3]

/-- Where all correct members have voted for the ballot, it may be certified. -/
theorem assembles {w : World deployment MemoryStore}
    (hvoted : ∀ m, ballot ∈ ballotsOf (w.history m)) (m n : UInt8) : w.Assembles (cert m n) := by
  intro s _ voter _ _
  exact ⟨.ballot ballot, ballot_mem_sealedOf.mpr (hvoted voter), rfl⟩

end Witnessing

open Witnessing in
/-- A faulty leader shows its proposal to all others, and assembles two certificates from their
votes and its own. -/
theorem certificates_of_view_agree_of_votes :
    ∃ w : World deployment MemoryStore, deployment.Unfolds w ∧
      deployment.committee.size + deployment.faulty.card < 2 * deployment.committee.quorum ∧
      deployment.scheme.Separates (fun x => w.Occurs x ∨ x = .ballot (cert 0 1).ballot ∨
        x = .ballot (cert 0 2).ballot) ∧
      w.Assembles (cert 0 1) ∧ w.Assembles (cert 0 2) ∧
      deployment.committee.verify deployment.scheme (cert 0 1) = .ok () ∧
      deployment.committee.verify deployment.scheme (cert 0 2) = .ok () ∧
      cert 0 1 ≠ cert 0 2 ∧ (cert 0 1).payload = (cert 0 2).payload := by
  obtain ⟨w, hreaches, hvoted, hsealed, hheard⟩ := Deployment.exists_reaches
    (P := fun w : World deployment MemoryStore => (∀ m, ballot ∈ ballotsOf (w.history m)) ∧
      (∀ m, ∀ x ∈ sealedOf (w.history m), x.Fits) ∧
      ∀ m, ∀ t ∈ w.history m, ∀ p ∈ t.input.sealed, p.1.Fits)
    (show ((World.start deployment).play script).map _ = some true by decide +kernel)
  have hseparates : deployment.scheme.Separates (fun x => w.Occurs x ∨
      x = .ballot (cert 0 1).ballot ∨ x = .ballot (cert 0 2).ballot) := by
    refine ⟨?_, fun x y _ _ hhash => Digest.mk.inj hhash⟩
    rintro x (⟨m, hx | ⟨t, ht, s, hs⟩⟩ | rfl | rfl)
    · exact hsealed m x hx
    · exact hheard m t ht (x, s) hs
    · decide
    · decide
  have hvalid : deployment.committee.verify deployment.scheme (cert 0 1) = .ok () := by
    decide +kernel
  have hvalid' : deployment.committee.verify deployment.scheme (cert 0 2) = .ok () := by
    decide +kernel
  have hgenesis (n : UInt8) : cert 0 n ≠ deployment.scheme.genesis := fun h =>
    Phase.noConfusion (congrArg Certificate.phase h)
  have hassembles (n : UInt8) : w.Assembles (cert 0 n) := assembles hvoted 0 n
  exact ⟨w, hreaches.unfolds, by decide, hseparates, hassembles 1, hassembles 2, hvalid, hvalid',
    by decide +kernel, certificates_of_view_agree hreaches.unfolds (by decide) hseparates
      (hassembles 1) (hassembles 2) hvalid hvalid' (hgenesis 1) (hgenesis 2) rfl⟩

end HotStuff
