import Mathlib.Data.List.Induction
import Mathlib.Data.List.Nodup
import HotStuff.Encoding

/-!
# Hash Chains

A payload names the digest of the payload before it, so a list of payloads is a chain over a root
when each parent is the digest reached before. Hashing is not assumed to be injective:
`CollisionFree` speaks about the payloads of one run only, those that satisfy `on`, and says that
no two of them share a digest and none has that of the root. On such payloads a chain never returns
to a digest, and "leads to" is an order.

## Main results

* `Scheme.CollisionFree.nodup_trail`: the digests that a chain passes through are distinct.
* `Scheme.CollisionFree.leads_antisymm`: two digests that lead to each other are the same.
* `Scheme.CollisionFree.not_leads_parent`: no payload leads back to its own parent.
-/

namespace HotStuff

namespace Scheme

variable (scheme : Scheme)

/-- **The tip of a chain**: the digest of its last payload, the root if there is none. -/
def tip (root : Digest) : List Payload → Digest
  | [] => root
  | p :: ps => tip (scheme.payloadDigest p) ps

/-- The payloads form a chain over `root`: the parent of each is the digest reached before it. -/
def Chained (root : Digest) : List Payload → Prop
  | [] => True
  | p :: ps => p.parent = root ∧ Chained (scheme.payloadDigest p) ps

/-- Whether payloads form a chain can be computed. -/
instance decidableChained (root : Digest) : (ps : List Payload) → Decidable (scheme.Chained root ps)
  | [] => inferInstanceAs (Decidable True)
  | p :: ps =>
    have := decidableChained (scheme.payloadDigest p) ps
    inferInstanceAs (Decidable (p.parent = root ∧ scheme.Chained (scheme.payloadDigest p) ps))

/-- The digests that a chain passes through, the root first. -/
def trail (root : Digest) (ps : List Payload) : List Digest := root :: ps.map scheme.payloadDigest

variable {scheme} {root : Digest}

/-- The tip of a longer chain is reached from the tip of the shorter one. -/
theorem tip_append (ps qs : List Payload) :
    scheme.tip root (ps ++ qs) = scheme.tip (scheme.tip root ps) qs := by
  induction ps generalizing root with
  | nil => rfl
  | cons p ps ih => exact ih

/-- The tip of a chain is the digest of its last payload. -/
@[simp] theorem tip_concat (ps : List Payload) (p : Payload) :
    scheme.tip root (ps ++ [p]) = scheme.payloadDigest p := by
  rw [tip_append]
  rfl

/-- No payloads form a chain over any digest. -/
@[simp] theorem chained_nil : scheme.Chained root [] := trivial

/-- A chain splits at any point into a chain over the root and one over its tip. -/
theorem chained_append {ps qs : List Payload} :
    scheme.Chained root (ps ++ qs) ↔
      scheme.Chained root ps ∧ scheme.Chained (scheme.tip root ps) qs := by
  induction ps generalizing root with
  | nil => exact iff_of_eq (true_and _).symm
  | cons p ps ih =>
      constructor
      · rintro ⟨hp, h⟩
        obtain ⟨hps, hqs⟩ := ih.mp h
        exact ⟨⟨hp, hps⟩, hqs⟩
      · rintro ⟨⟨hp, hps⟩, hqs⟩
        exact ⟨hp, ih.mpr ⟨hps, hqs⟩⟩

/-- A chain grows at its end by a payload whose parent is the tip. -/
theorem chained_concat {ps : List Payload} {p : Payload} :
    scheme.Chained root (ps ++ [p]) ↔ scheme.Chained root ps ∧ p.parent = scheme.tip root ps := by
  rw [chained_append]
  exact and_congr_right fun _ => iff_of_eq (and_true _)

/-- A longer chain passes through what the shorter one does and then through the digests of what is
added. -/
theorem trail_append (ps qs : List Payload) :
    scheme.trail root (ps ++ qs) = scheme.trail root ps ++ qs.map scheme.payloadDigest := by
  rw [trail, trail, List.map_append, List.cons_append]

/-- The tip is one of the digests passed through. -/
theorem tip_mem_trail (ps : List Payload) : scheme.tip root ps ∈ scheme.trail root ps := by
  rcases List.eq_nil_or_concat ps with rfl | ⟨qs, p, rfl⟩
  · exact List.mem_singleton_self root
  · rw [List.concat_eq_append, tip_concat, trail_append]
    exact List.mem_append_right _ (List.mem_singleton_self _)

/-- A chain without repetition that comes back to where it was has gone nowhere. -/
theorem eq_nil_of_tip_eq {qs rs : List Payload} (hn : (scheme.trail root (qs ++ rs)).Nodup)
    (h : scheme.tip root (qs ++ rs) = scheme.tip root qs) : rs = [] := by
  rcases List.eq_nil_or_concat rs with rfl | ⟨rs, r, rfl⟩
  · rfl
  · rw [List.concat_eq_append, ← List.append_assoc] at hn h
    rw [tip_concat] at h
    rw [trail_append, List.map_singleton, List.nodup_append] at hn
    obtain ⟨-, -, hfresh⟩ := hn
    have hback : scheme.payloadDigest r ∈ scheme.trail root (qs ++ rs) := by
      rw [h, trail_append]
      exact List.mem_append_left _ (tip_mem_trail qs)
    exact absurd rfl (hfresh _ hback _ (List.mem_singleton_self _))

variable (scheme root)

/-- **No collisions in a run.** On the payloads that satisfy `on` the digest is injective, and none
of them has the digest `root`. -/
structure CollisionFree (on : Payload → Prop) : Prop where
  injective : ∀ p q, on p → on q → scheme.payloadDigest p = scheme.payloadDigest q → p = q
  ne_root : ∀ p, on p → scheme.payloadDigest p ≠ root

/-- One digest leads to another through payloads that satisfy `on`. -/
def Leads (on : Payload → Prop) (c d : Digest) : Prop :=
  ∃ ps, (∀ p ∈ ps, on p) ∧ scheme.Chained c ps ∧ scheme.tip c ps = d

variable {scheme root} {on : Payload → Prop} {c d e : Digest} {p : Payload}

namespace Leads

/-- A digest leads to itself, through no payload. -/
theorem refl (c : Digest) : scheme.Leads on c c := ⟨[], by simp, chained_nil, rfl⟩

/-- Chains from a digest to a second one and from there to a third join into one chain. -/
theorem trans (h : scheme.Leads on c d) (h' : scheme.Leads on d e) : scheme.Leads on c e := by
  obtain ⟨ps, hps, hchain, rfl⟩ := h
  obtain ⟨qs, hqs, hchain', rfl⟩ := h'
  refine ⟨ps ++ qs, ?_, chained_append.mpr ⟨hchain, hchain'⟩, tip_append ps qs⟩
  intro p hp
  exact (List.mem_append.mp hp).elim (hps p) (hqs p)

/-- A payload leads from its parent to its digest. -/
theorem single (hp : on p) : scheme.Leads on p.parent (scheme.payloadDigest p) :=
  ⟨[p], by simpa using hp, ⟨rfl, chained_nil⟩, rfl⟩

/-- A chain that leads anywhere has a first payload. -/
theorem head (h : scheme.Leads on c d) :
    c = d ∨ ∃ p, on p ∧ p.parent = c ∧ scheme.Leads on (scheme.payloadDigest p) d := by
  obtain ⟨ps, hps, hchain, rfl⟩ := h
  cases ps with
  | nil => exact Or.inl rfl
  | cons p ps =>
      refine Or.inr ⟨p, hps p (by simp), hchain.1, ps, ?_, hchain.2, rfl⟩
      exact fun q hq => hps q (List.mem_cons_of_mem p hq)

/-- A chain that leads anywhere has a last payload. -/
theorem last (h : scheme.Leads on c d) :
    c = d ∨ ∃ p, on p ∧ scheme.payloadDigest p = d ∧ scheme.Leads on c p.parent := by
  obtain ⟨ps, hps, hchain, rfl⟩ := h
  rcases List.eq_nil_or_concat ps with rfl | ⟨qs, p, rfl⟩
  · exact Or.inl rfl
  · rw [List.concat_eq_append] at hps hchain ⊢
    obtain ⟨hqs, hparent⟩ := chained_concat.mp hchain
    refine Or.inr ⟨p, hps p (by simp), (tip_concat qs p).symm, qs, ?_, hqs, hparent.symm⟩
    exact fun q hq => hps q (List.mem_append_left _ hq)

/-- A digest still leads to another one when more payloads are admitted on the way. -/
theorem mono {on' : Payload → Prop} (h : scheme.Leads on c d) (hon : ∀ p, on p → on' p) :
    scheme.Leads on' c d := by
  obtain ⟨ps, hps, hchain⟩ := h
  exact ⟨ps, fun p hp => hon p (hps p hp), hchain⟩

end Leads

namespace CollisionFree

variable (hfree : scheme.CollisionFree root on)

include hfree

/-- Fewer payloads collide no more than all of them do. -/
theorem mono {on' : Payload → Prop} (hon : ∀ p, on' p → on p) : scheme.CollisionFree root on' :=
  ⟨fun p q hp hq => hfree.injective p q (hon p hp) (hon q hq),
    fun p hp => hfree.ne_root p (hon p hp)⟩

/-- **A chain never returns.** The digests it passes through are distinct: a repeated one would
belong to one payload at two places, and its parent would be repeated before it. -/
theorem nodup_trail {ps : List Payload} (hon : ∀ p ∈ ps, on p) (h : scheme.Chained root ps) :
    (scheme.trail root ps).Nodup := by
  induction ps using List.reverseRecOn with
  | nil => exact List.nodup_singleton root
  | append_singleton ps p ih =>
      obtain ⟨hps, hparent⟩ := chained_concat.mp h
      have hp : on p := hon p (by simp)
      have hon' : ∀ q ∈ ps, on q := fun q hq => hon q (List.mem_append_left _ hq)
      have hn : (scheme.trail root ps).Nodup := ih hon' hps
      have hfresh : scheme.payloadDigest p ∉ scheme.trail root ps := by
        intro hmem
        rcases List.mem_cons.mp hmem with hroot | hmem
        · exact hfree.ne_root p hp hroot
        · obtain ⟨q, hq, hdigest⟩ := List.mem_map.mp hmem
          obtain rfl : q = p := hfree.injective q p (hon' q hq) hp hdigest
          obtain ⟨qs, rs, rfl⟩ := List.append_of_mem hq
          obtain ⟨-, hparent', -⟩ := chained_append.mp hps
          exact List.cons_ne_nil _ _ (eq_nil_of_tip_eq hn (hparent.symm.trans hparent'))
      rw [trail_append, List.map_singleton]
      exact List.nodup_append.mpr ⟨hn, List.nodup_singleton _, by
        rintro x hx y hy rfl
        exact hfresh (List.mem_singleton.mp hy ▸ hx)⟩

/-- No payload occurs twice in a chain. -/
theorem nodup_of_chained {ps : List Payload} (hon : ∀ p ∈ ps, on p) (h : scheme.Chained root ps) :
    ps.Nodup :=
  (List.nodup_cons.mp (hfree.nodup_trail hon h)).2.of_map _

/-- **Leading is antisymmetric** on what the root leads to. -/
theorem leads_antisymm (hroot : scheme.Leads on root c) (h : scheme.Leads on c d)
    (h' : scheme.Leads on d c) : d = c := by
  obtain ⟨ps, hps, hchain, rfl⟩ := h
  obtain ⟨qs, hqs, hchain', hback⟩ := h'
  obtain ⟨rs, hrs, hchain'', rfl⟩ := hroot
  have hall : scheme.Chained root (rs ++ (ps ++ qs)) :=
    chained_append.mpr ⟨hchain'', chained_append.mpr ⟨hchain, hchain'⟩⟩
  have hn : (scheme.trail root (rs ++ (ps ++ qs))).Nodup := by
    refine hfree.nodup_trail ?_ hall
    intro p hp
    rcases List.mem_append.mp hp with hp | hp
    · exact hrs p hp
    · exact (List.mem_append.mp hp).elim (hps p) (hqs p)
  have hnil : ps ++ qs = [] := eq_nil_of_tip_eq hn (by rw [tip_append, tip_append, hback])
  rw [(List.append_eq_nil_iff.mp hnil).1]
  rfl

/-- **No payload leads back to its parent.** -/
theorem not_leads_parent (hroot : scheme.Leads on root p.parent) (hp : on p) :
    ¬ scheme.Leads on (scheme.payloadDigest p) p.parent := by
  intro hback
  have hself : scheme.payloadDigest p = p.parent :=
    hfree.leads_antisymm hroot (.single hp) hback
  obtain ⟨ps, hps, hchain, htip⟩ := hroot
  have hn : (scheme.trail root (ps ++ [p])).Nodup := by
    refine hfree.nodup_trail ?_ (chained_concat.mpr ⟨hchain, htip.symm⟩)
    intro q hq
    rcases List.mem_append.mp hq with hq | hq
    · exact hps q hq
    · exact List.mem_singleton.mp hq ▸ hp
  have hnil : [p] = [] := eq_nil_of_tip_eq hn (by rw [tip_concat, hself, htip])
  exact List.cons_ne_nil _ _ hnil

/-- What leads to a payload leads to its parent, or has its digest already. -/
theorem leads_parent (hp : on p) (h : scheme.Leads on c (scheme.payloadDigest p)) :
    c = scheme.payloadDigest p ∨ scheme.Leads on c p.parent := by
  rcases h.last with heq | ⟨q, hq, hdigest, hleads⟩
  · exact Or.inl heq
  · exact Or.inr (hfree.injective q p hq hp hdigest ▸ hleads)

/-- Of two payloads with one parent neither leads to the other. -/
theorem eq_of_parent_eq {q : Payload} (hroot : scheme.Leads on root p.parent)
    (hp : on p) (hq : on q) (hparent : p.parent = q.parent)
    (h : scheme.Leads on (scheme.payloadDigest p) (scheme.payloadDigest q)) : p = q := by
  rcases hfree.leads_parent hq h with heq | hleads
  · exact hfree.injective p q hp hq heq
  · exact absurd (hparent ▸ hleads) (hfree.not_leads_parent hroot hp)

end CollisionFree

end Scheme

end HotStuff
