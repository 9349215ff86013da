import FolderClient.Crypto.Reload

namespace FolderClient.Crypto.TrustRuns

open FolderClient.Core.Namespace FolderClient.Library.Json FolderClient.Library.Results
open FolderClient.Crypto.Jws FolderClient.Crypto.Entries FolderClient.Crypto.Anchoring
open FolderClient.Crypto.RevocationRuns FolderClient.Crypto.Effects FolderClient.Crypto.Reload

variable {prims : Primitives} {s s' s'' : KeySet prims} {offer : KeyOffer prims}

/-- The statement of a key carries the signature of another one. -/
def Signs (signer entry : KeyEntry prims) : Prop :=
  ∃ signature key bytes, signatureOfTheCarrier prims entry.raw = .ok signature ∧
    signature.header.kid = signer.kid ∧ PublicKey.fromJwk prims signer.jwk = .ok key ∧
      signedBytes prims entry.raw = .ok bytes ∧
        signature.check prims typKeyStatement bytes key = .ok ()

/-- A stored anchor that no suspicion has revoked vouches for another key. -/
structure Vouches (s : KeySet prims) (signer entry : KeyEntry prims) : Prop where
  stored : signer ∈ s.anchors
  role : signer.role = .trustAnchor
  other : signer.kid ≠ entry.kid
  counts : ∀ w ∈ s.revoke, w.kid = signer.kid → w.reason.retroactive = false
  signed : Signs signer entry

section Checks

theorem vouches_of_checkKey {entry : KeyEntry prims} {role : KeyRole} {issuer tenantId : String}
    (h : (AnchorVerifier.new s.anchors s.revoke).checkKey entry role issuer tenantId = .ok ()) :
    ∃ signer, Vouches s signer entry := by
  simp only [AnchorVerifier.checkKey, ite_throw_eq_ok, bind_eq_ok] at h
  obtain ⟨-, -, -, -, -, -, -, kid, hstatement, -⟩ := h
  simp only [AnchorVerifier.checkStatement, ite_throw_eq_ok, bind_eq_ok] at hstatement
  obtain ⟨signature, hsignature, hself, htyp, hstatement⟩ := hstatement
  split at hstatement
  · cases hstatement
  · rename_i signer key hfind
    simp only [ite_throw_eq_ok] at hstatement
    obtain ⟨hrevoked, hstatement⟩ := hstatement
    have hkid : signer.kid = signature.header.kid := by simpa using List.find?_some hfind
    obtain ⟨anchor, hanchor, hpair⟩ := List.mem_map.mp (List.mem_of_find?_eq_some hfind)
    obtain ⟨rfl, rfl⟩ := Prod.mk.inj hpair
    obtain ⟨hstored, hrole⟩ := List.mem_filter.mp hanchor
    have hcounts : ∀ w ∈ s.revoke, w.kid = anchor.kid → w.reason.retroactive = false := by
      intro w hw hk
      by_contra hretroactive
      refine hrevoked (List.any_eq_true.mpr ⟨w, hw, ?_⟩)
      simpa [hk, hkid] using hretroactive
    split at hstatement
    · cases hstatement
    · rename_i key hkey
      simp only [bind_eq_ok] at hstatement
      obtain ⟨bytes, hbytes, _, hcheck, -⟩ := hstatement
      exact ⟨anchor, hstored, of_decide_eq_true hrole, fun he ↦ hself (hkid.symm.trans he), hcounts,
        signature, key, bytes, hsignature, hkid.symm, ok_of_toOption hkey, hbytes, hcheck⟩

theorem mem_adoptAnchors {v : AnchorVerifier prims} {l : List (KeyEntry prims)}
    {entry : KeyEntry prims} (h : entry ∈ (s.adoptAnchors v l).1) :
    v.checkKey entry .trustAnchor s.issuer s.tenantId = .ok () := by
  induction l with
  | nil => cases h
  | cons anchor rest ih =>
    unfold KeySet.adoptAnchors at h
    dsimp only at h
    split at h
    · split at h <;> exact ih h
    · split at h
      · rename_i hcheck
        rcases List.mem_cons.mp h with rfl | h
        · exact hcheck
        · exact ih h
      · exact ih h
      · exact ih h
      · exact ih h

theorem mem_merge {α : Type} {kid : α → String} {stored new : List α} {a : α}
    (h : a ∈ merge kid stored new) : a ∈ stored ∨ a ∈ new := by
  unfold merge at h
  induction new generalizing stored with
  | nil => exact .inl h
  | cons entry rest ih =>
    rw [List.foldl_cons] at h
    split at h
    · exact (ih h).imp_right (List.mem_cons_of_mem _)
    · rcases ih h with h | h
      · rcases List.mem_append.mp h with h | h
        · exact .inl h
        · exact .inr (List.mem_singleton.mp h ▸ List.mem_cons_self)
      · exact .inr (List.mem_cons_of_mem _ h)

theorem subset_merge {α : Type} (kid : α → String) (stored new : List α) :
    stored ⊆ merge kid stored new := by
  unfold merge
  induction new generalizing stored with
  | nil => exact fun _ h ↦ h
  | cons entry rest ih =>
    rw [List.foldl_cons]
    split
    · exact ih stored
    · exact fun a h ↦ ih _ (List.mem_append_left _ h)

/-- What verifies was signed by a stored key that a stored anchor vouches for, in a confirmed
set. -/
theorem vouches_of_checkCarrier {carrier : Value} {typ kid : String} {t : Timestamp}
    (h : s.checkCarrier carrier typ t = .ok kid) :
    s.anchorState = .confirmed ∧ ∃ entry ∈ s.signatureSigningKey, entry.kid = kid ∧
      ∃ signer, Vouches s signer entry := by
  simp only [KeySet.checkCarrier, ite_throw_eq_ok, bind_eq_ok] at h
  obtain ⟨hcarries, signature, -, -, -, h⟩ := h
  have hstate : s.anchorState = .confirmed := by
    simp only [KeySet.carries, not_not, Bool.and_eq_true, decide_eq_true_eq] at hcarries
    exact hcarries.1
  split at h
  · cases h
  · rename_i entry hfind
    simp only [bind_eq_ok, ite_throw_eq_ok] at h
    obtain ⟨_, hcheck, -, -, -, key, -, bytes, -, _, -, hkid⟩ := h
    refine ⟨hstate, entry, List.mem_of_find?_eq_some hfind, ?_, vouches_of_checkKey hcheck⟩
    have hentry : entry.kid = signature.header.kid := by simpa using List.find?_some hfind
    exact hentry.trans (Except.ok.inj hkid)

end Checks

/-- What a later key set owes an earlier one. -/
structure Continues (s s' : KeySet prims) : Prop where
  anchors : s.anchors ⊆ s'.anchors
  keys : s.signatureSigningKey ⊆ s'.signatureSigningKey
  revoke : s.revoke ⊆ s'.revoke
  version : s.keySetVersion ≤ s'.keySetVersion
  issuer : s.anchors ≠ [] → s'.issuer = s.issuer
  tenant : s.anchors ≠ [] → s'.tenantId = s.tenantId
  revoked : s.anchors ≠ [] → s.anchorState = .revoked → s'.anchorState = .revoked
  grounded : (s.anchorState = .revoked → s.anchors ≠ []) →
    s'.anchorState = .revoked → s'.anchors ≠ []

namespace Continues

theorem refl (s : KeySet prims) : Continues s s :=
  ⟨fun _ h ↦ h, fun _ h ↦ h, fun _ h ↦ h, UInt64.le_refl _, fun _ ↦ rfl, fun _ ↦ rfl, fun _ ↦ id,
    id⟩

theorem ne_nil (h : Continues s s') (hne : s.anchors ≠ []) : s'.anchors ≠ [] := by
  obtain ⟨a, ha⟩ := List.exists_mem_of_ne_nil _ hne
  exact List.ne_nil_of_mem (h.anchors ha)

theorem trans (h : Continues s s') (h' : Continues s' s'') : Continues s s'' :=
  ⟨fun _ ha ↦ h'.anchors (h.anchors ha), fun _ hk ↦ h'.keys (h.keys hk),
    fun _ hw ↦ h'.revoke (h.revoke hw), UInt64.le_trans h.version h'.version,
    fun hs ↦ (h'.issuer (h.ne_nil hs)).trans (h.issuer hs),
    fun hs ↦ (h'.tenant (h.ne_nil hs)).trans (h.tenant hs),
    fun hs hr ↦ h'.revoked (h.ne_nil hs) (h.revoked hs hr),
    fun hs ↦ h'.grounded (h.grounded hs)⟩

end Continues

section Steps

theorem continues_withRevocationState (s : KeySet prims) : Continues s s.withRevocationState := by
  unfold KeySet.withRevocationState
  split
  · rename_i hnone
    refine ⟨fun _ h ↦ h, fun _ h ↦ h, fun _ h ↦ h, UInt64.le_refl _, fun _ ↦ rfl, fun _ ↦ rfl,
      fun _ _ ↦ rfl, fun _ _ ↦ ?_⟩
    intro hnil
    have hnil' : s.anchors = [] := hnil
    simp [hnil'] at hnone
  · exact .refl s

theorem continues_continued (h : s.keySetVersion ≤ offer.keySetVersion) :
    Continues s (continued s offer) where
  anchors := subset_merge ..
  keys := subset_merge ..
  revoke := subset_merge ..
  version := h
  issuer _ := rfl
  tenant _ := rfl
  revoked _ := id
  grounded hs hr := by
    obtain ⟨a, ha⟩ := List.exists_mem_of_ne_nil _ (hs hr)
    exact List.ne_nil_of_mem (subset_merge _ _ _ ha)

/-- A set that is anchored already takes an enrollment answer only from its own issuer and
tenant. -/
theorem checkAnchoring_eq_ok {tenant : Option String} (h : s.checkAnchoring offer tenant = .ok ())
    (hne : s.anchors ≠ []) : s.issuer = offer.issuer ∧ s.tenantId = offer.tenantId := by
  unfold KeySet.checkAnchoring at h
  have hnonempty : (!s.anchors.isEmpty) = true := by simpa using hne
  have hchecks : ∀ a b, checkTenant s.issuer offer.issuer = .ok a →
      checkTenant s.tenantId offer.tenantId = .ok b →
        s.issuer = offer.issuer ∧ s.tenantId = offer.tenantId :=
    fun _ _ hi ht ↦ ⟨checkTenant_eq_ok hi, checkTenant_eq_ok ht⟩
  cases tenant <;> cases hr : offer.reportedFingerprint <;>
    simp only [hr, hnonempty, bind_eq_ok, ite_throw_eq_ok, if_true] at h
  · obtain ⟨-, _, -, -, _, hi, ht⟩ := h
    exact hchecks _ _ hi ht
  · obtain ⟨-, _, -, -, -, _, hi, ht⟩ := h
    exact hchecks _ _ hi ht
  · obtain ⟨_, -, -, _, -, -, _, hi, ht⟩ := h
    exact hchecks _ _ hi ht
  · obtain ⟨_, -, -, _, -, -, -, _, hi, ht⟩ := h
    exact hchecks _ _ hi ht

theorem continues_anchored {tenant : Option String}
    (h : s.checkAnchoring offer tenant = .ok ()) : Continues s (anchored s offer) := by
  have hanchors : s.anchors ⊆ (anchored s offer).anchors := by
    intro a ha
    have hne : s.anchors ≠ [] := List.ne_nil_of_mem ha
    simpa [anchored, hne] using ha
  refine ⟨hanchors, subset_merge _ _ _, subset_merge _ _ _, ?_, fun hne ↦ ?_, fun hne ↦ ?_,
    fun hne hr ↦ ?_, fun hs hr ↦ ?_⟩
  · change s.keySetVersion ≤ if s.keySetVersion ≤ offer.keySetVersion then offer.keySetVersion
      else s.keySetVersion
    split
    · assumption
    · exact UInt64.le_refl _
  · exact (checkAnchoring_eq_ok h hne).1.symm
  · exact (checkAnchoring_eq_ok h hne).2.symm
  · simpa [anchored, hne] using hr
  · by_cases hne : s.anchors = []
    · simp [anchored, hne] at hr
    · obtain ⟨a, ha⟩ := List.exists_mem_of_ne_nil _ hne
      exact List.ne_nil_of_mem (hanchors ha)

/-- Whatever an operation offers, it continues the set. -/
theorem continues_perform (s : KeySet prims) (operation : Operation prims) :
    Continues s (perform s operation) := by
  cases operation with
  | anchor offer tenant =>
    cases h : s.anchor offer tenant with
    | error e => simpa [perform, h, Except.toOption] using Continues.refl s
    | ok a =>
      obtain ⟨hcheck, hset⟩ := anchor_eq_ok h
      simp only [perform, h, Except.toOption, Option.map_some, Option.getD_some, hset]
      exact (continues_anchored hcheck).trans (continues_withRevocationState _)
  | adopt offer =>
    cases h : s.adopt offer with
    | error e => simpa [perform, h, Except.toOption] using Continues.refl s
    | ok a =>
      obtain ⟨-, hversion, hset⟩ := adopt_eq_ok h
      simp only [perform, h, Except.toOption, Option.map_some, Option.getD_some, hset]
      exact (continues_continued hversion).trans (continues_withRevocationState _)
  | confirm =>
    cases h : s.confirm with
    | error e => simpa [perform, h, Except.toOption] using Continues.refl s
    | ok s' =>
      obtain ⟨hne, hstate, rfl⟩ := confirm_eq_ok h
      simp only [perform, h, Except.toOption, Option.getD_some]
      exact ⟨fun _ h ↦ h, fun _ h ↦ h, fun _ h ↦ h, UInt64.le_refl _, fun _ ↦ rfl, fun _ ↦ rfl,
        fun _ hr ↦ absurd hr hstate, fun _ _ ↦ hne⟩
  | reload =>
    cases h : (KeySet.fromStorage s.asStorage : Except CryptoError (KeySet prims)) with
    | error e => simpa [perform, h, Except.toOption] using Continues.refl s
    | ok s' =>
      simp only [perform, h, Except.toOption, Option.getD_some, (fromStorage_eq_ok h).1]
      exact .refl s

/-- After the first anchoring no anchor comes in for which no stored one vouches. -/
theorem vouches_of_perform {operation : Operation prims} {entry : KeyEntry prims}
    (hne : s.anchors ≠ []) (h : entry ∈ (perform s operation).anchors) (hnew : entry ∉ s.anchors) :
    ∃ signer, Vouches s signer entry := by
  cases operation with
  | anchor offer tenant =>
    cases ha : s.anchor offer tenant with
    | error e => exact absurd (by simpa [perform, ha, Except.toOption] using h) hnew
    | ok a =>
      have hset := (anchor_eq_ok ha).2
      rw [withRevocationState_eq] at hset
      simp [perform, ha, Except.toOption, hset, anchored, hne] at h
      exact absurd h hnew
  | adopt offer =>
    cases ha : s.adopt offer with
    | error e => exact absurd (by simpa [perform, ha, Except.toOption] using h) hnew
    | ok a =>
      have hset := (adopt_eq_ok ha).2.2
      rw [withRevocationState_eq] at hset
      simp only [perform, ha, Except.toOption, hset, Option.map_some, Option.getD_some] at h
      rcases mem_merge h with h | h
      · exact absurd h hnew
      · exact vouches_of_checkKey (mem_adoptAnchors h)
  | confirm =>
    cases hc : s.confirm with
    | error e => exact absurd (by simpa [perform, hc, Except.toOption] using h) hnew
    | ok s' =>
      obtain ⟨-, -, rfl⟩ := confirm_eq_ok hc
      exact absurd (by simpa [perform, hc, Except.toOption] using h) hnew
  | reload =>
    cases hr : (KeySet.fromStorage s.asStorage : Except CryptoError (KeySet prims)) with
    | error e => exact absurd (by simpa [perform, hr, Except.toOption] using h) hnew
    | ok s' =>
      simp only [perform, hr, Except.toOption, Option.getD_some, (fromStorage_eq_ok hr).1] at h
      exact absurd h hnew

end Steps

section Runs

theorem continues_run (s : KeySet prims) (operations : List (Operation prims)) :
    Continues s (run s operations) := by
  induction operations generalizing s with
  | nil => exact .refl s
  | cons operation operations ih => exact (continues_perform s operation).trans (ih _)

theorem run_append (s : KeySet prims) (before after : List (Operation prims)) :
    run s (before ++ after) = run (run s before) after := List.foldl_append ..

/-- Whether an offer is refused. -/
def Refuses (s : KeySet prims) : Operation prims → Prop
  | .anchor offer tenant => (s.anchor offer tenant).isOk = false
  | .adopt offer => (s.adopt offer).isOk = false
  | .confirm => s.confirm.isOk = false
  | .reload => (KeySet.fromStorage s.asStorage : Except CryptoError (KeySet prims)).isOk = false

theorem perform_of_refuses {operation : Operation prims} (h : Refuses s operation) :
    perform s operation = s := by
  have hkeep : ∀ x : Except CryptoError (KeySet prims), x.isOk = false → x.toOption.getD s = s := by
    intro x hx
    cases x with
    | error e => rfl
    | ok a => cases hx
  have hset : ∀ x : Except CryptoError (Adoption prims), x.isOk = false →
      (x.toOption.map (·.set)).getD s = s := by
    intro x hx
    cases x with
    | error e => rfl
    | ok a => cases hx
  cases operation with
  | anchor offer tenant => exact hset _ h
  | adopt offer => exact hset _ h
  | confirm => exact hkeep _ h
  | reload => exact hkeep _ h

/-- What holds between a key set and a later one of its run. -/
structure Safe (s s' : KeySet prims) : Prop where
  anchors : s.anchors ⊆ s'.anchors
  keys : s.signatureSigningKey ⊆ s'.signatureSigningKey
  revoke : s.revoke ⊆ s'.revoke
  version : s.keySetVersion ≤ s'.keySetVersion
  issuer : s.anchors ≠ [] → s'.issuer = s.issuer ∧ s'.tenantId = s.tenantId
  entered : s.anchors ≠ [] → ∀ operation, ∀ entry ∈ (perform s operation).anchors,
    entry ∉ s.anchors → ∃ signer, Vouches s signer entry
  /-- What waits for its confirmation has no part in a check. -/
  pending : ∀ pending carrier typ t,
    KeySet.checkCarrier { s with pendingAnchors := pending } carrier typ t =
      s.checkCarrier carrier typ t
  verified : ∀ carrier typ t kid, s.checkCarrier carrier typ t = .ok kid →
    s.anchorState = .confirmed ∧ ∃ entry ∈ s.signatureSigningKey, entry.kid = kid ∧
      ∃ signer, Vouches s signer entry
  revoked : s.anchorState = .revoked → s'.anchorState = .revoked ∧
    ∀ carrier typ t, (s'.checkCarrier carrier typ t).isOk = false
  refused : ∀ operation, Refuses s operation → perform s operation = s

/-- Nothing known is lost and nothing unvouched comes in, whatever is offered. -/
theorem safe_of_every_run (before after : List (Operation prims)) :
    Safe (run .empty before) (run .empty (before ++ after)) := by
  rw [run_append]
  generalize hs : run .empty before = s
  have hruns := continues_run s after
  have hground : s.anchorState = .revoked → s.anchors ≠ [] := by
    rw [← hs]
    exact (continues_run .empty before).grounded fun h ↦ nomatch h
  refine ⟨hruns.anchors, hruns.keys, hruns.revoke, hruns.version,
    fun hne ↦ ⟨hruns.issuer hne, hruns.tenant hne⟩,
    fun hne operation entry h ↦ vouches_of_perform hne h, fun _ _ _ _ ↦ rfl,
    fun carrier typ t kid ↦ vouches_of_checkCarrier, ?_, fun operation ↦ perform_of_refuses⟩
  intro hr
  have hlater := hruns.revoked (hground hr) hr
  refine ⟨hlater, fun carrier typ t ↦ ?_⟩
  cases hcheck : (run s after).checkCarrier carrier typ t with
  | error e => rfl
  | ok kid => exact nomatch hlater.symm.trans (vouches_of_checkCarrier hcheck).1

end Runs

section Compromised

/-- The anchors of the first enrollment in a run. -/
def enrollment (s : KeySet prims) : List (Operation prims) → List (KeyEntry prims)
  | [] => s.anchors
  | operation :: rest =>
    if s.anchors.isEmpty then enrollment (perform s operation) rest else s.anchors

/-- An anchor that hangs on the enrollment by counter-signatures of which the revocation voids
none; `admitted` says when an anchor came in. -/
inductive Connected (s : KeySet prims) (enrolled : List (KeyEntry prims)) (w : Revocation)
    (admitted : KeyEntry prims → Timestamp) : KeyEntry prims → Prop
  | enrolled {anchor : KeyEntry prims} : anchor ∈ enrolled → Connected s enrolled w admitted anchor
  | through {signer anchor : KeyEntry prims} : signer ∈ s.anchors → Signs signer anchor →
      (signer.kid = w.kid → w.voided (admitted anchor) = false) →
        Connected s enrolled w admitted signer → Connected s enrolled w admitted anchor

/-- Whatever verifies was signed by a key that another anchor than the revoked one has
counter-signed, and one that is connected to the enrollment without it. -/
def Cut (s : KeySet prims) (enrolled : List (KeyEntry prims)) (w : Revocation)
    (admitted : KeyEntry prims → Timestamp) : Prop :=
  ∀ carrier typ t kid, s.checkCarrier carrier typ t = .ok kid →
    ∃ entry ∈ s.signatureSigningKey, entry.kid = kid ∧ ∃ signer ∈ s.anchors,
      signer.kid ≠ w.kid ∧ Signs signer entry ∧ Connected s enrolled w admitted signer

def Suspected (s : KeySet prims) (anchor : KeyEntry prims) : Prop :=
  ∃ w ∈ s.revoke, w.kid = anchor.kid ∧ w.reason.retroactive = true

theorem Vouches.not_suspected {signer entry : KeyEntry prims} (h : Vouches s signer entry) :
    ¬ Suspected s signer := by
  rintro ⟨w, hw, hk, hr⟩
  exact absurd ((h.counts w hw hk).symm.trans hr) (by decide)

theorem retroactive_of_voided {w : Revocation} {t : Timestamp} (h : w.voided t = true) :
    w.reason.retroactive = true := by
  unfold Revocation.voided at h
  split at h
  · cases h
  · assumption
  · assumption

theorem exists_voided {w : Revocation} (h : w.reason.retroactive = true) :
    ∃ t, w.voided t = true := by
  unfold Revocation.voided
  rw [h]
  cases hs : w.compromisedSince with
  | none => exact ⟨.null, rfl⟩
  | some since => exact ⟨since, by simp⟩

/-- Where nothing shadows the revocation of an anchor, and every anchor that hangs on its voided
counter-signatures is revoked on suspicion as well, no trust survives through it. -/
theorem cut_of_run (before after : List (Operation prims)) (admitted : KeyEntry prims → Timestamp)
    {w : Revocation} {a : Adoption prims} (hadopt : (run .empty before).adopt offer = .ok a)
    (hw : w ∈ offer.revoke) (hc : counterSigned (run .empty before) w = true)
    (hr : w.reason.retroactive = true) (hu : Unshadowed (run .empty before) offer w)
    (hrevoked : ∀ anchor ∈ (run a.set after).anchors,
      Connected (run a.set after) (enrollment .empty before) w admitted anchor ∨
        Suspected (run a.set after) anchor) :
    Cut (run a.set after) (enrollment .empty before) w admitted := by
  obtain ⟨first, hf⟩ := isSome_firstRevocation hw hc
  obtain ⟨t, ht⟩ := exists_voided hr
  have hfirst := retroactive_of_voided (hu first hf t ht)
  have hstands := revocationTo_run ((revocationTo_adopt hadopt w.kid).trans hf) after
  intro carrier typ t kid hcheck
  obtain ⟨-, entry, hentry, hkid, signer, hsigner⟩ := vouches_of_checkCarrier hcheck
  have hother : signer.kid ≠ w.kid := by
    intro hk
    refine hsigner.not_suspected ⟨first, List.mem_of_find?_eq_some hstands, ?_, hfirst⟩
    have hfk : first.kid = w.kid := by simpa using List.find?_some hstands
    exact hfk.trans hk.symm
  refine ⟨entry, hentry, hkid, signer, hsigner.stored, hother, hsigner.signed, ?_⟩
  exact (hrevoked signer hsigner.stored).resolve_right hsigner.not_suspected

/-- A second anchor of the enrollment. -/
def anchorC : KeyEntry plainPrimitives where
  kid := "C"
  role := .trustAnchor
  jwk := ⟨"xC", "xC"⟩
  issuer := "issuer"
  tenantId := "tenant"
  notBefore := .null
  notAfter := yearLater
  keySetVersion := none
  supersedes := none
  thumbprint := none
  raw := plainKey "C" "xC" .trustAnchor .null
  read := rfl

/-- A later anchor that the first one has counter-signed. -/
def anchorB : KeyEntry plainPrimitives where
  kid := "B"
  role := .trustAnchor
  jwk := ⟨"xB", "xB"⟩
  issuer := "issuer"
  tenantId := "tenant"
  notBefore := .null
  notAfter := yearLater
  keySetVersion := none
  supersedes := none
  thumbprint := none
  raw := plainKey "B" "xB" .trustAnchor (.string "SA..yA")
  read := rfl

/-- A signing key that the later anchor has counter-signed. -/
def keyOfB : KeyEntry plainPrimitives where
  kid := "K"
  role := .proofSignature
  jwk := ⟨"xK", "xK"⟩
  issuer := "issuer"
  tenantId := "tenant"
  notBefore := .null
  notAfter := yearLater
  keySetVersion := none
  supersedes := none
  thumbprint := none
  raw := plainKey "K" "xK" .proofSignature (.string "SB..yB")
  read := rfl

/-- The revocation of an anchor on suspicion, by the second anchor of the enrollment. -/
def revokedByC (kid : String) : Value :=
  .object
    [("kid", .string kid), ("issuer", .string "issuer"), ("tenantId", .string "tenant"),
      ("revokedAt", .string "1970-01-01T00:00:00Z"), ("reason", .string "anchor_compromise"),
      ("serverSignature", .string "RC..yC")]

def revocationA : Revocation where
  kid := "A"
  role := none
  issuer := "issuer"
  tenantId := "tenant"
  revokedAt := .null
  compromisedSince := none
  reason := .anchorCompromised
  keySetVersion := none
  raw := revokedByC "A"
  read := rfl

def revocationB : Revocation where
  kid := "B"
  role := none
  issuer := "issuer"
  tenantId := "tenant"
  revokedAt := .null
  compromisedSince := none
  reason := .anchorCompromised
  keySetVersion := none
  raw := revokedByC "B"
  read := rfl

/-- Two anchors are enrolled and confirmed; the first admits a third, and that one a key. -/
def admittedRun : List (Operation plainPrimitives) :=
  [.anchor (offerOf [trustAnchor, anchorC] [] []) none, .confirm, .adopt (offerOf [anchorB] [] []),
    .adopt (offerOf [] [keyOfB] [])]

theorem signerKid_of_signs {signer entry : KeyEntry prims} (h : Signs signer entry) :
    entry.signerKid = some signer.kid := by
  obtain ⟨signature, -, -, hsignature, hkid, -⟩ := h
  rw [KeyEntry.signerKid, hsignature, ← hkid]
  rfl

/-- Where the second anchor revokes both, the key that the later one signed counts no more. -/
theorem cut_both : ∃ a,
    (run .empty (admittedRun ++ [.adopt (offerOf [] [] [revocationB])])).adopt
        (offerOf [] [] [revocationA]) = .ok a ∧
      Cut (run a.set [.reload]) (enrollment .empty (admittedRun ++
        [.adopt (offerOf [] [] [revocationB])])) revocationA fun _ ↦ .null := by
  have hok : ((run .empty (admittedRun ++ [.adopt (offerOf [] [] [revocationB])])).adopt
      (offerOf [] [] [revocationA])).isOk = true := by decide +kernel
  obtain ⟨a, ha, hs⟩ := exists_adoption hok
  refine ⟨a, ha, cut_of_run _ _ _ ha List.mem_cons_self (by decide +kernel) rfl ?_ ?_⟩
  · intro first hf t ht
    have hfirst : firstRevocation
        (run .empty (admittedRun ++ [.adopt (offerOf [] [] [revocationB])]))
        (offerOf [] [] [revocationA]) revocationA.kid = some revocationA := by rfl
    rw [Option.some.inj (hf.symm.trans hfirst)]
    exact ht
  · intro anchor h
    have hanchors : (run a.set [.reload]).anchors = [trustAnchor, anchorC, anchorB] := by
      rw [hs]
      rfl
    have hsuspected : revocationB ∈ (run a.set [.reload]).revoke := by
      rw [hs]
      exact List.mem_of_find?_eq_some (p := (·.kid = "B")) rfl
    rw [hanchors] at h
    simp only [List.mem_cons, List.not_mem_nil, or_false] at h
    rcases h with rfl | rfl | rfl
    · exact .inl (.enrolled List.mem_cons_self)
    · exact .inl (.enrolled (List.mem_cons_of_mem _ List.mem_cons_self))
    · exact .inr ⟨revocationB, hsuspected, rfl, rfl⟩

/-- The revoked anchor's signature still counts where another anchor hangs on it. -/
theorem admitted_survives : ¬ ∀ (prims : Primitives) (before after : List (Operation prims))
    (admitted : KeyEntry prims → Timestamp) (offer : KeyOffer prims) (w : Revocation)
    (a : Adoption prims), (run .empty before).adopt offer = .ok a → w ∈ offer.revoke →
      counterSigned (run .empty before) w = true → w.reason.retroactive = true →
        Cut (run a.set after) (enrollment .empty before) w admitted := by
  intro hall
  have hok : ((run .empty admittedRun).adopt (offerOf [] [] [revocationA])).isOk = true := by
    decide +kernel
  obtain ⟨a, ha, hs⟩ := exists_adoption hok
  have hverifies : ((perform (run .empty admittedRun)
      (.adopt (offerOf [] [] [revocationA]))).checkCarrier plainCarrier typDeliveryCommand
        .null).toOption = some "K" := by decide +kernel
  have hanchors : a.set.anchors = [trustAnchor, anchorC, anchorB] := by
    rw [hs]
    rfl
  have hkeys : a.set.signatureSigningKey = [keyOfB] := by
    rw [hs]
    rfl
  rw [← hs] at hverifies
  obtain ⟨entry, hentry, -, signer, hsigner, -, hsigns, hconnected⟩ :=
    hall plainPrimitives admittedRun [] (fun _ ↦ .null) _ revocationA a ha List.mem_cons_self
      (by decide +kernel) rfl plainCarrier typDeliveryCommand .null "K" (ok_of_toOption hverifies)
  have hkey : entry = keyOfB := List.mem_singleton.mp (hkeys ▸ hentry)
  have hkid : signer.kid = "B" := by
    have hsigned := signerKid_of_signs hsigns
    rw [hkey] at hsigned
    exact (Option.some.inj hsigned).symm
  have hlater : signer = anchorB := by
    have hmem : signer ∈ [trustAnchor, anchorC, anchorB] := hanchors ▸ hsigner
    simp only [List.mem_cons, List.not_mem_nil, or_false] at hmem
    rcases hmem with rfl | rfl | rfl
    · exact absurd hkid (by decide)
    · exact absurd hkid (by decide)
    · rfl
  rw [hlater] at hconnected
  cases hconnected with
  | enrolled h =>
    have hmem : anchorB.kid ∈ [trustAnchor, anchorC].map (·.kid) := List.mem_map_of_mem h
    exact absurd hmem (by decide)
  | through _ hsigned hvoided _ =>
    have hfirst := Option.some.inj (signerKid_of_signs hsigned)
    exact nomatch hvoided hfirst.symm

end Compromised

end FolderClient.Crypto.TrustRuns
