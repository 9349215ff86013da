import FolderClient.Crypto.RevocationRuns

namespace FolderClient.Crypto.Effects

open FolderClient.Core.Namespace FolderClient.Library.Json FolderClient.Library.Results
open FolderClient.Crypto.Jws FolderClient.Crypto.Entries FolderClient.Crypto.Anchoring
open FolderClient.Crypto.RevocationRuns

variable {prims : Primitives} {s s' : KeySet prims} {offer : KeyOffer prims}

/-- The set that continues another after an offer, before it is seen whether an anchor is left. -/
def continued (s : KeySet prims) (offer : KeyOffer prims) : KeySet prims :=
  { s with
    keySetVersion := offer.keySetVersion
    anchors := merge (·.kid) s.anchors
      (s.adoptAnchors (.new s.anchors s.revoke) offer.anchors).1
    signatureSigningKey := merge (·.kid) s.signatureSigningKey
      (s.acceptedKey offer (.new s.anchors s.revoke) s.issuer s.tenantId).1
    revoke := merge (·.kid) s.revoke
      (s.acceptedRevoke offer (.new s.anchors s.revoke) s.issuer s.tenantId).1
    pendingAnchors := merge (·.kid) s.pendingAnchors
      (s.adoptAnchors (.new s.anchors s.revoke) offer.anchors).2.1
    generatedAt := offer.generatedAt.or s.generatedAt
    refreshAfter := offer.refreshAfter.or s.refreshAfter
    nextRotationAt := offer.nextRotationAt.or s.nextRotationAt }

/-- The set that an enrollment answer makes of another. -/
def anchored (s : KeySet prims) (offer : KeyOffer prims) : KeySet prims where
  keySetVersion := max s.keySetVersion offer.keySetVersion
  issuer := offer.issuer
  tenantId := offer.tenantId
  anchorState := if !s.anchors.isEmpty then s.anchorState else .awaitingConfirmation
  anchors := if !s.anchors.isEmpty then s.anchors else offer.anchors
  signatureSigningKey := merge (·.kid) s.signatureSigningKey
    (s.acceptedKey offer (.new offer.anchors []) offer.issuer offer.tenantId).1
  revoke := merge (·.kid) s.revoke
    (s.acceptedRevoke offer (.new offer.anchors []) offer.issuer offer.tenantId).1
  pendingAnchors := s.pendingAnchors
  generatedAt := offer.generatedAt
  refreshAfter := offer.refreshAfter
  nextRotationAt := offer.nextRotationAt

theorem withRevocationState_eq (s : KeySet prims) :
    s.withRevocationState = { s with anchorState := s.withRevocationState.anchorState } := by
  unfold KeySet.withRevocationState
  split <;> rfl

theorem checkTenant_eq_ok {expected read : String} (h : checkTenant expected read = .ok ()) :
    expected = read := by
  unfold checkTenant at h
  split at h
  · assumption
  · cases h

theorem adopt_eq_ok {a : Adoption prims} (h : s.adopt offer = .ok a) :
    s.anchors ≠ [] ∧ s.keySetVersion ≤ offer.keySetVersion ∧
      a.set = (continued s offer).withRevocationState := by
  simp only [KeySet.adopt, ite_throw_eq_ok, bind_eq_ok, pure_eq_ok] at h
  obtain ⟨hanchors, -, -, -, -, hversion, rfl⟩ := h
  exact ⟨by simpa using hanchors, UInt64.not_lt.mp hversion, rfl⟩

theorem anchor_eq_ok {tenant : Option String} {a : Adoption prims}
    (h : s.anchor offer tenant = .ok a) :
    s.checkAnchoring offer tenant = .ok () ∧ a.set = (anchored s offer).withRevocationState := by
  simp only [KeySet.anchor, bind_eq_ok, pure_eq_ok] at h
  obtain ⟨_, hcheck, rfl⟩ := h
  exact ⟨hcheck, rfl⟩

theorem confirm_eq_ok (h : s.confirm = .ok s') :
    s.anchors ≠ [] ∧ s.anchorState ≠ .revoked ∧ s' = { s with anchorState := .confirmed } := by
  simp only [KeySet.confirm, ite_throw_eq_ok, pure_eq_ok] at h
  obtain ⟨hanchors, hstate, rfl⟩ := h
  exact ⟨by simpa using hanchors, hstate, rfl⟩

end FolderClient.Crypto.Effects
