import FolderClient.Core.IdentifierText
import FolderClient.Crypto.Entries

namespace FolderClient.Crypto.Anchoring

open FolderClient.Core.Namespace FolderClient.Core.Time FolderClient.Core.IdentifierText
open FolderClient.Library.Json FolderClient.Library.Texts
open FolderClient.Crypto.Jws FolderClient.Crypto.Entries

def AnchorState.contractValue : AnchorState → String
  | .noAnchor => "none"
  | .awaitingConfirmation => "pending_confirmation"
  | .confirmed => "confirmed"
  | .revoked => "revoked"

def AnchorState.fromContractValue (value : String) : Option AnchorState :=
  [.noAnchor, .awaitingConfirmation, .confirmed, .revoked].find?
    (AnchorState.contractValue · = value)

def storeVersion : UInt64 := 1

def typKeyStatement : String := "edms-server-key+jwt"

def typRevocation : String := "edms-server-key-revocation+jwt"

def typDeliveryCommand : String := "edms-delivery-command+jwt"

def fieldCommandTime : String := "issuedAt"

variable (prims : Primitives)

/-- The fingerprint of an anchor set; empty without an anchor. -/
structure AnchorFingerprint where
  text : String
deriving DecidableEq

namespace AnchorFingerprint

def fromThumbprint (thumbprints : List String) : AnchorFingerprint :=
  if thumbprints.isEmpty then ⟨""⟩
  else
    let sorted := thumbprints.mergeSort (· ≤ ·)
    ⟨encodeBytes ((prims.sha256 (utf8 ("\n".intercalate sorted))).take 10)⟩

def fromJwks (anchors : List Jwk) : AnchorFingerprint :=
  fromThumbprint prims (anchors.map (Jwk.thumbprint prims))

/-- In groups of four. -/
def display (f : AnchorFingerprint) : String :=
  "-".intercalate ((f.text.toList.toChunks 4).map String.ofList)

def agrees (f other : AnchorFingerprint) : Bool := f.text ≠ "" && f = other

end AnchorFingerprint

/-- The locally held key state. -/
structure KeySet where
  keySetVersion : UInt64
  issuer : String
  tenantId : String
  anchorState : AnchorState
  anchors : List (KeyEntry prims)
  signatureSigningKey : List (KeyEntry prims)
  revoke : List Revocation
  pendingAnchors : List (KeyEntry prims)
  generatedAt : Option Timestamp
  refreshAfter : Option Timestamp
  nextRotationAt : Option Timestamp

/-- The state after an accepted answer, and why single entries of it dropped out. -/
structure Adoption where
  set : KeySet prims
  report : List CryptoError

/-- Checks statements against the anchors of a set. -/
structure AnchorVerifier where
  anchors : List (KeyEntry prims × Option PublicKey)
  revoke : List Revocation

def checkTenant (expected read : String) : Except CryptoError Unit :=
  if expected = read then .ok () else .error (.tenantMismatch expected read)

variable {prims}

namespace AnchorVerifier

def new (anchors : List (KeyEntry prims)) (revoke : List Revocation) : AnchorVerifier prims where
  anchors := (anchors.filter (·.role = .trustAnchor)).map fun a ↦
    (a, (PublicKey.fromJwk prims a.jwk).toOption)
  revoke := revoke

/-- Checks the signature of a carrier that is about the key `affectedKid`. -/
def checkStatement (v : AnchorVerifier prims) (carrier : Value) (affectedKid typ : String) :
    Except CryptoError String := do
  let signature ← signatureOfTheCarrier prims carrier
  let signer := signature.header.kid
  if signer = affectedKid then throw (.selfSigned affectedKid)
  if signature.header.typ ≠ typ then throw (.wrongTyp typ signature.header.typ)
  match v.anchors.find? (·.1.kid = signer) with
  | none => throw (.unknownKid signer)
  | some (_, key) =>
    if v.revoke.any fun w ↦ w.kid = signer && w.reason.retroactive then throw (.revoked signer)
    match key with
    | none => throw (.signatureHoldsNot
        ("the anchor \"" ++ signer ++ "\" has no point on P-256"))
    | some key =>
      let bytes ← signedBytes prims carrier
      signature.check prims typ bytes key
      return signer

def checkKey (v : AnchorVerifier prims) (entry : KeyEntry prims) (role : KeyRole)
    (issuer tenantId : String) : Except CryptoError Unit := do
  if entry.role ≠ role then
    throw (.roleMismatch entry.kid role.contractValue entry.role.contractValue)
  entry.checkThumbprint
  checkTenant issuer entry.issuer
  checkTenant tenantId entry.tenantId
  let _ ← v.checkStatement entry.raw entry.kid typKeyStatement

def checkRevocation (v : AnchorVerifier prims) (revocation : Revocation)
    (issuer tenantId : String) : Except CryptoError Unit := do
  checkTenant issuer revocation.issuer
  checkTenant tenantId revocation.tenantId
  let _ ← v.checkStatement revocation.raw revocation.kid typRevocation

end AnchorVerifier

/-- Union without removal: what is stored stays, what is new is added by its `kid`. -/
def merge {α : Type} (kid : α → String) (stored new : List α) : List α :=
  new.foldl (fun all entry ↦
    if all.any fun a ↦ kid a = kid entry then all else all ++ [entry]) stored

/-- The entries that pass a check, and why the others do not. -/
def accepted {α : Type} (check : α → Except CryptoError Unit) :
    List α → List α × List CryptoError
  | [] => ([], [])
  | entry :: rest =>
    let (passed, report) := accepted check rest
    match check entry with
    | .ok () => (entry :: passed, report)
    | .error e => (passed, e :: report)

namespace KeySet

/-- The state without any key. -/
def empty : KeySet prims where
  keySetVersion := 0
  issuer := ""
  tenantId := ""
  anchorState := .noAnchor
  anchors := []
  signatureSigningKey := []
  revoke := []
  pendingAnchors := []
  generatedAt := none
  refreshAfter := none
  nextRotationAt := none

def fingerprint (s : KeySet prims) : AnchorFingerprint :=
  .fromJwks prims (s.anchors.map (·.jwk))

/-- The stored revocation for a `kid`. -/
def revocationTo (s : KeySet prims) (kid : String) : Option Revocation :=
  s.revoke.find? (·.kid = kid)

def anchorApplies (s : KeySet prims) (kid : String) : Bool :=
  (s.anchors.any fun a ↦ a.kid = kid) && !(s.revocationTo kid).any (·.reason.retroactive)

/-- Sets the state to revoked when no anchor carries any more. -/
def withRevocationState (s : KeySet prims) : KeySet prims :=
  if !s.anchors.isEmpty && !s.anchors.any (fun a ↦ s.anchorApplies a.kid) then
    { s with anchorState := .revoked }
  else s

/-- Whether anything can be checked at all. -/
def carries (s : KeySet prims) : Bool :=
  s.anchorState = .confirmed && s.anchors.any fun a ↦ s.anchorApplies a.kid

def acceptedKey (s : KeySet prims) (offer : KeyOffer prims) (verifier : AnchorVerifier prims)
    (issuer tenantId : String) : List (KeyEntry prims) × List CryptoError :=
  accepted (fun e ↦ verifier.checkKey e .proofSignature issuer tenantId)
    (offer.signatureSigningKey.filter fun e ↦
      !s.signatureSigningKey.any fun g ↦ g.kid = e.kid)

def acceptedRevoke (s : KeySet prims) (offer : KeyOffer prims) (verifier : AnchorVerifier prims)
    (issuer tenantId : String) : List Revocation × List CryptoError :=
  accepted (fun w ↦ verifier.checkRevocation w issuer tenantId)
    (offer.revoke.filter fun w ↦ !s.revoke.any fun g ↦ g.kid = w.kid)

def checkOfferedAnchors (offer : KeyOffer prims) :
    List (KeyEntry prims) → Except CryptoError Unit
  | [] => .ok ()
  | anchor :: rest => do
    if anchor.role ≠ .trustAnchor then
      throw (.roleMismatch anchor.kid KeyRole.trustAnchor.contractValue anchor.role.contractValue)
    if anchor.signerKid = some anchor.kid then throw (.selfSigned anchor.kid)
    anchor.checkThumbprint
    checkTenant offer.issuer anchor.issuer
    checkTenant offer.tenantId anchor.tenantId
    checkOfferedAnchors offer rest

/-- What refuses an enrollment answer as a whole. -/
def checkAnchoring (s : KeySet prims) (offer : KeyOffer prims) (expectedTenant : Option String) :
    Except CryptoError Unit := do
  if let some tenant := expectedTenant then
    checkTenant tenant offer.tenantId
  if offer.anchors.isEmpty then throw .noAnchor
  checkOfferedAnchors offer offer.anchors
  let computed := AnchorFingerprint.fromJwks prims (offer.anchors.map (·.jwk))
  if let some reported := offer.reportedFingerprint then
    if reported ≠ computed.display then
      throw (.fingerprintChanged reported computed.display)
  if !s.anchors.isEmpty then
    if ¬ s.fingerprint.agrees computed then
      throw (.fingerprintChanged s.fingerprint.display computed.display)
    checkTenant s.issuer offer.issuer
    checkTenant s.tenantId offer.tenantId

/-- First anchoring from the enrollment answer; an anchored set is not replaced by another. -/
def anchor (s : KeySet prims) (offer : KeyOffer prims) (expectedTenant : Option String) :
    Except CryptoError (Adoption prims) := do
  s.checkAnchoring offer expectedTenant
  let alreadyAnchored := !s.anchors.isEmpty
  let verifier := AnchorVerifier.new offer.anchors []
  let (newKeys, keyReport) := s.acceptedKey offer verifier offer.issuer offer.tenantId
  let (newRevocations, revocationReport) :=
    s.acceptedRevoke offer verifier offer.issuer offer.tenantId
  let set : KeySet prims :=
    { keySetVersion := max s.keySetVersion offer.keySetVersion
      issuer := offer.issuer
      tenantId := offer.tenantId
      anchorState := if alreadyAnchored then s.anchorState else .awaitingConfirmation
      anchors := if alreadyAnchored then s.anchors else offer.anchors
      signatureSigningKey := merge (·.kid) s.signatureSigningKey newKeys
      revoke := merge (·.kid) s.revoke newRevocations
      pendingAnchors := s.pendingAnchors
      generatedAt := offer.generatedAt
      refreshAfter := offer.refreshAfter
      nextRotationAt := offer.nextRotationAt }
  return ⟨set.withRevocationState, keyReport ++ revocationReport⟩

/-- The confirmation by the administrator. -/
def confirm (s : KeySet prims) : Except CryptoError (KeySet prims) := do
  if s.anchors.isEmpty then throw .noAnchor
  if s.anchorState = .revoked then throw (.notAnchored s.anchorState)
  return { s with anchorState := .confirmed }

/-- What becomes of the offered anchors: those that count, those that wait, and the report. -/
def adoptAnchors (s : KeySet prims) (verifier : AnchorVerifier prims) :
    List (KeyEntry prims) → List (KeyEntry prims) × List (KeyEntry prims) × List CryptoError
  | [] => ([], [], [])
  | anchor :: rest =>
    let (new, pending, report) := s.adoptAnchors verifier rest
    match s.anchors.find? (·.kid = anchor.kid) with
    | some stored =>
      if stored.jwk ≠ anchor.jwk then
        (new, pending,
          .fingerprintChanged (stored.jwk.thumbprint prims) (anchor.jwk.thumbprint prims) :: report)
      else (new, pending, report)
    | none =>
      match verifier.checkKey anchor .trustAnchor s.issuer s.tenantId with
      | .ok () => (anchor :: new, pending, report)
      | .error (.roleMismatch kid expected read) =>
        (new, pending, .roleMismatch kid expected read :: report)
      | .error (.thumbprintMismatch kid reported computed) =>
        (new, pending, .thumbprintMismatch kid reported computed :: report)
      | .error e => (new, anchor :: pending, .anchorPending anchor.kid e :: report)

/-- Continuation from the distribution path, which establishes no trust. -/
def adopt (s : KeySet prims) (offer : KeyOffer prims) : Except CryptoError (Adoption prims) := do
  if s.anchors.isEmpty then throw .noAnchor
  checkTenant s.issuer offer.issuer
  checkTenant s.tenantId offer.tenantId
  if offer.keySetVersion < s.keySetVersion then
    throw (.stateReset s.keySetVersion offer.keySetVersion)
  let verifier := AnchorVerifier.new s.anchors s.revoke
  let (newAnchors, pending, anchorReport) := s.adoptAnchors verifier offer.anchors
  let (newKeys, keyReport) := s.acceptedKey offer verifier s.issuer s.tenantId
  let (newRevocations, revocationReport) := s.acceptedRevoke offer verifier s.issuer s.tenantId
  let set : KeySet prims :=
    { s with
      keySetVersion := offer.keySetVersion
      anchors := merge (·.kid) s.anchors newAnchors
      signatureSigningKey := merge (·.kid) s.signatureSigningKey newKeys
      revoke := merge (·.kid) s.revoke newRevocations
      pendingAnchors := merge (·.kid) s.pendingAnchors pending
      generatedAt := offer.generatedAt.or s.generatedAt
      refreshAfter := offer.refreshAfter.or s.refreshAfter
      nextRotationAt := offer.nextRotationAt.or s.nextRotationAt }
  return ⟨set.withRevocationState, anchorReport ++ keyReport ++ revocationReport⟩

/-- Checks a carrier signed by an evidence key, as of the signing time; yields the signer. -/
def checkCarrier (s : KeySet prims) (carrier : Value) (typ : String) (signatureTime : Timestamp) :
    Except CryptoError String := do
  if ¬ s.carries then throw (.notAnchored s.anchorState)
  let signature ← signatureOfTheCarrier prims carrier
  if signature.header.typ ≠ typ then throw (.wrongTyp typ signature.header.typ)
  let kid := signature.header.kid
  if s.anchors.any fun a ↦ a.kid = kid then
    throw (.roleMismatch kid KeyRole.proofSignature.contractValue KeyRole.trustAnchor.contractValue)
  match s.signatureSigningKey.find? (·.kid = kid) with
  | none => throw (.unknownKid kid)
  | some entry =>
    (AnchorVerifier.new s.anchors s.revoke).checkKey entry .proofSignature s.issuer s.tenantId
    if signatureTime.unixMillis < entry.notBefore.unixMillis then
      throw (.notYetValid kid signatureTime entry.notBefore)
    if entry.notAfter.unixMillis ≤ signatureTime.unixMillis then
      throw (.expired kid signatureTime entry.notAfter)
    if (s.revocationTo kid).any (·.voided signatureTime) then throw (.revoked kid)
    let key ← (PublicKey.fromJwk prims entry.jwk).mapError fun _ ↦
      .signatureHoldsNot ("the key \"" ++ kid ++ "\" has no point on P-256")
    let bytes ← signedBytes prims carrier
    signature.check prims typ bytes key
    return kid

def storedTime : Option Timestamp → Value
  | none => .null
  | some t => .string (rfc3339 t)

/-- The local store: every entry in its raw form. -/
def asStorage (s : KeySet prims) : Value :=
  .object
    [("version", .number (.posInt storeVersion)),
      ("keySetVersion", .number (.posInt s.keySetVersion)),
      ("issuer", .string s.issuer),
      ("tenantId", .string s.tenantId),
      ("anchorState", .string (AnchorState.contractValue s.anchorState)),
      ("trustAnchors", .array (s.anchors.map (·.raw))),
      ("signingKeys", .array (s.signatureSigningKey.map (·.raw))),
      ("revocations", .array (s.revoke.map (·.raw))),
      ("pendingAnchors", .array (s.pendingAnchors.map (·.raw))),
      ("generatedAt", storedTime s.generatedAt),
      ("refreshAfter", storedTime s.refreshAfter),
      ("nextRotationAt", storedTime s.nextRotationAt)]

section Storage

def unreadableStorage (reason : String) : CryptoError :=
  .unreadable "The store of the key set" reason

variable (object : Members) (name : String)

def storageText : Except CryptoError String :=
  match text object name with
  | some t => .ok t
  | none => .error (unreadableStorage (name ++ " is missing"))

def storageList : Except CryptoError (List Value) :=
  match (object.lookup name).bind Value.asArray with
  | some l => .ok l
  | none => .error (unreadableStorage (name ++ " is missing"))

def storageKey : Except CryptoError (List (KeyEntry prims)) := do
  (← storageList object name).mapM KeyEntry.fromJson

def storageTime : Except CryptoError (Option Timestamp) :=
  match object.lookup name with
  | none | some .null => .ok none
  | some (.string t) =>
    match fromRfc3339 t with
    | .ok time => .ok (some time)
    | .error e => .error (unreadableStorage e.display)
  | some _ => .error (unreadableStorage (name ++ " is no point in time"))

end Storage

/-- Reads the local store; an unreadable entry is an error. -/
def fromStorage (storage : Value) : Except CryptoError (KeySet prims) := do
  match storage.asObject with
  | none => throw (unreadableStorage "it is not a JSON object")
  | some object =>
    if (object.lookup "version").bind Value.asU64 ≠ some storeVersion then
      throw (unreadableStorage "the version is unknown")
    let state ← storageText object "anchorState"
    match (object.lookup "keySetVersion").bind Value.asU64 with
    | none => throw (unreadableStorage "keySetVersion is missing")
    | some keySetVersion =>
      let issuer ← storageText object "issuer"
      let tenantId ← storageText object "tenantId"
      match AnchorState.fromContractValue state with
      | none => throw (unreadableStorage "anchorState is unknown")
      | some anchorState =>
        let anchors ← storageKey object "trustAnchors"
        let signatureSigningKey ← storageKey object "signingKeys"
        let revoke ← (← storageList object "revocations").mapM Revocation.fromJson
        let pendingAnchors ← storageKey object "pendingAnchors"
        let generatedAt ← storageTime object "generatedAt"
        let refreshAfter ← storageTime object "refreshAfter"
        let nextRotationAt ← storageTime object "nextRotationAt"
        return ⟨keySetVersion, issuer, tenantId, anchorState, anchors, signatureSigningKey, revoke,
          pendingAnchors, generatedAt, refreshAfter, nextRotationAt⟩

end KeySet

/-- Checks the signature of a delivery command against the anchored set. -/
def checkCommandSignature (command : Value) (set : KeySet prims) : Except CryptoError Unit := do
  if ¬ set.carries then throw (.notAnchored set.anchorState)
  match ((command.get fieldCommandTime).bind Value.asStr).bind fun t ↦ (fromRfc3339 t).toOption with
  | none => throw (.signatureTimeMissing fieldCommandTime)
  | some timestamp =>
    let _ ← set.checkCarrier command typDeliveryCommand timestamp

end FolderClient.Crypto.Anchoring
