import FolderClient.Crypto.Jws

namespace FolderClient.Crypto.Entries

open FolderClient.Core.Namespace FolderClient.Core.Time FolderClient.Library.Json
open FolderClient.Library.Texts FolderClient.Crypto.Jws

/-- The two roles, never in one key. -/
inductive KeyRole
  | trustAnchor
  | proofSignature
deriving DecidableEq, Repr

namespace KeyRole

def contractValue : KeyRole → String
  | trustAnchor => "trust-anchor"
  | proofSignature => "evidence-signing"

def fromContractValue (value : String) : Option KeyRole :=
  [trustAnchor, proofSignature].find? (·.contractValue = value)

end KeyRole

inductive RevocationReason
  | keyCompromised
  | anchorCompromised
  | precautionary
  | superseded
  | outOfService
deriving DecidableEq, Repr

namespace RevocationReason

def contractValue : RevocationReason → String
  | keyCompromised => "key_compromise"
  | anchorCompromised => "anchor_compromise"
  | precautionary => "precaution"
  | superseded => "superseded"
  | outOfService => "cessation_of_operation"

def fromContractValue (value : String) : Option RevocationReason :=
  [keyCompromised, anchorCompromised, precautionary, superseded, outOfService].find?
    (·.contractValue = value)

/-- Whether signatures already made lose their effect. -/
def retroactive : RevocationReason → Bool
  | keyCompromised | anchorCompromised | precautionary => true
  | superseded | outOfService => false

end RevocationReason

section Fields

variable (object : Members) (name what : String)

def text : Option String := (object.lookup name).bind Value.asStr

def required : Except CryptoError String :=
  match text object name with
  | some t => .ok t
  | none => .error (.unreadable what ("the field \"" ++ name ++ "\" is missing or is not a string"))

def textOptional : Except CryptoError (Option String) :=
  match object.lookup name with
  | none | some .null => .ok none
  | some (.string t) => .ok (some t)
  | some _ => .error (.unreadable what ("the field \"" ++ name ++ "\" is not a string"))

def readTime (value : String) : Except CryptoError Timestamp :=
  (fromRfc3339 value).mapError fun e ↦ .unreadable what e.display

def timestamp : Except CryptoError Timestamp := do
  readTime what (← required object name what)

def timestampOptional : Except CryptoError (Option Timestamp) := do
  match ← textOptional object name what with
  | none => return none
  | some value => return some (← readTime what value)

def integerOptional : Except CryptoError (Option UInt64) :=
  match object.lookup name with
  | none | some .null => .ok none
  | some value =>
    match value.asU64 with
    | some n => .ok (some n)
    | none => .error (.unreadable what
        ("the field \"" ++ name ++ "\" is not a non-negative whole number"))

def signatureFieldCheck : Except CryptoError Unit :=
  match object.lookup fieldSignature with
  | none | some .null | some (.string _) => .ok ()
  | some _ => .error (.unreadable what "serverSignature is neither null nor a string")

end Fields

variable (prims : Primitives)

structure KeyFields where
  kid : String
  role : KeyRole
  jwk : Jwk
  issuer : String
  tenantId : String
  notBefore : Timestamp
  notAfter : Timestamp
  keySetVersion : Option UInt64
  supersedes : Option String
  thumbprint : Option String

/-- The name of a field and the only value that counts in it. -/
def checkFixed (object : Members) (kid what : String) :
    List (String × String) → Except CryptoError Unit
  | [] => .ok ()
  | (name, expected) :: rest =>
    if text object name ≠ some expected then
      .error (.unreadable what ("\"" ++ kid ++ "\" names " ++ name ++ " " ++
        quoted (text object name) ++ "; in the procedure only " ++ expected ++ " counts"))
    else checkFixed object kid what rest

def readKey (entry : Value) : Except CryptoError KeyFields := do
  let what := "A key entry"
  match entry.asObject with
  | none => throw (.unreadable what "it is not a JSON object")
  | some object =>
    let kid ← required object "kid" what
    checkFixed object kid what [("kty", "EC"), ("crv", "P-256"), ("alg", alg)]
    let x ← required object "x" what
    let y ← required object "y" what
    let jwk ← Jwk.new prims x y
    let roleText ← required object "role" what
    match KeyRole.fromContractValue roleText with
    | none => throw (.unreadable what
        ("\"" ++ kid ++ "\" names the unknown role \"" ++ roleText ++ "\""))
    | some role =>
      let notBefore ← timestamp object "notBefore" what
      let notAfter ← timestamp object "notAfter" what
      if notAfter.unixMillis ≤ notBefore.unixMillis then
        throw (.unreadable what ("\"" ++ kid ++ "\" has an empty validity window"))
      signatureFieldCheck object what
      let issuer ← required object "issuer" what
      let tenantId ← required object "tenantId" what
      let keySetVersion ← integerOptional object "keySetVersion" what
      let supersedes ← textOptional object "supersedes" what
      let thumbprint ← textOptional object "thumbprint" what
      return ⟨kid, role, jwk, issuer, tenantId, notBefore, notAfter, keySetVersion, supersedes,
        thumbprint⟩

/-- A key entry as it arrived, with what was read from it. -/
structure KeyEntry extends KeyFields where
  raw : Value
  read : readKey prims raw = .ok toKeyFields

namespace KeyEntry

variable {prims}

def fromJson (entry : Value) : Except CryptoError (KeyEntry prims) :=
  match h : readKey prims entry with
  | .ok fields => .ok ⟨fields, entry, h⟩
  | .error e => .error e

theorem fromJson_raw (e : KeyEntry prims) : fromJson e.raw = .ok e := by
  obtain ⟨fields, raw, read⟩ := e
  unfold fromJson
  split
  · rename_i fields' h
    have hf : fields' = fields := by simpa [h] using read
    subst hf
    rfl
  · rename_i h
    simp [h] at read

def checkThumbprint (e : KeyEntry prims) : Except CryptoError Unit :=
  match e.thumbprint with
  | some reported =>
    if reported ≠ e.jwk.thumbprint prims then
      .error (.thumbprintMismatch e.kid reported (e.jwk.thumbprint prims))
    else .ok ()
  | none => .ok ()

def signerKid (e : KeyEntry prims) : Option String :=
  (signatureOfTheCarrier prims e.raw).toOption.map (·.header.kid)

end KeyEntry

structure RevocationFields where
  kid : String
  role : Option KeyRole
  issuer : String
  tenantId : String
  revokedAt : Timestamp
  compromisedSince : Option Timestamp
  reason : RevocationReason
  keySetVersion : Option UInt64

def readRole (what : String) : Option String → Except CryptoError (Option KeyRole)
  | none => .ok none
  | some value =>
    match KeyRole.fromContractValue value with
    | some role => .ok (some role)
    | none => .error (.unreadable what ("the role \"" ++ value ++ "\" is unknown"))

def readRevocation (entry : Value) : Except CryptoError RevocationFields := do
  let what := "A revocation entry"
  match entry.asObject with
  | none => throw (.unreadable what "it is not a JSON object")
  | some object =>
    let kid ← required object "kid" what
    let reasonText ← required object "reason" what
    match RevocationReason.fromContractValue reasonText with
    | none => throw (.unreadable what ("the reason \"" ++ reasonText ++ "\" is unknown"))
    | some reason =>
      let role ← readRole what (← textOptional object "role" what)
      signatureFieldCheck object what
      let issuer ← required object "issuer" what
      let tenantId ← required object "tenantId" what
      let revokedAt ← timestamp object "revokedAt" what
      let compromisedSince ← timestampOptional object "compromisedSince" what
      let keySetVersion ← integerOptional object "keySetVersion" what
      return ⟨kid, role, issuer, tenantId, revokedAt, compromisedSince, reason, keySetVersion⟩

/-- A revocation as it arrived, with what was read from it. -/
structure Revocation extends RevocationFields where
  raw : Value
  read : readRevocation raw = .ok toRevocationFields

namespace Revocation

def fromJson (entry : Value) : Except CryptoError Revocation :=
  match h : readRevocation entry with
  | .ok fields => .ok ⟨fields, entry, h⟩
  | .error e => .error e

theorem fromJson_raw (w : Revocation) : fromJson w.raw = .ok w := by
  obtain ⟨fields, raw, read⟩ := w
  unfold fromJson
  split
  · rename_i fields' h
    have hf : fields' = fields := by simpa [h] using read
    subst hf
    rfl
  · rename_i h
    simp [h] at read

/-- Whether a signature made at that time loses its effect: planned reasons void nothing, a
suspicion voids from its time on, and one without a time voids everything. -/
def voided (w : Revocation) (signatureTime : Timestamp) : Bool :=
  match w.reason.retroactive, w.compromisedSince with
  | false, _ => false
  | true, none => true
  | true, some since => since.unixMillis ≤ signatureTime.unixMillis

end Revocation

/-- What the server offers, as read; whether a state comes of it is decided elsewhere. -/
structure KeyOffer where
  keySetVersion : UInt64
  issuer : String
  tenantId : String
  reportedFingerprint : Option String
  anchors : List (KeyEntry prims)
  signatureSigningKey : List (KeyEntry prims)
  revoke : List Revocation
  generatedAt : Option Timestamp
  refreshAfter : Option Timestamp
  nextRotationAt : Option Timestamp
  unreadable : List CryptoError

/-- The entries that can be read, and why the others cannot. -/
def readable {α : Type} (read : Value → Except CryptoError α) :
    List Value → List α × List CryptoError
  | [] => ([], [])
  | value :: rest =>
    let (entries, unreadable) := readable read rest
    match read value with
    | .ok a => (a :: entries, unreadable)
    | .error e => (entries, e :: unreadable)

def listField (object : Members) (name what : String) : Except CryptoError (List Value) :=
  match object.lookup name with
  | none | some .null => .ok []
  | some (.array values) => .ok values
  | some _ => .error (.unreadable what (name ++ " is not a list"))

namespace KeyOffer

variable {prims}

def fromJson (block : Value) : Except CryptoError (KeyOffer prims) := do
  let what := "The serverKeys block"
  match block.asObject with
  | none => throw (.unreadable what "it is not a JSON object")
  | some object =>
    match (object.lookup "keySetVersion").bind Value.asU64 with
    | none => throw (.unreadable what "keySetVersion is missing or is not a whole number")
    | some keySetVersion =>
      let (anchors, unreadableAnchors) :=
        readable KeyEntry.fromJson (← listField object "trustAnchors" what)
      let (signatureSigningKey, unreadableKeys) :=
        readable KeyEntry.fromJson (← listField object "signingKeys" what)
      let (revoke, unreadableRevocations) :=
        readable Revocation.fromJson (← listField object "revocations" what)
      let issuer ← required object "issuer" what
      let tenantId ← required object "tenantId" what
      let reportedFingerprint ← textOptional object "anchorSetFingerprint" what
      let generatedAt ← timestampOptional object "generatedAt" what
      let refreshAfter ← timestampOptional object "refreshAfter" what
      let nextRotationAt ← timestampOptional object "nextRotationAt" what
      return ⟨keySetVersion, issuer, tenantId, reportedFingerprint, anchors, signatureSigningKey,
        revoke, generatedAt, refreshAfter, nextRotationAt,
        unreadableAnchors ++ unreadableKeys ++ unreadableRevocations⟩

end KeyOffer

end FolderClient.Crypto.Entries
