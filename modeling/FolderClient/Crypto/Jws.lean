import FolderClient.Core.Time
import FolderClient.Library.Json
import FolderClient.Library.Results

namespace FolderClient.Crypto.Jws

open FolderClient.Core.Namespace FolderClient.Library.Json FolderClient.Library.Texts

/-- How far the anchor set has come. -/
inductive AnchorState
  | noAnchor
  | awaitingConfirmation
  | confirmed
  | revoked
deriving DecidableEq, Repr

inductive CryptoError
  | random (reason : String)
  | ulidTime (millis : ℤ)
  | jwk (reason : String)
  | jcsNumber (text reason : String)
  | jsonUnreadable (reason : String)
  | base64 (field : String)
  | jwsUnreadable (reason : String)
  | wrongAlgorithm (read : String)
  | wrongTyp (expected read : String)
  | signatureHoldsNot (reason : String)
  | signatureMissing
  | unknownKid (kid : String)
  | roleMismatch (kid expected read : String)
  | selfSigned (kid : String)
  | tenantMismatch (expected read : String)
  | stateReset (stored offered : UInt64)
  | anchorPending (kid : String) (cause : CryptoError)
  | noAnchor
  | fingerprintChanged (expected computed : String)
  | thumbprintMismatch (kid reported computed : String)
  | notAnchored (state : AnchorState)
  | signatureTimeMissing (field : String)
  | notYetValid (kid : String) (timestamp deadline : Timestamp)
  | expired (kid : String) (timestamp deadline : Timestamp)
  | revoked (kid : String)
  | unreadable (what reason : String)

/-- What the procedure takes from elsewhere: base64url without padding, the strict reader and the
canonical form of JSON, SHA-256, and the curve P-256 by the two coordinates of a point. -/
structure Primitives where
  b64u : List UInt8 → String
  fromB64u : String → Option (List UInt8)
  readJson : List UInt8 → Except CryptoError Value
  canonicalize : Value → Except CryptoError (List UInt8)
  sha256 : List UInt8 → List UInt8
  onCurve : List UInt8 → List UInt8 → Bool
  verify : List UInt8 → List UInt8 → List UInt8 → List UInt8 → Except String Unit

def alg : String := "ES256"

def fieldSignature : String := "serverSignature"

def headerMembers : List String := ["alg", "typ", "kid"]

section

variable (prims : Primitives)

def fromB64u (text field : String) : Except CryptoError (List UInt8) :=
  match prims.fromB64u text with
  | some bytes => .ok bytes
  | none => .error (.base64 field)

/-- The number of bytes of a coordinate. -/
def coordinate : ℕ := 32

/-- The public part of a key, by its two coordinates in base64url. -/
structure Jwk where
  x : String
  y : String
deriving DecidableEq

namespace Jwk

def checkCoordinate (name value : String) : Except CryptoError Unit := do
  let bytes ← fromB64u prims value name
  if bytes.length ≠ coordinate then
    throw (.jwk s!"the coordinate {name} has {bytes.length} bytes instead of {coordinate}")

def new (x y : String) : Except CryptoError Jwk := do
  checkCoordinate prims "x" x
  checkCoordinate prims "y" y
  return ⟨x, y⟩

def thumbprint (jwk : Jwk) : String :=
  prims.b64u (prims.sha256 (utf8
    ("\x7b\"crv\":\"P-256\",\"kty\":\"EC\",\"x\":\"" ++ jwk.x ++ "\",\"y\":\"" ++ jwk.y ++ "\"\x7d")))

end Jwk

/-- A key whose point lies on the curve. -/
structure PublicKey where
  x : List UInt8
  y : List UInt8
deriving DecidableEq

namespace PublicKey

def fromJwk (jwk : Jwk) : Except CryptoError PublicKey := do
  let x ← fromB64u prims jwk.x "x"
  if x.length ≠ coordinate then throw (.jwk "the coordinate x does not have 32 bytes")
  let y ← fromB64u prims jwk.y "y"
  if y.length ≠ coordinate then throw (.jwk "the coordinate y does not have 32 bytes")
  if ¬ prims.onCurve x y then throw (.jwk "the point does not lie on P-256")
  return ⟨x, y⟩

def check (key : PublicKey) (data signature : List UInt8) : Except CryptoError Unit :=
  (prims.verify key.x key.y data signature).mapError .signatureHoldsNot

end PublicKey

structure ProtectedHeader where
  alg : String
  typ : String
  kid : String
deriving DecidableEq

/-- A signature `<header>..<signature>` whose payload is the carrier it stands in. -/
structure DetachedSignature where
  headerB64 : String
  header : ProtectedHeader
  signature : List UInt8
deriving DecidableEq

def objectFromB64u (text field : String) : Except CryptoError Members := do
  let bytes ← fromB64u prims text field
  match ← prims.readJson bytes with
  | .object members => return members
  | _ => throw (.jwsUnreadable s!"the {field} is not a JSON object")

def signatureFromB64u (text : String) : Except CryptoError (List UInt8) := do
  let raw ← fromB64u prims text "signature"
  if raw.length ≠ 64 then
    throw (.jwsUnreadable
      s!"the signature has {raw.length} bytes instead of 64; expected is r || s, not DER")
  return raw

namespace DetachedSignature

def read (compact : String) : Except CryptoError DetachedSignature :=
  match split '.' compact with
  | [headerB64, middle, signatureB64] => do
    if middle ≠ "" then
      throw (.jwsUnreadable "the payload of a detached signature is empty; here one stood")
    let header ← objectFromB64u prims headerB64 "header"
    if let some (foreign, _) := header.find? (·.1 ∉ headerMembers) then
      throw (.jwsUnreadable ("the protected header carries the member \"" ++ foreign ++
        "\"; only alg, typ and kid are allowed"))
    let text := fun name ↦ (header.lookup name).bind Value.asStr
    let read := (text "alg").getD ""
    if read ≠ alg then throw (.wrongAlgorithm read)
    match text "typ", text "kid" with
    | some typ, some kid =>
      let signature ← signatureFromB64u prims signatureB64
      return ⟨headerB64, ⟨read, typ, kid⟩, signature⟩
    | _, _ => throw (.jwsUnreadable "the protected header names no typ or no kid")
  | parts => .error (.jwsUnreadable ("a detached signature has the form <header>..<signature>, " ++
      s!"here {parts.length} parts"))

def check (s : DetachedSignature) (expectedType : String) (signedBytes : List UInt8)
    (key : PublicKey) : Except CryptoError Unit :=
  if s.header.typ ≠ expectedType then .error (.wrongTyp expectedType s.header.typ)
  else key.check prims (utf8 (s.headerB64 ++ "." ++ prims.b64u signedBytes)) s.signature

end DetachedSignature

/-- The payload of a compact JWS; its signature is not checked here. -/
def compactPayload (text : String) : Except CryptoError Members :=
  match split '.' text with
  | [headerB64, payloadB64, signatureB64] => do
    let header ← objectFromB64u prims headerB64 "header"
    let read := ((header.lookup "alg").bind Value.asStr).getD ""
    if read ≠ alg then throw (.wrongAlgorithm read)
    let payload ← objectFromB64u prims payloadB64 "payload"
    let _ ← signatureFromB64u prims signatureB64
    return payload
  | parts => .error (.jwsUnreadable s!"{parts.length} parts instead of three")

/-- The canonical form of a carrier without its signature. -/
def signedBytes (carrier : Value) : Except CryptoError (List UInt8) :=
  match carrier.asObject with
  | none => .error (.unreadable "The signed carrier" "it is not a JSON object")
  | some members => prims.canonicalize (.object (members.remove fieldSignature))

def signatureOfTheCarrier (carrier : Value) : Except CryptoError DetachedSignature :=
  match (carrier.get fieldSignature).bind Value.asStr with
  | some compact => DetachedSignature.read prims compact
  | none => .error .signatureMissing

end

end FolderClient.Crypto.Jws
