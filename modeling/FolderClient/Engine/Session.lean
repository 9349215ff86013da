import FolderClient.Core.IdentifierText
import FolderClient.Engine.Port

namespace FolderClient.Engine.Session

open FolderClient.Net.Access
open FolderClient.Core.Namespace FolderClient.Core.IdentifierText FolderClient.Crypto.Jws
open FolderClient.Crypto.Anchoring FolderClient.Crypto.Entries FolderClient.Library.Json
open FolderClient.Storage.Basic FolderClient.Engine.Port
open FolderClient.Engine.Port.SessionRequest (call)

/-- How long before it expires an access token is renewed. -/
def refreshLeadSecond : ℤ := 120

def nameUnknown : String := "Angemeldet"

/-- Who is signed in. -/
structure Identity where
  account : Account
  tenant : String
  displayName : String
  guessed : Bool

def account? (sub : String) : Option Account :=
  if h : accountReason sub = none then some ⟨sub, h⟩ else none

variable (setting : Setting)

def claimsFromJwt (token : String) : Option Members :=
  (compactPayload setting.prims token).toOption

/-- The claims of the `id_token`, else those of the access token, else the device. -/
def fromTokenResponse (response : TokenResponse) (tenantFallback : String) :
    Except EngineError Identity :=
  let claims := (response.idToken.bind (claimsFromJwt setting)).or
    (claimsFromJwt setting response.accessToken)
  let field := fun name ↦ claims.bind fun members ↦ (members.lookup name).bind Value.asStr
  let displayName := ((field "name").or ((field "displayName").or
    (field "preferred_username"))).getD nameUnknown
  let tenant := (field "https://elasticdms.io/tenant").getD tenantFallback
  match (field "sub").bind account? with
  | some account => .ok ⟨account, tenant, displayName, false⟩
  | none =>
    match account? ("device:" ++ display .device setting.device) with
    | some account => .ok ⟨account, tenant, displayName, true⟩
    | none => .error (.internal "the device identifier is no account")

/-- Runs under the lock of the sign-in, which is given back however it ends. -/
def locked {α : Type} (p : SessionFallible α) : SessionFallible α := ExceptT.mk do
  call .lockLogin
  let result ← p.run
  call .unlockLogin
  return result

def readKeySet : SessionFallible (KeySet setting.prims) := do
  match ← store (call (.setting SettingKey.keySet.text)) with
  | none => return .empty
  | some text =>
    match setting.readJson text with
    | none => raise (.error (.internal "the stored key set is not JSON"))
    | some value => crypto (KeySet.fromStorage value)

def writeKeySet (set : KeySet setting.prims) : SessionFallible Unit :=
  store (call (.setSetting .keySet (setting.writeJson set.asStorage)))

/-- How long an access token lasts, in milliseconds of a signed 64-bit number. -/
def lifetime (expiresIn : UInt64) : ℤ :=
  let seconds : ℤ := if expiresIn.toNat < 2 ^ 63 then expiresIn.toNat else (2 ^ 63 - 1) / 1000
  min (2 ^ 63 - 1) (seconds * 1000)

/-- Takes over a token response: first stores the rotation, then uses the access token. -/
def adoptToken (token : TokenResponse) : SessionFallible Unit := do
  if let some refresh := token.refreshToken then
    vault (call (.setRefreshToken refresh token))
  call (.setUserToken token)
  let time ← call .now
  call (.setTokenExpiry (some (time.plusMillis (lifetime token.expiresIn))))
  let set ← readKeySet setting
  let identity ← raise (fromTokenResponse setting token set.tenantId)
  let since ← call .now
  let login : Login := ⟨identity.account, identity.tenant, identity.displayName, since⟩
  store (call (.setSession (.signedIn setting.device login) (some token)))
  store (call (.setSetting .identityGuessed (if identity.guessed then "yes" else "no")))
  if ← call .fileSystem then
    let _ ← call (.placeReady ("elasticdms – " ++ identity.tenant) identity.account.sub)
  call (.setState (.signedIn identity.displayName identity.tenant since true) (some token))

/-- Ends the session without emptying the tree. -/
def sessionStop (reason : String) (eraseSecrets : Bool) : SessionFallible Unit := do
  if eraseSecrets then
    let _ ← call .forgetSession
  call (.setTokenExpiry none)
  store (call .stopSession)
  call (.setState (.loginRequired reason) none)

/-- Renews the session; `false` means that somebody has to sign in anew. -/
def refresh (refreshSecret : String) : SessionFallible Bool := do
  match ← call (.exchangeRefreshToken refreshSecret) with
  | .success token =>
    adoptToken setting token
    return true
  | .networkError (.refreshUncertain reason) =>
    sessionStop (NetworkError.refreshUncertain reason).display false
    return false
  | .networkError error => raise (.error (.noNetwork error.display))
  | .securityAbort notice =>
    sessionStop notice true
    return false
  | other =>
    sessionStop other.reason true
    return false

/-- Whether a usable access token is at hand. -/
def tokenFresh : SessionActivity Bool := do
  match ← call .tokenExpiry with
  | none => return false
  | some expiry =>
    let time ← call .now
    if refreshLeadSecond * 1000 < expiry.unixMillis - time.unixMillis then call .hasUserToken
    else return false

/-- Makes sure a usable access token is at hand; `false` means that nobody is signed in. -/
def ensureForToken : SessionFallible Bool := do
  let session ← store (call .session)
  if ¬ session.any (·.state.carriesLogin) then
    return false
  if ← tokenFresh then
    return true
  locked do
    if ← tokenFresh then
      return true
    match ← vault (call .refreshToken) with
    | none =>
      sessionStop "the session is over; please sign in again" false
      return false
    | some refreshSecret => refresh setting refreshSecret

/-- Renews at once, the answer to a rejected token in mid-operation. -/
def forceRefresh : SessionFallible Bool := do
  call (.setTokenExpiry none)
  ensureForToken setting

/-- The device flow: shows the code and waits. -/
def deviceLogin : SessionFallible Unit := do
  ExceptT.mk (call .newSessionKey)
  let login ← raise ((← call .startDeviceLogin).valueFrom "the sign-in")
  if let .error reason := login.target then
    raise (.error (.security reason))
  call (.setState .loginRuns none)
  match ← raise ((← call (.waitOnToken login)).valueFrom "the sign-in") with
  | .issued token => adoptToken setting token
  | .expired =>
    call (.setState .signedOut none)
    raise (.error (.refused "the code has expired"))
  | .rejected reason =>
    call (.setState .signedOut none)
    raise (.error (.refused (reason.getD "the sign-in was rejected")))

/-- Establishes the session: first renews quietly, otherwise the device flow. -/
def placeSessionFrom : SessionFallible Unit := do
  match ← vault (call .refreshToken) with
  | some refreshSecret =>
    if ← refresh setting refreshSecret then
      return
    deviceLogin setting
  | none => deviceLogin setting

def anchorFromDeviceObject (block : Value) : SessionFallible Unit := do
  let offer ← crypto (KeyOffer.fromJson block)
  let set ← readKeySet setting
  let adoption ← crypto (set.anchor offer none)
  writeKeySet setting adoption.set

/-- The enrolment, when it has not happened yet. -/
def placeDeviceSafe : SessionFallible Unit := do
  if (← store (call (.setting SettingKey.enrolled.text))) = some "yes" then
    return
  match ← call .enrollmentCode with
  | none =>
    call (.setState .enrollmentCodeRequired none)
    raise (.error .enrollmentCodeMissing)
  | some code =>
    if let some block := ← raise ((← call (.registerDevice code)).valueFrom "the enrolment") then
      anchorFromDeviceObject setting block
    store (call (.setSetting .enrolled "yes"))

/-- Fetches the device token; `false` means that the device is waiting for approval. -/
def fetchDeviceToken : SessionFallible Bool := do
  let result ← call .fetchDeviceToken
  match result with
  | .slotError ⟨_, .deviceApprovalPending, _⟩ =>
    let set ← readKeySet setting
    call (.setState (.awaitingApproval set.fingerprint.display) none)
    store (call (.setSession (.awaitingApproval setting.device) none))
    return false
  | _ =>
    let text ← raise (result.valueFrom "the device token")
    call (.setDeviceToken text)
    return true

def confirmAnchor : SessionFallible Unit := do
  let set ← readKeySet setting
  if set.anchors.isEmpty ∨ set.carries then
    return
  let confirmed ← crypto set.confirm
  writeKeySet setting confirmed

/-- Signs in: sets the device up, fetches the device token, establishes the session. -/
def signIn : SessionFallible Unit := locked do
  if ← call .isStopped then
    raise (.error .stopped)
  placeDeviceSafe setting
  if ← fetchDeviceToken setting then
    confirmAnchor setting
    placeSessionFrom setting

/-- The first error of several steps that were all run. -/
def firstError : List (Except EngineError Unit) → Except EngineError Unit
  | [] => .ok ()
  | .error e :: _ => .error e
  | .ok () :: rest => firstError rest

/-- The local part of the sign-out: every step runs, even when one before it fails. -/
def clearAfterSignOut : SessionFallible Unit := do
  call .clearBegins
  let cleared : Except PlatformError Unit ←
    if ← call .fileSystem then call .clearEverything else pure (.ok ())
  let emptied ← call .emptyNamespace
  let signedOut ← call (.setSession (.signedOut setting.device) none)
  let forgotten ← call .forgetSession
  call (.setTokenExpiry none)
  call .signOutCompleted
  raise (firstError [cleared.mapError .platform, emptied.mapError .store,
    signedOut.mapError .store, forgotten.mapError .vault])

/-- Signs out: revokes, clears the mirror, empties the namespace, erases the secrets. -/
def signOut : SessionFallible Unit := locked do
  if let .ok (some refreshSecret) := ← call .refreshToken then
    let _ ← call (.revoke refreshSecret)
  clearAfterSignOut setting

end FolderClient.Engine.Session
