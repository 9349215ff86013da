import FolderClient.Core.Listing
import FolderClient.Crypto.Anchoring
import FolderClient.Engine.Transfers
import FolderClient.Library.Programs
import FolderClient.Storage.Delivery
import FolderClient.Storage.Namespace
import FolderClient.Wire.Delivery

namespace FolderClient.Engine.Port

open FolderClient.Core.Namespace FolderClient.Core.Changes FolderClient.Core.Delivery
open FolderClient.Core.Listing FolderClient.Core.Log FolderClient.Crypto.Jws
open FolderClient.Engine.Transfers FolderClient.Library.Json FolderClient.Library.Programs
open FolderClient.Net.Access FolderClient.Storage.Basic FolderClient.Storage.Delivery
open FolderClient.Wire.Delivery

inductive VaultError
  | notReachable (reason : String)
  | denied (reason : String)
  | corrupt (slot reason : String)

/-- Why the platform could not carry out an order. -/
inductive PlatformError
  | notReadyPosed
  | notFound (entry : EntryIdentifier)
  | inUse (entry : EntryIdentifier)
  | operatingSystem (code : ℤ) (text : String)
  | notSupported (what : String)
deriving DecidableEq

inductive EngineError
  | vault (error : VaultError)
  | store (error : StoreError)
  | crypto (error : CryptoError)
  | directory (path reason : String)
  | stopped
  | enrollmentCodeMissing
  | refused (reason : String)
  | sessionExpired (reason : String)
  | noNetwork (reason : String)
  | security (reason : String)
  | platform (error : PlatformError)
  | internal (reason : String)

end FolderClient.Engine.Port

namespace FolderClient.Net.Access.ApiResult

open FolderClient.Engine.Port

/-- The value of an answer, or the error the engine goes on with. -/
def valueFrom {α : Type} (result : ApiResult α) (what : String) : Except EngineError α :=
  match result with
  | .success value => .ok value
  | .unchanged _ => .error (.internal
      ("the server answered " ++ what ++ " with 304 although no state was sent along"))
  | .networkError _ => .error (.noNetwork result.reason)
  | .securityAbort notice => .error (.security notice)
  | .slotError _ | .stepUpNeeded =>
    if result.isExpired then .error (.sessionExpired result.reason)
    else .error (.refused (what ++ ": " ++ result.reason))

theorem valueFrom_eq_ok {α : Type} {result : ApiResult α} {what : String} {a : α}
    (h : result.valueFrom what = .ok a) : result = .success a := by
  cases result with
  | success value => exact congrArg ApiResult.success (Except.ok.inj h)
  | slotError | stepUpNeeded =>
    simp only [ApiResult.valueFrom] at h
    split at h <;> cases h
  | _ => cases h

end FolderClient.Net.Access.ApiResult

namespace FolderClient.Engine.Port

open FolderClient.Core.Namespace FolderClient.Core.Changes FolderClient.Core.Delivery
open FolderClient.Core.Listing FolderClient.Core.Log FolderClient.Crypto.Jws
open FolderClient.Engine.Transfers FolderClient.Library.Json FolderClient.Library.Programs
open FolderClient.Net.Access FolderClient.Storage.Basic FolderClient.Storage.Delivery
open FolderClient.Wire.Delivery

/-- A begun device flow: where the browser is to go, or why it must not. -/
structure DeviceLogin where
  target : Except String String
  begun : ℕ

inductive LoginOutcome
  | issued (token : TokenResponse)
  | expired
  | rejected (reason : Option String)

inductive AcknowledgementOutcome
  | accepted
  | alreadyAcknowledged

inductive EngineState
  | starting
  | enrollmentCodeRequired
  | awaitingApproval (fingerprint : String)
  | signedOut
  | loginRuns
  | signedIn (displayName tenant : String) (since : Timestamp) (connected : Bool)
  | loginRequired (reason : String)
  | stopped
deriving DecidableEq

/-- How an entry stands locally. -/
structure LocalState where
  present : Bool := false
  hydrated : Bool := false
  pinned : Bool := false
deriving DecidableEq

/-- A page of a listing; `token` is the one it was asked for with. -/
structure Page where
  items : List Value
  continuation : Option String
  etag : Option String
  totalCapped : Bool
  displayLimit : UInt64
  refineUrl : Option String

/-- The key of the cursor last confirmed. -/
def settingCursor : String := "delivery.cursor"

/-- The settings the session writes. -/
inductive SettingKey
  | keySet
  | enrolled
  | identityGuessed
deriving DecidableEq

def SettingKey.text : SettingKey → String
  | keySet => "key-set"
  | enrolled => "device.enrolled"
  | identityGuessed => "session.identity-guessed"

/-- What the session asks for: the store, the vault, the memory, the clock and the server. -/
inductive SessionRequest
  | setting (key : String)
  | setSetting (key : SettingKey) (value : String)
  | session
  | setSession (session : Session) (token : Option TokenResponse)
  | stopSession
  | emptyNamespace
  | refreshToken
  | setRefreshToken (text : String) (token : TokenResponse)
  | newSessionKey
  | forgetSession
  | setUserToken (token : TokenResponse)
  | hasUserToken
  | setDeviceToken (text : String)
  | tokenExpiry
  | setTokenExpiry (expiry : Option Timestamp)
  | state
  | setState (state : EngineState) (token : Option TokenResponse)
  | clearBegins
  | signOutCompleted
  | isStopped
  | enrollmentCode
  | lockLogin
  | unlockLogin
  | now
  | registerDevice (code : String)
  | fetchDeviceToken
  | fetchServerKey
  | exchangeRefreshToken (text : String)
  | startDeviceLogin
  | waitOnToken (login : DeviceLogin)
  | revoke (text : String)
  | fileSystem
  | clearEverything
  | placeReady (displayName account : String)

abbrev SessionAnswer : SessionRequest → Type
  | .setting _ => Except StoreError (Option String)
  | .setSetting _ _ | .setSession _ _ | .stopSession | .emptyNamespace => Except StoreError Unit
  | .session => Except StoreError (Option Session)
  | .refreshToken => Except VaultError (Option String)
  | .setRefreshToken _ _ | .forgetSession => Except VaultError Unit
  | .newSessionKey => Except EngineError Unit
  | .setUserToken _ | .setDeviceToken _ | .setTokenExpiry _ | .setState _ _ | .clearBegins
  | .signOutCompleted | .lockLogin | .unlockLogin => Unit
  | .state => EngineState
  | .hasUserToken | .isStopped | .fileSystem | .revoke _ => Bool
  | .tokenExpiry => Option Timestamp
  | .enrollmentCode => Option String
  | .now => Timestamp
  | .registerDevice _ => ApiResult (Option Value)
  | .fetchDeviceToken => ApiResult String
  | .fetchServerKey => ApiResult Value
  | .exchangeRefreshToken _ => ApiResult TokenResponse
  | .startDeviceLogin => ApiResult DeviceLogin
  | .waitOnToken _ => ApiResult LoginOutcome
  | .clearEverything | .placeReady _ _ => Except PlatformError Unit

/-- What the reconcile asks for besides: listings and their way into the store. -/
inductive ReconcileRequest
  | session (request : SessionRequest)
  | containerState (container : Container)
  | alreadyFetched
  | listPage (container : Container) (cursor knownEtag : Option String)
  | replaceContainer (container : Container) (entries : List Entry) (state : ContainerState)
      (tokens : List TokenResponse)
  | updateContainerState (container : Container) (state : ContainerState)
      (tokens : List TokenResponse)
  | reportChange (changes : List Change)
  | joinReconciles (containers : List Container)

abbrev ReconcileAnswer : ReconcileRequest → Type
  | .session request => SessionAnswer request
  | .containerState _ => Except StoreError (Option ContainerState)
  | .alreadyFetched => Except StoreError (List Container)
  | .listPage _ _ _ => ApiResult Page × Option TokenResponse
  | .replaceContainer _ _ _ _ => Except StoreError (List JournalEntry)
  | .updateContainerState _ _ _ => Except StoreError Unit
  | .reportChange _ => Except PlatformError Unit
  | .joinReconciles _ => Except EngineError Unit

/-- What a command asks for besides while it is executed: placements and the platform. -/
inductive CommandRequest
  | reconcile (request : ReconcileRequest)
  | placements (document : DocumentIdentifier)
  | removeDocumentEverywhere (document : DocumentIdentifier) (now : Timestamp)
  | redact (document : DocumentIdentifier)
  | spawnReconciles (containers : List Container)
  | platformState (entry : EntryIdentifier)
  | platformDehydrate (entry : EntryIdentifier) (unpin : Bool)
  | platformRemove (entry : EntryIdentifier)
  | runBegins (command : CommandIdentifier) (order : Command)

abbrev CommandAnswer : CommandRequest → Type
  | .reconcile request => ReconcileAnswer request
  | .placements _ => Except StoreError (List EntryIdentifier)
  | .removeDocumentEverywhere _ _ => Except StoreError (List JournalEntry)
  | .redact _ => Except StoreError Unit
  | .spawnReconciles _ | .runBegins _ _ => Unit
  | .platformState _ => Except PlatformError LocalState
  | .platformDehydrate _ _ | .platformRemove _ => Except PlatformError Unit

/-- What the delivery channel asks for besides: pages, accepted commands and acknowledgements; and
what the platform's calls ask for. -/
inductive Request
  | command (request : CommandRequest)
  | source (request : SourceRequest)
  | setCursor (value : String)
  | deleteCursor
  | openAcknowledgement
  | acceptCommand (command : CommandIdentifier) (received : Timestamp)
  | setOutcome (command : CommandIdentifier) (outcome : CommandOutcome)
  | markAcknowledged (command : CommandIdentifier)
  | hasDeviceToken
  | idempotencyKey
  | deviceStatus
  | deliveryCollect (wait : ℕ) (cursor : Option String)
  | acknowledge (command : CommandIdentifier) (outcome : CommandOutcome)

abbrev Answer : Request → Type
  | .command request => CommandAnswer request
  | .source request => SourceAnswer request
  | .setCursor _ | .setOutcome _ _ | .markAcknowledged _ => Except StoreError Unit
  | .deleteCursor => Except StoreError Bool
  | .openAcknowledgement => Except StoreError (List CommandState)
  | .acceptCommand _ _ => Except StoreError Acceptance
  | .hasDeviceToken => Bool
  | .idempotencyKey => Except EngineError Unit
  | .deviceStatus => ApiResult (Option UInt64)
  | .deliveryCollect _ _ => ApiResult DeliveryPage
  | .acknowledge _ _ => ApiResult AcknowledgementOutcome

abbrev SessionActivity (α : Type) := Program SessionRequest SessionAnswer α

abbrev ReconcileActivity (α : Type) := Program ReconcileRequest ReconcileAnswer α

abbrev CommandActivity (α : Type) := Program CommandRequest CommandAnswer α

abbrev Activity (α : Type) := Program Request Answer α

def SessionRequest.call (r : SessionRequest) : SessionActivity (SessionAnswer r) := Program.call r

def ReconcileRequest.call (r : ReconcileRequest) : ReconcileActivity (ReconcileAnswer r) :=
  Program.call r

def CommandRequest.call (r : CommandRequest) : CommandActivity (CommandAnswer r) :=
  Program.call r

def Request.call (r : Request) : Activity (Answer r) := Program.call r

section Fallible

variable {R : Type} {A : R → Type} {α : Type}

/-- Steps whose error ends the function. -/
abbrev Fallible (R : Type) (A : R → Type) (α : Type) := ExceptT EngineError (Program R A) α

/-- A call to the store, whose error ends the function. -/
def store (p : Program R A (Except StoreError α)) : Fallible R A α :=
  ExceptT.mk (p >>= fun r ↦ pure (r.mapError .store))

def vault (p : Program R A (Except VaultError α)) : Fallible R A α :=
  ExceptT.mk (p >>= fun r ↦ pure (r.mapError .vault))

def raise (r : Except EngineError α) : Fallible R A α := ExceptT.mk (pure r)

def crypto (r : Except CryptoError α) : Fallible R A α := raise (r.mapError .crypto)

/-- The outcome of a step whose error does not end the function. -/
def attempt (p : Fallible R A α) : Fallible R A (Except EngineError α) :=
  ExceptT.mk (p.run >>= fun r ↦ pure (.ok r))

end Fallible

abbrev SessionFallible (α : Type) := Fallible SessionRequest SessionAnswer α

abbrev ReconcileFallible (α : Type) := Fallible ReconcileRequest ReconcileAnswer α

/-- Steps of the session within the reconcile. -/
def ofSession {α : Type} (p : SessionFallible α) : ReconcileFallible α :=
  ExceptT.mk (p.run.embed .session)

/-- Steps of the reconcile within a command. -/
def ofReconcile {α : Type} (p : ReconcileFallible α) : CommandActivity (Except EngineError α) :=
  p.run.embed .reconcile

/-- What the engine is set up with, and what it takes from elsewhere: the texts of JSON, of errors
and of hints, the checksum, and the entries of a listing under their names. -/
structure Setting where
  prims : Primitives
  unicode : Unicode
  device : DeviceIdentifier
  language : Language
  texts : HintTexts
  writeJson : Value → String
  readJson : String → Option Value
  sha256 : List UInt8 → Sha256Value
  describe : EngineError → String
  entries : Container → List Value → Option TruncationState → List Entry

namespace Setting

/-- The fixed children of the root. -/
def rootEntries (setting : Setting) : List Entry :=
  Core.Listing.rootEntries setting.texts setting.language

end Setting

/-- What the memory of the process holds, and which activities are clearing up after a sign-out. -/
structure Memory where
  sessionKey : ℕ
  userToken : Option TokenResponse
  deviceToken : Option String
  tokenExpiry : Option Timestamp
  state : EngineState
  stopped : Bool
  lock : Option ℕ
  clearing : List ℕ

/-- An answered request for a page of a listing. -/
structure PageAnswer where
  container : Container
  cursor : Option String
  page : Page
  token : Option TokenResponse

/-- A write of a listing or, without entries, of its confirmation. -/
structure Written where
  container : Container
  entries : List Entry
  state : ContainerState
  tokens : List TokenResponse
  confirms : Bool

/-- A listing shown to the platform; `fetched` says whether one was stored for the container since
the namespace was last emptied. -/
structure Shown where
  container : Container
  entries : List Entry
  fetched : Bool

/-- A step of the platform towards letting an entry go. -/
inductive Release
  | dehydrated (entry : EntryIdentifier)
  | removed (entry : EntryIdentifier)
  | absent (entry : EntryIdentifier)
deriving DecidableEq

/-- The first run of a command, with the places its documents had. -/
structure FirstRun where
  command : CommandIdentifier
  order : Command
  places : List EntryIdentifier

/-- What has happened, of which the code itself keeps no account: how often a sign-out was
completed, the pages answered, what was written since the namespace was last emptied, who signed
in last, which commands were acknowledged, whether the commands of a page are being worked on, and
what the commands that ran have achieved; how many session keys there were, which of them the
stored refresh token is bound to, which refresh tokens were stored, and for which of them the
outcome of an exchange is open; and what the platform was shown. -/
structure History where
  signOuts : ℕ := 0
  pages : List PageAnswer := []
  written : List Written := []
  account : Option Account := none
  acknowledged : List CommandIdentifier := []
  inHand : Bool := false
  firstRuns : List FirstRun := []
  running : Option CommandIdentifier := none
  released : List (CommandIdentifier × Release) := []
  keys : ℕ := 1
  refreshKey : Option ℕ := none
  vaulted : List String := []
  exposed : List String := []
  shown : List Shown := []

/-- The state around the programs: what lasts (the vault with the refresh token and the number of
the session key, and the scratch files left behind), what a restart loses, and what has happened. -/
structure World where
  store : Store
  refreshToken : Option String
  sessionKey : Option ℕ
  left : List (EntryIdentifier × List UInt8)
  handling : ℕ → Handling
  memory : Memory
  history : History

def emptyMemory (key : ℕ) (state : EngineState) : Memory where
  sessionKey := key
  userToken := none
  deviceToken := none
  tokenExpiry := none
  state := state
  stopped := false
  lock := none
  clearing := []

/-- The state the engine starts with, read from the session row. -/
def stateOnStart (session : Option Session) (fingerprint : String) : EngineState :=
  match session with
  | none => .signedOut
  | some session =>
    match session.state with
    | .signedOut => .signedOut
    | .awaitingApproval => .awaitingApproval fingerprint
    | .signedIn =>
      match session.login with
      | some login => .signedIn login.displayName login.tenant login.signedInSince false
      | none => .signedOut
    | .loginRequired => .loginRequired "The session has ended; please sign in again."

namespace World

/-- A freshly set-up device: nobody is signed in, and the first session key is stored. -/
def setUp (device : DeviceIdentifier) (n limit : ℕ) : World where
  store := { Store.setUp n limit with session := some (.signedOut device) }
  refreshToken := none
  sessionKey := some 0
  left := []
  handling _ := {}
  memory := emptyMemory 0 .signedOut
  history := {}

/-- A later start: the session key is loaded or generated anew, the scratch area is cleared. -/
def restart (w : World) (fingerprint : String) : World :=
  { w with
    sessionKey := some (w.sessionKey.getD w.history.keys)
    left := []
    handling := fun _ ↦ {}
    memory := emptyMemory (w.sessionKey.getD w.history.keys)
      (stateOnStart w.store.session fingerprint)
    history :=
      { w.history with
        inHand := false
        running := none
        keys := if w.sessionKey.isSome then w.history.keys else w.history.keys + 1 } }

def withMemory (w : World) (f : Memory → Memory) : World := { w with memory := f w.memory }

def noting (w : World) (f : History → History) : World := { w with history := f w.history }

def withHandling (w : World) (i : ℕ) (h : Handling) : World :=
  { w with handling := Function.update w.handling i h }

@[simp] theorem handling_withHandling (w : World) (i : ℕ) (h : Handling) :
    (w.withHandling i h).handling i = h := Function.update_self ..

/-- A delivery that is over; a scratch file that was not removed is left behind. -/
def leaveHandling (w : World) (i : ℕ) : World :=
  { w.withHandling i {} with
    left := w.left ++ ((w.handling i).identifier.toList.flatMap fun identifier ↦
      (w.handling i).scratch.toList.map (identifier, ·)) }

/-- The vault with the next session key. -/
def withNewKey (w : World) : World :=
  { w.noting fun h ↦ { h with keys := h.keys + 1 } with sessionKey := some w.history.keys }

/-- The vault with another refresh token, bound to the key of its exchange. -/
def withRefreshToken (w : World) (text : String) (key : ℕ) : World :=
  { w.noting fun h ↦ { h with refreshKey := some key, vaulted := h.vaulted ++ [text] } with
    refreshToken := some text }

/-- The session forgotten, up to what the vault still holds. -/
def forgotten (w : World) (key : Option ℕ) (refresh : Option String) : World :=
  { w.withMemory fun m ↦ { m with userToken := none, deviceToken := none } with
    sessionKey := key
    refreshToken := refresh }

/-- A call to the store: it fails for a reason of the database and changes nothing, or does what
the operation does; `f` notes its success. -/
def StoredNoting {α : Type} (f : History → History) (fails : Prop) (w : World)
    (operation : Except StoreError (α × Store)) (answer : Except StoreError α) (w' : World) :
    Prop :=
  (fails ∧ answer = .error .database ∧ w' = w) ∨
    match operation with
    | .ok (a, s) => answer = .ok a ∧ w' = { w.noting f with store := s }
    | .error e => answer = .error e ∧ w' = w

def Stored {α : Type} (fails : Prop) (w : World) (operation : Except StoreError (α × Store))
    (answer : Except StoreError α) (w' : World) : Prop :=
  w.StoredNoting id fails operation answer w'

end World

/-- A write without an answer of its own. -/
def unit (r : Except StoreError Store) : Except StoreError (Unit × Store) := r.map ((), ·)

end FolderClient.Engine.Port

namespace FolderClient.Storage.Basic.Store

open FolderClient.Core.Namespace

/-- Ends the session but keeps whose it was. -/
def stopSession (s : Store) (device : DeviceIdentifier) : Store :=
  match s.session.bind (·.login) with
  | some login => s.setSession (.loginRequired device login)
  | none => s.setSession (.signedOut device)

/-- The containers with a state below those on the stack. -/
def fetchedBelow (s : Store) : ℕ → List Container → List Container
  | 0, _ | _, [] => []
  | n + 1, parent :: ahead =>
    let known := match s.children parent with
      | .ok children => (children.filterMap (·.identifier.container?)).filter fun c ↦
          (s.containerStateOf c).isSome
      | .error _ => []
    known ++ s.fetchedBelow n (known.reverse ++ ahead)

/-- Every container already fetched once, as far as the stored tree leads there. -/
def alreadyFetched (s : Store) : List Container :=
  s.fetchedBelow (s.entry.rows.length + 2) [.searches, .archives]

end FolderClient.Storage.Basic.Store

namespace FolderClient.Engine.Port

open FolderClient.Core.Namespace FolderClient.Core.Changes FolderClient.Core.Delivery
open FolderClient.Engine.Transfers FolderClient.Net.Access FolderClient.Storage.Basic
open FolderClient.Storage.Delivery

namespace History

def write (written : Written) (h : History) : History :=
  { h with written := h.written ++ [written] }

/-- An attempt at an exchange of a refresh token. -/
def present (text : String) (attempt : Except NetworkError TokenStep) (h : History) : History :=
  { h with exposed := if mayBeRedeemed attempt then h.exposed ++ [text] else h.exposed }

/-- The answer of an exchange is taken over. -/
def takeOver (token : TokenResponse) (h : History) : History :=
  { h with exposed := h.exposed.filter fun text ↦ some text ≠ token.redeemed }

/-- Whether a listing was stored for the container since the namespace was last emptied. -/
def listed (h : History) (container : Container) : Bool :=
  h.written.any fun written ↦ written.container = container && !written.confirms

def showing (container : Container) (entries : List Entry) (h : History) : History :=
  { h with shown := h.shown ++ [⟨container, entries, h.listed container⟩] }

def signedIn (account : Option Account) (h : History) : History :=
  { h with account := account.or h.account }

def cursorStored (h : History) : History := { h with inHand := true }

def release (steps : List Release) (h : History) : History :=
  { h with released := h.released ++ h.running.toList.flatMap fun c ↦ steps.map (c, ·) }

def runBegins (places : List EntryIdentifier) (command : CommandIdentifier) (order : Command)
    (h : History) : History :=
  if h.firstRuns.any (·.command = command) then { h with running := some command }
  else
    { h with
      running := some command
      firstRuns := h.firstRuns ++ [⟨command, order, places⟩] }

end History

/-- Where the documents of an order stand. -/
def placesOf (s : Store) : Command → List EntryIdentifier
  | .dehydrate documents _ => documents.flatMap s.placements
  | _ => []

/-- What an answer of the platform about an entry says. -/
def releases {α : Type} (entry : EntryIdentifier) (success : List Release) :
    Except PlatformError α → List Release
  | .ok _ => success
  | .error (.notFound _) => [.absent entry]
  | .error _ => []

variable (setting : Setting) (fails : Prop) (i : ℕ)

/-- How a request of the session is served to the activity `i`; `fails` says whether the database
may fail. -/
def serveSession : (r : SessionRequest) → World → SessionAnswer r → World → Prop
  | .setting key, w, a, w' => w.Stored fails (.ok (w.store.settingOf key, w.store)) a w'
  | .setSetting key value, w, a, w' =>
    w.Stored fails (unit (w.store.setSetting key.text value)) a w'
  | .session, w, a, w' => w.Stored fails (.ok (w.store.session, w.store)) a w'
  | .setSession session _, w, a, w' =>
    w.StoredNoting (.signedIn session.account) fails (.ok ((), w.store.setSession session)) a w'
  | .stopSession, w, a, w' =>
    w.Stored fails (.ok ((), w.store.stopSession setting.device)) a w'
  | .emptyNamespace, w, a, w' =>
    w.StoredNoting (fun h ↦ { h with written := [] }) fails
      ((w.store.emptyNamespace).map fun x ↦ ((), x.2)) a w'
  | .refreshToken, w, a, w' => (a = .ok w.refreshToken ∨ ∃ e, a = .error e) ∧ w' = w
  | .setRefreshToken text token, w, a, w' =>
    (a = .ok () ∧ w' = w.withRefreshToken text token.key) ∨
      ((∃ e, a = .error e) ∧ (w' = w ∨ w' = w.withRefreshToken text token.key))
  | .newSessionKey, w, a, w' =>
    (a = .ok () ∧ w' = w.withNewKey.withMemory fun m ↦
      { m with sessionKey := w.history.keys }) ∨
      ((∃ e, a = .error e) ∧ (w' = w ∨ w' = w.withNewKey))
  | .forgetSession, w, a, w' =>
    (a = .ok () ∧ w' = w.forgotten none none) ∨
      ((∃ e, a = .error e) ∧ ∃ key refresh, (key = none ∨ key = w.sessionKey) ∧
        (refresh = none ∨ refresh = w.refreshToken) ∧ w' = w.forgotten key refresh)
  | .setUserToken token, w, _, w' =>
    w' = (w.withMemory fun m ↦ { m with userToken := some token }).noting (.takeOver token)
  | .hasUserToken, w, a, w' => a = w.memory.userToken.isSome ∧ w' = w
  | .setDeviceToken text, w, _, w' =>
    w' = w.withMemory fun m ↦ { m with deviceToken := some text }
  | .tokenExpiry, w, a, w' => a = w.memory.tokenExpiry ∧ w' = w
  | .setTokenExpiry expiry, w, _, w' =>
    w' = w.withMemory fun m ↦ { m with tokenExpiry := expiry }
  | .state, w, a, w' => a = w.memory.state ∧ w' = w
  | .setState state _, w, _, w' => w' = w.withMemory fun m ↦ { m with state := state }
  | .clearBegins, w, _, w' =>
    w' = w.withMemory fun m ↦ { m with clearing := i :: m.clearing }
  | .signOutCompleted, w, _, w' =>
    w' = (w.withMemory fun m ↦
        { m with state := .signedOut, clearing := m.clearing.erase i }).noting
      fun h ↦ { h with signOuts := h.signOuts + 1 }
  | .isStopped, w, a, w' => a = w.memory.stopped ∧ w' = w
  | .lockLogin, w, _, w' =>
    w.memory.lock = none ∧ w' = w.withMemory fun m ↦ { m with lock := some i }
  | .unlockLogin, w, _, w' => w' = w.withMemory fun m ↦ { m with lock := none }
  | .exchangeRefreshToken text, w, a, w' =>
    ∃ attempt, a = Net.Access.refreshToken attempt ∧
      (∀ token, attempt = .ok (.issued token) → token.begun = w.history.signOuts ∧
        token.key = w.memory.sessionKey ∧ token.redeemed = some text) ∧
      w' = w.noting (.present text attempt)
  | .startDeviceLogin, w, a, w' =>
    (∀ login, a = .success login → login.begun = w.history.signOuts) ∧ w' = w
  | .waitOnToken login, w, a, w' =>
    (∀ token, a = .success (.issued token) → token.begun = login.begun ∧
      token.key = w.memory.sessionKey ∧ token.redeemed = none) ∧ w' = w
  | .enrollmentCode, w, _, w' | .now, w, _, w'
  | .registerDevice _, w, _, w' | .fetchDeviceToken, w, _, w' | .fetchServerKey, w, _, w'
  | .revoke _, w, _, w' | .fileSystem, w, _, w' | .clearEverything, w, _, w'
  | .placeReady _ _, w, _, w' => w' = w

def serveReconcile : (r : ReconcileRequest) → World → ReconcileAnswer r → World → Prop
  | .session request, w, a, w' => serveSession setting fails i request w a w'
  | .containerState container, w, a, w' =>
    w.Stored fails (.ok (w.store.containerStateOf container, w.store)) a w'
  | .alreadyFetched, w, a, w' => w.Stored fails (.ok (w.store.alreadyFetched, w.store)) a w'
  | .listPage container cursor _, w, a, w' =>
    a.2 = w.memory.userToken ∧
      match a.1 with
      | .success page =>
        w' = w.noting fun h ↦ { h with pages := h.pages ++ [⟨container, cursor, page, a.2⟩] }
      | _ => w' = w
  | .replaceContainer container entries state tokens, w, a, w' =>
    w.StoredNoting (.write ⟨container, entries, state, tokens, false⟩) fails
      (w.store.replaceContainer setting.unicode container entries state) a w'
  | .updateContainerState container state tokens, w, a, w' =>
    w.StoredNoting (.write ⟨container, [], state, tokens, true⟩) fails
      (unit (w.store.updateContainerState container state)) a w'
  | .reportChange _, w, _, w' | .joinReconciles _, w, _, w' => w' = w

def serveCommand : (r : CommandRequest) → World → CommandAnswer r → World → Prop
  | .reconcile request, w, a, w' => serveReconcile setting fails i request w a w'
  | .placements document, w, a, w' =>
    w.Stored fails (.ok (w.store.placements document, w.store)) a w'
  | .removeDocumentEverywhere document now, w, a, w' =>
    w.Stored fails (w.store.removeDocumentEverywhere document now) a w'
  | .redact document, w, a, w' => w.Stored fails (.ok ((), (w.store.redact document).2)) a w'
  | .platformState entry, w, a, w' => w' = w.noting (.release (releases entry [] a))
  | .platformDehydrate entry _, w, a, w' =>
    w' = w.noting (.release (releases entry [.dehydrated entry] a))
  | .platformRemove entry, w, a, w' =>
    w' = w.noting (.release (releases entry [.removed entry] a))
  | .runBegins command order, w, _, w' =>
    w' = w.noting (.runBegins (placesOf w.store order) command order)
  | .spawnReconciles _, w, _, w' => w' = w

/-- How a call of the platform is served: the store answers, the rest belongs to the delivery. -/
def serveSource : (r : SourceRequest) → World → SourceAnswer r → World → Prop
  | .children container, w, a, w' =>
    (fails ∧ a = .error .database ∧ w' = w) ∨
      match w.store.children container with
      | .ok entries => a = .ok entries ∧ w' = w.noting (.showing container entries)
      | .error e => a = .error e ∧ w' = w
  | .entry identifier, w, a, w' =>
    w.Stored fails (.ok (w.store.entryOf identifier, w.store)) a w ∧
      w' = w.withHandling i { w.handling i with details := a.toOption.join.bind (·.file) }
  | .located container, w, a, w' =>
    w.Stored fails (.ok (w.store.entryOf (.container container), w.store)) a w'
  | .containerState container, w, a, w' =>
    w.Stored fails (.ok (w.store.containerStateOf container, w.store)) a w'
  | .appendLog entry, w, _, w' =>
    ∃ a, w.Stored fails (w.store.appendLog (w.store.session.bind (·.account)) entry) a w'
  | .answered _, w, _, w' => w' = w.leaveHandling i
  | r, w, a, w' => ∃ h, serveHandling r (w.handling i) a h ∧ w' = w.withHandling i h

def serve : (r : Request) → World → Answer r → World → Prop
  | .command request, w, a, w' => serveCommand setting fails i request w a w'
  | .source request, w, a, w' => serveSource fails i request w a w'
  | .setCursor value, w, a, w' =>
    w.StoredNoting .cursorStored fails (unit (w.store.setSetting settingCursor value)) a w'
  | .deleteCursor, w, a, w' => w.Stored fails (.ok (w.store.deleteSetting settingCursor)) a w'
  | .openAcknowledgement, w, a, w' =>
    w.Stored fails (.ok (w.store.openAcknowledgement, w.store)) a w'
  | .acceptCommand command received, w, a, w' =>
    w.Stored fails (.ok (w.store.acceptCommand command received)) a w'
  | .setOutcome command outcome, w, a, w' =>
    w.Stored fails (unit (w.store.setOutcome command outcome)) a w'
  | .markAcknowledged command, w, a, w' =>
    w.Stored fails (unit (w.store.markAcknowledged command)) a w'
  | .hasDeviceToken, w, a, w' => a = w.memory.deviceToken.isSome ∧ w' = w
  | .acknowledge command _, w, _, w' =>
    w' = w.noting fun h ↦ { h with acknowledged := h.acknowledged ++ [command] }
  | .idempotencyKey, w, _, w' | .deviceStatus, w, _, w' | .deliveryCollect _ _, w, _, w' => w' = w

end FolderClient.Engine.Port
