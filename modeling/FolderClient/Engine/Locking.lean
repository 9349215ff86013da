import FolderClient.Engine.Effects
import FolderClient.Engine.Orderly

namespace FolderClient.Engine.Locking

open FolderClient.Core.Namespace FolderClient.Engine.Effects FolderClient.Engine.Orderly
open FolderClient.Engine.Port FolderClient.Engine.Reconcile FolderClient.Engine.Session
open FolderClient.Engine.System FolderClient.Library.Programs
open FolderClient.Library.Programs.Program FolderClient.Library.Programs.Contract
open FolderClient.Library.Results FolderClient.Net.Access FolderClient.Storage.Basic
open FolderClient.Storage.Delivery FolderClient.Storage.Effects
open FolderClient.Engine.Port.SessionRequest (call)

/-- The request of the session behind a request. -/
def sessionOf : Request → Option SessionRequest
  | .command (.reconcile (.session r)) => some r
  | _ => none

theorem eq_of_sessionOf {r : Request} {q : SessionRequest} (h : sessionOf r = some q) :
    r = .command (.reconcile (.session q)) := by
  unfold sessionOf at h
  split at h
  · rw [Option.some.inj h]
  · cases h

/-- What the session lives on stands as it stood. -/
structure SameSession (w w' : World) : Prop where
  refreshToken : w'.refreshToken = w.refreshToken
  sessionKey : w'.sessionKey = w.sessionKey
  memory : w'.memory = w.memory
  session : w'.store.session = w.store.session
  signOuts : w'.history.signOuts = w.history.signOuts
  account : w'.history.account = w.history.account
  keys : w'.history.keys = w.history.keys
  refreshKey : w'.history.refreshKey = w.history.refreshKey
  vaulted : w'.history.vaulted = w.history.vaulted
  exposed : w'.history.exposed = w.history.exposed

theorem SameSession.refl (w : World) : SameSession w w :=
  ⟨rfl, rfl, rfl, rfl, rfl, rfl, rfl, rfl, rfl, rfl⟩

section Served

variable {setting : Setting} {fails : Prop} {i : ℕ} {w w' : World} {s s' : Store}

theorem session_setSetting {key value : String} (h : s.setSetting key value = .ok s') :
    s'.session = s.session := by
  unfold Store.setSetting at h
  rw [ite_error_eq_ok] at h
  obtain rfl := Except.ok.inj h.2
  rfl

/-- Only the session writes its row. -/
theorem session_effect {r : Request} (hr : sessionOf r = none)
    (h : effect setting r s = .ok s') : s'.session = s.session := by
  cases r with
  | command r =>
    cases r with
    | reconcile r =>
      cases r with
      | session r => cases hr
      | replaceContainer container entries state tokens =>
        obtain ⟨out, h⟩ := map_snd_eq_ok h
        rw [onlyNamespace_replaceContainer h]
      | updateContainerState container state tokens =>
        obtain ⟨-, rfl⟩ := updateContainerState_eq_ok h
        rfl
      | _ =>
        obtain rfl := Except.ok.inj h
        rfl
    | removeDocumentEverywhere document now =>
      obtain ⟨out, h⟩ := map_snd_eq_ok h
      rw [(removeDocumentEverywhere_eq_ok h).2.1]
    | _ =>
      obtain rfl := Except.ok.inj h
      rfl
  | source r =>
    cases r with
    | appendLog entry =>
      obtain ⟨out, h⟩ := map_snd_eq_ok h
      unfold Store.appendLog at h
      rw [ite_error_eq_ok] at h
      obtain ⟨-, rfl⟩ := Prod.mk.inj (Except.ok.inj h.2)
      rfl
    | _ =>
      obtain rfl := Except.ok.inj h
      rfl
  | setCursor value => exact session_setSetting h
  | acceptCommand command received =>
    obtain rfl := Except.ok.inj h
    unfold Store.acceptCommand
    cases s.commandState command with
    | none => rfl
    | some row =>
      dsimp only
      split <;> rfl
  | setOutcome command outcome =>
    obtain ⟨row, -, -, rfl⟩ := Store.setOutcome_eq_ok h
    rfl
  | markAcknowledged command =>
    obtain ⟨row, outcome, -, -, rfl⟩ := Store.markAcknowledged_eq_ok h
    rfl
  | _ =>
    obtain rfl := Except.ok.inj h
    rfl

/-- What the vault and the memory hold stands as it stood. -/
def SameMemory (w w' : World) : Prop :=
  w'.refreshToken = w.refreshToken ∧ w'.sessionKey = w.sessionKey ∧ w'.memory = w.memory

theorem sameMemory_storedNoting {α : Type} {f : History → History}
    {operation : Except StoreError (α × Store)} {a : Except StoreError α}
    (h : w.StoredNoting f fails operation a w') : SameMemory w w' := by
  obtain ⟨rfl, -⟩ | ⟨b, s, -, -, rfl⟩ := storedNoting_cases h <;> exact ⟨rfl, rfl, rfl⟩

theorem sameMemory_serve {r : Request} {a : Answer r} (hr : sessionOf r = none)
    (h : serve setting fails i r w a w') : SameMemory w w' := by
  cases r with
  | command r =>
    cases r with
    | reconcile r =>
      cases r with
      | session r => cases hr
      | containerState | alreadyFetched | replaceContainer | updateContainerState =>
        simp only [Port.serve, serveCommand, serveReconcile, World.Stored] at h
        exact sameMemory_storedNoting h
      | listPage container cursor etag =>
        obtain ⟨-, h⟩ := h
        split at h <;> (obtain rfl := h; exact ⟨rfl, rfl, rfl⟩)
      | reportChange | joinReconciles =>
        obtain rfl := h
        exact ⟨rfl, rfl, rfl⟩
    | placements | removeDocumentEverywhere | redact =>
      simp only [Port.serve, serveCommand, World.Stored] at h
      exact sameMemory_storedNoting h
    | _ =>
      obtain rfl := h
      exact ⟨rfl, rfl, rfl⟩
  | source r =>
    cases r with
    | children container =>
      obtain ⟨-, -, rfl⟩ | h := h
      · exact ⟨rfl, rfl, rfl⟩
      · split at h <;> (obtain ⟨-, rfl⟩ := h; exact ⟨rfl, rfl, rfl⟩)
    | entry identifier =>
      obtain ⟨-, rfl⟩ := h
      exact ⟨rfl, rfl, rfl⟩
    | located | containerState =>
      obtain ⟨rfl, -⟩ := read_cases h
      exact ⟨rfl, rfl, rfl⟩
    | appendLog entry =>
      obtain ⟨b, h⟩ := h
      exact sameMemory_storedNoting h
    | answered result =>
      obtain rfl := h
      exact ⟨rfl, rfl, rfl⟩
    | _ =>
      obtain ⟨g, -, rfl⟩ := h
      exact ⟨rfl, rfl, rfl⟩
  | setCursor | deleteCursor | openAcknowledgement | acceptCommand | setOutcome
  | markAcknowledged =>
    simp only [Port.serve, World.Stored] at h
    exact sameMemory_storedNoting h
  | hasDeviceToken =>
    obtain ⟨-, rfl⟩ := h
    exact ⟨rfl, rfl, rfl⟩
  | _ =>
    obtain rfl := h
    exact ⟨rfl, rfl, rfl⟩

/-- What has happened to the session. -/
def SameEvents (h h' : History) : Prop :=
  h'.signOuts = h.signOuts ∧ h'.account = h.account ∧ h'.keys = h.keys ∧
    h'.refreshKey = h.refreshKey ∧ h'.vaulted = h.vaulted ∧ h'.exposed = h.exposed

theorem sameEvents_notes {r : Request} {a : Answer r} (hr : sessionOf r = none) (h : History) :
    SameEvents h (notes s r a h) := by
  have hrefl : SameEvents h h := ⟨rfl, rfl, rfl, rfl, rfl, rfl⟩
  cases r with
  | command r =>
    cases r with
    | reconcile r =>
      cases r with
      | session r => cases hr
      | listPage container cursor etag =>
        obtain ⟨result, token⟩ := a
        cases result <;> exact hrefl
      | _ => exact hrefl
    | runBegins command order =>
      change SameEvents h (h.runBegins _ _ _)
      unfold History.runBegins
      split <;> exact hrefl
    | _ => exact hrefl
  | source r =>
    cases r with
    | children container => cases a <;> exact hrefl
    | _ => exact hrefl
  | _ => exact hrefl

/-- Whatever is not asked by the session leaves it alone. -/
theorem sameSession_serve {r : Request} {a : Answer r} (hr : sessionOf r = none)
    (h : serve setting fails i r w a w') : SameSession w w' := by
  obtain ⟨hrefresh, hkey, hmemory⟩ := sameMemory_serve hr h
  have hsession : w'.store.session = w.store.session := by
    obtain hs | hs := store_serve h
    · rw [hs]
    · exact session_effect hr hs
  have hevents : SameEvents w.history w'.history := by
    obtain hh | hh := history_serve h <;> rw [hh]
    · exact ⟨rfl, rfl, rfl, rfl, rfl, rfl⟩
    · exact sameEvents_notes hr w.history
  obtain ⟨hsign, haccount, hkeys, hrefreshKey, hvaulted, hexposed⟩ := hevents
  exact ⟨hrefresh, hkey, hmemory, hsession, hsign, haccount, hkeys, hrefreshKey, hvaulted,
    hexposed⟩

end Served

section Locked

variable {σ : Type} {C : Contract SessionRequest SessionAnswer σ}

/-- A step under the lock, from the moment it has the lock to the moment it gives it back. -/
theorem sound_locked {α : Type} {p : SessionFallible α} {Q : Except EngineError α → σ → Prop}
    {w : σ} (hlock : C.ok .lockLogin w)
    (hp : ∀ w₁ w₂, C.serve .lockLogin w () w₁ → C.rely w₁ w₂ → C.Sound p.run (fun r w₃ ↦
      C.ok .unlockLogin w₃ ∧ ∀ w₄ w₅, C.serve .unlockLogin w₃ () w₄ → C.rely w₄ w₅ → Q r w₅) w₂) :
    C.Sound (locked p).run Q w := by
  refine ⟨hlock, fun _ w₁ w₂ hs hr ↦ ?_⟩
  change C.Sound (p.run >>= fun r ↦ .ask .unlockLogin fun _ ↦ .done r) Q w₂
  refine sound_bind.mpr (sound_mono ?_ (hp w₁ w₂ hs hr))
  intro r w₃ h
  exact ⟨h.1, fun _ w₄ w₅ hs hr ↦ h.2 w₄ w₅ hs hr⟩

/-- A step none of whose requests disturbs what holds; what follows goes on from there. -/
theorem sound_kind_bind {α β : Type} {kind : SessionRequest → Prop} {I : σ → Prop}
    {p : SessionFallible α} {f : α → SessionFallible β} {Q : Except EngineError β → σ → Prop}
    (hkeep : ∀ r w, kind r → I w → C.ok r w ∧ ∀ a w', C.serve r w a w' → I w')
    (hrely : ∀ w w', I w → C.rely w w' → I w') (hp : p.run.Asks kind) {w : σ} (hw : I w)
    (hf : ∀ a w', I w' → C.Sound (f a).run Q w') (he : ∀ e w', I w' → Q (.error e) w') :
    C.Sound (p >>= f).run Q w := by
  refine sound_fallible_bind (sound_mono ?_ (sound_of_asks hp hkeep hrely hw))
  intro r w' hw'
  cases r with
  | ok a => exact hf a w' hw'
  | error e => exact he e w' hw'

end Locked

section Kinds

/-- The requests of the enrolment. -/
def Enrolling : SessionRequest → Prop
  | .setting _ | .setSetting _ _ | .enrollmentCode | .registerDevice _ => True
  | .setState .enrollmentCodeRequired none => True
  | _ => False

/-- The requests for the device token. -/
def DeviceTokens : SessionRequest → Prop
  | .setting _ | .fetchDeviceToken | .setDeviceToken _ => True
  | .setState (.awaitingApproval _) none => True
  | .setSession session none => session.state = .awaitingApproval
  | _ => False

/-- The questions whether a token is fresh. -/
def Freshness : SessionRequest → Prop
  | .tokenExpiry | .now | .hasUserToken => True
  | _ => False

/-- The requests of the end of a session. -/
def Stopping : SessionRequest → Prop
  | .forgetSession | .setTokenExpiry none | .stopSession => True
  | .setState (.loginRequired _) none => True
  | _ => False

/-- The requests of the local part of a sign-out. -/
def Clearing : SessionRequest → Prop
  | .clearBegins | .fileSystem | .clearEverything | .emptyNamespace | .forgetSession
  | .setTokenExpiry none | .signOutCompleted => True
  | .setSession session none => session.state = .signedOut
  | _ => False

variable {setting : Setting}

theorem asks_tokenFresh : tokenFresh.Asks Freshness := by
  refine asks_bind (asks_call trivial) fun expiry ↦ ?_
  cases expiry with
  | none => trivial
  | some expiry =>
    refine asks_bind (asks_call trivial) fun time ↦ ?_
    split
    · exact asks_call trivial
    · trivial

theorem asks_anchorFromDeviceObject (block : Library.Json.Value) :
    (anchorFromDeviceObject setting block).run.Asks Enrolling := by
  refine asks_fallible_bind trivial fun offer ↦ ?_
  refine asks_fallible_bind (asks_readKeySet fun _ ↦ trivial) fun set ↦ ?_
  exact asks_fallible_bind trivial fun adoption ↦ asks_writeKeySet (fun _ ↦ trivial) _

theorem asks_placeDeviceSafe : (placeDeviceSafe setting).run.Asks Enrolling := by
  refine asks_fallible_bind (asks_store (asks_call trivial)) fun enrolled ↦ ?_
  split
  · trivial
  · refine asks_fallible_bind (asks_lift (asks_call trivial)) fun code ↦ ?_
    cases code with
    | none => exact asks_fallible_bind (asks_lift (asks_call trivial)) fun _ ↦ trivial
    | some code =>
      refine asks_fallible_bind (asks_lift (asks_call trivial)) fun answer ↦ ?_
      refine asks_fallible_bind trivial fun block ↦ ?_
      cases block with
      | none => exact asks_store (asks_call trivial)
      | some block =>
        exact asks_fallible_bind (asks_anchorFromDeviceObject block) fun _ ↦
          asks_store (asks_call trivial)

theorem asks_fetchDeviceToken : (fetchDeviceToken setting).run.Asks DeviceTokens := by
  refine asks_fallible_bind (asks_lift (asks_call trivial)) fun result ↦ ?_
  split
  · refine asks_fallible_bind (asks_readKeySet fun _ ↦ trivial) fun set ↦ ?_
    refine asks_fallible_bind (asks_lift (asks_call trivial)) fun _ ↦ ?_
    exact asks_fallible_bind (asks_store (asks_call rfl)) fun _ ↦ trivial
  · refine asks_fallible_bind trivial fun text ↦ ?_
    exact asks_fallible_bind (asks_lift (asks_call trivial)) fun _ ↦ trivial

theorem asks_confirmAnchor : (confirmAnchor setting).run.Asks Enrolling := by
  refine asks_fallible_bind (asks_readKeySet fun _ ↦ trivial) fun set ↦ ?_
  split
  · trivial
  · exact asks_fallible_bind trivial fun confirmed ↦ asks_writeKeySet (fun _ ↦ trivial) _

theorem asks_sessionStop (reason : String) (eraseSecrets : Bool) :
    (sessionStop reason eraseSecrets).run.Asks Stopping := by
  have hrest : (do
      call (.setTokenExpiry none)
      store (call .stopSession)
      call (.setState (.loginRequired reason) none) : SessionFallible Unit).run.Asks Stopping :=
    asks_fallible_bind (asks_lift (asks_call trivial)) fun _ ↦
      asks_fallible_bind (asks_store (asks_call trivial)) fun _ ↦ asks_lift (asks_call trivial)
  unfold sessionStop
  cases eraseSecrets with
  | false => exact hrest
  | true => exact asks_fallible_bind (asks_lift (asks_call trivial)) fun _ ↦ hrest

theorem asks_clearAfterSignOut : (clearAfterSignOut setting).run.Asks Clearing := by
  refine asks_fallible_bind (asks_lift (asks_call trivial)) fun _ ↦ ?_
  refine asks_fallible_bind (asks_lift (asks_call trivial)) fun fileSystem ↦ ?_
  have hrest : ∀ cleared : Except PlatformError Unit, (do
      let emptied ← call .emptyNamespace
      let signedOut ← call (.setSession (.signedOut setting.device) none)
      let forgotten ← call .forgetSession
      call (.setTokenExpiry none)
      call .signOutCompleted
      raise (firstError [cleared.mapError .platform, emptied.mapError .store,
        signedOut.mapError .store, forgotten.mapError .vault]) :
      SessionFallible Unit).run.Asks Clearing := by
    intro cleared
    refine asks_fallible_bind (asks_lift (asks_call trivial)) fun emptied ↦ ?_
    refine asks_fallible_bind (asks_lift (asks_call rfl)) fun signedOut ↦ ?_
    refine asks_fallible_bind (asks_lift (asks_call trivial)) fun forgotten ↦ ?_
    refine asks_fallible_bind (asks_lift (asks_call trivial)) fun _ ↦ ?_
    exact asks_fallible_bind (asks_lift (asks_call trivial)) fun _ ↦ trivial
  dsimp only
  split
  · exact asks_fallible_bind (asks_lift (asks_call trivial)) hrest
  · exact asks_fallible_bind trivial hrest

/-- A takeover from the moment the new refresh token is stored. -/
def use (setting : Setting) (token : TokenResponse) : SessionFallible Unit := do
  call (.setUserToken token)
  let time ← call .now
  call (.setTokenExpiry (some (time.plusMillis (lifetime token.expiresIn))))
  let set ← readKeySet setting
  let identity ← raise (fromTokenResponse setting token set.tenantId)
  let since ← call .now
  let login : Login := ⟨identity.account, identity.tenant, identity.displayName, since⟩
  store (call (.setSession (.signedIn setting.device login) (some token)))
  store (call (.setSetting .identityGuessed (if identity.guessed then "yes" else "no")))
  if ← call .fileSystem then
    let _ ← call (.placeReady ("elasticdms – " ++ identity.tenant) identity.account.sub)
  call (.setState (.signedIn identity.displayName identity.tenant since true) (some token))

/-- The requests of a takeover from then on. -/
def Using (token : TokenResponse) : SessionRequest → Prop
  | .setUserToken t => t = token
  | .now | .setTokenExpiry (some _) | .setting _ | .setSetting .identityGuessed _ | .fileSystem
  | .placeReady _ _ => True
  | .setSession session (some t) => session.state = .signedIn ∧ t = token
  | .setState (.signedIn _ _ _ _) (some t) => t = token
  | _ => False

theorem adoptToken_some {token : TokenResponse} {refresh : String}
    (h : token.refreshToken = some refresh) : (adoptToken setting token).run =
      .ask (.setRefreshToken refresh token) fun
        | .ok () => (use setting token).run
        | .error e => .done (.error (.vault e)) := by
  unfold adoptToken
  rw [h]
  refine congrArg (Program.ask _) (funext fun a ↦ ?_)
  cases a <;> rfl

theorem adoptToken_none {token : TokenResponse} (h : token.refreshToken = none) :
    (adoptToken setting token).run = (use setting token).run := by
  unfold adoptToken
  rw [h]
  rfl

theorem asks_use (token : TokenResponse) : (use setting token).run.Asks (Using token) := by
  refine asks_fallible_bind (asks_lift (asks_call rfl)) fun _ ↦ ?_
  refine asks_fallible_bind (asks_lift (asks_call trivial)) fun time ↦ ?_
  refine asks_fallible_bind (asks_lift (asks_call trivial)) fun _ ↦ ?_
  refine asks_fallible_bind (asks_readKeySet fun _ ↦ trivial) fun set ↦ ?_
  refine asks_fallible_bind trivial fun identity ↦ ?_
  refine asks_fallible_bind (asks_lift (asks_call trivial)) fun since ↦ ?_
  refine asks_fallible_bind (asks_store (asks_call ⟨rfl, rfl⟩)) fun _ ↦ ?_
  refine asks_fallible_bind (asks_store (asks_call trivial)) fun _ ↦ ?_
  refine asks_fallible_bind (asks_lift (asks_call trivial)) fun fileSystem ↦ ?_
  have hstate : (liftM (call (.setState
      (.signedIn identity.displayName identity.tenant since true) (some token))) :
      SessionFallible Unit).run.Asks (Using token) := asks_lift (asks_call rfl)
  split
  · exact asks_fallible_bind (asks_lift (asks_call trivial)) fun _ ↦ hstate
  · exact hstate

end Kinds

section Taking

variable {σ : Type} {setting : Setting} {C : Contract SessionRequest SessionAnswer σ}

/-- The requests with which no token is taken over. -/
def Untaken : SessionRequest → Prop
  | .setRefreshToken _ _ | .setUserToken _ | .setSession _ (some _) | .setState _ (some _) => False
  | _ => True

theorem untaken_of_enrolling (r : SessionRequest) (h : Enrolling r) : Untaken r := by
  cases r with
  | setState state token => cases token <;> [trivial; cases state <;> cases h]
  | setRefreshToken | setUserToken | setSession => cases h
  | _ => trivial

theorem untaken_of_deviceTokens (r : SessionRequest) (h : DeviceTokens r) : Untaken r := by
  cases r with
  | setState state token => cases token <;> [trivial; cases state <;> cases h]
  | setSession session token => cases token <;> [trivial; cases h]
  | setRefreshToken | setUserToken => cases h
  | _ => trivial

variable (hok : ∀ r w, Untaken r → C.ok r w)

include hok

theorem fine_untaken {r : SessionRequest} (h : Untaken r) : C.Fine (SessionRequest.call r) :=
  fine_call fun w ↦ hok r w h

theorem fine_tokenFresh : C.Fine tokenFresh := by
  refine fine_of_asks asks_tokenFresh fun r w hr ↦ hok r w ?_
  cases r with
  | tokenExpiry | now | hasUserToken => trivial
  | _ => cases hr

theorem fine_sessionStop (reason : String) (eraseSecrets : Bool) :
    C.Fine (sessionStop reason eraseSecrets).run := by
  refine fine_of_asks (asks_sessionStop reason eraseSecrets) fun r w hr ↦ hok r w ?_
  cases r with
  | setState state token => cases token <;> [trivial; cases state <;> cases hr]
  | setRefreshToken | setUserToken | setSession => cases hr
  | _ => trivial

theorem fine_clearAfterSignOut : C.Fine (clearAfterSignOut setting).run := by
  refine fine_of_asks asks_clearAfterSignOut fun r w hr ↦ hok r w ?_
  cases r with
  | setSession session token => cases token <;> [trivial; cases hr]
  | setRefreshToken | setUserToken | setState => cases hr
  | _ => trivial

theorem fine_locked {α : Type} {p : SessionFallible α} (hp : C.Fine p.run) :
    C.Fine (locked p).run := by
  intro w
  refine sound_locked (hok _ w trivial) fun w₁ w₂ _ _ ↦ sound_mono ?_ (hp w₂)
  exact fun r w _ ↦ ⟨hok _ w trivial, fun _ _ _ _ ↦ trivial⟩

theorem fine_signOut : C.Fine (signOut setting).run := by
  refine fine_locked hok ?_
  refine fine_fallible_bind (fine_lift (fine_untaken hok trivial)) fun answer ↦ ?_
  split
  · exact fine_fallible_bind (fine_lift (fine_untaken hok trivial)) fun _ ↦
      fine_clearAfterSignOut hok
  · exact fine_clearAfterSignOut hok

variable (hadopt : ∀ token, C.Fine (adoptToken setting token).run)

include hadopt

theorem fine_refresh (refreshSecret : String) : C.Fine (refresh setting refreshSecret).run := by
  refine fine_fallible_bind (fine_lift (fine_untaken hok trivial)) fun answer ↦ ?_
  split
  · exact fine_fallible_bind (hadopt _) fun _ ↦ fine_done _
  · exact fine_fallible_bind (fine_sessionStop hok _ _) fun _ ↦ fine_done _
  · exact fine_done _
  · exact fine_fallible_bind (fine_sessionStop hok _ _) fun _ ↦ fine_done _
  · exact fine_fallible_bind (fine_sessionStop hok _ _) fun _ ↦ fine_done _

theorem fine_ensureForToken : C.Fine (ensureForToken setting).run := by
  have hfresh : C.Fine (liftM tokenFresh : SessionFallible Bool).run :=
    fine_lift (fine_tokenFresh hok)
  refine fine_fallible_bind (fine_store (fine_untaken hok trivial)) fun session ↦ ?_
  split
  · exact fine_done _
  refine fine_fallible_bind hfresh fun fresh ↦ ?_
  split
  · exact fine_done _
  refine fine_locked hok (fine_fallible_bind hfresh fun fresh ↦ ?_)
  split
  · exact fine_done _
  refine fine_fallible_bind (fine_bind (fine_untaken hok trivial) fun _ ↦ fine_done _)
    fun answer ↦ ?_
  split
  · exact fine_fallible_bind (fine_sessionStop hok _ _) fun _ ↦ fine_done _
  · exact fine_refresh hok hadopt _

theorem fine_forceRefresh : C.Fine (forceRefresh setting).run :=
  fine_fallible_bind (fine_lift (fine_untaken hok trivial)) fun _ ↦
    fine_ensureForToken hok hadopt

/-- The sign-in from the display of its code on. -/
def waitAndAdopt (setting : Setting) (login : DeviceLogin) : SessionFallible Unit := do
  call (.setState .loginRuns none)
  match ← raise ((← call (.waitOnToken login)).valueFrom "the sign-in") with
  | .issued token => adoptToken setting token
  | .expired =>
    call (.setState .signedOut none)
    raise (.error (.refused "the code has expired"))
  | .rejected reason =>
    call (.setState .signedOut none)
    raise (.error (.refused (reason.getD "the sign-in was rejected")))

theorem fine_deviceLogin : C.Fine (deviceLogin setting).run := by
  refine fine_fallible_bind (fine_untaken hok trivial) fun _ ↦ ?_
  refine fine_fallible_bind (fine_lift (fine_untaken hok trivial)) fun answer ↦ ?_
  refine fine_fallible_bind (fine_raise _) fun login ↦ ?_
  have hrest : C.Fine (waitAndAdopt setting login).run := by
    refine fine_fallible_bind (fine_lift (fine_untaken hok trivial)) fun _ ↦ ?_
    refine fine_fallible_bind (fine_lift (fine_untaken hok trivial)) fun answer ↦ ?_
    refine fine_fallible_bind (fine_raise _) fun outcome ↦ ?_
    cases outcome with
    | issued token => exact hadopt token
    | expired | rejected =>
      exact fine_fallible_bind (fine_lift (fine_untaken hok trivial)) fun _ ↦ fine_raise _
  split
  · exact fine_fallible_bind (fine_raise _) fun _ ↦ hrest
  · exact hrest

theorem fine_placeSessionFrom : C.Fine (placeSessionFrom setting).run := by
  refine fine_fallible_bind (fine_bind (fine_untaken hok trivial) fun _ ↦ fine_done _)
    fun answer ↦ ?_
  split
  · refine fine_fallible_bind (fine_refresh hok hadopt _) fun renewed ↦ ?_
    split
    · exact fine_done _
    · exact fine_deviceLogin hok hadopt
  · exact fine_deviceLogin hok hadopt

theorem fine_signIn : C.Fine (signIn setting).run := by
  refine fine_locked hok (fine_fallible_bind (fine_lift (fine_untaken hok trivial)) fun stopped ↦ ?_)
  have hrest : C.Fine (do
      placeDeviceSafe setting
      if ← Session.fetchDeviceToken setting then
        confirmAnchor setting
        placeSessionFrom setting : SessionFallible Unit).run := by
    refine fine_fallible_bind (fine_of_asks asks_placeDeviceSafe fun r w hr ↦
      hok r w (untaken_of_enrolling r hr)) fun _ ↦ ?_
    refine fine_fallible_bind (fine_of_asks asks_fetchDeviceToken fun r w hr ↦
      hok r w (untaken_of_deviceTokens r hr)) fun ready ↦ ?_
    split
    · exact fine_fallible_bind (fine_of_asks asks_confirmAnchor fun r w hr ↦
        hok r w (untaken_of_enrolling r hr)) fun _ ↦ fine_placeSessionFrom hok hadopt
    · exact fine_done _
  split
  · exact fine_fallible_bind (fine_raise _) fun _ ↦ hrest
  · exact hrest

end Taking

section Holding

variable {σ : Type} {setting : Setting} {C : Contract SessionRequest SessionAnswer σ}

/-- Renews with the refresh token of the vault. -/
def renewStored (setting : Setting) : SessionFallible Bool := do
  match ← vault (call .refreshToken) with
  | none =>
    sessionStop "the session is over; please sign in again" false
    return false
  | some refreshSecret => refresh setting refreshSecret

/-- The requests that are made without the lock. -/
def Outside : SessionRequest → Prop
  | .session | .setTokenExpiry none | .tokenExpiry | .now | .hasUserToken => True
  | _ => False

theorem outside_of_freshness (r : SessionRequest) (h : Freshness r) : Outside r := by
  cases r <;> first | trivial | exact absurd h id

/-- What a step under the lock meets: from the moment it has the lock `H` holds, which neither
others nor its own quiet requests disturb, and where `H` holds the lock may be given back. -/
structure Holding (setting : Setting) (C : Contract SessionRequest SessionAnswer σ)
    (quiet : SessionRequest → Prop) (H : σ → Prop) : Prop where
  lock : ∀ w, C.ok .lockLogin w
  held : ∀ w w₁ w₂, C.serve .lockLogin w () w₁ → C.rely w₁ w₂ → H w₂
  rely : ∀ w w', H w → C.rely w w' → H w'
  unlock : ∀ w, H w → C.ok .unlockLogin w
  outside : ∀ r w, Outside r → C.ok r w
  ok : ∀ r w, quiet r → H w → C.ok r w
  keep : ∀ r w a w', quiet r → H w → C.serve r w a w' → H w'
  enrolling : ∀ r, Enrolling r → quiet r
  device : ∀ w, H w → C.Sound (Session.fetchDeviceToken setting).run (fun _ ↦ H) w
  freshness : ∀ r, Freshness r → quiet r
  isStopped : quiet .isStopped

namespace Holding

variable {quiet : SessionRequest → Prop} {H : σ → Prop} (K : Holding setting C quiet H)

include K

theorem sound_quiet {α : Type} {p : SessionActivity α} (hp : p.Asks quiet) {w : σ} (hw : H w) :
    C.Sound p (fun _ ↦ H) w :=
  sound_of_asks hp (fun r w hr hw ↦ ⟨K.ok r w hr hw, fun a w' ↦ K.keep r w a w' hr hw⟩) K.rely hw

theorem sound_quiet_bind {α β : Type} {p : SessionFallible α} {f : α → SessionFallible β}
    (hp : p.run.Asks quiet) {w : σ} (hw : H w)
    (hf : ∀ a w', H w' → C.Sound (f a).run (fun _ ↦ H) w') :
    C.Sound (p >>= f).run (fun _ ↦ H) w := by
  refine sound_fallible_bind (sound_mono ?_ (K.sound_quiet hp hw))
  intro r w' hw'
  cases r with
  | ok a => exact hf a w' hw'
  | error e => exact hw'

theorem fine_locked {α : Type} {p : SessionFallible α}
    (hp : ∀ w, H w → C.Sound p.run (fun _ ↦ H) w) : C.Fine (locked p).run := by
  intro w
  refine sound_locked (K.lock w) fun w₁ w₂ hs hr ↦ ?_
  refine sound_mono ?_ (hp w₂ (K.held w w₁ w₂ hs hr))
  exact fun _ w hw ↦ ⟨K.unlock w hw, fun _ _ _ _ ↦ trivial⟩

theorem fine_ensureForToken
    (hrenew : ∀ w, H w → C.Sound (renewStored setting).run (fun _ ↦ H) w) :
    C.Fine (ensureForToken setting).run := by
  have hfresh : tokenFresh.Asks quiet := asks_tokenFresh.mono K.freshness
  have houtside : C.Fine tokenFresh :=
    fine_of_asks (asks_tokenFresh.mono outside_of_freshness) K.outside
  refine fine_fallible_bind (fine_store (fine_call fun w ↦ K.outside _ w trivial)) fun session ↦ ?_
  split
  · exact fine_done _
  refine fine_fallible_bind (fine_lift houtside) fun fresh ↦ ?_
  split
  · exact fine_done _
  refine K.fine_locked fun w hw ↦ K.sound_quiet_bind (asks_lift hfresh) hw fun fresh w hw ↦ ?_
  split
  · exact hw
  · exact hrenew w hw

theorem fine_forceRefresh
    (hrenew : ∀ w, H w → C.Sound (renewStored setting).run (fun _ ↦ H) w) :
    C.Fine (forceRefresh setting).run :=
  fine_fallible_bind (fine_lift (fine_call fun w ↦ K.outside _ w trivial)) fun _ ↦
    K.fine_ensureForToken hrenew

theorem fine_signIn
    (hplace : ∀ w, H w → C.Sound (placeSessionFrom setting).run (fun _ ↦ H) w) :
    C.Fine (signIn setting).run := by
  refine K.fine_locked fun w hw ↦ ?_
  refine K.sound_quiet_bind (asks_lift (asks_call K.isStopped)) hw fun stopped w hw ↦ ?_
  have hrest : ∀ w, H w → C.Sound (do
      placeDeviceSafe setting
      if ← Session.fetchDeviceToken setting then
        confirmAnchor setting
        placeSessionFrom setting : SessionFallible Unit).run (fun _ ↦ H) w := by
    intro w hw
    refine K.sound_quiet_bind (asks_placeDeviceSafe.mono K.enrolling) hw fun _ w hw ↦ ?_
    refine sound_fallible_bind (sound_mono ?_ (K.device w hw))
    intro r w hw
    cases r with
    | error e => exact hw
    | ok ready =>
    dsimp only
    split
    · exact K.sound_quiet_bind (asks_confirmAnchor.mono K.enrolling) hw fun _ w hw ↦ hplace w hw
    · exact hw
  split
  · exact hw
  · exact hrest w hw

theorem fine_signOut (hread : quiet .refreshToken) (hrevoke : ∀ text, quiet (.revoke text))
    (hclear : ∀ w, H w → C.Sound (clearAfterSignOut setting).run (fun _ ↦ H) w) :
    C.Fine (signOut setting).run := by
  refine K.fine_locked fun w hw ↦ ?_
  refine K.sound_quiet_bind (asks_lift (asks_call hread)) hw fun answer w hw ↦ ?_
  split
  · exact K.sound_quiet_bind (asks_lift (asks_call (hrevoke _))) hw fun _ w hw ↦ hclear w hw
  · exact hclear w hw

end Holding

end Holding

section Flow

variable {σ : Type} {setting : Setting} {C : Contract SessionRequest SessionAnswer σ}

/-- What the way to a session meets under the lock: `presents` holds where a refresh token may be
presented, `begun` within the device flow, `adopts` where a token is taken over, and `stops` where
the session ends. -/
structure Flow (setting : Setting) (C : Contract SessionRequest SessionAnswer σ)
    (quiet : SessionRequest → Prop) (H : σ → Prop) (presents : String → σ → Prop)
    (begun : Option DeviceLogin → σ → Prop) (adopts : TokenResponse → σ → Prop)
    (stops : σ → Prop) : Prop extends Holding setting C quiet H where
  refreshToken : quiet .refreshToken
  missed : quiet (.setState .signedOut none)
  read : ∀ w a w₁ w₂ text, H w → C.serve .refreshToken w a w₁ → C.rely w₁ w₂ →
    a = .ok (some text) → presents text w₂
  exchange : ∀ text w, presents text w → C.ok (.exchangeRefreshToken text) w ∧
    ∀ a w₁ w₂, C.serve (.exchangeRefreshToken text) w a w₁ → C.rely w₁ w₂ →
      match a with
      | .success token => adopts token w₂
      | .networkError (.refreshUncertain _) => stops w₂
      | .networkError _ => H w₂
      | _ => stops w₂
  stop : ∀ reason eraseSecrets w, stops w →
    C.Sound (sessionStop reason eraseSecrets).run (fun _ ↦ H) w
  finished : ∀ w, H w → stops w
  adopt : ∀ token w, adopts token w → C.Sound (adoptToken setting token).run (fun _ ↦ H) w
  newKey : ∀ w, H w → C.ok .newSessionKey w ∧
    ∀ a w₁ w₂, C.serve .newSessionKey w a w₁ → C.rely w₁ w₂ →
      H w₂ ∧ (a = .ok () → begun none w₂)
  start : ∀ w, begun none w → C.ok .startDeviceLogin w ∧
    ∀ a w₁ w₂, C.serve .startDeviceLogin w a w₁ → C.rely w₁ w₂ →
      H w₂ ∧ ∀ login, a = .success login → begun (some login) w₂
  shown : ∀ login w, begun (some login) w → C.ok (.setState .loginRuns none) w ∧
    ∀ a w₁ w₂, C.serve (.setState .loginRuns none) w a w₁ → C.rely w₁ w₂ → begun (some login) w₂
  wait : ∀ login w, begun (some login) w → C.ok (.waitOnToken login) w ∧
    ∀ a w₁ w₂, C.serve (.waitOnToken login) w a w₁ → C.rely w₁ w₂ →
      H w₂ ∧ ∀ token, a = .success (.issued token) → adopts token w₂

namespace Flow

variable {quiet : SessionRequest → Prop} {H : σ → Prop} {presents : String → σ → Prop}
  {begun : Option DeviceLogin → σ → Prop} {adopts : TokenResponse → σ → Prop}
  {stops : σ → Prop} (F : Flow setting C quiet H presents begun adopts stops)

include F

theorem sound_stopped {α : Type} {reason : String} {eraseSecrets : Bool} {a : α} {w : σ}
    (hw : stops w) : C.Sound (do
      sessionStop reason eraseSecrets
      return a : SessionFallible α).run (fun _ ↦ H) w := by
  refine sound_fallible_bind (sound_mono ?_ (F.stop reason eraseSecrets w hw))
  intro r w hw
  cases r <;> exact hw

theorem sound_refresh {text : String} {w : σ} (hw : presents text w) :
    C.Sound (refresh setting text).run (fun _ ↦ H) w := by
  obtain ⟨hok, hnext⟩ := F.exchange text w hw
  refine sound_lift_bind hok fun a w₁ w₂ hs hr ↦ ?_
  have hafter := hnext a w₁ w₂ hs hr
  cases a with
  | success token =>
    refine sound_fallible_bind (sound_mono ?_ (F.adopt token w₂ hafter))
    intro r w hw
    cases r <;> exact hw
  | networkError error =>
    cases error with
    | refreshUncertain reason => exact F.sound_stopped hafter
    | _ => exact hafter
  | _ => exact F.sound_stopped hafter

theorem sound_waitOnToken {login : DeviceLogin} {w : σ} (hw : begun (some login) w) :
    C.Sound (do
      match ← raise ((← call (.waitOnToken login)).valueFrom "the sign-in") with
      | .issued token => adoptToken setting token
      | .expired =>
        call (.setState .signedOut none)
        raise (.error (.refused "the code has expired"))
      | .rejected reason =>
        call (.setState .signedOut none)
        raise (.error (.refused (reason.getD "the sign-in was rejected"))) :
      SessionFallible Unit).run (fun _ ↦ H) w := by
  obtain ⟨hok, hnext⟩ := F.wait login w hw
  refine sound_lift_bind hok fun a w₁ w₂ hs hr ↦ ?_
  obtain ⟨hheld, hissued⟩ := hnext a w₁ w₂ hs hr
  refine sound_raise_bind (fun outcome hv ↦ ?_) fun _ _ ↦ hheld
  obtain rfl := ApiResult.valueFrom_eq_ok hv
  cases outcome with
  | issued token => exact F.adopt token w₂ (hissued token rfl)
  | expired | rejected =>
    exact F.sound_quiet_bind (asks_lift (asks_call F.missed)) hheld fun _ _ hw ↦ hw

theorem sound_deviceLogin {w : σ} (hw : H w) :
    C.Sound (deviceLogin setting).run (fun _ ↦ H) w := by
  obtain ⟨hok, hnext⟩ := F.newKey w hw
  refine sound_fallible_bind ⟨hok, fun a w₁ w₂ hs hr ↦ ?_⟩
  obtain ⟨hheld, hready⟩ := hnext a w₁ w₂ hs hr
  cases a with
  | error e => exact hheld
  | ok _ =>
    obtain ⟨hok, hnext⟩ := F.start w₂ (hready rfl)
    refine sound_lift_bind hok fun answer w₃ w₄ hs hr ↦ ?_
    obtain ⟨hheld, hlogin⟩ := hnext answer w₃ w₄ hs hr
    refine sound_raise_bind (fun login hv ↦ ?_) fun _ _ ↦ hheld
    have hbegun := hlogin login (ApiResult.valueFrom_eq_ok hv)
    split
    · exact hheld
    · obtain ⟨hok, hnext⟩ := F.shown login w₄ hbegun
      refine sound_lift_bind hok fun a w₅ w₆ hs hr ↦ ?_
      exact F.sound_waitOnToken (hnext a w₅ w₆ hs hr)

theorem sound_refreshToken {α : Type} {f : Option String → SessionFallible α} {w : σ}
    (hw : H w) (hnone : ∀ w, H w → C.Sound (f none).run (fun _ ↦ H) w)
    (hsome : ∀ text w, presents text w → C.Sound (f (some text)).run (fun _ ↦ H) w) :
    C.Sound (vault (call .refreshToken) >>= f).run (fun _ ↦ H) w := by
  refine sound_fallible_bind ⟨F.ok _ w F.refreshToken hw, fun a w₁ w₂ hs hr ↦ ?_⟩
  have hheld := F.rely w₁ w₂ (F.keep _ w a w₁ F.refreshToken hw hs) hr
  cases a with
  | error e => exact hheld
  | ok answer =>
    cases answer with
    | none => exact hnone w₂ hheld
    | some text => exact hsome text w₂ (F.read w _ w₁ w₂ text hw hs hr rfl)

theorem sound_placeSessionFrom {w : σ} (hw : H w) :
    C.Sound (placeSessionFrom setting).run (fun _ ↦ H) w := by
  refine F.sound_refreshToken hw (fun w hw ↦ F.sound_deviceLogin hw) fun text w hw ↦ ?_
  refine sound_fallible_bind (sound_mono ?_ (F.sound_refresh hw))
  intro r w hw
  cases r with
  | error e => exact hw
  | ok renewed =>
    cases renewed with
    | true => exact hw
    | false => exact F.sound_deviceLogin hw

theorem sound_renewStored {w : σ} (hw : H w) :
    C.Sound (renewStored setting).run (fun _ ↦ H) w :=
  F.sound_refreshToken hw (fun w hw ↦ F.sound_stopped (F.finished w hw)) fun _ _ hw ↦
    F.sound_refresh hw

theorem fine_signIn : C.Fine (signIn setting).run :=
  F.toHolding.fine_signIn fun _ hw ↦ F.sound_placeSessionFrom hw

theorem fine_ensureForToken : C.Fine (ensureForToken setting).run :=
  F.toHolding.fine_ensureForToken fun _ hw ↦ F.sound_renewStored hw

theorem fine_forceRefresh : C.Fine (forceRefresh setting).run :=
  F.toHolding.fine_forceRefresh fun _ hw ↦ F.sound_renewStored hw

end Flow

end Flow

end FolderClient.Engine.Locking
