import FolderClient.Engine.Locking
import FolderClient.Engine.Play

namespace FolderClient.Engine.OnceRuns

open FolderClient.Core.Namespace FolderClient.Engine.Effects FolderClient.Engine.Locking
open FolderClient.Engine.Orderly FolderClient.Engine.Port FolderClient.Engine.Reconcile
open FolderClient.Engine.Session FolderClient.Engine.System FolderClient.Library.Pools
open FolderClient.Library.Programs FolderClient.Library.Programs.Program
open FolderClient.Library.Programs.Contract FolderClient.Net.Access FolderClient.Storage.Basic
open FolderClient.Storage.Effects
open FolderClient.Engine.Port.SessionRequest (call)

/-- A renewal that is served presents no refresh token whose outcome is open, and the row becomes
that of a signed-in session only with a new token: of a fresh sign-in, or of an answer whose own
renewal is no longer open. -/
structure Once (rules : Rules Request Answer World) (c : Activities) : Prop where
  presented : ∀ i text next a w, c.running i =
    some (.ask (.command (.reconcile (.session (.exchangeRefreshToken text)))) next) →
      rules.serve i (.command (.reconcile (.session (.exchangeRefreshToken text)))) c.state a w →
        text ∉ c.state.history.exposed
  back : ∀ i session token next, c.running i =
    some (.ask (.command (.reconcile (.session (.setSession session token)))) next) →
      session.state = .signedIn → ∃ t, token = some t ∧
        ∀ text, t.redeemed = some text → text ∉ c.state.history.exposed

/-- The session row says that somebody is signed in. -/
def SignedIn (w : World) : Prop := w.store.session.any (·.state = .signedIn) = true

/-- The outcome of the refresh token in the vault is not open. -/
def Clear (w : World) : Prop := ∀ text, w.refreshToken = some text → text ∉ w.history.exposed

/-- A refresh token whose outcome is open stands in the vault only where nobody is signed in. -/
def Safe (w : World) : Prop := SignedIn w → Clear w

/-- A renewal is only asked for a signed-in session and is answered, or breaks off, in a way the
code knows of; its answer gets into the vault, or its failure into the row; and a device flow
brings a new refresh token. -/
def Settled : (r : Request) → World → Answer r → World → Prop
  | .command (.reconcile (.session (.exchangeRefreshToken _))), w, a, _ =>
    SignedIn w ∧ ∀ e, a = ApiResult.networkError e →
      e.withoutEffect = true ∨ ∃ reason, e = .refreshUncertain reason
  | .command (.reconcile (.session .stopSession)), w, a, _ => Safe w ∨ a = Except.ok ()
  | .command (.reconcile (.session (.setRefreshToken text token))), w, a, w' =>
    (Safe w ∨ w'.refreshToken = some text) ∧
      (text ∉ w.history.exposed ∨ token.redeemed = some text ∧ a = Except.ok ())
  | .command (.reconcile (.session (.waitOnToken _))), w, a, _ =>
    ∀ token, a = ApiResult.success (.issued token) → token.refreshToken.isSome = true ∨ Clear w
  | _, _, _, _ => True

/-- No locked step is broken off, and the process not restarted, while the outcome of the refresh
token of a signed-in session is open. -/
def settled : Condition where
  serve _ := Settled
  abort i w := w.memory.lock = some i → Safe w
  restart := Safe

def Unlocked (w : World) : Prop := w.memory.lock = none → Safe w

def InOrder (i : ℕ) : Request → World → Prop
  | .command (.reconcile (.session (.exchangeRefreshToken text))), w =>
    w.memory.lock = some i ∧ (SignedIn w → text ∉ w.history.exposed)
  | .command (.reconcile (.session (.setRefreshToken _ _))), w
  | .command (.reconcile (.session (.setUserToken _))), w => w.memory.lock = some i
  | .command (.reconcile (.session (.setSession _ (some token)))), w =>
    w.memory.lock = some i ∧ ∀ text, token.redeemed = some text → text ∉ w.history.exposed
  | .command (.reconcile (.session (.setSession session none))), _ => session.state ≠ .signedIn
  | .command (.reconcile (.session .unlockLogin)), w => w.memory.lock = some i ∧ Safe w
  | _, _ => True

/-- Nothing that is open is added, and nobody is signed in. -/
structure Calm (w w' : World) : Prop where
  lock : w'.memory.lock = w.memory.lock
  exposed : w'.history.exposed = w.history.exposed
  refreshToken : w'.refreshToken = w.refreshToken ∨ w'.refreshToken = none
  signedIn : SignedIn w' → SignedIn w

theorem Calm.refl (w : World) : Calm w w := ⟨rfl, rfl, .inl rfl, id⟩

theorem Calm.trans {w w' w'' : World} (h : Calm w w') (h' : Calm w' w'') : Calm w w'' where
  lock := h'.lock.trans h.lock
  exposed := h'.exposed.trans h.exposed
  refreshToken := h'.refreshToken.elim (fun he ↦ he ▸ h.refreshToken) .inr
  signedIn := fun hs ↦ h.signedIn (h'.signedIn hs)

theorem Calm.clear {w w' : World} (h : Calm w w') (hc : Clear w) : Clear w' := by
  intro text ht
  obtain hr | hr := h.refreshToken
  · rw [h.exposed]
    exact hc text (hr ▸ ht)
  · exact nomatch hr.symm.trans ht

theorem Calm.safe {w w' : World} (h : Calm w w') (hs : Safe w) : Safe w' :=
  fun hi ↦ h.clear (hs (h.signedIn hi))

/-- Whoever holds the lock finds nothing that was not open before. -/
def Undisturbed (i : ℕ) (w w' : World) : Prop := w.memory.lock = some i → Calm w w'

section Served

variable {setting : Setting} {fails : Prop} {i : ℕ} {w w' : World}

/-- The requests that present no token, take none over, and do not touch the lock. -/
def Quiet : SessionRequest → Prop
  | .exchangeRefreshToken _ | .setRefreshToken _ _ | .setUserToken _ | .setSession _ (some _)
  | .lockLogin | .unlockLogin => False
  | .setSession session none => session.state ≠ .signedIn
  | _ => True

theorem Calm.of_sameSession (h : SameSession w w') : Calm w w' :=
  ⟨by rw [h.memory], h.exposed, .inl h.refreshToken, fun hs ↦ by
    rw [SignedIn, h.session] at hs
    exact hs⟩

theorem calm_storedNoting {α : Type} {f : History → History}
    {operation : Except StoreError (α × Store)} {a : Except StoreError α}
    (h : w.StoredNoting f fails operation a w') (he : ∀ h, (f h).exposed = h.exposed)
    (hs : ∀ b s, operation = .ok (b, s) → s.session.any (·.state = .signedIn) = true →
      SignedIn w) : Calm w w' := by
  obtain ⟨rfl, -⟩ | ⟨b, s, hop, -, rfl⟩ := storedNoting_cases h
  · exact .refl _
  · exact ⟨rfl, he _, .inl rfl, hs b s hop⟩

theorem not_signedIn_stopSession (s : Store) (device : DeviceIdentifier) :
    (s.stopSession device).session.any (·.state = .signedIn) = false := by
  unfold Store.stopSession
  split <;> rfl

theorem calm_serveSession {r : SessionRequest} {a : SessionAnswer r} (hr : Quiet r)
    (h : serveSession setting fails i r w a w') : Calm w w' := by
  cases r with
  | setting | session =>
    rw [(read_cases h).1]
    exact .refl _
  | setSetting key value =>
    refine calm_storedNoting h (fun _ ↦ rfl) fun b s hop hs ↦ ?_
    rwa [session_setSetting (unit_eq_ok hop)] at hs
  | stopSession =>
    simp only [serveSession] at h
    refine calm_storedNoting h (fun _ ↦ rfl) fun b s hop hs ↦ ?_
    obtain ⟨-, rfl⟩ := Prod.mk.inj (Except.ok.inj hop)
    rw [not_signedIn_stopSession] at hs
    cases hs
  | setSession session token =>
    cases token with
    | some token => exact absurd hr id
    | none =>
      simp only [serveSession] at h
      refine calm_storedNoting h (fun _ ↦ rfl) fun b s hop hs ↦ ?_
      obtain ⟨-, rfl⟩ := Prod.mk.inj (Except.ok.inj hop)
      exact absurd (of_decide_eq_true hs) hr
  | emptyNamespace =>
    refine calm_storedNoting h (fun _ ↦ rfl) fun b s hop hs ↦ ?_
    cases he : w.store.emptyNamespace with
    | error e =>
      rw [he] at hop
      cases hop
    | ok x =>
      rw [he] at hop
      obtain ⟨-, rfl⟩ := Prod.mk.inj (Except.ok.inj hop)
      obtain ⟨-, hx⟩ := emptyNamespace_eq_ok he
      rwa [hx] at hs
  | exchangeRefreshToken | setRefreshToken | setUserToken | lockLogin | unlockLogin =>
    exact absurd hr id
  | newSessionKey =>
    obtain ⟨-, rfl⟩ | ⟨-, rfl | rfl⟩ := h <;> exact ⟨rfl, rfl, .inl rfl, id⟩
  | forgetSession =>
    obtain ⟨-, rfl⟩ | ⟨-, key, refresh, -, hrefresh, rfl⟩ := h
    · exact ⟨rfl, rfl, .inr rfl, id⟩
    · exact ⟨rfl, rfl, hrefresh.symm, id⟩
  | refreshToken | hasUserToken | tokenExpiry | state | isStopped | startDeviceLogin
  | waitOnToken =>
    obtain ⟨-, rfl⟩ := h
    exact .refl _
  | _ =>
    obtain rfl := h
    exact ⟨rfl, rfl, .inl rfl, id⟩

/-- What a single request does to what is open, and to what others hold. -/
theorem unlocked_serve {r : Request} {a : Answer r} (h : Unlocked w) (hok : InOrder i r w)
    (hserve : serve setting fails i r w a w') :
    Unlocked w' ∧ ∀ j, j ≠ i → Undisturbed j w w' := by
  have hcalm : Calm w w' → Unlocked w' ∧ ∀ j, j ≠ i → Undisturbed j w w' :=
    fun hc ↦ ⟨fun hl ↦ hc.safe (h (hc.lock ▸ hl)), fun _ _ _ ↦ hc⟩
  have hmine : w.memory.lock = some i → w'.memory.lock = some i →
      Unlocked w' ∧ ∀ j, j ≠ i → Undisturbed j w w' := by
    intro hlock hlock'
    refine ⟨fun hl ↦ (by cases hl.symm.trans hlock'), fun j hj hother ↦ ?_⟩
    exact absurd (Option.some.inj (hother.symm.trans hlock)) hj
  cases hr : sessionOf r with
  | none => exact hcalm (.of_sameSession (sameSession_serve hr hserve))
  | some q =>
    obtain rfl := eq_of_sessionOf hr
    change serveSession setting fails i q w a w' at hserve
    cases q with
    | exchangeRefreshToken text =>
      obtain ⟨attempt, -, -, rfl⟩ := hserve
      exact hmine hok.1 hok.1
    | setRefreshToken text token =>
      obtain ⟨-, rfl⟩ | ⟨-, rfl | rfl⟩ := hserve <;> exact hmine hok hok
    | setUserToken token =>
      obtain rfl := hserve
      exact hmine hok hok
    | setSession session token =>
      cases token with
      | none => exact hcalm (calm_serveSession (r := .setSession session none) hok hserve)
      | some token =>
        simp only [serveSession] at hserve
        obtain ⟨rfl, -⟩ | ⟨b, s, -, -, rfl⟩ := storedNoting_cases hserve <;>
          exact hmine hok.1 hok.1
    | lockLogin =>
      obtain ⟨hlock, rfl⟩ := hserve
      refine ⟨fun hl ↦ (by cases hl), fun j _ hother ↦ ?_⟩
      cases hlock.symm.trans hother
    | unlockLogin =>
      obtain rfl := hserve
      refine ⟨fun _ ↦ hok.2, fun j hj hother ↦ ?_⟩
      exact absurd (Option.some.inj (hother.symm.trans hok.1)) hj
    | _ =>
      refine hcalm (calm_serveSession ?_ hserve)
      trivial

end Served

def discipline : Discipline Request Answer World where
  invariant := Unlocked
  ok := InOrder
  rely := Undisturbed
  ends _ _ := True

section Steps

variable {setting : Setting} {fails : Prop} {i : ℕ}

abbrev contract (setting : Setting) (fails : Prop) (i : ℕ) : Contract Request Answer World :=
  discipline.knowing (rules setting fails settled) i

/-- The activity holds the lock, and nothing is open for a signed-in session. -/
def Held (i : ℕ) (w : World) : Prop := w.memory.lock = some i ∧ Safe w

theorem Held.of_calm {w w' : World} (h : Held i w) (hc : Calm w w') : Held i w' :=
  ⟨hc.lock.trans h.1, hc.safe h.2⟩

theorem inOrder_of_quiet {r : SessionRequest} (h : Quiet r) (w : World) :
    InOrder i (.command (.reconcile (.session r))) w := by
  cases r with
  | setSession session token => cases token <;> [exact h; exact absurd h id]
  | exchangeRefreshToken | setRefreshToken | setUserToken | lockLogin | unlockLogin =>
    exact absurd h id
  | _ => trivial

theorem quiet_of_enrolling (r : SessionRequest) (h : Enrolling r) : Quiet r := by
  cases r <;> first | trivial | exact absurd h id

theorem quiet_of_deviceTokens (r : SessionRequest) (h : DeviceTokens r) : Quiet r := by
  cases r with
  | setSession session token =>
    cases token with
    | some token => exact absurd h id
    | none =>
      have h : session.state = .awaitingApproval := h
      change session.state ≠ .signedIn
      rw [h]
      exact nofun
  | _ => first | trivial | exact absurd h id

theorem quiet_of_stopping (r : SessionRequest) (h : Stopping r) : Quiet r := by
  cases r <;> first | trivial | exact absurd h id

theorem quiet_of_clearing (r : SessionRequest) (h : Clearing r) : Quiet r := by
  cases r with
  | setSession session token =>
    cases token with
    | some token => exact absurd h id
    | none =>
      have h : session.state = .signedOut := h
      change session.state ≠ .signedIn
      rw [h]
      exact nofun
  | _ => first | trivial | exact absurd h id

theorem holding (setting : Setting) (fails : Prop) (i : ℕ) :
    Holding setting (sessions (contract setting fails i)) Quiet (Held i) where
  lock _ := trivial
  held w w₁ w₂ hs hr := by
    obtain ⟨⟨⟨hlock, rfl⟩, -⟩, hi⟩ := hs
    have hcalm := hr.1 rfl
    exact ⟨hcalm.lock, hcalm.safe (hi hlock)⟩
  rely w w' hw hr := hw.of_calm (hr.1 hw.1)
  unlock _ hw := hw
  outside r w hr := by cases r <;> first | trivial | exact absurd hr id
  ok _ w hr _ := inOrder_of_quiet hr w
  keep _ _ _ _ hr hw hs := hw.of_calm (calm_serveSession hr hs.1.1)
  enrolling := quiet_of_enrolling
  device w hw := sound_of_asks asks_fetchDeviceToken
    (fun r w hr hw ↦ ⟨inOrder_of_quiet (quiet_of_deviceTokens r hr) w, fun _ _ hs ↦
      hw.of_calm (calm_serveSession (quiet_of_deviceTokens r hr) hs.1.1)⟩)
    (fun w w' hw hr ↦ hw.of_calm (hr.1 hw.1)) hw
  freshness r hr := by cases r <;> first | trivial | exact absurd hr id
  isStopped := trivial

theorem calm_of_quiet {r : SessionRequest} {a : SessionAnswer r} {w w' : World} (hr : Quiet r)
    (hs : (sessions (contract setting fails i)).serve r w a w') : Calm w w' :=
  calm_serveSession hr hs.1.1

/-- What is open in the vault is what the token was exchanged for. -/
def Owing (token : TokenResponse) (w : World) : Prop :=
  ∀ text, w.refreshToken = some text → text ∈ w.history.exposed → token.redeemed = some text

theorem Owing.of_calm {token : TokenResponse} {w w' : World} (h : Owing token w)
    (hc : Calm w w') : Owing token w' := by
  intro text ht he
  obtain hr | hr := hc.refreshToken
  · exact h text (hr ▸ ht) (hc.exposed ▸ he)
  · exact nomatch hr.symm.trans ht

/-- The token is taken over: nothing is open in the vault, nor is what it was exchanged for. -/
def Taken (i : ℕ) (token : TokenResponse) (w : World) : Prop :=
  w.memory.lock = some i ∧ Clear w ∧ ∀ text, token.redeemed = some text → text ∉ w.history.exposed

theorem Taken.of_calm {token : TokenResponse} {w w' : World} (h : Taken i token w)
    (hc : Calm w w') : Taken i token w' :=
  ⟨hc.lock.trans h.1, hc.clear h.2.1, fun text ht ↦ hc.exposed ▸ h.2.2 text ht⟩

theorem taken_takeOver {token : TokenResponse} {w : World} (hlock : w.memory.lock = some i)
    (h : Owing token w) : Taken i token ((w.withMemory fun m ↦
      { m with userToken := some token }).noting (.takeOver token)) := by
  refine ⟨hlock, fun text ht he ↦ ?_, fun text ht he ↦ ?_⟩
  · obtain ⟨hm, hne⟩ := List.mem_filter.mp he
    exact of_decide_eq_true hne (h text ht hm).symm
  · obtain ⟨-, hne⟩ := List.mem_filter.mp he
    exact of_decide_eq_true hne ht.symm

theorem taken_kept {token : TokenResponse} (r : SessionRequest) (w : World) (hr : Using token r)
    (hw : Taken i token w) : (sessions (contract setting fails i)).ok r w ∧
      ∀ a w', (sessions (contract setting fails i)).serve r w a w' → Taken i token w' := by
  cases r with
  | setUserToken t =>
    obtain rfl := hr
    refine ⟨hw.1, fun a w' hs ↦ ?_⟩
    obtain ⟨⟨rfl, -⟩, -⟩ := hs
    exact taken_takeOver hw.1 fun text ht he ↦ (hw.2.1 text ht he).elim
  | setSession session t =>
    cases t with
    | none => exact absurd hr id
    | some t =>
      obtain ⟨-, rfl⟩ := hr
      refine ⟨⟨hw.1, hw.2.2⟩, fun a w' hs ↦ ?_⟩
      obtain ⟨⟨hs, -⟩, -⟩ := hs
      simp only [Port.serve, serveCommand, serveReconcile, serveSession] at hs
      obtain ⟨rfl, -⟩ | ⟨b, s, -, -, rfl⟩ := storedNoting_cases hs <;> exact hw
  | setRefreshToken | exchangeRefreshToken | lockLogin | unlockLogin => exact absurd hr id
  | _ =>
    refine ⟨trivial, fun a w' hs ↦ hw.of_calm (calm_of_quiet ?_ hs)⟩
    trivial

theorem sound_use {token : TokenResponse} {w : World} (hlock : w.memory.lock = some i)
    (h : Owing token w) : (sessions (contract setting fails i)).Sound (use setting token).run
      (fun _ ↦ Held i) w := by
  refine ⟨hlock, fun a w₁ w₂ hs hr ↦ ?_⟩
  obtain ⟨⟨rfl, -⟩, -⟩ := hs
  have htaken := (taken_takeOver hlock h).of_calm (hr.1 hlock)
  refine sound_mono (fun _ w hw ↦ ⟨hw.1, fun _ ↦ hw.2.1⟩)
    (sound_of_asks ((asks_use token).2 a) taken_kept ?_ htaken)
  exact fun w w' hw hr ↦ hw.of_calm (hr.1 hw.1)

theorem sound_adoptToken {token : TokenResponse} {w : World} (hlock : w.memory.lock = some i)
    (h : token.refreshToken = none → Owing token w) :
    (sessions (contract setting fails i)).Sound (adoptToken setting token).run
      (fun _ ↦ Held i) w := by
  cases ht : token.refreshToken with
  | none =>
    rw [adoptToken_none ht]
    exact sound_use hlock (h ht)
  | some refresh =>
    rw [adoptToken_some ht]
    refine ⟨hlock, fun a w₁ w₂ hs hr ↦ ?_⟩
    obtain ⟨⟨hs, hsafe, hnew⟩, -⟩ := hs
    cases a with
    | ok a =>
      obtain ⟨-, rfl⟩ | ⟨⟨e, he⟩, -⟩ := hs
      · have hcalm := hr.1 hlock
        refine sound_use (hcalm.lock.trans hlock) (Owing.of_calm (fun text ht he ↦ ?_) hcalm)
        obtain rfl := Option.some.inj ht
        exact hnew.elim (fun hn ↦ (hn he).elim) And.left
      · cases he
    | error e =>
      have hnew : refresh ∉ w.history.exposed := hnew.elim id fun h ↦ nomatch h.2
      obtain ⟨ha, -⟩ | ⟨-, rfl | rfl⟩ := hs
      · cases ha
      · refine Held.of_calm ⟨hlock, hsafe.elim id fun ht _ text ht' ↦ ?_⟩ (hr.1 hlock)
        obtain rfl := Option.some.inj (ht.symm.trans ht')
        exact hnew
      · have hheld : Held i (w.withRefreshToken refresh token.key) := by
          refine ⟨hlock, fun _ text ht ↦ ?_⟩
          obtain rfl := Option.some.inj ht
          exact hnew
        exact hheld.of_calm (hr.1 hlock)

/-- However a session ends under the lock, nothing is open for a signed-in one afterwards. -/
theorem sound_sessionStop {reason : String} {eraseSecrets : Bool} {w : World}
    (hlock : w.memory.lock = some i) :
    (sessions (contract setting fails i)).Sound (sessionStop reason eraseSecrets).run
      (fun _ ↦ Held i) w := by
  have K := holding setting fails i
  have hcalm : ∀ {r : SessionRequest} {a : SessionAnswer r} {w w₁ w₂ : World}, Quiet r →
      w.memory.lock = some i → (sessions (contract setting fails i)).serve r w a w₁ →
      (sessions (contract setting fails i)).rely w₁ w₂ → w₂.memory.lock = some i := by
    intro r a w w₁ w₂ hq hl hs hr
    have hstep := calm_of_quiet hq hs
    exact (hr.1 (hstep.lock.trans hl)).lock.trans (hstep.lock.trans hl)
  have hrest : ∀ w, w.memory.lock = some i → (sessions (contract setting fails i)).Sound (do
      call (.setTokenExpiry none)
      store (call .stopSession)
      call (.setState (.loginRequired reason) none) : SessionFallible Unit).run
        (fun _ ↦ Held i) w := by
    intro w hlock
    refine sound_lift_bind trivial fun _ w₁ w₂ hs hr ↦ ?_
    have hlock := hcalm (by trivial) hlock hs hr
    clear hs hr
    refine sound_fallible_bind ⟨trivial, fun a w₃ w₄ hs hr ↦ ?_⟩
    obtain ⟨⟨hstop, hok⟩, -⟩ := hs
    simp only [Port.serve, serveCommand, serveReconcile, serveSession] at hstop
    obtain ⟨rfl, e, rfl⟩ | ⟨b, s, hop, rfl, rfl⟩ := storedNoting_cases hstop
    · exact Held.of_calm ⟨hlock, hok.elim id fun h ↦ (by cases h)⟩ (hr.1 hlock)
    · have hheld : Held i { w₂.noting id with store := s } := by
        refine ⟨hlock, fun hin ↦ ?_⟩
        obtain ⟨-, rfl⟩ := Prod.mk.inj (Except.ok.inj hop)
        exact absurd hin (by rw [SignedIn, not_signedIn_stopSession]; exact (fun h ↦ by cases h))
      have hstate : (call (.setState (.loginRequired reason) none)).Asks Quiet :=
        ⟨trivial, fun _ ↦ trivial⟩
      exact K.sound_quiet (asks_lift hstate) (hheld.of_calm (hr.1 hlock))
  unfold sessionStop
  cases eraseSecrets with
  | false => exact hrest w hlock
  | true =>
    refine sound_lift_bind trivial fun _ w₁ w₂ hs hr ↦ ?_
    exact hrest w₂ (hcalm (by trivial) hlock hs hr)

theorem adopts_of_exchange {text : String} {a : SessionAnswer (.exchangeRefreshToken text)}
    {w w₁ w₂ : World} (hw : Held i w)
    (hs : (sessions (contract setting fails i)).serve (.exchangeRefreshToken text) w a w₁)
    (hr : (sessions (contract setting fails i)).rely w₁ w₂) :
    w₂.memory.lock = some i ∧
      (∀ token, a = .success token → Owing token w₂) ∧
      ∀ e, a = .networkError e → (∃ reason, e = .refreshUncertain reason) ∨ Held i w₂ := by
  obtain ⟨⟨⟨attempt, ha, hissued, rfl⟩, hin, hknown⟩, -⟩ := hs
  have hclear : Clear w := hw.2 hin
  have hcalm := hr.1 hw.1
  refine ⟨hcalm.lock.trans hw.1, fun token hsuccess ↦ Owing.of_calm (fun t ht he ↦ ?_) hcalm,
    fun e he ↦ ?_⟩
  · have hattempt := refreshToken_eq_success (ha.symm.trans hsuccess)
    rw [hattempt] at he
    obtain hm | hm := List.mem_append.mp he
    · exact (hclear t ht hm).elim
    · obtain rfl := List.mem_singleton.mp hm
      exact (hissued token hattempt).2.2
  · obtain hwithout | huncertain := hknown e he
    · have hheld : Held i (w.noting (.present text attempt)) := by
        refine ⟨hw.1, fun _ t ht hm ↦ hclear t ht ?_⟩
        have hnone := mayBeRedeemed_of_withoutEffect (ha.symm.trans he) hwithout
        change t ∈ (if mayBeRedeemed attempt = true then _ else _ : List String) at hm
        rwa [hnone] at hm
      exact .inr (hheld.of_calm hcalm)
    · exact .inl huncertain

theorem held_of_quiet {r : SessionRequest} {a : SessionAnswer r} {w w₁ w₂ : World} (hq : Quiet r)
    (hw : Held i w) (hs : (sessions (contract setting fails i)).serve r w a w₁)
    (hr : (sessions (contract setting fails i)).rely w₁ w₂) : Held i w₂ :=
  (holding setting fails i).rely w₁ w₂ (hw.of_calm (calm_of_quiet hq hs)) hr

theorem flow (setting : Setting) (fails : Prop) (i : ℕ) :
    Flow setting (sessions (contract setting fails i)) Quiet (Held i)
      (fun text w ↦ Held i w ∧ (SignedIn w → text ∉ w.history.exposed)) (fun _ ↦ Held i)
      (fun token w ↦ w.memory.lock = some i ∧ (token.refreshToken = none → Owing token w))
      (fun w ↦ w.memory.lock = some i) where
  toHolding := holding setting fails i
  refreshToken := trivial
  missed := trivial
  read w a w₁ w₂ text hw hs hr ha := by
    have hheld := held_of_quiet (by trivial) hw hs hr
    have hcalm := (calm_of_quiet (by trivial) hs).trans
      (hr.1 ((calm_of_quiet (by trivial) hs).lock.trans hw.1))
    refine ⟨hheld, fun hin ↦ ?_⟩
    rw [hcalm.exposed]
    subst ha
    obtain ⟨ha | ⟨e, ha⟩, -⟩ := hs.1.1
    · exact hw.2 (hcalm.signedIn hin) text (Except.ok.inj ha).symm
    · cases ha
  exchange text w := by
    intro ⟨hw, hnew⟩
    refine ⟨⟨hw.1, hnew⟩, fun a w₁ w₂ hs hr ↦ ?_⟩
    obtain ⟨hlock, hsuccess, herror⟩ := adopts_of_exchange hw hs hr
    cases a with
    | success token => exact ⟨hlock, fun _ ↦ hsuccess token rfl⟩
    | networkError error =>
      cases error with
      | refreshUncertain reason => exact hlock
      | _ => exact (herror _ rfl).elim (fun ⟨_, he⟩ ↦ nomatch he) id
    | _ => exact hlock
  stop _ _ _ hw := sound_sessionStop hw
  finished _ hw := hw.1
  adopt _ _ hw := sound_adoptToken hw.1 hw.2
  newKey w hw := by
    refine ⟨trivial, fun a w₁ w₂ hs hr ↦ ?_⟩
    have hheld := held_of_quiet (by trivial) hw hs hr
    exact ⟨hheld, fun _ ↦ hheld⟩
  start w hw := by
    refine ⟨trivial, fun a w₁ w₂ hs hr ↦ ?_⟩
    have hheld := held_of_quiet (by trivial) hw hs hr
    exact ⟨hheld, fun _ _ ↦ hheld⟩
  shown login w hw := ⟨trivial, fun _ _ _ hs hr ↦ held_of_quiet (by trivial) hw hs hr⟩
  wait login w hw := by
    refine ⟨trivial, fun a w₁ w₂ hs hr ↦ ?_⟩
    have hheld := held_of_quiet (by trivial) hw hs hr
    refine ⟨hheld, fun token ha ↦ ⟨hheld.1, fun hnone text ht he ↦ ?_⟩⟩
    have hcalm := (calm_of_quiet (by trivial) hs).trans
      (hr.1 ((calm_of_quiet (by trivial) hs).lock.trans hw.1))
    have hclear : Clear w := by
      refine (hs.1.2 token ha).elim (fun hsome ↦ ?_) id
      rw [hnone] at hsome
      cases hsome
    exact (hcalm.clear hclear text ht he).elim

theorem inOrder_of_harmless {r : Request} (h : Harmless r) (w : World) : InOrder i r w := by
  unfold InOrder
  split <;> trivial

theorem inOrder_of_fetching (r : ReconcileRequest) (w : World) (h : Fetching r) :
    InOrder i (.command (.reconcile r)) w := by
  cases r with
  | session request => exact inOrder_of_harmless (r := .command (.reconcile (.session request))) h w
  | _ => trivial

theorem orderly (setting : Setting) (fails : Prop) (i : ℕ) :
    Orderly setting (contract setting fails i) where
  harmless _ w h _ := inOrder_of_harmless h w
  ensureForToken := (flow setting fails i).fine_ensureForToken
  forceRefresh := (flow setting fails i).fine_forceRefresh
  signIn := (flow setting fails i).fine_signIn
  signOut := (holding setting fails i).fine_signOut trivial (fun _ ↦ trivial) fun _ hw ↦
    (holding setting fails i).sound_quiet (asks_clearAfterSignOut.mono quiet_of_clearing) hw
  clearAfterSignOut := fine_of_asks (asks_clearAfterSignOut.mono quiet_of_clearing) fun _ w hr ↦
    inOrder_of_quiet hr w
  root := fine_of_asks (fetching_adopt _ _ _ _ _) inOrder_of_fetching
  fetchAndAdopt container :=
    fine_of_asks (fetching_fetchAndAdopt setting container) inOrder_of_fetching

end Steps

theorem calm_ended (i : ℕ) (w : World) : Calm w (ended i w) := by
  obtain he | ⟨-, he⟩ := ended_cases i w <;> rw [he] <;> exact ⟨rfl, rfl, .inl rfl, id⟩

theorem kept (setting : Setting) (fails : Prop) :
    discipline.Kept (rules setting fails settled) (Fresh setting) where
  refl _ w _ := .refl w
  trans _ _ _ _ h h' hlock := (h hlock).trans (h' ((h hlock).lock.trans hlock))
  enter w := by
    intro ⟨n, limit, hw⟩ _ hin
    rw [hw] at hin
    cases hin
  start i p w hi := by
    intro ⟨job, hp, _⟩ w' _ hi'
    rw [hp]
    exact Discipline.sound_of_knowing hi' (fine_program (orderly setting fails i)
      (fine_process (orderly setting fails i) fun _ _ _ ↦ trivial)
      (fine_content (orderly setting fails i) fun _ _ ↦ trivial) job w')
  serve i r w a w' hi hok hserve := unlocked_serve hi hok hserve.1
  finish i w w' hi _ hw := by
    obtain rfl := hw
    have hcalm := calm_ended i w
    exact ⟨fun hl ↦ hcalm.safe (hi (hcalm.lock ▸ hl)), fun _ _ _ ↦ hcalm⟩
  abort i w w' hi hw := by
    obtain ⟨⟨-, hc⟩, rfl⟩ := hw
    have hcalm := calm_ended i w
    have hlock : (aborted i w).memory.lock =
        if w.memory.lock = some i then none else w.memory.lock := by
      rw [← hcalm.lock]
      rfl
    refine ⟨fun hl ↦ hcalm.safe ?_, fun j hj hother ↦ ⟨?_, hcalm.exposed, hcalm.refreshToken,
      hcalm.signedIn⟩⟩
    · rw [hlock] at hl
      split at hl
      · exact hc ‹_›
      · exact hi hl
    · rw [hlock, hother, if_neg fun he ↦ hj (Option.some.inj he)]
  restart w w' hi hw := by
    obtain ⟨hc, fingerprint, rfl⟩ := hw
    exact fun _ ↦ hc
  outside w w' hi hw := by
    obtain ⟨-, rfl⟩ := hw
    exact ⟨hi, fun _ _ ↦ ⟨rfl, rfl, .inl rfl, id⟩⟩

/-- In every run that settles its renewals, no refresh token is presented again whose outcome is
open. -/
theorem once_of_every_run {setting : Setting} {fails : Prop} {c : Activities}
    (h : Runs setting fails settled c) : Once (rules setting fails settled) c where
  presented _ _ _ _ _ hrun hserve :=
    (Discipline.ok_of_run (kept setting fails) h hrun).2 hserve.2.1
  back _ session token _ hrun hin := by
    have hok := Discipline.ok_of_run (kept setting fails) h hrun
    cases token with
    | none => exact absurd hin hok
    | some t => exact ⟨t, rfl, hok.2⟩

section Settling

open FolderClient.Engine.Play

/-- The condition, where nothing fails and no token is open in the vault. -/
def settles : ℕ → (r : Request) → World → Answer r → World → Bool
  | _, .command (.reconcile (.session (.exchangeRefreshToken _))), w, a, _ =>
    w.store.session.any (·.state = .signedIn) && match a with
      | .networkError e => e.withoutEffect
      | _ => true
  | _, .command (.reconcile (.session .stopSession)), _, _, _ => false
  | _, .command (.reconcile (.session (.setRefreshToken text _))), w, _, w' =>
    w'.refreshToken = some text && !w.history.exposed.contains text
  | _, .command (.reconcile (.session (.waitOnToken _))), w, _, _ => w.refreshToken.isNone
  | _, _, _, _, _ => true

theorem settled_of_settles {i : ℕ} {r : Request} {w w' : World} {a : Answer r}
    (h : settles i r w a w' = true) : settled.serve i r w a w' := by
  change Settled r w a w'
  unfold settles at h
  split at h
  · obtain ⟨hin, ha⟩ := Bool.and_eq_true_iff.mp h
    refine ⟨hin, fun e he ↦ .inl ?_⟩
    rw [he] at ha
    exact ha
  · cases h
  · simp only [Bool.and_eq_true, decide_eq_true_eq, Bool.not_eq_true', List.contains_eq_mem,
      decide_eq_false_iff_not] at h
    exact ⟨.inr h.1, .inl h.2⟩
  · intro token _
    right
    intro text ht
    rw [Option.isNone_iff_eq_none.mp h] at ht
    cases ht
  · rename_i hexchange hstop hstore hwait
    unfold Settled
    split
    · exact (hexchange _ _ rfl HEq.rfl).elim
    · exact (hstop _ rfl HEq.rfl).elim
    · exact (hstore _ _ _ rfl HEq.rfl).elim
    · exact (hwait _ _ rfl HEq.rfl).elim
    · trivial

/-- Somebody signs in. -/
def entered : List Move := whole 63 1 .signIn (welcoming (plainPage ["x"] "L"))

/-- Somebody signs in, and the session is renewed with a new refresh token. -/
def renewed : List Move :=
  entered ++ whole 18 1 .forceRefresh
    { exchange := .ok (.issued ⟨"access", 100000, some "second", none, 0, 0, none⟩) }

theorem once_renewed : ∃ c, Runs plain False settled c ∧
    c.state.history.vaulted = ["refresh", "second"] ∧ Once (rules plain False settled) c := by
  obtain ⟨c, hplay, hvaulted⟩ := (Option.any_eq_true (fun c : Activities ↦
    c.state.history.vaulted = ["refresh", "second"])
      (playIf plain settles (freshEngine plain) renewed)).mp (by decide +kernel)
  have hrun := runs_of_playIf (fun i r w a w' ↦ settled_of_settles) runs_freshEngine hplay
  exact ⟨c, hrun, of_decide_eq_true hvaulted, once_of_every_run hrun⟩

/-- Somebody signs in, a renewal times out, and a token is asked for once more. -/
def askedAgain : List Move :=
  entered ++ whole 11 1 .forceRefresh { exchange := .error (.timeout "server") } ++
    .start 1 .ensureForToken :: asks 5 1 {}

/-- The refresh token an activity is about to present. -/
def presents : Option (Activity Unit) → Option String
  | some (.ask (.command (.reconcile (.session (.exchangeRefreshToken text)))) _) => some text
  | _ => none

theorem presented_again : ¬ ∀ (setting : Setting) (fails : Prop) (c : Activities),
    Runs setting fails {} c → Once (rules setting fails {}) c := by
  intro hall
  obtain ⟨c, hplay, hc⟩ := (Option.any_eq_true (fun c : Activities ↦
    decide (presents (c.running 1) = some "refresh") &&
      c.state.history.exposed.contains "refresh")
        (play plain (freshEngine plain) askedAgain)).mp (by decide +kernel)
  obtain ⟨hpresents, hexposed⟩ := Bool.and_eq_true_iff.mp hc
  have hpresents := of_decide_eq_true hpresents
  unfold presents at hpresents
  split at hpresents
  · rename_i text next hrun
    obtain rfl := Option.some.inj hpresents
    have hserve : (rules plain False {}).serve 1
        (.command (.reconcile (.session (.exchangeRefreshToken "refresh")))) c.state
        (refreshToken (.error (.timeout "server")))
        (c.state.noting (.present "refresh" (.error (.timeout "server")))) :=
      ⟨⟨_, rfl, fun token ht ↦ (nomatch ht), rfl⟩, trivial⟩
    have honce := hall plain False c (runs_of_play runs_freshEngine hplay)
    exact honce.presented 1 "refresh" next _ _ hrun hserve (List.contains_iff_mem.mp hexposed)
  · cases hpresents

end Settling

end FolderClient.Engine.OnceRuns
