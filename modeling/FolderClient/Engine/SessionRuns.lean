import FolderClient.Engine.Gathering
import FolderClient.Engine.Locking
import FolderClient.Engine.Play
import FolderClient.Storage.Listings

namespace FolderClient.Engine.SessionRuns

open FolderClient.Core.Namespace FolderClient.Engine.Effects FolderClient.Engine.Gathering
open FolderClient.Engine.Locking
open FolderClient.Engine.Orderly FolderClient.Engine.Port FolderClient.Engine.Reconcile
open FolderClient.Engine.Session FolderClient.Engine.System FolderClient.Library.Pools
open FolderClient.Library.Programs FolderClient.Library.Programs.Program
open FolderClient.Library.Results
open FolderClient.Library.Programs.Contract FolderClient.Net.Access FolderClient.Storage.Basic
open FolderClient.Storage.Effects
open FolderClient.Engine.Port.SessionRequest (call)

/-- The token that a request of the session takes over. -/
def takenOver : SessionRequest → Option TokenResponse
  | .setRefreshToken _ token | .setUserToken token => some token
  | .setSession _ token | .setState _ token => token
  | _ => none

/-- A listing that was fetched with a token of an earlier session is written, or such a token is
taken over. -/
def Foreign : (r : Request) → Answer r → World → Prop
  | .command (.reconcile (.replaceContainer _ _ _ tokens)), a, w =>
    a.isOk = true ∧ ∃ t ∈ tokens, t.begun ≠ w.history.signOuts
  | .command (.reconcile (.session r)), _, w =>
    ∃ t, takenOver r = some t ∧ t.begun ≠ w.history.signOuts
  | _, _, _ => False

/-- When a sign-out is completed, no other step is under way under the lock of the sign-in, and no
token was stored since the secrets were erased. -/
def Completes (i : ℕ) : Request → World → Prop
  | .command (.reconcile (.session .signOutCompleted)), w =>
    (w.memory.lock = none ∨ w.memory.lock = some i) ∧ w.memory.userToken = none
  | _, _ => True

/-- How many sign-outs had been completed when the pages in hand were asked for. -/
abbrev Ledger := ℕ → List ℕ

def note (i : ℕ) : (r : Request) → Answer r → World → Ledger → Ledger
  | .command (.reconcile (.listPage _ cursor _)), _, w, l =>
    Function.update l i
      (if cursor = none then [w.history.signOuts] else l i ++ [w.history.signOuts])
  | _, _, _, l => l

/-- A listing whose pages were asked for before the last sign-out was completed is written only
where its container is not known. -/
def Timely (i : ℕ) : Request → World × Ledger → Prop
  | .command (.reconcile (.replaceContainer container _ _ tokens)), s =>
    tokens = [] ∨ (∀ n ∈ s.2 i, n = s.1.history.signOuts) ∨
      s.1.store.containerKnown container = false
  | _, _ => True

def timing (setting : Setting) (fails : Prop) : Rules Request Answer (World × Ledger) :=
  (rules setting fails {}).beside note (fun _ _ ↦ False) fun i r s ↦
    Completes i r s.1 ∧ Timely i r s

def FreshLedger (setting : Setting) (s : World × Ledger) : Prop :=
  Fresh setting s.1 ∧ s.2 = fun _ ↦ []

/-- The runs of the engine under the condition. -/
def TimelyRuns (setting : Setting) (fails : Prop) (c : Pool Request Answer (World × Ledger)) :
    Prop :=
  (timing setting fails).Run (FreshLedger setting) c

theorem runs_of_timely {setting : Setting} {fails : Prop}
    {c : Pool Request Answer (World × Ledger)} (h : TimelyRuns setting fails c) :
    Runs setting fails {} ⟨c.state.1, c.running⟩ :=
  Rules.run_of_beside (fun _ hf ↦ hf.1) h

/-- The access token is one of the session as it is. -/
def Own (w : World) : Prop :=
  ∀ token, w.memory.userToken = some token → token.begun = w.history.signOuts

def InOrder (i : ℕ) : Request → World → Prop
  | .command (.reconcile (.session .unlockLogin)), w => w.memory.lock = some i
  | .command (.reconcile (.session r)), w =>
    ∀ t, takenOver r = some t → t.begun = w.history.signOuts
  | _, _ => True

theorem begun_of_inOrder {i : ℕ} {r : SessionRequest} {w : World} {t : TokenResponse}
    (h : InOrder i (.command (.reconcile (.session r))) w) (ht : takenOver r = some t) :
    t.begun = w.history.signOuts := by
  cases r with
  | unlockLogin => cases ht
  | _ => exact h t ht

/-- Whoever holds the lock keeps it, and no sign-out is completed meanwhile. -/
def Undisturbed (i : ℕ) (w w' : World) : Prop :=
  w.memory.lock = some i →
    w'.memory.lock = some i ∧ w'.history.signOuts = w.history.signOuts

section Served

variable {setting : Setting} {fails : Prop} {i : ℕ} {w w' : World}

/-- The requests that leave the lock and the number of sign-outs. -/
def Steady : SessionRequest → Prop
  | .lockLogin | .unlockLogin | .signOutCompleted => False
  | _ => True

theorem steady_serve {r : SessionRequest} {a : SessionAnswer r} (hr : Steady r)
    (h : serveSession setting fails i r w a w') :
    w'.memory.lock = w.memory.lock ∧ w'.history.signOuts = w.history.signOuts := by
  cases r with
  | setting | session | setSetting | stopSession | setSession | emptyNamespace =>
    simp only [serveSession, World.Stored] at h
    obtain ⟨rfl, -⟩ | ⟨b, s, -, -, rfl⟩ := storedNoting_cases h <;> exact ⟨rfl, rfl⟩
  | lockLogin | unlockLogin | signOutCompleted => exact hr.elim
  | setRefreshToken | newSessionKey =>
    obtain ⟨-, rfl⟩ | ⟨-, rfl | rfl⟩ := h <;> exact ⟨rfl, rfl⟩
  | forgetSession =>
    obtain ⟨-, rfl⟩ | ⟨-, key, refresh, -, -, rfl⟩ := h <;> exact ⟨rfl, rfl⟩
  | exchangeRefreshToken text =>
    obtain ⟨attempt, -, -, rfl⟩ := h
    exact ⟨rfl, rfl⟩
  | refreshToken | hasUserToken | tokenExpiry | state | isStopped | startDeviceLogin
  | waitOnToken =>
    obtain ⟨-, rfl⟩ := h
    exact ⟨rfl, rfl⟩
  | _ =>
    obtain rfl := h
    exact ⟨rfl, rfl⟩

theorem userToken_serve {r : SessionRequest} {a : SessionAnswer r}
    (h : serveSession setting fails i r w a w') :
    w'.memory.userToken = w.memory.userToken ∨ w'.memory.userToken = none ∨
      ∃ token, r = .setUserToken token ∧ w'.memory.userToken = some token := by
  cases r with
  | setting | session | setSetting | stopSession | setSession | emptyNamespace =>
    simp only [serveSession, World.Stored] at h
    obtain ⟨rfl, -⟩ | ⟨b, s, -, -, rfl⟩ := storedNoting_cases h <;> exact .inl rfl
  | setRefreshToken | newSessionKey =>
    obtain ⟨-, rfl⟩ | ⟨-, rfl | rfl⟩ := h <;> exact .inl rfl
  | forgetSession =>
    obtain ⟨-, rfl⟩ | ⟨-, key, refresh, -, -, rfl⟩ := h <;> exact .inr (.inl rfl)
  | setUserToken token =>
    obtain rfl := h
    exact .inr (.inr ⟨token, rfl, rfl⟩)
  | exchangeRefreshToken text =>
    obtain ⟨attempt, -, -, rfl⟩ := h
    exact .inl rfl
  | refreshToken | hasUserToken | tokenExpiry | state | isStopped | startDeviceLogin
  | waitOnToken | lockLogin =>
    obtain ⟨-, rfl⟩ := h
    exact .inl rfl
  | _ =>
    obtain rfl := h
    exact .inl rfl

theorem own_serveSession {r : SessionRequest} {a : SessionAnswer r}
    (hw : Own w) (hok : InOrder i (.command (.reconcile (.session r))) w)
    (hc : Completes i (.command (.reconcile (.session r))) w)
    (h : serveSession setting fails i r w a w') : Own w' := by
  intro token ht
  by_cases hr : r = .signOutCompleted
  · subst hr
    obtain rfl := h
    exact nomatch hc.2.symm.trans ht
  have hsame : w'.history.signOuts = w.history.signOuts := by
    by_cases hsteady : Steady r
    · exact (steady_serve hsteady h).2
    · unfold Steady at hsteady
      split at hsteady
      · exact congrArg (·.history.signOuts) h.2
      · exact congrArg (·.history.signOuts) h
      · exact absurd rfl hr
      · exact absurd trivial hsteady
  rw [hsame]
  obtain hkept | hnone | ⟨taken, rfl, htaken⟩ := userToken_serve h
  · exact hw token (hkept ▸ ht)
  · exact nomatch hnone.symm.trans ht
  · obtain rfl := Option.some.inj (htaken.symm.trans ht)
    exact hok taken rfl

/-- What a single request does to the token in use, and to what the holder of the lock relies
on. -/
theorem own_serve {r : Request} {a : Answer r} (hw : Own w) (hok : InOrder i r w)
    (hc : Completes i r w) (h : serve setting fails i r w a w') :
    Own w' ∧ ∀ j, j ≠ i → Undisturbed j w w' := by
  cases hr : sessionOf r with
  | none =>
    have hsame := sameSession_serve hr h
    refine ⟨fun token ht ↦ ?_, fun j _ hlock ↦ ⟨by rw [hsame.memory, hlock], hsame.signOuts⟩⟩
    rw [hsame.signOuts]
    exact hw token (hsame.memory ▸ ht)
  | some q =>
    obtain rfl := eq_of_sessionOf hr
    refine ⟨own_serveSession hw hok hc h, fun j hj hlock ↦ ?_⟩
    by_cases hsteady : Steady q
    · obtain ⟨hsame, hsign⟩ := @steady_serve setting fails i w w' q a hsteady h
      exact ⟨hsame.trans hlock, hsign⟩
    · unfold Steady at hsteady
      split at hsteady
      · exact nomatch h.1.symm.trans hlock
      · exact absurd (Option.some.inj (hlock.symm.trans hok)) hj
      · obtain hnone | hmine := hc.1
        · exact nomatch hnone.symm.trans hlock
        · exact absurd (Option.some.inj (hlock.symm.trans hmine)) hj
      · exact absurd trivial hsteady

end Served

def discipline : Discipline Request Answer World where
  invariant := Own
  ok := InOrder
  rely := Undisturbed
  ends _ _ := True

section Flow

variable {setting : Setting} {fails : Prop} {i : ℕ}

abbrev contract (setting : Setting) (fails : Prop) (i : ℕ) : Contract Request Answer World :=
  discipline.contract (rules setting fails {}) i

def Held (i : ℕ) (w : World) : Prop := w.memory.lock = some i

/-- The requests that take no token over and leave the lock to whoever has it. -/
def Quiet : SessionRequest → Prop
  | .setRefreshToken _ _ | .setUserToken _ | .setSession _ (some _) | .setState _ (some _)
  | .lockLogin | .unlockLogin => False
  | _ => True

theorem inOrder_of_quiet {r : SessionRequest} (h : Quiet r) (w : World) :
    InOrder i (.command (.reconcile (.session r))) w := by
  cases r with
  | setSession session token | setState state token =>
    cases token with
    | none => exact fun t ht ↦ nomatch ht
    | some token => exact h.elim
  | setRefreshToken | setUserToken | lockLogin | unlockLogin => exact h.elim
  | _ => exact fun t ht ↦ nomatch ht

theorem held_serve {r : SessionRequest} {a : SessionAnswer r} {w w' : World} (hw : Held i w)
    (hr : Quiet r) (h : serveSession setting fails i r w a w') : Held i w' := by
  by_cases hsign : r = .signOutCompleted
  · subst hsign
    obtain rfl := h
    exact hw
  · have hsteady : Steady r := by
      unfold Steady
      split
      · exact hr.elim
      · exact hr.elim
      · exact absurd rfl hsign
      · trivial
    exact (steady_serve hsteady h).1.trans hw

theorem quiet_of_deviceTokens (r : SessionRequest) (h : DeviceTokens r) : Quiet r := by
  cases r with
  | setState state token =>
    cases token with
    | none => trivial
    | some token => cases state <;> exact h.elim
  | setSession session token =>
    cases token with
    | none => trivial
    | some token => exact h.elim
  | setting | fetchDeviceToken | setDeviceToken => trivial
  | _ => exact h.elim

theorem quiet_of_enrolling (r : SessionRequest) (h : Enrolling r) : Quiet r := by
  cases r with
  | setState state token =>
    cases token with
    | none => trivial
    | some token => cases state <;> exact h.elim
  | setting | setSetting | enrollmentCode | registerDevice => trivial
  | _ => exact h.elim

theorem quiet_of_stopping (r : SessionRequest) (h : Stopping r) : Quiet r := by
  cases r with
  | setState state token =>
    cases token with
    | none => trivial
    | some token => cases state <;> exact h.elim
  | forgetSession | setTokenExpiry | stopSession => trivial
  | _ => exact h.elim

theorem quiet_of_clearing (r : SessionRequest) (h : Clearing r) : Quiet r := by
  cases r with
  | setSession session token =>
    cases token with
    | none => trivial
    | some token => exact h.elim
  | clearBegins | fileSystem | clearEverything | emptyNamespace | forgetSession | setTokenExpiry
  | signOutCompleted => trivial
  | _ => exact h.elim

theorem holding (setting : Setting) (fails : Prop) (i : ℕ) :
    Holding setting (sessions (contract setting fails i)) Quiet (Held i) where
  lock _ := fun t ht ↦ nomatch ht
  held w w₁ w₂ hs hr := by
    obtain ⟨-, rfl⟩ := hs.1
    exact (hr.1 rfl).1
  rely w w' hw hr := (hr.1 hw).1
  unlock _ hw := hw
  outside r w hr := inOrder_of_quiet (by cases r <;> trivial) w
  ok _ w hr _ := inOrder_of_quiet hr w
  keep _ _ _ _ hr hw hs := held_serve hw hr hs.1
  enrolling := quiet_of_enrolling
  device w hw := by
    refine sound_of_asks asks_fetchDeviceToken (fun r w hr hw ↦ ?_)
      (fun w w' hw hr ↦ (hr.1 hw).1) hw
    have hquiet := quiet_of_deviceTokens r hr
    exact ⟨inOrder_of_quiet hquiet w, fun a w' hs ↦ held_serve hw hquiet hs.1⟩
  freshness r hr := by cases r <;> trivial
  isStopped := trivial

/-- A takeover of a token that was begun in the session as it is. -/
theorem sound_adoptToken {token : TokenResponse} {w : World} (hw : Held i w)
    (hbegun : token.begun = w.history.signOuts) :
    (sessions (contract setting fails i)).Sound (adoptToken setting token).run
      (fun _ ↦ Held i) w := by
  have husing : ∀ r, Using token r → Steady r ∧ ∀ t, takenOver r = some t → t = token := by
    intro r hr
    cases r with
    | setUserToken t => exact ⟨trivial, fun t' ht ↦ (Option.some.inj ht).symm.trans hr⟩
    | setSession session t =>
      cases t with
      | none => exact hr.elim
      | some t => exact ⟨trivial, fun t' ht ↦ (Option.some.inj ht).symm.trans hr.2⟩
    | setState state t =>
      cases t with
      | none => cases state <;> exact hr.elim
      | some t =>
        cases state with
        | signedIn => exact ⟨trivial, fun t' ht ↦ (Option.some.inj ht).symm.trans hr⟩
        | _ => exact hr.elim
    | now | setTokenExpiry | setting | setSetting | fileSystem | placeReady =>
      exact ⟨trivial, fun t ht ↦ nomatch ht⟩
    | _ => exact hr.elim
  have huse : ∀ w, Held i w ∧ token.begun = w.history.signOuts →
      (sessions (contract setting fails i)).Sound (use setting token).run
        (fun _ ↦ Held i) w := by
    intro w hw
    refine sound_mono (fun _ _ h ↦ h.1) (sound_of_asks
      (I := fun w ↦ Held i w ∧ token.begun = w.history.signOuts) (asks_use token)
      (fun r w hr hw ↦ ?_) (fun w w' hw hr ↦ ?_) hw)
    · obtain ⟨hsteady, htaken⟩ := husing r hr
      refine ⟨?_, fun a w' hs ↦ ?_⟩
      · cases r with
        | unlockLogin => exact hr.elim
        | _ => exact fun t ht ↦ htaken t ht ▸ hw.2
      · obtain ⟨hlock, hsign⟩ := steady_serve hsteady hs.1
        exact ⟨hlock.trans hw.1, hw.2.trans hsign.symm⟩
    · obtain ⟨hlock, hsign⟩ := hr.1 hw.1
      exact ⟨hlock, hw.2.trans hsign.symm⟩
  cases ht : token.refreshToken with
  | none =>
    rw [adoptToken_none ht]
    exact huse w ⟨hw, hbegun⟩
  | some refresh =>
    rw [adoptToken_some ht]
    refine ⟨fun t ht ↦ Option.some.inj ht ▸ hbegun, fun a w₁ w₂ hs hr ↦ ?_⟩
    have hserve : serveSession setting fails i (.setRefreshToken refresh token) w a w₁ := hs.1
    have hsteady : Steady (.setRefreshToken refresh token) := trivial
    obtain ⟨hlock, hsign⟩ := steady_serve hsteady hserve
    obtain ⟨hlock₂, hsign₂⟩ := hr.1 (hlock.trans hw)
    cases a with
    | ok a => exact huse w₂ ⟨hlock₂, hbegun.trans (hsign₂.trans hsign).symm⟩
    | error e => exact hlock₂

/-- A steady request of the holder of the lock, and whatever others do after it. -/
theorem steady_of_held {r : SessionRequest} {a : SessionAnswer r} {w w₁ w₂ : World}
    (hr : Steady r) (hw : Held i w)
    (hs : (sessions (contract setting fails i)).serve r w a w₁)
    (hrely : (sessions (contract setting fails i)).rely w₁ w₂) :
    Held i w₂ ∧ w₂.history.signOuts = w.history.signOuts := by
  obtain ⟨hlock, hsign⟩ := steady_serve hr hs.1
  obtain ⟨hlock₂, hsign₂⟩ := hrely.1 (hlock.trans hw)
  exact ⟨hlock₂, hsign₂.trans hsign⟩

theorem flow (setting : Setting) (fails : Prop) (i : ℕ) :
    Flow setting (sessions (contract setting fails i)) Quiet (Held i) (fun _ ↦ Held i)
      (fun login w ↦ Held i w ∧ ∀ l, login = some l → l.begun = w.history.signOuts)
      (fun token w ↦ Held i w ∧ token.begun = w.history.signOuts) (Held i) where
  toHolding := holding setting fails i
  refreshToken := trivial
  missed := trivial
  read w a w₁ w₂ text hw hs hr _ := (steady_of_held (by trivial) hw hs hr).1
  exchange text w hw := by
    refine ⟨(fun t ht ↦ nomatch ht), fun a w₁ w₂ hs hr ↦ ?_⟩
    obtain ⟨hheld, hsign⟩ := steady_of_held (by trivial) hw hs hr
    cases a with
    | success token =>
      obtain ⟨attempt, ha, hissued, -⟩ := hs.1
      have hbegun := (hissued token (refreshToken_eq_success ha.symm)).1
      exact ⟨hheld, hbegun.trans hsign.symm⟩
    | networkError error => cases error <;> exact hheld
    | _ => exact hheld
  stop reason eraseSecrets w hw := (holding setting fails i).sound_quiet
    ((asks_sessionStop reason eraseSecrets).mono quiet_of_stopping) hw
  finished _ hw := hw
  adopt token w hw := sound_adoptToken hw.1 hw.2
  newKey w hw := by
    refine ⟨(fun t ht ↦ nomatch ht), fun a w₁ w₂ hs hr ↦ ?_⟩
    have hheld := (steady_of_held (by trivial) hw hs hr).1
    exact ⟨hheld, fun _ ↦ ⟨hheld, fun l hl ↦ nomatch hl⟩⟩
  start w hw := by
    refine ⟨(fun t ht ↦ nomatch ht), fun a w₁ w₂ hs hr ↦ ?_⟩
    obtain ⟨hheld, hsign⟩ := steady_of_held (by trivial) hw.1 hs hr
    refine ⟨hheld, fun login ha ↦ ⟨hheld, fun l hl ↦ ?_⟩⟩
    obtain rfl := Option.some.inj hl
    exact (hs.1.1 login ha).trans hsign.symm
  shown login w hw := by
    refine ⟨(fun t ht ↦ nomatch ht), fun a w₁ w₂ hs hr ↦ ?_⟩
    obtain ⟨hheld, hsign⟩ := steady_of_held (by trivial) hw.1 hs hr
    exact ⟨hheld, fun l hl ↦ (hw.2 l hl).trans hsign.symm⟩
  wait login w hw := by
    refine ⟨(fun t ht ↦ nomatch ht), fun a w₁ w₂ hs hr ↦ ?_⟩
    obtain ⟨hheld, hsign⟩ := steady_of_held (by trivial) hw.1 hs hr
    refine ⟨hheld, fun token ha ↦ ⟨hheld, ?_⟩⟩
    exact ((hs.1.1 token ha).1).trans ((hw.2 login rfl).trans hsign.symm)

theorem fine_clearAfterSignOut :
    (sessions (contract setting fails i)).Fine (clearAfterSignOut setting).run :=
  fine_of_asks (asks_clearAfterSignOut.mono quiet_of_clearing) fun _ w hr ↦ inOrder_of_quiet hr w

theorem fine_signOut : (sessions (contract setting fails i)).Fine (signOut setting).run := by
  apply (holding setting fails i).fine_signOut trivial (fun _ ↦ trivial)
  intro w hw
  exact (holding setting fails i).sound_quiet (asks_clearAfterSignOut.mono quiet_of_clearing) hw

end Flow

/-- The tokens of a listing that is written are those of sessions in which its pages were asked
for. -/
def Asked (i : ℕ) : Request → World × Ledger → Prop
  | .command (.reconcile (.replaceContainer _ _ _ tokens)), s => ∀ t ∈ tokens, t.begun ∈ s.2 i
  | _, _ => True

def timed : Discipline Request Answer (World × Ledger) where
  invariant s := Own s.1
  ok i r s := InOrder i r s.1 ∧ Asked i r s
  rely i s s' := s'.2 i = s.2 i ∧ Undisturbed i s.1 s'.1
  ends _ _ := True

section Fetches

variable {setting : Setting} {fails : Prop} {i : ℕ}

abbrev timedContract (setting : Setting) (fails : Prop) (i : ℕ) :
    Contract Request Answer (World × Ledger) := timed.knowing (timing setting fails) i

/-- What the session does in order, it does in order with the ledger beside it. -/
theorem fine_session {α : Type} {p : SessionActivity α}
    (h : (sessions (contract setting fails i)).Fine p) :
    (sessions (timedContract setting fails i)).Fine p := by
  intro s
  refine sound_mono (fun _ _ _ ↦ trivial) (sound_comap (fun r s a s' hs ↦ ?_) (fun s s' hr ↦ ?_)
    (fun r s hok ↦ ?_) (h s.1))
  · exact hs.1.1.1
  · exact ⟨hr.1.2, hr.2⟩
  · exact ⟨hok, trivial⟩

theorem note_of_ne {j : ℕ} {r : Request} {a : Answer r} {w : World} {l : Ledger} (h : j ≠ i) :
    note i r a w l j = l j := by
  unfold note
  split
  · exact Function.update_of_ne h _ _
  · rfl

theorem takenOver_of_harmless {r : SessionRequest} (h : HarmlessSession r) :
    takenOver r = none := by
  cases r with
  | setState state token =>
    cases token with
    | none => rfl
    | some token => cases state <;> exact h.elim
  | setting | setSetting | setDeviceToken | state | isStopped | now | fetchDeviceToken
  | fetchServerKey | fileSystem => rfl
  | _ => exact h.elim

theorem ok_of_harmless {r : Request} (h : Harmless r) (s : World × Ledger) :
    timed.ok i r s := by
  refine ⟨?_, ?_⟩
  · unfold InOrder
    split
    · exact h.elim
    · exact fun t ht ↦ nomatch (takenOver_of_harmless h).symm.trans ht
    · trivial
  · unfold Asked
    split
    · exact h.elim
    · trivial

/-- The tokens of the pages in hand are those of sessions in which pages were asked for. -/
theorem gathers (setting : Setting) (fails : Prop) (i : ℕ) :
    Gathers (timedContract setting fails i) fun tokens s ↦ ∀ t ∈ tokens, t.begun ∈ s.2 i where
  nil _ t ht := absurd ht List.not_mem_nil
  harmless _ s h _ := ok_of_harmless h s
  first container etag s a s' s'' hs hr t ht := by
    obtain ⟨⟨⟨hserve, hnote⟩, -⟩, hown⟩ := hs
    have hledger : s''.2 i = [s.1.history.signOuts] := by
      have hstays : s''.2 i = s'.2 i := hr.1.1
      rw [hstays, hnote]
      exact Function.update_self ..
    have hasked : a.2 = s.1.memory.userToken := hserve.1.1
    rw [hledger]
    exact List.mem_singleton.mpr (hown t (hasked ▸ Option.mem_toList.mp ht))
  next container cursor etag tokens s a s' s'' htokens hs hr t ht := by
    obtain ⟨⟨⟨hserve, hnote⟩, -⟩, hown⟩ := hs
    have hledger : s''.2 i = s.2 i ++ [s.1.history.signOuts] := by
      have hstays : s''.2 i = s'.2 i := hr.1.1
      rw [hstays, hnote]
      exact Function.update_self ..
    have hasked : a.2 = s.1.memory.userToken := hserve.1.1
    rw [hledger]
    obtain ht | ht := List.mem_append.mp ht
    · exact List.mem_append_left _ (htokens t ht)
    · exact List.mem_append_right _
        (List.mem_singleton.mpr (hown t (hasked ▸ Option.mem_toList.mp ht)))
  keep tokens r s a s' s'' hb htokens hs hr t ht := by
    obtain ⟨⟨⟨-, hnote⟩, -⟩, -⟩ := hs
    have hledger : s''.2 i = s.2 i := by
      have hstays : s''.2 i = s'.2 i := hr.1.1
      rw [hstays, hnote]
      cases r with
      | listPage => exact hb.elim
      | _ => rfl
    rw [hledger]
    exact htokens t ht
  write _ _ _ _ _ htokens := ⟨trivial, htokens⟩
  confirm _ _ _ _ _ := ⟨trivial, trivial⟩

theorem orderly (setting : Setting) (fails : Prop) (i : ℕ) :
    Orderly setting (timedContract setting fails i) where
  harmless _ s h _ := ok_of_harmless h s
  ensureForToken := fine_session (flow setting fails i).fine_ensureForToken
  forceRefresh := fine_session (flow setting fails i).fine_forceRefresh
  signIn := fine_session (flow setting fails i).fine_signIn
  signOut := fine_session fine_signOut
  clearAfterSignOut := fine_session fine_clearAfterSignOut
  root := (gathers setting fails i).fine_root setting
  fetchAndAdopt := (gathers setting fails i).fine_fetchAndAdopt setting

end Fetches

section Runs

variable {setting : Setting} {fails : Prop}

theorem Own.of_record {w w' : World} (h : Own w) (htoken : w'.memory.userToken = w.memory.userToken)
    (hsign : w'.history.signOuts = w.history.signOuts) : Own w' := by
  intro token ht
  rw [hsign]
  exact h token (htoken ▸ ht)

theorem kept (setting : Setting) (fails : Prop) :
    timed.Kept (timing setting fails) (FreshLedger setting) where
  refl _ s := ⟨rfl, fun hlock ↦ ⟨hlock, rfl⟩⟩
  trans _ _ _ _ h h' := by
    refine ⟨h'.1.trans h.1, fun hlock ↦ ?_⟩
    obtain ⟨hlock₁, hsign₁⟩ := h.2 hlock
    obtain ⟨hlock₂, hsign₂⟩ := h'.2 hlock₁
    exact ⟨hlock₂, hsign₂.trans hsign₁⟩
  enter s := by
    rintro ⟨⟨n, limit, hs⟩, -⟩ token ht
    rw [hs] at ht
    cases ht
  start i p s hw hstart s' _ hw' := by
    obtain ⟨job, rfl, -⟩ := hstart
    have O := orderly setting fails i
    have hprocess := fine_process O fun _ _ _ ↦ ⟨trivial, trivial⟩
    have hcontent := fine_content O fun r s ↦ ⟨trivial, trivial⟩
    exact Discipline.sound_of_knowing hw' (fine_program O hprocess hcontent job s')
  serve i r s a s' hw hok hserve := by
    obtain ⟨⟨⟨hserve, -⟩, hnote⟩, hcompletes, -⟩ := hserve
    obtain ⟨hown, hrely⟩ := own_serve hw hok.1 hcompletes hserve
    refine ⟨hown, fun j hj ↦ ⟨?_, hrely j hj⟩⟩
    rw [hnote]
    exact note_of_ne hj
  finish i s s' hw _ hfinish := by
    obtain ⟨hworld, hledger⟩ := hfinish
    have hmemory : s'.1.memory = s.1.memory := by
      rw [show s'.1 = ended i s.1 from hworld]
      obtain he | ⟨-, he⟩ := ended_cases i s.1 <;> rw [he]
      rfl
    have hsign : s'.1.history.signOuts = s.1.history.signOuts := by
      rw [show s'.1 = ended i s.1 from hworld]
      exact (sameRecord_ended i s.1).signOuts
    refine ⟨hw.of_record (by rw [hmemory]) hsign, fun j _ ↦ ⟨by rw [hledger], fun hlock ↦ ?_⟩⟩
    exact ⟨by rw [hmemory, hlock], hsign⟩
  abort i s s' hw habort := by
    obtain ⟨⟨-, hworld⟩, hledger⟩ := habort
    have hsign : s'.1.history.signOuts = s.1.history.signOuts := by
      rw [hworld]
      exact (sameRecord_aborted i s.1).signOuts
    have hmemory : (ended i s.1).memory = s.1.memory := by
      obtain he | ⟨-, he⟩ := ended_cases i s.1 <;> rw [he]
      rfl
    refine ⟨hw.of_record ?_ hsign, fun j hj ↦ ⟨by rw [hledger], fun hlock ↦ ⟨?_, hsign⟩⟩⟩
    · rw [hworld]
      change (ended i s.1).memory.userToken = _
      rw [hmemory]
    · rw [hworld]
      change (if (ended i s.1).memory.lock = some i then none else (ended i s.1).memory.lock) = _
      rw [hmemory, hlock, if_neg fun he ↦ hj (Option.some.inj he)]
  restart s s' hw hrestart := by
    obtain ⟨⟨-, fingerprint, hworld⟩, -⟩ := hrestart
    intro token ht
    rw [hworld] at ht
    cases ht
  outside s s' hw houtside := by
    obtain ⟨⟨-, hworld⟩, hledger⟩ | ⟨-, hfalse⟩ := houtside
    · refine ⟨?_, fun j ↦ ⟨by rw [hledger], fun hlock ↦ ?_⟩⟩
      · exact hw.of_record (by rw [hworld]; rfl) (by rw [hworld]; rfl)
      · rw [hworld]
        exact ⟨hlock, rfl⟩
    · exact hfalse.elim

/-- A listing for a container that is not known is not written. -/
theorem not_written {container : Container} {entries : List Entry} {state : ContainerState}
    {tokens : List TokenResponse} {i : ℕ} {w w' : World}
    {a : Answer (.command (.reconcile (.replaceContainer container entries state tokens)))}
    (hunknown : w.store.containerKnown container = false)
    (h : serve setting fails i (.command (.reconcile (.replaceContainer container entries state
      tokens))) w a w') : a.isOk = false := by
  obtain ⟨-, e, rfl⟩ | ⟨b, s, hop, -, -⟩ := storedNoting_cases h
  · rfl
  · have hop : w.store.replaceContainer setting.unicode container entries state = .ok (b, s) := hop
    unfold Store.replaceContainer at hop
    obtain ⟨-, -, hop⟩ := bind_eq_ok.mp hop
    rw [ite_throw_eq_ok, hunknown] at hop
    exact absurd (fun h ↦ by cases h) hop.1

/-- In every run in which a sign-out is completed only while nobody else is at the session, and no
listing outlives it, nothing of an earlier session is written or taken over. -/
theorem not_foreign_of_run {setting : Setting} {fails : Prop}
    {c : Pool Request Answer (World × Ledger)} (h : TimelyRuns setting fails c) {i : ℕ}
    {r : Request} {next : Answer r → Activity Unit} (hrun : c.running i = some (.ask r next))
    {a : Answer r} {s : World × Ledger} (hserve : (timing setting fails).serve i r c.state a s) :
    ¬ Foreign r a c.state.1 := by
  obtain ⟨hok, hasked⟩ := Discipline.ok_of_run (kept setting fails) h hrun
  intro hforeign
  have hserved : serve setting fails i r c.state.1 a s.1 := hserve.1.1.1
  have htimely : Timely i r c.state := hserve.2.2
  unfold Foreign at hforeign
  split at hforeign
  · obtain ⟨hwritten, t, ht, hne⟩ := hforeign
    obtain rfl | hall | hunknown := htimely
    · exact absurd ht List.not_mem_nil
    · exact hne (hall t.begun (hasked t ht))
    · exact nomatch hwritten.symm.trans (not_written hunknown hserved)
  · obtain ⟨t, ht, hne⟩ := hforeign
    exact hne (begun_of_inOrder hok ht)
  · exact hforeign

end Runs

section Samples

open FolderClient.Engine.Play

/-- A server that renews a session, and delivers the order to sign out. -/
def renewing : Surroundings :=
  { delivering (plainPage ["a"] "1") [signedCommand 1 "SIGN_OUT" (.object [])] with
    exchange := .ok (.issued ⟨"access", 100000, some "second", none, 0, 0, none⟩) }

/-- The order to sign out arrives while a refresh holds its answer. -/
def overtaken : List Move :=
  whole 65 1 .signIn renewing ++ .start 1 .forceRefresh :: asks 7 1 renewing ++
    whole 25 0 (.channel ⟨[]⟩ (some 1) false) renewing

/-- The pending request stores the tokens of an earlier session. -/
def resurrecting : Request → World → Bool
  | .command (.reconcile (.session (.setRefreshToken _ token))), w =>
    token.begun ≠ w.history.signOuts
  | _, _ => false

theorem foreign_of_resurrecting {r : Request} {w : World} (h : resurrecting r w = true)
    (a : Answer r) : Foreign r a w := by
  unfold resurrecting at h
  split at h
  · exact ⟨_, rfl, of_decide_eq_true h⟩
  · cases h

/-- An activity is about to make a request of a kind. -/
def pending (p : Request → World → Bool) (i : ℕ) (program : Option (Activity Unit)) (w : World) :
    Bool :=
  match program with
  | some (.ask r _) => p r w && (respond anchored i renewing r w).isSome
  | _ => false

theorem asked_of_pending {p : Request → World → Bool} {i : ℕ} {program : Option (Activity Unit)}
    {w : World} (h : pending p i program w = true) :
    ∃ r next a w', program = some (.ask r next) ∧ p r w = true ∧
      (rules anchored False {}).serve i r w a w' := by
  unfold pending at h
  split at h
  · rename_i r next
    obtain ⟨hp, hserve⟩ := Bool.and_eq_true_iff.mp h
    obtain ⟨⟨a, w'⟩, ha⟩ := Option.isSome_iff_exists.mp hserve
    exact ⟨r, next, a, w', rfl, hp, respond_serves anchored i renewing ha, trivial⟩
  · cases h

theorem foreign_overtaken : ¬ ∀ (setting : Setting) (fails : Prop) (c : Activities),
    Runs setting fails {} c → ∀ (i : ℕ) (r : Request) (next : Answer r → Activity Unit),
      c.running i = some (.ask r next) → ∀ (a : Answer r) (w : World),
        (rules setting fails {}).serve i r c.state a w → ¬ Foreign r a c.state := by
  intro hall
  obtain ⟨c, hplay, hc⟩ := (Option.any_eq_true
    (fun c : Activities ↦ pending resurrecting 1 (c.running 1) c.state)
      (play anchored (freshEngine anchored) overtaken)).mp (by decide +kernel)
  obtain ⟨r, next, a, w, hrun, hp, hserve⟩ := asked_of_pending hc
  exact hall anchored False c (runs_of_play runs_freshEngine hplay) 1 r next hrun a w hserve
    (foreign_of_resurrecting hp a)

/-- The condition, where only two activities run. -/
def heeds (i : ℕ) : Request → World × Ledger → Bool
  | .command (.reconcile (.session .signOutCompleted)), s =>
    (s.1.memory.lock.isNone || s.1.memory.lock = some i) && s.1.memory.userToken.isNone
  | .command (.reconcile (.replaceContainer _ _ _ tokens)), s =>
    tokens.isEmpty || (s.2 i).all (· = s.1.history.signOuts)
  | _, _ => true

theorem timely_of_heeds (i : ℕ) (r : Request) (s : World × Ledger) (h : heeds i r s = true) :
    Completes i r s.1 ∧ Timely i r s := by
  refine ⟨?_, ?_⟩
  · unfold Completes
    split
    · simpa [heeds] using h
    · trivial
  · unfold Timely
    split
    · simp only [heeds, Bool.or_eq_true, List.isEmpty_iff, List.all_eq_true,
        decide_eq_true_eq] at h
      exact h.imp_right .inl
    · trivial

/-- The pending request writes a listing that was fetched in this session. -/
def listing : Request → World → Bool
  | .command (.reconcile (.replaceContainer _ _ _ tokens)), w =>
    tokens ≠ [] && w.history.signOuts = 1
  | _, _ => false

/-- A sign-in after a sign-out, and then a listing. -/
def renewed : List Move :=
  whole 65 1 .signIn renewing ++ whole 11 1 .signOut renewing ++ whole 60 1 .signIn renewing ++
    .start 1 (.reconcile .baskets) :: asks 7 1 renewing

/-- The first activity waits for the answer to a listing, which is given in time. -/
def awaitsListing (c : Pool Request Answer (World × Ledger)) : Bool :=
  pending listing 1 (c.running 1) c.state.1 && match c.running 1 with
    | some (.ask r _) => heeds 1 r c.state
    | _ => false

theorem not_foreign_renewed : ∃ c i r next a s, TimelyRuns anchored False c ∧
    c.running i = some (.ask r next) ∧ listing r c.state.1 = true ∧
      (timing anchored False).serve i r c.state a s ∧ ¬ Foreign r a c.state.1 := by
  obtain ⟨c, hplay, hc⟩ := (Option.any_eq_true awaitsListing
      (playBeside anchored note heeds ⟨((freshEngine anchored).state, fun _ ↦ []), fun _ ↦ none⟩
        renewed)).mp (by decide +kernel)
  have hrun : TimelyRuns anchored False c := runs_of_playBeside timely_of_heeds
    (.first ⟨⟨0, 1000, rfl⟩, rfl⟩) hplay
  obtain ⟨hpending, hheeds⟩ := Bool.and_eq_true_iff.mp hc
  obtain ⟨r, next, a, w, hasked, hp, hserve⟩ := asked_of_pending hpending
  rw [hasked] at hheeds
  have hserved : (timing anchored False).serve 1 r c.state a
      (w, note 1 r a c.state.1 c.state.2) := ⟨⟨hserve, rfl⟩, timely_of_heeds 1 r c.state hheeds⟩
  exact ⟨c, 1, r, next, a, _, hrun, hasked, hp, hserved, not_foreign_of_run hrun hasked hserved⟩

end Samples

end FolderClient.Engine.SessionRuns
