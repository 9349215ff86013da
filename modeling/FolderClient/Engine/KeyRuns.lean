import FolderClient.Engine.Locking
import FolderClient.Engine.Play

namespace FolderClient.Engine.KeyRuns

open FolderClient.Core.Namespace FolderClient.Engine.Effects FolderClient.Engine.Locking
open FolderClient.Engine.Orderly FolderClient.Engine.Port FolderClient.Engine.Reconcile
open FolderClient.Engine.Session FolderClient.Engine.System FolderClient.Library.Pools
open FolderClient.Library.Programs FolderClient.Library.Programs.Program
open FolderClient.Library.Programs.Contract FolderClient.Net.Access FolderClient.Storage.Basic
open FolderClient.Engine.Port.SessionRequest (call)

/-- Where the vault holds a refresh token and a session key, they belong together. -/
def Bound (w : World) : Prop :=
  ∀ text key, w.refreshToken = some text → w.sessionKey = some key →
    w.history.refreshKey = some key

/-- The text is the refresh token stored last, bound to the key the process signs with. -/
def Current (text : String) (w : World) : Prop :=
  w.history.vaulted.getLast? = some text ∧ w.history.refreshKey = some w.memory.sessionKey

/-- The vault holds no other session key than the one the process signs with. -/
def OneKey (w : World) : Prop :=
  w.sessionKey = none ∨ w.sessionKey = some w.memory.sessionKey

/-- A new session key is made only where no refresh token is bound to the old one. -/
def Free : Request → World → Prop
  | .command (.reconcile (.session .newSessionKey)), w => w.refreshToken = none
  | _, _ => True

/-- A restart does not lose the session key of a refresh token. -/
def keeping : Condition where
  serve _ r w _ _ := Free r w
  restart w := w.refreshToken = none ∨ w.sessionKey.isSome = true

def Keyed (w : World) : Prop :=
  ∀ text, w.refreshToken = some text → Current text w ∧ OneKey w

theorem Keyed.bound {w : World} (h : Keyed w) : Bound w := by
  intro text key ht hk
  obtain ⟨⟨-, hbound⟩, hone⟩ := h text ht
  obtain hnone | hsame := hone
  · rw [hnone] at hk
    cases hk
  · rw [hsame] at hk
    rw [hbound, ← hk]

def InOrder (i : ℕ) : Request → World → Prop
  | .command (.reconcile (.session .newSessionKey)), w
  | .command (.reconcile (.session .unlockLogin)), w => w.memory.lock = some i
  | .command (.reconcile (.session (.setRefreshToken _ token))), w =>
    w.memory.lock = some i ∧ token.key = w.memory.sessionKey ∧ OneKey w
  | .command (.reconcile (.session (.exchangeRefreshToken text))), w => Current text w
  | _, _ => True

/-- The keys stand as they stood, but for what the vault may have lost. -/
structure SameKeys (w w' : World) : Prop where
  lock : w'.memory.lock = w.memory.lock
  key : w'.memory.sessionKey = w.memory.sessionKey
  vaulted : w'.history.vaulted = w.history.vaulted
  refreshKey : w'.history.refreshKey = w.history.refreshKey
  sessionKey : w'.sessionKey = w.sessionKey ∨ w'.sessionKey = none
  refreshToken : w'.refreshToken = w.refreshToken ∨ w'.refreshToken = none

theorem SameKeys.refl (w : World) : SameKeys w w := ⟨rfl, rfl, rfl, rfl, .inl rfl, .inl rfl⟩

theorem SameKeys.trans {w w' w'' : World} (h : SameKeys w w') (h' : SameKeys w' w'') :
    SameKeys w w'' where
  lock := h'.lock.trans h.lock
  key := h'.key.trans h.key
  vaulted := h'.vaulted.trans h.vaulted
  refreshKey := h'.refreshKey.trans h.refreshKey
  sessionKey := h'.sessionKey.elim (fun he ↦ he ▸ h.sessionKey) .inr
  refreshToken := h'.refreshToken.elim (fun he ↦ he ▸ h.refreshToken) .inr

theorem SameKeys.current {text : String} {w w' : World} (h : SameKeys w w')
    (hc : Current text w) : Current text w' :=
  ⟨h.vaulted ▸ hc.1, h.refreshKey.trans (h.key ▸ hc.2)⟩

theorem SameKeys.oneKey {w w' : World} (h : SameKeys w w') (ho : OneKey w) : OneKey w' := by
  obtain hs | hs := h.sessionKey
  · rw [OneKey, hs, h.key]
    exact ho
  · exact .inl hs

theorem SameKeys.keyed {w w' : World} (h : SameKeys w w') (hk : Keyed w) : Keyed w' := by
  intro text ht
  obtain hr | hr := h.refreshToken
  · obtain ⟨hc, ho⟩ := hk text (hr ▸ ht)
    exact ⟨h.current hc, h.oneKey ho⟩
  · rw [hr] at ht
    cases ht

/-- Whoever holds the lock finds the keys as it left them. -/
def Undisturbed (i : ℕ) (w w' : World) : Prop := w.memory.lock = some i → SameKeys w w'

section Served

variable {setting : Setting} {fails : Prop} {i : ℕ} {w w' : World}

/-- The requests that neither store a token or a key, nor present one, nor touch the lock. -/
def Quiet : SessionRequest → Prop
  | .setRefreshToken _ _ | .newSessionKey | .exchangeRefreshToken _ | .lockLogin
  | .unlockLogin => False
  | _ => True

theorem SameSession.sameKeys (h : SameSession w w') : SameKeys w w' :=
  ⟨by rw [h.memory], by rw [h.memory], h.vaulted, h.refreshKey, .inl h.sessionKey,
    .inl h.refreshToken⟩

theorem sameKeys_storedNoting {α : Type} {f : History → History}
    {operation : Except StoreError (α × Store)} {a : Except StoreError α}
    (h : w.StoredNoting f fails operation a w') (hv : ∀ h, (f h).vaulted = h.vaulted)
    (hk : ∀ h, (f h).refreshKey = h.refreshKey) : SameKeys w w' := by
  obtain ⟨rfl, -⟩ | ⟨b, s, -, -, rfl⟩ := storedNoting_cases h
  · exact .refl _
  · exact ⟨rfl, rfl, hv _, hk _, .inl rfl, .inl rfl⟩

theorem sameKeys_serveSession {r : SessionRequest} {a : SessionAnswer r} (hr : Quiet r)
    (h : serveSession setting fails i r w a w') : SameKeys w w' := by
  cases r with
  | setting | session | setSetting | stopSession | setSession | emptyNamespace =>
    simp only [serveSession, World.Stored] at h
    exact sameKeys_storedNoting h (fun _ ↦ rfl) fun _ ↦ rfl
  | setRefreshToken | newSessionKey | exchangeRefreshToken | lockLogin | unlockLogin =>
    exact absurd hr id
  | forgetSession =>
    obtain ⟨-, rfl⟩ | ⟨-, key, refresh, hkey, hrefresh, rfl⟩ := h
    · exact ⟨rfl, rfl, rfl, rfl, .inr rfl, .inr rfl⟩
    · exact ⟨rfl, rfl, rfl, rfl, hkey.symm, hrefresh.symm⟩
  | refreshToken | hasUserToken | tokenExpiry | state | isStopped | startDeviceLogin
  | waitOnToken =>
    obtain ⟨-, rfl⟩ := h
    exact .refl _
  | _ =>
    obtain rfl := h
    exact ⟨rfl, rfl, rfl, rfl, .inl rfl, .inl rfl⟩

/-- What a single request does to the keys, and to what others hold. -/
theorem keyed_serve {r : Request} {a : Answer r} (h : Keyed w) (hok : InOrder i r w)
    (hfree : Free r w) (hserve : serve setting fails i r w a w') :
    Keyed w' ∧ ∀ j, j ≠ i → Undisturbed j w w' := by
  have hsame : SameKeys w w' → Keyed w' ∧ ∀ j, j ≠ i → Undisturbed j w w' :=
    fun hs ↦ ⟨hs.keyed h, fun _ _ _ ↦ hs⟩
  have hmine : w.memory.lock = some i → ∀ j, j ≠ i → Undisturbed j w w' := by
    intro hlock j hj hother
    exact absurd (Option.some.inj (hother.symm.trans hlock)) hj
  cases hr : sessionOf r with
  | none => exact hsame (SameSession.sameKeys (sameSession_serve hr hserve))
  | some q =>
    obtain rfl := eq_of_sessionOf hr
    change serveSession setting fails i q w a w' at hserve
    cases q with
    | setRefreshToken text token =>
      obtain ⟨hlock, hkey, hone⟩ := hok
      have hstored : Keyed (w.withRefreshToken text token.key) := by
        intro text' ht
        obtain rfl := Option.some.inj ht
        exact ⟨⟨List.getLast?_concat, congrArg some hkey⟩, hone⟩
      refine ⟨?_, hmine hlock⟩
      obtain ⟨-, rfl⟩ | ⟨-, rfl | rfl⟩ := hserve
      · exact hstored
      · exact h
      · exact hstored
    | newSessionKey =>
      have hnone : w'.refreshToken = none := by
        obtain ⟨-, rfl⟩ | ⟨-, rfl | rfl⟩ := hserve <;> exact hfree
      refine ⟨fun text ht ↦ ?_, hmine hok⟩
      rw [hnone] at ht
      cases ht
    | lockLogin =>
      obtain ⟨hlock, rfl⟩ := hserve
      refine ⟨h, fun j _ hother ↦ ?_⟩
      rw [hlock] at hother
      cases hother
    | unlockLogin =>
      obtain rfl := hserve
      exact ⟨h, hmine hok⟩
    | exchangeRefreshToken text =>
      obtain ⟨attempt, -, -, rfl⟩ := hserve
      exact hsame ⟨rfl, rfl, rfl, rfl, .inl rfl, .inl rfl⟩
    | _ =>
      refine hsame (sameKeys_serveSession ?_ hserve)
      trivial

end Served

def discipline : Discipline Request Answer World where
  invariant := Keyed
  ok := InOrder
  rely := Undisturbed
  ends _ _ := True

section Steps

variable {setting : Setting} {fails : Prop} {i : ℕ}

abbrev contract (setting : Setting) (fails : Prop) (i : ℕ) : Contract Request Answer World :=
  discipline.contract (rules setting fails keeping) i

/-- The activity holds the lock, and the keys are in order. -/
def Held (i : ℕ) (w : World) : Prop := w.memory.lock = some i ∧ Keyed w

theorem Held.of_sameKeys {w w' : World} (h : Held i w) (hs : SameKeys w w') : Held i w' :=
  ⟨hs.lock.trans h.1, hs.keyed h.2⟩

theorem inOrder_of_quiet {r : SessionRequest} (h : Quiet r) (w : World) :
    InOrder i (.command (.reconcile (.session r))) w := by
  cases r with
  | setRefreshToken | newSessionKey | exchangeRefreshToken | lockLogin | unlockLogin =>
    exact absurd h id
  | _ => trivial

theorem quiet_of_deviceTokens (r : SessionRequest) (h : DeviceTokens r) : Quiet r := by
  cases r <;> first | trivial | exact absurd h id

theorem holding (setting : Setting) (fails : Prop) (i : ℕ) :
    Holding setting (sessions (contract setting fails i)) Quiet (Held i) where
  lock _ := trivial
  held w w₁ w₂ hs hr := by
    obtain ⟨-, rfl⟩ := hs.1
    exact ⟨(hr.1 rfl).lock, hr.2⟩
  rely w w' hw hr := ⟨(hr.1 hw.1).lock.trans hw.1, hr.2⟩
  unlock _ hw := hw.1
  outside r w hr := by cases r <;> first | trivial | exact absurd hr id
  ok _ w hr _ := inOrder_of_quiet hr w
  keep _ _ _ _ hr hw hs := hw.of_sameKeys (sameKeys_serveSession hr hs.1)
  enrolling r hr := by cases r <;> first | trivial | exact absurd hr id
  device w hw := sound_of_asks asks_fetchDeviceToken
    (fun r w hr hw ↦ ⟨inOrder_of_quiet (quiet_of_deviceTokens r hr) w, fun _ _ hs ↦
      hw.of_sameKeys (sameKeys_serveSession (quiet_of_deviceTokens r hr) hs.1)⟩)
    (fun w w' hw hr ↦ ⟨(hr.1 hw.1).lock.trans hw.1, hr.2⟩) hw
  freshness r hr := by cases r <;> first | trivial | exact absurd hr id
  isStopped := trivial

theorem quiet_of_using {token : TokenResponse} (r : SessionRequest) (h : Using token r) :
    Quiet r := by
  cases r <;> first | trivial | exact absurd h id

theorem quiet_of_stopping (r : SessionRequest) (h : Stopping r) : Quiet r := by
  cases r <;> first | trivial | exact absurd h id

theorem quiet_of_clearing (r : SessionRequest) (h : Clearing r) : Quiet r := by
  cases r <;> first | trivial | exact absurd h id

theorem sound_adoptToken {token : TokenResponse} {w : World} (hw : Held i w)
    (hkey : token.key = w.memory.sessionKey) (hone : OneKey w) :
    (sessions (contract setting fails i)).Sound (adoptToken setting token).run
      (fun _ ↦ Held i) w := by
  have huse : (use setting token).run.Asks Quiet := (asks_use token).mono quiet_of_using
  cases ht : token.refreshToken with
  | none =>
    rw [adoptToken_none ht]
    exact (holding setting fails i).sound_quiet huse hw
  | some refresh =>
    rw [adoptToken_some ht]
    refine ⟨⟨hw.1, hkey, hone⟩, fun a w₁ w₂ hs hr ↦ ?_⟩
    have hlock : w₁.memory.lock = some i := by
      obtain ⟨-, rfl⟩ | ⟨-, rfl | rfl⟩ := hs.1 <;> exact hw.1
    have hheld : Held i w₂ := ⟨(hr.1 hlock).lock.trans hlock, hr.2⟩
    cases a with
    | ok a => exact (holding setting fails i).sound_quiet huse hheld
    | error e => exact hheld

/-- A quiet request of the holder of the lock, and whatever others do after it. -/
theorem sameKeys_of_held {r : SessionRequest} {a : SessionAnswer r} {w w₁ w₂ : World}
    (hr : Quiet r) (hw : Held i w)
    (hs : (sessions (contract setting fails i)).serve r w a w₁)
    (hrely : (sessions (contract setting fails i)).rely w₁ w₂) : SameKeys w w₂ := by
  have hstep := sameKeys_serveSession hr hs.1
  exact hstep.trans (hrely.1 (hstep.lock.trans hw.1))

theorem presented_of_read {a : SessionAnswer .refreshToken} {w w₁ w₂ : World} {text : String}
    (hw : Held i w) (hs : (sessions (contract setting fails i)).serve .refreshToken w a w₁)
    (hr : (sessions (contract setting fails i)).rely w₁ w₂) (ha : a = .ok (some text)) :
    Held i w₂ ∧ Current text w₂ ∧ OneKey w₂ := by
  have hsame := sameKeys_of_held (by trivial) hw hs hr
  subst ha
  obtain ⟨ha | ⟨e, ha⟩, -⟩ := hs.1
  · obtain ⟨hcurrent, hone⟩ := hw.2 text (Except.ok.inj ha).symm
    exact ⟨hw.of_sameKeys hsame, hsame.current hcurrent, hsame.oneKey hone⟩
  · cases ha

theorem flow (setting : Setting) (fails : Prop) (i : ℕ) :
    Flow setting (sessions (contract setting fails i)) Quiet (Held i)
      (fun text w ↦ Held i w ∧ Current text w ∧ OneKey w) (fun _ w ↦ Held i w ∧ OneKey w)
      (fun token w ↦ Held i w ∧ token.key = w.memory.sessionKey ∧ OneKey w) (Held i) where
  toHolding := holding setting fails i
  refreshToken := trivial
  missed := trivial
  read w a w₁ w₂ text hw hs hr ha := presented_of_read hw hs hr ha
  exchange text w := by
    intro ⟨hw, hc, hone⟩
    refine ⟨hc, fun a w₁ w₂ hs hr ↦ ?_⟩
    obtain ⟨attempt, ha, hissued, rfl⟩ := hs.1
    have hnoted : SameKeys w (w.noting (.present text attempt)) :=
      ⟨rfl, rfl, rfl, rfl, .inl rfl, .inl rfl⟩
    have hsame : SameKeys w w₂ := hnoted.trans (hr.1 hw.1)
    have hheld := hw.of_sameKeys hsame
    cases a with
    | success token =>
      have hkey := (hissued token (refreshToken_eq_success ha.symm)).2.1
      exact ⟨hheld, hkey.trans hsame.key.symm, hsame.oneKey hone⟩
    | networkError error => cases error <;> exact hheld
    | _ => exact hheld
  stop reason eraseSecrets w hw := (holding setting fails i).sound_quiet
    ((asks_sessionStop reason eraseSecrets).mono quiet_of_stopping) hw
  finished _ hw := hw
  adopt token w hw := sound_adoptToken hw.1 hw.2.1 hw.2.2
  newKey w hw := by
    refine ⟨hw.1, fun a w₁ w₂ hs hr ↦ ?_⟩
    have hlock : w₁.memory.lock = some i := by
      obtain ⟨-, rfl⟩ | ⟨-, rfl | rfl⟩ := hs.1 <;> exact hw.1
    have hheld : Held i w₂ := ⟨(hr.1 hlock).lock.trans hlock, hr.2⟩
    refine ⟨hheld, fun ha ↦ ⟨hheld, ?_⟩⟩
    obtain ⟨-, rfl⟩ | ⟨⟨e, he⟩, -⟩ := hs.1
    · exact (hr.1 hlock).oneKey (.inr rfl)
    · cases ha.symm.trans he
  start w := by
    intro ⟨hw, hone⟩
    refine ⟨trivial, fun a w₁ w₂ hs hr ↦ ?_⟩
    have hsame := sameKeys_of_held (by trivial) hw hs hr
    exact ⟨hw.of_sameKeys hsame, fun _ _ ↦ ⟨hw.of_sameKeys hsame, hsame.oneKey hone⟩⟩
  shown login w := by
    intro ⟨hw, hone⟩
    refine ⟨trivial, fun a w₁ w₂ hs hr ↦ ?_⟩
    have hsame := sameKeys_of_held (by trivial) hw hs hr
    exact ⟨hw.of_sameKeys hsame, hsame.oneKey hone⟩
  wait login w := by
    intro ⟨hw, hone⟩
    refine ⟨trivial, fun a w₁ w₂ hs hr ↦ ?_⟩
    have hsame := sameKeys_of_held (by trivial) hw hs hr
    have hheld := hw.of_sameKeys hsame
    refine ⟨hheld, fun token ha ↦ ⟨hheld, ?_, hsame.oneKey hone⟩⟩
    exact ((hs.1.1 token ha).2.1).trans hsame.key.symm

theorem fine_clearAfterSignOut :
    (sessions (contract setting fails i)).Fine (clearAfterSignOut setting).run :=
  fine_of_asks (asks_clearAfterSignOut.mono quiet_of_clearing) fun _ w hr ↦
    inOrder_of_quiet hr w

theorem inOrder_of_harmless {r : Request} (h : Harmless r) (w : World) : InOrder i r w := by
  unfold InOrder
  split <;> trivial

theorem inOrder_of_fetching (r : ReconcileRequest) (w : World) (h : Fetching r) :
    InOrder i (.command (.reconcile r)) w := by
  cases r with
  | session request => exact inOrder_of_harmless (r := .command (.reconcile (.session request))) h w
  | _ => trivial

theorem orderly (setting : Setting) (fails : Prop) (i : ℕ) :
    Orderly setting (contract setting fails i) where
  harmless _ w h _ := inOrder_of_harmless h w
  ensureForToken := (flow setting fails i).fine_ensureForToken
  forceRefresh := (flow setting fails i).fine_forceRefresh
  signIn := (flow setting fails i).fine_signIn
  signOut := (holding setting fails i).fine_signOut trivial (fun _ ↦ trivial) fun _ hw ↦
    (holding setting fails i).sound_quiet (asks_clearAfterSignOut.mono quiet_of_clearing) hw
  clearAfterSignOut := fine_clearAfterSignOut
  root := fine_of_asks (fetching_adopt _ _ _ _ _) inOrder_of_fetching
  fetchAndAdopt container :=
    fine_of_asks (fetching_fetchAndAdopt setting container) inOrder_of_fetching

end Steps

theorem sameKeys_ended (i : ℕ) (w : World) : SameKeys w (ended i w) := by
  obtain he | ⟨-, he⟩ := ended_cases i w <;> rw [he] <;>
    exact ⟨rfl, rfl, rfl, rfl, .inl rfl, .inl rfl⟩

theorem keyed_restart {w : World} {fingerprint : String} (h : Keyed w)
    (hc : w.refreshToken = none ∨ w.sessionKey.isSome = true) : Keyed (w.restart fingerprint) := by
  intro text ht
  obtain ⟨⟨hlast, hbound⟩, hone⟩ := h text ht
  obtain hnone | hsome := hc
  · exact nomatch hnone.symm.trans ht
  obtain ⟨key, hkey⟩ := Option.isSome_iff_exists.mp hsome
  obtain hnone | hsame := hone
  · exact nomatch hnone.symm.trans hkey
  have hsame : key = w.memory.sessionKey := Option.some.inj (hkey.symm.trans hsame)
  have hmemory : (w.restart fingerprint).memory.sessionKey = w.memory.sessionKey := by
    change w.sessionKey.getD _ = _
    rw [hkey]
    exact hsame
  refine ⟨⟨hlast, hbound.trans (congrArg some hmemory.symm)⟩, .inr ?_⟩
  rfl

theorem kept (setting : Setting) (fails : Prop) :
    discipline.Kept (rules setting fails keeping) (Fresh setting) where
  refl _ w _ := .refl w
  trans _ _ _ _ h h' hlock := (h hlock).trans (h' ((h hlock).lock.trans hlock))
  enter w := by
    intro ⟨n, limit, hw⟩ text ht
    rw [hw] at ht
    cases ht
  start i p w hi := by
    intro ⟨job, hp, _⟩ w' _ _
    rw [hp]
    exact fine_program (orderly setting fails i)
      (fine_process (orderly setting fails i) fun _ _ _ ↦ trivial)
      (fine_content (orderly setting fails i) fun _ _ ↦ trivial) job w'
  serve i r w a w' hi hok hserve := keyed_serve hi hok hserve.2 hserve.1
  finish i w w' hi _ hw := by
    obtain rfl := hw
    have hsame := sameKeys_ended i w
    exact ⟨hsame.keyed hi, fun _ _ _ ↦ hsame⟩
  abort i w w' hi hw := by
    obtain ⟨-, rfl⟩ := hw
    have hsame := sameKeys_ended i w
    refine ⟨hsame.keyed hi, fun j hj hlock ↦ ⟨?_, hsame.key, hsame.vaulted, hsame.refreshKey,
      hsame.sessionKey, hsame.refreshToken⟩⟩
    have hlock' : (ended i w).memory.lock = some j := hsame.lock.trans hlock
    change (if (ended i w).memory.lock = some i then none else (ended i w).memory.lock) = _
    rw [hlock', if_neg fun he ↦ hj (Option.some.inj he), hlock]
  restart w w' hi hw := by
    obtain ⟨hc, fingerprint, rfl⟩ := hw
    exact keyed_restart hi hc
  outside w w' hi hw := by
    obtain ⟨-, rfl⟩ := hw
    have hsame : SameKeys w (stopped w) := ⟨rfl, rfl, rfl, rfl, .inl rfl, .inl rfl⟩
    exact ⟨hsame.keyed hi, fun _ _ ↦ hsame⟩

/-- In every run in which no session key is replaced or lost while its refresh token is stored,
token and key belong together, and whatever is presented is the token stored last, under its key. -/
theorem key_of_every_run {setting : Setting} {fails : Prop} {c : Activities}
    (h : Runs setting fails keeping c) :
    Bound c.state ∧ ∀ i text next,
      c.running i =
        some (.ask (.command (.reconcile (.session (.exchangeRefreshToken text)))) next) →
      Current text c.state :=
  ⟨(Discipline.run_kept (kept setting fails) h).1.bound,
    fun _ _ _ hrun ↦ Discipline.ok_of_run (kept setting fails) h hrun⟩

section Renewed

open FolderClient.Engine.Play

def free : ℕ → (r : Request) → World → Answer r → World → Bool
  | _, .command (.reconcile (.session .newSessionKey)), w, _, _ => w.refreshToken.isNone
  | _, _, _, _, _ => true

theorem keeping_of_free {i : ℕ} {r : Request} {w w' : World} {a : Answer r}
    (h : free i r w a w' = true) : keeping.serve i r w a w' := by
  change Free r w
  unfold free at h
  split at h
  · exact Option.isNone_iff_eq_none.mp h
  · rename_i hne
    unfold Free
    split
    · exact (hne a rfl HEq.rfl).elim
    · trivial

/-- Somebody signs in. -/
def entered : List Move := whole 63 1 .signIn (welcoming (plainPage ["x"] "L"))

/-- Somebody signs in, and the session is renewed with a new refresh token. -/
def renewed : List Move :=
  entered ++ whole 18 1 .forceRefresh
    { exchange := .ok (.issued ⟨"access", 100000, some "second", none, 0, 0, none⟩) }

theorem key_renewed : ∃ c, Runs plain False keeping c ∧
    c.state.refreshToken = some "second" ∧ Bound c.state := by
  obtain ⟨c, hplay, htoken⟩ := (Option.any_eq_true (fun c : Activities ↦
    c.state.refreshToken = some "second") (playIf plain free (freshEngine plain) renewed)).mp
      (by decide +kernel)
  have hrun := runs_of_playIf (fun i r w a w' ↦ keeping_of_free) runs_freshEngine hplay
  exact ⟨c, hrun, of_decide_eq_true htoken, (key_of_every_run hrun).1⟩

/-- Somebody signs in, and once more: the renewal times out, and the device flow does not begin. -/
def enteredAgain : List Move :=
  entered ++ whole 14 1 .signIn
    { exchange := .error (.timeout "server"), deviceToken := .success "device" }

theorem key_replaced : ¬ ∀ (setting : Setting) (fails : Prop) (c : Activities),
    Runs setting fails {} c → Bound c.state := by
  intro hall
  obtain ⟨c, hplay, hc⟩ := (Option.any_eq_true (fun c : Activities ↦
    decide (c.state.refreshToken = some "refresh") && decide (c.state.sessionKey = some 2) &&
      decide (c.state.history.refreshKey = some 1))
        (play plain (freshEngine plain) enteredAgain)).mp (by decide +kernel)
  simp only [Bool.and_eq_true, decide_eq_true_eq] at hc
  obtain ⟨⟨htoken, hkey⟩, hbound⟩ := hc
  have hall := hall plain False c (runs_of_play runs_freshEngine hplay) "refresh" 2 htoken hkey
  rw [hbound] at hall
  cases hall

end Renewed

end FolderClient.Engine.KeyRuns
