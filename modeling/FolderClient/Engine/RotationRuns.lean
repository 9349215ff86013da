import FolderClient.App.Vault
import FolderClient.Engine.Locking
import FolderClient.Engine.Play

namespace FolderClient.Engine.RotationRuns

open FolderClient.Core.Namespace FolderClient.Engine.Effects FolderClient.Engine.Locking
open FolderClient.Engine.Orderly FolderClient.Engine.Port FolderClient.Engine.Reconcile
open FolderClient.Engine.Session FolderClient.Engine.System FolderClient.Library.Pools
open FolderClient.Library.Programs FolderClient.Library.Programs.Program
open FolderClient.Library.Programs.Contract FolderClient.Net.Access
open FolderClient.Library.Texts FolderClient.Storage.Basic
open FolderClient.Engine.Port.SessionRequest (call)

/-- The refresh token that came with an access token was written to the vault. -/
def Vaulted (w : World) (token : TokenResponse) : Prop :=
  ∀ text, token.refreshToken = some text → text ∈ w.history.vaulted

/-- Every access token in memory, and every one sent with a request for a listing. -/
structure Rotated (w : World) : Prop where
  memory : ∀ token, w.memory.userToken = some token → Vaulted w token
  pages : ∀ p ∈ w.history.pages, ∀ token, p.token = some token → Vaulted w token

/-- An access token is taken into memory after the refresh token that came with it. -/
def InOrder : Request → World → Prop
  | .command (.reconcile (.session (.setUserToken token))), w => Vaulted w token
  | _, _ => True

/-- The vault holds the refresh token it held, another one that was just written, or none after it
was erased. -/
def Turned (c c' : Activities) : Prop :=
  c'.state.refreshToken = c.state.refreshToken ∨
    (∃ i text token next, c.running i =
      some (.ask (.command (.reconcile (.session (.setRefreshToken text token)))) next) ∧
        c'.state.refreshToken = some text) ∨
    ∃ i next, c.running i =
      some (.ask (.command (.reconcile (.session .forgetSession))) next) ∧
        c'.state.refreshToken = none

section Served

variable {setting : Setting} {fails : Prop} {i : ℕ} {w w' : World}

/-- What was written to the vault remains written. -/
theorem vaulted_serve {r : Request} {a : Answer r} (h : serve setting fails i r w a w') :
    w.history.vaulted ⊆ w'.history.vaulted := by
  cases hr : sessionOf r with
  | none =>
    rw [(sameSession_serve hr h).vaulted]
    exact List.Subset.refl _
  | some q =>
    obtain hh | hh := history_serve h
    · rw [hh]
      exact List.Subset.refl _
    · obtain rfl := eq_of_sessionOf hr
      rw [hh]
      change _ ⊆ (sessionNotes q w.history).vaulted
      cases q with
      | setRefreshToken text token => exact List.subset_append_left _ _
      | _ => exact List.Subset.refl _

theorem userToken_serveSession {r : SessionRequest} {a : SessionAnswer r}
    (h : serveSession setting fails i r w a w') :
    w'.memory.userToken = w.memory.userToken ∨ w'.memory.userToken = none ∨
      ∃ token, r = .setUserToken token ∧ w'.memory.userToken = some token := by
  cases r with
  | setting | session | setSetting | stopSession | setSession | emptyNamespace =>
    simp only [serveSession, World.Stored] at h
    exact .inl (congrArg Memory.userToken (sameMemory_storedNoting h).2.2)
  | setRefreshToken | newSessionKey =>
    obtain ⟨-, rfl⟩ | ⟨-, rfl | rfl⟩ := h <;> exact .inl rfl
  | forgetSession =>
    obtain ⟨-, rfl⟩ | ⟨-, key, refresh, -, -, rfl⟩ := h <;> exact .inr (.inl rfl)
  | exchangeRefreshToken text =>
    obtain ⟨attempt, -, -, rfl⟩ := h
    exact .inl rfl
  | setUserToken token =>
    obtain rfl := h
    exact .inr (.inr ⟨token, rfl, rfl⟩)
  | refreshToken | hasUserToken | tokenExpiry | state | isStopped | lockLogin | startDeviceLogin
  | waitOnToken =>
    obtain ⟨-, rfl⟩ := h
    exact .inl rfl
  | _ =>
    obtain rfl := h
    exact .inl rfl

theorem pages_served {r : Request} {a : Answer r} (h : serve setting fails i r w a w') :
    ∀ p ∈ w'.history.pages, p ∈ w.history.pages ∨ p.token = w.memory.userToken := by
  intro p hp
  obtain hh | hh := history_serve h
  · exact .inl (hh ▸ hp)
  rw [hh] at hp
  cases r with
  | command r =>
    cases r with
    | reconcile r =>
      cases r with
      | session r => cases r <;> exact .inl hp
      | listPage container cursor etag =>
        obtain ⟨result, token⟩ := a
        obtain ⟨htoken, -⟩ := h
        cases result with
        | success page =>
          obtain hp | hp := List.mem_append.mp hp
          · exact .inl hp
          · obtain rfl := List.mem_singleton.mp hp
            exact .inr htoken
        | _ => exact .inl hp
      | _ => exact .inl hp
    | runBegins command order =>
      change p ∈ (w.history.runBegins _ _ _).pages at hp
      rw [pages_runBegins] at hp
      exact .inl hp
    | _ => exact .inl hp
  | source r =>
    cases r with
    | children container => cases a <;> exact .inl hp
    | _ => exact .inl hp
  | _ => exact .inl hp

theorem Vaulted.mono {token : TokenResponse} (h : Vaulted w token)
    (hv : w.history.vaulted ⊆ w'.history.vaulted) : Vaulted w' token :=
  fun text ht ↦ hv (h text ht)

theorem rotated_serve {r : Request} {a : Answer r} (h : Rotated w) (hok : InOrder r w)
    (hserve : serve setting fails i r w a w') : Rotated w' := by
  have hv := vaulted_serve hserve
  refine ⟨fun token ht ↦ ?_, fun p hp token ht ↦ ?_⟩
  · cases hr : sessionOf r with
    | none =>
      rw [(sameSession_serve hr hserve).memory] at ht
      exact (h.memory token ht).mono hv
    | some q =>
      obtain rfl := eq_of_sessionOf hr
      obtain hu | hu | ⟨t, rfl, hu⟩ := userToken_serveSession hserve
      · exact (h.memory token (hu ▸ ht)).mono hv
      · rw [hu] at ht
        cases ht
      · rw [hu] at ht
        obtain rfl := Option.some.inj ht
        exact Vaulted.mono hok hv
  · obtain hp | hp := pages_served hserve p hp
    · exact (h.pages p hp token ht).mono hv
    · exact (h.memory token (hp ▸ ht)).mono hv

end Served

section Takeovers

variable {setting : Setting} {fails : Prop} {i : ℕ}

def discipline : Discipline Request Answer World where
  invariant := Rotated
  ok _ := InOrder
  rely _ w w' := w.history.vaulted ⊆ w'.history.vaulted
  ends _ _ := True

abbrev contract (setting : Setting) (fails : Prop) (i : ℕ) : Contract Request Answer World :=
  discipline.contract (rules setting fails {}) i

theorem inOrder_of_untaken {r : SessionRequest} (h : Untaken r) (w : World) :
    InOrder (.command (.reconcile (.session r))) w := by
  cases r with
  | setUserToken token => exact absurd h id
  | _ => trivial

theorem vaulted_kept {token : TokenResponse} (r : SessionRequest) (w : World)
    (hr : Using token r) (hw : Vaulted w token) :
    (sessions (contract setting fails i)).ok r w ∧
      ∀ a w', (sessions (contract setting fails i)).serve r w a w' → Vaulted w' token := by
  refine ⟨?_, fun a w' hserve ↦ hw.mono (vaulted_serve hserve.1)⟩
  cases r with
  | setUserToken t =>
    obtain rfl := hr
    exact hw
  | _ => trivial

theorem sound_use {token : TokenResponse} {w : World} (hw : Vaulted w token) :
    (sessions (contract setting fails i)).Sound (use setting token).run
      (fun _ w' ↦ Vaulted w' token) w :=
  sound_of_asks (asks_use token) vaulted_kept (fun w w' h hr ↦ h.mono hr.1) hw

theorem fine_adoptToken (token : TokenResponse) :
    (sessions (contract setting fails i)).Fine (adoptToken setting token).run := by
  intro w
  cases ht : token.refreshToken with
  | none =>
    rw [adoptToken_none ht]
    exact sound_mono (fun _ _ _ ↦ trivial) (sound_use fun text h ↦ nomatch ht ▸ h)
  | some refresh =>
    rw [adoptToken_some ht]
    refine ⟨trivial, fun a w₁ w₂ hserve hrely ↦ ?_⟩
    cases a with
    | error e => trivial
    | ok a =>
      refine sound_mono (fun _ _ _ ↦ trivial) (sound_use fun text h ↦ hrely.1 ?_)
      obtain rfl := Option.some.inj (ht.symm.trans h)
      obtain ⟨-, rfl⟩ | ⟨⟨e, he⟩, -⟩ := hserve.1
      · exact List.mem_append_right _ List.mem_cons_self
      · cases he

theorem inOrder_of_harmless {r : Request} (h : Harmless r) (w : World) : InOrder r w := by
  unfold InOrder
  split
  · exact absurd h id
  · trivial

theorem inOrder_of_fetching (r : ReconcileRequest) (w : World) (h : Fetching r) :
    InOrder (.command (.reconcile r)) w := by
  cases r with
  | session request => exact inOrder_of_harmless (r := .command (.reconcile (.session request))) h w
  | _ => trivial

theorem orderly (setting : Setting) (fails : Prop) (i : ℕ) :
    Orderly setting (contract setting fails i) where
  harmless _ w h _ := inOrder_of_harmless h w
  ensureForToken := fine_ensureForToken (fun _ w h ↦ inOrder_of_untaken h w) fine_adoptToken
  forceRefresh := fine_forceRefresh (fun _ w h ↦ inOrder_of_untaken h w) fine_adoptToken
  signIn := fine_signIn (fun _ w h ↦ inOrder_of_untaken h w) fine_adoptToken
  signOut := fine_signOut fun _ w h ↦ inOrder_of_untaken h w
  clearAfterSignOut := fine_clearAfterSignOut fun _ w h ↦ inOrder_of_untaken h w
  root := fine_of_asks (fetching_adopt _ _ _ _ _) inOrder_of_fetching
  fetchAndAdopt container :=
    fine_of_asks (fetching_fetchAndAdopt setting container) inOrder_of_fetching

theorem Rotated.of_history {w w' : World} (h : Rotated w)
    (hm : w'.memory.userToken = w.memory.userToken ∨ w'.memory.userToken = none)
    (hp : w'.history.pages = w.history.pages) (hv : w'.history.vaulted = w.history.vaulted) :
    Rotated w' := by
  have hmono : ∀ token, Vaulted w token → Vaulted w' token := fun token ht ↦
    ht.mono (hv ▸ List.Subset.refl _)
  refine ⟨fun token ht ↦ ?_, fun p hm token ht ↦ hmono token (h.pages p (hp ▸ hm) token ht)⟩
  obtain hm | hm := hm
  · exact hmono token (h.memory token (hm ▸ ht))
  · rw [hm] at ht
    cases ht

theorem kept (setting : Setting) (fails : Prop) :
    discipline.Kept (rules setting fails {}) (Fresh setting) where
  refl _ w := List.Subset.refl _
  trans _ _ _ _ h h' := List.Subset.trans h h'
  enter w := by
    intro ⟨n, limit, hw⟩
    rw [hw]
    refine ⟨fun token ht ↦ ?_, fun p hp ↦ ?_⟩
    · cases ht
    · cases hp
  start i p w hi := by
    intro ⟨job, hp, _⟩ w' _ _
    rw [hp]
    exact fine_program (orderly setting fails i)
      (fine_process (orderly setting fails i) fun _ _ _ ↦ trivial)
      (fine_content (orderly setting fails i) fun _ _ ↦ trivial) job w'
  serve i r w a w' hi hok hserve :=
    ⟨rotated_serve hi hok hserve.1, fun _ _ ↦ vaulted_serve hserve.1⟩
  finish i w w' hi _ hw := by
    obtain rfl := hw
    obtain he | ⟨-, he⟩ := ended_cases i w <;> rw [he]
    · exact ⟨hi, fun _ _ ↦ List.Subset.refl _⟩
    · exact ⟨hi.of_history (.inl rfl) rfl rfl, fun _ _ ↦ List.Subset.refl _⟩
  abort i w w' hi hw := by
    obtain ⟨-, rfl⟩ := hw
    unfold aborted
    obtain he | ⟨-, he⟩ := ended_cases i w <;> rw [he] <;>
      exact ⟨hi.of_history (.inl rfl) rfl rfl, fun _ _ ↦ List.Subset.refl _⟩
  restart w w' hi hw := by
    obtain ⟨-, fingerprint, rfl⟩ := hw
    exact hi.of_history (.inr rfl) rfl rfl
  outside w w' hi hw := by
    obtain ⟨-, rfl⟩ := hw
    exact ⟨hi.of_history (.inl rfl) rfl rfl, fun _ ↦ List.Subset.refl _⟩

end Takeovers

section Failing

variable {setting : Setting} {fails : Prop} {i : ℕ}

/-- The session as a takeover meets it while nobody else moves. -/
def alone (setting : Setting) (fails : Prop) (i : ℕ) :
    Contract SessionRequest SessionAnswer World where
  serve := serveSession setting fails i
  rely w w' := w' = w
  ok _ _ := True

end Failing

section Rotation

open FolderClient.App.Vault FolderClient.Engine.Play

/-- Somebody signs in. -/
def entered : List Move := whole 63 1 .signIn (welcoming (plainPage ["x"] "L"))

/-- Somebody signs in, and the next renewal is answered with the revocation of the family. -/
def revoked : List Move :=
  entered ++ whole 12 1 .forceRefresh { exchange := .ok (.familyRevoked "used twice") }

end Rotation

end FolderClient.Engine.RotationRuns
