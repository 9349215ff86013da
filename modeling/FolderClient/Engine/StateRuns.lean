import FolderClient.Engine.Locking
import FolderClient.Engine.Play

namespace FolderClient.Engine.StateRuns

open FolderClient.Core.Namespace FolderClient.Engine.Effects FolderClient.Engine.Locking
open FolderClient.Engine.Orderly FolderClient.Engine.Port FolderClient.Engine.Reconcile
open FolderClient.Engine.Session FolderClient.Engine.System FolderClient.Library.Pools
open FolderClient.Library.Programs FolderClient.Library.Programs.Program
open FolderClient.Library.Programs.Contract FolderClient.Net.Access FolderClient.Storage.Basic
open FolderClient.Storage.Effects
open FolderClient.Engine.Port.SessionRequest (call)

/-- The state of a session row of the same name. -/
def named : EngineState → Option SessionState
  | .signedIn _ _ _ _ => some .signedIn
  | .loginRequired _ => some .loginRequired
  | .signedOut => some .signedOut
  | .awaitingApproval _ => some .awaitingApproval
  | _ => none

/-- The state of the session row; without a row nobody is signed in. -/
def row (w : World) : SessionState := (w.store.session.map (·.state)).getD .signedOut

/-- What is shown, where it has a name of a row, is what the row says. -/
def Agree (w : World) : Prop := ∀ s, named w.memory.state = some s → row w = s

/-- No step of the session is in flight. -/
def Idle (w : World) : Prop := w.memory.lock = none ∧ w.memory.clearing = []

/-- The activity is in a step of the session. -/
def Busy (i : ℕ) (w : World) : Prop := w.memory.lock = some i ∨ i ∈ w.memory.clearing

/-- The local part of a sign-out and the steps under the lock do not overlap; a session is only
stopped where its row carries a login; the writes of the row and of what follows it reach the store
where they matter; a device flow fails only where the row says that nobody is signed in; and the
connection is only noted where somebody is still shown as signed in. -/
def Settling (i : ℕ) : (r : Request) → World → Answer r → World → Prop
  | .command (.reconcile (.session .lockLogin)), w, _, _ => w.memory.clearing = []
  | .command (.reconcile (.session .clearBegins)), w, _, _ =>
    w.memory.clearing = [] ∧ (w.memory.lock = none ∨ w.memory.lock = some i)
  | .command (.reconcile (.session .stopSession)), w, a, _ =>
    a = Except.ok () → (w.store.session.bind (·.login)).isSome = true
  | .command (.reconcile (.session (.setSession session _))), w, a, _ =>
    a = Except.ok () ∨ session.state = .signedIn ∨ row w = session.state
  | .command (.reconcile (.session (.setSetting .identityGuessed _))), w, a, _ =>
    a = Except.ok () ∨ Agree w
  | .command (.reconcile (.session (.setState .signedOut _))), w, _, _ => row w = .signedOut
  | .command (.reconcile (.session (.setState (.signedIn _ _ _ _) none))), w, _, _ =>
    named w.memory.state = some .signedIn
  | _, _, _, _ => True

/-- No step of the session is broken off where what is shown is not what the row says. -/
def settling : Condition where
  serve := Settling
  abort i w := Busy i w → Agree w

/-- At most one activity is in a step of the session. -/
def Alone (w : World) : Prop :=
  w.memory.clearing = [] ∨
    ∃ i, w.memory.clearing = [i] ∧ (w.memory.lock = none ∨ w.memory.lock = some i)

structure Agreed (w : World) : Prop where
  alone : Alone w
  agree : Idle w → Agree w

def InOrder (i : ℕ) : Request → World → Prop
  | .command (.reconcile (.session (.setSession _ _))), w
  | .command (.reconcile (.session .stopSession)), w => Busy i w
  | .command (.reconcile (.session (.setState (.signedIn _ _ _ _) none))), _ => True
  | .command (.reconcile (.session (.setState state _))), w => named state = none ∨ Busy i w
  | .command (.reconcile (.session .signOutCompleted)), w =>
    w.memory.clearing = [i] ∧ row w = .signedOut
  | .command (.reconcile (.session .unlockLogin)), w =>
    w.memory.lock = some i ∧ w.memory.clearing = [] ∧ Agree w
  | _, _ => True

/-- The row stands, and nothing with another name is shown. -/
structure Still (w w' : World) : Prop where
  lock : w'.memory.lock = w.memory.lock
  clearing : w'.memory.clearing = w.memory.clearing
  row : row w' = row w
  shown : ∀ s, named w'.memory.state = some s → named w.memory.state = some s

theorem Still.refl (w : World) : Still w w := ⟨rfl, rfl, rfl, fun _ h ↦ h⟩

theorem Still.trans {w w' w'' : World} (h : Still w w') (h' : Still w' w'') : Still w w'' where
  lock := h'.lock.trans h.lock
  clearing := h'.clearing.trans h.clearing
  row := h'.row.trans h.row
  shown s hs := h.shown s (h'.shown s hs)

theorem Still.agree {w w' : World} (h : Still w w') (ha : Agree w) : Agree w' :=
  fun s hs ↦ h.row.trans (ha s (h.shown s hs))

theorem Still.busy {i : ℕ} {w w' : World} (h : Still w w') (hb : Busy i w) : Busy i w' := by
  rw [Busy, h.lock, h.clearing]
  exact hb

theorem Still.agreed {w w' : World} (h : Still w w') (ha : Agreed w) : Agreed w' := by
  refine ⟨?_, fun hi ↦ h.agree (ha.agree ?_)⟩
  · rw [Alone, h.clearing, h.lock]
    exact ha.alone
  · exact ⟨h.lock ▸ hi.1, h.clearing ▸ hi.2⟩

def Undisturbed (i : ℕ) (w w' : World) : Prop := Busy i w → Still w w'

theorem Alone.eq {w : World} {i j : ℕ} (h : Alone w) (hi : Busy i w) (hj : Busy j w) : j = i := by
  obtain hnone | ⟨k, hk, hlock⟩ := h
  · rw [Busy, hnone] at hi hj
    have hi := hi.resolve_right List.not_mem_nil
    have hj := hj.resolve_right List.not_mem_nil
    exact Option.some.inj (hj.symm.trans hi)
  · have hone : ∀ n, Busy n w → n = k := by
      intro n hn
      obtain hn | hn := hn
      · obtain hl | hl := hlock
        · exact nomatch hl.symm.trans hn
        · exact Option.some.inj (hn.symm.trans hl)
      · rw [hk] at hn
        exact List.mem_singleton.mp hn
    rw [hone i hi, hone j hj]

section Served

variable {setting : Setting} {fails : Prop} {i : ℕ} {w w' : World}

/-- The requests that neither write the row nor show anything with a name of a row, and do not
touch the lock. -/
def Quiet : SessionRequest → Prop
  | .lockLogin | .unlockLogin | .clearBegins | .signOutCompleted | .setSession _ _
  | .stopSession => False
  | .setState state _ => named state = none
  | _ => True

theorem Still.of_sameSession (h : SameSession w w') : Still w w' :=
  ⟨by rw [h.memory], by rw [h.memory], by rw [StateRuns.row, StateRuns.row, h.session],
    fun s hs ↦ h.memory ▸ hs⟩

theorem still_storedNoting {α : Type} {f : History → History}
    {operation : Except StoreError (α × Store)} {a : Except StoreError α}
    (h : w.StoredNoting f fails operation a w')
    (hs : ∀ b s, operation = .ok (b, s) → s.session = w.store.session) : Still w w' := by
  obtain ⟨rfl, -⟩ | ⟨b, s, hop, -, rfl⟩ := storedNoting_cases h
  · exact .refl _
  · refine ⟨rfl, rfl, ?_, fun _ h ↦ h⟩
    rw [row, row, ← hs b s hop]

theorem still_serveSession {r : SessionRequest} {a : SessionAnswer r} (hr : Quiet r)
    (h : serveSession setting fails i r w a w') : Still w w' := by
  cases r with
  | setting | session =>
    rw [(read_cases h).1]
    exact .refl _
  | setSetting key value =>
    exact still_storedNoting h fun b s hop ↦ session_setSetting (unit_eq_ok hop)
  | emptyNamespace =>
    refine still_storedNoting h fun b s hop ↦ ?_
    cases he : w.store.emptyNamespace with
    | error e =>
      rw [he] at hop
      cases hop
    | ok x =>
      rw [he] at hop
      obtain ⟨-, rfl⟩ := Prod.mk.inj (Except.ok.inj hop)
      obtain ⟨-, hx⟩ := emptyNamespace_eq_ok he
      rw [hx]
  | setSession | stopSession | lockLogin | unlockLogin | clearBegins | signOutCompleted =>
    exact absurd hr id
  | setState state token =>
    obtain rfl := h
    exact ⟨rfl, rfl, rfl, fun s hs ↦ nomatch hs.symm.trans hr⟩
  | setRefreshToken | newSessionKey =>
    obtain ⟨-, rfl⟩ | ⟨-, rfl | rfl⟩ := h <;> exact ⟨rfl, rfl, rfl, fun _ h ↦ h⟩
  | forgetSession =>
    obtain ⟨-, rfl⟩ | ⟨-, key, refresh, -, -, rfl⟩ := h <;> exact ⟨rfl, rfl, rfl, fun _ h ↦ h⟩
  | exchangeRefreshToken text =>
    obtain ⟨attempt, -, -, rfl⟩ := h
    exact ⟨rfl, rfl, rfl, fun _ h ↦ h⟩
  | refreshToken | hasUserToken | tokenExpiry | state | isStopped | startDeviceLogin
  | waitOnToken =>
    obtain ⟨-, rfl⟩ := h
    exact .refl _
  | _ =>
    obtain rfl := h
    exact ⟨rfl, rfl, rfl, fun _ h ↦ h⟩

theorem busy_of_storedNoting {α : Type} {f : History → History}
    {operation : Except StoreError (α × Store)} {a : Except StoreError α}
    (h : w.StoredNoting f fails operation a w') : w'.memory = w.memory := by
  obtain ⟨rfl, -⟩ | ⟨b, s, -, -, rfl⟩ := storedNoting_cases h <;> rfl

/-- What a single request does to row and state, and to what others are in the middle of. -/
theorem agreed_serve {r : Request} {a : Answer r} (h : Agreed w) (hok : InOrder i r w)
    (hsettle : Settling i r w a w') (hserve : serve setting fails i r w a w') :
    Agreed w' ∧ ∀ j, j ≠ i → Undisturbed j w w' := by
  have hstill : Still w w' → Agreed w' ∧ ∀ j, j ≠ i → Undisturbed j w w' :=
    fun hs ↦ ⟨hs.agreed h, fun _ _ _ ↦ hs⟩
  have hothers : Busy i w → ∀ j, j ≠ i → Undisturbed j w w' :=
    fun hb j hj hother ↦ absurd (h.alone.eq hb hother) hj
  have hmine : Busy i w → w'.memory.lock = w.memory.lock →
      w'.memory.clearing = w.memory.clearing → Agreed w' ∧ ∀ j, j ≠ i → Undisturbed j w w' := by
    intro hb hlock hclearing
    refine ⟨⟨?_, fun hidle ↦ ?_⟩, hothers hb⟩
    · rw [Alone, hlock, hclearing]
      exact h.alone
    · rw [Idle, hlock, hclearing] at hidle
      obtain hb | hb := hb
      · cases hidle.1.symm.trans hb
      · rw [hidle.2] at hb
        cases hb
  cases hr : sessionOf r with
  | none => exact hstill (.of_sameSession (sameSession_serve hr hserve))
  | some q =>
    obtain rfl := eq_of_sessionOf hr
    change serveSession setting fails i q w a w' at hserve
    cases q with
    | setSession session token =>
      simp only [serveSession] at hserve
      have hm := busy_of_storedNoting hserve
      exact hmine hok (by rw [hm]) (by rw [hm])
    | stopSession =>
      simp only [serveSession, World.Stored] at hserve
      have hm := busy_of_storedNoting hserve
      exact hmine hok (by rw [hm]) (by rw [hm])
    | setState state token =>
      obtain rfl := hserve
      by_cases hnone : named state = none
      · exact hstill ⟨rfl, rfl, rfl, fun s hs ↦ (by cases hs.symm.trans hnone)⟩
      · unfold InOrder at hok
        split at hok
        · cases ‹Request.command _ = _›
        · cases ‹Request.command _ = _›
        · rename_i he
          cases he
          exact hstill ⟨rfl, rfl, rfl, fun s hs ↦ hsettle.trans hs⟩
        · rename_i he
          cases he
          exact hmine (hok.resolve_left hnone) rfl rfl
        · cases ‹Request.command _ = _›
        · cases ‹Request.command _ = _›
        · rename_i hne _ _
          exact (hne _ _ rfl).elim
    | lockLogin =>
      obtain ⟨hlock, rfl⟩ := hserve
      refine ⟨⟨.inl hsettle, fun hidle ↦ (by cases hidle.1)⟩, fun j _ hother ↦ ?_⟩
      obtain hother | hother := hother
      · cases hlock.symm.trans hother
      · exact absurd (hsettle ▸ hother) List.not_mem_nil
    | unlockLogin =>
      obtain rfl := hserve
      exact ⟨⟨.inl hok.2.1, fun _ ↦ hok.2.2⟩, hothers (.inl hok.1)⟩
    | clearBegins =>
      obtain rfl := hserve
      obtain ⟨hclearing, hlock⟩ := hsettle
      refine ⟨⟨.inr ⟨i, ?_, hlock⟩, fun hidle ↦ (by cases hidle.2)⟩, fun j hj hother ↦ ?_⟩
      · exact congrArg (i :: ·) hclearing
      · obtain hother | hother := hother
        · obtain hlock | hlock := hlock
          · cases hlock.symm.trans hother
          · exact absurd (Option.some.inj (hother.symm.trans hlock)) hj
        · exact absurd (hclearing ▸ hother) List.not_mem_nil
    | signOutCompleted =>
      obtain rfl := hserve
      obtain ⟨hclearing, hrow⟩ := hok
      refine ⟨⟨.inl ?_, fun _ s hs ↦ ?_⟩, hothers (.inr (hclearing ▸ List.mem_singleton_self i))⟩
      · change w.memory.clearing.erase i = []
        rw [hclearing, List.erase_cons_head]
      · obtain rfl := Option.some.inj hs
        exact hrow
    | _ =>
      refine hstill (still_serveSession ?_ hserve)
      trivial

end Served

def discipline : Discipline Request Answer World where
  invariant := Agreed
  ok := InOrder
  rely := Undisturbed
  ends _ _ := True

section Steps

variable {setting : Setting} {fails : Prop} {i : ℕ}

abbrev contract (setting : Setting) (fails : Prop) (i : ℕ) : Contract Request Answer World :=
  discipline.knowing (rules setting fails settling) i

/-- The activity holds the lock, no sign-out clears up, and the row satisfies `P`. -/
def Holds (i : ℕ) (P : World → Prop) (w : World) : Prop :=
  w.memory.lock = some i ∧ w.memory.clearing = [] ∧ P w

theorem Holds.still {P : World → Prop} {w w' : World} (h : Holds i P w) (hs : Still w w')
    (hP : Still w w' → P w → P w') : Holds i P w' :=
  ⟨hs.lock.trans h.1, hs.clearing.trans h.2.1, hP hs h.2.2⟩

/-- The activity holds the lock, and what is shown is what the row says. -/
abbrev Held (i : ℕ) : World → Prop := Holds i Agree

theorem Held.of_still {w w' : World} (h : Held i w) (hs : Still w w') : Held i w' :=
  h.still hs Still.agree

theorem inOrder_of_quiet {r : SessionRequest} (h : Quiet r) (w : World) :
    InOrder i (.command (.reconcile (.session r))) w := by
  cases r with
  | setState state token =>
    unfold InOrder
    split <;> first | trivial | exact .inl ‹_› | skip
    all_goals rename_i he; cases he
    exact .inl h
  | setSession | stopSession | lockLogin | unlockLogin | clearBegins | signOutCompleted =>
    exact absurd h id
  | _ => trivial

theorem still_of_quiet {r : SessionRequest} {a : SessionAnswer r} {w w₁ w₂ : World} (hr : Quiet r)
    (hb : Busy i w) (hs : (sessions (contract setting fails i)).serve r w a w₁)
    (hrely : (sessions (contract setting fails i)).rely w₁ w₂) : Still w w₂ := by
  have hstep := still_serveSession hr hs.1.1
  exact hstep.trans (hrely.1 (hstep.busy hb))

/-- Whatever the quiet requests of a busy activity leave standing. -/
theorem sound_still {α : Type} {I : World → Prop} (hbusy : ∀ w, I w → Busy i w)
    (hstill : ∀ w w', I w → Still w w' → I w') {p : SessionActivity α} (hp : p.Asks Quiet)
    {w : World} (hw : I w) :
    (sessions (contract setting fails i)).Sound p (fun _ ↦ I) w := by
  have hrely : ∀ w w', I w → (sessions (contract setting fails i)).rely w w' → I w' :=
    fun w w' hw hr ↦ hstill w w' hw (hr.1 (hbusy w hw))
  refine sound_of_asks hp (fun r w hr hw ↦ ⟨inOrder_of_quiet hr w, fun a w' hs ↦ ?_⟩) hrely hw
  exact hstill w w' hw (still_serveSession hr hs.1.1)

theorem sound_held_bind {α β : Type} {p : SessionFallible α} {f : α → SessionFallible β}
    (hp : p.run.Asks Quiet) {w : World} (hw : Held i w)
    (hf : ∀ a w', Held i w' →
      (sessions (contract setting fails i)).Sound (f a).run (fun _ ↦ Held i) w') :
    (sessions (contract setting fails i)).Sound (p >>= f).run (fun _ ↦ Held i) w := by
  refine sound_fallible_bind (sound_mono ?_
    (sound_still (fun _ h ↦ .inl h.1) (fun _ _ h ↦ h.of_still) hp hw))
  intro r w' hw'
  cases r with
  | ok a => exact hf a w' hw'
  | error e => exact hw'

theorem asks_quiet {r : SessionRequest} (h : Quiet r) :
    (liftM (SessionRequest.call r) : SessionFallible (SessionAnswer r)).run.Asks Quiet :=
  asks_lift (asks_call h)

/-- Shows a state of the name of the row. -/
theorem sound_setState {state : EngineState} {token : Option TokenResponse} {s : SessionState}
    {w : World} (hs : named state = some s) (hw : Holds i (fun w ↦ row w = s) w)
    (hok : InOrder i (.command (.reconcile (.session (.setState state token)))) w) :
    (sessions (contract setting fails i)).Sound
      (liftM (call (.setState state token)) : SessionFallible Unit).run (fun _ ↦ Held i) w := by
  refine ⟨hok, fun a w₁ w₂ hserve hr ↦ ?_⟩
  obtain ⟨⟨rfl, -⟩, -⟩ := hserve
  have hheld : Held i (w.withMemory fun m ↦ { m with state := state }) := by
    refine ⟨hw.1, hw.2.1, fun s' hs' ↦ ?_⟩
    obtain rfl := Option.some.inj (hs.symm.trans hs')
    exact hw.2.2
  exact hheld.of_still (hr.1 (.inl hw.1))

theorem row_still {s : SessionState} (w w' : World) (hs : Still w w') (h : row w = s) :
    row w' = s := hs.row.trans h

/-- Writes the row; where that fails, everything stands. -/
theorem sound_setSession {session : Session} {token : Option TokenResponse} {w : World}
    (hw : Held i w) :
    (sessions (contract setting fails i)).Sound
      (store (call (.setSession session token)) : SessionFallible Unit).run
      (fun r w' ↦ match r with
        | .ok _ => Holds i (fun w' ↦ row w' = session.state) w'
        | .error _ => Held i w') w := by
  refine ⟨.inl hw.1, fun a w₁ w₂ hserve hr ↦ ?_⟩
  obtain ⟨⟨hserve, -⟩, -⟩ := hserve
  simp only [Port.serve, serveCommand, serveReconcile, serveSession] at hserve
  obtain ⟨rfl, e, rfl⟩ | ⟨b, s, hop, rfl, rfl⟩ := storedNoting_cases hserve
  · exact hw.of_still (hr.1 (.inl hw.1))
  · obtain ⟨-, rfl⟩ := Prod.mk.inj (Except.ok.inj hop)
    have hstored : Holds i (fun w' ↦ row w' = session.state)
        { w.noting (.signedIn session.account) with store := w.store.setSession session } :=
      ⟨hw.1, hw.2.1, rfl⟩
    exact hstored.still (hr.1 (.inl hw.1)) (row_still _ _)

/-- The end of a takeover, the row being that of a signed-in session. -/
theorem sound_signedIn {token : TokenResponse} {identity : Identity} {since : Timestamp} {w : World}
    (hw : Holds i (fun w ↦ row w = .signedIn) w) :
    (sessions (contract setting fails i)).Sound (do
      store (call (.setSetting .identityGuessed (if identity.guessed then "yes" else "no")))
      if ← call .fileSystem then
        let _ ← call (.placeReady ("elasticdms – " ++ identity.tenant) identity.account.sub)
      call (.setState (.signedIn identity.displayName identity.tenant since true) (some token)) :
      SessionFallible Unit).run (fun _ ↦ Held i) w := by
  have hquiet : ∀ {α : Type} {p : SessionActivity α} {f : α → SessionFallible Unit} {w : World},
      p.Asks Quiet → Holds i (fun w ↦ row w = .signedIn) w →
      (∀ a w', Holds i (fun w ↦ row w = .signedIn) w' →
        (sessions (contract setting fails i)).Sound (f a).run (fun _ ↦ Held i) w') →
      (sessions (contract setting fails i)).Sound (liftM p >>= f).run (fun _ ↦ Held i) w := by
    intro α p f w hp hw hf
    refine sound_fallible_bind (sound_bind.mpr (sound_mono ?_ (sound_still
      (fun _ h ↦ .inl h.1) (fun w w' h hs ↦ h.still hs (row_still w w')) hp hw)))
    exact fun a w' hw' ↦ hf a w' hw'
  have hshow : ∀ w, Holds i (fun w ↦ row w = .signedIn) w →
      (sessions (contract setting fails i)).Sound (liftM (call (.setState
        (.signedIn identity.displayName identity.tenant since true) (some token))) :
        SessionFallible Unit).run (fun _ ↦ Held i) w :=
    fun w hw ↦ sound_setState rfl hw (.inr (.inl hw.1))
  refine sound_fallible_bind ⟨trivial, fun a w₁ w₂ hserve hr ↦ ?_⟩
  have hstill := still_of_quiet (by trivial) (.inl hw.1) hserve hr
  obtain ⟨⟨-, hsettle⟩, -⟩ := hserve
  cases a with
  | error e =>
    have hagree : Agree w := hsettle.resolve_left nofun
    exact Held.of_still ⟨hw.1, hw.2.1, hagree⟩ hstill
  | ok _ =>
    refine hquiet (asks_call (by trivial)) (hw.still hstill (row_still w w₂)) fun fileSystem w hw ↦ ?_
    split
    · exact hquiet (asks_call (by trivial)) hw fun _ w hw ↦ hshow w hw
    · exact hshow w hw

theorem sound_use {token : TokenResponse} {w : World} (hw : Held i w) :
    (sessions (contract setting fails i)).Sound (use setting token).run (fun _ ↦ Held i) w := by
  refine sound_held_bind (asks_quiet (by trivial)) hw fun _ w hw ↦ ?_
  refine sound_held_bind (asks_quiet (by trivial)) hw fun time w hw ↦ ?_
  refine sound_held_bind (asks_quiet (by trivial)) hw fun _ w hw ↦ ?_
  refine sound_held_bind (asks_readKeySet fun _ ↦ by trivial) hw fun set w hw ↦ ?_
  refine sound_raise_bind (fun identity _ ↦ ?_) fun _ _ ↦ hw
  refine sound_held_bind (asks_quiet (by trivial)) hw fun since w hw ↦ ?_
  refine sound_fallible_bind (sound_mono ?_ (sound_setSession hw))
  intro r w hw
  cases r with
  | ok _ => exact sound_signedIn hw
  | error e => exact hw

theorem sound_adoptToken {token : TokenResponse} {w : World} (hw : Held i w) :
    (sessions (contract setting fails i)).Sound (adoptToken setting token).run
      (fun _ ↦ Held i) w := by
  cases ht : token.refreshToken with
  | none =>
    rw [adoptToken_none ht]
    exact sound_use hw
  | some refresh =>
    rw [adoptToken_some ht]
    refine ⟨trivial, fun a w₁ w₂ hs hr ↦ ?_⟩
    have hheld := hw.of_still (still_of_quiet (by trivial) (.inl hw.1) hs hr)
    cases a with
    | ok a => exact sound_use hheld
    | error e => exact hheld

theorem row_stopSession {w : World} {device : DeviceIdentifier}
    (h : (w.store.session.bind (·.login)).isSome = true) :
    ((w.store.stopSession device).session.map (·.state)).getD .signedOut = .loginRequired := by
  obtain ⟨login, hl⟩ := Option.isSome_iff_exists.mp h
  rw [Store.stopSession, hl]
  rfl

theorem sound_sessionStop {reason : String} {eraseSecrets : Bool} {w : World} (hw : Held i w) :
    (sessions (contract setting fails i)).Sound (sessionStop reason eraseSecrets).run
      (fun _ ↦ Held i) w := by
  have hrest : ∀ w, Held i w → (sessions (contract setting fails i)).Sound (do
      call (.setTokenExpiry none)
      store (call .stopSession)
      call (.setState (.loginRequired reason) none) : SessionFallible Unit).run
        (fun _ ↦ Held i) w := by
    intro w hw
    refine sound_held_bind (asks_quiet (by trivial)) hw fun _ w hw ↦ ?_
    refine sound_fallible_bind ⟨.inl hw.1, fun a w₁ w₂ hserve hr ↦ ?_⟩
    obtain ⟨⟨hserve, hsettle⟩, -⟩ := hserve
    simp only [Port.serve, serveCommand, serveReconcile, serveSession] at hserve
    obtain ⟨rfl, e, rfl⟩ | ⟨b, s, hop, rfl, rfl⟩ := storedNoting_cases hserve
    · exact hw.of_still (hr.1 (.inl hw.1))
    · obtain ⟨-, rfl⟩ := Prod.mk.inj (Except.ok.inj hop)
      have hstopped : Holds i (fun w ↦ row w = .loginRequired)
          { w.noting id with store := w.store.stopSession setting.device } :=
        ⟨hw.1, hw.2.1, row_stopSession (hsettle rfl)⟩
      have hstopped := hstopped.still (hr.1 (.inl hw.1)) (row_still _ _)
      exact sound_setState rfl hstopped (.inr (.inl hstopped.1))
  unfold sessionStop
  cases eraseSecrets with
  | false => exact hrest w hw
  | true => exact sound_held_bind (asks_quiet (by trivial)) hw fun _ w hw ↦ hrest w hw

/-- Nothing with another name than that state is shown. -/
def Shows (s : SessionState) (w : World) : Prop := ∀ s', named w.memory.state = some s' → s' = s

theorem Shows.still {s : SessionState} (w w' : World) (hs : Still w w') (h : Shows s w) :
    Shows s w' := fun s' hn ↦ h s' (hs.shown s' hn)

theorem held_of_shows {s : SessionState} {w : World} (hw : Holds i (Shows s) w) (h : row w = s) :
    Held i w := ⟨hw.1, hw.2.1, fun s' hs' ↦ h.trans (hw.2.2 s' hs').symm⟩

/-- Writes the row of what is shown already. -/
theorem sound_setShown {session : Session} {w : World} (hw : Holds i (Shows session.state) w)
    (hne : session.state ≠ .signedIn) :
    (sessions (contract setting fails i)).Sound
      (store (call (.setSession session none)) : SessionFallible Unit).run (fun _ ↦ Held i) w := by
  refine ⟨.inl hw.1, fun a w₁ w₂ hserve hr ↦ ?_⟩
  obtain ⟨⟨hserve, hsettle⟩, -⟩ := hserve
  simp only [Port.serve, serveCommand, serveReconcile, serveSession] at hserve
  obtain ⟨rfl, e, rfl⟩ | ⟨b, s, hop, rfl, rfl⟩ := storedNoting_cases hserve
  · have hrow := (hsettle.resolve_left (fun h ↦ by cases h)).resolve_left hne
    exact (held_of_shows hw hrow).of_still (hr.1 (.inl hw.1))
  · obtain ⟨-, rfl⟩ := Prod.mk.inj (Except.ok.inj hop)
    have hstored : Holds i (Shows session.state)
        { w.noting (.signedIn session.account) with store := w.store.setSession session } := hw
    exact (held_of_shows hstored rfl).of_still (hr.1 (.inl hw.1))

theorem sound_fetchDeviceToken {w : World} (hw : Held i w) :
    (sessions (contract setting fails i)).Sound (Session.fetchDeviceToken setting).run
      (fun _ ↦ Held i) w := by
  refine sound_held_bind (asks_quiet (by trivial)) hw fun result w hw ↦ ?_
  split
  · refine sound_held_bind (asks_readKeySet fun _ ↦ by trivial) hw fun set w hw ↦ ?_
    refine sound_lift_bind (.inr (.inl hw.1)) fun a w₁ w₂ hserve hr ↦ ?_
    obtain ⟨⟨rfl, -⟩, -⟩ := hserve
    have hshown : Holds i (Shows .awaitingApproval) (w.withMemory fun m ↦
        { m with state := .awaitingApproval set.fingerprint.display }) :=
      ⟨hw.1, hw.2.1, fun s hs ↦ (Option.some.inj hs).symm⟩
    have hshown := hshown.still (hr.1 (.inl hw.1)) (Shows.still _ _)
    refine sound_fallible_bind (sound_mono ?_ (sound_setShown hshown nofun))
    intro r w hw
    cases r <;> exact hw
  · refine sound_raise_bind (fun text _ ↦ ?_) fun _ _ ↦ hw
    exact sound_held_bind (asks_quiet (by trivial)) hw fun _ w hw ↦ hw

/-- The activity clears up, the lock being in those hands. -/
def Clears (i : ℕ) (holder : Option ℕ) (P : World → Prop) (w : World) : Prop :=
  w.memory.clearing = [i] ∧ w.memory.lock = holder ∧ P w

theorem Clears.busy {holder : Option ℕ} {P : World → Prop} {w : World} (h : Clears i holder P w) :
    Busy i w := .inr (h.1 ▸ List.mem_singleton_self i)

theorem Clears.still {holder : Option ℕ} {P : World → Prop} {w w' : World}
    (h : Clears i holder P w) (hs : Still w w') (hP : Still w w' → P w → P w') :
    Clears i holder P w' :=
  ⟨hs.clearing.trans h.1, hs.lock.trans h.2.1, hP hs h.2.2⟩

theorem sound_clears_bind {α : Type} {holder : Option ℕ} {P Q : World → Prop} {r : SessionRequest}
    {f : SessionAnswer r → SessionFallible α} (hq : Quiet r) {w : World}
    (hP : ∀ w w', Still w w' → P w → P w') (hw : Clears i holder P w)
    (hf : ∀ a w', Clears i holder P w' →
      (sessions (contract setting fails i)).Sound (f a).run (fun _ ↦ Q) w') :
    (sessions (contract setting fails i)).Sound (liftM (SessionRequest.call r) >>= f).run
      (fun _ ↦ Q) w := by
  refine sound_lift_bind (inOrder_of_quiet hq w) fun a w₁ w₂ hs hr ↦ ?_
  exact hf a w₂ (hw.still (still_of_quiet hq hw.busy hs hr) (hP _ _))

/-- The local part of a sign-out leaves row and state in agreement where the lock is held. -/
theorem sound_clearAfterSignOut (w : World) :
    (sessions (contract setting fails i)).Sound (clearAfterSignOut setting).run
      (fun _ w' ↦ w.memory.lock = some i → Held i w') w := by
  refine sound_lift_bind trivial fun a w₁ w₂ hserve hr ↦ ?_
  obtain ⟨⟨rfl, hclearing, hlock⟩, -⟩ := hserve
  have htrue : ∀ w w' : World, Still w w' → True → True := fun _ _ _ h ↦ h
  have hw : Clears i w.memory.lock (fun _ ↦ True) (w.withMemory fun m ↦
      { m with clearing := i :: m.clearing }) :=
    ⟨congrArg (i :: ·) hclearing, rfl, trivial⟩
  have hw := hw.still (hr.1 hw.busy) (htrue _ _)
  refine sound_clears_bind (by trivial) htrue hw fun fileSystem w₃ hw ↦ ?_
  have hend : ∀ (r : Except EngineError Unit) (w₄ : World),
      Clears i w.memory.lock (fun w ↦ row w = .signedOut) w₄ →
      (sessions (contract setting fails i)).Sound (do
        call .signOutCompleted
        raise r : SessionFallible Unit).run
        (fun _ w' ↦ w.memory.lock = some i → Held i w') w₄ := by
    intro r w₄ hw
    refine sound_lift_bind ⟨hw.1, hw.2.2⟩ fun _ w₅ w₆ hserve hr hlock ↦ ?_
    obtain ⟨⟨rfl, -⟩, -⟩ := hserve
    have hheld : Held i ((w₄.withMemory fun m ↦
        { m with state := .signedOut, clearing := m.clearing.erase i }).noting
          fun h ↦ { h with signOuts := h.signOuts + 1 }) := by
      refine ⟨hw.2.1.trans hlock, ?_, fun s hs ↦ ?_⟩
      · change w₄.memory.clearing.erase i = []
        rw [hw.1, List.erase_cons_head]
      · obtain rfl := Option.some.inj hs
        exact hw.2.2
    exact hheld.of_still (hr.1 (.inl hheld.1))
  have hrest : ∀ (cleared : Except PlatformError Unit) (w₄ : World),
      Clears i w.memory.lock (fun _ ↦ True) w₄ →
      (sessions (contract setting fails i)).Sound (do
        let emptied ← call .emptyNamespace
        let signedOut ← call (.setSession (.signedOut setting.device) none)
        let forgotten ← call .forgetSession
        call (.setTokenExpiry none)
        call .signOutCompleted
        raise (firstError [cleared.mapError .platform, emptied.mapError .store,
          signedOut.mapError .store, forgotten.mapError .vault]) : SessionFallible Unit).run
        (fun _ w' ↦ w.memory.lock = some i → Held i w') w₄ := by
    intro cleared w₄ hw
    refine sound_clears_bind (by trivial) htrue hw fun emptied w₅ hw ↦ ?_
    refine sound_lift_bind hw.busy fun signedOut w₆ w₇ hserve hr ↦ ?_
    obtain ⟨⟨hserve, hsettle⟩, -⟩ := hserve
    simp only [Port.serve, serveCommand, serveReconcile, serveSession] at hserve
    have hout : Clears i w.memory.lock (fun w ↦ row w = .signedOut) w₆ := by
      obtain ⟨rfl, e, rfl⟩ | ⟨b, s, hop, rfl, rfl⟩ := storedNoting_cases hserve
      · have hsettle := (hsettle.resolve_left fun h ↦ by cases h).resolve_left fun h ↦ by cases h
        exact ⟨hw.1, hw.2.1, hsettle⟩
      · obtain ⟨-, rfl⟩ := Prod.mk.inj (Except.ok.inj hop)
        exact ⟨hw.1, hw.2.1, rfl⟩
    have hout := hout.still (hr.1 hout.busy) (row_still _ _)
    refine sound_clears_bind (by trivial) row_still hout fun forgotten w₈ hw ↦ ?_
    exact sound_clears_bind (by trivial) row_still hw fun _ w₉ hw ↦ hend _ w₉ hw
  dsimp only
  split
  · exact sound_clears_bind (by trivial) htrue hw fun cleared w₄ hw ↦ hrest cleared w₄ hw
  · exact hrest _ w₃ hw

/-- The requests of a step under the lock that leave row and state in agreement. -/
def Calm (r : SessionRequest) : Prop := Quiet r ∨ r = .setState .signedOut none

theorem inOrder_of_calm {r : SessionRequest} (h : Calm r) {w : World} (hw : Held i w) :
    InOrder i (.command (.reconcile (.session r))) w := by
  obtain hq | rfl := h
  · exact inOrder_of_quiet hq w
  · exact .inr (.inl hw.1)

theorem held_of_calm {r : SessionRequest} {a : SessionAnswer r} {w w' : World} (h : Calm r)
    (hw : Held i w) (hs : (sessions (contract setting fails i)).serve r w a w') : Held i w' := by
  obtain hq | rfl := h
  · exact hw.of_still (still_serveSession hq hs.1.1)
  · obtain ⟨⟨rfl, hrow⟩, -⟩ := hs
    refine ⟨hw.1, hw.2.1, fun s hn ↦ ?_⟩
    obtain rfl := Option.some.inj hn
    exact hrow

theorem held_of_quiet {r : SessionRequest} {a : SessionAnswer r} {w w₁ w₂ : World} (hq : Quiet r)
    (hw : Held i w) (hs : (sessions (contract setting fails i)).serve r w a w₁)
    (hr : (sessions (contract setting fails i)).rely w₁ w₂) : Held i w₂ :=
  hw.of_still (still_of_quiet hq (.inl hw.1) hs hr)

theorem holding (setting : Setting) (fails : Prop) (i : ℕ) :
    Holding setting (sessions (contract setting fails i)) Calm (Held i) where
  lock _ := trivial
  held w w₁ w₂ hs hr := by
    obtain ⟨⟨⟨hlock, rfl⟩, hclearing⟩, hi⟩ := hs
    have hheld : Held i (w.withMemory fun m ↦ { m with lock := some i }) :=
      ⟨rfl, hclearing, hi.agree ⟨hlock, hclearing⟩⟩
    exact hheld.of_still (hr.1 (.inl rfl))
  rely w w' hw hr := hw.of_still (hr.1 (.inl hw.1))
  unlock _ hw := ⟨hw.1, hw.2.1, hw.2.2⟩
  outside r w hr := by cases r <;> first | trivial | exact absurd hr id
  ok _ _ hr hw := inOrder_of_calm hr hw
  keep _ _ _ _ hr hw hs := held_of_calm hr hw hs
  enrolling r hr := by
    cases r with
    | setState state token => cases state <;> first | exact absurd hr id | exact .inl rfl
    | _ => first | exact absurd hr id | exact .inl trivial
  device _ hw := sound_fetchDeviceToken hw
  freshness r hr := by cases r <;> first | exact absurd hr id | exact .inl trivial
  isStopped := .inl trivial

theorem flow (setting : Setting) (fails : Prop) (i : ℕ) :
    Flow setting (sessions (contract setting fails i)) Calm (Held i) (fun _ ↦ Held i)
      (fun _ ↦ Held i) (fun _ ↦ Held i) (Held i) where
  toHolding := holding setting fails i
  refreshToken := .inl trivial
  missed := .inr rfl
  read _ _ _ _ _ hw hs hr _ := held_of_quiet (by trivial) hw hs hr
  exchange _ w hw := by
    refine ⟨trivial, fun a w₁ w₂ hs hr ↦ ?_⟩
    have hheld := held_of_quiet (by trivial) hw hs hr
    cases a with
    | networkError error => cases error <;> exact hheld
    | _ => exact hheld
  stop _ _ _ hw := sound_sessionStop hw
  finished _ hw := hw
  adopt _ _ hw := sound_adoptToken hw
  newKey w hw := by
    refine ⟨trivial, fun a w₁ w₂ hs hr ↦ ?_⟩
    have hheld := held_of_quiet (by trivial) hw hs hr
    exact ⟨hheld, fun _ ↦ hheld⟩
  start w hw := by
    refine ⟨trivial, fun a w₁ w₂ hs hr ↦ ?_⟩
    have hheld := held_of_quiet (by trivial) hw hs hr
    exact ⟨hheld, fun _ _ ↦ hheld⟩
  shown _ w hw := ⟨.inl rfl, fun _ _ _ hs hr ↦
    held_of_quiet (r := .setState .loginRuns none) rfl hw hs hr⟩
  wait _ w hw := by
    refine ⟨trivial, fun a w₁ w₂ hs hr ↦ ?_⟩
    have hheld := held_of_quiet (by trivial) hw hs hr
    exact ⟨hheld, fun _ _ ↦ hheld⟩

theorem inOrder_of_harmless {r : Request} (h : Harmless r) (w : World) : InOrder i r w := by
  unfold InOrder
  split
  case h_4 state token hne =>
    cases state <;> cases token <;> first | exact absurd h id | exact (hne _ _ _ _ rfl rfl).elim
  all_goals first | trivial | exact absurd h id

theorem inOrder_of_fetching (r : ReconcileRequest) (w : World) (h : Fetching r) :
    InOrder i (.command (.reconcile r)) w := by
  cases r with
  | session request => exact inOrder_of_harmless (r := .command (.reconcile (.session request))) h w
  | _ => trivial

theorem orderly (setting : Setting) (fails : Prop) (i : ℕ) :
    Orderly setting (contract setting fails i) where
  harmless _ w h _ := inOrder_of_harmless h w
  ensureForToken := (flow setting fails i).fine_ensureForToken
  forceRefresh := (flow setting fails i).fine_forceRefresh
  signIn := (flow setting fails i).fine_signIn
  signOut := (holding setting fails i).fine_signOut (.inl trivial) (fun _ ↦ .inl trivial)
    fun w hw ↦ sound_mono (fun _ _ h ↦ h hw.1) (sound_clearAfterSignOut w)
  clearAfterSignOut w := sound_mono (fun _ _ _ ↦ trivial) (sound_clearAfterSignOut w)
  root := fine_of_asks (fetching_adopt _ _ _ _ _) inOrder_of_fetching
  fetchAndAdopt container :=
    fine_of_asks (fetching_fetchAndAdopt setting container) inOrder_of_fetching

end Steps

theorem still_ended (i : ℕ) (w : World) : Still w (ended i w) := by
  obtain he | ⟨-, he⟩ := ended_cases i w <;> rw [he] <;> exact ⟨rfl, rfl, rfl, fun _ h ↦ h⟩

theorem named_stateOnStart (session : Option Session) (fingerprint : String) :
    named (stateOnStart session fingerprint) = some ((session.map (·.state)).getD .signedOut) := by
  cases session with
  | none => rfl
  | some session =>
    obtain ⟨device, state, login, hcarried⟩ := session
    cases state <;> cases login <;> first | rfl | cases hcarried

/-- A later start shows the state of the row. -/
theorem named_restart (w : World) (fingerprint : String) :
    named (w.restart fingerprint).memory.state = some (row w) :=
  named_stateOnStart w.store.session fingerprint

theorem agreed_aborted {i : ℕ} {w : World} (h : Agreed w) (hc : Busy i w → Agree w) :
    Agreed (aborted i w) ∧ ∀ j, j ≠ i → Undisturbed j w (aborted i w) := by
  have hstill := still_ended i w
  have hlock : (aborted i w).memory.lock =
      if w.memory.lock = some i then none else w.memory.lock := by
    rw [← hstill.lock]
    rfl
  have hclearing : (aborted i w).memory.clearing = w.memory.clearing.erase i := by
    rw [← hstill.clearing]
    rfl
  have hagree : Agree w → Agree (aborted i w) := hstill.agree
  by_cases hb : Busy i w
  · refine ⟨⟨.inl ?_, fun _ ↦ hagree (hc hb)⟩, fun j hj hother ↦ absurd (h.alone.eq hb hother) hj⟩
    rw [hclearing]
    obtain hnone | ⟨k, hk, hheld⟩ := h.alone
    · rw [hnone, List.erase_nil]
    · have hki : k = i := h.alone.eq hb (.inr (hk ▸ List.mem_singleton_self k))
      rw [hk, hki, List.erase_cons_head]
  · have hlock' : (aborted i w).memory.lock = w.memory.lock := by
      rw [hlock, if_neg fun he ↦ hb (.inl he)]
    have hclearing' : (aborted i w).memory.clearing = w.memory.clearing := by
      rw [hclearing, List.erase_of_not_mem fun hm ↦ hb (.inr hm)]
    have hsame : Still w (aborted i w) := ⟨hlock', hclearing', hstill.row, hstill.shown⟩
    exact ⟨hsame.agreed h, fun _ _ _ ↦ hsame⟩

theorem kept (setting : Setting) (fails : Prop) :
    discipline.Kept (rules setting fails settling) (Fresh setting) where
  refl _ w _ := .refl w
  trans _ _ _ _ h h' hb := (h hb).trans (h' ((h hb).busy hb))
  enter w := by
    intro ⟨n, limit, hw⟩
    subst hw
    exact ⟨.inl rfl, fun _ _ hs ↦ Option.some.inj hs⟩
  start i p w hi := by
    intro ⟨job, hp, _⟩ w' _ hi'
    rw [hp]
    exact Discipline.sound_of_knowing hi' (fine_program (orderly setting fails i)
      (fine_process (orderly setting fails i) fun _ _ _ ↦ trivial)
      (fine_content (orderly setting fails i) fun _ _ ↦ trivial) job w')
  serve i r w a w' hi hok hserve := agreed_serve hi hok hserve.2 hserve.1
  finish i w w' hi _ hw := by
    obtain rfl := hw
    have hstill := still_ended i w
    exact ⟨hstill.agreed hi, fun _ _ _ ↦ hstill⟩
  abort i w w' hi hw := by
    obtain ⟨⟨-, hc⟩, rfl⟩ := hw
    exact agreed_aborted hi hc
  restart w w' hi hw := by
    obtain ⟨-, fingerprint, rfl⟩ := hw
    refine ⟨.inl rfl, fun _ s hs ↦ ?_⟩
    exact Option.some.inj ((named_restart w fingerprint).symm.trans hs)
  outside w w' hi hw := by
    obtain ⟨-, rfl⟩ := hw
    have hstill : Still w (stopped w) := ⟨rfl, rfl, rfl, fun _ hs ↦ (nomatch hs)⟩
    exact ⟨hstill.agreed hi, fun _ _ ↦ hstill⟩

/-- In every run that settles the ends of its steps, the engine shows the state of the session row
where no step of the session is in flight, and so does the next start. -/
theorem state_of_every_run {setting : Setting} {fails : Prop} {c : Activities}
    (h : Runs setting fails settling c) (hidle : Idle c.state) (s : SessionState)
    (hs : named c.state.memory.state = some s) :
    row c.state = s ∧
      ∀ fingerprint, named (c.state.restart fingerprint).memory.state = some s := by
  have hrow := (Discipline.run_kept (kept setting fails) h).1.agree hidle s hs
  exact ⟨hrow, fun fingerprint ↦ (named_restart _ fingerprint).trans (congrArg some hrow)⟩

section Settled

open FolderClient.Engine.Play

/-- The condition, where the store never fails and no session ends without a sign-out. -/
def settles : ℕ → (r : Request) → World → Answer r → World → Bool
  | _, .command (.reconcile (.session .lockLogin)), w, _, _ => w.memory.clearing = []
  | i, .command (.reconcile (.session .clearBegins)), w, _, _ =>
    w.memory.clearing = [] && (w.memory.lock = none || w.memory.lock = some i)
  | _, .command (.reconcile (.session .stopSession)), _, _, _ => false
  | _, .command (.reconcile (.session (.setSession _ _))), _, a, _ =>
    match a with
    | .ok _ => true
    | .error _ => false
  | _, .command (.reconcile (.session (.setSetting .identityGuessed _))), _, a, _ =>
    match a with
    | .ok _ => true
    | .error _ => false
  | _, .command (.reconcile (.session (.setState .signedOut _))), _, _, _ => false
  | _, .command (.reconcile (.session (.setState (.signedIn _ _ _ _) none))), w, _, _ =>
    named w.memory.state = some .signedIn
  | _, _, _, _, _ => true

theorem settling_of_settles {i : ℕ} {r : Request} {w w' : World} {a : Answer r}
    (h : settles i r w a w' = true) : settling.serve i r w a w' := by
  change Settling i r w a w'
  unfold settles at h
  split at h
  · exact of_decide_eq_true (p := _ = []) h
  · simp only [Bool.and_eq_true, Bool.or_eq_true, decide_eq_true_eq] at h
    exact h
  · cases h
  · split at h
    · exact .inl rfl
    · cases h
  · split at h
    · exact .inl rfl
    · cases h
  · cases h
  · exact of_decide_eq_true (p := named _ = _) h
  · rename_i hlock hclear hstop hset hsetting hout hin
    unfold Settling
    split
    · exact (hlock _ rfl HEq.rfl).elim
    · exact (hclear _ rfl HEq.rfl).elim
    · exact (hstop _ rfl HEq.rfl).elim
    · exact (hset _ _ _ rfl HEq.rfl).elim
    · exact (hsetting _ _ rfl HEq.rfl).elim
    · exact (hout _ _ rfl HEq.rfl).elim
    · exact (hin _ _ _ _ _ rfl HEq.rfl).elim
    · trivial

/-- Somebody signs in and out again. -/
def left : List Move :=
  whole 63 1 .signIn (welcoming (plainPage ["x"] "L")) ++ whole 11 1 .signOut {}

theorem state_left : ∃ c, Runs plain False settling c ∧
    named c.state.memory.state = some .signedOut ∧ row c.state = .signedOut := by
  obtain ⟨c, hplay, hc⟩ := (Option.any_eq_true (fun c : Activities ↦
    decide (c.state.memory.lock = none) && decide (c.state.memory.clearing = []) &&
      decide (named c.state.memory.state = some .signedOut))
        (playIf plain settles (freshEngine plain) left)).mp (by decide +kernel)
  simp only [Bool.and_eq_true, decide_eq_true_eq] at hc
  have hrun := runs_of_playIf (fun i r w a w' ↦ settling_of_settles) runs_freshEngine hplay
  exact ⟨c, hrun, hc.2, (state_of_every_run hrun hc.1 _ hc.2).1⟩

/-- Somebody signs in, and once more: the renewal times out, and the device flow expires. -/
def expired : List Move :=
  let welcome := welcoming (plainPage ["x"] "L")
  whole 63 1 .signIn welcome ++ whole 17 1 .signIn
    { exchange := .error (.timeout "server"), deviceToken := .success "device",
      login := welcome.login, waited := .success .expired }

theorem state_expired : ¬ ∀ (setting : Setting) (fails : Prop) (c : Activities),
    Runs setting fails {} c → Idle c.state → ∀ s, named c.state.memory.state = some s →
      row c.state = s ∧
        ∀ fingerprint, named (c.state.restart fingerprint).memory.state = some s := by
  intro hall
  obtain ⟨c, hplay, hc⟩ := (Option.any_eq_true (fun c : Activities ↦
    decide (c.state.memory.lock = none) && decide (c.state.memory.clearing = []) &&
      decide (named c.state.memory.state = some .signedOut) &&
      decide (row c.state = .loginRequired))
        (play plain (freshEngine plain) expired)).mp (by decide +kernel)
  simp only [Bool.and_eq_true, decide_eq_true_eq] at hc
  obtain ⟨⟨hidle, hshown⟩, hrow⟩ := hc
  have hall := hall plain False c (runs_of_play runs_freshEngine hplay) hidle _ hshown
  exact nomatch hrow.symm.trans hall.1

end Settled

end FolderClient.Engine.StateRuns
