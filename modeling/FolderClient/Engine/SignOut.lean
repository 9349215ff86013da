import FolderClient.Engine.Play
import FolderClient.Engine.Session
import FolderClient.Library.Oracles
import FolderClient.Storage.Effects
import FolderClient.Storage.Log

namespace FolderClient.Engine.SignOut

open FolderClient.Core.Log FolderClient.Core.Namespace FolderClient.Engine.Port
  FolderClient.Engine.Session
open FolderClient.Library.Oracles FolderClient.Library.Programs FolderClient.Library.Results
open FolderClient.Storage.Basic FolderClient.Storage.Effects

/-- The places of the vault. -/
inductive Slot
  | deviceKey
  | sessionKey
  | refreshToken
deriving DecidableEq

/-- All slots a sign-out empties; the device key belongs to the machine and stays. -/
def sessionSlots : List Slot := [.sessionKey, .refreshToken]

/-- What a sign-out works on; the mirror is there once a platform has registered. -/
structure Workplace where
  store : Store
  slots : Slot → Option (List UInt8)
  userToken : Option String
  deviceToken : Option String
  expiry : Option Timestamp
  state : EngineState
  mirror : Option (List String)

/-- Which steps fail, and what a failed step leaves: names on the disk, and perhaps the slot. -/
structure Faults where
  unreadable : Bool
  journal : Option StoreError
  platform : Option (PlatformError × (String → Bool))
  emptying : Option StoreError
  session : Option StoreError
  slot : Slot → Option (VaultError × Bool)

section Steps

variable (faults : Faults) (time : Timestamp)

def signedOutEntry : LogEntry := ⟨time, .signedOut, none, none, nofun⟩

/-- The usage log with the row of the sign-out, where that can be written. -/
def logged (s : Store) : Store :=
  let account := if faults.unreadable then none else s.session.bind Session.account
  match faults.journal, s.appendLog account (signedOutEntry time) with
  | none, .ok (_, s) => s
  | _, _ => s

def clearMirror (p : Workplace) : Except PlatformError Unit × Workplace :=
  match faults.platform with
  | none => (.ok (), { p with mirror := p.mirror.map fun _ ↦ [] })
  | some (error, left) => (.error error, { p with mirror := p.mirror.map (·.filter left) })

def emptyStore (p : Workplace) : Except StoreError Unit × Workplace :=
  match faults.emptying, p.store.emptyNamespace with
  | some error, _ => (.error error, p)
  | none, .error error => (.error error, p)
  | none, .ok (_, s) => (.ok (), { p with store := s })

def writeSession (session : Session) (p : Workplace) : Except StoreError Unit × Workplace :=
  match faults.session with
  | some error => (.error error, p)
  | none => (.ok (), { p with store := p.store.setSession session })

def deleteSlot (slot : Slot) (p : Workplace) : Except VaultError Unit × Workplace :=
  let emptied := { p with slots := Function.update p.slots slot none }
  match faults.slot slot with
  | none => (.ok (), emptied)
  | some (error, gone) => (.error error, if gone then emptied else p)

/-- Erases everything belonging to the session: both tokens in memory, then the slots. -/
def forgetSession (p : Workplace) : Except VaultError Unit × Workplace :=
  sessionSlots.foldl (fun (result, p) slot ↦
    match deleteSlot faults slot p with
    | (.error error, p) => (.error error, p)
    | (.ok (), p) => (result, p))
    (.ok (), { p with userToken := none, deviceToken := none })

/-- How the requests of a sign-out are answered; all others are answered in some way. -/
def serve (rest : (r : SessionRequest) → Workplace → SessionAnswer r × Workplace) :
    (r : SessionRequest) → Workplace → SessionAnswer r × Workplace
  | .clearBegins, p => ((), { p with store := logged faults time p.store })
  | .fileSystem, p => (p.mirror.isSome, p)
  | .clearEverything, p => clearMirror faults p
  | .emptyNamespace, p => emptyStore faults p
  | .setSession session _, p => writeSession faults session p
  | .forgetSession, p => forgetSession faults p
  | .setTokenExpiry expiry, p => ((), { p with expiry := expiry })
  | .signOutCompleted, p => ((), { p with state := .signedOut })
  | r, p => rest r p

end Steps

section Effects

variable (faults : Faults) (time : Timestamp) (setting : Setting)

/-- Why a store would not empty its namespace. -/
def refusal (s : Store) : Option StoreError :=
  match s.emptyNamespace with
  | .error error => some error
  | .ok _ => none

/-- The errors of the steps before the vault, in the order of the steps. -/
def occurredBefore (p : Workplace) : List EngineError :=
  ((if p.mirror.isSome then faults.platform.map Prod.fst else none).map .platform).toList ++
    ((faults.emptying.or (refusal p.store)).map .store).toList ++
    (faults.session.map .store).toList

/-- The errors of all steps, in their order. -/
def occurred (p : Workplace) : List EngineError :=
  occurredBefore faults p ++ (((faults.slot .sessionKey).map fun f ↦ .vault f.1).toList ++
    ((faults.slot .refreshToken).map fun f ↦ .vault f.1).toList)

def firstOf : List EngineError → Except EngineError Unit
  | [] => .ok ()
  | error :: _ => .error error

/-- The sign-out of a workplace, with its result. -/
def signedOut (rest : (r : SessionRequest) → Workplace → SessionAnswer r × Workplace)
    (p : Workplace) : Except EngineError Unit × Workplace :=
  (clearAfterSignOut setting).run.handle (serve faults time rest) p

/-- The store after a sign-out: the row is written, the namespace emptied, the session ended. -/
def storeAfter (s : Store) : Store :=
  let s := logged faults time s
  let s := match faults.emptying, s.emptyNamespace with
    | none, .ok (_, s) => s
    | _, _ => s
  match faults.session with
  | none => s.setSession (.signedOut setting.device)
  | some _ => s

def slotAfter (p : Workplace) (slot : Slot) : Option (List UInt8) :=
  if slot = .deviceKey then p.slots slot
  else
    match faults.slot slot with
    | some (_, false) => p.slots slot
    | _ => none

def mirrorAfter (p : Workplace) : Option (List String) :=
  p.mirror.map fun names ↦
    match faults.platform with
    | none => []
    | some (_, left) => names.filter left

/-- What a sign-out leaves of a workplace. -/
def after (p : Workplace) : Workplace where
  store := storeAfter faults time setting p.store
  slots := slotAfter faults p
  userToken := none
  deviceToken := none
  expiry := none
  state := .signedOut
  mirror := mirrorAfter faults p

/-- The result of a step with an error, or without one. -/
def outcome {ε : Type} : Option ε → Except ε Unit
  | none => .ok ()
  | some error => .error error

/-- What `forget_session` says: the error of the last slot that has one. -/
def forgotten : Option VaultError :=
  ((faults.slot .refreshToken).or (faults.slot .sessionKey)).map Prod.fst

theorem deleteSlot_eq (slot : Slot) (p : Workplace) : deleteSlot faults slot p =
    (outcome ((faults.slot slot).map Prod.fst),
      { p with
        slots := Function.update p.slots slot
          (if (faults.slot slot).any (!·.2) then p.slots slot else none) }) := by
  unfold deleteSlot
  rcases faults.slot slot with _ | ⟨error, _ | _⟩
  · rfl
  · exact congrArg (Prod.mk _) (congrArg (fun slots ↦ { p with slots := slots })
      (Function.update_eq_self slot p.slots).symm)
  · rfl

theorem forgetSession_eq (p : Workplace) : forgetSession faults p =
    (outcome (forgotten faults),
      { p with slots := slotAfter faults p, userToken := none, deviceToken := none }) := by
  have hslots : Function.update (Function.update p.slots .sessionKey
      (if (faults.slot .sessionKey).any (!·.2) then p.slots .sessionKey else none)) .refreshToken
      (if (faults.slot .refreshToken).any (!·.2) then p.slots .refreshToken else none) =
        slotAfter faults p := by
    funext slot
    cases slot with
    | deviceKey => rfl
    | sessionKey =>
      unfold slotAfter
      rcases faults.slot .sessionKey with _ | ⟨error, _ | _⟩ <;> simp
    | refreshToken =>
      unfold slotAfter
      rcases faults.slot .refreshToken with _ | ⟨error, _ | _⟩ <;> simp
  unfold forgetSession sessionSlots forgotten
  rw [List.foldl_cons, List.foldl_cons, List.foldl_nil, ← hslots]
  dsimp only
  rw [deleteSlot_eq, deleteSlot_eq]
  cases faults.slot .sessionKey with
  | none => cases faults.slot .refreshToken <;> rfl
  | some f => cases faults.slot .refreshToken <;> rfl

theorem emptyStore_eq (p : Workplace) : emptyStore faults p =
    (outcome (faults.emptying.or (refusal p.store)),
      { p with store := match faults.emptying, p.store.emptyNamespace with
        | none, .ok (_, s) => s
        | _, _ => p.store }) := by
  unfold emptyStore refusal
  cases faults.emptying with
  | some error => rfl
  | none => cases p.store.emptyNamespace <;> rfl

theorem clearMirror_eq (p : Workplace) : clearMirror faults p =
    (outcome (faults.platform.map Prod.fst), { p with mirror := mirrorAfter faults p }) := by
  unfold clearMirror mirrorAfter
  cases faults.platform <;> rfl

theorem writeSession_eq (session : Session) (p : Workplace) : writeSession faults session p =
    (outcome faults.session, { p with store := match faults.session with
      | none => p.store.setSession session
      | some _ => p.store }) := by
  unfold writeSession
  cases faults.session <;> rfl

/-- The steps behind the mirror. -/
def remaining (cleared : Except PlatformError Unit) (p : Workplace) :
    Except EngineError Unit × Workplace :=
  let (emptied, p) := emptyStore faults p
  let (written, p) := writeSession faults (.signedOut setting.device) p
  let (forgotten, p) := forgetSession faults p
  (firstError [cleared.mapError .platform, emptied.mapError .store, written.mapError .store,
    forgotten.mapError .vault], { p with expiry := none, state := .signedOut })

theorem signedOut_remaining
    (rest : (r : SessionRequest) → Workplace → SessionAnswer r × Workplace) (p : Workplace) :
    signedOut faults time setting rest p =
      remaining faults setting
        (outcome (if p.mirror.isSome then faults.platform.map Prod.fst else none))
        { p with store := logged faults time p.store, mirror := mirrorAfter faults p } := by
  obtain ⟨store, slots, userToken, deviceToken, expiry, state, mirror⟩ := p
  cases mirror with
  | none => rfl
  | some names =>
    have hstep : signedOut faults time setting rest
        ⟨store, slots, userToken, deviceToken, expiry, state, some names⟩ =
          remaining faults setting
            (clearMirror faults ⟨logged faults time store, slots, userToken, deviceToken, expiry,
              state, some names⟩).1
            (clearMirror faults ⟨logged faults time store, slots, userToken, deviceToken, expiry,
              state, some names⟩).2 := rfl
    rw [hstep, clearMirror_eq]
    rfl

theorem signedOut_eq (rest : (r : SessionRequest) → Workplace → SessionAnswer r × Workplace)
    (p : Workplace) : signedOut faults time setting rest p =
      (firstError [
        (outcome (if p.mirror.isSome then faults.platform.map Prod.fst else none)).mapError
          .platform,
        (outcome (faults.emptying.or (refusal (logged faults time p.store)))).mapError .store,
        (outcome faults.session).mapError .store,
        (outcome (forgotten faults)).mapError .vault], after faults time setting p) := by
  rw [signedOut_remaining]
  unfold remaining
  rw [emptyStore_eq]
  dsimp only
  rw [writeSession_eq]
  dsimp only
  rw [forgetSession_eq]
  refine congrArg (Prod.mk _) ?_
  unfold after storeAfter
  dsimp only
  cases faults.session <;> rfl

/-- Only the usage log is touched by its row. -/
theorem logged_eq (s : Store) :
    ∃ log number, logged faults time s = { s with log := log, lastLog := number } := by
  unfold logged
  dsimp only
  split
  · rename_i happend
    exact ⟨_, _, Storage.Log.appendLog_eq_ok happend⟩
  · exact ⟨s.log, s.lastLog, rfl⟩

/-- The row of the usage log is no reason to refuse the emptying. -/
theorem refusal_logged (s : Store) : refusal (logged faults time s) = refusal s := by
  obtain ⟨log, number, hlogged⟩ := logged_eq faults time s
  have hrefusal : ∀ s : Store, refusal s =
      match Storage.Namespace.next s.journalState.last with
      | .error error => some error
      | .ok new => match Store.fromU64 new "sequence" with
        | .error error => some error
        | .ok _ => none := by
    intro s
    unfold refusal Store.emptyNamespace Store.writeJournalState
    cases Storage.Namespace.next s.journalState.last with
    | error error => rfl
    | ok new =>
      have hbind : ∀ {α β : Type} (a : α) (f : α → Except StoreError β), Except.ok a >>= f = f a :=
        fun _ _ ↦ rfl
      rw [hbind]
      dsimp only
      cases Store.fromU64 new "sequence" <;> rfl
  rw [hlogged, hrefusal, hrefusal]

theorem firstError_outcome {ε : Type} (o : Option ε) (f : ε → EngineError)
    (rest : List (Except EngineError Unit)) : firstError ((outcome o).mapError f :: rest) =
      (o.map f).elim (firstError rest) .error := by
  cases o <;> rfl

theorem firstOf_append (o : Option EngineError) (errors : List EngineError) :
    firstOf (o.toList ++ errors) = o.elim (firstOf errors) .error := by
  cases o <;> rfl

/-- The session a sign-out leaves. -/
def sessionAfter (s : Store) : Option Session :=
  if faults.session.isNone then some (.signedOut setting.device) else s.session

/-- A sign-out writes the usage log and the session, and perhaps empties the namespace. -/
theorem storeAfter_cases (s : Store) : ∃ log number,
    (faults.emptying.or (refusal s) = none ∧ ∃ n, storeAfter faults time setting s =
      { s with
        log := log
        lastLog := number
        session := sessionAfter faults setting s
        entry := .empty
        containerState := .empty
        journal := .empty
        journalState := ⟨n, n⟩ }) ∨
    (faults.emptying.or (refusal s) ≠ none ∧ storeAfter faults time setting s =
      { s with log := log, lastLog := number, session := sessionAfter faults setting s }) := by
  obtain ⟨log, number, hlogged⟩ := logged_eq faults time s
  refine ⟨log, number, ?_⟩
  have hrefusal := refusal_logged faults time s
  unfold storeAfter
  dsimp only
  rw [hlogged] at hrefusal ⊢
  cases hfault : faults.emptying with
  | some error =>
    refine .inr ⟨nofun, ?_⟩
    unfold sessionAfter
    cases faults.session <;> rfl
  | none =>
    rw [Option.none_or, ← hrefusal]
    unfold refusal
    cases hempty : Store.emptyNamespace _ with
    | error error =>
      refine .inr ⟨nofun, ?_⟩
      unfold sessionAfter
      cases faults.session <;> rfl
    | ok x =>
      obtain ⟨n, s'⟩ := x
      obtain ⟨-, rfl⟩ := emptyNamespace_eq_ok hempty
      refine .inl ⟨rfl, n, ?_⟩
      unfold sessionAfter
      cases faults.session <;> rfl

/-- Every error but that of the last slot hides those behind it; this one hides the slot's before. -/
theorem result_signedOut (rest : (r : SessionRequest) → Workplace → SessionAnswer r × Workplace)
    (p : Workplace) : (signedOut faults time setting rest p).1 =
      firstOf (occurredBefore faults p ++ ((forgotten faults).map .vault).toList) := by
  rw [signedOut_eq, refusal_logged, firstError_outcome, firstError_outcome, firstError_outcome,
    firstError_outcome, occurredBefore, List.append_assoc, List.append_assoc, firstOf_append,
    firstOf_append, firstOf_append]
  have hlast : ∀ o : Option EngineError, firstOf o.toList = o.elim (firstError []) .error := by
    intro o
    cases o <;> rfl
  rw [hlast]

end Effects

section Completeness

variable (setting : Setting)
  (rest : (r : SessionRequest) → Workplace → SessionAnswer r × Workplace)

/-- The steps of a sign-out, with or without a platform. -/
def steps (fileSystem : Bool) : List SessionRequest :=
  [.clearBegins, .fileSystem] ++ (if fileSystem then [.clearEverything] else []) ++
    [.emptyNamespace, .setSession (.signedOut setting.device) none, .forgetSession,
      .setTokenExpiry none, .signOutCompleted]

def NamespaceCleared (s : Store) : Prop :=
  s.entry = .empty ∧ s.containerState = .empty ∧ s.journal = .empty

/-- Nothing of the session is left. -/
structure Cleared (p : Workplace) : Prop where
  emptied : NamespaceCleared p.store
  session : p.store.session = some (.signedOut setting.device)
  slots : ∀ slot ∈ sessionSlots, p.slots slot = none
  mirror : ∀ names, p.mirror = some names → names = []

/-- What is cleared in a workplace is cleared in the other one, and what no sign-out touches is the
same. -/
structure Keeps (p q : Workplace) : Prop where
  emptied : NamespaceCleared p.store → NamespaceCleared q.store
  session : p.store.session = some (.signedOut setting.device) →
    q.store.session = some (.signedOut setting.device)
  slots : ∀ slot, p.slots slot = none → q.slots slot = none
  mirror : ∀ names, p.mirror = some names → ∃ left, q.mirror = some left ∧ left.Sublist names
  machine : q.slots .deviceKey = p.slots .deviceKey ∧ q.store.erased = p.store.erased ∧
    q.store.setting = p.store.setting ∧ q.store.delivery = p.store.delivery

/-- The sign-out runs every step, says the first error, leaves no token, and can be run again. -/
structure Completes (faults : Faults) (time : Timestamp) (p : Workplace) : Prop where
  steps : ∀ (o : Oracle SessionRequest SessionAnswer) n,
    (o.asked n (clearAfterSignOut setting).run).map Sigma.fst =
      steps setting (o (n + 1) .fileSystem)
  first : (signedOut faults time setting rest p).1 = firstOf (occurred faults p)
  memory : (signedOut faults time setting rest p).2.userToken = none ∧
    (signedOut faults time setting rest p).2.deviceToken = none ∧
    (signedOut faults time setting rest p).2.expiry = none ∧
    (signedOut faults time setting rest p).2.state = .signedOut
  emptied : faults.emptying.or (refusal p.store) = none →
    NamespaceCleared (signedOut faults time setting rest p).2.store
  session : faults.session = none →
    (signedOut faults time setting rest p).2.store.session = some (.signedOut setting.device)
  slots : ∀ slot ∈ sessionSlots, faults.slot slot = none →
    (signedOut faults time setting rest p).2.slots slot = none
  mirror : faults.platform = none →
    (signedOut faults time setting rest p).2.mirror = p.mirror.map fun _ ↦ []
  again : ∀ faults' time', Keeps setting (signedOut faults time setting rest p).2
      (signedOut faults' time' setting rest (signedOut faults time setting rest p).2).2 ∧
    (occurred faults' (signedOut faults time setting rest p).2 = [] →
      (signedOut faults' time' setting rest (signedOut faults time setting rest p).2).1 = .ok () ∧
        Cleared setting
          (signedOut faults' time' setting rest (signedOut faults time setting rest p).2).2)

theorem asked_clearAfterSignOut (o : Oracle SessionRequest SessionAnswer) (n : ℕ) :
    (o.asked n (clearAfterSignOut setting).run).map Sigma.fst =
      SignOut.steps setting (o (n + 1) .fileSystem) := by
  have hask : ∀ fileSystem : Bool, o (n + 1) .fileSystem = fileSystem →
      (o.asked n (clearAfterSignOut setting).run).map Sigma.fst =
        SignOut.steps setting fileSystem := by
    intro fileSystem hsystem
    unfold clearAfterSignOut
    change List.map _ (_ :: _ :: o.asked (n + 2) _) = _
    rw [hsystem]
    cases fileSystem <;> rfl
  exact hask _ rfl

theorem keeps_after (faults : Faults) (time : Timestamp) (p : Workplace) :
    Keeps setting p (after faults time setting p) := by
  obtain ⟨log, number, hstore⟩ := storeAfter_cases faults time setting p.store
  have hsession : p.store.session = some (.signedOut setting.device) →
      sessionAfter faults setting p.store = some (.signedOut setting.device) := by
    intro h
    rw [sessionAfter, h, ite_self]
  refine ⟨fun h ↦ ?_, fun h ↦ ?_, fun slot h ↦ ?_, fun names h ↦ ?_, rfl, ?_⟩
  · change NamespaceCleared (storeAfter faults time setting p.store)
    obtain ⟨-, n, heq⟩ | ⟨-, heq⟩ := hstore
    · rw [heq]
      exact ⟨rfl, rfl, rfl⟩
    · rw [heq]
      exact h
  · change (storeAfter faults time setting p.store).session = _
    obtain ⟨-, n, heq⟩ | ⟨-, heq⟩ := hstore
    · rw [heq]
      exact hsession h
    · rw [heq]
      exact hsession h
  · change slotAfter faults p slot = none
    unfold slotAfter
    split
    · exact h
    · split
      · exact h
      · rfl
  · change ∃ left, mirrorAfter faults p = some left ∧ _
    unfold mirrorAfter
    rw [h]
    refine ⟨_, rfl, ?_⟩
    cases faults.platform with
    | none => exact List.nil_sublist names
    | some f => exact List.filter_sublist
  · change (storeAfter faults time setting p.store).erased = _ ∧
      (storeAfter faults time setting p.store).setting = _ ∧
        (storeAfter faults time setting p.store).delivery = _
    obtain ⟨-, n, heq⟩ | ⟨-, heq⟩ := hstore
    · rw [heq]
      exact ⟨rfl, rfl, rfl⟩
    · rw [heq]
      exact ⟨rfl, rfl, rfl⟩

theorem firstOf_eq_ok {errors : List EngineError} : firstOf errors = .ok () ↔ errors = [] := by
  cases errors with
  | nil => exact iff_of_true rfl rfl
  | cons error errors => exact iff_of_false nofun nofun

/-- Both slots of the session fail, differently, where every step before them went well. -/
def Masked (faults : Faults) (p : Workplace) : Prop :=
  occurredBefore faults p = [] ∧ ∃ f g, faults.slot .sessionKey = some f ∧
    faults.slot .refreshToken = some g ∧ f.1 ≠ g.1

/-- The first error is said unless one slot's hides the other's. -/
theorem first_iff (faults : Faults) (time : Timestamp) (p : Workplace) :
    (signedOut faults time setting rest p).1 = firstOf (occurred faults p) ↔
      ¬ Masked faults p := by
  rw [result_signedOut, occurred, forgotten, Masked]
  cases hbefore : occurredBefore faults p with
  | cons error errors => exact iff_of_true rfl fun h ↦ nomatch h.1
  | nil =>
    rw [List.nil_append, List.nil_append]
    cases hsession : faults.slot .sessionKey with
    | none =>
      refine iff_of_true ?_ ?_
      · cases faults.slot .refreshToken <;> rfl
      · rintro ⟨-, f, g, hf, -⟩
        cases hf
    | some f =>
      cases hrefresh : faults.slot .refreshToken with
      | none =>
        refine iff_of_true rfl ?_
        rintro ⟨-, f, g, -, hg, -⟩
        cases hg
      | some g =>
        have hresult : firstOf ((((some g).or (some f)).map Prod.fst).map EngineError.vault).toList
            = .error (.vault g.1) := rfl
        have hfirst : firstOf (((some f).map fun f ↦ EngineError.vault f.1).toList ++
            ((some g).map fun f ↦ EngineError.vault f.1).toList) = .error (.vault f.1) := rfl
        rw [hresult, hfirst, Except.error.injEq, EngineError.vault.injEq]
        constructor
        · rintro heq ⟨-, f', g', hf, hg, hne⟩
          cases hf
          cases hg
          exact hne heq.symm
        · intro hnot
          by_contra hne
          exact hnot ⟨rfl, f, g, rfl, rfl, Ne.symm hne⟩

theorem after_signedOut (faults : Faults) (time : Timestamp) (p : Workplace) :
    (signedOut faults time setting rest p).2 = after faults time setting p := by
  rw [signedOut_eq]

theorem emptied_after {faults : Faults} {p : Workplace} (time : Timestamp)
    (h : faults.emptying.or (refusal p.store) = none) :
    NamespaceCleared (after faults time setting p).store := by
  obtain ⟨log, number, ⟨-, n, hstore⟩ | ⟨hne, -⟩⟩ := storeAfter_cases faults time setting p.store
  · change NamespaceCleared (storeAfter faults time setting p.store)
    rw [hstore]
    exact ⟨rfl, rfl, rfl⟩
  · exact absurd h hne

theorem session_after {faults : Faults} (time : Timestamp) (p : Workplace)
    (h : faults.session = none) :
    (after faults time setting p).store.session = some (.signedOut setting.device) := by
  have hsession : sessionAfter faults setting p.store = some (.signedOut setting.device) := by
    rw [sessionAfter, h]
    rfl
  change (storeAfter faults time setting p.store).session = _
  obtain ⟨log, number, ⟨-, n, hstore⟩ | ⟨-, hstore⟩⟩ :=
    storeAfter_cases faults time setting p.store
  · rw [hstore]
    exact hsession
  · rw [hstore]
    exact hsession

theorem slots_after {faults : Faults} (p : Workplace) {slot : Slot} (hmem : slot ∈ sessionSlots)
    (h : faults.slot slot = none) : slotAfter faults p slot = none := by
  unfold slotAfter
  rw [h, if_neg]
  rintro rfl
  exact absurd hmem (by decide)

theorem cleared_after {faults : Faults} {p : Workplace} (time : Timestamp)
    (h : occurred faults p = []) : Cleared setting (after faults time setting p) := by
  obtain ⟨hbefore, hslots⟩ := List.append_eq_nil_iff.mp h
  obtain ⟨hfirst, hsession⟩ := List.append_eq_nil_iff.mp hbefore
  obtain ⟨hmirror, hemptied⟩ := List.append_eq_nil_iff.mp hfirst
  obtain ⟨hkey, hrefresh⟩ := List.append_eq_nil_iff.mp hslots
  have hnone : ∀ {ε : Type} {o : Option ε} {f : ε → EngineError},
      (o.map f).toList = [] → o = none := by
    intro ε o f ho
    cases o with
    | none => rfl
    | some error => cases ho
  refine ⟨emptied_after setting time (hnone hemptied), session_after setting time p (hnone hsession),
    fun slot hmem ↦ slots_after p hmem ?_, fun names hnames ↦ ?_⟩
  · rcases List.mem_cons.mp hmem with rfl | hmem
    · exact hnone hkey
    · rw [List.mem_singleton.mp hmem]
      exact hnone hrefresh
  · change mirrorAfter faults p = some names at hnames
    unfold mirrorAfter at hnames
    obtain ⟨before, hbefore, rfl⟩ := Option.map_eq_some_iff.mp hnames
    have hplatform := hnone hmirror
    rw [hbefore, Option.isSome_some, if_pos rfl, Option.map_eq_none_iff] at hplatform
    rw [hplatform]

/-- A sign-out completes, whichever steps fail, exactly if it does not hide the error of one slot of
the session behind that of the other. -/
theorem sign_out_completes (faults : Faults) (time : Timestamp) (p : Workplace) :
    Completes setting rest faults time p ↔ ¬ Masked faults p := by
  constructor
  · exact fun h ↦ (first_iff setting rest faults time p).mp h.first
  · intro h
    refine ⟨asked_clearAfterSignOut setting, (first_iff setting rest faults time p).mpr h, ?_,
      fun hf ↦ ?_, fun hf ↦ ?_, fun slot hmem hf ↦ ?_, fun hf ↦ ?_, fun faults' time' ↦ ?_⟩
    · rw [after_signedOut]
      exact ⟨rfl, rfl, rfl, rfl⟩
    · rw [after_signedOut]
      exact emptied_after setting time hf
    · rw [after_signedOut]
      exact session_after setting time p hf
    · rw [after_signedOut]
      exact slots_after p hmem hf
    · rw [after_signedOut]
      change mirrorAfter faults p = _
      rw [mirrorAfter, hf]
    · rw [after_signedOut, after_signedOut]
      refine ⟨keeps_after setting faults' time' _, fun hnone ↦ ⟨?_, cleared_after setting time' hnone⟩⟩
      have hclear : ¬ Masked faults' (after faults time setting p) := by
        rintro ⟨-, f, g, hf, -⟩
        rw [occurred, hf, List.append_eq_nil_iff] at hnone
        exact nomatch hnone.2
      rw [(first_iff setting rest faults' time' _).mpr hclear, hnone]
      rfl

/-- A keychain that is locked for one slot and denies access to the other. -/
def jammed : Faults where
  unreadable := false
  journal := none
  platform := none
  emptying := none
  session := none
  slot
    | .deviceKey => none
    | .sessionKey => some (.notReachable "locked", false)
    | .refreshToken => some (.denied "no access", false)

/-- The other requests of a session, all of them refused. -/
def refused : (r : SessionRequest) → SessionAnswer r
  | .setting _ => .ok none
  | .session => .ok none
  | .refreshToken => .ok none
  | .setSetting _ _ | .setSession _ _ | .stopSession | .emptyNamespace => .ok ()
  | .setRefreshToken _ _ | .forgetSession => .ok ()
  | .newSessionKey => .ok ()
  | .clearEverything | .placeReady _ _ => .ok ()
  | .setUserToken _ | .setDeviceToken _ | .setTokenExpiry _ | .setState _ _ | .clearBegins
  | .signOutCompleted | .lockLogin | .unlockLogin => ()
  | .state => .signedOut
  | .hasUserToken | .isStopped | .fileSystem | .revoke _ => false
  | .tokenExpiry => none
  | .enrollmentCode => none
  | .now => .null
  | .registerDevice _ | .fetchServerKey | .fetchDeviceToken | .exchangeRefreshToken _
  | .startDeviceLogin | .waitOnToken _ => .stepUpNeeded

/-- The error of the session key is not said when the refresh token has another one. -/
theorem error_hidden : ¬ ∀ setting rest faults time p, Completes setting rest faults time p := by
  intro h
  let p : Workplace := ⟨Store.setUp 0 5, fun _ ↦ some [1], none, none, none, .signedOut, none⟩
  have hfirst := (h Play.plain (fun r p ↦ (refused r, p)) jammed .null p).first
  have hresult : (signedOut jammed .null Play.plain (fun r p ↦ (refused r, p)) p).1 =
      .error (.vault (.denied "no access")) := rfl
  rw [hresult] at hfirst
  cases hfirst

end Completeness

end FolderClient.Engine.SignOut
