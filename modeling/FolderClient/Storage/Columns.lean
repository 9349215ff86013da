import FolderClient.Core.Checksum
import FolderClient.Core.EntryText
import FolderClient.Storage.Basic

namespace FolderClient.Storage.Columns

open FolderClient.Core.Namespace FolderClient.Core.Delivery FolderClient.Core.Log
open FolderClient.Core.IdentifierText FolderClient.Core.IdentifierCodec FolderClient.Core.EntryText
open FolderClient.Engine.Transfers FolderClient.Storage.Basic FolderClient.Library.Results

section Source

/-- Too large for a signed number is an error. -/
def fromU64 (value : ℕ) (field : String) : Except StoreError Int64 :=
  if value < 2 ^ 63 then .ok (Int64.ofNat value) else .error (.numberTooLarge field value)

/-- A negative number is corrupt. -/
def toU64 (value : Int64) (table field : String) : Except StoreError ℕ :=
  if 0 ≤ value.toInt then .ok value.toInt.toNat
  else .error (.corrupt table s!"column {field} is negative ({value.toInt})")

def boolFrom (value : Int64) (table field : String) : Except StoreError Bool :=
  if value = 0 then .ok false
  else if value = 1 then .ok true
  else .error (.corrupt table s!"column {field} is neither 0 nor 1 ({value.toInt})")

/-- The names of an enumeration: each of its values has one of its own. -/
structure Names (α : Type) where
  name : α → String
  all : List α
  complete : ∀ a, a ∈ all
  injective : Function.Injective name

/-- An unknown name is corrupt. -/
def fromName {α : Type} (names : Names α) (name table field : String) : Except StoreError α :=
  match names.all.find? fun a ↦ names.name a = name with
  | some a => .ok a
  | none => .error (.corrupt table s!"“{name}” in column {field} is not a known name")

/-- An identifier from its text, as strict as when reading from the wire. -/
def readIdentifier {α ε : Type} (parse : String → Except ε α) (display : ε → String)
    (text table field : String) : Except StoreError α :=
  (parse text).mapError fun error ↦ .corrupt table s!"column {field}: {display error}"

def readId (kind : IdKind) (text table field : String) : Except StoreError (Identifier kind) :=
  readIdentifier (parse kind) IdentifierError.display text table field

def readEntryId (text table field : String) : Except StoreError EntryIdentifier :=
  readIdentifier entryFromText displayError text table field

def kindName : LogKind → String
  | .opened => "OPENED"
  | .openFailed => "OPEN_FAILED"
  | .newVersion => "NEW_VERSION"
  | .spaceReclaimed => "SPACE_RECLAIMED"
  | .accessRevoked => "ACCESS_REVOKED"
  | .erasedByOrder => "ERASED_BY_ORDER"
  | .ingestAccepted => "INGEST_ACCEPTED"
  | .ingestFailed => "INGEST_FAILED"
  | .deviceRegistered => "DEVICE_REGISTERED"
  | .signedIn => "SIGNED_IN"
  | .signedOut => "SIGNED_OUT"
  | .loginRequired => "LOGIN_REQUIRED"
  | .connectionLost => "CONNECTION_LOST"
  | .connectionRestored => "CONNECTION_RESTORED"
  | .securityWarning => "SECURITY_WARNING"

def kinds : List LogKind :=
  [.opened, .openFailed, .newVersion, .spaceReclaimed, .accessRevoked, .erasedByOrder,
    .ingestAccepted, .ingestFailed, .deviceRegistered, .signedIn, .signedOut, .loginRequired,
    .connectionLost, .connectionRestored, .securityWarning]

def outcomeName : CommandOutcome → String
  | .applied => "APPLIED"
  | .notApplicable => "NOT_APPLICABLE"
  | .rejected => "REJECTED"
  | .failed => "FAILED"

def outcomes : List CommandOutcome := [.applied, .notApplicable, .rejected, .failed]

def stateName : SessionState → String
  | .signedOut => "SIGNED_OUT"
  | .awaitingApproval => "AWAITING_APPROVAL"
  | .signedIn => "SIGNED_IN"
  | .loginRequired => "LOGIN_REQUIRED"

def states : List SessionState := [.signedOut, .awaitingApproval, .signedIn, .loginRequired]

end Source

/-- Names that all differ tell the values apart. -/
theorem injective_of_nodup {α : Type} {name : α → String} {all : List α}
    (complete : ∀ a, a ∈ all) (h : (all.map name).Nodup) : Function.Injective name :=
  fun a b hab ↦ List.inj_on_of_nodup_map h (complete a) (complete b) hab

theorem mem_kinds (kind : LogKind) : kind ∈ kinds := by
  cases kind <;> simp [kinds]

theorem mem_outcomes (outcome : CommandOutcome) : outcome ∈ outcomes := by
  cases outcome <;> simp [outcomes]

theorem mem_states (state : SessionState) : state ∈ states := by
  cases state <;> simp [states]

theorem kindName_injective : Function.Injective kindName :=
  injective_of_nodup mem_kinds (by decide +kernel)

theorem outcomeName_injective : Function.Injective outcomeName :=
  injective_of_nodup mem_outcomes (by decide +kernel)

theorem stateName_injective : Function.Injective stateName :=
  injective_of_nodup mem_states (by decide +kernel)

def logKind : Names LogKind := ⟨kindName, kinds, mem_kinds, kindName_injective⟩

def commandOutcome : Names CommandOutcome :=
  ⟨outcomeName, outcomes, mem_outcomes, outcomeName_injective⟩

def sessionState : Names SessionState := ⟨stateName, states, mem_states, stateName_injective⟩

section Reading

variable {table field text : String}

theorem fromName_eq_ok {α : Type} {names : Names α} {a : α} :
    fromName names text table field = .ok a ↔ text = names.name a := by
  unfold fromName
  constructor
  · intro h
    split at h
    · rename_i found hfound
      obtain rfl := Except.ok.inj h
      have hname : names.name found = text := by simpa using List.find?_some hfound
      exact hname.symm
    · cases h
  · rintro rfl
    split
    · rename_i found hfound
      have hname : names.name found = names.name a := by simpa using List.find?_some hfound
      rw [names.injective hname]
    · rename_i hnone
      rw [List.find?_eq_none] at hnone
      exact absurd (decide_eq_true rfl) (hnone a (names.complete a))

theorem readIdentifier_eq_ok {α ε : Type} {parse : String → Except ε α} {display : ε → String}
    {a : α} : readIdentifier parse display text table field = .ok a ↔ parse text = .ok a :=
  mapError_eq_ok

theorem readId_eq_ok {kind : IdKind} {i : Identifier kind} :
    readId kind text table field = .ok i ↔ text = display kind i := by
  rw [readId, readIdentifier_eq_ok]
  constructor
  · exact fun h ↦ ((codec kind).2.2.1 text i h).symm
  · rintro rfl
    exact (codec kind).1 i

theorem readEntryId_eq_ok {i : EntryIdentifier} :
    readEntryId text table field = .ok i ↔ text = displayEntry i := by
  rw [readEntryId, readIdentifier_eq_ok]
  constructor
  · exact fun h ↦ (displayEntry_of_ok h).symm
  · rintro rfl
    exact entryFromText_display i

theorem toInt_ofNat {n : ℕ} (h : n < 2 ^ 63) : (Int64.ofNat n).toInt = n :=
  Int64.toInt_ofNat_of_lt h

theorem toU64_ofNat {n : ℕ} (h : n < 2 ^ 63) : toU64 (Int64.ofNat n) table field = .ok n := by
  rw [toU64, toInt_ofNat h, if_pos (by omega), Int.toNat_natCast]

theorem ofNat_toNat {value : Int64} (h : 0 ≤ value.toInt) :
    Int64.ofNat value.toInt.toNat = value := by
  have hlt := value.toInt_lt
  have hnat : value.toInt.toNat < 2 ^ 63 := by omega
  rw [← Int64.toInt_inj, toInt_ofNat hnat]
  omega

theorem toU64_eq_ok {value : Int64} {n : ℕ} :
    toU64 value table field = .ok n ↔ n < 2 ^ 63 ∧ value = Int64.ofNat n := by
  constructor
  · intro h
    unfold toU64 at h
    split at h
    · rename_i hpos
      obtain rfl := Except.ok.inj h
      have hlt := value.toInt_lt
      exact ⟨by omega, (ofNat_toNat hpos).symm⟩
    · cases h
  · rintro ⟨hlt, rfl⟩
    exact toU64_ofNat hlt

/-- A truth value as a number. -/
def number (b : Bool) : Int64 := if b then 1 else 0

theorem boolFrom_eq_ok {value : Int64} {b : Bool} :
    boolFrom value table field = .ok b ↔ value = number b := by
  unfold boolFrom
  constructor
  · intro h
    split at h
    · rename_i hzero
      obtain rfl := Except.ok.inj h
      exact hzero
    · split at h
      · rename_i hone
        obtain rfl := Except.ok.inj h
        exact hone
      · cases h
  · rintro rfl
    cases b
    · rfl
    · rfl

end Reading

/-- Milliseconds since 1970, in a column. -/
def millis (t : Timestamp) : Int64 := Int64.ofInt t.unixMillis

def fromUnixMillis (value : Int64) : Timestamp := ⟨value.toInt, value.le_toInt, value.toInt_lt⟩

theorem fromUnixMillis_millis (t : Timestamp) : fromUnixMillis (millis t) = t := by
  cases t with
  | mk unixMillis lower upper =>
    rw [fromUnixMillis, Timestamp.mk.injEq]
    exact Int64.toInt_ofInt_of_le lower upper

theorem millis_fromUnixMillis (value : Int64) : millis (fromUnixMillis value) = value :=
  Int64.ofInt_toInt value

end FolderClient.Storage.Columns
