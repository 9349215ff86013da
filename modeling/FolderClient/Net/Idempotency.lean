import FolderClient.Core.IdentifierText
import FolderClient.Crypto.Jws

namespace FolderClient.Net.Idempotency

open FolderClient.Core.IdentifierText FolderClient.Core.Namespace FolderClient.Crypto.Jws

/-- 48 bits of milliseconds. -/
def ulidTimeLimit : ℤ := 2 ^ 48

/-- A ULID: 48 bits of milliseconds, then 80 bits of randomness. -/
def ulidFrom (time : Timestamp) (random : Fin (2 ^ 80)) : Except CryptoError String :=
  if 0 ≤ time.unixMillis ∧ time.unixMillis < ulidTimeLimit then
    .ok (String.ofList (digits length (time.unixMillis.toNat * 2 ^ 80 + random)))
  else .error (.ulidTime time.unixMillis)

/-- Why a string is not an idempotency key. -/
inductive IdempotencyError
  | length (value : String)
  | character (value : String) (character : Char)
deriving DecidableEq

def IdempotencyError.display : IdempotencyError → String
  | .length value =>
    s!"an idempotency key is a ULID of {Core.IdentifierText.length} characters; `{value}` has " ++
      s!"{value.length}"
  | .character value c =>
    s!"`{value}` is no ULID: the character `{c}` does not stand in the Crockford " ++
      "alphabet. An idempotency key is a ULID per attempt, not the identifier of the command"

/-- The check of `IdempotencyKey::read`. -/
def keyReason (value : String) : Option IdempotencyError :=
  if value.length ≠ length then some (.length value)
  else (value.toList.find? (· ∉ alphabet)).map (.character value)

/-- A ULID that names exactly one write attempt. -/
structure IdempotencyKey where
  value : String
  usable : keyReason value = none
deriving DecidableEq

/-- Reads a stored key. -/
def IdempotencyKey.read (value : String) : Except IdempotencyError IdempotencyKey :=
  match h : keyReason value with
  | some error => .error error
  | none => .ok ⟨value, h⟩

theorem IdempotencyKey.read_eq_ok {value : String} {key : IdempotencyKey}
    (h : IdempotencyKey.read value = .ok key) : key.value = value := by
  unfold IdempotencyKey.read at h
  split at h
  · cases h
  · rw [← Except.ok.inj h]

end FolderClient.Net.Idempotency
