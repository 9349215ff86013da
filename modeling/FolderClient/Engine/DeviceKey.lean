import FolderClient.App.Vault

namespace FolderClient.Engine.DeviceKey

open FolderClient.App.Vault FolderClient.Engine.Port FolderClient.Library.Programs
open FolderClient.Library.Texts FolderClient.Crypto.Jws

/-- The name of the slot of the device key. -/
def slotDeviceKey : String := "device-key"

/-- The marker of a device key slot that holds no key but the handle of one. -/
def hardwareMarker : String := "edms-hardware-key/1"

/-- Where the private part of the device key lies. -/
inductive DeviceKeyOrigin
  | keychain
  | keychainAfterRefusal (reason : String)
  | keychainFromEnrollment (store : String)
  | hardware (store : String)
deriving DecidableEq

/-- What stands in the device key slot. -/
inductive Slot
  | pkcs8
  | hardware (store handle : String)
  | unreadable (reason : String)
deriving DecidableEq

/-- Reads the device key slot without guessing. -/
def readSlot (raw : List UInt8) : Slot :=
  match fromUtf8 raw with
  | none => .pkcs8
  | some text =>
    match strip hardwareMarker.toList text.toList with
    | none => .pkcs8
    | some rest =>
      let unreadable := Slot.unreadable
        s!"the slot carries the marker `{hardwareMarker}` but no store and handle behind it"
      match splitOnce ' ' (String.ofList ((strip [' '] rest).getD rest)) with
      | none => unreadable
      | some (store, handle) =>
        if store ≠ "" ∧ handle ≠ "" then .hardware store handle else unreadable

/-- The content of the slot for a key the store holds. -/
def markerFor (store handle : String) : Except EngineError String :=
  if store = "" ∨ ' ' ∈ store.toList then
    .error (.internal (s!"the key store calls itself `{store}`; the name is written into the " ++
      "vault slot and must be one word"))
  else if handle = "" ∨ '\n' ∈ handle.toList ∨ handle.toList.head? = some ' ' then
    .error (.internal (s!"the key store returned the handle `{handle}`; it is written into the " ++
      "vault slot and must be one line without a leading space"))
  else .ok (hardwareMarker ++ " " ++ store ++ " " ++ handle)

/-- The software keys, and their form in the keychain. -/
structure SoftwareKeys (K : Type) where
  asPkcs8Der : K → Except CryptoError (List UInt8)
  fromPkcs8Der : List UInt8 → Except CryptoError K
  /-- The text of an error. -/
  describe : CryptoError → String

/-- A key of this device: one in memory, or one that a key store holds. -/
inductive SigningKey (K H : Type)
  | software (key : K)
  | held (key : H)
deriving DecidableEq

/-- A device key the platform holds, together with what finds it again. -/
structure HeldKey (H : Type) where
  key : H
  handle : String

inductive Request
  | readVault
  | writeVault (value : List UInt8)
  | create
  | openKey (handle : String)
  | generate

abbrev Answer (K H : Type) : Request → Type
  | .readVault => Except VaultError (Option (List UInt8))
  | .writeVault _ => Except VaultError Unit
  | .create => Except String (HeldKey H)
  | .openKey _ => Except String H
  | .generate => Except CryptoError K

abbrev Operation (K H α : Type) := Fallible Request (Answer K H) α

section Settle

variable {K H : Type}

def readVault : Operation K H (Option (List UInt8)) :=
  vault (Program.call (A := Answer K H) .readVault)

def writeVault (value : List UInt8) : Operation K H Unit :=
  vault (Program.call (A := Answer K H) (.writeVault value))

def create : Operation K H (Except String (HeldKey H)) :=
  liftM (Program.call (A := Answer K H) .create)

def openKey (handle : String) : Operation K H (Except String H) :=
  liftM (Program.call (A := Answer K H) (.openKey handle))

def generate : Operation K H K :=
  ExceptT.mk (Program.call (A := Answer K H) .generate >>= fun r ↦ pure (r.mapError .crypto))

def corrupt (reason : String) : EngineError := .vault (.corrupt slotDeviceKey reason)

/-- A fresh software key in the slot. -/
def softwareKey (keys : SoftwareKeys K) : Operation K H (SigningKey K H) := do
  let key ← generate
  let der ← crypto (keys.asPkcs8Der key)
  writeVault der
  return .software key

/-- Settles the device key of this workstation: once in its life, and then on every start again
the same one. The key store is there under its name, or it is not. -/
def settle (keys : SoftwareKeys K) (hardware : Option String) :
    Operation K H (SigningKey K H × DeviceKeyOrigin) := do
  match ← readVault with
  | some raw =>
    match readSlot raw with
    | .pkcs8 =>
      match keys.fromPkcs8Der raw with
      | .error error => throw (corrupt (keys.describe error))
      | .ok key =>
        let origin := match hardware with
          | some store => DeviceKeyOrigin.keychainFromEnrollment store
          | none => .keychain
        return (.software key, origin)
    | .hardware store handle =>
      match hardware with
      | none => throw (corrupt (s!"the key of this device lies in `{store}`, and this program " ++
          "has no such store on this platform"))
      | some name =>
        if name ≠ store then
          throw (corrupt s!"the key of this device lies in `{store}`, and this program has `{name}`")
        else
          match ← openKey handle with
          | .error reason => throw (corrupt reason)
          | .ok key => return (.held key, .hardware name)
    | .unreadable reason => throw (corrupt reason)
  | none =>
    match hardware with
    | some name =>
      match ← create with
      | .ok held =>
        let marker ← raise (markerFor name held.handle)
        writeVault (utf8 marker)
        return (.held held.key, .hardware name)
      | .error reason =>
        let key ← softwareKey keys
        return (key, .keychainAfterRefusal reason)
    | none =>
      let key ← softwareKey keys
      return (key, .keychain)

end Settle

end FolderClient.Engine.DeviceKey
