import FolderClient.Core.Namespace
import FolderClient.Library.BigEndian
import Mathlib.Data.List.GetD

namespace FolderClient.Core.Namespace.Sha256Value

open FolderClient.Library.BigEndian

/-- The 32 raw bytes. -/
def bytes (value : Sha256Value) : List UInt8 := toBytes 32 value.bits.toNat

def fromBytes (bytes : List UInt8) : Sha256Value := ⟨BitVec.ofNat 256 (ofBytes bytes)⟩

def hexDigits : List Char := "0123456789abcdef".toList

def hexByte (b : UInt8) : List Char :=
  [hexDigits.getD (b.toNat / 16) '0', hexDigits.getD (b.toNat % 16) '0']

/-- 64 hex digits in lower case: the form kept in the database. -/
def hex (value : Sha256Value) : String := String.ofList (value.bytes.flatMap hexByte)

def readPairs : List Char → List UInt8
  | high :: low :: rest =>
    UInt8.ofNat (hexDigits.idxOf high * 16 + hexDigits.idxOf low) :: readPairs rest
  | _ => []

/-- Reads 64 hex digits, in lower case only. -/
def fromHex (text : String) : Option Sha256Value :=
  if text.toList.length = 64 ∧ text.toList.all (· ∈ hexDigits) then
    some (fromBytes (readPairs text.toList))
  else none

def wirePrefix : String := "sha256:"

/-- The form used in JSON. -/
def wireForm (value : Sha256Value) : String := wirePrefix ++ value.hex

end FolderClient.Core.Namespace.Sha256Value

namespace FolderClient.Core.Checksum

open FolderClient.Core.Namespace FolderClient.Core.Namespace.Sha256Value
open FolderClient.Library.BigEndian

theorem length_bytes (value : Sha256Value) : value.bytes.length = 32 := length_toBytes 32 _

theorem fromBytes_bytes (value : Sha256Value) : fromBytes value.bytes = value := by
  have hlt : value.bits.toNat < 256 ^ 32 := by
    have h := value.bits.isLt
    omega
  rw [fromBytes, bytes, ofBytes_toBytes hlt, BitVec.ofNat_toNat]
  simp

theorem bytes_fromBytes {bytes : List UInt8} (h : bytes.length = 32) :
    (fromBytes bytes).bytes = bytes := by
  have hlt : ofBytes bytes < 2 ^ 256 := by
    have hbound := ofBytes_lt bytes
    rw [h] at hbound
    omega
  have hnat : (BitVec.ofNat 256 (ofBytes bytes)).toNat = ofBytes bytes := by
    rw [BitVec.toNat_ofNat, Nat.mod_eq_of_lt hlt]
  rw [fromBytes, Sha256Value.bytes, hnat, ← h, toBytes_ofBytes]

theorem idxOf_lt {c : Char} (h : c ∈ hexDigits) : hexDigits.idxOf c < 16 :=
  List.idxOf_lt_length_of_mem h

theorem getD_idxOf {c : Char} (h : c ∈ hexDigits) :
    hexDigits.getD (hexDigits.idxOf c) '0' = c := by
  rw [List.getD_eq_getElem _ _ (List.idxOf_lt_length_of_mem h), List.getElem_idxOf]

theorem idxOf_getD {n : ℕ} (h : n < 16) : hexDigits.idxOf (hexDigits.getD n '0') = n := by
  have hall : ∀ n : Fin 16, hexDigits.idxOf (hexDigits.getD n '0') = n := by decide +kernel
  exact hall ⟨n, h⟩

theorem mem_getD {n : ℕ} (h : n < 16) : hexDigits.getD n '0' ∈ hexDigits := by
  have hlength : n < hexDigits.length := h
  rw [List.getD_eq_getElem _ _ hlength]
  exact List.getElem_mem hlength

theorem mem_hexByte {b : UInt8} {c : Char} (h : c ∈ hexByte b) : c ∈ hexDigits := by
  have hlt := b.toNat_lt
  simp only [hexByte, List.mem_cons, List.not_mem_nil, or_false] at h
  obtain rfl | rfl := h
  · exact mem_getD (by omega)
  · exact mem_getD (by omega)

theorem readPairs_hexBytes (bytes : List UInt8) : readPairs (bytes.flatMap hexByte) = bytes := by
  induction bytes with
  | nil => rfl
  | cons b rest ih =>
    have hlt := b.toNat_lt
    have hvalue : UInt8.ofNat (b.toNat / 16 * 16 + b.toNat % 16) = b := by
      rw [Nat.div_add_mod', UInt8.ofNat_toNat]
    rw [List.flatMap_cons, hexByte, List.cons_append, List.cons_append, List.nil_append, readPairs,
      idxOf_getD (by omega), idxOf_getD (by omega), hvalue, ih]

theorem length_hexBytes (bytes : List UInt8) :
    (bytes.flatMap hexByte).length = 2 * bytes.length := by
  induction bytes with
  | nil => rfl
  | cons b rest ih =>
    simp only [List.flatMap_cons, List.length_append, ih, List.length_cons, hexByte, List.length_nil]
    omega

theorem hexByte_digits {high low : ℕ} (hh : high < 16) (hl : low < 16) :
    hexByte (UInt8.ofNat (high * 16 + low)) = [hexDigits.getD high '0', hexDigits.getD low '0'] := by
  have hnat : (UInt8.ofNat (high * 16 + low)).toNat = high * 16 + low := by
    rw [UInt8.toNat_ofNat']
    omega
  have hdiv : (high * 16 + low) / 16 = high := by omega
  have hmod : (high * 16 + low) % 16 = low := by omega
  rw [hexByte, hnat, hdiv, hmod]

/-- Two digits each, in pairs, are bytes. -/
theorem hexBytes_readPairs (n : ℕ) {text : List Char} (hn : text.length = 2 * n)
    (h : ∀ c ∈ text, c ∈ hexDigits) :
    (readPairs text).length = n ∧ (readPairs text).flatMap hexByte = text := by
  induction n generalizing text with
  | zero =>
    obtain rfl := List.eq_nil_of_length_eq_zero hn
    exact ⟨rfl, rfl⟩
  | succ n ih =>
    cases text with
    | nil =>
      rw [List.length_nil] at hn
      omega
    | cons high text =>
      cases text with
      | nil =>
        rw [List.length_singleton] at hn
        omega
      | cons low rest =>
        have hhigh := h high (by simp)
        have hlow := h low (by simp)
        have hh := idxOf_lt hhigh
        have hl := idxOf_lt hlow
        rw [List.length_cons, List.length_cons] at hn
        have hrest : rest.length = 2 * n := by omega
        obtain ⟨hlength, htext⟩ := ih hrest fun c hc ↦ h c (by simp [hc])
        rw [readPairs, List.length_cons, List.flatMap_cons, hlength, htext,
          hexByte_digits hh hl, getD_idxOf hhigh, getD_idxOf hlow]
        exact ⟨rfl, rfl⟩

/-- The stored form of a checksum is the only text that reads as it. -/
theorem fromHex_eq_some {text : String} {value : Sha256Value} :
    fromHex text = some value ↔ text = value.hex := by
  unfold fromHex
  constructor
  · intro h
    split at h
    · rename_i hform
      obtain ⟨hlength, hall⟩ := hform
      obtain rfl := Option.some.inj h
      obtain ⟨hcount, htext⟩ := hexBytes_readPairs 32 hlength fun c hc ↦
        of_decide_eq_true (List.all_eq_true.mp hall c hc)
      rw [hex, bytes_fromBytes hcount, htext, String.ofList_toList]
    · cases h
  · rintro rfl
    have hall : (value.bytes.flatMap hexByte).all (· ∈ hexDigits) = true := by
      rw [List.all_eq_true]
      intro c hc
      obtain ⟨b, -, hb⟩ := List.mem_flatMap.mp hc
      exact decide_eq_true (mem_hexByte hb)
    rw [hex, String.toList_ofList, if_pos ⟨by rw [length_hexBytes, length_bytes], hall⟩,
      readPairs_hexBytes, fromBytes_bytes]

end FolderClient.Core.Checksum
