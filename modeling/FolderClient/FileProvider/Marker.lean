import FolderClient.Engine.Transfers
import FolderClient.Library.BigEndian

namespace FolderClient.FileProvider.Marker

open FolderClient.Core.Namespace FolderClient.Engine.Transfers FolderClient.Library.BigEndian

def markerVersion : UInt8 := 1

/-- Length of a marker: version, container index, offset and two fingerprints. -/
def markerLength : ℕ := 1 + 4 + 4 + 8 + 8

inductive MarkerError
  | length (read expected : ℕ)
  | version (read expected : UInt8)
deriving DecidableEq

/-- A position in a paged enumeration, which runs over a plan of containers and in each of them
over its children. -/
structure PageMarker where
  containerIndex : UInt32
  offset : UInt32
  plan : UInt64
  children : UInt64
deriving DecidableEq

namespace PageMarker

/-- The bytes the system keeps as the next page. -/
def bytes (marker : PageMarker) : List UInt8 :=
  markerVersion :: (toBytes 4 marker.containerIndex.toNat ++ toBytes 4 marker.offset.toNat ++
    toBytes 8 marker.plan.toNat ++ toBytes 8 marker.children.toNat)

/-- Reads a marker this extension has handed out. -/
def read (bytes : List UInt8) : Except MarkerError PageMarker :=
  if bytes.length ≠ markerLength then .error (.length bytes.length markerLength)
  else if bytes.getD 0 0 ≠ markerVersion then .error (.version (bytes.getD 0 0) markerVersion)
  else .ok
    { containerIndex := UInt32.ofNat (ofBytes ((bytes.drop 1).take 4))
      offset := UInt32.ofNat (ofBytes ((bytes.drop 5).take 4))
      plan := UInt64.ofNat (ofBytes ((bytes.drop 9).take 8))
      children := UInt64.ofNat (ofBytes ((bytes.drop 17).take 8)) }

/-- A marker of this extension is read as it was handed out. -/
theorem read_bytes (marker : PageMarker) : read marker.bytes = .ok marker := by
  have hlength : marker.bytes.length = markerLength := by simp [bytes, markerLength]
  have hversion : marker.bytes.getD 0 0 = markerVersion := rfl
  rw [read, if_neg (not_not.mpr hlength), if_neg (not_not.mpr hversion)]
  obtain ⟨containerIndex, offset, plan, children⟩ := marker
  have hindex : ((bytes ⟨containerIndex, offset, plan, children⟩).drop 1).take 4 =
      toBytes 4 containerIndex.toNat := by
    simp only [bytes, List.append_assoc, List.drop_succ_cons, List.drop_zero]
    exact List.take_left' (length_toBytes 4 _)
  have hoffset : ((bytes ⟨containerIndex, offset, plan, children⟩).drop 5).take 4 =
      toBytes 4 offset.toNat := by
    simp only [bytes, List.append_assoc, List.drop_succ_cons]
    rw [List.drop_left' (length_toBytes 4 _)]
    exact List.take_left' (length_toBytes 4 _)
  have hplan : ((bytes ⟨containerIndex, offset, plan, children⟩).drop 9).take 8 =
      toBytes 8 plan.toNat := by
    simp only [bytes, List.append_assoc, List.drop_succ_cons]
    rw [← List.append_assoc, List.drop_left' (by simp)]
    exact List.take_left' (length_toBytes 8 _)
  have hchildren : ((bytes ⟨containerIndex, offset, plan, children⟩).drop 17).take 8 =
      toBytes 8 children.toNat := by
    simp only [bytes, List.drop_succ_cons]
    rw [List.drop_left' (by simp)]
    exact List.take_of_length_le (by simp)
  rw [hindex, hoffset, hplan, hchildren, ofBytes_toBytes, ofBytes_toBytes, ofBytes_toBytes,
    ofBytes_toBytes, UInt32.ofNat_toNat, UInt32.ofNat_toNat, UInt64.ofNat_toNat,
    UInt64.ofNat_toNat]
  · exact Nat.lt_of_lt_of_eq children.toNat_lt (by decide)
  · exact Nat.lt_of_lt_of_eq plan.toNat_lt (by decide)
  · exact Nat.lt_of_lt_of_eq offset.toNat_lt (by decide)
  · exact Nat.lt_of_lt_of_eq containerIndex.toNat_lt (by decide)

end PageMarker

/-- Fingerprint of a sequence of identifiers: FNV-1a over their texts, each with a separator. -/
def fingerprint (identifiers : List EntryIdentifier) : UInt64 :=
  (identifiers.flatMap fun identifier ↦
    (displayEntry identifier).toUTF8.toList ++ [10]).foldl
      (fun value byte ↦ (value ^^^ byte.toUInt64) * 0x100000001b3) 0xcbf29ce484222325

/-- A sync anchor: the sequence number in the change journal. -/
structure Anchor where
  sequence : ℕ
deriving DecidableEq

end FolderClient.FileProvider.Marker
