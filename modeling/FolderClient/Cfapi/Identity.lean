import FolderClient.Core.EntryText
import Mathlib.Data.String.Basic

namespace FolderClient.Cfapi.Identity

open FolderClient.Core.EntryText FolderClient.Core.IdentifierText FolderClient.Core.Namespace
open FolderClient.Core.IdentifierCodec FolderClient.Engine.Transfers

/-- Why a file identity cannot be written or read. -/
inductive IdentityError
  | identifierTooLong (length : ℕ) (identifier : String)
  | identifierUnreadable (reason : String)
deriving DecidableEq

/-- The longest file identity of a placeholder, in bytes. -/
def maxIdentityBlob : ℕ := 4096

/-- The file identity of a placeholder: the text of the identifier as UTF-8. -/
def identityBlob (identifier : EntryIdentifier) : Except IdentityError ByteArray :=
  let text := displayEntry identifier
  if maxIdentityBlob < text.utf8ByteSize then .error (.identifierTooLong text.utf8ByteSize text)
  else .ok text.toUTF8

def identifierFromBlob (blob : ByteArray) : Except IdentityError EntryIdentifier :=
  if blob.isEmpty then
    .error (.identifierUnreadable "the placeholder carries no file identity")
  else match String.fromUTF8? blob with
    | none => .error (.identifierUnreadable "the file identity is not UTF-8 text")
    | some text => (entryFromText text).mapError fun e ↦ .identifierUnreadable (displayError e)

theorem fromUTF8?_toUTF8 (text : String) : String.fromUTF8? text.toUTF8 = some text := by
  rw [String.fromUTF8?, String.toUTF8_eq_toByteArray, dif_pos text.isValidUTF8]
  rfl

theorem utf8Len_of_alphabet {part : List Char} (h : ∀ c ∈ part, c ∈ alphabet) :
    String.utf8Len part = part.length := by
  induction part with
  | nil => rfl
  | cons c part ih =>
    obtain ⟨hc, hpart⟩ := List.forall_mem_cons.mp h
    rw [String.utf8Len_cons, ih hpart, utf8Size_alphabet hc, List.length_cons]

theorem utf8ByteSize_display {kind : IdKind} (i : Identifier kind) :
    (display kind i).utf8ByteSize ≤ 31 := by
  have hprefix : (wirePrefix kind).utf8ByteSize ≤ 4 := by
    cases kind <;> decide
  have hline : "_".utf8ByteSize = 1 := rfl
  have hpart : String.utf8Len (identifierPart i) = 26 :=
    (utf8Len_of_alphabet fun c ↦ mem_digits).trans (length_digits _ _)
  rw [display, String.utf8ByteSize_append, String.utf8ByteSize_append,
    String.utf8ByteSize_ofList (identifierPart i), hpart, hline]
  omega

theorem utf8ByteSize_segments (front back : String) : (front ++ "/" ++ back).utf8ByteSize =
    front.utf8ByteSize + 1 + back.utf8ByteSize := by
  rw [String.utf8ByteSize_append, String.utf8ByteSize_append]
  rfl

theorem utf8ByteSize_displayContainer (c : Container) :
    (displayContainer c).utf8ByteSize ≤ 63 := by
  cases c with
  | root => decide
  | baskets => decide
  | archives => decide
  | searches => decide
  | basket b => exact (utf8ByteSize_display b).trans (by decide)
  | archive a => exact (utf8ByteSize_display a).trans (by decide)
  | case a k =>
    have ha := utf8ByteSize_display a
    have hk := utf8ByteSize_display k
    rw [displayContainer, utf8ByteSize_segments]
    omega
  | search s => exact (utf8ByteSize_display s).trans (by decide)

theorem utf8ByteSize_displayEntry (i : EntryIdentifier) : (displayEntry i).utf8ByteSize ≤ 95 := by
  cases i with
  | container c => exact (utf8ByteSize_displayContainer c).trans (by decide)
  | document l d =>
    have hl := utf8ByteSize_displayContainer (.ofLocation l)
    have hd := utf8ByteSize_display d
    rw [displayEntry, utf8ByteSize_segments]
    omega
  | hint c kind =>
    have hc := utf8ByteSize_displayContainer c
    have hkind : (hintText kind).utf8ByteSize ≤ 14 := by
      cases kind <;> decide
    rw [displayEntry_hint, utf8ByteSize_segments]
    omega

/-- A placeholder leads back to its entry. -/
theorem identifierFromBlob_identityBlob (i : EntryIdentifier) :
    ∃ blob, identityBlob i = .ok blob ∧ identifierFromBlob blob = .ok i := by
  have hsize := utf8ByteSize_displayEntry i
  refine ⟨(displayEntry i).toUTF8, if_neg ?_, ?_⟩
  · rw [maxIdentityBlob]
    omega
  · have hempty : (displayEntry i).toUTF8.isEmpty = false := by
      rw [← Bool.not_eq_true]
      intro h
      have hzero : (displayEntry i).utf8ByteSize = 0 := of_decide_eq_true h
      have htext := String.utf8ByteSize_eq_zero_iff.mp hzero
      have hread := entryFromText_display i
      rw [htext] at hread
      cases hread
    rw [identifierFromBlob, hempty, if_neg Bool.false_ne_true, fromUTF8?_toUTF8]
    dsimp only
    rw [entryFromText_display]
    rfl

end FolderClient.Cfapi.Identity
