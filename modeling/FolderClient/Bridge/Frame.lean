import FolderClient.Library.BigEndian
import Mathlib.Order.MinMax

namespace FolderClient.Bridge.Frame

open FolderClient.Library.BigEndian

/-- Maximum size of the payload of a JSON frame. -/
def maxJsonFrame : ℕ := 2 ^ 20

/-- Maximum size of a data chunk, without the offset. -/
def maxDataChunk : ℕ := 2 ^ 18

/-- Maximum size of a JSON message across all parts. -/
def maxMessage : ℕ := 2 ^ 26

/-- JSON, complete or the last part: `J`. -/
def kindJson : UInt8 := 0x4A

/-- JSON part, more to follow: `T`. -/
def kindPart : UInt8 := 0x54

/-- Data chunk with an offset: `D`. -/
def kindData : UInt8 := 0x44

def offsetBytes : ℕ := 8

def maxHandshake : ℕ := 4096

/-- What may arrive at a given place of the protocol. -/
structure Limit where
  json : ℕ
  message : ℕ
  data : Bool

namespace Limit

def handshake : Limit := ⟨maxHandshake, 0, false⟩

def request : Limit := ⟨maxJsonFrame, 0, false⟩

def response : Limit := ⟨maxJsonFrame, maxMessage, false⟩

def content : Limit := ⟨maxJsonFrame, maxMessage, true⟩

end Limit

/-- What has arrived completely. -/
inductive Inbox
  | json (bytes : List UInt8)
  | data (offset : UInt64) (bytes : List UInt8)
deriving DecidableEq

/-- Why nothing arrived. -/
inductive ReadError
  | closed
  | deadline (second : ℕ)
  | cancelled
  | log (text : String)
  | link (reason : String)
deriving DecidableEq

/-- Why nothing went out. -/
inductive WriteError
  | tooLarge (size : ℕ)
  | json (reason : String)
  | link (reason : String)
deriving DecidableEq

/-- What the line has for a reader: bytes, of which as many come as fit, and no bytes once the
counterpart has closed; an interruption; the end of a time slice; or an error. Beside it stands what
is found then, whether the caller has cancelled and whether the deadline has passed. -/
inductive Slice
  | bytes (bytes : List UInt8) (expired : Bool)
  | interrupted
  | timedOut (cancelled expired : Bool)
  | failed (reason : String)

/-- A checked, admissible frame header with the length of what is still to be read. -/
inductive Header
  | json (length : ℕ)
  | part (length : ℕ)
  | data (length : ℕ)

/-- The bytes that the slices hold. -/
def bytesOf : List Slice → List UInt8
  | [] => []
  | .bytes b _ :: slices => b ++ bytesOf slices
  | _ :: slices => bytesOf slices

/-- What is left of a slice of which some bytes were taken. -/
def remainder (b : List UInt8) (expired : Bool) (slices : List Slice) : List Slice :=
  if b.isEmpty then slices else .bytes b expired :: slices

/-- Reads exactly so many bytes, across time slices, without losing what has been read. -/
def readExactly (duration : ℕ) : ℕ → List Slice → Except ReadError (List UInt8) × List Slice
  | 0, slices => (.ok [], slices)
  | _ + 1, [] => (.error .closed, [])
  | n + 1, .bytes b expired :: slices =>
    if b.isEmpty then (.error .closed, slices)
    else if n + 1 ≤ b.length then
      (.ok (b.take (n + 1)), remainder (b.drop (n + 1)) expired slices)
    else if expired then (.error (.deadline duration), slices)
    else
      match readExactly duration (n + 1 - b.length) slices with
      | (.ok bytes, slices) => (.ok (b ++ bytes), slices)
      | (.error error, slices) => (.error error, slices)
  | n + 1, .interrupted :: slices => readExactly duration (n + 1) slices
  | n + 1, .timedOut cancelled expired :: slices =>
    if cancelled then (.error .cancelled, slices)
    else if expired then (.error (.deadline duration), slices)
    else readExactly duration (n + 1) slices
  | _ + 1, .failed reason :: slices => (.error (.link reason), slices)

def hexDigit (n : ℕ) : Char := "0123456789abcdef".toList.getD n '0'

/-- What a header of five bytes announces, if that may arrive here. -/
def checkHeader (limit : Limit) (midMessage : Bool) (header : List UInt8) :
    Except ReadError Header :=
  let length := ofBytes (header.take 4)
  let kind := header.getD 4 0
  if length = 0 then .error (.log "a frame of length 0 has no kind")
  else
    let payload := length - 1
    if (kind = kindJson ∨ kind = kindPart) ∧ limit.json < payload then
      .error (.log s!"JSON frame with {payload} bytes; at most {limit.json} are allowed")
    else if kind = kindPart ∧ limit.message = 0 then
      .error (.log "no split message is allowed at this point")
    else if kind = kindJson then .ok (.json payload)
    else if kind = kindPart then .ok (.part payload)
    else if kind = kindData ∧ limit.data = false then
      .error (.log "no data chunk is allowed at this point")
    else if kind = kindData ∧ midMessage = true then
      .error (.log "a data chunk in the middle of a split JSON message")
    else if kind = kindData then
      if payload < offsetBytes then
        .error (.log s!"a data chunk of {payload} bytes has no offset")
      else if maxDataChunk < payload - offsetBytes then
        .error (.log
          s!"data chunk of {payload - offsetBytes} bytes; at most {maxDataChunk} are allowed")
      else .ok (.data (payload - offsetBytes))
    else
      .error (.log ("unknown frame kind 0x" ++ String.ofList [hexDigit (kind.toNat / 16),
        hexDigit (kind.toNat % 16)]))

def readKindAndCheck (limit : Limit) (duration : ℕ) (midMessage : Bool) (slices : List Slice) :
    Except ReadError Header × List Slice :=
  match readExactly duration 5 slices with
  | (.error error, slices) => (.error error, slices)
  | (.ok header, slices) => (checkHeader limit midMessage header, slices)

section Consumption

variable {duration n : ℕ} {limit : Limit} {midMessage : Bool} {slices slices' : List Slice}

@[simp] theorem bytesOf_remainder (b : List UInt8) (expired : Bool) (slices : List Slice) :
    bytesOf (remainder b expired slices) = b ++ bytesOf slices := by
  cases b <;> rfl

/-- What was read is what stood first on the line. -/
theorem bytesOf_readExactly {bytes : List UInt8}
    (h : readExactly duration n slices = (.ok bytes, slices')) :
    bytes.length = n ∧ bytesOf slices = bytes ++ bytesOf slices' := by
  induction slices generalizing n bytes with
  | nil =>
    cases n with
    | zero => cases h; exact ⟨rfl, rfl⟩
    | succ n => cases h
  | cons slice slices ih =>
    cases n with
    | zero => cases h; exact ⟨rfl, rfl⟩
    | succ n =>
      cases slice with
      | bytes b expired =>
        rw [readExactly] at h
        split at h
        · cases h
        split at h
        next hle =>
          obtain ⟨hb, rfl⟩ := Prod.mk.inj h
          obtain rfl := Except.ok.inj hb
          refine ⟨List.length_take_of_le hle, ?_⟩
          rw [bytesOf_remainder, ← List.append_assoc, List.take_append_drop]
          rfl
        next hlt =>
          split at h
          · cases h
          split at h
          next bytes' slices'' hrest =>
            obtain ⟨hb, rfl⟩ := Prod.mk.inj h
            obtain rfl := Except.ok.inj hb
            obtain ⟨hlength, hbytes⟩ := ih hrest
            refine ⟨by rw [List.length_append, hlength]; omega, ?_⟩
            rw [bytesOf, hbytes, List.append_assoc]
          next => cases h
      | interrupted => exact ih h
      | timedOut cancelled expired =>
        rw [readExactly] at h
        split at h
        · cases h
        split at h
        · cases h
        exact ih h
      | failed reason => cases h

theorem bytesOf_readKindAndCheck {header : Header}
    (h : readKindAndCheck limit duration midMessage slices = (.ok header, slices')) :
    ∃ bytes, bytes.length = 5 ∧ bytesOf slices = bytes ++ bytesOf slices' ∧
      checkHeader limit midMessage bytes = .ok header := by
  unfold readKindAndCheck at h
  split at h
  · cases h
  next bytes slices'' hread =>
    obtain ⟨hheader, rfl⟩ := Prod.mk.inj h
    obtain ⟨hlength, hbytes⟩ := bytesOf_readExactly hread
    exact ⟨bytes, hlength, hbytes, hheader⟩

theorem length_readKindAndCheck {header : Header}
    (h : readKindAndCheck limit duration midMessage slices = (.ok header, slices')) :
    (bytesOf slices').length + 5 = (bytesOf slices).length := by
  obtain ⟨bytes, hlength, hbytes, -⟩ := bytesOf_readKindAndCheck h
  rw [hbytes, List.length_append, hlength, Nat.add_comm]

theorem length_readExactly {bytes : List UInt8}
    (h : readExactly duration n slices = (.ok bytes, slices')) :
    (bytesOf slices').length ≤ (bytesOf slices).length := by
  rw [(bytesOf_readExactly h).2, List.length_append]
  exact Nat.le_add_left _ _

end Consumption

/-- A data chunk, whose offset comes first. -/
def readData (duration length : ℕ) (slices : List Slice) : Except ReadError Inbox × List Slice :=
  match readExactly duration offsetBytes slices with
  | (.error error, slices) => (.error error, slices)
  | (.ok offset, slices) =>
    match readExactly duration length slices with
    | (.error error, slices) => (.error error, slices)
    | (.ok bytes, slices) => (.ok (.data (UInt64.ofNat (ofBytes offset)) bytes), slices)

/-- The payload of a JSON frame that follows what was collected. -/
def readPart (limit : Limit) (duration length : ℕ) (collected : List UInt8)
    (slices : List Slice) : Except ReadError (List UInt8) × List Slice :=
  if max limit.message limit.json < collected.length + length then
    (.error (.log s!"a JSON message exceeds {max limit.message limit.json} bytes"), slices)
  else
    match readExactly duration length slices with
    | (.error error, slices) => (.error error, slices)
    | (.ok bytes, slices) => (.ok (collected ++ bytes), slices)

theorem length_readPart {limit : Limit} {duration length : ℕ} {collected bytes : List UInt8}
    {slices slices' : List Slice}
    (h : readPart limit duration length collected slices = (.ok bytes, slices')) :
    (bytesOf slices').length ≤ (bytesOf slices).length := by
  unfold readPart at h
  split at h
  · cases h
  split at h
  · cases h
  next bytes' slices'' hread =>
    obtain ⟨-, rfl⟩ := Prod.mk.inj h
    exact length_readExactly hread

/-- Reads on until a message is complete. -/
def readInboxFrom (limit : Limit) (duration : ℕ) (collected : List UInt8) (slices : List Slice) :
    Except ReadError Inbox × List Slice :=
  match _hread : readKindAndCheck limit duration (!collected.isEmpty) slices with
  | (.error error, slices) => (.error error, slices)
  | (.ok (.data length), slices) => readData duration length slices
  | (.ok (.json length), slices) =>
    match readPart limit duration length collected slices with
    | (.error error, slices) => (.error error, slices)
    | (.ok collected, slices) => (.ok (.json collected), slices)
  | (.ok (.part length), slices) =>
    match _hpart : readPart limit duration length collected slices with
    | (.error error, slices) => (.error error, slices)
    | (.ok collected, slices) => readInboxFrom limit duration collected slices
termination_by (bytesOf slices).length
decreasing_by
  have hheader := length_readKindAndCheck ‹_›
  have hpayload := length_readPart ‹_›
  omega

section Rounds

variable {limit : Limit} {duration length : ℕ} {collected : List UInt8} {slices slices' : List Slice}

theorem readInboxFrom_error {error : ReadError}
    (h : readKindAndCheck limit duration (!collected.isEmpty) slices = (.error error, slices')) :
    readInboxFrom limit duration collected slices = (.error error, slices') := by
  rw [readInboxFrom]
  split <;> rename_i hread <;> cases h.symm.trans hread
  rfl

theorem readInboxFrom_data (h : readKindAndCheck limit duration (!collected.isEmpty) slices =
    (.ok (.data length), slices')) :
    readInboxFrom limit duration collected slices = readData duration length slices' := by
  rw [readInboxFrom]
  split <;> rename_i hread <;> cases h.symm.trans hread
  rfl

theorem readInboxFrom_json (h : readKindAndCheck limit duration (!collected.isEmpty) slices =
    (.ok (.json length), slices')) :
    readInboxFrom limit duration collected slices =
      match readPart limit duration length collected slices' with
      | (.error error, slices) => (.error error, slices)
      | (.ok collected, slices) => (.ok (.json collected), slices) := by
  rw [readInboxFrom]
  split <;> rename_i hread <;> cases h.symm.trans hread
  rfl

theorem readInboxFrom_part (h : readKindAndCheck limit duration (!collected.isEmpty) slices =
    (.ok (.part length), slices')) :
    readInboxFrom limit duration collected slices =
      match readPart limit duration length collected slices' with
      | (.error error, slices) => (.error error, slices)
      | (.ok collected, slices) => readInboxFrom limit duration collected slices := by
  conv_lhs => rw [readInboxFrom]
  split <;> rename_i hread <;> cases h.symm.trans hread
  split <;> rename_i hpart <;> rw [hpart]

end Rounds

/-- Reads a JSON message, its parts put together, or a data chunk. -/
def readInbox (limit : Limit) (duration : ℕ) (slices : List Slice) :
    Except ReadError Inbox × List Slice :=
  readInboxFrom limit duration [] slices

section Lengths

variable {limit : Limit} {duration length : ℕ} {collected : List UInt8} {slices slices' : List Slice}
  {inbox : Inbox}

theorem length_readData (h : readData duration length slices = (.ok inbox, slices')) :
    (bytesOf slices').length ≤ (bytesOf slices).length := by
  unfold readData at h
  split at h
  · cases h
  next offset slices₁ hoffset =>
    split at h
    · cases h
    next bytes slices₂ hbytes =>
      obtain ⟨-, rfl⟩ := Prod.mk.inj h
      exact (length_readExactly hbytes).trans (length_readExactly hoffset)

theorem length_readInboxFrom (h : readInboxFrom limit duration collected slices =
    (.ok inbox, slices')) : (bytesOf slices').length < (bytesOf slices).length := by
  induction hn : (bytesOf slices).length using Nat.strongRecOn generalizing collected slices with
  | ind n ih =>
    cases hread : readKindAndCheck limit duration (!collected.isEmpty) slices with
    | mk result slices₁ =>
      cases result with
      | error error => cases (readInboxFrom_error hread).symm.trans h
      | ok header =>
        have hheader := length_readKindAndCheck hread
        cases header with
        | data length =>
          have hdata := length_readData ((readInboxFrom_data hread).symm.trans h)
          omega
        | json length =>
          rw [readInboxFrom_json hread] at h
          split at h
          · cases h
          next hpart =>
            obtain ⟨-, rfl⟩ := Prod.mk.inj h
            have hpayload := length_readPart hpart
            omega
        | part length =>
          rw [readInboxFrom_part hread] at h
          split at h
          · cases h
          next slices₂ hpart =>
            have hpayload := length_readPart hpart
            have hrest := ih _ (by omega) h rfl
            omega

/-- Whatever has arrived took its header at least. -/
theorem length_readInbox (h : readInbox limit duration slices = (.ok inbox, slices')) :
    (bytesOf slices').length < (bytesOf slices).length := length_readInboxFrom h

end Lengths

/-- What has been written, and how the next calls of `write_all` come out: one that fails does so
after some of its bytes. -/
structure Outgoing where
  bytes : List UInt8
  breaks : List (Option (ℕ × String))

def writeAll (buffer : List UInt8) (out : Outgoing) : Except String Unit × Outgoing :=
  match out.breaks with
  | [] => (.ok (), { out with bytes := out.bytes ++ buffer })
  | none :: breaks => (.ok (), ⟨out.bytes ++ buffer, breaks⟩)
  | some (n, reason) :: breaks => (.error reason, ⟨out.bytes ++ buffer.take n, breaks⟩)

/-- A whole frame. -/
def frame (kind : UInt8) (share : List (List UInt8)) : List UInt8 :=
  toBytes 4 (1 + share.flatten.length) ++ kind :: share.flatten

def writeFrame (kind : UInt8) (share : List (List UInt8)) (out : Outgoing) :
    Except String Unit × Outgoing :=
  if 2 ^ 32 ≤ 1 + share.flatten.length then
    (.error "frames above 4 GiB cannot be represented", out)
  else writeAll (frame kind share) out

/-- Writes JSON that is not too large, in parts if it has to. -/
def writeParts (rest : List UInt8) (out : Outgoing) : Except WriteError Unit × Outgoing :=
  if maxJsonFrame < rest.length then
    match writeFrame kindPart [rest.take maxJsonFrame] out with
    | (.error reason, out) => (.error (.link reason), out)
    | (.ok (), out) => writeParts (rest.drop maxJsonFrame) out
  else
    match writeFrame kindJson [rest] out with
    | (.error reason, out) => (.error (.link reason), out)
    | (.ok (), out) => (.ok (), out)
termination_by rest.length
decreasing_by
  have hpos : 0 < maxJsonFrame := by decide
  rw [List.length_drop]
  omega

/-- Writes a JSON message, which may fail to be written as JSON. -/
def writeJson (json : Except String (List UInt8)) (out : Outgoing) :
    Except WriteError Unit × Outgoing :=
  match json with
  | .error reason => (.error (.json reason), out)
  | .ok json =>
    if maxMessage < json.length then (.error (.tooLarge json.length), out)
    else writeParts json out

def writeData (offset : UInt64) (data : List UInt8) (out : Outgoing) :
    Except String Unit × Outgoing :=
  if maxDataChunk < data.length then
    (.error s!"data chunk of {data.length} bytes; at most {maxDataChunk} per frame", out)
  else writeFrame kindData [toBytes 8 offset.toNat, data] out

end FolderClient.Bridge.Frame
