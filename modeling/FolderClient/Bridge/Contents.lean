import FolderClient.Bridge.Speaking

namespace FolderClient.Bridge.Contents

open FolderClient.Bridge.Client FolderClient.Bridge.Frame FolderClient.Bridge.FrameRuns
open FolderClient.Bridge.Message FolderClient.Bridge.Server FolderClient.Bridge.Speaking
open FolderClient.Core.Changes FolderClient.Core.Namespace FolderClient.Engine.Transfers
open FolderClient.Library.Programs

section Transferring

variable {json : Json} {actual : ℕ} {sink sink' : Sink} {slices : List Slice}
  {receipt : ContentReceipt} {offset : UInt64} {bytes : List UInt8}

@[simp] theorem received_cancelled (sink : Sink) : sink.cancelled.2.received = sink.received := by
  unfold Sink.cancelled
  split <;> rfl

theorem ok_of_takeData {u : Unit} (h : takeData actual offset bytes sink = (.ok u, sink')) :
    offset.toNat = actual ∧ (bytes ≠ [] → sink'.received = sink.received ++ [(offset, bytes)]) := by
  unfold takeData at h
  split at h
  · cases h
  next hoffset =>
    refine ⟨not_not.mp hoffset, fun hb ↦ ?_⟩
    rw [if_neg (by rwa [List.isEmpty_iff])] at h
    unfold Sink.write at h
    split at h <;> cases h <;> rfl

/-- One round of a transfer that succeeds: a chunk that is taken, the message that ends it, or a
message after which it goes on. -/
inductive Round (json : Json) (actual : ℕ) (sink : Sink) (receipt : ContentReceipt) (sink' : Sink)
    (slices' : List Slice) : Inbox → Prop
  | chunk {offset : UInt64} {bytes : List UInt8} {sink₁ : Sink} :
      takeData actual offset bytes sink = (.ok (), sink₁) →
      transfer json (actual + bytes.length) sink₁ slices' = (.ok receipt, sink') →
      Round json actual sink receipt sink' slices' (.data offset bytes)
  | last {bytes : List UInt8} : takeMessage json actual bytes = some (.ok receipt) →
      sink' = sink → Round json actual sink receipt sink' slices' (.json bytes)
  | more {bytes : List UInt8} : takeMessage json actual bytes = none →
      transfer json actual sink slices' = (.ok receipt, sink') →
      Round json actual sink receipt sink' slices' (.json bytes)

theorem round_of_transfer (h : transfer json actual sink slices = (.ok receipt, sink')) :
    ∃ inbox slices', readInbox .content readDeadline slices = (.ok inbox, slices') ∧
      Round json actual sink.cancelled.2 receipt sink' slices' inbox := by
  rw [transfer] at h
  split at h
  · cases h
  split at h
  · cases h
  · cases h
  next offset bytes slices' hread =>
    refine ⟨_, _, hread, ?_⟩
    split at h
    · cases h
    next htake => exact .chunk htake h
  next bytes slices' hread =>
    refine ⟨_, _, hread, ?_⟩
    split at h
    next result hresult =>
      obtain ⟨rfl, rfl⟩ := Prod.mk.inj h
      exact .last hresult rfl
    next hnone => exact .more hnone h

/-- What is carried during a transfer: a word on the progress, or a chunk that is not empty. -/
inductive Carried (json : Json) : Inbox → Prop
  | progress (bytes : List UInt8) (loaded total : ℕ) : bytes.length ≤ maxMessage →
      json.notice.decode bytes = .ok (.progress loaded total) → Carried json (.json bytes)
  | chunk (offset : UInt64) (bytes : List UInt8) : bytes ≠ [] → bytes.length ≤ maxDataChunk →
      Carried json (.data offset bytes)

theorem Carried.fits {inbox : Inbox} (h : Carried json inbox) : Fits inbox := by
  cases h with
  | progress _ _ _ hl _ => exact hl
  | chunk _ _ _ hl => exact hl

/-- The chunks among what is carried. -/
def chunksOf : List Inbox → List (UInt64 × List UInt8)
  | [] => []
  | .json _ :: rest => chunksOf rest
  | .data offset bytes :: rest => (offset, bytes) :: chunksOf rest

/-- The bytes of chunks, one after another. -/
def dataOf (chunks : List (UInt64 × List UInt8)) : List UInt8 := (chunks.map Prod.snd).flatten

/-- In order and without a gap. -/
def Gapless : ℕ → List (UInt64 × List UInt8) → Prop
  | _, [] => True
  | place, (offset, bytes) :: rest => offset.toNat = place ∧ Gapless (place + bytes.length) rest

/-- A transfer that succeeds takes all that is carried, and goes on behind it. -/
theorem transfer_of_carried {carried : List Inbox} {y : List UInt8}
    (hc : ∀ inbox ∈ carried, Carried json inbox)
    (hp : bytesOf slices <+: (carried.map bytesFor).flatten ++ y)
    (h : transfer json actual sink slices = (.ok receipt, sink')) :
    Gapless actual (chunksOf carried) ∧ ∃ slices' sink₁, bytesOf slices' <+: y ∧
      sink₁.received = sink.received ++ chunksOf carried ∧
      transfer json (actual + (dataOf (chunksOf carried)).length) sink₁ slices' =
        (.ok receipt, sink') := by
  induction carried generalizing actual sink slices with
  | nil => exact ⟨trivial, slices, sink, hp, (List.append_nil _).symm, h⟩
  | cons inbox carried ih =>
    obtain ⟨hfirst, hrest⟩ := List.forall_mem_cons.mp hc
    obtain ⟨inbox', slices₁, hread, hround⟩ := round_of_transfer h
    rw [List.map_cons, List.flatten_cons, List.append_assoc] at hp
    obtain ⟨rfl, hb⟩ := eq_of_arrives (arrives_inbox hfirst.fits hp) hread
    have hp' := prefix_of_read hp hb
    cases hfirst with
    | progress bytes loaded total hl hdecode =>
      have hnone : takeMessage json actual bytes = none := by
        rw [takeMessage, readNotice, hdecode]
        rfl
      cases hround with
      | last hlast _ => cases hnone.symm.trans hlast
      | more _ hmore =>
        obtain ⟨hgapless, slices₂, sink₂, hslices, hreceived, hok⟩ := ih hrest hp' hmore
        rw [received_cancelled] at hreceived
        exact ⟨hgapless, slices₂, sink₂, hslices, hreceived, hok⟩
    | chunk offset bytes hne hl =>
      cases hround with
      | chunk htake hmore =>
        obtain ⟨hoffset, hreceived⟩ := ok_of_takeData htake
        obtain ⟨hgapless, slices₂, sink₂, hslices, hreceived', hok⟩ := ih hrest hp' hmore
        refine ⟨⟨hoffset, hgapless⟩, slices₂, sink₂, hslices, ?_, ?_⟩
        · rw [hreceived', hreceived hne, received_cancelled, List.append_assoc]
          rfl
        · rw [← hok, dataOf, chunksOf, List.map_cons, List.flatten_cons, List.length_append,
            ← Nat.add_assoc]
          rfl

theorem not_ok_of_nothing (hp : bytesOf slices <+: []) :
    transfer json actual sink slices ≠ (.ok receipt, sink') := by
  intro h
  obtain ⟨inbox, slices', hread, -⟩ := round_of_transfer h
  have hlength := length_readInbox hread
  rw [List.prefix_nil.mp hp] at hlength
  exact Nat.not_lt_zero _ hlength

/-- A transfer does not succeed where the line breaks off in the middle of what is carried. -/
theorem not_ok_of_torn {inbox : Inbox} (hc : Carried json inbox)
    (hp : bytesOf slices <+: bytesFor inbox) :
    transfer json actual sink slices ≠ (.ok receipt, sink') := by
  intro h
  have hp' : bytesOf slices <+: ([inbox].map bytesFor).flatten ++ [] := by
    rwa [List.map_singleton, List.flatten_singleton, List.append_nil]
  obtain ⟨-, slices', sink₁, hslices, -, hok⟩ :=
    transfer_of_carried (List.forall_mem_singleton.mpr hc) hp' h
  exact not_ok_of_nothing hslices hok

theorem finish_of_takeMessage (h : takeMessage json actual bytes = some (.ok receipt)) :
    json.notice.decode bytes = .ok (.finish receipt) ∧ receipt.size = actual := by
  unfold takeMessage readNotice at h
  cases hdecode : json.notice.decode bytes with
  | error why =>
    rw [hdecode] at h
    cases h
  | ok notice =>
    rw [hdecode] at h
    cases notice with
    | finish read =>
      change (if read.size = actual then some (Except.ok read)
        else some (.error (SourceError.incomplete read.size actual))) = _ at h
      split at h
      next hsize =>
        cases h
        exact ⟨rfl, hsize⟩
      · cases h
    | _ => cases h

/-- Where the transfer ends, the receipt is what was said, and its size what has arrived. -/
theorem finish_of_transfer {notice : Notice} (hs : Says json notice bytes)
    (hp : bytesOf slices <+: framesOf bytes)
    (h : transfer json actual sink slices = (.ok receipt, sink')) :
    notice = .finish receipt ∧ receipt.size = actual ∧ sink'.received = sink.received := by
  obtain ⟨inbox, slices', hread, hround⟩ := round_of_transfer h
  have hp' : bytesOf slices <+: framesOf bytes ++ [] := by rwa [List.append_nil]
  obtain ⟨rfl, hb⟩ := json_of_split rfl rfl hs.fits hp' hread
  cases hround with
  | last hlast hsink =>
    obtain ⟨hdecode, hsize⟩ := finish_of_takeMessage hlast
    refine ⟨?_, hsize, by rw [hsink, received_cancelled]⟩
    obtain hsaid | ⟨e, hsaid⟩ := hs.said
    · exact Except.ok.inj (hsaid.symm.trans hdecode)
    · cases hsaid.symm.trans hdecode
  | more _ hmore => exact absurd hmore (not_ok_of_nothing (prefix_of_read hp' hb))

end Transferring

section Delivering

variable {json : Json} {start handed data : List UInt8} {sink sink' : RemoteSink}

theorem chunksOf_append (carried more : List Inbox) :
    chunksOf (carried ++ more) = chunksOf carried ++ chunksOf more := by
  induction carried with
  | nil => rfl
  | cons inbox carried ih =>
    cases inbox with
    | json bytes => exact ih
    | data offset bytes => exact congrArg (List.cons (offset, bytes)) ih

theorem dataOf_append (chunks more : List (UInt64 × List UInt8)) :
    dataOf (chunks ++ more) = dataOf chunks ++ dataOf more := by
  rw [dataOf, List.map_append, List.flatten_append]
  rfl

/-- What has gone out behind a start: messages and chunks, and perhaps the beginning of one more, on
which the line broke off; as long as nothing has broken off, the chunks are the data. -/
structure Delivered (json : Json) (start data : List UInt8) (sink : RemoteSink) : Prop where
  carried : ∃ carried p, (∀ inbox ∈ carried, Carried json inbox) ∧
    sink.outgoing.bytes = start ++ ((carried.map bytesFor).flatten ++ p) ∧
    (p = [] ∨ ∃ inbox, Carried json inbox ∧ p <+: bytesFor inbox) ∧
    (sink.torn = false → p = [] ∧ (sink.halted = false → dataOf (chunksOf carried) = data))

/-- A sink that takes no more: of what is handed to it, nothing goes out. -/
theorem Delivered.closed (h : Delivered json start data sink) {more : List UInt8}
    (hs : sink.torn = true ∨ sink.halted = true) : Delivered json start more sink := by
  obtain ⟨carried, p, hc, hb, hp, ht⟩ := h.carried
  refine ⟨carried, p, hc, hb, hp, fun htorn ↦ ⟨(ht htorn).1, fun hhalted ↦ ?_⟩⟩
  obtain hs | hs := hs
  · cases htorn.symm.trans hs
  · cases hhalted.symm.trans hs

section Writing

variable {ε : Type} {inbox : Inbox} {result : Except ε Unit × Outgoing}

theorem Delivered.went (h : Delivered json start data sink) (htorn : sink.torn = false)
    (hhalted : sink.halted = false) (hc : Carried json inbox)
    (hg : Goes (bytesFor inbox) sink.outgoing result) (hok : result.1 = .ok ()) :
    Delivered json start (data ++ dataOf (chunksOf [inbox]))
      { sink with outgoing := result.2 } := by
  obtain ⟨carried, p, hcarried, hb, -, ht⟩ := h.carried
  obtain ⟨rfl, hdata⟩ := ht htorn
  refine ⟨carried ++ [inbox], [], ?_, ?_, .inl rfl, fun _ ↦ ⟨rfl, fun _ ↦ ?_⟩⟩
  · exact List.forall_mem_append.mpr ⟨hcarried, List.forall_mem_singleton.mpr hc⟩
  · rw [hg.all hok, hb, List.map_append, List.flatten_append, List.append_nil, List.append_nil,
      List.append_assoc, List.map_singleton, List.flatten_singleton]
  · rw [chunksOf_append, dataOf_append, hdata hhalted]

theorem Delivered.broke (h : Delivered json start data sink) (htorn : sink.torn = false)
    (hc : Carried json inbox) (hg : Goes (bytesFor inbox) sink.outgoing result)
    (more : List UInt8) :
    Delivered json start more { sink with outgoing := result.2, torn := true } := by
  obtain ⟨carried, p, hcarried, hb, -, ht⟩ := h.carried
  obtain ⟨rfl, -⟩ := ht htorn
  obtain ⟨p, hp, hout⟩ := hg.some
  refine ⟨carried, p, hcarried, ?_, .inr ⟨inbox, hc, hp⟩, nofun⟩
  rw [hout, hb, List.append_nil, List.append_assoc]

end Writing

theorem Delivered.mono (h : Delivered json start data sink)
    (hout : sink'.outgoing = sink.outgoing) (htorn : sink'.torn = false → sink.torn = false)
    (hhalted : sink'.halted = false → sink.halted = false) : Delivered json start data sink' := by
  obtain ⟨carried, p, hc, hb, hp, ht⟩ := h.carried
  refine ⟨carried, p, hc, hout ▸ hb, hp, fun hf ↦ ?_⟩
  obtain ⟨hnil, hdata⟩ := ht (htorn hf)
  exact ⟨hnil, hdata ∘ hhalted⟩

/-- A look leaves what has gone out. -/
theorem Delivered.look (h : Delivered json start data sink) :
    Delivered json start data sink.look.2 ∧ sink.look.2.torn = sink.torn ∧
      sink.look.2.halted = sink.look.1.halted ∧ sink.look.2.handed = sink.handed := by
  unfold RemoteSink.look
  split
  next => exact ⟨h, rfl, rfl, rfl⟩
  next tick ticks _ =>
    refine ⟨h.mono rfl id fun hf ↦ ?_, rfl, rfl, rfl⟩
    exact (Bool.or_eq_false_iff.mp hf).1

theorem Delivered.cancelled (h : Delivered json start data sink) :
    Delivered json start data sink.cancelled.2 ∧
      (sink.cancelled.1 = true →
        sink.cancelled.2.torn = true ∨ sink.cancelled.2.halted = true) ∧
      (sink.cancelled.1 = false →
        sink.cancelled.2.torn = false ∧ sink.cancelled.2.halted = false) ∧
      sink.cancelled.2.handed = sink.handed := by
  obtain ⟨hlook, htorn', hhalted, hhanded⟩ := h.look
  unfold RemoteSink.cancelled
  cases htorn : sink.torn with
  | true => exact ⟨h, fun _ ↦ .inl htorn, nofun, rfl⟩
  | false =>
    rw [htorn] at htorn'
    rw [if_neg Bool.false_ne_true]
    split
    next closed looked heq =>
      rw [heq] at hlook hhalted hhanded
      exact ⟨hlook, fun _ ↦ .inr hhalted, nofun, hhanded⟩
    next looked heq =>
      rw [heq] at hlook hhanded
      exact ⟨hlook.mono rfl nofun id, fun _ ↦ .inl rfl, nofun, hhanded⟩
    next looked heq =>
      rw [heq] at hlook hhalted hhanded htorn'
      exact ⟨hlook, nofun, fun _ ↦ ⟨htorn', hhalted⟩, hhanded⟩

theorem progress_kept (h : Delivered json start data sink) (loaded total : ℕ) :
    Delivered json start data (sink.progress json loaded total) ∧
      (sink.progress json loaded total).handed = sink.handed := by
  obtain ⟨hlook, hclosed, hopen, hhanded⟩ := h.cancelled
  unfold RemoteSink.progress
  split
  next looked hcancelled =>
    rw [hcancelled] at hlook hhanded
    exact ⟨hlook, hhanded⟩
  next looked hcancelled =>
    rw [hcancelled] at hlook hopen hhanded
    obtain ⟨htorn, hhalted⟩ := hopen rfl
    obtain ⟨bytes, hencode, hfits, hgoes⟩ | ⟨error, hwrite⟩ :=
      goes_writeJson (json.notice.encode (.progress loaded total)) looked.outgoing
    · have hc : Carried json (.json bytes) :=
        .progress bytes loaded total hfits (json.notice.decode_encode _ _ hencode)
      split
      next outgoing hwrite =>
        rw [hwrite] at hgoes
        have hwent := hlook.went htorn hhalted hc hgoes rfl
        have hdata : data ++ dataOf (chunksOf [.json bytes]) = data := List.append_nil data
        exact ⟨hdata ▸ hwent, hhanded⟩
      next error outgoing hwrite =>
        rw [hwrite] at hgoes
        exact ⟨hlook.broke htorn hc hgoes _, hhanded⟩
    · rw [hwrite]
      exact ⟨hlook.mono rfl nofun id, hhanded⟩

theorem writeChunks_kept (place : UInt64) (more : List UInt8)
    (h : Delivered json start data sink) (htorn : sink.torn = false)
    (hhalted : sink.halted = false) :
    Delivered json start (data ++ more) (RemoteSink.writeChunks place more sink).2 ∧
      (RemoteSink.writeChunks place more sink).2.handed = sink.handed := by
  induction hn : more.length using Nat.strongRecOn generalizing place more data sink with
  | ind n ih =>
    rw [RemoteSink.writeChunks]
    split
    next hempty =>
      rw [List.isEmpty_iff.mp hempty, List.append_nil]
      exact ⟨h, rfl⟩
    next hne =>
      have hpos : 0 < maxDataChunk := by decide
      have hmore : more ≠ [] := fun he ↦ hne (he ▸ rfl)
      have hlength := List.length_pos_of_ne_nil hmore
      have hfits : (more.take maxDataChunk).length ≤ maxDataChunk := List.length_take_le _ _
      have hc : Carried json (.data place (more.take maxDataChunk)) := by
        refine .chunk place _ (fun he ↦ hmore ?_) hfits
        exact (List.take_eq_nil_iff.mp he).resolve_left hpos.ne'
      have hgoes : Goes (bytesFor (.data place (more.take maxDataChunk))) sink.outgoing
          (writeData place (more.take maxDataChunk) sink.outgoing) := goes_writeData hfits _
      split
      next why outgoing hwrite =>
        rw [hwrite] at hgoes
        exact ⟨h.broke htorn hc hgoes _, rfl⟩
      next outgoing hwrite =>
        rw [hwrite] at hgoes
        have hdrop : (more.drop maxDataChunk).length < n := by
          rw [List.length_drop]
          omega
        have hrest := ih _ hdrop (place + UInt64.ofNat (more.take maxDataChunk).length) _
          (h.went htorn hhalted hc hgoes rfl) htorn hhalted rfl
        have hdata : dataOf (chunksOf [.data place (more.take maxDataChunk)]) =
            more.take maxDataChunk := List.append_nil _
        rwa [hdata, List.append_assoc, List.take_append_drop] at hrest

theorem write_kept (h : Delivered json start sink.handed sink) (offset : UInt64)
    (more : List UInt8) :
    Delivered json start (sink.write offset more).2.handed (sink.write offset more).2 := by
  obtain ⟨hlook, hclosed, hopen, hhanded⟩ := h.cancelled
  unfold RemoteSink.write
  split
  next looked hcancelled =>
    rw [hcancelled] at hlook hclosed
    have hlooked : Delivered json start sink.handed
        { looked with handed := looked.handed ++ more } := hlook.mono rfl id id
    exact hlooked.closed (hclosed rfl)
  next looked hcancelled =>
    rw [hcancelled] at hlook hopen hhanded
    obtain ⟨htorn, hhalted⟩ := hopen rfl
    have hlooked : Delivered json start sink.handed
        { looked with handed := looked.handed ++ more } := hlook.mono rfl id id
    obtain ⟨hchunks, heq⟩ := writeChunks_kept offset more hlooked htorn hhalted
    rw [heq]
    have hdata : looked.handed = sink.handed := hhanded
    rwa [hdata] at hchunks ⊢

/-- Whatever the source does with its sink. -/
theorem deliver_kept {α : Type} (program : Program SinkRequest SinkAnswer α)
    (h : Delivered json start sink.handed sink) :
    Delivered json start (deliver json program sink).2.handed (deliver json program sink).2 := by
  induction program generalizing sink with
  | done result => exact h
  | ask request next ih =>
    cases request with
    | progress loaded total =>
      obtain ⟨hkept, hhanded⟩ := progress_kept h loaded total
      exact ih () (hhanded ▸ hkept)
    | write offset data => exact ih _ (write_kept h offset data)
    | cancelled =>
      obtain ⟨hlook, -, -, hhanded⟩ := h.cancelled
      exact ih _ (hhanded ▸ hlook)

end Delivering

end FolderClient.Bridge.Contents
