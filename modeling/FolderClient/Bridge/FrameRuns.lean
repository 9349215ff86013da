import FolderClient.Bridge.Frame

namespace FolderClient.Bridge.FrameRuns

open FolderClient.Bridge.Frame FolderClient.Library.BigEndian

section Slices

variable {α β : Type} {duration n : ℕ} {slices slices' : List Slice} {x y : List UInt8}
  {value : α}

/-- Of the slices, nothing but bytes and delays: nobody cancels, no deadline passes, and the line
neither closes nor fails. -/
def Quiet (slices : List Slice) : Prop :=
  ∀ slice ∈ slices, (∃ b, b ≠ [] ∧ slice = .bytes b false) ∨ slice = .interrupted ∨
    slice = .timedOut false false

/-- Bytes read off the line give a value, unless the line breaks off before. -/
inductive Arrives (slices : List Slice) (x : List UInt8) (value : α) :
    Except ReadError α × List Slice → Prop
  | ok {slices' : List Slice} : bytesOf slices = x ++ bytesOf slices' →
      (Quiet slices → Quiet slices') → Arrives slices x value (.ok value, slices')
  | error {error : ReadError} {slices' : List Slice} :
      (Quiet slices → (bytesOf slices).length < x.length) →
      Arrives slices x value (.error error, slices')

theorem Arrives.result {result : Except ReadError α × List Slice}
    (h : Arrives slices x value result) :
    (∃ slices', result = (.ok value, slices') ∧ bytesOf slices = x ++ bytesOf slices' ∧
      (Quiet slices → Quiet slices')) ∨
    ∃ error slices', result = (.error error, slices') ∧
      (Quiet slices → (bytesOf slices).length < x.length) := by
  cases h with
  | ok hb hq => exact .inl ⟨_, rfl, hb, hq⟩
  | error hs => exact .inr ⟨_, _, rfl, hs⟩

theorem quiet_remainder {b : List UInt8} (h : Quiet slices) : Quiet (remainder b false slices) := by
  unfold remainder
  split
  · exact h
  next hb =>
    refine List.forall_mem_cons.mpr ⟨.inl ⟨b, fun he ↦ hb ?_, rfl⟩, h⟩
    rw [he, List.isEmpty_nil]

theorem quiet_readExactly (h : Quiet slices) : Quiet (readExactly duration n slices).2 := by
  induction slices generalizing n with
  | nil => cases n <;> exact h
  | cons slice slices ih =>
    obtain ⟨hslice, hrest⟩ := List.forall_mem_cons.mp h
    cases n with
    | zero => exact h
    | succ n =>
      obtain ⟨b, hb, rfl⟩ | rfl | rfl := hslice
      · rw [readExactly]
        split
        · exact hrest
        split
        · exact quiet_remainder hrest
        split
        · exact hrest
        have hq : Quiet (readExactly duration (n + 1 - b.length) slices).2 := ih hrest
        revert hq
        cases readExactly duration (n + 1 - b.length) slices with
        | mk result slices => cases result <;> exact id
      · exact ih hrest
      · exact ih hrest

theorem short_of_error {error : ReadError} (h : Quiet slices)
    (he : (readExactly duration n slices).1 = .error error) : (bytesOf slices).length < n := by
  induction slices generalizing n error with
  | nil =>
    cases n with
    | zero => cases he
    | succ n => exact Nat.succ_pos n
  | cons slice slices ih =>
    obtain ⟨hslice, hrest⟩ := List.forall_mem_cons.mp h
    cases n with
    | zero => cases he
    | succ n =>
      obtain ⟨b, hb, rfl⟩ | rfl | rfl := hslice
      · rw [readExactly, if_neg (by rwa [List.isEmpty_iff])] at he
        split at he
        · cases he
        rw [if_neg Bool.false_ne_true] at he
        split at he
        · cases he
        next hread =>
          have := ih hrest (congrArg Prod.fst hread)
          rw [bytesOf, List.length_append]
          omega
      · exact ih hrest he
      · exact ih hrest he

theorem arrives_readExactly (hp : bytesOf slices <+: x ++ y) (hx : x.length = n) :
    Arrives slices x x (readExactly duration n slices) := by
  have hquiet : Quiet slices → Quiet (readExactly duration n slices).2 := quiet_readExactly
  have hshort : ∀ error, (readExactly duration n slices).1 = .error error → Quiet slices →
      (bytesOf slices).length < x.length := fun error he hq ↦ hx ▸ short_of_error hq he
  cases hread : readExactly duration n slices with
  | mk result slices' =>
    rw [hread] at hquiet hshort
    cases result with
    | error error => exact .error (hshort error rfl)
    | ok b =>
      obtain ⟨hlength, hbytes⟩ := bytesOf_readExactly hread
      have hb : b = x := by
        refine List.IsPrefix.eq_of_length ?_ (hlength.trans hx.symm)
        refine List.prefix_of_prefix_length_le ?_ (List.prefix_append x y) (by omega)
        exact (hbytes ▸ List.prefix_append b (bytesOf slices')).trans hp
      subst hb
      exact .ok hbytes hquiet

/-- What stands on the line after bytes that have been read. -/
theorem prefix_of_read {z : List UInt8} (hp : bytesOf slices <+: x ++ z)
    (hb : bytesOf slices = x ++ bytesOf slices') : bytesOf slices' <+: z := by
  rw [hb] at hp
  exact (List.prefix_append_right_inj x).mp hp

theorem Arrives.of_rest {z : List UInt8} {value' : β} {result : Except ReadError β × List Slice}
    (hb : bytesOf slices = x ++ bytesOf slices') (hq : Quiet slices → Quiet slices')
    (h : Arrives slices' z value' result) : Arrives slices (x ++ z) value' result := by
  cases h with
  | ok hb' hq' => exact .ok (by rw [hb, hb', List.append_assoc]) (hq' ∘ hq)
  | error hs =>
    refine .error fun hquiet ↦ ?_
    have := hs (hq hquiet)
    rw [hb, List.length_append, List.length_append]
    omega

theorem Arrives.error_of_short {z : List UInt8} {value' : β} {error : ReadError}
    (hs : Quiet slices → (bytesOf slices).length < x.length) :
    Arrives slices (x ++ z) value' (.error error, slices') := by
  refine .error fun hquiet ↦ ?_
  have := hs hquiet
  rw [List.length_append]
  omega

end Slices

section Frames

variable {duration : ℕ} {limit : Limit} {midMessage : Bool} {slices : List Slice}
  {collected rest more : List UInt8}

/-- The five bytes in front of a payload. -/
def headerOf (kind : UInt8) (length : ℕ) : List UInt8 := toBytes 4 (1 + length) ++ [kind]

theorem frame_eq (kind : UInt8) (share : List (List UInt8)) :
    frame kind share = headerOf kind share.flatten.length ++ share.flatten := by
  rw [frame, headerOf, List.append_assoc]
  rfl

theorem length_headerOf (kind : UInt8) (length : ℕ) : (headerOf kind length).length = 5 := by
  rw [headerOf, List.length_append, length_toBytes, List.length_singleton]

/-- What a header says, where the length fits into its four bytes. -/
theorem checkHeader_headerOf (kind : UInt8) {length : ℕ} (h : 1 + length < 2 ^ 32) :
    ofBytes ((headerOf kind length).take 4) = 1 + length ∧
      (headerOf kind length).getD 4 0 = kind := by
  have htake : (headerOf kind length).take 4 = toBytes 4 (1 + length) := by
    rw [headerOf]
    exact List.take_left' (length_toBytes 4 _)
  refine ⟨?_, ?_⟩
  · rw [htake]
    exact ofBytes_toBytes (Nat.lt_of_lt_of_eq h (by decide))
  · rw [headerOf, List.getD_eq_getElem?_getD,
      List.getElem?_append_right (Nat.le_of_eq (length_toBytes 4 _)), length_toBytes]
    rfl

theorem checkHeader_json {length : ℕ} (hl : length ≤ limit.json) (h : 1 + length < 2 ^ 32) :
    checkHeader limit midMessage (headerOf kindJson length) = .ok (.json length) := by
  obtain ⟨hlength, hkind⟩ := checkHeader_headerOf kindJson h
  have hne : kindJson ≠ kindPart := by decide
  have hle : ¬ limit.json < 1 + length - 1 := by omega
  simp only [checkHeader, hlength, hkind, hne, hle]
  simp

theorem checkHeader_part {length : ℕ} (hl : length ≤ limit.json) (hm : limit.message ≠ 0)
    (h : 1 + length < 2 ^ 32) :
    checkHeader limit midMessage (headerOf kindPart length) = .ok (.part length) := by
  obtain ⟨hlength, hkind⟩ := checkHeader_headerOf kindPart h
  have hne : kindPart ≠ kindJson := by decide
  have hle : ¬ limit.json < 1 + length - 1 := by omega
  simp only [checkHeader, hlength, hkind, hne, hle, hm]
  simp

theorem checkHeader_data {length : ℕ} (hd : limit.data = true) (hl : length ≤ maxDataChunk) :
    checkHeader limit false (headerOf kindData (8 + length)) = .ok (.data length) := by
  have hmax : maxDataChunk = 2 ^ 18 := rfl
  have hfits : 1 + (8 + length) < 2 ^ 32 := by omega
  obtain ⟨hlength, hkind⟩ := checkHeader_headerOf kindData hfits
  have hj : kindData ≠ kindJson := by decide
  have hp : kindData ≠ kindPart := by decide
  have hoffset : ¬ 1 + (8 + length) - 1 < offsetBytes := by
    rw [offsetBytes]
    omega
  have hchunk : 1 + (8 + length) - 1 - offsetBytes = length := by
    rw [offsetBytes]
    omega
  simp only [checkHeader, hlength, hkind, hj, hp, hd, hoffset, hchunk, Nat.not_lt.mpr hl]
  simp

theorem arrives_header {kind : UInt8} {length : ℕ} {header : Header} {y : List UInt8}
    (hp : bytesOf slices <+: headerOf kind length ++ y)
    (hc : checkHeader limit midMessage (headerOf kind length) = .ok header) :
    Arrives slices (headerOf kind length) header
      (readKindAndCheck limit duration midMessage slices) := by
  have hread : Arrives slices (headerOf kind length) (headerOf kind length)
      (readExactly duration 5 slices) := arrives_readExactly hp (length_headerOf kind length)
  unfold readKindAndCheck
  obtain ⟨slices', hr, hb, hq⟩ | ⟨error, slices', hr, hs⟩ := hread.result
  · rw [hr]
    dsimp only
    rw [hc]
    exact .ok hb hq
  · rw [hr]
    exact .error hs

theorem arrives_data {offset : UInt64} {bytes y : List UInt8}
    (hp : bytesOf slices <+: (toBytes 8 offset.toNat ++ bytes) ++ y) :
    Arrives slices (toBytes 8 offset.toNat ++ bytes) (.data offset bytes)
      (readData duration bytes.length slices) := by
  rw [List.append_assoc] at hp
  have hoffset : Arrives slices (toBytes 8 offset.toNat) (toBytes 8 offset.toNat)
      (readExactly duration offsetBytes slices) := arrives_readExactly hp (length_toBytes 8 _)
  have hvalue : UInt64.ofNat (ofBytes (toBytes 8 offset.toNat)) = offset := by
    rw [ofBytes_toBytes (Nat.lt_of_lt_of_eq offset.toNat_lt (by decide)), UInt64.ofNat_toNat]
  unfold readData
  obtain ⟨slices', hr, hb, hq⟩ | ⟨error, slices', hr, hs⟩ := hoffset.result
  · rw [hr]
    have hbytes : Arrives slices' bytes bytes (readExactly duration bytes.length slices') :=
      arrives_readExactly (prefix_of_read hp hb) rfl
    refine Arrives.of_rest hb hq ?_
    dsimp only
    obtain ⟨slices'', hr', hb', hq'⟩ | ⟨error, slices'', hr', hs'⟩ := hbytes.result
    · rw [hr', hvalue]
      exact .ok hb' hq'
    · rw [hr']
      exact .error hs'
  · rw [hr]
    exact Arrives.error_of_short hs

theorem arrives_part {part y : List UInt8} (hp : bytesOf slices <+: part ++ y)
    (hl : collected.length + part.length ≤ max limit.message limit.json) :
    Arrives slices part (collected ++ part)
      (readPart limit duration part.length collected slices) := by
  have hpart : Arrives slices part part (readExactly duration part.length slices) :=
    arrives_readExactly hp rfl
  unfold readPart
  rw [if_neg (Nat.not_lt.mpr hl)]
  obtain ⟨slices', hr, hb, hq⟩ | ⟨error, slices', hr, hs⟩ := hpart.result
  · rw [hr]
    exact .ok hb hq
  · rw [hr]
    exact .error hs

end Frames

section Messages

variable {duration : ℕ} {limit : Limit} {slices : List Slice} {collected rest y : List UInt8}

/-- The frames of a JSON message. -/
def framesOf (rest : List UInt8) : List UInt8 :=
  if maxJsonFrame < rest.length then
    frame kindPart [rest.take maxJsonFrame] ++ framesOf (rest.drop maxJsonFrame)
  else frame kindJson [rest]
termination_by rest.length
decreasing_by
  have hpos : 0 < maxJsonFrame := by decide
  rw [List.length_drop]
  omega

theorem frame_singleton (kind : UInt8) (payload : List UInt8) :
    frame kind [payload] = headerOf kind payload.length ++ payload := by
  rw [frame_eq, List.flatten_singleton]

/-- The last part of a JSON message. -/
theorem arrives_last (hl : rest.length ≤ limit.json) (hlength : 1 + rest.length < 2 ^ 32)
    (hs : collected.length + rest.length ≤ max limit.message limit.json)
    (hp : bytesOf slices <+: frame kindJson [rest] ++ y) :
    Arrives slices (frame kindJson [rest]) (.json (collected ++ rest))
      (readInboxFrom limit duration collected slices) := by
  rw [frame_singleton, List.append_assoc] at hp
  rw [frame_singleton]
  have hheader : Arrives slices (headerOf kindJson rest.length) (.json rest.length)
      (readKindAndCheck limit duration (!collected.isEmpty) slices) :=
    arrives_header hp (checkHeader_json hl hlength)
  obtain ⟨slices', hr, hb, hq⟩ | ⟨error, slices', hr, hshort⟩ := hheader.result
  · rw [readInboxFrom_json hr]
    refine Arrives.of_rest hb hq ?_
    have hpart : Arrives slices' rest (collected ++ rest)
        (readPart limit duration rest.length collected slices') :=
      arrives_part (prefix_of_read hp hb) hs
    obtain ⟨slices'', hr', hb', hq'⟩ | ⟨error, slices'', hr', hshort'⟩ := hpart.result
    · rw [hr']
      exact .ok hb' hq'
    · rw [hr']
      exact .error hshort'
  · rw [readInboxFrom_error hr]
    exact Arrives.error_of_short hshort

/-- A JSON message arrives, however it was parted. -/
theorem arrives_json (hl : limit.json = maxJsonFrame)
    (hm : rest.length ≤ maxJsonFrame ∨ limit.message ≠ 0)
    (hs : collected.length + rest.length ≤ max limit.message limit.json)
    (hp : bytesOf slices <+: framesOf rest ++ y) :
    Arrives slices (framesOf rest) (.json (collected ++ rest))
      (readInboxFrom limit duration collected slices) := by
  have hmax : maxJsonFrame = 2 ^ 20 := rfl
  induction rest using framesOf.induct generalizing collected slices with
  | case1 rest hlong ih =>
    have htake : (rest.take maxJsonFrame).length = maxJsonFrame :=
      List.length_take_of_le hlong.le
    have hdrop : (rest.drop maxJsonFrame).length = rest.length - maxJsonFrame := List.length_drop
    rw [framesOf, if_pos hlong, frame_singleton, htake, List.append_assoc, List.append_assoc] at hp
    rw [framesOf, if_pos hlong, frame_singleton, htake, List.append_assoc]
    have hheader : Arrives slices (headerOf kindPart maxJsonFrame) (.part maxJsonFrame)
        (readKindAndCheck limit duration (!collected.isEmpty) slices) :=
      arrives_header hp (checkHeader_part hl.ge (by omega) (by omega))
    obtain ⟨slices', hr, hb, hq⟩ | ⟨error, slices', hr, hshort⟩ := hheader.result
    · rw [readInboxFrom_part hr]
      refine Arrives.of_rest hb hq ?_
      have hp' := prefix_of_read hp hb
      have hpart : Arrives slices' (rest.take maxJsonFrame) (collected ++ rest.take maxJsonFrame)
          (readPart limit duration (rest.take maxJsonFrame).length collected slices') :=
        arrives_part hp' (by omega)
      rw [htake] at hpart
      obtain ⟨slices'', hr', hb', hq'⟩ | ⟨error, slices'', hr', hshort'⟩ := hpart.result
      · rw [hr']
        refine Arrives.of_rest hb' hq' ?_
        have hlength : (collected ++ rest.take maxJsonFrame).length +
            (rest.drop maxJsonFrame).length ≤ max limit.message limit.json := by
          rw [List.length_append]
          omega
        have hrest := ih (by omega) hlength (prefix_of_read hp' hb')
        rwa [List.append_assoc, List.take_append_drop] at hrest
      · rw [hr']
        exact Arrives.error_of_short hshort'
    · rw [readInboxFrom_error hr]
      exact Arrives.error_of_short hshort
  | case2 rest hshort =>
    rw [framesOf, if_neg hshort] at hp ⊢
    exact arrives_last (by omega) (by omega) hs hp

/-- The bytes of a message or a data chunk. -/
def bytesFor : Inbox → List UInt8
  | .json json => framesOf json
  | .data offset bytes => frame kindData [toBytes 8 offset.toNat, bytes]

/-- Of a size that is written. -/
def Fits : Inbox → Prop
  | .json json => json.length ≤ maxMessage
  | .data _ bytes => bytes.length ≤ maxDataChunk

/-- Whatever the app writes on a content arrives as it was written. -/
theorem arrives_inbox {inbox : Inbox} (hf : Fits inbox)
    (hp : bytesOf slices <+: bytesFor inbox ++ y) :
    Arrives slices (bytesFor inbox) inbox (readInbox .content duration slices) := by
  cases inbox with
  | json json =>
    have hsize : ([] : List UInt8).length + json.length ≤ max maxMessage maxJsonFrame := by
      have hf : json.length ≤ maxMessage := hf
      rw [List.length_nil, Nat.zero_add]
      exact le_max_of_le_left hf
    have hmessage : Limit.content.message ≠ 0 := by decide
    exact arrives_json rfl (.inr hmessage) hsize hp
  | data offset bytes =>
    have hf : bytes.length ≤ maxDataChunk := hf
    have hlength : ([toBytes 8 offset.toNat, bytes].flatten).length = 8 + bytes.length := by
      simp
    have hflatten : [toBytes 8 offset.toNat, bytes].flatten = toBytes 8 offset.toNat ++ bytes := by
      simp
    rw [bytesFor, frame_eq, hlength, hflatten] at hp ⊢
    have hp' := hp
    rw [List.append_assoc] at hp'
    have hheader : Arrives slices (headerOf kindData (8 + bytes.length)) (.data bytes.length)
        (readKindAndCheck .content duration (!([] : List UInt8).isEmpty) slices) :=
      arrives_header hp' (checkHeader_data rfl hf)
    obtain ⟨slices', hr, hb, hq⟩ | ⟨error, slices', hr, hshort⟩ := hheader.result
    · rw [readInbox, readInboxFrom_data hr]
      exact Arrives.of_rest hb hq (arrives_data (prefix_of_read hp' hb))
    · rw [readInbox, readInboxFrom_error hr]
      exact Arrives.error_of_short hshort

end Messages

section Writing

variable {out : Outgoing} {duration : ℕ} {slices : List Slice}

/-- What goes out of bytes: all of them, or some where the line breaks off. -/
structure Goes {ε : Type} (bytes : List UInt8) (out : Outgoing)
    (result : Except ε Unit × Outgoing) : Prop where
  some : ∃ p, p <+: bytes ∧ result.2.bytes = out.bytes ++ p
  all : result.1 = .ok () → result.2.bytes = out.bytes ++ bytes
  whole : out.breaks = [] → result.1 = .ok () ∧ result.2.breaks = []

theorem goes_writeAll (buffer : List UInt8) (out : Outgoing) :
    Goes buffer out (writeAll buffer out) := by
  unfold writeAll
  split
  next hb => exact ⟨⟨buffer, List.prefix_refl _, rfl⟩, fun _ ↦ rfl, fun _ ↦ ⟨rfl, hb⟩⟩
  next breaks hb =>
    exact ⟨⟨buffer, List.prefix_refl _, rfl⟩, fun _ ↦ rfl, fun hn ↦ nomatch hb.symm.trans hn⟩
  next n reason breaks hb =>
    exact ⟨⟨buffer.take n, List.take_prefix _ _, rfl⟩, nofun, fun hn ↦ nomatch hb.symm.trans hn⟩

theorem goes_writeFrame {kind : UInt8} {share : List (List UInt8)}
    (h : 1 + share.flatten.length < 2 ^ 32) (out : Outgoing) :
    Goes (frame kind share) out (writeFrame kind share out) := by
  rw [writeFrame, if_neg (Nat.not_le.mpr h)]
  exact goes_writeAll _ _

theorem goes_writeParts {rest : List UInt8} (h : rest.length ≤ maxMessage) (out : Outgoing) :
    Goes (framesOf rest) out (writeParts rest out) := by
  have hframe : maxJsonFrame = 2 ^ 20 := rfl
  have hmessage : maxMessage = 2 ^ 26 := rfl
  induction rest using framesOf.induct generalizing out with
  | case1 rest hlong ih =>
    have htake : (rest.take maxJsonFrame).length = maxJsonFrame :=
      List.length_take_of_le hlong.le
    have hdrop : (rest.drop maxJsonFrame).length = rest.length - maxJsonFrame := List.length_drop
    have hfirst : Goes (frame kindPart [rest.take maxJsonFrame]) out
        (writeFrame kindPart [rest.take maxJsonFrame] out) :=
      goes_writeFrame (by rw [List.flatten_singleton]; omega) out
    rw [framesOf, if_pos hlong, writeParts, if_pos hlong]
    revert hfirst
    cases writeFrame kindPart [rest.take maxJsonFrame] out with
    | mk result out' =>
      intro hfirst
      cases result with
      | error reason =>
        obtain ⟨p, hp, hb⟩ := hfirst.some
        refine ⟨⟨p, hp.trans (List.prefix_append _ _), hb⟩, nofun, fun hn ↦ ?_⟩
        cases (hfirst.whole hn).1
      | ok _ =>
        have hall : out'.bytes = out.bytes ++ frame kindPart [rest.take maxJsonFrame] :=
          hfirst.all rfl
        have hrest := ih (by omega) out'
        obtain ⟨p, hp, hb⟩ := hrest.some
        refine ⟨⟨_, (List.prefix_append_right_inj _).mpr hp, ?_⟩, fun hok ↦ ?_, fun hn ↦ ?_⟩
        · rw [← List.append_assoc, ← hall]
          exact hb
        · rw [← List.append_assoc, ← hall]
          exact hrest.all hok
        · exact hrest.whole (hfirst.whole hn).2
  | case2 rest hshort =>
    have hlast : Goes (frame kindJson [rest]) out (writeFrame kindJson [rest] out) :=
      goes_writeFrame (by rw [List.flatten_singleton]; omega) out
    rw [framesOf, if_neg hshort, writeParts, if_neg hshort]
    revert hlast
    cases writeFrame kindJson [rest] out with
    | mk result out' =>
      rintro ⟨hsome, hall, hwhole⟩
      cases result with
      | error reason => exact ⟨hsome, nofun, fun hn ↦ nomatch (hwhole hn).1⟩
      | ok _ => exact ⟨hsome, fun _ ↦ hall rfl, fun hn ↦ ⟨rfl, (hwhole hn).2⟩⟩

theorem goes_writeData {offset : UInt64} {data : List UInt8} (h : data.length ≤ maxDataChunk)
    (out : Outgoing) :
    Goes (bytesFor (.data offset data)) out (writeData offset data out) := by
  have hchunk : maxDataChunk = 2 ^ 18 := rfl
  have hlength : [toBytes 8 offset.toNat, data].flatten.length = 8 + data.length := by simp
  rw [writeData, if_neg (Nat.not_lt.mpr h)]
  exact goes_writeFrame (by omega) out

/-- Writes a message or a data chunk. -/
def writeInbox : Inbox → Outgoing → Except WriteError Unit × Outgoing
  | .json json, out => writeJson (.ok json) out
  | .data offset bytes, out =>
    match writeData offset bytes out with
    | (.error reason, out) => (.error (.link reason), out)
    | (.ok (), out) => (.ok (), out)

theorem goes_writeInbox {inbox : Inbox} (h : Fits inbox) (out : Outgoing) :
    Goes (bytesFor inbox) out (writeInbox inbox out) := by
  cases inbox with
  | json json =>
    rw [writeInbox, writeJson, if_neg (Nat.not_lt.mpr h)]
    exact goes_writeParts h out
  | data offset bytes =>
    have hdata : Goes (bytesFor (.data offset bytes)) out (writeData offset bytes out) :=
      goes_writeData h out
    rw [writeInbox]
    revert hdata
    cases writeData offset bytes out with
    | mk result out' =>
      rintro ⟨hsome, hall, hwhole⟩
      cases result with
      | error reason => exact ⟨hsome, nofun, fun hn ↦ nomatch (hwhole hn).1⟩
      | ok _ => exact ⟨hsome, fun _ ↦ hall rfl, fun hn ↦ ⟨rfl, (hwhole hn).2⟩⟩

/-- Writes one after another, up to the first that fails. -/
def writeInboxes : List Inbox → Outgoing → Except WriteError Unit × Outgoing
  | [], out => (.ok (), out)
  | inbox :: rest, out =>
    match writeInbox inbox out with
    | (.error error, out) => (.error error, out)
    | (.ok (), out) => writeInboxes rest out

/-- A line on which every write goes through. -/
def clear : Outgoing := ⟨[], []⟩

theorem writeInboxes_eq {sent : List Inbox} (h : ∀ inbox ∈ sent, Fits inbox)
    (hn : out.breaks = []) : writeInboxes sent out =
      (.ok (), ⟨out.bytes ++ (sent.map bytesFor).flatten, []⟩) := by
  induction sent generalizing out with
  | nil =>
    obtain ⟨bytes, breaks⟩ := out
    obtain rfl : breaks = [] := hn
    rw [List.map_nil, List.flatten_nil, List.append_nil]
    rfl
  | cons inbox sent ih =>
    obtain ⟨hfits, hrest⟩ := List.forall_mem_cons.mp h
    have hgoes := goes_writeInbox hfits out
    rw [writeInboxes]
    revert hgoes
    cases writeInbox inbox out with
    | mk result out' =>
      intro hgoes
      obtain ⟨hok, hbreaks⟩ := hgoes.whole hn
      have hb : out'.bytes = out.bytes ++ bytesFor inbox := hgoes.all hok
      obtain rfl : result = .ok () := hok
      dsimp only
      rw [ih hrest hbreaks, hb, List.append_assoc, List.map_cons, List.flatten_cons]

end Writing

section RoundTrip

variable {duration : ℕ} {slices : List Slice} {sent : List Inbox}

/-- One after another, each with exactly the bytes that are written for it. -/
inductive Received (duration : ℕ) : List Inbox → List Slice → List Slice → Prop
  | nil (slices : List Slice) : Received duration [] slices slices
  | cons {inbox : Inbox} {rest : List Inbox} {slices slices' slices'' : List Slice} :
      readInbox .content duration slices = (.ok inbox, slices') →
      bytesOf slices = (writeInbox inbox clear).2.bytes ++ bytesOf slices' →
      Received duration rest slices' slices'' → Received duration (inbox :: rest) slices slices''

theorem received_of_bytes {more : List UInt8} (h : ∀ inbox ∈ sent, Fits inbox)
    (hq : Quiet slices) (hb : bytesOf slices = (sent.map bytesFor).flatten ++ more) :
    ∃ slices', Received duration sent slices slices' ∧ bytesOf slices' = more := by
  induction sent generalizing slices with
  | nil => exact ⟨slices, .nil _, hb⟩
  | cons inbox sent ih =>
    obtain ⟨hfits, hrest⟩ := List.forall_mem_cons.mp h
    rw [List.map_cons, List.flatten_cons, List.append_assoc] at hb
    have hp : bytesOf slices <+: bytesFor inbox ++ ((sent.map bytesFor).flatten ++ more) := by
      exact ⟨[], by rw [List.append_nil, hb]⟩
    have harrives : Arrives slices (bytesFor inbox) inbox (readInbox .content duration slices) :=
      arrives_inbox hfits hp
    obtain ⟨slices', hr, hb', hq'⟩ | ⟨error, slices', hr, hshort⟩ := harrives.result
    · have hmore := List.append_cancel_left (hb'.symm.trans hb)
      obtain ⟨slices'', hreceived, hlast⟩ := ih hrest (hq' hq) hmore
      refine ⟨slices'', .cons hr ?_ hreceived, hlast⟩
      have hgoes := goes_writeInbox hfits clear
      rw [hgoes.all (hgoes.whole rfl).1, hb']
      rfl
    · have := hshort hq
      rw [hb, List.length_append] at this
      omega

/-- What is written arrives as it was, however the stream is cut and delayed. -/
theorem received_as_written (sent : List Inbox) (h : ∀ inbox ∈ sent, Fits inbox)
    (slices : List Slice) (hq : Quiet slices) (more : List UInt8)
    (hb : bytesOf slices = (writeInboxes sent clear).2.bytes ++ more) (duration : ℕ) :
    (writeInboxes sent clear).1 = .ok () ∧
      ∃ slices', Received duration sent slices slices' ∧ bytesOf slices' = more := by
  rw [writeInboxes_eq h rfl] at hb ⊢
  exact ⟨rfl, received_of_bytes h hq hb⟩

/-- A message and a chunk, in two reads with an interruption and the end of a time slice between. -/
theorem received_in_two : ∃ slices, bytesOf slices =
      (writeInboxes [.json [123, 125], .data 7 [1, 2, 3]] clear).2.bytes ++ [] ∧
    ∃ slices', Received 90 [.json [123, 125], .data 7 [1, 2, 3]] slices slices' ∧
      bytesOf slices' = [] := by
  have hfits : ∀ inbox ∈ [Inbox.json [123, 125], .data 7 [1, 2, 3]], Fits inbox := by
    intro inbox hm
    obtain rfl | rfl := by simpa using hm
    · exact Nat.le_of_ble_eq_true rfl
    · exact Nat.le_of_ble_eq_true rfl
  have hstream : (writeInboxes [.json [123, 125], .data 7 [1, 2, 3]] clear).2.bytes =
      [0, 0, 0, 3, 74, 123, 125] ++ [0, 0, 0, 12, 68, 0, 0, 0, 0, 0, 0, 0, 7, 1, 2, 3] := by
    rw [writeInboxes_eq hfits rfl, List.map_cons, bytesFor, framesOf, if_neg (by decide)]
    rfl
  have hb : bytesOf [.interrupted, .bytes [0, 0, 0] false, .timedOut false false,
      .bytes [3, 74, 123, 125, 0, 0, 0, 12, 68, 0, 0, 0, 0, 0, 0, 0, 7, 1, 2, 3] false] =
      (writeInboxes [.json [123, 125], .data 7 [1, 2, 3]] clear).2.bytes ++ [] := by
    rw [hstream]
    rfl
  have hquiet : Quiet [.interrupted, .bytes [0, 0, 0] false, .timedOut false false,
      .bytes [3, 74, 123, 125, 0, 0, 0, 12, 68, 0, 0, 0, 0, 0, 0, 0, 7, 1, 2, 3] false] := by
    simp [Quiet]
  exact ⟨_, hb, (received_as_written _ hfits _ hquiet [] hb 90).2⟩

end RoundTrip

end FolderClient.Bridge.FrameRuns
