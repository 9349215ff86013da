import FolderClient.Bridge.FrameRuns

namespace FolderClient.Bridge.Grammar

open FolderClient.Bridge.Frame FolderClient.Bridge.FrameRuns FolderClient.Library.BigEndian

section Words

/-- The most that the parts of a message may hold together. -/
def wholeOf (limit : Limit) : ℕ := max limit.message limit.json

/-- A payload that a JSON frame can carry and the limit lets through. -/
def Payload (limit : Limit) (payload : List UInt8) : Prop :=
  payload.length ≤ limit.json ∧ 1 + payload.length < 2 ^ 32

/-- A part of a message, where parts are allowed. -/
def Part (limit : Limit) (payload : List UInt8) : Prop :=
  limit.message ≠ 0 ∧ Payload limit payload

def partsOf (parts : List (List UInt8)) : List UInt8 := parts.flatMap fun p ↦ frame kindPart [p]

/-- The inputs: parts and a last frame, or a single data chunk. -/
inductive Accepts (limit : Limit) : List UInt8 → Inbox → Prop
  | json (parts : List (List UInt8)) (last : List UInt8) : (∀ p ∈ parts, Part limit p) →
      Payload limit last → (parts.flatten ++ last).length ≤ wholeOf limit →
      Accepts limit (partsOf parts ++ frame kindJson [last]) (.json (parts.flatten ++ last))
  | data (offset : UInt64) (bytes : List UInt8) : limit.data = true →
      bytes.length ≤ maxDataChunk →
      Accepts limit (frame kindData [toBytes 8 offset.toNat, bytes]) (.data offset bytes)

/-- The stream has a part without payload, behind other parts at most. -/
def EmptyPart (bytes : List UInt8) : Prop :=
  ∃ parts more, bytes = partsOf parts ++ frame kindPart [[]] ++ more

theorem partsOf_cons (p : List UInt8) (parts : List (List UInt8)) :
    partsOf (p :: parts) = frame kindPart [p] ++ partsOf parts :=
  List.flatMap_cons

theorem partsOf_append (a b : List (List UInt8)) : partsOf (a ++ b) = partsOf a ++ partsOf b :=
  List.flatMap_append

end Words

section Headers

variable {limit : Limit} {midMessage : Bool} {bytes : List UInt8} {header : Header}

/-- What the five bytes of an admissible header are. -/
inductive Announces (limit : Limit) (midMessage : Bool) : Header → List UInt8 → Prop
  | json {length : ℕ} : length ≤ limit.json → 1 + length < 2 ^ 32 →
      Announces limit midMessage (.json length) (headerOf kindJson length)
  | part {length : ℕ} : limit.message ≠ 0 → length ≤ limit.json → 1 + length < 2 ^ 32 →
      Announces limit midMessage (.part length) (headerOf kindPart length)
  | data {length : ℕ} : limit.data = true → midMessage = false → length ≤ maxDataChunk →
      Announces limit midMessage (.data length) (headerOf kindData (8 + length))

theorem eq_headerOf (hlength : bytes.length = 5) (hpos : ofBytes (bytes.take 4) ≠ 0) :
    bytes = headerOf (bytes.getD 4 0) (ofBytes (bytes.take 4) - 1) ∧
      ofBytes (bytes.take 4) < 2 ^ 32 := by
  have htake : (bytes.take 4).length = 4 := List.length_take_of_le (by omega)
  have hsplit : bytes.drop 4 = [bytes.getD 4 0] := by
    rw [List.drop_eq_getElem_cons (by omega), List.drop_of_length_le (by omega),
      List.getD_eq_getElem?_getD, List.getElem?_eq_getElem (by omega)]
    rfl
  have hone : 1 + (ofBytes (bytes.take 4) - 1) = ofBytes (bytes.take 4) := by omega
  constructor
  · have hbytes := toBytes_ofBytes (bytes.take 4)
    rw [htake] at hbytes
    rw [headerOf, hone, hbytes, ← hsplit, List.take_append_drop]
  · have hlt := ofBytes_lt (bytes.take 4)
    rw [htake] at hlt
    exact Nat.lt_of_lt_of_eq hlt (by decide)

/-- What is admitted is announced by its header. -/
theorem announces_of_check (hlength : bytes.length = 5)
    (h : checkHeader limit midMessage bytes = .ok header) :
    Announces limit midMessage header bytes := by
  rw [checkHeader] at h
  dsimp only at h
  split at h
  · cases h
  · rename_i hpos
    obtain ⟨hbytes, hlt⟩ := eq_headerOf hlength hpos
    have hone : 1 + (ofBytes (bytes.take 4) - 1) < 2 ^ 32 := by omega
    split at h
    · cases h
    · rename_i hjson
      split at h
      · cases h
      · rename_i hparts
        split at h
        · rename_i hkind
          obtain rfl := Except.ok.inj h
          have hle := Nat.not_lt.mp fun hlt ↦ hjson ⟨.inl hkind, hlt⟩
          rw [hkind] at hbytes
          have hjson : Announces limit midMessage _ _ := .json hle hone
          rwa [← hbytes] at hjson
        · split at h
          · rename_i hkind
            obtain rfl := Except.ok.inj h
            have hle := Nat.not_lt.mp fun hlt ↦ hjson ⟨.inr hkind, hlt⟩
            rw [hkind] at hbytes
            have hpart : Announces limit midMessage _ _ :=
              .part (fun hnone ↦ hparts ⟨hkind, hnone⟩) hle hone
            rwa [← hbytes] at hpart
          · split at h
            · cases h
            · rename_i hdata
              split at h
              · cases h
              · rename_i hmid
                split at h
                · rename_i hkind
                  split at h
                  · cases h
                  · rename_i hoffset
                    split at h
                    · cases h
                    · rename_i hchunk
                      obtain rfl := Except.ok.inj h
                      have height : ofBytes (bytes.take 4) - 1 =
                          8 + (ofBytes (bytes.take 4) - 1 - offsetBytes) := by
                        rw [offsetBytes] at hoffset ⊢
                        omega
                      rw [hkind, height] at hbytes
                      have hallowed : limit.data = true :=
                        Bool.of_not_eq_false fun hnone ↦ hdata ⟨hkind, hnone⟩
                      have hstart : midMessage = false :=
                        Bool.of_not_eq_true fun hin ↦ hmid ⟨hkind, hin⟩
                      have hdata : Announces limit midMessage _ _ :=
                        .data hallowed hstart (Nat.not_lt.mp hchunk)
                      rwa [← hbytes] at hdata
                · cases h

end Headers

section Courses

variable {limit : Limit} {duration n : ℕ} {midMessage : Bool} {collected x : List UInt8}
  {slices slices' : List Slice} {header : Header} {parts : List (List UInt8)} {held : List ℕ}
  {result : Except ReadError Inbox × List Slice}

/-- How much of a JSON message a header announces. -/
def Header.text : Header → Option ℕ
  | .json length | .part length => some length
  | .data _ => none

/-- The course of a reading: the parts that it has read, the sizes to which it grows the memory it
holds before it reads a payload into it, and what it comes to. -/
inductive Course (limit : Limit) (duration : ℕ) : List UInt8 → List Slice →
    List (List UInt8) → List ℕ → Except ReadError Inbox × List Slice → Prop
  | halted {collected : List UInt8} {slices slices' : List Slice} {error : ReadError} :
      readKindAndCheck limit duration (!collected.isEmpty) slices = (.error error, slices') →
      Course limit duration collected slices [] [] (.error error, slices')
  | data {collected : List UInt8} {slices slices' : List Slice} {length : ℕ} :
      readKindAndCheck limit duration (!collected.isEmpty) slices =
        (.ok (.data length), slices') →
      Course limit duration collected slices [] [collected.length + (offsetBytes + length)]
        (readData duration length slices')
  | overfull {collected : List UInt8} {slices slices' : List Slice} {header : Header}
      {length : ℕ} :
      readKindAndCheck limit duration (!collected.isEmpty) slices = (.ok header, slices') →
      Header.text header = some length → wholeOf limit < collected.length + length →
      Course limit duration collected slices [] []
        (.error (.log s!"a JSON message exceeds {wholeOf limit} bytes"), slices')
  | cut {collected : List UInt8} {slices slices' slices'' : List Slice} {header : Header}
      {length : ℕ} {error : ReadError} :
      readKindAndCheck limit duration (!collected.isEmpty) slices = (.ok header, slices') →
      Header.text header = some length → collected.length + length ≤ wholeOf limit →
      readExactly duration length slices' = (.error error, slices'') →
      Course limit duration collected slices [] [collected.length + length]
        (.error error, slices'')
  | last {collected payload : List UInt8} {slices slices' slices'' : List Slice} {length : ℕ} :
      readKindAndCheck limit duration (!collected.isEmpty) slices =
        (.ok (.json length), slices') →
      collected.length + length ≤ wholeOf limit →
      readExactly duration length slices' = (.ok payload, slices'') →
      Course limit duration collected slices [] [collected.length + length]
        (.ok (.json (collected ++ payload)), slices'')
  | part {collected payload : List UInt8} {slices slices' slices'' : List Slice} {length : ℕ}
      {parts : List (List UInt8)} {held : List ℕ} {result : Except ReadError Inbox × List Slice} :
      readKindAndCheck limit duration (!collected.isEmpty) slices =
        (.ok (.part length), slices') →
      collected.length + length ≤ wholeOf limit →
      readExactly duration length slices' = (.ok payload, slices'') →
      Course limit duration (collected ++ payload) slices'' parts held result →
      Course limit duration collected slices (payload :: parts)
        ((collected.length + length) :: held) result

theorem readPart_over {length : ℕ} (h : wholeOf limit < collected.length + length) :
    readPart limit duration length collected slices =
      (.error (.log s!"a JSON message exceeds {wholeOf limit} bytes"), slices) := by
  rw [readPart]
  exact if_pos h

theorem readPart_error {length : ℕ} {error : ReadError}
    (h : collected.length + length ≤ wholeOf limit)
    (hread : readExactly duration length slices = (.error error, slices')) :
    readPart limit duration length collected slices = (.error error, slices') := by
  rw [wholeOf] at h
  rw [readPart, if_neg (Nat.not_lt.mpr h), hread]

theorem readPart_ok {length : ℕ} {payload : List UInt8}
    (h : collected.length + length ≤ wholeOf limit)
    (hread : readExactly duration length slices = (.ok payload, slices')) :
    readPart limit duration length collected slices = (.ok (collected ++ payload), slices') := by
  rw [wholeOf] at h
  rw [readPart, if_neg (Nat.not_lt.mpr h), hread]

/-- Every reading takes such a course. -/
theorem course_readInboxFrom (limit : Limit) (duration : ℕ) (collected : List UInt8)
    (slices : List Slice) : ∃ parts held, Course limit duration collected slices parts held
      (readInboxFrom limit duration collected slices) := by
  induction hn : (bytesOf slices).length using Nat.strongRecOn generalizing collected slices with
  | ind n ih =>
    cases hread : readKindAndCheck limit duration (!collected.isEmpty) slices with
    | mk checked slices₁ =>
      cases checked with
      | error error =>
        rw [readInboxFrom_error hread]
        exact ⟨[], [], .halted hread⟩
      | ok header =>
        have hheader := length_readKindAndCheck hread
        cases header with
        | data length =>
          rw [readInboxFrom_data hread]
          exact ⟨[], _, .data hread⟩
        | json length =>
          rw [readInboxFrom_json hread]
          by_cases hfits : collected.length + length ≤ wholeOf limit
          · cases hpayload : readExactly duration length slices₁ with
            | mk got slices₂ =>
              cases got with
              | error error =>
                rw [readPart_error hfits hpayload]
                exact ⟨[], _, .cut hread rfl hfits hpayload⟩
              | ok payload =>
                rw [readPart_ok hfits hpayload]
                exact ⟨[], _, .last hread hfits hpayload⟩
          · rw [readPart_over (Nat.not_le.mp hfits)]
            exact ⟨[], [], .overfull hread rfl (Nat.not_le.mp hfits)⟩
        | part length =>
          rw [readInboxFrom_part hread]
          by_cases hfits : collected.length + length ≤ wholeOf limit
          · cases hpayload : readExactly duration length slices₁ with
            | mk got slices₂ =>
              cases got with
              | error error =>
                rw [readPart_error hfits hpayload]
                exact ⟨[], _, .cut hread rfl hfits hpayload⟩
              | ok payload =>
                have hrest := length_readExactly hpayload
                obtain ⟨parts, held, hcourse⟩ := ih _ (by omega) (collected ++ payload) slices₂ rfl
                rw [readPart_ok hfits hpayload]
                exact ⟨payload :: parts, _, .part hread hfits hpayload hcourse⟩
          · rw [readPart_over (Nat.not_le.mp hfits)]
            exact ⟨[], [], .overfull hread rfl (Nat.not_le.mp hfits)⟩

theorem Course.eq (h : Course limit duration collected slices parts held result) :
    readInboxFrom limit duration collected slices = result := by
  induction h with
  | halted hread => exact readInboxFrom_error hread
  | data hread => exact readInboxFrom_data hread
  | @overfull _ _ _ header _ hread htext hover =>
    cases header with
    | data _ => cases htext
    | json _ =>
      obtain rfl := Option.some.inj htext
      rw [readInboxFrom_json hread, readPart_over hover]
    | part _ =>
      obtain rfl := Option.some.inj htext
      rw [readInboxFrom_part hread, readPart_over hover]
  | @cut _ _ _ _ header _ _ hread htext hfits hpayload =>
    cases header with
    | data _ => cases htext
    | json _ =>
      obtain rfl := Option.some.inj htext
      rw [readInboxFrom_json hread, readPart_error hfits hpayload]
    | part _ =>
      obtain rfl := Option.some.inj htext
      rw [readInboxFrom_part hread, readPart_error hfits hpayload]
  | last hread hfits hpayload => rw [readInboxFrom_json hread, readPart_ok hfits hpayload]
  | part hread hfits hpayload _ ih =>
    rw [readInboxFrom_part hread, readPart_ok hfits hpayload]
    exact ih

end Courses

section Consumption

variable {limit : Limit} {duration n : ℕ} {midMessage : Bool} {collected : List UInt8}
  {slices slices' rest : List Slice} {header : Header} {parts : List (List UInt8)} {held : List ℕ}
  {result : Except ReadError Inbox × List Slice}

/-- Whatever comes of a reading, it takes no more off the line than it was to read. -/
theorem consumed_readExactly (duration n : ℕ) (slices : List Slice) :
    ∃ x, x.length ≤ n ∧ bytesOf slices = x ++ bytesOf (readExactly duration n slices).2 := by
  induction slices generalizing n with
  | nil => cases n <;> exact ⟨[], Nat.zero_le _, rfl⟩
  | cons slice slices ih =>
    cases n with
    | zero => exact ⟨[], Nat.zero_le _, rfl⟩
    | succ n =>
      cases slice with
      | bytes b expired =>
        rw [readExactly]
        split
        · rename_i hempty
          rw [List.isEmpty_iff] at hempty
          exact ⟨[], Nat.zero_le _, by rw [hempty]; rfl⟩
        · split
          · refine ⟨b.take (n + 1), List.length_take_le _ _, ?_⟩
            rw [bytesOf_remainder, ← List.append_assoc, List.take_append_drop]
            rfl
          · rename_i hshort
            have hb : b.length ≤ n + 1 := (Nat.not_le.mp hshort).le
            split
            · exact ⟨b, hb, rfl⟩
            · obtain ⟨x, hx, hbytes⟩ := ih (n + 1 - b.length)
              have hsum : (b ++ x).length ≤ n + 1 := by
                rw [List.length_append]
                omega
              have hall : bytesOf (.bytes b expired :: slices) = b ++ x ++
                  bytesOf (readExactly duration (n + 1 - b.length) slices).2 := by
                rw [bytesOf, hbytes, List.append_assoc]
              refine ⟨b ++ x, hsum, hall.trans ?_⟩
              split
              · rename_i hread
                rw [hread]
              · rename_i hread
                rw [hread]
      | interrupted => exact ih (n + 1)
      | timedOut cancelled expired =>
        rw [readExactly]
        split
        · exact ⟨[], Nat.zero_le _, rfl⟩
        · split
          · exact ⟨[], Nat.zero_le _, rfl⟩
          · exact ih (n + 1)
      | failed reason => exact ⟨[], Nat.zero_le _, rfl⟩

/-- The line never refuses a frame by itself. -/
theorem readExactly_ne_log {text : String} :
    readExactly duration n slices ≠ (.error (.log text), slices') := by
  intro h
  induction slices generalizing n with
  | nil => cases n <;> cases h
  | cons slice slices ih =>
    cases n with
    | zero => cases h
    | succ n =>
      cases slice with
      | bytes b expired =>
        rw [readExactly] at h
        split at h
        · cases h
        · split at h
          · cases h
          · split at h
            · cases h
            · split at h
              · cases h
              · rename_i hread
                obtain ⟨herror, rfl⟩ := Prod.mk.inj h
                rw [Except.error.inj herror] at hread
                exact ih hread
      | interrupted => exact ih h
      | timedOut cancelled expired =>
        rw [readExactly] at h
        split at h
        · cases h
        · split at h
          · cases h
          · exact ih h
      | failed reason => cases h

theorem consumed_readKindAndCheck (limit : Limit) (duration : ℕ) (midMessage : Bool)
    (slices : List Slice) : ∃ x, x.length ≤ 5 ∧
      bytesOf slices = x ++ bytesOf (readKindAndCheck limit duration midMessage slices).2 := by
  obtain ⟨x, hx, hbytes⟩ := consumed_readExactly duration 5 slices
  refine ⟨x, hx, hbytes.trans ?_⟩
  rw [readKindAndCheck]
  split
  · rename_i hread
    rw [hread]
  · rename_i hread
    rw [hread]

/-- The header of a frame, read as it is admitted. -/
theorem announced (h : readKindAndCheck limit duration midMessage slices = (.ok header, slices')) :
    ∃ bytes, bytesOf slices = bytes ++ bytesOf slices' ∧ bytes.length = 5 ∧
      Announces limit midMessage header bytes := by
  obtain ⟨bytes, hlength, hbytes, hcheck⟩ := bytesOf_readKindAndCheck h
  exact ⟨bytes, hbytes, hlength, announces_of_check hlength hcheck⟩

theorem announced_part {length : ℕ} (h : readKindAndCheck limit duration midMessage slices =
    (.ok (.part length), slices')) :
    bytesOf slices = headerOf kindPart length ++ bytesOf slices' ∧ limit.message ≠ 0 ∧
      length ≤ limit.json ∧ 1 + length < 2 ^ 32 := by
  obtain ⟨bytes, hbytes, -, hannounces⟩ := announced h
  cases hannounces with
  | part hmessage hle hfits => exact ⟨hbytes, hmessage, hle, hfits⟩

/-- The parts of the course stand at the beginning of the line. -/
theorem Course.prefix (h : Course limit duration collected slices parts held result) :
    ∃ more, bytesOf slices = partsOf parts ++ more := by
  induction h with
  | part hread _ hpayload _ ih =>
    obtain ⟨hheader, -⟩ := announced_part hread
    obtain ⟨hlength, hbytes⟩ := bytesOf_readExactly hpayload
    obtain ⟨more, hmore⟩ := ih
    refine ⟨more, ?_⟩
    rw [hheader, hbytes, hmore, partsOf_cons, frame_singleton, hlength]
    simp only [List.append_assoc]
  | halted | data | overfull | cut | last => exact ⟨_, rfl⟩

/-- A reading that refuses a frame has read of it nothing but its header. -/
theorem Course.refused {text : String}
    (h : Course limit duration collected slices parts held result)
    (hresult : result = (.error (.log text), rest)) :
    ∃ bytes, bytes.length = 5 ∧ bytesOf slices = partsOf parts ++ bytes ++ bytesOf rest := by
  induction h with
  | @halted _ slices _ _ hread =>
    obtain ⟨herror, rfl⟩ := Prod.mk.inj hresult
    rw [Except.error.inj herror, readKindAndCheck] at hread
    split at hread
    · rename_i hbroken
      obtain ⟨herror', rfl⟩ := Prod.mk.inj hread
      rw [Except.error.inj herror'] at hbroken
      exact absurd hbroken readExactly_ne_log
    · rename_i hheader
      obtain ⟨-, rfl⟩ := Prod.mk.inj hread
      obtain ⟨hlength, hbytes⟩ := bytesOf_readExactly hheader
      exact ⟨_, hlength, hbytes⟩
  | data hread =>
    rw [readData] at hresult
    split at hresult
    · rename_i hbroken
      obtain ⟨herror, rfl⟩ := Prod.mk.inj hresult
      rw [Except.error.inj herror] at hbroken
      exact absurd hbroken readExactly_ne_log
    · split at hresult
      · rename_i hbroken
        obtain ⟨herror, rfl⟩ := Prod.mk.inj hresult
        rw [Except.error.inj herror] at hbroken
        exact absurd hbroken readExactly_ne_log
      · cases hresult
  | overfull hread =>
    obtain ⟨-, rfl⟩ := Prod.mk.inj hresult
    obtain ⟨bytes, hlength, hbytes, -⟩ := bytesOf_readKindAndCheck hread
    exact ⟨bytes, hlength, hbytes⟩
  | cut _ _ _ hpayload =>
    obtain ⟨herror, rfl⟩ := Prod.mk.inj hresult
    rw [Except.error.inj herror] at hpayload
    exact absurd hpayload readExactly_ne_log
  | last => cases hresult
  | part hread _ hpayload _ ih =>
    obtain ⟨hheader, -⟩ := announced_part hread
    obtain ⟨hlength, hbytes⟩ := bytesOf_readExactly hpayload
    obtain ⟨bytes, hfive, hmore⟩ := ih hresult
    refine ⟨bytes, hfive, ?_⟩
    rw [hheader, hbytes, hmore, partsOf_cons, frame_singleton, hlength]
    simp only [List.append_assoc]

/-- What is held at a time is a message within its limit or a single data chunk. -/
theorem Course.size_le (h : Course limit duration collected slices parts held result) :
    ∀ size ∈ held, size ≤ max (wholeOf limit) (offsetBytes + maxDataChunk) := by
  induction h with
  | halted | overfull => exact fun _ h ↦ absurd h List.not_mem_nil
  | @data collected _ _ length hread =>
    obtain ⟨bytes, -, -, hannounces⟩ := announced hread
    cases hannounces with
    | data _ hstart hchunk =>
      obtain rfl : collected = [] := by
        rw [Bool.not_eq_false', List.isEmpty_iff] at hstart
        exact hstart
      intro size hsize
      obtain rfl := List.mem_singleton.mp hsize
      rw [List.length_nil, Nat.zero_add]
      exact le_max_of_le_right (Nat.add_le_add_left hchunk _)
  | cut _ _ hfits _ =>
    intro size hsize
    obtain rfl := List.mem_singleton.mp hsize
    exact le_max_of_le_left hfits
  | last _ hfits _ =>
    intro size hsize
    obtain rfl := List.mem_singleton.mp hsize
    exact le_max_of_le_left hfits
  | part _ hfits _ _ ih => exact List.forall_mem_cons.mpr ⟨le_max_of_le_left hfits, ih⟩

end Consumption

section Bounds

variable {limit : Limit} {duration n length : ℕ} {midMessage : Bool}
  {collected : List UInt8} {slices slices' rest more : List Slice} {header : Header}
  {parts : List (List UInt8)} {held : List ℕ} {result : Except ReadError Inbox × List Slice}

/-- The most bytes that are read off the line where no part is empty. -/
def boundOf (limit : Limit) (collected : List UInt8) : ℕ :=
  6 * (wholeOf limit - collected.length) + (5 + offsetBytes + maxDataChunk)

/-- No more than so many bytes are read. -/
def Within (bound : ℕ) (slices rest : List Slice) : Prop :=
  (bytesOf slices).length ≤ (bytesOf rest).length + bound

theorem within_of_consumed {bound : ℕ} {x : List UInt8} (hx : x.length ≤ bound)
    (h : bytesOf slices = x ++ bytesOf rest) : Within bound slices rest := by
  rw [Within, h, List.length_append]
  omega

theorem Within.trans {a b bound : ℕ} (h : Within a slices slices') (h' : Within b slices' rest)
    (hsum : a + b ≤ bound) : Within bound slices rest := by
  rw [Within] at *
  omega

theorem Within.mono {a bound : ℕ} (h : Within a slices rest) (hle : a ≤ bound) :
    Within bound slices rest := by
  rw [Within] at *
  omega

theorem within_readExactly (duration n : ℕ) (slices : List Slice) :
    Within n slices (readExactly duration n slices).2 := by
  obtain ⟨x, hx, hbytes⟩ := consumed_readExactly duration n slices
  exact within_of_consumed hx hbytes

theorem within_readKindAndCheck (limit : Limit) (duration : ℕ) (midMessage : Bool)
    (slices : List Slice) : Within 5 slices (readKindAndCheck limit duration midMessage slices).2 := by
  obtain ⟨x, hx, hbytes⟩ := consumed_readKindAndCheck limit duration midMessage slices
  exact within_of_consumed hx hbytes

theorem within_readData (duration length : ℕ) (slices : List Slice) :
    Within (offsetBytes + length) slices (readData duration length slices).2 := by
  have hoffset := within_readExactly duration offsetBytes slices
  rw [readData]
  split
  · rename_i hread
    rw [hread] at hoffset
    exact hoffset.mono (Nat.le_add_right _ _)
  · rename_i slices' hread
    rw [hread] at hoffset
    have hbytes := within_readExactly duration length slices'
    split
    · rename_i hbroken
      rw [hbroken] at hbytes
      exact hoffset.trans hbytes le_rfl
    · rename_i hpayload
      rw [hpayload] at hbytes
      exact hoffset.trans hbytes le_rfl

/-- Where no part is empty, every part brings the message nearer to its limit. -/
theorem Course.within (h : Course limit duration collected slices parts held result)
    (hparts : [] ∉ parts) : Within (boundOf limit collected) slices result.2 := by
  induction h with
  | @halted collected slices _ _ hread =>
    have hheader := within_readKindAndCheck limit duration (!collected.isEmpty) slices
    rw [hread] at hheader
    exact hheader.mono (by rw [boundOf]; omega)
  | @data collected slices slices' length hread =>
    obtain ⟨bytes, -, -, hannounces⟩ := announced hread
    have hheader := within_readKindAndCheck limit duration (!collected.isEmpty) slices
    rw [hread] at hheader
    have hdata := within_readData duration length slices'
    cases hannounces with
    | data _ _ hchunk => exact hheader.trans hdata (by rw [boundOf]; omega)
  | @overfull collected slices _ _ _ hread _ _ =>
    have hheader := within_readKindAndCheck limit duration (!collected.isEmpty) slices
    rw [hread] at hheader
    exact hheader.mono (by rw [boundOf]; omega)
  | @cut collected slices slices' _ _ length _ hread _ hfits hpayload =>
    have hheader := within_readKindAndCheck limit duration (!collected.isEmpty) slices
    have hrest := within_readExactly duration length slices'
    rw [hread] at hheader
    rw [hpayload] at hrest
    exact hheader.trans hrest (by rw [boundOf]; omega)
  | @last collected _ slices slices' _ length hread hfits hpayload =>
    have hheader := within_readKindAndCheck limit duration (!collected.isEmpty) slices
    have hrest := within_readExactly duration length slices'
    rw [hread] at hheader
    rw [hpayload] at hrest
    exact hheader.trans hrest (by rw [boundOf]; omega)
  | @part collected payload slices slices' _ length _ _ _ hread hfits hpayload _ ih =>
    obtain ⟨hfirst, hothers⟩ := not_or.mp (mt List.mem_cons.mpr hparts)
    have hlength := (bytesOf_readExactly hpayload).1
    have hpos : 0 < payload.length := List.length_pos_iff.mpr (Ne.symm hfirst)
    have hheader := within_readKindAndCheck limit duration (!collected.isEmpty) slices
    have hrest := within_readExactly duration length slices'
    rw [hread] at hheader
    rw [hpayload] at hrest
    refine (hheader.trans hrest (Nat.le_refl (5 + length))).trans (ih hothers) ?_
    rw [boundOf, boundOf, List.length_append]
    omega

/-- More that comes later changes nothing of a reading that has not run out of line. -/
theorem readExactly_append (h : (readExactly duration n slices).2 ≠ [] ∨
    ∃ bytes, (readExactly duration n slices).1 = .ok bytes) (more : List Slice) :
    readExactly duration n (slices ++ more) =
      ((readExactly duration n slices).1, (readExactly duration n slices).2 ++ more) := by
  induction slices generalizing n with
  | nil =>
    cases n with
    | zero => cases more <;> rfl
    | succ n =>
      rcases h with h | ⟨bytes, h⟩
      · exact absurd rfl h
      · cases h
  | cons slice slices ih =>
    rw [List.cons_append]
    cases n with
    | zero => rfl
    | succ n =>
      cases slice with
      | bytes b expired =>
        rw [readExactly, readExactly]
        rw [readExactly] at h
        split
        · rfl
        · rename_i hsome
          rw [if_neg hsome] at h
          split
          · rw [remainder, remainder]
            split
            · rfl
            · rfl
          · rename_i hshort
            rw [if_neg hshort] at h
            split
            · rfl
            · rename_i htime
              rw [if_neg htime] at h
              cases hread : readExactly duration (n + 1 - b.length) slices with
              | mk got slices' =>
                rw [hread] at h
                have hih := @ih (n + 1 - b.length)
                rw [hread] at hih
                cases got with
                | error error =>
                  rcases h with h | ⟨bytes, h⟩
                  · rw [hih (.inl h)]
                  · cases h
                | ok bytes => rw [hih (.inr ⟨bytes, rfl⟩)]
      | interrupted => exact ih h
      | timedOut cancelled expired =>
        rw [readExactly, readExactly]
        rw [readExactly] at h
        split
        · rfl
        · rename_i hon
          rw [if_neg hon] at h
          split
          · rfl
          · rename_i htime
            rw [if_neg htime] at h
            exact ih h
      | failed reason => rfl

theorem readExactly_append_ok {bytes : List UInt8}
    (h : readExactly duration n slices = (.ok bytes, slices')) (more : List Slice) :
    readExactly duration n (slices ++ more) = (.ok bytes, slices' ++ more) := by
  have happend := readExactly_append (.inr ⟨bytes, congrArg Prod.fst h⟩) more
  rwa [h] at happend

theorem readExactly_append_error {error : ReadError}
    (h : readExactly duration n slices = (.error error, slices')) (hrest : slices' ≠ [])
    (more : List Slice) :
    readExactly duration n (slices ++ more) = (.error error, slices' ++ more) := by
  have hne : (readExactly duration n slices).2 ≠ [] := by
    rw [h]
    exact hrest
  have happend := readExactly_append (.inl hne) more
  rwa [h] at happend

theorem readKindAndCheck_append {checked : Except ReadError Header}
    (h : readKindAndCheck limit duration midMessage slices = (checked, slices'))
    (hrest : slices' ≠ [] ∨ ∃ header, checked = .ok header) (more : List Slice) :
    readKindAndCheck limit duration midMessage (slices ++ more) = (checked, slices' ++ more) := by
  rw [readKindAndCheck] at h
  split at h
  · rename_i hbroken
    obtain ⟨rfl, rfl⟩ := Prod.mk.inj h
    rcases hrest with hrest | ⟨header, hok⟩
    · rw [readKindAndCheck, readExactly_append_error hbroken hrest]
    · cases hok
  · rename_i hheader
    obtain ⟨rfl, rfl⟩ := Prod.mk.inj h
    rw [readKindAndCheck, readExactly_append_ok hheader]

theorem readData_append (hrest : (readData duration length slices).2 ≠ []) (more : List Slice) :
    readData duration length (slices ++ more) =
      ((readData duration length slices).1, (readData duration length slices).2 ++ more) := by
  rw [readData] at hrest ⊢
  rw [readData]
  split at hrest
  · rename_i hbroken
    rw [readExactly_append_error hbroken hrest]
  · rename_i hoffset
    rw [readExactly_append_ok hoffset]
    dsimp only
    split at hrest
    · rename_i hbroken
      rw [readExactly_append_error hbroken hrest]
    · rename_i hbytes
      rw [readExactly_append_ok hbytes]

theorem Course.append (h : Course limit duration collected slices parts held result)
    (hrest : result.2 ≠ []) (more : List Slice) :
    Course limit duration collected (slices ++ more) parts held (result.1, result.2 ++ more) := by
  induction h with
  | halted hread => exact .halted (readKindAndCheck_append hread (.inl hrest) more)
  | data hread =>
    have hdata := Course.data (readKindAndCheck_append hread (.inr ⟨_, rfl⟩) more)
    rwa [readData_append hrest] at hdata
  | overfull hread htext hover =>
    exact .overfull (readKindAndCheck_append hread (.inr ⟨_, rfl⟩) more) htext hover
  | cut hread htext hfits hpayload =>
    exact .cut (readKindAndCheck_append hread (.inr ⟨_, rfl⟩) more) htext hfits
      (readExactly_append_error hpayload hrest more)
  | last hread hfits hpayload =>
    exact .last (readKindAndCheck_append hread (.inr ⟨_, rfl⟩) more) hfits
      (readExactly_append_ok hpayload more)
  | part hread hfits hpayload _ ih =>
    exact .part (readKindAndCheck_append hread (.inr ⟨_, rfl⟩) more) hfits
      (readExactly_append_ok hpayload more) (ih hrest)

end Bounds

section Reading

variable {limit : Limit} {duration length : ℕ} {collected last y : List UInt8}
  {slices slices' rest : List Slice} {parts : List (List UInt8)} {held : List ℕ}
  {result : Except ReadError Inbox × List Slice} {inbox : Inbox}

/-- What a reading has read that came to something: parts and a last frame, or a data chunk, where
nothing but empty parts may stand in front of it. -/
inductive Comes (limit : Limit) (collected : List UInt8) (parts : List (List UInt8)) :
    List UInt8 → Inbox → Prop
  | json (last : List UInt8) : Payload limit last →
      (collected ++ parts.flatten ++ last).length ≤ wholeOf limit →
      Comes limit collected parts (partsOf parts ++ frame kindJson [last])
        (.json (collected ++ parts.flatten ++ last))
  | data (offset : UInt64) (bytes : List UInt8) : limit.data = true →
      bytes.length ≤ maxDataChunk → collected ++ parts.flatten = [] →
      Comes limit collected parts
        (partsOf parts ++ frame kindData [toBytes 8 offset.toNat, bytes]) (.data offset bytes)

theorem frame_data (offset bytes : List UInt8) :
    frame kindData [offset, bytes] = headerOf kindData (offset.length + bytes.length) ++
      (offset ++ bytes) := by
  rw [frame_eq, List.flatten_cons, List.flatten_singleton, List.length_append]

theorem readData_eq_ok (h : readData duration length slices = (.ok inbox, slices')) :
    ∃ offset bytes, inbox = .data offset bytes ∧ bytes.length = length ∧
      bytesOf slices = toBytes 8 offset.toNat ++ bytes ++ bytesOf slices' := by
  rw [readData] at h
  split at h
  · cases h
  · rename_i first _ hoffset
    split at h
    · cases h
    · rename_i bytes _ hbytes
      obtain ⟨hinbox, rfl⟩ := Prod.mk.inj h
      obtain ⟨height, hfirst⟩ := bytesOf_readExactly hoffset
      obtain ⟨hlength, hsecond⟩ := bytesOf_readExactly hbytes
      have hlt := ofBytes_lt first
      have hsame : (UInt64.ofNat (ofBytes first)).toNat = ofBytes first := by
        rw [UInt64.toNat_ofNat']
        rw [height, offsetBytes] at hlt
        exact Nat.mod_eq_of_lt (Nat.lt_of_lt_of_eq hlt (by decide))
      have hback := toBytes_ofBytes first
      rw [height, offsetBytes] at hback
      refine ⟨_, bytes, (Except.ok.inj hinbox).symm, hlength, ?_⟩
      rw [hsame, hback, hfirst, hsecond, List.append_assoc]

theorem Course.comes (h : Course limit duration collected slices parts held result)
    (hresult : result = (.ok inbox, rest)) :
    (∀ p ∈ parts, Part limit p) ∧
      ∃ word, bytesOf slices = word ++ bytesOf rest ∧ Comes limit collected parts word inbox := by
  induction h with
  | halted | overfull | cut => cases hresult
  | @data collected _ _ _ hread =>
    obtain ⟨header, hbytes, -, hannounces⟩ := announced hread
    obtain ⟨offset, bytes, rfl, hlength, hdata⟩ := readData_eq_ok hresult
    cases hannounces with
    | data hallowed hstart hchunk =>
      rw [Bool.not_eq_false', List.isEmpty_iff] at hstart
      have hcollected : collected ++ ([] : List (List UInt8)).flatten = [] := by
        rw [hstart]
        rfl
      refine ⟨fun _ h ↦ absurd h List.not_mem_nil, _, ?_,
        .data offset bytes hallowed (hlength ▸ hchunk) hcollected⟩
      rw [hbytes, hdata, frame_data, length_toBytes, hlength, partsOf, List.flatMap_nil,
        List.nil_append, List.append_assoc (headerOf _ _)]
  | @last collected payload _ _ _ _ hread hfits hpayload =>
    obtain ⟨header, hbytes, -, hannounces⟩ := announced hread
    obtain ⟨hlength, hrest⟩ := bytesOf_readExactly hpayload
    obtain ⟨hinbox, rfl⟩ := Prod.mk.inj hresult
    obtain rfl := Except.ok.inj hinbox
    cases hannounces with
    | json hle hsmall =>
      have hsize : (collected ++ ([] : List (List UInt8)).flatten ++ payload).length ≤
          wholeOf limit := by
        rw [List.flatten_nil, List.append_nil, List.length_append, hlength]
        exact hfits
      have hcomes := @Comes.json limit collected [] payload ⟨hlength ▸ hle, hlength ▸ hsmall⟩ hsize
      rw [List.flatten_nil, List.append_nil] at hcomes
      refine ⟨fun _ h ↦ absurd h List.not_mem_nil, _, ?_, hcomes⟩
      rw [hbytes, hrest, frame_singleton, hlength, partsOf, List.flatMap_nil, List.nil_append,
        List.append_assoc]
  | @part collected payload _ _ _ _ parts _ _ hread hfits hpayload _ ih =>
    obtain ⟨hheader, hmessage, hle, hsmall⟩ := announced_part hread
    obtain ⟨hlength, hrest⟩ := bytesOf_readExactly hpayload
    obtain ⟨hparts, word, hword, hcomes⟩ := ih hresult
    have hpart : Part limit payload := ⟨hmessage, hlength ▸ hle, hlength ▸ hsmall⟩
    have hjoined : collected ++ payload ++ parts.flatten =
        collected ++ (payload :: parts).flatten := by
      rw [List.flatten_cons, List.append_assoc]
    refine ⟨List.forall_mem_cons.mpr ⟨hpart, hparts⟩, frame kindPart [payload] ++ word, ?_, ?_⟩
    · rw [hheader, hrest, hword, frame_singleton, hlength]
      simp only [List.append_assoc]
    · cases hcomes with
      | json last hlast hsize =>
        rw [hjoined] at hsize ⊢
        rw [← List.append_assoc, ← partsOf_cons]
        exact .json last hlast hsize
      | data offset bytes hallowed hchunk hnone =>
        rw [hjoined] at hnone
        rw [← List.append_assoc, ← partsOf_cons]
        exact .data offset bytes hallowed hchunk hnone

/-- Without empty parts, what comes is a word of the grammar. -/
theorem Comes.accepts {word : List UInt8} (h : Comes limit [] parts word inbox)
    (hparts : ∀ p ∈ parts, Part limit p) (hsome : [] ∉ parts) : Accepts limit word inbox := by
  cases h with
  | json last hlast hsize => exact .json parts last hparts hlast hsize
  | data offset bytes hallowed hchunk hnone =>
    obtain rfl : parts = [] := by
      cases parts with
      | nil => rfl
      | cons p parts =>
        rw [List.nil_append, List.flatten_cons] at hnone
        obtain ⟨rfl, -⟩ := List.append_eq_nil_iff.mp hnone
        exact absurd List.mem_cons_self hsome
    exact .data offset bytes hallowed hchunk

/-- A word of the grammar arrives, however it is cut and delayed. -/
theorem arrives_words (hparts : ∀ p ∈ parts, Part limit p) (hlast : Payload limit last)
    (hsize : (collected ++ parts.flatten ++ last).length ≤ wholeOf limit)
    (hp : bytesOf slices <+: partsOf parts ++ frame kindJson [last] ++ y) :
    Arrives slices (partsOf parts ++ frame kindJson [last])
      (.json (collected ++ parts.flatten ++ last))
      (readInboxFrom limit duration collected slices) := by
  induction parts generalizing collected slices with
  | nil =>
    rw [List.flatten_nil, List.append_nil] at hsize ⊢
    rw [List.length_append] at hsize
    exact arrives_last hlast.1 hlast.2 hsize hp
  | cons p parts ih =>
    obtain ⟨⟨hmessage, hle, hsmall⟩, hothers⟩ := List.forall_mem_cons.mp hparts
    have hjoined : collected ++ (p :: parts).flatten = collected ++ p ++ parts.flatten := by
      rw [List.flatten_cons, List.append_assoc]
    rw [hjoined] at hsize ⊢
    have hfits : collected.length + p.length ≤ wholeOf limit := by
      rw [List.length_append, List.length_append, List.length_append] at hsize
      omega
    rw [partsOf_cons, frame_singleton, List.append_assoc, List.append_assoc,
      List.append_assoc] at hp
    rw [partsOf_cons, frame_singleton, List.append_assoc, List.append_assoc]
    have hheader : Arrives slices (headerOf kindPart p.length) (.part p.length)
        (readKindAndCheck limit duration (!collected.isEmpty) slices) :=
      arrives_header hp (checkHeader_part hle hmessage hsmall)
    obtain ⟨slices', hr, hb, hq⟩ | ⟨error, slices', hr, hshort⟩ := hheader.result
    · rw [readInboxFrom_part hr]
      refine Arrives.of_rest hb hq ?_
      have hp' := prefix_of_read hp hb
      have hpart : Arrives slices' p (collected ++ p)
          (readPart limit duration p.length collected slices') := arrives_part hp' hfits
      obtain ⟨slices'', hr', hb', hq'⟩ | ⟨error, slices'', hr', hshort'⟩ := hpart.result
      · rw [hr']
        have hp'' := prefix_of_read hp' hb'
        rw [← List.append_assoc] at hp''
        exact Arrives.of_rest hb' hq' (ih hothers hsize hp'')
      · rw [hr']
        exact Arrives.error_of_short hshort'
    · rw [readInboxFrom_error hr]
      exact Arrives.error_of_short hshort

theorem arrives_chunk {offset : UInt64} {bytes : List UInt8} (hallowed : limit.data = true)
    (hchunk : bytes.length ≤ maxDataChunk)
    (hp : bytesOf slices <+: frame kindData [toBytes 8 offset.toNat, bytes] ++ y) :
    Arrives slices (frame kindData [toBytes 8 offset.toNat, bytes]) (.data offset bytes)
      (readInbox limit duration slices) := by
  rw [frame_data, length_toBytes] at hp ⊢
  have hp' := hp
  rw [List.append_assoc] at hp'
  have hheader : Arrives slices (headerOf kindData (8 + bytes.length)) (.data bytes.length)
      (readKindAndCheck limit duration (!([] : List UInt8).isEmpty) slices) :=
    arrives_header hp' (checkHeader_data hallowed hchunk)
  obtain ⟨slices', hr, hb, hq⟩ | ⟨error, slices', hr, hshort⟩ := hheader.result
  · rw [readInbox, readInboxFrom_data hr]
    exact Arrives.of_rest hb hq (arrives_data (prefix_of_read hp' hb))
  · rw [readInbox, readInboxFrom_error hr]
    exact Arrives.error_of_short hshort

theorem arrives_accepted {word : List UInt8} (h : Accepts limit word inbox)
    (hp : bytesOf slices <+: word ++ y) :
    Arrives slices word inbox (readInbox limit duration slices) := by
  cases h with
  | json parts last hparts hlast hsize =>
    exact @arrives_words limit duration [] last y slices parts hparts hlast hsize hp
  | data offset bytes hallowed hchunk => exact arrives_chunk hallowed hchunk hp

end Reading

section Bounded

variable {limit : Limit} {duration : ℕ} {slices rest : List Slice} {inbox : Inbox}

/-- What an endless line has at first. -/
def firstOf (line : ℕ → Slice) (n : ℕ) : List Slice := (List.range n).map line

/-- A line on which bytes keep coming. -/
def Endless (line : ℕ → Slice) : Prop := ∀ k, ∃ n, k ≤ (bytesOf (firstOf line n)).length

/-- Reading from the line returns, whatever comes after some of it. -/
def Returns (limit : Limit) (duration : ℕ) (line : ℕ → Slice) : Prop :=
  ∃ n result rest, ∀ more,
    readInbox limit duration (firstOf line n ++ more) = (result, rest ++ more)

/-- On the lines of some kind, reading accepts the words of the grammar and nothing else, judges
every frame by its header, holds no more than a message or a chunk, and ends after so many bytes as
only the limit decides. -/
structure Bounded (limit : Limit) (line : List Slice → Prop) : Prop where
  sound : ∀ duration slices inbox rest, line slices →
    readInbox limit duration slices = (.ok inbox, rest) →
      ∃ word, Accepts limit word inbox ∧ bytesOf slices = word ++ bytesOf rest
  complete : ∀ duration slices word inbox more, line slices → Quiet slices →
    Accepts limit word inbox → bytesOf slices = word ++ more →
      ∃ rest, readInbox limit duration slices = (.ok inbox, rest) ∧ bytesOf rest = more
  refused : ∀ duration slices text rest, line slices →
    readInbox limit duration slices = (.error (.log text), rest) →
      ∃ parts header, header.length = 5 ∧
        bytesOf slices = partsOf parts ++ header ++ bytesOf rest
  holds : ∀ duration slices, line slices →
    ∃ parts held, Course limit duration [] slices parts held (readInbox limit duration slices) ∧
      ∀ size ∈ held, size ≤ max (wholeOf limit) (offsetBytes + maxDataChunk)
  bounded : ∃ bound, ∀ duration slices, line slices →
    Within bound slices (readInbox limit duration slices).2
  returns : ∀ duration endless, (∀ n, line (firstOf endless n)) → Endless endless →
    Returns limit duration endless

/-- No part on the line is empty. -/
def NoEmptyPart (slices : List Slice) : Prop := ¬ EmptyPart (bytesOf slices)

theorem Course.not_mem {collected : List UInt8} {parts : List (List UInt8)} {held : List ℕ}
    {result : Except ReadError Inbox × List Slice}
    (h : Course limit duration collected slices parts held result) (hslices : NoEmptyPart slices) :
    [] ∉ parts := by
  intro hm
  obtain ⟨before, after, rfl⟩ := List.append_of_mem hm
  obtain ⟨more, hmore⟩ := h.prefix
  refine hslices ⟨before, partsOf after ++ more, ?_⟩
  rw [hmore, partsOf_append, partsOf_cons]
  simp only [List.append_assoc]

theorem not_mem_of_message {parts : List (List UInt8)} (hmessage : limit.message = 0)
    (hparts : ∀ p ∈ parts, Part limit p) : [] ∉ parts :=
  fun hm ↦ (hparts [] hm).1 hmessage

theorem Course.parts {collected : List UInt8} {parts : List (List UInt8)} {held : List ℕ}
    {result : Except ReadError Inbox × List Slice}
    (h : Course limit duration collected slices parts held result) : ∀ p ∈ parts, Part limit p := by
  induction h with
  | halted | data | overfull | cut | last => exact fun _ h ↦ absurd h List.not_mem_nil
  | part hread _ hpayload _ ih =>
    obtain ⟨-, hmessage, hle, hsmall⟩ := announced_part hread
    obtain ⟨hlength, -⟩ := bytesOf_readExactly hpayload
    exact List.forall_mem_cons.mpr ⟨⟨hmessage, hlength ▸ hle, hlength ▸ hsmall⟩, ih⟩

/-- Where the parts that are read are never empty, a line is read as it should be. -/
theorem bounded_of_parts {line : List Slice → Prop}
    (hline : ∀ {duration slices parts held result}, line slices →
      Course limit duration [] slices parts held result → [] ∉ parts) : Bounded limit line := by
  have hbounded : ∀ duration slices, line slices →
      Within (boundOf limit []) slices (readInbox limit duration slices).2 := by
    intro duration slices hslices
    obtain ⟨parts, held, hcourse⟩ := course_readInboxFrom limit duration [] slices
    exact hcourse.within (hline hslices hcourse)
  constructor
  · intro duration slices inbox rest hslices h
    obtain ⟨parts, held, hcourse⟩ := course_readInboxFrom limit duration [] slices
    obtain ⟨hparts, word, hword, hcomes⟩ := hcourse.comes h
    exact ⟨word, hcomes.accepts hparts (hline hslices hcourse), hword⟩
  · intro duration slices word inbox more _ hquiet haccepts hbytes
    have harrives : Arrives slices word inbox (readInbox limit duration slices) :=
      arrives_accepted haccepts ⟨[], by rw [List.append_nil, hbytes]⟩
    obtain ⟨rest, hr, hb, -⟩ | ⟨error, rest, hr, hshort⟩ := harrives.result
    · exact ⟨rest, hr, List.append_cancel_left (hb.symm.trans hbytes)⟩
    · have hlength := hshort hquiet
      rw [hbytes, List.length_append] at hlength
      omega
  · intro duration slices text rest _ h
    obtain ⟨parts, held, hcourse⟩ := course_readInboxFrom limit duration [] slices
    obtain ⟨header, hfive, hbytes⟩ := hcourse.refused h
    exact ⟨parts, header, hfive, hbytes⟩
  · intro duration slices _
    obtain ⟨parts, held, hcourse⟩ := course_readInboxFrom limit duration [] slices
    exact ⟨parts, held, hcourse, hcourse.size_le⟩
  · exact ⟨_, hbounded⟩
  · intro duration endless hall hendless
    obtain ⟨n, hn⟩ := hendless (boundOf limit [] + 1)
    have hwithin := hbounded duration _ (hall n)
    have hrest : (readInbox limit duration (firstOf endless n)).2 ≠ [] := by
      intro hnone
      rw [Within, hnone] at hwithin
      have hzero : (bytesOf []).length = 0 := rfl
      omega
    obtain ⟨parts, held, hcourse⟩ := course_readInboxFrom limit duration [] (firstOf endless n)
    exact ⟨n, _, _, fun more ↦ (hcourse.append hrest more).eq⟩

/-- Empty parts, one after the other. -/
def emptyParts (n : ℕ) : List Slice := List.replicate n (.bytes (headerOf kindPart 0) false)

theorem length_emptyParts (n : ℕ) : (bytesOf (emptyParts n)).length = 5 * n := by
  induction n with
  | zero => rfl
  | succ n ih =>
    rw [emptyParts, List.replicate_succ, bytesOf, List.length_append, length_headerOf]
    rw [emptyParts] at ih
    omega

theorem header_emptyPart (slices : List Slice) : readExactly duration 5
    (.bytes (headerOf kindPart 0) false :: slices) = (.ok (headerOf kindPart 0), slices) := by
  rfl

/-- Empty parts are read as if they had not come, and a data chunk is taken behind them. -/
theorem readInbox_emptyParts (hmessage : limit.message ≠ 0) (n : ℕ) (slices : List Slice) :
    readInbox limit duration (emptyParts n ++ slices) = readInbox limit duration slices := by
  induction n with
  | zero => rfl
  | succ n ih =>
    have hread : readKindAndCheck limit duration (!([] : List UInt8).isEmpty)
        (emptyParts (n + 1) ++ slices) = (.ok (.part 0), emptyParts n ++ slices) := by
      rw [emptyParts, List.replicate_succ, List.cons_append, readKindAndCheck, header_emptyPart]
      dsimp only
      rw [checkHeader_part (Nat.zero_le _) hmessage (by decide)]
      rfl
    have hpayload : readExactly duration 0 (emptyParts n ++ slices) =
        (.ok [], emptyParts n ++ slices) := by
      cases emptyParts n ++ slices <;> rfl
    have hpart := @readPart_ok limit duration [] _ _ 0 [] (Nat.zero_le _) hpayload
    rw [readInbox, readInboxFrom_part hread, hpart]
    exact ih

/-- Where parts are allowed, no bound on the bytes read holds for every line. -/
theorem unbounded (hmessage : limit.message ≠ 0) (bound : ℕ) :
    ¬ Within bound (emptyParts (bound + 1)) (readInbox limit duration (emptyParts (bound + 1))).2 := by
  have hread := @readInbox_emptyParts limit duration hmessage (bound + 1) []
  have hnothing : readInbox limit duration [] = (.error .closed, []) := readInboxFrom_error rfl
  have hzero : (bytesOf []).length = 0 := rfl
  rw [List.append_nil] at hread
  rw [hread, hnothing, Within, length_emptyParts, hzero]
  omega

end Bounded

/-- On every line exactly where the limit forbids parts, and else on every line without empty parts. -/
theorem grammar_and_bounds (limit : Limit) :
    (Bounded limit (fun _ ↦ True) ↔ limit.message = 0) ∧ Bounded limit NoEmptyPart := by
  refine ⟨⟨fun h ↦ ?_, fun hmessage ↦ ?_⟩, ?_⟩
  · obtain ⟨bound, hbound⟩ := h.bounded
    by_contra hmessage
    exact unbounded hmessage bound (hbound 0 _ trivial)
  · exact bounded_of_parts fun _ hcourse ↦ not_mem_of_message hmessage hcourse.parts
  · exact bounded_of_parts fun hslices hcourse ↦ hcourse.not_mem hslices

/-- A line of empty parts is read for as long as they come. -/
theorem not_bounded : ¬ ∀ limit, Bounded limit (fun _ ↦ True) := by
  intro h
  obtain ⟨bound, hbound⟩ := (h .content).bounded
  exact unbounded (by decide) bound (hbound 0 _ trivial)

end FolderClient.Bridge.Grammar
