import Mathlib.Algebra.Group.Int.Defs
import Mathlib.Algebra.GroupWithZero.Nat
import Mathlib.Data.List.Basic
import Mathlib.Data.Nat.Basic
import Mathlib.Order.Lattice

namespace FolderClient.Cfapi.Blocks

section Model

/-- The alignment the offsets and lengths have to keep. -/
def alignment : ℕ := 4096

def chunkSize : ℕ := 2 ^ 20

/-- Why a chunk was not accepted. -/
inductive BlockError
  | gap (expected got : ℕ)
  | overEnd («until» total : ℕ)
  | incomplete (delivered total : ℕ)
  | handOff (error : String)
deriving DecidableEq

/-- Collects written bytes and passes them on in permitted chunks. -/
structure BlockBuffer where
  total : ℕ
  received : ℕ
  sent : ℕ
  buffer : List UInt8
  chunk : ℕ
  completed : Bool
  chunk_pos : 0 < chunk
  aligned : alignment ∣ chunk

/-- The chunk size rounded up to the alignment; `none` says that the product exceeds 64 bits. -/
def roundedUp (chunk : UInt64) : Option ℕ :=
  let rounded := (max chunk.toNat 1 + (alignment - 1)) / alignment * alignment
  if rounded < 2 ^ 64 then some rounded else none

theorem roundedUp_eq_some {chunk : UInt64} {rounded : ℕ} (h : roundedUp chunk = some rounded) :
    0 < rounded ∧ alignment ∣ rounded := by
  rw [roundedUp] at h
  split at h
  · obtain rfl := Option.some.inj h
    refine ⟨Nat.mul_pos (Nat.div_pos ?_ (by decide)) (by decide), Nat.dvd_mul_left _ _⟩
    have hone : 1 ≤ max chunk.toNat 1 := le_max_right _ _
    have halignment : alignment = 4096 := rfl
    omega
  · cases h

/-- The bytes handed on, with their offsets. -/
abbrev Outputs := List (ℕ × List UInt8)

/-- What the caller's function makes of an output, after those the same call has made before. -/
abbrev Output := Outputs → Option String

/-- What a call leaves: the buffer, what has been handed on, the result. -/
structure Called (α : Type) where
  buffer : BlockBuffer
  delivered : Outputs
  result : Except BlockError α

namespace BlockBuffer

def withChunkSize (total : UInt64) (chunk : UInt64) : Option BlockBuffer :=
  match h : roundedUp chunk with
  | none => none
  | some rounded => some ⟨total.toNat, 0, 0, [], rounded, false, (roundedUp_eq_some h).1,
      (roundedUp_eq_some h).2⟩

def new (total : UInt64) : BlockBuffer :=
  ⟨total.toNat, 0, 0, [], chunkSize, false, by decide, by decide⟩

/-- Passes whole chunks on without copying; the bytes that are left over, or the error. -/
def passOn (output : Output) (b : BlockBuffer) (delivered : Outputs) (rest : List UInt8) :
    BlockBuffer × Outputs × Except String (List UInt8) :=
  if b.chunk ≤ rest.length then
    let tried := delivered ++ [(b.sent, rest.take b.chunk)]
    match output tried with
    | some error => (b, delivered, .error error)
    | none => passOn output { b with sent := b.sent + b.chunk } tried (rest.drop b.chunk)
  else (b, delivered, .ok rest)
termination_by rest.length
decreasing_by
  have hpos := b.chunk_pos
  rw [List.length_drop]
  omega

/-- What follows once the buffer is empty or the data used up. -/
def takeRest (output : Output) (b : BlockBuffer) (delivered : Outputs) (rest : List UInt8) :
    Called Unit :=
  match b.passOn output delivered rest with
  | (b, delivered, .error error) => ⟨b, delivered, .error (.handOff error)⟩
  | (b, delivered, .ok rest) => ⟨{ b with buffer := b.buffer ++ rest }, delivered, .ok ()⟩

/-- Accepts data from the source and passes on whatever is aligned and ready. -/
def take (output : Output) (b : BlockBuffer) (offset : ℕ) (data : List UInt8) : Called Unit :=
  if offset ≠ b.received then ⟨b, [], .error (.gap b.received offset)⟩
  else if 2 ^ 64 ≤ offset + data.length then ⟨b, [], .error (.overEnd (2 ^ 64 - 1) b.total)⟩
  else if b.total < offset + data.length then
    ⟨b, [], .error (.overEnd (offset + data.length) b.total)⟩
  else
    let b := { b with received := offset + data.length }
    if b.buffer = [] then b.takeRest output [] data
    else
      let missing := b.chunk - b.buffer.length
      let b := { b with buffer := b.buffer ++ data.take missing }
      let rest := data.drop missing
      if b.buffer.length = b.chunk then
        match output [(b.sent, b.buffer)] with
        | some error => ⟨b, [], .error (.handOff error)⟩
        | none =>
          { b with sent := b.sent + b.chunk, buffer := [] }.takeRest output [(b.sent, b.buffer)]
            rest
      else b.takeRest output [] rest

/-- Passes on the remainder and establishes that everything has arrived. -/
def complete (output : Output) (b : BlockBuffer) : Called ℕ :=
  if b.received ≠ b.total then ⟨b, [], .error (.incomplete b.received b.total)⟩
  else if !b.completed ∧ (b.buffer ≠ [] ∨ b.total = 0) then
    match output [(b.sent, b.buffer)] with
    | some error => ⟨b, [], .error (.handOff error)⟩
    | none =>
      ⟨{ b with sent := b.sent + b.buffer.length, buffer := [], completed := true },
        [(b.sent, b.buffer)], .ok b.total⟩
  else ⟨{ b with completed := true }, [], .ok b.total⟩

end BlockBuffer

end Model

section Outputs

/-- Outputs that follow one another from the beginning up to a place, every length a multiple of the
alignment. -/
inductive Aligned : Outputs → ℕ → Prop
  | nil : Aligned [] 0
  | snoc {outputs place} {data : List UInt8} : Aligned outputs place → alignment ∣ data.length →
      Aligned (outputs ++ [(place, data)]) (place + data.length)

/-- Outputs that follow one another from the beginning to the end of the file, every offset and
every length a multiple of the alignment, but for the last length. -/
def Gapless (total : ℕ) (outputs : Outputs) : Prop :=
  Aligned outputs total ∨ ∃ before place data, outputs = before ++ [(place, data)] ∧
    Aligned before place ∧ place + data.length = total

/-- The bytes of the outputs. -/
def bytes (outputs : Outputs) : List UInt8 := outputs.flatMap Prod.snd

theorem bytes_append (a b : Outputs) : bytes (a ++ b) = bytes a ++ bytes b :=
  List.flatMap_append

theorem bytes_singleton (place : ℕ) (data : List UInt8) : bytes [(place, data)] = data :=
  List.flatMap_singleton _ _

theorem bytes_cons (place : ℕ) (data : List UInt8) (outputs : Outputs) :
    bytes ((place, data) :: outputs) = data ++ bytes outputs :=
  List.flatMap_cons

variable {outputs : Outputs} {place : ℕ}

theorem Aligned.dvd (h : Aligned outputs place) : alignment ∣ place := by
  induction h with
  | nil => exact Nat.dvd_zero _
  | snoc _ hdata ih => exact Nat.dvd_add ih hdata

theorem Aligned.length_bytes (h : Aligned outputs place) : (bytes outputs).length = place := by
  induction h with
  | nil => rfl
  | snoc _ _ ih => rw [bytes_append, bytes_singleton, List.length_append, ih]

theorem Aligned.offsets (h : Aligned outputs place) :
    ∀ p ∈ outputs, alignment ∣ p.1 ∧ alignment ∣ p.2.length := by
  induction h with
  | nil => exact fun _ h ↦ absurd h List.not_mem_nil
  | snoc hbefore hdata ih =>
    intro p hp
    rcases List.mem_append.mp hp with hp | hp
    · exact ih p hp
    · rw [List.mem_singleton.mp hp]
      exact ⟨hbefore.dvd, hdata⟩

end Outputs

section Passing

variable {output : Output} {b : BlockBuffer} {delivered : Outputs} {rest : List UInt8}

/-- The whole chunks of the data, with the offsets they go to. -/
def chunksOf (chunk : ℕ) (hpos : 0 < chunk) (place : ℕ) (rest : List UInt8) : Outputs :=
  if chunk ≤ rest.length then
    (place, rest.take chunk) :: chunksOf chunk hpos (place + chunk) (rest.drop chunk)
  else []
termination_by rest.length
decreasing_by
  rw [List.length_drop]
  omega

variable {chunk place : ℕ} {hpos : 0 < chunk}

theorem chunksOf_short (h : rest.length < chunk) : chunksOf chunk hpos place rest = [] := by
  rw [chunksOf, if_neg (Nat.not_le.mpr h)]

theorem chunksOf_step (h : chunk ≤ rest.length) : chunksOf chunk hpos place rest =
    (place, rest.take chunk) :: chunksOf chunk hpos (place + chunk) (rest.drop chunk) := by
  rw [chunksOf, if_pos h]

/-- The whole chunks, passed on by the buffer from where it stands. -/
abbrev BlockBuffer.chunks (b : BlockBuffer) (rest : List UInt8) : Outputs :=
  chunksOf b.chunk b.chunk_pos b.sent rest

theorem passOn_short (h : rest.length < b.chunk) :
    b.passOn output delivered rest = (b, delivered, .ok rest) := by
  rw [BlockBuffer.passOn, if_neg (Nat.not_le.mpr h)]

theorem passOn_step (h : b.chunk ≤ rest.length)
    (hoks : output (delivered ++ [(b.sent, rest.take b.chunk)]) = none) :
    b.passOn output delivered rest = { b with sent := b.sent + b.chunk }.passOn output
      (delivered ++ [(b.sent, rest.take b.chunk)]) (rest.drop b.chunk) := by
  rw [BlockBuffer.passOn, if_pos h]
  dsimp only
  rw [hoks]

/-- No output fails, one after the other. -/
def Succeeds (output : Output) (before planned : Outputs) : Prop :=
  ∀ n < planned.length, output (before ++ planned.take (n + 1)) = none

theorem Succeeds.of_cons {first : ℕ × List UInt8} {planned : Outputs}
    (h : Succeeds output delivered (first :: planned)) : output (delivered ++ [first]) = none ∧
      Succeeds output (delivered ++ [first]) planned := by
  refine ⟨h 0 (Nat.succ_pos _), fun n hn ↦ ?_⟩
  rw [List.append_assoc]
  exact h (n + 1) (Nat.succ_lt_succ hn)

/-- The data is passed on chunk by chunk, and less than a chunk of it is left over. -/
theorem passOn_eq (b : BlockBuffer) (delivered : Outputs) (rest : List UInt8)
    (h : Succeeds output delivered (b.chunks rest)) :
    ∃ left, b.passOn output delivered rest =
        ({ b with sent := b.sent + (bytes (b.chunks rest)).length },
          delivered ++ b.chunks rest, .ok left) ∧
      bytes (b.chunks rest) ++ left = rest ∧ left.length < b.chunk := by
  by_cases hshort : rest.length < b.chunk
  · rw [BlockBuffer.chunks, chunksOf_short hshort, passOn_short hshort]
    refine ⟨rest, ?_, rfl, hshort⟩
    rw [List.append_nil]
    rfl
  · have hstep := Nat.not_lt.mp hshort
    rw [BlockBuffer.chunks, chunksOf_step hstep] at h ⊢
    obtain ⟨hfirst, hrest⟩ := h.of_cons
    obtain ⟨left, hpass, hjoined, hleft⟩ :=
      passOn_eq { b with sent := b.sent + b.chunk } _ (rest.drop b.chunk) hrest
    have hhead : (rest.take b.chunk).length = b.chunk := List.length_take_of_le hstep
    refine ⟨left, ?_, ?_, hleft⟩
    · rw [passOn_step hstep hfirst, hpass, bytes_cons, List.length_append, hhead, ← Nat.add_assoc,
        List.append_assoc]
      rfl
    · rw [bytes_cons, List.append_assoc, hjoined, List.take_append_drop]
termination_by rest.length
decreasing_by
  have hpos := b.chunk_pos
  rw [List.length_drop]
  omega

theorem Aligned.chunksOf (hchunk : alignment ∣ chunk) (before : Outputs) (place : ℕ)
    (rest : List UInt8) (h : Aligned before place) :
    Aligned (before ++ chunksOf chunk hpos place rest)
      (place + (bytes (chunksOf chunk hpos place rest)).length) := by
  by_cases hshort : rest.length < chunk
  · rw [chunksOf_short hshort, List.append_nil]
    exact h
  · have hstep := Nat.not_lt.mp hshort
    have hhead : (rest.take chunk).length = chunk := List.length_take_of_le hstep
    have hfirst : Aligned (before ++ [(place, rest.take chunk)]) (place + chunk) := by
      have hdvd : alignment ∣ (rest.take chunk).length := by
        rw [hhead]
        exact hchunk
      have hsnoc := h.snoc hdvd
      rwa [hhead] at hsnoc
    have hrest := Aligned.chunksOf hchunk _ _ (rest.drop chunk) hfirst
    rw [chunksOf_step hstep, bytes_cons, List.length_append, hhead, ← Nat.add_assoc,
      ← List.singleton_append, ← List.append_assoc]
    exact hrest
termination_by rest.length
decreasing_by
  rw [List.length_drop]
  omega

theorem takeRest_eq (b : BlockBuffer) (delivered : Outputs) (rest : List UInt8)
    (h : Succeeds output delivered (b.chunks rest)) :
    ∃ left, b.takeRest output delivered rest =
        ⟨{ b with
            sent := b.sent + (bytes (b.chunks rest)).length
            buffer := b.buffer ++ left }, delivered ++ b.chunks rest, .ok ()⟩ ∧
      bytes (b.chunks rest) ++ left = rest ∧ left.length < b.chunk := by
  obtain ⟨left, hpass, hjoined, hleft⟩ := passOn_eq b delivered rest h
  refine ⟨left, ?_, hjoined, hleft⟩
  rw [BlockBuffer.takeRest, hpass]

end Passing

section Runs

/-- A call, and what becomes of the outputs it makes. -/
inductive Call
  | take (output : Output) (offset : ℕ) (data : List UInt8)
  | complete (output : Output)

/-- A buffer, what it has handed on so far, and the bytes of all the calls it has accepted. -/
structure Scene where
  buffer : BlockBuffer
  delivered : Outputs
  accepted : List UInt8

/-- Data at the place expected and not past the end. -/
def Accepts (b : BlockBuffer) (offset : ℕ) (data : List UInt8) : Prop :=
  offset = b.received ∧ offset + data.length < 2 ^ 64 ∧ offset + data.length ≤ b.total

instance (b : BlockBuffer) (offset : ℕ) (data : List UInt8) : Decidable (Accepts b offset data) :=
  inferInstanceAs (Decidable (_ ∧ _ ∧ _))

def step (s : Scene) : Call → Scene
  | .take output offset data =>
    let called := s.buffer.take output offset data
    ⟨called.buffer, s.delivered ++ called.delivered,
      if Accepts s.buffer offset data then s.accepted ++ data else s.accepted⟩
  | .complete output =>
    let called := s.buffer.complete output
    ⟨called.buffer, s.delivered ++ called.delivered, s.accepted⟩

def run (s : Scene) (calls : List Call) : Scene := calls.foldl step s

def Scene.first (b : BlockBuffer) : Scene := ⟨b, [], []⟩

/-- The outputs a call makes as long as none fails. -/
def planned (b : BlockBuffer) (data : List UInt8) : Outputs :=
  if b.buffer = [] then b.chunks data
  else if b.buffer.length + data.length < b.chunk then []
  else (b.sent, b.buffer ++ data.take (b.chunk - b.buffer.length)) ::
    chunksOf b.chunk b.chunk_pos (b.sent + b.chunk) (data.drop (b.chunk - b.buffer.length))

/-- No output fails while there are bytes that stand neither in it nor in the buffer: all of them
succeed, or the data just fills the buffer. -/
def Gentle (b : BlockBuffer) : Call → Prop
  | .take output offset data => Accepts b offset data → Succeeds output [] (planned b data) ∨
      b.buffer ≠ [] ∧ b.buffer.length + data.length = b.chunk
  | .complete _ => True

/-- Every byte accepted is in an output or in the buffer, and the outputs are as they should be. -/
structure Keeps (s : Scene) : Prop where
  joined : bytes s.delivered ++ s.buffer.buffer = s.accepted
  sent : s.buffer.sent = (bytes s.delivered).length
  received : s.buffer.received = s.accepted.length
  bounded : s.buffer.received ≤ s.buffer.total
  fits : s.buffer.buffer.length ≤ s.buffer.chunk
  opened : s.buffer.completed = false → Aligned s.delivered s.buffer.sent
  closed : s.buffer.completed = true → s.buffer.buffer = [] ∧
    s.buffer.received = s.buffer.total ∧ Gapless s.buffer.total s.delivered

variable {s : Scene} {b : BlockBuffer} {output : Output} {offset : ℕ} {data : List UInt8}

/-- Data that is not accepted is rejected, and nothing happens. -/
theorem take_of_not_accepts (h : ¬ Accepts b offset data) :
    ∃ error, b.take output offset data = ⟨b, [], .error error⟩ := by
  rw [BlockBuffer.take]
  split
  · exact ⟨_, rfl⟩
  · rename_i hoffset
    split
    · exact ⟨_, rfl⟩
    · rename_i hoverflow
      split
      · exact ⟨_, rfl⟩
      · rename_i htotal
        exact absurd ⟨not_not.mp hoffset, Nat.not_le.mp hoverflow, Nat.not_lt.mp htotal⟩ h

theorem takeRest_nil (delivered : Outputs) : b.takeRest output delivered [] =
    ⟨b, delivered, .ok ()⟩ := by
  rw [BlockBuffer.takeRest, @passOn_short _ _ _ [] b.chunk_pos]
  dsimp only
  rw [List.append_nil]

/-- What is accepted goes into the buffer first, as far as it is not empty. -/
theorem take_of_accepts (h : Accepts b offset data) (hfits : b.buffer.length ≤ b.chunk) :
    b.take output offset data =
    if b.buffer = [] then
      { b with received := offset + data.length }.takeRest output [] data
    else if b.buffer.length + data.length < b.chunk then
      ⟨{ b with received := offset + data.length, buffer := b.buffer ++ data }, [], .ok ()⟩
    else
      match output [(b.sent, b.buffer ++ data.take (b.chunk - b.buffer.length))] with
      | some error => ⟨{ b with
          received := offset + data.length
          buffer := b.buffer ++ data.take (b.chunk - b.buffer.length) }, [],
          .error (.handOff error)⟩
      | none => { b with
          received := offset + data.length
          sent := b.sent + b.chunk
          buffer := [] }.takeRest output
            [(b.sent, b.buffer ++ data.take (b.chunk - b.buffer.length))]
            (data.drop (b.chunk - b.buffer.length)) := by
  obtain ⟨hoffset, hoverflow, htotal⟩ := h
  rw [BlockBuffer.take, if_neg (not_not.mpr hoffset), if_neg (Nat.not_le.mpr hoverflow),
    if_neg (Nat.not_lt.mpr htotal)]
  dsimp only
  by_cases hempty : b.buffer = []
  · rw [if_pos hempty, if_pos hempty]
  · rw [if_neg hempty, if_neg hempty]
    by_cases hshort : b.buffer.length + data.length < b.chunk
    · have hle : data.length ≤ b.chunk - b.buffer.length := by omega
      have hne : (b.buffer ++ data).length ≠ b.chunk := by
        rw [List.length_append]
        omega
      rw [if_pos hshort, List.take_of_length_le hle, List.drop_of_length_le hle, if_neg hne,
        takeRest_nil]
    · have hfull : (b.buffer ++ data.take (b.chunk - b.buffer.length)).length = b.chunk := by
        rw [List.length_append, List.length_take]
        omega
      rw [if_neg hshort, if_pos hfull]

theorem Keeps.first (b : BlockBuffer) (hsent : b.sent = 0) (hreceived : b.received = 0)
    (hbuffer : b.buffer = []) (hcompleted : b.completed = false) : Keeps (.first b) := by
  constructor
  · exact hbuffer
  · exact hsent
  · exact hreceived
  · rw [Scene.first, hreceived]
    exact Nat.zero_le _
  · rw [Scene.first, hbuffer]
    exact Nat.zero_le _
  · intro _
    rw [Scene.first, hsent]
    exact .nil
  · intro h
    rw [Scene.first, hcompleted] at h
    cases h

/-- What has been taken in stands in new outputs or in the buffer. -/
theorem Keeps.grown (h : Keeps s) (hopen : s.buffer.completed = false) {received : ℕ}
    (hreceived : received = s.buffer.received + data.length) (hbounded : received ≤ s.buffer.total)
    {out : Outputs} {buffer : List UInt8} (hjoined : bytes out ++ buffer = s.buffer.buffer ++ data)
    (hfits : buffer.length ≤ s.buffer.chunk)
    (hout : Aligned (s.delivered ++ out) (s.buffer.sent + (bytes out).length)) :
    Keeps ⟨{ s.buffer with
        received := received
        sent := s.buffer.sent + (bytes out).length
        buffer := buffer }, s.delivered ++ out, s.accepted ++ data⟩ where
  joined := by
    rw [bytes_append, List.append_assoc, hjoined, ← List.append_assoc, h.joined]
  sent := by rw [bytes_append, List.length_append, h.sent]
  received := by rw [List.length_append, ← h.received, hreceived]
  bounded := hbounded
  fits := hfits
  opened := fun _ ↦ hout
  closed := fun hcompleted ↦ by
    rw [hopen] at hcompleted
    cases hcompleted

/-- Once everything has been handed on, nothing is accepted any more but nothing. -/
theorem Keeps.take_closed (h : Keeps s) (hclosed : s.buffer.completed = true)
    (hacc : Accepts s.buffer offset data) : step s (.take output offset data) = s := by
  obtain ⟨hempty, hall, -⟩ := h.closed hclosed
  obtain rfl : data = [] := by
    have hle := hacc.2.2
    rw [hacc.1, hall] at hle
    exact List.length_eq_zero_iff.mp (by omega)
  have hsame : { s.buffer with received := offset + ([] : List UInt8).length } = s.buffer := by
    rw [hacc.1]
    rfl
  rw [step, take_of_accepts hacc h.fits, if_pos hempty, if_pos hacc, hsame, takeRest_nil]
  dsimp only
  rw [List.append_nil, List.append_nil]

/-- The buffer is filled up and passed on before the rest of the data. -/
theorem Keeps.flush (h : Keeps s) (hopen : s.buffer.completed = false)
    (hacc : Accepts s.buffer offset data) (hg : Gentle s.buffer (.take output offset data))
    (hempty : s.buffer.buffer ≠ []) (hlong : s.buffer.chunk ≤ s.buffer.buffer.length + data.length)
    {called : Called Unit}
    (hcalled : called =
      match output [(s.buffer.sent,
        s.buffer.buffer ++ data.take (s.buffer.chunk - s.buffer.buffer.length))] with
      | some error => ⟨{ s.buffer with
          received := offset + data.length
          buffer := s.buffer.buffer ++ data.take (s.buffer.chunk - s.buffer.buffer.length) }, [],
          .error (.handOff error)⟩
      | none => { s.buffer with
          received := offset + data.length
          sent := s.buffer.sent + s.buffer.chunk
          buffer := [] }.takeRest output
            [(s.buffer.sent,
              s.buffer.buffer ++ data.take (s.buffer.chunk - s.buffer.buffer.length))]
            (data.drop (s.buffer.chunk - s.buffer.buffer.length))) :
    Keeps ⟨called.buffer, s.delivered ++ called.delivered, s.accepted ++ data⟩ := by
  have hfits := h.fits
  have hreceived : offset + data.length = s.buffer.received + data.length := by rw [hacc.1]
  have hfull : (s.buffer.buffer ++
      data.take (s.buffer.chunk - s.buffer.buffer.length)).length = s.buffer.chunk := by
    rw [List.length_append, List.length_take]
    omega
  have hplanned : planned s.buffer data = (s.buffer.sent,
      s.buffer.buffer ++ data.take (s.buffer.chunk - s.buffer.buffer.length)) ::
        chunksOf s.buffer.chunk s.buffer.chunk_pos (s.buffer.sent + s.buffer.chunk)
          (data.drop (s.buffer.chunk - s.buffer.buffer.length)) := by
    rw [planned, if_neg hempty, if_neg (Nat.not_lt.mpr hlong)]
  have hcases := hg hacc
  rw [hplanned] at hcases
  cases houtput : output [(s.buffer.sent,
      s.buffer.buffer ++ data.take (s.buffer.chunk - s.buffer.buffer.length))] with
  | some error =>
    rw [houtput] at hcalled
    rcases hcases with hall | ⟨-, hexact⟩
    · have hnone := hall.of_cons.1
      rw [List.nil_append, houtput] at hnone
      cases hnone
    · have hdata : data.take (s.buffer.chunk - s.buffer.buffer.length) = data :=
        List.take_of_length_le (by omega)
      rw [hcalled]
      refine @Keeps.grown _ _ h hopen _ hreceived hacc.2.2 [] _ ?_ hfull.le ?_
      · rw [hdata]
        rfl
      · rw [List.append_nil]
        exact h.opened hopen
  | none =>
    rw [houtput] at hcalled
    have hsucceeds : Succeeds output [(s.buffer.sent,
        s.buffer.buffer ++ data.take (s.buffer.chunk - s.buffer.buffer.length))]
        (chunksOf s.buffer.chunk s.buffer.chunk_pos (s.buffer.sent + s.buffer.chunk)
          (data.drop (s.buffer.chunk - s.buffer.buffer.length))) := by
      rcases hcases with hall | ⟨-, hexact⟩
      · exact hall.of_cons.2
      · have hdrop : data.drop (s.buffer.chunk - s.buffer.buffer.length) = [] :=
          List.drop_of_length_le (by omega)
        rw [hdrop, @chunksOf_short [] _ _ _ s.buffer.chunk_pos]
        exact fun _ hn ↦ absurd hn (Nat.not_lt_zero _)
    obtain ⟨left, htake, hjoined, hleft⟩ := takeRest_eq { s.buffer with
        received := offset + data.length
        sent := s.buffer.sent + s.buffer.chunk
        buffer := [] } _ _ hsucceeds
    have hfirst : Aligned (s.delivered ++ [(s.buffer.sent, s.buffer.buffer ++
        data.take (s.buffer.chunk - s.buffer.buffer.length))])
        (s.buffer.sent + s.buffer.chunk) := by
      have hdvd : alignment ∣ (s.buffer.buffer ++
          data.take (s.buffer.chunk - s.buffer.buffer.length)).length := by
        rw [hfull]
        exact s.buffer.aligned
      have hsnoc := (h.opened hopen).snoc hdvd
      rwa [hfull] at hsnoc
    have hgrown := @Keeps.grown _ _ h hopen _ hreceived hacc.2.2
      ([(s.buffer.sent, s.buffer.buffer ++
        data.take (s.buffer.chunk - s.buffer.buffer.length))] ++
          chunksOf s.buffer.chunk s.buffer.chunk_pos (s.buffer.sent + s.buffer.chunk)
            (data.drop (s.buffer.chunk - s.buffer.buffer.length))) left
    rw [bytes_append, bytes_singleton, List.length_append, hfull, ← Nat.add_assoc,
      ← List.append_assoc s.delivered] at hgrown
    rw [hcalled]
    dsimp only
    rw [htake, List.nil_append, ← List.append_assoc s.delivered]
    refine hgrown ?_ hleft.le (hfirst.chunksOf s.buffer.aligned _ _ _)
    rw [List.append_assoc, hjoined, List.append_assoc, List.take_append_drop]

/-- A call that is accepted keeps every byte, and what it passes on is aligned. -/
theorem Keeps.take (h : Keeps s) (hg : Gentle s.buffer (.take output offset data)) :
    Keeps (step s (.take output offset data)) := by
  by_cases hacc : Accepts s.buffer offset data
  · cases hcompleted : s.buffer.completed with
    | true =>
      rw [h.take_closed hcompleted hacc]
      exact h
    | false =>
      have haligned := h.opened hcompleted
      have hreceived : offset + data.length = s.buffer.received + data.length := by rw [hacc.1]
      rw [step, take_of_accepts hacc h.fits, if_pos hacc]
      by_cases hempty : s.buffer.buffer = []
      · have hsucceeds : Succeeds output [] (s.buffer.chunks data) := by
          rcases hg hacc with hall | ⟨hne, -⟩
          · rwa [planned, if_pos hempty] at hall
          · exact absurd hempty hne
        obtain ⟨left, htake, hjoined, hleft⟩ :=
          takeRest_eq { s.buffer with received := offset + data.length } [] data hsucceeds
        rw [if_pos hempty, htake, hempty]
        refine h.grown hcompleted hreceived hacc.2.2 ?_ hleft.le ?_
        · rw [hempty]
          exact hjoined
        · exact haligned.chunksOf s.buffer.aligned _ _ _
      · rw [if_neg hempty]
        by_cases hshort : s.buffer.buffer.length + data.length < s.buffer.chunk
        · rw [if_pos hshort]
          refine @Keeps.grown _ _ h hcompleted _ hreceived hacc.2.2 [] _ rfl ?_ ?_
          · rw [List.length_append]
            exact hshort.le
          · rw [List.append_nil]
            exact haligned
        · rw [if_neg hshort]
          exact h.flush hcompleted hacc hg hempty (Nat.not_lt.mp hshort) rfl
  · obtain ⟨error, htake⟩ := @take_of_not_accepts _ output _ _ hacc
    rw [step, htake, if_neg hacc, List.append_nil]
    exact h

/-- The file is there: the outputs lie without a gap from its beginning to its end, and they are
the bytes accepted. -/
structure Whole (s : Scene) : Prop where
  gapless : Gapless s.buffer.total s.delivered
  joined : bytes s.delivered = s.accepted
  length : s.accepted.length = s.buffer.total

theorem Keeps.whole (h : Keeps s) (hcompleted : s.buffer.completed = true) : Whole s := by
  obtain ⟨hempty, hall, hgapless⟩ := h.closed hcompleted
  refine ⟨hgapless, ?_, h.received.symm.trans hall⟩
  rw [← h.joined, hempty, List.append_nil]

theorem complete_of_open (hall : b.received = b.total) (hcompleted : b.completed = false)
    (hrest : b.buffer ≠ [] ∨ b.total = 0) : b.complete output =
      match output [(b.sent, b.buffer)] with
      | some error => ⟨b, [], .error (.handOff error)⟩
      | none => ⟨{ b with sent := b.sent + b.buffer.length, buffer := [], completed := true },
          [(b.sent, b.buffer)], .ok b.total⟩ := by
  rw [BlockBuffer.complete, if_neg (not_not.mpr hall), if_pos]
  rw [hcompleted]
  exact ⟨rfl, hrest⟩

theorem complete_of_handed (hall : b.received = b.total)
    (hrest : b.completed = true ∨ b.buffer = [] ∧ b.total ≠ 0) :
    b.complete output = ⟨{ b with completed := true }, [], .ok b.total⟩ := by
  rw [BlockBuffer.complete, if_neg (not_not.mpr hall), if_neg]
  rintro ⟨hopen, hsome⟩
  rcases hrest with hclosed | ⟨hempty, htotal⟩
  · rw [hclosed] at hopen
    cases hopen
  · rcases hsome with hne | hzero
    · exact hne hempty
    · exact htotal hzero

/-- Completing either changes nothing, or leaves the whole file. -/
theorem Keeps.complete (h : Keeps s) : Keeps (step s (.complete output)) ∧
    ∀ n, (s.buffer.complete output).result = .ok n →
      n = s.buffer.total ∧ Whole (step s (.complete output)) := by
  by_cases hall : s.buffer.received = s.buffer.total
  · have hlength : (bytes s.delivered).length + s.buffer.buffer.length = s.buffer.total := by
      rw [← List.length_append, h.joined, ← h.received, hall]
    by_cases hrest : s.buffer.completed = true ∨ s.buffer.buffer = [] ∧ s.buffer.total ≠ 0
    · have hkeeps : Keeps (step s (.complete output)) := by
        rw [step, complete_of_handed hall hrest]
        dsimp only
        rw [List.append_nil]
        have hgapless : s.buffer.buffer = [] ∧ Gapless s.buffer.total s.delivered := by
          cases hcompleted : s.buffer.completed with
          | true => exact ⟨(h.closed hcompleted).1, (h.closed hcompleted).2.2⟩
          | false =>
            obtain ⟨hempty, -⟩ := hrest.resolve_left (by rw [hcompleted]; exact Bool.false_ne_true)
            refine ⟨hempty, .inl ?_⟩
            rw [hempty, List.length_nil, Nat.add_zero, ← h.sent] at hlength
            exact hlength ▸ h.opened hcompleted
        exact ⟨h.joined, h.sent, h.received, h.bounded, h.fits, fun hopen ↦ (by cases hopen),
          fun _ ↦ ⟨hgapless.1, hall, hgapless.2⟩⟩
      refine ⟨hkeeps, fun n hn ↦ ?_⟩
      have hcompleted : (step s (.complete output)).buffer.completed = true := by
        rw [step, complete_of_handed hall hrest]
      rw [complete_of_handed hall hrest] at hn
      exact ⟨(Except.ok.inj hn).symm, hkeeps.whole hcompleted⟩
    · obtain ⟨hopen, hsome⟩ := not_or.mp hrest
      have hfalse : s.buffer.completed = false := Bool.eq_false_iff.mpr hopen
      have hsome' : s.buffer.buffer ≠ [] ∨ s.buffer.total = 0 := by
        rw [not_and_or, not_not] at hsome
        exact hsome
      rw [step, complete_of_open hall hfalse hsome']
      cases output [(s.buffer.sent, s.buffer.buffer)] with
      | some error =>
        dsimp only
        rw [List.append_nil]
        exact ⟨h, fun n hn ↦ by cases hn⟩
      | none =>
        have hkeeps : Keeps ⟨{ s.buffer with
            sent := s.buffer.sent + s.buffer.buffer.length
            buffer := []
            completed := true }, s.delivered ++ [(s.buffer.sent, s.buffer.buffer)], s.accepted⟩ := by
          refine ⟨?_, ?_, h.received, h.bounded, Nat.zero_le _, fun hopen ↦ (by cases hopen),
            fun _ ↦ ⟨rfl, hall, .inr ⟨_, _, _, rfl, h.opened hfalse, ?_⟩⟩⟩
          · rw [bytes_append, bytes_singleton, List.append_nil, h.joined]
          · rw [bytes_append, bytes_singleton, List.length_append, h.sent]
          · rw [h.sent, hlength]
        exact ⟨hkeeps, fun n hn ↦ ⟨(Except.ok.inj hn).symm, hkeeps.whole rfl⟩⟩
  · have hcomplete : s.buffer.complete output =
        ⟨s.buffer, [], .error (.incomplete s.buffer.received s.buffer.total)⟩ := by
      rw [BlockBuffer.complete, if_pos hall]
    rw [step, hcomplete]
    dsimp only
    rw [List.append_nil]
    exact ⟨h, fun n hn ↦ by cases hn⟩

/-- Every call of the run is gentle where it is made. -/
def GentleRun : Scene → List Call → Prop
  | _, [] => True
  | s, call :: calls => Gentle s.buffer call ∧ GentleRun (step s call) calls

theorem Keeps.step (h : Keeps s) {call : Call} (hg : Gentle s.buffer call) :
    Keeps (step s call) := by
  cases call with
  | take output offset data => exact h.take hg
  | complete output => exact h.complete.1

theorem Keeps.run {calls : List Call} (h : Keeps s) (hg : GentleRun s calls) :
    Keeps (run s calls) := by
  induction calls generalizing s with
  | nil => exact h
  | cons call calls ih => exact ih (h.step hg.1) hg.2

theorem GentleRun.before {before after : List Call} (hg : GentleRun s (before ++ after)) :
    GentleRun s before := by
  induction before generalizing s with
  | nil => trivial
  | cons call before ih => exact ⟨hg.1, ih hg.2⟩

theorem total_passOn (b : BlockBuffer) (delivered : Outputs) (rest : List UInt8) :
    (b.passOn output delivered rest).1.total = b.total := by
  by_cases hshort : rest.length < b.chunk
  · rw [passOn_short hshort]
  · have hstep := Nat.not_lt.mp hshort
    cases houtput : output (delivered ++ [(b.sent, rest.take b.chunk)]) with
    | none =>
      rw [passOn_step hstep houtput]
      exact total_passOn { b with sent := b.sent + b.chunk } _ (rest.drop b.chunk)
    | some error =>
      rw [BlockBuffer.passOn, if_pos hstep]
      dsimp only
      rw [houtput]
termination_by rest.length
decreasing_by
  have hpos := b.chunk_pos
  rw [List.length_drop]
  omega

theorem total_takeRest (delivered : Outputs) (rest : List UInt8) :
    (b.takeRest output delivered rest).buffer.total = b.total := by
  rw [BlockBuffer.takeRest]
  have htotal := @total_passOn output b delivered rest
  split
  · rename_i hpass
    rwa [hpass] at htotal
  · rename_i hpass
    rwa [hpass] at htotal

theorem Keeps.total_step (h : Keeps s) (call : Call) :
    (Blocks.step s call).buffer.total = s.buffer.total := by
  cases call with
  | take output offset data =>
    rw [Blocks.step]
    by_cases hacc : Accepts s.buffer offset data
    · rw [take_of_accepts hacc h.fits]
      split
      · exact total_takeRest _ _
      · split
        · rfl
        · split
          · rfl
          · exact total_takeRest _ _
    · obtain ⟨error, htake⟩ := @take_of_not_accepts _ output _ _ hacc
      rw [htake]
  | complete output =>
    rw [Blocks.step, BlockBuffer.complete]
    split
    · rfl
    · split
      · split <;> rfl
      · rfl

theorem Keeps.total_run {calls : List Call} (h : Keeps s) (hg : GentleRun s calls) :
    (Blocks.run s calls).buffer.total = s.buffer.total := by
  induction calls generalizing s with
  | nil => rfl
  | cons call calls ih => exact (ih (h.step hg.1) hg.2).trans (h.total_step call)

theorem withChunkSize_eq {total chunk : UInt64} {rounded : ℕ}
    (h : roundedUp chunk = some rounded) : BlockBuffer.withChunkSize total chunk =
      some ⟨total.toNat, 0, 0, [], rounded, false, (roundedUp_eq_some h).1,
        (roundedUp_eq_some h).2⟩ := by
  unfold BlockBuffer.withChunkSize
  split
  · rename_i hnone
    rw [hnone] at h
    cases h
  · rename_i rounded' hsome
    obtain rfl : rounded' = rounded := Option.some.inj (hsome.symm.trans h)
    rfl

theorem keeps_withChunkSize {total chunk : UInt64}
    (h : BlockBuffer.withChunkSize total chunk = some b) :
    Keeps (.first b) ∧ b.total = total.toNat := by
  unfold BlockBuffer.withChunkSize at h
  split at h
  · cases h
  · obtain rfl := Option.some.inj h
    exact ⟨.first _ rfl rfl rfl rfl, rfl⟩

/-- Whenever completing succeeds in the course of the calls, the file is there as a whole. -/
def Honest (b : BlockBuffer) (calls : List Call) : Prop :=
  ∀ before output after n, calls = before ++ .complete output :: after →
    ((run (.first b) before).buffer.complete output).result = .ok n →
      n = b.total ∧ Whole (step (run (.first b) before) (.complete output)) ∧
        (step (run (.first b) before) (.complete output)).buffer.total = b.total

end Runs

/-- A completed hydration is a whole one, unless a call has failed with bytes that were neither handed
on nor kept. -/
theorem never_almost (total chunk : UInt64) (b : BlockBuffer)
    (hb : BlockBuffer.withChunkSize total chunk = some b) (calls : List Call)
    (hgentle : GentleRun (.first b) calls) : Honest b calls := by
  intro before output after n hcalls hok
  rw [hcalls] at hgentle
  have hfirst := (keeps_withChunkSize hb).1
  have hkeeps := hfirst.run hgentle.before
  have htotal := hfirst.total_run hgentle.before
  obtain ⟨hn, hwhole⟩ := hkeeps.complete.2 n hok
  exact ⟨hn.trans htotal, hwhole, (hkeeps.total_step _).trans htotal⟩

section Examples

def accepting : Output := fun _ ↦ none

def refusing : Output := fun _ ↦ some "the placeholder is gone"

/-- A buffer for a file of one chunk. -/
def oneChunk : BlockBuffer := ⟨4096, 0, 0, [], 4096, false, by decide, by decide⟩

theorem withChunkSize_oneChunk : BlockBuffer.withChunkSize 4096 4096 = some oneChunk :=
  withChunkSize_eq (by decide)

def zeroes : List UInt8 := List.replicate 4096 0

theorem length_zeroes : zeroes.length = 4096 := List.length_replicate

theorem accepts_zeroes : Accepts oneChunk 0 zeroes := by
  refine ⟨rfl, ?_, ?_⟩
  · rw [length_zeroes]
    decide
  · rw [length_zeroes]
    exact le_rfl

theorem never_almost_oneChunk :
    Honest oneChunk [.take accepting 0 zeroes, .complete accepting] :=
  never_almost 4096 4096 oneChunk withChunkSize_oneChunk _
    ⟨fun _ ↦ .inl fun _ _ ↦ rfl, trivial, trivial⟩

/-- The output of the only chunk fails, and the file passes for complete without a byte. -/
theorem almost : ¬ ∀ total chunk b, BlockBuffer.withChunkSize total chunk = some b →
    ∀ calls, Honest b calls := by
  intro h
  have hhonest := h 4096 4096 oneChunk withChunkSize_oneChunk
    [.take refusing 0 zeroes, .complete accepting] [.take refusing 0 zeroes] accepting [] 4096 rfl
  have hrest : ({ oneChunk with received := 0 + zeroes.length } : BlockBuffer).takeRest refusing []
      zeroes = ⟨{ oneChunk with received := 0 + zeroes.length }, [],
        .error (.handOff "the placeholder is gone")⟩ := by
    have hstep : oneChunk.chunk ≤ zeroes.length := length_zeroes.ge
    rw [BlockBuffer.takeRest, BlockBuffer.passOn, if_pos hstep]
    rfl
  have hlost : run (.first oneChunk) [.take refusing 0 zeroes] =
      ⟨{ oneChunk with received := 0 + zeroes.length }, [], zeroes⟩ := by
    have hempty : oneChunk.buffer = [] := rfl
    change step (.first oneChunk) (.take refusing 0 zeroes) = _
    rw [step, Scene.first, take_of_accepts accepts_zeroes (Nat.zero_le _), if_pos hempty,
      if_pos accepts_zeroes, hrest]
    rfl
  have hall : 0 + zeroes.length = oneChunk.total := (Nat.zero_add _).trans length_zeroes
  rw [hlost] at hhonest
  have hcomplete := @complete_of_handed { oneChunk with received := 0 + zeroes.length } accepting
    hall (.inr ⟨rfl, by decide⟩)
  obtain ⟨-, hwhole, -⟩ := hhonest (by rw [hcomplete]; rfl)
  have hjoined := hwhole.joined
  rw [step, hcomplete] at hjoined
  exact absurd (congrArg List.length hjoined) (by rw [length_zeroes]; decide)

end Examples

end FolderClient.Cfapi.Blocks
