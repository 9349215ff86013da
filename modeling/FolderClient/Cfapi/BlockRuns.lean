import FolderClient.Cfapi.Blocks
import FolderClient.Cfapi.Cancel

namespace FolderClient.Cfapi.BlockRuns

open FolderClient.Cfapi.Cancel (errorDomain)
open FolderClient.Cfapi.Blocks

section Fragments

variable {s : Scene} {b : BlockBuffer} {offset : ℕ} {data : List UInt8}
  {pieces : List (List UInt8)}

/-- The takes of consecutive pieces; no output fails. -/
def takesAt (place : ℕ) : List (List UInt8) → List Call
  | [] => []
  | piece :: pieces => .take accepting place piece :: takesAt (place + piece.length) pieces

theorem succeeds_accepting (before planned : Outputs) : Succeeds accepting before planned :=
  fun _ _ ↦ rfl

theorem takeRest_accepting (delivered : Outputs) (rest : List UInt8) :
    (b.takeRest accepting delivered rest).result = .ok () ∧
      (b.takeRest accepting delivered rest).buffer.completed = b.completed ∧
      (b.takeRest accepting delivered rest).buffer.received = b.received := by
  obtain ⟨left, htake, -⟩ := takeRest_eq b delivered rest (succeeds_accepting _ _)
  rw [htake]
  exact ⟨rfl, rfl, rfl⟩

/-- Where no output fails, what is accepted is taken. -/
theorem take_accepting (hfits : b.buffer.length ≤ b.chunk) (hacc : Accepts b offset data) :
    (b.take accepting offset data).result = .ok () ∧
      (b.take accepting offset data).buffer.completed = b.completed ∧
      (b.take accepting offset data).buffer.received = b.received + data.length := by
  rw [take_of_accepts hacc hfits]
  split
  · rw [← hacc.1]
    exact takeRest_accepting _ _
  · split
    · rw [← hacc.1]
      exact ⟨rfl, rfl, rfl⟩
    · rw [← hacc.1]
      exact takeRest_accepting _ _

/-- The state after the pieces have been taken one after the other. -/
theorem run_takesAt (h : Keeps s) (hopen : s.buffer.completed = false)
    (htotal : s.buffer.total < 2 ^ 64) (pieces : List (List UInt8))
    (hbound : s.buffer.received + pieces.flatten.length ≤ s.buffer.total) :
    Keeps (run s (takesAt s.buffer.received pieces)) ∧
      (run s (takesAt s.buffer.received pieces)).buffer.completed = false ∧
      (run s (takesAt s.buffer.received pieces)).buffer.total = s.buffer.total ∧
      (run s (takesAt s.buffer.received pieces)).accepted = s.accepted ++ pieces.flatten := by
  induction pieces generalizing s with
  | nil =>
    rw [List.flatten_nil, List.append_nil]
    exact ⟨h, hopen, rfl, rfl⟩
  | cons piece pieces ih =>
    rw [List.flatten_cons, List.length_append] at hbound
    have hacc : Accepts s.buffer s.buffer.received piece := ⟨rfl, by omega, by omega⟩
    have hgentle : Gentle s.buffer (.take accepting s.buffer.received piece) :=
      fun _ ↦ .inl (succeeds_accepting _ _)
    obtain ⟨-, hcompleted, hreceived⟩ := take_accepting h.fits hacc
    have hsame := h.total_step (.take accepting s.buffer.received piece)
    have hnext : (step s (.take accepting s.buffer.received piece)).buffer.received =
        s.buffer.received + piece.length := hreceived
    have haccepted : (step s (.take accepting s.buffer.received piece)).accepted =
        s.accepted ++ piece := if_pos hacc
    have hrest := ih (h.take hgentle) (hcompleted.trans hopen) (hsame ▸ htotal)
      (by rw [hnext, hsame]; omega)
    rw [hnext, hsame, haccepted, List.append_assoc, ← List.flatten_cons] at hrest
    exact hrest

/-- What becomes of the pieces of a file and of completing it. -/
structure Delivers (b : BlockBuffer) (pieces : List (List UInt8)) : Prop where
  taken : ∀ before piece after, pieces = before ++ piece :: after →
    ((run (.first b) (takesAt 0 before)).buffer.take accepting before.flatten.length
      piece).result = .ok ()
  unfinished : pieces.flatten.length ≠ b.total →
    Aligned (run (.first b) (takesAt 0 pieces)).delivered
        (run (.first b) (takesAt 0 pieces)).buffer.sent ∧
      (run (.first b) (takesAt 0 pieces)).buffer.complete accepting =
        ⟨(run (.first b) (takesAt 0 pieces)).buffer, [],
          .error (.incomplete pieces.flatten.length b.total)⟩
  finished : pieces.flatten.length = b.total →
    ((run (.first b) (takesAt 0 pieces)).buffer.complete accepting).result = .ok b.total ∧
      Gapless b.total (run (.first b) (takesAt 0 pieces ++ [.complete accepting])).delivered ∧
      bytes (run (.first b) (takesAt 0 pieces ++ [.complete accepting])).delivered =
        pieces.flatten ∧
      (b.total = 0 →
        (run (.first b) (takesAt 0 pieces ++ [.complete accepting])).delivered = [(0, [])]) ∧
      ((run (.first b) (takesAt 0 pieces ++ [.complete accepting])).buffer.complete
        accepting).delivered = []

/-- A buffer can be made, hands on every file in permitted chunks however it is cut up, and rejects
without effect what does not continue it. -/
def Fragmented (total chunk : UInt64) : Prop :=
  ∃ b, BlockBuffer.withChunkSize total chunk = some b ∧
    (∀ pieces : List (List UInt8), pieces.flatten.length ≤ b.total → Delivers b pieces) ∧
    ∀ (b : BlockBuffer) (output : Output) (offset : ℕ) (data : List UInt8),
      ¬ Accepts b offset data → ∃ error, b.take output offset data = ⟨b, [], .error error⟩

theorem roundedUp_isSome {chunk : UInt64} :
    (∃ rounded, roundedUp chunk = some rounded) ↔ chunk.toNat ≤ 2 ^ 64 - 4096 := by
  have hlt := chunk.toNat_lt
  have halignment : alignment = 4096 := rfl
  rw [roundedUp, halignment]
  constructor
  · rintro ⟨rounded, h⟩
    split at h
    · omega
    · cases h
  · intro h
    rw [if_pos (by omega)]
    exact ⟨_, rfl⟩

theorem withChunkSize_isSome {total chunk : UInt64} :
    (∃ b, BlockBuffer.withChunkSize total chunk = some b) ↔ chunk.toNat ≤ 2 ^ 64 - 4096 := by
  rw [← roundedUp_isSome]
  constructor
  · rintro ⟨b, hb⟩
    unfold BlockBuffer.withChunkSize at hb
    split at hb
    · cases hb
    · rename_i rounded hsome
      exact ⟨rounded, hsome⟩
  · rintro ⟨rounded, h⟩
    exact ⟨_, withChunkSize_eq h⟩

/-- Nothing is handed on before the end of an empty file. -/
theorem run_empty (hpieces : ∀ piece ∈ pieces, piece = []) (hsent : b.received = 0)
    (hbuffer : b.buffer = []) :
    run (.first b) (takesAt 0 pieces) = .first b := by
  have hacc : Accepts b 0 [] := by
    refine ⟨hsent.symm, by decide, Nat.zero_le _⟩
  induction pieces with
  | nil => rfl
  | cons piece pieces ih =>
    obtain ⟨rfl, hrest⟩ := List.forall_mem_cons.mp hpieces
    have hsame : { b with received := 0 + ([] : List UInt8).length } = b := by
      obtain ⟨total, received, sent, buffer, chunk, completed, hpos, haligned⟩ := b
      cases hsent
      rfl
    have hstep : step (.first b) (.take accepting 0 []) = .first b := by
      have hfits : b.buffer.length ≤ b.chunk := by
        rw [hbuffer]
        exact Nat.zero_le _
      rw [step, Scene.first, take_of_accepts hacc hfits, if_pos hbuffer, if_pos hacc, hsame,
        takeRest_nil]
      rfl
    change run (step (.first b) (.take accepting 0 [])) (takesAt 0 pieces) = _
    rw [hstep]
    exact ih hrest

/-- Where no output fails, completing succeeds once everything has been taken. -/
theorem complete_accepting (hall : b.received = b.total) :
    (b.complete accepting).result = .ok b.total ∧
      (b.complete accepting).buffer.completed = true := by
  rw [BlockBuffer.complete, if_neg (not_not.mpr hall)]
  split
  · exact ⟨rfl, rfl⟩
  · exact ⟨rfl, rfl⟩

theorem run_snoc (calls : List Call) (call : Call) :
    run s (calls ++ [call]) = step (run s calls) call :=
  List.foldl_append

/-- An empty file gets one empty output. -/
theorem complete_empty (hall : b.received = b.total) (hzero : b.total = 0)
    (hopen : b.completed = false) (hbuffer : b.buffer = []) (hsent : b.sent = 0) :
    (b.complete accepting).delivered = [(0, [])] := by
  rw [complete_of_open hall hopen (.inr hzero), hbuffer, hsent]
  rfl

theorem delivers {total chunk : UInt64} (hb : BlockBuffer.withChunkSize total chunk = some b)
    {pieces : List (List UInt8)} (hpieces : pieces.flatten.length ≤ b.total) :
    Delivers b pieces := by
  obtain ⟨hfirst, htotal⟩ := keeps_withChunkSize hb
  have hlt : b.total < 2 ^ 64 := htotal ▸ total.toNat_lt
  have hstart : b.received = 0 ∧ b.buffer = [] ∧ b.completed = false ∧ b.sent = 0 := by
    unfold BlockBuffer.withChunkSize at hb
    split at hb
    · cases hb
    · obtain rfl := Option.some.inj hb
      exact ⟨rfl, rfl, rfl, rfl⟩
  have hrun : ∀ pieces : List (List UInt8), pieces.flatten.length ≤ b.total →
      Keeps (run (.first b) (takesAt 0 pieces)) ∧
        (run (.first b) (takesAt 0 pieces)).buffer.completed = false ∧
        (run (.first b) (takesAt 0 pieces)).buffer.total = b.total ∧
        (run (.first b) (takesAt 0 pieces)).accepted = pieces.flatten := by
    intro pieces hbound
    have h := run_takesAt hfirst hstart.2.2.1 hlt pieces (by
      rw [Scene.first, hstart.1, Nat.zero_add]
      exact hbound)
    rw [Scene.first, hstart.1, List.nil_append] at h
    exact h
  obtain ⟨hkeeps, hopen, hsame, haccepted⟩ := hrun pieces hpieces
  have hreceived : (run (.first b) (takesAt 0 pieces)).buffer.received = pieces.flatten.length := by
    rw [hkeeps.received, haccepted]
  constructor
  · intro before piece after hsplit
    subst hsplit
    rw [List.flatten_append, List.flatten_cons, List.length_append, List.length_append] at hpieces
    obtain ⟨hbefore, -, htotal', haccepted'⟩ := hrun before (by omega)
    have hacc : Accepts (run (.first b) (takesAt 0 before)).buffer before.flatten.length piece := by
      refine ⟨?_, by omega, by omega⟩
      rw [hbefore.received, haccepted']
    exact (take_accepting hbefore.fits hacc).1
  · intro hne
    refine ⟨hkeeps.opened hopen, ?_⟩
    rw [BlockBuffer.complete, if_pos (by rw [hreceived, hsame]; exact hne), hreceived, hsame]
  · intro heq
    have hall : (run (.first b) (takesAt 0 pieces)).buffer.received =
        (run (.first b) (takesAt 0 pieces)).buffer.total := by
      rw [hreceived, hsame, heq]
    obtain ⟨hresult, hcompleted⟩ := complete_accepting hall
    obtain ⟨-, hwhole⟩ := (@Keeps.complete _ accepting hkeeps).2 _ hresult
    have htotal' := hkeeps.total_step (.complete accepting)
    have hclosed := (@Keeps.complete _ accepting hkeeps).1.closed hcompleted
    rw [run_snoc]
    refine ⟨hsame ▸ hresult, ?_, ?_, ?_, ?_⟩
    · rw [← hsame, ← htotal']
      exact hwhole.gapless
    · rw [hwhole.joined, ← haccepted]
      rfl
    · intro hzero
      have hnone : ∀ piece ∈ pieces, piece = [] := by
        rw [hzero, List.length_eq_zero_iff, List.flatten_eq_nil_iff] at heq
        exact heq
      have hstays := run_empty hnone hstart.1 hstart.2.1
      rw [hstays] at hall ⊢
      exact complete_empty hall hzero hstart.2.2.1 hstart.2.1 hstart.2.2.2
    · rw [complete_of_handed hclosed.2.1 (.inl hcompleted)]

/-- A buffer hands on every file as it should, however it is cut up, exactly if its chunk size can be
rounded up within 64 bits. -/
theorem fragmentation (total chunk : UInt64) :
    Fragmented total chunk ↔ chunk.toNat ≤ 2 ^ 64 - 4096 := by
  rw [← @withChunkSize_isSome total]
  constructor
  · rintro ⟨b, hb, -⟩
    exact ⟨b, hb⟩
  · rintro ⟨b, hb⟩
    exact ⟨b, hb, fun pieces hpieces ↦ delivers hb hpieces, fun _ _ _ _ ↦ take_of_not_accepts⟩

/-- The largest chunk size cannot be rounded up. -/
theorem not_fragmented : ¬ ∀ total chunk, Fragmented total chunk := by
  intro h
  obtain ⟨b, hb, -⟩ := h 1 18446744073709551615
  exact absurd (withChunkSize_isSome.mp ⟨b, hb⟩) (by decide)

end Fragments

section Open

variable {s : Scene} {b : BlockBuffer} {output : Output}

/-- What has been handed on before the end ends at the alignment, whatever has failed. -/
def EvenSent (b : BlockBuffer) : Prop := b.completed = false → alignment ∣ b.sent

theorem evenSent_passOn (b : BlockBuffer) (h : EvenSent b) (delivered : Outputs)
    (rest : List UInt8) : EvenSent (b.passOn output delivered rest).1 := by
  by_cases hshort : rest.length < b.chunk
  · rw [passOn_short hshort]
    exact h
  · have hstep := Nat.not_lt.mp hshort
    cases houtput : output (delivered ++ [(b.sent, rest.take b.chunk)]) with
    | none =>
      rw [passOn_step hstep houtput]
      exact evenSent_passOn { b with sent := b.sent + b.chunk }
        (fun hopen ↦ Nat.dvd_add (h hopen) b.aligned) _ (rest.drop b.chunk)
    | some error =>
      rw [BlockBuffer.passOn, if_pos hstep]
      dsimp only
      rw [houtput]
      exact h
termination_by rest.length
decreasing_by
  have hpos := b.chunk_pos
  rw [List.length_drop]
  omega

theorem EvenSent.takeRest (h : EvenSent b) (delivered : Outputs) (rest : List UInt8) :
    EvenSent (b.takeRest output delivered rest).buffer := by
  rw [BlockBuffer.takeRest]
  have hpass := @evenSent_passOn output b h delivered rest
  split
  · rename_i hfailed
    rwa [hfailed] at hpass
  · rename_i hpassed
    rw [hpassed] at hpass
    exact hpass

theorem EvenSent.take (h : EvenSent b) (offset : ℕ) (data : List UInt8) :
    EvenSent (b.take output offset data).buffer := by
  rw [BlockBuffer.take]
  split
  · exact h
  · split
    · exact h
    · split
      · exact h
      · dsimp only
        split
        · refine EvenSent.takeRest ?_ _ _
          exact fun hopen ↦ h hopen
        · split
          · split
            · exact h
            · refine EvenSent.takeRest (fun hopen ↦ ?_) _ _
              exact Nat.dvd_add (h hopen) b.aligned
          · refine EvenSent.takeRest ?_ _ _
            exact fun hopen ↦ h hopen

theorem EvenSent.complete (h : EvenSent b) : EvenSent (b.complete output).buffer := by
  rw [BlockBuffer.complete]
  split
  · exact h
  · split
    · split
      · exact h
      · intro hopen
        cases hopen
    · intro hopen
      cases hopen

theorem EvenSent.run {calls : List Call} (h : EvenSent s.buffer) :
    EvenSent (run s calls).buffer := by
  induction calls generalizing s with
  | nil => exact h
  | cons call calls ih =>
    cases call with
    | take output offset data => exact ih (h.take offset data)
    | complete output => exact ih h.complete

variable {requestedOffset requestedLength : ℤ} {total sent : ℕ}

end Open

end FolderClient.Cfapi.BlockRuns
