import FolderClient.App.VaultRuns

namespace FolderClient.App.SlotRuns

open FolderClient.App.Vault FolderClient.App.VaultRuns FolderClient.Engine.Port
open FolderClient.Library.Programs FolderClient.Library.Programs.Contract FolderClient.Library.Texts

section Slots

/-- The keychain holds exactly the header and the chunks of a value. -/
structure Exactly (slot : String) (value : List UInt8) (k : Keychain) : Prop where
  complete : Complete slot value k
  nothing : ∀ i, i < 1 ∨ chunksOf value < i → k (chunkName slot i) = none

/-- The keychain holds no entry of the slot. -/
def Nothing (slot : String) (k : Keychain) : Prop :=
  k (headerName slot) = none ∧ ∀ i, k (chunkName slot i) = none

/-- Behind the `n`-th chunk no chunk follows a missing one. -/
def Unbroken (slot : String) (k : Keychain) (n : ℕ) : Prop :=
  ∀ i j, n < i → i < j → k (chunkName slot i) = none → k (chunkName slot j) = none

/-- No chunk stands outside of the numbers that can be written. -/
def Bounded (slot : String) (k : Keychain) : Prop :=
  ∀ i, i < 1 ∨ chunkMax < i → k (chunkName slot i) = none

/-- A slot, with what the last operation was to leave there, if that was completed: a value, or
nothing. -/
structure Slot where
  keychain : Keychain
  outcome : Option (Option (List UInt8))

/-- A completed operation has left what it was to leave. -/
def Current (slot : String) (s : Slot) : Prop :=
  match s.outcome with
  | none => True
  | some none => Nothing slot s.keychain
  | some (some value) => Exactly slot value s.keychain

/-- Writes and deletes of a slot one after the other, each of which may be broken off anywhere; one
that is completed meets a condition on what it found and on the chunks it keeps. -/
inductive History (condition : Keychain → ℕ → Prop) (slot : String) : Slot → Prop
  | first {k : Keychain} : Nothing slot k → History condition slot ⟨k, some none⟩
  | wrote {s : Slot} {value : List UInt8} {k : Keychain} : History condition slot s →
      condition s.keychain (chunksOf value) →
      alone.Runs (write slot value).run s.keychain (.ok ()) k →
      History condition slot ⟨k, some (some value)⟩
  | writing {s : Slot} {value : List UInt8} {k : Keychain} : History condition slot s →
      alone.Cut (write slot value).run s.keychain k → History condition slot ⟨k, none⟩
  | deleted {s : Slot} {k : Keychain} : History condition slot s → condition s.keychain 0 →
      alone.Runs (delete slot).run s.keychain (.ok ()) k → History condition slot ⟨k, some none⟩
  | deleting {s : Slot} {k : Keychain} : History condition slot s →
      alone.Cut (delete slot).run s.keychain k → History condition slot ⟨k, none⟩

end Slots

section Clearing

variable {slot : String} {k k' : Keychain} {n number stop : ℕ}

/-- The chunks from one on are deleted up to another; nothing else is touched. -/
structure Cleared (slot : String) (k : Keychain) (number stop : ℕ) (k' : Keychain) : Prop where
  header : k' (headerName slot) = k (headerName slot)
  gone : ∀ i, number ≤ i → i < stop → k' (chunkName slot i) = none
  rest : ∀ i, i < number ∨ stop ≤ i → k' (chunkName slot i) = k (chunkName slot i)

/-- The first of so many chunks that is missing, or the one behind them. -/
structure Stops (slot : String) (k : Keychain) (number n stop : ℕ) : Prop where
  from_ : number ≤ stop
  until_ : stop ≤ number + n
  present : ∀ i, number ≤ i → i < stop → k (chunkName slot i) ≠ none
  missing : stop < number + n → k (chunkName slot stop) = none

theorem cleared_refl : Cleared slot k number number k :=
  ⟨rfl, fun _ h h' ↦ absurd h' (Nat.not_lt.mpr h), fun _ _ ↦ rfl⟩

theorem delete_of_none {name : String} (h : k name = none) : Function.update k name none = k := by
  rw [← h]
  exact Function.update_eq_self name k

theorem Cleared.cons (h : Cleared slot (Function.update k (chunkName slot number) none) (number + 1)
    stop k') (hle : number + 1 ≤ stop) : Cleared slot k number stop k' where
  header := h.header.trans (Function.update_of_ne (headerName_ne_chunkName slot _).symm _ _)
  gone i hi hi' := by
    by_cases hnext : number + 1 ≤ i
    · exact h.gone i hnext hi'
    · obtain rfl : i = number := by omega
      rw [h.rest i (.inl (Nat.lt_succ_self i))]
      exact Function.update_self ..
  rest i hi := by
    rw [h.rest i (by omega)]
    exact Function.update_of_ne (fun he ↦ absurd (chunkName_inj he) (by omega)) _ _

theorem Stops.cons (hsome : k (chunkName slot number) ≠ none)
    (h : Stops slot (Function.update k (chunkName slot number) none) (number + 1) n stop) :
    Stops slot k number (n + 1) stop := by
  have hother : ∀ i, number < i → Function.update k (chunkName slot number) none
      (chunkName slot i) = k (chunkName slot i) :=
    fun i hi ↦ Function.update_of_ne (fun he ↦ absurd (chunkName_inj he) (by omega)) _ _
  have hfrom := h.from_
  have huntil := h.until_
  refine ⟨by omega, by omega, fun i hi hi' ↦ ?_, fun hlt ↦ ?_⟩
  · by_cases hnext : number + 1 ≤ i
    · rw [← hother i hnext]
      exact h.present i hnext hi'
    · obtain rfl : i = number := by omega
      exact hsome
  · rw [← hother stop hfrom]
    exact h.missing (by omega)

/-- Clearing deletes the chunks up to the first that is missing. -/
theorem sound_clearChunks (n number : ℕ) (k : Keychain) :
    alone.Sound (clearChunks slot n number).run (fun r k' ↦ r = .ok () →
      ∃ stop, Stops slot k number n stop ∧ Cleared slot k number stop k') k := by
  induction n generalizing number k with
  | zero =>
    refine fun _ ↦ ⟨number, ⟨le_rfl, le_rfl, ?_, fun h ↦ absurd h (Nat.lt_irrefl _)⟩, cleared_refl⟩
    exact fun i hi hi' ↦ absurd hi' (Nat.not_lt.mpr hi)
  | succ n ih =>
    refine sound_fallible_bind ⟨trivial, fun a k₁ k₂ hs hr ↦ ?_⟩
    obtain rfl := hr
    obtain ⟨rfl, rfl⟩ | ⟨⟨e, rfl⟩, -⟩ := hs
    · change alone.Sound (if (k (chunkName slot number)).isSome = true then
        clearChunks slot n (number + 1) else pure () : Operation Unit).run _ _
      split
      · rename_i hsome
        have hne : k (chunkName slot number) ≠ none := Option.ne_none_iff_isSome.mpr hsome
        refine sound_mono (fun r k' h hok ↦ ?_) (ih (number + 1) _)
        obtain ⟨stop, hstops, hcleared⟩ := h hok
        exact ⟨stop, hstops.cons hne, hcleared.cons hstops.from_⟩
      · rename_i hsome
        have hnone : k (chunkName slot number) = none := Option.not_isSome_iff_eq_none.mp hsome
        rw [delete_of_none hnone]
        refine fun _ ↦ ⟨number, ⟨le_rfl, Nat.le_add_right _ _, ?_, fun _ ↦ hnone⟩, cleared_refl⟩
        exact fun i hi hi' ↦ absurd hi' (Nat.not_lt.mpr hi)
    · exact nofun

/-- What is cleared leaves nothing exactly if there was no gap. -/
theorem cleared_iff (hb : Bounded slot k) (hn : n ≤ chunkMax)
    (hstops : Stops slot k (n + 1) (chunkMax - n) stop) (hc : Cleared slot k (n + 1) stop k') :
    (∀ i, n < i → k' (chunkName slot i) = none) ↔ Unbroken slot k n := by
  constructor
  · intro h i j hi hij hnone
    have hstop : stop ≤ i := by
      by_contra hlt
      exact hstops.present i hi (Nat.not_le.mp hlt) hnone
    rw [← hc.rest j (.inr (by omega))]
    exact h j (by omega)
  · intro h i hi
    by_cases hlt : i < stop
    · exact hc.gone i hi hlt
    · rw [hc.rest i (.inr (Nat.not_lt.mp hlt))]
      have hfrom := hstops.from_
      by_cases hall : stop < n + 1 + (chunkMax - n)
      · have hmissing := hstops.missing hall
        rcases Nat.eq_or_lt_of_le (Nat.not_lt.mp hlt) with rfl | hbehind
        · exact hmissing
        · exact h stop i (by omega) hbehind hmissing
      · exact hb i (.inr (by omega))

end Clearing

section Writing

variable {slot : String} {k k' : Keychain} {value : List UInt8} {j : ℕ}

/-- The first `j` chunks of the value stand; nothing else is touched. -/
structure Stacked (slot : String) (k : Keychain) (value : List UInt8) (j : ℕ) (k' : Keychain) :
    Prop where
  written : ∀ i, 1 ≤ i → i ≤ j → k' (chunkName slot i) = some (piece value i)
  rest : ∀ i, i < 1 ∨ j < i → k' (chunkName slot i) = k (chunkName slot i)

theorem stacked_refl : Stacked slot k value 0 k :=
  ⟨fun _ hi hi' ↦ absurd hi' (by omega), fun _ _ ↦ rfl⟩

theorem Stacked.write (h : Stacked slot k value j k') : Stacked slot k value (j + 1)
    (Function.update k' (chunkName slot (j + 1)) (some (piece value (j + 1)))) where
  written i hi hi' := by
    by_cases hij : i = j + 1
    · subst hij
      exact Function.update_self ..
    · rw [Function.update_of_ne fun he ↦ hij (chunkName_inj he)]
      exact h.written i hi (by omega)
  rest i hi := by
    rw [Function.update_of_ne fun he ↦ absurd (chunkName_inj he) (by omega)]
    exact h.rest i (by omega)

theorem sound_stacking (n : ℕ) (hn : j + n = chunksOf value)
    (hv : ∀ i, i < chunksOf value → chunkBytes * i < value.length)
    (h : Stacked slot k value j k') :
    alone.Sound (writeChunks slot n (j + 1) (value.drop (chunkBytes * j))).run
      (fun r k'' ↦ r = .ok () → Stacked slot k value (chunksOf value) k'') k' := by
  induction n generalizing j k' with
  | zero =>
    obtain rfl : j = chunksOf value := by omega
    exact fun _ ↦ h
  | succ n ih =>
    have hne : ¬ (value.drop (chunkBytes * j)).isEmpty = true := by
      rw [List.isEmpty_iff, List.drop_eq_nil_iff]
      have hlong := hv j (by omega)
      omega
    rw [writeChunks, if_neg hne]
    refine sound_fallible_bind ⟨trivial, fun a k₁ k₂ hs hr ↦ ?_⟩
    obtain rfl := hr
    obtain ⟨rfl, rfl⟩ | ⟨⟨e, rfl⟩, -⟩ := hs
    · change alone.Sound (writeChunks slot n (j + 1 + 1)
        ((value.drop (chunkBytes * j)).drop chunkBytes)).run _ _
      rw [List.drop_drop, ← Nat.mul_succ]
      exact ih (by omega) h.write
    · exact fun h ↦ by cases h

/-- The chunks stand, those behind them are cleared, and the header comes last. -/
theorem sound_finishing (hm : chunksOf value ≤ chunkMax) (hb : Bounded slot k)
    (h : Stacked slot k value (chunksOf value) k') :
    alone.Sound (do
      clearChunks slot (chunkMax - chunksOf value) (chunksOf value + 1)
      setSecret (headerName slot) (utf8 (headerText (chunksOf value) value.length)) :
        Operation Unit).run
      (fun r k'' ↦ r = .ok () →
        (Exactly slot value k'' ↔ Unbroken slot k (chunksOf value))) k' := by
  refine sound_fallible_bind (sound_mono ?_ (sound_clearChunks _ _ k'))
  intro r k₁ hcleared
  cases r with
  | error e => exact nofun
  | ok _ =>
    obtain ⟨stop, hstops, hc⟩ := hcleared rfl
    have hone := one_le_chunksOf value
    have hb' : Bounded slot k' := fun i hi ↦ by
      rw [h.rest i (by omega)]
      exact hb i hi
    have hsame : Unbroken slot k' (chunksOf value) ↔ Unbroken slot k (chunksOf value) := by
      refine forall_congr' fun i ↦ forall_congr' fun j ↦ forall_congr' fun hi ↦
        forall_congr' fun hij ↦ ?_
      rw [h.rest i (.inr hi), h.rest j (.inr (hi.trans hij))]
    have hiff := cleared_iff hb' hm hstops hc
    refine ⟨trivial, fun a k₂ k₃ hs hr hok ↦ ?_⟩
    obtain rfl := hr
    obtain ⟨rfl, rfl⟩ | ⟨⟨e, rfl⟩, -⟩ := hs
    · have hchunk : ∀ i, Function.update k₁ (headerName slot)
          (some (utf8 (headerText (chunksOf value) value.length))) (chunkName slot i) =
            k₁ (chunkName slot i) :=
        fun i ↦ Function.update_of_ne (headerName_ne_chunkName slot i) _ _
      rw [← hsame, ← hiff]
      constructor
      · intro hexact i hi
        rw [← hchunk i]
        exact hexact.nothing i (.inr hi)
      · intro hgone
        refine ⟨⟨hm, Function.update_self .., fun i hi hi' ↦ ?_⟩, fun i hi ↦ ?_⟩
        · rw [hchunk, hc.rest i (.inl (by omega))]
          exact h.written i hi hi'
        · rw [hchunk]
          rcases hi with hi | hi
          · rw [hc.rest i (.inl (by omega))]
            exact hb' i (.inl hi)
          · exact hgone i hi
    · cases hok

theorem sound_write (hb : Bounded slot k) : alone.Sound (write slot value).run
    (fun r k' ↦ r = .ok () →
      (Exactly slot value k' ↔ Unbroken slot k (chunksOf value))) k := by
  have hbytes : chunkBytes = 2048 := rfl
  unfold write
  dsimp only
  split
  · exact nofun
  · rename_i hm
    have hle := Nat.not_lt.mp hm
    cases value with
    | nil =>
      refine sound_fallible_bind ⟨trivial, fun a k₁ k₂ hs hr ↦ ?_⟩
      obtain rfl := hr
      obtain ⟨rfl, rfl⟩ | ⟨⟨e, rfl⟩, -⟩ := hs
      · have hstacked : Stacked slot k [] 1
            (Function.update k (chunkName slot 1) (some (piece [] 1))) :=
          @Stacked.write slot k k [] 0 stacked_refl
        exact sound_finishing hle hb hstacked
      · exact nofun
    | cons b rest =>
      have hfull : ∀ i, i < chunksOf (b :: rest) → chunkBytes * i < (b :: rest).length := by
        intro i hi
        simp only [chunksOf, hbytes, List.length_cons] at hi ⊢
        omega
      have hstacking := @sound_stacking slot k k (b :: rest) 0 (chunksOf (b :: rest))
        (Nat.zero_add _) hfull stacked_refl
      refine sound_fallible_bind (sound_mono ?_ hstacking)
      intro r k' h'
      cases r with
      | ok _ => exact sound_finishing hle hb (h' rfl)
      | error e => exact nofun

theorem sound_delete (hb : Bounded slot k) : alone.Sound (delete slot).run
    (fun r k' ↦ r = .ok () → (Nothing slot k' ↔ Unbroken slot k 0)) k := by
  refine sound_fallible_bind ⟨trivial, fun a k₁ k₂ hs hr ↦ ?_⟩
  obtain rfl := hr
  obtain ⟨rfl, rfl⟩ | ⟨⟨e, rfl⟩, -⟩ := hs
  · have hchunk : ∀ i, Function.update k (headerName slot) none (chunkName slot i) =
        k (chunkName slot i) :=
      fun i ↦ Function.update_of_ne (headerName_ne_chunkName slot i) _ _
    have hb' : Bounded slot (Function.update k (headerName slot) none) := fun i hi ↦ by
      rw [hchunk]
      exact hb i hi
    have hsame : Unbroken slot (Function.update k (headerName slot) none) 0 ↔
        Unbroken slot k 0 := by
      refine forall_congr' fun i ↦ forall_congr' fun j ↦ forall_congr' fun hi ↦
        forall_congr' fun hij ↦ ?_
      rw [hchunk, hchunk]
    change alone.Sound (clearChunks slot chunkMax 1).run _ _
    refine sound_mono (fun r k' h hok ↦ ?_) (sound_clearChunks chunkMax 1 _)
    obtain ⟨stop, hstops, hc⟩ := h hok
    rw [← hsame, ← cleared_iff hb' (Nat.zero_le _) hstops hc]
    constructor
    · exact fun hnothing i _ ↦ hnothing.2 i
    · intro hgone
      refine ⟨hc.header.trans (Function.update_self ..), fun i ↦ ?_⟩
      by_cases hi : 0 < i
      · exact hgone i hi
      · rw [hc.rest i (.inl (by omega))]
        exact hb' i (.inl (by omega))
  · exact nofun

end Writing

section Bounds

variable {slot : String} {k k' : Keychain} {value : List UInt8}

theorem bounded_delete {name : String} (h : Bounded slot k) :
    Bounded slot (Function.update k name none) := by
  intro i hi
  by_cases hname : chunkName slot i = name
  · rw [hname]
    exact Function.update_self ..
  · rw [Function.update_of_ne hname]
    exact h i hi

theorem bounded_header {bytes : List UInt8} (h : Bounded slot k) :
    Bounded slot (Function.update k (headerName slot) (some bytes)) := by
  intro i hi
  rw [Function.update_of_ne (headerName_ne_chunkName slot i)]
  exact h i hi

theorem bounded_chunk {bytes : List UInt8} {j : ℕ} (hone : 1 ≤ j) (hj : j ≤ chunkMax)
    (h : Bounded slot k) : Bounded slot (Function.update k (chunkName slot j) (some bytes)) := by
  intro i hi
  rw [Function.update_of_ne fun he ↦ absurd (chunkName_inj he) (by omega)]
  exact h i hi

/-- The operations on a slot, none of which leaves the numbers of its chunks. -/
abbrev bounding (slot : String) : Contract KeychainRequest KeychainAnswer Keychain :=
  { alone with ok := fun _ ↦ Bounded slot }

theorem bounded_clearChunks (n number : ℕ) (h : Bounded slot k) :
    (bounding slot).Sound (clearChunks slot n number).run (fun _ ↦ Bounded slot) k := by
  induction n generalizing number k with
  | zero => exact h
  | succ n ih =>
    refine sound_fallible_bind ⟨h, fun a k₁ k₂ hs hr ↦ ?_⟩
    obtain rfl := hr
    obtain ⟨rfl, rfl⟩ | ⟨⟨e, rfl⟩, rfl | rfl⟩ := hs
    · change (bounding slot).Sound (if (k (chunkName slot number)).isSome = true then
        clearChunks slot n (number + 1) else pure () : Operation Unit).run _ _
      split
      · exact ih (number + 1) (bounded_delete h)
      · exact bounded_delete h
    · exact h
    · exact bounded_delete h

theorem bounded_writeChunks (n number : ℕ) (value : List UInt8) (hone : 1 ≤ number)
    (hn : number + n ≤ chunkMax + 1) (h : Bounded slot k) :
    (bounding slot).Sound (writeChunks slot n number value).run (fun _ ↦ Bounded slot) k := by
  induction n generalizing number value k with
  | zero => exact h
  | succ n ih =>
    rw [writeChunks]
    split
    · exact h
    · have hset : ∀ bytes, Bounded slot (Function.update k (chunkName slot number) (some bytes)) :=
        fun bytes ↦ bounded_chunk hone (by omega) h
      refine sound_fallible_bind ⟨h, fun a k₁ k₂ hs hr ↦ ?_⟩
      obtain rfl := hr
      obtain ⟨rfl, rfl⟩ | ⟨⟨e, rfl⟩, rfl | rfl⟩ := hs
      · exact ih (number + 1) _ (Nat.le_add_left _ _) (by omega) (hset _)
      · exact h
      · exact hset _

theorem bounded_setHeader {bytes : List UInt8} (h : Bounded slot k) :
    (bounding slot).Sound (setSecret (headerName slot) bytes).run (fun _ ↦ Bounded slot) k := by
  refine ⟨h, fun a k₁ k₂ hs hr ↦ ?_⟩
  obtain rfl := hr
  obtain ⟨rfl, rfl⟩ | ⟨⟨e, rfl⟩, rfl | rfl⟩ := hs
  · exact bounded_header h
  · exact h
  · exact bounded_header h

theorem bounded_write (h : Bounded slot k) :
    (bounding slot).Sound (write slot value).run (fun _ ↦ Bounded slot) k := by
  unfold write
  dsimp only
  split
  · exact h
  · rename_i hm
    have hle := Nat.not_lt.mp hm
    have hone := one_le_chunksOf value
    have hfinish : ∀ k', Bounded slot k' → (bounding slot).Sound (do
        clearChunks slot (chunkMax - chunksOf value) (chunksOf value + 1)
        setSecret (headerName slot) (utf8 (headerText (chunksOf value) value.length)) :
          Operation Unit).run (fun _ ↦ Bounded slot) k' := by
      intro k' h'
      refine sound_fallible_bind (sound_mono ?_ (bounded_clearChunks _ _ h'))
      intro r k'' h''
      cases r with
      | ok _ => exact bounded_setHeader h''
      | error e => exact h''
    refine sound_fallible_bind (sound_mono ?_
      (bounded_writeChunks _ 1 value le_rfl (by omega) h))
    intro r k' h'
    cases r with
    | error e => exact h'
    | ok _ =>
      dsimp only
      split
      · have hset : Bounded slot (Function.update k' (chunkName slot 1) (some [])) :=
          bounded_chunk le_rfl (by decide) h'
        refine sound_fallible_bind ⟨h', fun a k₁ k₂ hs hr ↦ ?_⟩
        obtain rfl := hr
        obtain ⟨rfl, rfl⟩ | ⟨⟨e, rfl⟩, rfl | rfl⟩ := hs
        · exact hfinish _ hset
        · exact h'
        · exact hset
      · exact hfinish k' h'

theorem bounded_of_delete (h : Bounded slot k) :
    (bounding slot).Sound (delete slot).run (fun _ ↦ Bounded slot) k := by
  refine sound_fallible_bind ⟨h, fun a k₁ k₂ hs hr ↦ ?_⟩
  obtain rfl := hr
  obtain ⟨rfl, rfl⟩ | ⟨⟨e, rfl⟩, rfl | rfl⟩ := hs
  · exact bounded_clearChunks _ _ (bounded_delete h)
  · exact h
  · exact bounded_delete h

/-- Whatever is written and deleted, and wherever that is broken off, the chunks keep to their
numbers. -/
theorem bounded_of_history {condition : Keychain → ℕ → Prop} {s : Slot}
    (h : History condition slot s) : Bounded slot s.keychain := by
  induction h with
  | first hnothing => exact fun i _ ↦ hnothing.2 i
  | wrote _ _ hrun ih => exact (hrun.withOk fun _ ↦ Bounded slot).ends (bounded_write ih)
  | writing _ hcut ih =>
    exact (hcut.withOk fun _ ↦ Bounded slot).holds (bounded_write ih) fun _ _ h ↦ h
  | deleted _ _ hrun ih => exact (hrun.withOk fun _ ↦ Bounded slot).ends (bounded_of_delete ih)
  | deleting _ hcut ih =>
    exact (hcut.withOk fun _ ↦ Bounded slot).holds (bounded_of_delete ih) fun _ _ h ↦ h

end Bounds

/-- A completed operation leaves exactly its value, or nothing, as long as every one that is
completed finds no gap behind the chunks it keeps; and only then. -/
theorem exactly_current (slot : String) :
    (∀ s, History (Unbroken slot) slot s → Current slot s) ∧
    ∀ s, History (fun _ _ ↦ True) slot s →
      (∀ value k, alone.Runs (write slot value).run s.keychain (.ok ()) k →
        (Exactly slot value k ↔ Unbroken slot s.keychain (chunksOf value))) ∧
      ∀ k, alone.Runs (delete slot).run s.keychain (.ok ()) k →
        (Nothing slot k ↔ Unbroken slot s.keychain 0) := by
  constructor
  · intro s h
    cases h with
    | first hnothing => exact hnothing
    | wrote hbefore hunbroken hrun =>
      exact (hrun.ends (sound_write (bounded_of_history hbefore)) rfl).mpr hunbroken
    | writing | deleting => exact trivial
    | deleted hbefore hunbroken hrun =>
      exact (hrun.ends (sound_delete (bounded_of_history hbefore)) rfl).mpr hunbroken
  · intro s h
    have hb := bounded_of_history h
    exact ⟨fun value k hrun ↦ hrun.ends (sound_write hb) rfl,
      fun k hrun ↦ hrun.ends (sound_delete hb) rfl⟩

/-- A short value written to a slot that held nothing. -/
theorem exactly_shortly : ∃ s, History (Unbroken "slot") "slot" s ∧ s.outcome = some (some [1]) ∧
    Current "slot" s := by
  obtain ⟨k, hrun⟩ : ∃ k, alone.Runs (write "slot" [1]).run (fun _ ↦ none) (.ok ()) k :=
    wrote_of_fits "slot" _ (by decide)
  have hwrote : History (Unbroken "slot") "slot" ⟨k, some (some [1])⟩ :=
    .wrote (.first ⟨rfl, fun _ ↦ rfl⟩) (fun _ _ _ _ _ ↦ rfl) hrun
  exact ⟨_, hwrote, rfl, (exactly_current "slot").1 _ hwrote⟩

/-- Where no operation fails, a delete is completed. -/
theorem deleted_of_unfailing (slot : String) (k : Keychain) :
    ∃ k', alone.Runs (delete slot).run k (.ok ()) k' := by
  have hok : (carriedOut (delete slot).run k).1 = .ok () := by
    rw [delete, carriedOut_seq rfl]
    exact carriedOut_clearChunks chunkMax 1
  exact ⟨_, hok ▸ runs_carriedOut (delete slot).run k⟩

/-- A delete that is broken off behind the first of two chunks hides the second from every later
one. -/
theorem left_behind : ¬ ∀ slot s, History (fun _ _ ↦ True) slot s → Current slot s := by
  intro hall
  have htwo : chunksOf (List.replicate 4096 (0 : UInt8)) = 2 := by
    rw [chunksOf, List.length_replicate]
    rfl
  obtain ⟨k, hrun⟩ : ∃ k, alone.Runs (write "slot" (List.replicate 4096 0)).run (fun _ ↦ none)
      (.ok ()) k := wrote_of_fits "slot" _ (by rw [htwo]; decide)
  have hwrote : History (fun _ _ ↦ True) "slot" ⟨k, some (some (List.replicate 4096 0))⟩ :=
    .wrote (.first ⟨rfl, fun _ ↦ rfl⟩) trivial hrun
  have hcut : alone.Cut (delete "slot").run k (Function.update
      (Function.update k (headerName "slot") none) (chunkName "slot" 1) none) :=
    .ask (.inl ⟨rfl, rfl⟩) rfl (.ask (.inl ⟨rfl, rfl⟩) rfl (.now _ _))
  have hdeleting := History.deleting hwrote hcut
  obtain ⟨k', hdelete⟩ := deleted_of_unfailing "slot" (Function.update
    (Function.update k (headerName "slot") none) (chunkName "slot" 1) none)
  have hnothing : Nothing "slot" k' := hall _ _ (.deleted hdeleting trivial hdelete)
  have hunbroken := (hdelete.ends (sound_delete (bounded_of_history hdeleting)) rfl).mp hnothing
  have hgone := hunbroken 1 2 (by decide) (by decide) (Function.update_self ..)
  have hother : chunkName "slot" 2 ≠ chunkName "slot" 1 :=
    fun he ↦ absurd (chunkName_inj he) (by decide)
  have hsecond := (complete_of_wrote hrun).written 2 (by decide) (by rw [htwo])
  rw [Function.update_of_ne hother,
    Function.update_of_ne (headerName_ne_chunkName "slot" 2), hsecond] at hgone
  cases hgone

end FolderClient.App.SlotRuns
