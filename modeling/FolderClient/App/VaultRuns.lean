import FolderClient.App.Vault

namespace FolderClient.App.VaultRuns

open FolderClient.App.Vault FolderClient.Engine.Port FolderClient.Library.Programs
open FolderClient.Library.Programs.Contract FolderClient.Library.Texts

/-- The keychain while nobody else writes to it. -/
def alone : Contract KeychainRequest KeychainAnswer Keychain where
  serve := serve
  rely k k' := k' = k
  ok _ _ := True

/-- What has become of a slot: the keychain, the value of the last write that was completed, the
values of the writes broken off since, and whether nothing but a delete came before. -/
structure State where
  keychain : Keychain
  last : Option (List UInt8)
  interrupted : List (List UInt8)
  deleted : Bool

/-- A read tells a value of the last completed write or of one that was broken off since, nothing
after a delete began, or that the slot is corrupt. -/
def Told (slot : String) (s : State) : Prop :=
  match read s.keychain slot with
  | .ok (some value) => s.last = some value ∨ value ∈ s.interrupted
  | .ok none => s.deleted = true
  | .error e => ∃ reason, e = .corrupt slot reason

/-- Writes and deletes of a slot one after the other, each of which may be broken off anywhere; a
write that is broken off meets a condition on what it found and on its value. -/
inductive Run (condition : Keychain → List UInt8 → Prop) (slot : String) : State → Prop
  | first {k : Keychain} : k (headerName slot) = none → Run condition slot ⟨k, none, [], true⟩
  | wrote {s : State} {value : List UInt8} {k : Keychain} : Run condition slot s →
      alone.Runs (write slot value).run s.keychain (.ok ()) k →
      Run condition slot ⟨k, some value, [], false⟩
  | writing {s : State} {value : List UInt8} {k : Keychain} : Run condition slot s →
      condition s.keychain value → alone.Cut (write slot value).run s.keychain k →
      Run condition slot { s with keychain := k, interrupted := value :: s.interrupted }
  | deleted {s : State} {k : Keychain} : Run condition slot s →
      alone.Runs (delete slot).run s.keychain (.ok ()) k → Run condition slot ⟨k, none, [], true⟩
  | deleting {s : State} {k : Keychain} : Run condition slot s →
      alone.Cut (delete slot).run s.keychain k →
      Run condition slot { s with keychain := k, deleted := true }

/-- The `number`-th chunk of a value, counted from 1. -/
def piece (value : List UInt8) (number : ℕ) : List UInt8 :=
  (value.drop (chunkBytes * (number - 1))).take chunkBytes

/-- The bytes that stand in the `number`-th chunk once `j` chunks of a value are written. -/
def standing (slot : String) (k : Keychain) (value : List UInt8) (j number : ℕ) : List UInt8 :=
  if number ≤ j then piece value number else (k (chunkName slot number)).getD []

/-- How far a write has come, the chunks that stand add up to another length than the header
names, or the chunks written stood there before, or what stands behind them is the rest of the
value. -/
def Separate (slot : String) (k : Keychain) (value : List UInt8) : Prop :=
  ∀ header chunks length, k (headerName slot) = some header →
    readHeader slot header = .ok (chunks, length) → ∀ j, 1 ≤ j → j ≤ chunksOf value →
      ((List.range' 1 chunks).map fun i ↦ (standing slot k value j i).length).sum = length →
        (∀ i, 1 ≤ i → i ≤ j → i ≤ chunks → k (chunkName slot i) = some (piece value i)) ∨
          chunks = chunksOf value ∧
            ∀ i, j < i → i ≤ chunks → k (chunkName slot i) = some (piece value i)

section Reading

variable {slot : String} {k k' : Keychain} {chunks n number : ℕ} {value : List UInt8}

theorem readChunks_congr (h : ∀ i, number ≤ i → i < number + n →
    k' (chunkName slot i) = k (chunkName slot i)) :
    readChunks k' slot chunks n number = readChunks k slot chunks n number := by
  induction n generalizing number with
  | zero => rfl
  | succ n ih =>
    rw [readChunks, readChunks, h number (le_refl _) (by omega),
      ih fun i hi hi' ↦ h i (by omega) (by omega)]

theorem readChunks_error {e : VaultError} (h : readChunks k slot chunks n number = .error e) :
    ∃ reason, e = .corrupt slot reason := by
  induction n generalizing number with
  | zero => cases h
  | succ n ih =>
    rw [readChunks] at h
    split at h
    · exact ⟨_, (Except.error.inj h).symm⟩
    · cases hr : readChunks k slot chunks n (number + 1) with
      | ok v => rw [hr] at h; cases h
      | error e' =>
        rw [hr] at h
        obtain rfl := Except.error.inj h
        exact ih hr

/-- What is read stands in the chunks, all of which are there. -/
theorem readChunks_eq_ok (h : readChunks k slot chunks n number = .ok value) :
    (∀ i, number ≤ i → i < number + n → (k (chunkName slot i)).isSome = true) ∧
      value = ((List.range' number n).map fun i ↦ (k (chunkName slot i)).getD []).flatten := by
  induction n generalizing number value with
  | zero =>
    obtain rfl := Except.ok.inj h
    exact ⟨fun i hi hi' ↦ by omega, rfl⟩
  | succ n ih =>
    rw [readChunks] at h
    split at h
    · cases h
    · rename_i part hpart
      cases hr : readChunks k slot chunks n (number + 1) with
      | error e => rw [hr] at h; cases h
      | ok rest =>
        rw [hr] at h
        obtain rfl := Except.ok.inj h
        obtain ⟨hsome, hrest⟩ := ih hr
        refine ⟨fun i hi hi' ↦ ?_, ?_⟩
        · obtain rfl | hlt := Nat.eq_or_lt_of_le hi
          · rw [hpart]
            rfl
          · exact hsome i hlt (by omega)
        · rw [List.range'_succ, List.map_cons, List.flatten_cons, hpart, ← hrest]
          rfl

theorem readChunks_pieces (h : ∀ i, number ≤ i → i < number + n →
    k (chunkName slot i) = some (piece value i)) (hn : 1 ≤ number) :
    readChunks k slot chunks n number =
      .ok ((value.drop (chunkBytes * (number - 1))).take (chunkBytes * n)) := by
  induction n generalizing number with
  | zero => simp [readChunks]
  | succ n ih =>
    have hnext : number - 1 + 1 = number := by omega
    rw [readChunks, h number (le_refl _) (by omega),
      ih (fun i hi hi' ↦ h i (by omega) (by omega)) (by omega)]
    change Except.ok _ = _
    rw [piece, Nat.add_sub_cancel, Nat.mul_succ, Nat.add_comm (chunkBytes * n), List.take_add,
      List.drop_drop, ← Nat.mul_succ, Nat.succ_eq_add_one, hnext]

theorem length_le_chunksOf (value : List UInt8) : value.length ≤ chunkBytes * chunksOf value := by
  have hb : chunkBytes = 2048 := rfl
  simp only [chunksOf, hb]
  omega

theorem one_le_chunksOf (value : List UInt8) : 1 ≤ chunksOf value := Nat.le_max_left ..

/-- A slot whose header and chunks are those of a value holds the value. -/
theorem read_of_pieces (hm : chunksOf value ≤ chunkMax)
    (hk : k (headerName slot) = some (utf8 (headerText (chunksOf value) value.length)))
    (h : ∀ i, 1 ≤ i → i ≤ chunksOf value → k (chunkName slot i) = some (piece value i)) :
    read k slot = .ok (some value) := by
  have hlength : value.length < 2 ^ 64 := by
    have hle := length_le_chunksOf value
    have hb : chunkBytes = 2048 := rfl
    have hc : chunkMax = 64 := rfl
    rw [hb] at hle
    omega
  have hheader : readHeader slot (utf8 (headerText (chunksOf value) value.length)) = _ :=
    readHeader_headerText (one_le_chunksOf value) hm hlength
  have hchunks : readChunks k slot (chunksOf value) (chunksOf value) 1 = _ :=
    readChunks_pieces (fun i hi hi' ↦ h i hi (by omega)) (le_refl 1)
  rw [Nat.sub_self, Nat.mul_zero, List.drop_zero,
    List.take_of_length_le (length_le_chunksOf value)] at hchunks
  simp only [Vault.read, hk, hheader, hchunks, ne_eq, not_true_eq_false, if_false]

end Reading

section Breaking

variable {slot : String} {k k' : Keychain} {value : List UInt8} {j : ℕ}

/-- The first `j` chunks of the value stand, behind the header and the chunks that stood before or
are cleared. -/
structure Torn (slot : String) (k : Keychain) (value : List UInt8) (j : ℕ) (k' : Keychain) :
    Prop where
  header : k' (headerName slot) = k (headerName slot)
  written : ∀ i, 1 ≤ i → i ≤ j → k' (chunkName slot i) = some (piece value i)
  behind : ∀ i, j < i → k' (chunkName slot i) = k (chunkName slot i) ∨
    k' (chunkName slot i) = none

structure Complete (slot : String) (value : List UInt8) (k' : Keychain) : Prop where
  fits : chunksOf value ≤ chunkMax
  header : k' (headerName slot) = some (utf8 (headerText (chunksOf value) value.length))
  written : ∀ i, 1 ≤ i → i ≤ chunksOf value → k' (chunkName slot i) = some (piece value i)

/-- How far the write of a value can have come. -/
def Reached (slot : String) (k : Keychain) (value : List UInt8) (k' : Keychain) : Prop :=
  (∃ j, j ≤ chunksOf value ∧ Torn slot k value j k') ∨ Complete slot value k'

theorem Complete.read (h : Complete slot value k) : read k slot = .ok (some value) :=
  read_of_pieces h.fits h.header h.written

/-- Where a torn slot can be read at all, its chunks add up as they stand. -/
theorem standing_of_torn {chunks n number : ℕ} {v : List UInt8} (h : Torn slot k value j k')
    (hn : 1 ≤ number) (hv : readChunks k' slot chunks n number = .ok v) :
    (∀ i, number ≤ i → i < number + n → j < i →
      k' (chunkName slot i) = k (chunkName slot i)) ∧
    v.length = ((List.range' number n).map fun i ↦ (standing slot k value j i).length).sum := by
  obtain ⟨hsome, rfl⟩ := readChunks_eq_ok hv
  have hsame : ∀ i, number ≤ i → i < number + n → j < i →
      k' (chunkName slot i) = k (chunkName slot i) := by
    intro i hi hi' hj
    obtain he | he := h.behind i hj
    · exact he
    · have := hsome i hi hi'
      rw [he] at this
      cases this
  refine ⟨hsame, ?_⟩
  rw [List.length_flatten, List.map_map]
  congr 1
  refine List.map_congr_left fun i hi ↦ ?_
  obtain ⟨hlow, hhigh⟩ := List.mem_range'_1.mp hi
  change ((k' (chunkName slot i)).getD []).length = _
  rw [standing]
  split
  · rename_i hj
    rw [h.written i (by omega) hj]
    rfl
  · rename_i hj
    rw [hsame i hlow hhigh (by omega)]

/-- A slot whose write is broken off tells what it told, the value, or that it is corrupt. -/
theorem told_of_torn {s : State} (ht : Told slot s) (hs : Separate slot s.keychain value)
    (hj : j ≤ chunksOf value) (h : Torn slot s.keychain value j k') :
    Told slot { s with keychain := k', interrupted := value :: s.interrupted } := by
  have hbefore : read k' slot = read s.keychain slot →
      Told slot { s with keychain := k', interrupted := value :: s.interrupted } := by
    intro hr
    unfold Told at ht ⊢
    dsimp only
    rw [hr]
    split at ht
    · exact ht.imp_right (List.mem_cons_of_mem _)
    · exact ht
    · exact ht
  have hcorrupt : ∀ reason, read k' slot = .error (.corrupt slot reason) →
      Told slot { s with keychain := k', interrupted := value :: s.interrupted } := by
    intro reason hr
    simp only [Told, hr]
    exact ⟨reason, rfl⟩
  cases hk : s.keychain (headerName slot) with
  | none =>
    refine hbefore ?_
    simp only [Vault.read, h.header, hk]
  | some header =>
    cases hh : readHeader slot header with
    | error e =>
      refine hbefore ?_
      simp only [Vault.read, h.header, hk, hh]
    | ok x =>
      obtain ⟨chunks, length⟩ := x
      cases hv : readChunks k' slot chunks chunks 1 with
      | error e =>
        obtain ⟨reason, rfl⟩ := readChunks_error hv
        refine hcorrupt reason ?_
        simp only [Vault.read, h.header, hk, hh, hv]
      | ok v =>
        obtain ⟨hsame, hlength⟩ := standing_of_torn h (le_refl 1) hv
        by_cases hl : v.length = length
        · -- the lengths add up: what stands was there before, or is the value
          obtain rfl | hpos := Nat.eq_zero_or_pos j
          · refine hbefore ?_
            simp only [Vault.read, h.header, hk, hh]
            rw [readChunks_congr fun i hi hi' ↦ hsame i hi hi' hi]
          · obtain hold | ⟨rfl, hrest⟩ := hs header chunks length hk hh j hpos hj
              (hlength.symm.trans hl)
            · refine hbefore ?_
              simp only [Vault.read, h.header, hk, hh]
              rw [readChunks_congr fun i hi hi' ↦ ?_]
              obtain hij | hij := Nat.lt_or_ge j i
              · exact hsame i hi hi' hij
              · rw [h.written i hi hij, hold i hi hij (by omega)]
            · have hpieces : readChunks k' slot (chunksOf value) (chunksOf value) 1 =
                  .ok ((value.drop (chunkBytes * (1 - 1))).take (chunkBytes * chunksOf value)) :=
                readChunks_pieces (fun i hi hi' ↦ ?_) (le_refl 1)
              · rw [Nat.sub_self, Nat.mul_zero, List.drop_zero,
                  List.take_of_length_le (length_le_chunksOf value), hv] at hpieces
                obtain rfl := Except.ok.inj hpieces
                have hr : read k' slot = .ok (some v) := by
                  simp only [Vault.read, h.header, hk, hh, hv, hl, ne_eq, not_true_eq_false, if_false]
                simp only [Told, hr]
                exact .inr List.mem_cons_self
              · obtain hij | hij := Nat.lt_or_ge j i
                · rw [hsame i hi hi' hij, hrest i hij (by omega)]
                · exact h.written i hi hij
        · refine hcorrupt s!"the header names {length} bytes, the chunks add up to {v.length}" ?_
          simp only [Vault.read, h.header, hk, hh, hv]
          rw [if_pos hl]

end Breaking

section Writing

variable {slot : String} {k k' : Keychain} {value : List UInt8} {j : ℕ}

/-- A write of the value, request by request: wherever it is broken off, it has come that far. -/
abbrev reaching (slot : String) (k : Keychain) (value : List UInt8) :
    Contract KeychainRequest KeychainAnswer Keychain :=
  { alone with ok := fun _ ↦ Reached slot k value }

theorem torn_refl : Torn slot k value 0 k :=
  ⟨rfl, fun _ hi hi' ↦ absurd hi' (by omega), fun _ _ ↦ .inl rfl⟩

theorem reached_of_torn (hj : j ≤ chunksOf value) (h : Torn slot k value j k') :
    Reached slot k value k' := .inl ⟨j, hj, h⟩

theorem Torn.write (h : Torn slot k value j k') :
    Torn slot k value (j + 1)
      (Function.update k' (chunkName slot (j + 1)) (some (piece value (j + 1)))) where
  header := (Function.update_of_ne (headerName_ne_chunkName slot _).symm _ _).trans h.header
  written i hi hi' := by
    by_cases hij : i = j + 1
    · subst hij
      exact Function.update_self ..
    · rw [Function.update_of_ne fun he ↦ hij (chunkName_inj he)]
      exact h.written i hi (by omega)
  behind i hi := by
    rw [Function.update_of_ne fun he ↦ absurd (chunkName_inj he) (by omega)]
    exact h.behind i (by omega)

theorem Torn.clear {number : ℕ} (hn : j < number) (h : Torn slot k value j k') :
    Torn slot k value j (Function.update k' (chunkName slot number) none) where
  header := (Function.update_of_ne (headerName_ne_chunkName slot _).symm _ _).trans h.header
  written i hi hi' := by
    rw [Function.update_of_ne fun he ↦ absurd (chunkName_inj he) (by omega)]
    exact h.written i hi hi'
  behind i hi := by
    by_cases hij : i = number
    · subst hij
      exact .inr (Function.update_self ..)
    · rw [Function.update_of_ne fun he ↦ hij (chunkName_inj he)]
      exact h.behind i hi

theorem Torn.complete (hm : chunksOf value ≤ chunkMax) (h : Torn slot k value (chunksOf value) k') :
    Complete slot value (Function.update k' (headerName slot)
      (some (utf8 (headerText (chunksOf value) value.length)))) where
  fits := hm
  header := Function.update_self ..
  written i hi hi' := by
    rw [Function.update_of_ne (headerName_ne_chunkName slot _)]
    exact h.written i hi hi'

/-- The chunk that is set next. -/
theorem sound_setChunk_bind {α : Type} {f : Unit → Operation α} {Q : Except VaultError α → Keychain → Prop}
    (hj : j + 1 ≤ chunksOf value) (h : Torn slot k value j k')
    (hf : ∀ k'', Torn slot k value (j + 1) k'' → (reaching slot k value).Sound (f ()).run Q k'')
    (he : ∀ e k'', Reached slot k value k'' → Q (.error e) k'') :
    (reaching slot k value).Sound
      (setSecret (chunkName slot (j + 1)) (piece value (j + 1)) >>= f).run Q k' := by
  refine sound_fallible_bind ⟨reached_of_torn (by omega) h, fun a k₁ k₂ hs hr ↦ ?_⟩
  obtain rfl := hr
  obtain ⟨rfl, rfl⟩ | ⟨⟨e, rfl⟩, rfl | rfl⟩ := hs
  · exact hf _ h.write
  · exact he e _ (reached_of_torn (by omega) h)
  · exact he e _ (reached_of_torn hj h.write)

theorem sound_writeChunks (n : ℕ) (hn : j + n = chunksOf value)
    (hv : ∀ i, i < chunksOf value → chunkBytes * i < value.length)
    (h : Torn slot k value j k') :
    (reaching slot k value).Sound
      (writeChunks slot n (j + 1) (value.drop (chunkBytes * j))).run
      (fun r k'' ↦ Reached slot k value k'' ∧
        (r = .ok () → Torn slot k value (chunksOf value) k'')) k' := by
  induction n generalizing j k' with
  | zero =>
    obtain rfl : j = chunksOf value := by omega
    exact ⟨reached_of_torn (le_refl _) h, fun _ ↦ h⟩
  | succ n ih =>
    have hne : ¬ (value.drop (chunkBytes * j)).isEmpty = true := by
      rw [List.isEmpty_iff, List.drop_eq_nil_iff]
      have := hv j (by omega)
      omega
    rw [writeChunks, if_neg hne]
    refine sound_setChunk_bind (by omega) h (fun k'' h'' ↦ ?_) fun e k'' h'' ↦ ⟨h'', nofun⟩
    rw [List.drop_drop, ← Nat.mul_succ]
    exact ih (by omega) h''

theorem sound_clearing (n : ℕ) {number : ℕ} (hn : chunksOf value < number)
    (h : Torn slot k value (chunksOf value) k') :
    (reaching slot k value).Sound (clearChunks slot n number).run
      (fun _ ↦ Torn slot k value (chunksOf value)) k' := by
  induction n generalizing number k' with
  | zero => exact h
  | succ n ih =>
    refine sound_fallible_bind ⟨reached_of_torn (le_refl _) h, fun a k₁ k₂ hs hr ↦ ?_⟩
    obtain rfl := hr
    have hcleared := h.clear hn
    obtain ⟨rfl, rfl⟩ | ⟨⟨e, rfl⟩, rfl | rfl⟩ := hs
    · change (reaching slot k value).Sound (if (k' (chunkName slot number)).isSome = true then
        clearChunks slot n (number + 1) else pure () : Operation Unit).run _ _
      split
      · exact ih (by omega) hcleared
      · exact hcleared
    · exact h
    · exact hcleared

theorem sound_headed (hm : chunksOf value ≤ chunkMax)
    (h : Torn slot k value (chunksOf value) k') :
    (reaching slot k value).Sound
      (setSecret (headerName slot) (utf8 (headerText (chunksOf value) value.length))).run
      (fun r k'' ↦ Reached slot k value k'' ∧ (r = .ok () → Complete slot value k'')) k' := by
  have hcomplete := h.complete hm
  refine ⟨reached_of_torn (le_refl _) h, fun a k₁ k₂ hs hr ↦ ?_⟩
  obtain rfl := hr
  obtain ⟨rfl, rfl⟩ | ⟨⟨e, rfl⟩, rfl | rfl⟩ := hs
  · exact ⟨.inr hcomplete, fun _ ↦ hcomplete⟩
  · exact ⟨reached_of_torn (le_refl _) h, nofun⟩
  · exact ⟨.inr hcomplete, nofun⟩

theorem sound_write (slot : String) (k : Keychain) (value : List UInt8) :
    (reaching slot k value).Sound (write slot value).run
      (fun r k' ↦ Reached slot k value k' ∧ (r = .ok () → Complete slot value k')) k := by
  have hb : chunkBytes = 2048 := rfl
  unfold write
  dsimp only
  split
  · exact ⟨reached_of_torn (Nat.zero_le _) torn_refl, nofun⟩
  rename_i hm
  have hrest : ∀ k', Torn slot k value (chunksOf value) k' → (reaching slot k value).Sound
      (do clearChunks slot (chunkMax - chunksOf value) (chunksOf value + 1)
          setSecret (headerName slot) (utf8 (headerText (chunksOf value) value.length)) :
            Operation Unit).run
      (fun r k' ↦ Reached slot k value k' ∧ (r = .ok () → Complete slot value k')) k' := by
    intro k' h
    refine sound_fallible_bind (sound_mono ?_ (sound_clearing _ (by omega) h))
    intro r k'' h''
    cases r with
    | ok _ => exact sound_headed (by omega) h''
    | error e => exact ⟨reached_of_torn (le_refl _) h'', nofun⟩
  cases value with
  | nil => exact sound_setChunk_bind (le_refl 1) torn_refl hrest fun e k'' h'' ↦ ⟨h'', nofun⟩
  | cons b rest =>
    have hfull : ∀ i, i < chunksOf (b :: rest) → chunkBytes * i < (b :: rest).length := by
      intro i hi
      simp only [chunksOf, hb, List.length_cons] at hi ⊢
      omega
    have htorn : Torn slot k (b :: rest) 0 k := torn_refl
    have hwritten := sound_writeChunks (chunksOf (b :: rest)) (Nat.zero_add _) hfull htorn
    refine sound_fallible_bind (sound_mono ?_ hwritten)
    intro r k' h'
    cases r with
    | ok _ => exact hrest k' (h'.2 rfl)
    | error e => exact ⟨h'.1, nofun⟩

end Writing

section Deleting

variable {slot : String} {k : Keychain}

/-- The header is deleted first. -/
def Emptied (slot : String) (k k' : Keychain) : Prop := k' = k ∨ k' (headerName slot) = none

abbrev emptying (slot : String) (k : Keychain) :
    Contract KeychainRequest KeychainAnswer Keychain :=
  { alone with ok := fun _ ↦ Emptied slot k }

theorem sound_clearedOut (n number : ℕ) {k' : Keychain} (h : k' (headerName slot) = none) :
    (emptying slot k).Sound (clearChunks slot n number).run
      (fun _ k'' ↦ k'' (headerName slot) = none) k' := by
  induction n generalizing number k' with
  | zero => exact h
  | succ n ih =>
    refine sound_fallible_bind ⟨.inr h, fun a k₁ k₂ hs hr ↦ ?_⟩
    obtain rfl := hr
    have hcleared : Function.update k' (chunkName slot number) none (headerName slot) = none :=
      (Function.update_of_ne (headerName_ne_chunkName slot _).symm _ _).trans h
    obtain ⟨rfl, rfl⟩ | ⟨⟨e, rfl⟩, rfl | rfl⟩ := hs
    · change (emptying slot k).Sound (if (k' (chunkName slot number)).isSome = true then
        clearChunks slot n (number + 1) else pure () : Operation Unit).run _ _
      split
      · exact ih (number + 1) hcleared
      · exact hcleared
    · exact h
    · exact hcleared

theorem sound_delete (slot : String) (k : Keychain) :
    (emptying slot k).Sound (delete slot).run
      (fun r k' ↦ Emptied slot k k' ∧ (r = .ok () → k' (headerName slot) = none)) k := by
  refine sound_fallible_bind ⟨.inl rfl, fun a k₁ k₂ hs hr ↦ ?_⟩
  obtain rfl := hr
  have hnone : Function.update k (headerName slot) none (headerName slot) = none :=
    Function.update_self ..
  obtain ⟨rfl, rfl⟩ | ⟨⟨e, rfl⟩, rfl | rfl⟩ := hs
  · change (emptying slot k).Sound (clearChunks slot chunkMax 1).run _ _
    exact sound_mono (fun _ _ h ↦ ⟨.inr h, fun _ ↦ h⟩) (sound_clearedOut _ _ hnone)
  · exact ⟨.inl rfl, nofun⟩
  · exact ⟨.inr hnone, nofun⟩

end Deleting

section Runs

variable {slot : String} {s : State} {k k' : Keychain} {value : List UInt8}

theorem complete_of_wrote (h : alone.Runs (write slot value).run k (.ok ()) k') :
    Complete slot value k' :=
  ((h.withOk fun _ ↦ Reached slot k value).ends (sound_write slot k value)).2 rfl

theorem reached_of_writing (h : alone.Cut (write slot value).run k k') :
    Reached slot k value k' :=
  (h.withOk fun _ ↦ Reached slot k value).holds
    (sound_mono (fun _ _ h ↦ h.1) (sound_write slot k value)) fun _ _ h ↦ h

theorem told_of_complete (h : Complete slot value s.keychain)
    (hv : s.last = some value ∨ value ∈ s.interrupted) : Told slot s := by
  simp only [Told, h.read]
  exact hv

theorem told_of_empty (h : s.keychain (headerName slot) = none) (hd : s.deleted = true) :
    Told slot s := by
  have hr : read s.keychain slot = .ok none := by simp only [Vault.read, h]
  simp only [Told, hr]
  exact hd

theorem told_of_step (h : Run (Separate slot) slot s) : Told slot s := by
  induction h with
  | first hk => exact told_of_empty hk rfl
  | wrote _ hrun => exact told_of_complete (complete_of_wrote hrun) (.inl rfl)
  | writing _ hs hcut ih =>
    obtain ⟨j, hj, ht⟩ | hc := reached_of_writing hcut
    · exact told_of_torn ih hs hj ht
    · exact told_of_complete hc (.inr List.mem_cons_self)
  | @deleted s k _ hrun =>
    exact told_of_empty (((hrun.withOk fun _ ↦ Emptied slot s.keychain).ends
      (sound_delete slot s.keychain)).2 rfl) rfl
  | @deleting s k _ hcut ih =>
    obtain rfl | hnone := (hcut.withOk fun _ ↦ Emptied slot s.keychain).holds
      (sound_mono (fun _ _ h ↦ h.1) (sound_delete slot s.keychain)) fun _ _ h ↦ h
    · unfold Told at ih ⊢
      dsimp only
      split at ih
      · exact ih
      · rfl
      · exact ih
    · exact told_of_empty hnone rfl

/-- Whatever is written to a slot and deleted, and wherever that is broken off: as long as the
lengths give away every write that is broken off, a read tells a value that was written as a whole,
nothing after a delete, or that the slot is corrupt; and after a completed write its value. -/
theorem told_of_run (h : Run (Separate slot) slot s) :
    Told slot s ∧ ∀ value k, alone.Runs (write slot value).run s.keychain (.ok ()) k →
      read k slot = .ok (some value) :=
  ⟨told_of_step h, fun _ _ hrun ↦ (complete_of_wrote hrun).read⟩

/-- A value shorter than a chunk is told apart by its length, and so is every value that is written
over one. -/
theorem separate_of_short {old : List UInt8} (h : Complete slot old k)
    (hs : old.length < chunkBytes ∨ value.length < chunkBytes) : Separate slot k value := by
  intro header chunks length hk hh j hj hjv hsum
  have hlength : old.length < 2 ^ 64 := by
    have hle := length_le_chunksOf old
    have hfits := h.fits
    have hb : chunkBytes = 2048 := rfl
    have hc : chunkMax = 64 := rfl
    rw [hb] at hle
    omega
  obtain rfl := Option.some.inj (h.header.symm.trans hk)
  rw [readHeader_headerText (one_le_chunksOf old) h.fits hlength] at hh
  obtain ⟨rfl, rfl⟩ := Prod.mk.inj (Except.ok.inj hh)
  have hb : chunkBytes = 2048 := rfl
  have hone : ∀ v : List UInt8, v.length < chunkBytes → chunksOf v = 1 := by
    intro v hv
    simp only [chunksOf, hb] at hv ⊢
    omega
  obtain hshort | hshort := hs
  · -- the only chunk of the old value has the length of the new one's first
    rw [hone old hshort] at hsum ⊢
    have hfirst : (piece value 1).length = old.length := by
      simpa [standing, List.range', hj] using hsum
    have hvalue : value.length < chunkBytes := by
      simp only [piece, Nat.sub_self, Nat.mul_zero, List.drop_zero, List.length_take, hb] at hfirst hshort ⊢
      omega
    exact .inr ⟨(hone value hvalue).symm, fun i hi hi' ↦ by omega⟩
  · have hcv := hone value hshort
    obtain rfl : j = 1 := by omega
    by_cases hco : chunksOf old = 1
    · exact .inr ⟨hco.trans hcv.symm, fun i hi hi' ↦ by omega⟩
    · -- all but the first chunk are those of the old value
      exfalso
      obtain ⟨n, hn⟩ : ∃ n, chunksOf old = n + 2 := ⟨chunksOf old - 2, by
        have := one_le_chunksOf old
        omega⟩
      have hread : readChunks k slot (chunksOf old) (n + 1) 2 = _ :=
        readChunks_pieces (fun i hi hi' ↦ h.written i (by omega) (by omega)) (by omega)
      obtain ⟨-, hrest⟩ := readChunks_eq_ok hread
      have hlen := congrArg List.length hrest
      rw [List.length_flatten, List.map_map] at hlen
      rw [hn, List.range'_succ, List.map_cons, List.sum_cons] at hsum
      have htail : ((List.range' (1 + 1) (n + 1)).map fun i ↦
          (standing slot k value 1 i).length).sum = ((List.range' 2 (n + 1)).map
            (List.length ∘ fun i ↦ (k (chunkName slot i)).getD [])).sum := by
        congr 1
        refine List.map_congr_left fun i hi ↦ ?_
        have := (List.mem_range'_1.mp hi).1
        simp only [standing, Function.comp_apply]
        rw [if_neg (by omega)]
      rw [htail, ← hlen] at hsum
      have hfirst : (standing slot k value 1 1).length = value.length := by
        simp only [standing, le_refl, if_true, piece, Nat.sub_self, Nat.mul_zero, List.drop_zero,
          List.length_take]
        omega
      rw [hfirst] at hsum
      simp only [List.length_take, List.length_drop, hb, chunksOf] at hsum hn hshort
      omega

section Unfailing

/-- What becomes of a program when no operation fails. -/
def carriedOut {α : Type} : Program KeychainRequest KeychainAnswer α → Keychain → α × Keychain
  | .done a, k => (a, k)
  | .ask (.setSecret name bytes) next, k =>
    carriedOut (next (.ok ())) (Function.update k name (some bytes))
  | .ask (.deleteCredential name) next, k =>
    carriedOut (next (.ok (k name).isSome)) (Function.update k name none)

theorem runs_carriedOut {α : Type} (p : Program KeychainRequest KeychainAnswer α) (k : Keychain) :
    alone.Runs p k (carriedOut p k).1 (carriedOut p k).2 := by
  induction p generalizing k with
  | done a => exact .done a k
  | ask r next ih =>
    cases r with
    | setSecret name bytes => exact .ask (.inl ⟨rfl, rfl⟩) rfl (ih _ _)
    | deleteCredential name => exact .ask (.inl ⟨rfl, rfl⟩) rfl (ih _ _)

theorem carriedOut_bind {α β : Type} {p : Program KeychainRequest KeychainAnswer α}
    {f : α → Program KeychainRequest KeychainAnswer β} :
    carriedOut (p >>= f) k = carriedOut (f (carriedOut p k).1) (carriedOut p k).2 := by
  induction p generalizing k with
  | done a => rfl
  | ask r next ih => cases r <;> exact ih _

theorem carriedOut_seq {α β : Type} {p : Operation α} {f : α → Operation β} {a : α}
    (h : (carriedOut p.run k).1 = .ok a) :
    carriedOut (p >>= f).run k = carriedOut (f a).run (carriedOut p.run k).2 := by
  have hp : (carriedOut p k).1 = .ok a := h
  refine carriedOut_bind.trans ?_
  rw [hp]
  rfl

theorem carriedOut_clearChunks (n number : ℕ) :
    (carriedOut (clearChunks slot n number).run k).1 = .ok () := by
  induction n generalizing number k with
  | zero => rfl
  | succ n ih =>
    rw [clearChunks, carriedOut_seq rfl]
    split
    · exact ih (number + 1)
    · rfl

theorem carriedOut_writeChunks (n number : ℕ) (value : List UInt8) :
    (carriedOut (writeChunks slot n number value).run k).1 = .ok () := by
  induction n generalizing number value k with
  | zero => rfl
  | succ n ih =>
    rw [writeChunks]
    split
    · rfl
    · rw [carriedOut_seq rfl]
      exact ih (number + 1) _

/-- Where no operation fails, the write of a value that fits is completed. -/
theorem wrote_of_fits (slot : String) (k : Keychain) (hm : chunksOf value ≤ chunkMax) :
    ∃ k', alone.Runs (write slot value).run k (.ok ()) k' := by
  have hok : (carriedOut (write slot value).run k).1 = .ok () := by
    unfold write
    dsimp only
    rw [if_neg (Nat.not_lt.mpr hm), carriedOut_seq (carriedOut_writeChunks _ _ _)]
    cases value with
    | nil =>
      rw [if_pos List.isEmpty_nil, carriedOut_seq rfl, carriedOut_seq (carriedOut_clearChunks _ _)]
      rfl
    | cons b rest =>
      have hne : ¬ (b :: rest).isEmpty = true := Bool.false_ne_true
      rw [if_neg hne, carriedOut_seq (carriedOut_clearChunks _ _)]
      rfl
  exact ⟨_, hok ▸ runs_carriedOut (write slot value).run k⟩

end Unfailing

/-- A short value, and another one of which only the chunk was written. -/
theorem told_shortly : ∃ s, Run (Separate "slot") "slot" s ∧ s.interrupted = [[2]] ∧
    Told "slot" s := by
  obtain ⟨k, hrun⟩ : ∃ k, alone.Runs (write "slot" [1]).run (fun _ ↦ none) (.ok ()) k :=
    wrote_of_fits "slot" _ (by decide)
  have hwrote : Run (Separate "slot") "slot" ⟨k, some [1], [], false⟩ :=
    .wrote (.first rfl) hrun
  have hseparate : Separate "slot" k [2] :=
    separate_of_short (complete_of_wrote hrun) (.inl (by decide))
  have hcut : alone.Cut (write "slot" [2]).run k
      (Function.update k (chunkName "slot" 1) (some [2])) :=
    .ask (.inl ⟨rfl, rfl⟩) rfl (.now _ _)
  have hbroken := Run.writing hwrote hseparate hcut
  exact ⟨_, hbroken, rfl, (told_of_run hbroken).1⟩

/-- Of two values of two full chunks, the first chunk of the one stands before the second of the
other, and the length gives nothing away. -/
theorem mixed_of_equal_length :
    ¬ ∀ slot s, Run (fun _ _ ↦ True) slot s → Told slot s := by
  intro hall
  have hold : chunksOf (List.replicate 4096 (0 : UInt8)) = 2 := by
    rw [chunksOf, List.length_replicate]
    rfl
  have hnew : chunksOf (List.replicate 4096 (1 : UInt8)) = 2 := by
    rw [chunksOf, List.length_replicate]
    rfl
  obtain ⟨k, hrun⟩ : ∃ k, alone.Runs (write "slot" (List.replicate 4096 0)).run (fun _ ↦ none)
      (.ok ()) k := wrote_of_fits "slot" _ (by rw [hold]; decide)
  have hwrote : Run (fun _ _ ↦ True) "slot" ⟨k, some (List.replicate 4096 0), [], false⟩ :=
    .wrote (.first rfl) hrun
  have hcut : alone.Cut (write "slot" (List.replicate 4096 1)).run k
      (Function.update k (chunkName "slot" 1) (some (List.replicate 2048 1))) := by
    have hpiece : (List.replicate 4096 (1 : UInt8)).take chunkBytes = List.replicate 2048 1 := by
      rw [List.take_replicate]
      rfl
    unfold write
    dsimp only
    rw [hnew, if_neg (by decide), ← hpiece]
    exact .ask (.inl ⟨rfl, rfl⟩) rfl (.now _ _)
  have htold := hall _ _ (Run.writing hwrote trivial hcut)
  have hc := complete_of_wrote hrun
  have hne : headerName "slot" ≠ chunkName "slot" 1 := (headerName_ne_chunkName "slot" 1).symm
  have hsecond : chunkName "slot" 2 ≠ chunkName "slot" 1 :=
    fun he ↦ absurd (chunkName_inj he) (by decide)
  have hpiece : piece (List.replicate 4096 0) 2 = List.replicate 2048 (0 : UInt8) := by
    rw [piece, List.drop_replicate, List.take_replicate]
    rfl
  have hheader : readHeader "slot" (utf8 (headerText 2 4096)) = .ok (2, 4096) :=
    readHeader_headerText (by decide) (by decide) (by decide)
  have hread : Vault.read (Function.update k (chunkName "slot" 1) (some (List.replicate 2048 1)))
      "slot" = .ok (some (List.replicate 2048 1 ++ (List.replicate 2048 0 ++ []))) := by
    have hheaderEntry := hc.header
    have hchunk := hc.written 2 (by decide) (by rw [hold])
    rw [hold, List.length_replicate] at hheaderEntry
    rw [hpiece] at hchunk
    simp only [Vault.read, Function.update_of_ne hne, hheaderEntry, hheader, readChunks,
      Function.update_self, Function.update_of_ne hsecond, hchunk, Except.map]
    rw [if_neg]
    rw [List.length_append, List.length_append, List.length_replicate, List.length_replicate]
    decide
  simp only [Told, hread] at htold
  obtain h | h := htold
  · have hmem : (1 : UInt8) ∈ List.replicate 4096 (0 : UInt8) := by
      rw [Option.some.inj h]
      exact List.mem_append_left _ (List.mem_replicate.mpr ⟨by decide, rfl⟩)
    exact absurd (List.eq_of_mem_replicate hmem) (by decide)
  · have hmem : (0 : UInt8) ∈ List.replicate 4096 (1 : UInt8) := by
      rw [← List.mem_singleton.mp h]
      refine List.mem_append_right _ (List.mem_append_left _ ?_)
      exact List.mem_replicate.mpr ⟨by decide, rfl⟩
    exact absurd (List.eq_of_mem_replicate hmem) (by decide)

end Runs

end FolderClient.App.VaultRuns
