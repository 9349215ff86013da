import FolderClient.Engine.DeviceKey

namespace FolderClient.Engine.DeviceKeyRuns

open FolderClient.App.Vault FolderClient.Engine.DeviceKey
open FolderClient.Engine.Port hiding Request Answer
open FolderClient.Library.Programs FolderClient.Library.Programs.Contract FolderClient.Library.Texts

section Marker

variable {store handle marker : String} {raw : List UInt8}

theorem markerFor_eq_ok (h : markerFor store handle = .ok marker) :
    store ≠ "" ∧ ' ' ∉ store.toList ∧ handle ≠ "" ∧ handle.toList.head? ≠ some ' ' ∧
      marker = hardwareMarker ++ " " ++ store ++ " " ++ handle := by
  unfold markerFor at h
  split at h
  · cases h
  · rename_i hstore
    split at h
    · cases h
    · rename_i hhandle
      simp only [not_or] at hstore hhandle
      exact ⟨hstore.1, hstore.2, hhandle.1, hhandle.2.2, (Except.ok.inj h).symm⟩

theorem strip_append (beginning text : List Char) : strip beginning (beginning ++ text) = some text := by
  simp [strip]

theorem idxOf?_append {separator : Char} {first : List Char} (second : List Char)
    (h : separator ∉ first) :
    (first ++ separator :: second).idxOf? separator = some first.length := by
  induction first with
  | nil => simp [List.idxOf?_cons]
  | cons c first ih =>
    rw [List.mem_cons, not_or] at h
    rw [List.cons_append, List.idxOf?_cons, if_neg (by simpa using Ne.symm h.1), ih h.2]
    rfl

theorem splitOnce_append {separator : Char} {first : List Char} (second : List Char)
    (h : separator ∉ first) :
    splitOnce separator (String.ofList (first ++ separator :: second)) =
      some (String.ofList first, String.ofList second) := by
  simp [splitOnce, idxOf?_append second h]

/-- The marker of a key reads back as the reference it was written for. -/
theorem readSlot_markerFor (h : markerFor store handle = .ok marker) :
    readSlot (utf8 marker) = .hardware store handle := by
  obtain ⟨hstore, hword, hhandle, -, rfl⟩ := markerFor_eq_ok h
  have ht : (hardwareMarker ++ " " ++ store ++ " " ++ handle).toList =
      hardwareMarker.toList ++ ([' '] ++ (store.toList ++ ' ' :: handle.toList)) := by
    simp [String.toList_append]
  have hsplit := splitOnce_append handle.toList hword
  simp only [readSlot, fromUtf8_utf8, ht, strip_append, Option.getD_some, hsplit,
    String.ofList_toList]
  exact if_pos ⟨hstore, hhandle⟩

theorem utf8_of_fromUtf8 {text : String} (h : fromUtf8 raw = some text) : utf8 text = raw := by
  unfold fromUtf8 String.fromUTF8? at h
  split at h
  · rename_i hvalid
    obtain rfl := Option.some.inj h
    have hbytes : (utf8 (String.fromUTF8 raw.toByteArray hvalid)).toByteArray = raw.toByteArray :=
      String.utf8Encode_toList
    exact List.toByteArray_inj.mp hbytes
  · cases h

/-- What does not begin like the marker is a key itself. -/
theorem readSlot_of_head (h : raw.head? = some 0x30) : readSlot raw = .pkcs8 := by
  unfold readSlot
  cases htext : fromUtf8 raw with
  | none => rfl
  | some text =>
    have hraw := utf8_of_fromUtf8 htext
    dsimp only
    cases hstrip : strip hardwareMarker.toList text.toList with
    | none => rfl
    | some rest =>
      exfalso
      unfold strip at hstrip
      split at hstrip
      · rename_i hprefix
        obtain ⟨tail, htail⟩ := List.isPrefixOf_iff_prefix.mp hprefix
        rw [← hraw, utf8, ← htail] at h
        have hhead : (hardwareMarker.toList ++ tail).flatMap String.utf8EncodeChar =
            0x65 :: ((hardwareMarker.toList.tail ++ tail).flatMap String.utf8EncodeChar) := rfl
        rw [hhead] at h
        exact absurd (Option.some.inj h) (by decide)
      · cases hstrip

end Marker

/-- What stands outside the program: what a read of the slot gives where the keychain answers, and
which key the stores hold under a handle. -/
structure World (H : Type) where
  slot : Except VaultError (Option (List UInt8))
  held : String → String → Option H

variable {K H : Type} {keys : SoftwareKeys K} {hardware : Option String} {w w' : World H}
  {key : SigningKey K H}

/-- Keys of a store may get lost with their hardware; none comes in their place. -/
structure Left (w w' : World H) : Prop where
  slot : w'.slot = w.slot
  held : ∀ store handle key, w'.held store handle = some key → w.held store handle = some key

/-- How the keychain and the key store answer. Any call may fail; a write that fails may have taken
effect, wholly or in part. A store opens under a handle only the key that it holds under it. -/
def serve (hardware : Option String) : (r : Request) → World H → Answer K H r → World H → Prop
  | .readVault, w, a, w' => w' = w ∧ (a = w.slot ∨ ∃ e, a = .error e)
  | .writeVault value, w, a, w' =>
    (a = .ok () ∧ w' = { w with slot := .ok (some value) }) ∨
      (∃ e, a = .error e) ∧ w'.held = w.held ∧
        (w'.slot = w.slot ∨ w'.slot = .ok (some value) ∨ ∃ e, w'.slot = .error e)
  | .create, w, a, w' =>
    (∃ store held, hardware = some store ∧ a = .ok held ∧ w' = { w with
        held := Function.update w.held store
          (Function.update (w.held store) held.handle (some held.key)) }) ∨
      (∃ reason, a = .error reason) ∧ w' = w
  | .openKey handle, w, a, w' =>
    w' = w ∧ ((∃ store key, hardware = some store ∧ a = .ok key ∧
      w.held store handle = some key) ∨ ∃ reason, a = .error reason)
  | .generate, w, _, w' => w' = w

/-- A start of the program, on a machine with the key store or without one. -/
def start (K : Type) (hardware : Option String) : Contract Request (Answer K H) (World H) where
  serve := serve hardware
  rely := Left
  ok _ _ := True

/-- A start that only looks: it neither creates a key nor writes the slot. -/
def looking (K : Type) (hardware : Option String) : Contract Request (Answer K H) (World H) where
  serve := serve hardware
  rely := Left
  ok
    | .readVault, _ | .openKey _, _ => True
    | .writeVault _, _ | .create, _ | .generate, _ => False

theorem start_of_looking {α : Type} {p : Program Request (Answer K H) α}
    {Q : α → World H → Prop} (h : (looking K hardware).Sound p Q w) :
    (start K hardware).Sound p Q w := by
  induction p generalizing w with
  | done a => exact h
  | ask r next ih => exact ⟨trivial, fun a w' w'' hs hl ↦ ih a (h.2 a w' w'' hs hl)⟩

theorem looking_of_cut {α : Type} {p : Program Request (Answer K H) α}
    (h : (start K hardware).Cut p w w') : (looking K hardware).Cut p w w' := by
  induction h with
  | now => exact .now _ _
  | ask hs hr _ ih => exact .ask hs hr ih

/-- The slot refers to the key. -/
inductive Refers (keys : SoftwareKeys K) : World H → SigningKey K H → Prop
  | software {w : World H} {raw : List UInt8} {key : K} : w.slot = .ok (some raw) →
      readSlot raw = .pkcs8 → keys.fromPkcs8Der raw = .ok key → Refers keys w (.software key)
  | held {w : World H} {raw : List UInt8} {store handle : String} {key : H} :
      w.slot = .ok (some raw) → readSlot raw = .hardware store handle →
      (∀ other, w.held store handle = some other → other = key) → Refers keys w (.held key)

theorem Refers.left (h : Refers keys w key) (hl : Left w w') : Refers keys w' key := by
  cases h with
  | software hslot hread hkey => exact .software (hl.slot.trans hslot) hread hkey
  | held hslot hread hheld =>
    exact .held (hl.slot.trans hslot) hread fun other ho ↦ hheld other (hl.held _ _ _ ho)

/-- A step whose result comes from elsewhere than the surroundings. -/
theorem sound_raise_bind {C : Contract Request (Answer K H) (World H)} {α β : Type}
    {r : Except EngineError α} {f : α → Operation K H β} {Q : Except EngineError β → World H → Prop}
    (hok : ∀ a, r = .ok a → C.Sound (f a).run Q w) (herror : ∀ e, r = .error e → Q (.error e) w) :
    C.Sound (raise r >>= f).run Q w := by
  cases r with
  | ok a => exact hok a rfl
  | error e => exact herror e rfl

section Sound

variable {C : Contract Request (Answer K H) (World H)} {α : Type}
  {Q : Except EngineError α → World H → Prop}

theorem sound_readVault_bind {f : Option (List UInt8) → Operation K H α}
    (hok : C.ok .readVault w)
    (h : ∀ a w' w'', C.serve .readVault w a w' → C.rely w' w'' → match a with
      | .ok slot => C.Sound (f slot).run Q w''
      | .error e => Q (.error (.vault e)) w'') :
    C.Sound (readVault >>= f).run Q w := by
  refine ⟨hok, fun a w' w'' hs hr ↦ ?_⟩
  have hq := h a w' w'' hs hr
  cases a with
  | ok slot => exact hq
  | error e => exact hq

theorem sound_writeVault_bind {value : List UInt8} {f : Unit → Operation K H α}
    (hok : C.ok (.writeVault value) w)
    (h : ∀ a w' w'', C.serve (.writeVault value) w a w' → C.rely w' w'' → match a with
      | .ok _ => C.Sound (f ()).run Q w''
      | .error e => Q (.error (.vault e)) w'') :
    C.Sound (writeVault value >>= f).run Q w := by
  refine ⟨hok, fun a w' w'' hs hr ↦ ?_⟩
  have hq := h a w' w'' hs hr
  cases a with
  | ok slot => exact hq
  | error e => exact hq

theorem sound_generate_bind {f : K → Operation K H α} (hok : C.ok .generate w)
    (h : ∀ a w' w'', C.serve .generate w a w' → C.rely w' w'' → match a with
      | .ok key => C.Sound (f key).run Q w''
      | .error e => Q (.error (.crypto e)) w'') :
    C.Sound (generate >>= f).run Q w := by
  refine ⟨hok, fun a w' w'' hs hr ↦ ?_⟩
  have hq := h a w' w'' hs hr
  cases a with
  | ok key => exact hq
  | error e => exact hq

end Sound

/-- The forms of a software key: PKCS#8 is read back as the key that was written, and begins like
every ASN.1 sequence. -/
def ReadsBack (keys : SoftwareKeys K) : Prop :=
  ∀ key der, keys.asPkcs8Der key = .ok der →
    keys.fromPkcs8Der der = .ok key ∧ der.head? = some 0x30

/-- A settle that returns a key leaves the slot referring to it. -/
def Settled (keys : SoftwareKeys K) (r : Except EngineError (SigningKey K H × DeviceKeyOrigin))
    (w : World H) : Prop :=
  ∀ key origin, r = .ok (key, origin) → Refers keys w key

theorem settled_error (e : EngineError) (w : World H) : Settled keys (.error e) w :=
  fun _ _ h ↦ nomatch h

theorem settled_ok (h : Refers keys w key) (origin : DeviceKeyOrigin) :
    Settled keys (.ok (key, origin)) w := by
  intro key' origin' he
  obtain ⟨rfl, rfl⟩ := Prod.mk.inj (Except.ok.inj he)
  exact h

theorem sound_softwareKey (hkeys : ReadsBack keys) (origin : DeviceKeyOrigin) :
    (start K hardware).Sound
      (softwareKey keys >>= fun key ↦ pure (key, origin) : Operation K H _).run (Settled keys) w := by
  have hkey : (start K hardware).Sound (softwareKey keys : Operation K H _).run
      (fun r w' ↦ ∀ key, r = .ok key → Refers keys w' key) w := by
    unfold softwareKey
    refine sound_generate_bind trivial fun a w₁ w₂ _ _ ↦ ?_
    cases a with
    | error e => exact fun _ h ↦ nomatch h
    | ok key =>
      refine sound_raise_bind (fun der hder ↦ ?_) fun e _ _ h ↦ nomatch h
      obtain ⟨hback, hhead⟩ : keys.fromPkcs8Der der = .ok key ∧ der.head? = some 0x30 := by
        cases hc : keys.asPkcs8Der key with
        | error e =>
          rw [hc] at hder
          cases hder
        | ok der' =>
          rw [hc] at hder
          obtain rfl := Except.ok.inj hder
          exact hkeys key der' hc
      refine sound_writeVault_bind trivial fun a w₃ w₄ hs hl ↦ ?_
      cases a with
      | error e => exact fun _ h ↦ nomatch h
      | ok _ =>
        intro key' hkey'
        obtain rfl := Except.ok.inj hkey'
        rcases hs with ⟨-, rfl⟩ | ⟨⟨e, he⟩, -⟩
        · exact .software (hl.slot.trans rfl) (readSlot_of_head hhead) hback
        · cases he
  refine sound_fallible_bind (sound_mono ?_ hkey)
  intro r w' h
  cases r with
  | error e => exact settled_error e w'
  | ok key => exact settled_ok (h key rfl) origin

/-- What a settle makes of a slot that is not empty: it leaves it as it is, and returns the key the
slot refers to or none. -/
structure Looked (keys : SoftwareKeys K) (w : World H)
    (r : Except EngineError (SigningKey K H × DeviceKeyOrigin)) (w' : World H) : Prop where
  slot : w'.slot = w.slot
  settled : Settled keys r w'
  same : ∀ key, Refers keys w key → ∀ other origin, r = .ok (other, origin) → other = key

theorem looked_error (hs : w'.slot = w.slot) (e : EngineError) : Looked keys w (.error e) w' :=
  ⟨hs, settled_error e w', fun _ _ _ _ h ↦ nomatch h⟩

theorem looked_software {raw : List UInt8} {key : K} (hs : w'.slot = w.slot)
    (hslot : w.slot = .ok (some raw)) (hread : readSlot raw = .pkcs8)
    (hkey : keys.fromPkcs8Der raw = .ok key) (origin : DeviceKeyOrigin) :
    Looked keys w (.ok (.software key, origin)) w' := by
  refine ⟨hs, settled_ok (.software (hs.trans hslot) hread hkey) origin, ?_⟩
  intro key' h other origin' he
  obtain ⟨rfl, -⟩ := Prod.mk.inj (Except.ok.inj he)
  cases h with
  | software hslot' _ hkey' =>
    obtain rfl := Option.some.inj (Except.ok.inj (hslot.symm.trans hslot'))
    rw [Except.ok.inj (hkey.symm.trans hkey')]
  | held hslot' hread' =>
    obtain rfl := Option.some.inj (Except.ok.inj (hslot.symm.trans hslot'))
    cases hread.symm.trans hread'

theorem looked_held {raw : List UInt8} {store handle : String} {key : H} (hl : Left w w')
    (hslot : w.slot = .ok (some raw)) (hread : readSlot raw = .hardware store handle)
    (hheld : w.held store handle = some key) (origin : DeviceKeyOrigin) :
    Looked keys w (.ok (.held key, origin)) w' := by
  refine ⟨hl.slot, settled_ok (.held (hl.slot.trans hslot) hread fun other ho ↦ ?_) origin, ?_⟩
  · exact Option.some.inj ((hl.held _ _ _ ho).symm.trans hheld)
  intro key' h other origin' he
  obtain ⟨rfl, -⟩ := Prod.mk.inj (Except.ok.inj he)
  cases h with
  | software hslot' hread' =>
    obtain rfl := Option.some.inj (Except.ok.inj (hslot.symm.trans hslot'))
    cases hread.symm.trans hread'
  | held hslot' hread' hheld' =>
    obtain rfl := Option.some.inj (Except.ok.inj (hslot.symm.trans hslot'))
    cases hread.symm.trans hread'
    rw [hheld' _ hheld]

theorem Left.trans {w'' : World H} (h : Left w w') (h' : Left w' w'') : Left w w'' :=
  ⟨h'.slot.trans h.slot, fun store handle key hk ↦ h.held _ _ _ (h'.held _ _ _ hk)⟩

theorem sound_looking (hne : w.slot ≠ .ok none) :
    (looking K hardware).Sound (settle keys hardware : Operation K H _).run (Looked keys w) w := by
  unfold settle
  refine sound_readVault_bind trivial fun a w₁ w₂ hs hl ↦ ?_
  obtain ⟨rfl, hslot⟩ := hs
  cases a with
  | error e => exact looked_error hl.slot _
  | ok slot =>
    obtain hslot | ⟨e, he⟩ := hslot
    swap
    · cases he
    cases slot with
    | none => exact absurd hslot.symm hne
    | some raw =>
      dsimp only
      cases hread : readSlot raw with
      | unreadable reason => exact looked_error hl.slot _
      | pkcs8 =>
        dsimp only
        cases hkey : keys.fromPkcs8Der raw with
        | error e => exact looked_error hl.slot _
        | ok key => exact looked_software hl.slot hslot.symm hread hkey _
      | hardware store handle =>
        cases hardware with
        | none => exact looked_error hl.slot _
        | some name =>
          dsimp only
          split
          · exact looked_error hl.slot _
          · rename_i hname
            obtain rfl := Decidable.not_not.mp hname
            refine ⟨trivial, fun a w₃ w₄ hs hl' ↦ ?_⟩
            obtain ⟨rfl, ⟨_, key, hstore, rfl, hheld⟩ | ⟨reason, rfl⟩⟩ := hs
            · obtain rfl := Option.some.inj hstore
              exact looked_held (hl.trans hl') hslot.symm hread (hl.held _ _ _ hheld) _
            · exact looked_error (hl.trans hl').slot _

theorem sound_settle (hkeys : ReadsBack keys) :
    (start K hardware).Sound (settle keys hardware : Operation K H _).run (Settled keys) w := by
  by_cases hne : w.slot = .ok none
  swap
  · exact sound_mono (fun _ _ h ↦ h.settled) (start_of_looking (sound_looking hne))
  unfold settle
  refine sound_readVault_bind trivial fun a w₁ w₂ hs hl ↦ ?_
  cases a with
  | error e => exact settled_error _ _
  | ok slot =>
    obtain ⟨rfl, hslot | ⟨e, he⟩⟩ := hs
    swap
    · cases he
    obtain rfl := Except.ok.inj (hslot.trans hne)
    cases hardware with
    | none => exact sound_softwareKey hkeys .keychain
    | some name =>
      refine ⟨trivial, fun a w₃ w₄ hs hl' ↦ ?_⟩
      obtain ⟨store, held, hstore, rfl, rfl⟩ | ⟨⟨reason, rfl⟩, rfl⟩ := hs
      swap
      · exact sound_softwareKey hkeys _
      obtain rfl := Option.some.inj hstore
      refine sound_raise_bind (fun marker hmarker ↦ ?_) fun e _ ↦ settled_error e _
      refine sound_writeVault_bind trivial fun a w₅ w₆ hs hl'' ↦ ?_
      cases a with
      | error e => exact settled_error _ _
      | ok _ =>
        rcases hs with ⟨-, rfl⟩ | ⟨⟨e, he⟩, -⟩
        swap
        · cases he
        refine settled_ok (.held (hl''.slot.trans rfl) (readSlot_markerFor hmarker) ?_) _
        intro other ho
        have hheld := hl'.held _ _ _ (hl''.held _ _ _ ho)
        simpa using hheld.symm

/-- What may come later: keys get lost, and the program starts again, on whatever machine, each
start carried on to its end or broken off before. -/
inductive Later (keys : SoftwareKeys K) : World H → World H → Prop
  | now (w : World H) : Later keys w w
  | left {w w' w'' : World H} : Left w w' → Later keys w' w'' → Later keys w w''
  | started (hardware : Option String) {w w' w'' : World H} :
      (start K hardware).Cut (settle keys hardware : Operation K H _).run w w' →
      Later keys w' w'' → Later keys w w''

theorem refers_of_cut (h : Refers keys w key)
    (hcut : (start K hardware).Cut (settle keys hardware : Operation K H _).run w w') :
    w'.slot = w.slot ∧ Refers keys w' key := by
  have hne : w.slot ≠ .ok none := by
    cases h with
    | software hslot => simp [hslot]
    | held hslot => simp [hslot]
  refine (looking_of_cut hcut).keeps (I := fun w' ↦ w'.slot = w.slot ∧ Refers keys w' key) (sound_looking hne)
    (fun r v a v' hok hs hi ↦ ?_) (fun v v' hi hl ↦ ⟨hl.slot.trans hi.1, hi.2.left hl⟩) ⟨rfl, h⟩
  cases r with
  | readVault =>
    rw [hs.1]
    exact hi
  | openKey handle =>
    rw [hs.1]
    exact hi
  | _ => exact hok.elim

theorem refers_of_later {w w' : World H} (hlater : Later keys w w') (h : Refers keys w key) :
    w'.slot = w.slot ∧ Refers keys w' key := by
  induction hlater with
  | now => exact ⟨rfl, h⟩
  | left hl _ ih =>
    have hi := ih (h.left hl)
    exact ⟨hi.1.trans hl.slot, hi.2⟩
  | started hardware hcut _ ih =>
    obtain ⟨hslot, h⟩ := refers_of_cut h hcut
    have hi := ih h
    exact ⟨hi.1.trans hslot, hi.2⟩

/-- The device key is settled once. The marker of a key reads back as its reference; where the slot
is not empty a start neither creates a key nor writes the slot; and once a start has returned a
key, every later one returns that key or fails. -/
theorem key_of_every_start (keys : SoftwareKeys K) (hkeys : ReadsBack keys) :
    (∀ store handle marker, markerFor store handle = .ok marker →
      readSlot (utf8 marker) = .hardware store handle) ∧
    (∀ hardware (w : World H), w.slot ≠ .ok none →
      (looking K hardware).Sound (settle keys hardware : Operation K H _).run
        (fun _ w' ↦ w'.slot = w.slot) w) ∧
    ∀ hardware (w w₁ : World H) key origin,
      (start K hardware).Runs (settle keys hardware : Operation K H _).run w (.ok (key, origin)) w₁ →
      ∀ w₂, Later keys w₁ w₂ → w₂.slot = w₁.slot ∧ w₂.slot ≠ .ok none ∧
        ∀ hardware' r w₃,
          (start K hardware').Runs (settle keys hardware' : Operation K H _).run w₂ r w₃ →
          w₃.slot = w₁.slot ∧ ∀ other origin', r = .ok (other, origin') → other = key := by
  refine ⟨fun _ _ _ h ↦ readSlot_markerFor h,
    fun _ _ hne ↦ sound_mono (fun _ _ h ↦ h.slot) (sound_looking hne), ?_⟩
  intro hardware w w₁ key origin hrun w₂ hlater
  have h₁ : Refers keys w₁ key := hrun.ends (sound_settle hkeys) key origin rfl
  obtain ⟨hslot, h₂⟩ := refers_of_later hlater h₁
  have hne : w₂.slot ≠ .ok none := by
    cases h₂ with
    | software hslot => simp [hslot]
    | held hslot => simp [hslot]
  refine ⟨hslot, hne, fun hardware' r w₃ hrun' ↦ ?_⟩
  have hlooked := hrun'.ends (start_of_looking (sound_looking hne))
  exact ⟨hlooked.slot.trans hslot, hlooked.same key h₂⟩

section Started

/-- Keys that are one byte behind the tag of a sequence. -/
def bytes : SoftwareKeys UInt8 where
  asPkcs8Der key := .ok [0x30, key]
  fromPkcs8Der
    | [0x30, key] => .ok key
    | _ => .error .noAnchor
  describe _ := "PKCS#8 unreadable"

theorem readsBack_bytes : ReadsBack bytes := by
  intro key der h
  obtain rfl := Except.ok.inj h
  exact ⟨rfl, rfl⟩

def machine (slot : Option (List UInt8)) : World Unit := ⟨.ok slot, fun _ _ ↦ none⟩

theorem left_refl (w : World H) : Left w w := ⟨rfl, fun _ _ _ h ↦ h⟩

/-- A first start on a machine without a key store, and whatever comes after it. -/
theorem second_start : ¬ ∃ w₂ hardware w₃ other origin, Later bytes (machine (some [0x30, 7])) w₂ ∧
    (start UInt8 hardware).Runs (settle bytes hardware : Operation UInt8 Unit _).run w₂
      (.ok (other, origin)) w₃ ∧ other ≠ .software 7 := by
  have hfirst : (start UInt8 none).Runs (settle bytes none : Operation UInt8 Unit _).run
      (machine none) (.ok (.software 7, .keychain)) (machine (some [0x30, 7])) := by
    refine .ask (a := .ok none) ⟨rfl, .inl rfl⟩ (left_refl _) ?_
    refine .ask (a := .ok 7) rfl (left_refl _) ?_
    refine .ask (a := .ok ()) (.inl ⟨rfl, rfl⟩) (left_refl _) ?_
    exact .done _ _
  rintro ⟨w₂, hardware, w₃, other, origin, hlater, hrun, hne⟩
  have hsecond := ((key_of_every_start bytes readsBack_bytes).2.2 none (machine none) _ _ _ hfirst
    w₂ hlater).2.2 hardware _ w₃ hrun
  exact hne (hsecond.2 other origin rfl)

end Started

end FolderClient.Engine.DeviceKeyRuns
