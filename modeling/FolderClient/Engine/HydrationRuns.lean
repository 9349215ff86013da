import FolderClient.Engine.Effects
import FolderClient.Engine.Orderly
import FolderClient.Engine.Play

namespace FolderClient.Engine.HydrationRuns

open FolderClient.Core.Listing FolderClient.Core.Namespace FolderClient.Engine.Channel
open FolderClient.Engine.Effects FolderClient.Engine.Hydration FolderClient.Engine.Orderly
open FolderClient.Engine.Port FolderClient.Engine.Session
open FolderClient.Engine.System FolderClient.Engine.Transfers FolderClient.Library.Pools
open FolderClient.Library.Programs FolderClient.Library.Programs.Program
open FolderClient.Library.Programs.Contract FolderClient.Library.Texts FolderClient.Net.Access
open FolderClient.Storage.Basic

/-- The bytes given to a sink, in the order in which they were given. -/
def bytes (handed : List (ℕ × List UInt8)) : List UInt8 := handed.flatMap Prod.snd

/-- Writes in ascending order without a gap, from an offset on. -/
def Gapless : ℕ → List (ℕ × List UInt8) → Prop
  | _, [] => True
  | n, (offset, data) :: rest => offset = n ∧ Gapless (n + data.length) rest

theorem gapless_append {n offset : ℕ} {data : List UInt8} {handed : List (ℕ × List UInt8)}
    (h : Gapless n handed) (ho : offset = n + (bytes handed).length) :
    Gapless n (handed ++ [(offset, data)]) := by
  induction handed generalizing n with
  | nil => exact ⟨ho, trivial⟩
  | cons w rest ih =>
    refine ⟨h.1, ih h.2 ?_⟩
    rw [ho]
    simp [bytes]
    omega

theorem bytes_append (handed : List (ℕ × List UInt8)) (offset : ℕ) (data : List UInt8) :
    bytes (handed ++ [(offset, data)]) = bytes handed ++ data := by
  simp [bytes]

section Statements

variable (setting : Setting)

/-- Content of the length and with the checksum that the details name. -/
def Checked (details : FileDetails) (content : List UInt8) : Prop :=
  content.length = details.size.toNat ∧ details.sha256 = some (setting.sha256 content)

/-- The texts of the hints this client writes itself. -/
def IsHintText (text : String) : Prop :=
  text = hintTextReadMe setting.texts setting.language ∨
    ∃ truncation, text = hintTextTruncated setting.texts setting.language truncation

/-- What a delivery has given to the sink: of a document only the beginning of checked content, of
a hint only its text, of a container nothing. -/
def Promise (h : Handling) : Prop :=
  Gapless 0 h.handed ∧
    match h.identifier with
    | some (.document _ _) =>
      h.loads ≤ 2 ∧ (h.handed ≠ [] → ∃ details content, h.details = some details ∧
        Checked setting details content ∧ bytes h.handed <+: content)
    | some (.hint _ _) =>
      h.loads = 0 ∧ (h.handed ≠ [] → ∃ text, IsHintText setting text ∧
        h.handed = [(0, utf8 text)])
    | _ => h.loads = 0 ∧ h.handed = []

/-- What a delivery asks for is due: it loads at most twice, bytes of a document are the next ones
of the scratch file while all of it has been checked, and a success means all of them. -/
def Due : Request → Handling → Prop
  | .source (.entry _), h => h.handed = []
  | .source (.loadContent _ _), h =>
    h.loads ≤ 1 ∧ ∃ location document, h.identifier = some (.document location document)
  | .source (.write offset data), h =>
    offset = (bytes h.handed).length ∧
      match h.identifier with
      | some (.document _ _) => ∃ details content, h.details = some details ∧
        h.scratch = some content ∧ Checked setting details content ∧
        bytes h.handed ++ data <+: content
      | some (.hint _ _) =>
        h.handed = [] ∧ ∃ text, IsHintText setting text ∧ data = utf8 text
      | _ => False
  | .source (.answered (.ok receipt)), h =>
    match h.identifier with
    | some (.document _ _) => ∃ details, h.details = some details ∧
      Checked setting details (bytes h.handed) ∧ receipt = ⟨details.size.toNat, details.sha256⟩
    | some (.hint _ _) => ∃ text, IsHintText setting text ∧ h.handed = [(0, utf8 text)] ∧
      receipt = ⟨(utf8 text).length, none⟩
    | _ => False
  | _, _ => True

end Statements

/-- How a delivery is served, as far as it concerns the delivery alone. -/
def handles : (r : Request) → Handling → Answer r → Handling → Prop
  | .source (.answered _), _, _, h' => h' = {}
  | .source r, h, a, h' => serveHandling r h a h'
  | _, h, _, h' => h' = h

theorem handles_serve {setting : Setting} {fails : Prop} {i : ℕ} {r : Request} {w w' : World}
    {a : Answer r} (h : serve setting fails i r w a w') :
    handles r (w.handling i) a (w'.handling i) := by
  cases r with
  | source r =>
    cases r with
    | children container =>
      obtain ⟨-, -, rfl⟩ | h := h
      · rfl
      · split at h <;> obtain ⟨-, rfl⟩ := h <;> rfl
    | entry identifier =>
      obtain ⟨-, rfl⟩ := h
      exact Function.update_self ..
    | located | containerState => exact congrArg (World.handling · i) (read_cases h).1
    | appendLog entry =>
      obtain ⟨b, h⟩ := h
      exact congrFun (handling_storedNoting h) i
    | answered result =>
      obtain rfl := h
      exact Function.update_self ..
    | _ =>
      obtain ⟨g, hg, rfl⟩ := h
      rw [World.handling_withHandling]
      exact hg
  | _ => exact congrFun (handling_serve (by intro q hq; cases hq) h) i

/-- The requests of a delivery that leave it as it is. -/
def Idle : Request → Prop
  | .source (.located _) | .source (.containerState _) | .source (.appendLog _)
  | .source (.progress _ _) | .source .acquireLoad | .source .cancelled
  | .source .stagingFile | .source .flushScratch => True
  | .source _ => False
  | _ => True

theorem handles_of_idle {r : Request} (hr : Idle r) {h h' : Handling} {a : Answer r}
    (hs : handles r h a h') : h' = h := by
  cases r with
  | source r =>
    cases r with
    | located | containerState | appendLog | progress | acquireLoad | cancelled | stagingFile
    | flushScratch => exact hs
    | _ => exact hr.elim
  | _ => exact hs

section Walk

variable {setting : Setting}

/-- What a delivery owes, as far as it concerns the delivery alone. -/
abbrev delivery (setting : Setting) : Contract Request Answer Handling where
  serve := handles
  rely h h' := h' = h
  ok := Due setting

theorem due_of_idle {r : Request} (hr : Idle r) (h : Handling) : Due setting r h := by
  cases r with
  | source r =>
    cases r with
    | entry | loadContent | write | answered => exact hr.elim
    | _ => trivial
  | _ => trivial

theorem sound_idle {α : Type} {p : Activity α} (hp : p.Asks Idle) (h : Handling) :
    (delivery setting).Sound p (fun _ h' ↦ h' = h) h := by
  refine sound_of_asks (I := (· = h)) hp ?_ ?_ rfl
  · intro r h₁ hr hh
    exact ⟨due_of_idle hr h₁, fun a h' hs ↦ (handles_of_idle hr hs).trans hh⟩
  · intro h₁ h₂ hh hr
    exact hr.trans hh

/-- A step that leaves the delivery as it is; what follows begins where it began. -/
theorem sound_idle_bind {α β : Type} {p : Activity α} {f : α → Activity β}
    {Q : β → Handling → Prop} {h : Handling} (hp : p.Asks Idle)
    (hf : ∀ a, (delivery setting).Sound (f a) Q h) : (delivery setting).Sound (p >>= f) Q h := by
  refine sound_bind.mpr (sound_mono ?_ (sound_idle hp h))
  intro a h' hh
  rw [hh]
  exact hf a

theorem sound_idle_fallible {α β : Type} {p : Delivery α} {f : α → Delivery β}
    {Q : Except SourceError β → Handling → Prop} {h : Handling} (hp : p.run.Asks Idle)
    (hf : ∀ a, (delivery setting).Sound (f a).run Q h) (he : ∀ e, Q (.error e) h) :
    (delivery setting).Sound (p >>= f).run Q h := by
  refine sound_fallible_bind (sound_mono ?_ (sound_idle hp h))
  intro r h' hh
  rw [hh]
  cases r with
  | ok a => exact hf a
  | error e => exact he e

theorem asks_callSource {r : SourceRequest} (h : Idle (.source r)) : (callSource r).Asks Idle :=
  asks_call h

theorem asks_internally {α : Type} {what : String} {p : Activity (Except String α)}
    (h : p.Asks Idle) : (internally what p).run.Asks Idle :=
  asks_bind h fun _ ↦ trivial

theorem asks_session {α : Type} (p : SessionFallible α) : (session p).Asks Idle :=
  asks_embed fun _ ↦ trivial

/-- A delivery that has at most loaded `k` times more, and given nothing to the sink. -/
structure Moved (k : ℕ) (h h' : Handling) : Prop where
  identifier : h'.identifier = h.identifier
  details : h'.details = h.details
  handed : h'.handed = h.handed
  loads : h'.loads ≤ h.loads + k

theorem Moved.refl (h : Handling) : Moved 0 h h := ⟨rfl, rfl, rfl, le_refl _⟩

theorem Moved.trans {k l : ℕ} {h h' h'' : Handling} (hm : Moved k h h') (hl : Moved l h' h'') :
    Moved (k + l) h h'' where
  identifier := hl.identifier.trans hm.identifier
  details := hl.details.trans hm.details
  handed := hl.handed.trans hm.handed
  loads := by
    have h₁ := hm.loads
    have h₂ := hl.loads
    omega

/-- The scratch file holds what the checksum has seen, and all of it is counted. -/
def Filled (sink : CountingSink) (h : Handling) : Prop :=
  h.scratch = some sink.machine ∧ sink.written = sink.machine.length ∧
    sink.machine.length ≤ maxFile

theorem saturated_eq {n : ℕ} (h : n ≤ maxFile) : saturated n = n := by
  have hm : maxFile ≤ 2 ^ 64 - 1 := by decide
  exact min_eq_right (h.trans hm)

theorem filled_write {sink : CountingSink} {h : Handling} {buffer : List UInt8} {n total : ℕ}
    (hf : Filled sink h) (hn : n ≤ buffer.length) (hm : (h.scratch.getD []).length + n ≤ maxFile) :
    Filled ⟨sink.machine ++ buffer.take n, saturated (sink.written + n), total⟩
      { h with scratch := h.scratch.map (· ++ buffer.take n) } := by
  obtain ⟨hs, hw, -⟩ := hf
  rw [hs, Option.getD_some] at hm
  have hl : (sink.machine ++ buffer.take n).length = sink.machine.length + n := by
    rw [List.length_append, List.length_take, min_eq_left hn]
  refine ⟨by rw [hs]; rfl, ?_, hl ▸ hm⟩
  rw [hw, saturated_eq hm]
  exact hl.symm

theorem sound_writeAll {h₀ : Handling} (n : ℕ) (buffer : List UInt8) {sink : CountingSink}
    {h : Handling} (hm : Moved 0 h₀ h) (hf : Filled sink h) :
    (delivery setting).Sound (writeAll n buffer sink)
      (fun r h' ↦ Moved 0 h₀ h' ∧ ∀ sink', r = .ok sink' → Filled sink' h') h := by
  induction n generalizing buffer sink h with
  | zero =>
    cases buffer with
    | nil => exact ⟨hm, fun sink' hs ↦ Except.ok.inj hs ▸ hf⟩
    | cons b rest => exact ⟨hm, fun sink' hs ↦ nomatch hs⟩
  | succ n ih =>
    cases buffer with
    | nil => exact ⟨hm, fun sink' hs ↦ Except.ok.inj hs ▸ hf⟩
    | cons b rest =>
      refine sound_idle_bind (asks_callSource trivial) fun cancelled ↦ ?_
      split
      · exact ⟨hm, fun sink' hs ↦ nomatch hs⟩
      · refine ⟨trivial, fun a h₁ h₂ hs hr ↦ ?_⟩
        obtain rfl := hr
        obtain ⟨accepted, rfl, hle, hmax, rfl⟩ | ⟨⟨e, rfl⟩, rfl⟩ := hs
        · change (delivery setting).Sound (callSource (.progress _ _) >>= fun _ ↦
            if accepted = 0 then pure (.error "write zero") else writeAll n _ _) _ _
          refine sound_idle_bind (asks_callSource trivial) fun _ ↦ ?_
          have hm' : Moved 0 h₀ { h with scratch := h.scratch.map (· ++ (b :: rest).take accepted) } :=
            ⟨hm.identifier, hm.details, hm.handed, hm.loads⟩
          split
          · exact ⟨hm', fun sink' hs ↦ nomatch hs⟩
          · exact ih _ hm' (filled_write hf hle hmax)
        · exact ⟨hm, fun sink' hs ↦ nomatch hs⟩

theorem sound_readChunks {h₀ : Handling} (length : ℕ) (broken : Option String)
    (chunks : List (List UInt8)) (written : ℕ) {sink : CountingSink} {h : Handling}
    (hm : Moved 0 h₀ h) (hf : Filled sink h) :
    (delivery setting).Sound (readChunks length broken chunks written sink)
      (fun r h' ↦ Moved 0 h₀ h' ∧ ∀ x, r = .ok x → Filled x.2 h') h := by
  induction chunks generalizing written sink h with
  | nil =>
    refine ⟨hm, fun x hx ↦ ?_⟩
    cases broken with
    | some reason => cases hx
    | none => exact Except.ok.inj hx ▸ hf
  | cons chunk rest ih =>
    unfold readChunks
    dsimp only
    split
    · exact ⟨hm, fun x hx ↦ (by cases hx)⟩
    · refine sound_bind.mpr (sound_mono ?_ (sound_writeAll chunk.length chunk hm hf))
      intro r h' hr
      obtain ⟨hm', hf'⟩ := hr
      cases r with
      | error reason => exact ⟨hm', fun x hx ↦ (by cases hx)⟩
      | ok sink' => exact ih _ hm' (hf' sink' rfl)

theorem sound_readBody {h₀ : Handling} (header : ContentHeader) (stream : Stream)
    {sink : CountingSink} {h : Handling} (hm : Moved 0 h₀ h) (hf : Filled sink h) :
    (delivery setting).Sound (readBody header stream sink)
      (fun r h' ↦ Moved 0 h₀ h' ∧ ∀ x, r = .ok x → Filled x.2 h') h := by
  refine sound_bind.mpr (sound_mono ?_ (sound_readChunks _ _ stream.chunks 0 hm hf))
  intro r h' hr
  obtain ⟨hm', hf'⟩ := hr
  cases r with
  | error e => exact ⟨hm', fun x hx ↦ nomatch hx⟩
  | ok y =>
    refine sound_idle_bind (asks_callSource trivial) fun flushed ↦ ?_
    cases flushed with
    | error reason => exact ⟨hm', fun x hx ↦ nomatch hx⟩
    | ok _ =>
      change (delivery setting).Sound (if y.1 ≠ header.length.toNat then _ else _) _ _
      split
      · exact ⟨hm', fun x hx ↦ nomatch hx⟩
      · exact ⟨hm', fun x hx ↦ Except.ok.inj hx ▸ hf' y rfl⟩

/-- The delivery of a document. -/
def OfDocument (h : Handling) : Prop :=
  ∃ location document, h.identifier = some (.document location document)

theorem sound_loadContent (row : DocumentRow) (application : Option String) {sink : CountingSink}
    {h : Handling} (hd : OfDocument h) (hl : h.loads ≤ 1) (hf : Filled sink h) :
    (delivery setting).Sound (loadContent row application sink)
      (fun r h' ↦ Moved 1 h h' ∧ ∀ x, r = .success x → Filled x.2 h') h := by
  have hstay : Moved 1 h h := ⟨rfl, rfl, rfl, Nat.le_succ _⟩
  unfold loadContent
  split
  · exact ⟨hstay, fun x hx ↦ (by cases hx)⟩
  · refine sound_call_bind ⟨hl, hd⟩ fun answer h₁ h₂ hs hr ↦ ?_
    obtain rfl := hr
    have hm : Moved 1 h h₂ := by
      obtain rfl := hs
      exact ⟨rfl, rfl, rfl, le_refl _⟩
    have hf' : Filled sink h₂ := by
      obtain rfl := hs
      exact hf
    have hfail : ∀ r : ApiResult (ContentReport × CountingSink), (∀ x, r ≠ .success x) →
        (delivery setting).Sound (pure r) (fun r h' ↦ Moved 1 h h' ∧
          ∀ x, r = .success x → Filled x.2 h') h₂ :=
      fun r hr ↦ ⟨hm, fun x hx ↦ absurd hx (hr x)⟩
    cases answer with
    | success stream =>
      dsimp only
      split
      · exact hfail _ fun x hx ↦ (by cases hx)
      · rename_i header hheader
        split
        · exact hfail _ fun x hx ↦ (by cases hx)
        · refine sound_bind.mpr (sound_mono ?_ (sound_readBody header stream (.refl h₂) hf'))
          intro r h₃ hr
          have hm₃ : Moved 1 h h₃ := hm.trans hr.1
          cases r with
          | error e => exact ⟨hm₃, fun x hx ↦ (by cases hx)⟩
          | ok y => exact ⟨hm₃, fun x hx ↦ ApiResult.success.inj hx ▸ hr.2 y rfl⟩
    | _ => exact hfail _ fun x hx ↦ (by cases hx)

/-- The scratch file holds what the row of the listing announced. -/
def Staged (setting : Setting) (row : DocumentRow) (h : Handling) : Prop :=
  ∃ content, h.scratch = some content ∧ content.length = row.size.toNat ∧
    setting.sha256 content = row.sha256

theorem sound_streamInFile (identifier : EntryIdentifier) (row : DocumentRow)
    (request : ContentRequest) {h : Handling} (hd : OfDocument h) (hl : h.loads ≤ 1) :
    (delivery setting).Sound (streamInFile setting identifier row request).run
      (fun r h' ↦ Moved 1 h h' ∧ (r = .ok () → Staged setting row h')) h := by
  have hstay : Moved 1 h h := ⟨rfl, rfl, rfl, Nat.le_succ _⟩
  refine sound_fallible_bind ⟨trivial, fun created h₁ h₂ hs hr ↦ ?_⟩
  obtain rfl := hr
  obtain ⟨rfl, rfl⟩ | ⟨⟨e, rfl⟩, rfl⟩ := hs
  · have hf : Filled ⟨[], 0, row.size.toNat⟩ { h with scratch := some [], position := 0 } :=
      ⟨rfl, rfl, Nat.zero_le _⟩
    refine sound_fallible_bind (sound_bind.mpr (sound_mono ?_
      (sound_loadContent row request.requestingApplication hd hl hf)))
    intro r h₃ hr
    have hm : Moved 1 h h₃ := ⟨hr.1.identifier, hr.1.details, hr.1.handed, hr.1.loads⟩
    cases r with
    | success x =>
      have hfx := hr.2 x rfl
      refine sound_idle_fallible (asks_internally (asks_callSource trivial)) (fun _ ↦ ?_)
        fun e ↦ ⟨hm, fun he ↦ nomatch he⟩
      split
      · exact ⟨hm, fun he ↦ nomatch he⟩
      · rename_i hsize
        split
        · exact ⟨hm, fun he ↦ nomatch he⟩
        · rename_i hsha
          rw [not_or, not_not, not_not] at hsize
          refine ⟨hm, fun _ ↦ ⟨x.2.machine, hfx.1, ?_, not_not.mp hsha⟩⟩
          exact hfx.2.1.symm.trans hsize.2
    | _ => exact ⟨hm, fun he ↦ nomatch he⟩
  · exact ⟨hstay, fun he ↦ nomatch he⟩

/-- All of the checked content of a document was given, as the receipt says. -/
def Delivered (setting : Setting) (receipt : ContentReceipt) (h : Handling) : Prop :=
  OfDocument h ∧ ∃ details, h.details = some details ∧
    Checked setting details (bytes h.handed) ∧ receipt = ⟨details.size.toNat, details.sha256⟩

theorem sound_handOver {details : FileDetails} {content : List UInt8} (n offset : ℕ)
    {h : Handling} (hd : OfDocument h) (hdet : h.details = some details)
    (hs : h.scratch = some content) (hc : Checked setting details content)
    (ho : (bytes h.handed).length = offset) (hp : h.position = offset)
    (hg : bytes h.handed ++ content.drop offset = content) (hn : content.length < offset + n) :
    (delivery setting).Sound (handOver n offset).run
      (fun r h' ↦ r = .ok () → Delivered setting ⟨details.size.toNat, details.sha256⟩ h') h := by
  have hle : offset ≤ content.length := by
    have hl := congrArg List.length hg
    rw [List.length_append, ho] at hl
    omega
  induction n generalizing offset h with
  | zero => omega
  | succ n ih =>
    refine sound_idle_fallible (asks_lift (asks_callSource trivial)) (fun cancelled ↦ ?_)
      fun e he ↦ nomatch he
    split
    · exact fun he ↦ nomatch he
    · refine sound_fallible_bind ⟨trivial, fun answer h₁ h₂ hserve hrely ↦ ?_⟩
      obtain rfl := hrely
      obtain ⟨data, rest, rfl, hread, -, hend, rfl⟩ | ⟨⟨e, rfl⟩, rfl⟩ := hserve
      · have hrest : content.drop offset = data ++ rest := by
          rw [hs, hp] at hread
          exact Option.some.inj hread
        change (delivery setting).Sound (if data.isEmpty = true then _ else _) _ _
        split
        · rename_i hempty
          obtain rfl := List.isEmpty_iff.mp hempty
          intro _
          refine ⟨hd, details, hdet, ?_, rfl⟩
          rw [hrest, hend rfl, List.append_nil, List.append_nil] at hg
          exact hg ▸ hc
        · have hgiven : bytes h.handed ++ data ++ rest = content := by
            rw [List.append_assoc, ← hrest]
            exact hg
          obtain ⟨location, document, hid⟩ := hd
          refine ⟨⟨ho.symm, ?_⟩, fun written h₁ h₂ hserve hrely ↦ ?_⟩
          · simp only [hid]
            exact ⟨details, content, hdet, hs, hc, rest, hgiven⟩
          · obtain rfl := hrely
            obtain rfl := hserve
            cases written with
            | error reason => exact fun he ↦ nomatch he
            | ok _ =>
              have hlen := congrArg List.length hgiven
              simp only [List.length_append, ho] at hlen
              have hsat : saturated (offset + data.length) = offset + data.length := by
                have hsize := details.size.toNat_lt
                have hcl := hc.1
                exact min_eq_right (by omega)
              change (delivery setting).Sound (handOver n (saturated (offset + data.length))).run _ _
              rw [hsat]
              refine ih (offset + data.length) ⟨location, document, hid⟩ hdet hs ?_ ?_ ?_ ?_ ?_
              · rw [bytes_append, List.length_append, ho]
              · rw [hp]
              · rw [bytes_append, ← List.drop_drop, hrest, List.drop_left]
                exact hgiven
              · have hne : data ≠ [] := fun hnil ↦ by simp_all
                have hpos := List.length_pos_iff.mpr hne
                omega
              · omega
      · exact fun he ↦ nomatch he

theorem sound_handOverFile {row : DocumentRow} {details : FileDetails} {h : Handling}
    (hd : OfDocument h) (hdet : h.details = some details) (hh : h.handed = [])
    (hs : Staged setting row h) (hsize : row.size = details.size)
    (hsha : details.sha256 = some row.sha256) :
    (delivery setting).Sound (handOverFile row.size.toNat).run
      (fun r h' ↦ r = .ok () → Delivered setting ⟨details.size.toNat, details.sha256⟩ h') h := by
  obtain ⟨content, hcontent, hlength, hsum⟩ := hs
  have hc : Checked setting details content := ⟨hsize ▸ hlength, hsum ▸ hsha⟩
  refine sound_fallible_bind ⟨trivial, fun answer h₁ h₂ hserve hrely ↦ ?_⟩
  obtain rfl := hrely
  obtain ⟨rfl, rfl⟩ | ⟨⟨e, rfl⟩, rfl⟩ := hserve
  · refine sound_handOver (row.size.toNat + 1) 0 hd hdet hcontent hc ?_ rfl ?_ ?_
    · rw [hh]
      rfl
    · rw [hh]
      rfl
    · omega
  · exact fun he ↦ nomatch he

/-- Removing the scratch file touches neither what was loaded nor what was given. -/
theorem sound_removeScratch {α : Type} {f : Delivery α} {Q : Except SourceError α → Handling → Prop}
    {h : Handling} (hf : ∀ s, (delivery setting).Sound f.run Q { h with scratch := s }) :
    (delivery setting).Sound (do callSource .removeScratch; f : Delivery α).run Q h := by
  refine sound_fallible_bind ⟨trivial, fun _ h₁ h₂ hserve hrely ↦ ?_⟩
  obtain rfl := hrely
  obtain rfl | rfl := hserve
  · exact hf none
  · exact hf h₂.scratch

theorem sound_secondAttempt (identifier : EntryIdentifier) (row : DocumentRow)
    (request : ContentRequest) (first : Except SourceError Unit) {h₀ h : Handling}
    (hd : OfDocument h) (hm : Moved 1 h₀ h) (hl : h.loads ≤ 1)
    (hfirst : first = .ok () → Staged setting row h) :
    (delivery setting).Sound (secondAttempt setting identifier row request first).run
      (fun r h' ↦ ∃ result, r = .ok result ∧ Moved 2 h₀ h' ∧
        (result = .ok () → Staged setting row h')) h := by
  have hstay : Moved 2 h₀ h := ⟨hm.identifier, hm.details, hm.handed, Nat.le_succ_of_le hm.loads⟩
  unfold secondAttempt
  split
  · refine sound_bind.mpr (sound_mono (Q := fun r h' ↦ Moved 2 h₀ h' ∧
      (r = .ok () → Staged setting row h')) ?_ ?_)
    · intro r h' hr
      exact ⟨r, rfl, hr.1, hr.2⟩
    · refine sound_idle_fallible (asks_lift (asks_session _)) (fun renewed ↦ ?_)
        fun e ↦ ⟨hstay, fun he ↦ nomatch he⟩
      split
      · refine sound_removeScratch fun s ↦ ?_
        have hd' : OfDocument { h with scratch := s } := hd
        refine sound_mono ?_ (sound_streamInFile identifier row request hd' hl)
        intro r h' hr
        have hmore : Moved 1 h h' := ⟨hr.1.identifier, hr.1.details, hr.1.handed, hr.1.loads⟩
        exact ⟨hm.trans hmore, hr.2⟩
      · exact ⟨hstay, fun he ↦ nomatch he⟩
  · exact ⟨first, rfl, hstay, hfirst⟩

theorem sound_loadAndCheck (entry : Entry) {details : FileDetails} (document : DocumentIdentifier)
    {expected : Sha256Value} (request : ContentRequest) {h : Handling} (hd : OfDocument h)
    (hdet : h.details = some details) (he : details.sha256 = some expected) (hh : h.handed = [])
    (hl : h.loads = 0) :
    (delivery setting).Sound (loadAndCheck setting entry details document expected request).run
      (fun r h' ↦ ∀ receipt, r = .ok receipt → Delivered setting receipt h') h := by
  refine sound_idle_fallible (asks_lift (asks_session _)) (fun answer ↦ ?_) fun e _ hr ↦ nomatch hr
  refine sound_idle_fallible (p := Hydration.raise _) trivial (fun signedIn ↦ ?_)
    fun e _ hr ↦ nomatch hr
  split
  · exact fun _ hr ↦ nomatch hr
  refine sound_idle_fallible (asks_internally (asks_callSource trivial)) (fun _ ↦ ?_)
    fun e _ hr ↦ nomatch hr
  refine sound_idle_fallible (asks_lift (asks_callSource trivial)) (fun cancelled ↦ ?_)
    fun e _ hr ↦ nomatch hr
  split
  · exact fun _ hr ↦ nomatch hr
  refine sound_idle_fallible (asks_internally (asks_callSource trivial)) (fun _ ↦ ?_)
    fun e _ hr ↦ nomatch hr
  refine sound_fallible_bind (sound_bind.mpr (sound_mono ?_
    (sound_streamInFile entry.identifier (rowFrom entry details document expected) request hd
      (hl ▸ Nat.zero_le 1))))
  intro first h₁ hfirst
  have hd₁ : OfDocument h₁ := by
    obtain ⟨location, document, hid⟩ := hd
    exact ⟨location, document, hfirst.1.identifier.trans hid⟩
  have hl₁ : h₁.loads ≤ 1 := by
    have hle := hfirst.1.loads
    omega
  refine sound_fallible_bind (sound_mono ?_
    (sound_secondAttempt entry.identifier (rowFrom entry details document expected) request first
      hd₁ hfirst.1 hl₁ hfirst.2))
  intro r h₂ hr
  obtain ⟨result, rfl, hm, hstaged⟩ := hr
  have hd₂ : OfDocument h₂ := by
    obtain ⟨location, document, hid⟩ := hd
    exact ⟨location, document, hm.identifier.trans hid⟩
  cases result with
  | error e => exact sound_removeScratch fun s _ hr ↦ nomatch hr
  | ok _ =>
    refine sound_fallible_bind (sound_bind.mpr (sound_mono ?_
      (sound_handOverFile hd₂ (hm.details.trans hdet) (hm.handed.trans hh) (hstaged rfl) rfl he)))
    intro handover h₃ hdelivered
    refine sound_removeScratch fun s ↦ ?_
    cases handover with
    | error e => exact fun _ hr ↦ nomatch hr
    | ok _ =>
      intro receipt hreceipt
      obtain rfl := Except.ok.inj hreceipt
      exact he ▸ hdelivered rfl

theorem asks_appendLog (kind : Core.Log.LogKind) (entry : Entry) (location : Location)
    (document : DocumentIdentifier) (detail : Option String) :
    (Hydration.appendLog kind entry location document detail).Asks Idle := by
  refine asks_bind (asks_callSource trivial) fun located ↦ ?_
  refine asks_bind (asks_call trivial) fun time ↦ ?_
  split
  · exact asks_callSource trivial
  · trivial

theorem sound_loadDocument (location : Location) (document : DocumentIdentifier)
    (request : ContentRequest) {h : Handling} (hd : OfDocument h) (hh : h.handed = [])
    (hl : h.loads = 0) :
    (delivery setting).Sound
      (loadDocument setting (.document location document) location document request).run
      (fun r h' ↦ ∀ receipt, r = .ok receipt → Delivered setting receipt h') h := by
  refine sound_fallible_bind ⟨hh, fun answer h₁ h₂ hserve hrely ↦ ?_⟩
  obtain rfl := hrely
  obtain rfl := hserve
  refine sound_fallible_bind (sound_done.mpr ?_)
  cases answer with
  | error e => exact fun _ hr ↦ (by cases hr)
  | ok found =>
    rw [Library.Results.mapError_ok]
    dsimp only
    split
    · exact fun _ hr ↦ (by cases hr)
    · rename_i entry
      split
      · exact fun _ hr ↦ (by cases hr)
      · rename_i details hdetails
        split
        · exact fun _ hr ↦ (by cases hr)
        · rename_i expected he
          refine sound_fallible_bind (sound_bind.mpr (sound_mono ?_
            (sound_loadAndCheck entry document request hd hdetails he hh hl)))
          intro result h₃ hresult
          cases result with
          | ok _ =>
            exact sound_idle_fallible (asks_lift (asks_appendLog _ _ _ _ _)) (fun _ ↦ hresult)
              fun e _ hr ↦ (by cases hr)
          | error _ =>
            exact sound_idle_fallible (asks_lift (asks_appendLog _ _ _ _ _)) (fun _ ↦ hresult)
              fun e _ hr ↦ (by cases hr)

/-- The text of a hint was given, as the receipt says. -/
def Told (setting : Setting) (receipt : ContentReceipt) (h : Handling) : Prop :=
  ∃ text, IsHintText setting text ∧ h.handed = [(0, utf8 text)] ∧
    receipt = ⟨(utf8 text).length, none⟩

theorem sound_hintText (location : Container) (kind : HintKind) (h : Handling) :
    (delivery setting).Sound (hintText setting location kind).run
      (fun r h' ↦ h' = h ∧ ∀ text, r = .ok text → IsHintText setting text) h := by
  cases kind with
  | readMe => exact ⟨rfl, fun text hr ↦ .inl (Except.ok.inj hr).symm⟩
  | truncated =>
    refine sound_idle_fallible (asks_lift (asks_callSource trivial)) (fun answer ↦ ?_)
      fun e ↦ ⟨rfl, fun text hr ↦ nomatch hr⟩
    refine sound_idle_fallible (p := Hydration.raise _) trivial (fun state ↦ ?_)
      fun e ↦ ⟨rfl, fun text hr ↦ nomatch hr⟩
    refine ⟨rfl, fun text hr ↦ .inr ?_⟩
    obtain rfl := Except.ok.inj hr
    split
    · exact ⟨_, rfl⟩
    · exact ⟨_, rfl⟩

theorem sound_hint (location : Container) (kind : HintKind) {h : Handling}
    (hd : h.identifier = some (.hint location kind)) (hh : h.handed = []) :
    (delivery setting).Sound (Hydration.hint setting location kind).run
      (fun r h' ↦ h'.identifier = h.identifier ∧
        ∀ receipt, r = .ok receipt → Told setting receipt h') h := by
  refine sound_fallible_bind (sound_mono ?_ (sound_hintText location kind h))
  intro r h' hr
  obtain ⟨rfl, htext⟩ := hr
  cases r with
  | error e => exact ⟨rfl, fun _ hr ↦ nomatch hr⟩
  | ok text =>
    refine sound_idle_fallible (asks_lift (asks_callSource trivial)) (fun _ ↦ ?_)
      fun e ↦ ⟨rfl, fun _ hr ↦ nomatch hr⟩
    refine sound_fallible_bind ⟨⟨?_, ?_⟩, fun written h₁ h₂ hserve hrely ↦ ?_⟩
    · rw [hh]
      rfl
    · simp only [hd]
      exact ⟨hh, text, htext text rfl, rfl⟩
    · obtain rfl := hrely
      obtain rfl := hserve
      cases written with
      | error reason => exact ⟨rfl, fun _ hr ↦ nomatch hr⟩
      | ok _ =>
        refine ⟨rfl, fun receipt hr ↦ ⟨text, htext text rfl, ?_, (Except.ok.inj hr).symm⟩⟩
        rw [hh]
        rfl

theorem sound_hydrate (identifier : EntryIdentifier) (request : ContentRequest) :
    (delivery setting).Sound (hydrate setting identifier request).run
      (fun r h ↦ Due setting (.source (.answered r)) h) { identifier := some identifier } := by
  cases identifier with
  | container c => trivial
  | hint location kind =>
    refine sound_mono ?_ (sound_hint location kind rfl rfl)
    intro r h hr
    cases r with
    | error e => trivial
    | ok receipt =>
      simp only [Due, hr.1]
      exact hr.2 receipt rfl
  | document location document =>
    refine sound_mono ?_ (sound_loadDocument location document request ⟨_, _, rfl⟩ rfl rfl)
    intro r h hr
    cases r with
    | error e => trivial
    | ok receipt =>
      obtain ⟨⟨l, d, hid⟩, hdelivered⟩ := hr receipt rfl
      simp only [Due, hid]
      exact hdelivered

theorem sound_content (identifier : EntryIdentifier) (request : ContentRequest) (h : Handling) :
    (delivery setting).Sound (content setting identifier request) (fun _ _ ↦ True) h := by
  refine ⟨trivial, fun _ h₁ h₂ hserve hrely ↦ ?_⟩
  obtain rfl := hrely
  obtain rfl := hserve
  refine sound_idle_bind (p := callSession .isStopped) (asks_call trivial) fun stopped ↦ ?_
  split
  · exact ⟨trivial, fun _ _ _ _ _ ↦ trivial⟩
  · refine sound_bind.mpr (sound_mono ?_ (sound_hydrate identifier request))
    intro r h hr
    exact ⟨hr, fun _ _ _ _ _ ↦ trivial⟩

end Walk

section Kept

variable {setting : Setting}

theorem Promise.of_unchanged {h h' : Handling} (hp : Promise setting h)
    (hi : h'.identifier = h.identifier) (hdet : h'.details = h.details)
    (hh : h'.handed = h.handed) (hl : h'.loads = h.loads) : Promise setting h' := by
  unfold Promise
  rw [hi, hdet, hh, hl]
  exact hp

theorem promise_begun (identifier : Option EntryIdentifier) :
    Promise setting { identifier := identifier } := by
  refine ⟨trivial, ?_⟩
  cases identifier with
  | none => exact ⟨rfl, rfl⟩
  | some identifier =>
    cases identifier with
    | container c => exact ⟨rfl, rfl⟩
    | document location document => exact ⟨Nat.zero_le 2, fun h ↦ absurd rfl h⟩
    | hint location kind => exact ⟨rfl, fun h ↦ absurd rfl h⟩

/-- Of a delivery only what is due reaches the sink. -/
theorem promise_handles {r : Request} {h h' : Handling} {a : Answer r} (hp : Promise setting h)
    (hd : Due setting r h) (hs : handles r h a h') : Promise setting h' := by
  cases r with
  | source r =>
    cases r with
    | begins identifier =>
      obtain rfl := hs
      exact promise_begun _
    | answered result =>
      obtain rfl := hs
      exact promise_begun none
    | entry identifier =>
      obtain rfl := hs
      have hh : h.handed = [] := hd
      refine ⟨hp.1, ?_⟩
      have hp := hp.2
      dsimp only
      split at hp
      · exact ⟨hp.1, fun hne ↦ absurd hh hne⟩
      · exact hp
      · exact hp
    | loadContent row application =>
      obtain rfl := hs
      obtain ⟨hl, location, document, hid⟩ := hd
      refine ⟨hp.1, ?_⟩
      have hp := hp.2
      simp only [hid] at hp ⊢
      exact ⟨Nat.succ_le_succ hl, hp.2⟩
    | write offset data =>
      obtain rfl := hs
      obtain ⟨ho, hd⟩ := hd
      refine ⟨gapless_append hp.1 (by rw [ho, Nat.zero_add]), ?_⟩
      have hp := hp.2
      cases hid : h.identifier with
      | none =>
        simp only [hid] at hd
      | some identifier =>
        cases identifier with
        | container c => simp only [hid] at hd
        | document location document =>
          simp only [hid] at hp hd ⊢
          obtain ⟨details, content, hdet, -, hc, hle⟩ := hd
          refine ⟨hp.1, fun _ ↦ ⟨details, content, hdet, hc, ?_⟩⟩
          rw [bytes_append]
          exact hle
        | hint location kind =>
          simp only [hid] at hp hd ⊢
          obtain ⟨hh, text, htext, rfl⟩ := hd
          refine ⟨hp.1, fun _ ↦ ⟨text, htext, ?_⟩⟩
          rw [hh] at ho ⊢
          rw [ho]
          rfl
    | createScratch | openScratch =>
      obtain ⟨-, rfl⟩ | ⟨-, rfl⟩ := hs
      · exact hp.of_unchanged rfl rfl rfl rfl
      · exact hp
    | writeScratch buffer =>
      obtain ⟨n, -, -, -, rfl⟩ | ⟨-, rfl⟩ := hs
      · exact hp.of_unchanged rfl rfl rfl rfl
      · exact hp
    | readScratch =>
      obtain ⟨data, rest, -, -, -, -, rfl⟩ | ⟨-, rfl⟩ := hs
      · exact hp.of_unchanged rfl rfl rfl rfl
      · exact hp
    | removeScratch =>
      obtain rfl | rfl := hs
      · exact hp.of_unchanged rfl rfl rfl rfl
      · exact hp
    | _ =>
      obtain rfl := hs
      exact hp
  | _ =>
    obtain rfl := hs
    exact hp

def discipline (setting : Setting) : Discipline Request Answer World where
  invariant w := ∀ i, Promise setting (w.handling i)
  ok i r w := Due setting r (w.handling i)
  rely i w w' := w'.handling i = w.handling i
  ends _ _ := True

variable {fails : Prop} {condition : Condition}

abbrev contract (setting : Setting) (fails : Prop) (condition : Condition) (i : ℕ) :
    Contract Request Answer World :=
  (discipline setting).contract (rules setting fails condition) i

theorem due_of_harmless {r : Request} (hr : Harmless r) (h : Handling) : Due setting r h := by
  cases r with
  | source r =>
    cases r with
    | entry | loadContent | write | answered => exact hr.elim
    | _ => trivial
  | _ => trivial

theorem orderly (setting : Setting) (fails : Prop) (condition : Condition) (i : ℕ) :
    Orderly setting (contract setting fails condition i) where
  harmless r w h _ := due_of_harmless h (w.handling i)
  ensureForToken := fine_of_all (fun _ _ ↦ trivial) _
  forceRefresh := fine_of_all (fun _ _ ↦ trivial) _
  signIn := fine_of_all (fun _ _ ↦ trivial) _
  signOut := fine_of_all (fun _ _ ↦ trivial) _
  clearAfterSignOut := fine_of_all (fun _ _ ↦ trivial) _
  root := fine_of_all (fun _ _ ↦ trivial) _
  fetchAndAdopt _ := fine_of_all (fun _ _ ↦ trivial) _

theorem fine_delivery (i : ℕ) (identifier : EntryIdentifier) (request : ContentRequest) :
    (contract setting fails condition i).Fine (content setting identifier request) := by
  intro w
  refine sound_comap (D := delivery setting) (f := (World.handling · i)) ?_ ?_ ?_
    (sound_content identifier request (w.handling i))
  · exact fun r w a w' hs ↦ handles_serve hs.1
  · exact fun w w' hr ↦ hr.1
  · exact fun r w hd ↦ hd

theorem kept (setting : Setting) (fails : Prop) (condition : Condition) :
    (discipline setting).Kept (rules setting fails condition) (Fresh setting) where
  refl _ _ := rfl
  trans _ _ _ _ h h' := h'.trans h
  enter w := by
    rintro ⟨n, limit, rfl⟩ i
    exact promise_begun none
  start i p w hi := by
    intro ⟨job, hp, _⟩ w' _ _
    rw [hp]
    exact fine_program (orderly setting fails condition i)
      (fine_process (orderly setting fails condition i) fun _ _ _ ↦ trivial) (fine_delivery i) job w'
  serve i r w a w' hi hok hserve := by
    have hother : ∀ j, j ≠ i → w'.handling j = w.handling j := by
      intro j hj
      cases r with
      | source r => exact handling_serveSource hj hserve.1
      | _ => exact congrFun (handling_serve (by intro q hq; cases hq) hserve.1) j
    refine ⟨fun j ↦ ?_, hother⟩
    by_cases hj : j = i
    · subst hj
      exact promise_handles (hi j) hok (handles_serve hserve.1)
    · rw [hother j hj]
      exact hi j
  finish i w w' hi _ hw := by
    obtain rfl := hw
    have hh : (ended i w).handling = w.handling := by
      obtain he | ⟨-, he⟩ := ended_cases i w <;> rw [he]
      rfl
    exact ⟨fun j ↦ hh ▸ hi j, fun j _ ↦ congrFun hh j⟩
  abort i w w' hi hw := by
    obtain ⟨-, rfl⟩ := hw
    have hh : (aborted i w).handling = Function.update w.handling i {} := by
      obtain he | ⟨-, he⟩ := ended_cases i w <;> simp only [aborted, he] <;> rfl
    refine ⟨fun j ↦ ?_, fun j hj ↦ ?_⟩
    · by_cases hj : j = i
      · rw [hh, hj, Function.update_self]
        exact promise_begun none
      · rw [hh, Function.update_of_ne hj]
        exact hi j
    · change (aborted i w).handling j = w.handling j
      rw [hh, Function.update_of_ne hj]
  restart w w' hi hw := by
    obtain ⟨-, fingerprint, rfl⟩ := hw
    exact fun i ↦ promise_begun none
  outside w w' hi hw := by
    obtain ⟨-, rfl⟩ := hw
    exact ⟨hi, fun _ ↦ rfl⟩

/-- In every run, of each delivery only the promised has reached the sink, and whatever it asks
for next is due. -/
theorem promise_of_run {c : Activities} (h : Runs setting fails {} c) (i : ℕ) :
    Promise setting (c.state.handling i) ∧
      ∀ r next, c.running i = some (.ask r next) → Due setting r (c.state.handling i) :=
  ⟨(Discipline.run_kept (kept setting fails {}) h).1 i,
    fun _ _ hr ↦ Discipline.ok_of_run (kept setting fails {}) h hr⟩

end Kept

section Fetched

open FolderClient.Engine.Play

/-- The server streams a single byte, whose checksum is that of the listing. -/
def streaming : Surroundings where
  stream := .success ⟨.ok ⟨"text/plain", 1, "1", ⟨0⟩⟩, [[0]], none⟩

/-- A document is listed, and its content on the way to the platform. -/
def fetched : List Move :=
  whole 63 1 .signIn (welcoming (plainPage ["x"] "L")) ++
  whole 9 1 (.reconcile (.search ⟨1⟩)) (welcoming (plainPage ["ab"] "E")) ++
  .start 1 (.content (.document (.search ⟨1⟩) ⟨2⟩) ⟨none⟩) :: asks 21 1 streaming

theorem promise_fetched : ∃ c, Runs plain False {} c ∧ (c.state.handling 1).handed = [(0, [0])] ∧
    Promise plain (c.state.handling 1) ∧
      ∀ r next, c.running 1 = some (.ask r next) → Due plain r (c.state.handling 1) := by
  obtain ⟨c, hplay, hhanded⟩ := (Option.any_eq_true (fun c : Activities ↦
    (c.state.handling 1).handed = [(0, [0])]) (play plain (freshEngine plain) fetched)).mp
      (by decide +kernel)
  have hrun := runs_of_play runs_freshEngine hplay
  exact ⟨c, hrun, of_decide_eq_true hhanded, promise_of_run hrun 1⟩

end Fetched

section Hinted

open FolderClient.Engine.Play

/-- The details a delivery goes by, or those of its entry as it is stored. -/
def Named (w : World) (i : ℕ) (details : FileDetails) : Prop :=
  (w.handling i).details = some details ∨ ∃ identifier entry,
    (w.handling i).identifier = some identifier ∧ w.store.entryOf identifier = some entry ∧
      entry.file = some details

/-- Whatever reached the sink is the beginning of content its details name. -/
def AlwaysChecked (setting : Setting) (w : World) (i : ℕ) : Prop :=
  bytes (w.handling i).handed ≠ [] → ∃ details content, Named w i details ∧
    Checked setting details content ∧ bytes (w.handling i).handed <+: content

/-- The hint below the root is opened. -/
def hinted : List Move :=
  whole 63 1 .signIn (welcoming (plainPage ["x"] "L")) ++
  .start 1 (.content (.hint .root .readMe) ⟨none⟩) :: asks 4 1 {}

/-- The sink has received bytes, and no details of the delivery name a checksum. -/
def isUnchecked (w : World) (i : ℕ) : Bool :=
  !(bytes (w.handling i).handed).isEmpty &&
    (w.handling i).details.all (fun details ↦ details.sha256.isNone) &&
    (w.handling i).identifier.all fun identifier ↦ (w.store.entryOf identifier).all fun entry ↦
      entry.file.all fun details ↦ details.sha256.isNone

theorem not_alwaysChecked_of_isUnchecked {w : World} {i : ℕ} (h : isUnchecked w i = true)
    (setting : Setting) : ¬ AlwaysChecked setting w i := by
  simp only [isUnchecked, Bool.and_eq_true, Bool.not_eq_true', Option.all_eq_true] at h
  obtain ⟨⟨hbytes, hdetails⟩, hentry⟩ := h
  intro hall
  obtain ⟨details, content, hnamed, hchecked, -⟩ := hall (by
    intro hnil
    rw [hnil] at hbytes
    cases hbytes)
  have hnone : details.sha256.isNone = true := by
    obtain hd | ⟨identifier, entry, hi, he, hd⟩ := hnamed
    · exact hdetails details hd
    · exact hentry identifier hi entry he details hd
  rw [hchecked.2] at hnone
  cases hnone

theorem hint_unchecked : ¬ ∀ (setting : Setting) (fails : Prop) (c : Activities) (i : ℕ),
    Runs setting fails {} c → AlwaysChecked setting c.state i := by
  intro hall
  obtain ⟨c, hplay, hunchecked⟩ := (Option.any_eq_true (fun c : Activities ↦
    isUnchecked c.state 1) (play plain (freshEngine plain) hinted)).mp (by decide +kernel)
  exact not_alwaysChecked_of_isUnchecked hunchecked plain
    (hall plain False c 1 (runs_of_play runs_freshEngine hplay))

end Hinted

end FolderClient.Engine.HydrationRuns
