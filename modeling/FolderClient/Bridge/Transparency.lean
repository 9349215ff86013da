import FolderClient.Bridge.Contents

namespace FolderClient.Bridge.Transparency

open FolderClient.Bridge.Client FolderClient.Bridge.Contents FolderClient.Bridge.Frame
open FolderClient.Bridge.FrameRuns FolderClient.Bridge.Message FolderClient.Bridge.Server
open FolderClient.Bridge.Speaking
open FolderClient.Core.Changes FolderClient.Core.Namespace FolderClient.Engine.Transfers
open FolderClient.Library.Programs

section Connections

variable {json : Json} {source : Source} {secret : String} {target : Target} {line app : Line}
  {ticks : List Tick} {request : Request}

/-- The two ends of one connection: neither has written anything before, and each reads from what
the other writes, as far as it comes. -/
structure Joined (line app after : Line) (served : Served) : Prop where
  fresh : line.outgoing.bytes = []
  untouched : app.outgoing.bytes = []
  sent : bytesOf app.incoming <+: after.outgoing.bytes
  answered : bytesOf line.incoming <+: served.outgoing.bytes

/-- What is left behind WELCOME. -/
theorem rest_of_opened {line₁ : Line} {bytes y : List UInt8} (h : Opened json line line₁)
    (hl : bytes.length ≤ maxMessage) (hp : bytesOf line.incoming <+: framesOf bytes ++ y) :
    bytesOf line₁.incoming <+: y := by
  obtain ⟨inbox, hread⟩ := h.welcome
  exact prefix_of_read hp (json_of_ok rfl hl hp hread).2

/-- Where more has been read than WELCOME, the app has answered. -/
theorem answer_of_read {line₁ after : Line} {wanted : List UInt8}
    {limit : Limit} {inbox : Inbox} {slices : List Slice}
    (hopened : Opened json line line₁) (hdecode : json.request.decode wanted = .ok request)
    (hl : wanted.length ≤ maxMessage)
    (hafter : after.outgoing.bytes = line₁.outgoing.bytes ++ framesOf wanted)
    (hj : Joined line app after (run json source secret app ticks))
    (hread : readInbox limit readDeadline line₁.incoming = (.ok inbox, slices)) :
    run json source secret app ticks = answer json source request (greeting json app) ticks ∧
      ∀ y, (run json source secret app ticks).outgoing.bytes = (greeting json app).bytes ++ y →
        bytesOf line₁.incoming <+: y := by
  obtain ⟨secret', hello, hhello, hfits, hwritten⟩ := hopened.hello
  have hsent := hj.sent
  rw [hafter, hwritten, hj.fresh, List.nil_append] at hsent
  have hlength := length_readInbox hread
  have hcases := run_cases source secret ticks hfits hl hdecode hsent
  obtain ⟨p, hp, hW⟩ | ⟨W, hW, hout, hrun⟩ := hcases
  · have hanswered := hj.answered
    rw [hp, hj.untouched, List.nil_append] at hanswered
    have hnothing : bytesOf line₁.incoming <+: [] := by
      obtain rfl | ⟨W, hW, hpW⟩ := hW
      · obtain ⟨inbox', hwelcome⟩ := hopened.welcome
        have hread' := length_readInbox hwelcome
        rw [List.prefix_nil.mp hanswered] at hread'
        exact absurd hread' (Nat.not_lt_zero _)
      · refine rest_of_opened hopened hW ?_
        rw [List.append_nil]
        exact hanswered.trans hpW
    rw [List.prefix_nil.mp hnothing] at hlength
    exact absurd hlength (Nat.not_lt_zero _)
  · refine ⟨hrun, fun y hy ↦ rest_of_opened hopened hW ?_⟩
    have hanswered := hj.answered
    rwa [hy, hout, hj.untouched, List.nil_append] at hanswered

theorem ok_of_response {α : Type} {asked : Except BridgeError Notice} {expected : String}
    {take : Notice → Option (Except SourceError α)} {x : α}
    (h : response asked expected take = .ok x) :
    ∃ notice, asked = .ok notice ∧ (∀ e, notice ≠ .error e) ∧ take notice = some (.ok x) := by
  unfold response at h
  split at h
  · cases h
  · cases h
  next notice hne =>
    split at h
    next result htake => exact ⟨notice, rfl, hne, h ▸ htake⟩
    · cases h

/-- An answer that is taken is the one the app has made. -/
theorem eq_of_answered {α : Type} {made : Notice} {expected : String}
    {take : Notice → Option (Except SourceError α)} {x : α}
    (hmade : ∀ out, answer json source request out ticks = respond json request made out)
    (hj : Joined line app (answered json target line request expected take).2
      (run json source secret app ticks))
    (h : (answered json target line request expected take).1 = .ok x) :
    take made = some (.ok x) ∧ (run json source secret app ticks).calls = [request] := by
  unfold answered at h hj
  cases hask : (ask json target request).run line with
  | mk asked after =>
    rw [hask] at h hj
    obtain ⟨notice, hnotice, hne, htake⟩ := ok_of_response h
    obtain rfl : asked = .ok notice := hnotice
    obtain ⟨line₁, hopened, ⟨wanted, hdecode, hl, hafter⟩, bytes, hread, hsaid⟩ :=
      asked_of_ask hask
    obtain ⟨hrun, hrest⟩ := answer_of_read hopened hdecode hl hafter hj hread
    rw [hmade] at hrun
    refine ⟨?_, by rw [hrun]; rfl⟩
    have hspoken : Spoken json made (greeting json app)
        (Server.send json made (greeting json app)) := spoken_send
    obtain ⟨p, hp, hW⟩ := hspoken.some
    have hslices := hrest p (by rw [hrun]; exact hp)
    have hlength := length_readInbox hread
    obtain rfl | ⟨W, hW, hpW⟩ := hW
    · rw [List.prefix_nil.mp hslices] at hlength
      exact absurd hlength (Nat.not_lt_zero _)
    · have heq := json_of_split (y := []) rfl rfl hW.fits
        (by rw [List.append_nil]; exact hslices.trans hpW) hread
      obtain rfl := Inbox.json.inj heq.1
      obtain hmade' | ⟨e, herror⟩ := hW.said
      · obtain rfl := Except.ok.inj (hsaid.symm.trans hmade')
        exact htake
      · exact absurd (Except.ok.inj (hsaid.symm.trans herror)) (hne e)

theorem returned_of_guards {α : Type} {outcome : Outcome α} {x : α}
    (h : guards outcome = .ok x) : outcome = .returned (.ok x) := by
  cases outcome with
  | returned result => exact congrArg Outcome.returned h
  | panicked text => cases h

section Contents

variable {identifier : EntryIdentifier} {wish : ContentRequest} {sink sink' : Sink}
  {after : Line} {receipt : ContentReceipt}

/-- The source at work on a content, with a sink on which WELCOME has gone out. -/
def delivered (json : Json) (source : Source) (app : Line) (ticks : List Tick)
    (identifier : EntryIdentifier) (wish : ContentRequest) : Outcome ContentReceipt × RemoteSink :=
  deliver json (source.content identifier wish) ⟨greeting json app, false, false, ticks, []⟩

theorem asked_of_content
    (h : content json target line identifier wish sink = (.ok receipt, sink', after)) :
    ∃ line₁, Opened json line line₁ ∧ after.incoming = line₁.incoming ∧
      (∃ bytes, json.request.decode bytes = .ok (.content identifier wish) ∧
        bytes.length ≤ maxMessage ∧
        after.outgoing.bytes = line₁.outgoing.bytes ++ framesOf bytes) ∧
      transfer json 0 sink.cancelled.2 line₁.incoming = (.ok receipt, sink') := by
  unfold content at h
  split at h
  · cases h
  split at h
  · cases h
  next after' hask =>
    obtain ⟨_, line₁, hopen, h₁⟩ := ok_of_bind hask
    obtain ⟨bytes, hencode, hfits, hbytes, hincoming⟩ := ok_of_send h₁
    cases htransfer : transfer json 0 sink.cancelled.2 after'.incoming with
    | mk result received =>
      rw [htransfer] at h
      obtain ⟨rfl, hrest⟩ := Prod.mk.inj h
      obtain ⟨rfl, rfl⟩ := Prod.mk.inj hrest
      exact ⟨line₁, opened_of_openLine hopen, hincoming,
        ⟨bytes, json.request.decode_encode _ _ hencode, hfits, hbytes⟩, hincoming ▸ htransfer⟩

/-- What has arrived on a content that is answered. -/
structure Arrived (delivered : Outcome ContentReceipt × RemoteSink) (receipt : ContentReceipt)
    (chunks : List (UInt64 × List UInt8)) : Prop where
  returned : delivered.1 = .returned (.ok receipt)
  gapless : Gapless 0 chunks
  data : dataOf chunks = delivered.2.handed
  size : receipt.size = delivered.2.handed.length

/-- A transfer that succeeds has taken all of what the source has handed to its sink. -/
theorem arrived_of_transfer {slices : List Slice}
    (hp : ∀ y, (deliverContent json source identifier wish (greeting json app)
      ticks).outgoing.bytes = (greeting json app).bytes ++ y → bytesOf slices <+: y)
    (h : transfer json 0 sink slices = (.ok receipt, sink')) :
    ∃ chunks, sink'.received = sink.received ++ chunks ∧
      Arrived (delivered json source app ticks identifier wish) receipt chunks := by
  have hstart : Delivered json (greeting json app).bytes ([] : List UInt8)
      ⟨greeting json app, false, false, ticks, []⟩ :=
    ⟨[], [], nofun, (List.append_nil _).symm, .inl rfl, fun _ ↦ ⟨rfl, fun _ ↦ rfl⟩⟩
  have hkept : Delivered json (greeting json app).bytes
      (delivered json source app ticks identifier wish).2.handed
      (delivered json source app ticks identifier wish).2 := deliver_kept _ hstart
  unfold deliverContent at hp
  unfold delivered at hkept ⊢
  cases hdeliver : deliver json (source.content identifier wish)
      ⟨greeting json app, false, false, ticks, []⟩ with
  | mk outcome remote =>
    rw [hdeliver] at hp hkept
    dsimp only at hp hkept ⊢
    obtain ⟨carried, p, hcarried, hb, hpart, hwhole⟩ := hkept.carried
    by_cases htorn : remote.torn = true
    · rw [if_pos htorn] at hp
      obtain ⟨-, slices', sink₁, hslices, -, hok⟩ := transfer_of_carried hcarried (hp _ hb) h
      obtain rfl | ⟨inbox, hc, hpart⟩ := hpart
      · exact absurd hok (not_ok_of_nothing hslices)
      · exact absurd hok (not_ok_of_torn hc (hslices.trans hpart))
    rw [if_neg htorn] at hp
    obtain ⟨rfl, hdata⟩ := hwhole (Bool.eq_false_iff.mpr htorn)
    by_cases hhalted : remote.look.1.halted = true
    · rw [if_pos hhalted] at hp
      obtain ⟨-, slices', sink₁, hslices, -, hok⟩ := transfer_of_carried hcarried (hp _ hb) h
      exact absurd hok (not_ok_of_nothing hslices)
    rw [if_neg hhalted] at hp
    have hrunning : remote.halted = false := by
      cases hstays : remote.halted with
      | false => rfl
      | true =>
        refine absurd ?_ hhalted
        unfold RemoteSink.look
        rw [hstays]
        split <;> rfl
    have hspoken : Spoken json (ending (guards outcome)) remote.outgoing
        (Server.send json (ending (guards outcome)) remote.outgoing) := spoken_send
    obtain ⟨p, hout, hW⟩ := hspoken.some
    have hbytes : (Server.send json (ending (guards outcome)) remote.outgoing).2.bytes =
        (greeting json app).bytes ++ ((carried.map bytesFor).flatten ++ p) := by
      rw [hout, hb, List.append_nil, List.append_assoc]
    obtain ⟨hgapless, slices', sink₁, hslices, hreceived, hok⟩ :=
      transfer_of_carried hcarried (hp _ hbytes) h
    obtain rfl | ⟨W, hW, hpW⟩ := hW
    · exact absurd hok (not_ok_of_nothing hslices)
    obtain ⟨hfinish, hsize, hlast⟩ := finish_of_transfer hW (hslices.trans hpW) hok
    refine ⟨chunksOf carried, hlast.trans hreceived, ?_, hgapless, hdata hrunning, ?_⟩
    · refine returned_of_guards ?_
      cases hguards : guards outcome with
      | ok made =>
        rw [hguards] at hfinish
        cases hfinish
        rfl
      | error error =>
        rw [hguards] at hfinish
        cases hfinish
    · rw [hsize, hdata hrunning, Nat.zero_add]

theorem arrived_of_content {slices : Line}
    (h : content json target line identifier wish sink = (.ok receipt, sink', slices))
    (hj : Joined line app slices (run json source secret app ticks)) :
    (run json source secret app ticks).calls = [.content identifier wish] ∧
      ∃ chunks, sink'.received = sink.received ++ chunks ∧
        Arrived (delivered json source app ticks identifier wish) receipt chunks := by
  obtain ⟨line₁, hopened, -, ⟨bytes, hdecode, hl, hafter⟩, htransfer⟩ := asked_of_content h
  obtain ⟨inbox, slices', hread, -⟩ := round_of_transfer htransfer
  obtain ⟨hrun, hrest⟩ := answer_of_read hopened hdecode hl hafter hj hread
  rw [hrun] at hrest ⊢
  obtain ⟨chunks, hreceived, harrived⟩ := arrived_of_transfer hrest htransfer
  rw [received_cancelled] at hreceived
  exact ⟨calls_answer _, chunks, hreceived, harrived⟩

end Contents

end Connections

/-- What a connection between the extension and the app carries: whatever succeeds is what the
source has said, and the source is asked once at most, after a greeting. -/
structure Transparent (json : Json) (source : Source) (secret : String) (target : Target)
    (line app : Line) (ticks : List Tick) : Prop where
  children : ∀ container x,
    Joined line app (children json target line container).2 (run json source secret app ticks) →
    (children json target line container).1 = .ok x →
    source.children container = .returned (.ok x) ∧
      (run json source secret app ticks).calls = [.children container]
  entry : ∀ identifier x,
    Joined line app (entry json target line identifier).2 (run json source secret app ticks) →
    (entry json target line identifier).1 = .ok x →
    source.entry identifier = .returned (.ok x) ∧
      (run json source secret app ticks).calls = [.entry identifier]
  currentSequence : ∀ x,
    Joined line app (currentSequence json target line).2 (run json source secret app ticks) →
    (currentSequence json target line).1 = .ok x →
    source.currentSequence = .returned (.ok x) ∧
      (run json source secret app ticks).calls = [.currentSequence]
  changesSince : ∀ sequence max x,
    Joined line app (changesSince json target line sequence max).2
      (run json source secret app ticks) →
    (changesSince json target line sequence max).1 = .ok x →
    source.changesSince sequence max = .returned (.ok x) ∧
      (run json source secret app ticks).calls = [.changesSince sequence max]
  content : ∀ identifier wish sink receipt sink' after,
    Joined line app after (run json source secret app ticks) →
    content json target line identifier wish sink = (.ok receipt, sink', after) →
    (run json source secret app ticks).calls = [.content identifier wish] ∧
      ∃ chunks, sink'.received = sink.received ++ chunks ∧
        Arrived (delivered json source app ticks identifier wish) receipt chunks
  once : (run json source secret app ticks).calls.length ≤ 1
  greeted : (run json source secret app ticks).calls ≠ [] →
    ∃ slices, Greeted json secret app.incoming slices

theorem transparent (json : Json) (source : Source) (secret : String) (target : Target)
    (line app : Line) (ticks : List Tick) :
    Transparent json source secret target line app ticks where
  children container x hj h := by
    obtain ⟨htake, hcalls⟩ := eq_of_answered (fun _ ↦ rfl) hj h
    exact ⟨returned_of_guards (Option.some.inj htake), hcalls⟩
  entry identifier x hj h := by
    obtain ⟨htake, hcalls⟩ := eq_of_answered (fun _ ↦ rfl) hj h
    exact ⟨returned_of_guards (Option.some.inj htake), hcalls⟩
  currentSequence x hj h := by
    obtain ⟨htake, hcalls⟩ := eq_of_answered (fun _ ↦ rfl) hj h
    exact ⟨returned_of_guards (Option.some.inj htake), hcalls⟩
  changesSince sequence max x hj h := by
    obtain ⟨htake, hcalls⟩ := eq_of_answered (fun _ ↦ rfl) hj h
    exact ⟨returned_of_guards (Option.some.inj htake), hcalls⟩
  content identifier wish sink receipt sink' after hj h := arrived_of_content h hj
  once := calls_run.1
  greeted := calls_run.2


section Exchange

variable {limit : Limit} {duration : ℕ} {payload more : List UInt8} {out : Outgoing}

theorem readExactly_whole {x : List UInt8} (y : List UInt8) (hx : x ≠ []) :
    readExactly duration x.length [.bytes (x ++ y) false] = (.ok x, remainder y false []) := by
  obtain ⟨b, x, rfl⟩ := List.exists_cons_of_ne_nil hx
  rw [List.length_cons, readExactly, if_neg (by simp), if_pos (by simp)]
  simp

/-- A short message that comes in one piece. -/
theorem readInbox_whole (hne : payload ≠ []) (hl : payload.length ≤ limit.json)
    (hs : payload.length < 2 ^ 20) :
    readInbox limit duration [.bytes (framesOf payload ++ more) false] =
      (.ok (.json payload), remainder more false []) := by
  have hframe : maxJsonFrame = 2 ^ 20 := rfl
  have hheader : readExactly duration (headerOf kindJson payload.length).length
      [.bytes (headerOf kindJson payload.length ++ (payload ++ more)) false] =
      (.ok (headerOf kindJson payload.length), remainder (payload ++ more) false []) :=
    readExactly_whole _ (by simp [headerOf])
  rw [length_headerOf] at hheader
  have hkind : readKindAndCheck limit duration (!([] : List UInt8).isEmpty)
      [.bytes (framesOf payload ++ more) false] =
      (.ok (.json payload.length), [.bytes (payload ++ more) false]) := by
    rw [framesOf, if_neg (by omega), frame_singleton, List.append_assoc, readKindAndCheck, hheader,
      remainder, if_neg (by simp [hne])]
    dsimp only
    rw [checkHeader_json hl (by omega)]
  rw [readInbox, readInboxFrom_json hkind, readPart, List.length_nil, Nat.zero_add,
    if_neg (Nat.not_lt.mpr (le_max_of_le_right hl)), readExactly_whole _ hne]
  rfl

theorem writeJson_clear (bytes : List UInt8) (hs : payload.length < 2 ^ 20) :
    writeJson (.ok payload) ⟨bytes, []⟩ = (.ok (), ⟨bytes ++ framesOf payload, []⟩) := by
  have hmessage : maxMessage = 2 ^ 26 := rfl
  have hfits : payload.length ≤ maxMessage := by omega
  have hgoes := goes_writeParts hfits ⟨bytes, []⟩
  obtain ⟨hok, hbreaks⟩ := hgoes.whole rfl
  rw [writeJson, if_neg (by omega)]
  cases hwrite : writeParts payload ⟨bytes, []⟩ with
  | mk result out =>
    rw [hwrite] at hok hbreaks hgoes
    obtain ⟨bytes', breaks⟩ := out
    have hb : bytes' = bytes ++ framesOf payload := hgoes.all hok
    obtain rfl : breaks = [] := hbreaks
    obtain rfl : result = .ok () := hok
    rw [hb]

/-- The text of a message, which has letters, digits and punctuation only. -/
def ascii (text : String) : List UInt8 := text.toList.map fun c ↦ UInt8.ofNat c.toNat

def helloText : List UInt8 := ascii "\x7b\"kind\":\"HELLO\",\"version\":1,\"secret\":\"s\"\x7d"
def askText : List UInt8 := ascii "\x7b\"kind\":\"CURRENT_SEQUENCE\"\x7d"
def welcomeText : List UInt8 := ascii "\x7b\"kind\":\"WELCOME\",\"version\":1\x7d"
def answerText : List UInt8 := ascii "\x7b\"kind\":\"CURRENT_SEQUENCE\",\"result\":\x7b\"Ok\":7\x7d\x7d"

/-- The messages of one exchange. -/
def exchanged : Json where
  hello := {
    encode := fun m ↦ if m.version = 1 ∧ m.secret = "s" then .ok helloText else .error ""
    decode := fun bytes ↦ if bytes = helloText then .ok ⟨1, "s"⟩ else .error ""
    decode_encode := by
      rintro ⟨version, secret⟩ bytes h
      split at h
      next hm =>
        obtain ⟨rfl, rfl⟩ := hm
        cases h
        exact if_pos rfl
      · cases h }
  request := {
    encode
      | .currentSequence => .ok askText
      | _ => .error ""
    decode := fun bytes ↦ if bytes = askText then .ok .currentSequence else .error ""
    decode_encode := by
      intro m bytes h
      cases m with
      | currentSequence =>
        cases h
        exact if_pos rfl
      | _ => cases h }
  notice := {
    encode
      | .welcome 1 => .ok welcomeText
      | .currentSequence (.ok 7) => .ok answerText
      | _ => .error ""
    decode := fun bytes ↦
      if bytes = welcomeText then .ok (.welcome 1)
      else if bytes = answerText then .ok (.currentSequence (.ok 7)) else .error ""
    decode_encode := by
      intro m bytes h
      split at h
      · cases h
        exact if_pos rfl
      · cases h
        rw [if_neg (by decide +kernel), if_pos rfl]
      · cases h }

def exchangedTarget : Target := ⟨.ok ⟨4711, "s", 1⟩, .ok ()⟩

def exchangedSource : Source where
  children _ := .panicked none
  entry _ := .panicked none
  currentSequence := .returned (.ok 7)
  changesSince _ _ := .panicked none
  content _ _ := .done (.panicked none)

/-- The client's end, with both messages of the app in one piece. -/
def exchangedLine : Line :=
  ⟨[.bytes (framesOf welcomeText ++ framesOf answerText) false], ⟨[], []⟩⟩

/-- The end of the app, with both messages of the client in one piece. -/
def exchangedApp : Line :=
  ⟨[.bytes (framesOf helloText ++ framesOf askText) false], ⟨[], []⟩⟩

theorem run_bind_of_ok {α β : Type} {x : Talk α} {f : α → Talk β} {a : α} {line line₁ : Line}
    (h : x.run line = (.ok a, line₁)) : (x >>= f).run line = (f a).run line₁ := by
  change ExceptT.bindCont f (x.run line).1 (x.run line).2 = _
  rw [h]
  rfl

theorem framesOf_ne_nil : framesOf payload ≠ [] := by
  intro he
  have := congrArg List.length he
  rw [framesOf] at this
  split at this
  · rw [List.length_append, frame_singleton, List.length_append, length_headerOf] at this
    simp at this
  · rw [frame_singleton, List.length_append, length_headerOf] at this
    simp at this

theorem remainder_framesOf :
    remainder (framesOf payload) false [] = [.bytes (framesOf payload ++ []) false] := by
  rw [remainder, if_neg (by rw [List.isEmpty_iff]; exact framesOf_ne_nil), List.append_nil]

theorem send_clear {onError : WriteError → BridgeError} {incoming : List Slice}
    (bytes : List UInt8) (hs : payload.length < 2 ^ 20) :
    (Client.send onError (.ok payload)).run ⟨incoming, ⟨bytes, []⟩⟩ =
      (.ok (), ⟨incoming, ⟨bytes ++ framesOf payload, []⟩⟩) := by
  simp only [Client.send, ExceptT.run_mk, writeJson_clear bytes hs]
  rfl

theorem receive_whole (hne : payload ≠ []) (hl : payload.length ≤ limit.json)
    (hs : payload.length < 2 ^ 20) :
    (receive limit).run ⟨[.bytes (framesOf payload ++ more) false], out⟩ =
      (.ok (.ok (.json payload)), ⟨remainder more false [], out⟩) := by
  simp only [receive, ExceptT.run_mk, readInbox_whole hne hl hs]

theorem ask_exchanged : (ask exchanged exchangedTarget .currentSequence).run exchangedLine =
    (.ok (.currentSequence (.ok 7)),
      ⟨[], ⟨framesOf helloText ++ framesOf askText, []⟩⟩) := by
  have hopen : (openLine exchanged exchangedTarget).run exchangedLine =
      (.ok (), ⟨remainder (framesOf answerText) false [], ⟨framesOf helloText, []⟩⟩) := by
    unfold openLine
    have hrendezvous : (raise exchangedTarget.rendezvous).run exchangedLine =
      (.ok ⟨4711, "s", 1⟩, exchangedLine) := rfl
    have hconnection : (raise exchangedTarget.connection).run exchangedLine =
      (.ok (), exchangedLine) := rfl
    rw [run_bind_of_ok hrendezvous, if_neg (by decide), run_bind_of_ok hconnection]
    refine (run_bind_of_ok (send_clear [] (by decide +kernel))).trans ?_
    refine (run_bind_of_ok (receive_whole (by decide +kernel) (by decide +kernel)
      (by decide +kernel))).trans ?_
    rfl
  have hsend : (Client.send afterHandshake (exchanged.request.encode .currentSequence)).run
      ⟨remainder (framesOf answerText) false [], ⟨framesOf helloText, []⟩⟩ =
      (.ok (), ⟨remainder (framesOf answerText) false [],
        ⟨framesOf helloText ++ framesOf askText, []⟩⟩) := send_clear _ (by decide +kernel)
  unfold ask
  rw [run_bind_of_ok hopen, run_bind_of_ok hsend, remainder_framesOf, run_bind_of_ok (receive_whole
    (by decide +kernel) (by decide +kernel) (by decide +kernel))]
  rfl

theorem writeNotice_clear {json : Json} {notice : Notice} (bytes : List UInt8)
    (hencode : json.notice.encode notice = .ok payload) (hs : payload.length < 2 ^ 20) :
    Server.send json notice ⟨bytes, []⟩ = (.ok (), ⟨bytes ++ framesOf payload, []⟩) := by
  rw [Server.send, hencode, writeJson_clear bytes hs]

theorem run_exchanged : run exchanged exchangedSource "s" exchangedApp [] =
    ⟨.ok (), ⟨framesOf welcomeText ++ framesOf answerText, []⟩, [.currentSequence], []⟩ := by
  have hgreet : greet exchanged "s" exchangedApp.incoming =
      .ok (remainder (framesOf askText) false []) := by
    rw [greet, exchangedApp, readInbox_whole (by decide +kernel) (by decide +kernel)
      (by decide +kernel)]
    rfl
  have hrequest : readRequest exchanged (remainder (framesOf askText) false []) =
      .request .currentSequence := by
    rw [readRequest, remainder_framesOf, readInbox_whole (by decide +kernel) (by decide +kernel)
      (by decide +kernel)]
    rfl
  have hwelcome : Server.send exchanged (.welcome version) exchangedApp.outgoing =
      (.ok (), ⟨framesOf welcomeText, []⟩) := writeNotice_clear [] rfl (by decide +kernel)
  have hanswer : Server.send exchanged (.currentSequence (.ok 7)) ⟨framesOf welcomeText, []⟩ =
      (.ok (), ⟨framesOf welcomeText ++ framesOf answerText, []⟩) :=
    writeNotice_clear _ rfl (by decide +kernel)
  rw [run, hgreet]
  dsimp only
  rw [hwelcome]
  dsimp only
  rw [runRequest, hrequest]
  dsimp only
  rw [answer, respond]
  dsimp only [exchangedSource, guards]
  rw [hanswer]

/-- The app says 7, and 7 is what its source has said. -/
theorem seven_carried : (currentSequence exchanged exchangedTarget exchangedLine).1 = .ok 7 ∧
    exchangedSource.currentSequence = .returned (.ok 7) ∧
    (run exchanged exchangedSource "s" exchangedApp []).calls = [.currentSequence] := by
  have hask : currentSequence exchanged exchangedTarget exchangedLine =
      (.ok 7, ⟨[], ⟨framesOf helloText ++ framesOf askText, []⟩⟩) := by
    rw [currentSequence, answered, ask_exchanged]
    rfl
  have hok : (currentSequence exchanged exchangedTarget exchangedLine).1 = .ok 7 := by rw [hask]
  have hjoined : Joined exchangedLine exchangedApp
      (currentSequence exchanged exchangedTarget exchangedLine).2
      (run exchanged exchangedSource "s" exchangedApp []) := by
    rw [hask, run_exchanged]
    have hbytes (bytes : List UInt8) : bytesOf [.bytes bytes false] <+: bytes := by
      exact ⟨[], by rw [bytesOf, bytesOf, List.append_nil, List.append_nil]⟩
    exact ⟨rfl, rfl, hbytes _, hbytes _⟩
  exact ⟨hok, (transparent exchanged exchangedSource "s" exchangedTarget exchangedLine exchangedApp
    []).currentSequence 7 hjoined hok⟩

end Exchange

end FolderClient.Bridge.Transparency
