import FolderClient.Bridge.FrameRuns
import FolderClient.Bridge.Server

namespace FolderClient.Bridge.Speaking

open FolderClient.Bridge.Client FolderClient.Bridge.Frame FolderClient.Bridge.FrameRuns
open FolderClient.Bridge.Message FolderClient.Bridge.Server
open FolderClient.Core.Changes FolderClient.Core.Namespace FolderClient.Engine.Transfers
open FolderClient.Library.Programs

section Arrivals

variable {limit : Limit} {duration : ℕ} {slices slices' : List Slice} {json y : List UInt8}
  {inbox : Inbox}

/-- What arrived is what was written, and nothing else has been taken off the line. -/
theorem eq_of_arrives {x : List UInt8} {value : Inbox} {result : Except ReadError Inbox × List Slice}
    (h : Arrives slices x value result) (hr : result = (.ok inbox, slices')) :
    inbox = value ∧ bytesOf slices = x ++ bytesOf slices' := by
  subst hr
  cases h with
  | ok hb hq => exact ⟨rfl, hb⟩

/-- A header that is refused. -/
theorem not_ok_of_header {header : List UInt8} {y : List UInt8} {text : String}
    (hp : bytesOf slices <+: header ++ y) (hlength : header.length = 5)
    (hc : checkHeader limit false header = .error (.log text)) :
    readInbox limit duration slices ≠ (.ok inbox, slices') := by
  intro h
  cases hread : readKindAndCheck limit duration (!([] : List UInt8).isEmpty) slices with
  | mk result slices₁ =>
    cases result with
    | error error => cases (readInboxFrom_error hread).symm.trans h
    | ok got =>
      obtain ⟨bytes, hbytes, hb, hcheck⟩ := bytesOf_readKindAndCheck hread
      have he : bytes = header := by
        refine List.IsPrefix.eq_of_length ?_ (hbytes.trans hlength.symm)
        refine List.prefix_of_prefix_length_le ?_ (List.prefix_append header y) (by omega)
        exact (hb ▸ List.prefix_append bytes (bytesOf slices₁)).trans hp
      subst he
      cases hc.symm.trans hcheck

theorem checkHeader_large {kind : UInt8} {length : ℕ} (hk : kind = kindJson ∨ kind = kindPart)
    (hl : limit.json < length) (h : 1 + length < 2 ^ 32) :
    ∃ text, checkHeader limit false (headerOf kind length) = .error (.log text) := by
  obtain ⟨hlength, hkind⟩ := checkHeader_headerOf kind h
  refine ⟨s!"JSON frame with {1 + length - 1} bytes; at most {limit.json} are allowed", ?_⟩
  have hlarge : limit.json < 1 + length - 1 := by omega
  simp only [checkHeader, hlength, hkind]
  rw [if_neg (by omega), if_pos ⟨hk, hlarge⟩]

theorem checkHeader_unsplit {length : ℕ} (hm : limit.message = 0) (hl : length ≤ limit.json)
    (h : 1 + length < 2 ^ 32) : ∃ text,
      checkHeader limit false (headerOf kindPart length) = .error (.log text) := by
  obtain ⟨hlength, hkind⟩ := checkHeader_headerOf kindPart h
  refine ⟨"no split message is allowed at this point", ?_⟩
  have hsmall : ¬ limit.json < 1 + length - 1 := by omega
  simp only [checkHeader, hlength, hkind]
  rw [if_neg (by omega), if_neg fun hl ↦ hsmall hl.2, if_pos ⟨trivial, hm⟩]

/-- Where no parts are allowed, whatever arrives is the message that was written. -/
theorem json_of_ok (hm : limit.message = 0) (hl : json.length ≤ maxMessage)
    (hp : bytesOf slices <+: framesOf json ++ y)
    (h : readInbox limit duration slices = (.ok inbox, slices')) :
    inbox = .json json ∧ bytesOf slices = framesOf json ++ bytesOf slices' := by
  have hframe : maxJsonFrame = 2 ^ 20 := rfl
  have hmessage : maxMessage = 2 ^ 26 := rfl
  have hp' := hp
  by_cases hshort : json.length ≤ maxJsonFrame
  · rw [framesOf, if_neg (Nat.not_lt.mpr hshort)] at hp ⊢
    by_cases hfit : json.length ≤ limit.json
    · have hsize : ([] : List UInt8).length + json.length ≤ max limit.message limit.json := by
        rw [List.length_nil, Nat.zero_add]
        exact le_max_of_le_right hfit
      exact eq_of_arrives (arrives_last hfit (by omega) hsize hp) h
    · obtain ⟨text, hc⟩ := checkHeader_large (.inl rfl) (Nat.lt_of_not_le hfit) (by omega)
      rw [frame_singleton, List.append_assoc] at hp
      exact absurd h (not_ok_of_header hp (length_headerOf _ _) hc)
  · have htake : (json.take maxJsonFrame).length = maxJsonFrame :=
      List.length_take_of_le (by omega)
    rw [framesOf, if_pos (Nat.lt_of_not_le hshort), frame_singleton, htake, List.append_assoc,
      List.append_assoc] at hp
    have hrefused : ∃ text,
        checkHeader limit false (headerOf kindPart maxJsonFrame) = .error (.log text) := by
      by_cases hfit : maxJsonFrame ≤ limit.json
      · exact checkHeader_unsplit hm hfit (by omega)
      · exact checkHeader_large (.inr rfl) (Nat.lt_of_not_le hfit) (by omega)
    obtain ⟨text, hc⟩ := hrefused
    exact absurd h (not_ok_of_header hp (length_headerOf _ _) hc)

/-- Where parts are allowed as well. -/
theorem json_of_split (hj : limit.json = maxJsonFrame) (hm : limit.message = maxMessage)
    (hl : json.length ≤ maxMessage) (hp : bytesOf slices <+: framesOf json ++ y)
    (h : readInbox limit duration slices = (.ok inbox, slices')) :
    inbox = .json json ∧ bytesOf slices = framesOf json ++ bytesOf slices' := by
  have hmessage : maxMessage = 2 ^ 26 := rfl
  have hsize : ([] : List UInt8).length + json.length ≤ max limit.message limit.json := by
    rw [List.length_nil, Nat.zero_add, hm]
    exact le_max_of_le_left hl
  exact eq_of_arrives (arrives_json hj (.inr (by omega)) hsize hp) h

end Arrivals

section Speaking

variable {json : Json} {notice : Notice} {out : Outgoing} {bytes : List UInt8}

/-- A message that says a notice, or an error in its place. -/
structure Says (json : Json) (notice : Notice) (bytes : List UInt8) : Prop where
  fits : bytes.length ≤ maxMessage
  said : json.notice.decode bytes = .ok notice ∨ ∃ e, json.notice.decode bytes = .ok (.error e)

/-- What goes out of a notice: a message that says it, or the beginning of one. -/
structure Spoken {ε : Type} (json : Json) (notice : Notice) (out : Outgoing)
    (result : Except ε Unit × Outgoing) : Prop where
  some : ∃ p, result.2.bytes = out.bytes ++ p ∧
    (p = [] ∨ ∃ bytes, Says json notice bytes ∧ p <+: framesOf bytes)
  all : result.1 = .ok () →
    ∃ bytes, Says json notice bytes ∧ result.2.bytes = out.bytes ++ framesOf bytes

/-- A message goes out in its frames, or nothing does. -/
theorem goes_writeJson (encoded : Except String (List UInt8)) (out : Outgoing) :
    (∃ bytes, encoded = .ok bytes ∧ bytes.length ≤ maxMessage ∧
      Goes (framesOf bytes) out (writeJson encoded out)) ∨
    ∃ error, writeJson encoded out = (.error error, out) := by
  cases encoded with
  | error reason => exact .inr ⟨_, rfl⟩
  | ok bytes =>
    by_cases hlarge : maxMessage < bytes.length
    · exact .inr ⟨_, by rw [writeJson, if_pos hlarge]⟩
    · have hfits := Nat.le_of_not_lt hlarge
      refine .inl ⟨bytes, rfl, hfits, ?_⟩
      rw [writeJson, if_neg hlarge]
      exact goes_writeParts hfits out

theorem spoken_writeJson {said : Notice} (hs : said = notice ∨ ∃ e, said = .error e) :
    Spoken json notice out (writeJson (json.notice.encode said) out) := by
  obtain ⟨bytes, hencode, hfits, hgoes⟩ | ⟨error, hwrite⟩ :=
    goes_writeJson (json.notice.encode said) out
  · have hdecode := json.notice.decode_encode _ _ hencode
    have hreport : Says json notice bytes := by
      refine ⟨hfits, ?_⟩
      obtain rfl | ⟨e, rfl⟩ := hs
      · exact .inl hdecode
      · exact .inr ⟨e, hdecode⟩
    obtain ⟨p, hp, hb⟩ := hgoes.some
    exact ⟨⟨p, hb, .inr ⟨bytes, hreport, hp⟩⟩, fun hok ↦ ⟨bytes, hreport, hgoes.all hok⟩⟩
  · rw [hwrite]
    exact ⟨⟨[], (List.append_nil _).symm, .inl rfl⟩, nofun⟩

theorem writeParts_ne_tooLarge {rest : List UInt8} {size : ℕ} :
    (writeParts rest out).1 ≠ .error (.tooLarge size) := by
  induction rest using framesOf.induct generalizing out with
  | case1 rest hlong ih =>
    rw [writeParts, if_pos hlong]
    cases writeFrame kindPart [rest.take maxJsonFrame] out with
    | mk result out' =>
      cases result with
      | error reason =>
        intro h
        cases h
      | ok _ => exact ih
  | case2 rest hshort =>
    rw [writeParts, if_neg hshort]
    cases writeFrame kindJson [rest] out with
    | mk result out' =>
      intro h
      cases result <;> cases h

/-- What is too large has left nothing on the line. -/
theorem out_of_tooLarge {encoded : Except String (List UInt8)} {size : ℕ} {out' : Outgoing}
    (h : writeJson encoded out = (.error (.tooLarge size), out')) : out' = out := by
  unfold writeJson at h
  split at h
  · cases h
  split at h
  · exact (Prod.mk.inj h).2.symm
  · exact absurd (congrArg Prod.fst h) writeParts_ne_tooLarge

theorem spoken_send : Spoken json notice out (Server.send json notice out) := by
  have hfirst : Spoken json notice out (writeJson (json.notice.encode notice) out) :=
    spoken_writeJson (.inl rfl)
  have hsecond : ∀ text : String, Spoken json notice out
      (writeJson (json.notice.encode (.error (.internal text))) out) :=
    fun text ↦ spoken_writeJson (.inr ⟨_, rfl⟩)
  unfold Server.send
  split
  next out' hwrite =>
    rw [hwrite] at hfirst
    exact ⟨hfirst.some, fun _ ↦ hfirst.all rfl⟩
  next size out' hwrite =>
    obtain rfl := out_of_tooLarge hwrite
    split
    next out₂ hsent =>
      have hspoken := hsent ▸ hsecond _
      exact ⟨hspoken.some, fun _ ↦ hspoken.all rfl⟩
    next why out₂ hsent =>
      have hspoken := hsent ▸ hsecond _
      exact ⟨hspoken.some, nofun⟩
  next why out' hwrite =>
    rw [hwrite] at hfirst
    exact ⟨hfirst.some, nofun⟩

end Speaking

section Talking

variable {α β : Type} {line line' : Line}

theorem ok_of_bind {x : Talk α} {f : α → Talk β} {b : β}
    (h : (x >>= f).run line = (.ok b, line')) :
    ∃ a line₁, x.run line = (.ok a, line₁) ∧ (f a).run line₁ = (.ok b, line') := by
  change ExceptT.bindCont f (x.run line).1 (x.run line).2 = _ at h
  cases hx : x.run line with
  | mk result line₁ =>
    rw [hx] at h
    cases result with
    | error e => cases h
    | ok a => exact ⟨a, line₁, rfl, h⟩

theorem ok_of_raise {r : Except BridgeError α} {a : α}
    (h : (raise r).run line = (.ok a, line')) : r = .ok a ∧ line' = line := by
  obtain ⟨hr, rfl⟩ := Prod.mk.inj h
  exact ⟨hr, rfl⟩

theorem ok_of_send {onError : WriteError → BridgeError} {encoded : Except String (List UInt8)}
    {u : Unit} (h : (Client.send onError encoded).run line = (.ok u, line')) :
    ∃ bytes, encoded = .ok bytes ∧ bytes.length ≤ maxMessage ∧
      line'.outgoing.bytes = line.outgoing.bytes ++ framesOf bytes ∧
      line'.incoming = line.incoming := by
  cases hwrite : writeJson encoded line.outgoing with
  | mk result outgoing =>
    simp only [Client.send, ExceptT.run_mk, hwrite] at h
    obtain ⟨hresult, rfl⟩ := Prod.mk.inj h
    cases result with
    | error error => cases hresult
    | ok _ =>
      obtain ⟨bytes, hencode, hfits, hgoes⟩ | ⟨error, hnone⟩ :=
        goes_writeJson encoded line.outgoing
      · rw [hwrite] at hgoes
        exact ⟨bytes, hencode, hfits, hgoes.all rfl, rfl⟩
      · cases hnone.symm.trans hwrite

theorem ok_of_receive {limit : Limit} {result : Except ReadError Inbox}
    (h : (receive limit).run line = (.ok result, line')) :
    readInbox limit readDeadline line.incoming = (result, line'.incoming) ∧
      line'.outgoing = line.outgoing := by
  obtain ⟨hresult, rfl⟩ := Prod.mk.inj h
  obtain rfl := Except.ok.inj hresult
  exact ⟨rfl, rfl⟩

variable {json : Json} {target : Target} {request : Request}

theorem ok_of_welcome {port : ℕ} {result : Except ReadError Inbox} {u : Unit}
    (h : readWelcome json port result = .ok u) : ∃ inbox, result = .ok inbox := by
  cases result with
  | ok inbox => exact ⟨inbox, rfl⟩
  | error why => cases why <;> cases h

/-- A connection that is open: HELLO is written, and one message is read. -/
structure Opened (json : Json) (line line' : Line) : Prop where
  hello : ∃ secret bytes, json.hello.decode bytes = .ok ⟨version, secret⟩ ∧
    bytes.length ≤ maxMessage ∧ line'.outgoing.bytes = line.outgoing.bytes ++ framesOf bytes
  welcome : ∃ inbox, readInbox .handshake readDeadline line.incoming = (.ok inbox, line'.incoming)

theorem opened_of_openLine {u : Unit} (h : (openLine json target).run line = (.ok u, line')) :
    Opened json line line' := by
  unfold openLine at h
  obtain ⟨rendezvous, line₁, hrendezvous, h₁⟩ := ok_of_bind h
  obtain ⟨-, rfl⟩ := ok_of_raise hrendezvous
  split at h₁
  · cases (ok_of_raise h₁).1
  obtain ⟨_, line₂, hconnection, h₂⟩ := ok_of_bind h₁
  obtain ⟨-, rfl⟩ := ok_of_raise hconnection
  obtain ⟨_, line₃, hsend, h₃⟩ := ok_of_bind h₂
  obtain ⟨bytes, hencode, hfits, hbytes, hincoming⟩ := ok_of_send hsend
  obtain ⟨result, line₄, hreceive, h₄⟩ := ok_of_bind h₃
  obtain ⟨hread, houtgoing⟩ := ok_of_receive hreceive
  obtain ⟨hwelcome, rfl⟩ := ok_of_raise h₄
  obtain ⟨inbox, rfl⟩ := ok_of_welcome hwelcome
  refine ⟨⟨rendezvous.secret, bytes, json.hello.decode_encode _ _ hencode, hfits, ?_⟩,
    inbox, hincoming ▸ hread⟩
  rw [houtgoing, hbytes]

/-- A request with its answer: HELLO and the request are written, and two messages are read. -/
theorem asked_of_ask {notice : Notice}
    (h : (ask json target request).run line = (.ok notice, line')) :
    ∃ line₁, Opened json line line₁ ∧
      (∃ bytes, json.request.decode bytes = .ok request ∧ bytes.length ≤ maxMessage ∧
        line'.outgoing.bytes = line₁.outgoing.bytes ++ framesOf bytes) ∧
      ∃ bytes, readInbox .response readDeadline line₁.incoming = (.ok (.json bytes), line'.incoming) ∧
        json.notice.decode bytes = .ok notice := by
  unfold ask at h
  obtain ⟨_, line₁, hopen, h₁⟩ := ok_of_bind h
  refine ⟨line₁, opened_of_openLine hopen, ?_⟩
  obtain ⟨_, line₂, hsend, h₂⟩ := ok_of_bind h₁
  obtain ⟨bytes, hencode, hfits, hbytes, hincoming⟩ := ok_of_send hsend
  obtain ⟨result, line₃, hreceive, h₃⟩ := ok_of_bind h₂
  obtain ⟨hread, houtgoing⟩ := ok_of_receive hreceive
  obtain ⟨hanswer, rfl⟩ := ok_of_raise h₃
  refine ⟨⟨bytes, json.request.decode_encode _ _ hencode, hfits, houtgoing ▸ hbytes⟩, ?_⟩
  rw [hincoming] at hread
  unfold readAnswer at hanswer
  split at hanswer
  next bytes =>
    refine ⟨bytes, hread, ?_⟩
    unfold readNotice at hanswer
    cases hdecode : json.notice.decode bytes with
    | error why =>
      rw [hdecode] at hanswer
      cases hanswer
    | ok read =>
      rw [hdecode] at hanswer
      cases hanswer
      rfl
  · cases hanswer
  · cases hanswer

end Talking

section Serving

variable {json : Json} {source : Source} {secret : String} {line : Line} {ticks : List Tick}
  {slices slices' : List Slice} {request : Request} {hello wanted : List UInt8}

/-- A HELLO with the right version and secret has been read. -/
def Greeted (json : Json) (secret : String) (slices slices' : List Slice) : Prop :=
  ∃ bytes, readInbox .handshake handshakeDeadline slices = (.ok (.json bytes), slices') ∧
    json.hello.decode bytes = .ok ⟨version, secret⟩

theorem greeted_of_greet (h : greet json secret slices = .ok slices') :
    Greeted json secret slices slices' := by
  unfold greet at h
  split at h
  next bytes slices₁ hread =>
    split at h
    · cases h
    next hello hdecode =>
      split at h
      · cases h
      next hversion =>
        split at h
        · cases h
        next hsecret =>
          cases h
          obtain ⟨version', secret'⟩ := hello
          obtain rfl := not_not.mp hversion
          obtain rfl := not_not.mp hsecret
          exact ⟨bytes, hread, hdecode⟩
  · cases h
  · cases h

theorem request_of_readRequest (h : readRequest json slices = .request request) :
    ∃ bytes, (readInbox .request requestDeadline slices).1 = .ok (.json bytes) ∧
      json.request.decode bytes = .ok request := by
  unfold readRequest at h
  split at h
  next bytes hread =>
    split at h
    next request' hdecode => exact ⟨bytes, hread, by cases h; exact hdecode⟩
    · cases h
  all_goals cases h

theorem unreadable_of_readRequest {reason : String}
    (h : readRequest json slices = .unreadable reason) :
    ∃ bytes why, (readInbox .request requestDeadline slices).1 = .ok (.json bytes) ∧
      json.request.decode bytes = .error why := by
  unfold readRequest at h
  split at h
  next bytes hread =>
    split at h
    · cases h
    next why hdecode => exact ⟨bytes, why, hread, hdecode⟩
  all_goals cases h

/-- What is read as the request is the request that was written. -/
theorem eq_wanted {bytes : List UInt8} (hl : wanted.length ≤ maxMessage)
    (hp : bytesOf slices <+: framesOf wanted)
    (h : (readInbox .request requestDeadline slices).1 = .ok (.json bytes)) : bytes = wanted := by
  cases hread : readInbox .request requestDeadline slices with
  | mk result slices₁ =>
    rw [hread] at h
    obtain rfl : result = .ok (.json bytes) := h
    have heq := json_of_ok (y := []) rfl hl (by rwa [List.append_nil]) hread
    exact Inbox.json.inj heq.1

/-- What has gone out with WELCOME. -/
def greeting (json : Json) (line : Line) : Outgoing :=
  (Server.send json (.welcome version) line.outgoing).2

theorem calls_answer (out : Outgoing) : (answer json source request out ticks).calls = [request] := by
  cases request with
  | content identifier wish =>
    rw [answer, deliverContent]
    dsimp only
    split
    · rfl
    split <;> rfl
  | _ => rfl

/-- At most one call goes to the source, and none before the greeting. -/
theorem calls_run : (run json source secret line ticks).calls.length ≤ 1 ∧
    ((run json source secret line ticks).calls ≠ [] →
      ∃ slices, Greeted json secret line.incoming slices) := by
  cases hgreet : greet json secret line.incoming with
  | error why =>
    rw [run, hgreet]
    exact ⟨Nat.zero_le 1, fun hne ↦ absurd rfl hne⟩
  | ok slices =>
    refine ⟨?_, fun _ ↦ ⟨slices, greeted_of_greet hgreet⟩⟩
    rw [run, hgreet]
    dsimp only
    split
    · exact Nat.zero_le 1
    unfold runRequest
    split
    · exact Nat.zero_le 1
    · exact Nat.zero_le 1
    · rw [calls_answer]
      exact Nat.le_refl 1

/-- The beginning of a WELCOME and nothing more, or an answer after one. -/
theorem run_cases (source : Source) (secret : String) (ticks : List Tick)
    (hhello : hello.length ≤ maxMessage) (hwanted : wanted.length ≤ maxMessage)
    (hdecode : json.request.decode wanted = .ok request)
    (hp : bytesOf line.incoming <+: framesOf hello ++ framesOf wanted) :
    (∃ p, (run json source secret line ticks).outgoing.bytes = line.outgoing.bytes ++ p ∧
      (p = [] ∨ ∃ bytes : List UInt8, bytes.length ≤ maxMessage ∧ p <+: framesOf bytes)) ∨
    ∃ bytes, bytes.length ≤ maxMessage ∧
      (greeting json line).bytes = line.outgoing.bytes ++ framesOf bytes ∧
      run json source secret line ticks =
        answer json source request (greeting json line) ticks := by
  cases hgreet : greet json secret line.incoming with
  | error why =>
    rw [run, hgreet]
    exact .inl ⟨[], (List.append_nil _).symm, .inl rfl⟩
  | ok slices =>
    obtain ⟨bytes, hread, -⟩ := greeted_of_greet hgreet
    have hslices := prefix_of_read hp (json_of_ok rfl hhello hp hread).2
    have hspoken : Spoken json (.welcome version) line.outgoing
        (Server.send json (.welcome version) line.outgoing) := spoken_send
    rw [run, hgreet]
    dsimp only
    cases hsend : Server.send json (.welcome version) line.outgoing with
    | mk result out =>
      rw [hsend] at hspoken
      cases result with
      | error why =>
        obtain ⟨p, hb, hp⟩ := hspoken.some
        exact .inl ⟨p, hb, hp.imp_right fun ⟨W, hW, hp⟩ ↦ ⟨W, hW.fits, hp⟩⟩
      | ok _ =>
        obtain ⟨W, hW, hb⟩ := hspoken.all rfl
        dsimp only
        rw [runRequest]
        cases hrequest : readRequest json slices with
        | nothing result =>
          exact .inl ⟨framesOf W, hb, .inr ⟨W, hW.fits, List.prefix_refl _⟩⟩
        | unreadable reason =>
          obtain ⟨bytes, why, hread', herror⟩ := unreadable_of_readRequest hrequest
          obtain rfl := eq_wanted hwanted hslices hread'
          cases hdecode.symm.trans herror
        | request request' =>
          obtain ⟨bytes, hread', hok⟩ := request_of_readRequest hrequest
          obtain rfl := eq_wanted hwanted hslices hread'
          obtain rfl := Except.ok.inj (hdecode.symm.trans hok)
          have hgreeting : greeting json line = out := by rw [greeting, hsend]
          exact .inr ⟨W, hW.fits, hgreeting ▸ hb, hgreeting ▸ rfl⟩

end Serving

end FolderClient.Bridge.Speaking
