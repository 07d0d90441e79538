import L4Server.ResponseRoundTrip
import L4Server.SessionIsolation
import L4Server.SlotPreparation
import L4Server.SubmissionQueue

/-!
The loop does not crash. Its functions fault where a buffer is too small, a
pointer is NULL or the queue is full, and every one of these is an allocation, a
queue or a handler that does not do its part. While they do theirs, each step of
the loop that can be taken at all leads to a next state.
-/
namespace L4Server
open CMemory Automaton

/-! Appends that fit. -/

/-- A string of `capacity` bytes with room for `n` more. -/
structure StringT.Room (str : StringT) (capacity n : Nat) : Prop where
  holds : ∃ text rest, str.Holds text rest
  size : str.capacity = capacity
  fits : str.len + n < capacity

variable {str : StringT} {capacity n m : Nat} {buf : List UInt8}

theorem StringT.empty_room (h : n < capacity) : (StringT.empty capacity).Room capacity n where
  holds := ⟨_, _, StringT.empty_holds (Nat.zero_lt_of_lt h)⟩
  size := rfl
  fits := (Nat.zero_add n).trans_lt h

theorem StringT.Room.append (h : str.Room capacity (n + m)) (hcapacity : capacity ≤ 2 ^ 64)
    (realloc : Option (List UInt8)) (hbuf : n ≤ buf.length) :
    ∃ t, stringAppend realloc str buf n = .ok (true, t) ∧ t.Room capacity m := by
  obtain ⟨⟨text, rest, hholds⟩, hsize, hfits⟩ := h
  obtain ⟨t, ht, hkeep, hlen, hafter⟩ := hholds.append_kept realloc (by rw [hsize]; exact hcapacity)
    (show str.len + n < str.capacity by omega) hbuf
  exact ⟨t, ht, ⟨_, _, hafter⟩, hkeep.trans hsize, by omega⟩

/-- The composer with room for `n` more bytes. -/
structure Compose.Room (c : Compose) (capacity n : Nat) : Prop where
  final : c.final.Room capacity n
  tmp : c.tmp.length = 1024

variable {c : Compose} (grow : Nat → Option (List UInt8))

theorem Compose.Room.append (h : c.Room capacity (n + m)) (hcapacity : capacity ≤ 2 ^ 64)
    (hbuf : n ≤ buf.length) : ∃ d, c.append grow buf n = .ok d ∧ d.Room capacity m := by
  obtain ⟨t, ht, hroom⟩ := h.final.append hcapacity (grow c.appends) hbuf
  exact ⟨_, bind_eq_ok.mpr ⟨_, ht, rfl⟩, hroom, h.tmp⟩

theorem Compose.Room.line {text : List UInt8} (h : c.Room capacity (text.length + m))
    (hcapacity : capacity ≤ 2 ^ 64) (htext : text.length < 1024) :
    ∃ d, c.line grow text = .ok d ∧ d.Room capacity m := by
  have hprint : sprintf c.tmp text = .ok (text ++ 0 :: c.tmp.drop (text.length + 1)) :=
    sprintf_of_fits (by rw [h.tmp]; exact htext)
  have htmp := (sprintf_length hprint).trans h.tmp
  -- a NUL in the text ends what is appended of it
  have hshort := cString_length_le text (c.tmp.drop (text.length + 1))
  obtain ⟨⟨hholds, hsize, hfits⟩, -⟩ := h
  have hroom : Compose.Room { c with tmp := text ++ 0 :: c.tmp.drop (text.length + 1) } capacity
      ((cString (text ++ 0 :: c.tmp.drop (text.length + 1)) 0).length + m) :=
    ⟨⟨hholds, hsize, show c.final.len + _ < _ by omega⟩, htmp⟩
  obtain ⟨d, hd, hafter⟩ := hroom.append grow hcapacity
    (show _ ≤ (text ++ 0 :: c.tmp.drop (text.length + 1)).length by
      rw [List.length_append]
      omega)
  exact ⟨d, bind_eq_ok.mpr ⟨_, hprint, hd⟩, hafter⟩

/-- Every entry is a header whose line fits the line buffer. -/
def Lines (ps : List (Option (KvPair CText))) : Prop :=
  ∀ p ∈ ps, ∃ q, p = some q ∧ (headerLine q).length < 1024

theorem composeHeaders_room {ps : List (Option (KvPair CText))} (hps : Lines ps)
    (h : c.Room capacity (headersLength ps + m)) (hcapacity : capacity ≤ 2 ^ 64) :
    ∃ d, composeHeaders grow ps c = .ok d ∧ d.Room capacity m := by
  induction ps generalizing c with
  | nil =>
      refine ⟨c, rfl, ?_⟩
      simpa [headersLength] using h
  | cons p ps ih =>
      obtain ⟨q, rfl, hline⟩ := hps p (by simp)
      have hlength : headersLength (some q :: ps) + m =
          (headerLine q).length + (headersLength ps + m) := by
        simp [headersLength, Nat.add_assoc]
      rw [hlength] at h
      obtain ⟨d, hd, hroom⟩ := h.line grow hcapacity hline
      obtain ⟨e, he, hrest⟩ := ih (fun r hr => hps r (List.mem_cons_of_mem _ hr)) hroom
      exact ⟨e, bind_eq_ok.mpr ⟨d, hd, he⟩, hrest⟩

/-- A mapped file is as long as the size the handler has set. -/
def HttpResponse.Mapped (res : HttpResponse) : Prop :=
  ∀ file, res.file = some file → res.fileSz ≤ file.length

theorem composeBody_room {res : HttpResponse} (hfile : res.Mapped)
    (hstr : res.str.len ≤ res.str.buf.length)
    (h : c.Room capacity ((contentLength res.announced).length + 1 + res.bodyLength + m))
    (hcapacity : capacity ≤ 2 ^ 64) :
    ∃ d, composeBody grow res c = .ok d ∧ d.Room capacity m := by
  have hblank : 1 ≤ (ascii "\n" ++ [0]).length := by decide
  rw [Nat.add_assoc, Nat.add_assoc] at h
  obtain ⟨c₁, h₁, hroom₁⟩ := h.line grow hcapacity (contentLength_length _)
  obtain ⟨c₂, h₂, hroom₂⟩ := hroom₁.append grow hcapacity hblank
  unfold composeBody
  cases hres : res.file with
  | some file =>
      simp only [HttpResponse.announced, HttpResponse.bodyLength, hres, Option.isSome_some,
        Bool.true_or, if_true] at h₁ hroom₂
      obtain ⟨c₃, h₃, hroom₃⟩ := hroom₂.append grow hcapacity (hfile file hres)
      exact ⟨c₃, bind_eq_ok.mpr ⟨c₁, h₁, bind_eq_ok.mpr ⟨c₂, h₂, h₃⟩⟩, hroom₃⟩
  | none =>
      by_cases hfd : res.fileFd = 0
      · simp only [HttpResponse.announced, HttpResponse.bodyLength, hres, hfd, Option.isSome_none,
          Bool.false_or, bne_self_eq_false, Bool.false_eq_true, if_false, ne_eq,
          not_true_eq_false] at h₁ hroom₂ ⊢
        obtain ⟨c₃, h₃, hroom₃⟩ := hroom₂.append grow hcapacity hstr
        exact ⟨c₃, bind_eq_ok.mpr ⟨c₁, h₁, bind_eq_ok.mpr ⟨c₂, h₂, h₃⟩⟩, hroom₃⟩
      · have hne : (res.fileFd != 0) = true := by simpa using hfd
        simp only [HttpResponse.announced, HttpResponse.bodyLength, hres, hne, hfd,
          Option.isSome_none, Bool.false_or, if_true, ne_eq, not_false_eq_true, Bool.false_eq_true,
          if_false, Nat.zero_add] at h₁ hroom₂ ⊢
        exact ⟨c₂, bind_eq_ok.mpr ⟨c₁, h₁, h₂⟩, hroom₂⟩

theorem httpComposeResponse_succeeds {mem : List UInt8} {req : HttpRequest} {res : HttpResponse}
    {final : StringT} {protocol : Nat} (hreq : req.protocol = some protocol)
    (hstatus : (statusLine (cString mem protocol) res.status).length < 1024)
    (hlines : Lines res.headers.stored) (hfile : res.Mapped)
    (hstr : res.str.len ≤ res.str.buf.length) (hcapacity : capacity ≤ 2 ^ 64)
    (h : final.Room capacity (res.composedLength (cString mem protocol))) :
    ∃ final', httpComposeResponse grow mem req res final = .ok (true, final') := by
  have hsum : res.composedLength (cString mem protocol) =
      (statusLine (cString mem protocol) res.status).length + (headersLength res.headers.stored +
        ((contentLength res.announced).length + 1 + res.bodyLength + 0)) := by
    simp only [HttpResponse.composedLength]
    omega
  rw [hsum] at h
  have hstart : Compose.Room ⟨final, List.replicate 1024 0, 0⟩ capacity _ :=
    ⟨h, List.length_replicate⟩
  obtain ⟨c₁, h₁, hroom₁⟩ := hstart.line grow hcapacity hstatus
  obtain ⟨c₂, h₂, hroom₂⟩ := composeHeaders_room grow hlines hroom₁ hcapacity
  obtain ⟨c₃, h₃, -⟩ := composeBody_room grow hfile hstr hroom₂ hcapacity
  refine ⟨c₃.final, ?_⟩
  unfold httpComposeResponse
  rw [hreq]
  exact bind_eq_ok.mpr ⟨c₁, h₁, bind_eq_ok.mpr ⟨c₂, h₂, bind_eq_ok.mpr ⟨c₃, h₃, rfl⟩⟩⟩

/-! What a routed handler owes. -/

/-- Bytes appended lie in the array they are taken from, and a header's line
fits the line buffer. -/
def ResponseOp.Sound : ResponseOp → Prop
  | .body buf buflen _ => buflen ≤ buf.length
  | .header key value => (headerLine ⟨key, value⟩).length < 1024
  | _ => True

/-- A response that can be filled in further, by `n` bytes of body. -/
structure HttpResponse.Open (res : HttpResponse) (n : Nat) : Prop where
  str : res.str.Room (2 ^ 21) n
  headers : res.headers.flag = kvFlagProvided
  lines : Lines res.headers.stored

theorem HttpResponse.Open.apply {res : HttpResponse} {op : ResponseOp}
    (h : res.Open (op.bodyLength + n)) (hop : op.Sound) :
    ∃ res', res.apply op = .ok res' ∧ res'.Open n := by
  have hkeep {k : Nat} (hk : k ≤ op.bodyLength + n) : res.str.Room (2 ^ 21) k :=
    ⟨h.str.holds, h.str.size, Nat.lt_of_le_of_lt (Nat.add_le_add_left hk _) h.str.fits⟩
  have hn := hkeep (Nat.le_add_left n op.bodyLength)
  cases op with
  | status | file | fileFd | fileSz => exact ⟨_, rfl, hn, h.headers, h.lines⟩
  | header key value =>
      obtain ⟨hstored, hflag, -⟩ := kvSetKeyValue_provided true res.headers key value h.headers
      refine ⟨_, rfl, hn, hflag, ?_⟩
      intro p hp
      rw [hstored] at hp
      rcases List.mem_append.mp (List.mem_of_mem_take hp) with hold | hnew
      · exact h.lines p hold
      · exact ⟨_, List.mem_singleton.mp hnew, hop⟩
  | body buf buflen realloc =>
      obtain ⟨str, hstr, hroom⟩ := h.str.append (by decide) realloc hop
      exact ⟨_, bind_eq_ok.mpr ⟨_, hstr, rfl⟩, hroom, h.headers, h.lines⟩

theorem HttpResponse.Open.applyAll {ops : List ResponseOp} {res : HttpResponse}
    (h : res.Open (bodyLengths ops)) (hops : ∀ op ∈ ops, op.Sound) :
    ∃ res', applyAll ops res = .ok res' ∧ res'.Open 0 := by
  induction ops generalizing res with
  | nil => exact ⟨res, rfl, h⟩
  | cons op ops ih =>
      obtain ⟨res₁, h₁, hopen⟩ := HttpResponse.Open.apply h (hops op (by simp))
      obtain ⟨res₂, h₂, hrest⟩ := ih hopen fun op' hop => hops op' (List.mem_cons_of_mem _ hop)
      exact ⟨res₂, bind_eq_ok.mpr ⟨res₁, h₁, h₂⟩, hrest⟩

/-- The handler routed for a request of `data` does its part: its operations are
sound, and a response that is to be composed has a status line that fits, and
no more of a file than is mapped. -/
structure Outcomes.Sound (out : Outcomes) (data : List UInt8) : Prop where
  ops : ∀ op ∈ out.ops, op.Sound
  composes : out.ret ≠ handlerErrFileNotFound → out.ret ≠ handlerErrGeneral →
    ∀ res, HttpResponse.applyAll out.ops (.cleared (.empty (2 ^ 21))) = .ok res →
      (statusLine (protocolText data) res.status).length < 1024 ∧ res.Mapped

variable {cfg : Config} {out : Outcomes} {data : List UInt8}

theorem fresh_open (h : n < 2 ^ 21) : Locals.fresh.res.Open n where
  str := StringT.empty_room h
  headers := rfl
  lines := nofun

theorem routeRequest_succeeds (cfg : Config) {mem : List UInt8} {req : HttpRequest}
    {path protocol : Nat}
    (hpath : req.path = some path) (hprotocol : req.protocol = some protocol)
    (htext : cString mem protocol = protocolText data) (hfits : Fits out data)
    (hsound : out.Sound data) :
    ∃ reply l, routeRequest cfg out mem { Locals.fresh with req := req } = .ok (reply, l) := by
  obtain ⟨res, hres, hopen⟩ := (fresh_open hfits.1).applyAll hsound.ops
  unfold routeRequest
  rw [show ({ Locals.fresh with req := req } : Locals).req.path = some path from hpath]
  simp only
  split
  · exact ⟨_, _, rfl⟩
  rw [show HttpResponse.applyAll out.ops ({ Locals.fresh with req := req } : Locals).res =
    .ok res from hres]
  simp only [liftFault, bind, Except.bind]
  split
  · exact ⟨_, _, rfl⟩
  next hfound =>
  split
  · exact ⟨_, _, rfl⟩
  next hgeneral =>
  obtain ⟨hstatus, hmapped⟩ := hsound.composes hfound hgeneral res hres
  have hlength := hfits.2 hfound hgeneral res hres
  rw [← htext] at hstatus hlength
  have hstr : res.str.len ≤ res.str.buf.length := by
    have := hopen.str.fits
    rw [res.str.allocated, hopen.str.size]
    omega
  obtain ⟨fresstr, hcompose⟩ := httpComposeResponse_succeeds out.grow hprotocol hstatus hopen.lines
    hmapped hstr (by decide : 2 ^ 20 ≤ 2 ^ 64) (StringT.empty_room hlength)
  rw [show httpComposeResponse out.grow mem ({ Locals.fresh with req := req } : Locals).req res
    ({ Locals.fresh with req := req } : Locals).fresstr = .ok (true, fresstr) from hcompose]
  exact ⟨_, _, rfl⟩

theorem httpParseRequest_path {b : RecvBuf} {t : Parse}
    (h : httpParseRequest (Parse.start b.mem) b.received = .ok (1, t)) :
    ∃ path, t.req.path = some path := by
  obtain ⟨s, r, hs, hheaders⟩ := httpParseRequest_accepted h
  obtain ⟨l⟩ := httpParseRequestLine_layout b.getLast hs
  obtain ⟨-, hpath, -, -⟩ := l.texts hheaders
  obtain ⟨path, hreq, -⟩ := Option.map_eq_some_iff.mp hpath
  exact ⟨path, hreq⟩

/-- Whatever has been received, a reply is found. -/
theorem serveRequest_succeeds (cfg : Config) (out : Outcomes) (hpos : 0 < data.length)
    (hle : data.length ≤ 2 ^ 21)
    (hfits : Fits out data) (hsound : out.Sound data) :
    ∃ reply l str,
      serveRequest cfg out data.length .fresh (received data) = .ok (reply, l, str) := by
  unfold serveRequest
  split
  · exact ⟨_, _, _, rfl⟩
  next hfull =>
  have hlt : data.length < 2 ^ 21 := Nat.lt_of_le_of_ne hle hfull
  obtain ⟨ret, t, hparse, -, -⟩ := httpParseRequest_keeps_safe
    (Safe.start (receivedBuf data hpos hlt)) HttpRequest.cleared_provided
    (receivedBuf data hpos hlt).capacity_ge (hlt.trans (by decide : 2 ^ 21 < 2 ^ 64)) rfl rfl
  rw [show httpParseRequest ⟨(received data).buf, [], Locals.fresh.req, 0⟩ data.length =
    .ok (ret, t) from hparse]
  simp only [liftFault, bind, Except.bind]
  split
  · exact ⟨_, _, _, rfl⟩
  next hret =>
  obtain rfl := (httpParseRequest_ret hparse).resolve_left hret
  obtain ⟨path, hpath⟩ := httpParseRequest_path (b := receivedBuf data hpos hlt) hparse
  obtain ⟨protocol, hprotocol, htext⟩ :=
    httpParseRequest_protocol (b := receivedBuf data hpos hlt) hparse
  rw [receivedBuf_bytes] at htext
  obtain ⟨reply, l, hroute⟩ := routeRequest_succeeds cfg hpath hprotocol htext hfits hsound
  rw [hroute]
  exact ⟨_, _, _, rfl⟩

/-! What a handler finds. -/

variable {s t : Server}

/-- The only operation outstanding for a slot is the one that is completed. -/
theorem done_of_recv (hb : Books True cfg s) {cqe : Cqe} (hmem : cqe ∈ s.cq)
    (hne : cqe.sqe.userData ≠ cfg.listenFd) (hrecv : cqe.sqe.op.isRecv = true) :
    (s.view cqe.sqe.userData).done = [cqe] := by
  obtain ⟨-, -, -, hsingle⟩ := (hb.slots _ hne).of_recv (Server.mem_ops_of_cq hmem) hrecv
  have hin : cqe ∈ (s.view cqe.sqe.userData).done := List.mem_filter.mpr ⟨hmem, by simp⟩
  have hlength := congrArg List.length ((s.ops_eq_view _).symm.trans hsingle)
  rw [List.length_append, List.length_map, List.length_singleton] at hlength
  have hpos := List.length_pos_of_mem hin
  obtain ⟨only, honly⟩ := List.length_eq_one_iff.mp
    (show (s.view cqe.sqe.userData).done.length = 1 by omega)
  rw [honly] at hin ⊢
  rw [List.mem_singleton.mp hin]

/-- The connection of a completed `recv` is as in a first session. -/
theorem recv_first (hs : Reach (listenLoop cfg) AppendsFit s) {cqe : Cqe} (hmem : cqe ∈ s.cq)
    (hrecv : cqe.sqe.op.isRecv = true) :
    ∃ data coro, data.length = cqe.res.toNat ∧ data.length ≤ 2 ^ 21 ∧
      (coro = .created ∨ coro = .started .fresh) ∧
      s.conns cqe.sqe.userData =
        .first cqe.sqe.userData data coro (s.conns cqe.sqe.userData).session := by
  have hb := books_reachable hs.reachable
  have hops := Server.mem_ops_of_cq hmem
  have hne : cqe.sqe.userData ≠ cfg.listenFd := by
    intro huser
    rw [hb.op_of_listening hops huser] at hrecv
    cases hrecv
  obtain ⟨⟨hsvr, hlocals, -, hdata⟩, -, hbounded⟩ := tidySlot_reach hne hs
  obtain ⟨hidle, haction, hsome, -⟩ := (hb.slots _ hne).of_recv hops hrecv
  obtain ⟨-, -, -, hcoroSome, halive, hfd⟩ := (hb.slots _ hne).of_mem hops
  have hdone := done_of_recv hb hmem hne hrecv
  obtain ⟨str, hstr⟩ := Option.isSome_iff_exists.mp hsome
  obtain ⟨coro, hcoro⟩ := Option.isSome_iff_exists.mp hcoroSome
  obtain ⟨data, hlength, rfl⟩ := hdata hidle.totalSteps halive str hstr
  have hbound := hbounded cqe (hdone ▸ List.mem_singleton.mpr rfl) hrecv
  rw [hdone, written, if_pos hrecv] at hlength
  refine ⟨data, coro, hlength, by omega, ?_, ServerConnection.eq_first hfd haction hidle.curSteps
    hidle.totalSteps hcoro hstr (hsvr hcoroSome hsome)⟩
  cases coro with
  | created => exact .inl rfl
  | started l => exact .inr (congrArg Coroutine.started ((hlocals l hcoro).2 hidle.totalSteps))
  | stopped => exact absurd hcoro halive

/-! What one turn of the loop comes to. -/

theorem Ctx.push_room (c : Ctx) (h : c.sq.length < queueDepth) (action : Action) (steps : Nat)
    (op : Op) (link : Bool) :
    ∃ d, c.push action steps op link = .ok d ∧ d.sq.length = c.sq.length + 1 :=
  ⟨_, if_pos h, List.length_append⟩

theorem acceptAgain_room (cfg : Config) (h : s.sq.length < queueDepth) :
    ∃ t, acceptAgain cfg s = .ok t := by
  obtain ⟨c, hc, -⟩ := Ctx.push_room ⟨s.conns cfg.listenFd, cfg.listenFd, s.sq⟩ h .accept 0
    (.accept cfg.listenFd) false
  exact ⟨_, bind_eq_ok.mpr ⟨c, hc, rfl⟩⟩

theorem prepareConnection_str {fd : Nat} {conn conn' : ServerConnection}
    (h : prepareConnection out fd conn = (true, conn')) : ∃ str, conn'.str = some str := by
  unfold prepareConnection at h
  split at h
  · simp only at h
    split at h
    · cases h
    · cases h
      exact ⟨_, rfl⟩
  · cases h

/-- An accept of a slot that is ready for its `recv`. -/
theorem entered_room {fd : Nat} {conn : ServerConnection} {str : StringT}
    (h : s.sq.length + 2 ≤ queueDepth) :
    ∃ t, (do
      let c ← ioUringPushRecv ⟨conn, fd, s.sq⟩ fd str.capacity false
      acceptAgain cfg { s.setConn fd c.conn with sq := c.sq }) = .ok t := by
  obtain ⟨c, hc, hlength⟩ := Ctx.push_room ⟨conn, fd, s.sq⟩
    (show s.sq.length < queueDepth by omega) .recv 0 (.recv fd str.capacity) false
  obtain ⟨t, ht⟩ := acceptAgain_room (s := { s.setConn fd c.conn with sq := c.sq }) cfg
    (hlength.trans_lt h)
  exact ⟨t, bind_eq_ok.mpr ⟨c, hc, ht⟩⟩

theorem handleAccept_succeeds (cfg : Config) (out : Outcomes) (husable : AllUsable s)
    (h : s.sq.length + 2 ≤ queueDepth)
    {ret : Int} (hret : ret < 0 → ret = -eagain) : ∃ t, handleAccept cfg out s ret = .ok t := by
  unfold handleAccept
  split
  · next hneg =>
    rw [if_pos (hret hneg)]
    exact acceptAgain_room cfg (by omega)
  simp only
  by_cases hcoro : (s.conns ret.toNat).enter.coro.isSome = true
  · obtain ⟨str, hstr⟩ := Option.isSome_iff_exists.mp (husable ret.toNat hcoro).1
    have henter : (s.conns ret.toNat).enter.str = some str := hstr
    rw [if_pos hcoro]
    simp only [if_true, henter]
    exact entered_room h
  · rw [if_neg hcoro]
    rcases hprep : prepareConnection out ret.toNat (s.conns ret.toNat).enter with ⟨ready, conn⟩
    cases ready with
    | false => exact acceptAgain_room cfg (show s.sq.length < queueDepth by omega)
    | true =>
        obtain ⟨str, hstr⟩ := prepareConnection_str hprep
        simp only [if_true, hstr]
        exact entered_room h

/-- The handler's turn on received bytes. -/
theorem httpHandlerLoop_first (cfg : Config) (coro : Coroutine) (slot : Nat) (session : Session)
    {sq : List Sqe} {value : Int} (hlength : data.length = value.toNat) (hle : data.length ≤ 2 ^ 21)
    (hfits : Fits out data) (hsound : out.Sound data) (hroom : sq.length + 3 ≤ queueDepth) :
    ∃ r, httpHandlerLoop cfg out value .fresh ⟨.first slot data coro session, slot, sq⟩ =
      .ok r := by
  simp only [httpHandlerLoop, ServerConnection.first, recvBranch]
  split
  · exact ⟨_, rfl⟩
  split
  · exact ⟨_, rfl⟩
  obtain ⟨reply, l, str, hserve⟩ := serveRequest_succeeds cfg out
    (show 0 < data.length by omega) hle hfits hsound
  rw [← hlength, hserve]
  obtain ⟨d, pushed, happends, hpushed⟩ := pushReply_appends cfg out l
    ⟨{ ServerConnection.first slot data coro session with str := some str }, slot, sq⟩ reply rfl
  have hentries : (replyLoad cfg reply).entries ≤ 3 := by
    cases replyLoad cfg reply <;> decide
  exact ⟨_, bind_eq_ok.mpr ⟨_, bind_eq_ok.mpr ⟨_, rfl, bind_eq_ok.mpr ⟨_,
    happends.room sq (by omega), rfl⟩⟩, rfl⟩⟩

/-! Runs. -/

/-- What the first completion is handled with: an accept has failed with EAGAIN
if at all, the queue has the entries that are asked for, and the handler routed
for received bytes does its part. -/
structure Server.Serves (cfg : Config) (out : Outcomes) (s : Server) (cqe : Cqe) (cq : List Cqe) :
    Prop where
  accept : (s.conns cqe.sqe.userData).action = .accept → cqe.res < 0 → cqe.res = -eagain
  room : s.sq.length + (load cfg out { s with cq := cq } cqe).entries ≤ queueDepth
  handler : cqe.sqe.op.isRecv = true → ∀ str, (s.conns cqe.sqe.userData).str = some str →
    out.Sound (str.buf.take cqe.res.toNat)

/-- The step is provided for: preparations are whole, no append grows its
string, and handling a completion has what it needs. -/
structure ProvidedFor (cfg : Config) (s : Server) (e : Event) : Prop where
  whole : PreparesWhole s e
  fit : AppendsFit s e
  serves : ∀ out cqe cq, e = .handle out → s.cq = cqe :: cq → s.Serves cfg out cqe cq

/-- A coroutine is resumed by its `recv`. -/
theorem recv_succeeds (hs : Reach (listenLoop cfg) AppendsFit s) {cqe : Cqe} {cq : List Cqe}
    (hcq : s.cq = cqe :: cq) (hrecv : cqe.sqe.op.isRecv = true)
    (hfits : ∀ str, (s.conns cqe.sqe.userData).str = some str →
      Fits out (str.buf.take cqe.res.toNat))
    (hsound : ∀ str, (s.conns cqe.sqe.userData).str = some str →
      out.Sound (str.buf.take cqe.res.toNat)) :
    ∃ r, coResumeValue cfg out cqe.res
      ⟨s.conns cqe.sqe.userData, cqe.sqe.userData, []⟩ = .ok r := by
  obtain ⟨data, coro, hlength, hle, hbegins, hconn⟩ :=
    recv_first hs (hcq ▸ List.mem_cons_self) hrecv
  have hstr : (s.conns cqe.sqe.userData).str = some (received data) :=
    congrArg ServerConnection.str hconn
  have hfits := hfits _ hstr
  have hsound := hsound _ hstr
  rw [← hlength, received_take hle] at hfits hsound
  have hloop (coro : Coroutine) :=
    httpHandlerLoop_first cfg coro cqe.sqe.userData (s.conns cqe.sqe.userData).session hlength hle
      hfits hsound (show ([] : List Sqe).length + 3 ≤ queueDepth by decide)
  rw [hconn]
  unfold coResumeValue
  rcases hbegins with rfl | rfl
  · simp only [ServerConnection.first]
    split
    · exact ⟨_, rfl⟩
    · next l hinit =>
      rw [httpHandlerInit_eq_some hinit]
      exact hloop .created
  · exact hloop (.started .fresh)

theorem transfer_succeeds (hb : Books True cfg s) {cqe : Cqe} {cq : List Cqe}
    (hcq : s.cq = cqe :: cq) (hne : cqe.sqe.userData ≠ cfg.listenFd)
    (hop : cqe.sqe.op.isTransfer = true) :
    ∃ r, coResumeValue cfg out cqe.res
      ⟨s.conns cqe.sqe.userData, cqe.sqe.userData, []⟩ = .ok r := by
  have hops := Server.mem_ops_of_cq (hcq ▸ List.mem_cons_self : cqe ∈ s.cq)
  obtain ⟨-, haction, ⟨l, hcoro⟩, -⟩ := (hb.slots _ hne).of_transfer hops hop
  unfold coResumeValue
  simp only [hcoro, httpHandlerLoop]
  rcases haction with haction | haction <;> simp only [haction] <;> exact ⟨_, rfl⟩

/-- With an empty queue in front of it, the first completion is handled. -/
theorem handleCqe_succeeds (hs : Reach (listenLoop cfg) (ProvidedFor cfg) s) {cqe : Cqe}
    {cq : List Cqe} (hcq : s.cq = cqe :: cq) (hg : ProvidedFor cfg s (.handle out)) :
    ∃ t, handleCqe cfg out (({ s with cq := cq } : Server).withSq []) cqe = .ok t := by
  have hb := books_reachable hs.reachable
  have hmem : cqe ∈ s.cq := hcq ▸ List.mem_cons_self
  obtain ⟨haccept, -, hhandler⟩ := hg.serves out cqe cq rfl hcq
  by_cases haction : (s.conns cqe.sqe.userData).action = .accept
  · have husable : AllUsable s := allUsable_reach (hs.mono fun _ _ h => h.whole)
    obtain ⟨t, ht⟩ := handleAccept_succeeds cfg out
      (s := ({ s with cq := cq } : Server).withSq []) husable (show 0 + 2 ≤ queueDepth by decide)
      (haccept haction)
    exact ⟨t, (if_pos haction).trans ht⟩
  · have hne : cqe.sqe.userData ≠ cfg.listenFd := fun huser => haction (huser ▸ hb.listening)
    have hresume : ∃ r, coResumeValue cfg out cqe.res
        ⟨s.conns cqe.sqe.userData, cqe.sqe.userData, []⟩ = .ok r := by
      rcases ((hb.slots _ hne).of_mem (Server.mem_ops_of_cq hmem)).1 with hrecv | htransfer
      · exact recv_succeeds (hs.mono fun _ _ h => h.fit) hcq hrecv
          (fun str hstr => hg.fit cqe cq str hcq hrecv hstr) (hhandler hrecv)
      · exact transfer_succeeds hb hcq hne htransfer
    obtain ⟨r, hr⟩ := hresume
    exact ⟨_, (if_neg haction).trans (bind_eq_ok.mpr ⟨r, hr, rfl⟩)⟩

/-- What the thread does next. -/
def Server.turn (s : Server) (out : Outcomes) : Event :=
  if s.waiting then .submit else if s.cq.isEmpty then .drained else .handle out

/-- In a run that is provided for, the thread can always take its next step. -/
theorem turn_succeeds (hs : Reach (listenLoop cfg) (ProvidedFor cfg) s)
    (hg : ProvidedFor cfg s (s.turn out)) : ∃ t, step cfg s (s.turn out) = .ok t := by
  unfold Server.turn at hg ⊢
  cases hwaiting : s.waiting with
  | true => exact ⟨_, step_submit hwaiting⟩
  | false =>
      rw [hwaiting] at hg
      simp only [Bool.false_eq_true, if_false] at hg ⊢
      cases hcq : s.cq with
      | nil => exact ⟨_, by simp [step, hwaiting, hcq]; rfl⟩
      | cons cqe cq =>
          simp only [hcq, List.isEmpty_cons, Bool.false_eq_true, if_false] at hg ⊢
          obtain ⟨t, ht⟩ := handleCqe_succeeds hs hcq hg
          have hroom := (hg.serves out cqe cq rfl hcq).room
          obtain ⟨e, he, -⟩ | ⟨-, u, -, hu, -⟩ :=
            (handleCqe_asks cfg out { s with cq := cq } cqe).same hroom
          · rw [he] at ht
            cases ht
          · exact ⟨u, (step_handle hwaiting hcq).trans hu⟩

/-- An event that is not the thread's next step can only be one that cannot happen. -/
theorem step_cases_turn (cfg : Config) (s : Server) (e : Event) :
    (∃ out, e = s.turn out) ∨ ∀ halt, step cfg s e = .error halt → halt = .disabled := by
  have hdisabled {halt : Halt} (h : (.error .disabled : Except Halt Server) = .error halt) :
      halt = .disabled := (Except.error.inj h).symm
  unfold Server.turn
  cases e with
  | complete index res data =>
      refine .inr fun halt h => ?_
      simp only [step, complete] at h
      split at h
      · exact hdisabled h
      · split at h
        · cases h
        · exact hdisabled h
  | submit =>
      cases hwaiting : s.waiting with
      | true => exact .inl ⟨.granted, rfl⟩
      | false => exact .inr fun halt h => hdisabled (by simpa [step, hwaiting] using h)
  | drained =>
      cases hwaiting : s.waiting with
      | true => exact .inr fun halt h => hdisabled (by simpa [step, hwaiting] using h)
      | false =>
          cases hcq : s.cq with
          | nil => exact .inl ⟨.granted, rfl⟩
          | cons cqe cq =>
              exact .inr fun halt h => hdisabled (by simpa [step, hwaiting, hcq] using h)
  | handle out =>
      cases hwaiting : s.waiting with
      | true => exact .inr fun halt h => hdisabled (by simpa [step, hwaiting] using h)
      | false =>
          cases hcq : s.cq with
          | nil => exact .inr fun halt h => hdisabled (by simpa [step, hwaiting, hcq] using h)
          | cons cqe cq => exact .inl ⟨out, rfl⟩

/-- In a run that is provided for, no step faults, ends the process or resumes a
coroutine that has stopped, and the next one of the thread can always be taken. -/
theorem listenLoop_never_crashes (cfg : Config) (s : Server)
    (hs : Reach (listenLoop cfg) (ProvidedFor cfg) s) (e : Event) (hg : ProvidedFor cfg s e) :
    (∀ halt, step cfg s e = .error halt → halt = .disabled) ∧
      ∀ out, e = s.turn out → ∃ t, step cfg s e = .ok t := by
  refine ⟨fun halt h => ?_, ?_⟩
  · rcases step_cases_turn cfg s e with ⟨out, rfl⟩ | hdisabled
    · obtain ⟨t, ht⟩ := turn_succeeds hs hg
      rw [ht] at h
      cases h
    · exact hdisabled halt h
  · rintro out rfl
    exact turn_succeeds hs hg

/-! Two clients whose requests fail. -/

/-- A step whose outcome, where there is one, is a handler that fails, and that
has no more to do than the queue has room for. -/
def plain (s : Server) : Event → Bool
  | .handle out => out.ops.isEmpty && out.ret == handlerErrGeneral && out.connStr == (true, true) &&
      s.cq.head?.all (fun cqe => 0 ≤ cqe.res) && decide (s.sq.length + 3 ≤ queueDepth)
  | _ => true

abbrev Plain (s : Server) (e : Event) : Prop := plain s e = true

theorem Plain.providedFor {e : Event} (h : Plain s e) : ProvidedFor cfg s e := by
  cases e with
  | handle out =>
      simp only [Plain, plain, Bool.and_eq_true, List.isEmpty_iff, beq_iff_eq,
        decide_eq_true_eq] at h
      obtain ⟨⟨⟨⟨hops, hret⟩, hstr⟩, hres⟩, hroom⟩ := h
      refine ⟨fun _ _ _ _ => hstr, fun cqe cq str _ _ _ => ?_, ?_⟩
      · exact ⟨by rw [hops]; decide, fun _ hgeneral => absurd hret hgeneral⟩
      · rintro out' cqe cq ⟨⟩ hcq
        simp only [hcq, List.head?_cons, Option.all_some, decide_eq_true_eq] at hres
        have hentries : (load cfg out { s with cq := cq } cqe).entries ≤ 3 := by
          cases load cfg out { s with cq := cq } cqe <;> decide
        refine ⟨fun _ hneg => absurd hneg (by omega), by omega, fun _ str _ => ?_⟩
        exact ⟨by rw [hops]; nofun, fun _ hgeneral => absurd hret hgeneral⟩
  | _ => exact ⟨trivial, trivial, fun _ _ _ h => nomatch h⟩

def plainEvents : List Event := sessionEvents .failing (ascii "GET / HTTP/1.1\r\n\r\n") 36

theorem listenLoop_never_crashes_plain :
    ∃ s, s.cq.map (·.res) = [1] ∧
      (∀ halt, step routedConfig s (.handle .failing) = .error halt → halt = .disabled) ∧
      ∀ out, .handle .failing = s.turn out →
        ∃ t, step routedConfig s (.handle .failing) = .ok t := by
  obtain ⟨s, hs, hview⟩ := exists_run routedConfig plainEvents
    (f := fun s => (s.cq.map (·.res), plain s (.handle .failing))) (b := ([1], true))
    (by decide +kernel)
  obtain ⟨hcq, hplain⟩ := Prod.mk.inj hview
  have hguarded : Guarded (listenLoop routedConfig) Plain plainEvents
      (Server.initial routedConfig) := by
    decide +kernel
  have hreach : Reach (listenLoop routedConfig) (ProvidedFor routedConfig) s :=
    (reach_of_run (.start rfl) hguarded hs).mono fun _ _ h => Plain.providedFor h
  exact ⟨s, hcq, listenLoop_never_crashes routedConfig s hreach _ (Plain.providedFor hplain)⟩

end L4Server
