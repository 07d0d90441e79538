import L4Server.Delivery
import L4Server.HeaderRoundTrip
import L4Server.NeverCrashes
import L4Server.RequestRoundTrip

/-!
A request and its response, from end to end. What a client has written into one
`recv` comes to the routed handler as the request it has written, and what the
handler writes goes out in one `send` from which the client reads it back.
-/
namespace L4Server
open CMemory Automaton

/-! What a handler writes. -/

/-- A response as its handler means it. -/
structure Draft where
  status : Int
  headers : List (KvPair CText)
  body : List UInt8

def Draft.apply (d : Draft) : ResponseOp → Draft
  | .status value => { d with status := value }
  | .header key value => { d with headers := d.headers ++ [⟨key, value⟩] }
  | .body buf buflen _ => { d with body := d.body ++ buf.take buflen }
  | .file _ | .fileFd _ | .fileSz _ => d

/-- What operations come to that follow each other on a cleared response. -/
def draft (ops : List ResponseOp) : Draft := ops.foldl Draft.apply ⟨0, [], []⟩

/-- The status a draft shows. -/
def Draft.shown (d : Draft) : Int := if d.status ≠ 0 then d.status else 200

/-- Parts of a response that is written into its string: a status, a header, and
bytes without NULs that lie in the array they are taken from. -/
def ResponseOp.Writes : ResponseOp → Prop
  | .status _ | .header .. => True
  | .body buf buflen _ => buflen ≤ buf.length ∧ 0 ∉ buf.take buflen
  | .file _ | .fileFd _ | .fileSz _ => False

instance (op : ResponseOp) : Decidable op.Writes := by
  cases op <;> unfold ResponseOp.Writes <;> infer_instance

/-- The response holds the draft: no file, the headers set one after the other,
and the body in the string. -/
structure Draft.HeldBy (d : Draft) (res : HttpResponse) : Prop where
  status : res.status = d.status
  file : res.file = none
  fileFd : res.fileFd = 0
  headers : res.headers = kvSetAll true (kvInitWithBuf (List.replicate 20 none)) d.headers
  holds : ∃ rest, res.str.Holds d.body rest
  capacity : res.str.capacity = 2 ^ 21
  len : res.str.len = d.body.length

theorem Draft.heldBy_cleared :
    (⟨0, [], []⟩ : Draft).HeldBy (.cleared (.empty (2 ^ 21))) where
  status := rfl
  file := rfl
  fileFd := rfl
  headers := rfl
  holds := ⟨_, StringT.empty_holds (by decide)⟩
  capacity := rfl
  len := rfl

theorem Draft.HeldBy.apply {d : Draft} {res : HttpResponse} {op : ResponseOp}
    (h : d.HeldBy res) (hop : op.Writes) (hroom : (d.apply op).body.length < 2 ^ 21) :
    ∃ res', res.apply op = .ok res' ∧ (d.apply op).HeldBy res' := by
  cases op with
  | status value => exact ⟨_, rfl, rfl, h.file, h.fileFd, h.headers, h.holds, h.capacity, h.len⟩
  | file | fileFd | fileSz => exact hop.elim
  | header key value =>
      refine ⟨_, rfl, h.status, h.file, h.fileFd, ?_, h.holds, h.capacity, h.len⟩
      simp only [Draft.apply, kvSetAll, List.foldl_append, List.foldl_cons, List.foldl_nil,
        h.headers]
  | body buf buflen realloc =>
      obtain ⟨hbuf, hzero⟩ := hop
      obtain ⟨rest, hholds⟩ := h.holds
      have htext : (buf.take buflen).takeWhile (· != 0) = buf.take buflen := by
        rw [List.takeWhile_eq_self_iff]
        intro b hb
        simpa using fun h0 : b = 0 => hzero (h0 ▸ hb)
      have hlength : (buf.take buflen).length = buflen := by
        rw [List.length_take, Nat.min_eq_left hbuf]
      simp only [Draft.apply, List.length_append, hlength] at hroom
      obtain ⟨t, ht, hcap, hlen, hafter⟩ := hholds.append_kept realloc
        (by rw [h.capacity]; decide) (by rw [h.len, h.capacity]; exact hroom) hbuf
      rw [htext] at hafter
      refine ⟨_, bind_eq_ok.mpr ⟨_, ht, rfl⟩, h.status, h.file, h.fileFd, h.headers, ⟨_, hafter⟩,
        hcap.trans h.capacity, ?_⟩
      show t.len = (d.body ++ buf.take buflen).length
      rw [hlen, h.len, List.length_append, hlength]

theorem Draft.body_apply_le (d : Draft) (op : ResponseOp) :
    d.body.length ≤ (d.apply op).body.length := by
  cases op <;> simp [Draft.apply]

theorem Draft.body_foldl_le (d : Draft) (ops : List ResponseOp) :
    d.body.length ≤ (ops.foldl Draft.apply d).body.length := by
  induction ops generalizing d with
  | nil => exact Nat.le_refl _
  | cons op ops ih => exact (d.body_apply_le op).trans (ih (d.apply op))

theorem Draft.HeldBy.applyAll {d : Draft} {res : HttpResponse} {ops : List ResponseOp}
    (h : d.HeldBy res) (hops : ∀ op ∈ ops, op.Writes)
    (hroom : (ops.foldl Draft.apply d).body.length < 2 ^ 21) :
    ∃ res', HttpResponse.applyAll ops res = .ok res' ∧
      (ops.foldl Draft.apply d).HeldBy res' := by
  induction ops generalizing d res with
  | nil => exact ⟨res, rfl, h⟩
  | cons op ops ih =>
      obtain ⟨res₁, h₁, hheld⟩ := h.apply (hops op (by simp))
        (Nat.lt_of_le_of_lt ((d.apply op).body_foldl_le ops) hroom)
      obtain ⟨res₂, h₂, hrest⟩ := ih hheld (fun op' hop => hops op' (List.mem_cons_of_mem _ hop))
        hroom
      exact ⟨res₂, bind_eq_ok.mpr ⟨res₁, h₁, h₂⟩, hrest⟩

/-! What the handler is given. -/

/-- The bytes of a request: its line, its headers, an empty line and a body. -/
def requestText (l : RequestLine) (fields : List Header) (body : List UInt8) : List UInt8 :=
  l.text ++ (headersText fields ++ '\r'.toUInt8 :: '\n'.toUInt8 :: body)

def RequestLine.mask (l : RequestLine) : Nat := (methods.get l.method).mask

/-- The parsed request is the one that was written, its headers as far as none is
short. -/
structure RequestLine.ReadAs (l : RequestLine) (fields : List Header) (mem : List UInt8)
    (req : HttpRequest) : Prop where
  method : req.method = l.mask
  path : req.path.map (cString mem) = some l.path
  protocol : req.protocol.map (cString mem) = some l.protocol
  query : req.query.stored.map (Option.map (textsAt mem)) = (l.query.take 20).map some
  headers : req.headers.stored.map (Option.map (textsAt mem)) =
    ((fields.take 20).takeWhile fun h => decide h.Long).map fun h => some (h.name, h.value)

theorem httpParseRequest_requestText (b : RecvBuf) {l : RequestLine} {fields : List Header}
    {body : List UInt8} (hb : b.bytes = requestText l fields body)
    (hmethod : l.mask ≠ methodConnect) :
    ∃ t, httpParseRequest (Parse.start b.mem) b.received = .ok (1, t) ∧
      l.ReadAs fields t.mem t.req := by
  obtain ⟨s, hs, hpp, layout, hrow, hpath, hpairs, hprotocol⟩ :=
    httpParseRequestLine_text b l hb (by simp) hmethod
  obtain ⟨t, ht, hheaders⟩ := httpParseRequest_headers b ⟨s, hs, hpp⟩ hb
  obtain ⟨r, u, hu, -, rfl⟩ := httpParseRequest_line ht hs
  obtain ⟨hm, hp, hv, hq⟩ := layout.texts hu
  exact ⟨_, ht, by rw [hm, hrow]; rfl, by rw [hp, hpath], by rw [hv, hprotocol], by rw [hq, hpairs],
    hheaders⟩

/-! What is sent. -/

/-- The text of a draft, with the first 20 of its headers. -/
def Draft.text (d : Draft) (protocol : List UInt8) : List UInt8 :=
  responseText protocol d.shown (d.headers.take 20) d.body

/-- A draft that fits where it is composed: its lines the line buffer, the whole
the final string. -/
structure Draft.Fits (d : Draft) (protocol : List UInt8) : Prop where
  status : (statusLine protocol d.status).length < 1024
  headers : ∀ p ∈ d.headers, (headerLine p).length < 1024
  room : (d.text protocol).length < 2 ^ 20

/-- The routed handler writes its response, and if it succeeds all of it fits. -/
structure Outcomes.Responds (out : Outcomes) (protocol : List UInt8) : Prop where
  writes : ∀ op ∈ out.ops, op.Writes
  body : (draft out.ops).body.length < 2 ^ 21
  fits : out.ret ≠ handlerErrFileNotFound → out.ret ≠ handlerErrGeneral →
    (draft out.ops).Fits protocol

variable {cfg : Config} {out : Outcomes} {mem : List UInt8} {req : HttpRequest}

theorem Draft.HeldBy.composed {d : Draft} {res : HttpResponse} (h : d.HeldBy res)
    {protocol : List UInt8} (hparsed : req.protocol.map (cString mem) = some protocol)
    (hfits : d.Fits protocol) :
    Composed mem req res (.empty (2 ^ 20)) protocol d.headers d.body where
  parsed := hparsed
  status_fits := by rw [h.status]; exact hfits.status
  headers := ⟨true, _, List.length_replicate, h.headers⟩
  headers_fit := hfits.headers
  held := by
    obtain ⟨rest, hholds⟩ := h.holds
    exact .str h.file h.fileFd hholds.buf h.len
  body_zero := by
    obtain ⟨rest, hholds⟩ := h.holds
    exact hholds.free
  empty := rfl
  object := (by decide : 2 ^ 20 < 2 ^ 63)
  room := by
    rw [HttpResponse.shown, h.status]
    exact hfits.room

theorem headersLength_map_some (ps : List (KvPair CText)) :
    headersLength (ps.map some) = (ps.flatMap headerLine).length := by
  induction ps with
  | nil => rfl
  | cons p ps ih =>
      simp only [headersLength, List.map_cons, List.sum_cons, Option.map_some, Option.getD_some,
        List.flatMap_cons, List.length_append] at ih ⊢
      rw [ih]

theorem Draft.HeldBy.stored {d : Draft} {res : HttpResponse} (h : d.HeldBy res) :
    res.headers.stored = (d.headers.take 20).map some := by
  rw [h.headers, kvSetAll_stored List.length_replicate]

/-- What is composed of a draft is its text. -/
theorem Draft.HeldBy.composedLength {d : Draft} {res : HttpResponse} (h : d.HeldBy res)
    {protocol : List UInt8} (hlt : (d.text protocol).length < 2 ^ 63) :
    res.composedLength protocol = (d.text protocol).length := by
  have hshown : res.shown = d.shown := by rw [HttpResponse.shown, h.status, Draft.shown]
  have hbody : res.announced = d.body.length ∧ res.bodyLength = d.body.length := by
    simp [HttpResponse.announced, HttpResponse.bodyLength, h.file, h.fileFd, h.len]
  have hlength : d.body.length < 2 ^ 63 := by
    have hle : d.body.length ≤ (d.text protocol).length := by
      simp [Draft.text, responseText]
      omega
    omega
  rw [HttpResponse.composedLength, h.stored, headersLength_map_some, hbody.1, hbody.2, Draft.text,
    ← hshown, responseText_eq hlength]
  simp only [List.length_append, List.length_singleton]

/-- A draft that fits makes no append grow its string. -/
theorem Outcomes.Responds.fits_received {data : List UInt8} (h : out.Responds (protocolText data))
    (hlengths : bodyLengths out.ops < 2 ^ 21) : L4Server.Fits out data := by
  refine ⟨hlengths, fun hfound hgeneral res hres => ?_⟩
  obtain ⟨res', hres', hheld⟩ := Draft.heldBy_cleared.applyAll h.writes h.body
  obtain rfl := Except.ok.inj (hres.symm.trans hres')
  have hroom := (h.fits hfound hgeneral).room
  rw [hheld.composedLength (hroom.trans (by decide))]
  exact hroom

/-- The final string as the send reads it. -/
theorem Draft.HeldBy.sent {d : Draft} {res : HttpResponse} (h : d.HeldBy res)
    {protocol : List UInt8} (hcomposed : Composed mem req res (.empty (2 ^ 20)) protocol d.headers
      d.body) (grow : Nat → Option (List UInt8)) :
    ∃ fresstr, httpComposeResponse grow mem req res (.empty (2 ^ 20)) = .ok (true, fresstr) ∧
      ∀ behind, readBlock fresstr.buf behind fresstr.len = d.text protocol := by
  obtain ⟨fresstr, hcompose, htext⟩ := httpComposeResponse_printed grow hcomposed
  have hshown : res.shown = d.shown := by rw [HttpResponse.shown, h.status, Draft.shown]
  have hroom : (d.text protocol).length < 2 ^ 20 := by
    have hroom := hcomposed.room
    rwa [hshown] at hroom
  -- the capacity stays, so that the text does not end with the block
  have hcapacity : fresstr.capacity = 2 ^ 20 := by
    refine httpComposeResponse_capacity (by decide : 2 ^ 20 ≤ 2 ^ 64) ?_ hcompose
    intro p hp
    have hprotocol := hcomposed.parsed
    rw [hp, Option.map_some] at hprotocol
    rw [Option.some.inj hprotocol, h.composedLength (hroom.trans (by decide))]
    exact (Nat.zero_add _).trans_lt hroom
  have hle : fresstr.len ≤ fresstr.buf.length := by
    have hshort := congrArg List.length htext
    rw [StringT.text, List.length_take, fresstr.allocated, hcapacity, hshown] at hshort
    rw [fresstr.allocated, hcapacity]
    have : (responseText protocol d.shown (d.headers.take 20) d.body).length < 2 ^ 20 := hroom
    omega
  refine ⟨fresstr, hcompose, fun behind => ?_⟩
  rw [readBlock, List.append_assoc, List.take_append_of_le_length hle]
  rw [hshown] at htext
  exact htext

/-- The bytes with which a parsed request is answered. -/
def answer (cfg : Config) (out : Outcomes) (l : RequestLine) : List UInt8 :=
  match findRouter cfg.routers l.path l.mask with
  | none => ascii response404
  | some _ =>
      if out.ret = handlerErrFileNotFound then ascii response404
      else if out.ret = handlerErrGeneral then ascii response500
      else (draft out.ops).text l.protocol

theorem routeRequest_answers (cfg : Config) {l : RequestLine} {fields : List Header}
    (hread : l.ReadAs fields mem req) (hout : out.Responds l.protocol) :
    ∃ reply locals, routeRequest cfg out mem { Locals.fresh with req := req } =
        .ok (reply, locals) ∧ reply.bytes out locals = answer cfg out l := by
  obtain ⟨res, hres, hheld⟩ : ∃ res, HttpResponse.applyAll out.ops (.cleared (.empty (2 ^ 21))) =
      .ok res ∧ (draft out.ops).HeldBy res :=
    Draft.heldBy_cleared.applyAll hout.writes hout.body
  obtain ⟨path, hpath, htext⟩ := Option.map_eq_some_iff.mp hread.path
  have happly : HttpResponse.applyAll out.ops Locals.fresh.res = .ok res := hres
  simp only [routeRequest, answer, hpath, htext, hread.method]
  cases findRouter cfg.routers l.path l.mask with
  | none => exact ⟨_, _, rfl, rfl⟩
  | some router =>
  simp only [happly, liftFault, bind, Except.bind]
  by_cases hfound : out.ret = handlerErrFileNotFound
  · rw [if_pos hfound, if_pos hfound]
    exact ⟨_, _, rfl, rfl⟩
  rw [if_neg hfound, if_neg hfound]
  by_cases hgeneral : out.ret = handlerErrGeneral
  · rw [if_pos hgeneral, if_pos hgeneral]
    exact ⟨_, _, rfl, rfl⟩
  rw [if_neg hgeneral, if_neg hgeneral]
  obtain ⟨fresstr, hcompose, hsent⟩ := hheld.sent
    (hheld.composed hread.protocol (hout.fits hfound hgeneral)) out.grow
  rw [show httpComposeResponse out.grow mem req res Locals.fresh.fresstr = .ok (true, fresstr)
    from hcompose]
  exact ⟨.composed, ⟨req, res, fresstr⟩, rfl, hsent out.behind⟩

/-! One turn of the loop. -/

variable {s t : Server} {slot : Nat} {data text : List UInt8}

/-- Between `s` and `t` one `send` of the text has been queued for the slot, and
these are all bytes its session has been sent so far. -/
structure Server.Sends (s t : Server) (slot : Nat) (text : List UInt8) : Prop where
  sq : t.sq = s.sq ++ [⟨.send slot text false, slot, false, (s.conns slot).session.number⟩]
  pushed : (t.conns slot).session.pushed = text
  isOpen : t.isOpen = s.isOpen
  others : ∀ other, other ≠ slot → t.conns other = s.conns other

/-- What arrives first, in a build that does not watch its files: the `recv` of
the slot has brought `data`, and there is room for a reply. -/
structure Server.Received (cfg : Config) (s : Server) (slot : Nat) (data : List UInt8) : Prop where
  reach : Reach (listenLoop cfg) AppendsFit s
  watch : cfg.watch = false
  waiting : s.waiting = false
  first : ∃ cqe cq, s.cq = cqe :: cq ∧ cqe.sqe.userData = slot ∧ cqe.sqe.op.isRecv = true ∧
    0 < cqe.res ∧ (s.conns slot).str.map (fun str => str.buf.take cqe.res.toNat) = some data
  room : s.sq.length < queueDepth

/-- Both strings of a coroutine that begins are allocated. -/
def Outcomes.Granted (out : Outcomes) : Prop :=
  out.resStr = (true, true) ∧ out.fresStr = (true, true)

theorem httpHandlerLoop_replies (hwatch : cfg.watch = false) (slot : Nat) (coro : Coroutine)
    (session : Session) {sq : List Sqe} (hpos : 0 < data.length) {reply : Reply} {l : Locals}
    {str : StringT}
    (hserve : serveRequest cfg out data.length .fresh (received data) = .ok (reply, l, str))
    (hroom : sq.length < queueDepth) :
    ∃ r, httpHandlerLoop cfg out data.length .fresh ⟨.first slot data coro session, slot, sq⟩ =
        .ok r ∧ r.closed = false ∧
      r.ctx.sq = sq ++ [⟨.send slot (reply.bytes out l) false, slot, false, session.number⟩] ∧
      r.ctx.conn.session.pushed = session.pushed ++ reply.bytes out l := by
  obtain ⟨d, pushed, happends, hpushed⟩ := pushReply_appends cfg out l
    ⟨{ ServerConnection.first slot data coro session with str := some str }, slot, sq⟩ reply rfl
  have hentries : (replyLoad cfg reply).entries = 1 := by
    cases reply <;> simp [replyLoad, hwatch, Load.entries]
  have hpush := happends.room sq (by omega)
  have hqueued := pushReply_queued hpush
  rw [replySqes_send hwatch] at hqueued
  have hloop : httpHandlerLoop cfg out data.length .fresh
      ⟨.first slot data coro session, slot, sq⟩ =
        .ok (suspend .yield l (d.withSq (sq ++ pushed))) := by
    simp only [httpHandlerLoop, ServerConnection.first, recvBranch]
    rw [if_neg (by omega), if_neg (by omega), Int.toNat_natCast]
    exact bind_eq_ok.mpr ⟨_, bind_eq_ok.mpr ⟨_, hserve, bind_eq_ok.mpr ⟨_, hpush, rfl⟩⟩, rfl⟩
  refine ⟨_, hloop, rfl, hqueued.sq, ?_⟩
  have hpayload := hqueued.payload
  simp only [List.flatMap_cons, List.flatMap_nil, List.append_nil] at hpayload
  exact hpayload

/-- The connection is as in a first session, with the bytes in its buffer. -/
theorem Server.Received.conn (h : s.Received cfg slot data) : ∃ cqe cq coro,
    s.cq = cqe :: cq ∧ cqe.sqe.userData = slot ∧ cqe.sqe.op.isRecv = true ∧
      cqe.res = data.length ∧ 0 < data.length ∧ data.length ≤ 2 ^ 21 ∧
      (coro = .created ∨ coro = .started .fresh) ∧
      s.conns slot = .first slot data coro (s.conns slot).session := by
  obtain ⟨cqe, cq, hcq, rfl, hrecv, hpos, hdata⟩ := h.first
  obtain ⟨data', coro, hlength, hle, hbegins, hconn⟩ :=
    recv_first h.reach (hcq ▸ List.mem_cons_self) hrecv
  obtain rfl : data' = data := by
    rw [hconn] at hdata
    simp only [ServerConnection.first, Option.map_some, Option.some.injEq, ← hlength] at hdata
    rw [← hdata, received_take hle]
  exact ⟨cqe, cq, coro, hcq, rfl, hrecv, by omega, by omega, hle, hbegins, hconn⟩

/-- The reply that is found for the received bytes is sent. -/
theorem Server.Received.replies (h : s.Received cfg slot data) (hgranted : out.Granted)
    {reply : Reply} {l : Locals} {str : StringT}
    (hserve : serveRequest cfg out data.length .fresh (received data) = .ok (reply, l, str)) :
    ∃ t, step cfg s (.handle out) = .ok t ∧ s.Sends t slot (reply.bytes out l) := by
  obtain ⟨cqe, cq, coro, hcq, rfl, hrecv, hres, hpos, -, hbegins, hconn⟩ := h.conn
  have hmem : cqe ∈ s.cq := hcq ▸ List.mem_cons_self
  have hb := books_reachable h.reach.reachable
  have hne : cqe.sqe.userData ≠ cfg.listenFd := by
    intro huser
    rw [hb.op_of_listening (Server.mem_ops_of_cq hmem) huser] at hrecv
    cases hrecv
  have hbefore : (s.conns cqe.sqe.userData).session.pushed = [] := by
    have hprogress := progress_reachable h.watch hne h.reach.reachable
    rw [SlotView.Progresses, done_of_recv hb hmem hne hrecv] at hprogress
    generalize (s.view cqe.sqe.userData).pending = pending at hprogress
    cases hprogress with
    | received _ hpushed _ => exact hpushed
    | sent hop => simp [hop, Op.isRecv] at hrecv
  obtain ⟨r, hr, hclosed, hsq, hpushed⟩ := httpHandlerLoop_replies h.watch cqe.sqe.userData coro
    (s.conns cqe.sqe.userData).session hpos hserve h.room
  have hresume : coResumeValue cfg out cqe.res
      ⟨s.conns cqe.sqe.userData, cqe.sqe.userData, s.sq⟩ = .ok r := by
    rw [hconn, hres]
    unfold coResumeValue
    rcases hbegins with rfl | rfl
    · simp only [ServerConnection.first, httpHandlerInit_granted hgranted.1 hgranted.2]
      exact hr
    · exact hr
  have haction : (s.conns cqe.sqe.userData).action ≠ .accept := by
    rw [hconn]
    simp [ServerConnection.first]
  refine ⟨_, (step_handle h.waiting hcq).trans
    ((if_neg haction).trans (bind_eq_ok.mpr ⟨r, hresume, rfl⟩)), ?_⟩
  rw [hclosed]
  refine ⟨hsq, ?_, rfl, fun other hother => Function.update_of_ne hother _ _⟩
  show ((Function.update s.conns cqe.sqe.userData r.ctx.conn) cqe.sqe.userData).session.pushed = _
  rw [Function.update_self, hpushed, hbefore, List.nil_append]

/-! Requests and responses. -/

/-- The bytes with which a request is answered that takes `length` bytes. -/
def answerTo (cfg : Config) (out : Outcomes) (l : RequestLine) (length : Nat) : List UInt8 :=
  if length = 2 ^ 21 then ascii response413
  else if l.mask = methodConnect then ascii response400
  else answer cfg out l

theorem serveRequest_answers (cfg : Config) {l : RequestLine} {fields : List Header}
    {body : List UInt8} (hdata : data = requestText l fields body) (hpos : 0 < data.length)
    (hle : data.length ≤ 2 ^ 21) (hout : out.Responds l.protocol) :
    ∃ reply locals str,
      serveRequest cfg out data.length .fresh (received data) = .ok (reply, locals, str) ∧
        reply.bytes out locals = answerTo cfg out l data.length := by
  unfold serveRequest answerTo
  by_cases hfull : data.length = 2 ^ 21
  · rw [if_pos hfull]
    exact ⟨_, _, _, if_pos hfull, rfl⟩
  rw [if_neg (show data.length ≠ (received data).capacity from hfull), if_neg hfull]
  have hlt : data.length < 2 ^ 21 := Nat.lt_of_le_of_ne hle hfull
  have hbytes : (receivedBuf data hpos hlt).bytes = requestText l fields body :=
    (receivedBuf_bytes data hpos hlt).trans hdata
  by_cases hmethod : l.mask = methodConnect
  · obtain ⟨t, ht⟩ := httpParseRequest_refuses_connect _ l hbytes hmethod
    rw [if_pos hmethod]
    rw [show httpParseRequest ⟨(received data).buf, [], Locals.fresh.req, 0⟩ data.length =
      .ok (0, t) from ht]
    exact ⟨_, _, _, rfl, rfl⟩
  · obtain ⟨t, ht, hread⟩ := httpParseRequest_requestText _ hbytes hmethod
    obtain ⟨reply, locals, hroute, hreply⟩ := routeRequest_answers cfg hread hout
    rw [if_neg hmethod]
    rw [show httpParseRequest ⟨(received data).buf, [], Locals.fresh.req, 0⟩ data.length =
      .ok (1, t) from ht]
    simp only [liftFault, bind, Except.bind, hroute]
    exact ⟨reply, locals, _, rfl, hreply⟩

/-- A request that has been written out and comes in one `recv` is answered with
one `send`, of an error line or of what the routed handler writes. -/
theorem listenLoop_answers (cfg : Config) (s : Server) (slot : Nat) (l : RequestLine)
    (fields : List Header) (body : List UInt8)
    (h : s.Received cfg slot (requestText l fields body)) (out : Outcomes)
    (hgranted : out.Granted) (hout : out.Responds l.protocol) :
    ∃ t, step cfg s (.handle out) = .ok t ∧
      s.Sends t slot (answerTo cfg out l (requestText l fields body).length) := by
  obtain ⟨-, -, -, -, -, -, -, hpos, hle, -⟩ := h.conn
  obtain ⟨reply, locals, str, hserve, hreply⟩ :=
    serveRequest_answers cfg rfl hpos hle hout
  rw [← hreply]
  exact h.replies hgranted hserve

/-- The request that the handler is given is the one that was written, and from
the response that is sent the client reads the handler's status, headers and body. -/
theorem listenLoop_serves (cfg : Config) (s : Server) (slot : Nat) (l : RequestLine)
    (fields : List Header) (body : List UInt8)
    (h : s.Received cfg slot (requestText l fields body))
    (hlt : (requestText l fields body).length < 2 ^ 21)
    (hmethod : l.mask ≠ methodConnect) (hlong : ∀ h ∈ fields.take 20, h.Long)
    (hroute : (findRouter cfg.routers l.path l.mask).isSome = true)
    (out : Outcomes) (hgranted : out.Granted) (hout : out.Responds l.protocol)
    (hfound : out.ret ≠ handlerErrFileNotFound) (hgeneral : out.ret ≠ handlerErrGeneral)
    (hr : Readable l.protocol (draft out.ops).headers) :
    (∃ parse, httpParseRequest (Parse.start (received (requestText l fields body)).buf)
        (requestText l fields body).length = .ok (1, parse) ∧
      l.ReadAs fields parse.mem parse.req ∧
      parse.req.headers.stored.map (Option.map (textsAt parse.mem)) =
        (fields.take 20).map fun h => some (h.name, h.value)) ∧
    ∃ t text, step cfg s (.handle out) = .ok t ∧ s.Sends t slot text ∧
      readResponse text = some ⟨(draft out.ops).shown,
        ((draft out.ops).headers.take 20).map headerPair, (draft out.ops).body⟩ := by
  constructor
  · obtain ⟨-, -, -, -, -, -, -, hpos, -⟩ := h.conn
    obtain ⟨parse, hparse, hread⟩ := httpParseRequest_requestText (receivedBuf _ hpos hlt)
      (receivedBuf_bytes _ hpos hlt) hmethod
    have hkept : (fields.take 20).takeWhile (fun h => decide h.Long) = fields.take 20 := by
      rw [List.takeWhile_eq_self_iff]
      exact fun h hmem => decide_eq_true (hlong h hmem)
    refine ⟨parse, hparse, hread, ?_⟩
    rw [hread.headers, hkept]
  · obtain ⟨router, hrouter⟩ := Option.isSome_iff_exists.mp hroute
    obtain ⟨t, ht, hsends⟩ := listenLoop_answers cfg s slot l fields body h out hgranted hout
    have htext : answerTo cfg out l (requestText l fields body).length =
        (draft out.ops).text l.protocol := by
      simp only [answerTo, answer, if_neg (Nat.ne_of_lt hlt), if_neg hmethod, hrouter,
        if_neg hfound, if_neg hgeneral]
    rw [htext] at hsends
    exact ⟨t, _, ht, hsends, readResponse_responseText (hr.take 20) _ _⟩

/-! A request for `/`, answered as a handler of small numbers answers it. -/

/-- What sets a text, its type and the status. -/
def Outcomes.number : Outcomes :=
  { Outcomes.granted with
    ops := [.body (ascii "1\n" ++ [0]) 2 none,
      .header contentType ⟨ascii "text/plain", by decide⟩, .status 200] }

theorem number_responds : Outcomes.number.Responds rootLine.protocol where
  writes := by decide +kernel
  body := by decide +kernel
  fits := fun _ _ => ⟨by decide +kernel, by decide +kernel, by decide +kernel⟩

def rootRequest : List UInt8 := requestText rootLine [hostHeader] []

def rootEvents : List Event :=
  [.submit, .complete 0 7 [], .handle .failing, .drained, .submit, .complete 0 27 rootRequest]

theorem exists_received : ∃ s : Server, s.Received routedConfig 7 rootRequest := by
  have hguarded : Guarded (listenLoop routedConfig) Plain rootEvents
      (Server.initial routedConfig) := by
    decide +kernel
  obtain ⟨s, hs, hview⟩ := exists_run routedConfig rootEvents
    (f := fun s => (s.cq, (s.conns 7).str.map fun str => str.buf.take 27,
      decide (s.waiting = false ∧ s.sq.length < queueDepth)))
    (b := ([⟨⟨.recv 7 (2 ^ 21), 7, false, 1⟩, 27⟩], some rootRequest, true)) (by decide +kernel)
  simp only [Prod.mk.injEq, decide_eq_true_eq] at hview
  obtain ⟨hcq, hdata, hwaiting, hroom⟩ := hview
  exact ⟨s, (reach_of_run (.start rfl) hguarded hs).mono fun _ _ h =>
    (Plain.providedFor h : ProvidedFor routedConfig _ _).fit, rfl, hwaiting,
    ⟨_, _, hcq, rfl, rfl, by decide, hdata⟩, hroom⟩

theorem listenLoop_answers_root :
    ∃ s t : Server, step routedConfig s (.handle .number) = .ok t ∧
      s.Sends t 7 (answerTo routedConfig .number rootLine rootRequest.length) := by
  obtain ⟨s, h⟩ := exists_received
  exact ⟨s, listenLoop_answers routedConfig s 7 rootLine [hostHeader] [] h .number ⟨rfl, rfl⟩
    number_responds⟩

theorem listenLoop_serves_root :
    ∃ s t : Server, ∃ text, step routedConfig s (.handle .number) = .ok t ∧ s.Sends t 7 text ∧
      readResponse text =
        some ⟨200, [(ascii "Content-Type", ascii "text/plain")], ascii "1\n"⟩ := by
  obtain ⟨s, h⟩ := exists_received
  obtain ⟨-, t, text, ht, hsends, hread⟩ := listenLoop_serves routedConfig s 7 rootLine [hostHeader]
    [] h (by decide +kernel) (by decide) (by decide +kernel) (by decide +kernel) .number ⟨rfl, rfl⟩
    number_responds (by decide) (by decide)
    ⟨by decide +kernel, by decide +kernel, by decide +kernel, by decide +kernel⟩
  exact ⟨s, t, text, ht, hsends, hread⟩

end L4Server
