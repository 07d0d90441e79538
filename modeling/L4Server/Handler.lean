import L4Server.Connection

/-!
`io_uring_co_http_handler`: what one resumption of a connection's coroutine
does, from the completion it is given to its next yield. The outcomes of
allocations and what the routed handler does with its response are arguments.
-/
namespace L4Server
open CMemory

def response413 : String := "HTTP/1.1 413 Request Entity Too Large\r\n"
def response400 : String := "HTTP/1.1 400 Bad Request\r\n"
def response404 : String := "HTTP/1.1 404 Not Found\r\n"
def response500 : String := "HTTP/1.1 500 Internal Server Error\r\n"

/-- `struct router`; what its function does is part of the outcomes. -/
structure Router where
  path : List UInt8
  method : Nat

def findRouter (routers : List Router) (path : List UInt8) (method : Nat) : Option Router :=
  routers.find? fun iter => method &&& iter.method != 0 && path == iter.path

/-- What a routed handler may do: set a field of the response, `SET_RES_HEADER`
(of which `SET_RES_MIME` is a case), and `APPEND_RES_BODY`. -/
inductive ResponseOp
  | status (value : Int)
  | file (value : Option (List UInt8))
  | fileFd (value : Int)
  | fileSz (value : Nat)
  | header (key value : CText)
  | body (buf : List UInt8) (buflen : Nat) (realloc : Option (List UInt8))

def HttpResponse.apply (res : HttpResponse) : ResponseOp → Except Fault HttpResponse
  | .status value => .ok { res with status := value }
  | .file value => .ok { res with file := value }
  | .fileFd value => .ok { res with fileFd := value }
  | .fileSz value => .ok { res with fileSz := value }
  | .header key value =>
      .ok { res with headers := (kvSetKeyValue true res.headers key value).2 }
  | .body buf buflen realloc => do
      let (_, str) ← stringAppend realloc res.str buf buflen
      return { res with str := str }

def HttpResponse.applyAll : List ResponseOp → HttpResponse → Except Fault HttpResponse
  | [], res => .ok res
  | op :: ops, res => do
      let res ← res.apply op
      applyAll ops res

/-- Static routes are among the handlers the operations describe. -/
theorem globalStaticRouter_applyAll (watch : Bool) (calls : StaticCalls) (junk : Uninitialised)
    (data : Option (List UInt8)) (response : HttpResponse) :
    ∃ ops, HttpResponse.applyAll ops response =
      .ok (globalStaticRouter watch calls junk data response).2.1 := by
  have describe (op : ResponseOp) {res : HttpResponse} (h : response.apply op = .ok res)
      (stSize : Nat) (mimeStr : CText) :
      HttpResponse.applyAll
        [op, .fileSz stSize, .status 200, .header contentType mimeStr] response =
          .ok (res.describe stSize mimeStr) := by
    unfold HttpResponse.applyAll
    simp only [h, bind, Except.bind]
    rfl
  unfold globalStaticRouter
  split
  · exact ⟨_, describe (.file _) rfl _ _⟩
  · split
    · exact ⟨[], rfl⟩
    · split
      · exact ⟨[], rfl⟩
      · split
        · exact ⟨[], rfl⟩
        · split
          · exact ⟨_, describe (.fileFd _) rfl _ _⟩
          · split
            · exact ⟨[], rfl⟩
            · exact ⟨_, describe (.file _) rfl _ _⟩

/-- What is not the program's to decide in one turn of the loop: the two
allocations of each `string_init`, of `co_new`, the routed handler, the
reallocations of the composer, and what memory holds behind the final string. -/
structure Outcomes where
  coNew : Bool
  connStr : Bool × Bool
  resStr : Bool × Bool
  fresStr : Bool × Bool
  ops : List ResponseOp
  ret : Int
  grow : Nat → Option (List UInt8)
  behind : List UInt8

/-- The build and what the server is set up with. -/
structure Config where
  watch : Bool
  listenFd : Nat
  routers : List Router
  pipefds : Int × Int

/-- What the handler answers with: one of the error lines, or the composed text. -/
inductive Reply
  | text (line : String)
  | composed
  deriving DecidableEq, Repr

/-- From the call of `find_router` to the reply. -/
def routeRequest (cfg : Config) (out : Outcomes) (mem : List UInt8) (l : Locals) :
    Except Halt (Reply × Locals) :=
  match l.req.path with
  | none => .error (.fault .null)
  | some path =>
      match findRouter cfg.routers (cString mem path) l.req.method with
      | none => .ok (.text response404, l)
      | some _ => do
          let res ← liftFault (HttpResponse.applyAll out.ops l.res)
          if out.ret = handlerErrFileNotFound then return (.text response404, { l with res := res })
          else if out.ret = handlerErrGeneral then
            return (.text response500, { l with res := res })
          else
            let (composed, fresstr) ←
              liftFault (httpComposeResponse out.grow mem l.req res l.fresstr)
            let reply := if composed then Reply.composed else .text response400
            return (reply, { l with res := res, fresstr := fresstr })

/-- The reply to a positive count of received bytes; `str` is `conn->str`. -/
def serveRequest (cfg : Config) (out : Outcomes) (yielded : Nat) (l : Locals) (str : StringT) :
    Except Halt (Reply × Locals × StringT) :=
  if yielded = str.capacity then .ok (.text response413, l, str)
  else do
    let (ret, t) ← liftFault (httpParseRequest ⟨str.buf, [], l.req, 0⟩ yielded)
    let str := str.write t.mem
    let l := { l with req := t.req }
    if ret = 0 then return (.text response400, l, str)
    else
      let (reply, l) ← routeRequest cfg out t.mem l
      return (reply, l, str)

/-- The pushes of a reply, into `conn->svr->ring`. The build that watches its
files sends the head and has the file spliced through the server's pipe. -/
def pushReply (cfg : Config) (out : Outcomes) (l : Locals) (c : Ctx) (reply : Reply) :
    Except Halt Ctx :=
  if !c.conn.svr then .error (.fault .null)
  else
    match reply with
    | .text line => ioUringPushSend c c.conn.fd (ascii line) false false
    | .composed =>
        let text := readBlock l.fresstr.buf out.behind l.fresstr.len
        if cfg.watch then do
          let c ← ioUringPushSend c c.conn.fd text true true
          let c ← ioUringPushSplice c l.res.fileFd 0 cfg.pipefds.2 (-1) l.res.fileSz true
          ioUringPushSplice c cfg.pipefds.1 (-1) c.conn.fd (-1) l.res.fileSz false
        else ioUringPushSend c c.conn.fd text false false

/-- Where the switch leads: to the label `RESET` or to `YIELD`. -/
inductive Exit
  | reset
  | yield
  deriving DecidableEq, Repr

def recvBranch (cfg : Config) (out : Outcomes) (yielded : Int) (l : Locals) (c : Ctx) :
    Except Halt (Exit × Locals × Ctx) :=
  if yielded < 0 then .ok (.yield, l, c)
  else if yielded = 0 then .ok (.reset, l, c)
  else
    match c.conn.str with
    | none => .error (.fault .null)
    | some str => do
        let (reply, l, str) ← serveRequest cfg out yielded.toNat l str
        let c ← pushReply cfg out l { c with conn := { c.conn with str := some str } } reply
        return (.yield, l, c)

def sendBranch (c : Ctx) : Exit × Ctx :=
  let conn := { c.conn with curSteps := c.conn.curSteps + 1 }
  (if conn.curSteps = conn.totalSteps then .reset else .yield, { c with conn := conn })

/-- The locals behind `RESET`. -/
def Locals.reset (l : Locals) : Locals where
  req := {
    method := 0
    path := none
    protocol := none
    query := l.req.query.clear
    headers := l.req.headers.clear }
  res := {
    status := 0
    file := none
    fileFd := 0
    fileSz := 0
    str := stringReset l.res.str
    headers := l.res.headers.clear }
  fresstr := stringReset l.fresstr

def ServerConnection.reset (conn : ServerConnection) : ServerConnection :=
  { conn with curSteps := 0, totalSteps := 0, str := conn.str.map stringReset }

/-- What a resumption leaves: the connection and the queue, and whether the
descriptor of the connection has been closed. -/
structure Resumed where
  ctx : Ctx
  closed : Bool

def suspend (exit : Exit) (l : Locals) (c : Ctx) : Resumed :=
  match exit with
  | .reset =>
      ⟨{ c with conn := { c.conn.reset with coro := some (.started l.reset) } }, true⟩
  | .yield => ⟨{ c with conn := { c.conn with coro := some (.started l) } }, false⟩

@[simp] theorem suspend_sq (exit : Exit) (l : Locals) (c : Ctx) :
    (suspend exit l c).ctx.sq = c.sq := by
  cases exit <;> rfl

@[simp] theorem suspend_fd (exit : Exit) (l : Locals) (c : Ctx) :
    (suspend exit l c).ctx.conn.fd = c.conn.fd := by
  cases exit <;> rfl

/-- One turn of the handler's loop. An action without a case leaves the switch
for `RESET`. -/
def httpHandlerLoop (cfg : Config) (out : Outcomes) (yielded : Int) (l : Locals) (c : Ctx) :
    Except Halt Resumed :=
  match c.conn.action with
  | .recv => do
      let (exit, l, c) ← recvBranch cfg out yielded l c
      return suspend exit l c
  | .send | .splice =>
      let (exit, c) := sendBranch c
      .ok (suspend exit l c)
  | .none | .accept => .ok (suspend .reset l c)

/-- The handler in front of its loop; `none` is the jump to `EXIT`. -/
def httpHandlerInit (out : Outcomes) : Option Locals :=
  match stringInit out.resStr.1 out.resStr.2 1024, stringInit out.fresStr.1 out.fresStr.2 2048 with
  | some resStr, some fresstr => some ⟨.cleared, .cleared resStr, fresstr⟩
  | _, _ => none

/-- `co_resume_value` on the coroutine of a connection. -/
def coResumeValue (cfg : Config) (out : Outcomes) (value : Int) (c : Ctx) :
    Except Halt Resumed :=
  match c.conn.coro with
  | none => .error (.fault .null)
  | some .stopped => .error .stopped
  | some .created =>
      match httpHandlerInit out with
      | none => .ok ⟨{ c with conn := { c.conn with coro := some .stopped } }, false⟩
      | some l => httpHandlerLoop cfg out value l c
  | some (.started l) => httpHandlerLoop cfg out value l c

end L4Server
