import L4Server.StaticRouter

/-!
`struct server_connection` with its coroutine, and the functions of
`iouring_utils.c` that queue operations for it. A pointer to a connection is its
slot, the index into `conns`; of the back pointer `svr` it matters whether it is set.
-/
namespace L4Server
open CMemory

/-- Why the server takes no further step: an event that cannot happen, `exit`,
a fault, or a return from the entry point of a coroutine that has stopped. -/
inductive Halt
  | disabled
  | exit (code : Int)
  | fault (f : Fault)
  | stopped
  deriving DecidableEq, Repr

def liftFault {α : Type} : Except Fault α → Except Halt α
  | .ok a => .ok a
  | .error f => .error (.fault f)

theorem liftFault_eq_ok {α : Type} {x : Except Fault α} {a : α} (h : liftFault x = .ok a) :
    x = .ok a := by
  cases x with
  | ok b => exact congrArg Except.ok (Except.ok.inj h)
  | error f => cases h

/-- The values of `conn->action`: zero and the `IO_URING_OP_*` constants. -/
inductive Action
  | none
  | accept
  | recv
  | send
  | splice
  deriving DecidableEq, Repr

/-- The local variables of `io_uring_co_http_handler` that live across its
suspensions; the three lists are regions of `static_kv_pairs`. -/
structure Locals where
  req : HttpRequest
  res : HttpResponse
  fresstr : StringT

/-- A coroutine with the handler as its function: never resumed, suspended at
the yield of the handler's loop, or past the handler's return. -/
inductive Coroutine
  | created
  | started (locals : Locals)
  | stopped

/-- The locals of a suspended coroutine. -/
def Coroutine.locals : Coroutine → Option Locals
  | .started locals => some locals
  | .created | .stopped => none

theorem Coroutine.locals_eq_some {coro : Coroutine} {l : Locals} (h : coro.locals = some l) :
    coro = .started l := by
  cases coro with
  | started locals => exact congrArg Coroutine.started (Option.some.inj h)
  | created => cases h
  | stopped => cases h

/-- Ghost record of the session a slot is in: its number, the bytes of the
sends queued in it, and those of them the kernel has taken. -/
structure Session where
  number : Nat
  pushed : List UInt8
  taken : List UInt8
  deriving DecidableEq, Repr

structure ServerConnection where
  fd : Nat
  action : Action
  curSteps : Nat
  totalSteps : Nat
  coro : Option Coroutine
  str : Option StringT
  svr : Bool
  session : Session

/-- A slot as `create_server` clears it. -/
def ServerConnection.zero : ServerConnection where
  fd := 0
  action := .none
  curSteps := 0
  totalSteps := 0
  coro := none
  str := none
  svr := false
  session := ⟨0, [], []⟩

/-- What a queue entry asks of the kernel. A `recv` writes into the buffer of
its slot; a `send` is given the bytes it points at. -/
inductive Op
  | accept (fd : Nat)
  | recv (fd : Nat) (len : Nat)
  | send (fd : Nat) (data : List UInt8) (msgMore : Bool)
  | splice (fdIn : Int) (offIn : Int) (fdOut : Int) (offOut : Int) (len : Nat)
  deriving DecidableEq, Repr

/-- The bytes of a `send`. -/
def Op.payload : Op → List UInt8
  | .send _ data _ => data
  | _ => []

/-- A `send` or a `splice`, the operations that count as steps. -/
def Op.isTransfer : Op → Bool
  | .send .. | .splice .. => true
  | _ => false

def Op.isRecv : Op → Bool
  | .recv .. => true
  | _ => false

theorem Op.isRecv_of_isTransfer {op : Op} (h : op.isTransfer = true) : op.isRecv = false := by
  cases op <;> first | rfl | cases h

/-- A submission queue entry; `userData` is the slot, `session` the ghost number
of the slot's session when the entry was queued. -/
structure Sqe where
  op : Op
  userData : Nat
  link : Bool
  session : Nat
  deriving DecidableEq, Repr

/-- `QD`, the depth of the submission queue. -/
def queueDepth : Nat := 1024

/-- A connection, its slot, and the submission queue. -/
structure Ctx where
  conn : ServerConnection
  slot : Nat
  sq : List Sqe

/-- What the push functions have in common. A full queue makes
`io_uring_get_sqe` return NULL, and the entry is filled in regardless. -/
def Ctx.push (c : Ctx) (action : Action) (steps : Nat) (op : Op) (link : Bool) :
    Except Halt Ctx :=
  if c.sq.length < queueDepth then
    .ok { c with
      conn := { c.conn with
        action := action
        totalSteps := c.conn.totalSteps + steps
        session := { c.conn.session with pushed := c.conn.session.pushed ++ op.payload } }
      sq := c.sq ++ [⟨op, c.slot, link, c.conn.session.number⟩] }
  else .error (.fault .null)

def ioUringPushAccept (c : Ctx) (fd : Nat) (link : Bool) : Except Halt Ctx :=
  c.push .accept 0 (.accept fd) link

def ioUringPushRecv (c : Ctx) (fd : Nat) (buflen : Nat) (link : Bool) : Except Halt Ctx :=
  c.push .recv 0 (.recv fd buflen) link

def ioUringPushSend (c : Ctx) (fd : Nat) (data : List UInt8) (msgMore link : Bool) :
    Except Halt Ctx :=
  c.push .send 1 (.send fd data msgMore) link

/-- The length is an `unsigned int`. -/
def ioUringPushSplice (c : Ctx) (fdIn offIn fdOut offOut : Int) (len : Nat) (link : Bool) :
    Except Halt Ctx :=
  c.push .splice 1 (.splice fdIn offIn fdOut offOut (len % 2 ^ 32)) link

theorem Ctx.push_eq_ok {c d : Ctx} {action : Action} {steps : Nat} {op : Op} {link : Bool}
    (h : c.push action steps op link = .ok d) :
    d = { c with
      conn := { c.conn with
        action := action
        totalSteps := c.conn.totalSteps + steps
        session := { c.conn.session with pushed := c.conn.session.pushed ++ op.payload } }
      sq := c.sq ++ [⟨op, c.slot, link, c.conn.session.number⟩] } := by
  unfold Ctx.push at h
  split at h
  · exact (Except.ok.inj h).symm
  · cases h

end L4Server
