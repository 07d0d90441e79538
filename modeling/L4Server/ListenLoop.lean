import L4Server.Handler
import L4Server.Library.Automaton

/-!
The single-threaded `io_uring_listen_loop` and the kernel as a machine. The
kernel posts one completion for each entry submitted, in any order and with any
result that its operation allows; the loop handles completions one by one.
Entries that fail because a linked one before them did are among these.
-/
namespace L4Server
open CMemory

/-- A completion queue entry, with the entry it completes. -/
structure Cqe where
  sqe : Sqe
  res : Int
  deriving DecidableEq, Repr

/-- The server and the kernel's side of its ring. `waiting` is true in front of
`io_uring_submit_and_wait`; `isOpen` says which connection descriptors, and
the listening one, are open. -/
structure Server where
  conns : Nat → ServerConnection
  isOpen : Nat → Bool
  sq : List Sqe
  inflight : List Sqe
  cq : List Cqe
  waiting : Bool

/-- `io_uring_submit_and_wait`; the kernel completing one of the entries it has
been given; the loop handling the next completion; the end of
`io_uring_for_each_cqe`. -/
inductive Event
  | submit
  | complete (index : Nat) (res : Int) (data : List UInt8)
  | handle (out : Outcomes)
  | drained

/-- Update of one slot. -/
def Server.setConn (s : Server) (slot : Nat) (conn : ServerConnection) : Server :=
  { s with conns := Function.update s.conns slot conn }

def Server.setOpen (s : Server) (fd : Nat) (value : Bool) : Server :=
  { s with isOpen := Function.update s.isOpen fd value }

/-- The results the kernel may give an operation: a count of at most the length
asked for, as many bytes as are received, a descriptor that is not open, or any
negative error. -/
def Op.allows (isOpen : Nat → Bool) (res : Int) (data : List UInt8) : Op → Bool
  | .accept _ => data.isEmpty && (res < 0 || !isOpen res.toNat)
  | .recv _ len => res ≤ len && data.length == res.toNat
  | .send _ text _ => data.isEmpty && res ≤ text.length
  | .splice _ _ _ _ len => data.isEmpty && res ≤ len

/-- What the kernel does to the connection of a slot besides posting the
completion; of a `send` only the ghost record is changed. -/
def ServerConnection.perform (conn : ServerConnection) (res : Int) (data : List UInt8) :
    Op → ServerConnection
  | .recv _ _ => { conn with str := conn.str.map (·.write data) }
  | .send _ text _ =>
      { conn with
        session := { conn.session with taken := conn.session.taken ++ text.take res.toNat } }
  | _ => conn

def Server.perform (s : Server) (sqe : Sqe) (res : Int) (data : List UInt8) : Server :=
  match sqe.op with
  | .accept _ => if res < 0 then s else s.setOpen res.toNat true
  | op => s.setConn sqe.userData ((s.conns sqe.userData).perform res data op)

def complete (s : Server) (index : Nat) (res : Int) (data : List UInt8) : Except Halt Server :=
  match s.inflight[index]? with
  | none => .error .disabled
  | some sqe =>
      if sqe.op.allows s.isOpen res data then
        .ok { s.perform sqe res data with
          inflight := s.inflight.eraseIdx index
          cq := s.cq ++ [⟨sqe, res⟩] }
      else .error .disabled

theorem complete_eq_ok {s t : Server} {index : Nat} {res : Int} {data : List UInt8}
    (h : complete s index res data = .ok t) :
    ∃ sqe, s.inflight[index]? = some sqe ∧ sqe.op.allows s.isOpen res data = true ∧
      t = { s.perform sqe res data with
        inflight := s.inflight.eraseIdx index
        cq := s.cq ++ [⟨sqe, res⟩] } := by
  unfold complete at h
  split at h
  · cases h
  · next sqe hget =>
    split at h
    · next hallows => exact ⟨sqe, hget, hallows, (Except.ok.inj h).symm⟩
    · cases h

@[simp] theorem Server.perform_sq (s : Server) (sqe : Sqe) (res : Int) (data : List UInt8) :
    (s.perform sqe res data).sq = s.sq := by
  unfold Server.perform
  split
  · split <;> rfl
  · rfl

@[simp] theorem Server.perform_waiting (s : Server) (sqe : Sqe) (res : Int) (data : List UInt8) :
    (s.perform sqe res data).waiting = s.waiting := by
  unfold Server.perform
  split
  · split <;> rfl
  · rfl

/-- `DEFAULT_SVR_BUFLEN` -/
def defaultSvrBuflen : Nat := 1024

/-- `__prepare_connection`: whether it succeeds, and the connection it leaves. -/
def prepareConnection (out : Outcomes) (fd : Nat) (conn : ServerConnection) :
    Bool × ServerConnection :=
  if out.coNew then
    let conn := { conn with coro := some .created }
    let str := match conn.str with
      | some str => some str
      | none => stringInit out.connStr.1 out.connStr.2 defaultSvrBuflen
    match str with
    | none => (false, conn)
    | some str => (true, { conn with str := some str, fd := fd, action := .none, svr := true })
  else (false, conn)

def eagain : Int := 11

/-- `ACCEPT_AGAIN`: the accept is queued again, for the listening slot. -/
def acceptAgain (cfg : Config) (s : Server) : Except Halt Server := do
  let c ← ioUringPushAccept ⟨s.conns cfg.listenFd, cfg.listenFd, s.sq⟩ cfg.listenFd false
  return { s.setConn cfg.listenFd c.conn with sq := c.sq }

/-- The session an accepted descriptor begins. -/
def ServerConnection.enter (conn : ServerConnection) : ServerConnection :=
  { conn with session := ⟨conn.session.number + 1, [], []⟩ }

/-- A completed accept. -/
def handleAccept (cfg : Config) (out : Outcomes) (s : Server) (ret : Int) :
    Except Halt Server :=
  if ret < 0 then
    if ret = -eagain then acceptAgain cfg s else .error (.exit 1)
  else do
    let fd := ret.toNat
    let conn := (s.conns fd).enter
    let (ready, conn) :=
      if conn.coro.isSome then (true, conn) else prepareConnection out fd conn
    if ready then
      match conn.str with
      | none => .error (.fault .null)
      | some str => do
          let c ← ioUringPushRecv ⟨conn, fd, s.sq⟩ fd str.capacity false
          acceptAgain cfg { s.setConn fd c.conn with sq := c.sq }
    else acceptAgain cfg ((s.setConn fd conn).setOpen fd false)

/-- One turn of `io_uring_for_each_cqe`. -/
def handleCqe (cfg : Config) (out : Outcomes) (s : Server) (cqe : Cqe) : Except Halt Server :=
  let slot := cqe.sqe.userData
  let conn := s.conns slot
  if conn.action = .accept then handleAccept cfg out s cqe.res
  else do
    let r ← coResumeValue cfg out cqe.res ⟨conn, slot, s.sq⟩
    let s := { s.setConn slot r.ctx.conn with sq := r.ctx.sq }
    return if r.closed then s.setOpen r.ctx.conn.fd false else s

def step (cfg : Config) (s : Server) : Event → Except Halt Server
  | .submit =>
      if s.waiting then
        .ok { s with sq := [], inflight := s.inflight ++ s.sq, waiting := false }
      else .error .disabled
  | .complete index res data => complete s index res data
  | .handle out =>
      match s.waiting, s.cq with
      | false, cqe :: cq => handleCqe cfg out { s with cq := cq } cqe
      | _, _ => .error .disabled
  | .drained =>
      match s.waiting, s.cq with
      | false, [] => .ok { s with waiting := true }
      | _, _ => .error .disabled

/-- A handled completion is the first one. -/
theorem step_handle_eq_ok {cfg : Config} {s t : Server} {out : Outcomes}
    (h : step cfg s (.handle out) = .ok t) :
    s.waiting = false ∧ ∃ cqe cq, s.cq = cqe :: cq ∧
      handleCqe cfg out { s with cq := cq } cqe = .ok t := by
  simp only [step] at h
  split at h
  · next cqe cq hwaiting hcq => exact ⟨hwaiting, cqe, cq, hcq, h⟩
  · cases h

theorem step_submit_eq_ok {cfg : Config} {s t : Server} (h : step cfg s .submit = .ok t) :
    s.waiting = true ∧
      t = { s with sq := [], inflight := s.inflight ++ s.sq, waiting := false } := by
  simp only [step] at h
  split at h
  · next hwaiting => exact ⟨hwaiting, (Except.ok.inj h).symm⟩
  · cases h

theorem step_drained_eq_ok {cfg : Config} {s t : Server} (h : step cfg s .drained = .ok t) :
    s.waiting = false ∧ s.cq = [] ∧ t = { s with waiting := true } := by
  simp only [step] at h
  split at h
  · next hwaiting hcq => exact ⟨hwaiting, hcq, (Except.ok.inj h).symm⟩
  · cases h

/-- The server in front of its loop: all slots clear, one accept queued. -/
def Server.initial (cfg : Config) : Server where
  conns := Function.update (fun _ => .zero) cfg.listenFd { ServerConnection.zero with
    action := .accept }
  isOpen := fun fd => fd == cfg.listenFd
  sq := [⟨.accept cfg.listenFd, cfg.listenFd, false, 0⟩]
  inflight := []
  cq := []
  waiting := true

def listenLoop (cfg : Config) : Automaton.Machine Server Event Halt where
  start := fun s => s = Server.initial cfg
  step := step cfg

/-! Operations outstanding. -/

/-- All entries without a handled completion. -/
def Server.outstanding (s : Server) : List Sqe :=
  s.sq ++ s.inflight ++ s.cq.map (·.sqe)

/-- Those of one slot. -/
def Server.ops (s : Server) (slot : Nat) : List Sqe :=
  s.outstanding.filter fun sqe => sqe.userData == slot

end L4Server
