import L4Server.Accounting
import L4Server.Library.BoundedQueue

/-!
How many entries a pass over the completion queue asks of the submission queue.
What a completion asks for is read off the state it is handled in; the sum over
the completions of a pass is compared with the depth of the queue.
-/
namespace L4Server
open CMemory BoundedQueue

/-! What one completion asks for. -/

/-- The entries queued when a completion is handled: none; the accept again; a
`recv` and the accept; a `send`; a `send` and two splices. -/
inductive Load
  | none
  | again
  | accepted
  | reply
  | chain
  deriving DecidableEq, Repr

def Load.entries : Load → Nat
  | .none => 0
  | .again => 1
  | .accepted => 2
  | .reply => 1
  | .chain => 3

/-- A completed accept. -/
def acceptLoad (out : Outcomes) (s : Server) (ret : Int) : Load :=
  if ret < 0 then
    if ret = -eagain then .again else .none
  else
    let conn := (s.conns ret.toNat).enter
    let (ready, conn) :=
      if conn.coro.isSome then (true, conn) else prepareConnection out ret.toNat conn
    if ready then
      if conn.str.isSome then .accepted else .none
    else .again

def replyLoad (cfg : Config) : Reply → Load
  | .composed => if cfg.watch then .chain else .reply
  | .text _ => .reply

/-- The locals a resumption begins with. -/
def Coroutine.entry (out : Outcomes) : Coroutine → Option Locals
  | .created => httpHandlerInit out
  | .started l => some l
  | .stopped => none

/-- A completed `recv`: received bytes are answered. -/
def recvLoad (cfg : Config) (out : Outcomes) (conn : ServerConnection) (value : Int) : Load :=
  if value ≤ 0 ∨ conn.svr = false then .none
  else
    match conn.coro.bind (Coroutine.entry out), conn.str with
    | some l, some str =>
        match serveRequest cfg out value.toNat l str with
        | .ok (reply, _) => replyLoad cfg reply
        | .error _ => .none
    | _, _ => .none

def load (cfg : Config) (out : Outcomes) (s : Server) (cqe : Cqe) : Load :=
  let conn := s.conns cqe.sqe.userData
  if conn.action = .accept then acceptLoad out s cqe.res
  else if conn.action = .recv then recvLoad cfg out conn cqe.res
  else .none

/-! Pushes in front of a queue that is left open. -/

def Ctx.withSq (c : Ctx) (sq : List Sqe) : Ctx := { c with sq := sq }

def Server.withSq (s : Server) (sq : List Sqe) : Server := { s with sq := sq }

/-- A computation that queues `n` entries with `io_uring_get_sqe`. -/
abbrev AsksQueue {β : Type} (F : List Sqe → Except Halt β) (queue : β → List Sqe) (n : Nat) :
    Prop :=
  Asks queueDepth (.fault .null) F queue n

theorem Ctx.push_appends (c : Ctx) (action : Action) (steps : Nat) (op : Op) (link : Bool) :
    ∃ (d : Ctx) (sqe : Sqe), Appends queueDepth (.fault .null)
      (fun sq => (c.withSq sq).push action steps op link) [sqe] d.withSq := by
  refine ⟨{ c with conn := { c.conn with
    action := action
    totalSteps := c.conn.totalSteps + steps
    session := { c.conn.session with pushed := c.conn.session.pushed ++ op.payload } } },
    ⟨op, c.slot, link, c.conn.session.number⟩, .singleton ?_ ?_⟩
  · exact fun xs h => if_pos h
  · exact fun xs h => if_neg h

theorem pushReply_appends (cfg : Config) (out : Outcomes) (l : Locals) (c : Ctx) (reply : Reply)
    (hsvr : c.conn.svr = true) :
    ∃ (d : Ctx) (pushed : List Sqe), Appends queueDepth (.fault .null)
        (fun sq => pushReply cfg out l (c.withSq sq) reply) pushed d.withSq ∧
      pushed.length = (replyLoad cfg reply).entries := by
  unfold pushReply
  simp only [Ctx.withSq, hsvr, Bool.not_true, Bool.false_eq_true, if_false]
  cases reply with
  | text line =>
      obtain ⟨d, sqe, h⟩ := c.push_appends .send 1 (.send c.conn.fd (ascii line) false) false
      exact ⟨d, [sqe], h, rfl⟩
  | composed =>
      simp only [replyLoad]
      split
      · obtain ⟨c₁, sqe₁, h₁⟩ := c.push_appends .send 1
          (.send c.conn.fd (readBlock l.fresstr.buf out.behind l.fresstr.len) true) true
        obtain ⟨c₂, sqe₂, h₂⟩ := c₁.push_appends .splice 1
          (.splice l.res.fileFd 0 cfg.pipefds.2 (-1) (l.res.fileSz % 2 ^ 32)) true
        obtain ⟨c₃, sqe₃, h₃⟩ := c₂.push_appends .splice 1
          (.splice cfg.pipefds.1 (-1) c₂.conn.fd (-1) (l.res.fileSz % 2 ^ 32)) false
        exact ⟨c₃, [sqe₁] ++ ([sqe₂] ++ [sqe₃]), h₁.bind (h₂.bind h₃), rfl⟩
      · obtain ⟨d, sqe, h⟩ := c.push_appends .send 1
          (.send c.conn.fd (readBlock l.fresstr.buf out.behind l.fresstr.len) false) false
        exact ⟨d, [sqe], h, rfl⟩

/-- Nothing is queued. -/
theorem asks_none {β : Type} {queue : β → List Sqe} (g : List Sqe → β) (h : ∀ sq, queue (g sq) = sq) :
    AsksQueue (fun sq => .ok (g sq)) queue Load.none.entries :=
  .inr ⟨[], g, .nil _ _ g, rfl, h⟩

theorem httpHandlerLoop_asks (cfg : Config) (out : Outcomes) (value : Int) (l : Locals) (c : Ctx)
    (hl : c.conn.coro.bind (Coroutine.entry out) = some l) :
    AsksQueue (fun sq => httpHandlerLoop cfg out value l (c.withSq sq)) (fun r => r.ctx.sq)
      (if c.conn.action = .recv then recvLoad cfg out c.conn value else .none).entries := by
  unfold httpHandlerLoop
  simp only [Ctx.withSq]
  cases haction : c.conn.action with
  | recv =>
      simp only [if_true, recvBranch, recvLoad]
      by_cases hneg : value < 0
      · simp only [if_pos hneg, bind, Except.bind, pure, Except.pure]
        rw [if_pos (.inl (by omega))]
        exact asks_none _ fun sq => by simp
      · by_cases hzero : value = 0
        · simp only [if_neg hneg, if_pos hzero, bind, Except.bind, pure, Except.pure]
          rw [if_pos (.inl (by omega))]
          exact asks_none _ fun sq => by simp
        · simp only [if_neg hneg, if_neg hzero, hl]
          cases hstr : c.conn.str with
          | none => exact .inl ⟨by simp [Load.entries], _, fun _ => rfl⟩
          | some str =>
              simp only
              cases hserve : serveRequest cfg out value.toNat l str with
              | error e => exact .inl ⟨by simp [Load.entries], _, fun _ => rfl⟩
              | ok result =>
                  obtain ⟨reply, l', str'⟩ := result
                  by_cases hsvr : c.conn.svr = true
                  · obtain ⟨d, pushed, happends, hlength⟩ := pushReply_appends cfg out l'
                      { c with conn := { c.conn with str := some str' } } reply hsvr
                    refine .inr ⟨pushed, fun sq => suspend .yield l' (d.withSq sq), ?_, ?_,
                      fun sq => by simp [Ctx.withSq]⟩
                    · convert happends.map fun e => suspend .yield l' e using 2 with sq
                      simp only [Ctx.withSq, bind, Except.bind, pure, Except.pure]
                      generalize pushReply cfg out l' _ reply = result
                      cases result <;> rfl
                    · rw [if_neg (by simp [hsvr]; omega)]
                      exact hlength
                  · refine .inl ⟨by simp [Load.entries, hsvr], .fault .null, fun _ => ?_⟩
                    simp [pushReply, hsvr, bind, Except.bind]
  | none | accept | send | splice =>
      exact asks_none _ fun sq => by simp [sendBranch]

theorem coResumeValue_asks (cfg : Config) (out : Outcomes) (value : Int) (c : Ctx) :
    AsksQueue (fun sq => coResumeValue cfg out value (c.withSq sq)) (fun r => r.ctx.sq)
      (if c.conn.action = .recv then recvLoad cfg out c.conn value else .none).entries := by
  have hempty (h : c.conn.coro.bind (Coroutine.entry out) = none) :
      (if c.conn.action = .recv then recvLoad cfg out c.conn value else .none).entries = 0 := by
    split
    · unfold recvLoad
      split
      · rfl
      · rw [h]
        rfl
    · rfl
  have hloop {l : Locals} := httpHandlerLoop_asks cfg out value l c
  unfold coResumeValue
  simp only [Ctx.withSq] at hloop ⊢
  cases hcoro : c.conn.coro with
  | none => exact .inl ⟨hempty (by simp [hcoro]), _, fun _ => rfl⟩
  | some coro =>
      cases coro with
      | stopped => exact .inl ⟨hempty (by simp [hcoro, Coroutine.entry]), _, fun _ => rfl⟩
      | started l => exact hloop (by simp [hcoro, Coroutine.entry])
      | created =>
          simp only
          cases hinit : httpHandlerInit out with
          | none =>
              rw [hempty (by simp [hcoro, Coroutine.entry, hinit])]
              exact asks_none _ fun _ => rfl
          | some l => exact hloop (by simp [hcoro, Coroutine.entry, hinit])

theorem acceptAgain_appends (cfg : Config) (s : Server) :
    ∃ (t : Server) (sqe : Sqe), Appends queueDepth (.fault .null)
      (fun sq => acceptAgain cfg (s.withSq sq)) [sqe] t.withSq := by
  obtain ⟨d, sqe, h⟩ := Ctx.push_appends ⟨s.conns cfg.listenFd, cfg.listenFd, []⟩ .accept 0
    (.accept cfg.listenFd) false
  have hmap := h.map fun c => ({ s.setConn cfg.listenFd c.conn with sq := c.sq } : Server)
  exact ⟨s.setConn cfg.listenFd d.conn, sqe, hmap⟩

theorem acceptAgain_asks (cfg : Config) (s : Server) :
    AsksQueue (fun sq => acceptAgain cfg (s.withSq sq)) Server.sq Load.again.entries := by
  obtain ⟨t, sqe, h⟩ := acceptAgain_appends cfg s
  exact .inr ⟨[sqe], t.withSq, h, rfl, fun _ => rfl⟩

/-- The connection of an accepted descriptor waits for bytes, and the accept is queued again. -/
theorem entered_asks (cfg : Config) (s : Server) (fd len : Nat) (conn : ServerConnection) :
    AsksQueue (fun sq => do
        let c ← ioUringPushRecv ⟨conn, fd, sq⟩ fd len false
        acceptAgain cfg { (s.withSq sq).setConn fd c.conn with sq := c.sq })
      Server.sq Load.accepted.entries := by
  obtain ⟨c, sqe, hrecv⟩ := Ctx.push_appends ⟨conn, fd, []⟩ .recv 0 (.recv fd len) false
  obtain ⟨t, sqe', haccept⟩ := acceptAgain_appends cfg (s.setConn fd c.conn)
  have hboth := hrecv.bind
    (G := fun c : Ctx => acceptAgain cfg { s.setConn fd c.conn with sq := c.sq }) haccept
  exact .inr ⟨[sqe] ++ [sqe'], t.withSq, hboth, rfl, fun _ => rfl⟩

theorem handleAccept_asks (cfg : Config) (out : Outcomes) (s : Server) (ret : Int) :
    AsksQueue (fun sq => handleAccept cfg out (s.withSq sq) ret) Server.sq
      (acceptLoad out s ret).entries := by
  unfold handleAccept acceptLoad
  by_cases hneg : ret < 0
  · simp only [if_pos hneg]
    split
    · exact acceptAgain_asks cfg s
    · exact .inl ⟨rfl, _, fun _ => rfl⟩
  · simp only [if_neg hneg, Server.withSq]
    by_cases hsome : (s.conns ret.toNat).enter.coro.isSome = true
    · simp only [hsome, if_true]
      cases hstr : (s.conns ret.toNat).enter.str with
      | none => exact .inl ⟨rfl, _, fun _ => rfl⟩
      | some str => exact entered_asks cfg s ret.toNat str.capacity _
    · simp only [hsome, Bool.false_eq_true, if_false]
      generalize prepareConnection out ret.toNat (s.conns ret.toNat).enter = entered
      obtain ⟨ready, conn⟩ := entered
      cases ready with
      | false => exact acceptAgain_asks cfg ((s.setConn ret.toNat conn).setOpen ret.toNat false)
      | true =>
          simp only [if_true]
          cases hstr : conn.str with
          | none => exact .inl ⟨rfl, _, fun _ => rfl⟩
          | some str => exact entered_asks cfg s ret.toNat str.capacity conn

/-- Handling a completion queues what it asks for, or fails whatever is queued. -/
theorem handleCqe_asks (cfg : Config) (out : Outcomes) (s : Server) (cqe : Cqe) :
    AsksQueue (fun sq => handleCqe cfg out (s.withSq sq) cqe) Server.sq
      (load cfg out s cqe).entries := by
  have hresume := coResumeValue_asks cfg out cqe.res
    ⟨s.conns cqe.sqe.userData, cqe.sqe.userData, []⟩
  by_cases haccept : (s.conns cqe.sqe.userData).action = .accept
  · simp only [handleCqe, load, Server.withSq, haccept, if_true]
    exact handleAccept_asks cfg out s cqe.res
  · have hserver := hresume.map Server.sq (fun r => s.resumed cqe.sqe.userData s.cq r) fun _ => rfl
    simp only [load, if_neg haccept]
    convert hserver using 2 with sq
    exact handleCqe_resume (s := s.withSq sq) haccept

/-! A pass of the loop. -/

/-- The loop, and what has been asked of the queue since the last submission. -/
structure Metered where
  server : Server
  loads : List Load

def Metered.meter (cfg : Config) (m : Metered) : Event → List Load
  | .submit => []
  | .handle out => m.loads ++ (m.server.cq.head?.map (load cfg out m.server)).toList
  | .complete .. | .drained => m.loads

def meteredLoop (cfg : Config) : Automaton.Machine Metered Event Halt where
  start := fun m => m.server = Server.initial cfg ∧ m.loads = []
  step := fun m e => do
    let t ← step cfg m.server e
    return ⟨t, m.meter cfg e⟩

def entriesOf (loads : List Load) : Nat := (loads.map Load.entries).sum

theorem entriesOf_handle {cfg : Config} {m : Metered} {out : Outcomes} {cqe : Cqe} {cq : List Cqe}
    (hcq : m.server.cq = cqe :: cq) : entriesOf (m.meter cfg (.handle out)) =
      entriesOf m.loads + (load cfg out m.server cqe).entries := by
  simp [Metered.meter, hcq, entriesOf]

/-- Handling the completion, `io_uring_get_sqe` is called no more often than the
queue has entries left, so that no call returns NULL. -/
structure QueueSuffices (cfg : Config) (out : Outcomes) (s : Server) (cqe : Cqe) : Prop where
  calls : s.sq.length + appended (fun sq => handleCqe cfg out (s.withSq sq) cqe) Server.sq ≤
    queueDepth
  same : (∃ e, handleCqe cfg out (s.withSq []) cqe = .error e ∧
      handleCqe cfg out s cqe = .error e) ∨
    ∃ t t', handleCqe cfg out (s.withSq []) cqe = .ok t ∧ handleCqe cfg out s cqe = .ok t' ∧
      t'.sq = s.sq ++ t.sq

theorem entries_le (load : Load) : load.entries ≤ queueDepth := by
  cases load <;> decide

theorem queueSuffices_iff (cfg : Config) (out : Outcomes) (s : Server) (cqe : Cqe) :
    QueueSuffices cfg out s cqe ↔ s.sq.length + (load cfg out s cqe).entries ≤ queueDepth := by
  have hasks := handleCqe_asks cfg out s cqe
  have hcalls := hasks.appended_eq (entries_le _)
  constructor
  · intro h
    have := h.calls
    rwa [hcalls] at this
  · intro h
    exact ⟨by rwa [hcalls], hasks.same h⟩

/-- While a pass goes on, the queue holds what its completions have asked for. -/
structure Counted (m : Metered) : Prop where
  depth : m.server.sq.length ≤ queueDepth
  pass : m.server.waiting = false → m.server.sq.length = entriesOf m.loads

theorem counted_step {cfg : Config} {m n : Metered} {e : Event} (hm : Counted m)
    (h : (meteredLoop cfg).step m e = .ok n) : Counted n := by
  obtain ⟨t, ht, hn⟩ := bind_eq_ok.mp h
  cases hn
  cases e with
  | submit =>
      obtain ⟨-, rfl⟩ := step_submit_eq_ok ht
      exact ⟨Nat.zero_le _, fun _ => rfl⟩
  | drained =>
      obtain ⟨-, -, rfl⟩ := step_drained_eq_ok ht
      exact ⟨hm.depth, nofun⟩
  | complete index res data =>
      obtain ⟨sqe, -, -, rfl⟩ := complete_eq_ok ht
      have hsq := m.server.perform_sq sqe res data
      have hwaiting := m.server.perform_waiting sqe res data
      exact ⟨(congrArg List.length hsq).trans_le hm.depth, fun h =>
        (congrArg List.length hsq).trans (hm.pass (hwaiting.symm.trans h))⟩
  | handle out =>
      obtain ⟨hwaiting, cqe, cq, hcq, ht⟩ := step_handle_eq_ok ht
      obtain ⟨hlength, hdepth⟩ :=
        (handleCqe_asks cfg out { m.server with cq := cq } cqe).length_eq hm.depth ht
      refine ⟨hdepth, fun _ => ?_⟩
      rw [entriesOf_handle hcq, ← hm.pass hwaiting]
      exact hlength

theorem counted_reachable {cfg : Config} {m : Metered}
    (hm : Automaton.Reachable (meteredLoop cfg) m) : Counted m := by
  refine hm.invariant (P := Counted) ?_ fun _ _ _ hm _ h => counted_step hm h
  rintro m ⟨hserver, -⟩
  rw [show m = ⟨m.server, m.loads⟩ from rfl, hserver]
  exact ⟨by simp [Server.initial, queueDepth], nofun⟩

/-- In every pass the queue suffices for the next completion exactly when the
entries asked for since the last submission, its own included, are at most 1024. -/
theorem listenLoop_queue_suffices_iff (cfg : Config) (m : Metered)
    (hm : Automaton.Reachable (meteredLoop cfg) m) (out : Outcomes) (cqe : Cqe) (cq : List Cqe)
    (hpass : m.server.waiting = false) (hcq : m.server.cq = cqe :: cq) :
    QueueSuffices cfg out { m.server with cq := cq } cqe ↔
      entriesOf (m.meter cfg (.handle out)) ≤ queueDepth := by
  rw [queueSuffices_iff, entriesOf_handle hcq, ← (counted_reachable hm).pass hpass]
  rfl

theorem meteredLoop_step {cfg : Config} {s t : Server} {e : Event} (h : step cfg s e = .ok t)
    {loads : List Load} (hm : Automaton.Reachable (meteredLoop cfg) ⟨s, loads⟩) :
    Automaton.Reachable (meteredLoop cfg) ⟨t, Metered.meter cfg ⟨s, loads⟩ e⟩ := by
  refine hm.step trivial (e := e) ?_
  change step cfg s e >>= _ = _
  rw [h]
  rfl

theorem meteredLoop_reachable {cfg : Config} {s : Server}
    (hs : Automaton.Reachable (listenLoop cfg) s) :
    ∃ loads, Automaton.Reachable (meteredLoop cfg) ⟨s, loads⟩ := by
  induction hs with
  | start h => exact ⟨[], .start ⟨h, rfl⟩⟩
  | @step s t e _ _ ht ih =>
      obtain ⟨loads, hm⟩ := ih
      exact ⟨_, meteredLoop_step ht hm⟩

theorem listenLoop_queue_suffices_client :
    ∃ m cqe cq, Automaton.Reachable (meteredLoop bareConfig) m ∧ m.server.waiting = false ∧
      m.server.cq = cqe :: cq ∧
      (QueueSuffices bareConfig .granted { m.server with cq := cq } cqe ↔
        entriesOf (m.meter bareConfig (.handle .granted)) ≤ queueDepth) := by
  obtain ⟨s, hs, hview⟩ := exists_run bareConfig (clientEvents 1 (ascii "x"))
    (f := fun s => (s.waiting, s.cq.length)) (b := (false, 1)) (by decide +kernel)
  obtain ⟨hpass, hlength⟩ := Prod.mk.inj hview
  obtain ⟨cqe, cq, hcq⟩ : ∃ cqe cq, s.cq = cqe :: cq := by
    cases hcq : s.cq with
    | nil => simp [hcq] at hlength
    | cons cqe cq => exact ⟨cqe, cq, rfl⟩
  obtain ⟨loads, hm⟩ := meteredLoop_reachable (Automaton.reachable_of_run rfl hs)
  exact ⟨_, cqe, cq, hm, hpass, hcq,
    listenLoop_queue_suffices_iff bareConfig _ hm .granted cqe cq hpass hcq⟩

/-! Many clients at once. -/

theorem step_handle {cfg : Config} {out : Outcomes} {s : Server} {cqe : Cqe} {cq : List Cqe}
    (hwaiting : s.waiting = false) (hcq : s.cq = cqe :: cq) :
    step cfg s (.handle out) = handleCqe cfg out { s with cq := cq } cqe := by
  simp only [step]
  split
  · next cqe' cq' _ h =>
    obtain ⟨rfl, rfl⟩ := List.cons.inj (hcq.symm.trans h)
    rfl
  · next h => exact absurd hcq (h _ _ hwaiting)

theorem step_submit {cfg : Config} {s : Server} (h : s.waiting = true) :
    step cfg s .submit =
      .ok { s with sq := [], inflight := s.inflight ++ s.sq, waiting := false } :=
  if_pos h

/-- A run of the loop ends in a pass that has handled, or finds, no more
completions than the completion ring holds, and `io_uring_get_sqe` returns NULL. -/
def Overflows (cfg : Config) : Prop :=
  ∃ m out cqe cq, Automaton.Reachable (meteredLoop cfg) m ∧ m.server.waiting = false ∧
    m.server.cq = cqe :: cq ∧ m.loads.length + m.server.cq.length ≤ 2 * queueDepth ∧
    ¬ QueueSuffices cfg out { m.server with cq := cq } cqe ∧
    step cfg m.server (.handle out) = .error (.fault .null)

/-- A client that has connected and whose first `recv` is outstanding or complete. -/
structure Fresh (conn : ServerConnection) : Prop where
  action : conn.action = .recv
  coro : conn.coro = some .created
  svr : conn.svr = true
  str : ∃ str, conn.str = some str ∧ str.capacity ≠ 1

/-- A request of one byte is answered with a single `send`. -/
theorem fresh_appends (cfg : Config) {conn : ServerConnection} (slot : Nat) (h : Fresh conn) :
    ∃ r sqe, Appends queueDepth (.fault .null)
      (fun sq => coResumeValue cfg .granted 1 ⟨conn, slot, sq⟩) [sqe]
      (fun sq => ⟨Ctx.withSq r sq, false⟩) := by
  obtain ⟨str, hstr, hcapacity⟩ := h.str
  generalize hl : (⟨.cleared, .cleared (.empty (max (oneShl (clzl 1024)) 64)),
    .empty (max (oneShl (clzl 2048)) 64)⟩ : Locals) = l
  have hinit : httpHandlerInit .granted = some l := by
    rw [← hl]
    rfl
  have hparse : httpParseRequest ⟨str.buf, [], l.req, 0⟩ 1 = .ok (0, ⟨str.buf, [], l.req, 0⟩) := by
    rw [← hl]
    rfl
  have hserve : serveRequest cfg .granted 1 l str =
      .ok (.text response400, l, str.write str.buf) := by
    simp only [serveRequest, if_neg (Ne.symm hcapacity), hparse]
    rfl
  obtain ⟨d, pushed, happends, hlength⟩ := pushReply_appends cfg .granted l
    ⟨{ conn with str := some (str.write str.buf) }, slot, []⟩ (.text response400) h.svr
  obtain ⟨sqe, rfl⟩ := List.length_eq_one_iff.mp hlength
  refine ⟨{ d with conn := { d.conn with coro := some (.started l) } }, sqe, ?_⟩
  convert happends.map fun e => suspend .yield l e using 2 with sq
  · simp only [coResumeValue, h.coro, hinit, httpHandlerLoop, h.action, recvBranch, hstr]
    rw [if_neg (by decide), if_neg (by decide), Int.toNat_one]
    simp only [hserve, bind, Except.bind, pure, Except.pure, Ctx.withSq]
    generalize pushReply cfg .granted l _ _ = result
    cases result <;> rfl
  · rfl

def crowdRecv (i : Nat) : Sqe :=
  ⟨.recv (7 + i) (max (oneShl (clzl defaultSvrBuflen)) 64), 7 + i, false, 1⟩

def crowdAccept : Sqe := ⟨.accept 3, 3, false, 0⟩

/-- In the pass behind a submission, `n` clients from descriptor 7 on are fresh. -/
structure Crowd (n : Nat) (s : Server) : Prop where
  waiting : s.waiting = false
  sq : s.sq = []
  cq : s.cq = []
  inflight : s.inflight = (List.range n).map crowdRecv ++ [crowdAccept]
  fresh : ∀ i < n, Fresh (s.conns (7 + i))
  unused : ∀ i ≥ n, s.conns (7 + i) = .zero ∧ s.isOpen (7 + i) = false
  listening : (s.conns 3).action = .accept ∧ (s.conns 3).session.number = 0

def crowdConfig (watch : Bool) : Config := { bareConfig with watch := watch }

/-- The connection prepared for a client. -/
def crowdClient (fd : Nat) : ServerConnection :=
  { ServerConnection.zero.enter with
    fd := fd
    coro := some .created
    str := some (.empty (max (oneShl (clzl defaultSvrBuflen)) 64))
    svr := true }

theorem crowdClient_fresh (fd : Nat) : Fresh { crowdClient fd with action := .recv } where
  action := rfl
  coro := rfl
  svr := rfl
  str := ⟨_, rfl, by decide⟩

/-- A completed accept of an unused descriptor. -/
theorem handleAccept_crowd (watch : Bool) (n : Nat) {s : Server} (hsq : s.sq = [])
    (hzero : s.conns (7 + n) = .zero) (hnumber : (s.conns 3).session.number = 0) :
    ∃ conn, handleAccept (crowdConfig watch) .granted s (7 + n) =
        .ok { s with
          conns := Function.update (Function.update s.conns (7 + n) conn) 3
            { s.conns 3 with action := .accept }
          sq := [crowdRecv n, crowdAccept] } ∧ Fresh conn := by
  have hfd : ((7 : Int) + n).toNat = 7 + n := by omega
  refine ⟨{ crowdClient (7 + n) with action := .recv }, ?_, crowdClient_fresh _⟩
  unfold handleAccept
  rw [if_neg (by omega)]
  have hother : (3 : Nat) ≠ 7 + n := by omega
  simp [hfd, hzero, hsq, ServerConnection.zero, ServerConnection.enter, prepareConnection,
    Outcomes.granted, stringInit_granted, ioUringPushRecv, ioUringPushAccept, Ctx.push,
    acceptAgain, crowdConfig, bareConfig, queueDepth, Server.setConn, bind, Except.bind, pure,
    Except.pure, Function.update_of_ne hother, Op.payload, crowdRecv, crowdAccept, hnumber,
    StringT.empty]
  rw [show (⟨0, (s.conns 3).session.pushed, (s.conns 3).session.taken⟩ : Session) =
    (s.conns 3).session by rw [← hnumber]]
  rfl

/-- One more client connects. -/
theorem Crowd.connect {watch : Bool} {n : Nat} {s : Server} (h : Crowd n s)
    (hm : Automaton.Reachable (meteredLoop (crowdConfig watch)) ⟨s, []⟩) :
    ∃ t, Automaton.Reachable (meteredLoop (crowdConfig watch)) ⟨t, []⟩ ∧ Crowd (n + 1) t := by
  obtain ⟨hwaiting, hsq, hcq, hinflight, hfresh, hunused, hlistening, hnumber⟩ := h
  obtain ⟨hzero, hclosed⟩ := hunused n (Nat.le_refl n)
  have hget : s.inflight[n]? = some crowdAccept := by
    rw [hinflight, List.getElem?_append_right (by simp)]
    simp
  have herase : s.inflight.eraseIdx n = (List.range n).map crowdRecv := by
    rw [hinflight, List.eraseIdx_append_of_length_le (by simp)]
    simp
  have hcomplete : step (crowdConfig watch) s (.complete n (7 + n) []) =
      .ok { s.setOpen (7 + n) true with
        inflight := (List.range n).map crowdRecv
        cq := [⟨crowdAccept, 7 + n⟩] } := by
    have hfd : ((7 : Int) + n).toNat = 7 + n := by omega
    have hpos : ¬ (7 : Int) + n < 0 := by omega
    simp only [step, complete, hget, herase, hcq]
    simp [crowdAccept, Op.allows, Server.perform, hfd, hpos, hclosed]
  obtain ⟨conn, haccept, hconn⟩ := handleAccept_crowd watch n
    (s := { s.setOpen (7 + n) true with inflight := (List.range n).map crowdRecv, cq := [] })
    hsq hzero hnumber
  have hhandle : step (crowdConfig watch) { s.setOpen (7 + n) true with
      inflight := (List.range n).map crowdRecv
      cq := [⟨crowdAccept, 7 + n⟩] } (.handle .granted) = .ok { s.setOpen (7 + n) true with
        conns := Function.update (Function.update s.conns (7 + n) conn) 3
          { s.conns 3 with action := .accept }
        sq := [crowdRecv n, crowdAccept]
        inflight := (List.range n).map crowdRecv
        cq := [] } := by
    simp only [Server.setOpen, hwaiting] at haccept
    simp only [step, Server.setOpen, hwaiting]
    exact (if_pos hlistening).trans haccept
  have hdrained : step (crowdConfig watch) { s.setOpen (7 + n) true with
      conns := Function.update (Function.update s.conns (7 + n) conn) 3
        { s.conns 3 with action := .accept }
      sq := [crowdRecv n, crowdAccept]
      inflight := (List.range n).map crowdRecv
      cq := [] } .drained = .ok { s.setOpen (7 + n) true with
        conns := Function.update (Function.update s.conns (7 + n) conn) 3
          { s.conns 3 with action := .accept }
        sq := [crowdRecv n, crowdAccept]
        inflight := (List.range n).map crowdRecv
        cq := []
        waiting := true } := by
    simp only [step, Server.setOpen, hwaiting]
  have hwait := meteredLoop_step hdrained
    (meteredLoop_step hhandle (meteredLoop_step hcomplete hm))
  refine ⟨_, meteredLoop_step (step_submit rfl) hwait, ?_⟩
  · have hother (i : Nat) (hi : i ≠ n) :
        Function.update (Function.update s.conns (7 + n) conn) 3
          { s.conns 3 with action := .accept } (7 + i) = s.conns (7 + i) := by
      rw [Function.update_of_ne (by omega), Function.update_of_ne (by omega)]
    constructor
    case waiting | sq | cq => rfl
    case inflight => simp [List.range_succ]
    case fresh =>
      intro i hi
      by_cases hin : i = n
      · subst hin
        simp only [Function.update_of_ne (show 7 + i ≠ 3 by omega), Function.update_self]
        exact hconn
      · simp only [hother i hin]
        exact hfresh i (by omega)
    case unused =>
      intro i hi
      simp only [hother i (by omega), Server.setOpen,
        Function.update_of_ne (show 7 + i ≠ 7 + n by omega)]
      exact hunused i (by omega)
    case listening => simp [hnumber]

theorem exists_crowd (watch : Bool) (n : Nat) :
    ∃ s, Automaton.Reachable (meteredLoop (crowdConfig watch)) ⟨s, []⟩ ∧ Crowd n s := by
  induction n with
  | zero =>
      have hstart : Automaton.Reachable (meteredLoop (crowdConfig watch))
          ⟨Server.initial (crowdConfig watch), []⟩ := .start ⟨rfl, rfl⟩
      refine ⟨_, meteredLoop_step (step_submit rfl) hstart, ?_⟩
      constructor
      case waiting | sq | cq | inflight => rfl
      case fresh => nofun
      case unused =>
        intro i _
        have hother : 7 + i ≠ 3 := by omega
        simp [Server.initial, crowdConfig, bareConfig, hother]
      case listening => simp [Server.initial, crowdConfig, bareConfig, ServerConnection.zero]
  | succ n ih =>
      obtain ⟨s, hm, hs⟩ := ih
      exact hs.connect hm

def crowdCqe (i : Nat) : Cqe := ⟨crowdRecv i, 1⟩

/-- The first `k` of `n` clients have sent a byte. -/
structure Sent (n k : Nat) (s : Server) : Prop where
  waiting : s.waiting = false
  sq : s.sq = []
  cq : s.cq = ((List.range n).take k).map crowdCqe
  inflight : s.inflight = ((List.range n).drop k).map crowdRecv ++ [crowdAccept]
  fresh : ∀ i < n, Fresh (s.conns (7 + i))

theorem Sent.next {watch : Bool} {n k : Nat} {s : Server} (h : Sent n k s) (hk : k < n)
    (hm : Automaton.Reachable (meteredLoop (crowdConfig watch)) ⟨s, []⟩) :
    ∃ t, Automaton.Reachable (meteredLoop (crowdConfig watch)) ⟨t, []⟩ ∧ Sent n (k + 1) t := by
  obtain ⟨hwaiting, hsq, hcq, hinflight, hfresh⟩ := h
  have hrest : (List.range n).drop k = k :: (List.range n).drop (k + 1) := by
    rw [List.drop_eq_getElem_cons (by simpa using hk), List.getElem_range]
  have htaken : (List.range n).take (k + 1) = (List.range n).take k ++ [k] := by
    rw [List.take_add_one, List.getElem?_range hk]
    rfl
  rw [hrest, List.map_cons, List.cons_append] at hinflight
  have hallows : (crowdRecv k).op.allows s.isOpen 1 (ascii "x") = true := by
    simp only [crowdRecv, Op.allows]
    decide
  have hcomplete : step (crowdConfig watch) s (.complete 0 1 (ascii "x")) =
      .ok { s.perform (crowdRecv k) 1 (ascii "x") with
        inflight := s.inflight.eraseIdx 0
        cq := s.cq ++ [⟨crowdRecv k, 1⟩] } := by
    simp only [step, complete]
    rw [hinflight]
    exact if_pos hallows
  refine ⟨_, meteredLoop_step hcomplete hm, ?_⟩
  constructor
  case waiting => exact (s.perform_waiting _ _ _).trans hwaiting
  case sq => exact (s.perform_sq _ _ _).trans hsq
  case cq => simp only [hcq, htaken, List.map_append, List.map_cons, List.map_nil, crowdCqe]
  case inflight => simp only [hinflight, List.eraseIdx_cons_zero]
  case fresh =>
    intro i hi
    by_cases hik : i = k
    · subst hik
      obtain ⟨haction, hcoro, hsvr, str, hstr, hcapacity⟩ := hfresh i hi
      simp only [Server.perform, crowdRecv, Server.setConn, Function.update_self,
        ServerConnection.perform, hstr, Option.map_some]
      exact ⟨haction, hcoro, hsvr, _, rfl, hcapacity⟩
    · simp only [Server.perform, crowdRecv, Server.setConn,
        Function.update_of_ne (show 7 + i ≠ 7 + k by omega)]
      exact hfresh i hi

theorem exists_sent (watch : Bool) {n k : Nat} (hk : k ≤ n) :
    ∃ s, Automaton.Reachable (meteredLoop (crowdConfig watch)) ⟨s, []⟩ ∧ Sent n k s := by
  induction k with
  | zero =>
      obtain ⟨s, hm, hs⟩ := exists_crowd watch n
      exact ⟨s, hm, hs.waiting, hs.sq, hs.cq, hs.inflight, hs.fresh⟩
  | succ k ih =>
      obtain ⟨s, hm, hs⟩ := ih (by omega)
      exact hs.next (by omega) hm

/-- The pass has answered the first `j` of `n` clients. -/
structure Answered (n j : Nat) (m : Metered) : Prop where
  waiting : m.server.waiting = false
  sq : m.server.sq.length = j
  loads : m.loads.length = j
  cq : m.server.cq = ((List.range n).drop j).map crowdCqe
  fresh : ∀ i, j ≤ i → i < n → Fresh (m.server.conns (7 + i))

/-- Handling the byte of the next client. -/
theorem handleCqe_crowd (cfg : Config) {s : Server} {j : Nat} (h : Fresh (s.conns (7 + j))) :
    ∃ t sqe, Appends queueDepth (.fault .null)
        (fun sq => handleCqe cfg .granted (s.withSq sq) (crowdCqe j)) [sqe] (Server.withSq t) ∧
      t.waiting = s.waiting ∧ t.cq = s.cq ∧ ∀ i, i ≠ j → t.conns (7 + i) = s.conns (7 + i) := by
  obtain ⟨r, sqe, hr⟩ := fresh_appends cfg (7 + j) h
  have hserver := hr.map fun r => s.resumed (7 + j) s.cq r
  refine ⟨s.resumed (7 + j) s.cq ⟨r, false⟩, sqe, ?_, rfl, rfl, ?_⟩
  · convert hserver using 2 with sq
    · refine handleCqe_resume (s := s.withSq sq) ?_
      rw [show ((s.withSq sq).conns (crowdCqe j).sqe.userData).action = .recv from h.action]
      decide
    · rfl
  · intro i hi
    exact Function.update_of_ne (by omega) _ _

theorem Answered.next {watch : Bool} {n j : Nat} {m : Metered} (h : Answered n j m) (hj : j < n)
    (hroom : j < queueDepth) (hm : Automaton.Reachable (meteredLoop (crowdConfig watch)) m) :
    ∃ m', Automaton.Reachable (meteredLoop (crowdConfig watch)) m' ∧ Answered n (j + 1) m' := by
  obtain ⟨s, loads⟩ := m
  obtain ⟨hwaiting, hsq, hloads, hcq, hfresh⟩ := h
  simp only at hwaiting hsq hloads hcq hfresh
  rw [List.drop_eq_getElem_cons (by simpa using hj), List.getElem_range, List.map_cons] at hcq
  obtain ⟨t, sqe, happends, htwaiting, htcq, hconns⟩ := handleCqe_crowd (crowdConfig watch)
    (s := { s with cq := ((List.range n).drop (j + 1)).map crowdCqe }) (hfresh j (Nat.le_refl j) hj)
  have hhandle : step (crowdConfig watch) s (.handle .granted) = .ok (t.withSq (s.sq ++ [sqe])) := by
    rw [step_handle hwaiting hcq]
    exact happends.room s.sq (by rw [hsq]; exact hroom)
  refine ⟨_, meteredLoop_step hhandle hm, ?_⟩
  constructor
  case waiting => exact htwaiting.trans hwaiting
  case sq => simp [Server.withSq, hsq]
  case loads => simp [Metered.meter, hcq, hloads]
  case cq => exact htcq
  case fresh =>
    intro i hi hin
    have hother := hconns i (by omega)
    simp only at hother
    simp only [Server.withSq, hother]
    exact hfresh i (by omega) hin

theorem exists_answered (watch : Bool) {n j : Nat} (hj : j ≤ n) (hroom : j ≤ queueDepth) :
    ∃ m, Automaton.Reachable (meteredLoop (crowdConfig watch)) m ∧ Answered n j m := by
  induction j with
  | zero =>
      obtain ⟨s, hm, hs⟩ := exists_sent watch (Nat.le_refl n)
      refine ⟨_, hm, hs.waiting, by simp [hs.sq], rfl, ?_, fun i _ hi => hs.fresh i hi⟩
      rw [hs.cq, List.drop_zero, List.take_of_length_le (by simp)]
  | succ j ih =>
      obtain ⟨m, hm, hs⟩ := ih (by omega) (by omega)
      exact hs.next (by omega) (by omega) hm

/-- With 1025 clients heard in one pass, the last one finds the queue full. -/
theorem crowd_overflows (watch : Bool) : Overflows (crowdConfig watch) := by
  obtain ⟨⟨s, loads⟩, hm, hs⟩ := exists_answered watch (n := 1025) (j := 1024) (by omega)
    (Nat.le_refl _)
  obtain ⟨hwaiting, hsq, hloads, hcq, hfresh⟩ := hs
  simp only at hwaiting hsq hloads hcq hfresh
  rw [show ((List.range 1025).drop 1024).map crowdCqe = [crowdCqe 1024] by decide +kernel] at hcq
  obtain ⟨t, sqe, happends, -⟩ := handleCqe_crowd (crowdConfig watch)
    (s := { s with cq := [] }) (hfresh 1024 (Nat.le_refl _) (by omega))
  refine ⟨⟨s, loads⟩, .granted, crowdCqe 1024, [], hm, hwaiting, hcq, ?_, ?_, ?_⟩
  · simp [hloads, hcq, queueDepth]
  · intro hsuffices
    have hcalls := hsuffices.calls
    have hone : appended (fun sq => handleCqe (crowdConfig watch) .granted
        (({ s with cq := [] } : Server).withSq sq) (crowdCqe 1024)) Server.sq = 1 :=
      Asks.appended_eq (.inr ⟨[sqe], t.withSq, happends, rfl, fun _ => rfl⟩) (by decide)
    rw [hone, show ({ s with cq := [] } : Server).sq.length = 1024 from hsq] at hcalls
    exact absurd hcalls (by decide)
  · rw [step_handle hwaiting hcq]
    exact happends.full s.sq (by rw [hsq]; decide) (by rw [hsq, List.length_singleton]; decide)

theorem listenLoop_queue_overflows :
    Overflows (crowdConfig false) ∧ Overflows (crowdConfig true) :=
  ⟨crowd_overflows false, crowd_overflows true⟩

end L4Server
