import L4Server.ListenLoop

/-!
What handling a completion can do, said once for all results about runs: what a
reply queues, the cases of a resumption for either kind of completion, and
those of a completed accept.
-/
namespace L4Server
open CMemory

/-- From `c` to `d` the entries `pushed` have been queued, and nothing else but
the action, the step count and the ghost record of the connection has changed. -/
structure Queued (c d : Ctx) (pushed : List Sqe) : Prop where
  slot : d.slot = c.slot
  sq : d.sq = c.sq ++ pushed
  fd : d.conn.fd = c.conn.fd
  curSteps : d.conn.curSteps = c.conn.curSteps
  totalSteps : d.conn.totalSteps = c.conn.totalSteps + pushed.length
  coro : d.conn.coro = c.conn.coro
  svr : d.conn.svr = c.conn.svr
  str : d.conn.str = c.conn.str
  action : d.conn.action = .send ∨ d.conn.action = .splice
  number : d.conn.session.number = c.conn.session.number
  taken : d.conn.session.taken = c.conn.session.taken
  payload : d.conn.session.pushed =
    c.conn.session.pushed ++ pushed.flatMap fun sqe => sqe.op.payload
  transfers : ∀ sqe ∈ pushed, sqe.op.isTransfer = true ∧ sqe.userData = c.slot ∧
    sqe.session = c.conn.session.number

theorem Queued.trans {c d e : Ctx} {ps qs : List Sqe} (h : Queued c d ps) (k : Queued d e qs) :
    Queued c e (ps ++ qs) where
  slot := k.slot.trans h.slot
  sq := by rw [k.sq, h.sq, List.append_assoc]
  fd := k.fd.trans h.fd
  curSteps := k.curSteps.trans h.curSteps
  totalSteps := by rw [k.totalSteps, h.totalSteps, List.length_append, Nat.add_assoc]
  coro := k.coro.trans h.coro
  svr := k.svr.trans h.svr
  str := k.str.trans h.str
  action := k.action
  number := k.number.trans h.number
  taken := k.taken.trans h.taken
  payload := by rw [k.payload, h.payload, List.flatMap_append, List.append_assoc]
  transfers := by
    intro sqe hmem
    rcases List.mem_append.mp hmem with hp | hq
    · exact h.transfers sqe hp
    · obtain ⟨htransfer, huser, hsession⟩ := k.transfers sqe hq
      exact ⟨htransfer, huser.trans h.slot, hsession.trans h.number⟩

/-- One push of a transfer. -/
theorem Ctx.push_queued {c d : Ctx} {action : Action} {op : Op} {link : Bool}
    (h : c.push action 1 op link = .ok d) (haction : action = .send ∨ action = .splice)
    (hop : op.isTransfer = true) :
    Queued c d [⟨op, c.slot, link, c.conn.session.number⟩] := by
  obtain rfl := Ctx.push_eq_ok h
  constructor <;> simp [haction, hop]

theorem ioUringPushSend_queued {c d : Ctx} {fd : Nat} {data : List UInt8} {msgMore link : Bool}
    (h : ioUringPushSend c fd data msgMore link = .ok d) :
    Queued c d [⟨.send fd data msgMore, c.slot, link, c.conn.session.number⟩] :=
  Ctx.push_queued h (.inl rfl) rfl

theorem ioUringPushSplice_queued {c d : Ctx} {fdIn offIn fdOut offOut : Int} {len : Nat}
    {link : Bool} (h : ioUringPushSplice c fdIn offIn fdOut offOut len link = .ok d) :
    Queued c d [⟨.splice fdIn offIn fdOut offOut (len % 2 ^ 32), c.slot, link,
      c.conn.session.number⟩] :=
  Ctx.push_queued h (.inr rfl) rfl

/-- The text a reply consists of, as far as it is sent from memory. -/
def Reply.bytes (out : Outcomes) (l : Locals) : Reply → List UInt8
  | .text line => ascii line
  | .composed => readBlock l.fresstr.buf out.behind l.fresstr.len

/-- The entries of a reply: one send, in front of two splices where the build
watches its files and the response is a composed one. -/
def replySqes (cfg : Config) (out : Outcomes) (l : Locals) (c : Ctx) (reply : Reply) :
    List Sqe :=
  let sqe (op : Op) (link : Bool) : Sqe := ⟨op, c.slot, link, c.conn.session.number⟩
  if cfg.watch ∧ reply = .composed then
    [sqe (.send c.conn.fd (reply.bytes out l) true) true,
     sqe (.splice l.res.fileFd 0 cfg.pipefds.2 (-1) (l.res.fileSz % 2 ^ 32)) true,
     sqe (.splice cfg.pipefds.1 (-1) c.conn.fd (-1) (l.res.fileSz % 2 ^ 32)) false]
  else [sqe (.send c.conn.fd (reply.bytes out l) false) false]

theorem pushReply_queued {cfg : Config} {out : Outcomes} {l : Locals} {c d : Ctx}
    {reply : Reply} (h : pushReply cfg out l c reply = .ok d) :
    Queued c d (replySqes cfg out l c reply) := by
  unfold pushReply at h
  split at h
  · cases h
  cases reply with
  | text line => simpa [replySqes, Reply.bytes] using ioUringPushSend_queued h
  | composed =>
      simp only at h
      split at h
      · next hwatch =>
        obtain ⟨c₁, h₁, h⟩ := bind_eq_ok.mp h
        obtain ⟨c₂, h₂, h₃⟩ := bind_eq_ok.mp h
        have q₁ := ioUringPushSend_queued h₁
        have q₂ := ioUringPushSplice_queued h₂
        have q₃ := ioUringPushSplice_queued h₃
        have q := (q₁.trans q₂).trans q₃
        simpa [replySqes, Reply.bytes, hwatch, q₁.slot, q₁.number, q₁.fd, q₂.slot, q₂.number, q₂.fd]
          using q
      · next hwatch => simpa [replySqes, Reply.bytes, hwatch] using ioUringPushSend_queued h

theorem replySqes_ne_nil (cfg : Config) (out : Outcomes) (l : Locals) (c : Ctx) (reply : Reply) :
    replySqes cfg out l c reply ≠ [] := by
  unfold replySqes
  split <;> simp

/-- The locals a resumption starts from. -/
inductive Enters (out : Outcomes) : Option Coroutine → Locals → Prop
  | init {l : Locals} : httpHandlerInit out = some l → Enters out (some .created) l
  | again (l : Locals) : Enters out (some (.started l)) l

/-- A turn that serves received bytes, from `c` with locals `l` to `d`. -/
inductive Served (cfg : Config) (out : Outcomes) (yielded : Nat) (l : Locals) (c : Ctx)
    (l' : Locals) (d : Ctx) : Prop
  | intro {str str' : StringT} {reply : Reply} : c.conn.str = some str →
      serveRequest cfg out yielded l str = .ok (reply, l', str') →
      pushReply cfg out l' { c with conn := { c.conn with str := some str' } } reply = .ok d →
      Served cfg out yielded l c l' d

/-- The cases of a resumption after a `recv`. -/
inductive RecvTurn (cfg : Config) (out : Outcomes) (value : Int) (c : Ctx) : Resumed → Prop
  | stopped : c.conn.coro = some .created → httpHandlerInit out = none →
      RecvTurn cfg out value c ⟨{ c with conn := { c.conn with coro := some .stopped } }, false⟩
  | silent {l : Locals} : value < 0 → Enters out c.conn.coro l →
      RecvTurn cfg out value c (suspend .yield l c)
  | reset {l : Locals} : value = 0 → Enters out c.conn.coro l →
      RecvTurn cfg out value c (suspend .reset l c)
  | served {l l' : Locals} {d : Ctx} : 0 < value → Enters out c.conn.coro l →
      Served cfg out value.toNat l c l' d → RecvTurn cfg out value c (suspend .yield l' d)

theorem httpHandlerLoop_recv {cfg : Config} {out : Outcomes} {value : Int} {c : Ctx}
    {l : Locals} {r : Resumed} (haction : c.conn.action = .recv) (hl : Enters out c.conn.coro l)
    (h : httpHandlerLoop cfg out value l c = .ok r) : RecvTurn cfg out value c r := by
  unfold httpHandlerLoop at h
  rw [haction] at h
  obtain ⟨⟨exit, l', d⟩, hbranch, hr⟩ := bind_eq_ok.mp h
  obtain rfl : suspend exit l' d = r := Except.ok.inj hr
  unfold recvBranch at hbranch
  split at hbranch
  · next hneg =>
    cases hbranch
    exact .silent hneg hl
  · split at hbranch
    · next hzero =>
      cases hbranch
      exact .reset hzero hl
    · next hneg hzero =>
      split at hbranch
      · cases hbranch
      · next str hstr =>
        obtain ⟨⟨reply, l₁, str'⟩, hserve, hbranch⟩ := bind_eq_ok.mp hbranch
        obtain ⟨d', hpush, hbranch⟩ := bind_eq_ok.mp hbranch
        cases hbranch
        exact .served (by omega) hl (.intro hstr hserve hpush)

theorem coResumeValue_recv {cfg : Config} {out : Outcomes} {value : Int} {c : Ctx}
    {r : Resumed} (haction : c.conn.action = .recv) (h : coResumeValue cfg out value c = .ok r) :
    RecvTurn cfg out value c r := by
  unfold coResumeValue at h
  split at h
  · cases h
  · cases h
  · next hcoro =>
    split at h
    · next hinit =>
      cases h
      exact .stopped hcoro hinit
    · next l hinit => exact httpHandlerLoop_recv haction (hcoro ▸ .init hinit) h
  · next l hcoro => exact httpHandlerLoop_recv haction (hcoro ▸ .again l) h

/-- A resumption after a transfer counts it, and resets after the last one. -/
theorem coResumeValue_transfer {cfg : Config} {out : Outcomes} {value : Int} {c : Ctx}
    {l : Locals} {r : Resumed} (haction : c.conn.action = .send ∨ c.conn.action = .splice)
    (hcoro : c.conn.coro = some (.started l)) (h : coResumeValue cfg out value c = .ok r) :
    r = suspend (if c.conn.curSteps + 1 = c.conn.totalSteps then .reset else .yield) l
      { c with conn := { c.conn with curSteps := c.conn.curSteps + 1 } } := by
  unfold coResumeValue at h
  rw [hcoro] at h
  simp only [httpHandlerLoop] at h
  rcases haction with haction | haction <;> rw [haction] at h <;> exact (Except.ok.inj h).symm

/-- A served request: what it queues, and that the rest of the connection is kept. -/
theorem Served.queued {cfg : Config} {out : Outcomes} {yielded : Nat} {l l' : Locals}
    {c d : Ctx} (h : Served cfg out yielded l c l' d) :
    ∃ str str' reply, c.conn.str = some str ∧
      serveRequest cfg out yielded l str = .ok (reply, l', str') ∧
      Queued { c with conn := { c.conn with str := some str' } } d
        (replySqes cfg out l' c reply) := by
  obtain ⟨hstr, hserve, hpush⟩ := h
  exact ⟨_, _, _, hstr, hserve, pushReply_queued hpush⟩

/-! What a resumption does whatever its case. -/

/-- It queues transfers for its own slot, and keeps the slot prepared. -/
structure SlotResumed (c : Ctx) (r : Resumed) : Prop where
  pushed : ∃ pushed, r.ctx.sq = c.sq ++ pushed ∧
    ∀ sqe ∈ pushed, sqe.op.isTransfer = true ∧ sqe.userData = c.slot
  fd : r.ctx.conn.fd = c.conn.fd
  action : c.conn.action ≠ .accept → r.ctx.conn.action ≠ .accept
  coro : r.ctx.conn.coro.isSome = true
  str : c.conn.str.isSome = true → r.ctx.conn.str.isSome = true

theorem suspend_resumed {c d : Ctx} {exit : Exit} {l : Locals} (pushed : List Sqe)
    (hsq : d.sq = c.sq ++ pushed)
    (hpushed : ∀ sqe ∈ pushed, sqe.op.isTransfer = true ∧ sqe.userData = c.slot)
    (hfd : d.conn.fd = c.conn.fd) (haction : c.conn.action ≠ .accept → d.conn.action ≠ .accept)
    (hstr : c.conn.str.isSome = true → d.conn.str.isSome = true) :
    SlotResumed c (suspend exit l d) := by
  refine ⟨⟨pushed, by rw [suspend_sq, hsq], hpushed⟩, by rw [suspend_fd, hfd], ?_, ?_, ?_⟩
  all_goals cases exit
  · exact haction
  · exact haction
  · rfl
  · rfl
  · simpa [suspend, ServerConnection.reset] using hstr
  · exact hstr

theorem RecvTurn.resumed {cfg : Config} {out : Outcomes} {value : Int} {c : Ctx} {r : Resumed}
    (h : RecvTurn cfg out value c r) : SlotResumed c r := by
  cases h with
  | stopped => exact ⟨⟨[], by simp, by simp⟩, rfl, id, rfl, id⟩
  | silent | reset => exact suspend_resumed [] (by simp) (by simp) rfl id id
  | served _ _ hserved =>
      obtain ⟨str, str', reply, -, -, hq⟩ := hserved.queued
      refine suspend_resumed _ hq.sq (fun sqe hmem => ?_) hq.fd (fun _ => ?_) fun _ => ?_
      · exact ⟨(hq.transfers sqe hmem).1, (hq.transfers sqe hmem).2.1⟩
      · rcases hq.action with h | h <;> simp [h]
      · rw [hq.str]
        rfl

theorem httpHandlerLoop_resumed {cfg : Config} {out : Outcomes} {value : Int} {l : Locals}
    {c : Ctx} {r : Resumed} (hl : Enters out c.conn.coro l)
    (h : httpHandlerLoop cfg out value l c = .ok r) : SlotResumed c r := by
  cases haction : c.conn.action with
  | recv => exact (httpHandlerLoop_recv haction hl h).resumed
  | accept | none | send | splice =>
      simp only [httpHandlerLoop, haction] at h
      cases h
      exact suspend_resumed [] (by simp [sendBranch]) (by simp) rfl id id

theorem coResumeValue_resumed {cfg : Config} {out : Outcomes} {value : Int} {c : Ctx}
    {r : Resumed} (h : coResumeValue cfg out value c = .ok r) : SlotResumed c r := by
  unfold coResumeValue at h
  split at h
  · cases h
  · cases h
  · next hcoro =>
    split at h
    · cases h
      exact ⟨⟨[], by simp, by simp⟩, rfl, id, rfl, id⟩
    · next l hinit => exact httpHandlerLoop_resumed (hcoro ▸ .init hinit) h
  · next l hcoro => exact httpHandlerLoop_resumed (hcoro ▸ .again l) h

/-! The turns of the loop. -/

/-- The connection with which an accepted descriptor begins: a prepared one, or
the one an earlier session has left. -/
inductive Entry (slot : Nat) (conn : ServerConnection) : ServerConnection → Prop
  | prepared {out : Outcomes} {conn' : ServerConnection} : conn.coro = none →
      prepareConnection out slot conn.enter = (true, conn') → Entry slot conn conn'
  | reused : conn.coro.isSome = true → Entry slot conn conn.enter

/-- The cases of a completed accept. -/
inductive AcceptTurn (cfg : Config) (out : Outcomes) (s : Server) (ret : Int) (t : Server) : Prop
  | again : ret < 0 → acceptAgain cfg s = .ok t → AcceptTurn cfg out s ret t
  | entered {conn : ServerConnection} {str : StringT} {c : Ctx} : 0 ≤ ret →
      Entry ret.toNat (s.conns ret.toNat) conn → conn.str = some str →
      ioUringPushRecv ⟨conn, ret.toNat, s.sq⟩ ret.toNat str.capacity false = .ok c →
      acceptAgain cfg { s.setConn ret.toNat c.conn with sq := c.sq } = .ok t →
      AcceptTurn cfg out s ret t
  | refused {conn : ServerConnection} : 0 ≤ ret → (s.conns ret.toNat).coro = none →
      prepareConnection out ret.toNat (s.conns ret.toNat).enter = (false, conn) →
      acceptAgain cfg ((s.setConn ret.toNat conn).setOpen ret.toNat false) = .ok t →
      AcceptTurn cfg out s ret t

theorem handleAccept_turn {cfg : Config} {out : Outcomes} {s t : Server} {ret : Int}
    (h : handleAccept cfg out s ret = .ok t) : AcceptTurn cfg out s ret t := by
  unfold handleAccept at h
  split at h
  · next hneg =>
    split at h
    · exact .again hneg h
    · cases h
  · next hneg =>
    have hres : 0 ≤ ret := by omega
    simp only at h
    by_cases hsome : (s.conns ret.toNat).coro.isSome = true
    · rw [if_pos (show (s.conns ret.toNat).enter.coro.isSome = true from hsome)] at h
      simp only [if_true] at h
      split at h
      · cases h
      · next str hstr =>
        obtain ⟨c, hc, h⟩ := bind_eq_ok.mp h
        exact .entered hres (.reused hsome) hstr hc h
    · have hnone : (s.conns ret.toNat).coro = none := by simpa using hsome
      rw [if_neg (show ¬ (s.conns ret.toNat).enter.coro.isSome = true from hsome)] at h
      rcases hprep : prepareConnection out ret.toNat (s.conns ret.toNat).enter with ⟨ready, conn⟩
      rw [hprep] at h
      cases ready with
      | true =>
          simp only [if_true] at h
          split at h
          · cases h
          · next str hstr =>
            obtain ⟨c, hc, h⟩ := bind_eq_ok.mp h
            exact .entered hres (.prepared hnone hprep) hstr hc h
      | false => exact .refused hres hnone hprep h

/-- The server when a completion of `slot` has been handled, with `cq` left. -/
def Server.resumed (s : Server) (slot : Nat) (cq : List Cqe) (r : Resumed) : Server where
  conns := Function.update s.conns slot r.ctx.conn
  isOpen := if r.closed then Function.update s.isOpen r.ctx.conn.fd false else s.isOpen
  sq := r.ctx.sq
  inflight := s.inflight
  cq := cq
  waiting := s.waiting

theorem handleCqe_resume {cfg : Config} {out : Outcomes} {s : Server} {cqe : Cqe}
    (h : (s.conns cqe.sqe.userData).action ≠ .accept) :
    handleCqe cfg out s cqe =
      coResumeValue cfg out cqe.res ⟨s.conns cqe.sqe.userData, cqe.sqe.userData, s.sq⟩ >>=
        fun r => .ok (s.resumed cqe.sqe.userData s.cq r) := by
  unfold handleCqe Server.resumed Server.setConn Server.setOpen
  simp only [h, if_false]
  congr 1
  funext r
  cases r.closed <;> rfl

/-- The first completion is that of an accept, or it resumes a coroutine. -/
theorem step_handle_cases {cfg : Config} {out : Outcomes} {s t : Server}
    (h : step cfg s (.handle out) = .ok t) :
    ∃ cqe cq, s.cq = cqe :: cq ∧
      (((s.conns cqe.sqe.userData).action = .accept ∧
          handleAccept cfg out { s with cq := cq } cqe.res = .ok t) ∨
        ((s.conns cqe.sqe.userData).action ≠ .accept ∧
          ∃ r, coResumeValue cfg out cqe.res
              ⟨s.conns cqe.sqe.userData, cqe.sqe.userData, s.sq⟩ = .ok r ∧
            t = s.resumed cqe.sqe.userData cq r)) := by
  obtain ⟨-, cqe, cq, hcq, h⟩ := step_handle_eq_ok h
  refine ⟨cqe, cq, hcq, ?_⟩
  by_cases haction : (s.conns cqe.sqe.userData).action = .accept
  · exact .inl ⟨haction, (if_pos haction).symm.trans h⟩
  · rw [handleCqe_resume (s := { s with cq := cq }) haction] at h
    obtain ⟨r, hr, ht⟩ := bind_eq_ok.mp h
    exact .inr ⟨haction, r, hr, (Except.ok.inj ht).symm⟩

end L4Server
