import L4Server.FileDescriptors
import L4Server.Library.Simulation
import L4Server.PipeDelivery

/-!
The listen loop with the kernel's side of its splices. The entries of a slot are
carried out in the order in which they are linked, and one that fails or falls
short cuts off the rest of its chain. The replies of the loop are then the clients
of the pipe, each with what is left of its reply in the ring for its chain.
-/
namespace L4Server
open CMemory Automaton

/-! The machine. -/

/-- What is answered: the bytes that were received, and the reply with the locals and
the context it is pushed from. -/
structure Answer where
  request : List UInt8
  l : Locals
  c : Ctx
  reply : Reply

/-- The answer that is pushed while the first completion is handled. -/
def Server.answered (cfg : Config) (out : Outcomes) (s : Server) : Option Answer :=
  match s.cq with
  | [] => none
  | cqe :: _ =>
      let slot := cqe.sqe.userData
      let conn := s.conns slot
      if conn.action = .recv ∧ 0 < cqe.res then
        (Coroutine.enters out conn.coro).bind fun l =>
          conn.str.bind fun str =>
            match serveRequest cfg out cqe.res.toNat l str with
            | .ok (reply, l, after) =>
                some ⟨str.buf.take cqe.res.toNat, l, ⟨{ conn with str := some after }, slot, s.sq⟩,
                  reply⟩
            | .error _ => none
      else none

/-- The last reply to a slot: its number among all replies, whether its chain has been
cut, and what of it has been spliced and written to its socket. -/
structure LastReply where
  client : Nat
  out : Outcomes
  answer : Answer
  cut : Bool
  given : List UInt8
  written : List UInt8

structure Piped where
  server : Server
  pipe : List UInt8
  replies : Nat
  last : Nat → Option LastReply

/-- What a transfer of `count` bytes writes to a socket. -/
def Op.written (cfg : Config) (pipe : List UInt8) (count : Nat) : Op → List UInt8
  | .send _ data _ => data.take count
  | .splice _ _ fdOut _ _ => if fdOut = cfg.pipefds.2 then [] else pipe.take count
  | _ => []

/-- What a transfer moves: the pipe behind it, and what is spliced out of the pipe and
what is written in all, for the socket it names. -/
structure Carried where
  pipe : List UInt8
  given : List UInt8
  written : List UInt8

/-- An entry of the reply completes with `res`: an error where the chain has been
cut, else an error that cuts it or a transfer that does so if it falls short. -/
def LastReply.carry (cfg : Config) (files : Int → List UInt8) (x : LastReply)
    (pipe : List UInt8) (sqe : Sqe) (res : Int) : Option (LastReply × Carried) :=
  if x.cut then if res < 0 then some (x, ⟨pipe, [], []⟩) else none
  else if res < 0 then some ({ x with cut := sqe.link }, ⟨pipe, [], []⟩)
  else (sqe.op.transfer cfg files pipe res.toNat).map fun (after, bytes) =>
    ({ x with cut := sqe.link && res.toNat != sqe.op.asked },
      ⟨after, bytes, sqe.op.written cfg pipe res.toNat⟩)

def LastReply.receive (given written : List UInt8) (x : LastReply) : LastReply :=
  { x with given := x.given ++ given, written := x.written ++ written }

def Piped.setLast (s : Piped) (slot : Nat) (x : LastReply) : Piped :=
  { s with last := Function.update s.last slot (some x) }

/-- The bytes reach the socket that the operation names, and count for the last reply
to it. -/
def Piped.deliver (s : Piped) (op : Op) (given written : List UInt8) : Piped :=
  match op.target with
  | none => s
  | some fd =>
      match s.last fd.toNat with
      | none => s
      | some x => s.setLast fd.toNat (x.receive given written)

/-- What a completion does besides what it does to the loop. The first of a slot's
entries is carried out before the others, and an accept returns no end of the pipe. -/
def Piped.carry (cfg : Config) (files : Int → List UInt8) (s : Piped) (before : List Sqe)
    (sqe : Sqe) (res : Int) : Except Halt Piped :=
  if sqe.op.isTransfer then
    if before.any fun other => other.userData == sqe.userData then .error .disabled
    else
      match s.last sqe.userData with
      | none => .ok s
      | some x =>
          match x.carry cfg files s.pipe sqe res with
          | none => .error .disabled
          | some (x, carried) =>
              .ok (Piped.deliver { s.setLast sqe.userData x with pipe := carried.pipe } sqe.op
                carried.given carried.written)
  else if sqe.op.isAccept ∧ (res = cfg.pipefds.1 ∨ res = cfg.pipefds.2) then .error .disabled
  else .ok s

/-- What an answer does besides. -/
def Piped.reply (s : Piped) (out : Outcomes) (a : Answer) : Piped :=
  { s.setLast a.c.slot ⟨s.replies, out, a, false, [], []⟩ with replies := s.replies + 1 }

def pipedStep (cfg : Config) (files : Int → List UInt8) (s : Piped) (e : Event) :
    Except Halt Piped := do
  let server ← step cfg s.server e
  let moved := { s with server := server }
  match e with
  | .complete index res _ =>
      match s.server.inflight[index]? with
      | none => .error .disabled
      | some sqe => moved.carry cfg files (s.server.inflight.take index) sqe res
  | .handle out => return (s.server.answered cfg out).elim moved (moved.reply out)
  | .submit | .drained => return moved

def Piped.initial (cfg : Config) : Piped := ⟨.initial cfg, [], 0, fun _ => none⟩

def pipedLoop (cfg : Config) (files : Int → List UInt8) : Machine Piped Event Halt where
  start := fun s => s = .initial cfg
  step := pipedStep cfg files

/-- What a step is to the pipe. -/
def Piped.pipeEvents (cfg : Config) (s : Piped) : Event → Piped → List PipeEvent
  | .complete index res _, _ =>
      match s.server.inflight[index]? with
      | none => []
      | some sqe =>
          if sqe.op.isTransfer then
            match s.last sqe.userData with
            | none => []
            | some x =>
                if x.cut then []
                else if res < 0 then [.fail x.client] else [.execute x.client res.toNat]
          else []
  | .handle out, _ =>
      (s.server.answered cfg out).elim [] fun a => [.reply out a.l a.c a.reply]
  | .submit, _ | .drained, _ => []

/-! The chain of a slot. -/

/-- The transfers of a slot that are not carried out, in order. -/
def Server.chain (s : Server) (slot : Nat) : List Sqe :=
  (s.inflight ++ s.sq).filter fun sqe => sqe.op.isTransfer && sqe.userData == slot

theorem filter_eraseIdx_of_neg {α : Type} {p : α → Bool} {l : List α} {i : Nat} {a : α}
    (h : l[i]? = some a) (hp : p a = false) : (l.eraseIdx i).filter p = l.filter p := by
  obtain ⟨hlt, rfl⟩ := List.getElem?_eq_some_iff.mp h
  conv_rhs => rw [← List.take_append_drop i l, List.drop_eq_getElem_cons hlt]
  rw [List.eraseIdx_eq_take_drop_succ, List.filter_append, List.filter_append,
    List.filter_cons_of_neg (by simp [hp])]

theorem filter_first {α : Type} {p : α → Bool} {l : List α} {i : Nat} {a : α}
    (h : l[i]? = some a) (hp : p a = true) (hbefore : ∀ b ∈ l.take i, p b = false) :
    l.filter p = a :: (l.eraseIdx i).filter p := by
  obtain ⟨hlt, rfl⟩ := List.getElem?_eq_some_iff.mp h
  have hnone : (l.take i).filter p = [] := by simpa using hbefore
  conv_lhs => rw [← List.take_append_drop i l, List.drop_eq_getElem_cons hlt]
  rw [List.eraseIdx_eq_take_drop_succ, List.filter_append, List.filter_append, hnone,
    List.filter_cons_of_pos hp, List.nil_append, List.nil_append]

variable {cfg : Config} {files : Int → List UInt8} {s t : Server} {slot : Nat}

theorem Server.mem_chain {sqe : Sqe} (h : sqe ∈ s.chain slot) :
    sqe ∈ s.ops slot ∧ sqe.op.isTransfer = true := by
  simp only [Server.chain, List.mem_filter, List.mem_append, Bool.and_eq_true, beq_iff_eq] at h
  simp only [Server.ops, Server.outstanding, List.mem_filter, List.mem_append, beq_iff_eq]
  tauto

theorem Server.chain_push {pushed : List Sqe} (hinflight : t.inflight = s.inflight)
    (hsq : t.sq = s.sq ++ pushed) (slot : Nat) :
    t.chain slot = s.chain slot ++
      pushed.filter fun sqe => sqe.op.isTransfer && sqe.userData == slot := by
  rw [Server.chain, hinflight, hsq, ← List.append_assoc, List.filter_append]
  rfl

/-- Entries that are no transfers leave the chains as they are. -/
theorem Server.chain_same {pushed : List Sqe} (hinflight : t.inflight = s.inflight)
    (hsq : t.sq = s.sq ++ pushed) (hpushed : ∀ sqe ∈ pushed, sqe.op.isTransfer = false)
    (slot : Nat) : t.chain slot = s.chain slot := by
  rw [Server.chain_push hinflight hsq, List.filter_eq_nil_iff.mpr, List.append_nil]
  intro sqe hmem
  simp [hpushed sqe hmem]

/-- A completed entry that is none of the slot's transfers. -/
theorem Server.chain_complete_other {index : Nat} {sqe : Sqe}
    (hget : s.inflight[index]? = some sqe) (hsq : t.sq = s.sq)
    (hinflight : t.inflight = s.inflight.eraseIdx index)
    (hother : (sqe.op.isTransfer && sqe.userData == slot) = false) :
    t.chain slot = s.chain slot := by
  rw [Server.chain, hinflight, hsq, List.filter_append, filter_eraseIdx_of_neg hget hother,
    ← List.filter_append]
  rfl

/-- The first transfer of the slot is completed. -/
theorem Server.chain_complete {index : Nat} {sqe : Sqe} (hget : s.inflight[index]? = some sqe)
    (hsq : t.sq = s.sq) (hinflight : t.inflight = s.inflight.eraseIdx index)
    (htransfer : sqe.op.isTransfer = true)
    (hfirst : ∀ other ∈ s.inflight.take index, other.userData ≠ sqe.userData) :
    s.chain sqe.userData = sqe :: t.chain sqe.userData := by
  have hbefore : ∀ other ∈ s.inflight.take index,
      (other.op.isTransfer && other.userData == sqe.userData) = false := by
    intro other hmem
    simp [hfirst other hmem]
  have hsplit := filter_first hget (by simp [htransfer]) hbefore
  rw [Server.chain, Server.chain, hinflight, hsq, List.filter_append, List.filter_append, hsplit,
    List.cons_append]

/-! What a step of the loop does to the chains. -/

/-- An answer has been pushed, and its entries are the slot's chain. -/
structure Server.Replied (cfg : Config) (out : Outcomes) (s t : Server) (a : Answer) : Prop where
  pushed : ∃ d, pushReply cfg out a.l a.c a.reply = .ok d ∧
    t.chain a.c.slot = d.sq.drop a.c.sq.length
  fd : a.c.conn.fd = a.c.slot
  ne : a.c.slot ≠ cfg.listenFd
  isOpen : s.isOpen a.c.slot = true
  others : ∀ slot, slot ≠ a.c.slot → t.chain slot = s.chain slot

theorem Enters.enters {out : Outcomes} {coro : Option Coroutine} {l : Locals}
    (h : Enters out coro l) : Coroutine.enters out coro = some l := by
  cases h with
  | init hinit => exact hinit
  | again => rfl

/-- A served `recv` is answered. -/
theorem Served.replied {out : Outcomes} {cqe : Cqe} {cq : List Cqe} {l l' : Locals} {d : Ctx}
    (hb : Books True cfg s) (hcq : s.cq = cqe :: cq) (hne : cqe.sqe.userData ≠ cfg.listenFd)
    (hrecv : cqe.sqe.op.isRecv = true) (hpos : 0 < cqe.res)
    (henters : Enters out (s.conns cqe.sqe.userData).coro l)
    (h : Served cfg out cqe.res.toNat l ⟨s.conns cqe.sqe.userData, cqe.sqe.userData, s.sq⟩ l' d) :
    ∃ a, s.answered cfg out = some a ∧
      s.Replied cfg out (s.resumed cqe.sqe.userData cq (suspend .yield l' d)) a := by
  have hmem := Server.mem_ops_of_cq (s := s) (show cqe ∈ s.cq by simp [hcq])
  have hphase := hb.slots _ hne
  obtain ⟨-, haction, -, hops⟩ := hphase.of_recv hmem hrecv
  obtain ⟨-, -, -, -, -, hfd⟩ := hphase.of_mem hmem
  have hopen : s.isOpen cqe.sqe.userData = true := by
    by_contra hclosed
    obtain ⟨hnil, -⟩ := hphase.of_closed (by simpa using hclosed)
    simp [hnil] at hmem
  -- the `recv` was all there was
  have hnone : s.chain cqe.sqe.userData = [] := by
    refine List.eq_nil_iff_forall_not_mem.mpr fun sqe hchain => ?_
    obtain ⟨hmem, htransfer⟩ := Server.mem_chain hchain
    rw [hops, List.mem_singleton] at hmem
    rw [hmem] at htransfer
    cases hop : cqe.sqe.op <;> simp [hop, Op.isRecv, Op.isTransfer] at hrecv htransfer
  cases h with
  | @intro str str' reply hstr hserve hpush =>
      have hq := pushReply_queued hpush
      have hchain (slot : Nat) := Server.chain_push (s := s)
        (t := s.resumed cqe.sqe.userData cq (suspend .yield l' d)) rfl
        ((suspend_sq _ _ _).trans hq.sq) slot
      refine ⟨⟨str.buf.take cqe.res.toNat, l', _, reply⟩, ?_, ⟨d, hpush, ?_⟩, hfd, hne, hopen,
        fun slot hslot => ?_⟩
      · simp only [Server.answered, hcq]
        rw [if_pos ⟨haction, hpos⟩, henters.enters]
        simp only [Option.bind_some]
        rw [show (s.conns cqe.sqe.userData).str = some str from hstr]
        simp only [Option.bind_some, hserve]
      · rw [hchain, hnone, List.nil_append, hq.sq, List.drop_left, List.filter_eq_self.mpr]
        intro sqe hmem
        simp [(hq.transfers sqe hmem).1, (hq.transfers sqe hmem).2.1]
      · rw [hchain, List.filter_eq_nil_iff.mpr, List.append_nil]
        intro sqe hmem
        simp [(hq.transfers sqe hmem).2.1, Ne.symm hslot]

/-- A completed accept queues no transfers. -/
theorem handleAccept_chain {out : Outcomes} {cq : List Cqe} {ret : Int}
    (h : handleAccept cfg out { s with cq := cq } ret = .ok t) (slot : Nat) :
    t.chain slot = s.chain slot := by
  cases handleAccept_turn h with
  | again _ hagain | refused _ _ _ hagain =>
      obtain ⟨-, -, -, hinflight, -, number, hsq⟩ := acceptAgain_eq hagain
      exact Server.chain_same (s := s) hinflight hsq (by simp [Op.isTransfer]) slot
  | entered _ _ _ hpush hagain =>
      obtain ⟨-, -, -, hinflight, -, number, hsq⟩ := acceptAgain_eq hagain
      rw [Ctx.push_eq_ok hpush, List.append_assoc] at hsq
      exact Server.chain_same (s := s) hinflight hsq (by simp [Op.isTransfer]) slot

/-- Handling a completion leaves the chains as they are, or pushes a reply. -/
theorem step_handle_chains (hb : Books True cfg s) {out : Outcomes}
    (h : step cfg s (.handle out) = .ok t) :
    (s.answered cfg out = none ∧ ∀ slot, t.chain slot = s.chain slot) ∨
      ∃ a, s.answered cfg out = some a ∧ s.Replied cfg out t a := by
  obtain ⟨cqe, cq, hcq, ⟨huser, h⟩ | ⟨hne, r, hr, rfl⟩⟩ := hb.handle_cases h
  · left
    exact ⟨by simp [Server.answered, hcq, huser, hb.listening], handleAccept_chain h⟩
  · have hmem := Server.mem_ops_of_cq (s := s) (show cqe ∈ s.cq by simp [hcq])
    have hphase := hb.slots _ hne
    have hsame (hsq : r.ctx.sq = s.sq) (slot : Nat) :
        (s.resumed cqe.sqe.userData cq r).chain slot = s.chain slot := by
      rw [Server.chain, show (s.resumed cqe.sqe.userData cq r).sq = s.sq from hsq]
      rfl
    rcases (hphase.of_mem hmem).1 with hrecv | htransfer
    · cases coResumeValue_recv (hphase.of_recv hmem hrecv).2.1 hr with
      | stopped hcoro hinit =>
          refine .inl ⟨?_, hsame rfl⟩
          simp [Server.answered, hcq, Coroutine.enters, show (s.conns _).coro = _ from hcoro, hinit]
      | silent hneg _ =>
          refine .inl ⟨?_, hsame (suspend_sq _ _ _)⟩
          simp only [Server.answered, hcq]
          exact if_neg fun h => by omega
      | reset hzero _ =>
          refine .inl ⟨?_, hsame (suspend_sq _ _ _)⟩
          simp only [Server.answered, hcq]
          exact if_neg fun h => by omega
      | served hpos henters hserved =>
          exact .inr (hserved.replied hb hcq hne hrecv hpos henters)
    · obtain ⟨-, haction, ⟨l, hcoro⟩, -⟩ := hphase.of_transfer hmem htransfer
      rw [coResumeValue_transfer haction hcoro hr] at hsame ⊢
      refine .inl ⟨?_, hsame (suspend_sq _ _ _)⟩
      simp only [Server.answered, hcq]
      refine if_neg fun h => ?_
      rcases haction with haction | haction <;> rw [haction] at h <;> exact absurd h.1 (by simp)

/-! The targets of a chain. -/

/-- The entry names the socket of the slot, or brings bytes into the pipe. -/
def Sqe.AimsAt (cfg : Config) (slot : Nat) (sqe : Sqe) : Prop :=
  sqe.op.target = some (slot : Int) ∨ sqe.op.fills cfg = true

/-- What is in the ring for a slot is for its socket. -/
def Server.Aimed (cfg : Config) (s : Server) : Prop :=
  ∀ slot, ∀ sqe ∈ s.chain slot, sqe.AimsAt cfg slot

theorem replySqes_aims (cfg : Config) (out : Outcomes) (l : Locals) (c : Ctx) (reply : Reply) :
    ∀ sqe ∈ replySqes cfg out l c reply, sqe.AimsAt cfg c.conn.fd := by
  unfold replySqes
  split <;> simp [Sqe.AimsAt, Op.target, Op.fills]

theorem Server.Aimed.step (h : s.Aimed cfg) (hb : Books True cfg s) {e : Event}
    (ht : step cfg s e = .ok t) : t.Aimed cfg := by
  cases e with
  | submit =>
      obtain ⟨-, rfl⟩ := step_submit_eq_ok ht
      intro slot sqe hmem
      exact h slot sqe (by simpa [Server.chain] using hmem)
  | drained =>
      obtain ⟨-, -, rfl⟩ := step_drained_eq_ok ht
      exact h
  | complete index res data =>
      obtain ⟨sqe, -, -, rfl⟩ := complete_eq_ok ht
      intro slot other hmem
      refine h slot other (List.Sublist.mem hmem ?_)
      rw [Server.chain, Server.chain, Server.perform_sq]
      exact ((List.eraseIdx_sublist _ _).append_right _).filter _
  | handle out =>
      rcases step_handle_chains hb ht with ⟨-, hsame⟩ | ⟨a, -, hreplied⟩
      · intro slot
        rw [hsame slot]
        exact h slot
      · intro slot
        by_cases hslot : slot = a.c.slot
        · obtain ⟨d, hpush, hchain⟩ := hreplied.pushed
          rw [hslot, hchain, (pushReply_queued hpush).sq, List.drop_left, ← hreplied.fd]
          exact replySqes_aims cfg out a.l a.c a.reply
        · rw [hreplied.others slot hslot]
          exact h slot

theorem aimed_initial (cfg : Config) : (Server.initial cfg).Aimed cfg := by
  intro slot sqe hmem
  simp [Server.chain, Server.initial, Op.isTransfer] at hmem

theorem aimed_reachable (hs : Reachable (listenLoop cfg) s) : s.Aimed cfg := by
  induction hs with
  | start h0 =>
      obtain rfl : _ = Server.initial cfg := h0
      exact aimed_initial cfg
  | step hs _ ht ih => exact ih.step (books_reachable hs) ht

/-- What comes out of the pipe or is written is for the socket of the slot. -/
theorem Sqe.AimsAt.target {slot count : Nat} {sqe : Sqe} {pipe pipe' bytes : List UInt8}
    (h : sqe.AimsAt cfg slot)
    (htransfer : sqe.op.transfer cfg files pipe count = some (pipe', bytes)) :
    sqe.op.target = some (slot : Int) ∨
      bytes = [] ∧ sqe.op.written cfg pipe count = [] := by
  refine h.imp_right fun hfills => ?_
  cases hop : sqe.op with
  | accept | recv | send => simp [hop, Op.fills] at hfills
  | splice fdIn offIn fdOut offOut len =>
      obtain rfl : fdOut = cfg.pipefds.2 := by simpa [hop, Op.fills] using hfills
      simp only [hop, Op.transfer, if_true, Option.ite_none_right_eq_some] at htransfer
      cases htransfer.2
      exact ⟨rfl, if_pos rfl⟩

/-! Sockets and the pipe. -/

/-- No connection is on the end of the pipe that is written to. -/
def Server.OffPipe (cfg : Config) (s : Server) : Prop :=
  ∀ slot, slot ≠ cfg.listenFd → s.isOpen slot = true → (slot : Int) ≠ cfg.pipefds.2

theorem step_handle_isOpen {out : Outcomes} (h : step cfg s (.handle out) = .ok t) {fd : Nat}
    (hopen : t.isOpen fd = true) : s.isOpen fd = true := by
  obtain ⟨cqe, cq, -, ⟨-, h⟩ | ⟨-, r, -, rfl⟩⟩ := step_handle_cases h
  · cases handleAccept_turn h with
    | again _ hagain | entered _ _ _ _ hagain =>
        obtain ⟨-, -, hsame, -⟩ := acceptAgain_eq hagain
        exact congrFun hsame fd ▸ hopen
    | refused _ _ _ hagain =>
        obtain ⟨-, -, hsame, -⟩ := acceptAgain_eq hagain
        rw [congrFun hsame fd] at hopen
        by_contra hclosed
        simp [Server.setOpen, Server.setConn, Function.update_apply, hclosed] at hopen
  · by_contra hclosed
    simp only [Server.resumed] at hopen
    split at hopen
    · simp [Function.update_apply, hclosed] at hopen
    · exact hclosed hopen

theorem Server.OffPipe.complete (h : s.OffPipe cfg) (hb : Books True cfg s) {index : Nat}
    {sqe : Sqe} {res : Int} {data : List UInt8} (hget : s.inflight[index]? = some sqe)
    (ht : complete s index res data = .ok t)
    (hapart : sqe.op.isAccept = true → res ≠ cfg.pipefds.2) : t.OffPipe cfg := by
  obtain ⟨sqe', hget', hallows, rfl⟩ := complete_eq_ok ht
  obtain rfl := Option.some.inj (hget.symm.trans hget')
  have hmem := Server.mem_ops_of_inflight (List.mem_of_getElem? hget)
  intro slot hne hopen
  rcases perform_isOpen hb hmem hallows slot with hsame | ⟨huser, hres, rfl, -, -⟩
  · exact h slot hne (hsame ▸ hopen)
  · have haccept := hapart (by rw [hb.op_of_listening hmem huser]; rfl)
    rwa [Int.toNat_of_nonneg hres]

/-! Steps. -/

variable {w v : Piped}

/-- What a step of the loop is to its replies. -/
inductive PipedTurn (cfg : Config) (files : Int → List UInt8) (w : Piped) (t : Server) :
    Event → List PipeEvent → Piped → Prop
  | kept {e : Event} : (∀ slot x, w.last slot = some x → x.cut = false →
      t.chain slot = w.server.chain slot) → PipedTurn cfg files w t e [] { w with server := t }
  | replied {out : Outcomes} {a : Answer} : w.server.answered cfg out = some a →
      w.server.Replied cfg out t a →
      PipedTurn cfg files w t (.handle out) [.reply out a.l a.c a.reply]
        (({ w with server := t } : Piped).reply out a)
  | failed {index : Nat} {res : Int} {data : List UInt8} {sqe : Sqe} {x : LastReply} :
      w.server.inflight[index]? = some sqe → sqe.op.isTransfer = true → res < 0 →
      w.last sqe.userData = some x → x.cut = false →
      w.server.chain sqe.userData = sqe :: t.chain sqe.userData →
      (∀ slot, slot ≠ sqe.userData → t.chain slot = w.server.chain slot) →
      PipedTurn cfg files w t (.complete index res data) [.fail x.client]
        (({ w with server := t } : Piped).setLast sqe.userData { x with cut := sqe.link })
  | carried {index : Nat} {res : Int} {data : List UInt8} {sqe : Sqe} {x : LastReply}
      {pipe bytes : List UInt8} :
      w.server.inflight[index]? = some sqe → sqe.op.isTransfer = true → 0 ≤ res →
      w.last sqe.userData = some x → x.cut = false →
      w.server.chain sqe.userData = sqe :: t.chain sqe.userData →
      (∀ slot, slot ≠ sqe.userData → t.chain slot = w.server.chain slot) →
      res.toNat ≤ sqe.op.asked →
      sqe.op.transfer cfg files w.pipe res.toNat = some (pipe, bytes) →
      PipedTurn cfg files w t (.complete index res data) [.execute x.client res.toNat]
        { ({ w with server := t } : Piped).setLast sqe.userData { x with
            cut := sqe.link && res.toNat != sqe.op.asked
            given := x.given ++ bytes
            written := x.written ++ sqe.op.written cfg w.pipe res.toNat } with pipe := pipe }

/-- A completion transfers no more than was asked for. -/
theorem Op.allows_asked {op : Op} (hop : op.isTransfer = true) {isOpen : Nat → Bool} {res : Int}
    {data : List UInt8} (h : op.allows isOpen res data = true) : res.toNat ≤ op.asked := by
  cases op with
  | accept | recv => cases hop
  | send fd text more =>
      have hle : res ≤ text.length := by simpa using (Bool.and_eq_true_iff.mp h).2
      simp only [Op.asked]
      omega
  | splice fdIn offIn fdOut offOut len =>
      have hle : res ≤ len := by simpa using (Bool.and_eq_true_iff.mp h).2
      simp only [Op.asked]
      omega

/-- What an entry does to the reply it belongs to. -/
inductive LastReply.Carries (cfg : Config) (files : Int → List UInt8) (x : LastReply)
    (pipe : List UInt8) (sqe : Sqe) (res : Int) : LastReply → Carried → Prop
  | cut : x.cut = true → Carries cfg files x pipe sqe res x ⟨pipe, [], []⟩
  | failed : x.cut = false → res < 0 →
      Carries cfg files x pipe sqe res { x with cut := sqe.link } ⟨pipe, [], []⟩
  | moved {after bytes : List UInt8} : x.cut = false → 0 ≤ res →
      sqe.op.transfer cfg files pipe res.toNat = some (after, bytes) →
      Carries cfg files x pipe sqe res
        { x with cut := sqe.link && res.toNat != sqe.op.asked }
        ⟨after, bytes, sqe.op.written cfg pipe res.toNat⟩

theorem LastReply.carry_carries {x y : LastReply} {pipe : List UInt8} {sqe : Sqe} {res : Int}
    {carried : Carried} (h : x.carry cfg files pipe sqe res = some (y, carried)) :
    x.Carries cfg files pipe sqe res y carried := by
  unfold LastReply.carry at h
  cases hcut : x.cut with
  | true =>
      simp only [hcut, if_true, Option.ite_none_right_eq_some] at h
      cases h.2
      exact .cut hcut
  | false =>
      simp only [hcut, Bool.false_eq_true, if_false] at h
      split at h
      · next hneg =>
        cases h
        exact .failed hcut hneg
      · next hnonneg =>
        obtain ⟨⟨after, bytes⟩, hmoved, heq⟩ := Option.map_eq_some_iff.mp h
        cases heq
        exact .moved hcut (by omega) hmoved

theorem Piped.setLast_same {x : LastReply} (h : w.last slot = some x) :
    w.setLast slot x = w := by
  simp [setLast, ← h]

theorem Piped.deliver_nil (op : Op) : w.deliver op [] [] = w := by
  unfold deliver
  split
  · rfl
  · split
    · rfl
    · next x hlast =>
      have hsame : x.receive [] [] = x := by simp [LastReply.receive]
      rw [hsame, setLast_same hlast]

/-- What is for a slot's own socket reaches its last reply. -/
theorem Piped.deliver_own {x : LastReply} {op : Op} {given written : List UInt8}
    (hlast : w.last slot = some x)
    (htarget : op.target = some (slot : Int) ∨ given = [] ∧ written = []) :
    w.deliver op given written = w.setLast slot (x.receive given written) := by
  rcases htarget with htarget | ⟨rfl, rfl⟩
  · simp only [deliver, htarget, Int.toNat_natCast, hlast]
  · have hsame : x.receive [] [] = x := by simp [LastReply.receive]
    rw [deliver_nil, hsame, setLast_same hlast]

theorem Piped.carry_turn (haimed : w.server.Aimed cfg) {index : Nat} {res : Int}
    {data : List UInt8} {sqe : Sqe} (hget : w.server.inflight[index]? = some sqe)
    (ht : complete w.server index res data = .ok t)
    (h : ({ w with server := t } : Piped).carry cfg files (w.server.inflight.take index) sqe res =
      .ok v) :
    PipedTurn cfg files w t (.complete index res data)
      (w.pipeEvents cfg (.complete index res data) v) v := by
  obtain ⟨sqe', hget', hallows, htserver⟩ := complete_eq_ok ht
  obtain rfl := Option.some.inj (hget.symm.trans hget')
  have hsq : t.sq = w.server.sq := by rw [htserver, Server.perform_sq]
  have hinflight : t.inflight = w.server.inflight.eraseIdx index := by rw [htserver]
  have hothers (slot : Nat) (hne : slot ≠ sqe.userData) : t.chain slot = w.server.chain slot :=
    Server.chain_complete_other hget hsq hinflight (by simp [Ne.symm hne])
  simp only [Piped.carry] at h
  simp only [Piped.pipeEvents, hget]
  split at h
  · next htransfer =>
    rw [if_pos htransfer]
    split at h
    · cases h
    next hbefore =>
    have hfirst : ∀ other ∈ w.server.inflight.take index, other.userData ≠ sqe.userData := by
      simpa using hbefore
    have hchain := Server.chain_complete hget hsq hinflight htransfer hfirst
    split at h
    · next hlast =>
      cases h
      refine .kept fun slot x hx _ => hothers slot ?_
      rintro rfl
      rw [hlast] at hx
      cases hx
    next x hlast =>
    split at h
    · cases h
    next y carried hcarry =>
    cases h
    cases LastReply.carry_carries hcarry with
    | cut hcut =>
        have hsame : ({ w with server := t } : Piped).setLast sqe.userData x =
            { w with server := t } := Piped.setLast_same hlast
        rw [if_pos hcut, Piped.deliver_nil, hsame]
        refine .kept fun slot z hz hzcut => hothers slot ?_
        rintro rfl
        obtain rfl := Option.some.inj (hlast.symm.trans hz)
        rw [hcut] at hzcut
        cases hzcut
    | failed hcut hneg =>
        simp only [hcut, Bool.false_eq_true, if_false]
        rw [if_pos hneg, Piped.deliver_nil]
        exact .failed hget htransfer hneg hlast hcut hchain hothers
    | moved hcut hnonneg hmoved =>
        have haims := haimed sqe.userData sqe (by rw [hchain]; exact List.mem_cons_self)
        simp only [hcut, Bool.false_eq_true, if_false]
        rw [if_neg (by omega), Piped.deliver_own (Function.update_self _ _ _) (haims.target hmoved)]
        simp only [Piped.setLast, Function.update_idem]
        exact .carried hget htransfer hnonneg hlast hcut hchain hothers
          (Op.allows_asked htransfer hallows) hmoved
  · next htransfer =>
    rw [if_neg htransfer]
    split at h
    · cases h
    · cases h
      refine .kept fun slot _ _ _ => Server.chain_complete_other hget hsq hinflight ?_
      simp [Bool.eq_false_iff.mpr htransfer]

theorem PipedTurn.server {e : Event} {as : List PipeEvent}
    (h : PipedTurn cfg files w t e as v) : v.server = t := by
  cases h <;> rfl

theorem pipedStep_turn (hb : Books True cfg w.server) (haimed : w.server.Aimed cfg) {e : Event}
    (h : pipedStep cfg files w e = .ok v) :
    step cfg w.server e = .ok v.server ∧
      PipedTurn cfg files w v.server e (w.pipeEvents cfg e v) v := by
  obtain ⟨t, ht, h⟩ := bind_eq_ok.mp h
  cases e with
  | submit =>
      cases h
      obtain ⟨-, rfl⟩ := step_submit_eq_ok ht
      exact ⟨ht, .kept fun slot _ _ _ => by simp [Server.chain]⟩
  | drained =>
      cases h
      obtain ⟨-, -, rfl⟩ := step_drained_eq_ok ht
      exact ⟨ht, .kept fun _ _ _ _ => rfl⟩
  | handle out =>
      cases h
      rcases step_handle_chains hb ht with ⟨hnone, hsame⟩ | ⟨a, hanswered, hreplied⟩
      · simp only [Piped.pipeEvents, hnone, Option.elim]
        exact ⟨ht, .kept fun slot _ _ _ => hsame slot⟩
      · simp only [Piped.pipeEvents, hanswered, Option.elim]
        exact ⟨ht, .replied hanswered hreplied⟩
  | complete index res data =>
      simp only at h
      split at h
      · cases h
      next sqe hget =>
      have hturn := Piped.carry_turn haimed hget ht h
      rw [hturn.server]
      exact ⟨ht, hturn⟩

theorem pipedStep_offPipe (hb : Books True cfg w.server) (haimed : w.server.Aimed cfg)
    (hoff : w.server.OffPipe cfg) {e : Event} (h : pipedStep cfg files w e = .ok v) :
    v.server.OffPipe cfg := by
  have hserver := (pipedStep_turn hb haimed h).1
  obtain ⟨t, ht, h⟩ := bind_eq_ok.mp h
  obtain rfl := Except.ok.inj (hserver.symm.trans ht)
  cases e with
  | submit =>
      obtain ⟨-, hv⟩ := step_submit_eq_ok ht
      rw [hv]
      exact hoff
  | drained =>
      obtain ⟨-, -, hv⟩ := step_drained_eq_ok ht
      rw [hv]
      exact hoff
  | handle out => exact fun slot hne hopen => hoff slot hne (step_handle_isOpen ht hopen)
  | complete index res data =>
      simp only at h
      split at h
      · cases h
      next sqe hget =>
      refine hoff.complete hb hget ht fun haccept hres => ?_
      have htransfer : sqe.op.isTransfer = false := by
        cases hop : sqe.op <;> simp [hop, Op.isAccept, Op.isTransfer] at haccept ⊢
      simp [Piped.carry, htransfer, haccept, hres] at h

/-! The replies as clients of the pipe. -/

/-- A reply as a client of the pipe, with what is left of its chain. -/
def LastReply.asClient (files : Int → List UInt8) (x : LastReply) (chain : List Sqe) : Client :=
  ⟨x.answer.c.conn.fd, files x.answer.l.res.fileFd, if x.cut then [] else chain, x.given⟩

/-- What the loop keeps of its rings and sockets. -/
structure Wired (cfg : Config) (s : Server) : Prop where
  books : Books True cfg s
  aimed : s.Aimed cfg
  offPipe : s.OffPipe cfg

theorem Wired.step (h : Wired cfg w.server) {e : Event} (ht : pipedStep cfg files w e = .ok v) :
    Wired cfg v.server := by
  have hserver := (pipedStep_turn h.books h.aimed ht).1
  exact ⟨books_step h.books (.inl trivial) hserver, h.aimed.step h.books hserver,
    pipedStep_offPipe h.books h.aimed h.offPipe ht⟩

/-- The replies are the clients, each slot's last one on its socket, with its chain. -/
structure Mirrors (cfg : Config) (files : Int → List UInt8) (s : Piped) (p : PipeState) :
    Prop where
  wired : Wired cfg s.server
  pipe : p.pipe = s.pipe
  count : p.clients.length = s.replies
  client : ∀ slot x, s.last slot = some x →
    p.clients[x.client]? = some (x.asClient files (s.server.chain slot))
  socket : ∀ slot x, s.last slot = some x → x.answer.c.conn.fd = slot
  own : ∀ slot other x y, s.last slot = some x → s.last other = some y → x.client = y.client →
    slot = other

variable {p : PipeState}

theorem Mirrors.kept (h : Mirrors cfg files w p) (hwired : Wired cfg t)
    (hchain : ∀ slot x, w.last slot = some x → x.cut = false →
      t.chain slot = w.server.chain slot) :
    Mirrors cfg files { w with server := t } p where
  wired := hwired
  pipe := h.pipe
  count := h.count
  client := by
    intro slot x hlast
    rw [h.client slot x hlast, LastReply.asClient, LastReply.asClient]
    cases hcut : x.cut with
    | true => simp only [if_true]
    | false => rw [hchain slot x hlast hcut]
  socket := h.socket
  own := h.own

/-- A slot's last reply changes, and no other slot has its client. -/
theorem Mirrors.own_setLast (h : Mirrors cfg files w p) {y : LastReply}
    (hnew : ∀ other z, other ≠ slot → w.last other = some z → z.client ≠ y.client)
    (a b : Nat) (u v : LastReply) (hu : (w.setLast slot y).last a = some u)
    (hv : (w.setLast slot y).last b = some v) (heq : u.client = v.client) : a = b := by
  simp only [Piped.setLast, Function.update_apply] at hu hv
  split at hu <;> split at hv
  · next ha hbs => rw [ha, hbs]
  · next ha hbs =>
    cases hu
    exact absurd heq.symm (hnew b v hbs hv)
  · next ha hbs =>
    cases hv
    exact absurd heq (hnew a u ha hu)
  · exact h.own a b u v hu hv heq

/-- An entry of a slot's reply has been carried out. -/
theorem Mirrors.carried (h : Mirrors cfg files w p) (hwired : Wired cfg t)
    {x y : LastReply} (hlast : w.last slot = some x) (hclient : y.client = x.client)
    (hanswer : y.answer = x.answer)
    (hothers : ∀ other, other ≠ slot → t.chain other = w.server.chain other)
    (pipe : List UInt8) :
    Mirrors cfg files { ({ w with server := t } : Piped).setLast slot y with pipe := pipe }
      { p.setClient x.client (y.asClient files (t.chain slot)) with pipe := pipe } := by
  have hlt := (List.getElem?_eq_some_iff.mp (h.client slot x hlast)).1
  have hother (other : Nat) (z : LastReply) (hne : other ≠ slot) (hz : w.last other = some z) :
      z.client ≠ x.client := fun heq => hne (h.own other slot z x hz hlast heq)
  refine ⟨hwired, rfl, by simp [PipeState.setClient, Piped.setLast, h.count], ?_, ?_, ?_⟩
  · intro other z hz
    simp only [Piped.setLast, Function.update_apply] at hz
    split at hz
    · next heq =>
      cases hz
      simp [PipeState.setClient, Piped.setLast, heq, hclient, hlt]
    · next hne =>
      simp only [PipeState.setClient, Piped.setLast]
      rw [List.getElem?_set_ne (Ne.symm (hother other z hne hz)), h.client other z hz,
        hothers other hne]
  · intro other z hz
    simp only [Piped.setLast, Function.update_apply] at hz
    split at hz
    · next heq =>
      cases hz
      rw [hanswer, h.socket slot x hlast, heq]
    · exact h.socket other z hz
  · exact h.own_setLast fun other z hne hz => by
      rw [hclient]
      exact hother other z hne hz

/-- An answer is a new client. -/
theorem Mirrors.replied (h : Mirrors cfg files w p) (hwired : Wired cfg t)
    (out : Outcomes) {a : Answer} (hfd : a.c.conn.fd = a.c.slot)
    (hothers : ∀ other, other ≠ a.c.slot → t.chain other = w.server.chain other) :
    Mirrors cfg files (({ w with server := t } : Piped).reply out a)
      { p with clients := p.clients ++
        [⟨a.c.conn.fd, files a.l.res.fileFd, t.chain a.c.slot, []⟩] } := by
  have hlt (other : Nat) (z : LastReply) (hz : w.last other = some z) : z.client < w.replies :=
    h.count ▸ (List.getElem?_eq_some_iff.mp (h.client other z hz)).1
  refine ⟨hwired, h.pipe, by simp [Piped.reply, Piped.setLast, h.count], ?_, ?_, ?_⟩
  · intro other z hz
    simp only [Piped.reply, Piped.setLast, Function.update_apply] at hz
    split at hz
    · next heq =>
      cases hz
      simp [Piped.reply, Piped.setLast, heq, ← h.count, LastReply.asClient]
    · next hne =>
      simp only [Piped.reply, Piped.setLast]
      rw [List.getElem?_append_left (h.count ▸ hlt other z hz), h.client other z hz,
        hothers other hne]
  · intro other z hz
    simp only [Piped.reply, Piped.setLast, Function.update_apply] at hz
    split at hz
    · next heq =>
      cases hz
      rw [heq]
      exact hfd
    · exact h.socket other z hz
  · exact h.own_setLast fun other z _ hz => Nat.ne_of_lt (hlt other z hz)

theorem Mirrors.step (h : Mirrors cfg files w p) {e : Event}
    (ht : pipedStep cfg files w e = .ok v) :
    ∃ q, run (splicePipe cfg files) (w.pipeEvents cfg e v) p = .ok q ∧ Mirrors cfg files v q := by
  have hturn := (pipedStep_turn h.wired.books h.wired.aimed ht).2
  have hwired := h.wired.step ht
  generalize w.pipeEvents cfg e v = as at hturn
  generalize v.server = t at hturn hwired
  cases hturn with
  | kept hchain => exact ⟨p, rfl, h.kept hwired hchain⟩
  | replied hanswered hreplied =>
      refine ⟨_, ?_, h.replied hwired _ hreplied.fd hreplied.others⟩
      obtain ⟨d, hpush, hchain⟩ := hreplied.pushed
      have hfd := h.wired.offPipe _ hreplied.ne hreplied.isOpen
      rw [← hreplied.fd] at hfd
      simp only [run, splicePipe, pipeStep, if_neg hfd, hpush, hchain]
      rfl
  | @failed index res data sqe x hget htransfer hneg hlast hcut hchain hothers =>
      refine ⟨_, ?_, h.carried (y := { x with cut := sqe.link }) hwired hlast rfl rfl hothers
        w.pipe⟩
      have hclient := h.client _ _ hlast
      simp only [LastReply.asClient, hcut, hchain, Bool.false_eq_true, if_false] at hclient
      simp only [run, splicePipe, pipeStep, hclient, ← h.pipe]
      rfl
  | @carried index res data sqe x pipe bytes hget htransfer hnonneg hlast hcut hchain hothers hle
      hmoved =>
      refine ⟨_, ?_, h.carried (y := { x with
        cut := sqe.link && res.toNat != sqe.op.asked
        given := x.given ++ bytes
        written := x.written ++ sqe.op.written cfg w.pipe res.toNat }) hwired hlast rfl rfl hothers
          pipe⟩
      have hclient := h.client _ _ hlast
      have haims := h.wired.aimed _ sqe (by rw [hchain]; exact List.mem_cons_self)
      have htarget : bytes ≠ [] → sqe.op.target = some (x.answer.c.conn.fd : Int) := by
        intro hbytes
        rw [h.socket _ x hlast]
        exact (haims.target hmoved).resolve_right fun h => hbytes h.1
      simp only [LastReply.asClient, hcut, hchain, Bool.false_eq_true, if_false] at hclient
      rw [← h.pipe] at hmoved
      simp only [run, splicePipe, pipeStep, hclient, if_pos hle, hmoved]
      rw [PipeState.deliver_entry hclient htarget]
      rfl

theorem mirrors_initial (cfg : Config) (files : Int → List UInt8) :
    Mirrors cfg files (.initial cfg) ⟨[], []⟩ where
  wired := by
    refine ⟨books_initial True cfg, aimed_initial cfg, fun slot hne hopen => ?_⟩
    simp [Piped.initial, Server.initial, hne] at hopen
  pipe := rfl
  count := rfl
  client := fun _ _ h => nomatch h
  socket := fun _ _ h => nomatch h
  own := fun _ _ _ _ h => nomatch h

/-- The loop and its kernel do to the pipe what clients do that are replied to. -/
theorem pipedLoop_simulates (cfg : Config) (files : Int → List UInt8) :
    Simulates (pipedLoop cfg files) (splicePipe cfg files) (Piped.pipeEvents cfg)
      (Mirrors cfg files) where
  start := by
    rintro w rfl
    exact ⟨_, rfl, mirrors_initial cfg files⟩
  step := fun _ _ _ _ h ht => h.step ht

/-- Without the pipe it is the loop. -/
theorem pipedLoop_loops (cfg : Config) (files : Int → List UInt8) :
    Simulates (pipedLoop cfg files) (listenLoop cfg) (fun _ e _ => [e])
      fun w s => s = w.server ∧ Books True cfg s ∧ s.Aimed cfg where
  start := by
    rintro w rfl
    exact ⟨_, rfl, rfl, books_initial True cfg, aimed_initial cfg⟩
  step := by
    rintro w v s e ⟨rfl, hb, haimed⟩ ht
    have hserver := (pipedStep_turn hb haimed ht).1
    refine ⟨v.server, ?_, rfl, books_step hb (.inl trivial) hserver, haimed.step hb hserver⟩
    simp only [run, listenLoop, hserver]

/-! Two clients that ask for the same path, each given a file of its own. -/

def pipeSite : StaticFiles Int where
  contents := pipeFiles
  mime := fun _ => ⟨ascii "text/csv", by decide⟩
  fd := id

/-- The handler has opened a file of the site. -/
def pipeServes (fd : Int) : Event := .handle ((pipeSite.calls fd).outcomes .granted)

/-- A client connects as descriptor 7 and another as 8; the first one's file goes
through the pipe, with `count` of its bytes, before the second one is answered. -/
def pipedEvents (request : List UInt8) (count : Nat) : List Event :=
  [.submit, .complete 0 7 [], .handle .granted, .drained, .submit,
    .complete 0 request.length request, .complete 0 8 [], pipeServes 10, .handle .granted,
    .drained, .submit, .complete 3 request.length request, .complete 0 58 [], .complete 0 2 [],
    .complete 0 count [], pipeServes 11] ++
  List.replicate 3 (.handle .granted) ++
  [.drained, .submit, .complete 1 58 [], .complete 1 2 [], .complete 1 2 []]

/-- What has been spliced to the two sockets. -/
def Piped.received (w : Piped) : List (Option (List UInt8)) :=
  [7, 8].map fun slot => (w.last slot).map LastReply.given

def rootLookup : List UInt8 := ascii "GET / HTTP/1.1\r\n\r\n"

theorem exists_pipedRun (request : List UInt8) (count : Nat) {β : Type} {f : Piped → β} {b : β}
    (h : ((run (pipedLoop fileConfig.watching pipeFiles) (pipedEvents request count)
      (.initial fileConfig.watching)).toOption.map f) = some b) :
    ∃ w, run (pipedLoop fileConfig.watching pipeFiles) (pipedEvents request count)
      (.initial fileConfig.watching) = .ok w ∧ f w = b :=
  exists_of_map_toOption h

/-! Runs. -/

/-- A run of the loop is, as far as the pipe goes, a run of clients that share it: the
replies are the clients, what has been spliced for a reply is what its client has been
given, and what is left of its chain in the ring is what is left for the client. -/
theorem pipedLoop_refines (cfg : Config) (files : Int → List UInt8) (es : List Event) (w : Piped)
    (h : run (pipedLoop cfg files) es (.initial cfg) = .ok w) :
    run (listenLoop cfg) es (Server.initial cfg) = .ok w.server ∧
      ∃ p, run (splicePipe cfg files)
          (seen (pipedLoop cfg files) (Piped.pipeEvents cfg) es (.initial cfg)) ⟨[], []⟩ = .ok p ∧
        p.pipe = w.pipe ∧ p.clients.length = w.replies ∧
        ∀ slot x, w.last slot = some x →
          p.clients[x.client]? = some (x.asClient files (w.server.chain slot)) := by
  constructor
  · obtain ⟨s, hs, rfl, -⟩ := (pipedLoop_loops cfg files).run_seen
      ⟨rfl, books_initial True cfg, aimed_initial cfg⟩ h
    rwa [seen_events h] at hs
  · obtain ⟨p, hp, hmirrors⟩ :=
      (pipedLoop_simulates cfg files).run_seen (mirrors_initial cfg files) h
    exact ⟨p, hp, hmirrors.pipe, hmirrors.count, hmirrors.client⟩

theorem pipedLoop_refines_both :
    ∃ w : Piped, w.received = [some (ascii "AA"), some (ascii "BB")] ∧
      ∃ p, run (splicePipe fileConfig.watching pipeFiles)
          (seen (pipedLoop fileConfig.watching pipeFiles) (Piped.pipeEvents fileConfig.watching)
            (pipedEvents rootLookup 2) (.initial fileConfig.watching)) ⟨[], []⟩ = .ok p ∧
        p.pipe = w.pipe := by
  obtain ⟨w, hw, hview⟩ := exists_pipedRun rootLookup 2 (f := Piped.received)
    (b := [some (ascii "AA"), some (ascii "BB")]) (by decide +kernel)
  obtain ⟨-, p, hp, hpipe, -⟩ := pipedLoop_refines fileConfig.watching pipeFiles _ w hw
  exact ⟨w, hview, p, hp, hpipe⟩

/-- No file is spliced into a pipe that still holds bytes. -/
def Piped.FillsEmpty (cfg : Config) (s : Piped) : Event → Prop
  | .complete index res _ => ∀ sqe ∈ s.server.inflight[index]?, 0 ≤ res →
      sqe.op.fills cfg = true → s.pipe = []
  | _ => True

instance (cfg : Config) (s : Piped) : (e : Event) → Decidable (s.FillsEmpty cfg e)
  | .complete index _ _ =>
      inferInstanceAs (Decidable (∀ sqe ∈ s.server.inflight[index]?, _ → _ → _))
  | .submit | .handle _ | .drained => .isTrue trivial

theorem Mirrors.fillsEmpty (h : Mirrors cfg files w p) {e : Event} (hg : w.FillsEmpty cfg e)
    (ht : pipedStep cfg files w e = .ok v) :
    Guarded (splicePipe cfg files) (FillsEmpty cfg) (w.pipeEvents cfg e v) p := by
  obtain ⟨-, hturn⟩ := pipedStep_turn h.wired.books h.wired.aimed ht
  generalize w.pipeEvents cfg e v = as at hturn
  generalize v.server = t at hturn
  have hsingle {a : PipeEvent} (ha : FillsEmpty cfg p a) :
      Guarded (splicePipe cfg files) (FillsEmpty cfg) [a] p := by
    refine ⟨ha, ?_⟩
    split <;> trivial
  cases hturn with
  | kept => trivial
  | replied => exact hsingle trivial
  | failed => exact hsingle trivial
  | @carried index res data sqe x pipe bytes hget htransfer hnonneg hlast hcut hchain =>
      refine hsingle fun client hclient sqe' hhead hfills => ?_
      rw [h.client _ _ hlast] at hclient
      obtain rfl := Option.mem_some.mp hclient
      simp only [LastReply.asClient, hcut, hchain, Bool.false_eq_true, if_false, List.head?_cons,
        Option.mem_some] at hhead
      exact h.pipe.trans (hg sqe hget hnonneg (hhead ▸ hfills))

theorem pipeInv_reach (hp : Reach (splicePipe cfg files) (FillsEmpty cfg) p) :
    PipeInv cfg files p := by
  refine hp.invariant (P := PipeInv cfg files) ?_ fun _ _ _ h hclear ht => h.step hclear ht
  rintro p rfl
  exact ⟨by simp, by simp, by simp⟩

theorem pipedLoop_pipeInv (hw : Reach (pipedLoop cfg files) (Piped.FillsEmpty cfg) w) :
    ∃ p, Mirrors cfg files w p ∧ PipeInv cfg files p := by
  obtain ⟨p, hp, hmirrors⟩ := (pipedLoop_simulates cfg files).reached_guarded
    (fun _ _ _ _ h hg ht => h.fillsEmpty hg ht) hw
  exact ⟨p, hmirrors, pipeInv_reach hp⟩

/-- While files go into an empty pipe only, what is spliced to a connection is from the
file behind its reply. -/
theorem pipedLoop_isolates (cfg : Config) (files : Int → List UInt8) (w : Piped)
    (hw : Reach (pipedLoop cfg files) (Piped.FillsEmpty cfg) w) (slot : Nat) (x : LastReply)
    (hlast : w.last slot = some x) : x.given <+: files x.answer.l.res.fileFd := by
  obtain ⟨p, hmirrors, hinv⟩ := pipedLoop_pipeInv hw
  exact (hinv.good x.client _ (hmirrors.client slot x hlast)).delivered

theorem pipedLoop_isolates_both :
    ∃ (w : Piped) (x : LastReply), w.last 8 = some x ∧ x.given = ascii "BB" ∧
      x.given <+: pipeFiles x.answer.l.res.fileFd := by
  obtain ⟨w, hw, hview⟩ := exists_pipedRun rootLookup 2
    (f := fun w => (w.last 8).map LastReply.given) (b := some (ascii "BB")) (by decide +kernel)
  obtain ⟨x, hlast, hgiven⟩ := Option.map_eq_some_iff.mp hview
  exact ⟨w, x, hlast, hgiven, pipedLoop_isolates fileConfig.watching pipeFiles w
    (reach_of_run (.start rfl) (by decide +kernel) hw) 8 x hlast⟩

/-- A byte that stays in the pipe goes to the next client. -/
theorem pipedLoop_not_isolates :
    ∃ (w : Piped) (x : LastReply), Reachable (pipedLoop fileConfig.watching pipeFiles) w ∧
      w.last 8 = some x ∧
      ¬ x.given <+: pipeFiles x.answer.l.res.fileFd := by
  obtain ⟨w, hw, hview⟩ := exists_pipedRun rootLookup 1
    (f := fun w => (w.last 8).map fun x => (x.given, pipeFiles x.answer.l.res.fileFd))
    (b := some (ascii "AB", ascii "BB")) (by decide +kernel)
  obtain ⟨x, hlast, hx⟩ := Option.map_eq_some_iff.mp hview
  obtain ⟨hgiven, hfile⟩ := Prod.mk.inj hx
  refine ⟨w, x, reachable_of_run rfl hw, hlast, ?_⟩
  rw [hgiven, hfile]
  decide

end L4Server
