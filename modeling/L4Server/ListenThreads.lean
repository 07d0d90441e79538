import L4Server.Accounting

/-!
The threads of `start_listening`. Each runs `io_uring_listen_loop` with a ring of
its own, on the server they share: it stores its ring in `svr->ring`, and every
later statement takes the ring from there. The statements of the threads and the
kernel's completions interleave in any order.
-/
namespace L4Server

/-- The entries of a completion queue, twice those of its submission queue. -/
def cqEntries : Nat := 2 * queueDepth

/-- An `io_uring`. `posted` keeps all completions it has been given; their number
is the tail of the completion queue, and `head` its head. -/
structure Ring where
  sq : List Sqe
  inflight : List Sqe
  posted : List Cqe
  head : Nat

def Ring.empty : Ring := ⟨[], [], [], 0⟩

/-- The completion that `cqes[head & mask]` holds: the last one put there. -/
def Ring.entryAt (ring : Ring) (head : Nat) : Option Nat :=
  let place := head % cqEntries
  if place < ring.posted.length then
    some (place + cqEntries * ((ring.posted.length - 1 - place) / cqEntries))
  else none

/-- Where a thread is: in front of `io_uring_queue_init_params`, of the first
accept, of `io_uring_submit_and_wait`, of `io_uring_for_each_cqe`, of one of its
turns, of `io_uring_cq_advance`; or out of the loop. -/
inductive ThreadPc
  | init
  | firstAccept
  | submit
  | forEach
  | turn (head count : Nat)
  | advance (count : Nat)
  | returned
  deriving DecidableEq, Repr

/-- A thread has handled a completion of a ring. -/
structure Handled where
  thread : Nat
  ring : Nat
  index : Nat
  deriving DecidableEq, Repr

/-- The server with its threads. A ring goes by the number of its thread; `ring`
is `svr->ring`. -/
structure Listening where
  conns : Nat → ServerConnection
  isOpen : Nat → Bool
  ring : Option Nat
  rings : Nat → Ring
  pcs : Nat → ThreadPc
  log : List Handled

/-- The next statement of a thread, and the kernel completing an entry of a ring. -/
inductive ThreadEvent
  | thread (t : Nat) (queueInit : Bool) (out : Outcomes)
  | complete (r index : Nat) (res : Int) (data : List UInt8)

def Listening.setPc (s : Listening) (t : Nat) (pc : ThreadPc) : Listening :=
  { s with pcs := Function.update s.pcs t pc }

/-- The server as a thread sees it that uses the ring. -/
def Listening.server (s : Listening) (r : Nat) : Server where
  conns := s.conns
  isOpen := s.isOpen
  sq := (s.rings r).sq
  inflight := (s.rings r).inflight
  cq := []
  waiting := false

def Listening.setServer (s : Listening) (r : Nat) (v : Server) : Listening :=
  { s with
    conns := v.conns
    isOpen := v.isOpen
    rings := Function.update s.rings r
      ⟨v.sq, v.inflight, (s.rings r).posted ++ v.cq, (s.rings r).head⟩ }

/-- `(struct io_uring *)svr->ring`, which is used as it is. -/
def Listening.fetch (s : Listening) : Except Halt Nat :=
  match s.ring with
  | some r => .ok r
  | none => .error (.fault .null)

/-- A turn of `io_uring_for_each_cqe`: the loop is left at the ring's tail. An
entry never written has no `user_data`. -/
def Listening.turn (cfg : Config) (s : Listening) (t : Nat) (out : Outcomes) (head count r : Nat) :
    Except Halt Listening :=
  if head = (s.rings r).posted.length then .ok (s.setPc t (.advance count))
  else
    match (s.rings r).entryAt head with
    | none => .error (.exit (-1))
    | some i =>
        match (s.rings r).posted[i]? with
        | none => .error (.exit (-1))
        | some cqe => do
            let v ← handleCqe cfg out (s.server r) cqe
            return { (s.setServer r v).setPc t (.turn (head + 1) (count + 1)) with
              log := s.log ++ [⟨t, r, i⟩] }

/-- The next statement of `io_uring_listen_loop`. -/
def Listening.run (cfg : Config) (s : Listening) (t : Nat) (queueInit : Bool) (out : Outcomes) :
    Except Halt Listening :=
  match s.pcs t with
  | .init =>
      if queueInit then .ok { s.setPc t .firstAccept with ring := some t }
      else .ok (s.setPc t .returned)
  | .firstAccept => do
      let r ← s.fetch
      let v ← acceptAgain cfg (s.server r)
      return (s.setServer r v).setPc t .submit
  | .submit => do
      let r ← s.fetch
      let v := s.server r
      return (s.setServer r { v with sq := [], inflight := v.inflight ++ v.sq }).setPc t .forEach
  | .forEach => do
      let r ← s.fetch
      return s.setPc t (.turn (s.rings r).head 0)
  | .turn head count => do
      let r ← s.fetch
      s.turn cfg t out head count r
  | .advance count => do
      let r ← s.fetch
      return { s.setPc t .submit with
        rings := Function.update s.rings r
          { s.rings r with head := (s.rings r).head + count } }
  | .returned => .error .disabled

/-- The kernel keeps a completion back while the queue is full. -/
def threadStep (cfg : Config) (threads : Nat) (s : Listening) :
    ThreadEvent → Except Halt Listening
  | .thread t queueInit out => if t < threads then s.run cfg t queueInit out else .error .disabled
  | .complete r index res data =>
      if (s.rings r).posted.length - (s.rings r).head < cqEntries then do
        let v ← complete (s.server r) index res data
        return s.setServer r v
      else .error .disabled

/-- The server when `start_listening` is called. -/
def Listening.initial (cfg : Config) : Listening where
  conns := fun _ => .zero
  isOpen := fun fd => fd == cfg.listenFd
  ring := none
  rings := fun _ => .empty
  pcs := fun _ => .init
  log := []

/-- `start_listening` with `threads_cnt` threads besides the calling one. -/
def startListening (cfg : Config) (threadsCnt : Int) :
    Automaton.Machine Listening ThreadEvent Halt where
  start := fun s => s = Listening.initial cfg
  step := threadStep cfg (threadsCnt.toNat + 1)

/-! Handled once. -/

/-- Whether the next statement takes the ring from `svr->ring`. -/
def ThreadPc.fetches : ThreadPc → Bool
  | .init | .returned => false
  | _ => true

/-- Whether the thread has come to its loop. -/
def ThreadPc.running : ThreadPc → Bool
  | .init | .firstAccept | .returned => false
  | _ => true

/-- The completions handled in the turns so far. -/
def ThreadPc.count : ThreadPc → Nat
  | .turn _ count | .advance count => count
  | _ => 0

/-- The completions behind those handled. -/
def Ring.pending (ring : Ring) (count : Nat) : List Cqe := ring.posted.drop (ring.head + count)

/-- The entries without a handled completion. -/
def Ring.outstanding (ring : Ring) (count : Nat) : List Sqe :=
  ring.sq ++ ring.inflight ++ (ring.pending count).map (·.sqe)

/-- What is outstanding in the ring of a thread. -/
def Listening.outstanding (s : Listening) (t : Nat) : List Sqe :=
  (s.rings t).outstanding (s.pcs t).count

/-- Every completion has been handled once, by the thread whose ring it is in, or
is in the ring of a thread that has come to its loop and not handled; and each
such thread has one accept outstanding in its ring. -/
structure HandledOnce (s : Listening) : Prop where
  owner : ∀ h ∈ s.log, h.thread = h.ring ∧ h.index < (s.rings h.ring).posted.length
  once : s.log.Nodup
  kept : ∀ r i, i < (s.rings r).posted.length →
    ⟨r, r, i⟩ ∈ s.log ∨
      (s.pcs r).running = true ∧ (s.rings r).head ≤ i ∧ (s.rings r).entryAt i = some i
  accept : ∀ t, (s.pcs t).running = true →
    ∃ sqe, (s.outstanding t).filter (fun sqe => sqe.op.isAccept) = [sqe]

/-- A thread that takes the ring from `svr->ring` takes its own. -/
def OwnRing (s : Listening) : ThreadEvent → Prop
  | .thread t _ _ => (s.pcs t).fetches = true → s.ring = some t
  | .complete _ _ _ _ => True

instance (s : Listening) : (e : ThreadEvent) → Decidable (OwnRing s e)
  | .thread t _ _ => inferInstanceAs (Decidable ((s.pcs t).fetches = true → s.ring = some t))
  | .complete _ _ _ _ => .isTrue trivial

end L4Server
