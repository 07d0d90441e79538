import L4Server.SlotRuns

/-!
The descriptors of static files, in the build with `WATCH_STATIC_FILES`. There
`global_static_router` leaves the file open for the response to be spliced from;
it closes it itself only where `fstat` fails. `RESET` forgets the descriptor.
-/
namespace L4Server
open CMemory

/-! The static handler. -/

inductive FileCall
  | opens (fd : Int)
  | closes (fd : Int)
  deriving DecidableEq, Repr

/-- The successful `open` of `global_static_router` and its `close`, in order. -/
def StaticCalls.fileCalls (calls : StaticCalls) : List FileCall :=
  match calls.openFile with
  | none => []
  | some fd =>
      match calls.fstat with
      | none => [.opens fd, .closes fd]
      | some _ => [.opens fd]

/-- What it does to the response and returns, as outcomes of the routed handler. -/
def StaticCalls.outcomes (calls : StaticCalls) (out : Outcomes) : Outcomes :=
  match calls.openFile with
  | none => { out with ops := [], ret := handlerErrFileNotFound }
  | some fd =>
      match calls.fstat, calls.magicDescriptor with
      | some stSize, some mimeStr =>
          { out with
            ops := [.fileFd fd, .fileSz stSize, .status 200, .header contentType mimeStr]
            ret := handlerErrSuccess }
      | _, _ => { out with ops := [], ret := handlerErrGeneral }

/-- These are the outcomes of the source's function. -/
theorem StaticCalls.outcomes_globalStaticRouter (calls : StaticCalls) (out : Outcomes)
    (junk : Uninitialised) (data : Option (List UInt8)) (response : HttpResponse) :
    (calls.outcomes out).ret = (globalStaticRouter true calls junk data response).1 ∧
      HttpResponse.applyAll (calls.outcomes out).ops response =
        .ok (globalStaticRouter true calls junk data response).2.1 := by
  unfold StaticCalls.outcomes globalStaticRouter
  cases calls.openFile with
  | none => exact ⟨rfl, rfl⟩
  | some fd =>
      cases calls.fstat with
      | none => exact ⟨rfl, rfl⟩
      | some stSize =>
          cases calls.magicDescriptor with
          | none => exact ⟨rfl, rfl⟩
          | some mimeStr => exact ⟨rfl, rfl⟩

/-! The routed handler. -/

/-- The locals a resumption starts from, when it reaches the handler's loop. -/
def Coroutine.enters (out : Outcomes) : Option Coroutine → Option Locals
  | some .created => httpHandlerInit out
  | some (.started l) => some l
  | some .stopped | none => none

/-- The route whose handler is called for received bytes. -/
def routeOf (cfg : Config) (yielded : Nat) (l : Locals) (str : StringT) : Option Router :=
  if yielded = str.capacity then none
  else
    match httpParseRequest ⟨str.buf, [], l.req, 0⟩ yielded with
    | .error _ => none
    | .ok (ret, t) =>
        if ret = 0 then none
        else t.req.path.bind fun path => findRouter cfg.routers (cString t.mem path) t.req.method

/-- The route whose handler is called while a completion is handled. -/
def Server.route (cfg : Config) (out : Outcomes) (s : Server) (cqe : Cqe) : Option Router :=
  let conn := s.conns cqe.sqe.userData
  if conn.action = .recv ∧ 0 < cqe.res then
    (Coroutine.enters out conn.coro).bind fun l =>
      conn.str.bind fun str => routeOf cfg cqe.res.toNat l str
  else none

/-- Where no handler is called, its outcomes are not read. -/
theorem serveRequest_of_routeOf_none {cfg : Config} {yielded : Nat} {l : Locals} {str : StringT}
    (h : routeOf cfg yielded l str = none) (out : Outcomes) (ops : List ResponseOp) (ret : Int) :
    serveRequest cfg { out with ops := ops, ret := ret } yielded l str =
      serveRequest cfg out yielded l str := by
  unfold routeOf at h
  unfold serveRequest
  by_cases hfull : yielded = str.capacity
  · rw [if_pos hfull, if_pos hfull]
  · rw [if_neg hfull] at h
    rw [if_neg hfull, if_neg hfull]
    cases hparse : httpParseRequest ⟨str.buf, [], l.req, 0⟩ yielded with
    | error e => rfl
    | ok r =>
        obtain ⟨ret', t⟩ := r
        simp only [hparse] at h
        by_cases hret : ret' = 0
        · simp [hret, liftFault, bind, Except.bind]
        · rw [if_neg hret] at h
          simp only [liftFault, bind, Except.bind, hret, if_false, routeRequest]
          cases hpath : t.req.path with
          | none => rfl
          | some path =>
              rw [hpath, Option.bind_some] at h
              simp only [h]

/-- Which handler is called does not depend on what it does. -/
theorem Server.route_outcomes (cfg : Config) (s : Server) (calls : StaticCalls) (out : Outcomes)
    (cqe : Cqe) : s.route cfg (calls.outcomes out) cqe = s.route cfg out cqe := by
  have hinit : httpHandlerInit (calls.outcomes out) = httpHandlerInit out := by
    unfold StaticCalls.outcomes
    split
    · rfl
    · split <;> rfl
  have henters (coro : Option Coroutine) :
      Coroutine.enters (calls.outcomes out) coro = Coroutine.enters out coro := by
    unfold Coroutine.enters
    split
    · exact hinit
    · rfl
    · rfl
    · rfl
  simp only [Server.route, henters]

/-! The server with its files. -/

/-- An open file, with the slot and the session it was opened in. -/
structure OpenFile where
  fd : Int
  slot : Nat
  session : Nat
  deriving DecidableEq, Repr

/-- The open files after a call made for a slot. -/
def FileCall.apply (slot session : Nat) (files : List OpenFile) : FileCall → List OpenFile
  | .opens fd => ⟨fd, slot, session⟩ :: files
  | .closes fd => files.filter fun f => f.fd != fd

structure Watched where
  server : Server
  files : List OpenFile

/-- An event of the loop; `calls` are those of `global_static_router` where a
completion leads to it. -/
structure WatchEvent where
  event : Event
  calls : StaticCalls

/-- The build that watches its files. -/
def Config.watching (cfg : Config) : Config := { cfg with watch := true }

/-- The kernel hands out no descriptor that is open. -/
def Watched.free (s : Watched) (fd : Int) : Bool :=
  0 ≤ fd && !s.server.isOpen fd.toNat && !s.files.any fun f => f.fd == fd

/-- The slot and session of the completion that leads to the static handler. -/
def Watched.caller (cfg : Config) (static : Router → Bool) (s : Watched) :
    Event → Option (Nat × Nat)
  | .handle out =>
      match s.server.cq with
      | cqe :: _ =>
          if (s.server.route cfg.watching out cqe).any static then
            some (cqe.sqe.userData, (s.server.conns cqe.sqe.userData).session.number)
          else none
      | [] => none
  | _ => none

def Event.handles : Event → Bool
  | .handle _ => true
  | _ => false

/-- The outcomes of a handled completion, with those of the static handler. -/
def WatchEvent.resolve (e : WatchEvent) : Event :=
  match e.event with
  | .handle out => .handle (e.calls.outcomes out)
  | event => event

/-- One step; `static` says which routes have a path of a file. An accept does
not return the descriptor of an open file. -/
def watchStep (cfg : Config) (static : Router → Bool) (s : Watched) (e : WatchEvent) :
    Except Halt Watched :=
  match s.caller cfg static e.event with
  | some (slot, session) =>
      if e.calls.openFile.all s.free then do
        let server ← step cfg.watching s.server e.resolve
        return ⟨server, e.calls.fileCalls.foldl (FileCall.apply slot session) s.files⟩
      else .error .disabled
  | none => do
      let server ← step cfg.watching s.server e.event
      if s.files.any fun f => server.isOpen f.fd.toNat && !s.server.isOpen f.fd.toNat then
        throw .disabled
      return ⟨server, s.files⟩

def watchLoop (cfg : Config) (static : Router → Bool) :
    Automaton.Machine Watched WatchEvent Halt where
  start := fun s => s = ⟨Server.initial cfg, []⟩
  step := watchStep cfg static

/-- Every open file belongs to a session that is under way, and without an open
connection there is none. -/
structure Released (cfg : Config) (s : Watched) : Prop where
  owned : ∀ f ∈ s.files, s.server.isOpen f.slot = true ∧
    (s.server.conns f.slot).session.number = f.session
  idle : (∀ fd, fd ≠ cfg.listenFd → s.server.isOpen fd = false) → s.files = []

/-- The completion that is handled is not the last one of the reply to a request
for which a file is still open. -/
def RepliesOn (s : Watched) (e : WatchEvent) : Prop :=
  e.event.handles = true → ∀ cqe ∈ s.server.cq.head?, ∀ f ∈ s.files,
    f.slot = cqe.sqe.userData →
      (s.server.conns f.slot).curSteps + 1 ≠ (s.server.conns f.slot).totalSteps

instance (s : Watched) (e : WatchEvent) : Decidable (RepliesOn s e) :=
  inferInstanceAs (Decidable (_ → ∀ cqe ∈ s.server.cq.head?, ∀ f ∈ s.files, _ → _))

/-! Sessions with open files. -/

/-- The session of an open file, whose reply is outstanding. -/
structure OpenFile.Owned (cfg : Config) (s : Server) (f : OpenFile) : Prop where
  slot : f.slot ≠ cfg.listenFd
  isOpen : s.isOpen f.slot = true
  session : (s.conns f.slot).session.number = f.session
  transfer : ∃ sqe ∈ s.ops f.slot, sqe.op.isTransfer = true

variable {allow : Prop} {cfg : Config} {s t : Server} {f : OpenFile}

theorem OpenFile.Owned.phase (h : f.Owned cfg s) (hb : Books allow cfg s) :
    (s.conns f.slot).curSteps + (s.ops f.slot).length = (s.conns f.slot).totalSteps ∧
      ((s.conns f.slot).action = .send ∨ (s.conns f.slot).action = .splice) ∧
      (∃ l, (s.conns f.slot).coro = some (.started l)) ∧
      ∀ sqe ∈ s.ops f.slot, sqe.op.isTransfer = true := by
  obtain ⟨sqe, hmem, htransfer⟩ := h.transfer
  exact (hb.slots f.slot h.slot).of_transfer hmem htransfer

/-- The slot is not one that an accept is about to return. -/
theorem OpenFile.Owned.not_idle (h : f.Owned cfg s) (hb : Books allow cfg s) :
    ¬ (s.conns f.slot).Idle f.slot := by
  intro hidle
  obtain ⟨hcount, -⟩ := h.phase hb
  obtain ⟨sqe, hmem, -⟩ := h.transfer
  have hlength := List.length_pos_of_mem hmem
  have hcur := hidle.curSteps
  have htotal := hidle.totalSteps
  omega

/-- The turn on a completion of the reply. -/
theorem OpenFile.Owned.resume (h : f.Owned cfg s) (hb : Books allow cfg s) {out : Outcomes}
    {value : Int} {sq : List Sqe} {r : Resumed}
    (hr : coResumeValue cfg out value ⟨s.conns f.slot, f.slot, sq⟩ = .ok r) :
    r.closed = decide ((s.conns f.slot).curSteps + 1 = (s.conns f.slot).totalSteps) ∧
      r.ctx.sq = sq ∧ r.ctx.conn.session = (s.conns f.slot).session := by
  obtain ⟨-, haction, ⟨l, hcoro⟩, -⟩ := h.phase hb
  rw [coResumeValue_transfer haction hcoro hr]
  by_cases hlast : (s.conns f.slot).curSteps + 1 = (s.conns f.slot).totalSteps
  · simp only [hlast, if_true, decide_true]
    exact ⟨rfl, rfl, rfl⟩
  · simp only [hlast, if_false, decide_false]
    exact ⟨rfl, rfl, rfl⟩

/-- Of a reply that goes on there is something left. -/
theorem OpenFile.Owned.step (h : f.Owned cfg s) (hb : Books True cfg s) {e : Event}
    (hon : ∀ out cqe cq, e = .handle out → s.cq = cqe :: cq → cqe.sqe.userData = f.slot →
      (s.conns f.slot).curSteps + 1 ≠ (s.conns f.slot).totalSteps)
    (hstep : step cfg s e = .ok t) : f.Owned cfg t := by
  have hall := (h.phase hb).2.2.2
  have hview := s.ops_eq_view f.slot
  have hlive {ops : List Sqe} (hsub : ∀ sqe ∈ ops, sqe ∈ s.ops f.slot) (hne : ops ≠ []) :
      ∃ sqe ∈ ops, sqe.op.isTransfer = true := by
    obtain ⟨sqe, hmem⟩ := List.exists_mem_of_ne_nil ops hne
    exact ⟨sqe, hmem, hall sqe (hsub sqe hmem)⟩
  have hsame {ops : List Sqe} (hperm : ops.Perm (s.ops f.slot)) :
      ∃ sqe ∈ ops, sqe.op.isTransfer = true := by
    obtain ⟨sqe, hmem, htransfer⟩ := h.transfer
    exact ⟨sqe, hperm.mem_iff.mpr hmem, htransfer⟩
  have hslot := slot_step hb h.slot hstep
  have hops : t.ops f.slot = _ := t.ops_eq_view f.slot
  have hconn : t.conns f.slot = (t.view f.slot).conn := rfl
  have hopen : t.isOpen f.slot = (t.view f.slot).isOpen := rfl
  generalize t.view f.slot = v at hslot hops hconn hopen
  cases hslot with
  | same hc ho hp hd =>
      refine ⟨h.slot, by rw [hopen, ho, h.isOpen], by rw [hconn, hc, h.session], ?_⟩
      rw [hops]
      refine hsame ?_
      rw [hview, hd]
      exact hp.append_right _
  | accepted hc hclosed ho hp hd => exact absurd (hclosed.symm.trans h.isOpen) (by decide)
  | @completed index res data v sqe hallows hp hd hc ho =>
      have hnumber : (t.conns f.slot).session.number = (s.conns f.slot).session.number := by
        rw [hconn, hc]
        exact (ServerConnection.perform_same _ res data sqe.op).number
      refine ⟨h.slot, by rw [hopen, ho, h.isOpen], hnumber.trans h.session, ?_⟩
      rw [hops]
      refine hsame ?_
      rw [hview, hd, List.map_append, ← List.append_assoc]
      exact (List.perm_append_singleton sqe _).trans (hp.append_right _).symm
  | refused _ _ hidle _ _ _ _ _ _ => exact absurd hidle (h.not_idle hb)
  | entered hidle _ _ _ _ _ _ _ _ => exact absurd hidle (h.not_idle hb)
  | @resumed out v cqe cq r pushed hcq huser hr hsq _ hc ho hp hd =>
      obtain ⟨hclosed, hctx, hsession⟩ := h.resume hb hr
      have hnot := hon out cqe cq rfl hcq huser
      rw [hclosed, decide_eq_false hnot] at ho
      refine ⟨h.slot, by rw [hopen, ho]; exact h.isOpen, by rw [hconn, hc, hsession, h.session], ?_⟩
      have hpushed : pushed = [] := List.append_right_eq_self.mp (hsq.symm.trans hctx)
      rw [hpushed, List.append_nil] at hp
      rw [hops]
      rw [hd, List.map_cons] at hview
      have hperm : (cqe.sqe :: (v.pending ++ v.done.map (·.sqe))).Perm (s.ops f.slot) := by
        rw [hview]
        exact List.perm_middle.symm.trans (hp.append_right _)
      refine hlive (fun sqe hmem => hperm.mem_iff.mp (List.mem_cons_of_mem _ hmem)) fun hnil => ?_
      -- with nothing left it would have been the last completion
      have hlength := hperm.length_eq
      rw [hnil] at hlength
      have hcount := (h.phase hb).1
      simp only [List.length_singleton] at hlength
      omega

/-- The last one closes the connection, and no file. -/
theorem OpenFile.Owned.last (h : f.Owned cfg s) (hb : Books True cfg s) {out : Outcomes}
    {cqe : Cqe} {cq : List Cqe} (hcq : s.cq = cqe :: cq) (huser : f.slot = cqe.sqe.userData)
    (hlast : (s.conns f.slot).curSteps + 1 = (s.conns f.slot).totalSteps)
    (hstep : L4Server.step cfg s (.handle out) = .ok t) : t.isOpen f.slot = false := by
  obtain ⟨cqe', cq', hcq', hturn⟩ := step_handle_cases hstep
  obtain ⟨rfl, rfl⟩ := List.cons.inj (hcq.symm.trans hcq')
  obtain ⟨-, haction, -⟩ := h.phase hb
  rcases hturn with ⟨haccept, -⟩ | ⟨-, r, hr, rfl⟩
  · rw [← huser] at haccept
    rcases haction with hsend | hsplice
    · exact absurd (hsend.symm.trans haccept) (by decide)
    · exact absurd (hsplice.symm.trans haccept) (by decide)
  · rw [← huser] at hr ⊢
    have hfd : r.ctx.conn.fd = f.slot := by
      obtain ⟨sqe, hmem, -⟩ := h.transfer
      exact hb.resumed_fd h.slot hmem hr
    rw [Server.resumed_isOpen hfd, (h.resume hb hr).1, decide_eq_true hlast, if_pos rfl]

/-- A completion that leads to a routed handler is that of a `recv`. -/
theorem Server.route_recv {out : Outcomes} {cqe : Cqe} {rt : Router}
    (h : s.route cfg out cqe = some rt) :
    (s.conns cqe.sqe.userData).action = .recv ∧ 0 < cqe.res ∧
      ∃ l, Coroutine.enters out (s.conns cqe.sqe.userData).coro = some l := by
  unfold Server.route at h
  simp only at h
  split at h
  · next hrecv =>
    obtain ⟨l, hl, -⟩ := Option.bind_eq_some_iff.mp h
    exact ⟨hrecv.1, hrecv.2, l, hl⟩
  · cases h

/-- The reply to a request is outstanding when its turn ends. -/
theorem owned_opened (hb : Books True cfg s) {out : Outcomes} {cqe : Cqe} {cq : List Cqe}
    (hcq : s.cq = cqe :: cq) {rt : Router} (hroute : s.route cfg out cqe = some rt)
    (hstep : step cfg s (.handle out) = .ok t) (fd : Int) :
    (OpenFile.mk fd cqe.sqe.userData
      (s.conns cqe.sqe.userData).session.number).Owned cfg t := by
  obtain ⟨haction, hpos, l, hl⟩ := Server.route_recv hroute
  have hmem := Server.mem_ops_of_cq (s := s) (show cqe ∈ s.cq by simp [hcq])
  have hne : cqe.sqe.userData ≠ cfg.listenFd := by
    intro heq
    rw [heq, hb.listening] at haction
    cases haction
  have hopen : s.isOpen cqe.sqe.userData = true := by
    by_contra hclosed
    have hnil := ((hb.slots _ hne).of_closed (Bool.eq_false_iff.mpr hclosed)).1
    rw [hnil] at hmem
    cases hmem
  obtain ⟨cqe', cq', hcq', hturn⟩ := step_handle_cases hstep
  obtain ⟨rfl, rfl⟩ := List.cons.inj (hcq.symm.trans hcq')
  rcases hturn with ⟨haccept, -⟩ | ⟨-, r, hr, rfl⟩
  · rw [haction] at haccept
    cases haccept
  · have hfd : r.ctx.conn.fd = cqe.sqe.userData :=
      hb.resumed_fd hne hmem hr
    cases coResumeValue_recv haction hr with
    | stopped hcreated hinit =>
        rw [show (s.conns cqe.sqe.userData).coro = some .created from hcreated] at hl
        rw [Coroutine.enters, hinit] at hl
        cases hl
    | silent hneg _ => omega
    | reset hzero _ => omega
    | @served l l' d _ _ hserved =>
        obtain ⟨str, str', reply, -, -, hq⟩ := hserved.queued
        obtain ⟨sqe, hsqe⟩ := List.exists_mem_of_ne_nil _ (replySqes_ne_nil cfg out l'
          ⟨s.conns cqe.sqe.userData, cqe.sqe.userData, s.sq⟩ reply)
        obtain ⟨htransfer, huser, -⟩ := hq.transfers sqe hsqe
        refine ⟨hne, ?_, ?_, sqe, ?_, htransfer⟩
        · rw [Server.resumed_isOpen hfd]
          exact hopen
        · change (Function.update s.conns cqe.sqe.userData _ cqe.sqe.userData).session.number = _
          rw [Function.update_self]
          exact hq.number
        · refine Server.mem_ops.mpr ⟨?_, huser⟩
          simp only [Server.outstanding, List.mem_append]
          refine .inl (.inl ?_)
          change sqe ∈ d.sq
          rw [hq.sq]
          exact List.mem_append_right _ hsqe

/-! Runs. -/

variable {static : Router → Bool} {w v : Watched}

/-- A file that is opened stays open, but where `fstat` fails. -/
theorem fileCalls_apply {calls : StaticCalls} (h : calls.openFile.all w.free = true)
    (slot session : Nat) :
    calls.fileCalls.foldl (FileCall.apply slot session) w.files = w.files ∨
      ∃ fd, calls.fileCalls.foldl (FileCall.apply slot session) w.files =
        ⟨fd, slot, session⟩ :: w.files := by
  unfold StaticCalls.fileCalls
  cases hfd : calls.openFile with
  | none => exact .inl rfl
  | some fd =>
      cases calls.fstat with
      | some stSize => exact .inr ⟨fd, rfl⟩
      | none =>
          have hfresh : ∀ f ∈ w.files, (f.fd != fd) = true := by
            simp only [hfd, Option.all_some, Watched.free, Bool.and_eq_true, Bool.not_eq_true',
              List.any_eq_false, beq_iff_eq] at h
            simpa using h.2
          refine .inl ?_
          simp only [List.foldl_cons, List.foldl_nil, FileCall.apply]
          rw [List.filter_cons_of_neg (by simp), List.filter_eq_self]
          exact hfresh

/-- A step is one of the loop, after which there is at most one more open file. -/
theorem watchStep_cases {e : WatchEvent} (h : watchStep cfg static w e = .ok v) :
    ∃ event, event.handles = e.event.handles ∧ step cfg.watching w.server event = .ok v.server ∧
      (v.files = w.files ∨ ∃ out cqe cq rt fd, event = .handle out ∧ w.server.cq = cqe :: cq ∧
        w.server.route cfg.watching out cqe = some rt ∧
        v.files = ⟨fd, cqe.sqe.userData, (w.server.conns cqe.sqe.userData).session.number⟩ ::
          w.files) := by
  unfold watchStep at h
  split at h
  · next slot session hcaller =>
    split at h
    case isFalse => cases h
    next hfree =>
    obtain ⟨server, hserver, hv⟩ := bind_eq_ok.mp h
    cases hv
    unfold Watched.caller at hcaller
    split at hcaller
    case h_2 => cases hcaller
    next out hevent =>
    have hresolve : e.resolve = .handle (e.calls.outcomes out) := by
      unfold WatchEvent.resolve
      rw [hevent]
    split at hcaller
    case h_2 => cases hcaller
    next cqe cq hcq =>
    split at hcaller
    case isFalse => cases hcaller
    next hroute =>
    cases hcaller
    refine ⟨e.resolve, by rw [hresolve, hevent]; rfl, hserver, ?_⟩
    rcases fileCalls_apply hfree cqe.sqe.userData
      (w.server.conns cqe.sqe.userData).session.number with hkeep | ⟨fd, hopen⟩
    · exact .inl hkeep
    · obtain ⟨rt, hrt, -⟩ := (Option.any_eq_true _ _).mp hroute
      exact .inr ⟨_, cqe, cq, rt, fd, hresolve, hcq,
        (Server.route_outcomes cfg.watching w.server e.calls out cqe).trans hrt, hopen⟩
  · obtain ⟨server, hserver, h⟩ := bind_eq_ok.mp h
    split at h
    · cases h
    · cases h
      exact ⟨e.event, rfl, hserver, .inl rfl⟩

/-- Every open file belongs to a session with a reply outstanding. -/
structure Tracked (cfg : Config) (w : Watched) : Prop where
  books : Books True cfg.watching w.server
  owned : ∀ f ∈ w.files, f.Owned cfg.watching w.server

theorem Tracked.released (h : Tracked cfg w) : Released cfg w where
  owned := fun f hf => ⟨(h.owned f hf).isOpen, (h.owned f hf).session⟩
  idle := by
    intro hclosed
    refine List.eq_nil_iff_forall_not_mem.mpr fun f hf => ?_
    have hopen := (h.owned f hf).isOpen
    rw [hclosed f.slot (h.owned f hf).slot] at hopen
    cases hopen

theorem Tracked.step {e : WatchEvent} (h : Tracked cfg w) (hon : RepliesOn w e)
    (hstep : watchStep cfg static w e = .ok v) : Tracked cfg v := by
  obtain ⟨event, hhandles, hserver, hfiles⟩ := watchStep_cases hstep
  refine ⟨books_step h.books (.inl trivial) hserver, ?_⟩
  have hkept : ∀ f ∈ w.files, f.Owned cfg.watching v.server := by
    intro f hf
    refine (h.owned f hf).step h.books (fun out cqe cq hevent hcq huser => ?_) hserver
    refine hon ?_ cqe (by rw [hcq]; rfl) f hf huser.symm
    rw [← hhandles, hevent]
    rfl
  rcases hfiles with hsame | ⟨out, cqe, cq, rt, fd, rfl, hcq, hroute, hopened⟩
  · rw [hsame]
    exact hkept
  · intro f hf
    rw [hopened] at hf
    rcases List.mem_cons.mp hf with rfl | hold
    · exact owned_opened h.books hcq hroute hserver fd
    · exact hkept f hold

theorem watchLoop_tracked (hw : Automaton.Reach (watchLoop cfg static) RepliesOn w) :
    Tracked cfg w := by
  refine hw.invariant (P := Tracked cfg) ?_ fun _ _ _ h hon hstep => h.step hon hstep
  rintro w rfl
  exact ⟨books_initial True cfg.watching, nofun⟩

/-- No file outlives its session in the runs in which no reply to a request
comes to its end while the file is open; the first that does leaves it open. -/
theorem watchLoop_released_iff (cfg : Config) (static : Router → Bool) (w : Watched)
    (hw : Automaton.Reach (watchLoop cfg static) RepliesOn w) :
    Released cfg w ∧ ∀ e v, watchStep cfg static w e = .ok v →
      (Released cfg v ↔ RepliesOn w e) := by
  have htracked := watchLoop_tracked hw
  refine ⟨htracked.released, fun e v hstep => ⟨?_, fun hon => (htracked.step hon hstep).released⟩⟩
  intro hreleased hhandles cqe hhead f hf huser hlast
  obtain ⟨event, hevent, hserver, hfiles⟩ := watchStep_cases hstep
  obtain ⟨out, rfl⟩ : ∃ out, event = .handle out := by
    rw [hhandles] at hevent
    cases event with
    | handle out => exact ⟨out, rfl⟩
    | submit | complete _ _ _ | drained => cases hevent
  obtain ⟨cq, hcq⟩ := List.head?_eq_some_iff.mp hhead
  have hclosed := (htracked.owned f hf).last htracked.books hcq huser hlast hserver
  have hmem : f ∈ v.files := by
    rcases hfiles with hsame | ⟨_, _, _, _, _, -, -, -, hopened⟩
    · rw [hsame]
      exact hf
    · rw [hopened]
      exact List.mem_cons_of_mem _ hf
  rw [(hreleased.owned f hmem).1] at hclosed
  cases hclosed

/-- A server with one route, to a file. -/
def fileConfig : Config := { bareConfig with routers := [⟨ascii "/", methodGet⟩] }

/-- The file opens as descriptor 9. -/
def fileCalls (magic : Bool) : StaticCalls where
  openFile := some 9
  fstat := some 5
  magicDescriptor := if magic then some contentType else none
  mmap := none

/-- A client connects and asks for the file, and its request is handled. -/
def fileEvents (magic : Bool) : List WatchEvent :=
  [.submit, .complete 0 7 [], .handle .granted, .drained,
   .submit, .complete 0 18 (ascii "GET / HTTP/1.1\r\n\r\n"), .handle .granted].map
    fun event => ⟨event, fileCalls magic⟩

/-- What is asked for: the head and the file, into the pipe and out of it, or the 500. -/
def replyLengths (magic : Bool) : List Int := if magic then [62, 5, 5] else [36]

/-- What is queued for the client then completes whole, and is handled. -/
def sessionWithFile (magic : Bool) : List WatchEvent :=
  fileEvents magic ++
    ([Event.drained, .submit] ++ (replyLengths magic).map (Event.complete 1 · []) ++
      (replyLengths magic).map fun _ => Event.handle .granted).map
    fun event => ⟨event, fileCalls magic⟩

theorem exists_watchRun (es : List WatchEvent) {β : Type} {f : Watched → β} {b : β}
    (h : ((Automaton.run (watchLoop fileConfig fun _ => true) es
      ⟨Server.initial fileConfig, []⟩).toOption.map f) = some b) :
    ∃ w, Automaton.run (watchLoop fileConfig fun _ => true) es ⟨Server.initial fileConfig, []⟩ =
      .ok w ∧ f w = b :=
  exists_of_map_toOption h

theorem watchLoop_released_request :
    ∃ w, w.files = [⟨9, 7, 1⟩] ∧ Released fileConfig w ∧
      ∀ e v, watchStep fileConfig (fun _ => true) w e = .ok v →
        (Released fileConfig v ↔ RepliesOn w e) := by
  have hguarded : Automaton.Guarded (watchLoop fileConfig fun _ => true) RepliesOn
      (fileEvents true) ⟨Server.initial fileConfig, []⟩ := by decide +kernel
  obtain ⟨w, hw, hfiles⟩ := exists_watchRun (fileEvents true) (f := fun w => w.files)
    (b := [⟨9, 7, 1⟩]) (by decide +kernel)
  exact ⟨w, hfiles, watchLoop_released_iff _ _ w (Automaton.reach_of_run (.start rfl) hguarded hw)⟩

/-- The file stays open behind its session. -/
def Leaks (magic : Bool) : Prop :=
  ∃ w, Automaton.run (watchLoop fileConfig fun _ => true) (sessionWithFile magic)
        ⟨Server.initial fileConfig, []⟩ = .ok w ∧
      w.server.isOpen 7 = false ∧ w.files = [⟨9, 7, 1⟩] ∧ ¬ Released fileConfig w

theorem leaks_of_run {magic : Bool} {w : Watched}
    (hw : Automaton.run (watchLoop fileConfig fun _ => true) (sessionWithFile magic)
      ⟨Server.initial fileConfig, []⟩ = .ok w)
    (hview : (w.server.isOpen 7, w.files) = (false, [⟨9, 7, 1⟩])) : Leaks magic := by
  obtain ⟨hclosed, hfiles⟩ := Prod.mk.inj hview
  refine ⟨w, hw, hclosed, hfiles, fun hreleased => ?_⟩
  have hopen := (hreleased.owned ⟨9, 7, 1⟩ (by rw [hfiles]; simp)).1
  rw [hclosed] at hopen
  cases hopen

/-- It does so whether it has been sent or its type could not be told. -/
theorem watchLoop_leaks : Leaks true ∧ Leaks false := by
  obtain ⟨w, hw, hview⟩ := exists_watchRun (sessionWithFile true)
    (f := fun w => (w.server.isOpen 7, w.files)) (b := (false, [⟨9, 7, 1⟩])) (by decide +kernel)
  obtain ⟨v, hv, hview'⟩ := exists_watchRun (sessionWithFile false)
    (f := fun w => (w.server.isOpen 7, w.files)) (b := (false, [⟨9, 7, 1⟩])) (by decide +kernel)
  exact ⟨leaks_of_run hw hview, leaks_of_run hv hview'⟩

end L4Server
