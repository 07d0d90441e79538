import L4Server.Growth
import L4Server.SlotRuns

/-!
One coroutine serves the clients of its descriptor in turn. While no append
grows a string, each of them finds it as the first one did: what `RESET` leaves
is what the handler begins with, and every session but a broken one ends there.
-/
namespace L4Server
open CMemory

/-! What `RESET` restores. -/

/-- The locals with which the handler enters its loop. -/
def Locals.fresh : Locals where
  req := .cleared
  res := .cleared (.empty (2 ^ 21))
  fresstr := .empty (2 ^ 20)

theorem httpHandlerInit_eq_some {out : Outcomes} {l : Locals} (h : httpHandlerInit out = some l) :
    l = .fresh := by
  unfold httpHandlerInit at h
  split at h
  · next resStr fresstr hres hfres =>
    cases h
    obtain rfl := stringInit_eq_some hres
    obtain rfl := stringInit_eq_some hfres
    rfl
  · cases h

theorem httpHandlerInit_granted {out : Outcomes} (hres : out.resStr = (true, true))
    (hfres : out.fresStr = (true, true)) : httpHandlerInit out = some .fresh := by
  unfold httpHandlerInit
  rw [hres, hfres]
  rfl

/-- What `RESET` relies on. -/
structure Locals.Kept (l : Locals) : Prop where
  req : l.req.Provided
  res : l.res.Sized (2 ^ 21)
  fresstr : l.fresstr.capacity = 2 ^ 20

theorem Locals.fresh_kept : Locals.fresh.Kept :=
  ⟨HttpRequest.cleared_provided, ⟨⟨rfl, rfl⟩, rfl⟩, rfl⟩

theorem Locals.Kept.reset {l : Locals} (h : l.Kept) : l.reset = .fresh := by
  simp only [Locals.reset, Locals.fresh, HttpRequest.cleared, HttpResponse.cleared,
    h.req.query.clear, h.req.headers.clear, h.res.headers.clear, stringReset_eq, h.res.str,
    h.fresstr]

/-! A served request. -/

/-- The receive buffer of a slot, zero but for the `data` of this session. -/
def received (data : List UInt8) : StringT := (StringT.empty (2 ^ 21)).write data

theorem received_tail {data : List UInt8} {i : Nat} (hi : data.length ≤ i) (hlt : i < 2 ^ 21) :
    (received data).buf[i]? = some 0 :=
  (copyInto_getElem? hi).trans (List.getElem?_replicate_of_lt hlt)

theorem received_take {data : List UInt8} (hle : data.length ≤ 2 ^ 21) :
    (received data).buf.take data.length = data :=
  copyInto_take (hle.trans_eq (StringT.empty (2 ^ 21)).allocated.symm)

def receivedBuf (data : List UInt8) (hpos : 0 < data.length) (hlt : data.length < 2 ^ 21) :
    RecvBuf where
  mem := (received data).buf
  received := data.length
  capacity_ge := (by decide : 64 ≤ 2 ^ 21).trans_eq (received data).allocated.symm
  capacity_lt := (received data).allocated.trans_lt (by decide : 2 ^ 21 < 2 ^ 63)
  received_pos := hpos
  received_lt := hlt.trans_eq (received data).allocated.symm
  zero_tail := fun _ hi hi' => received_tail hi (hi'.trans_eq (received data).allocated)

theorem receivedBuf_bytes (data : List UInt8) (hpos : 0 < data.length)
    (hlt : data.length < 2 ^ 21) : (receivedBuf data hpos hlt).bytes = data :=
  received_take (Nat.le_of_lt hlt)

/-- Body and response fit the strings they are built in. -/
def Fits (out : Outcomes) (data : List UInt8) : Prop :=
  bodyLengths out.ops < 2 ^ 21 ∧
    (out.ret ≠ handlerErrFileNotFound → out.ret ≠ handlerErrGeneral →
      ∀ res, HttpResponse.applyAll out.ops (.cleared (.empty (2 ^ 21))) = .ok res →
        res.composedLength (protocolText data) < 2 ^ 20)

instance (out : Outcomes) (data : List UInt8) : Decidable (Fits out data) :=
  have : Decidable (∀ res, HttpResponse.applyAll out.ops (.cleared (.empty (2 ^ 21))) = .ok res →
      res.composedLength (protocolText data) < 2 ^ 20) :=
    match HttpResponse.applyAll out.ops (.cleared (.empty (2 ^ 21))) with
    | .ok res => decidable_of_iff (res.composedLength (protocolText data) < 2 ^ 20)
        ⟨fun h _ heq => Except.ok.inj heq ▸ h, fun h => h res rfl⟩
    | .error _ => .isTrue fun _ heq => by cases heq
  inferInstanceAs (Decidable (_ ∧ (_ → _ → _)))

variable {cfg : Config} {out : Outcomes} {data : List UInt8}

theorem routeRequest_kept {mem : List UInt8} {req : HttpRequest} {protocol : Nat}
    (hreq : req.Provided) (hprotocol : req.protocol = some protocol)
    (htext : cString mem protocol = protocolText data) (hfits : Fits out data)
    {reply : Reply} {l : Locals}
    (h : routeRequest cfg out mem { Locals.fresh with req := req } = .ok (reply, l)) : l.Kept := by
  have hfresh : Locals.Kept { Locals.fresh with req := req } :=
    ⟨hreq, Locals.fresh_kept.res, Locals.fresh_kept.fresstr⟩
  unfold routeRequest at h
  split at h
  · cases h
  split at h
  · cases h
    exact hfresh
  obtain ⟨res, hres, h⟩ := bind_eq_ok.mp h
  have hres := liftFault_eq_ok hres
  have hsized : res.Sized (2 ^ 21) := by
    refine HttpResponse.applyAll_sized (by decide) hfresh.res ?_ hres
    exact (Nat.zero_add _).trans_lt hfits.1
  split at h
  · cases h
    exact ⟨hreq, hsized, rfl⟩
  next hfound =>
  split at h
  · cases h
    exact ⟨hreq, hsized, rfl⟩
  next hgeneral =>
  obtain ⟨⟨composed, fresstr⟩, hcompose, h⟩ := bind_eq_ok.mp h
  have hcompose := liftFault_eq_ok hcompose
  cases h
  refine ⟨hreq, hsized, ?_⟩
  refine httpComposeResponse_capacity (by decide : 2 ^ 20 ≤ 2 ^ 64) ?_ hcompose
  intro protocol' hprotocol'
  obtain rfl : protocol = protocol' := Option.some.inj (hprotocol.symm.trans hprotocol')
  rw [htext]
  exact (Nat.zero_add _).trans_lt (hfits.2 hfound hgeneral res hres)

theorem httpParseRequest_ret {s t : Parse} {buflen : Nat} {ret : Int}
    (h : httpParseRequest s buflen = .ok (ret, t)) : ret = 0 ∨ ret = 1 := by
  obtain ⟨⟨accepted, u⟩, -, h⟩ := bind_eq_ok.mp h
  cases accepted with
  | false =>
      cases h
      exact .inl rfl
  | true =>
      obtain ⟨r, -, h⟩ := bind_eq_ok.mp h
      cases h
      exact .inr rfl

theorem serveRequest_kept (hpos : 0 < data.length) (hle : data.length ≤ 2 ^ 21)
    (hfits : Fits out data) {reply : Reply} {l : Locals} {str : StringT}
    (h : serveRequest cfg out data.length .fresh (received data) = .ok (reply, l, str)) :
    l.Kept ∧ str.capacity = 2 ^ 21 := by
  unfold serveRequest at h
  split at h
  · cases h
    exact ⟨Locals.fresh_kept, rfl⟩
  · next hfull =>
    have hlt : data.length < 2 ^ 21 := Nat.lt_of_le_of_ne hle hfull
    obtain ⟨ret', t', hparse', -, hprovided⟩ := httpParseRequest_keeps_safe
      (Safe.start (receivedBuf data hpos hlt)) HttpRequest.cleared_provided
      (receivedBuf data hpos hlt).capacity_ge (hlt.trans (by decide : 2 ^ 21 < 2 ^ 64)) rfl rfl
    obtain ⟨⟨ret, t⟩, hparse, h⟩ := bind_eq_ok.mp h
    have hparse := liftFault_eq_ok hparse
    obtain ⟨rfl, rfl⟩ := Prod.mk.inj (Except.ok.inj (hparse'.symm.trans hparse))
    simp only at h
    split at h
    · cases h
      exact ⟨⟨hprovided, Locals.fresh_kept.res, Locals.fresh_kept.fresstr⟩, rfl⟩
    · next hret =>
      obtain rfl := (httpParseRequest_ret hparse).resolve_left hret
      obtain ⟨protocol, hprotocol, htext⟩ :=
        httpParseRequest_protocol (b := receivedBuf data hpos hlt) hparse
      rw [receivedBuf_bytes] at htext
      obtain ⟨⟨reply', l'⟩, hroute, h⟩ := bind_eq_ok.mp h
      cases h
      exact ⟨routeRequest_kept hprovided hprotocol htext hfits hroute, rfl⟩

/-! What a connection keeps from session to session. -/

/-- Outside a reply the locals are fresh and the receive buffer holds nothing
but the `count` bytes of the last completion. -/
structure Tidy (conn : ServerConnection) (count : Nat) : Prop where
  svr : conn.coro.isSome = true → conn.str.isSome = true → conn.svr = true
  locals : ∀ l, conn.coro = some (.started l) → l.Kept ∧ (conn.totalSteps = 0 → l = .fresh)
  capacity : ∀ str, conn.str = some str → str.capacity = 2 ^ 21
  str : conn.totalSteps = 0 → conn.coro ≠ some .stopped → ∀ str, conn.str = some str →
    ∃ data, data.length = count ∧ str = received data

theorem received_nil : received [] = .empty (2 ^ 21) := StringT.write_nil _

theorem Tidy.zero : Tidy .zero 0 := ⟨nofun, nofun, nofun, nofun⟩

variable {conn conn' : ServerConnection} {slot : Nat} {count : Nat}

/-- A completed `recv` into a buffer that was empty. -/
theorem Tidy.perform_recv (h : Tidy conn 0) {res : Int} {data : List UInt8} {fd len : Nat}
    (hdata : data.length = res.toNat) :
    Tidy (conn.perform res data (.recv fd len)) res.toNat where
  svr := by simpa [ServerConnection.perform] using h.svr
  locals := h.locals
  capacity := by
    intro str hstr
    obtain ⟨old, hold, rfl⟩ := Option.map_eq_some_iff.mp hstr
    exact h.capacity old hold
  str := by
    intro htotal halive str hstr
    obtain ⟨old, hold, rfl⟩ := Option.map_eq_some_iff.mp hstr
    obtain ⟨none, hnone, rfl⟩ := h.str htotal halive old hold
    rw [List.length_eq_zero_iff.mp hnone, received_nil]
    exact ⟨data, hdata, rfl⟩

/-- The kernel leaves the connection alone when it completes a transfer. -/
theorem Tidy.perform_transfer (h : Tidy conn count) {op : Op} (hop : op.isTransfer = true)
    (htotal : conn.totalSteps ≠ 0) (res : Int) (data : List UInt8) (count' : Nat) :
    Tidy (conn.perform res data op) count' := by
  cases op with
  | send fd text more => exact ⟨h.svr, h.locals, h.capacity, fun hzero => absurd hzero htotal⟩
  | splice fdIn offIn fdOut offOut len =>
      exact ⟨h.svr, h.locals, h.capacity, fun hzero => absurd hzero htotal⟩
  | _ => cases hop

theorem prepareConnection_tidy (h : Tidy conn 0) (hcoro : conn.coro = none)
    (htotal : conn.totalSteps = 0) {fd : Nat} {ready : Bool}
    (hprep : prepareConnection out fd conn = (ready, conn')) : Tidy conn' 0 := by
  unfold prepareConnection at hprep
  split at hprep
  · simp only at hprep
    split at hprep
    · next hstr =>
      cases hprep
      have hnone : conn.str = none := by
        cases hc : conn.str with
        | none => rfl
        | some str => simp [hc] at hstr
      exact ⟨by simp [hnone], by simp, by simp [hnone], by simp [hnone]⟩
    · next str hstr =>
      cases hprep
      have hempty : str = received [] := by
        cases hc : conn.str with
        | none =>
            rw [hc] at hstr
            exact (stringInit_eq_some hstr).trans received_nil.symm
        | some old =>
            rw [hc] at hstr
            obtain rfl := Option.some.inj hstr
            obtain ⟨data, hdata, rfl⟩ := h.str htotal (by simp [hcoro]) old hc
            rw [List.length_eq_zero_iff.mp hdata]
      subst hempty
      refine ⟨fun _ _ => rfl, by simp, ?_, ?_⟩
      · rintro str ⟨⟩
        rfl
      · rintro - - str ⟨⟩
        exact ⟨[], rfl, rfl⟩
  · cases hprep
    exact h

theorem Tidy.enter (h : Tidy conn count) : Tidy conn.enter count :=
  ⟨h.svr, h.locals, h.capacity, h.str⟩

theorem Entry.tidy (h : Tidy conn 0) (htotal : conn.totalSteps = 0)
    (hentry : Entry slot conn conn') : Tidy conn' 0 := by
  cases hentry with
  | reused _ => exact h.enter
  | prepared hcoro hprep => exact prepareConnection_tidy h.enter hcoro htotal hprep

/-- A session begins with fresh locals. -/
theorem Enters.fresh (h : Tidy conn count) (htotal : conn.totalSteps = 0) {l : Locals}
    (henters : Enters out conn.coro l) : l = .fresh := by
  cases hcoro : conn.coro with
  | none =>
      rw [hcoro] at henters
      cases henters
  | some coro =>
      rw [hcoro] at henters
      cases henters with
      | init hinit => exact httpHandlerInit_eq_some hinit
      | again l => exact (h.locals l hcoro).2 htotal

/-- The connection suspended with fresh locals, its receive buffer still empty. -/
theorem Tidy.suspended (h : Tidy conn 0) (hcoro : conn.coro.isSome = true)
    (halive : conn.coro ≠ some .stopped) :
    Tidy { conn with coro := some (.started .fresh) } 0 where
  svr := fun _ hstr => h.svr hcoro hstr
  locals := by
    rintro l ⟨⟩
    exact ⟨Locals.fresh_kept, fun _ => rfl⟩
  capacity := h.capacity
  str := fun htotal _ => h.str htotal halive

/-- The connection behind `RESET`. -/
theorem Tidy.reset (h : Tidy conn count) (hcoro : conn.coro.isSome = true) {l : Locals}
    (hl : l.Kept) : Tidy { conn.reset with coro := some (.started l.reset) } 0 where
  svr := fun _ hstr => h.svr hcoro (by simpa [ServerConnection.reset] using hstr)
  locals := by
    rintro l' ⟨⟩
    rw [hl.reset]
    exact ⟨Locals.fresh_kept, fun _ => rfl⟩
  capacity := by
    intro str hstr
    obtain ⟨old, hold, rfl⟩ := Option.map_eq_some_iff.mp hstr
    exact h.capacity old hold
  str := by
    intro _ _ str hstr
    obtain ⟨old, hold, rfl⟩ := Option.map_eq_some_iff.mp hstr
    exact ⟨[], rfl, by rw [stringReset_eq, h.capacity old hold, received_nil]⟩

theorem RecvTurn.tidy {c : Ctx} {value : Int} {r : Resumed} (h : Tidy c.conn value.toNat)
    (htotal : c.conn.totalSteps = 0) (halive : c.conn.coro ≠ some .stopped)
    (hle : value ≤ 2 ^ 21)
    (hfits : ∀ str, c.conn.str = some str → Fits out (str.buf.take value.toNat))
    (hr : RecvTurn cfg out value c r) : Tidy r.ctx.conn 0 := by
  cases hr with
  | stopped hcoro _ =>
      exact ⟨fun _ => h.svr (by simp [hcoro]), by simp, h.capacity, fun _ hnot => absurd rfl hnot⟩
  | silent hneg henters =>
      obtain rfl := henters.fresh h htotal
      rw [Int.toNat_of_nonpos (by omega)] at h
      exact h.suspended henters.isSome halive
  | reset hzero henters =>
      obtain rfl := henters.fresh h htotal
      exact h.reset henters.isSome Locals.fresh_kept
  | @served l l' d hpos henters hserved =>
      obtain rfl := henters.fresh h htotal
      obtain ⟨str, str', reply, hstr, hserve, hq⟩ := hserved.queued
      obtain ⟨data, hlen, rfl⟩ := h.str htotal halive str hstr
      have hbytes : (received data).buf.take value.toNat = data := by
        rw [← hlen]
        exact received_take (by omega)
      obtain ⟨hkept, hcapacity⟩ := serveRequest_kept (by omega) (by omega)
        (hbytes ▸ hfits _ hstr) (hlen ▸ hserve)
      have hsteps : d.conn.totalSteps ≠ 0 := by
        have hpushed := List.length_pos_iff.mpr (replySqes_ne_nil cfg out l' c reply)
        have hcount := hq.totalSteps
        omega
      refine ⟨fun _ _ => ?_, ?_, ?_, fun hzero => absurd hzero hsteps⟩
      · exact hq.svr.trans (h.svr henters.isSome (by simp [hstr]))
      · rintro l ⟨⟩
        exact ⟨hkept, fun hzero => absurd hzero hsteps⟩
      · intro str hd
        obtain rfl := Option.some.inj (hq.str.symm.trans hd)
        exact hcapacity

theorem Tidy.transfer {c : Ctx} {l : Locals} (h : Tidy c.conn count)
    (hcoro : c.conn.coro = some (.started l)) (htotal : c.conn.totalSteps ≠ 0) (exit : Exit)
    (steps : Nat) :
    Tidy (suspend exit l { c with conn := { c.conn with curSteps := steps } }).ctx.conn 0 := by
  have hl := (h.locals l hcoro).1
  cases exit with
  | reset => exact h.reset (by simp [hcoro]) hl
  | yield =>
      refine ⟨fun _ => h.svr (by simp [hcoro]), ?_, h.capacity, fun hzero => absurd hzero htotal⟩
      rintro l' ⟨⟩
      exact ⟨hl, fun hzero => absurd hzero htotal⟩

/-! Every slot, throughout a run. -/

/-- The bytes a completed `recv` has put into the receive buffer. -/
def written : List Cqe → Nat
  | [] => 0
  | cqe :: _ => if cqe.sqe.op.isRecv then cqe.res.toNat else 0

theorem written_of_transfers {done : List Cqe}
    (h : ∀ cqe ∈ done, cqe.sqe.op.isTransfer = true) : written done = 0 := by
  cases done with
  | nil => rfl
  | cons cqe done => simp [written, Op.isRecv_of_isTransfer (h cqe (by simp))]

structure TidySlot (v : SlotView) : Prop where
  conn : Tidy v.conn (written v.done)
  asked : ∀ sqe ∈ v.pending, sqe.op.isRecv = true → ∃ fd, sqe.op = .recv fd (2 ^ 21)
  bounded : ∀ cqe ∈ v.done, cqe.sqe.op.isRecv = true → cqe.res ≤ 2 ^ 21

/-- The request that is served makes no append grow its string. -/
def AppendsFit (s : Server) : Event → Prop
  | .handle out => ∀ cqe cq str, s.cq = cqe :: cq → cqe.sqe.op.isRecv = true →
      (s.conns cqe.sqe.userData).str = some str → Fits out (str.buf.take cqe.res.toNat)
  | _ => True

instance (s : Server) : (e : Event) → Decidable (AppendsFit s e)
  | .handle out =>
      decidable_of_iff (∀ cqe ∈ s.cq.head?, cqe.sqe.op.isRecv = true →
          ∀ str ∈ (s.conns cqe.sqe.userData).str, Fits out (str.buf.take cqe.res.toNat))
        ⟨fun h cqe cq str hcq hrecv hstr => h cqe (by rw [hcq]; rfl) hrecv str hstr,
          fun h cqe hhead hrecv str hstr => by
            obtain ⟨cq, hcq⟩ := List.head?_eq_some_iff.mp hhead
            exact h cqe cq str hcq hrecv hstr⟩
  | .submit | .complete .. | .drained => .isTrue trivial

variable {s t : Server}

theorem TidySlot.same {v w : SlotView} (h : TidySlot v) (hconn : w.conn = v.conn)
    (hpending : w.pending.Perm v.pending) (hdone : w.done = v.done) : TidySlot w where
  conn := by
    rw [hconn, hdone]
    exact h.conn
  asked := fun sqe hmem => h.asked sqe (hpending.mem_iff.mp hmem)
  bounded := by
    rw [hdone]
    exact h.bounded

/-- A transfer that is outstanding has been counted. -/
theorem Phase.steps_ne_zero {allow arriving : Prop} {isOpen : Bool} {ops : List Sqe}
    (h : Phase allow arriving slot conn isOpen ops) {sqe : Sqe} (hmem : sqe ∈ ops)
    (hop : sqe.op.isTransfer = true) : conn.totalSteps ≠ 0 := by
  have hcount := (h.of_transfer hmem hop).1
  have hpos := List.length_pos_of_mem hmem
  omega

theorem TidySlot.complete {allow arriving : Prop} {v w : SlotView} (h : TidySlot v)
    (hphase : Phase allow arriving slot v.conn v.isOpen (v.pending ++ v.done.map (·.sqe)))
    {isOpen : Nat → Bool} {sqe : Sqe} {res : Int} {data : List UInt8}
    (hallows : sqe.op.allows isOpen res data = true)
    (hpending : v.pending.Perm (sqe :: w.pending)) (hdone : w.done = v.done ++ [⟨sqe, res⟩])
    (hconn : w.conn = v.conn.perform res data sqe.op) : TidySlot w := by
  have hsqe : sqe ∈ v.pending := hpending.mem_iff.mpr (by simp)
  have hmem := List.mem_append_left (v.done.map (·.sqe)) hsqe
  refine ⟨?_, fun other hother => ?_, fun cqe hcqe => ?_⟩
  · rw [hconn]
    rcases (hphase.of_mem hmem).1 with hrecv | htransfer
    · obtain ⟨fd, hop⟩ := h.asked sqe hsqe hrecv
      have hnone : v.done = [] := by
        have hlen := congrArg List.length (hphase.of_recv hmem hrecv).2.2.2
        have hpos := List.length_pos_of_mem hsqe
        simp only [List.length_append, List.length_map, List.length_singleton] at hlen
        exact List.length_eq_zero_iff.mp (by omega)
      have hdata : data.length = res.toNat := by
        rw [hop] at hallows
        simpa using (Bool.and_eq_true_iff.mp hallows).2
      have htidy := h.conn
      rw [hnone] at htidy
      rw [hdone, hnone, hop, List.nil_append, written, if_pos hrecv]
      exact htidy.perform_recv hdata
    · exact h.conn.perform_transfer htransfer (hphase.steps_ne_zero hmem htransfer) _ _ _
  · exact h.asked other (hpending.mem_iff.mpr (List.mem_cons_of_mem _ hother))
  · rw [hdone] at hcqe
    rcases List.mem_append.mp hcqe with hold | hnew
    · exact h.bounded cqe hold
    · obtain rfl := List.mem_singleton.mp hnew
      intro hrecv
      obtain ⟨fd, hop⟩ := h.asked sqe hsqe hrecv
      rw [hop] at hallows
      exact of_decide_eq_true (Bool.and_eq_true_iff.mp hallows).1

theorem TidySlot.resume {v w : SlotView} (h : TidySlot v)
    {allow arriving : Prop}
    (hphase : Phase allow arriving slot v.conn v.isOpen (v.pending ++ v.done.map (·.sqe)))
    {cqe : Cqe} {sq : List Sqe} {r : Resumed} {pushed : List Sqe}
    (hfits : cqe.sqe.op.isRecv = true → ∀ str, v.conn.str = some str →
      Fits out (str.buf.take cqe.res.toNat))
    (hr : coResumeValue cfg out cqe.res ⟨v.conn, slot, sq⟩ = .ok r)
    (htransfers : ∀ sqe ∈ pushed, sqe.op.isTransfer = true) (hconn : w.conn = r.ctx.conn)
    (hpending : w.pending.Perm (v.pending ++ pushed)) (hdone : v.done = cqe :: w.done) :
    TidySlot w := by
  have hmem : cqe.sqe ∈ v.pending ++ v.done.map (·.sqe) := by simp [hdone]
  refine ⟨?_, fun sqe hsqe => ?_, fun cqe' hcqe => ?_⟩
  · rw [hconn]
    have htidy := h.conn
    rw [hdone] at htidy
    rcases (hphase.of_mem hmem).1 with hrecv | htransfer
    · obtain ⟨hidle, haction, -, hops⟩ := hphase.of_recv hmem hrecv
      have hnone : w.done = [] := by
        have hlen := congrArg List.length hops
        simp only [hdone, List.length_append, List.length_map, List.length_cons,
          List.length_nil] at hlen
        exact List.length_eq_zero_iff.mp (by omega)
      rw [written, if_pos hrecv] at htidy
      rw [hnone]
      exact RecvTurn.tidy htidy hidle.totalSteps hidle.alive
        (h.bounded cqe (by simp [hdone]) hrecv) (hfits hrecv) (coResumeValue_recv haction hr)
    · obtain ⟨-, haction, ⟨l, hcoro⟩, hall⟩ := hphase.of_transfer hmem htransfer
      have hzero : written w.done = 0 := by
        refine written_of_transfers fun cqe' hcqe => hall _ ?_
        simp only [hdone, List.mem_append, List.mem_map]
        exact .inr ⟨cqe', List.mem_cons_of_mem _ hcqe, rfl⟩
      rw [hzero, coResumeValue_transfer haction hcoro hr]
      exact htidy.transfer hcoro (hphase.steps_ne_zero hmem htransfer) _ _
  · rcases List.mem_append.mp (hpending.mem_iff.mp hsqe) with hold | hnew
    · exact h.asked sqe hold
    · intro hrecv
      rw [Op.isRecv_of_isTransfer (htransfers sqe hnew)] at hrecv
      cases hrecv
  · exact h.bounded cqe' (by simp [hdone, hcqe])

theorem tidySlot_step (hne : slot ≠ cfg.listenFd) (hb : Books True cfg s) {e : Event}
    (hg : AppendsFit s e) (hp : TidySlot (s.view slot)) {v : SlotView}
    (h : SlotStep cfg s slot e v) : TidySlot v := by
  have hphase := hb.slots slot hne
  rw [s.ops_eq_view slot] at hphase
  cases h with
  | same hconn _ hpending hdone => exact hp.same hconn hpending hdone
  | accepted hconn _ _ hpending hdone => exact hp.same hconn hpending hdone
  | completed hallows hpending hdone hconn _ =>
      exact hp.complete hphase hallows hpending hdone hconn
  | refused _ _ hidle hnone hcoro hprep _ hpending hdone =>
      have htidy := hp.conn
      rw [hnone] at htidy
      refine ⟨?_, by simp [hpending], by simp [hdone]⟩
      rw [hdone]
      exact prepareConnection_tidy htidy.enter hcoro hidle.totalSteps hprep
  | entered hidle hnone hentry hstr hpush hconn _ hpending hdone =>
      have htidy := hp.conn
      rw [hnone] at htidy
      have hentered := hentry.tidy htidy hidle.totalSteps
      refine ⟨?_, ?_, by simp [hdone]⟩
      · rw [hdone, hconn, Ctx.push_eq_ok hpush]
        exact ⟨hentered.svr, hentered.locals, hentered.capacity, hentered.str⟩
      · rw [hpending]
        rintro sqe hmem -
        obtain rfl := List.mem_singleton.mp hmem
        exact ⟨slot, by rw [hentered.capacity _ hstr]⟩
  | @resumed out v cqe cq r pushed hcq huser hr hsq htransfers hconn _ hpending hdone =>
      refine hp.resume hphase (fun hrecv str hstr => ?_) hr htransfers hconn hpending hdone
      exact hg cqe cq str hcq hrecv (huser ▸ hstr)

theorem tidySlot_reach (hne : slot ≠ cfg.listenFd)
    (hs : Automaton.Reach (listenLoop cfg) AppendsFit s) : TidySlot (s.view slot) :=
  slot_reach hne ⟨Tidy.zero, nofun, nofun⟩
    (fun _ _ _ hb hg hp h => tidySlot_step hne hb hg hp h) hs

/-! A resumption does not look at how far its coroutine has come. -/

def Ctx.setCoro (c : Ctx) (coro : Coroutine) : Ctx :=
  { c with conn := { c.conn with coro := some coro } }

theorem Ctx.push_setCoro (c : Ctx) (coro : Coroutine) (action : Action) (steps : Nat) (op : Op)
    (link : Bool) : (c.setCoro coro).push action steps op link =
      (c.push action steps op link).map (·.setCoro coro) := by
  have hsq : (c.setCoro coro).sq = c.sq := rfl
  unfold Ctx.push
  rw [hsq]
  by_cases hroom : c.sq.length < queueDepth
  · rw [if_pos hroom, if_pos hroom]
    rfl
  · rw [if_neg hroom, if_neg hroom]
    rfl

theorem map_bind_setCoro {coro : Coroutine} {x : Except Halt Ctx} {f : Ctx → Except Halt Ctx}
    (h : ∀ c, f (c.setCoro coro) = (f c).map (·.setCoro coro)) :
    (x.map (·.setCoro coro) >>= f) = (x >>= f).map (·.setCoro coro) := by
  cases x with
  | error e => rfl
  | ok c => exact h c

theorem pushReply_setCoro (cfg : Config) (out : Outcomes) (l : Locals) (c : Ctx) (coro : Coroutine) (reply : Reply) :
    pushReply cfg out l (c.setCoro coro) reply =
      (pushReply cfg out l c reply).map (·.setCoro coro) := by
  unfold pushReply
  simp only [show (c.setCoro coro).conn.svr = c.conn.svr from rfl,
    show (c.setCoro coro).conn.fd = c.conn.fd from rfl]
  split
  · rfl
  · cases reply with
    | text line => exact c.push_setCoro coro _ _ _ _
    | composed =>
        simp only
        split
        · rw [ioUringPushSend, c.push_setCoro]
          refine map_bind_setCoro fun d => ?_
          rw [ioUringPushSplice, d.push_setCoro]
          exact map_bind_setCoro fun e => e.push_setCoro coro _ _ _ _
        · exact c.push_setCoro coro _ _ _ _

theorem recvBranch_setCoro (value : Int) (l : Locals) (c : Ctx) (coro : Coroutine) :
    recvBranch cfg out value l (c.setCoro coro) =
      (recvBranch cfg out value l c).map fun r => (r.1, r.2.1, r.2.2.setCoro coro) := by
  unfold recvBranch
  split
  · rfl
  split
  · rfl
  simp only [show (c.setCoro coro).conn.str = c.conn.str from rfl]
  split
  · rfl
  next str _ =>
  cases serveRequest cfg out value.toNat l str with
  | error e => rfl
  | ok r =>
      obtain ⟨reply, l', str'⟩ := r
      have hpush := pushReply_setCoro cfg out l'
        { c with conn := { c.conn with str := some str' } } coro reply
      simp only [Ctx.setCoro, bind, Except.bind] at hpush ⊢
      rw [hpush]
      cases pushReply cfg out l' { c with conn := { c.conn with str := some str' } } reply <;> rfl

theorem suspend_setCoro (exit : Exit) (l : Locals) (c : Ctx) (coro : Coroutine) :
    suspend exit l (c.setCoro coro) = suspend exit l c := by
  cases exit <;> rfl

theorem httpHandlerLoop_setCoro (cfg : Config) (out : Outcomes) (value : Int) (l : Locals) (c : Ctx) (coro : Coroutine) :
    httpHandlerLoop cfg out value l (c.setCoro coro) = httpHandlerLoop cfg out value l c := by
  unfold httpHandlerLoop
  simp only [show (c.setCoro coro).conn.action = c.conn.action from rfl]
  split
  · rw [recvBranch_setCoro]
    cases recvBranch cfg out value l c with
    | error e => rfl
    | ok r => exact congrArg Except.ok (suspend_setCoro _ _ _ coro)
  · exact congrArg Except.ok (suspend_setCoro _ l (sendBranch c).2 coro)
  · exact congrArg Except.ok (suspend_setCoro _ l (sendBranch c).2 coro)
  · exact congrArg Except.ok (suspend_setCoro _ l c coro)
  · exact congrArg Except.ok (suspend_setCoro _ l c coro)

/-! What every session finds. -/

/-- The connection as its first session has it when a `recv` has brought `data`. -/
def ServerConnection.first (slot : Nat) (data : List UInt8) (coro : Coroutine)
    (session : Session) : ServerConnection where
  fd := slot
  action := .recv
  curSteps := 0
  totalSteps := 0
  coro := some coro
  str := some (received data)
  svr := true
  session := session

/-- It is what `__prepare_connection`, the push of the `recv` and the kernel
make of a clear slot. -/
theorem ServerConnection.first_eq (slot : Nat) (data : List UInt8) (sq : List Sqe)
    (hroom : sq.length < queueDepth) :
    ∃ conn c, prepareConnection .granted slot ServerConnection.zero.enter = (true, conn) ∧
      ioUringPushRecv ⟨conn, slot, sq⟩ slot (2 ^ 21) false = .ok c ∧
      c.conn.perform data.length data (.recv slot (2 ^ 21)) =
        .first slot data .created ⟨1, [], []⟩ := by
  refine ⟨_, _, rfl, if_pos hroom, ?_⟩
  rfl

theorem ServerConnection.eq_first {coro : Coroutine} (hfd : conn.fd = slot)
    (haction : conn.action = .recv) (hcur : conn.curSteps = 0) (htotal : conn.totalSteps = 0)
    (hcoro : conn.coro = some coro) (hstr : conn.str = some (received data))
    (hsvr : conn.svr = true) : conn = .first slot data coro conn.session := by
  cases conn
  simp only at hfd haction hcur htotal hcoro hstr hsvr
  subst hfd haction hcur htotal hcoro hstr hsvr
  rfl

/-- A slot with a completed `recv` is as in a first session: its connection is,
up to whether the coroutine has been resumed before, and the handler does with
it what it does with the new one. -/
structure LikeFirst (cfg : Config) (s : Server) (cqe : Cqe) (data : List UInt8) : Prop where
  length : data.length = cqe.res.toNat
  conn : ∃ coro, (coro = .created ∨ coro = .started .fresh) ∧
    s.conns cqe.sqe.userData =
      .first cqe.sqe.userData data coro (s.conns cqe.sqe.userData).session
  resumes : ∀ out : Outcomes, out.resStr = (true, true) → out.fresStr = (true, true) →
    coResumeValue cfg out cqe.res ⟨s.conns cqe.sqe.userData, cqe.sqe.userData, s.sq⟩ =
      coResumeValue cfg out cqe.res
        ⟨.first cqe.sqe.userData data .created (s.conns cqe.sqe.userData).session,
          cqe.sqe.userData, s.sq⟩

theorem coResumeValue_first {value : Int} {session : Session} {sq : List Sqe} {coro : Coroutine}
    (hcoro : coro = .created ∨ coro = .started .fresh) (hres : out.resStr = (true, true))
    (hfres : out.fresStr = (true, true)) :
    coResumeValue cfg out value ⟨.first slot data coro session, slot, sq⟩ =
      coResumeValue cfg out value ⟨.first slot data .created session, slot, sq⟩ := by
  rcases hcoro with rfl | rfl
  · rfl
  · have hinit := httpHandlerInit_granted hres hfres
    have hloop := httpHandlerLoop_setCoro cfg out value .fresh
      ⟨.first slot data .created session, slot, sq⟩ (.started .fresh)
    simpa [coResumeValue, ServerConnection.first, Ctx.setCoro, hinit] using hloop

/-- While no append grows its string, every session begins like a first one. -/
theorem listenLoop_isolates (cfg : Config) (s : Server)
    (hs : Automaton.Reach (listenLoop cfg) AppendsFit s) (cqe : Cqe) (hmem : cqe ∈ s.cq)
    (hrecv : cqe.sqe.op.isRecv = true) : ∃ data, LikeFirst cfg s cqe data := by
  have hb := books_reachable hs.reachable
  have hops := Server.mem_ops_of_cq hmem
  have hne : cqe.sqe.userData ≠ cfg.listenFd := by
    intro huser
    simp [hb.op_of_listening hops huser, Op.isRecv] at hrecv
  obtain ⟨⟨hsvr, hlocals, -, hstr⟩, -, -⟩ := tidySlot_reach hne hs
  have hphase := hb.slots _ hne
  obtain ⟨hidle, haction, hsome, hsingle⟩ := hphase.of_recv hops hrecv
  obtain ⟨-, -, -, hcoroSome, halive, hfd⟩ := hphase.of_mem hops
  -- the completion is all that is outstanding for the slot
  have hdone : (s.view cqe.sqe.userData).done = [cqe] := by
    have hin : cqe ∈ (s.view cqe.sqe.userData).done := List.mem_filter.mpr ⟨hmem, by simp⟩
    have hlen := congrArg List.length ((s.ops_eq_view _).symm.trans hsingle)
    simp only [List.length_append, List.length_map, List.length_singleton] at hlen
    obtain ⟨front, rest, hsplit⟩ := List.append_of_mem hin
    simp only [hsplit, List.length_append, List.length_cons] at hlen
    rw [hsplit, List.length_eq_zero_iff.mp (show front.length = 0 by omega),
      List.length_eq_zero_iff.mp (show rest.length = 0 by omega), List.nil_append]
  obtain ⟨str, hstr'⟩ := Option.isSome_iff_exists.mp hsome
  obtain ⟨coro, hcoro⟩ := Option.isSome_iff_exists.mp hcoroSome
  obtain ⟨data, hlen, rfl⟩ := hstr hidle.totalSteps halive str hstr'
  rw [hdone, written, if_pos hrecv] at hlen
  have hbegins : coro = .created ∨ coro = .started .fresh := by
    cases coro with
    | created => exact .inl rfl
    | started l => exact .inr (by rw [(hlocals l hcoro).2 hidle.totalSteps])
    | stopped => exact absurd hcoro halive
  have hconn := ServerConnection.eq_first hfd haction hidle.curSteps hidle.totalSteps hcoro hstr'
    (hsvr hcoroSome hsome)
  refine ⟨data, hlen, ⟨coro, hbegins, hconn⟩, fun out hres hfres => ?_⟩
  rw [hconn]
  exact coResumeValue_first hbegins hres hfres

/-! Two sessions on one descriptor. -/

/-- A client sends `request`, is answered, and leaves descriptor 7 to a second one. -/
def sessionEvents (out : Outcomes) (request : List UInt8) (count : Int) : List Event :=
  [.submit, .complete 0 7 [], .handle out, .drained,
   .submit, .complete 0 request.length request, .handle out, .drained,
   .submit, .complete 1 count [], .handle out, .drained,
   .submit, .complete 0 7 [], .handle out, .drained,
   .submit, .complete 0 1 (ascii "y")]

/-- A handler that appends nothing and fails. -/
def Outcomes.failing : Outcomes := { Outcomes.granted with ret := handlerErrGeneral }

theorem fits_failing (data : List UInt8) : Fits .failing data :=
  ⟨by decide, fun _ hgeneral => absurd rfl hgeneral⟩

theorem listenLoop_isolates_second :
    ∃ s cqe, s.cq = [cqe] ∧ (s.conns 7).session.number = 2 ∧
      ∃ data, LikeFirst bareConfig s cqe data := by
  obtain ⟨s, hs, hview⟩ := exists_run bareConfig (sessionEvents .failing (ascii "x") 26)
    (f := fun s => (s.cq, (s.conns 7).session.number))
    (b := ([⟨⟨.recv 7 (2 ^ 21), 7, false, 2⟩, 1⟩], 2)) (by decide +kernel)
  obtain ⟨hcq, hnumber⟩ := Prod.mk.inj hview
  refine ⟨s, _, hcq, hnumber, listenLoop_isolates bareConfig s ?_ _ (by rw [hcq]; simp) rfl⟩
  refine Automaton.reach_of_run (.start rfl) (Automaton.guarded_of_forall ?_ _) hs
  intro e he s
  cases e with
  | handle out =>
      obtain rfl : out = .failing := by simpa [sessionEvents] using he
      exact fun _ _ _ _ _ _ => fits_failing _
  | _ => trivial

/-- A handler whose body of 2^21 bytes, NUL first, outgrows its string. -/
def Outcomes.outgrowing : Outcomes :=
  { Outcomes.failing with ops := [.body (List.replicate (2 ^ 21) 0) (2 ^ 21) (some [])] }

def routedConfig : Config := { bareConfig with routers := [⟨ascii "/", methodGet⟩] }

/-- `APPEND_RES_BODY` of `n` letters. -/
def appendLetters (n : Nat) : ResponseOp :=
  .body (List.replicate n 'a'.toUInt8) n (some [])

theorem apply_appendLetters_fresh {n : Nat} (hfit : n < 2 ^ 21) :
    ∃ res, Locals.fresh.res.apply (appendLetters n) = .ok res := by
  obtain ⟨out, hout⟩ := stringAppend_empty (some []) (by decide) hfit
    (Nat.le_of_eq (List.length_replicate (a := 'a'.toUInt8)).symm)
  exact ⟨_, bind_eq_ok.mpr ⟨_, hout, rfl⟩⟩

theorem apply_appendLetters_overruns {res : HttpResponse} {n : Nat}
    (hgrow : res.str.needsGrowth n = true) (hshort : oneShl (clzl (sizeAdd res.str.len n)) ≤ n) :
    ∃ f, res.apply (appendLetters n) = .error f := by
  obtain ⟨f, hf⟩ := stringAppend_overruns_replicate (b := 'a'.toUInt8) (by decide) [] hgrow hshort
  exact ⟨f, by simp only [HttpResponse.apply, appendLetters, hf]; rfl⟩

/-- The second client's handler appends 65536 bytes, for which there was room in
the slot's first session; what the first session has left overruns. -/
theorem listenLoop_not_isolates :
    ∃ s cqe l, Automaton.Reachable (listenLoop routedConfig) s ∧ s.cq = [cqe] ∧
      cqe.sqe.op.isRecv = true ∧ (s.conns cqe.sqe.userData).coro = some (.started l) ∧
      (∀ data, ¬ LikeFirst routedConfig s cqe data) ∧
      (∃ f, l.res.apply (appendLetters 65536) = .error f) ∧
      ∃ res, Locals.fresh.res.apply (appendLetters 65536) = .ok res := by
  obtain ⟨s, hs, hview⟩ := exists_run routedConfig
    (sessionEvents .outgrowing (ascii "GET / HTTP/1.1\r\n\r\n") 36)
    (f := fun s => (s.cq, ((s.conns 7).coro.bind Coroutine.locals).map fun l =>
      (l.res.str.capacity, l.res.str.len)))
    (b := ([⟨⟨.recv 7 (2 ^ 21), 7, false, 2⟩, 1⟩], some (1024, 0))) (by decide +kernel)
  obtain ⟨hcq, hcoro⟩ := Prod.mk.inj hview
  obtain ⟨l, hl, hstr⟩ := Option.map_eq_some_iff.mp hcoro
  obtain ⟨coro, hcoro, hl⟩ := Option.bind_eq_some_iff.mp hl
  obtain rfl := Coroutine.locals_eq_some hl
  obtain ⟨hcapacity, hlen⟩ := Prod.mk.inj hstr
  refine ⟨s, _, l, Automaton.reachable_of_run rfl hs, hcq, rfl, hcoro, ?_, ?_,
    apply_appendLetters_fresh (by decide)⟩
  · intro data hfirst
    obtain ⟨coro, hbegins, hconn⟩ := hfirst.conn
    have heq := (congrArg ServerConnection.coro hconn).symm.trans hcoro
    rcases hbegins with rfl | rfl
    · cases heq
    · cases heq
      exact absurd hcapacity (by decide)
  · refine apply_appendLetters_overruns ?_ ?_
    · rw [StringT.needsGrowth, hcapacity, hlen]
      decide
    · rw [hlen]
      decide

end L4Server
