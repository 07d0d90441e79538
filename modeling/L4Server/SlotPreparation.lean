import L4Server.Accounting

/-!
The preparation of a slot over whole runs. The accept path takes the coroutine
for the sign that a slot has been prepared, but a preparation that fails at the
string leaves the coroutine behind.
-/
namespace L4Server
open CMemory

/-- What the accept path relies on where it skips the preparation. -/
def ServerConnection.Usable (slot : Nat) (conn : ServerConnection) : Prop :=
  conn.coro.isSome = true → conn.str.isSome = true ∧ conn.fd = slot ∧ conn.svr = true

/-- Handling the next completion accepts `slot` and prepares it. -/
def Server.Prepares (s : Server) (slot : Nat) : Prop :=
  ∃ cqe cq, s.cq = cqe :: cq ∧ (s.conns cqe.sqe.userData).action = .accept ∧
    0 ≤ cqe.res ∧ cqe.res.toNat = slot ∧ (s.conns slot).coro = none

/-- Where a slot without a string gets its coroutine, both allocations of
`string_init` succeed. -/
def Outcomes.WholeFor (out : Outcomes) (conn : ServerConnection) : Prop :=
  out.coNew = true → conn.str = none → out.connStr = (true, true)

def PreparesWhole (s : Server) : Event → Prop
  | .handle out => ∀ slot, s.Prepares slot → out.WholeFor (s.conns slot)
  | _ => True

/-! One preparation. -/

theorem stringInit_eq_none_iff (malloc : Bool × Bool) (capacity : Nat) :
    stringInit malloc.1 malloc.2 capacity = none ↔ malloc ≠ (true, true) := by
  obtain ⟨mallocStr, mallocBuf⟩ := malloc
  cases mallocStr <;> cases mallocBuf <;> simp [stringInit]

theorem usable_of_coro {slot : Nat} {conn : ServerConnection} (h : conn.coro = none) :
    conn.Usable slot := by
  intro hsome
  simp [h] at hsome

/-- Exactly a whole preparation leaves the slot usable. -/
theorem prepareConnection_usable_iff {out : Outcomes} {slot : Nat} {conn : ServerConnection}
    (hcoro : conn.coro = none) :
    (prepareConnection out slot conn).2.Usable slot ↔ out.WholeFor conn := by
  unfold prepareConnection
  split
  · next hnew =>
    cases hstr : conn.str with
    | some str => exact iff_of_true (fun _ => ⟨rfl, rfl, rfl⟩) fun _ hnone => by simp [hstr] at hnone
    | none =>
        simp only
        cases hinit : stringInit out.connStr.1 out.connStr.2 defaultSvrBuflen with
        | some str =>
            refine iff_of_true (fun _ => ⟨rfl, rfl, rfl⟩) fun _ _ => ?_
            refine Decidable.byContradiction fun hne => ?_
            simp [(stringInit_eq_none_iff _ _).mpr hne] at hinit
        | none =>
            refine iff_of_false (fun h => ?_) fun h => ?_
            · have hsome := (h rfl).1
              simp at hsome
            · exact (stringInit_eq_none_iff _ _).mp hinit (h hnew hstr)
  · next hnew => exact iff_of_true (usable_of_coro hcoro) fun h => absurd h hnew

/-- A preparation that succeeds is whole. -/
theorem prepareConnection_ready {out : Outcomes} {slot : Nat} {conn conn' : ServerConnection}
    (h : prepareConnection out slot conn = (true, conn')) : conn'.Usable slot := by
  unfold prepareConnection at h
  split at h
  · simp only at h
    split at h
    · cases h
    · cases h
      exact fun _ => ⟨rfl, rfl, rfl⟩
  · cases h

/-- A preparation that has failed left no coroutine, or no string beside it. -/
theorem prepareConnection_failed {out : Outcomes} {slot : Nat} {conn conn' : ServerConnection}
    (hcoro : conn.coro = none) (h : prepareConnection out slot conn = (false, conn')) :
    conn'.coro = none ∨ conn'.str = none := by
  unfold prepareConnection at h
  split at h
  · simp only at h
    split at h
    · next hstr =>
      cases h
      refine .inr ?_
      cases hconn : conn.str with
      | none => rfl
      | some str => simp [hconn] at hstr
    · cases h
  · cases h
    exact .inl hcoro

/-! The other steps. -/

theorem suspend_svr (exit : Exit) (l : Locals) (c : Ctx) :
    (suspend exit l c).ctx.conn.svr = c.conn.svr := by
  cases exit <;> rfl

theorem RecvTurn.svr {cfg : Config} {out : Outcomes} {value : Int} {c : Ctx} {r : Resumed}
    (h : RecvTurn cfg out value c r) : r.ctx.conn.svr = c.conn.svr := by
  cases h with
  | stopped => rfl
  | silent | reset => exact suspend_svr _ _ _
  | served _ _ hserved =>
      obtain ⟨str, str', reply, -, -, hq⟩ := hserved.queued
      rw [suspend_svr, hq.svr]

theorem httpHandlerLoop_svr {cfg : Config} {out : Outcomes} {value : Int} {l : Locals}
    {c : Ctx} {r : Resumed} (hl : Enters out c.conn.coro l)
    (h : httpHandlerLoop cfg out value l c = .ok r) : r.ctx.conn.svr = c.conn.svr := by
  cases haction : c.conn.action with
  | recv => exact (httpHandlerLoop_recv haction hl h).svr
  | accept | none | send | splice =>
      simp only [httpHandlerLoop, haction] at h
      cases h
      exact suspend_svr _ _ _

theorem coResumeValue_svr {cfg : Config} {out : Outcomes} {value : Int} {c : Ctx} {r : Resumed}
    (h : coResumeValue cfg out value c = .ok r) :
    r.ctx.conn.svr = c.conn.svr ∧ c.conn.coro.isSome = true := by
  unfold coResumeValue at h
  split at h
  · cases h
  · cases h
  · next hcoro =>
    refine ⟨?_, by rw [hcoro]; rfl⟩
    split at h
    · cases h
      rfl
    · next l hinit => exact httpHandlerLoop_svr (hcoro ▸ .init hinit) h
  · next l hcoro => exact ⟨httpHandlerLoop_svr (hcoro ▸ .again l) h, by rw [hcoro]; rfl⟩

/-- The coroutine, the string, the descriptor and the back pointer are those of
before, or a resumption has renewed them. -/
structure Keeps (conn conn' : ServerConnection) : Prop where
  coro : conn'.coro.isSome = true → conn.coro.isSome = true
  str : conn.str.isSome = true → conn'.str.isSome = true
  fd : conn'.fd = conn.fd
  svr : conn'.svr = conn.svr

theorem Keeps.refl (conn : ServerConnection) : Keeps conn conn := ⟨id, id, rfl, rfl⟩

theorem Keeps.usable {slot : Nat} {conn conn' : ServerConnection} (h : Keeps conn conn')
    (hu : conn.Usable slot) : conn'.Usable slot := by
  intro hsome
  obtain ⟨hstr, hfd, hsvr⟩ := hu (h.coro hsome)
  exact ⟨h.str hstr, h.fd.trans hfd, h.svr.trans hsvr⟩

theorem ServerConnection.perform_keeps (conn : ServerConnection) (res : Int) (data : List UInt8)
    (op : Op) : Keeps conn (conn.perform res data op) := by
  cases op with
  | recv => exact ⟨id, by simp [ServerConnection.perform], rfl, rfl⟩
  | accept | send | splice => exact ⟨id, id, rfl, rfl⟩

theorem coResumeValue_keeps {cfg : Config} {out : Outcomes} {value : Int} {c : Ctx}
    {r : Resumed} (h : coResumeValue cfg out value c = .ok r) : Keeps c.conn r.ctx.conn := by
  obtain ⟨hsvr, hsome⟩ := coResumeValue_svr h
  have hr := coResumeValue_resumed h
  exact ⟨fun _ => hsome, hr.str, hr.fd, hsvr⟩

theorem ioUringPushRecv_keeps {c d : Ctx} {fd len : Nat} {link : Bool}
    (h : ioUringPushRecv c fd len link = .ok d) : Keeps c.conn d.conn := by
  obtain rfl := Ctx.push_eq_ok h
  exact ⟨id, id, rfl, rfl⟩

theorem acceptAgain_keeps {cfg : Config} {s t : Server} (h : acceptAgain cfg s = .ok t)
    (slot : Nat) : Keeps (s.conns slot) (t.conns slot) := by
  obtain ⟨c, hc, ht⟩ := bind_eq_ok.mp h
  cases ht
  obtain rfl := Ctx.push_eq_ok hc
  by_cases hslot : slot = cfg.listenFd
  · subst hslot
    simp only [Server.setConn, Function.update_self]
    exact ⟨id, id, rfl, rfl⟩
  · simp only [Server.setConn, Function.update_of_ne hslot]
    exact .refl _

/-! Whole runs. -/

def AllUsable (s : Server) : Prop := ∀ slot, (s.conns slot).Usable slot

variable {cfg : Config} {s t : Server}

theorem AllUsable.acceptAgain (hs : AllUsable s) (h : acceptAgain cfg s = .ok t) : AllUsable t :=
  fun slot => (acceptAgain_keeps h slot).usable (hs slot)

theorem AllUsable.setConn (hs : AllUsable s) {slot : Nat} {conn : ServerConnection}
    (h : conn.Usable slot) : AllUsable (s.setConn slot conn) := by
  intro other
  by_cases hother : other = slot
  · subst hother
    simpa only [Server.setConn, Function.update_self] using h
  · simpa only [Server.setConn, Function.update_of_ne hother] using hs other

theorem AllUsable.complete (hs : AllUsable s) {index : Nat} {res : Int} {data : List UInt8}
    (h : complete s index res data = .ok t) : AllUsable t := by
  obtain ⟨sqe, -, -, rfl⟩ := complete_eq_ok h
  have hperform : AllUsable (s.perform sqe res data) := by
    unfold Server.perform
    split
    · split
      · exact hs
      · exact hs
    · exact hs.setConn ((ServerConnection.perform_keeps _ _ _ _).usable (hs _))
  exact hperform

theorem Entry.usable {slot : Nat} {conn conn' : ServerConnection} (h : Entry slot conn conn')
    (hconn : conn.Usable slot) : conn'.Usable slot := by
  cases h with
  | reused hsome => exact hconn
  | prepared _ hprep => exact prepareConnection_ready hprep

/-- A completed accept, where the preparation it makes, if it makes one, is whole. -/
theorem AllUsable.handleAccept (hs : AllUsable s) {out : Outcomes} {ret : Int}
    (hwhole : 0 ≤ ret → (s.conns ret.toNat).coro = none → out.WholeFor (s.conns ret.toNat))
    (h : handleAccept cfg out s ret = .ok t) : AllUsable t := by
  cases handleAccept_turn h with
  | again _ h => exact hs.acceptAgain h
  | @entered conn str c hret hentry hstr hrecv h =>
      have hall : AllUsable { s.setConn ret.toNat c.conn with sq := c.sq } :=
        hs.setConn ((ioUringPushRecv_keeps hrecv).usable (hentry.usable (hs ret.toNat)))
      exact hall.acceptAgain h
  | @refused conn hret hcoro hprep h =>
      have hiff := @prepareConnection_usable_iff out ret.toNat (s.conns ret.toNat).enter hcoro
      rw [hprep] at hiff
      have hall : AllUsable ((s.setConn ret.toNat conn).setOpen ret.toNat false) :=
        hs.setConn (hiff.mpr (hwhole hret hcoro))
      exact hall.acceptAgain h

theorem AllUsable.step (hs : AllUsable s) {e : Event} (hwhole : PreparesWhole s e)
    (h : step cfg s e = .ok t) : AllUsable t := by
  cases e with
  | submit =>
      obtain ⟨-, rfl⟩ := step_submit_eq_ok h
      exact hs
  | complete index res data => exact hs.complete h
  | drained =>
      obtain ⟨-, -, rfl⟩ := step_drained_eq_ok h
      exact hs
  | handle out =>
      obtain ⟨cqe, cq, hcq, ⟨haction, h⟩ | ⟨haction, r, hr, rfl⟩⟩ := step_handle_cases h
      · exact AllUsable.handleAccept (s := { s with cq := cq }) hs
          (fun hret hcoro => hwhole cqe.res.toNat ⟨cqe, cq, hcq, haction, hret, rfl, hcoro⟩) h
      · exact hs.setConn ((coResumeValue_keeps hr).usable (hs cqe.sqe.userData))

theorem allUsable_reach (hs : Automaton.Reach (listenLoop cfg) PreparesWhole s) :
    AllUsable s := by
  refine hs.invariant ?_ fun s e t hs hwhole h => hs.step hwhole h
  rintro s rfl slot
  by_cases hslot : slot = cfg.listenFd
  · subst hslot
    exact usable_of_coro (by simp [Server.initial, ServerConnection.zero])
  · exact usable_of_coro (by simp [Server.initial, ServerConnection.zero, hslot])

/-- The preparation of `slot` that handling the next completion makes fails. -/
def Server.Refuses (s : Server) (out : Outcomes) (slot : Nat) : Prop :=
  s.Prepares slot ∧ (prepareConnection out slot (s.conns slot).enter).1 = false

theorem handleAccept_refuses {out : Outcomes} {ret : Int} (hret : 0 ≤ ret)
    (hcoro : (s.conns ret.toNat).coro = none)
    (hprep : (prepareConnection out ret.toNat (s.conns ret.toNat).enter).1 = false)
    (h : handleAccept cfg out s ret = .ok t) :
    acceptAgain cfg ((s.setConn ret.toNat
      (prepareConnection out ret.toNat (s.conns ret.toNat).enter).2).setOpen ret.toNat false) =
        .ok t := by
  have hnone : ¬ (s.conns ret.toNat).enter.coro.isSome = true := by
    simp [ServerConnection.enter, hcoro]
  unfold handleAccept at h
  rw [if_neg (by omega)] at h
  simp only [hnone] at h
  rcases hresult : prepareConnection out ret.toNat (s.conns ret.toNat).enter with ⟨ready, conn⟩
  rw [hresult] at hprep h
  obtain rfl : ready = false := hprep
  exact h

/-- After a failed preparation that is whole as far as it goes, the slot has no
coroutine, so that the next accept prepares it again. -/
theorem coro_of_refuses {out : Outcomes} {slot : Nat} (hwhole : PreparesWhole s (.handle out))
    (h : step cfg s (.handle out) = .ok t) (hrefuses : s.Refuses out slot) :
    (t.conns slot).coro = none := by
  obtain ⟨hprepares, hprep⟩ := hrefuses
  have hslot := hwhole slot hprepares
  obtain ⟨cqe, cq, hcq, haction, hret, rfl, hcoro⟩ := hprepares
  obtain ⟨cqe', cq', hcq', ⟨-, h⟩ | ⟨haction', -⟩⟩ := step_handle_cases h
  · obtain ⟨rfl, rfl⟩ := List.cons.inj (hcq.symm.trans hcq')
    have hagain := handleAccept_refuses (s := { s with cq := cq }) hret hcoro hprep h
    have hkeeps := acceptAgain_keeps hagain cqe.res.toNat
    have hiff := @prepareConnection_usable_iff out cqe.res.toNat (s.conns cqe.res.toNat).enter hcoro
    have hfailed := @prepareConnection_failed out cqe.res.toNat (s.conns cqe.res.toNat).enter _
      hcoro (Prod.ext hprep rfl)
    simp only [Server.setConn, Server.setOpen, Function.update_self] at hkeeps
    refine Option.not_isSome_iff_eq_none.mp fun hsome => ?_
    have hcreated := hkeeps.coro hsome
    have hstr := (hiff.mpr hslot hcreated).1
    rcases hfailed with hnone | hnone
    · simp [hnone] at hcreated
    · simp [hnone] at hstr
  · obtain ⟨rfl, rfl⟩ := List.cons.inj (hcq.symm.trans hcq')
    exact absurd haction haction'

/-- In runs whose preparations are whole every slot stays usable, and a failed
preparation leaves its slot to be prepared by the next accept. -/
theorem listenLoop_slots_usable (cfg : Config) (s : Server)
    (hs : Automaton.Reach (listenLoop cfg) PreparesWhole s) :
    (∀ slot, (s.conns slot).Usable slot) ∧
      ∀ out t, PreparesWhole s (.handle out) → step cfg s (.handle out) = .ok t →
        ∀ slot, s.Refuses out slot → (t.conns slot).coro = none :=
  ⟨allUsable_reach hs, fun _ _ hwhole h _ hrefuses => coro_of_refuses hwhole h hrefuses⟩

/-- Where a coroutine is there and no string, the next accept of the slot skips
the preparation and reads through the NULL string. -/
theorem step_null {out : Outcomes} {cqe : Cqe} {cq : List Cqe} (hwaiting : s.waiting = false)
    (hcq : s.cq = cqe :: cq) (haction : (s.conns cqe.sqe.userData).action = .accept)
    (hret : 0 ≤ cqe.res) (hcoro : (s.conns cqe.res.toNat).coro.isSome = true)
    (hstr : (s.conns cqe.res.toNat).str = none) :
    step cfg s (.handle out) = .error (.fault .null) := by
  have hcoro' : (s.conns cqe.res.toNat).enter.coro.isSome = true := hcoro
  have hstr' : (s.conns cqe.res.toNat).enter.str = none := hstr
  simp only [step, hwaiting, hcq, handleCqe, haction, if_true, handleAccept]
  rw [if_neg (by omega), hcoro', if_pos rfl]
  simp only [if_true, hstr']

/-- No allocation of the string struct. -/
def Outcomes.noString : Outcomes := { Outcomes.granted with connStr := (false, true) }

def Outcomes.noCoroutine : Outcomes := { Outcomes.granted with coNew := false }

/-- Descriptor 7 is accepted, with what `out` grants, and then accepted again. -/
def twoAccepts (out : Outcomes) : List Event :=
  [.submit, .complete 0 7 [], .handle out, .drained, .submit, .complete 0 7 []]

theorem listenLoop_slots_usable_refused :
    ∃ s, (s.conns 7).coro = none ∧ s.cq.map (·.res) = [7] ∧
      (∀ slot, (s.conns slot).Usable slot) ∧
      ∀ out t, PreparesWhole s (.handle out) → step bareConfig s (.handle out) = .ok t →
        ∀ slot, s.Refuses out slot → (t.conns slot).coro = none := by
  obtain ⟨s, hs, hview⟩ := exists_run bareConfig (twoAccepts .noCoroutine)
    (f := fun s => ((s.conns 7).coro.isSome, s.cq.map (·.res))) (b := (false, [7]))
    (by decide +kernel)
  obtain ⟨hcoro, hcq⟩ := Prod.mk.inj hview
  refine ⟨s, by simpa using hcoro, hcq, listenLoop_slots_usable bareConfig s ?_⟩
  refine Automaton.reach_of_run (.start rfl) (Automaton.guarded_of_forall ?_ _) hs
  intro e he s
  simp only [twoAccepts, List.mem_cons, List.not_mem_nil, or_false] at he
  rcases he with rfl | rfl | rfl | rfl | rfl | rfl
  · trivial
  · trivial
  · exact fun _ _ h => absurd h (by decide)
  all_goals trivial

/-- The string of descriptor 7 is not allocated; the second accept crashes. -/
theorem listenLoop_not_usable :
    ∃ s, Automaton.Reachable (listenLoop bareConfig) s ∧ ¬ (s.conns 7).Usable 7 ∧
      ∀ out, step bareConfig s (.handle out) = .error (.fault .null) := by
  obtain ⟨s, hs, hview⟩ := exists_run bareConfig (twoAccepts .noString)
    (f := fun s => decide ((s.conns 7).coro.isSome = true ∧ (s.conns 7).str.isSome = false ∧
      s.waiting = false ∧ s.cq.map (fun cqe => (cqe.sqe.userData, cqe.res)) = [(3, 7)] ∧
      (s.conns 3).action = .accept)) (b := true) (by decide +kernel)
  obtain ⟨hcoro, hstr, hwaiting, hcq, haction⟩ := of_decide_eq_true hview
  obtain ⟨cqe, cq, hcq, hcqe, -⟩ := List.map_eq_cons_iff.mp hcq
  obtain ⟨huser, hres⟩ := Prod.mk.inj hcqe
  refine ⟨s, Automaton.reachable_of_run rfl hs, fun h => ?_, fun out => ?_⟩
  · rw [(h hcoro).1] at hstr
    cases hstr
  · have hslot : cqe.res.toNat = 7 := by rw [hres]; rfl
    refine step_null hwaiting hcq (huser ▸ haction) (by rw [hres]; decide) (hslot ▸ hcoro) ?_
    rw [hslot]
    simpa using hstr

end L4Server
