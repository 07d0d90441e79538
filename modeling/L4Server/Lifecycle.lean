import L4Server.Accounting
import L4Server.Library.Simulation

/-!
The life of a connection's descriptor, as a machine of its own: accepted, turned
away or waited on, answered by a few transfers, closed. Every run of the listen
loop, seen from one slot, is a run of that machine, so that what its stages bound
is bounded for the server.
-/
namespace L4Server
open CMemory Automaton

/-! The life of one descriptor. -/

/-- Closed; returned by an accept that is not handled yet; waiting for bytes;
with `left` transfers of its reply to be handled; open and forgotten. -/
inductive LifeStage
  | closed
  | arriving
  | receiving
  | answering (left : Nat)
  | stranded
  deriving DecidableEq, Repr

/-- What the kernel and the loop do to a descriptor. The last five are what the
handler does when it is resumed. -/
inductive Happening
  | accepted
  | refused
  | entered
  | hungUp
  | broken
  | answered (entries : Nat)
  | transferred
  | finished
  deriving DecidableEq, Repr

/-- A reply consists of one to `longest` transfers. -/
def LifeStage.next (longest : Nat) : LifeStage → Happening → Option LifeStage
  | .closed, .accepted => some .arriving
  | .arriving, .refused => some .closed
  | .arriving, .entered => some .receiving
  | .receiving, .hungUp => some .closed
  | .receiving, .broken => some .stranded
  | .receiving, .answered entries =>
      if 1 ≤ entries ∧ entries ≤ longest then some (.answering entries) else none
  | .answering (left + 2), .transferred => some (.answering (left + 1))
  | .answering 1, .finished => some .closed
  | _, _ => none

def lifecycle (longest : Nat) : Machine LifeStage Happening Unit where
  start := fun stage => stage = .closed
  step := fun stage happening => ((stage.next longest happening).map .ok).getD (.error ())

theorem lifecycle_step {longest : Nat} {a b : LifeStage} {happening : Happening} :
    (lifecycle longest).step a happening = .ok b ↔ a.next longest happening = some b := by
  cases h : a.next longest happening <;> simp [lifecycle, h]

theorem lifecycle_run_one {longest : Nat} {a b : LifeStage} {happening : Happening}
    (h : a.next longest happening = some b) : run (lifecycle longest) [happening] a = .ok b := by
  simp only [run, lifecycle_step.mpr h]

/-- The moves, one by one. -/
inductive LifeStage.Moves (longest : Nat) : LifeStage → Happening → LifeStage → Prop
  | accepted : Moves longest .closed .accepted .arriving
  | refused : Moves longest .arriving .refused .closed
  | entered : Moves longest .arriving .entered .receiving
  | hungUp : Moves longest .receiving .hungUp .closed
  | broken : Moves longest .receiving .broken .stranded
  | answered {entries : Nat} : 1 ≤ entries → entries ≤ longest →
      Moves longest .receiving (.answered entries) (.answering entries)
  | transferred {left : Nat} :
      Moves longest (.answering (left + 2)) .transferred (.answering (left + 1))
  | finished : Moves longest (.answering 1) .finished .closed

theorem LifeStage.next_moves {longest : Nat} {a b : LifeStage} {happening : Happening}
    (h : a.next longest happening = some b) : a.Moves longest happening b := by
  unfold LifeStage.next at h
  split at h
  · cases h; exact .accepted
  · cases h; exact .refused
  · cases h; exact .entered
  · cases h; exact .hungUp
  · cases h; exact .broken
  · split at h
    · next hentries =>
      cases h
      exact .answered hentries.1 hentries.2
    · cases h
  · cases h; exact .transferred
  · cases h; exact .finished
  · cases h

theorem lifecycle_moves {longest : Nat} {a b : LifeStage} {happening : Happening}
    (h : run (lifecycle longest) [happening] a = .ok b) : a.Moves longest happening b := by
  cases hstep : (lifecycle longest).step a happening with
  | error r => simp [run, hstep] at h
  | ok c =>
      simp only [run, hstep] at h
      cases h
      exact LifeStage.next_moves (lifecycle_step.mp hstep)

def LifeStage.isOpen : LifeStage → Bool
  | .closed => false
  | _ => true

/-- The descriptor is closed. -/
def Happening.closes : Happening → Nat
  | .refused | .hungUp | .finished => 1
  | _ => 0

def Happening.accepts : Happening → Nat
  | .accepted => 1
  | _ => 0

/-- The handler is resumed. -/
def Happening.resumes : Happening → Nat
  | .accepted | .refused | .entered => 0
  | _ => 1

/-- How often the handler may still be resumed before the descriptor is closed. -/
def LifeStage.ahead (longest : Nat) : LifeStage → Nat
  | .arriving | .receiving => longest + 1
  | .answering left => left
  | .closed | .stranded => 0

variable {longest : Nat} {stage : LifeStage} {life : List Happening}

/-- A life closes its descriptor as often as it has got it, but for the last time
where it is open. -/
theorem lifecycle_closes (h : run (lifecycle longest) life .closed = .ok stage) :
    (life.map Happening.accepts).sum =
      (life.map Happening.closes).sum + stage.isOpen.toNat := by
  have hle := run_amortized Happening.closes Happening.accepts (fun a => a.isOpen.toNat)
    (fun a e b hs => by
      cases LifeStage.next_moves (lifecycle_step.mp hs) <;>
        simp [Happening.closes, Happening.accepts, LifeStage.isOpen]) h
  have hge := run_amortized Happening.accepts Happening.closes (fun a => (!a.isOpen).toNat)
    (fun a e b hs => by
      cases LifeStage.next_moves (lifecycle_step.mp hs) <;>
        simp [Happening.closes, Happening.accepts, LifeStage.isOpen]) h
  have hclosed : LifeStage.isOpen .closed = false := rfl
  rw [hclosed] at hle hge
  cases hopen : stage.isOpen <;>
    simp only [hopen, Bool.toNat_true, Bool.toNat_false, Bool.not_true, Bool.not_false]
      at hle hge ⊢ <;>
    omega

/-- A life resumes the handler at most `longest + 1` times for each accept. -/
theorem lifecycle_resumes (h : run (lifecycle longest) life .closed = .ok stage) :
    (life.map Happening.resumes).sum + stage.ahead longest ≤
      (longest + 1) * (life.map Happening.accepts).sum := by
  have hrun := run_amortized Happening.resumes (fun e => (longest + 1) * e.accepts)
    (LifeStage.ahead longest) (fun a e b hs => by
      cases LifeStage.next_moves (lifecycle_step.mp hs) <;>
        simp only [Happening.resumes, Happening.accepts, LifeStage.ahead] <;> omega) h
  simpa [LifeStage.ahead, List.sum_map_mul_left] using hrun

/-! What is seen of a slot. -/

/-- The longest reply of a build: a send, and two splices where files are watched. -/
def Config.longestReply (cfg : Config) : Nat := if cfg.watch then 3 else 1

/-- What handling the completion `cqe` does to a slot. -/
def handledAs (cfg : Config) (slot : Nat) (s t : Server) (cqe : Cqe) : List Happening :=
  if cqe.sqe.userData = cfg.listenFd then
    if 0 ≤ cqe.res ∧ cqe.res.toNat = slot then [if t.isOpen slot then .entered else .refused]
    else []
  else if cqe.sqe.userData = slot then
    if cqe.sqe.op.isRecv then
      if t.isOpen slot then
        if t.sq.length = s.sq.length then [.broken]
        else [.answered (t.sq.length - s.sq.length)]
      else [.hungUp]
    else [if t.isOpen slot then .transferred else .finished]
  else []

/-- What the step from `s` to `t` does to a slot: the kernel returns it from an
accept, or the loop handles a completion of it. -/
def happenings (cfg : Config) (slot : Nat) (s : Server) (e : Event) (t : Server) :
    List Happening :=
  match e with
  | .complete index res _ =>
      match s.inflight[index]? with
      | some sqe =>
          if sqe.userData = cfg.listenFd ∧ 0 ≤ res ∧ res.toNat = slot then [.accepted] else []
      | none => []
  | .handle _ =>
      match s.cq with
      | cqe :: _ => handledAs cfg slot s t cqe
      | [] => []
  | .submit | .drained => []

/-- The stage of a slot, read off its descriptor and its operations. -/
inductive Server.Shows (cfg : Config) (s : Server) (slot : Nat) : LifeStage → Prop
  | closed : s.isOpen slot = false → s.ops slot = [] → Server.Shows cfg s slot .closed
  | arriving : s.isOpen slot = true → s.ops slot = [] → s.Arriving cfg slot →
      Server.Shows cfg s slot .arriving
  | receiving {sqe : Sqe} : s.isOpen slot = true → s.ops slot = [sqe] → sqe.op.isRecv = true →
      Server.Shows cfg s slot .receiving
  | answering {left : Nat} : s.isOpen slot = true → (s.ops slot).length = left → left ≠ 0 →
      (∀ sqe ∈ s.ops slot, sqe.op.isTransfer = true) → Server.Shows cfg s slot (.answering left)
  | stranded : s.isOpen slot = true → s.ops slot = [] → ¬ s.Arriving cfg slot →
      Server.Shows cfg s slot .stranded

variable {cfg : Config} {s t : Server} {slot : Nat}

theorem Server.Shows.isOpen_eq (h : s.Shows cfg slot stage) : s.isOpen slot = stage.isOpen := by
  cases h <;> assumption

theorem Server.Shows.keep (h : s.Shows cfg slot stage) (hopen : t.isOpen slot = s.isOpen slot)
    (hops : (t.ops slot).Perm (s.ops slot)) (harr : t.Arriving cfg slot ↔ s.Arriving cfg slot) :
    t.Shows cfg slot stage := by
  cases h with
  | closed ho hnil =>
      rw [hnil] at hops
      exact .closed (hopen.trans ho) hops.eq_nil
  | arriving ho hnil ha =>
      rw [hnil] at hops
      exact .arriving (hopen.trans ho) hops.eq_nil (harr.mpr ha)
  | receiving ho hone hrecv =>
      rw [hone] at hops
      exact .receiving (hopen.trans ho) hops.eq_singleton hrecv
  | answering ho hlen hleft hall =>
      exact .answering (hopen.trans ho) (hops.length_eq.trans hlen) hleft
        fun sqe hmem => hall sqe (hops.mem_iff.mp hmem)
  | stranded ho hnil ha =>
      rw [hnil] at hops
      exact .stranded (hopen.trans ho) hops.eq_nil fun h => ha (harr.mp h)

/-- A slot that an accept has returned is at the stage of its arrival. -/
theorem Server.Shows.arriving_of (hb : Books True cfg s) (h : s.Shows cfg slot stage)
    (harr : s.Arriving cfg slot) : stage = .arriving := by
  obtain ⟨cqe, hmem, huser, hres, rfl⟩ := harr
  obtain ⟨-, hopen, hops, -⟩ := hb.arrival cqe hmem huser hres
  cases h with
  | closed ho _ => simp [hopen] at ho
  | arriving => rfl
  | receiving _ hone _ => simp [hops] at hone
  | answering _ hlen hleft _ => simp [hops] at hlen; omega
  | stranded _ _ hnot => exact absurd ⟨cqe, hmem, huser, hres, rfl⟩ hnot

/-! The kernel's steps. -/

/-- An accept returns a descriptor that is closed, and opens it. -/
theorem Books.accept_opens (hb : Books True cfg s) {sqe : Sqe} (hmem : sqe ∈ s.ops sqe.userData)
    (huser : sqe.userData = cfg.listenFd) {res : Int} {data : List UInt8} (hres : 0 ≤ res)
    (hallows : sqe.op.allows s.isOpen res data = true) :
    s.isOpen res.toNat = false ∧ (s.perform sqe res data).isOpen res.toNat = true := by
  have hop := hb.op_of_listening hmem huser
  have hneg : ¬ res < 0 := by omega
  constructor
  · rw [hop] at hallows
    simpa [Op.allows, hneg] using (Bool.and_eq_true_iff.mp hallows).2
  · simp [Server.perform, hop, hneg, Server.setOpen]

theorem arriving_append (cfg : Config) (slot : Nat) {cqe : Cqe} (hcq : t.cq = s.cq ++ [cqe]) :
    t.Arriving cfg slot ↔ s.Arriving cfg slot ∨
      (cqe.sqe.userData = cfg.listenFd ∧ 0 ≤ cqe.res ∧ cqe.res.toNat = slot) := by
  simp only [Server.Arriving, hcq, List.mem_append, List.mem_singleton, or_and_right, exists_or,
    exists_eq_left]

theorem arriving_pop {cqe : Cqe} {cq : List Cqe} (hcq : s.cq = cqe :: cq) (htcq : t.cq = cq)
    (hother : ¬ (cqe.sqe.userData = cfg.listenFd ∧ 0 ≤ cqe.res ∧ cqe.res.toNat = slot)) :
    t.Arriving cfg slot ↔ s.Arriving cfg slot := by
  simp only [Server.Arriving, hcq, htcq, List.mem_cons, or_and_right, exists_or, exists_eq_left,
    hother, false_or]

theorem shows_complete (hb : Books True cfg s) (hshows : s.Shows cfg slot stage) {index : Nat}
    {res : Int} {data : List UInt8} (h : complete s index res data = .ok t) :
    ∃ stage', run (lifecycle longest) (happenings cfg slot s (.complete index res data) t) stage =
      .ok stage' ∧ t.Shows cfg slot stage' := by
  obtain ⟨sqe, hget, hallows, ht⟩ := complete_eq_ok h
  have hmem := Server.mem_ops_of_inflight (List.mem_of_getElem? hget)
  have htcq : t.cq = s.cq ++ [⟨sqe, res⟩] := by rw [ht]
  have hops := Server.ops_perm
    (complete_perm hget res (by rw [ht, Server.perform_sq]) (by rw [ht]) htcq) slot
  have harr := arriving_append cfg slot htcq
  simp only [happenings, hget]
  by_cases hreturned : sqe.userData = cfg.listenFd ∧ 0 ≤ res ∧ res.toNat = slot
  · obtain ⟨huser, hres, rfl⟩ := hreturned
    obtain ⟨hclosed, hopened⟩ := hb.accept_opens hmem huser hres hallows
    rw [if_pos ⟨huser, hres, rfl⟩]
    obtain ⟨rfl, hnil⟩ : stage = .closed ∧ s.ops res.toNat = [] := by
      cases hshows <;> simp_all
    rw [hnil] at hops
    exact ⟨.arriving, lifecycle_run_one rfl,
      .arriving (by rw [ht]; exact hopened) hops.eq_nil (harr.mpr (.inr ⟨huser, hres, rfl⟩))⟩
  · rw [if_neg hreturned]
    refine ⟨stage, rfl, hshows.keep ?_ hops (harr.trans (or_iff_left hreturned))⟩
    rw [ht]
    refine (perform_isOpen hb hmem hallows slot).resolve_right ?_
    rintro ⟨huser, hres, hslot, -, -⟩
    exact hreturned ⟨huser, hres, hslot.symm⟩

/-! The loop's steps. -/

/-- The operations of a slot when the first completion has been handled and
`pushed` has been queued. -/
theorem ops_handled {cqe : Cqe} {cq : List Cqe} {pushed : List Sqe} (hcq : s.cq = cqe :: cq)
    (hsq : t.sq = s.sq ++ pushed) (hinflight : t.inflight = s.inflight) (htcq : t.cq = cq)
    (slot : Nat) :
    ∃ rest, (s.ops slot).Perm ([cqe.sqe].filter (fun sqe => sqe.userData == slot) ++ rest) ∧
      (t.ops slot).Perm (rest ++ pushed.filter fun sqe => sqe.userData == slot) :=
  ⟨_, Server.ops_pop hcq slot,
    Server.ops_push (s := { s with cq := cq }) hsq hinflight htcq slot⟩

/-- A completion that is handled for another slot. -/
theorem Server.Shows.keep_handled (h : s.Shows cfg slot stage) {cqe : Cqe} {cq : List Cqe}
    {pushed : List Sqe} (hcq : s.cq = cqe :: cq) (hpop : cqe.sqe.userData ≠ slot)
    (hunreturned : ¬ (cqe.sqe.userData = cfg.listenFd ∧ 0 ≤ cqe.res ∧ cqe.res.toNat = slot))
    (hopen : t.isOpen slot = s.isOpen slot) (hsq : t.sq = s.sq ++ pushed)
    (hpushed : ∀ sqe ∈ pushed, sqe.userData ≠ slot) (hinflight : t.inflight = s.inflight)
    (htcq : t.cq = cq) : t.Shows cfg slot stage := by
  obtain ⟨rest, hbefore, hafter⟩ := ops_handled hcq hsq hinflight htcq slot
  rw [List.filter_eq_nil_iff.mpr (by simpa using hpop), List.nil_append] at hbefore
  rw [List.filter_eq_nil_iff.mpr (by simpa using hpushed), List.append_nil] at hafter
  exact h.keep hopen (hafter.trans hbefore.symm) (arriving_pop hcq htcq hunreturned)

/-- What a completed accept queues, and which descriptor it closes. -/
inductive AcceptPushed (cfg : Config) (s t : Server) (ret : Int) : Prop
  | again {accept : Sqe} : ret < 0 → accept.userData = cfg.listenFd → t.isOpen = s.isOpen →
      t.sq = s.sq ++ [accept] → AcceptPushed cfg s t ret
  | entered {accept recv : Sqe} : 0 ≤ ret → accept.userData = cfg.listenFd →
      recv.userData = ret.toNat → recv.op.isRecv = true → t.isOpen = s.isOpen →
      t.sq = s.sq ++ [recv, accept] → AcceptPushed cfg s t ret
  | refused {accept : Sqe} : 0 ≤ ret → accept.userData = cfg.listenFd →
      t.isOpen = Function.update s.isOpen ret.toNat false → t.sq = s.sq ++ [accept] →
      AcceptPushed cfg s t ret

theorem handleAccept_pushed {out : Outcomes} {ret : Int} (h : handleAccept cfg out s ret = .ok t) :
    AcceptPushed cfg s t ret ∧ t.inflight = s.inflight ∧ t.cq = s.cq := by
  cases handleAccept_turn h with
  | again hres hagain =>
      obtain ⟨-, -, hopen, hinflight, hcq, number, hsq⟩ := acceptAgain_eq hagain
      exact ⟨.again hres rfl hopen hsq, hinflight, hcq⟩
  | entered hres _ _ hpush hagain =>
      obtain ⟨-, -, hopen, hinflight, hcq, number, hsq⟩ := acceptAgain_eq hagain
      rw [Ctx.push_eq_ok hpush] at hsq
      refine ⟨.entered hres rfl rfl rfl hopen (hsq.trans (List.append_assoc _ _ _)), hinflight, hcq⟩
  | refused hres _ _ hagain =>
      obtain ⟨-, -, hopen, hinflight, hcq, number, hsq⟩ := acceptAgain_eq hagain
      exact ⟨.refused hres rfl hopen hsq, hinflight, hcq⟩

theorem shows_handleAccept (hb : Books True cfg s) (hne : slot ≠ cfg.listenFd)
    (hshows : s.Shows cfg slot stage) {cqe : Cqe} {cq : List Cqe} (hcq : s.cq = cqe :: cq)
    (huser : cqe.sqe.userData = cfg.listenFd) {out : Outcomes}
    (h : handleAccept cfg out { s with cq := cq } cqe.res = .ok t) :
    ∃ stage', run (lifecycle longest) (handledAs cfg slot s t cqe) stage = .ok stage' ∧
      t.Shows cfg slot stage' := by
  obtain ⟨hpushed, hinflight, htcq⟩ := handleAccept_pushed h
  simp only [handledAs, if_pos huser]
  by_cases hreturned : 0 ≤ cqe.res ∧ cqe.res.toNat = slot
  · obtain ⟨hres, rfl⟩ := hreturned
    have harr : s.Arriving cfg cqe.res.toNat := ⟨cqe, by simp [hcq], huser, hres, rfl⟩
    obtain ⟨-, hopen, hnil, -⟩ := hb.arrival cqe (by simp [hcq]) huser hres
    obtain rfl := hshows.arriving_of hb harr
    rw [if_pos ⟨hres, rfl⟩]
    cases hpushed with
    | again hneg _ _ _ => omega
    | entered _ haccept hrecv hop hto hsq =>
        obtain ⟨rest, hbefore, hafter⟩ := ops_handled hcq hsq hinflight htcq cqe.res.toNat
        obtain ⟨-, rfl⟩ := List.append_eq_nil_iff.mp (hnil ▸ hbefore).symm.eq_nil
        have hto' : t.isOpen cqe.res.toNat = true := (congrFun hto _).trans hopen
        simp only [List.filter_cons, List.filter_nil, hrecv, haccept, beq_self_eq_true, if_true,
          beq_false_of_ne (Ne.symm hne), Bool.false_eq_true, if_false, List.nil_append] at hafter
        rw [if_pos hto']
        exact ⟨.receiving, lifecycle_run_one rfl, .receiving hto' hafter.eq_singleton hop⟩
    | refused _ haccept hto hsq =>
        obtain ⟨rest, hbefore, hafter⟩ := ops_handled hcq hsq hinflight htcq cqe.res.toNat
        obtain ⟨-, rfl⟩ := List.append_eq_nil_iff.mp (hnil ▸ hbefore).symm.eq_nil
        have hto' : t.isOpen cqe.res.toNat = false := by rw [hto, Function.update_self]
        simp only [List.filter_cons, List.filter_nil, haccept, beq_false_of_ne (Ne.symm hne),
          Bool.false_eq_true, if_false, List.nil_append] at hafter
        rw [hto']
        exact ⟨.closed, lifecycle_run_one rfl, .closed hto' hafter.eq_nil⟩
  · -- the accept is about another descriptor, or has failed
    rw [if_neg hreturned]
    refine ⟨stage, rfl, ?_⟩
    have hopen : t.isOpen slot = s.isOpen slot := by
      cases hpushed with
      | again _ _ hto _ | entered _ _ _ _ hto _ => exact congrFun hto slot
      | refused hres _ hto _ =>
          rw [hto, Function.update_of_ne fun h => hreturned ⟨hres, h.symm⟩]
    obtain ⟨pushed, hsq, hothers⟩ : ∃ pushed, t.sq = s.sq ++ pushed ∧
        ∀ sqe ∈ pushed, sqe.userData ≠ slot := by
      cases hpushed with
      | again _ haccept _ hsq | refused _ haccept _ hsq =>
          exact ⟨_, hsq, by simpa [haccept] using Ne.symm hne⟩
      | entered hres haccept hrecv _ _ hsq =>
          have hret : cqe.res.toNat ≠ slot := fun h => hreturned ⟨hres, h⟩
          exact ⟨_, hsq, by simpa [haccept, hrecv, hret] using Ne.symm hne⟩
    exact hshows.keep_handled hcq (huser ▸ Ne.symm hne) (fun h => hreturned h.2) hopen hsq hothers
      hinflight htcq

theorem replySqes_length (cfg : Config) (out : Outcomes) (l : Locals) (c : Ctx) (reply : Reply) :
    (replySqes cfg out l c reply).length ≤ cfg.longestReply := by
  unfold replySqes Config.longestReply
  split
  · next h => simp [h.1]
  · split <;> simp

/-- What a resumption after a `recv` closes and queues. -/
inductive RecvSeen (cfg : Config) (c : Ctx) (r : Resumed) : Prop
  | broken : r.closed = false → r.ctx.sq = c.sq → RecvSeen cfg c r
  | hungUp : r.closed = true → r.ctx.sq = c.sq → RecvSeen cfg c r
  | answered {pushed : List Sqe} : r.closed = false → r.ctx.sq = c.sq ++ pushed → pushed ≠ [] →
      pushed.length ≤ cfg.longestReply →
      (∀ sqe ∈ pushed, sqe.op.isTransfer = true ∧ sqe.userData = c.slot) → RecvSeen cfg c r

theorem RecvTurn.seen {out : Outcomes} {value : Int} {c : Ctx} {r : Resumed}
    (h : RecvTurn cfg out value c r) : RecvSeen cfg c r := by
  cases h with
  | stopped _ _ => exact .broken rfl rfl
  | silent _ _ => exact .broken rfl rfl
  | reset _ _ => exact .hungUp rfl rfl
  | served _ _ hserved =>
      obtain ⟨str, str', reply, -, -, hq⟩ := hserved.queued
      exact .answered rfl hq.sq (replySqes_ne_nil _ _ _ _ _) (replySqes_length _ _ _ _ _)
        fun sqe hmem => ⟨(hq.transfers sqe hmem).1, (hq.transfers sqe hmem).2.1⟩

/-- What a resumption of the slot's own coroutine does to it. -/
theorem shows_resume_own (hb : Books True cfg s) (hshows : s.Shows cfg slot stage) {cqe : Cqe}
    {cq : List Cqe} (hcq : s.cq = cqe :: cq) (hslot : cqe.sqe.userData = slot)
    (hne : slot ≠ cfg.listenFd) {out : Outcomes} {r : Resumed}
    (hr : coResumeValue cfg out cqe.res ⟨s.conns slot, slot, s.sq⟩ = .ok r) :
    ∃ stage', run (lifecycle cfg.longestReply)
        (handledAs cfg slot s (s.resumed slot cq r) cqe) stage = .ok stage' ∧
      (s.resumed slot cq r).Shows cfg slot stage' := by
  have hmem : cqe.sqe ∈ s.ops slot := hslot ▸ Server.mem_ops_of_cq (by simp [hcq])
  have hfd : r.ctx.conn.fd = slot := hb.resumed_fd hne hmem hr
  have hphase := hb.slots slot hne
  have hunarrived : ¬ (s.resumed slot cq r).Arriving cfg slot := by
    rintro ⟨arrival, hold, huser, hres, hto⟩
    obtain ⟨-, -, hnil, -⟩ := hb.arrival arrival
      (hcq ▸ List.mem_cons_of_mem _ hold) huser hres
    simp [hto ▸ hnil] at hmem
  simp only [handledAs, if_neg (hslot ▸ hne), if_pos hslot]
  cases hshows with
  | closed _ hnil | arriving _ hnil _ | stranded _ hnil _ => simp [hnil] at hmem
  | @receiving sqe hopen hone hrecv =>
      obtain rfl : cqe.sqe = sqe := by simpa [hone] using hmem
      have hisOpen := @Server.resumed_isOpen_of_open s slot cq r hfd hopen
      rw [if_pos hrecv]
      -- the `recv` was all there was
      have hafter {pushed : List Sqe} (hsq : r.ctx.sq = s.sq ++ pushed) :
          ((s.resumed slot cq r).ops slot).Perm
            (pushed.filter fun sqe => sqe.userData == slot) := by
        obtain ⟨rest, hbefore, hafter⟩ :=
          ops_handled (t := s.resumed slot cq r) hcq hsq rfl rfl slot
        obtain rfl : rest = [] := by
          have hlen := hbefore.length_eq
          simpa [hone, hslot] using hlen
        exact hafter
      cases (coResumeValue_recv (hphase.of_recv hmem hrecv).2.1 hr).seen with
      | broken hclosed hsq =>
          rw [hclosed, Bool.not_false] at hisOpen
          have hlength : (s.resumed slot cq r).sq.length = s.sq.length := congrArg List.length hsq
          rw [if_pos hisOpen, if_pos hlength]
          exact ⟨.stranded, lifecycle_run_one rfl, .stranded hisOpen
            (hafter (hsq.trans (List.append_nil _).symm)).eq_nil hunarrived⟩
      | hungUp hclosed hsq =>
          rw [hclosed, Bool.not_true] at hisOpen
          rw [if_neg (by simp [hisOpen])]
          exact ⟨.closed, lifecycle_run_one rfl, .closed hisOpen
            (hafter (hsq.trans (List.append_nil _).symm)).eq_nil⟩
      | @answered pushed hclosed hsq hne hle hall =>
          have hperm := hafter hsq
          rw [List.filter_eq_self.mpr fun sqe hmem => by simpa using (hall sqe hmem).2] at hperm
          have hpos : 1 ≤ pushed.length := List.length_pos_iff.mpr hne
          have hlen : (s.resumed slot cq r).sq.length = s.sq.length + pushed.length :=
            (congrArg List.length hsq).trans List.length_append
          rw [hclosed, Bool.not_false] at hisOpen
          rw [if_pos hisOpen, if_neg (by omega), hlen, Nat.add_sub_cancel_left]
          exact ⟨.answering pushed.length,
            lifecycle_run_one (by simp only [LifeStage.next, if_pos (And.intro hpos hle)]),
            .answering hisOpen hperm.length_eq (by omega)
              fun sqe hmem => (hall sqe (hperm.mem_iff.mp hmem)).1⟩
  | @answering left hopen hlen hleft hall =>
      have hisOpen := @Server.resumed_isOpen_of_open s slot cq r hfd hopen
      have htransfer := hall _ hmem
      obtain ⟨hcount, haction, ⟨l, hcoro⟩, -⟩ := hphase.of_transfer hmem htransfer
      have hturn := coResumeValue_transfer haction hcoro hr
      have hsq : (s.resumed slot cq r).sq = s.sq ++ [] := by simp [Server.resumed, hturn]
      obtain ⟨rest, hbefore, hafter⟩ := ops_handled (t := s.resumed slot cq r) hcq hsq rfl rfl slot
      rw [List.filter_nil, List.append_nil] at hafter
      have hbefore' := hbefore.length_eq
      simp only [hslot, List.filter_cons, beq_self_eq_true, if_true, List.filter_nil,
        List.singleton_append, List.length_cons, hlen] at hbefore'
      have hclosed : r.closed = decide (left = 1) := by
        have hlast : (s.conns slot).curSteps + 1 = (s.conns slot).totalSteps ↔ left = 1 := by
          omega
        rw [hturn]
        by_cases h : left = 1
        · rw [if_pos (hlast.mpr h), decide_eq_true h]
          rfl
        · rw [if_neg (mt hlast.mp h), decide_eq_false h]
          rfl
      rw [hclosed] at hisOpen
      rw [if_neg (by simp [Op.isRecv_of_isTransfer htransfer])]
      by_cases hlast : left = 1
      · subst hlast
        have hnil : rest = [] := List.length_eq_zero_iff.mp (by omega)
        rw [hnil] at hafter
        rw [if_neg (by simp [hisOpen])]
        exact ⟨.closed, lifecycle_run_one rfl, .closed (by simpa using hisOpen) hafter.eq_nil⟩
      · obtain ⟨n, rfl⟩ : ∃ n, left = n + 2 := ⟨left - 2, by omega⟩
        have hisOpen' : (s.resumed slot cq r).isOpen slot = true := by simpa using hisOpen
        rw [if_pos hisOpen']
        exact ⟨.answering (n + 1), lifecycle_run_one rfl,
          .answering hisOpen' (hafter.length_eq.trans (by omega)) (by omega) fun sqe hsqe =>
            hall sqe (hbefore.symm.mem_iff.mp
              (List.mem_append_right _ (hafter.mem_iff.mp hsqe)))⟩

theorem shows_handle (hb : Books True cfg s) (hne : slot ≠ cfg.listenFd)
    (hshows : s.Shows cfg slot stage) {out : Outcomes} (h : step cfg s (.handle out) = .ok t) :
    ∃ stage', run (lifecycle cfg.longestReply) (happenings cfg slot s (.handle out) t) stage =
      .ok stage' ∧ t.Shows cfg slot stage' := by
  obtain ⟨cqe, cq, hcq, ⟨huser, h⟩ | ⟨huser, r, hr, rfl⟩⟩ := hb.handle_cases h
  · simp only [happenings, hcq]
    exact shows_handleAccept hb hne hshows hcq huser h
  · simp only [happenings, hcq]
    by_cases hslot : cqe.sqe.userData = slot
    · subst hslot
      exact shows_resume_own hb hshows hcq rfl huser hr
    · have hmem := Server.mem_ops_of_cq (s := s) (show cqe ∈ s.cq by simp [hcq])
      have hfd : r.ctx.conn.fd = cqe.sqe.userData := hb.resumed_fd huser hmem hr
      obtain ⟨pushed, hsq, hpushed⟩ := (coResumeValue_resumed hr).pushed
      rw [handledAs, if_neg huser, if_neg hslot]
      exact ⟨stage, rfl, hshows.keep_handled hcq hslot (fun h => huser h.1)
        (Server.resumed_other hfd (Ne.symm hslot)).2 hsq
        (fun sqe hmem => (hpushed sqe hmem).2 ▸ hslot) rfl rfl⟩

/-- The listen loop, seen from a slot of connections, is a life of its descriptor. -/
theorem lifecycle_simulates (cfg : Config) {slot : Nat} (hne : slot ≠ cfg.listenFd) :
    Simulates (listenLoop cfg) (lifecycle cfg.longestReply) (happenings cfg slot)
      (fun s stage => Books True cfg s ∧ s.Shows cfg slot stage) where
  start := by
    rintro s rfl
    refine ⟨.closed, rfl, books_initial True cfg, .closed (beq_false_of_ne hne) ?_⟩
    simp [Server.ops, Server.outstanding, Server.initial, Ne.symm hne]
  step := by
    rintro s t stage e ⟨hb, hshows⟩ h
    change L4Server.step cfg s e = .ok t at h
    have hbooks := books_step hb (.inl trivial) h
    suffices ∃ stage', run (lifecycle cfg.longestReply) (happenings cfg slot s e t) stage =
        .ok stage' ∧ t.Shows cfg slot stage' by
      obtain ⟨stage', hrun, ht⟩ := this
      exact ⟨stage', hrun, hbooks, ht⟩
    cases e with
    | submit =>
        obtain ⟨-, rfl⟩ := step_submit_eq_ok h
        refine ⟨stage, rfl, hshows.keep rfl ?_ Iff.rfl⟩
        refine Server.ops_perm ?_ slot
        simp only [Server.outstanding, List.nil_append]
        exact List.perm_append_comm.append_right _
    | complete index res data => exact shows_complete hb hshows h
    | handle out => exact shows_handle hb hne hshows h
    | drained =>
        obtain ⟨-, -, rfl⟩ := step_drained_eq_ok h
        exact ⟨stage, rfl, hshows.keep rfl (.refl _) Iff.rfl⟩

/-! Whole runs. -/

/-- What a run from the start does to a slot. -/
def lifeOf (cfg : Config) (slot : Nat) (es : List Event) : List Happening :=
  seen (listenLoop cfg) (happenings cfg slot) es (Server.initial cfg)

theorem lifeOf_run {es : List Event} (hne : slot ≠ cfg.listenFd)
    (hr : run (listenLoop cfg) es (Server.initial cfg) = .ok s) :
    ∃ stage, run (lifecycle cfg.longestReply) (lifeOf cfg slot es) .closed = .ok stage ∧
      s.Shows cfg slot stage := by
  obtain ⟨stage, rfl, hstart⟩ := (lifecycle_simulates cfg hne).start _ rfl
  obtain ⟨stage', hrun, -, hshows⟩ := (lifecycle_simulates cfg hne).run_seen hstart hr
  exact ⟨stage', hrun, hshows⟩

/-- Of a reply, what is left of it is still to be counted; else nothing is counted. -/
def LifeStage.Counts (conn : ServerConnection) : LifeStage → Prop
  | .answering left => conn.curSteps + left = conn.totalSteps
  | .closed | .arriving | .receiving | .stranded => conn.curSteps = 0 ∧ conn.totalSteps = 0

theorem Server.Shows.counts (hb : Books True cfg s) (hne : slot ≠ cfg.listenFd)
    (h : s.Shows cfg slot stage) : stage.Counts (s.conns slot) := by
  have hphase := hb.slots slot hne
  cases h with
  | closed ho hnil | arriving ho hnil _ | stranded ho hnil _ =>
      cases hphase with
      | closed _ _ hidle | arriving _ _ _ hidle => exact ⟨hidle.curSteps, hidle.totalSteps⟩
      | receiving sqe _ hone => simp [hnil] at hone
      | sending _ _ hsome => exact absurd hnil hsome
      | stranded _ _ _ hcur htotal => exact ⟨hcur, htotal⟩
  | @receiving sqe ho hone hrecv =>
      have hidle := (hphase.of_recv (by simp [hone] : sqe ∈ s.ops slot) hrecv).1
      exact ⟨hidle.curSteps, hidle.totalSteps⟩
  | @answering left ho hlen hleft hall =>
      obtain ⟨sqe, hmem⟩ := List.exists_mem_of_length_pos (Nat.pos_of_ne_zero (hlen ▸ hleft))
      have hcount := (hphase.of_transfer hmem (hall sqe hmem)).1
      rwa [hlen] at hcount

/-- Every run of the listen loop is, for each descriptor but the listening one, a
life of the descriptor that ends at the stage the server shows and its slot counts. -/
theorem listenLoop_lives (cfg : Config) (es : List Event) (s : Server) (slot : Nat)
    (hne : slot ≠ cfg.listenFd) (hr : run (listenLoop cfg) es (Server.initial cfg) = .ok s) :
    ∃ stage, run (lifecycle cfg.longestReply) (lifeOf cfg slot es) .closed = .ok stage ∧
      s.Shows cfg slot stage ∧ stage.Counts (s.conns slot) := by
  obtain ⟨stage, hrun, hshows⟩ := lifeOf_run hne hr
  exact ⟨stage, hrun, hshows, hshows.counts (books_reachable (reachable_of_run rfl hr)) hne⟩

/-- A client sends a byte, is answered, and is closed. -/
def lifeEvents : List Event :=
  clientEvents 1 (ascii "x") ++
    [.handle .granted, .drained, .submit, .complete 1 26 [], .handle .granted]

def lifeExample : List Happening := [.accepted, .entered, .answered 1, .finished]

theorem exists_lifeEvents :
    ∃ s, run (listenLoop bareConfig) lifeEvents (Server.initial bareConfig) = .ok s ∧
      s.isOpen 7 = false :=
  exists_run bareConfig lifeEvents (by decide +kernel)

theorem lifeOf_lifeEvents : lifeOf bareConfig 7 lifeEvents = lifeExample := by decide +kernel

theorem listenLoop_lives_once :
    ∃ (s : Server) (stage : LifeStage), run (lifecycle 1) lifeExample .closed = .ok stage ∧
      s.Shows bareConfig 7 stage ∧ stage.Counts (s.conns 7) := by
  obtain ⟨s, hs, -⟩ := exists_lifeEvents
  have h := listenLoop_lives bareConfig lifeEvents s 7 (by decide) hs
  rw [lifeOf_lifeEvents] at h
  exact ⟨s, h⟩

/-- Each descriptor is closed once for each time an accept returns it, the last
time excepted while it is open: none is closed twice, none without having been
accepted. -/
theorem listenLoop_closes_accepted (cfg : Config) (es : List Event) (s : Server) (slot : Nat)
    (hne : slot ≠ cfg.listenFd) (hr : run (listenLoop cfg) es (Server.initial cfg) = .ok s) :
    ((lifeOf cfg slot es).map Happening.accepts).sum =
      ((lifeOf cfg slot es).map Happening.closes).sum + (s.isOpen slot).toNat := by
  obtain ⟨stage, hrun, hshows⟩ := lifeOf_run hne hr
  rw [hshows.isOpen_eq]
  exact lifecycle_closes hrun

theorem listenLoop_closes_accepted_once :
    (lifeExample.map Happening.accepts).sum = (lifeExample.map Happening.closes).sum := by
  obtain ⟨s, hs, hclosed⟩ := exists_lifeEvents
  have h := listenLoop_closes_accepted bareConfig lifeEvents s 7 (by decide) hs
  rwa [lifeOf_lifeEvents, hclosed] at h

/-- The handler is resumed at most twice for each time a descriptor is accepted,
four times where files are watched. -/
theorem listenLoop_resumes_accepted (cfg : Config) (es : List Event) (s : Server) (slot : Nat)
    (hne : slot ≠ cfg.listenFd) (hr : run (listenLoop cfg) es (Server.initial cfg) = .ok s) :
    ((lifeOf cfg slot es).map Happening.resumes).sum ≤
      (if cfg.watch then 4 else 2) * ((lifeOf cfg slot es).map Happening.accepts).sum := by
  obtain ⟨stage, hrun, -⟩ := lifeOf_run hne hr
  have hle := lifecycle_resumes hrun
  have hlongest : cfg.longestReply + 1 = if cfg.watch then 4 else 2 := by
    unfold Config.longestReply
    split <;> rfl
  rw [hlongest] at hle
  exact Nat.le_of_add_right_le hle

theorem listenLoop_resumes_accepted_once :
    (lifeExample.map Happening.resumes).sum ≤ 2 * (lifeExample.map Happening.accepts).sum := by
  obtain ⟨s, hs, -⟩ := exists_lifeEvents
  have h := listenLoop_resumes_accepted bareConfig lifeEvents s 7 (by decide) hs
  rwa [lifeOf_lifeEvents] at h

end L4Server
