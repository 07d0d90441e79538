import L4Server.Accounting

/-!
A run as one slot sees it. Each step of the server leaves a slot as it was, but
for the order of what is pending, or does one of five things to it.
-/
namespace L4Server
open CMemory

/-- The part of the server that concerns one slot. -/
structure SlotView where
  conn : ServerConnection
  isOpen : Bool
  pending : List Sqe
  done : List Cqe

def Server.view (s : Server) (slot : Nat) : SlotView where
  conn := s.conns slot
  isOpen := s.isOpen slot
  pending := (s.sq ++ s.inflight).filter fun sqe => sqe.userData == slot
  done := s.cq.filter fun cqe => cqe.sqe.userData == slot

/-- What a step does to a slot of connections, by what the view `v` is after it. -/
inductive SlotStep (cfg : Config) (s : Server) (slot : Nat) : Event → SlotView → Prop
  | same {e : Event} {v : SlotView} : v.conn = s.conns slot → v.isOpen = s.isOpen slot →
      v.pending.Perm (s.view slot).pending → v.done = (s.view slot).done →
      SlotStep cfg s slot e v
  | accepted {e : Event} {v : SlotView} : v.conn = s.conns slot → s.isOpen slot = false →
      v.isOpen = true → v.pending.Perm (s.view slot).pending → v.done = (s.view slot).done →
      SlotStep cfg s slot e v
  | completed {index : Nat} {res : Int} {data : List UInt8} {v : SlotView} {sqe : Sqe} :
      sqe.op.allows s.isOpen res data = true →
      (s.view slot).pending.Perm (sqe :: v.pending) →
      v.done = (s.view slot).done ++ [⟨sqe, res⟩] →
      v.conn = (s.conns slot).perform res data sqe.op → v.isOpen = s.isOpen slot →
      SlotStep cfg s slot (.complete index res data) v
  | refused {out : Outcomes} {v : SlotView} {cqe : Cqe} {cq : List Cqe} : s.cq = cqe :: cq →
      cqe.sqe.userData = cfg.listenFd → (s.conns slot).Idle slot → (s.view slot).done = [] →
      (s.conns slot).coro = none →
      prepareConnection out slot (s.conns slot).enter = (false, v.conn) → v.isOpen = false →
      v.pending = [] → v.done = [] → SlotStep cfg s slot (.handle out) v
  | entered {out : Outcomes} {v : SlotView} {conn : ServerConnection} {str : StringT} {c : Ctx} :
      (s.conns slot).Idle slot → (s.view slot).done = [] → Entry slot (s.conns slot) conn →
      conn.str = some str →
      ioUringPushRecv ⟨conn, slot, s.sq⟩ slot str.capacity false = .ok c → v.conn = c.conn →
      v.isOpen = s.isOpen slot →
      v.pending = [⟨.recv slot str.capacity, slot, false, conn.session.number⟩] → v.done = [] →
      SlotStep cfg s slot (.handle out) v
  | resumed {out : Outcomes} {v : SlotView} {cqe : Cqe} {cq : List Cqe} {r : Resumed}
      {pushed : List Sqe} : s.cq = cqe :: cq → cqe.sqe.userData = slot →
      coResumeValue cfg out cqe.res ⟨s.conns slot, slot, s.sq⟩ = .ok r →
      r.ctx.sq = s.sq ++ pushed → (∀ sqe ∈ pushed, sqe.op.isTransfer = true) →
      v.conn = r.ctx.conn →
      v.isOpen = (if r.closed then false else s.isOpen slot) →
      v.pending.Perm ((s.view slot).pending ++ pushed) →
      (s.view slot).done = cqe :: v.done → SlotStep cfg s slot (.handle out) v

variable {allow : Prop} {cfg : Config} {s t : Server} {slot : Nat}

/-- The outstanding operations of a slot, by its view. -/
theorem Server.ops_eq_view (s : Server) (slot : Nat) :
    s.ops slot = (s.view slot).pending ++ (s.view slot).done.map (·.sqe) := by
  simp [Server.ops, Server.outstanding, Server.view, List.filter_map, Function.comp_def]

/-- Entries queued for other slots do not show in the view. -/
theorem view_pending_push {pushed : List Sqe} (hsq : t.sq = s.sq ++ pushed)
    (hinflight : t.inflight = s.inflight) (slot : Nat) :
    (t.view slot).pending.Perm
      ((s.view slot).pending ++ pushed.filter fun sqe => sqe.userData == slot) := by
  have hperm : (t.sq ++ t.inflight).Perm ((s.sq ++ s.inflight) ++ pushed) := by
    rw [hsq, hinflight, List.append_assoc, List.append_assoc]
    exact List.perm_append_comm.append_left _
  simpa only [Server.view, List.filter_append] using hperm.filter fun sqe => sqe.userData == slot

theorem filter_other {pushed : List Sqe} (other : Nat)
    (h : ∀ sqe ∈ pushed, sqe.userData = other) (hne : slot ≠ other) :
    pushed.filter (fun sqe => sqe.userData == slot) = [] := by
  refine List.filter_eq_nil_iff.mpr fun sqe hmem => ?_
  simpa [h sqe hmem] using Ne.symm hne

theorem slot_complete (hb : Books allow cfg s) (hne : slot ≠ cfg.listenFd) {index : Nat}
    {res : Int} {data : List UInt8} (h : complete s index res data = .ok t) :
    SlotStep cfg s slot (.complete index res data) (t.view slot) := by
  obtain ⟨sqe, hget, hallows, rfl⟩ := complete_eq_ok h
  have hmem := Server.mem_ops_of_inflight (List.mem_of_getElem? hget)
  have hsq := s.perform_sq sqe res data
  obtain ⟨hlt, hsqe⟩ := List.getElem?_eq_some_iff.mp hget
  have hmove := List.getElem_cons_eraseIdx_perm hlt
  rw [hsqe] at hmove
  have hall : (s.sq ++ s.inflight).Perm (sqe :: (s.sq ++ s.inflight.eraseIdx index)) :=
    (hmove.symm.append_left s.sq).trans List.perm_middle
  have hfilter := hall.filter fun sqe => sqe.userData == slot
  by_cases hslot : sqe.userData = slot
  · rw [List.filter_cons_of_pos (by simpa using hslot)] at hfilter
    have hop := (Phase.of_mem (hb.slots slot hne) (hslot ▸ hmem)).1
    have hperform : s.perform sqe res data =
        s.setConn slot ((s.conns slot).perform res data sqe.op) := by
      unfold Server.perform
      split
      · next heq => simp [heq, Op.isRecv, Op.isTransfer] at hop
      · rw [hslot]
    refine .completed hallows (by simpa [Server.view, hsq] using hfilter) ?_ ?_ ?_
    · simp [Server.view, hslot]
    · simp [Server.view, hperform, Server.setConn]
    · simp [Server.view, hperform, Server.setConn]
  · rw [List.filter_cons_of_neg (by simpa using hslot)] at hfilter
    have hconn : (s.perform sqe res data).conns slot = s.conns slot := by
      unfold Server.perform
      split
      · split <;> rfl
      · simp [Server.setConn, Function.update_of_ne (Ne.symm hslot)]
    have hpending : ((({ s.perform sqe res data with
        inflight := s.inflight.eraseIdx index
        cq := s.cq ++ [⟨sqe, res⟩] } : Server).view slot).pending).Perm (s.view slot).pending := by
      simpa [Server.view, hsq] using hfilter.symm
    have hdone : (s.cq ++ [(⟨sqe, res⟩ : Cqe)]).filter (fun cqe => cqe.sqe.userData == slot) =
        (s.view slot).done := by
      simp [Server.view, hslot]
    rcases perform_isOpen hb hmem hallows slot with ho | ⟨-, -, -, hclosed, ho⟩
    · exact .same hconn ho hpending hdone
    · exact .accepted hconn hclosed ho hpending hdone

/-- The accept queued again shows in no other view. -/
theorem view_acceptAgain (hne : slot ≠ cfg.listenFd) (h : acceptAgain cfg s = .ok t) :
    t.conns slot = s.conns slot ∧ t.isOpen = s.isOpen ∧
      (t.view slot).pending.Perm (s.view slot).pending ∧
      (t.view slot).done = (s.view slot).done := by
  obtain ⟨hconns, -, hopen, hinflight, hcq, number, hsq⟩ := acceptAgain_eq h
  refine ⟨by rw [hconns, Function.update_of_ne hne], hopen, ?_, by simp only [Server.view, hcq]⟩
  have hpush := view_pending_push hsq hinflight slot
  rwa [filter_other cfg.listenFd (by simp) hne, List.append_nil] at hpush

theorem view_done_pop {cqe : Cqe} {cq : List Cqe} (hcq : s.cq = cqe :: cq)
    (hother : cqe.sqe.userData ≠ slot) :
    ({ s with cq := cq } : Server).view slot = s.view slot := by
  simp [Server.view, hcq, hother]

theorem slot_handleAccept (hb : Books allow cfg s) (hne : slot ≠ cfg.listenFd) {cqe : Cqe}
    {cq : List Cqe} (hcq : s.cq = cqe :: cq) (huser : cqe.sqe.userData = cfg.listenFd)
    {out : Outcomes} (h : handleAccept cfg out { s with cq := cq } cqe.res = .ok t) :
    SlotStep cfg s slot (.handle out) (t.view slot) := by
  have hpop : ({ s with cq := cq } : Server).view slot = s.view slot :=
    view_done_pop hcq (huser ▸ Ne.symm hne)
  have hcqes : cq.filter (fun cqe => cqe.sqe.userData == slot) = (s.view slot).done :=
    congrArg SlotView.done hpop
  have harrival (hres : 0 ≤ cqe.res) := hb.arrival cqe (by simp [hcq]) huser hres
  -- a slot that is arriving at has nothing outstanding
  have hempty (hres : 0 ≤ cqe.res) (hslot : slot = cqe.res.toNat) :
      (s.conns slot).Idle slot ∧ (s.view slot).pending = [] ∧ (s.view slot).done = [] := by
    obtain ⟨-, -, hops, hidle⟩ := harrival hres
    rw [← hslot] at hops hidle
    rw [Server.ops_eq_view] at hops
    obtain ⟨hnil, hmap⟩ := List.append_eq_nil_iff.mp hops
    exact ⟨hidle, hnil, List.map_eq_nil_iff.mp hmap⟩
  cases handleAccept_turn h with
  | again _ hagain =>
      obtain ⟨hconn, hopen, hpending, hdone⟩ := view_acceptAgain hne hagain
      rw [hpop] at hpending hdone
      exact .same hconn (congrFun hopen slot) hpending hdone
  | @entered conn str c hres hentry hstr hc hagain =>
      obtain ⟨hconn, hopen, hpending, hdone⟩ := view_acceptAgain hne hagain
      have hpush := view_pending_push (s := { s with cq := cq })
        (t := { ({ s with cq := cq } : Server).setConn cqe.res.toNat c.conn with sq := c.sq })
        (congrArg Ctx.sq (Ctx.push_eq_ok hc)) rfl slot
      rw [hpop] at hpush
      by_cases hslot : slot = cqe.res.toNat
      · obtain ⟨hidle, hnil, hdoneNil⟩ := hempty hres hslot
        rw [hnil] at hpush
        rw [← hslot] at hentry hc hconn hpush hpending
        refine .entered hidle hdoneNil hentry hstr hc (hconn.trans (by simp [Server.setConn, hslot]))
          (congrFun hopen slot) ?_ (hdone.trans (hcqes.trans hdoneNil))
        have hsingle := hpending.trans hpush
        simp only [beq_self_eq_true, List.filter_cons_of_pos, List.filter_nil,
          List.nil_append] at hsingle
        exact hsingle.eq_singleton
      · rw [filter_other cqe.res.toNat (by simp) hslot, List.append_nil] at hpush
        exact .same (hconn.trans (by simp [Server.setConn, Function.update_of_ne hslot]))
          (congrFun hopen slot) (hpending.trans hpush) (hdone.trans hcqes)
  | @refused conn hres hnone hprep hagain =>
      obtain ⟨hconn, hopen, hpending, hdone⟩ := view_acceptAgain hne hagain
      by_cases hslot : slot = cqe.res.toNat
      · obtain ⟨hidle, hnil, hdoneNil⟩ := hempty hres hslot
        rw [← hslot] at hnone hprep hconn hopen hpending
        refine .refused hcq huser hidle hdoneNil hnone (hprep.trans ?_) ?_ ?_
          (hdone.trans (hcqes.trans hdoneNil))
        · exact congrArg (Prod.mk false)
            (hconn.trans (by simp [Server.setConn, Server.setOpen, hslot])).symm
        · exact (congrFun hopen slot).trans (by simp [Server.setOpen, hslot])
        · exact (hpending.trans (.of_eq hnil)).eq_nil
      · exact .same
          (hconn.trans (by simp [Server.setConn, Server.setOpen, Function.update_of_ne hslot]))
          ((congrFun hopen slot).trans (by simp [Server.setConn, Server.setOpen,
            Function.update_of_ne hslot]))
          hpending (hdone.trans hcqes)

/-- Handling a completion of a connection. -/
theorem slot_resume (hb : Books allow cfg s) {cqe : Cqe} {cq : List Cqe}
    (hcq : s.cq = cqe :: cq) (huser : cqe.sqe.userData ≠ cfg.listenFd) {out : Outcomes}
    {r : Resumed} (hr : coResumeValue cfg out cqe.res
      ⟨s.conns cqe.sqe.userData, cqe.sqe.userData, s.sq⟩ = .ok r) :
    SlotStep cfg s slot (.handle out) ((s.resumed cqe.sqe.userData cq r).view slot) := by
  obtain ⟨pushed, hsq, hpushed⟩ := (coResumeValue_resumed hr).pushed
  have hmem := Server.mem_ops_of_cq (s := s) (show cqe ∈ s.cq by simp [hcq])
  have hfd : r.ctx.conn.fd = cqe.sqe.userData := hb.resumed_fd huser hmem hr
  have hpush := view_pending_push (s := s) (t := s.resumed cqe.sqe.userData cq r) hsq rfl slot
  by_cases hslot : cqe.sqe.userData = slot
  · subst hslot
    have hown : pushed.filter (fun sqe => sqe.userData == cqe.sqe.userData) = pushed :=
      List.filter_eq_self.mpr fun sqe hmem => by simpa using (hpushed sqe hmem).2
    rw [hown] at hpush
    refine .resumed hcq rfl hr hsq (fun sqe hmem => (hpushed sqe hmem).1)
      (Function.update_self _ _ _) (@Server.resumed_isOpen s _ cq _ hfd) hpush ?_
    simp [Server.view, Server.resumed, hcq]
  · rw [filter_other _ (fun sqe hmem => (hpushed sqe hmem).2) (Ne.symm hslot),
      List.append_nil] at hpush
    obtain ⟨hconn, hopen⟩ := @Server.resumed_other s _ _ cq _ hfd (Ne.symm hslot)
    refine .same hconn hopen hpush ?_
    simp [Server.view, Server.resumed, hcq, hslot]

/-- Every step of the server is one of the cases for each of its slots. -/
theorem slot_step (hb : Books allow cfg s) (hne : slot ≠ cfg.listenFd) {e : Event}
    (h : step cfg s e = .ok t) : SlotStep cfg s slot e (t.view slot) := by
  cases e with
  | submit =>
      obtain ⟨-, rfl⟩ := step_submit_eq_ok h
      refine .same rfl rfl ?_ rfl
      simpa only [Server.view, List.nil_append] using List.perm_append_comm.filter _
  | complete index res data => exact slot_complete hb hne h
  | handle out =>
      obtain ⟨cqe, cq, hcq, ⟨huser, h⟩ | ⟨huser, r, hr, rfl⟩⟩ := hb.handle_cases h
      · exact slot_handleAccept hb hne hcq huser h
      · exact slot_resume hb hcq huser hr
  | drained =>
      obtain ⟨-, -, rfl⟩ := step_drained_eq_ok h
      exact .same rfl rfl (.refl _) rfl

/-- What holds of a slot at first and is kept by the cases holds throughout. -/
theorem slot_reach {guard : Server → Event → Prop} {P : SlotView → Prop}
    (hne : slot ≠ cfg.listenFd) (hinitial : P ⟨.zero, false, [], []⟩)
    (hstep : ∀ s e v, Books True cfg s → guard s e → P (s.view slot) →
      SlotStep cfg s slot e v → P v)
    (hs : Automaton.Reach (listenLoop cfg) guard s) : P (s.view slot) := by
  refine (hs.invariant (P := fun s => Books True cfg s ∧ P (s.view slot)) ?_ ?_).2
  · rintro s rfl
    have hclosed : (slot == cfg.listenFd) = false := beq_false_of_ne hne
    refine ⟨books_initial True cfg, ?_⟩
    simpa [Server.view, Server.initial, Function.update_of_ne hne, hclosed, Ne.symm hne]
      using hinitial
  · rintro s e t ⟨hb, hp⟩ hguard h
    exact ⟨books_step hb (.inl trivial) h, hstep s e _ hb hguard hp (slot_step hb hne h)⟩

end L4Server
