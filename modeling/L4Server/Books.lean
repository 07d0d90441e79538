import L4Server.Resume
import Mathlib.Data.List.Perm.Basic

/-!
The books of the ring: which operations are outstanding for a slot in each
phase of its session. The invariant is about the outstanding entries up to
order, so that a submission and a completion leave it alone.
-/
namespace L4Server
open CMemory

/-- A slot no session is in. -/
structure ServerConnection.Idle (slot : Nat) (conn : ServerConnection) : Prop where
  curSteps : conn.curSteps = 0
  totalSteps : conn.totalSteps = 0
  alive : conn.coro ≠ some .stopped
  fd : conn.coro.isSome = true → conn.str.isSome = true → conn.fd = slot
  action : conn.action ≠ .accept

/-- The phases of a slot: its descriptor is closed; an accept has returned it
and is not handled yet; its `recv` is outstanding; what is left of its reply
is; or, where `allow` permits it, it is open with nothing outstanding. -/
inductive Phase (allow arriving : Prop) (slot : Nat) (conn : ServerConnection) (isOpen : Bool)
    (ops : List Sqe) : Prop
  | closed : isOpen = false → ops = [] → conn.Idle slot → Phase allow arriving slot conn isOpen ops
  | arriving : isOpen = true → arriving → ops = [] → conn.Idle slot →
      Phase allow arriving slot conn isOpen ops
  | receiving (sqe : Sqe) : isOpen = true → ops = [sqe] → sqe.op.isRecv = true →
      sqe.session = conn.session.number → conn.Idle slot → conn.action = .recv →
      conn.coro.isSome = true → conn.str.isSome = true →
      Phase allow arriving slot conn isOpen ops
  | sending (l : Locals) : isOpen = true → ops ≠ [] →
      (∀ sqe ∈ ops, sqe.op.isTransfer = true ∧ sqe.session = conn.session.number) →
      conn.curSteps + ops.length = conn.totalSteps →
      (conn.action = .send ∨ conn.action = .splice) → conn.coro = some (.started l) →
      conn.fd = slot → Phase allow arriving slot conn isOpen ops
  | stranded : allow → isOpen = true → ops = [] → conn.curSteps = 0 → conn.totalSteps = 0 →
      Phase allow arriving slot conn isOpen ops

/-- The completion of an accept that returned the slot is in the queue. -/
def Server.Arriving (cfg : Config) (s : Server) (slot : Nat) : Prop :=
  ∃ cqe ∈ s.cq, cqe.sqe.userData = cfg.listenFd ∧ 0 ≤ cqe.res ∧ cqe.res.toNat = slot

structure Books (allow : Prop) (cfg : Config) (s : Server) : Prop where
  accept : ∃ sqe, s.ops cfg.listenFd = [sqe] ∧ sqe.op = .accept cfg.listenFd
  listening : (s.conns cfg.listenFd).action = .accept
  isOpen : s.isOpen cfg.listenFd = true
  arrival : ∀ cqe ∈ s.cq, cqe.sqe.userData = cfg.listenFd → 0 ≤ cqe.res →
    cqe.res.toNat ≠ cfg.listenFd ∧ s.isOpen cqe.res.toNat = true ∧
      s.ops cqe.res.toNat = [] ∧ (s.conns cqe.res.toNat).Idle cqe.res.toNat
  slots : ∀ slot, slot ≠ cfg.listenFd →
    Phase allow (s.Arriving cfg slot) slot (s.conns slot) (s.isOpen slot) (s.ops slot)

/-! Phases up to order and up to what they do not mention. -/

variable {allow arriving : Prop} {slot : Nat} {conn : ServerConnection} {isOpen : Bool}
  {ops : List Sqe}

theorem Phase.perm (h : Phase allow arriving slot conn isOpen ops) {ops' : List Sqe}
    (hperm : ops'.Perm ops) {arriving' : Prop} (harr : arriving → arriving') :
    Phase allow arriving' slot conn isOpen ops' := by
  cases h with
  | closed hopen hops hidle =>
      subst hops
      exact .closed hopen hperm.eq_nil hidle
  | arriving hopen ha hops hidle =>
      subst hops
      exact .arriving hopen (harr ha) hperm.eq_nil hidle
  | receiving sqe hopen hops hrecv hsession hidle haction hcoro hstr =>
      subst hops
      exact .receiving sqe hopen hperm.eq_singleton hrecv hsession hidle haction hcoro hstr
  | sending l hopen hops hall hcount haction hcoro hfd =>
      refine .sending l hopen (fun hnil => hops ?_) (fun sqe hmem => hall sqe (hperm.mem_iff.mp hmem))
        (by rw [hperm.length_eq, hcount]) haction hcoro hfd
      rw [hnil] at hperm
      exact hperm.symm.eq_nil
  | stranded hallow hopen hops hcur htotal =>
      subst hops
      exact .stranded hallow hopen hperm.eq_nil hcur htotal

/-- The parts of a connection that the books read. -/
structure SameBooks (conn conn' : ServerConnection) : Prop where
  fd : conn'.fd = conn.fd
  action : conn'.action = conn.action
  curSteps : conn'.curSteps = conn.curSteps
  totalSteps : conn'.totalSteps = conn.totalSteps
  coro : conn'.coro = conn.coro
  str : conn'.str.isSome = conn.str.isSome
  number : conn'.session.number = conn.session.number

theorem ServerConnection.Idle.same {conn' : ServerConnection} (h : conn.Idle slot)
    (hs : SameBooks conn conn') : conn'.Idle slot where
  curSteps := hs.curSteps.trans h.curSteps
  totalSteps := hs.totalSteps.trans h.totalSteps
  alive := hs.coro ▸ h.alive
  fd := by rw [hs.coro, hs.str, hs.fd]; exact h.fd
  action := hs.action ▸ h.action

theorem Phase.same (h : Phase allow arriving slot conn isOpen ops) {conn' : ServerConnection}
    (hs : SameBooks conn conn') : Phase allow arriving slot conn' isOpen ops := by
  cases h with
  | closed hopen hops hidle => exact .closed hopen hops (hidle.same hs)
  | arriving hopen ha hops hidle => exact .arriving hopen ha hops (hidle.same hs)
  | receiving sqe hopen hops hrecv hsession hidle haction hcoro hstr =>
      exact .receiving sqe hopen hops hrecv (hsession.trans hs.number.symm) (hidle.same hs)
        (hs.action.trans haction) (by rw [hs.coro, hcoro]) (by rw [hs.str, hstr])
  | sending l hopen hops hall hcount haction hcoro hfd =>
      refine .sending l hopen hops ?_ ?_ (by rw [hs.action]; exact haction)
        (hs.coro.trans hcoro) (hs.fd.trans hfd)
      · intro sqe hmem
        exact ⟨(hall sqe hmem).1, (hall sqe hmem).2.trans hs.number.symm⟩
      · rw [hs.curSteps, hs.totalSteps, hcount]
  | stranded hallow hopen hops hcur htotal =>
      exact .stranded hallow hopen hops (hs.curSteps.trans hcur) (hs.totalSteps.trans htotal)

/-- With something outstanding, the phase is one of two. -/
theorem Phase.of_mem (h : Phase allow arriving slot conn isOpen ops) {sqe : Sqe}
    (hmem : sqe ∈ ops) :
    (sqe.op.isRecv = true ∨ sqe.op.isTransfer = true) ∧ conn.action ≠ .accept ∧
      sqe.session = conn.session.number ∧ conn.coro.isSome = true ∧
      conn.coro ≠ some .stopped ∧ conn.fd = slot := by
  cases h with
  | closed _ hops _ => simp [hops] at hmem
  | arriving _ _ hops _ => simp [hops] at hmem
  | receiving sqe' _ hops hrecv hsession hidle haction hcoro hstr =>
      obtain rfl : sqe = sqe' := by simpa [hops] using hmem
      exact ⟨.inl hrecv, by simp [haction], hsession, hcoro, hidle.alive, hidle.fd hcoro hstr⟩
  | sending l _ _ hall _ haction hcoro hfd =>
      obtain ⟨htransfer, hsession⟩ := hall sqe hmem
      refine ⟨.inr htransfer, ?_, hsession, by simp [hcoro], by simp [hcoro], hfd⟩
      rcases haction with h | h <;> simp [h]
  | stranded _ _ hops _ _ => simp [hops] at hmem

theorem Phase.of_recv (h : Phase allow arriving slot conn isOpen ops) {sqe : Sqe}
    (hmem : sqe ∈ ops) (hop : sqe.op.isRecv = true) :
    conn.Idle slot ∧ conn.action = .recv ∧ conn.str.isSome = true ∧ ops = [sqe] := by
  cases h with
  | closed _ hops _ => simp [hops] at hmem
  | arriving _ _ hops _ => simp [hops] at hmem
  | receiving sqe' _ hops _ _ hidle haction _ hstr =>
      obtain rfl : sqe = sqe' := by simpa [hops] using hmem
      exact ⟨hidle, haction, hstr, hops⟩
  | sending _ _ _ hall _ _ _ _ =>
      have htransfer := (hall sqe hmem).1
      cases hsqe : sqe.op <;> simp [hsqe, Op.isRecv, Op.isTransfer] at hop htransfer
  | stranded _ _ hops _ _ => simp [hops] at hmem

theorem Phase.of_transfer (h : Phase allow arriving slot conn isOpen ops) {sqe : Sqe}
    (hmem : sqe ∈ ops) (hop : sqe.op.isTransfer = true) :
    conn.curSteps + ops.length = conn.totalSteps ∧
      (conn.action = .send ∨ conn.action = .splice) ∧ (∃ l, conn.coro = some (.started l)) ∧
      ∀ sqe ∈ ops, sqe.op.isTransfer = true := by
  cases h with
  | closed _ hops _ => simp [hops] at hmem
  | arriving _ _ hops _ => simp [hops] at hmem
  | receiving sqe' _ hops hrecv _ _ _ _ _ =>
      obtain rfl : sqe = sqe' := by simpa [hops] using hmem
      cases hsqe : sqe.op <;> simp [hsqe, Op.isRecv, Op.isTransfer] at hop hrecv
  | sending l _ _ hall hcount haction hcoro _ =>
      exact ⟨hcount, haction, ⟨l, hcoro⟩, fun sqe hmem => (hall sqe hmem).1⟩
  | stranded _ _ hops _ _ => simp [hops] at hmem

/-! Operations of a slot. -/

theorem Server.mem_ops {s : Server} {sqe : Sqe} :
    sqe ∈ s.ops slot ↔ sqe ∈ s.outstanding ∧ sqe.userData = slot := by
  simp [Server.ops]

theorem Server.mem_ops_of_cq {s : Server} {cqe : Cqe} (h : cqe ∈ s.cq) :
    cqe.sqe ∈ s.ops cqe.sqe.userData := by
  refine Server.mem_ops.mpr ⟨?_, rfl⟩
  simp only [Server.outstanding, List.mem_append, List.mem_map]
  exact .inr ⟨cqe, h, rfl⟩

theorem Server.mem_ops_of_inflight {s : Server} {sqe : Sqe} (h : sqe ∈ s.inflight) :
    sqe ∈ s.ops sqe.userData := by
  refine Server.mem_ops.mpr ⟨?_, rfl⟩
  simp only [Server.outstanding, List.mem_append]
  exact .inl (.inr h)

theorem Server.ops_perm {s t : Server} (h : t.outstanding.Perm s.outstanding) (slot : Nat) :
    (t.ops slot).Perm (s.ops slot) :=
  h.filter _

/-- Taking the first completion off the queue. -/
theorem Server.ops_pop {s : Server} {cqe : Cqe} {cq : List Cqe} (h : s.cq = cqe :: cq)
    (slot : Nat) :
    (s.ops slot).Perm
      ([cqe.sqe].filter (fun sqe => sqe.userData == slot) ++ ({ s with cq := cq } : Server).ops slot) := by
  have hperm : s.outstanding.Perm ([cqe.sqe] ++ ({ s with cq := cq } : Server).outstanding) := by
    simp only [Server.outstanding, h, List.map_cons, List.singleton_append]
    exact List.perm_middle
  simpa only [Server.ops, List.filter_append] using hperm.filter fun sqe => sqe.userData == slot

/-- Queueing entries. -/
theorem Server.ops_push {s t : Server} {pushed : List Sqe} (hsq : t.sq = s.sq ++ pushed)
    (hinflight : t.inflight = s.inflight) (hcq : t.cq = s.cq) (slot : Nat) :
    (t.ops slot).Perm (s.ops slot ++ pushed.filter fun sqe => sqe.userData == slot) := by
  have hperm : t.outstanding.Perm (s.outstanding ++ pushed) := by
    simp only [Server.outstanding, hsq, hinflight, hcq, List.append_assoc]
    refine List.Perm.append_left _ ?_
    refine List.perm_append_comm.trans ?_
    simp only [List.append_assoc]
    exact List.Perm.refl _
  simpa only [Server.ops, List.filter_append] using hperm.filter fun sqe => sqe.userData == slot

/-! The kernel's steps. -/

variable {cfg : Config} {s t : Server}

theorem Books.op_of_listening (hs : Books allow cfg s) {sqe : Sqe}
    (hmem : sqe ∈ s.ops sqe.userData) (huser : sqe.userData = cfg.listenFd) :
    sqe.op = .accept cfg.listenFd := by
  obtain ⟨accept, hops, hop⟩ := hs.accept
  rw [huser, hops, List.mem_singleton] at hmem
  rw [hmem, hop]

/-- A step that only moves entries along leaves the books in order. -/
theorem Books.move (hs : Books allow cfg s) (hconns : t.conns = s.conns)
    (hopen : t.isOpen = s.isOpen) (hcq : t.cq = s.cq)
    (hperm : t.outstanding.Perm s.outstanding) : Books allow cfg t where
  accept := by
    obtain ⟨sqe, hops, hop⟩ := hs.accept
    have h := Server.ops_perm hperm cfg.listenFd
    rw [hops] at h
    exact ⟨sqe, h.eq_singleton, hop⟩
  listening := hconns ▸ hs.listening
  isOpen := hopen ▸ hs.isOpen
  arrival := by
    intro cqe hmem huser hres
    obtain ⟨hne, ho, hops, hidle⟩ := hs.arrival cqe (hcq ▸ hmem) huser hres
    have h := Server.ops_perm hperm cqe.res.toNat
    rw [hops] at h
    exact ⟨hne, hopen ▸ ho, h.eq_nil, hconns ▸ hidle⟩
  slots := by
    intro slot hne
    have h := hs.slots slot hne
    rw [hconns, hopen]
    refine h.perm (Server.ops_perm hperm slot) ?_
    rintro ⟨cqe, hmem, hrest⟩
    exact ⟨cqe, hcq ▸ hmem, hrest⟩

theorem books_submit (hs : Books allow cfg s) (h : step cfg s .submit = .ok t) :
    Books allow cfg t := by
  obtain ⟨-, rfl⟩ := step_submit_eq_ok h
  refine hs.move rfl rfl rfl ?_
  simp only [Server.outstanding, List.nil_append]
  exact List.perm_append_comm.append_right _

theorem books_drained (hs : Books allow cfg s) (h : step cfg s .drained = .ok t) :
    Books allow cfg t := by
  obtain ⟨-, -, rfl⟩ := step_drained_eq_ok h
  exact hs.move rfl rfl rfl (List.Perm.refl _)

/-- A completion moves its entry behind the others. -/
theorem complete_perm {sqe : Sqe} {index : Nat} (h : s.inflight[index]? = some sqe) (res : Int)
    (hsq : t.sq = s.sq) (hinflight : t.inflight = s.inflight.eraseIdx index)
    (hcq : t.cq = s.cq ++ [⟨sqe, res⟩]) : t.outstanding.Perm s.outstanding := by
  obtain ⟨hlt, hget⟩ := List.getElem?_eq_some_iff.mp h
  have hmove := List.getElem_cons_eraseIdx_perm hlt
  rw [hget] at hmove
  simp only [Server.outstanding, hsq, hinflight, hcq, List.map_append, List.map_cons, List.map_nil]
  refine List.Perm.trans ?_ ((hmove.append_left s.sq).append_right (s.cq.map (·.sqe)))
  simp only [List.append_assoc, List.cons_append]
  refine List.Perm.append_left _ ?_
  refine (List.perm_append_singleton sqe _).append_left _ |>.trans ?_
  exact List.perm_middle

theorem SameBooks.refl (conn : ServerConnection) : SameBooks conn conn :=
  ⟨rfl, rfl, rfl, rfl, rfl, rfl, rfl⟩

/-- The kernel changes nothing in a connection that the books read. -/
theorem ServerConnection.perform_same (conn : ServerConnection) (res : Int) (data : List UInt8)
    (op : Op) : SameBooks conn (conn.perform res data op) := by
  cases op with
  | recv fd len => exact ⟨rfl, rfl, rfl, rfl, rfl, by simp [ServerConnection.perform], rfl⟩
  | _ => exact ⟨rfl, rfl, rfl, rfl, rfl, rfl, rfl⟩

theorem perform_same (sqe : Sqe) (res : Int) (data : List UInt8) (slot : Nat) :
    SameBooks (s.conns slot) ((s.perform sqe res data).conns slot) := by
  unfold Server.perform
  split
  · split <;> exact .refl _
  · by_cases h : slot = sqe.userData
    · subst h
      simp only [Server.setConn, Function.update_self]
      exact ServerConnection.perform_same _ res data _
    · simp only [Server.setConn, Function.update_of_ne h]
      exact .refl _

/-- A closed descriptor belongs to an idle slot with nothing outstanding. -/
theorem Phase.of_closed (h : Phase allow arriving slot conn isOpen ops) (hopen : isOpen = false) :
    ops = [] ∧ conn.Idle slot := by
  cases h with
  | closed _ hops hidle => exact ⟨hops, hidle⟩
  | arriving ho _ _ _ => simp [hopen] at ho
  | receiving _ ho _ _ _ _ _ _ _ => simp [hopen] at ho
  | sending _ ho _ _ _ _ _ _ => simp [hopen] at ho
  | stranded _ ho _ _ _ => simp [hopen] at ho

/-- The only descriptor a completion opens is the one an accept returns. -/
theorem perform_isOpen (hs : Books allow cfg s) {sqe : Sqe} (hmem : sqe ∈ s.ops sqe.userData)
    {res : Int} {data : List UInt8} (hallows : sqe.op.allows s.isOpen res data = true) (fd : Nat) :
    (s.perform sqe res data).isOpen fd = s.isOpen fd ∨
      sqe.userData = cfg.listenFd ∧ 0 ≤ res ∧ fd = res.toNat ∧ s.isOpen fd = false ∧
        (s.perform sqe res data).isOpen fd = true := by
  by_cases hlisten : sqe.userData = cfg.listenFd
  · have hop := hs.op_of_listening hmem hlisten
    unfold Server.perform
    rw [hop] at hallows ⊢
    simp only
    by_cases hres : res < 0
    · exact .inl (by rw [if_pos hres])
    · rw [if_neg hres]
      by_cases hfd : fd = res.toNat
      · subst hfd
        refine .inr ⟨hlisten, by omega, rfl, ?_, by simp [Server.setOpen]⟩
        simpa [Op.allows, hres] using (Bool.and_eq_true_iff.mp hallows).2
      · exact .inl (by simp [Server.setOpen, Function.update_of_ne hfd])
  · refine .inl ?_
    have hop := (Phase.of_mem (hs.slots _ hlisten) hmem).1
    unfold Server.perform
    split
    · next heq => simp [heq, Op.isRecv, Op.isTransfer] at hop
    · rfl

theorem books_complete (hs : Books allow cfg s) {index : Nat} {res : Int} {data : List UInt8}
    (h : complete s index res data = .ok t) : Books allow cfg t := by
  obtain ⟨sqe, hget, hallows, ht⟩ := complete_eq_ok h
  have hmem := Server.mem_ops_of_inflight (List.mem_of_getElem? hget)
  have htcq : t.cq = s.cq ++ [⟨sqe, res⟩] := by rw [ht]
  have hperm := complete_perm hget res (by rw [ht, Server.perform_sq]) (by rw [ht]) htcq
  have hopen (fd : Nat) : t.isOpen fd = s.isOpen fd ∨ sqe.userData = cfg.listenFd ∧ 0 ≤ res ∧
      fd = res.toNat ∧ s.isOpen fd = false ∧ t.isOpen fd = true := by
    rw [ht]
    exact perform_isOpen hs hmem hallows fd
  have hsame (fd : Nat) : SameBooks (s.conns fd) (t.conns fd) := by
    rw [ht]
    exact perform_same sqe res data fd
  have hnil {slot : Nat} (h : s.ops slot = []) : t.ops slot = [] := by
    have h' := Server.ops_perm hperm slot
    rw [h] at h'
    exact h'.eq_nil
  constructor
  · obtain ⟨sqe', hops, hop⟩ := hs.accept
    have h := Server.ops_perm hperm cfg.listenFd
    rw [hops] at h
    exact ⟨sqe', h.eq_singleton, hop⟩
  · rw [(hsame _).action, hs.listening]
  · rcases hopen cfg.listenFd with h | ⟨-, -, -, -, h⟩
    · rw [h, hs.isOpen]
    · exact h
  · intro cqe hcqe huser hres
    rw [htcq] at hcqe
    rcases List.mem_append.mp hcqe with hold | hnew
    · obtain ⟨hne, ho, hops, hidle⟩ := hs.arrival cqe hold huser hres
      refine ⟨hne, ?_, hnil hops, hidle.same (hsame _)⟩
      rcases hopen cqe.res.toNat with h | ⟨-, -, -, -, h⟩
      · rw [h, ho]
      · exact h
    · obtain rfl := List.mem_singleton.mp hnew
      simp only at huser hres ⊢
      -- what the accept returns was closed, so that its slot is idle
      have hop := hs.op_of_listening hmem huser
      have hclosed : s.isOpen res.toNat = false := by
        rw [hop] at hallows
        simpa [Op.allows, show ¬ res < 0 by omega] using (Bool.and_eq_true_iff.mp hallows).2
      have ho : t.isOpen res.toNat = true := by
        rw [ht]
        simp [Server.perform, hop, show ¬ res < 0 by omega, Server.setOpen]
      have hne : res.toNat ≠ cfg.listenFd := by
        rintro heq
        rw [heq, hs.isOpen] at hclosed
        cases hclosed
      obtain ⟨hops, hidle⟩ := (hs.slots _ hne).of_closed hclosed
      exact ⟨hne, ho, hnil hops, hidle.same (hsame _)⟩
  · intro slot hne
    have hphase := hs.slots slot hne
    have harr : s.Arriving cfg slot → t.Arriving cfg slot := by
      rintro ⟨cqe, hcqe, hrest⟩
      exact ⟨cqe, htcq ▸ List.mem_append_left _ hcqe, hrest⟩
    rcases hopen slot with h | ⟨huser, hres, rfl, hclosed, ho⟩
    · rw [h]
      exact (hphase.perm (Server.ops_perm hperm slot) harr).same (hsame slot)
    · obtain ⟨hops, hidle⟩ := hphase.of_closed hclosed
      refine .arriving ho ⟨⟨sqe, res⟩, ?_, huser, hres, rfl⟩ (hnil hops) (hidle.same (hsame _))
      rw [htcq]
      simp

end L4Server
