import L4Server.ThreadTurns

/-!
Threads that keep to their own rings: then a completion is handled once, by the
thread in whose ring it is and where that thread is in it, and each thread has
one accept outstanding.
-/
namespace L4Server
open CMemory

variable {cfg : Config}

/-! A ring and its thread. -/

/-- What has been read of the ring is what its thread has handled, once each and
in order; what is outstanding in it fits the slots. -/
structure RingKept (cfg : Config) (conns : Nat → ServerConnection) (log : List Handled) (r : Nat)
    (ring : Ring) (pc : ThreadPc) : Prop where
  log : log.filter (fun h => h.ring == r) =
    (List.range (ring.head + pc.count)).map fun i => ⟨r, r, i⟩
  cursor : ring.head + pc.count ≤ ring.posted.length
  room : ring.posted.length ≤ ring.head + cqEntries
  turn : ∀ head count, pc = .turn head count → head = ring.head + count
  idle : pc.running = false → ring = .empty
  accept : pc.running = true →
    ((ring.outstanding pc.count).filter fun sqe => sqe.op.isAccept).length = 1
  fits : ∀ sqe ∈ ring.outstanding pc.count, sqe.Fits cfg conns
  arrival : ∀ cqe ∈ ring.pending pc.count, cqe.sqe.op.isAccept = true → 0 ≤ cqe.res →
    cqe.res.toNat ≠ cfg.listenFd

/-- A completion between the head and the tail is where the head looks for it. -/
theorem Ring.entryAt_eq {ring : Ring} {i : Nat} (hhead : ring.head ≤ i)
    (hlt : i < ring.posted.length) (hroom : ring.posted.length ≤ ring.head + cqEntries) :
    ring.entryAt i = some i := by
  have hplace : i % cqEntries < ring.posted.length := Nat.lt_of_le_of_lt (Nat.mod_le _ _) hlt
  have hlast : i % cqEntries + cqEntries *
      ((ring.posted.length - 1 - i % cqEntries) / cqEntries) = i := by
    rw [show cqEntries = 2048 from rfl] at *
    omega
  simp only [Ring.entryAt, if_pos hplace, hlast]

section
variable {conns conns' : Nat → ServerConnection} {log log' : List Handled} {r : Nat} {ring : Ring}
  {pc : ThreadPc} (h : RingKept cfg conns log r ring pc)
include h

/-- Another thread's statement. -/
theorem RingKept.other (hfits : ∀ sqe : Sqe, sqe.Fits cfg conns → sqe.Fits cfg conns')
    (hlog : log'.filter (fun h => h.ring == r) = log.filter fun h => h.ring == r) :
    RingKept cfg conns' log' r ring pc :=
  { h with
    log := hlog.trans h.log
    fits := fun sqe hmem => hfits sqe (h.fits sqe hmem) }

/-- A thread that has nothing in its ring goes on in front of its loop, or returns. -/
theorem RingKept.idle_step (hidle : pc.running = false) {pc' : ThreadPc}
    (hidle' : pc'.running = false) (hcount : pc.count = 0) (hcount' : pc'.count = 0) :
    RingKept cfg conns log r ring pc' := by
  have hring := h.idle hidle
  subst hring
  constructor
  · have hlog := h.log
    rw [hcount] at hlog
    rw [hcount']
    exact hlog
  · simp [hcount', Ring.empty]
  · exact h.room
  · intro head count hpc
    rw [hpc] at hidle'
    cases hidle'
  · exact fun _ => rfl
  · intro hrun
    rw [hidle'] at hrun
    cases hrun
  · simp [Ring.outstanding, Ring.pending, Ring.empty]
  · simp [Ring.pending, Ring.empty]

/-- Its thread comes to its loop. -/
theorem RingKept.first (hidle : pc.running = false) (hcount : pc.count = 0) {sqe : Sqe}
    (hop : sqe.op.isAccept = true) (huser : sqe.userData = cfg.listenFd) :
    RingKept cfg conns' log r ⟨[sqe], [], [], 0⟩ .submit := by
  have hlog := h.log
  rw [h.idle hidle, hcount] at hlog
  constructor
  · exact hlog
  · exact Nat.le_refl _
  · exact Nat.zero_le _
  · nofun
  · nofun
  · intro _
    simp [Ring.outstanding, Ring.pending, hop]
  · intro sqe' hmem
    obtain rfl : sqe' = sqe := by simpa [Ring.outstanding, Ring.pending] using hmem
    exact .accept hop huser
  · simp [Ring.pending]

/-- The place of the thread in its ring stays the same. -/
theorem RingKept.move (hrun : pc.running = true) {ring' : Ring} {pc' : ThreadPc}
    (hrun' : pc'.running = true) (hcursor : ring'.head + pc'.count = ring.head + pc.count)
    (hposted : ring'.posted = ring.posted) (hhead : ring.head ≤ ring'.head)
    (hperm : (ring'.sq ++ ring'.inflight).Perm (ring.sq ++ ring.inflight))
    (hturn : ∀ head count, pc' = .turn head count → head = ring'.head + count) :
    RingKept cfg conns log r ring' pc' := by
  have hpending : ring'.pending pc'.count = ring.pending pc.count := by
    rw [Ring.pending, Ring.pending, hcursor, hposted]
  have houtstanding : (ring'.outstanding pc'.count).Perm (ring.outstanding pc.count) := by
    rw [Ring.outstanding, Ring.outstanding, hpending]
    exact hperm.append_right _
  have hroom := h.room
  constructor
  · rw [hcursor]
    exact h.log
  · rw [hcursor, hposted]
    exact h.cursor
  · rw [hposted]
    omega
  · exact hturn
  · intro hidle
    rw [hrun'] at hidle
    cases hidle
  · intro _
    rw [(houtstanding.filter _).length_eq]
    exact h.accept hrun
  · exact fun sqe hmem => h.fits sqe (houtstanding.mem_iff.mp hmem)
  · rw [hpending]
    exact h.arrival

/-- The kernel posts the completion of an entry. -/
theorem RingKept.post {index : Nat} {sqe : Sqe} {res : Int}
    (hget : ring.inflight[index]? = some sqe)
    (hfits : ∀ sqe : Sqe, sqe.Fits cfg conns → sqe.Fits cfg conns')
    (hroom : ring.posted.length - ring.head < cqEntries)
    (harrival : sqe.op.isAccept = true → 0 ≤ res → res.toNat ≠ cfg.listenFd) :
    RingKept cfg conns' log r
      ⟨ring.sq, ring.inflight.eraseIdx index, ring.posted ++ [⟨sqe, res⟩], ring.head⟩ pc := by
  have hpending : Ring.pending ⟨ring.sq, ring.inflight.eraseIdx index,
      ring.posted ++ [⟨sqe, res⟩], ring.head⟩ pc.count = ring.pending pc.count ++ [⟨sqe, res⟩] :=
    List.drop_append_of_le_length h.cursor
  have houtstanding : (Ring.outstanding ⟨ring.sq, ring.inflight.eraseIdx index,
      ring.posted ++ [⟨sqe, res⟩], ring.head⟩ pc.count).Perm (ring.outstanding pc.count) := by
    rw [Ring.outstanding, hpending]
    exact complete_perm
      (s := ⟨conns, fun _ => false, ring.sq, ring.inflight, ring.pending pc.count, false⟩)
      (t := ⟨conns, fun _ => false, ring.sq, ring.inflight.eraseIdx index,
        ring.pending pc.count ++ [⟨sqe, res⟩], false⟩) hget res rfl rfl rfl
  constructor
  · exact h.log
  · rw [List.length_append]
    exact Nat.le_trans h.cursor (Nat.le_add_right _ _)
  · simp only [List.length_append, List.length_singleton]
    omega
  · exact h.turn
  · intro hidle
    rw [h.idle hidle] at hget
    cases hget
  · intro hrun
    rw [(houtstanding.filter _).length_eq]
    exact h.accept hrun
  · exact fun sqe hmem => hfits sqe (h.fits sqe (houtstanding.mem_iff.mp hmem))
  · intro cqe hmem
    rw [hpending] at hmem
    rcases List.mem_append.mp hmem with hmem | hmem
    · exact h.arrival cqe hmem
    · obtain rfl := List.mem_singleton.mp hmem
      exact harrival

/-- Its thread handles the next completion. -/
theorem RingKept.handle {head count : Nat} {cqe : Cqe} (hpc : pc = .turn head count)
    (hget : ring.posted[head]? = some cqe)
    (hfits : ∀ sqe : Sqe, sqe.Fits cfg conns → sqe.Fits cfg conns') {pushed : List Sqe}
    (hpushed : ∀ sqe ∈ pushed, sqe.Fits cfg conns')
    (hcount : (pushed.filter fun sqe => sqe.op.isAccept).length =
      if cqe.sqe.op.isAccept then 1 else 0) :
    RingKept cfg conns' (log ++ [⟨r, r, head⟩]) r
      ⟨ring.sq ++ pushed, ring.inflight, ring.posted, ring.head⟩ (.turn (head + 1) (count + 1)) := by
  subst hpc
  obtain rfl := h.turn head count rfl
  obtain ⟨hlt, hcqe⟩ := List.getElem?_eq_some_iff.mp hget
  have hpending : ring.pending count = cqe :: Ring.pending
      ⟨ring.sq ++ pushed, ring.inflight, ring.posted, ring.head⟩ (count + 1) := by
    rw [Ring.pending, List.drop_eq_getElem_cons hlt, hcqe]
    rfl
  constructor
  · rw [List.filter_append, h.log]
    simp [ThreadPc.count, ← Nat.add_assoc, List.range_succ]
  · exact hlt
  · exact h.room
  · intro head' count' hturn
    cases hturn
    rw [Nat.add_assoc]
  · nofun
  · intro _
    have hold := h.accept rfl
    simp only [Ring.outstanding, ThreadPc.count, hpending, List.map_cons, List.filter_append,
      List.length_append, List.filter_cons] at hold hcount ⊢
    split at hcount
    · next hop =>
      rw [if_pos hop, List.length_cons] at hold
      omega
    · next hop =>
      rw [if_neg hop] at hold
      omega
  · intro sqe hmem
    have hold := h.fits sqe
    simp only [Ring.outstanding, ThreadPc.count, hpending, List.map_cons, List.mem_append,
      List.mem_cons] at hold hmem
    rcases hmem with ((hmem | hmem) | hmem) | hmem
    · exact hfits sqe (hold (.inl (.inl hmem)))
    · exact hpushed sqe hmem
    · exact hfits sqe (hold (.inl (.inr hmem)))
    · exact hfits sqe (hold (.inr (.inr hmem)))
  · intro cqe' hmem
    refine h.arrival cqe' ?_
    simp only [ThreadPc.count, hpending]
    exact List.mem_cons_of_mem _ hmem

end

/-! All threads. -/

structure Separate (cfg : Config) (s : Listening) : Prop where
  rings : ∀ r, RingKept cfg s.conns s.log r (s.rings r) (s.pcs r)
  listening : ∀ r, (s.pcs r).running = true → (s.conns cfg.listenFd).action = .accept
  isOpen : s.isOpen cfg.listenFd = true
  steady : ∀ slot, slot ≠ cfg.listenFd → (s.conns slot).Steady slot

theorem fetch_eq_ok {s : Listening} {r : Nat} (hfetch : s.fetch = .ok r) : s.ring = some r := by
  unfold Listening.fetch at hfetch
  split at hfetch
  · next hring =>
    cases hfetch
    exact hring
  · cases hfetch

section
variable {s : Listening} (h : Separate cfg s)
include h

/-- A statement that changes the thread's place only, or its ring too. -/
theorem Separate.alone {t : Nat} {svrRing : Option Nat} {rings : Nat → Ring} {pc : ThreadPc}
    (hrings : ∀ r, r ≠ t → rings r = s.rings r)
    (hrunning : pc.running = true → (s.pcs t).running = true)
    (hkept : RingKept cfg s.conns s.log t (rings t) pc) :
    Separate cfg
      { s with ring := svrRing, rings := rings, pcs := Function.update s.pcs t pc } := by
  constructor
  · intro r
    by_cases hr : r = t
    · subst hr
      simpa only [Function.update_self] using hkept
    · simpa only [hrings r hr, Function.update_of_ne hr] using h.rings r
  · intro r hrun
    by_cases hr : r = t
    · subst hr
      simp only [Function.update_self] at hrun
      exact h.listening r (hrunning hrun)
    · simp only [Function.update_of_ne hr] at hrun
      exact h.listening r hrun
  · exact h.isOpen
  · exact h.steady

/-- A statement on the server that the threads share. -/
theorem Separate.shared {t : Nat} {v : Server} {pcs : Nat → ThreadPc} {log : List Handled}
    (hfollows : Follows cfg (s.server t) v) (hpcs : ∀ r, r ≠ t → pcs r = s.pcs r)
    (hlog : ∀ r, r ≠ t → log.filter (fun h => h.ring == r) = s.log.filter fun h => h.ring == r)
    (hlisten : (v.conns cfg.listenFd).action = .accept)
    (hkept : RingKept cfg v.conns log t
      ⟨v.sq, v.inflight, (s.rings t).posted ++ v.cq, (s.rings t).head⟩ (pcs t)) :
    Separate cfg { s.setServer t v with pcs := pcs, log := log } := by
  constructor
  · intro r
    by_cases hr : r = t
    · subst hr
      simpa only [Listening.setServer, Function.update_self] using hkept
    · simp only [Listening.setServer, Function.update_of_ne hr, hpcs r hr]
      exact (h.rings r).other (fun sqe => hfollows.fits) (hlog r hr)
  · exact fun _ _ => hlisten
  · exact hfollows.isOpen h.isOpen
  · exact fun slot hne => hfollows.steady slot hne (h.steady slot hne)

theorem Separate.complete {t : Listening} {r index : Nat} {res : Int} {data : List UInt8}
    {threads : Nat} (hstep : threadStep cfg threads s (.complete r index res data) = .ok t) :
    Separate cfg t := by
  simp only [threadStep] at hstep
  split at hstep
  · next hroom =>
    obtain ⟨v, hv, hstep⟩ := bind_eq_ok.mp hstep
    cases hstep
    obtain ⟨sqe, hget, hallows, rfl⟩ := complete_eq_ok hv
    have hfollows := @perform_follows cfg (s.server r) sqe res data
    have hidle : (s.pcs r).running = true := by
      by_contra hnot
      have hempty := (h.rings r).idle (by simpa using hnot)
      have hnone : (s.rings r).inflight[index]? = none := by rw [hempty]; rfl
      cases hnone.symm.trans hget
    have hposted : Follows cfg (s.server r) { (s.server r).perform sqe res data with
        inflight := (s.server r).inflight.eraseIdx index
        cq := (s.server r).cq ++ [⟨sqe, res⟩] } :=
      ⟨hfollows.isOpen, hfollows.listening, hfollows.steady, hfollows.coro, hfollows.str⟩
    refine h.shared hposted (fun _ _ => rfl) (fun _ _ => rfl)
      (hfollows.listening (h.listening r hidle)) ?_
    rw [Server.perform_sq]
    exact (h.rings r).post hget (fun _ => hfollows.fits) hroom fun hop hres =>
      Op.allows_accept hallows hop hres h.isOpen
  · cases hstep

theorem Separate.turn {t head count : Nat} {out : Outcomes} {u : Listening}
    (hpc : s.pcs t = .turn head count) (hstep : s.turn cfg t out head count t = .ok u) :
    Separate cfg u := by
  have hring := h.rings t
  rw [hpc] at hring
  have hhead := hring.turn head count rfl
  have hcursor : (s.rings t).head + count ≤ (s.rings t).posted.length := hring.cursor
  have hrun : (s.pcs t).running = true := by rw [hpc]; rfl
  unfold Listening.turn at hstep
  split at hstep
  · cases hstep
    exact h.alone (fun _ _ => rfl) (fun _ => hrun)
      (hring.move rfl rfl rfl rfl (Nat.le_refl _) (.refl _) nofun)
  · next hne =>
    rw [Ring.entryAt_eq (by omega) (by omega) hring.room] at hstep
    simp only at hstep
    split at hstep
    · cases hstep
    · next cqe hget =>
      obtain ⟨v, hv, hstep⟩ := bind_eq_ok.mp hstep
      cases hstep
      have hmem : cqe ∈ (s.rings t).pending count := by
        obtain ⟨hlt, rfl⟩ := List.getElem?_eq_some_iff.mp hget
        rw [Ring.pending, ← hhead, List.drop_eq_getElem_cons hlt]
        exact List.mem_cons_self
      have hfits : cqe.sqe.Fits cfg s.conns :=
        hring.fits _ (List.mem_append_right _ (List.mem_map_of_mem hmem))
      have hturned := handleCqe_turned (s := s.server t) hfits (h.listening t hrun) h.steady
        (hring.arrival cqe hmem) hv
      obtain ⟨pushed, hsq, hpushed, hcount⟩ := hturned.pushed
      refine h.shared (v := v) hturned.follows (fun r hr => Function.update_of_ne hr _ _)
        (fun r hr => ?_) (hturned.follows.listening (h.listening t hrun)) ?_
      · simp [Ne.symm hr]
      · have hkept := hring.handle rfl hget (fun _ => hturned.follows.fits) hpushed hcount
        simp only [Listening.setPc, Function.update_self, hturned.inflight, hturned.cq, hsq]
        simpa [Listening.server] using hkept

theorem Separate.run {t : Nat} {queueInit : Bool} {out : Outcomes} {u : Listening}
    (hown : OwnRing s (.thread t queueInit out)) (hstep : s.run cfg t queueInit out = .ok u) :
    Separate cfg u := by
  have hring := h.rings t
  have hfetch {r : Nat} (hfetches : (s.pcs t).fetches = true) (hr : s.fetch = .ok r) : r = t := by
    have hsome := fetch_eq_ok hr
    rw [hown hfetches] at hsome
    exact (Option.some.inj hsome).symm
  cases hpc : s.pcs t with
  | init =>
      simp only [Listening.run, hpc] at hstep
      rw [hpc] at hring
      split at hstep
      · cases hstep
        exact h.alone (fun _ _ => rfl) nofun (hring.idle_step rfl rfl rfl rfl)
      · cases hstep
        exact h.alone (fun _ _ => rfl) nofun (hring.idle_step rfl rfl rfl rfl)
  | firstAccept =>
      simp only [Listening.run, hpc] at hstep
      obtain ⟨r, hr, hstep⟩ := bind_eq_ok.mp hstep
      obtain rfl := hfetch (by rw [hpc]; rfl) hr
      obtain ⟨v, hv, hstep⟩ := bind_eq_ok.mp hstep
      cases hstep
      rw [hpc] at hring
      have hfollows := acceptAgain_follows hv
      obtain ⟨-, haction, -, hinflight, hcq, number, hsq⟩ := acceptAgain_eq hv
      refine h.shared (v := v) hfollows (fun r' hne => Function.update_of_ne hne _ _)
        (fun _ _ => rfl) haction ?_
      have hempty : s.server r = ⟨s.conns, s.isOpen, [], [], [], false⟩ := by
        rw [Listening.server, hring.idle rfl]
        rfl
      rw [Function.update_self, hsq, hinflight, hcq, hempty, hring.idle rfl]
      exact hring.first rfl rfl rfl rfl
  | submit =>
      simp only [Listening.run, hpc] at hstep
      obtain ⟨r, hr, hstep⟩ := bind_eq_ok.mp hstep
      obtain rfl := hfetch (by rw [hpc]; rfl) hr
      cases hstep
      rw [hpc] at hring
      refine h.alone (fun _ hne => Function.update_of_ne hne _ _) (fun _ => by rw [hpc]; rfl) ?_
      simp only [Listening.setServer, Function.update_self]
      have hqueued : ((s.rings r).inflight ++ (s.rings r).sq).Perm
          ((s.rings r).sq ++ (s.rings r).inflight) := List.perm_append_comm
      exact hring.move rfl rfl rfl (List.append_nil _) (Nat.le_refl _) hqueued nofun
  | forEach =>
      simp only [Listening.run, hpc] at hstep
      obtain ⟨r, hr, hstep⟩ := bind_eq_ok.mp hstep
      obtain rfl := hfetch (by rw [hpc]; rfl) hr
      cases hstep
      rw [hpc] at hring
      exact h.alone (fun _ _ => rfl) (fun _ => by rw [hpc]; rfl)
        (hring.move rfl rfl rfl rfl (Nat.le_refl _) (.refl _) fun head count hturn => by cases hturn; rfl)
  | turn head count =>
      simp only [Listening.run, hpc] at hstep
      obtain ⟨r, hr, hstep⟩ := bind_eq_ok.mp hstep
      obtain rfl := hfetch (by rw [hpc]; rfl) hr
      exact h.turn hpc hstep
  | advance count =>
      simp only [Listening.run, hpc] at hstep
      obtain ⟨r, hr, hstep⟩ := bind_eq_ok.mp hstep
      obtain rfl := hfetch (by rw [hpc]; rfl) hr
      cases hstep
      rw [hpc] at hring
      refine h.alone (fun _ hne => Function.update_of_ne hne _ _) (fun _ => by rw [hpc]; rfl) ?_
      rw [Function.update_self]
      exact hring.move rfl rfl rfl rfl (Nat.le_add_right _ _) (.refl _) nofun
  | returned =>
      simp only [Listening.run, hpc] at hstep
      cases hstep

theorem Separate.step {threads : Nat} {e : ThreadEvent} {u : Listening} (hown : OwnRing s e)
    (hstep : threadStep cfg threads s e = .ok u) : Separate cfg u := by
  cases e with
  | thread t queueInit out =>
      simp only [threadStep] at hstep
      split at hstep
      · exact h.run hown hstep
      · cases hstep
  | complete r index res data => exact h.complete hstep

/-! What the rings show. -/

theorem Separate.mem_log {x : Handled} (hmem : x ∈ s.log) :
    x.thread = x.ring ∧ x.index < (s.rings x.ring).posted.length := by
  have hring := h.rings x.ring
  have hfilter : x ∈ s.log.filter fun y => y.ring == x.ring :=
    List.mem_filter.mpr ⟨hmem, beq_self_eq_true _⟩
  rw [hring.log] at hfilter
  obtain ⟨i, hi, heq⟩ := List.mem_map.mp hfilter
  have hlt := Nat.lt_of_lt_of_le (List.mem_range.mp hi) hring.cursor
  rw [← heq]
  exact ⟨rfl, hlt⟩

theorem Separate.nodup_log : s.log.Nodup := by
  refine List.nodup_iff_count.mpr fun x => ?_
  have hnodup : (s.log.filter fun y => y.ring == x.ring).Nodup := by
    rw [(h.rings x.ring).log]
    exact List.pairwise_map.mpr
      (List.nodup_range.imp fun hne heq => hne (congrArg Handled.index heq))
  rw [← List.count_filter (p := fun y => y.ring == x.ring) (beq_self_eq_true _)]
  exact List.nodup_iff_count.mp hnodup x

theorem Separate.handledOnce : HandledOnce s where
  owner _ hmem := h.mem_log hmem
  once := h.nodup_log
  kept r i hi := by
    have hring := h.rings r
    by_cases hlt : i < (s.rings r).head + (s.pcs r).count
    · left
      have hmem : (⟨r, r, i⟩ : Handled) ∈ s.log.filter fun y => y.ring == r := by
        rw [hring.log]
        exact List.mem_map.mpr ⟨i, List.mem_range.mpr hlt, rfl⟩
      exact (List.mem_filter.mp hmem).1
    · right
      have hhead : (s.rings r).head ≤ i := by omega
      refine ⟨?_, hhead, Ring.entryAt_eq hhead hi hring.room⟩
      by_contra hidle
      rw [hring.idle (by simpa using hidle)] at hi
      cases hi
  accept t hrun := List.length_eq_one_iff.mp ((h.rings t).accept hrun)

end

theorem separate_initial (cfg : Config) : Separate cfg (Listening.initial cfg) where
  rings r := by
    constructor
    · rfl
    · exact Nat.le_refl _
    · exact Nat.zero_le _
    · nofun
    · exact fun _ => rfl
    · nofun
    · simp [Listening.initial, Ring.outstanding, Ring.pending, Ring.empty]
    · simp [Listening.initial, Ring.pending, Ring.empty]
  listening := nofun
  isOpen := beq_self_eq_true _
  steady _ _ := ⟨nofun, nofun⟩

theorem separate_reach {threadsCnt : Int} {s : Listening}
    (hs : Automaton.Reach (startListening cfg threadsCnt) OwnRing s) : Separate cfg s := by
  refine hs.invariant (fun s h0 => ?_) fun _ _ _ hs hown hstep => hs.step hown hstep
  rw [show s = Listening.initial cfg from h0]
  exact separate_initial cfg

/-- While every thread that takes the ring from `svr->ring` takes its own, every
completion is handled once, by its thread. -/
theorem startListening_handles_once (cfg : Config) (threadsCnt : Int) (s : Listening)
    (hs : Automaton.Reach (startListening cfg threadsCnt) OwnRing s) : HandledOnce s :=
  (separate_reach hs).handledOnce

/-! One thread alone. -/

theorem run_ring {s u : Listening} {t : Nat} {queueInit : Bool} {out : Outcomes}
    (hring : (s.pcs t).fetches = true → s.ring = some t)
    (hstep : s.run cfg t queueInit out = .ok u) : (u.pcs t).fetches = true → u.ring = some t := by
  have hpcs {pc : ThreadPc} : (s.setPc t pc).pcs t = pc := Function.update_self _ _ _
  cases hpc : s.pcs t with
  | init =>
      simp only [Listening.run, hpc] at hstep
      split at hstep
      · cases hstep
        exact fun _ => rfl
      · cases hstep
        rw [hpcs]
        nofun
  | turn head count =>
      have hown := hring (by rw [hpc]; rfl)
      simp only [Listening.run, hpc] at hstep
      obtain ⟨r, -, hstep⟩ := bind_eq_ok.mp hstep
      unfold Listening.turn at hstep
      split at hstep
      · cases hstep
        exact fun _ => hown
      · split at hstep
        · cases hstep
        · split at hstep
          · cases hstep
          · obtain ⟨v, -, hstep⟩ := bind_eq_ok.mp hstep
            cases hstep
            exact fun _ => hown
  | firstAccept =>
      have hown := hring (by rw [hpc]; rfl)
      simp only [Listening.run, hpc] at hstep
      obtain ⟨r, -, hstep⟩ := bind_eq_ok.mp hstep
      obtain ⟨v, -, hstep⟩ := bind_eq_ok.mp hstep
      cases hstep
      exact fun _ => hown
  | submit | forEach | advance count =>
      have hown := hring (by rw [hpc]; rfl)
      simp only [Listening.run, hpc] at hstep
      obtain ⟨r, -, hstep⟩ := bind_eq_ok.mp hstep
      cases hstep
      exact fun _ => hown
  | returned =>
      simp only [Listening.run, hpc] at hstep
      cases hstep

/-- With the calling thread alone, it always takes its own ring. -/
theorem reach_own_of_alone {threadsCnt : Int} (hcnt : threadsCnt ≤ 0) {s : Listening}
    (hs : Automaton.Reachable (startListening cfg threadsCnt) s) :
    Automaton.Reach (startListening cfg threadsCnt) OwnRing s ∧
      ((s.pcs 0).fetches = true → s.ring = some 0) := by
  have hthreads : threadsCnt.toNat + 1 = 1 := by omega
  induction hs with
  | start h0 =>
      refine ⟨.start h0, ?_⟩
      rw [show _ = Listening.initial cfg from h0]
      nofun
  | @step s u e _ _ hstep ih =>
      obtain ⟨hreach, hring⟩ := ih
      have hstep' : threadStep cfg 1 s e = .ok u := hthreads ▸ hstep
      cases e with
      | thread t queueInit out =>
          simp only [threadStep] at hstep'
          split at hstep'
          · next hlt =>
            obtain rfl : t = 0 := by omega
            have hown : OwnRing s (.thread 0 queueInit out) := hring
            exact ⟨hreach.step hown hstep, run_ring hring hstep'⟩
          · cases hstep'
      | complete r index res data =>
          have hown : OwnRing s (.complete r index res data) := trivial
          refine ⟨hreach.step hown hstep, ?_⟩
          simp only [threadStep] at hstep'
          split at hstep'
          · obtain ⟨v, -, hstep'⟩ := bind_eq_ok.mp hstep'
            cases hstep'
            exact hring
          · cases hstep'

/-- The calling thread alone handles everything once. -/
theorem startListening_alone {threadsCnt : Int} (hcnt : threadsCnt ≤ 0) {s : Listening}
    (hs : Automaton.Reachable (startListening cfg threadsCnt) s) : HandledOnce s :=
  (separate_reach (reach_own_of_alone hcnt hs).1).handledOnce

/-! Two threads on a server that listens on descriptor 3. -/

/-- The first thread handles the completion of its accept before the second one stores
its ring, which then does the same. -/
def apartEvents : List ThreadEvent :=
  let thread (t : Nat) : ThreadEvent := .thread t true .granted
  [thread 0, thread 0, thread 0, .complete 0 0 7 [], thread 0, thread 0, thread 0, thread 0,
    thread 1, thread 1, thread 1, .complete 1 0 (-11) [], thread 1, thread 1, thread 1, thread 1]

theorem startListening_handles_once_apart :
    ∃ s : Listening, s.log = [⟨0, 0, 0⟩, ⟨1, 1, 0⟩] ∧ s.ring = some 1 ∧
      s.pcs 0 = .submit ∧ s.pcs 1 = .submit ∧ HandledOnce s := by
  obtain ⟨s, hs, hview⟩ := exists_of_map_toOption
    (f := fun s => (s.log, s.ring, s.pcs 0, s.pcs 1))
    (x := Automaton.run (startListening bareConfig 1) apartEvents (Listening.initial bareConfig))
    (b := ([⟨0, 0, 0⟩, ⟨1, 1, 0⟩], some 1, .submit, .submit)) (by decide +kernel)
  simp only [Prod.mk.injEq] at hview
  obtain ⟨hlog, hring, hpc₀, hpc₁⟩ := hview
  refine ⟨s, hlog, hring, hpc₀, hpc₁, startListening_handles_once bareConfig 1 s ?_⟩
  exact Automaton.reach_of_run (.start rfl) (by decide +kernel) hs

/-- Both threads store their rings before the first one waits. -/
def sharedEvents : List ThreadEvent :=
  let thread (t : Nat) : ThreadEvent := .thread t true .granted
  [thread 0, thread 0, thread 1, thread 1, thread 1, .complete 1 0 (-11) [], thread 0, thread 0,
    thread 0, thread 1, thread 1]

/-- The completion of the second thread's accept is handled by both. -/
theorem startListening_handles_twice :
    ∃ s, Automaton.Reachable (startListening bareConfig 1) s ∧
      s.log = [⟨0, 1, 0⟩, ⟨1, 1, 0⟩] ∧ ¬ HandledOnce s := by
  obtain ⟨s, hs, hlog⟩ := exists_of_map_toOption (f := fun s => s.log)
    (x := Automaton.run (startListening bareConfig 1) sharedEvents (Listening.initial bareConfig))
    (b := [⟨0, 1, 0⟩, ⟨1, 1, 0⟩]) (by decide +kernel)
  refine ⟨s, Automaton.reachable_of_run rfl hs, hlog, fun h => ?_⟩
  obtain ⟨howner, -⟩ := h.owner ⟨0, 1, 0⟩ (by rw [hlog]; exact List.mem_cons_self)
  cases howner

end L4Server
