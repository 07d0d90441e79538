import L4Server.Lifecycle
import Mathlib.Algebra.Order.BigOperators.Group.Finset

/-!
How much the ring can hold. A descriptor at any stage of its life has no more
operations outstanding than its longest reply has entries, so that the open
descriptors bound what the kernel can have completed at one time.
-/
namespace L4Server
open CMemory Automaton

variable {longest : Nat} {stage : LifeStage}

/-! Stages. -/

/-- The operations outstanding at a stage. -/
def LifeStage.operations : LifeStage → Nat
  | .closed | .arriving | .stranded => 0
  | .receiving => 1
  | .answering left => left

theorem LifeStage.Moves.operations_le {a b : LifeStage} {happening : Happening}
    (h : a.Moves longest happening b) (hlongest : 1 ≤ longest) (ha : a.operations ≤ longest) :
    b.operations ≤ longest := by
  cases h with
  | accepted | refused | hungUp | broken | finished => exact Nat.zero_le _
  | entered => exact hlongest
  | answered _ hle => exact hle
  | transferred => exact Nat.le_of_succ_le ha

theorem lifecycle_operations_le (hlongest : 1 ≤ longest)
    (hs : Reachable (lifecycle longest) stage) : stage.operations ≤ longest := by
  refine hs.invariant (P := fun stage => stage.operations ≤ longest) ?_ ?_
  · rintro stage rfl
    exact Nat.zero_le _
  · intro a e b ha _ hstep
    exact (LifeStage.next_moves (lifecycle_step.mp hstep)).operations_le hlongest ha

/-! Slots. -/

variable {cfg : Config} {s : Server} {slot : Nat}

theorem Server.Shows.operations_eq (h : s.Shows cfg slot stage) :
    (s.ops slot).length = stage.operations := by
  cases h with
  | closed _ hnil | arriving _ hnil _ | stranded _ hnil _ => rw [hnil]; rfl
  | receiving _ hone _ => rw [hone]; rfl
  | answering _ hlength _ _ => exact hlength

theorem longestReply_pos (cfg : Config) : 1 ≤ cfg.longestReply := by
  unfold Config.longestReply
  split <;> decide

/-- A slot of connections has operations outstanding only while its descriptor is
open, and no more than its longest reply. -/
theorem ops_length_le (hs : Reachable (listenLoop cfg) s) (hne : slot ≠ cfg.listenFd) :
    (s.ops slot).length ≤ cfg.longestReply * (s.isOpen slot).toNat := by
  obtain ⟨stage, hstage, -, hshows⟩ := (lifecycle_simulates cfg hne).reached hs
  have hle := lifecycle_operations_le (longestReply_pos cfg) hstage
  rw [hshows.operations_eq, hshows.isOpen_eq]
  cases stage <;> simp_all [LifeStage.isOpen, LifeStage.operations]

/-! The ring. -/

theorem Server.ops_length (s : Server) (slot : Nat) :
    (s.outstanding.map (·.userData)).count slot = (s.ops slot).length := by
  rw [List.count_eq_countP, List.countP_map, List.countP_eq_length_filter]
  rfl

/-- Whichever descriptors are open, all operations outstanding but the accept
belong to them, and each has its longest reply at most. -/
theorem listenLoop_outstanding_le (cfg : Config) (s : Server) (hs : Reachable (listenLoop cfg) s)
    (fds : Finset Nat) (hfds : ∀ fd, fd ≠ cfg.listenFd → s.isOpen fd = true → fd ∈ fds) :
    s.outstanding.length ≤ 1 + cfg.longestReply * fds.card := by
  have hb := books_reachable hs
  obtain ⟨accept, haccept, -⟩ := hb.accept
  have hmem : ∀ slot ∈ (s.outstanding.map (·.userData) : Multiset Nat),
      slot ∈ insert cfg.listenFd (fds.erase cfg.listenFd) := by
    intro slot hslot
    obtain ⟨sqe, hsqe, rfl⟩ := List.mem_map.mp (Multiset.mem_coe.mp hslot)
    by_cases hne : sqe.userData = cfg.listenFd
    · exact Finset.mem_insert.mpr (.inl hne)
    · have hops := List.length_pos_of_mem (Server.mem_ops.mpr ⟨hsqe, rfl⟩)
      have hle := ops_length_le hs hne
      have hopen : s.isOpen sqe.userData = true := by
        cases h : s.isOpen sqe.userData with
        | true => rfl
        | false =>
            rw [h] at hle
            simp only [Bool.toNat_false, Nat.mul_zero] at hle
            omega
      exact Finset.mem_insert_of_mem (Finset.mem_erase.mpr ⟨hne, hfds _ hne hopen⟩)
  calc s.outstanding.length
      = (s.outstanding.map (·.userData) : Multiset Nat).card := by simp
    _ = ∑ slot ∈ insert cfg.listenFd (fds.erase cfg.listenFd), (s.ops slot).length := by
        rw [← Multiset.sum_count_eq_card hmem]
        exact Finset.sum_congr rfl fun slot _ => by rw [Multiset.coe_count, s.ops_length]
    _ = 1 + ∑ slot ∈ fds.erase cfg.listenFd, (s.ops slot).length := by
        rw [Finset.sum_insert (Finset.notMem_erase _ _), haccept, List.length_singleton]
    _ ≤ 1 + ∑ slot ∈ fds.erase cfg.listenFd, cfg.longestReply := by
        refine Nat.add_le_add_left (Finset.sum_le_sum fun slot hslot => ?_) 1
        refine (ops_length_le hs (Finset.ne_of_mem_erase hslot)).trans ?_
        cases s.isOpen slot <;> simp
    _ ≤ 1 + cfg.longestReply * fds.card := by
        rw [Finset.sum_const_nat fun _ _ => rfl, Nat.mul_comm]
        exact Nat.add_le_add_left (Nat.mul_le_mul_left _ Finset.card_erase_le) 1

/-- A client has connected and been waited on. -/
theorem exists_client : ∃ s : Server, Reachable (listenLoop bareConfig) s ∧
    s.outstanding.length = 2 ∧ ∀ fd, fd ≠ 3 → s.isOpen fd = true → fd = 7 := by
  refine ⟨_, reachable_of_run rfl (show run (listenLoop bareConfig)
    [.submit, .complete 0 7 [], .handle .granted] (Server.initial bareConfig) = .ok _ from rfl),
    rfl, fun fd hne hopen => ?_⟩
  have hopen : Function.update (fun fd : Nat => fd == 3) 7 true fd = true := hopen
  by_contra h7
  simp [hne, h7] at hopen

theorem listenLoop_outstanding_le_client : ∃ s : Server, s.outstanding.length = 2 ∧
    s.outstanding.length ≤ 1 + bareConfig.longestReply * ({7} : Finset Nat).card := by
  obtain ⟨s, hs, hlength, hopen⟩ := exists_client
  exact ⟨s, hlength, listenLoop_outstanding_le bareConfig s hs {7}
    fun fd hne h => Finset.mem_singleton.mpr (hopen fd hne h)⟩

end L4Server
