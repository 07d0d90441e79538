import L4Server.Kv
import L4Server.Library.TextMemory
import L4Server.Library.Automaton
import L4Server.Library.CMemory

/-!
Runs of the key/value list, on the heap or over a caller's buffer. The pairs that
`kv_set_key_value` has accepted since the last reset are recorded beside the list;
the list holds just these, in order, and `kv_find_value` finds the first of them
whose key has the content it is given.
-/
namespace L4Server
open CMemory CText

/-- `strcmp` reads an entry that was never written, or no text. -/
inductive KvFault
  | entry
  | text
  deriving DecidableEq, Repr

/-- `kv_init`; the arguments say which of its two allocations succeed. -/
def kvInit {π : Type} (mallocKv mallocPairs : Bool) : Option (Kv π) :=
  if mallocKv then
    if mallocPairs then
      some {
        size := 0
        flag := kvFlagMalloc
        capacity := 20
        pairs := List.replicate 20 none
        size_le := Nat.zero_le _
        allocated := List.length_replicate
        heap_pos := fun _ => by decide }
    else none
  else none

/-- The loop of `kv_find_value` over the entries that are left; NULL is 0. -/
def kvFindLoop (mem : TextMemory) (key : UInt64) :
    List (Option (KvPair UInt64)) → Except KvFault UInt64
  | [] => .ok 0
  | none :: _ => .error .entry
  | some p :: ps =>
      match strcmp mem p.key key with
      | none => .error .text
      | some r => if r = 0 then .ok p.value else kvFindLoop mem key ps

def kvFindValue (mem : TextMemory) (kvmap : Kv UInt64) (key : UInt64) : Except KvFault UInt64 :=
  kvFindLoop mem key kvmap.stored

theorem length_reset {π : Type} (kvmap : Kv π) :
    (List.replicate kvmap.size none ++ kvmap.pairs.drop kvmap.size).length = kvmap.capacity := by
  rw [List.length_append, List.length_replicate, List.length_drop, kvmap.allocated]
  exact Nat.add_sub_cancel' kvmap.size_le

theorem zero_le_capacity {π : Type} (kvmap : Kv π) : 0 ≤ kvmap.capacity := Nat.zero_le _

/-- `kv_reset`; the `memset` is over the entries in use. -/
def kvReset {π : Type} (kvmap : Kv π) : Kv π :=
  { kvmap with
    size := 0
    pairs := List.replicate kvmap.size none ++ kvmap.pairs.drop kvmap.size
    size_le := zero_le_capacity kvmap
    allocated := length_reset kvmap }

inductive KvOp
  | set (realloc : Bool) (key value : UInt64)
  | find (mem : TextMemory) (key : UInt64)
  | reset

/-- A list, and the pairs of the calls that returned true since it was last reset. -/
structure Recorded where
  kvmap : Kv UInt64
  accepted : List (KvPair UInt64)

def kvStep (s : Recorded) : KvOp → Except KvFault Recorded
  | .set realloc key value =>
      let r := kvSetKeyValue realloc s.kvmap key value
      .ok ⟨r.2, if r.1 then s.accepted ++ [⟨key, value⟩] else s.accepted⟩
  | .find mem key => do
      let _ ← kvFindValue mem s.kvmap key
      return s
  | .reset => .ok ⟨kvReset s.kvmap, []⟩

/-- A list starts as `kv_init` returns it, or over a buffer of any length. -/
def kvLists : Automaton.Machine Recorded KvOp KvFault where
  start := fun s => s.accepted = [] ∧
    ((∃ mallocKv mallocPairs, kvInit mallocKv mallocPairs = some s.kvmap) ∨
      ∃ buf, s.kvmap = kvInitWithBuf buf)
  step := kvStep

/-- Pairs are set while there are fewer than 2^30. -/
def FewPairs (s : Recorded) : KvOp → Prop
  | .set _ _ _ => s.kvmap.size < 2 ^ 30
  | _ => True

instance (s : Recorded) : (op : KvOp) → Decidable (FewPairs s op)
  | .set _ _ _ => inferInstanceAs (Decidable (_ < _))
  | .find _ _ | .reset => .isTrue trivial

variable {π : Type}

/-! One call. -/

theorem Kv.grow_stored (kvmap : Kv π) : kvmap.grow.stored = kvmap.stored :=
  List.take_append_of_le_length (by rw [kvmap.allocated]; exact kvmap.size_le)

/-- What `kv_set_key_value` can do: refuse the pair, or put it behind the others, with
twice the capacity if there was no room. -/
inductive SetTurn (kvmap : Kv π) (key value : π) : Bool × Kv π → Prop
  | refused : SetTurn kvmap key value (false, kvmap)
  | accepted {kvmap' : Kv π} : kvmap'.stored = kvmap.stored ++ [some ⟨key, value⟩] →
      kvmap'.flag = kvmap.flag →
      kvmap'.capacity = kvmap.capacity ∨
        (kvmap.size = kvmap.capacity ∧ kvmap'.capacity = kvmap.capacity * 2) →
      SetTurn kvmap key value (true, kvmap')

theorem kvSetKeyValue_turn (realloc : Bool) (kvmap : Kv π) (key value : π) :
    SetTurn kvmap key value (kvSetKeyValue realloc kvmap key value) := by
  unfold kvSetKeyValue
  split
  · next full =>
      split
      · split
        · refine .accepted ?_ rfl (.inr ⟨full, rfl⟩)
          rw [Kv.put_stored, Kv.grow_stored]
        · exact .refused
      · exact .refused
  · exact .accepted (Kv.put_stored ..) rfl (.inl rfl)

theorem kvReset_stored (kvmap : Kv π) : (kvReset kvmap).stored = [] := rfl

/-! Lookups. -/

/-- The value of the earliest pair whose key is the text, NULL if there is none. -/
inductive FirstMatch (mem : TextMemory) (text : List UInt8) :
    List (KvPair UInt64) → UInt64 → Prop
  | none : FirstMatch mem text [] 0
  | here {p : KvPair UInt64} {ps : List (KvPair UInt64)} :
      StringAt mem p.key text → FirstMatch mem text (p :: ps) p.value
  | later {p : KvPair UInt64} {ps : List (KvPair UInt64)} {value : UInt64} :
      ¬ StringAt mem p.key text → FirstMatch mem text ps value →
      FirstMatch mem text (p :: ps) value

theorem kvFindLoop_first {mem : TextMemory} {key : UInt64} {text : List UInt8}
    (hkey : StringAt mem key text) {ps : List (KvPair UInt64)}
    (hps : ∀ p ∈ ps, ∃ t, StringAt mem p.key t) :
    ∃ value, kvFindLoop mem key (ps.map some) = .ok value ∧ FirstMatch mem text ps value := by
  induction ps with
  | nil => exact ⟨0, rfl, .none⟩
  | cons p ps ih =>
      obtain ⟨t, ht⟩ := hps p (List.mem_cons_self ..)
      obtain ⟨r, hr, hzero⟩ := strcmp_texts ht hkey
      by_cases hsame : r = 0
      · obtain rfl := hzero.mp hsame
        exact ⟨p.value, by simp [kvFindLoop, hr, hsame], .here ht⟩
      · obtain ⟨value, hvalue, hmatch⟩ := ih fun q hq => hps q (List.mem_cons_of_mem _ hq)
        refine ⟨value, by simp [kvFindLoop, hr, hsame, hvalue], .later (fun h => ?_) hmatch⟩
        exact hsame (hzero.mpr (ht.unique h))

/-! Runs. -/

/-- The entries in use are the accepted pairs, and a heap list's capacity is an `int`. -/
structure Recorded.Kept (s : Recorded) : Prop where
  stored : s.kvmap.stored = s.accepted.map some
  capacity : s.kvmap.flag &&& kvFlagMalloc ≠ 0 → s.kvmap.capacity < 2 ^ 31

theorem kept_start {s : Recorded} (h : kvLists.start s) : s.Kept := by
  obtain ⟨haccepted, ⟨mallocKv, mallocPairs, hinit⟩ | ⟨buf, hbuf⟩⟩ := h
  · obtain ⟨rfl, rfl⟩ : mallocKv = true ∧ mallocPairs = true := by
      cases mallocKv <;> cases mallocPairs <;> simp [kvInit] at hinit ⊢
    have hkv := Option.some.inj hinit
    exact ⟨by rw [← hkv, haccepted]; rfl, fun _ => by rw [← hkv]; decide⟩
  · refine ⟨by rw [hbuf, haccepted]; rfl, fun heap => ?_⟩
    have hflag : s.kvmap.flag = kvFlagProvided := by rw [hbuf]; rfl
    exact absurd (hflag ▸ (rfl : kvFlagProvided &&& kvFlagMalloc = 0)) heap

theorem Recorded.Kept.step {s t : Recorded} {op : KvOp} (h : s.Kept) (hfew : FewPairs s op)
    (hstep : kvStep s op = .ok t) : t.Kept := by
  cases op with
  | set realloc key value =>
      obtain rfl := Except.ok.inj hstep
      have hturn := kvSetKeyValue_turn realloc s.kvmap key value
      generalize kvSetKeyValue realloc s.kvmap key value = r at hturn
      cases hturn with
      | refused => exact ⟨h.stored, h.capacity⟩
      | accepted hstored hflag hcapacity =>
          refine ⟨by simp [hstored, h.stored], fun heap => ?_⟩
          have hold := h.capacity (hflag ▸ heap)
          have hsize : s.kvmap.size < 2 ^ 30 := hfew
          obtain hsame | ⟨hfull, hdouble⟩ := hcapacity
          · exact hsame ▸ hold
          · simp only [hdouble]
            omega
  | find mem key =>
      obtain ⟨_, _, hstep⟩ := bind_eq_ok.mp hstep
      exact Except.ok.inj hstep ▸ h
  | reset =>
      obtain rfl := Except.ok.inj hstep
      exact ⟨kvReset_stored _, h.capacity⟩

/-- Whatever has been set, refused and reset, a list holds the accepted pairs in order
within its allocation; a refusal changes nothing; a lookup finds the first match. -/
theorem kvLists_accepted {s : Recorded} (h : Automaton.Reach kvLists FewPairs s) :
    s.kvmap.size ≤ s.kvmap.capacity ∧ s.kvmap.pairs.length = s.kvmap.capacity ∧
      (s.kvmap.flag &&& kvFlagMalloc ≠ 0 → s.kvmap.capacity < 2 ^ 31) ∧
      s.kvmap.size = s.accepted.length ∧
      s.kvmap.pairs.take s.kvmap.size = s.accepted.map some ∧
      (∀ realloc key value, (kvSetKeyValue realloc s.kvmap key value).1 = false →
        (kvSetKeyValue realloc s.kvmap key value).2 = s.kvmap) ∧
      ∀ mem key text, StringAt mem key text → (∀ p ∈ s.accepted, ∃ t, StringAt mem p.key t) →
        ∃ value, kvFindValue mem s.kvmap key = .ok value ∧
          FirstMatch mem text s.accepted value := by
  have hkept : s.Kept := h.invariant (fun _ => kept_start) fun _ _ _ hs hfew => hs.step hfew
  refine ⟨s.kvmap.size_le, s.kvmap.allocated, hkept.capacity, ?_, hkept.stored, ?_, ?_⟩
  · rw [← s.kvmap.stored_length, hkept.stored, List.length_map]
  · intro realloc key value hfalse
    have hturn := kvSetKeyValue_turn realloc s.kvmap key value
    generalize kvSetKeyValue realloc s.kvmap key value = r at hturn hfalse
    cases hturn with
    | refused => rfl
    | accepted => cases hfalse
  · intro mem key text hkey hkeys
    rw [kvFindValue, hkept.stored]
    exact kvFindLoop_first hkey hkeys

/-- Twenty-one pairs in a list from `kv_init`, which has to grow for the last. -/
theorem kvLists_accepted_grown :
    ∃ s : Recorded, s.kvmap.capacity = 40 ∧
      s.kvmap.size ≤ s.kvmap.capacity ∧ s.kvmap.pairs.length = s.kvmap.capacity ∧
      (s.kvmap.flag &&& kvFlagMalloc ≠ 0 → s.kvmap.capacity < 2 ^ 31) ∧
      s.kvmap.size = s.accepted.length ∧
      s.kvmap.pairs.take s.kvmap.size = s.accepted.map some ∧
      (∀ realloc key value, (kvSetKeyValue realloc s.kvmap key value).1 = false →
        (kvSetKeyValue realloc s.kvmap key value).2 = s.kvmap) ∧
      ∀ mem key text, StringAt mem key text → (∀ p ∈ s.accepted, ∃ t, StringAt mem p.key t) →
        ∃ value, kvFindValue mem s.kvmap key = .ok value ∧
          FirstMatch mem text s.accepted value := by
  obtain ⟨kvmap, hinit⟩ : ∃ kvmap, @kvInit UInt64 true true = some kvmap := ⟨_, rfl⟩
  have hview : ((kvInit true true).map fun kvmap =>
      ((Automaton.run kvLists (List.replicate 21 (.set true 16 7)) ⟨kvmap, []⟩).toOption.map
        (·.kvmap.capacity), decide (Automaton.Guarded kvLists FewPairs
          (List.replicate 21 (.set true 16 7)) ⟨kvmap, []⟩))) = some (some 40, true) := by
    decide +kernel
  rw [hinit] at hview
  obtain ⟨hrun, hguarded⟩ := Prod.mk.inj (Option.some.inj hview)
  obtain ⟨s, hs, hcapacity⟩ := exists_of_map_toOption hrun
  have hstart : kvLists.start ⟨kvmap, []⟩ := ⟨rfl, .inl ⟨true, true, hinit⟩⟩
  exact ⟨s, hcapacity, kvLists_accepted
    (Automaton.reach_of_run (.start hstart) (of_decide_eq_true hguarded) hs)⟩

end L4Server
