import Mathlib.Data.List.TakeWhile
import Mathlib.Tactic.Common

/-!
The key/value list of `kv.h`. Pointers are an arbitrary type: the request's
lists point into the receive buffer, the response's at texts of the handlers.
An entry never written, or cleared by `memset`, is `none`.
-/
namespace L4Server

def kvFlagProvided : Nat := 0
def kvFlagMalloc : Nat := 1 <<< 1

structure KvPair (π : Type) where
  key : π
  value : π
  deriving DecidableEq, Repr

/-- `struct kv`, with what its constructors establish and its operations keep:
the pairs lie in an allocation of `capacity` entries, and a list on the heap
has room to double. -/
structure Kv (π : Type) where
  size : Nat
  flag : Nat
  capacity : Nat
  pairs : List (Option (KvPair π))
  size_le : size ≤ capacity
  allocated : pairs.length = capacity
  heap_pos : flag &&& kvFlagMalloc ≠ 0 → 0 < capacity

variable {π : Type}

/-- `KV_INIT_WITH_BUF(buf, len)` over a buffer of `len` entries. -/
def kvInitWithBuf (buf : List (Option (KvPair π))) : Kv π where
  size := 0
  flag := kvFlagProvided
  capacity := buf.length
  pairs := buf
  size_le := Nat.zero_le _
  allocated := rfl
  heap_pos := fun h => absurd rfl h

/-- The pairs in use, as `FOREACH_KV` visits them. -/
def Kv.stored (kvmap : Kv π) : List (Option (KvPair π)) :=
  kvmap.pairs.take kvmap.size

/-- `pairs[size++] = (struct kv_pair){key, value}`. -/
def Kv.put (kvmap : Kv π) (key value : π) (room : kvmap.size < kvmap.capacity) : Kv π :=
  { kvmap with
    pairs := kvmap.pairs.set kvmap.size (some ⟨key, value⟩)
    size := kvmap.size + 1
    size_le := room
    allocated := by simp [kvmap.allocated] }

/-- The doubled allocation; `realloc` leaves the new half unwritten. -/
def Kv.grow (kvmap : Kv π) : Kv π :=
  { kvmap with
    pairs := kvmap.pairs ++ List.replicate kvmap.capacity none
    capacity := kvmap.capacity * 2
    size_le := Nat.le_trans kvmap.size_le (by omega)
    allocated := by simp [kvmap.allocated]; omega
    heap_pos := fun h => by have := kvmap.heap_pos h; omega }

/-- `kv_set_key_value`; `realloc` says whether a reallocation succeeds. -/
def kvSetKeyValue (realloc : Bool) (kvmap : Kv π) (key value : π) : Bool × Kv π :=
  if full : kvmap.size = kvmap.capacity then
    if heap : kvmap.flag &&& kvFlagMalloc ≠ 0 then
      if realloc then
        (true, kvmap.grow.put key value (by
          have := kvmap.heap_pos heap
          simp only [Kv.grow]
          omega))
      else (false, kvmap)
    else (false, kvmap)
  else
    (true, kvmap.put key value (Nat.lt_of_le_of_ne kvmap.size_le full))

/-- `size = 0` together with the `memset` of the entries. -/
def Kv.clear (kvmap : Kv π) : Kv π :=
  { kvmap with
    size := 0
    pairs := List.replicate kvmap.capacity none
    size_le := Nat.zero_le _
    allocated := by simp }

@[simp] theorem kvInitWithBuf_stored (buf : List (Option (KvPair π))) :
    (kvInitWithBuf buf).stored = [] := rfl

theorem Kv.stored_length (kvmap : Kv π) : kvmap.stored.length = kvmap.size := by
  have h := kvmap.size_le
  simp [Kv.stored, kvmap.allocated, h]

theorem Kv.put_stored (kvmap : Kv π) (key value : π) (room : kvmap.size < kvmap.capacity) :
    (kvmap.put key value room).stored = kvmap.stored ++ [some ⟨key, value⟩] := by
  have hlen : kvmap.size < kvmap.pairs.length := by rw [kvmap.allocated]; exact room
  simp only [Kv.stored, Kv.put]
  rw [List.take_add_one, List.take_set_of_le (Nat.le_refl _), List.getElem?_set_self hlen]
  rfl

theorem kvSetKeyValue_of_room (realloc : Bool) (kvmap : Kv π) (key value : π)
    (room : kvmap.size < kvmap.capacity) :
    kvSetKeyValue realloc kvmap key value = (true, kvmap.put key value room) := by
  simp [kvSetKeyValue, Nat.ne_of_lt room]

theorem kvSetKeyValue_of_full (realloc : Bool) (kvmap : Kv π) (key value : π)
    (full : kvmap.size = kvmap.capacity) (h : kvmap.flag = kvFlagProvided) :
    kvSetKeyValue realloc kvmap key value = (false, kvmap) := by
  simp [kvSetKeyValue, full, h, kvFlagProvided]

/-- A list over a caller's buffer takes a pair while there is room, and else
stays as it is. -/
theorem kvSetKeyValue_provided (realloc : Bool) (kvmap : Kv π) (key value : π)
    (h : kvmap.flag = kvFlagProvided) :
    (kvSetKeyValue realloc kvmap key value).2.stored =
        (kvmap.stored ++ [some (KvPair.mk key value)]).take kvmap.capacity ∧
      (kvSetKeyValue realloc kvmap key value).2.flag = kvFlagProvided ∧
      (kvSetKeyValue realloc kvmap key value).2.capacity = kvmap.capacity := by
  have hlen := kvmap.stored_length
  have hle := kvmap.size_le
  by_cases full : kvmap.size = kvmap.capacity
  · rw [kvSetKeyValue_of_full realloc kvmap key value full h]
    refine ⟨?_, h, rfl⟩
    rw [List.take_append_of_le_length (by omega), List.take_of_length_le (by omega)]
  · have room : kvmap.size < kvmap.capacity := by omega
    rw [kvSetKeyValue_of_room realloc kvmap key value room]
    refine ⟨?_, h, rfl⟩
    rw [Kv.put_stored, List.take_of_length_le]
    simp only [List.length_append, hlen, List.length_singleton]
    omega

/-- A list over one of the handler's fixed buffers. -/
structure Kv.Provided (kvmap : Kv π) : Prop where
  flag : kvmap.flag = kvFlagProvided
  capacity : kvmap.capacity = 20

theorem Kv.Provided.set {kvmap : Kv π} (h : kvmap.Provided) (realloc : Bool) (key value : π) :
    (kvSetKeyValue realloc kvmap key value).2.Provided := by
  obtain ⟨-, hflag, hcapacity⟩ := kvSetKeyValue_provided realloc kvmap key value h.flag
  exact ⟨hflag, hcapacity.trans h.capacity⟩

/-- Cleared, such a list is as `KV_INIT_WITH_BUF` made it. -/
theorem Kv.Provided.clear {kvmap : Kv π} (h : kvmap.Provided) :
    kvmap.clear = kvInitWithBuf (List.replicate 20 none) := by
  simp [Kv.clear, kvInitWithBuf, h.flag, h.capacity]

private theorem take_take_append {α : Type} (n : Nat) (as bs : List α) :
    (as.take n ++ bs).take n = (as ++ bs).take n := by
  rw [List.take_append, List.take_append, List.take_take, Nat.min_self, List.length_take]
  congr 2
  omega

/-- Setting pairs one after the other keeps the first `capacity` of them. -/
def kvSetAll (realloc : Bool) (kvmap : Kv π) (ps : List (KvPair π)) : Kv π :=
  ps.foldl (fun kv p => (kvSetKeyValue realloc kv p.key p.value).2) kvmap

theorem kvSetAll_provided (realloc : Bool) (ps : List (KvPair π)) (kvmap : Kv π)
    (h : kvmap.flag = kvFlagProvided) :
    (kvSetAll realloc kvmap ps).stored =
        (kvmap.stored ++ ps.map some).take kvmap.capacity ∧
      (kvSetAll realloc kvmap ps).flag = kvFlagProvided ∧
      (kvSetAll realloc kvmap ps).capacity = kvmap.capacity := by
  induction ps generalizing kvmap with
  | nil =>
      refine ⟨?_, h, rfl⟩
      have hlen := kvmap.stored_length
      have hle := kvmap.size_le
      rw [kvSetAll, List.foldl_nil, List.map_nil, List.append_nil,
        List.take_of_length_le (by omega)]
  | cons p ps ih =>
      obtain ⟨hs, hf, hc⟩ := kvSetKeyValue_provided realloc kvmap p.key p.value h
      obtain ⟨is, hif, hic⟩ := ih (kvSetKeyValue realloc kvmap p.key p.value).2 hf
      refine ⟨?_, hif, hic.trans hc⟩
      rw [kvSetAll, List.foldl_cons]
      calc (kvSetAll realloc (kvSetKeyValue realloc kvmap p.key p.value).2 ps).stored
          = ((kvmap.stored ++ [some p]).take kvmap.capacity ++ ps.map some).take
              kvmap.capacity := by rw [is, hs, hc]
        _ = ((kvmap.stored ++ [some p]) ++ ps.map some).take kvmap.capacity :=
              take_take_append _ _ _
        _ = (kvmap.stored ++ (p :: ps).map some).take kvmap.capacity := by simp

end L4Server
