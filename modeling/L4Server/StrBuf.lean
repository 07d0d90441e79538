import L4Server.Library.CMemory
import Mathlib.Data.Nat.Log

/-!
The growing strings of `strbuf.c`. Allocation outcomes are arguments: whether
a `malloc` succeeds, and for `realloc` the bytes it leaves behind the copied
ones (`none` when it fails). `size_t` sums wrap.
-/
namespace L4Server
open CMemory

def sizeAdd (a b : Nat) : Nat := (a + b) % 2 ^ 64

/-- `__builtin_clzl` of a positive 64-bit value. -/
def clzl (x : Nat) : Nat := 63 - Nat.log2 x

/-- `1 << count` as x86-64 evaluates it: a 32-bit shift whose count is taken
modulo 32, sign-extended to `size_t`. -/
def oneShl (count : Nat) : Nat :=
  if count % 32 = 31 then 2 ^ 64 - 2 ^ 31 else 2 ^ (count % 32)

/-- `string_t`; `buf` is the whole block, of exactly `capacity` bytes. -/
structure StringT where
  capacity : Nat
  len : Nat
  buf : List UInt8
  allocated : buf.length = capacity

def stringInit (mallocStr mallocBuf : Bool) (capacity : Nat) : Option StringT :=
  let realCapacity := max (oneShl (clzl capacity)) 64
  if mallocStr && mallocBuf then
    some ⟨realCapacity, 0, List.replicate realCapacity 0, by simp⟩
  else none

/-- An empty string, its block zero. -/
def StringT.empty (capacity : Nat) : StringT :=
  ⟨capacity, 0, List.replicate capacity 0, List.length_replicate⟩

theorem stringInit_eq_some {mallocStr mallocBuf : Bool} {capacity : Nat} {str : StringT}
    (h : stringInit mallocStr mallocBuf capacity = some str) :
    str = .empty (max (oneShl (clzl capacity)) 64) := by
  unfold stringInit at h
  simp only at h
  split at h
  · exact (Option.some.inj h).symm
  · cases h

theorem stringInit_granted (capacity : Nat) :
    stringInit true true capacity = some (.empty (max (oneShl (clzl capacity)) 64)) := rfl

/-- The growth test of `string_append`. -/
def StringT.needsGrowth (str : StringT) (buflen : Nat) : Bool :=
  decide (sizeAdd str.len buflen ≥ str.capacity)

/-- The reallocating half of `string_append`. A block after `realloc` holds the
old bytes as far as they fit, then whatever the allocator left there. -/
def StringT.reserve (realloc : Option (List UInt8)) (str : StringT) (buflen : Nat) :
    Option StringT :=
  if str.needsGrowth buflen then
    let realCapacity := oneShl (clzl (sizeAdd str.len buflen))
    realloc.map fun junk =>
      ⟨realCapacity, str.len, readBlock str.buf junk realCapacity, readBlock_length _ _ _⟩
  else some str

theorem strncat_length {dst src out : List UInt8} {n : Nat}
    (h : strncat dst src n = .ok out) : out.length = dst.length := by
  unfold strncat at h
  split at h
  · cases h
  · split at h
    · cases h
    · simp only at h
      split at h
      · next hget =>
        obtain ⟨hlt, -⟩ := List.getElem?_eq_some_iff.mp hget
        cases h
        simp only [List.length_append, List.length_cons, List.length_drop] at *
        omega
      · cases h

/-- `string_append(str, buf, buflen)`. -/
def stringAppend (realloc : Option (List UInt8)) (str : StringT) (buf : List UInt8)
    (buflen : Nat) : Except Fault (Bool × StringT) :=
  match str.reserve realloc buflen with
  | none => .ok (false, str)
  | some s =>
      match h : strncat s.buf buf buflen with
      | .error f => .error f
      | .ok out =>
          .ok (true, ⟨s.capacity, sizeAdd s.len buflen, out,
            (strncat_length h).trans s.allocated⟩)

theorem stringAppend_of_strncat {realloc : Option (List UInt8)} {str s : StringT}
    {buf out : List UInt8} {buflen : Nat} (hs : str.reserve realloc buflen = some s)
    (hout : strncat s.buf buf buflen = .ok out) :
    ∃ t, stringAppend realloc str buf buflen = .ok (true, t) ∧ t.capacity = s.capacity ∧
      t.len = sizeAdd s.len buflen ∧ t.buf = out := by
  unfold stringAppend
  rw [hs]
  simp only
  split
  · next hcat =>
    rw [hcat] at hout
    cases hout
  · next out' hcat =>
    exact ⟨_, rfl, rfl, rfl, Except.ok.inj (hcat.symm.trans hout)⟩

/-- An append fails for want of memory, or the string has got its room. -/
theorem stringAppend_eq_ok {realloc : Option (List UInt8)} {str t : StringT} {buf : List UInt8}
    {buflen : Nat} {ok : Bool} (h : stringAppend realloc str buf buflen = .ok (ok, t)) :
    str.reserve realloc buflen = none ∧ ok = false ∧ t = str ∨
      ∃ s, str.reserve realloc buflen = some s ∧ ok = true ∧ t.capacity = s.capacity ∧
        t.len = sizeAdd s.len buflen := by
  unfold stringAppend at h
  split at h
  · next hnone =>
    cases h
    exact .inl ⟨hnone, rfl, rfl⟩
  · next s hs =>
    split at h
    · cases h
    · cases h
      exact .inr ⟨s, hs, rfl, rfl, rfl⟩

theorem stringAppend_noFormat (realloc : Option (List UInt8)) (str : StringT)
    (buf : List UInt8) (buflen : Nat) : NoFormat (stringAppend realloc str buf buflen) := by
  intro written room h
  unfold stringAppend at h
  split at h
  · cases h
  · split at h
    · next hcat =>
      cases h
      exact strncat_noFormat _ _ _ _ _ hcat
    · cases h

def stringReset (str : StringT) : StringT :=
  ⟨str.capacity, 0, List.replicate str.capacity 0, by simp⟩

/-- The block with `data` written over its start. -/
def StringT.write (str : StringT) (data : List UInt8) : StringT :=
  ⟨str.capacity, str.len, copyInto str.buf data, by rw [copyInto_length, str.allocated]⟩

theorem stringReset_eq (str : StringT) : stringReset str = .empty str.capacity := rfl

@[simp] theorem StringT.write_nil (str : StringT) : str.write [] = str := by
  cases str with
  | mk capacity len buf allocated => cases buf <;> rfl

/-- `1 << clzl` is less than the length for long texts, which then overrun the
block they have just been given. -/
theorem stringAppend_overruns {str : StringT} (buf : List UInt8) {buflen : Nat}
    (junk : List UInt8) (hgrow : str.needsGrowth buflen = true)
    (hshort : oneShl (clzl (sizeAdd str.len buflen)) ≤ ((buf.take buflen).takeWhile (· != 0)).length) :
    ∃ f, stringAppend (some junk) str buf buflen = .error f := by
  unfold stringAppend StringT.reserve
  rw [if_pos hgrow]
  simp only [Option.map_some]
  split
  · exact ⟨_, rfl⟩
  · next hcat =>
    have hroom := strncat_room hcat
    rw [readBlock_length] at hroom
    omega

/-- Texts of one letter overrun it. -/
theorem stringAppend_overruns_replicate {str : StringT} {n : Nat} {b : UInt8} (hb : b ≠ 0)
    (junk : List UInt8) (hgrow : str.needsGrowth n = true)
    (hshort : oneShl (clzl (sizeAdd str.len n)) ≤ n) :
    ∃ f, stringAppend (some junk) str (List.replicate n b) n = .error f := by
  have hcopied : ((List.replicate n b).take n).takeWhile (· != 0) = List.replicate n b := by
    rw [List.take_of_length_le (Nat.le_of_eq List.length_replicate), List.takeWhile_eq_self_iff]
    intro c hc
    rw [(List.mem_replicate.mp hc).2]
    exact bne_iff_ne.mpr hb
  exact stringAppend_overruns _ junk hgrow (by rwa [hcopied, List.length_replicate])

theorem stringAppend_empty (realloc : Option (List UInt8)) {capacity buflen : Nat}
    {buf : List UInt8} (hcapacity : capacity ≤ 2 ^ 64) (hfit : buflen < capacity)
    (hbuf : buflen ≤ buf.length) :
    ∃ out, stringAppend realloc (.empty capacity) buf buflen = .ok (true, out) := by
  have hadd : sizeAdd 0 buflen = buflen :=
    (congrArg (· % 2 ^ 64) (Nat.zero_add _)).trans
      (Nat.mod_eq_of_lt (Nat.lt_of_lt_of_le hfit hcapacity))
  have hkeep : (StringT.empty capacity).needsGrowth buflen = false := by
    simpa [StringT.needsGrowth, StringT.empty, hadd] using hfit
  obtain ⟨out, hout⟩ := strncat_zeros hfit hbuf
  unfold stringAppend StringT.reserve
  simp only [hkeep, Bool.false_eq_true, if_false]
  split
  · next hcat =>
    rw [StringT.empty, hout] at hcat
    cases hcat
  · exact ⟨_, rfl⟩

end L4Server
