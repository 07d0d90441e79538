import Mathlib.Algebra.Order.Ring.Int
import Mathlib.Data.List.TakeWhile
import Mathlib.Tactic.Common

/-!
Texts in a memory of bytes with 64-bit addresses, each ended by a NUL, and their
comparison with `strcmp`.
-/
namespace CText

/-- Readable bytes by address. -/
abbrev TextMemory := UInt64 → Option UInt8

/-- A text with its NUL at an address. -/
structure StringAt (mem : TextMemory) (p : UInt64) (text : List UInt8) : Prop where
  chars : ∀ i b, text[i]? = some b → mem (p + UInt64.ofNat i) = some b
  terminator : mem (p + UInt64.ofNat text.length) = some 0
  noNul : 0 ∉ text

variable {mem : TextMemory} {p q : UInt64} {text text' : List UInt8} {b : UInt8}

/-- Bytes that lie at an address, NULs among them or not. -/
def BytesAt (mem : TextMemory) (p : UInt64) (bytes : List UInt8) : Prop :=
  ∀ i b, bytes[i]? = some b → mem (p + UInt64.ofNat i) = some b

theorem BytesAt.drop {bytes : List UInt8} (h : BytesAt mem p bytes) (n : Nat) :
    BytesAt mem (p + UInt64.ofNat n) (bytes.drop n) := by
  intro i b hi
  rw [UInt64.add_assoc, ← UInt64.ofNat_add]
  exact h (n + i) b (by rwa [List.getElem?_drop] at hi)

theorem BytesAt.take {bytes : List UInt8} (h : BytesAt mem p bytes) (n : Nat) :
    BytesAt mem p (bytes.take n) := by
  intro i b hi
  rw [List.getElem?_take] at hi
  split at hi
  · exact h i b hi
  · cases hi

/-- A memory that holds some bytes and nothing else. -/
def placed (base : UInt64) (bytes : List UInt8) : TextMemory :=
  fun p => bytes[(p - base).toNat]?

theorem bytesAt_placed (base : UInt64) {bytes : List UInt8} (hle : bytes.length ≤ 2 ^ 64) :
    BytesAt (placed base bytes) base bytes := by
  intro i b hi
  have hlt : i < bytes.length := (List.getElem?_eq_some_iff.mp hi).1
  have hoffset : (base + UInt64.ofNat i - base).toNat = i := by
    rw [UInt64.add_comm, UInt64.add_sub_cancel, UInt64.toNat_ofNat']
    exact Nat.mod_eq_of_lt (by omega)
  rw [placed, hoffset]
  exact hi

theorem BytesAt.stringAt_append {rest : List UInt8} (h : BytesAt mem p (text ++ 0 :: rest))
    (hnul : 0 ∉ text) : StringAt mem p text where
  chars i b hi := h i b (by
    rwa [List.getElem?_append_left (List.getElem?_eq_some_iff.mp hi).1])
  terminator := h text.length 0 (by simp)
  noNul := hnul

/-- Where a NUL follows in a block there is a text. -/
theorem BytesAt.stringAt {bytes : List UInt8} (h : BytesAt mem p bytes) {n z : Nat}
    (hz : bytes[z]? = some 0) (hn : n ≤ z) :
    StringAt mem (p + UInt64.ofNat n) ((bytes.drop n).takeWhile (· != 0)) := by
  have hmem : 0 ∈ bytes.drop n :=
    List.mem_of_getElem? (by rwa [List.getElem?_drop, Nat.add_sub_cancel' hn])
  have hsplit := List.takeWhile_append_dropWhile (p := (· != 0)) (l := bytes.drop n)
  cases hrest : (bytes.drop n).dropWhile (· != 0) with
  | nil => simpa using List.dropWhile_eq_nil_iff.mp hrest 0 hmem
  | cons b rest =>
      have hb : b = 0 := by
        have hhead := List.head_dropWhile_not (· != 0)
          (show (bytes.drop n).dropWhile (· != 0) ≠ [] by simp [hrest])
        simpa [hrest] using hhead
      rw [hrest, hb] at hsplit
      have hbytes := h.drop n
      rw [← hsplit] at hbytes
      exact hbytes.stringAt_append fun hnul => by simpa using List.mem_takeWhile_imp hnul

theorem stringAt_nil (h : mem p = some 0) : StringAt mem p [] :=
  ⟨by simp, by simpa using h, by simp⟩

/-- An address as the one before it sees it. -/
theorem add_ofNat_succ (p : UInt64) (i : Nat) :
    p + UInt64.ofNat (i + 1) = p + 1 + UInt64.ofNat i := by
  rw [UInt64.ofNat_add, UInt64.add_comm (UInt64.ofNat i), UInt64.add_assoc]
  rfl

theorem stringAt_cons_iff :
    StringAt mem p (b :: text) ↔ mem p = some b ∧ b ≠ 0 ∧ StringAt mem (p + 1) text := by
  constructor
  · intro h
    have hnul := not_or.mp (mt List.mem_cons.mpr h.noNul)
    refine ⟨by simpa using h.chars 0 b rfl, Ne.symm hnul.1, fun i c hi => ?_, ?_, hnul.2⟩
    · exact add_ofNat_succ p i ▸ h.chars (i + 1) c hi
    · exact add_ofNat_succ p text.length ▸ h.terminator
  · rintro ⟨hb, hne, h⟩
    refine ⟨fun i c hi => ?_, ?_, mt List.mem_cons.mp (not_or.mpr ⟨hne.symm, h.noNul⟩)⟩
    · cases i with
      | zero =>
          obtain rfl := Option.some.inj hi
          simpa using hb
      | succ i => exact add_ofNat_succ p i ▸ h.chars i c hi
    · exact add_ofNat_succ p text.length ▸ h.terminator

/-- Both texts end, or their first bytes are there to compare. -/
theorem StringAt.head (h : StringAt mem p text) :
    (text = [] ∧ mem p = some 0) ∨
      ∃ b rest, text = b :: rest ∧ mem p = some b ∧ b ≠ 0 ∧ StringAt mem (p + 1) rest := by
  cases text with
  | nil => exact .inl ⟨rfl, by simpa using h.terminator⟩
  | cons b rest => exact .inr ⟨b, rest, rfl, stringAt_cons_iff.mp h⟩

/-- At an address there is at most one text. -/
theorem StringAt.unique (h : StringAt mem p text) (h' : StringAt mem p text') :
    text = text' := by
  induction text generalizing p text' with
  | nil =>
      have hend : mem p = some 0 := by simpa using h.terminator
      obtain ⟨rfl, -⟩ | ⟨b, rest, rfl, hb, hne, -⟩ := h'.head
      · rfl
      · exact absurd (Option.some.inj (hb.symm.trans hend)) hne
  | cons b text ih =>
      obtain ⟨hb, hne, hrest⟩ := stringAt_cons_iff.mp h
      obtain ⟨rfl, hend⟩ | ⟨c, rest, rfl, hc, -, hrest'⟩ := h'.head
      · exact absurd (Option.some.inj (hb.symm.trans hend)) hne
      · rw [Option.some.inj (hb.symm.trans hc), ih hrest hrest']

/-- A text ends before its addresses come round. -/
theorem StringAt.length_lt (h : StringAt mem p text) : text.length < 2 ^ 64 := by
  by_contra hlong
  obtain ⟨i, hi⟩ : ∃ i, text.length = i + 2 ^ 64 := ⟨text.length - 2 ^ 64, by omega⟩
  have haddress : UInt64.ofNat text.length = UInt64.ofNat i := by
    rw [hi]
    simp [UInt64.ofNat_add]
  have hlt : i < text.length := by omega
  have hchar := h.chars i _ (List.getElem?_eq_getElem hlt)
  rw [← haddress, h.terminator] at hchar
  exact h.noNul (Option.some.inj hchar ▸ List.getElem_mem hlt)

def strcmpLoop (mem : TextMemory) : Nat → UInt64 → UInt64 → Option Int
  | 0, _, _ => none
  | fuel + 1, p, q => do
      let a ← mem p
      let b ← mem q
      if a = b then
        if a = 0 then some 0 else strcmpLoop mem fuel (p + 1) (q + 1)
      else some ((a.toNat : Int) - b.toNat)

/-- `strcmp`; none if it reads what is not readable. -/
def strcmp (mem : TextMemory) (p q : UInt64) : Option Int := strcmpLoop mem (2 ^ 64) p q

/-- Bytes that differ decide. -/
theorem strcmpLoop_of_ne {a : UInt8} (fuel : Nat) (ha : mem p = some a) (hb : mem q = some b)
    (hne : a ≠ b) : ∃ r, strcmpLoop mem (fuel + 1) p q = some r ∧ r ≠ 0 := by
  refine ⟨(a.toNat : Int) - b.toNat, by simp [strcmpLoop, ha, hb, hne], fun hzero => hne ?_⟩
  exact UInt8.toNat_inj.mp (by omega)

theorem strcmpLoop_texts {fuel : Nat} (h : StringAt mem p text) (h' : StringAt mem q text')
    (hfuel : text.length < fuel) :
    ∃ r, strcmpLoop mem fuel p q = some r ∧ (r = 0 ↔ text = text') := by
  induction fuel generalizing p q text text' with
  | zero => omega
  | succ fuel ih =>
      obtain ⟨rfl, hend⟩ | ⟨b, rest, rfl, hb, hne, hrest⟩ := h.head <;>
        obtain ⟨rfl, hend'⟩ | ⟨c, rest', rfl, hc, hne', hrest'⟩ := h'.head
      · exact ⟨0, by simp [strcmpLoop, hend, hend'], by simp⟩
      · obtain ⟨r, hr, hzero⟩ := strcmpLoop_of_ne fuel hend hc hne'.symm
        exact ⟨r, hr, by simpa using hzero⟩
      · obtain ⟨r, hr, hzero⟩ := strcmpLoop_of_ne fuel hb hend' hne
        exact ⟨r, hr, by simpa using hzero⟩
      · by_cases hbc : b = c
        · subst hbc
          simp only [List.length_cons] at hfuel
          obtain ⟨r, hr, hzero⟩ := ih hrest hrest' (by omega)
          exact ⟨r, by simpa [strcmpLoop, hb, hc, hne] using hr, by simpa using hzero⟩
        · obtain ⟨r, hr, hzero⟩ := strcmpLoop_of_ne fuel hb hc hbc
          exact ⟨r, hr, by simpa [hbc] using hzero⟩

/-- Two texts are compared by content. -/
theorem strcmp_texts (h : StringAt mem p text) (h' : StringAt mem q text') :
    ∃ r, strcmp mem p q = some r ∧ (r = 0 ↔ text = text') :=
  strcmpLoop_texts h h' h.length_lt

end CText
