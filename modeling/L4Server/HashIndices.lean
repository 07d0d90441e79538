import L4Server.Hashtable

/-!
The indices of `hash_64` and `murmurhash_str`. The first shifts its product down
to `bits` bits, except where the distance 64 wraps to 0; the second does not look
at `bits`.
-/
namespace L4Server
open CMemory CText

/-- What `hash_64` returns. -/
def hash64Index (key : UInt64) (bits : UInt8) : UInt64 :=
  (key * goldenRatio64) >>> (64 - bits.toUInt64)

theorem hash64_eq (mem : TextMemory) (key : UInt64) (bits : UInt8) :
    hash64 mem key bits = .ok (hash64Index key bits) := rfl

/-- A shift by `64 - bits` leaves `bits` bits. -/
theorem hash64Index_lt (key : UInt64) {bits : UInt8} (hbits : 1 ≤ bits.toNat) :
    (hash64Index key bits).toNat < 2 ^ bits.toNat := by
  have hindex := UInt64.toNat_lt (hash64Index key bits)
  by_cases hlarge : 64 ≤ bits.toNat
  · exact lt_of_lt_of_le hindex (Nat.pow_le_pow_right (by omega) hlarge)
  · have hdistance : (64 - bits.toUInt64).toNat = 64 - bits.toNat := by
      rw [UInt64.toNat_sub_of_le]
      · rfl
      · rw [UInt64.le_iff_toNat_le]
        simp
        omega
    have hproduct := UInt64.toNat_lt (key * goldenRatio64)
    rw [hash64Index, UInt64.toNat_shiftRight, hdistance, Nat.mod_eq_of_lt (by omega),
      Nat.shiftRight_eq_div_pow, Nat.div_lt_iff_lt_mul (Nat.two_pow_pos _), ← Nat.pow_add,
      show bits.toNat + (64 - bits.toNat) = 64 by omega]
    exact hproduct

/-- The golden ratio is odd, so multiplication by it loses nothing. -/
theorem mul_goldenRatio64_eq_zero {key : UInt64} : key * goldenRatio64 = 0 ↔ key = 0 := by
  refine ⟨fun h => ?_, fun h => by rw [h, UInt64.zero_mul]⟩
  have hinverse : goldenRatio64 * 0xe217c1e66c88cc3 = 1 := by decide
  calc key = key * (goldenRatio64 * 0xe217c1e66c88cc3) := by rw [hinverse, UInt64.mul_one]
    _ = 0 := by rw [← UInt64.mul_assoc, h, UInt64.zero_mul]

/-! Indices in range. -/

/-- The index of a key is that of a bucket. -/
def IndexInRange (m : Hmap) (mem : TextMemory) (key : UInt64) : Prop :=
  ∃ index, m.hashFunc mem key m.bits = .ok index ∧ index.toNat < m.hl.length

/-- The two constructors. -/
inductive HmapKind
  | str
  | int
  deriving DecidableEq, Repr

def HmapKind.hmapNew : HmapKind → UInt8 → Bool → Option Hmap
  | .str => strHmapNew
  | .int => intHmapNew

/-- What an index needs in a map with `hash_64`. -/
theorem hash64_inRange_iff {m : Hmap} (h : m.hashFunc = hash64) (mem : TextMemory)
    (key : UInt64) : IndexInRange m mem key ↔ 1 ≤ m.bits.toNat ∨ key = 0 := by
  unfold IndexInRange
  rw [h, m.length_hl]
  by_cases hbits : 1 ≤ m.bits.toNat
  · exact iff_of_true ⟨_, hash64_eq mem key m.bits, hash64Index_lt key hbits⟩ (.inl hbits)
  · -- no bits: one bucket, and the product itself as the index
    have hzero : m.bits = 0 := UInt8.toNat_inj.mp (by simp; omega)
    rw [hzero]
    have hindex : hash64Index key 0 = key * goldenRatio64 := UInt64.shiftRight_zero
    constructor
    · rintro ⟨index, hhash, hlt⟩
      obtain rfl : hash64Index key 0 = index := Except.ok.inj hhash
      right
      rw [← mul_goldenRatio64_eq_zero, ← hindex]
      exact UInt64.toNat_inj.mp (Nat.lt_one_iff.mp hlt)
    · intro hkey
      have hproduct := mul_goldenRatio64_eq_zero.mpr (hkey.resolve_left (by simp))
      exact ⟨_, hash64_eq mem key 0, by simp [hindex, hproduct]⟩

theorem strHmapNew_inRange_iff {bits : UInt8} {m : Hmap} (hnew : strHmapNew bits true = some m)
    (mem : TextMemory) (key : UInt64) : IndexInRange m mem key ↔ 1 ≤ bits.toNat ∨ key = 0 := by
  obtain rfl := Option.some.inj hnew
  exact hash64_inRange_iff rfl mem key

/-- The empty text at address 16. -/
def emptyText : TextMemory := fun p => if p = 16 then some 0 else none

theorem stringAt_emptyText : StringAt emptyText 16 [] := stringAt_nil (by decide)

/-- Its second word of MurmurHash3. -/
theorem murmurhashStr_empty (bits : UInt8) :
    murmurhashStr emptyText 16 bits = .ok 7104726815000737303 := by
  change murmurhashStr emptyText 16 0 = _
  decide +kernel

/-- All indices of a map are in range just when its hash function is `hash_64` and
there are two buckets or more; `str_hmap_new` installs that function, and keys of
`int_hmap_new` that are no texts need not be looked at. -/
theorem hmapNew_inRange_iff {kind : HmapKind} {bits : UInt8} {m : Hmap}
    (hbits : bits.toNat ≤ 30) (hnew : kind.hmapNew bits true = some m) :
    ((∀ mem key, (kind = .int → ∃ text, StringAt mem key text) → IndexInRange m mem key) ↔
      kind = .str ∧ 1 ≤ bits.toNat) ∧
    (kind = .str → ∀ mem key, IndexInRange m mem key ↔ 1 ≤ bits.toNat ∨ key = 0) := by
  cases kind with
  | str =>
      have hstr := strHmapNew_inRange_iff hnew
      refine ⟨⟨fun hall => ⟨rfl, ?_⟩, fun h mem key _ => (hstr mem key).mpr (.inl h.2)⟩,
        fun _ => hstr⟩
      exact ((hstr _ 1).mp (hall (fun _ => none) 1 (by simp))).resolve_right (by decide)
  | int =>
      refine ⟨⟨fun hall => ?_, fun h => by cases h.1⟩, fun h => by cases h⟩
      obtain ⟨index, hhash, hlt⟩ := hall emptyText 16 fun _ => ⟨[], stringAt_emptyText⟩
      obtain rfl := Option.some.inj hnew
      rw [List.length_replicate] at hlt
      obtain rfl := Except.ok.inj ((murmurhashStr_empty bits).symm.trans hhash)
      have hsmall : (2 : Nat) ^ bits.toNat ≤ 2 ^ 30 := Nat.pow_le_pow_right (by omega) hbits
      exact absurd (hlt.trans_le hsmall) (by decide)

/-- A map of one bucket from `str_hmap_new`. -/
theorem hmapNew_inRange_iff_one : ∃ m, HmapKind.str.hmapNew 0 true = some m ∧
    ((∀ mem key, (HmapKind.str = .int → ∃ text, StringAt mem key text) →
        IndexInRange m mem key) ↔ HmapKind.str = .str ∧ 1 ≤ (0 : UInt8).toNat) ∧
    (HmapKind.str = .str → ∀ mem key, IndexInRange m mem key ↔ 1 ≤ (0 : UInt8).toNat ∨ key = 0) :=
  ⟨_, rfl, hmapNew_inRange_iff (by decide) rfl⟩

/-- An index out of range for the empty text in a map from `int_hmap_new`, and for the
key 1 in a map from `str_hmap_new` with a single bucket. -/
theorem hmapNew_not_inRange :
    (∃ m, intHmapNew 10 true = some m ∧ StringAt emptyText 16 [] ∧
      ¬ IndexInRange m emptyText 16) ∧
    ∃ m, strHmapNew 0 true = some m ∧ ¬ IndexInRange m emptyText 1 := by
  refine ⟨⟨_, rfl, stringAt_emptyText, ?_⟩, ⟨_, rfl, ?_⟩⟩
  · rintro ⟨index, hhash, hlt⟩
    obtain rfl := Except.ok.inj ((murmurhashStr_empty 10).symm.trans hhash)
    rw [List.length_replicate] at hlt
    exact absurd hlt (by decide)
  · rw [strHmapNew_inRange_iff rfl]
    decide

end L4Server
