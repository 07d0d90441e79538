import L4Server.HashIndices
import L4Server.Library.WordMixing
import Mathlib.Data.List.Induction
import Mathlib.SetTheory.Cardinal.Finite

/-!
What the hash functions keep apart. No step of MurmurHash3 loses anything, so that
the digest of a text tells its seed, and of texts that differ in one block only
it tells which of them was hashed. `hash_64` gives every bucket its share of keys.
-/
namespace L4Server
open CMemory CText WordMixing Function

/-! Words of 64 bits. -/

theorem xorShift64_injective {n : UInt64} (hpos : 0 < n.toNat % 64) :
    Injective fun x : UInt64 => x ^^^ (x >>> n) := by
  intro x y h
  apply UInt64.toBitVec_inj.mp
  apply xorShift_injective hpos
  simpa using congrArg UInt64.toBitVec h

theorem mulOdd64_injective {c : UInt64} (hc : c.toNat % 2 = 1) :
    Injective fun x : UInt64 => x * c := by
  intro x y h
  apply UInt64.toBitVec_inj.mp
  exact mulOdd_injective hc (by simpa using congrArg UInt64.toBitVec h)

theorem rotl64_toBitVec (x : UInt64) {r : UInt64} (hpos : 0 < r.toNat) (hlt : r.toNat < 64) :
    (rotl64 x r).toBitVec = x.toBitVec <<< r.toNat ||| x.toBitVec >>> (64 - r.toNat) := by
  have hdistance : (64 - r).toNat = 64 - r.toNat :=
    UInt64.toNat_sub_of_le _ _ (UInt64.le_iff_toNat_le.mpr (Nat.le_of_lt hlt))
  rw [rotl64, UInt64.toBitVec_or, UInt64.toBitVec_shiftLeft, UInt64.toBitVec_shiftRight,
    BitVec.shiftLeft_eq', BitVec.ushiftRight_eq', BitVec.toNat_umod, BitVec.toNat_umod]
  change x.toBitVec <<< (r.toNat % 64) ||| x.toBitVec >>> ((64 - r).toNat % 64) = _
  rw [hdistance, Nat.mod_eq_of_lt hlt, Nat.mod_eq_of_lt (by omega)]

theorem rotl64_injective {r : UInt64} (hpos : 0 < r.toNat) (hlt : r.toNat < 64) :
    Injective fun x => rotl64 x r := by
  intro x y h
  apply UInt64.toBitVec_inj.mp
  apply rotate_injective hlt
  simpa only [rotl64_toBitVec _ hpos hlt] using congrArg UInt64.toBitVec h

theorem fmix64_injective : Injective fmix64 := by
  intro x y h
  apply xorShift64_injective (n := 33) (by decide)
  apply mulOdd64_injective (c := 0xff51afd7ed558ccd) (by decide)
  apply xorShift64_injective (n := 33) (by decide)
  apply mulOdd64_injective (c := 0xc4ceb9fe1a85ec53) (by decide)
  exact xorShift64_injective (n := 33) (by decide) h

theorem mixK1_injective : Injective mixK1 := by
  intro x y h
  apply mulOdd64_injective (c := murmurC1) (by decide)
  apply rotl64_injective (r := 31) (by decide) (by decide)
  exact mulOdd64_injective (c := murmurC2) (by decide) h

theorem mixK2_injective : Injective mixK2 := by
  intro x y h
  apply mulOdd64_injective (c := murmurC2) (by decide)
  apply rotl64_injective (r := 33) (by decide) (by decide)
  exact mulOdd64_injective (c := murmurC1) (by decide) h

/-- The word that at most eight bytes make. -/
def word64 (bytes : List UInt8) : UInt64 := ⟨wordOfBytes 64 bytes⟩

theorem word64_append (bytes : List UInt8) (b : UInt8) (hlt : bytes.length < 8) :
    word64 (bytes ++ [b]) =
      b.toUInt64 <<< UInt64.ofNat (8 * bytes.length) ^^^ word64 bytes := by
  apply UInt64.toBitVec_inj.mp
  have hdistance : (UInt64.ofNat (8 * bytes.length)).toNat % 64 = 8 * bytes.length := by
    simp
    omega
  rw [word64, wordOfBytes_append, UInt64.toBitVec_xor, UInt64.toBitVec_shiftLeft,
    BitVec.shiftLeft_eq', BitVec.toNat_umod]
  change _ = b.toUInt64.toBitVec <<< ((UInt64.ofNat (8 * bytes.length)).toNat % 64) ^^^ _
  rw [hdistance]
  rfl

theorem xorBytes_eq {mem : TextMemory} {p : UInt64} {bytes : List UInt8}
    (h : BytesAt mem p bytes) (hle : bytes.length ≤ 8) (k : UInt64) :
    xorBytes mem p bytes.length k = .ok (k ^^^ word64 bytes) := by
  induction bytes using List.reverseRecOn generalizing k with
  | nil => simp [xorBytes, word64, wordOfBytes]
  | append_singleton bytes b ih =>
      simp only [List.length_append, List.length_singleton] at hle ⊢
      have hbyte : mem (p + UInt64.ofNat bytes.length) = some b := h _ _ (by simp)
      have hfront : BytesAt mem p bytes := by simpa using h.take bytes.length
      simp only [xorBytes, readByte, hbyte, bind, Except.bind]
      rw [ih hfront (by omega), word64_append bytes b (by omega), UInt64.xor_assoc]

/-! The steps of MurmurHash3_x64_128. -/

/-- What a turn of the body does with the words of its block. -/
def mixBlock (h k : UInt64 × UInt64) : UInt64 × UInt64 :=
  let h1 := (rotl64 (h.1 ^^^ mixK1 k.1) 27 + h.2) * 5 + 0x52dce729
  (h1, (rotl64 (h.2 ^^^ mixK2 k.2) 31 + h1) * 5 + 0x38495ab5)

def mixTail (h : UInt64 × UInt64) (tail : List UInt8) : UInt64 × UInt64 :=
  (if 0 < tail.length then h.1 ^^^ mixK1 (word64 (tail.take 8)) else h.1,
    if 8 < tail.length then h.2 ^^^ mixK2 (word64 (tail.drop 8)) else h.2)

theorem mixStep_injective {r : UInt64} (hpos : 0 < r.toNat) (hlt : r.toNat < 64) (n c : UInt64) :
    Injective fun x => (rotl64 x r + n) * 5 + c := by
  intro x y h
  apply rotl64_injective hpos hlt
  apply (UInt64.add_left_inj n).mp
  apply mulOdd64_injective (c := 5) (by decide)
  exact (UInt64.add_left_inj c).mp h

/-- What goes into a lane comes out of it: the second lane is read back with the
first lane's result, the first with the second lane. -/
theorem mixBlock_inj {h h' k k' : UInt64 × UInt64} (heq : mixBlock h k = mixBlock h' k') :
    h.2 ^^^ mixK2 k.2 = h'.2 ^^^ mixK2 k'.2 ∧
      (h.2 = h'.2 → h.1 ^^^ mixK1 k.1 = h'.1 ^^^ mixK1 k'.1) := by
  obtain ⟨hfirst, hsecond⟩ := Prod.mk.inj heq
  rw [hfirst] at hsecond
  refine ⟨mixStep_injective (r := 31) (by decide) (by decide) _ _ hsecond, fun hlane => ?_⟩
  rw [hlane] at hfirst
  exact mixStep_injective (r := 27) (by decide) (by decide) _ _ hfirst

theorem mixBlock_lossless : Lossless mixBlock where
  state := by
    intro k h h' heq
    obtain ⟨hsecond, hfirst⟩ := mixBlock_inj heq
    have hlane : h.2 = h'.2 := (UInt64.xor_left_inj _).mp hsecond
    exact Prod.ext ((UInt64.xor_left_inj _).mp (hfirst hlane)) hlane
  input := by
    intro h k k' heq
    obtain ⟨hsecond, hfirst⟩ := mixBlock_inj heq
    have hk1 := (UInt64.xor_right_inj _).mp (hfirst rfl)
    have hk2 := (UInt64.xor_right_inj _).mp hsecond
    exact Prod.ext (mixK1_injective hk1) (mixK2_injective hk2)

theorem mixTail_state (tail : List UInt8) : Injective fun h => mixTail h tail := by
  intro h h' heq
  obtain ⟨hfirst, hsecond⟩ := Prod.mk.inj heq
  refine Prod.ext ?_ ?_
  · split at hfirst
    · exact (UInt64.xor_left_inj _).mp hfirst
    · exact hfirst
  · split at hsecond
    · exact (UInt64.xor_left_inj _).mp hsecond
    · exact hsecond

theorem word64_injective {as bs : List UInt8} (hlength : as.length = bs.length)
    (hle : as.length ≤ 8) (h : word64 as = word64 bs) : as = bs :=
  wordOfBytes_injective hlength (by omega) (congrArg UInt64.toBitVec h)

theorem mixTail_input {h : UInt64 × UInt64} {as bs : List UInt8} (hlength : as.length = bs.length)
    (hlt : as.length < 16) (heq : mixTail h as = mixTail h bs) : as = bs := by
  obtain ⟨hfirst, hsecond⟩ := Prod.mk.inj heq
  rw [← hlength] at hfirst hsecond
  have hfront : as.take 8 = bs.take 8 := by
    by_cases hpos : 0 < as.length
    · rw [if_pos hpos, if_pos hpos] at hfirst
      exact word64_injective (by simp [hlength]) (by simp)
        (mixK1_injective ((UInt64.xor_right_inj _).mp hfirst))
    · rw [List.eq_nil_of_length_eq_zero (show as.length = 0 by omega),
        List.eq_nil_of_length_eq_zero (show bs.length = 0 by omega)]
  have hback : as.drop 8 = bs.drop 8 := by
    by_cases hlong : 8 < as.length
    · rw [if_pos hlong, if_pos hlong] at hsecond
      exact word64_injective (by simp [hlength]) (by simp; omega)
        (mixK2_injective ((UInt64.xor_right_inj _).mp hsecond))
    · rw [List.drop_of_length_le (by omega), List.drop_of_length_le (by omega)]
  rw [← List.take_append_drop 8 as, hfront, hback, List.take_append_drop]

theorem murmurFinal_injective (len : Int) : Injective (murmurFinal len) := by
  intro h h' heq
  obtain ⟨hout1, hout2⟩ := Prod.mk.inj heq
  rw [hout1] at hout2
  have hmix2 := (UInt64.add_left_inj _).mp hout2
  rw [hmix2] at hout1
  have hmix1 := fmix64_injective ((UInt64.add_left_inj _).mp hout1)
  have hsum := fmix64_injective hmix2
  rw [hmix1] at hsum
  have hsecond := (UInt64.add_left_inj _).mp hsum
  rw [hsecond] at hmix1
  have hfirst := (UInt64.add_left_inj _).mp hmix1
  exact Prod.ext ((UInt64.xor_left_inj _).mp hfirst) ((UInt64.xor_left_inj _).mp hsecond)

def murmurX64 : BlockHash (UInt64 × UInt64) (UInt64 × UInt64) (UInt64 × UInt64) where
  size := 16
  pack bytes := (word64 (bytes.take 8), word64 (bytes.drop 8))
  block := mixBlock
  rest := mixTail
  final len := murmurFinal len

theorem murmurX64_lawful : murmurX64.Lawful where
  size_pos := by decide
  pack := by
    intro as bs has hbs h
    obtain ⟨hfront, hback⟩ := Prod.mk.inj h
    change as.length = 16 at has
    change bs.length = 16 at hbs
    rw [← List.take_append_drop 8 as, word64_injective (by simp [has, hbs]) (by simp) hfront,
      word64_injective (by simp [has, hbs]) (by simp [has]) hback, List.take_append_drop]
  block := mixBlock_lossless
  rest_state := mixTail_state
  rest_input := fun _ _ _ hlength hlt h => mixTail_input hlength hlt h
  final := fun len => murmurFinal_injective len

/-! What the function computes. -/

theorem getblock64_eq {mem : TextMemory} {p : UInt64} {text : List UInt8} (h : BytesAt mem p text)
    {i : Nat} (hi : 8 * i + 8 ≤ text.length) :
    getblock64 mem p i = .ok (word64 ((text.drop (8 * i)).take 8)) := by
  have hlength : ((text.drop (8 * i)).take 8).length = 8 := by simp; omega
  have hread := xorBytes_eq ((h.drop (8 * i)).take 8) (by omega) 0
  rw [hlength, UInt64.zero_xor] at hread
  exact hread

theorem blockAt_murmurX64 (text : List UInt8) (i : Nat) :
    murmurX64.blockAt text i = (word64 ((text.drop (8 * (i * 2))).take 8),
      word64 ((text.drop (8 * (i * 2 + 1))).take 8)) := by
  simp only [BlockHash.blockAt, murmurX64, List.take_take, List.drop_take, List.drop_drop]
  rw [show 16 * i = 8 * (i * 2) by omega]
  rfl

theorem murmurBody_eq {mem : TextMemory} {p : UInt64} {text : List UInt8} (h : BytesAt mem p text)
    {n i : Nat} (hle : 16 * (i + n) ≤ text.length) (s : UInt64 × UInt64) :
    murmurBody mem p n i s =
      .ok (((List.range' i n).map (murmurX64.blockAt text)).foldl mixBlock s) := by
  induction n generalizing i s with
  | zero => rfl
  | succ n ih =>
      obtain ⟨h1, h2⟩ := s
      simp only [murmurBody, getblock64_eq h (show 8 * (i * 2) + 8 ≤ text.length by omega),
        getblock64_eq h (show 8 * (i * 2 + 1) + 8 ≤ text.length by omega), bind, Except.bind]
      rw [ih (by omega), List.range'_succ, List.map_cons, List.foldl_cons, blockAt_murmurX64]
      rfl

theorem murmurTail_eq {mem : TextMemory} {p : UInt64} {tail : List UInt8} (h : BytesAt mem p tail)
    (hlt : tail.length < 16) (s : UInt64 × UInt64) :
    murmurTail mem p tail.length s = .ok (mixTail s tail) := by
  have hfront := xorBytes_eq (h.take 8) (by simp) 0
  have hback := xorBytes_eq (h.drop 8) (by simp; omega) 0
  rw [List.length_take, Nat.min_comm, UInt64.zero_xor] at hfront
  rw [List.length_drop, UInt64.zero_xor] at hback
  unfold murmurTail
  rw [show p + 8 = p + UInt64.ofNat 8 from rfl, hback, hfront]
  rfl

theorem murmurHash3X64128_of_stages {mem : TextMemory} {p : UInt64} {len : Int} {seed : UInt32}
    {s t : UInt64 × UInt64}
    (hbody : murmurBody mem p (len.tdiv 16).toNat 0 (seed.toUInt64, seed.toUInt64) = .ok s)
    (htail : murmurTail mem (p + UInt64.ofInt (len.tdiv 16 * 16)) (len % 16).toNat s = .ok t) :
    murmurHash3X64128 mem p len seed = .ok (murmurFinal len t) := by
  simp only [murmurHash3X64128, hbody, htail, bind, Except.bind]
  rfl

/-- A key that an `int` can measure is hashed whole. -/
theorem murmurHash3X64128_eq {mem : TextMemory} {p : UInt64} {text : List UInt8}
    (h : BytesAt mem p text) (hlt : text.length < 2 ^ 31) (seed : UInt32) :
    murmurHash3X64128 mem p (toInt text.length) seed =
      .ok (murmurX64.digest (seed.toUInt64, seed.toUInt64) text) := by
  have hlen : toInt text.length = text.length := Int.bmod_eq_of_le (by omega) (by omega)
  have hdiv : (text.length : Int).tdiv 16 = (text.length / 16 : Nat) := rfl
  have hplace : UInt64.ofInt ((text.length / 16 : Nat) * 16) =
      UInt64.ofNat (16 * (text.length / 16)) := by
    apply UInt64.toNat_inj.mp
    simp only [UInt64.ofInt, UInt64.toNat_ofNat']
    omega
  have hrest : ((text.length : Int) % 16).toNat = (murmurX64.left text).length := by
    simp only [BlockHash.left, murmurX64, List.length_drop]
    omega
  rw [hlen]
  refine murmurHash3X64128_of_stages
    (s := (murmurX64.blocks text).foldl mixBlock (seed.toUInt64, seed.toUInt64))
    ?_ ?_
  · rw [hdiv, Int.toNat_natCast, BlockHash.blocks, List.range_eq_range']
    exact murmurBody_eq h (by omega) _
  · rw [hdiv, hplace, hrest]
    exact murmurTail_eq (h.drop _) (by simp; omega) _

/-- Digests of one key under two seeds differ. -/
theorem murmurHash3X64128_tells_seeds (mem : TextMemory) (p : UInt64) (text : List UInt8)
    (h : BytesAt mem p text) (hlt : text.length < 2 ^ 31) (seed seed' : UInt32) :
    murmurHash3X64128 mem p (toInt text.length) seed =
      murmurHash3X64128 mem p (toInt text.length) seed' ↔ seed = seed' := by
  rw [murmurHash3X64128_eq h hlt, murmurHash3X64128_eq h hlt]
  refine ⟨fun heq => ?_, fun heq => by rw [heq]⟩
  have hstate := murmurX64_lawful.digest_state text (Except.ok.inj heq)
  have hword := congrArg UInt64.toNat (Prod.mk.inj hstate).1
  exact UInt32.toNat_inj.mp (by simpa using hword)

/-- Digests of two keys of one length differ where the keys do in one block of 16
bytes, and nowhere else. -/
theorem murmurHash3X64128_tells_blocks (mem : TextMemory) (p q : UInt64) (text text' : List UInt8)
    (h : BytesAt mem p text) (h' : BytesAt mem q text') (hlt : text.length < 2 ^ 31)
    (hlength : text.length = text'.length) (n : Nat)
    (hsame : ∀ i, i / 16 ≠ n → text[i]? = text'[i]?) (seed : UInt32) :
    murmurHash3X64128 mem p (toInt text.length) seed =
      murmurHash3X64128 mem q (toInt text'.length) seed ↔ text = text' := by
  rw [murmurHash3X64128_eq h hlt, murmurHash3X64128_eq h' (hlength ▸ hlt)]
  refine ⟨fun heq => ?_, fun heq => by rw [heq]⟩
  exact murmurX64_lawful.digest_block hlength hsame (Except.ok.inj heq)

/-! Two keys of 20 bytes behind each other. -/

def keyA : List UInt8 := List.replicate 20 'a'.toUInt8
def keyB : List UInt8 := 'b'.toUInt8 :: List.replicate 19 'a'.toUInt8

theorem bytesAt_keyA : BytesAt (placed 64 (keyA ++ keyB)) 64 keyA :=
  (bytesAt_placed 64 (by decide)).take 20

theorem bytesAt_keyB : BytesAt (placed 64 (keyA ++ keyB)) 84 keyB :=
  (bytesAt_placed 64 (by decide)).drop 20

theorem murmurHash3X64128_tells_seeds_apart :
    murmurHash3X64128 (placed 64 (keyA ++ keyB)) 64 (toInt keyA.length) 0 ≠
      murmurHash3X64128 (placed 64 (keyA ++ keyB)) 64 (toInt keyA.length) seedValue := by
  intro h
  exact absurd ((murmurHash3X64128_tells_seeds _ 64 keyA bytesAt_keyA (by decide) 0 seedValue).mp h)
    (by decide)

theorem murmurHash3X64128_tells_blocks_apart :
    murmurHash3X64128 (placed 64 (keyA ++ keyB)) 64 (toInt keyA.length) seedValue ≠
      murmurHash3X64128 (placed 64 (keyA ++ keyB)) 84 (toInt keyB.length) seedValue := by
  have hsame (i : Nat) (hi : i / 16 ≠ 0) : keyA[i]? = keyB[i]? := by
    cases i with
    | zero => exact absurd rfl hi
    | succ i => rfl
  intro h
  exact absurd ((murmurHash3X64128_tells_blocks _ 64 84 keyA keyB bytesAt_keyA bytesAt_keyB
    (by decide) rfl 0 hsame seedValue).mp h) (by decide)

/-! The share of a bucket. -/

def goldenRatio64Inverse : UInt64 := 0xe217c1e66c88cc3

theorem mul_goldenRatio64_inverse (x : UInt64) : x * goldenRatio64Inverse * goldenRatio64 = x := by
  rw [UInt64.mul_assoc, show goldenRatio64Inverse * goldenRatio64 = 1 by decide, UInt64.mul_one]

theorem mul_inverse_goldenRatio64 (x : UInt64) : x * goldenRatio64 * goldenRatio64Inverse = x := by
  rw [UInt64.mul_assoc, show goldenRatio64 * goldenRatio64Inverse = 1 by decide, UInt64.mul_one]

theorem hash64Index_toNat {bits : UInt8} (hpos : 1 ≤ bits.toNat) (hle : bits.toNat ≤ 64)
    (key : UInt64) :
    (hash64Index key bits).toNat = (key * goldenRatio64).toNat / 2 ^ (64 - bits.toNat) := by
  have hdistance : (64 - bits.toUInt64).toNat = 64 - bits.toNat := by
    rw [UInt64.toNat_sub_of_le]
    · rfl
    · rw [UInt64.le_iff_toNat_le]
      simpa using hle
  rw [hash64Index, UInt64.toNat_shiftRight, hdistance, Nat.mod_eq_of_lt (by omega),
    Nat.shiftRight_eq_div_pow]

theorem joined_toNat {bits index r : Nat} (hle : bits ≤ 64) (hindex : index < 2 ^ bits)
    (hr : r < 2 ^ (64 - bits)) :
    (UInt64.ofNat (index * 2 ^ (64 - bits) + r)).toNat = index * 2 ^ (64 - bits) + r := by
  rw [UInt64.toNat_ofNat', Nat.mod_eq_of_lt]
  calc index * 2 ^ (64 - bits) + r
      < (index + 1) * 2 ^ (64 - bits) := by rw [Nat.add_one_mul]; omega
    _ ≤ 2 ^ bits * 2 ^ (64 - bits) := Nat.mul_le_mul_right _ hindex
    _ = 2 ^ 64 := by rw [← Nat.pow_add, Nat.add_sub_cancel' hle]

/-- The keys of an index are the products that begin with it, whatever follows. -/
def keysOfIndex {bits : UInt8} (hpos : 1 ≤ bits.toNat) (hle : bits.toNat ≤ 64) {index : UInt64}
    (hindex : index.toNat < 2 ^ bits.toNat) :
    Fin (2 ^ (64 - bits.toNat)) ≃ {key : UInt64 // hash64Index key bits = index} where
  toFun r := ⟨UInt64.ofNat (index.toNat * 2 ^ (64 - bits.toNat) + r) * goldenRatio64Inverse, by
    apply UInt64.toNat_inj.mp
    rw [hash64Index_toNat hpos hle, mul_goldenRatio64_inverse, joined_toNat hle hindex r.isLt,
      Nat.mul_comm, Nat.mul_add_div (Nat.two_pow_pos _), Nat.div_eq_of_lt r.isLt, Nat.add_zero]⟩
  invFun key := ⟨(key.1 * goldenRatio64).toNat % 2 ^ (64 - bits.toNat),
    Nat.mod_lt _ (Nat.two_pow_pos _)⟩
  left_inv r := by
    apply Fin.ext
    simp only [mul_goldenRatio64_inverse, joined_toNat hle hindex r.isLt]
    rw [Nat.mul_comm, Nat.mul_add_mod, Nat.mod_eq_of_lt r.isLt]
  right_inv key := by
    obtain ⟨key, rfl⟩ := key
    apply Subtype.ext
    simp only [hash64Index_toNat hpos hle, Nat.div_add_mod', UInt64.ofNat_toNat,
      mul_inverse_goldenRatio64]

/-- Every index takes the same number of the 2^64 keys. -/
theorem hash64_balanced (mem : TextMemory) (bits : UInt8) (hpos : 1 ≤ bits.toNat)
    (hle : bits.toNat ≤ 64) (index : UInt64) (hindex : index.toNat < 2 ^ bits.toNat) :
    Nat.card {key : UInt64 // hash64 mem key bits = .ok index} = 2 ^ (64 - bits.toNat) := by
  simp only [hash64_eq, Except.ok.injEq]
  rw [← Nat.card_congr (keysOfIndex hpos hle hindex), Nat.card_fin]

theorem hash64_balanced_ten :
    Nat.card {key : UInt64 // hash64 emptyText key 10 = .ok 1023} = 2 ^ 54 :=
  hash64_balanced emptyText 10 (by decide) (by decide) 1023 (by decide)

end L4Server
