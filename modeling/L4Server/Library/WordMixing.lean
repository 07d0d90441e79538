import Mathlib.Data.List.Basic
import Mathlib.Data.Nat.ModEq
import Mathlib.Data.Nat.Prime.Basic
import Mathlib.Algebra.Order.Ring.Int
import Mathlib.Tactic.Common

/-!
Words that are mixed without loss: shifted into themselves, multiplied by an odd
number, rotated, packed from bytes. A hash that takes its blocks in with such
steps tells apart what differs in one block.
-/
namespace WordMixing
open Function

variable {w : Nat}

/-! Words. -/

/-- A word xored with itself shifted down keeps its top bits, and with them all. -/
theorem xorShift_injective {n : Nat} (hn : 0 < n) :
    Injective fun x : BitVec w => x ^^^ x >>> n := by
  intro x y h
  have hbits (i : Nat) : (x.getLsbD i ^^ x.getLsbD (n + i)) =
      (y.getLsbD i ^^ y.getLsbD (n + i)) := by
    simpa using congrArg (·.getLsbD i) h
  -- from the top bit down
  have hdown (d i : Nat) (hd : w ≤ i + d) : x.getLsbD i = y.getLsbD i := by
    induction d using Nat.strong_induction_on generalizing i with
    | _ d ih =>
        by_cases hi : w ≤ i
        · rw [BitVec.getLsbD_of_ge x i hi, BitVec.getLsbD_of_ge y i hi]
        · have habove := ih (d - n) (by omega) (n + i) (by omega)
          have hbit := hbits i
          rw [habove] at hbit
          simpa using hbit
  exact BitVec.eq_of_getLsbD_eq fun i _ => hdown w i (by omega)

/-- An odd factor can be cancelled. -/
theorem mulOdd_injective {c : BitVec w} (hc : c.toNat % 2 = 1) :
    Injective fun x : BitVec w => x * c := by
  intro x y h
  have hmod : x.toNat * c.toNat ≡ y.toNat * c.toNat [MOD 2 ^ w] := by
    simpa [Nat.ModEq, BitVec.toNat_mul] using congrArg BitVec.toNat h
  have hcoprime : Nat.gcd (2 ^ w) c.toNat = 1 :=
    Nat.Coprime.pow_left w (Nat.coprime_two_left.mpr (Nat.odd_iff.mpr hc))
  have hcancel := hmod.cancel_right_of_coprime hcoprime
  apply BitVec.eq_of_toNat_eq
  rwa [Nat.ModEq, Nat.mod_eq_of_lt x.isLt, Nat.mod_eq_of_lt y.isLt] at hcancel

/-- A rotation as two shifts. -/
theorem rotate_injective {r : Nat} (hr : r < w) :
    Injective fun x : BitVec w => x <<< r ||| x >>> (w - r) := by
  intro x y h
  have hbits (i : Nat) :
      (decide (i < w) && !decide (i < r) && x.getLsbD (i - r) || x.getLsbD (w - r + i)) =
        (decide (i < w) && !decide (i < r) && y.getLsbD (i - r) || y.getLsbD (w - r + i)) := by
    simpa only [BitVec.getLsbD_or, BitVec.getLsbD_shiftLeft, BitVec.getLsbD_ushiftRight]
      using congrArg (·.getLsbD i) h
  refine BitVec.eq_of_getLsbD_eq fun i hi => ?_
  by_cases hwrap : i + r < w
  · have hout : w ≤ w - r + (i + r) := by omega
    have hbit := hbits (i + r)
    rw [Nat.add_sub_cancel, BitVec.getLsbD_of_ge x _ hout, BitVec.getLsbD_of_ge y _ hout] at hbit
    simpa only [hwrap, show ¬ i + r < r by omega, decide_true, decide_false, Bool.not_false,
      Bool.true_and, Bool.or_false] using hbit
  · have hbit := hbits (i + r - w)
    rw [show w - r + (i + r - w) = i by omega] at hbit
    simpa only [show i + r - w < r by omega, decide_true, Bool.not_true, Bool.and_false,
      Bool.false_and, Bool.false_or] using hbit

/-! Words packed from bytes, the first byte lowest. -/

def wordOfBytes (w : Nat) : List UInt8 → BitVec w
  | [] => 0
  | b :: bs => b.toBitVec.setWidth w ^^^ wordOfBytes w bs <<< 8

theorem getLsbD_wordOfBytes (bs : List UInt8) {i : Nat} (hi : i < w) :
    (wordOfBytes w bs).getLsbD i = (bs.getD (i / 8) 0).toBitVec.getLsbD (i % 8) := by
  induction bs generalizing i with
  | nil => simp [wordOfBytes]
  | cons b bs ih =>
      by_cases hlow : i < 8
      · simp [wordOfBytes, hi, hlow, Nat.div_eq_of_lt hlow, Nat.mod_eq_of_lt hlow]
      · obtain ⟨j, rfl⟩ : ∃ j, i = j + 8 := ⟨i - 8, by omega⟩
        have hhigh : b.toBitVec.getLsbD (j + 8) = false := BitVec.getLsbD_of_ge _ _ (by omega)
        simp only [wordOfBytes, BitVec.getLsbD_xor, BitVec.getLsbD_setWidth,
          BitVec.getLsbD_shiftLeft, hhigh, hi, show ¬ j + 8 < 8 by omega, Nat.add_sub_cancel,
          ih (show j < w by omega), Nat.add_div_right j (show 0 < 8 by decide), Nat.add_mod_right]
        simp

/-- Bytes that fit into a word can be read back from it. -/
theorem wordOfBytes_injective {as bs : List UInt8} (hlength : as.length = bs.length)
    (hfits : 8 * as.length ≤ w) (h : wordOfBytes w as = wordOfBytes w bs) : as = bs := by
  refine List.ext_getElem hlength fun n hn hn' => ?_
  apply UInt8.toBitVec_inj.mp
  refine BitVec.eq_of_getLsbD_eq fun i hi => ?_
  have hbit := congrArg (·.getLsbD (8 * n + i)) h
  simp only [getLsbD_wordOfBytes _ (show 8 * n + i < w by omega)] at hbit
  simpa [show (8 * n + i) / 8 = n by omega, show (8 * n + i) % 8 = i by omega, hn, hn'] using hbit

theorem wordOfBytes_append (bs : List UInt8) (b : UInt8) :
    wordOfBytes w (bs ++ [b]) = b.toBitVec.setWidth w <<< (8 * bs.length) ^^^ wordOfBytes w bs := by
  induction bs with
  | nil => simp [wordOfBytes]
  | cons a bs ih =>
      rw [List.cons_append, wordOfBytes, ih, BitVec.shiftLeft_xor_distrib, ← BitVec.shiftLeft_add,
        ← BitVec.xor_assoc, BitVec.xor_comm (a.toBitVec.setWidth w), BitVec.xor_assoc]
      rfl

/-! Hashes. -/

variable {σ β τ : Type} {f : σ → β → τ}

/-- A step that loses nothing: neither of its state nor of what it takes in. -/
structure Lossless (f : σ → β → τ) : Prop where
  state : ∀ b, Injective fun s => f s b
  input : ∀ s, Injective (f s)

theorem Lossless.foldl {f : σ → β → σ} (h : Lossless f) (bs : List β) :
    Injective fun s => bs.foldl f s := by
  induction bs with
  | nil => exact fun s t hst => hst
  | cons b bs ih => exact fun s t hst => h.state b (ih hst)

/-- Blocks that differ at one place lead to different states. -/
theorem Lossless.foldl_one {f : σ → β → σ} (h : Lossless f) {as bs : List β} {n : Nat}
    (hlength : as.length = bs.length) (hsame : ∀ i, i ≠ n → as[i]? = bs[i]?) {s : σ}
    (heq : as.foldl f s = bs.foldl f s) : as = bs := by
  induction as generalizing bs n s with
  | nil => exact (List.eq_nil_of_length_eq_zero hlength.symm).symm
  | cons a as ih =>
      cases bs with
      | nil => cases hlength
      | cons b bs =>
          cases n with
          | zero =>
              have hrest : as = bs :=
                List.ext_getElem? fun i => by simpa using hsame (i + 1) (Nat.succ_ne_zero i)
              subst hrest
              rw [h.input s (h.foldl as heq)]
          | succ n =>
              obtain rfl : a = b := by simpa using hsame 0 (Nat.succ_ne_zero n).symm
              have hrest : as = bs := ih (by simpa using hlength)
                (fun i hi => by simpa using hsame (i + 1) (mt Nat.succ.inj hi)) heq
              rw [hrest]

/-- A hash of byte strings: whole blocks are packed and taken in one after the
other, then the bytes that are left over, then the length. -/
structure BlockHash (σ κ δ : Type) where
  size : Nat
  pack : List UInt8 → κ
  block : σ → κ → σ
  rest : σ → List UInt8 → σ
  final : Nat → σ → δ

variable {κ δ : Type}

def BlockHash.blockAt (H : BlockHash σ κ δ) (text : List UInt8) (i : Nat) : κ :=
  H.pack ((text.drop (H.size * i)).take H.size)

def BlockHash.blocks (H : BlockHash σ κ δ) (text : List UInt8) : List κ :=
  (List.range (text.length / H.size)).map (H.blockAt text)

def BlockHash.left (H : BlockHash σ κ δ) (text : List UInt8) : List UInt8 :=
  text.drop (H.size * (text.length / H.size))

def BlockHash.digest (H : BlockHash σ κ δ) (s : σ) (text : List UInt8) : δ :=
  H.final text.length (H.rest ((H.blocks text).foldl H.block s) (H.left text))

/-- A hash none of whose steps loses anything. -/
structure BlockHash.Lawful (H : BlockHash σ κ δ) : Prop where
  size_pos : 0 < H.size
  pack : ∀ as bs, as.length = H.size → bs.length = H.size → H.pack as = H.pack bs → as = bs
  block : Lossless H.block
  rest_state : ∀ bs, Injective fun s => H.rest s bs
  rest_input : ∀ s as bs, as.length = bs.length → as.length < H.size →
    H.rest s as = H.rest s bs → as = bs
  final : ∀ n, Injective (H.final n)

/-- Digests of one text differ where they start from different states. -/
theorem BlockHash.Lawful.digest_state {H : BlockHash σ κ δ} (h : H.Lawful) (text : List UInt8) :
    Injective fun s => H.digest s text :=
  fun _ _ hst => h.block.foldl _ (h.rest_state _ (h.final _ hst))

theorem getElem?_take_drop (text : List UInt8) {n : Nat} (m i : Nat) (hi : i < n) :
    ((text.drop m).take n)[i]? = text[m + i]? := by
  rw [List.getElem?_take_of_lt hi, List.getElem?_drop]

variable {H : BlockHash σ κ δ} {as bs : List UInt8} {n : Nat}

/-- Texts that are the same in a block have the same block. -/
theorem BlockHash.Lawful.blockAt_same (h : H.Lawful)
    (hsame : ∀ i, i / H.size ≠ n → as[i]? = bs[i]?) {j : Nat} (hj : j ≠ n) :
    H.blockAt as j = H.blockAt bs j := by
  unfold blockAt
  congr 1
  refine List.ext_getElem? fun i => ?_
  by_cases hi : i < H.size
  · rw [getElem?_take_drop as _ _ hi, getElem?_take_drop bs _ _ hi]
    apply hsame
    rwa [Nat.mul_add_div h.size_pos, Nat.div_eq_of_lt hi, Nat.add_zero]
  · rw [List.getElem?_eq_none (by simp; omega), List.getElem?_eq_none (by simp; omega)]

/-- Texts with the same blocks and the same rest are the same. -/
theorem BlockHash.Lawful.text_eq (h : H.Lawful) (hlength : as.length = bs.length)
    (hblocks : H.blocks as = H.blocks bs) (hleft : H.left as = H.left bs) : as = bs := by
  refine List.ext_getElem? fun i => ?_
  by_cases hi : i / H.size < as.length / H.size
  · have hblock : H.blockAt as (i / H.size) = H.blockAt bs (i / H.size) := by
      have hget := congrArg (·[i / H.size]?) hblocks
      simpa [blocks, hi, hlength ▸ hi] using hget
    have hwhole : H.size * (i / H.size) + H.size ≤ as.length :=
      (Nat.mul_succ _ _).symm.trans_le
        ((Nat.mul_le_mul_left _ hi).trans (Nat.mul_div_le as.length H.size))
    have hpacked := h.pack _ _ (by simp; omega) (by simp; omega) hblock
    have hmod := Nat.mod_lt i h.size_pos
    have hbyte := congrArg (·[i % H.size]?) hpacked
    simpa only [getElem?_take_drop _ _ _ hmod, Nat.div_add_mod] using hbyte
  · have hstart : H.size * (as.length / H.size) ≤ i :=
      (Nat.mul_le_mul_left _ (Nat.le_of_not_lt hi)).trans (Nat.mul_div_le i H.size)
    have hbyte := congrArg (·[i - H.size * (as.length / H.size)]?) hleft
    simpa [left, ← hlength, Nat.add_sub_cancel' hstart] using hbyte

/-- Texts of one length that are the same outside one block have one digest only
if they are the same. -/
theorem BlockHash.Lawful.digest_block (h : H.Lawful) (hlength : as.length = bs.length)
    (hsame : ∀ i, i / H.size ≠ n → as[i]? = bs[i]?) {s : σ} (heq : H.digest s as = H.digest s bs) :
    as = bs := by
  have hmixed : H.rest ((H.blocks as).foldl H.block s) (H.left as) =
      H.rest ((H.blocks bs).foldl H.block s) (H.left bs) := by
    unfold digest at heq
    rw [hlength] at heq
    exact h.final _ heq
  have hleft_length : (H.left as).length = (H.left bs).length := by simp [left, hlength]
  by_cases hn : n < as.length / H.size
  · -- the rest is the same, and with it the states before it
    have hleft : H.left as = H.left bs := by
      refine List.ext_getElem? fun i => ?_
      rw [left, left, ← hlength, List.getElem?_drop, List.getElem?_drop]
      apply hsame
      rw [Nat.mul_add_div h.size_pos]
      exact (hn.trans_le (Nat.le_add_right _ _)).ne'
    rw [hleft] at hmixed
    have hblocks (i : Nat) (hi : i ≠ n) : (H.blocks as)[i]? = (H.blocks bs)[i]? := by
      rw [blocks, blocks, ← hlength, List.getElem?_map, List.getElem?_map]
      by_cases hrange : i < as.length / H.size
      · rw [List.getElem?_range hrange]
        exact congrArg some (h.blockAt_same hsame hi)
      · rw [List.getElem?_eq_none (by simpa using hrange)]
        rfl
    exact h.text_eq hlength
      (h.block.foldl_one (by simp [blocks, hlength]) hblocks (h.rest_state _ hmixed)) hleft
  · have hblocks : H.blocks as = H.blocks bs := by
      rw [blocks, blocks, ← hlength]
      refine List.map_congr_left fun j hj => h.blockAt_same hsame ?_
      have := List.mem_range.mp hj
      omega
    rw [hblocks] at hmixed
    have hlt : (H.left as).length < H.size := by
      rw [left, List.length_drop]
      have := Nat.mod_lt as.length h.size_pos
      have := Nat.div_add_mod as.length H.size
      omega
    exact h.text_eq hlength hblocks (h.rest_input _ _ _ hleft_length hlt hmixed)

end WordMixing
