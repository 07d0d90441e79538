import L4Server.Library.CMemory

/-!
Readers for text that has been printed: lines up to the first empty one, and
decimal numbers. Each is stated by what it makes of text of the printed form.
-/
namespace PrintedText
open CMemory

/-! Lines. -/

variable {α : Type} [DecidableEq α]

/-- The lines up to the first empty one, and what stands behind that. The first
argument is the part of the current line that has been read. -/
def splitHead (sep : α) : List α → List α → Option (List (List α) × List α)
  | _, [] => none
  | line, b :: rest =>
      if b = sep then
        if line = [] then some ([], rest)
        else (splitHead sep [] rest).map fun (lines, body) => (line :: lines, body)
      else splitHead sep (line ++ [b]) rest

theorem splitHead_append {sep : α} {text : List α} (h : sep ∉ text) (line rest : List α) :
    splitHead sep line (text ++ rest) = splitHead sep (line ++ text) rest := by
  induction text generalizing line with
  | nil => simp
  | cons b text ih =>
      rw [List.mem_cons, not_or] at h
      obtain ⟨hb, htext⟩ := h
      rw [List.cons_append, splitHead, if_neg (Ne.symm hb), ih htext]
      simp

/-- Lines that are not empty, each ended by a separator, and an empty line. -/
theorem splitHead_lines {sep : α} {lines : List (List α)}
    (h : ∀ line ∈ lines, line ≠ [] ∧ sep ∉ line) (body : List α) :
    splitHead sep [] (lines.flatMap (· ++ [sep]) ++ sep :: body) = some (lines, body) := by
  induction lines with
  | nil => simp [splitHead]
  | cons line lines ih =>
      obtain ⟨hne, hsep⟩ := h line (by simp)
      have hrest := ih fun line hmem => h line (by simp [hmem])
      rw [List.flatMap_cons, List.append_assoc, List.append_assoc, splitHead_append hsep,
        List.nil_append, List.singleton_append, splitHead, if_pos rfl, if_neg hne, hrest]
      rfl

/-! Numbers. -/

def readNat (bytes : List UInt8) : Option Nat :=
  let digits := bytes.map fun b => Char.ofNat b.toNat
  if digits ≠ [] ∧ digits.all Char.isDigit then some (Nat.ofDigitChars 10 digits 0) else none

def readInt : List UInt8 → Option Int
  | [] => none
  | b :: bytes =>
      if b = '-'.toUInt8 then (readNat bytes).map fun n : Nat => -(n : Int)
      else (readNat (b :: bytes)).map fun n : Nat => (n : Int)

theorem toUInt8_digit {c : Char} (h : c.isDigit = true) :
    c.toUInt8.toNat = c.toNat ∧ 48 ≤ c.toNat ∧ c.toNat ≤ 57 := by
  have hbounds : 48 ≤ c.val ∧ c.val ≤ 57 := by
    simpa [Char.isDigit, Bool.and_eq_true] using h
  have hlo : 48 ≤ c.toNat := hbounds.1
  have hhi : c.toNat ≤ 57 := hbounds.2
  refine ⟨?_, hlo, hhi⟩
  change c.toNat % 2 ^ 8 = c.toNat
  omega

theorem ofNat_toUInt8 {c : Char} (h : c.isDigit = true) : Char.ofNat c.toUInt8.toNat = c := by
  rw [(toUInt8_digit h).1]
  exact Char.ofNat_toNat c

theorem readNat_toDigits (n : Nat) :
    readNat ((Nat.toDigits 10 n).map Char.toUInt8) = some n := by
  have hdigit : ∀ c ∈ Nat.toDigits 10 n, c.isDigit = true := fun c hc =>
    Nat.isDigit_of_mem_toDigits (by omega) (by omega) hc
  have hback : ((Nat.toDigits 10 n).map Char.toUInt8).map (fun b => Char.ofNat b.toNat) =
      Nat.toDigits 10 n := by
    rw [List.map_map]
    calc (Nat.toDigits 10 n).map _ = (Nat.toDigits 10 n).map id :=
          List.map_congr_left fun c hc => ofNat_toUInt8 (hdigit c hc)
      _ = Nat.toDigits 10 n := List.map_id _
  unfold readNat
  rw [hback]
  simp only
  rw [if_pos ⟨Nat.toDigits_ne_nil, List.all_eq_true.mpr hdigit⟩, Nat.ofDigitChars_ten_toDigits]

/-- The bytes of a number that has been printed. -/
theorem mem_decimal {i : Int} {b : UInt8} (h : b ∈ decimal i) :
    b = '-'.toUInt8 ∨ 48 ≤ b.toNat ∧ b.toNat ≤ 57 := by
  have hdigits (hb : b ∈ (Nat.toDigits 10 i.natAbs).map Char.toUInt8) :
      48 ≤ b.toNat ∧ b.toNat ≤ 57 := by
    obtain ⟨c, hc, rfl⟩ := List.mem_map.mp hb
    obtain ⟨hval, hbounds⟩ :=
      toUInt8_digit (Nat.isDigit_of_mem_toDigits (by omega) (by omega) hc)
    rwa [hval]
  unfold decimal at h
  split at h
  · rcases List.mem_cons.mp h with hb | hb
    · exact .inl hb
    · exact .inr (hdigits hb)
  · exact .inr (hdigits h)

theorem notMem_decimal {b : UInt8} (h : b ≠ '-'.toUInt8) (hrange : b.toNat < 48 ∨ 57 < b.toNat)
    (i : Int) : b ∉ decimal i := by
  intro hmem
  rcases mem_decimal hmem with hb | ⟨hlo, hhi⟩
  · exact h hb
  · omega

theorem decimal_ne_nil (i : Int) : decimal i ≠ [] := by
  unfold decimal
  split
  · nofun
  · exact fun h => Nat.toDigits_ne_nil (List.map_eq_nil_iff.mp h)

/-- A printed number is read back. -/
theorem readInt_decimal (i : Int) : readInt (decimal i) = some i := by
  have habs := readNat_toDigits i.natAbs
  by_cases hneg : i < 0
  · simp only [decimal, if_pos hneg, readInt, if_true, habs, Option.map_some, Option.some.injEq]
    omega
  · have hdecimal : decimal i = (Nat.toDigits 10 i.natAbs).map Char.toUInt8 := if_neg hneg
    cases hbytes : (Nat.toDigits 10 i.natAbs).map Char.toUInt8 with
    | nil => exact absurd (hdecimal.trans hbytes) (decimal_ne_nil i)
    | cons b bytes =>
        have hb : b ≠ '-'.toUInt8 := by
          intro heq
          obtain ⟨c, hc, hval⟩ := List.mem_map.mp (hbytes ▸ List.mem_cons_self : b ∈ _)
          obtain ⟨hnat, hlo, -⟩ :=
            toUInt8_digit (Nat.isDigit_of_mem_toDigits (by omega) (by omega) hc)
          rw [hval, heq] at hnat
          have : '-'.toUInt8.toNat = 45 := rfl
          omega
        rw [hdecimal, hbytes, readInt, if_neg hb, ← hbytes, habs, Option.map_some,
          Option.some.injEq]
        omega

end PrintedText
