import Mathlib.Algebra.Order.Ring.Int
import Mathlib.Data.List.TakeWhile
import Mathlib.Tactic.Common

/-!
Blocks of bytes as a C program sees them. A block is the list of its bytes, a
pointer into it is an offset, and every access outside the block is a fault of
its own instead of a value. The string functions read byte by byte up to the
terminating NUL, so a scan that meets no NUL runs off the end and faults; a
result `.ok` therefore says that all bytes read lie inside the block.
-/
namespace CMemory

/-- Ways in which an execution leaves the language. `format` is a formatted
print of `written` bytes into an array of `room` bytes; `fuel` marks a loop
that did not end within the bound its model gave it. -/
inductive Fault
  | read (index : Nat)
  | write (index : Nat)
  | null
  | format (written room : Nat)
  | fuel
  deriving DecidableEq, Repr

def load (mem : List UInt8) (p : Nat) : Except Fault UInt8 :=
  match mem[p]? with
  | some b => .ok b
  | none => .error (.read p)

def store (mem : List UInt8) (p : Nat) (b : UInt8) : Except Fault (List UInt8) :=
  match mem[p]? with
  | some _ => .ok (mem.set p b)
  | none => .error (.write p)

/-- The loop of `strchr` over the bytes left in the block. The sought byte is
compared first, so a search for NUL finds the terminator. -/
def scan (c : UInt8) : List UInt8 → Nat → Except Fault (Option Nat)
  | [], p => .error (.read p)
  | b :: rest, p =>
      if b = c then .ok (some p)
      else if b = 0 then .ok none
      else scan c rest (p + 1)

def strchr (mem : List UInt8) (p : Nat) (c : UInt8) : Except Fault (Option Nat) :=
  scan c (mem.drop p) p

/-- The text a pointer denotes: the bytes before the next NUL. -/
def cString (mem : List UInt8) (p : Nat) : List UInt8 :=
  (mem.drop p).takeWhile (· != 0)

/-- `strncat(dst, src, n)`: the text of `dst` is extended by at most `n` bytes
of `src`, up to its NUL, and a NUL is written behind them. -/
def strncat (dst src : List UInt8) (n : Nat) : Except Fault (List UInt8) :=
  if 0 ∉ dst then .error (.read dst.length)
  else if 0 ∉ src.take n ∧ src.length < n then .error (.read src.length)
  else
    let text := cString dst 0 ++ (src.take n).takeWhile (· != 0)
    match dst[text.length]? with
    | some _ => .ok (text ++ 0 :: dst.drop (text.length + 1))
    | none => .error (.write text.length)

/-- `sprintf` of an already formatted text into the array `dst`. -/
def sprintf (dst text : List UInt8) : Except Fault (List UInt8) :=
  match dst[text.length]? with
  | some _ => .ok (text ++ 0 :: dst.drop (text.length + 1))
  | none => .error (.format (text.length + 1) dst.length)

/-- `n` bytes from the start of a block, of which `behind` is what memory holds
after it. -/
def readBlock (block behind : List UInt8) (n : Nat) : List UInt8 :=
  (block ++ behind ++ List.replicate n 0).take n

/-- The block after `data` has been copied to its start, as far as it fits. -/
def copyInto : List UInt8 → List UInt8 → List UInt8
  | [], _ => []
  | block, [] => block
  | _ :: block, b :: data => b :: copyInto block data

/-- `%d` and `%ld` of a number. -/
def decimal (i : Int) : List UInt8 :=
  let digits := (Nat.toDigits 10 i.natAbs).map Char.toUInt8
  if i < 0 then '-'.toUInt8 :: digits else digits

/-- What a pointer to a NUL-terminated text of its own denotes. -/
structure CText where
  bytes : List UInt8
  zero_notMem : 0 ∉ bytes
  deriving DecidableEq

/-- The bytes of a string literal. -/
def ascii (s : String) : List UInt8 := s.toList.map Char.toUInt8

/-- `sizeof` of a string literal: its bytes and the NUL. -/
def sizeofLit (s : String) : Nat := (ascii s).length + 1

/-- `(size_t)(a - b)` of two pointers into one block. -/
def sizeSub (a b : Nat) : Nat := (((a : Int) - b) % 2 ^ 64).toNat

/-- The conversion of a pointer difference to a 32-bit `int`. -/
def toInt (x : Int) : Int := x.bmod (2 ^ 32)

theorem sizeSub_of_le {a b : Nat} (h : b ≤ a) (ha : a < 2 ^ 64) : sizeSub a b = a - b := by
  unfold sizeSub
  omega

/-- No formatted print overruns its array. -/
def NoFormat {α : Type} (x : Except Fault α) : Prop :=
  ∀ written room, x ≠ .error (.format written room)

theorem noFormat_ok {α : Type} (a : α) : NoFormat (.ok a : Except Fault α) := nofun

theorem NoFormat.bind {α β : Type} {x : Except Fault α} {f : α → Except Fault β}
    (hx : NoFormat x) (hf : ∀ a, x = .ok a → NoFormat (f a)) : NoFormat (x >>= f) := by
  cases x with
  | ok a => exact hf a rfl
  | error e =>
      intro written room h
      cases h
      exact hx written room rfl

theorem bind_eq_ok {α β ε : Type} {x : Except ε α} {f : α → Except ε β} {r : β} :
    (x >>= f) = .ok r ↔ ∃ a, x = .ok a ∧ f a = .ok r := by
  cases x with
  | error e => simp [bind, Except.bind]
  | ok a => simp [bind, Except.bind]

/-- A computed result, seen through a function that can be evaluated. -/
theorem exists_of_map_toOption {α β ε : Type} {x : Except ε α} {f : α → β} {b : β}
    (h : x.toOption.map f = some b) : ∃ a, x = .ok a ∧ f a = b := by
  cases x with
  | error e => cases h
  | ok a => exact ⟨a, rfl, Option.some.inj h⟩

@[simp] theorem readBlock_length (block behind : List UInt8) (n : Nat) :
    (readBlock block behind n).length = n := by
  simp [readBlock]
  omega

@[simp] theorem copyInto_length (block data : List UInt8) :
    (copyInto block data).length = block.length := by
  induction block generalizing data with
  | nil => cases data <;> rfl
  | cons c block ih =>
      cases data with
      | nil => rfl
      | cons b data => simp [copyInto, ih]

/-- Behind the copied bytes the block is as it was. -/
theorem copyInto_getElem? {block data : List UInt8} {i : Nat} (h : data.length ≤ i) :
    (copyInto block data)[i]? = block[i]? := by
  induction block generalizing data i with
  | nil => cases data <;> rfl
  | cons c block ih =>
      cases data with
      | nil => rfl
      | cons b data =>
          simp only [List.length_cons] at h
          obtain ⟨i, rfl⟩ : ∃ j, i = j + 1 := ⟨i - 1, by omega⟩
          simpa [copyInto] using ih (by omega)

theorem copyInto_take {block data : List UInt8} (h : data.length ≤ block.length) :
    (copyInto block data).take data.length = data := by
  induction block generalizing data with
  | nil => cases data <;> simp_all [copyInto]
  | cons c block ih =>
      cases data with
      | nil => rfl
      | cons b data => simp [copyInto, ih (by simpa using h)]

/-! Single accesses. -/

theorem load_eq_ok {mem : List UInt8} {p : Nat} (h : p < mem.length) :
    load mem p = .ok mem[p] := by
  simp [load, List.getElem?_eq_getElem h]

theorem store_found {mem front rest : List UInt8} {b : UInt8} {p : Nat}
    (hmem : mem = front ++ b :: rest) (hp : p = front.length) (c : UInt8) :
    store mem p c = .ok (front ++ c :: rest) := by
  simp [store, hmem, hp]

theorem set_found (mem front rest : List UInt8) {b : UInt8} {p : Nat}
    (hmem : mem = front ++ b :: rest) (hp : p = front.length) (c : UInt8) :
    mem.set p c = front ++ c :: rest := by
  simp [hmem, hp]

theorem store_eq_ok {mem : List UInt8} {p : Nat} (b : UInt8) (h : p < mem.length) :
    store mem p b = .ok (mem.set p b) := by
  simp [store, List.getElem?_eq_getElem h]

theorem store_ok {mem out : List UInt8} {p : Nat} {b : UInt8} (h : store mem p b = .ok out) :
    out = mem.set p b := by
  unfold store at h
  split at h
  · cases h
    rfl
  · cases h

/-! Formatted prints. -/

theorem sprintf_of_fits {dst text : List UInt8} (h : text.length < dst.length) :
    sprintf dst text = .ok (text ++ 0 :: dst.drop (text.length + 1)) := by
  simp [sprintf, List.getElem?_eq_getElem h]

theorem sprintf_of_overrun (dst text : List UInt8) (h : dst.length ≤ text.length) :
    sprintf dst text = .error (.format (text.length + 1) dst.length) := by
  simp [sprintf, List.getElem?_eq_none h]

theorem sprintf_length {dst text out : List UInt8} (h : sprintf dst text = .ok out) :
    out.length = dst.length := by
  unfold sprintf at h
  split at h
  · next hget =>
    obtain ⟨hlt, -⟩ := List.getElem?_eq_some_iff.mp hget
    cases h
    simp only [List.length_append, List.length_cons, List.length_drop]
    omega
  · cases h

/-- The text that is appended lies inside the block. -/
theorem strncat_room {dst src out : List UInt8} {n : Nat} (h : strncat dst src n = .ok out) :
    ((src.take n).takeWhile (· != 0)).length < dst.length := by
  unfold strncat at h
  split at h
  · cases h
  · split at h
    · cases h
    · simp only at h
      split at h
      · next hget =>
        obtain ⟨hlt, -⟩ := List.getElem?_eq_some_iff.mp hget
        rw [List.length_append] at hlt
        omega
      · cases h

/-- A zero block takes any text that is shorter. -/
theorem strncat_zeros {capacity n : Nat} {src : List UInt8} (hfit : n < capacity)
    (hsrc : n ≤ src.length) : ∃ out, strncat (List.replicate capacity 0) src n = .ok out := by
  obtain ⟨rest, rfl⟩ : ∃ rest, capacity = rest + 1 := ⟨capacity - 1, by omega⟩
  have hempty : cString (List.replicate (rest + 1) 0) 0 = [] := by
    simp [cString, List.replicate_succ]
  have hlen : ((src.take n).takeWhile (· != 0)).length < rest + 1 := by
    have := (List.takeWhile_sublist (· != 0) (l := src.take n)).length_le
    rw [List.length_take] at this
    omega
  unfold strncat
  rw [if_neg (by simp), if_neg (by omega)]
  simp only [hempty, List.nil_append, List.getElem?_replicate_of_lt hlen]
  exact ⟨_, rfl⟩

/-- The text grows by what is copied, in place of the NUL behind it. -/
theorem strncat_text (text rest src : List UInt8) {n : Nat} (htext : 0 ∉ text)
    (hsrc : n ≤ src.length) (hroom : ((src.take n).takeWhile (· != 0)).length ≤ rest.length) :
    strncat (text ++ 0 :: rest) src n =
      .ok (text ++ (src.take n).takeWhile (· != 0) ++
        0 :: rest.drop ((src.take n).takeWhile (· != 0)).length) := by
  generalize hcopied : (src.take n).takeWhile (· != 0) = copied at hroom ⊢
  have htake : cString (text ++ 0 :: rest) 0 = text := by
    have hall : ∀ b ∈ text, (b != 0) = true := by
      intro b hb
      simpa using fun h0 : b = 0 => htext (h0 ▸ hb)
    simp [cString, List.takeWhile_append_of_pos hall]
  have hlt : (text ++ copied).length < (text ++ 0 :: rest).length := by
    simp only [List.length_append, List.length_cons]
    omega
  have hdrop : (text ++ 0 :: rest).drop ((text ++ copied).length + 1) = rest.drop copied.length := by
    rw [List.length_append, Nat.add_assoc, ← List.drop_drop, List.drop_left, List.drop_succ_cons]
  unfold strncat
  rw [if_neg (by simp), if_neg (by omega)]
  simp only [htake, hcopied, List.getElem?_eq_getElem hlt, hdrop]

theorem strncat_noFormat (dst src : List UInt8) (n : Nat) : NoFormat (strncat dst src n) := by
  intro written room h
  unfold strncat at h
  split at h
  · cases h
  · split at h
    · cases h
    · simp only at h
      split at h <;> cases h

/-- A number of at most 64 bits prints in at most 20 characters. -/
theorem decimal_length_le {i : Int} (h : i.natAbs ≤ 2 ^ 63) : (decimal i).length ≤ 20 := by
  have hdigits : (Nat.toDigits 10 i.natAbs).length ≤ 19 :=
    (Nat.length_toDigits_le_iff (by omega) (by omega)).mpr (by omega)
  unfold decimal
  split
  · simp only [List.length_cons, List.length_map]
    omega
  · simp only [List.length_map]
    omega

/-! Searching for a byte. -/

theorem scan_eq_some_iff (c : UInt8) (bytes : List UInt8) (p i : Nat) :
    scan c bytes p = .ok (some i) ↔
      ∃ xs rest, bytes = xs ++ c :: rest ∧ c ∉ xs ∧ 0 ∉ xs ∧ i = p + xs.length := by
  induction bytes generalizing p with
  | nil => simp [scan]
  | cons b tail ih =>
      constructor
      · intro h
        by_cases hb : b = c
        · subst hb
          have hi : p = i := by simpa [scan] using h
          exact ⟨[], tail, rfl, by simp, by simp, by simp [hi]⟩
        · by_cases h0 : b = 0
          · simp [scan, h0, show (0 : UInt8) ≠ c from h0 ▸ hb] at h
          · obtain ⟨xs, rest, ht, hc, hz, hi⟩ := (ih (p + 1)).mp (by simpa [scan, hb, h0] using h)
            refine ⟨b :: xs, rest, by simp [ht], ?_, ?_, ?_⟩
            · simp [hc, Ne.symm hb]
            · simp [hz, Ne.symm h0]
            · simp only [List.length_cons]; omega
      · rintro ⟨xs, rest, hbytes, hc, hz, hi⟩
        cases xs with
        | nil =>
            obtain ⟨rfl, rfl⟩ := List.cons.inj hbytes
            simp [scan, hi]
        | cons x xs =>
            obtain ⟨rfl, ht⟩ := List.cons.inj hbytes
            have hb : b ≠ c := fun h => hc (by simp [h])
            have h0 : b ≠ 0 := fun h => hz (by simp [h])
            simp only [scan, hb, h0, if_false]
            refine (ih (p + 1)).mpr ⟨xs, rest, ht, fun h => hc (by simp [h]),
              fun h => hz (by simp [h]), ?_⟩
            simp only [List.length_cons] at hi
            omega

theorem scan_eq_none_iff {c : UInt8} (hc : c ≠ 0) (bytes : List UInt8) (p : Nat) :
    scan c bytes p = .ok none ↔
      ∃ xs rest, bytes = xs ++ 0 :: rest ∧ c ∉ xs ∧ 0 ∉ xs := by
  induction bytes generalizing p with
  | nil => simp [scan]
  | cons b tail ih =>
      constructor
      · intro h
        by_cases hb : b = c
        · simp [scan, hb] at h
        · by_cases h0 : b = 0
          · exact ⟨[], tail, by simp [h0], by simp, by simp⟩
          · obtain ⟨xs, rest, ht, hx, hz⟩ := (ih (p + 1)).mp (by simpa [scan, hb, h0] using h)
            exact ⟨b :: xs, rest, by simp [ht], by simp [hx, Ne.symm hb], by simp [hz, Ne.symm h0]⟩
      · rintro ⟨xs, rest, hbytes, hx, hz⟩
        cases xs with
        | nil =>
            obtain ⟨rfl, rfl⟩ := List.cons.inj hbytes
            simp [scan, Ne.symm hc]
        | cons x xs =>
            obtain ⟨rfl, ht⟩ := List.cons.inj hbytes
            have hb : b ≠ c := fun h => hx (by simp [h])
            have h0 : b ≠ 0 := fun h => hz (by simp [h])
            simp only [scan, hb, h0, if_false]
            exact (ih (p + 1)).mpr
              ⟨xs, rest, ht, fun h => hx (by simp [h]), fun h => hz (by simp [h])⟩

/-- A found byte: the bytes passed over hold neither it nor a NUL. -/
theorem strchr_eq_some_iff (mem : List UInt8) (p : Nat) (c : UInt8) (i : Nat) :
    strchr mem p c = .ok (some i) ↔
      ∃ xs rest, mem.drop p = xs ++ c :: rest ∧ c ∉ xs ∧ 0 ∉ xs ∧ i = p + xs.length :=
  scan_eq_some_iff c (mem.drop p) p i

theorem strchr_eq_none_iff {c : UInt8} (hc : c ≠ 0) (mem : List UInt8) (p : Nat) :
    strchr mem p c = .ok none ↔
      ∃ xs rest, mem.drop p = xs ++ 0 :: rest ∧ c ∉ xs ∧ 0 ∉ xs :=
  scan_eq_none_iff hc (mem.drop p) p

/-- The search over a block laid out as what is in front of the cursor, the
bytes to skip, and the byte sought. -/
theorem strchr_found (front xs rest : List UInt8) {mem : List UInt8} {p : Nat} {c : UInt8}
    (hmem : mem = front ++ (xs ++ c :: rest)) (hp : p = front.length)
    (hc : c ∉ xs) (hz : 0 ∉ xs) : strchr mem p c = .ok (some (p + xs.length)) :=
  (strchr_eq_some_iff _ _ _ _).mpr ⟨xs, rest, by simp [hmem, hp], hc, hz, rfl⟩

theorem strchr_some_bounds {mem : List UInt8} {p i : Nat} {c : UInt8}
    (h : strchr mem p c = .ok (some i)) : p ≤ i ∧ mem[i]? = some c := by
  obtain ⟨xs, rest, hd, -, -, rfl⟩ := (strchr_eq_some_iff _ _ _ _).mp h
  refine ⟨by omega, ?_⟩
  rw [← List.getElem?_drop, hd]
  simp

/-- A NUL at or behind the cursor ends the search inside the block. -/
theorem strchr_total {mem : List UInt8} {p z : Nat} (c : UInt8)
    (hz : mem[z]? = some 0) (hp : p ≤ z) : ∃ r, strchr mem p c = .ok r := by
  have hd : (mem.drop p)[z - p]? = some 0 := by
    rw [List.getElem?_drop, Nat.add_sub_cancel' hp, hz]
  have total : ∀ (bytes : List UInt8) (q k : Nat), bytes[k]? = some 0 →
      ∃ r, scan c bytes q = .ok r := by
    intro bytes
    induction bytes with
    | nil => intro q k h; simp at h
    | cons b tail ih =>
        intro q k h
        by_cases hb : b = c
        · exact ⟨some q, by simp [scan, hb]⟩
        · by_cases h0 : b = 0
          · exact ⟨none, by simp [scan, h0, show (0 : UInt8) ≠ c from h0 ▸ hb]⟩
          · cases k with
            | zero => simp at h; exact absurd h h0
            | succ k => simpa [scan, hb, h0] using ih (q + 1) k (by simpa using h)
  exact total _ p _ hd

/-- The search from a stretch without the byte sought ends inside the block,
and not in that stretch, when a NUL follows. -/
theorem strchr_skip (mem front : List UInt8) {xs rest : List UInt8} {p : Nat} {c : UInt8}
    (hmem : mem = front ++ (xs ++ rest)) (hp : p = front.length)
    (hc : c ∉ xs) (hrest : 0 ∈ rest) :
    ∃ r, strchr mem p c = .ok r ∧ ∀ i, r = some i → p + xs.length ≤ i := by
  subst hmem hp
  obtain ⟨z, hzlt, hzget⟩ := List.getElem_of_mem hrest
  have hnul : (front ++ (xs ++ rest))[front.length + xs.length + z]? = some 0 := by
    rw [List.getElem?_append_right (by omega), List.getElem?_append_right (by omega)]
    rw [show front.length + xs.length + z - front.length - xs.length = z by omega,
      List.getElem?_eq_getElem hzlt, hzget]
  obtain ⟨r, hr⟩ := strchr_total (p := front.length) c hnul (by omega)
  refine ⟨r, hr, ?_⟩
  rintro i rfl
  obtain ⟨hle, hget⟩ := strchr_some_bounds hr
  refine Nat.le_of_not_lt fun hlt => hc ?_
  rw [List.getElem?_append_right hle, List.getElem?_append_left (by omega)] at hget
  exact List.mem_of_getElem? hget

/-! Texts. -/

theorem cString_eq (front rest : List UInt8) {mem text : List UInt8} {p : Nat}
    (hmem : mem = front ++ (text ++ 0 :: rest)) (hp : p = front.length) (h : 0 ∉ text) :
    cString mem p = text := by
  have hall : ∀ b ∈ text, (b != 0) = true := by
    intro b hb
    simpa using fun h0 : b = 0 => h (h0 ▸ hb)
  simp [cString, hmem, hp, List.takeWhile_append_of_pos hall]

theorem zero_notMem_cString (mem : List UInt8) (p : Nat) : 0 ∉ cString mem p := by
  intro h
  simpa using List.mem_takeWhile_imp h

/-- A text that ends in front of the place where two blocks may differ. -/
theorem cString_take {mem mem' : List UInt8} {n p z : Nat} (h : mem'.take n = mem.take n)
    (hz : mem[z]? = some 0) (hn : z < n) (hp : p ≤ z) : cString mem' p = cString mem p := by
  have hzero : 0 ∈ (mem.take n).drop p := by
    refine List.mem_of_getElem? (i := z - p) ?_
    rw [List.getElem?_drop, Nat.add_sub_cancel' hp, List.getElem?_take_of_lt hn, hz]
  obtain ⟨text, rest, hsplit, htext⟩ := List.eq_append_cons_of_mem hzero
  have hplace : p = ((mem.take n).take p).length := by
    have hlt := (List.getElem?_eq_some_iff.mp hz).1
    simp only [List.length_take]
    omega
  have hboth (block : List UInt8) (hblock : block.take n = mem.take n) : cString block p = text := by
    refine cString_eq ((mem.take n).take p) (rest ++ block.drop n) ?_ hplace htext
    calc block = block.take n ++ block.drop n := (List.take_append_drop n block).symm
      _ = ((mem.take n).take p ++ (mem.take n).drop p) ++ block.drop n := by
        rw [hblock, List.take_append_drop]
      _ = _ := by simp [hsplit]
  rw [hboth mem' h, hboth mem rfl]

theorem cString_eq_nil_iff {mem : List UInt8} {p : Nat} {b : UInt8} (h : mem[p]? = some b) :
    cString mem p = [] ↔ b = 0 := by
  obtain ⟨hlt, hget⟩ := List.getElem?_eq_some_iff.mp h
  rw [cString, List.drop_eq_getElem_cons hlt, hget, List.takeWhile_eq_nil_iff]
  simp

end CMemory
