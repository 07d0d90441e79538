import L4Server.StrBuf
import L4Server.Library.Automaton

/-!
Runs of `string_append` and `string_reset` on a string from `string_init`. What
has been appended since the last reset is recorded beside the string. Its text
stays in front of a NUL and is never longer than `len`, whatever `realloc` does.
-/
namespace L4Server
open CMemory

/-- A call on a string; a slice is appended with its own length. -/
inductive StringOp
  | append (realloc : Option (List UInt8)) (slice : List UInt8)
  | reset

/-- A string, and the slices appended since it was last reset. -/
structure Written where
  str : StringT
  appended : List UInt8

def stringStep (w : Written) : StringOp → Except Fault Written
  | .append realloc slice => do
      let (ok, str) ← stringAppend realloc w.str slice slice.length
      return ⟨str, if ok then w.appended ++ slice else w.appended⟩
  | .reset => .ok ⟨stringReset w.str, []⟩

/-- A string starts as `string_init` returns it for a positive `size_t`. -/
def strings : Automaton.Machine Written StringOp Fault where
  start := fun w => w.appended = [] ∧ ∃ mallocStr mallocBuf capacity,
    0 < capacity ∧ capacity < 2 ^ 64 ∧ stringInit mallocStr mallocBuf capacity = some w.str
  step := stringStep

/-! Room. -/

/-- The capacity is the size of the block, and exceeds the length. -/
def StringT.Fits (str : StringT) : Prop :=
  str.buf.length = str.capacity ∧ str.len < str.capacity

/-- The lengths for which `string_append` allocates enough. -/
def Roomy (sum : Nat) : Prop :=
  sum < 2 ^ 16 ∨ 2 ^ 32 ≤ sum ∧ sum < 2 ^ 33

theorem oneShl_of_lt {count : Nat} (h : count % 32 < 31) : oneShl count = 2 ^ (count % 32) :=
  if_neg (by omega)

theorem oneShl_of_sign {count : Nat} (h : count % 32 = 31) : oneShl count = 2 ^ 64 - 2 ^ 31 :=
  if_pos h

/-- `1 << clzl` exceeds a length of up to 16 bits, and one of 33 bits for
which the shift reaches the sign. -/
theorem lt_oneShl_clzl_iff {sum : Nat} (hpos : sum ≠ 0) (hsize : sum < 2 ^ 64) :
    sum < oneShl (clzl sum) ↔ Roomy sum := by
  have hlog : sum.log2 < 64 := (Nat.log2_lt hpos).mpr hsize
  have hbelow {k n : Nat} (hk : k < 31) (hkn : k ≤ n) : (2 : Nat) ^ k ≤ 2 ^ n :=
    Nat.pow_le_pow_right (by omega) hkn
  unfold Roomy
  by_cases h16 : sum < 2 ^ 16
  · have hlt : sum.log2 < 16 := (Nat.log2_lt hpos).mpr h16
    refine iff_of_true ?_ (.inl h16)
    by_cases hzero : sum.log2 = 0
    · rw [oneShl_of_sign (by unfold clzl; omega)]
      omega
    · have hcount : clzl sum % 32 = 31 - sum.log2 := by unfold clzl; omega
      rw [oneShl_of_lt (by omega), hcount]
      exact Nat.lt_of_lt_of_le h16 (hbelow (by omega) (by omega))
  by_cases h32 : sum < 2 ^ 32
  · have hlt : sum.log2 < 32 := (Nat.log2_lt hpos).mpr h32
    have hle : 16 ≤ sum.log2 := (Nat.le_log2 hpos).mpr (by omega)
    have hcount : clzl sum % 32 = 31 - sum.log2 := by unfold clzl; omega
    refine iff_of_false ?_ (by omega)
    rw [oneShl_of_lt (by omega), hcount, Nat.not_lt]
    exact Nat.le_trans (hbelow (n := 16) (by omega) (by omega)) (by omega)
  by_cases h33 : sum < 2 ^ 33
  · have hlt : sum.log2 < 33 := (Nat.log2_lt hpos).mpr h33
    have hle : 32 ≤ sum.log2 := (Nat.le_log2 hpos).mpr (by omega)
    refine iff_of_true ?_ (.inr ⟨by omega, h33⟩)
    rw [oneShl_of_sign (by unfold clzl; omega)]
    omega
  · have hle : 33 ≤ sum.log2 := (Nat.le_log2 hpos).mpr (by omega)
    have hcount : clzl sum % 32 = 63 - sum.log2 := by unfold clzl; omega
    refine iff_of_false ?_ (by omega)
    rw [oneShl_of_lt (by omega), hcount, Nat.not_lt]
    exact Nat.le_trans (hbelow (n := 33) (by omega) (by omega)) (by omega)

/-- The block holds `text`, its NUL and `rest`; the length counts at least the text. -/
structure StringT.Holds (str : StringT) (text rest : List UInt8) : Prop where
  buf : str.buf = text ++ 0 :: rest
  free : 0 ∉ text
  short : text.length ≤ str.len
  room : str.len < str.capacity

variable {str : StringT} {text rest buf : List UInt8} {buflen : Nat}

theorem StringT.Holds.fits (h : str.Holds text rest) : str.Fits := ⟨str.allocated, h.room⟩

theorem StringT.empty_holds {capacity : Nat} (h : 0 < capacity) :
    (StringT.empty capacity).Holds [] (List.replicate (capacity - 1) 0) where
  buf := by
    obtain ⟨n, rfl⟩ : ∃ n, capacity = n + 1 := ⟨capacity - 1, by omega⟩
    exact List.replicate_succ
  free := List.not_mem_nil
  short := Nat.le_refl _
  room := h

/-- With room for the slice, an append writes its text behind the old one. -/
theorem StringT.Holds.append {s : StringT} {realloc : Option (List UInt8)}
    (hs : str.reserve realloc buflen = some s) (h : s.Holds text rest)
    (hsum : sizeAdd s.len buflen = s.len + buflen) (hroom : s.len + buflen < s.capacity)
    (hbuf : buflen ≤ buf.length) :
    ∃ t, stringAppend realloc str buf buflen = .ok (true, t) ∧ t.capacity = s.capacity ∧
      t.len = s.len + buflen ∧ t.Holds (text ++ (buf.take buflen).takeWhile (· != 0))
        (rest.drop ((buf.take buflen).takeWhile (· != 0)).length) := by
  have hcopied : ((buf.take buflen).takeWhile (· != 0)).length ≤ buflen := by
    have := (List.takeWhile_sublist (· != 0) (l := buf.take buflen)).length_le
    rw [List.length_take] at this
    omega
  have hblock := congrArg List.length h.buf
  have hshort := h.short
  rw [s.allocated, List.length_append, List.length_cons] at hblock
  have hcat := strncat_text text rest buf h.free hbuf (by omega)
  rw [← h.buf] at hcat
  obtain ⟨t, ht, hcapacity, hlen, hout⟩ := stringAppend_of_strncat hs hcat
  rw [hsum] at hlen
  refine ⟨t, ht, hcapacity, hlen, hout, ?_, ?_, by rw [hlen, hcapacity]; exact hroom⟩
  · rw [List.mem_append, not_or]
    exact ⟨h.free, fun h0 => by simpa using List.mem_takeWhile_imp h0⟩
  · rw [List.length_append, hlen]
    omega

/-- Without growth the block stays, and what lies behind its text. -/
theorem StringT.Holds.append_kept (h : str.Holds text rest) (realloc : Option (List UInt8))
    (hcapacity : str.capacity ≤ 2 ^ 64) (hroom : str.len + buflen < str.capacity)
    (hbuf : buflen ≤ buf.length) :
    ∃ t, stringAppend realloc str buf buflen = .ok (true, t) ∧ t.capacity = str.capacity ∧
      t.len = str.len + buflen ∧ t.Holds (text ++ (buf.take buflen).takeWhile (· != 0))
        (rest.drop ((buf.take buflen).takeWhile (· != 0)).length) := by
  have hsum : sizeAdd str.len buflen = str.len + buflen :=
    Nat.mod_eq_of_lt (Nat.lt_of_lt_of_le hroom hcapacity)
  refine StringT.Holds.append ?_ h hsum hroom hbuf
  unfold StringT.reserve
  rw [if_neg]
  simpa [StringT.needsGrowth, hsum] using hroom

/-- An enlarged block begins with the old one. -/
theorem StringT.Holds.enlarge (h : str.Holds text rest) {junk : List UInt8} {n : Nat}
    (hn : str.capacity < n) :
    ∃ more, StringT.Holds ⟨n, str.len, readBlock str.buf junk n, readBlock_length _ _ _⟩
      text more := by
  have hblock := congrArg List.length h.buf
  rw [str.allocated, List.length_append, List.length_cons] at hblock
  refine ⟨(rest ++ junk ++ List.replicate n 0).take (n - text.length - 1), ?_, h.free, h.short,
    Nat.lt_trans h.room hn⟩
  obtain ⟨k, hk⟩ : ∃ k, n = text.length + (k + 1) := ⟨n - text.length - 1, by omega⟩
  simp [readBlock, h.buf, hk, List.take_length_add_append]

/-- No sum wraps, and a block that is enlarged is allocated for a length for
which enough is allocated. -/
def Written.Grows (w : Written) : StringOp → Prop
  | .append realloc slice =>
      w.str.len + slice.length < 2 ^ 64 ∧
        (w.str.needsGrowth slice.length = true → realloc.isSome = true →
          Roomy (w.str.len + slice.length))
  | .reset => True

theorem StringT.needsGrowth_iff (hwrap : str.len + buflen < 2 ^ 64) :
    str.needsGrowth buflen = true ↔ str.capacity ≤ str.len + buflen := by
  have hsum : sizeAdd str.len buflen = str.len + buflen := Nat.mod_eq_of_lt hwrap
  simp [StringT.needsGrowth, hsum]

theorem StringT.reserve_none_iff {realloc : Option (List UInt8)} :
    str.reserve realloc buflen = none ↔
      str.needsGrowth buflen = true ∧ realloc.isSome = false := by
  unfold StringT.reserve
  split
  · next hgrow => simp [hgrow]
  · next hkeep => simp [hkeep]

/-- The room there is for a slice, once memory has been granted. -/
theorem StringT.Holds.reserve {s : StringT} {realloc : Option (List UInt8)}
    (h : str.Holds text rest) (hs : str.reserve realloc buflen = some s)
    (hwrap : str.len + buflen < 2 ^ 64) :
    s.len = str.len ∧ (str.len + buflen < s.capacity ↔
      (str.needsGrowth buflen = true → realloc.isSome = true → Roomy (str.len + buflen))) := by
  have hsum : sizeAdd str.len buflen = str.len + buflen := Nat.mod_eq_of_lt hwrap
  unfold StringT.reserve at hs
  split at hs
  · next hgrow =>
    have hge := (StringT.needsGrowth_iff hwrap).mp hgrow
    have hroom := h.room
    obtain ⟨junk, rfl, rfl⟩ := Option.map_eq_some_iff.mp hs
    refine ⟨rfl, ?_⟩
    simp only [hsum, hgrow, Option.isSome_some, forall_const]
    exact lt_oneShl_clzl_iff (by omega) hwrap
  · next hkeep =>
    cases hs
    refine ⟨rfl, iff_of_true ?_ fun hgrow => absurd hgrow hkeep⟩
    exact Nat.lt_of_not_le (mt (StringT.needsGrowth_iff hwrap).mpr hkeep)

theorem StringT.Holds.reserved {s : StringT} {realloc : Option (List UInt8)}
    (h : str.Holds text rest) (hs : str.reserve realloc buflen = some s)
    (hwrap : str.len + buflen < 2 ^ 64) (hroom : str.len + buflen < s.capacity) :
    ∃ more, s.Holds text more := by
  unfold StringT.reserve at hs
  split at hs
  · next hgrow =>
    have hge := (StringT.needsGrowth_iff hwrap).mp hgrow
    obtain ⟨junk, rfl, rfl⟩ := Option.map_eq_some_iff.mp hs
    exact h.enlarge (Nat.lt_of_le_of_lt hge hroom)
  · cases hs
    exact ⟨rest, h⟩

theorem Written.Grows.step {w : Written} {op : StringOp} (hw : w.Grows op)
    (h : w.str.Holds text rest) :
    ∃ v, stringStep w op = .ok v ∧ ∃ text rest, v.str.Holds text rest := by
  cases op with
  | reset =>
      exact ⟨_, rfl, _, _, StringT.empty_holds (Nat.lt_of_le_of_lt (Nat.zero_le _) h.room)⟩
  | append realloc slice =>
      obtain ⟨hwrap, hroomy⟩ := hw
      cases hs : w.str.reserve realloc slice.length with
      | none =>
          refine ⟨w, ?_, text, rest, h⟩
          simp [stringStep, stringAppend, hs, bind, Except.bind, pure, Except.pure]
      | some s =>
          obtain ⟨hlen, hroom⟩ := h.reserve hs hwrap
          obtain ⟨more, hmore⟩ := h.reserved hs hwrap (hroom.mpr hroomy)
          obtain ⟨t, ht, -, -, hholds⟩ := @StringT.Holds.append _ _ _ slice _ _ _ hs hmore
            (by rw [hlen]; exact Nat.mod_eq_of_lt hwrap) (by rw [hlen]; exact hroom.mpr hroomy)
            (Nat.le_refl _)
          exact ⟨_, by simp only [stringStep, ht]; rfl, _, _, hholds⟩

theorem stringInit_holds {mallocStr mallocBuf : Bool} {capacity : Nat}
    (h : stringInit mallocStr mallocBuf capacity = some str) :
    ∃ rest, str.Holds [] rest := by
  rw [stringInit_eq_some h]
  exact ⟨_, StringT.empty_holds (by omega)⟩

theorem strings_hold {w : Written} (hw : Automaton.Reach strings Written.Grows w) :
    ∃ text rest, w.str.Holds text rest := by
  refine hw.invariant (P := fun w => ∃ text rest, w.str.Holds text rest) ?_ ?_
  · rintro w ⟨-, mallocStr, mallocBuf, capacity, -, -, hinit⟩
    exact ⟨[], stringInit_holds hinit⟩
  · rintro w op v ⟨text, rest, h⟩ hgrows hstep
    obtain ⟨v', hv', hholds⟩ := hgrows.step h
    obtain rfl := Except.ok.inj (hv'.symm.trans hstep)
    exact hholds

/-- The text stays inside its block in all runs whose appends are allocated
enough, and an append that is not makes the first run where it does not. -/
theorem strings_fit_iff (w : Written) (hw : Automaton.Reach strings Written.Grows w) :
    w.str.Fits ∧ ∀ realloc slice, w.str.len + slice.length < 2 ^ 64 →
      ((∃ v, stringStep w (.append realloc slice) = .ok v ∧ v.str.Fits) ↔
        w.Grows (.append realloc slice)) := by
  obtain ⟨text, rest, h⟩ := strings_hold hw
  refine ⟨h.fits, fun realloc slice hwrap => ⟨?_, ?_⟩⟩
  · rintro ⟨v, hv, hfits⟩
    obtain ⟨⟨ok, t⟩, ht, hstep⟩ := bind_eq_ok.mp hv
    cases hstep
    refine ⟨hwrap, ?_⟩
    rcases stringAppend_eq_ok ht with ⟨hnone, -, -⟩ | ⟨s, hs, -, hcapacity, hlen⟩
    · intro _ hsome
      rw [(StringT.reserve_none_iff.mp hnone).2] at hsome
      cases hsome
    · obtain ⟨hslen, hroom⟩ := h.reserve hs hwrap
      have hlt : t.len < t.capacity := hfits.2
      rw [hcapacity, hlen, hslen, show sizeAdd w.str.len slice.length = w.str.len + slice.length from
        Nat.mod_eq_of_lt hwrap] at hlt
      exact hroom.mp hlt
  · intro hgrows
    obtain ⟨v, hv, _, _, hholds⟩ := hgrows.step h
    exact ⟨v, hv, hholds.fits⟩

/-- A string just returned for the capacity asked for. -/
def Written.fresh (capacity : Nat) : Written :=
  ⟨.empty (max (oneShl (clzl capacity)) 64), []⟩

theorem Written.fresh_start {capacity : Nat} (hpos : 0 < capacity) (hsize : capacity < 2 ^ 64) :
    strings.start (Written.fresh capacity) :=
  ⟨rfl, true, true, capacity, hpos, hsize, stringInit_granted capacity⟩

/-- A block of 64 bytes grows for a slice of as many. -/
theorem strings_fit_grown : ∃ v,
    (Written.fresh (2 ^ 31)).str.capacity = 64 ∧
    stringStep (.fresh (2 ^ 31)) (.append (some []) (List.replicate 64 'a'.toUInt8)) = .ok v ∧
    v.str.len = 64 ∧ v.str.Fits ∧
    ∀ realloc slice, v.str.len + slice.length < 2 ^ 64 →
      ((∃ u, stringStep v (.append realloc slice) = .ok u ∧ u.str.Fits) ↔
        v.Grows (.append realloc slice)) := by
  have hcapacity : max (oneShl (clzl (2 ^ 31))) 64 = 64 := by decide +kernel
  have hstart : strings.start (.fresh (2 ^ 31)) := Written.fresh_start (by decide) (by decide)
  have hgrows : (Written.fresh (2 ^ 31)).Grows
      (.append (some []) (List.replicate 64 'a'.toUInt8)) :=
    ⟨by decide +kernel, fun _ _ => .inl (by decide +kernel)⟩
  have hempty : (Written.fresh (2 ^ 31)).str.Holds [] (List.replicate 63 0) := by
    rw [Written.fresh, hcapacity]
    exact StringT.empty_holds (by decide)
  obtain ⟨v, hv, -⟩ := hgrows.step hempty
  refine ⟨v, hcapacity, hv, ?_, strings_fit_iff v (.step (.start hstart) hgrows hv)⟩
  obtain ⟨⟨ok, t⟩, ht, hstep⟩ := bind_eq_ok.mp hv
  cases hstep
  rcases stringAppend_eq_ok ht with ⟨hnone, -, -⟩ | ⟨s, hs, -, -, hlen⟩
  · cases (StringT.reserve_none_iff.mp hnone).2
  · rw [hlen, (hempty.reserve hs (by decide +kernel)).1]
    rfl

/-- NULs are given a block by their number, and leave its text empty. -/
theorem stringAppend_zeros {capacity n : Nat} (hn : n < 2 ^ 64)
    (hgrow : (StringT.empty capacity).needsGrowth n = true) (hpos : 0 < oneShl (clzl n)) :
    ∃ t, stringAppend (some []) (.empty capacity) (List.replicate n 0) n = .ok (true, t) ∧
      t.capacity = oneShl (clzl n) ∧ t.len = n := by
  have hsum : sizeAdd 0 n = n :=
    (congrArg (· % 2 ^ 64) (Nat.zero_add n)).trans (Nat.mod_eq_of_lt hn)
  obtain ⟨k, hk⟩ : ∃ k, oneShl (clzl n) = k + 1 := ⟨oneShl (clzl n) - 1, by omega⟩
  have hblock : readBlock (List.replicate capacity 0) [] (k + 1) =
      [] ++ 0 :: List.replicate k 0 := by
    simp [readBlock, ← List.replicate_succ]
  have hcopied : ((List.replicate n (0 : UInt8)).take n).takeWhile (· != 0) = [] := by
    cases n <;> simp [List.replicate_succ]
  have hcat := strncat_text [] (List.replicate k 0) (List.replicate n 0)
    List.not_mem_nil (Nat.le_of_eq List.length_replicate.symm)
    (by rw [hcopied]; exact Nat.zero_le _)
  have hreserve : (StringT.empty capacity).reserve (some []) n =
      some ⟨k + 1, 0, readBlock (List.replicate capacity 0) [] (k + 1), readBlock_length _ _ _⟩ := by
    unfold StringT.reserve
    rw [if_pos hgrow]
    simp only [StringT.empty, hsum, hk, Option.map_some]
  obtain ⟨t, ht, hcapacity, hlen, -⟩ := stringAppend_of_strncat hreserve
    ((congrArg (strncat · _ n) hblock).trans hcat)
  exact ⟨t, ht, hcapacity.trans hk.symm, hlen.trans hsum⟩

/-- 65536 bytes are given a block of 32768, which NULs leave intact and other
bytes overrun. -/
theorem strings_not_fit :
    (¬ ∀ w, Automaton.Reachable strings w → w.str.Fits) ∧ strings.start (.fresh 65536) ∧
      ∃ f, stringStep (.fresh 65536) (.append (some []) (List.replicate 65536 'a'.toUInt8)) =
        .error f := by
  have hgrow : (Written.fresh 65536).str.needsGrowth 65536 = true := by decide +kernel
  have hsize : oneShl (clzl 65536) = 32768 := by decide +kernel
  have hstart : strings.start (.fresh 65536) := Written.fresh_start (by decide) (by decide)
  refine ⟨?_, hstart, ?_⟩
  · intro h
    obtain ⟨t, ht, hcapacity, hlen⟩ := stringAppend_zeros (by decide) hgrow (by rw [hsize]; decide)
    have hreach : Automaton.Reachable strings ⟨t, [] ++ List.replicate 65536 0⟩ := by
      refine Automaton.Reach.step (e := .append (some []) (List.replicate 65536 0)) (.start hstart)
        trivial ?_
      refine bind_eq_ok.mpr ⟨(true, t), ?_, rfl⟩
      rw [List.length_replicate]
      exact ht
    have hfits := (h _ hreach).2
    simp only [hcapacity, hlen, hsize] at hfits
    exact absurd hfits (by decide)
  · obtain ⟨f, hf⟩ := stringAppend_overruns_replicate (b := 'a'.toUInt8) (by decide) [] hgrow (by
      rw [show sizeAdd (Written.fresh 65536).str.len 65536 = 65536 from rfl, hsize]
      decide)
    refine ⟨f, ?_⟩
    simp only [stringStep, List.length_replicate, hf]
    rfl

/-! Contents. -/

/-- No append needs to grow the buffer. -/
def Written.Keeps (w : Written) : StringOp → Prop
  | .append _ slice => w.str.len + slice.length < w.str.capacity
  | .reset => True

/-- The buffer holds what has been appended, and a NUL. -/
def Written.Concatenated (w : Written) : Prop :=
  w.str.buf.take w.str.len = w.appended ∧ w.str.buf[w.str.len]? = some 0

/-- No other byte follows a NUL. -/
def NulsLast (bytes : List UInt8) : Prop :=
  ∀ b ∈ bytes.dropWhile (· != 0), b = 0

theorem nulsLast_iff {bytes : List UInt8} : NulsLast bytes ↔
    bytes = bytes.takeWhile (· != 0) ++
      List.replicate (bytes.length - (bytes.takeWhile (· != 0)).length) 0 := by
  have hsplit := List.takeWhile_append_dropWhile (p := (· != 0)) (l := bytes)
  have hlength := congrArg List.length hsplit
  rw [List.length_append] at hlength
  constructor
  · intro h
    rw [show bytes.length - (bytes.takeWhile (· != 0)).length =
      (bytes.dropWhile (· != 0)).length by omega, ← List.eq_replicate_of_mem h]
    exact hsplit.symm
  · intro h b hb
    rw [List.append_cancel_left (hsplit.trans h)] at hb
    exact (List.mem_replicate.mp hb).2

/-- The text is what stands before the first NUL of what has been appended,
where nothing but NULs follows it. -/
structure Written.Zeroed (w : Written) (text : List UInt8) : Prop where
  holds : w.str.Holds text (List.replicate (w.str.capacity - text.length - 1) 0)
  capacity : w.str.capacity ≤ 2 ^ 64
  len : w.str.len = w.appended.length
  text : NulsLast w.appended → text = w.appended.takeWhile (· != 0)

theorem NulsLast.append {xs ys : List UInt8} (h : NulsLast (xs ++ ys)) :
    NulsLast xs ∧ (xs ++ ys).takeWhile (· != 0) =
      xs.takeWhile (· != 0) ++ ys.takeWhile (· != 0) := by
  induction xs with
  | nil => exact ⟨nofun, rfl⟩
  | cons b xs ih =>
      by_cases hb : b = 0
      · subst hb
        have hzero : ∀ c ∈ xs ++ ys, c = 0 := fun c hc => h c (by simp [hc])
        refine ⟨fun c hc => ?_, ?_⟩
        · rw [List.dropWhile_cons_of_neg (by simp), List.mem_cons] at hc
          exact hc.elim id fun hmem => hzero c (List.mem_append_left _ hmem)
        · cases ys with
          | nil => simp
          | cons c ys => simp [hzero c (by simp)]
      · have hpos : (b != 0) = true := by simpa using hb
        have hdrop (bytes : List UInt8) : (b :: bytes).dropWhile (· != 0) =
            bytes.dropWhile (· != 0) := List.dropWhile_cons_of_pos hpos
        have htake (bytes : List UInt8) : (b :: bytes).takeWhile (· != 0) =
            b :: bytes.takeWhile (· != 0) := List.takeWhile_cons_of_pos hpos
        rw [NulsLast, List.cons_append, hdrop] at h
        obtain ⟨hxs, htext⟩ := ih h
        refine ⟨?_, ?_⟩
        · rw [NulsLast, hdrop]
          exact hxs
        · rw [List.cons_append, htake, htake, htext, List.cons_append]

theorem Written.Zeroed.step {w v : Written} {op : StringOp} (h : w.Zeroed text)
    (hkeeps : w.Keeps op) (hstep : stringStep w op = .ok v) : ∃ text, v.Zeroed text := by
  cases op with
  | reset =>
      cases hstep
      refine ⟨[], ?_, h.capacity, rfl, fun _ => rfl⟩
      exact StringT.empty_holds (Nat.lt_of_le_of_lt (Nat.zero_le _) h.holds.room)
  | append realloc slice =>
      obtain ⟨t, ht, hcapacity, hlen, hholds⟩ :=
        h.holds.append_kept realloc h.capacity hkeeps (Nat.le_refl _)
      simp only [stringStep, ht] at hstep
      cases hstep
      rw [List.take_length] at hholds
      refine ⟨text ++ slice.takeWhile (· != 0), ?_, hcapacity ▸ h.capacity, ?_, ?_⟩
      · simp only [hcapacity, List.length_append]
        rw [List.drop_replicate] at hholds
        rwa [show w.str.capacity - (text.length + (slice.takeWhile (· != 0)).length) - 1 =
          w.str.capacity - text.length - 1 - (slice.takeWhile (· != 0)).length by omega]
      · simp [hlen, h.len]
      · intro hlast
        obtain ⟨hold, htext⟩ := NulsLast.append hlast
        exact (congrArg (· ++ slice.takeWhile (· != 0)) (h.text hold)).trans htext.symm

theorem oneShl_le (count : Nat) : oneShl count ≤ 2 ^ 64 := by
  unfold oneShl
  split
  · omega
  · exact Nat.pow_le_pow_right (by omega) (by omega)

theorem strings_zeroed {w : Written} (hw : Automaton.Reach strings Written.Keeps w) :
    ∃ text, w.Zeroed text := by
  refine hw.invariant (P := fun w => ∃ text, w.Zeroed text) ?_ ?_
  · rintro ⟨str, appended⟩ ⟨rfl, mallocStr, mallocBuf, capacity, -, -, hinit⟩
    have hle := oneShl_le (clzl capacity)
    obtain rfl : str = _ := stringInit_eq_some hinit
    exact ⟨[], StringT.empty_holds (by omega), by simp only [StringT.empty]; omega, rfl,
      fun _ => rfl⟩
  · rintro w op v ⟨text, h⟩ hkeeps hstep
    exact h.step hkeeps hstep

/-- Without growth the contents are the concatenation exactly while no other
byte follows a NUL in it. -/
theorem strings_concatenated_iff (w : Written) (hw : Automaton.Reach strings Written.Keeps w) :
    w.Concatenated ↔ NulsLast w.appended := by
  obtain ⟨text, h⟩ := strings_zeroed hw
  have hroom := h.holds.room
  have hshort := h.holds.short
  have hbuf : w.str.buf = text ++ List.replicate (w.str.capacity - text.length) 0 := by
    rw [h.holds.buf, ← List.replicate_succ]
    congr 2
    omega
  have htake : w.str.buf.take w.str.len = text ++ List.replicate (w.str.len - text.length) 0 := by
    rw [hbuf, List.take_append, List.take_of_length_le hshort, List.take_replicate]
    congr 2
    omega
  have hnul : w.str.buf[w.str.len]? = some 0 := by
    rw [hbuf, List.getElem?_append_right hshort, List.getElem?_replicate_of_lt (by omega)]
  constructor
  · rintro ⟨hcontents, -⟩ b hb
    have htext : ∀ b ∈ text, (b != 0) = true := fun b hb => by
      simpa using fun h0 : b = 0 => h.holds.free (h0 ▸ hb)
    rw [← hcontents, htake, List.dropWhile_append_of_pos htext] at hb
    exact (List.mem_replicate.mp (List.dropWhile_sublist _ |>.mem hb)).2
  · intro hlast
    refine ⟨?_, hnul⟩
    rw [htake, h.text hlast, h.len]
    exact (nulsLast_iff.mp hlast).symm

/-- One append to a fresh string. -/
theorem fresh_append (slice : List UInt8) (h : slice.length < 64) :
    ∃ v, Automaton.Reach strings Written.Keeps v ∧ v.appended = slice ∧
      v.str.len = slice.length ∧ v.str.Holds (slice.takeWhile (· != 0))
        (List.replicate ((Written.fresh 1024).str.capacity - 1 -
          (slice.takeWhile (· != 0)).length) 0) := by
  have hstart : strings.start (.fresh 1024) := Written.fresh_start (by decide) (by decide)
  have hcapacity : (Written.fresh 1024).str.capacity = 2 ^ 21 := by decide +kernel
  have hkeeps : (Written.fresh 1024).str.len + slice.length < (Written.fresh 1024).str.capacity := by
    rw [hcapacity, show (Written.fresh 1024).str.len = 0 from rfl]
    omega
  have hempty : (Written.fresh 1024).str.Holds []
      (List.replicate ((Written.fresh 1024).str.capacity - 1) 0) :=
    StringT.empty_holds (Nat.lt_of_le_of_lt (Nat.zero_le _) hkeeps)
  obtain ⟨t, ht, -, hlen, hholds⟩ := @StringT.Holds.append_kept _ _ _ slice _ hempty none
    (by rw [hcapacity]; decide) hkeeps (Nat.le_refl _)
  rw [List.take_length, List.nil_append, List.drop_replicate] at hholds
  refine ⟨⟨t, [] ++ slice⟩, ?_, rfl, hlen.trans (Nat.zero_add _), hholds⟩
  refine Automaton.Reach.step (e := .append none slice) (.start hstart) hkeeps ?_
  exact bind_eq_ok.mpr ⟨(true, t), ht, rfl⟩

theorem strings_concatenated_text :
    ∃ w : Written, w.appended = ascii "body" ∧ (w.Concatenated ↔ NulsLast w.appended) := by
  obtain ⟨w, hw, happended, -⟩ := fresh_append (ascii "body") (by decide)
  exact ⟨w, happended, strings_concatenated_iff w hw⟩

/-- A NUL in front of another byte hides it. -/
theorem strings_not_concatenated :
    ∃ w, Automaton.Reach strings Written.Keeps w ∧ w.appended = [0, 'a'.toUInt8] ∧
      ¬ w.Concatenated := by
  obtain ⟨w, hw, happended, -, hholds⟩ := fresh_append [0, 'a'.toUInt8] (by decide)
  refine ⟨w, hw, happended, fun hcontents => ?_⟩
  have hmem : 'a'.toUInt8 ∈ w.str.buf := by
    refine List.mem_of_mem_take (i := w.str.len) ?_
    rw [hcontents.1, happended]
    simp
  rw [hholds.buf, List.mem_append, List.mem_cons, List.mem_replicate] at hmem
  rcases hmem with htext | hnul | ⟨-, hzero⟩
  · exact absurd htext (by decide)
  · exact absurd hnul (by decide)
  · exact absurd hzero (by decide)

end L4Server
