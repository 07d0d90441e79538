import L4Server.HeaderFields

/-!
A request with further bytes behind it. Every search of the parser runs past its
own section, so the two runs are compared by what each makes of the same lines:
the lines decide which bytes are overwritten and where the pointers lead. A text
is the same in both runs when a NUL in front of the further bytes ends it.
-/
namespace L4Server
open CMemory

/-! The end of the section. -/

/-- Whether the header loop ends by its test for a short line. -/
def headersStopShort (bufend : Nat) : Nat → Nat → Parse → Except Fault Bool
  | 0, _, _ => .error .fuel
  | fuel + 1, start, s =>
      if start < bufend then do
        match ← strchr s.mem start '\r'.toUInt8 with
        | none => .ok false
        | some endOfHeaderLine =>
            if sizeSub endOfHeaderLine start < sizeofLit "H: V" then .ok true
            else do
              let headerSeperator ← strchr s.mem start ':'.toUInt8
              let s ← recordHeader s start endOfHeaderLine headerSeperator
              headersStopShort bufend fuel (endOfHeaderLine + 2) s
      else .ok false

/-- Behind its long lines the section has a short one, CR included. -/
inductive ShortLineReached : List UInt8 → Prop
  | short {line rest : List UInt8} : '\r'.toUInt8 ∉ line → 0 ∉ line → ¬ LongLine line →
      ShortLineReached (line ++ '\r'.toUInt8 :: rest)
  | long {line behind : List UInt8} : '\r'.toUInt8 ∉ line → 0 ∉ line → LongLine line →
      ShortLineReached (behind.drop 1) → ShortLineReached (line ++ '\r'.toUInt8 :: behind)

theorem recordHeader_behind {s t : Parse} {start eol : Nat} {sep : Option Nat}
    (h : recordHeader s start eol sep = .ok t) :
    t.mem.drop (eol + 1) = s.mem.drop (eol + 1) ∧ t.mem.length = s.mem.length := by
  cases sep with
  | none =>
      cases h
      exact ⟨rfl, rfl⟩
  | some i =>
      unfold recordHeader at h
      simp only at h
      split at h
      · next hlt =>
        obtain ⟨u, hu, h⟩ := bind_eq_ok.mp h
        obtain ⟨v, hv, h⟩ := bind_eq_ok.mp h
        cases h
        obtain ⟨mem, hmem, hu⟩ := bind_eq_ok.mp hu
        cases hu
        obtain ⟨mem', hmem', hv⟩ := bind_eq_ok.mp hv
        cases hv
        obtain rfl := CMemory.store_ok hmem
        obtain rfl := CMemory.store_ok hmem'
        refine ⟨?_, by simp [Parse.setHeader]⟩
        simp only [Parse.setHeader]
        rw [List.drop_set_of_lt (by omega), List.drop_set_of_lt (by omega)]
      · cases h
        exact ⟨rfl, rfl⟩

/-- A loop that ends by the test has met a short line among the received bytes. -/
theorem shortLineReached_of_stop {bufend fuel start : Nat} {s : Parse} {bytes tail : List UInt8}
    (hmem : s.mem.drop start = bytes ++ tail) (htail : ∀ c ∈ tail, c = 0)
    (hn : s.mem.length < 2 ^ 64) (h : headersStopShort bufend fuel start s = .ok true) :
    ShortLineReached bytes := by
  induction fuel generalizing start s bytes tail with
  | zero => cases h
  | succ fuel ih =>
      unfold headersStopShort at h
      split at h
      swap
      · cases h
      obtain ⟨r, hr, h⟩ := bind_eq_ok.mp h
      cases r with
      | none => cases h
      | some eol =>
          obtain ⟨line, rest, hline, hcr, h0, rfl⟩ := (strchr_eq_some_iff _ _ _ _).mp hr
          have heol : start + line.length < s.mem.length :=
            (List.getElem?_eq_some_iff.mp (strchr_some_bounds hr).2).1
          have hcrtail : '\r'.toUInt8 ∉ tail := fun hmem => absurd (htail _ hmem) (by decide)
          obtain ⟨behind, rfl, rfl⟩ : ∃ behind, bytes = line ++ '\r'.toUInt8 :: behind ∧
              rest = behind ++ tail := by
            rcases List.append_eq_append_iff.mp (hmem.symm.trans hline) with
              ⟨as, -, has⟩ | ⟨bs, hbs, hrest⟩
            · exact absurd (by simp [has]) hcrtail
            · cases bs with
              | nil => exact absurd (by rw [← List.nil_append tail, ← hrest]; simp) hcrtail
              | cons c behind =>
                  obtain ⟨rfl, rfl⟩ := List.cons.inj hrest
                  exact ⟨behind, hbs, rfl⟩
          simp only at h
          by_cases hlong : LongLine line
          · rw [if_neg fun hlt => (sizeSub_line (by omega)).mp hlt hlong] at h
            obtain ⟨sep, -, h⟩ := bind_eq_ok.mp h
            obtain ⟨u, hu, h⟩ := bind_eq_ok.mp h
            obtain ⟨hdrop, hlength⟩ := recordHeader_behind hu
            refine .long hcr h0 hlong (@ih _ _ _ (tail.drop (1 - behind.length)) ?_ ?_ ?_ h)
            · have hbehind : s.mem.drop (start + line.length + 1) = behind ++ tail := by
                rw [Nat.add_assoc, ← List.drop_drop, hline, List.drop_append,
                  List.drop_of_length_le (by omega), Nat.add_sub_cancel_left]
                rfl
              calc u.mem.drop (start + line.length + 2)
                  = (u.mem.drop (start + line.length + 1)).drop 1 := by rw [List.drop_drop]
                _ = (behind ++ tail).drop 1 := by rw [hdrop, hbehind]
                _ = behind.drop 1 ++ tail.drop (1 - behind.length) := List.drop_append
            · exact fun c hc => htail c (List.mem_of_mem_drop hc)
            · omega
          · exact .short hcr h0 hlong

/-! Where the lines stand. -/

theorem takeWhile_inLine {line : List UInt8} (rest : List UInt8) (hcr : '\r'.toUInt8 ∉ line)
    (h0 : 0 ∉ line) :
    (line ++ '\r'.toUInt8 :: rest).takeWhile inLine = line ∧
      (line ++ '\r'.toUInt8 :: rest).dropWhile inLine = '\r'.toUInt8 :: rest := by
  have hall : ∀ c ∈ line, inLine c = true := by
    intro c hc
    have hne : c ≠ '\r'.toUInt8 := fun h => hcr (h ▸ hc)
    have hz : c ≠ 0 := fun h => h0 (h ▸ hc)
    simp [inLine, hne, hz]
  constructor
  · rw [List.takeWhile_append_of_pos hall, List.takeWhile_cons_of_neg (by decide), List.append_nil]
  · rw [List.dropWhile_append_of_pos hall, List.dropWhile_cons_of_neg (by decide)]

theorem headerFields_line {line : List UInt8} (fuel start : Nat) (behind : List UInt8)
    (hcr : '\r'.toUInt8 ∉ line) (h0 : 0 ∉ line) :
    headerFields (fuel + 1) start (line ++ '\r'.toUInt8 :: behind) =
      if LongLine line then
        fieldsOfLine start line behind ++
          headerFields fuel (start + line.length + 2) (behind.drop 1)
      else [] := by
  obtain ⟨htake, hdrop⟩ := takeWhile_inLine behind hcr h0
  simp only [headerFields, htake, hdrop, true_and]

/-- A section has no lines to record, or a first one. -/
theorem headerFields_cases (fuel start : Nat) (bytes : List UInt8) :
    headerFields (fuel + 1) start bytes = [] ∨
      ∃ line behind, bytes = line ++ '\r'.toUInt8 :: behind ∧
        headerFields (fuel + 1) start bytes = fieldsOfLine start line behind ++
          headerFields fuel (start + line.length + 2) (behind.drop 1) := by
  have hsplit : bytes = bytes.takeWhile inLine ++ bytes.dropWhile inLine :=
    List.takeWhile_append_dropWhile.symm
  simp only [headerFields]
  split
  · exact .inl rfl
  · next c behind hbehind =>
    split
    · next h =>
      refine .inr ⟨bytes.takeWhile inLine, behind, ?_, rfl⟩
      rw [← h.1, ← hbehind]
      exact hsplit
    · exact .inl rfl

/-- A field is laid out in the received bytes, and behind the fields before it. -/
theorem headerFields_layout {fuel start : Nat} {bytes : List UInt8} :
    (∀ f ∈ headerFields fuel start bytes, start ≤ f.start ∧
      bytes.drop (f.start - start) =
        (f.key ++ ':'.toUInt8 :: f.value) ++ '\r'.toUInt8 :: f.behind) ∧
      (headerFields fuel start bytes).Pairwise fun f g => f.next < g.start := by
  induction fuel generalizing start bytes with
  | zero => exact ⟨nofun, .nil⟩
  | succ fuel ih =>
      rcases headerFields_cases fuel start bytes with hnil | ⟨line, behind, rfl, hfields⟩
      · rw [hnil]
        exact ⟨nofun, .nil⟩
      obtain ⟨htail, hpairs⟩ := @ih (start + line.length + 2) (behind.drop 1)
      have hlater : ∀ g ∈ headerFields fuel (start + line.length + 2) (behind.drop 1),
          start ≤ g.start ∧ (line ++ '\r'.toUInt8 :: behind).drop (g.start - start) =
            (g.key ++ ':'.toUInt8 :: g.value) ++ '\r'.toUInt8 :: g.behind := by
        intro g hg
        obtain ⟨hle, hdrop⟩ := htail g hg
        refine ⟨by omega, ?_⟩
        rw [← hdrop, List.drop_drop, show g.start - start =
          line.length + (1 + (1 + (g.start - (start + line.length + 2)))) by omega,
          ← List.drop_drop, List.drop_left, ← List.drop_drop]
        rfl
      rw [hfields]
      rcases fieldsOfLine_cases start line behind with ⟨-, hline⟩ | ⟨key, value, rfl, -, hline⟩
      · rw [hline, List.nil_append]
        exact ⟨hlater, hpairs⟩
      · rw [hline, List.singleton_append]
        constructor
        · intro g hg
          rcases List.mem_cons.mp hg with rfl | hg
          · exact ⟨Nat.le_refl _, by simp⟩
          · exact hlater g hg
        · refine List.pairwise_cons.mpr ⟨fun g hg => ?_, hpairs⟩
          have hle := (htail g hg).1
          simp only [HeaderField.next, List.length_append, List.length_cons] at hle ⊢
          omega

/-- The line with more bytes received behind it. -/
def HeaderField.extend (ext : List UInt8) (f : HeaderField) : HeaderField :=
  { f with behind := f.behind ++ ext }

theorem fieldsOfLine_extend (start : Nat) (line behind ext : List UInt8) :
    fieldsOfLine start line (behind ++ ext) =
      (fieldsOfLine start line behind).map (HeaderField.extend ext) := by
  unfold fieldsOfLine
  split <;> rfl

theorem ShortLineReached.length_pos {bytes : List UInt8} (h : ShortLineReached bytes) :
    0 < bytes.length := by
  cases h <;> exact List.length_pos_of_mem (List.mem_append_right _ List.mem_cons_self)

/-- What follows the short line makes no further lines. -/
theorem ShortLineReached.fields_extend {bytes : List UInt8} (h : ShortLineReached bytes)
    (ext : List UInt8) {fuel fuel' start : Nat} (hfuel : bytes.length ≤ fuel)
    (hfuel' : bytes.length ≤ fuel') :
    headerFields fuel' start (bytes ++ ext) =
      (headerFields fuel start bytes).map (HeaderField.extend ext) := by
  induction h generalizing fuel fuel' start with
  | @short line rest hcr h0 hshort =>
      simp only [List.length_append, List.length_cons] at hfuel hfuel'
      obtain ⟨fuel, rfl⟩ : ∃ f, fuel = f + 1 := ⟨fuel - 1, by omega⟩
      obtain ⟨fuel', rfl⟩ : ∃ f, fuel' = f + 1 := ⟨fuel' - 1, by omega⟩
      rw [List.append_assoc, List.cons_append, headerFields_line _ _ _ hcr h0,
        headerFields_line _ _ _ hcr h0, if_neg hshort, if_neg hshort]
      rfl
  | @long line behind hcr h0 hlong hbehind ih =>
      have hpos := hbehind.length_pos
      simp only [List.length_append, List.length_cons] at hfuel hfuel'
      simp only [List.length_drop] at hpos ih
      obtain ⟨fuel, rfl⟩ : ∃ f, fuel = f + 1 := ⟨fuel - 1, by omega⟩
      obtain ⟨fuel', rfl⟩ : ∃ f, fuel' = f + 1 := ⟨fuel' - 1, by omega⟩
      rw [List.append_assoc, List.cons_append, headerFields_line _ _ _ hcr h0,
        headerFields_line _ _ _ hcr h0, if_pos hlong, if_pos hlong, List.map_append,
        fieldsOfLine_extend, List.drop_append_of_le_length (by omega),
        @ih fuel fuel' (start + line.length + 2) (by omega) (by omega)]

/-! Which bytes the lines mark. -/

theorem foldl_mark_take (fields : List HeaderField) (mem : List UInt8) (n : Nat) :
    (fields.foldl HeaderField.mark mem).take n = fields.foldl HeaderField.mark (mem.take n) := by
  induction fields generalizing mem with
  | nil => rfl
  | cons f fields ih =>
      rw [List.foldl_cons, List.foldl_cons, ih, HeaderField.mark, HeaderField.mark, List.take_set,
        List.take_set]

theorem foldl_mark_drop {fields : List HeaderField} {p : Nat} (h : ∀ f ∈ fields, f.next ≤ p)
    (mem : List UInt8) : (fields.foldl HeaderField.mark mem).drop p = mem.drop p := by
  induction fields generalizing mem with
  | nil => rfl
  | cons f fields ih =>
      have hf : f.start + f.key.length + f.value.length + 2 ≤ p := h f (by simp)
      rw [List.foldl_cons, ih fun g hg => h g (by simp [hg]), HeaderField.mark,
        List.drop_set_of_lt (by omega), List.drop_set_of_lt (by omega)]

theorem foldl_mark_extend (fields : List HeaderField) (mem ext : List UInt8) :
    (fields.map (HeaderField.extend ext)).foldl HeaderField.mark mem =
      fields.foldl HeaderField.mark mem := by
  rw [List.foldl_map]
  rfl

def delimiters : List UInt8 := [' ', '?', '=', '&', ':', '\r'].map Char.toUInt8

/-- A byte is kept, or a delimiter overwritten by NUL. -/
def Overwritten (old new : UInt8) : Prop := new = old ∨ (old ∈ delimiters ∧ new = 0)

theorem overwritten_refl (xs : List UInt8) : List.Forall₂ Overwritten xs xs :=
  List.forall₂_same.mpr fun _ _ => .inl rfl

theorem overwritten_trans {xs ys zs : List UInt8} (h : List.Forall₂ Overwritten xs ys)
    (k : List.Forall₂ Overwritten ys zs) : List.Forall₂ Overwritten xs zs := by
  induction h generalizing zs with
  | nil => exact k
  | @cons a b xs ys hab _ ih =>
      cases k with
      | @cons _ c _ zs hbc k =>
          refine .cons ?_ (ih k)
          rcases hab with rfl | ⟨ha, rfl⟩
          · exact hbc
          · rcases hbc with rfl | ⟨-, rfl⟩ <;> exact .inr ⟨ha, rfl⟩

theorem overwritten_append {xs ys xs' ys' : List UInt8} (h : List.Forall₂ Overwritten xs ys)
    (k : List.Forall₂ Overwritten xs' ys') : List.Forall₂ Overwritten (xs ++ xs') (ys ++ ys') :=
  List.rel_append h k

/-- A delimiter between two stretches. -/
theorem overwritten_between {xs ys xs' ys' : List UInt8} {c : UInt8} (hc : c ∈ delimiters)
    (h : List.Forall₂ Overwritten xs ys) (k : List.Forall₂ Overwritten xs' ys') :
    List.Forall₂ Overwritten (xs ++ c :: xs') (ys ++ 0 :: ys') :=
  overwritten_append h (.cons (.inr ⟨hc, rfl⟩) k)

theorem QueryView.overwritten {q q' : List UInt8} {ps : List TextPair} (h : QueryView q q' ps) :
    List.Forall₂ Overwritten q q' := by
  induction h with
  | none _ => exact overwritten_refl _
  | last _ _ => exact overwritten_between (by decide) (overwritten_refl _) (overwritten_refl _)
  | more _ _ _ ih =>
      exact overwritten_between (by decide) (overwritten_refl _)
        (overwritten_between (by decide) (overwritten_refl _) ih)

theorem TargetView.overwritten {t t' path : List UInt8} {ps : List TextPair}
    (h : TargetView t t' path ps) : List.Forall₂ Overwritten t t' := by
  cases h with
  | plain _ => exact overwritten_refl _
  | query _ hq => exact overwritten_between (by decide) (overwritten_refl _) hq.overwritten

theorem LineLayout.overwritten {mem : List UInt8} {t : Parse} (l : LineLayout mem t) :
    List.Forall₂ Overwritten mem t.mem := by
  have hline := overwritten_append (overwritten_refl l.name)
    (overwritten_append (overwritten_refl (List.replicate l.spaces ' '.toUInt8))
      (overwritten_between (c := ' '.toUInt8) (by decide) l.view.overwritten
        (overwritten_between (c := '\r'.toUInt8) (by decide) (overwritten_refl l.protocol)
          (overwritten_refl l.rest))))
  convert hline using 1
  · exact l.layout
  · exact l.result

theorem overwritten_set {mem : List UInt8} {i : Nat}
    (h : ∃ c ∈ 0 :: delimiters, mem[i]? = some c) :
    List.Forall₂ Overwritten mem (mem.set i 0) := by
  obtain ⟨c, hc, hget⟩ := h
  obtain ⟨hlt, rfl⟩ := List.getElem?_eq_some_iff.mp hget
  have hsplit : mem = mem.take i ++ mem[i] :: mem.drop (i + 1) := by
    rw [← List.drop_eq_getElem_cons hlt, List.take_append_drop]
  have hset := set_found mem (mem.take i) (mem.drop (i + 1)) hsplit
    (List.length_take_of_le (Nat.le_of_lt hlt)).symm 0
  have hbyte : Overwritten mem[i] 0 := by
    rcases List.mem_cons.mp hc with h0 | hd
    · exact .inl h0.symm
    · exact .inr ⟨hd, rfl⟩
  rw [hset]
  nth_rewrite 1 [hsplit]
  exact overwritten_append (overwritten_refl _) (.cons hbyte (overwritten_refl _))

/-- The places a line marks hold delimiters, or have been marked. -/
def HeaderField.Held (f : HeaderField) (mem : List UInt8) : Prop :=
  (∃ c ∈ 0 :: delimiters, mem[f.start + f.key.length]? = some c) ∧
    ∃ c ∈ 0 :: delimiters, mem[f.start + f.key.length + f.value.length + 1]? = some c

theorem held_set {mem : List UInt8} {i j : Nat} (h : ∃ c ∈ 0 :: delimiters, mem[i]? = some c) :
    ∃ c ∈ 0 :: delimiters, (mem.set j 0)[i]? = some c := by
  obtain ⟨c, hc, hget⟩ := h
  by_cases hij : j = i
  · subst hij
    exact ⟨0, by simp, List.getElem?_set_self (List.getElem?_eq_some_iff.mp hget).1⟩
  · exact ⟨c, hc, by rw [List.getElem?_set_ne hij, hget]⟩

theorem foldl_mark_overwritten {fields : List HeaderField} {mem : List UInt8}
    (h : ∀ f ∈ fields, f.Held mem) :
    List.Forall₂ Overwritten mem (fields.foldl HeaderField.mark mem) := by
  induction fields generalizing mem with
  | nil => exact overwritten_refl mem
  | cons f fields ih =>
      obtain ⟨hcolon, hcr⟩ := h f (by simp)
      refine overwritten_trans ((overwritten_trans (overwritten_set hcolon)
        (overwritten_set (held_set hcr)))) (ih fun g hg => ?_)
      obtain ⟨hcolon', hcr'⟩ := h g (by simp [hg])
      exact ⟨held_set (held_set hcolon'), held_set (held_set hcr')⟩

/-! The request line with more behind it. -/

theorem RecvBuf.take_received {b b' : RecvBuf} (h : b.bytes <+: b'.bytes) :
    b.received ≤ b'.received ∧ b'.mem.take b.received = b.mem.take b.received ∧
      b'.mem = b.bytes ++ b'.mem.drop b.received := by
  have hle := h.length_le
  rw [b.length_bytes, b'.length_bytes] at hle
  have htake : b'.mem.take b.received = b.mem.take b.received := by
    have heq := List.prefix_iff_eq_take.mp h
    rw [b.length_bytes, RecvBuf.bytes, RecvBuf.bytes, List.take_take, Nat.min_eq_left hle] at heq
    exact heq.symm
  refine ⟨hle, htake, ?_⟩
  rw [RecvBuf.bytes, ← htake, List.take_append_drop]

theorem LineLayout.extend {b b' : RecvBuf} {s : Parse} (l : LineLayout b.mem s)
    (hl : l.Checked b.received) (hext : b.bytes <+: b'.bytes) :
    ∃ s', httpParseRequestLine (Parse.start b'.mem) b'.received = .ok (true, s') ∧
      s'.mem.take b.received = s.mem.take b.received ∧ s'.ppbuf = s.ppbuf ∧ s'.req = s.req ∧
      ∃ l' : LineLayout b'.mem s', l'.path = l.path ∧ l'.protocol = l.protocol ∧
        l'.pairs = l.pairs := by
  obtain ⟨hle, htake, hmem⟩ := RecvBuf.take_received hext
  obtain ⟨hpp, hbytes⟩ := l.bytes_eq
  have hlt := b.received_lt
  have hlt' := b'.received_lt
  have hmax' := b'.capacity_lt
  have hend := l.ppbuf
  generalize hbehind : l.rest.take (b.received + 1 - s.ppbuf) = behind at hbytes
  generalize b'.mem.drop b.received = more at hmem
  have hlayout : b'.mem = l.name ++ (List.replicate l.spaces ' '.toUInt8 ++
      (l.target ++ ' '.toUInt8 :: (l.protocol ++ '\r'.toUInt8 :: (behind ++ more)))) := by
    rw [hmem, hbytes]
    simp
  have hrest : 0 ∈ behind ++ more := zero_mem_of_getLast (l.name ++ (List.replicate l.spaces
    ' '.toUInt8 ++ (l.target ++ ' '.toUInt8 :: l.protocol))) b'.getLast
    (hlayout.trans (by simp)) (c := '\r'.toUInt8) (by decide)
  have hfour := hl.method
  have hword : strToInt32 b'.mem 0 = .ok l.row.strn := by
    rw [← strToInt32_take (n := b.received) (by omega), htake, strToInt32_take (by omega), l.word]
  have hpath := hl.path
  have hprotocol := hl.protocol
  rw [sizeSub_of_le (by omega) (by omega)] at hpath hprotocol
  obtain ⟨s', hs', l', hrow, hname, hspaces, htarget, hmarked, hpath', hpairs, hprotocol', hrest'⟩ :=
    httpParseRequestLine_view l.row_mem b'.received hword l.name_length hlayout l.view
      l.target_slash l.target_space l.target_zero l.protocol_http l.protocol_cr l.protocol_zero
      hrest (by omega) (by omega)
      (by rw [sizeSub_of_le (by omega) (by omega)]; omega)
      (by rw [sizeSub_of_le (by omega) (by omega)]; omega)
  refine ⟨s', hs', ?_, ?_, ?_, l', hpath', hprotocol', hpairs⟩
  · generalize hfront : l.name ++ (List.replicate l.spaces ' '.toUInt8 ++
      (l.marked ++ 0 :: (l.protocol ++ [0]))) = front
    have hs : s.mem = front ++ l.rest := by
      rw [← hfront]
      exact l.result.trans (by simp)
    have hs' : s'.mem = front ++ (behind ++ more) := by
      rw [← hfront]
      refine l'.result.trans ?_
      rw [hname, hspaces, hmarked, hprotocol', hrest']
      simp
    have hlength : front.length + 1 = s.ppbuf := by
      have := l.view.length
      rw [hend, ← hfront]
      simp only [List.length_append, List.length_replicate, List.length_cons, List.length_nil]
      omega
    have hroom : behind.length = b.received + 1 - s.ppbuf := by
      have := congrArg List.length hs
      have := l.length_eq
      rw [← hbehind, List.length_take]
      simp only [List.length_append] at *
      omega
    rw [hs, hs', show b.received = front.length + behind.length by omega,
      List.take_length_add_append, List.take_length_add_append, List.take_left, hroom, hbehind]
  · rw [l'.ppbuf, hend, hname, hspaces, htarget, hprotocol']
  · rw [l'.req, l.req, hrow, hname, hspaces, htarget, hpath', hpairs]

/-! Both runs. -/

/-- What the run `t` changed of the buffer: delimiters only, and in front of the
place where the header stage stopped. -/
structure MarksOnly (b : RecvBuf) (t : Parse) : Prop where
  overwritten : List.Forall₂ Overwritten b.mem t.mem
  behind : t.mem.drop t.ppbuf = b.mem.drop t.ppbuf

/-- With `b'` received instead of `b` the request is parsed to the same pointers
and texts as in the run `t` over `b`, and neither run writes more than its marks. -/
def IgnoresBody (b b' : RecvBuf) (t : Parse) : Prop :=
  MarksOnly b t ∧ ∃ t', httpParseRequest (Parse.start b'.mem) b'.received = .ok (1, t') ∧
    t'.req = t.req ∧ (∀ p ∈ t.req.pointers, cString t'.mem p = cString t.mem p) ∧ MarksOnly b' t'

/-- All lines with a colon are recorded, nothing follows the last one's colon,
and no NUL is received behind it. -/
def OpenValue (fields : List HeaderField) : Prop :=
  fields.length ≤ 20 ∧ ∃ f, fields.getLast? = some f ∧ f.value = [] ∧ 0 ∉ f.behind

/-- A recorded line stands in the received bytes. -/
theorem RecvBuf.field_layout {b : RecvBuf} {start : Nat} {f : HeaderField}
    (hf : f ∈ b.fields start) :
    start ≤ f.start ∧ f.next ≤ b.received ∧ b.mem.drop f.start =
      (f.key ++ ':'.toUInt8 :: f.value) ++ '\r'.toUInt8 :: (f.behind ++ b.mem.drop b.received) := by
  obtain ⟨hle, hdrop⟩ := headerFields_layout.1 f hf
  rw [List.drop_drop, Nat.add_sub_cancel' hle] at hdrop
  have hlength := congrArg List.length hdrop
  simp only [List.length_drop, b.length_bytes, List.length_append, List.length_cons] at hlength
  refine ⟨hle, by simp only [HeaderField.next]; omega, ?_⟩
  have hbytes := b.length_bytes
  calc b.mem.drop f.start
      = (b.bytes ++ b.mem.drop b.received).drop f.start := congrArg _ b.mem_eq
    _ = _ := by
      rw [List.drop_append_of_le_length (by omega), hdrop, List.append_assoc, List.cons_append]

theorem HeadersParsed.drop_eq {b : RecvBuf} {s t : Parse} (h : HeadersParsed b s t) {p : Nat}
    (hp : s.ppbuf ≤ p) : s.mem.drop p = b.mem.drop p := by
  obtain ⟨l⟩ := httpParseRequestLine_layout b.getLast h.line
  rw [← Nat.sub_add_cancel hp, Nat.add_comm, ← List.drop_drop, ← List.drop_drop, l.drop_eq]

theorem HeadersParsed.held {b : RecvBuf} {s t : Parse} (h : HeadersParsed b s t) :
    ∀ f ∈ b.fields s.ppbuf, f.Held s.mem := by
  intro f hf
  obtain ⟨hle, -, hlayout⟩ := RecvBuf.field_layout hf
  have hdrop := (h.drop_eq hle).trans hlayout
  constructor
  · refine ⟨':'.toUInt8, by decide, ?_⟩
    rw [← List.getElem?_drop, hdrop]
    simp
  · refine ⟨'\r'.toUInt8, by decide, ?_⟩
    rw [Nat.add_assoc, Nat.add_assoc, ← List.getElem?_drop, hdrop,
      List.getElem?_append_right (by simp)]
    simp

theorem HeadersParsed.marksOnly {b : RecvBuf} {s t : Parse} (h : HeadersParsed b s t) :
    MarksOnly b t := by
  obtain ⟨l⟩ := httpParseRequestLine_layout b.getLast h.line
  have hle : s.ppbuf ≤ t.ppbuf := by
    obtain ⟨r, hr⟩ := h.headers
    obtain ⟨⟨q, u⟩, hloop, ht⟩ := bind_eq_ok.mp hr
    cases ht
    exact parseHeadersLoop_le hloop
  constructor
  · rw [h.section.mem]
    exact overwritten_trans l.overwritten (foldl_mark_overwritten h.held)
  · rw [h.section.mem, foldl_mark_drop h.section.stop, h.drop_eq hle]

theorem HeadersParsed.req {b : RecvBuf} {s t : Parse} (h : HeadersParsed b s t) :
    t.req = { s.req with
      headers := kvSetAll true s.req.headers ((b.fields s.ppbuf).map HeaderField.pair) } := by
  obtain ⟨r, hr⟩ := h.headers
  obtain ⟨⟨q, u⟩, hloop, ht⟩ := bind_eq_ok.mp hr
  have hheaders := h.section.headers
  cases ht
  obtain ⟨-, hmethod, hpath, hprotocol, hquery⟩ := parseHeadersLoop_same hloop (Nat.le_refl _)
  simp only at hheaders ⊢
  rw [← hmethod, ← hpath, ← hprotocol, ← hquery, ← hheaders]

/-- The run over the longer buffer: the same lines, pointers and marks. -/
theorem HeadersParsed.extend {b b' : RecvBuf} {s t : Parse} {ext : List UInt8}
    (h : HeadersParsed b s t)
    (hstop : headersStopShort b.received (b.received + 1) s.ppbuf s = .ok true)
    (hext : b.bytes ++ ext = b'.bytes) :
    ∃ s' t', HeadersParsed b' s' t' ∧
      httpParseRequest (Parse.start b'.mem) b'.received = .ok (1, t') ∧
      b'.fields s'.ppbuf = (b.fields s.ppbuf).map (HeaderField.extend ext) ∧
      t'.req = t.req ∧ t'.mem.take b.received = t.mem.take b.received ∧
      t.req.path.map (cString t'.mem) = t.req.path.map (cString t.mem) ∧
      t.req.protocol.map (cString t'.mem) = t.req.protocol.map (cString t.mem) ∧
      t.req.query.stored.map (Option.map (textsAt t'.mem)) =
        t.req.query.stored.map (Option.map (textsAt t.mem)) := by
  obtain ⟨l, hl⟩ := httpParseRequestLine_checked b.getLast h.line
  obtain ⟨s', hs', hmem, hpp, hreq, l', hpath, hprotocol, hpairs⟩ := l.extend hl ⟨ext, hext⟩
  obtain ⟨ret, t', ht', -⟩ := httpParseRequest_memory_safe b'
  obtain ⟨r', v, hheaders', rfl, rfl⟩ := httpParseRequest_line ht' hs'
  have h' : HeadersParsed b' s' v := ⟨hs', r', hheaders'⟩
  have hfields : b'.fields s'.ppbuf = (b.fields s.ppbuf).map (HeaderField.extend ext) := by
    have hshort : ShortLineReached (b.bytes.drop s.ppbuf) := by
      refine shortLineReached_of_stop l.received_eq
        (fun c hc => b.tail_zero (List.mem_of_mem_drop hc)) ?_ hstop
      have := b.capacity_lt
      rw [l.length_eq]
      omega
    have hlt := hshort.length_pos
    have hlength := b.length_bytes
    have hlength' := congrArg List.length hext
    rw [List.length_append, hlength, b'.length_bytes] at hlength'
    rw [List.length_drop] at hlt
    rw [RecvBuf.fields, RecvBuf.fields, hpp, ← hext, List.drop_append_of_le_length (by omega)]
    refine hshort.fields_extend ext ?_ ?_
    · rw [List.length_drop]
      omega
    · rw [List.length_drop]
      omega
  have hreq' : v.req = t.req := by
    rw [h'.req, h.req, hfields, hreq, List.map_map]
    rfl
  obtain ⟨r, hr⟩ := h.headers
  obtain ⟨-, hp, hpr, hq⟩ := l.texts hr
  obtain ⟨-, hp', hpr', hq'⟩ := l'.texts hheaders'
  rw [hreq'] at hp' hpr' hq'
  refine ⟨s', v, h', ht', hfields, hreq', ?_, ?_, ?_, ?_⟩
  · rw [h'.section.mem, h.section.mem, foldl_mark_take, foldl_mark_take, hmem, hfields,
      foldl_mark_extend]
  · rw [hp, hp', hpath]
  · rw [hpr, hpr', hprotocol]
  · rw [hq, hq', hpairs]

/-! The texts of the recorded lines. -/

section
variable {b b' : RecvBuf} {s t s' t' : Parse} {ext : List UInt8} {f : HeaderField}

/-- A later line's colon ends whatever text starts in front of it. -/
theorem HeadersParsed.text_before (h : HeadersParsed b s t)
    (hmem : t'.mem.take b.received = t.mem.take b.received) (hf : f ∈ b.fields s.ppbuf) {p : Nat}
    (hp : p ≤ f.start + f.key.length) : cString t'.mem p = cString t.mem p := by
  obtain ⟨-, hnext, -⟩ := RecvBuf.field_layout hf
  simp only [HeaderField.next] at hnext
  exact cString_take hmem (h.section.marked f hf).colon (by omega) hp

/-- What a value without text is taken to be: the bytes behind the last line. -/
theorem HeadersParsed.text_behind (h : HeadersParsed b s t) (hf : f ∈ b.fields s.ppbuf)
    (hlast : ∀ g ∈ b.fields s.ppbuf, g.next ≤ f.next) :
    t.mem.drop f.next = f.behind ++ b.mem.drop b.received := by
  obtain ⟨hle, -, hlayout⟩ := RecvBuf.field_layout hf
  rw [h.section.mem, foldl_mark_drop hlast, h.drop_eq (by simp only [HeaderField.next]; omega),
    show f.next = f.start + (f.key.length + f.value.length + 2) by
      simp only [HeaderField.next]; omega,
    ← List.drop_drop, hlayout, List.drop_append, List.drop_of_length_le (by simp; omega),
    List.nil_append,
    show f.key.length + f.value.length + 2 - (f.key ++ ':'.toUInt8 :: f.value).length = 1 by
      simp; omega]
  rfl

theorem takeWhile_zero_append {xs : List UInt8} (h : 0 ∉ xs) (ys : List UInt8) :
    (xs ++ ys).takeWhile (· != 0) = xs ++ ys.takeWhile (· != 0) := by
  refine List.takeWhile_append_of_pos fun c hc => ?_
  simpa using fun h0 : c = 0 => h (h0 ▸ hc)

/-- The text behind the last line is kept where a NUL ends it before the body. -/
theorem text_behind_same_iff {behind rest rest' mem mem' : List UInt8} {p : Nat} {c : UInt8}
    (hmem : mem.drop p = behind ++ 0 :: rest) (hmem' : mem'.drop p = behind ++ c :: rest') :
    cString mem' p = cString mem p ↔ (0 ∉ behind → c = 0) := by
  rw [cString, cString, hmem, hmem']
  by_cases h0 : 0 ∈ behind
  · obtain ⟨text, tail, rfl, htext⟩ := List.eq_append_cons_of_mem h0
    simp [takeWhile_zero_append htext]
  · rw [takeWhile_zero_append h0, takeWhile_zero_append h0]
    by_cases hc : c = 0
    · simp [hc]
    · simp [hc, h0]

/-- A run over the longer buffer that differs from the first in what is received only. -/
structure SameLines (b b' : RecvBuf) (s t s' t' : Parse) (ext : List UInt8) : Prop where
  parsed : HeadersParsed b s t
  parsed' : HeadersParsed b' s' t'
  bytes : b.bytes ++ ext = b'.bytes
  fields : b'.fields s'.ppbuf = (b.fields s.ppbuf).map (HeaderField.extend ext)
  mem : t'.mem.take b.received = t.mem.take b.received

/-- The value's text in both runs, for a line with more behind it or with a value. -/
theorem SameLines.value_same (h : SameLines b b' s t s' t' ext) (hf : f ∈ b.fields s.ppbuf)
    (hnot : f.value ≠ [] ∨ ∃ g ∈ b.fields s.ppbuf, f.next < g.start) :
    cString t'.mem f.pair.value = cString t.mem f.pair.value := by
  rcases hnot with hvalue | ⟨g, hg, hlt⟩
  · obtain ⟨c, v, hcv⟩ := List.exists_cons_of_ne_nil hvalue
    have hf' : f.extend ext ∈ b'.fields s'.ppbuf := by
      rw [h.fields]
      exact List.mem_map_of_mem hf
    exact ((h.parsed'.section.marked _ hf').value c v hcv).trans
      ((h.parsed.section.marked f hf).value c v hcv).symm
  · refine h.parsed.text_before h.mem hg ?_
    simp only [HeaderField.pair, HeaderField.next] at hlt ⊢
    omega

/-- The value's text in both runs, for a last line that ends at its colon. -/
theorem SameLines.open_same_iff (h : SameLines b b' s t s' t' ext) (hf : f ∈ b.fields s.ppbuf)
    (hlast : ∀ g ∈ b.fields s.ppbuf, g.next ≤ f.next) (hvalue : f.value = []) :
    cString t'.mem f.pair.value = cString t.mem f.pair.value ↔
      (0 ∉ f.behind → b'.mem[b.received]? = some 0) := by
  have hf' : f.extend ext ∈ b'.fields s'.ppbuf := by
    rw [h.fields]
    exact List.mem_map_of_mem hf
  have hlast' : ∀ g ∈ b'.fields s'.ppbuf, g.next ≤ (f.extend ext).next := by
    intro g hg
    rw [h.fields] at hg
    obtain ⟨g₀, hg₀, rfl⟩ := List.mem_map.mp hg
    exact hlast g₀ hg₀
  have hplace : f.pair.value = f.next := by simp [HeaderField.pair, HeaderField.next, hvalue]
  have hbody : b'.mem.drop b.received = ext ++ b'.mem.drop b'.received := by
    refine (congrArg (List.drop b.received) b'.mem_eq).trans ?_
    rw [← h.bytes, List.append_assoc, List.drop_left' b.length_bytes]
  have hmem' : t'.mem.drop f.next = f.behind ++ b'.mem.drop b.received := by
    rw [hbody, ← List.append_assoc]
    exact h.parsed'.text_behind hf' hlast'
  have hzero : b.mem[b.received]? = some 0 := b.zero_tail _ (Nat.le_refl _) b.received_lt
  obtain ⟨hlt, hget⟩ := List.getElem?_eq_some_iff.mp hzero
  have hlt' : b.received < b'.mem.length := by
    have hlength := congrArg List.length h.bytes
    have := b'.received_lt
    rw [List.length_append, b.length_bytes, b'.length_bytes] at hlength
    omega
  rw [hplace, text_behind_same_iff ((h.parsed.text_behind hf hlast).trans
    (by rw [List.drop_eq_getElem_cons hlt, hget])) (hmem'.trans
    (by rw [List.drop_eq_getElem_cons hlt'])), List.getElem?_eq_getElem hlt', Option.some.injEq]

/-- Every recorded value keeps its text unless the last one is open. -/
theorem SameLines.values_same_iff (h : SameLines b b' s t s' t' ext) :
    (∀ f ∈ (b.fields s.ppbuf).take 20,
        cString t'.mem f.pair.value = cString t.mem f.pair.value) ↔
      (OpenValue (b.fields s.ppbuf) → b'.mem[b.received]? = some 0) := by
  have hsame {f : HeaderField} := @SameLines.value_same b b' s t s' t' ext f h
  have hopen {f : HeaderField} := @SameLines.open_same_iff b b' s t s' t' ext f h
  have horder : (b.fields s.ppbuf).Pairwise fun f g => f.next < g.start := headerFields_layout.2
  generalize b.fields s.ppbuf = fields at *
  rw [List.pairwise_iff_getElem] at horder
  have hbefore : ∀ i j (hi : i < fields.length) (hj : j < fields.length), i ≤ j →
      fields[i].next ≤ fields[j].next := by
    intro i j hi hj hij
    rcases Nat.lt_or_eq_of_le hij with hlt | rfl
    · have := horder i j hi hj hlt
      simp only [HeaderField.next] at this ⊢
      omega
    · exact Nat.le_refl _
  constructor
  · rintro hall ⟨hroom, f, hf, hvalue, h0⟩
    rw [List.take_of_length_le hroom] at hall
    rw [List.getLast?_eq_getElem?] at hf
    obtain ⟨hlt, rfl⟩ := List.getElem?_eq_some_iff.mp hf
    refine (hopen (List.getElem_mem _) ?_ hvalue).mp (hall _ (List.getElem_mem _)) h0
    intro g hg
    obtain ⟨j, hj, rfl⟩ := List.getElem_of_mem hg
    exact hbefore j _ hj hlt (by omega)
  · intro hcond f hf
    obtain ⟨i, hi, rfl⟩ := List.getElem_of_mem hf
    rw [List.length_take] at hi
    rw [List.getElem_take]
    have hlt : i < fields.length := by omega
    by_cases hvalue : fields[i].value = []
    · by_cases hmore : i + 1 < fields.length
      · exact hsame (List.getElem_mem _) (.inr ⟨fields[i + 1], List.getElem_mem _,
          horder i (i + 1) hlt hmore (by omega)⟩)
      · refine (hopen (List.getElem_mem _) ?_ hvalue).mpr fun h0 => hcond ⟨by omega, fields[i], ?_,
          hvalue, h0⟩
        · intro g hg
          obtain ⟨j, hj, rfl⟩ := List.getElem_of_mem hg
          exact hbefore j i hj hlt (by omega)
        · rw [List.getLast?_eq_getElem?, show fields.length - 1 = i by omega]
          exact List.getElem?_eq_getElem hlt
    · exact hsame (List.getElem_mem _) (.inl hvalue)

end

/-- The pointers of a request are those of its line and the pairs of its header lines. -/
theorem SameLines.pointers_same_iff {b b' : RecvBuf} {s t s' t' : Parse} {ext : List UInt8}
    (h : SameLines b b' s t s' t' ext)
    (hpath : t.req.path.map (cString t'.mem) = t.req.path.map (cString t.mem))
    (hprotocol : t.req.protocol.map (cString t'.mem) = t.req.protocol.map (cString t.mem))
    (hquery : t.req.query.stored.map (Option.map (textsAt t'.mem)) =
      t.req.query.stored.map (Option.map (textsAt t.mem))) :
    (∀ p ∈ t.req.pointers, cString t'.mem p = cString t.mem p) ↔
      ∀ f ∈ (b.fields s.ppbuf).take 20,
        cString t'.mem f.pair.value = cString t.mem f.pair.value := by
  have hheaders (p : Nat) : p ∈ t.req.headers.pointers ↔
      ∃ f ∈ (b.fields s.ppbuf).take 20, p = f.pair.key ∨ p = f.pair.value := by
    rw [Kv.mem_pointers, h.parsed.stored]
    constructor
    · rintro ⟨q, hq, hp⟩
      obtain ⟨f, hf, hpair⟩ := List.mem_map.mp hq
      cases hpair
      exact ⟨f, hf, hp⟩
    · rintro ⟨f, hf, hp⟩
      exact ⟨f.pair, List.mem_map.mpr ⟨f, hf, rfl⟩, hp⟩
  constructor
  · intro hall f hf
    refine hall _ ?_
    simp only [HttpRequest.pointers, List.mem_append, hheaders]
    exact .inr ⟨f, hf, .inr rfl⟩
  · intro hall p hp
    simp only [HttpRequest.pointers, List.mem_append, hheaders, Option.mem_toList] at hp
    rcases hp with ((hp | hp) | hp) | ⟨f, hf, rfl | rfl⟩
    · simpa [hp] using hpath
    · simpa [hp] using hprotocol
    · obtain ⟨q, hq, hp⟩ := Kv.mem_pointers.mp hp
      have htexts := List.map_inj_left.mp hquery _ hq
      obtain ⟨hkey, hvalue⟩ := Prod.mk.inj (Option.some.inj htexts)
      rcases hp with rfl | rfl
      · exact hkey
      · exact hvalue
    · exact h.parsed.text_before h.mem (List.mem_of_mem_take hf) (Nat.le_add_right _ _)
    · exact hall f hf

/-- The body leaves the parse alone exactly when no open value runs into it. -/
theorem httpParseRequest_ignores_body_iff (b b' : RecvBuf) (s t : Parse)
    (h : HeadersParsed b s t)
    (hstop : headersStopShort b.received (b.received + 1) s.ppbuf s = .ok true)
    (hext : b.bytes <+: b'.bytes) :
    IgnoresBody b b' t ↔ (OpenValue (b.fields s.ppbuf) → b'.mem[b.received]? = some 0) := by
  obtain ⟨ext, hext⟩ := hext
  obtain ⟨s', t', h', ht', hfields, hreq, hmem, hpath, hprotocol, hquery⟩ := h.extend hstop hext
  have hlines : SameLines b b' s t s' t' ext := ⟨h, h', hext, hfields, hmem⟩
  rw [← hlines.values_same_iff, ← hlines.pointers_same_iff hpath hprotocol hquery]
  constructor
  · rintro ⟨-, u, hu, -, htexts, -⟩
    obtain ⟨-, rfl⟩ := Prod.mk.inj (Except.ok.inj (hu.symm.trans ht'))
    exact htexts
  · exact fun htexts => ⟨h.marksOnly, t', ht', hreq, htexts, h'.marksOnly⟩

def spacedBody : RecvBuf :=
  textExample "GET / HTTP/1.1\r\nHost: a\r\n\r\nx" (by decide) (by decide)

def openHeader : RecvBuf :=
  textExample "GET / HTTP/1.1\r\nHost:\r\n\r\n" (by decide) (by decide)

def openBody : RecvBuf :=
  textExample "GET / HTTP/1.1\r\nHost:\r\n\r\nx" (by decide) (by decide)

theorem exists_stopsShort {b : RecvBuf} {β : Type} {f : Parse → β} {v : β}
    (h : ((httpParseRequestLine (Parse.start b.mem) b.received).toOption.bind fun line =>
      (httpParseHeaders line.2 b.received).toOption.map fun headers =>
        (line.1, ((headersStopShort b.received (b.received + 1) line.2.ppbuf line.2).toOption,
          f headers.2))) = some (true, (some true, v))) :
    ∃ s t, HeadersParsed b s t ∧
      headersStopShort b.received (b.received + 1) s.ppbuf s = .ok true ∧ f t = v := by
  obtain ⟨s, t, hst, hview⟩ := exists_headersParsed (f := fun s t =>
    ((headersStopShort b.received (b.received + 1) s.ppbuf s).toOption, f t)) h
  obtain ⟨hstop, hv⟩ := Prod.mk.inj hview
  obtain ⟨r, hr, rfl⟩ := exists_of_map_toOption (f := id) (by rw [hstop]; rfl)
  exact ⟨s, t, hst, hr, hv⟩

theorem httpParseRequest_ignores_body_spaced :
    ∃ s t, HeadersParsed spacedHeader s t ∧
      headersStopShort spacedHeader.received (spacedHeader.received + 1) s.ppbuf s = .ok true ∧
      spacedHeader.bytes <+: spacedBody.bytes ∧
      (IgnoresBody spacedHeader spacedBody t ↔
        (OpenValue (spacedHeader.fields s.ppbuf) →
          spacedBody.mem[spacedHeader.received]? = some 0)) := by
  have hext : spacedHeader.bytes <+: spacedBody.bytes := by decide +kernel
  obtain ⟨s, t, h, hstop, -⟩ := exists_stopsShort (b := spacedHeader) (f := fun t => t.ppbuf)
    (v := 25) (by decide +kernel)
  exact ⟨s, t, h, hstop, hext,
    httpParseRequest_ignores_body_iff spacedHeader spacedBody s t h hstop hext⟩

/-- The value of `Host:` is the bytes behind its line, and then the body. -/
theorem httpParseRequest_not_ignores_body :
    ∃ s t, HeadersParsed openHeader s t ∧
      headersStopShort openHeader.received (openHeader.received + 1) s.ppbuf s = .ok true ∧
      openHeader.bytes <+: openBody.bytes ∧ ¬ IgnoresBody openHeader openBody t := by
  obtain ⟨s, t, h, hstop, hview⟩ := exists_stopsShort (b := openHeader)
    (f := fun t => decide (22 ∈ t.req.pointers ∧ cString t.mem 22 = ascii "\n\r\n")) (v := true)
    (by decide +kernel)
  obtain ⟨hpointer, htext⟩ := of_decide_eq_true hview
  refine ⟨s, t, h, hstop, by decide +kernel, ?_⟩
  rintro ⟨-, t', ht', -, htexts, -⟩
  have hbody : (httpParseRequest (Parse.start openBody.mem) openBody.received).toOption.map
      (fun r => cString r.2.mem 22) = some (ascii "\n\r\nx") := by decide +kernel
  rw [ht'] at hbody
  have hsame : ascii "\n\r\nx" = ascii "\n\r\n" :=
    (Option.some.inj hbody).symm.trans ((htexts 22 hpointer).trans htext)
  exact absurd hsame (by decide)

end L4Server
