import L4Server.AcceptedRequest
import Mathlib.Data.List.Forall2

/-!
The header section as its lines. A line runs to the next CR in front of any NUL;
the byte behind the CR is passed over unseen. A line with a colon is recorded,
its value taken to start two bytes behind the colon, whatever stands there.
-/
namespace L4Server
open CMemory

/-! One turn of the loop. -/

/-- A line of at least `sizeof("H: V")` bytes. -/
def LongLine (line : List UInt8) : Prop := sizeofLit "H: V" ≤ line.length

instance (line : List UInt8) : Decidable (LongLine line) :=
  inferInstanceAs (Decidable (sizeofLit "H: V" ≤ line.length))

section
variable {line front rest : List UInt8} {s : Parse} {start : Nat} (bufend fuel : Nat)

/-- Where no CR is found the loop ends in front of the line. -/
theorem parseHeadersLoop_noCr (hcr : '\r'.toUInt8 ∉ line) (h0 : 0 ∉ line)
    (hmem : s.mem = front ++ (line ++ 0 :: rest)) (hstart : start = front.length) :
    parseHeadersLoop bufend (fuel + 1) start s = .ok (start, s) := by
  have hnone : strchr s.mem start '\r'.toUInt8 = .ok none :=
    (strchr_eq_none_iff (by decide) _ _).mpr ⟨line, rest, by simp [hmem, hstart], hcr, h0⟩
  unfold parseHeadersLoop
  split
  · simp only [hnone, bind, Except.bind]
  · rfl

theorem strchr_line (hcr : '\r'.toUInt8 ∉ line) (h0 : 0 ∉ line)
    (hmem : s.mem = front ++ (line ++ '\r'.toUInt8 :: rest)) (hstart : start = front.length) :
    strchr s.mem start '\r'.toUInt8 = .ok (some (start + line.length)) :=
  strchr_found front line rest hmem hstart hcr h0

theorem sizeSub_line (hn : start + line.length < 2 ^ 64) :
    sizeSub (start + line.length) start < sizeofLit "H: V" ↔ ¬ LongLine line := by
  rw [sizeSub_of_le (Nat.le_add_right _ _) hn, Nat.add_sub_cancel_left]
  exact Nat.not_le.symm

/-- A short line is taken for the end of the section. -/
theorem parseHeadersLoop_shortLine (hcr : '\r'.toUInt8 ∉ line) (h0 : 0 ∉ line)
    (hshort : ¬ LongLine line) (hmem : s.mem = front ++ (line ++ '\r'.toUInt8 :: rest))
    (hstart : start = front.length) (hend : start < bufend) (hn : start + line.length < 2 ^ 64) :
    parseHeadersLoop bufend (fuel + 1) start s = .ok (start + line.length, s) := by
  rw [parseHeadersLoop, if_pos hend]
  simp only [strchr_line hcr h0 hmem hstart, bind, Except.bind]
  rw [if_pos ((sizeSub_line hn).mpr hshort)]

/-- A line without a colon is passed over. -/
theorem parseHeadersLoop_plain (hcr : '\r'.toUInt8 ∉ line) (h0 : 0 ∉ line)
    (hcolon : ':'.toUInt8 ∉ line) (hlong : LongLine line)
    (hmem : s.mem = front ++ (line ++ '\r'.toUInt8 :: rest)) (hrest : 0 ∈ rest)
    (hstart : start = front.length) (hend : start < bufend) (hn : start + line.length < 2 ^ 64) :
    parseHeadersLoop bufend (fuel + 1) start s =
      parseHeadersLoop bufend fuel (start + line.length + 2) s := by
  obtain ⟨r, hr, hout⟩ := strchr_skip s.mem front hmem hstart hcolon
    (List.mem_cons_of_mem '\r'.toUInt8 hrest)
  have hrecord : recordHeader s start (start + line.length) r = .ok s := by
    cases r with
    | none => rfl
    | some i => exact if_neg (Nat.not_lt.mpr (hout i rfl))
  rw [parseHeadersLoop, if_pos hend]
  simp only [strchr_line hcr h0 hmem hstart, bind, Except.bind]
  rw [if_neg (fun h => (sizeSub_line hn).mp h hlong)]
  simp only [hr, hrecord]

/-- A line with a colon is recorded; colon and CR are overwritten. -/
theorem parseHeadersLoop_field {key value : List UInt8} (hkey : ':'.toUInt8 ∉ key)
    (hcr : '\r'.toUInt8 ∉ key ++ ':'.toUInt8 :: value) (h0 : 0 ∉ key ++ ':'.toUInt8 :: value)
    (hlong : LongLine (key ++ ':'.toUInt8 :: value))
    (hmem : s.mem = front ++ ((key ++ ':'.toUInt8 :: value) ++ '\r'.toUInt8 :: rest))
    (hstart : start = front.length) (hend : start < bufend)
    (hn : start + (key ++ ':'.toUInt8 :: value).length < 2 ^ 64) :
    ∃ t, t.mem = front ++ ((key ++ 0 :: value) ++ 0 :: rest) ∧
      t.req = { s.req with
        headers := (kvSetKeyValue true s.req.headers start (start + key.length + 2)).2 } ∧
      parseHeadersLoop bufend (fuel + 1) start s =
        parseHeadersLoop bufend fuel (start + (key ++ ':'.toUInt8 :: value).length + 2) t := by
  have hlength : (key ++ ':'.toUInt8 :: value).length = key.length + value.length + 1 := by
    simp only [List.length_append, List.length_cons]
    omega
  have hcolon : strchr s.mem start ':'.toUInt8 = .ok (some (start + key.length)) :=
    strchr_found front key (value ++ '\r'.toUInt8 :: rest) (by simp [hmem]) hstart hkey
      fun h => h0 (by simp [h])
  obtain ⟨u, hu, humem, hureq, -⟩ := s.store_found (front ++ key) (value ++ '\r'.toUInt8 :: rest)
    (b := ':'.toUInt8) (p := start + key.length) (by simp [hmem]) (by simp [hstart]) 0
  obtain ⟨w, hw, hwmem, hwreq, -⟩ := u.store_found (front ++ (key ++ 0 :: value)) rest
    (b := '\r'.toUInt8) (p := start + (key ++ ':'.toUInt8 :: value).length)
    (by simp [humem]) (by simp [hstart]) 0
  have hrecord : recordHeader s start (start + (key ++ ':'.toUInt8 :: value).length)
      (some (start + key.length)) = .ok (w.setHeader start (start + key.length + 2)) := by
    simp only [recordHeader]
    rw [if_pos (by omega)]
    simp only [hu, hw, bind, Except.bind, pure, Except.pure]
  refine ⟨w.setHeader start (start + key.length + 2), ?_, ?_, ?_⟩
  · simp [Parse.setHeader, hwmem]
  · simp [Parse.setHeader, hwreq, hureq]
  · rw [parseHeadersLoop, if_pos hend]
    simp only [strchr_line hcr h0 hmem hstart, bind, Except.bind]
    rw [if_neg (fun h => (sizeSub_line hn).mp h hlong)]
    simp only [hcolon, hrecord]

end

/-! The lines of a section. -/

/-- A header line with a colon: where it starts, what stands in front of the
first colon and behind it, and what is received behind the line's CR. -/
structure HeaderField where
  start : Nat
  key : List UInt8
  value : List UInt8
  behind : List UInt8
  deriving DecidableEq

/-- A search for the CR of a line passes over the byte. -/
def inLine (c : UInt8) : Bool := c != '\r'.toUInt8 && c != 0

def fieldsOfLine (start : Nat) (line behind : List UInt8) : List HeaderField :=
  if ':'.toUInt8 ∈ line then
    [⟨start, line.takeWhile (· != ':'.toUInt8), (line.dropWhile (· != ':'.toUInt8)).drop 1, behind⟩]
  else []

/-- The lines with a colon in front of the end of the section, in the received
bytes from `start` on. -/
def headerFields : Nat → Nat → List UInt8 → List HeaderField
  | 0, _, _ => []
  | fuel + 1, start, bytes =>
      let line := bytes.takeWhile inLine
      match bytes.dropWhile inLine with
      | [] => []
      | c :: behind =>
          if c = '\r'.toUInt8 ∧ LongLine line then
            fieldsOfLine start line behind ++
              headerFields fuel (start + line.length + 2) (behind.drop 1)
          else []

/-- The pair the loop records for a line. -/
def HeaderField.pair (f : HeaderField) : KvPair Nat := ⟨f.start, f.start + f.key.length + 2⟩

/-- The place behind the line's CR. -/
def HeaderField.next (f : HeaderField) : Nat := f.start + f.key.length + f.value.length + 2

/-- The block once the line's colon and CR are overwritten. -/
def HeaderField.mark (mem : List UInt8) (f : HeaderField) : List UInt8 :=
  (mem.set (f.start + f.key.length) 0).set (f.start + f.key.length + f.value.length + 1) 0

/-- A recorded line in the parsed block. -/
structure HeaderField.Marked (f : HeaderField) (mem : List UInt8) : Prop where
  key : cString mem f.start = f.key
  value : ∀ c v, f.value = c :: v → cString mem (f.start + f.key.length + 2) = v
  colon : mem[f.start + f.key.length]? = some 0
  cr : mem[f.start + f.key.length + f.value.length + 1]? = some 0
  next : mem[f.next]? = some (f.behind.headD 0)

theorem notMem_takeWhile_inLine (bytes : List UInt8) :
    '\r'.toUInt8 ∉ bytes.takeWhile inLine ∧ 0 ∉ bytes.takeWhile inLine :=
  ⟨fun h => absurd (List.mem_takeWhile_imp h) (by decide),
    fun h => absurd (List.mem_takeWhile_imp h) (by decide)⟩

/-- A line is its key, a colon and its value. -/
theorem fieldsOfLine_cases (start : Nat) (line behind : List UInt8) :
    (':'.toUInt8 ∉ line ∧ fieldsOfLine start line behind = []) ∨
      ∃ key value, line = key ++ ':'.toUInt8 :: value ∧ ':'.toUInt8 ∉ key ∧
        fieldsOfLine start line behind = [⟨start, key, value, behind⟩] := by
  by_cases h : ':'.toUInt8 ∈ line
  · obtain ⟨key, value, rfl, hkey⟩ := List.eq_append_cons_of_mem h
    have hfree : ∀ c ∈ key, (c != ':'.toUInt8) = true := by
      intro c hc
      simpa using fun heq : c = ':'.toUInt8 => hkey (heq ▸ hc)
    refine .inr ⟨key, value, rfl, hkey, ?_⟩
    rw [fieldsOfLine, if_pos h, List.takeWhile_append_of_pos hfree,
      List.dropWhile_append_of_pos hfree, List.takeWhile_cons_of_neg (by simp),
      List.dropWhile_cons_of_neg (by simp), List.append_nil]
    rfl
  · exact .inl ⟨h, if_neg h⟩

/-- What the loop makes of a section when it ends at `q`. -/
structure SectionRead (s t : Parse) (q : Nat) (fields : List HeaderField) : Prop where
  headers : t.req.headers = kvSetAll true s.req.headers (fields.map HeaderField.pair)
  marked : ∀ f ∈ fields, f.Marked t.mem
  mem : t.mem = fields.foldl HeaderField.mark s.mem
  stop : ∀ f ∈ fields, f.next ≤ q

theorem SectionRead.nil (s : Parse) (q : Nat) : SectionRead s s q [] :=
  ⟨rfl, by simp, rfl, by simp⟩

/-- The byte behind a line's CR is received, or one of the zeros behind. -/
theorem exists_skip (behind : List UInt8) {tail : List UInt8} (htail : ∀ c ∈ tail, c = 0) (hne : tail ≠ []) :
    ∃ tail', behind ++ tail = behind.headD 0 :: (behind.drop 1 ++ tail') ∧
      (∀ c ∈ tail', c = 0) ∧ (behind.drop 1 ≠ [] → tail' ≠ []) := by
  cases behind with
  | nil =>
      obtain ⟨z, tail', rfl⟩ := List.exists_cons_of_ne_nil hne
      obtain rfl : z = 0 := htail z (by simp)
      exact ⟨tail', rfl, fun c hc => htail c (by simp [hc]), fun h => absurd rfl h⟩
  | cons b behind => exact ⟨tail, rfl, htail, fun _ => hne⟩

theorem headerFields_nil (fuel start : Nat) : headerFields fuel start [] = [] := by
  cases fuel <;> rfl

/-- One line and the lines behind it. -/
theorem SectionRead.cons {s u t : Parse} {q : Nat} {f : HeaderField} {fields : List HeaderField}
    (hread : SectionRead u t q fields)
    (hheaders : u.req.headers = (kvSetKeyValue true s.req.headers f.pair.key f.pair.value).2)
    (hmarked : f.Marked t.mem) (hmem : u.mem = f.mark s.mem) (hstop : f.next ≤ q) :
    SectionRead s t q (f :: fields) where
  headers := by rw [hread.headers, hheaders]; rfl
  marked := by
    intro g hg
    rcases List.mem_cons.mp hg with rfl | hg
    · exact hmarked
    · exact hread.marked g hg
  mem := by rw [hread.mem, hmem]; rfl
  stop := by
    intro g hg
    rcases List.mem_cons.mp hg with rfl | hg
    · exact hstop
    · exact hread.stop g hg

/-- A line laid out in the block with its colon and CR overwritten. -/
theorem marked_of_layout {f : HeaderField} {front rest mem : List UInt8}
    (hmem : mem = front ++ ((f.key ++ 0 :: f.value) ++ 0 :: f.behind.headD 0 :: rest))
    (hstart : f.start = front.length) (h0 : 0 ∉ f.key ++ ':'.toUInt8 :: f.value) :
    f.Marked mem where
  key := cString_eq front _ (by simpa using hmem) hstart fun h => h0 (by simp [h])
  value := by
    intro c v hv
    refine cString_eq (front ++ (f.key ++ [0, c])) (f.behind.headD 0 :: rest) ?_
      (by simp [hstart]; omega) fun h => h0 (by simp [hv, h])
    simp [hmem, hv]
  colon := by
    rw [hmem, hstart]
    simp
  cr := by
    rw [hmem, hstart, List.getElem?_append_right (by omega),
      List.getElem?_append_right (by simp; omega)]
    rw [show front.length + f.key.length + f.value.length + 1 - front.length -
      (f.key ++ 0 :: f.value).length = 0 by simp; omega]
    rfl
  next := by
    rw [hmem, HeaderField.next, hstart, List.getElem?_append_right (by omega),
      List.getElem?_append_right (by simp; omega)]
    rw [show front.length + f.key.length + f.value.length + 2 - front.length -
      (f.key ++ 0 :: f.value).length = 1 by simp; omega]
    rfl

theorem mark_layout (front rest key value behind : List UInt8) :
    (HeaderField.mk front.length key value behind).mark
        (front ++ ((key ++ ':'.toUInt8 :: value) ++ '\r'.toUInt8 :: rest)) =
      front ++ ((key ++ 0 :: value) ++ 0 :: rest) := by
  have hcolon := set_found (front ++ ((key ++ ':'.toUInt8 :: value) ++ '\r'.toUInt8 :: rest))
    (front ++ key) (value ++ '\r'.toUInt8 :: rest) (b := ':'.toUInt8)
    (p := front.length + key.length) (by simp) (by simp) 0
  have hcr := set_found (front ++ key ++ 0 :: (value ++ '\r'.toUInt8 :: rest))
    (front ++ (key ++ 0 :: value)) rest (b := '\r'.toUInt8)
    (p := front.length + key.length + value.length + 1) (by simp) (by simp; omega) 0
  rw [HeaderField.mark, hcolon, hcr]
  simp

theorem parseHeadersLoop_le {bufend fuel start q : Nat} {s t : Parse}
    (h : parseHeadersLoop bufend fuel start s = .ok (q, t)) : start ≤ q := by
  induction fuel generalizing start s with
  | zero => cases h
  | succ fuel ih =>
      unfold parseHeadersLoop at h
      split at h
      · obtain ⟨r, hr, h⟩ := bind_eq_ok.mp h
        cases r with
        | none =>
            cases h
            exact Nat.le_refl _
        | some eol =>
            have heol := (strchr_some_bounds hr).1
            simp only at h
            split at h
            · cases h
              exact heol
            · obtain ⟨sep, -, h⟩ := bind_eq_ok.mp h
              obtain ⟨u, -, h⟩ := bind_eq_ok.mp h
              have := ih h
              omega
      · cases h
        exact Nat.le_refl _

/-- What is in front of a line stays. -/
theorem parseHeadersLoop_prefix {bufend fuel p q : Nat} {u t : Parse} (front later : List UInt8)
    (h : parseHeadersLoop bufend fuel p u = .ok (q, t)) (hmem : u.mem = front ++ later)
    (hp : front.length = p) : ∃ rest, t.mem = front ++ rest := by
  have hkept := (parseHeadersLoop_same h (Nat.le_of_eq hp)).mem
  rw [hmem, List.take_left] at hkept
  obtain ⟨rest, hrest⟩ := List.prefix_iff_eq_take.mpr hkept.symm
  exact ⟨rest, hrest.symm⟩

/-- A recorded line, when the lines behind it have been read. -/
theorem SectionRead.record {bufend fuel start q : Nat} {s u t : Parse}
    {front key value behind later : List UInt8} {fields : List HeaderField}
    (hread : SectionRead u t q fields) (h0 : 0 ∉ key ++ ':'.toUInt8 :: value)
    (hmem : s.mem = front ++
      ((key ++ ':'.toUInt8 :: value) ++ '\r'.toUInt8 :: behind.headD 0 :: later))
    (humem : u.mem = front ++ ((key ++ 0 :: value) ++ 0 :: behind.headD 0 :: later))
    (hureq : u.req = { s.req with
      headers := (kvSetKeyValue true s.req.headers start (start + key.length + 2)).2 })
    (hstart : start = front.length)
    (h : parseHeadersLoop bufend fuel (start + (key ++ ':'.toUInt8 :: value).length + 2) u =
      .ok (q, t)) :
    SectionRead s t q (⟨start, key, value, behind⟩ :: fields) := by
  obtain ⟨rest, hfinal⟩ := parseHeadersLoop_prefix
    (front ++ ((key ++ 0 :: value) ++ [0, behind.headD 0])) later h (by rw [humem]; simp) (by
      simp only [hstart, List.length_append, List.length_cons, List.length_nil]
      omega)
  have hlayout : t.mem = front ++ ((key ++ 0 :: value) ++ 0 :: behind.headD 0 :: rest) := by
    rw [hfinal]
    simp
  have hstop := parseHeadersLoop_le h
  refine hread.cons (by rw [hureq]; rfl) (marked_of_layout hlayout hstart h0) ?_ ?_
  · rw [humem, hmem, hstart, mark_layout]
  · simp only [HeaderField.next, List.length_append, List.length_cons] at hstop ⊢
    omega

theorem parseHeadersLoop_fields {bufend fuel start q : Nat} {s t : Parse}
    {bytes tail : List UInt8} (fuel' : Nat) (front : List UInt8) (hmem : s.mem = front ++ (bytes ++ tail))
    (hstart : start = front.length) (hend : bytes.length = bufend - start)
    (hfuel : bytes.length ≤ fuel') (htail : ∀ c ∈ tail, c = 0) (hne : bytes ≠ [] → tail ≠ [])
    (hn : bufend < 2 ^ 64) (h : parseHeadersLoop bufend fuel start s = .ok (q, t)) :
    SectionRead s t q (headerFields fuel' start bytes) := by
  induction fuel generalizing start s front bytes tail fuel' with
  | zero => cases h
  | succ fuel ih =>
      by_cases hnil : bytes = []
      · subst hnil
        rw [parseHeadersLoop, if_neg (by simp at hend; omega)] at h
        cases h
        rw [headerFields_nil]
        exact .nil _ _
      have hpos := List.length_pos_iff.mpr hnil
      obtain ⟨fuel', rfl⟩ : ∃ f, fuel' = f + 1 := ⟨fuel' - 1, by omega⟩
      have htailne := hne hnil
      obtain ⟨z, tail₁, htail₁⟩ := List.exists_cons_of_ne_nil htailne
      obtain rfl : z = 0 := htail z (by simp [htail₁])
      obtain ⟨hcr, h0⟩ := notMem_takeWhile_inLine bytes
      have hsplit : bytes = bytes.takeWhile inLine ++ bytes.dropWhile inLine :=
        List.takeWhile_append_dropWhile.symm
      have hhead := List.head?_dropWhile_not inLine bytes
      unfold headerFields
      simp only
      generalize bytes.takeWhile inLine = line at *
      generalize bytes.dropWhile inLine = after at *
      cases after with
      | nil =>
          rw [List.append_nil] at hsplit
          subst hsplit
          rw [parseHeadersLoop_noCr bufend fuel hcr h0 (by rw [hmem, htail₁]) hstart] at h
          cases h
          exact .nil _ _
      | cons c behind =>
          have hc : c = '\r'.toUInt8 ∨ c = 0 := by
            by_contra hnot
            simp only [not_or] at hnot
            simp [inLine, hnot.1, hnot.2] at hhead
          have hlength := congrArg List.length hsplit
          simp only [List.length_append, List.length_cons] at hlength
          have hlayout : s.mem = front ++ (line ++ c :: (behind ++ tail)) := by
            rw [hmem, hsplit]
            simp
          rcases hc with rfl | rfl
          · simp only [true_and]
            obtain ⟨tail', hskip, htail', hne'⟩ := exists_skip behind htail htailne
            have hend' : (behind.drop 1).length = bufend - (start + line.length + 2) := by
              rw [List.length_drop]
              omega
            have hfuel' : (behind.drop 1).length ≤ fuel' := by
              rw [List.length_drop]
              omega
            by_cases hlong : LongLine line
            · rw [if_pos hlong]
              rcases fieldsOfLine_cases start line behind with ⟨hcolon, hfields⟩ |
                ⟨key, value, rfl, hkey, hfields⟩
              · rw [hfields, List.nil_append]
                rw [parseHeadersLoop_plain bufend fuel hcr h0 hcolon hlong hlayout
                  (List.mem_append_right _ (by simp [htail₁])) hstart (by omega) (by omega)] at h
                exact ih fuel' (front ++ (line ++ ['\r'.toUInt8, behind.headD 0]))
                  (by rw [hlayout, hskip]; simp) (by simp [hstart]; omega) hend' hfuel' htail' hne' h
              · rw [hfields, List.singleton_append]
                obtain ⟨u, humem, hureq, hloop⟩ := parseHeadersLoop_field bufend fuel hkey hcr h0
                  hlong hlayout hstart (by omega) (by omega)
                rw [hloop] at h
                rw [hskip] at humem hlayout
                have hread := ih fuel'
                  (front ++ ((key ++ 0 :: value) ++ [0, behind.headD 0]))
                  (by rw [humem]; simp) (by simp [hstart]; omega) hend' hfuel' htail' hne' h
                exact hread.record h0 hlayout humem hureq hstart h
            · rw [if_neg hlong]
              rw [parseHeadersLoop_shortLine bufend fuel hcr h0 hlong hlayout hstart (by omega)
                (by omega)] at h
              cases h
              exact .nil _ _
          · rw [parseHeadersLoop_noCr bufend fuel hcr h0 hlayout hstart] at h
            cases h
            exact .nil _ _

/-! The section of a received request. -/

/-- The header lines with a colon in what is received from `start` on. -/
def RecvBuf.fields (b : RecvBuf) (start : Nat) : List HeaderField :=
  headerFields b.received start (b.bytes.drop start)

/-- The state in front of the headers, and that behind them. -/
structure HeadersParsed (b : RecvBuf) (s t : Parse) : Prop where
  line : httpParseRequestLine (Parse.start b.mem) b.received = .ok (true, s)
  headers : ∃ r, httpParseHeaders s b.received = .ok (r, t)

theorem HeadersParsed.section {b : RecvBuf} {s t : Parse} (h : HeadersParsed b s t) :
    SectionRead s t t.ppbuf (b.fields s.ppbuf) := by
  obtain ⟨l⟩ := httpParseRequestLine_layout b.getLast h.line
  obtain ⟨r, hr⟩ := h.headers
  obtain ⟨⟨q, u⟩, hloop, ht⟩ := bind_eq_ok.mp hr
  cases ht
  have hlength := b.length_bytes
  have hlt := b.received_lt
  have hmax := b.capacity_lt
  have hmem : s.mem = s.mem.take s.ppbuf ++
      (b.bytes.drop s.ppbuf ++ (b.mem.drop b.received).drop (s.ppbuf - b.received)) := by
    rw [← l.received_eq, List.take_append_drop]
  have hfront : s.ppbuf = (s.mem.take s.ppbuf).length := by
    have hbehind : s.ppbuf ≤ s.mem.length := by
      have := l.bytes_eq.1
      have := l.length_eq
      omega
    rw [List.length_take, Nat.min_eq_left hbehind]
  have hread := parseHeadersLoop_fields b.received _ hmem hfront
    (by rw [List.length_drop, hlength]) (by rw [List.length_drop, hlength]; omega) ?_ ?_ (by omega)
    hloop
  · exact ⟨hread.headers, hread.marked, hread.mem, hread.stop⟩
  · exact fun c hc => b.tail_zero (List.mem_of_mem_drop hc)
  · intro hne
    have hpos := List.length_pos_iff.mpr hne
    rw [List.length_drop, hlength] at hpos
    refine List.ne_nil_of_length_pos ?_
    simp only [List.length_drop]
    omega

/-- The pair holds the line's key, and its value less at most one leading space. -/
def HeaderField.ReadAs (f : HeaderField) (mem : List UInt8) (p : KvPair Nat) : Prop :=
  cString mem p.key = f.key ∧
    (cString mem p.value = f.value ∨ f.value = ' '.toUInt8 :: cString mem p.value)

/-- The recorded pairs are those of the lines, one for one, as far as there is room. -/
def HeadersInLines (fields : List HeaderField) (t : Parse) : Prop :=
  List.Forall₂ (fun p f => ∃ pair, p = some pair ∧ HeaderField.ReadAs f t.mem pair)
    t.req.headers.stored (fields.take 20)

/-- A space follows the colon; or nothing does, and a NUL, or the end of what is
received, follows the CR. -/
def HeaderField.SpaceBehindColon (f : HeaderField) : Prop :=
  f.value.head? = some ' '.toUInt8 ∨ (f.value = [] ∧ f.behind.headD 0 = 0)

theorem HeaderField.Marked.readAs_iff {f : HeaderField} {mem : List UInt8} (h : f.Marked mem) :
    f.ReadAs mem f.pair ↔ f.SpaceBehindColon := by
  obtain ⟨start, key, value, behind⟩ := f
  cases value with
  | nil =>
      have hnext : mem[start + key.length + 2]? = some (behind.headD 0) := h.next
      have hempty : cString mem (start + key.length + 2) = [] ↔ behind.headD 0 = 0 := by
        rw [cString_eq_nil_iff hnext]
      simp [HeaderField.ReadAs, HeaderField.SpaceBehindColon, HeaderField.pair, h.key, hempty]
  | cons c v =>
      have hvalue : cString mem (start + key.length + 2) = v := h.value c v rfl
      have hlonger : v ≠ c :: v := fun heq => by simpa using congrArg List.length heq
      simp [HeaderField.ReadAs, HeaderField.SpaceBehindColon, HeaderField.pair, h.key, hvalue,
        hlonger]

theorem HeadersParsed.stored {b : RecvBuf} {s t : Parse} (h : HeadersParsed b s t) :
    t.req.headers.stored = ((b.fields s.ppbuf).take 20).map fun f => some f.pair := by
  obtain ⟨l⟩ := httpParseRequestLine_layout b.getLast h.line
  have hcleared : s.req.headers = HttpRequest.cleared.headers := by rw [l.req]
  obtain ⟨hstored, -, -⟩ := kvSetAll_provided true ((b.fields s.ppbuf).map HeaderField.pair)
    HttpRequest.cleared.headers rfl
  rw [h.section.headers, hcleared, hstored]
  simp [HttpRequest.cleared, kvInitWithBuf, Kv.stored, List.map_take, Function.comp_def]

/-- The recorded values stay inside their lines exactly when a space follows
each line's colon, or nothing that could be taken for a value. -/
theorem httpParseHeaders_reads_lines_iff (b : RecvBuf) (s t : Parse) (h : HeadersParsed b s t) :
    HeadersInLines (b.fields s.ppbuf) t ↔
      ∀ f ∈ (b.fields s.ppbuf).take 20, f.SpaceBehindColon := by
  unfold HeadersInLines
  rw [h.stored, List.forall₂_map_left_iff, List.forall₂_same]
  refine forall₂_congr fun f hmem => ?_
  have hmarked := h.section.marked f (List.mem_of_mem_take hmem)
  rw [← hmarked.readAs_iff]
  exact ⟨fun ⟨_, hpair, hread⟩ => Option.some.inj hpair ▸ hread, fun hread => ⟨_, rfl, hread⟩⟩

theorem exists_headersParsed {b : RecvBuf} {β : Type} {f : Parse → Parse → β} {v : β}
    (h : ((httpParseRequestLine (Parse.start b.mem) b.received).toOption.bind fun line =>
      (httpParseHeaders line.2 b.received).toOption.map fun headers =>
        (line.1, f line.2 headers.2)) = some (true, v)) :
    ∃ s t, HeadersParsed b s t ∧ f s t = v := by
  cases hline : httpParseRequestLine (Parse.start b.mem) b.received with
  | error e => simp [hline, Except.toOption] at h
  | ok line =>
      cases hheaders : httpParseHeaders line.2 b.received with
      | error e => simp [hline, hheaders, Except.toOption] at h
      | ok headers =>
          simp only [hline, hheaders, Except.toOption, Option.bind_some, Option.map_some,
            Option.some.injEq, Prod.mk.injEq] at h
          obtain ⟨haccepted, hv⟩ := h
          refine ⟨line.2, headers.2, ⟨?_, headers.1, hheaders⟩, hv⟩
          rw [hline, ← haccepted]

def spacedHeader : RecvBuf :=
  textExample "GET / HTTP/1.1\r\nHost: a\r\n\r\n" (by decide) (by decide)

def emptyHeader : RecvBuf :=
  textExample "GET / HTTP/1.1\r\nHost:\r\nAge: 1\r\n\r\n" (by decide) (by decide)

theorem httpParseHeaders_reads_host :
    ∃ s t, HeadersParsed spacedHeader s t ∧ spacedHeader.fields s.ppbuf ≠ [] ∧
      (HeadersInLines (spacedHeader.fields s.ppbuf) t ↔
        ∀ f ∈ (spacedHeader.fields s.ppbuf).take 20, f.SpaceBehindColon) := by
  obtain ⟨s, t, h, hpp⟩ := exists_headersParsed (b := spacedHeader) (f := fun s _ => s.ppbuf)
    (v := 16) (by decide +kernel)
  refine ⟨s, t, h, ?_, httpParseHeaders_reads_lines_iff spacedHeader s t h⟩
  rw [hpp]
  decide +kernel

/-- The value of `Host:` is read from the line behind it. -/
theorem httpParseHeaders_not_reads_lines :
    ∃ s t, HeadersParsed emptyHeader s t ∧ ¬ HeadersInLines (emptyHeader.fields s.ppbuf) t := by
  obtain ⟨s, t, h, hview⟩ := exists_headersParsed (b := emptyHeader)
    (f := fun s t => decide (
      (t.req.headers.stored.map fun p => (p.map (textsAt t.mem)).getD ([], [])) =
          [(ascii "Host", ascii "\nAge"), (ascii "Age", ascii "1")] ∧
        ((emptyHeader.fields s.ppbuf).map fun f => (f.key, f.value)) =
          [(ascii "Host", []), (ascii "Age", ascii " 1")])) (v := true) (by decide +kernel)
  obtain ⟨hstored, hfields⟩ := of_decide_eq_true hview
  refine ⟨s, t, h, fun hlines => ?_⟩
  obtain ⟨p, ps, hp, htext, -⟩ := List.map_eq_cons_iff.mp hstored
  obtain ⟨f, fs, hf, hfield, -⟩ := List.map_eq_cons_iff.mp hfields
  unfold HeadersInLines at hlines
  rw [hp, hf, List.take_succ_cons] at hlines
  obtain ⟨⟨pair, rfl, -, hvalue⟩, -⟩ := List.forall₂_cons.mp hlines
  obtain ⟨-, hread⟩ := Prod.mk.inj htext
  obtain ⟨-, hempty⟩ := Prod.mk.inj hfield
  rw [hread, hempty] at hvalue
  rcases hvalue with h | h <;> exact absurd h (by decide +kernel)

end L4Server
