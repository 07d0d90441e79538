import L4Server.BodyIndependence

/-!
The cursor of the parser and the end of the received bytes. Each stage is looked
at in the state in which a run of `http_parse_request` finds it. Trimming and the
path keep the cursor within the received bytes; the method does so if its word is
received whole, the protocol and the headers if no line they take ends with a CR
that is the last byte received.
-/
namespace L4Server
open CMemory

inductive ParseStage
  | method
  | trimSpaces
  | path
  | protocol
  | headers
  deriving DecidableEq, Repr

def ParseStage.run : ParseStage → Parse → Nat → Except Fault Parse
  | .method, s, bufend => (httpParseMethod s bufend).map Prod.snd
  | .trimSpaces, s, bufend => L4Server.trimSpaces s bufend
  | .path, s, bufend => (httpParsePath s bufend).map Prod.snd
  | .protocol, s, bufend => (httpParseProtocol s bufend).map Prod.snd
  | .headers, s, bufend => (httpParseHeaders s bufend).map Prod.snd

/-- The state in which `http_parse_request` finds a stage, as long as the checks
between the stages let it go on. -/
inductive Finds (b : RecvBuf) : ParseStage → Parse → Prop
  | method : Finds b .method (Parse.start b.mem)
  | trimSpaces {s t : Parse} : Finds b .method s → ParseStage.method.run s b.received = .ok t →
      t.req.method ≠ 0 → Finds b .trimSpaces t
  | path {s t : Parse} : Finds b .trimSpaces s → ParseStage.trimSpaces.run s b.received = .ok t →
      Finds b .path t
  | protocol {s t : Parse} : Finds b .path s → ParseStage.path.run s b.received = .ok t →
      t.req.path ≠ none → Finds b .protocol t
  | headers {s t : Parse} : Finds b .protocol s → ParseStage.protocol.run s b.received = .ok t →
      t.req.protocol ≠ none → Finds b .headers t

/-! What a stage needs. -/

/-- The received bytes from the cursor on. -/
def Parse.unread (s : Parse) (bufend : Nat) : List UInt8 := (s.mem.take bufend).drop s.ppbuf

/-- The first CR in front of any NUL is the last byte. -/
def EndsAtCr (bytes : List UInt8) : Prop :=
  ∃ line, bytes = line ++ ['\r'.toUInt8] ∧ '\r'.toUInt8 ∉ line ∧ 0 ∉ line

/-- Behind long lines there is one more whose CR is the last byte. -/
inductive LineCut : List UInt8 → Prop
  | last {line : List UInt8} : '\r'.toUInt8 ∉ line → 0 ∉ line → LongLine line →
      LineCut (line ++ ['\r'.toUInt8])
  | later {line rest : List UInt8} {c : UInt8} : '\r'.toUInt8 ∉ line → 0 ∉ line →
      LongLine line → LineCut rest → LineCut (line ++ '\r'.toUInt8 :: c :: rest)

/-- What the bytes in front of a stage must be for its cursor to stay within them. -/
def ParseStage.Fits : ParseStage → Parse → Nat → Prop
  | .method, s, bufend => ∀ row ∈ methods, 4 ≤ (s.unread bufend).length →
      strToInt32 s.mem s.ppbuf = .ok row.strn → row.length ≤ (s.unread bufend).length
  | .trimSpaces, _, _ | .path, _, _ => True
  | .protocol, s, bufend => ¬ (sizeofLit "HTTP/0.0\r\n" ≤ (s.unread bufend).length ∧
      ascii "HTTP" <+: s.unread bufend ∧ EndsAtCr (s.unread bufend))
  | .headers, s, bufend => ¬ LineCut (s.unread bufend)

variable {n C : Nat} {s t : Parse}

/-! Searches among the received bytes. -/

theorem Safe.length_unread (hs : Safe n C s) : (s.unread n).length = n - s.ppbuf := by
  have := hs.received
  rw [Parse.unread, List.length_drop, List.length_take, hs.length]
  omega

theorem drop_eq_received (mem : List UInt8) {p : Nat} (hp : p ≤ n) (hlength : n ≤ mem.length) :
    mem.drop p = (mem.take n).drop p ++ mem.drop n := by
  conv_lhs => rw [← List.take_append_drop n mem]
  rw [List.drop_append_of_le_length (by rw [List.length_take]; omega)]

/-- What a search finds is the first of its kind among the received bytes. -/
theorem found_received (hs : Safe n C s) {p e : Nat} (hp : p ≤ n) {c : UInt8} (hc : c ≠ 0)
    (h : strchr s.mem p c = .ok (some e)) :
    ∃ line behind, (s.mem.take n).drop p = line ++ c :: behind ∧ c ∉ line ∧ 0 ∉ line ∧
      e = p + line.length ∧ e + 1 + behind.length = n := by
  obtain ⟨line, rest, hline, hcline, h0, rfl⟩ := (strchr_eq_some_iff _ _ _ _).mp h
  obtain ⟨r, hr, hbounds⟩ := hs.strchr hp hc
  obtain rfl := Except.ok.inj (h.symm.trans hr)
  have hlt : p + line.length < n := (hbounds _ rfl).2
  have hreceived : (s.mem.take n).drop p = line ++ c :: rest.take (n - p - line.length - 1) := by
    rw [List.drop_take, hline, List.take_append, List.take_of_length_le (by omega),
      show n - p - line.length = n - p - line.length - 1 + 1 by omega, List.take_succ_cons]
    rfl
  refine ⟨line, _, hreceived, hcline, h0, rfl, ?_⟩
  have hlength := congrArg List.length hreceived
  have hC := hs.received
  simp only [List.length_drop, List.length_take, hs.length, List.length_append,
    List.length_cons] at hlength ⊢
  omega

/-- A search that finds nothing has met a NUL. -/
theorem notFound_received (hs : Safe n C s) {p : Nat} (hp : p ≤ n) {c : UInt8}
    (h : strchr s.mem p c = .ok none) {line behind : List UInt8}
    (hline : (s.mem.take n).drop p = line ++ c :: behind) (h0 : 0 ∉ line) : c ∈ line := by
  by_contra hc
  have hfound : strchr s.mem p c = .ok (some (p + line.length)) := by
    refine (strchr_eq_some_iff _ _ _ _).mpr ⟨line, behind ++ s.mem.drop n, ?_, hc, h0, rfl⟩
    rw [drop_eq_received s.mem hp (hs.length ▸ hs.received.le), hline, List.append_assoc,
      List.cons_append]
  rw [hfound] at h
  cases h

/-- The first line of some bytes is determined. -/
theorem line_unique {line line' behind behind' : List UInt8}
    (h : line ++ '\r'.toUInt8 :: behind = line' ++ '\r'.toUInt8 :: behind')
    (hcr : '\r'.toUInt8 ∉ line) (h0 : 0 ∉ line) (hcr' : '\r'.toUInt8 ∉ line') (h0' : 0 ∉ line') :
    line = line' ∧ behind = behind' := by
  have hline : line = line' := by
    rw [← (takeWhile_inLine behind hcr h0).1, h, (takeWhile_inLine behind' hcr' h0').1]
  subst hline
  exact ⟨rfl, (List.cons.inj (List.append_cancel_left h)).2⟩

theorem endsAtCr_iff {line behind : List UInt8} (hcr : '\r'.toUInt8 ∉ line) (h0 : 0 ∉ line) :
    EndsAtCr (line ++ '\r'.toUInt8 :: behind) ↔ behind = [] := by
  constructor
  · rintro ⟨line', hline', hcr', h0'⟩
    exact (line_unique hline' hcr h0 hcr' h0').2
  · rintro rfl
    exact ⟨line, rfl, hcr, h0⟩

theorem lineCut_iff {line behind : List UInt8} (hcr : '\r'.toUInt8 ∉ line) (h0 : 0 ∉ line) :
    LineCut (line ++ '\r'.toUInt8 :: behind) ↔
      LongLine line ∧ (behind = [] ∨ ∃ c rest, behind = c :: rest ∧ LineCut rest) := by
  constructor
  · intro h
    generalize hbytes : line ++ '\r'.toUInt8 :: behind = bytes at h
    cases h with
    | last hcr' h0' hlong =>
        obtain ⟨rfl, rfl⟩ := line_unique hbytes hcr h0 hcr' h0'
        exact ⟨hlong, .inl rfl⟩
    | later hcr' h0' hlong hrest =>
        obtain ⟨rfl, rfl⟩ := line_unique hbytes hcr h0 hcr' h0'
        exact ⟨hlong, .inr ⟨_, _, rfl, hrest⟩⟩
  · rintro ⟨hlong, rfl | ⟨c, rest, rfl, hrest⟩⟩
    · exact .last hcr h0 hlong
    · exact .later hcr h0 hlong hrest

/-- Bytes with a cut line have a first line. -/
theorem LineCut.exists_line {bytes : List UInt8} (h : LineCut bytes) :
    ∃ line behind, bytes = line ++ '\r'.toUInt8 :: behind ∧ '\r'.toUInt8 ∉ line ∧ 0 ∉ line := by
  cases h with
  | last hcr h0 => exact ⟨_, _, rfl, hcr, h0⟩
  | later hcr h0 => exact ⟨_, _, rfl, hcr, h0⟩

/-! The stages. -/

theorem method_cursor (hs : Safe n C s) (hle : s.ppbuf ≤ n) :
    ∃ t, ParseStage.method.run s n = .ok t ∧
      (t.ppbuf ≤ n ↔ ParseStage.method.Fits s n) := by
  have hlength := hs.length_unread
  have hreceived := hs.received
  simp only [ParseStage.run, ParseStage.Fits, httpParseMethod]
  split
  · refine ⟨s, rfl, iff_of_true hle fun row _ hfour => ?_⟩
    omega
  · obtain ⟨v, hv⟩ := hs.strToInt32 (p := s.ppbuf) (by omega)
    simp only [hv, bind, Except.bind]
    split
    · next row hrow =>
      have hmem := List.mem_of_find?_eq_some hrow
      have hword : row.strn = v := by simpa using List.find?_some hrow
      refine ⟨_, rfl, ?_⟩
      simp only
      constructor
      · intro hrest row' hmem' _ hword'
        -- the row found is the only one with this word
        obtain rfl : row'.strn = v := (Except.ok.inj hword').symm
        obtain rfl := Option.some.inj (hrow.symm.trans (find_row hmem'))
        omega
      · intro hall
        have := hall row hmem (by omega) (congrArg Except.ok hword.symm)
        omega
    · next hnone =>
      refine ⟨s, rfl, iff_of_true hle fun row hmem _ hword => ?_⟩
      obtain rfl : row.strn = v := (Except.ok.inj hword).symm
      rw [find_row hmem] at hnone
      cases hnone

/-- The word compared with `HTTP` is what the received bytes begin with. -/
theorem word_http_iff (hs : Safe n C s) (hle : s.ppbuf ≤ n) (hfour : 4 ≤ (s.unread n).length) :
    strToInt32 s.mem s.ppbuf = .ok (strToInt32Lit 'H' 'T' 'T' 'P') ↔
      ascii "HTTP" <+: s.unread n := by
  have hdrop := drop_eq_received s.mem hle (hs.length ▸ hs.received.le)
  constructor
  · intro hword
    obtain ⟨rest, hrest⟩ := strToInt32_eq (a := 72) (b := 84) (c := 84) (d := 80) hword
    exact List.prefix_of_prefix_length_le ⟨rest, hrest.symm⟩ ⟨_, hdrop.symm⟩ hfour
  · rintro ⟨rest, hrest⟩
    have hmem : s.mem = s.mem.take s.ppbuf ++ 72 :: 84 :: 84 :: 80 :: (rest ++ s.mem.drop n) := by
      conv_lhs => rw [← List.take_append_drop s.ppbuf s.mem, hdrop, ← Parse.unread, ← hrest]
      rfl
    have := hs.received
    exact strToInt32_found _ _ hmem (by rw [List.length_take, hs.length]; omega)

theorem protocol_cursor (hs : Safe n C s) (hn : n < 2 ^ 64) (hle : s.ppbuf ≤ n) :
    ∃ t, ParseStage.protocol.run s n = .ok t ∧
      (t.ppbuf ≤ n ↔ ParseStage.protocol.Fits s n) := by
  have hlength := hs.length_unread
  have hreceived := hs.received
  simp only [ParseStage.run, ParseStage.Fits, httpParseProtocol]
  rw [sizeSub_of_le hle hn, ← hlength]
  split
  · next hshort => exact ⟨s, rfl, iff_of_true hle fun both => by omega⟩
  · next hlong =>
    obtain ⟨r, hr, hr'⟩ := hs.strchr (p := s.ppbuf) (c := '\r'.toUInt8) hle (by decide)
    simp only [hr, bind, Except.bind]
    cases r with
    | none =>
        refine ⟨s, rfl, iff_of_true hle ?_⟩
        rintro ⟨-, -, line, hline, hcr, h0⟩
        exact hcr (notFound_received hs hle hr hline h0)
    | some e =>
        have heleven : sizeofLit "HTTP/0.0\r\n" = 11 := by decide
        obtain ⟨line, behind, hline, hcr, h0, he, hend⟩ :=
          found_received hs hle (by decide) hr
        obtain ⟨v, hv⟩ := hs.strToInt32 (p := s.ppbuf) (by omega)
        have hhttp := word_http_iff hs hle (by omega)
        simp only [hv]
        split
        · next hword =>
          refine ⟨s, rfl, iff_of_true hle fun both => hword ?_⟩
          exact Except.ok.inj (hv.symm.trans (hhttp.mpr both.2.1))
        · next hword =>
          obtain ⟨mem, hmem⟩ : ∃ mem, CMemory.store s.mem e 0 = .ok mem :=
            ⟨_, store_eq_ok 0 (by rw [hs.length]; omega)⟩
          simp only [Parse.store, hmem, bind, Except.bind, pure, Except.pure]
          refine ⟨_, rfl, ?_⟩
          simp only
          have hprefix := hhttp.mp (hv.trans (congrArg Except.ok (not_not.mp hword)))
          have hlast : EndsAtCr (s.unread n) ↔ behind.length = 0 := by
            rw [Parse.unread, hline, endsAtCr_iff hcr h0, List.length_eq_zero_iff]
          rw [hlast]
          constructor
          · intro hfit both
            omega
          · intro hfit
            have : behind.length ≠ 0 := fun hzero => hfit ⟨by omega, hprefix, hzero⟩
            omega

/-- Recording a line leaves the bytes behind it, and behind its CR and one more, alone. -/
theorem recordHeader_rest {u : Parse} {start : Nat} {line rest : List UInt8} {c : UInt8}
    {sep : Option Nat} (hu : recordHeader s start (start + line.length) sep = .ok u)
    (hline : (s.mem.take n).drop start = line ++ '\r'.toUInt8 :: c :: rest) :
    (u.mem.take n).drop (start + line.length + 2) = rest := by
  have hsame := congrArg (List.drop 1) (recordHeader_behind hu).1
  rw [List.drop_drop, List.drop_drop] at hsame
  calc (u.mem.take n).drop (start + line.length + 2)
      = (s.mem.take n).drop (start + line.length + 2) := by
        rw [List.drop_take, List.drop_take, hsame]
    _ = (line ++ '\r'.toUInt8 :: c :: rest).drop (line.length + 2) := by
        rw [← hline, List.drop_drop, Nat.add_assoc]
    _ = rest := by simp

theorem parseHeadersLoop_cursor (fuel start : Nat) (hfuel : n - start < fuel) {s : Parse}
    (hs : Safe n C s) (hp : s.req.Provided) (hn : n < 2 ^ 64) (hle : start ≤ n) :
    ∃ q t, parseHeadersLoop n fuel start s = .ok (q, t) ∧
      (q ≤ n ↔ ¬ LineCut ((s.mem.take n).drop start)) := by
  induction fuel generalizing start s with
  | zero => omega
  | succ fuel ih =>
      unfold parseHeadersLoop
      split
      · next hlt =>
        obtain ⟨r, hr, -⟩ := hs.strchr (p := start) (c := '\r'.toUInt8) hle (by decide)
        simp only [hr, bind, Except.bind]
        cases r with
        | none =>
            refine ⟨start, s, rfl, iff_of_true hle fun hcut => ?_⟩
            obtain ⟨line, behind, hline, hcr, h0⟩ := hcut.exists_line
            exact hcr (notFound_received hs hle hr hline h0)
        | some eol =>
            obtain ⟨line, behind, hline, hcr, h0, rfl, hend⟩ :=
              found_received hs hle (by decide) hr
            simp only
            rw [hline, lineCut_iff hcr h0]
            split
            · next hshort =>
              have hshort' := (sizeSub_line (by omega)).mp hshort
              exact ⟨_, s, rfl, iff_of_true (by omega) fun both => hshort' both.1⟩
            · next hlong =>
              have hlong' : LongLine line :=
                not_not.mp fun h => hlong ((sizeSub_line (by omega)).mpr h)
              obtain ⟨sep, hsep, hsep'⟩ := hs.strchr (p := start) (c := ':'.toUInt8) hle (by decide)
              obtain ⟨u, hu, hus, hup⟩ := recordHeader_safe hs hp start hle
                (show start + line.length < n by omega) sep fun i hi => (hsep' i hi).2
              simp only [hsep, hu]
              cases behind with
              | nil =>
                  -- the next line would start behind the end
                  obtain ⟨fuel, rfl⟩ : ∃ f, fuel = f + 1 := ⟨fuel - 1, by omega⟩
                  simp only [List.length_nil] at hend
                  rw [parseHeadersLoop, if_neg (by omega)]
                  exact ⟨_, u, rfl, iff_of_false (by omega) fun h => h ⟨hlong', .inl rfl⟩⟩
              | cons c rest =>
                  simp only [List.length_cons] at hend
                  obtain ⟨q, t, ht, hq⟩ := ih (start + line.length + 2) (by omega) hus hup
                    (by omega)
                  refine ⟨q, t, ht, hq.trans ?_⟩
                  rw [recordHeader_rest hu hline]
                  simp [hlong']
      · next hend =>
        refine ⟨start, s, rfl, iff_of_true hle fun hcut => ?_⟩
        obtain ⟨line, behind, hline, -⟩ := hcut.exists_line
        have hlength := congrArg List.length hline
        simp only [List.length_drop, List.length_take, List.length_append,
          List.length_cons] at hlength
        omega

theorem headers_cursor (hs : Safe n C s) (hp : s.req.Provided) (hn : n < 2 ^ 64)
    (hle : s.ppbuf ≤ n) :
    ∃ t, ParseStage.headers.run s n = .ok t ∧
      (t.ppbuf ≤ n ↔ ParseStage.headers.Fits s n) := by
  obtain ⟨q, t, ht, hq⟩ := parseHeadersLoop_cursor (n + 1) s.ppbuf (by omega) hs hp hn hle
  refine ⟨{ t with ppbuf := q }, ?_, hq⟩
  simp [ParseStage.run, httpParseHeaders, ht, bind, Except.bind, pure, Except.pure, Except.map]

/-! The stages in a run. -/

theorem map_snd_eq_ok {α β ε : Type} {x : Except ε (α × β)} {b : β} :
    x.map Prod.snd = .ok b ↔ ∃ a, x = .ok (a, b) := by
  cases x with
  | error e => simp [Except.map]
  | ok p =>
      obtain ⟨a, c⟩ := p
      simp [Except.map]

/-- Where the cursor of a stage is, whatever has been received. -/
def ParseStage.Place : ParseStage → Parse → Nat → Nat → Prop
  | .method, s, _, _ => s.ppbuf = 0 ∧ s.req.path = none
  | .trimSpaces, s, _, _ => s.ppbuf ≤ 7 ∧ s.req.path = none
  | .path, s, _, capacity => s.ppbuf < capacity ∧ s.req.path = none
  | .protocol, s, bufend, _ => s.ppbuf ≤ bufend
  | .headers, _, _, _ => True

variable {b : RecvBuf} {stage : ParseStage}

theorem RecvBuf.received_lt_word (b : RecvBuf) : b.received < 2 ^ 64 := by
  have := b.received_lt
  have := b.capacity_lt
  omega

theorem Finds.placed (h : Finds b stage s) :
    Safe b.received b.mem.length s ∧ s.req.Provided ∧
      stage.Place s b.received b.mem.length := by
  induction h with
  | method => exact ⟨Safe.start b, HttpRequest.cleared_provided, rfl, rfl⟩
  | trimSpaces _ hrun _ ih =>
      obtain ⟨hs, hp, h0, hpath⟩ := ih
      obtain ⟨r, t, ht, hts, htle, htpath, htp⟩ := httpParseMethod_safe hs h0
      obtain ⟨r', ht'⟩ := map_snd_eq_ok.mp hrun
      obtain ⟨rfl, rfl⟩ := Prod.mk.inj (Except.ok.inj (ht.symm.trans ht'))
      exact ⟨hts, htp hp, htle, htpath.trans hpath⟩
  | path _ hrun ih =>
      obtain ⟨hs, hp, hle, hpath⟩ := ih
      obtain ⟨t, ht, hts, htreq, htle⟩ := trimSpaces_safe hs
      obtain rfl := Except.ok.inj (ht.symm.trans hrun)
      have := b.received_lt
      have := b.capacity_ge
      exact ⟨hts, htreq ▸ hp, by omega, htreq ▸ hpath⟩
  | protocol _ hrun hfound ih =>
      obtain ⟨hs, hp, hlt, hpath⟩ := ih
      obtain ⟨r, t, ht, hts, htp, hsame | hle⟩ := httpParsePath_safe hs hp hlt
      all_goals
        obtain ⟨r', ht'⟩ := map_snd_eq_ok.mp hrun
        obtain ⟨rfl, rfl⟩ := Prod.mk.inj (Except.ok.inj (ht.symm.trans ht'))
      · exact absurd (hsame ▸ hpath) hfound
      · exact ⟨hts, htp, hle⟩
  | headers _ hrun _ ih =>
      obtain ⟨hs, hp, hle⟩ := ih
      obtain ⟨r, t, ht, hts, htp, -⟩ := httpParseProtocol_safe hs hp b.received_lt_word hle
      obtain ⟨r', ht'⟩ := map_snd_eq_ok.mp hrun
      obtain ⟨rfl, rfl⟩ := Prod.mk.inj (Except.ok.inj (ht.symm.trans ht'))
      exact ⟨hts, htp, trivial⟩

/-- A stage found with its cursor within the received bytes leaves it there just when
they are what the stage needs. -/
theorem Finds.cursor (h : Finds b stage s) (hle : s.ppbuf ≤ b.received) :
    ∃ t, stage.run s b.received = .ok t ∧
      (t.ppbuf ≤ b.received ↔ stage.Fits s b.received) := by
  obtain ⟨hs, hp, hplace⟩ := h.placed
  cases stage with
  | method => exact method_cursor hs hle
  | trimSpaces =>
      obtain ⟨t, ht, -, -, htle⟩ := trimSpaces_safe hs
      exact ⟨t, ht, iff_of_true (by omega) trivial⟩
  | path =>
      obtain ⟨r, t, ht, -, -, htle⟩ := httpParsePath_safe hs hp hplace.1
      refine ⟨t, map_snd_eq_ok.mpr ⟨r, ht⟩, iff_of_true ?_ trivial⟩
      obtain rfl | htle := htle
      · exact hle
      · exact htle
  | protocol => exact protocol_cursor hs b.received_lt_word hle
  | headers => exact headers_cursor hs hp b.received_lt_word hle

/-- If all stages get what they need, they all find the cursor within the received bytes. -/
theorem Finds.cursor_le (hfits : ∀ stage s, Finds b stage s → stage.Fits s b.received)
    (h : Finds b stage s) : s.ppbuf ≤ b.received := by
  have hstep : ∀ {stage s t}, Finds b stage s → s.ppbuf ≤ b.received →
      stage.run s b.received = .ok t → t.ppbuf ≤ b.received := by
    intro stage s t hfound hle hrun
    obtain ⟨t', ht', hiff⟩ := hfound.cursor hle
    obtain rfl := Except.ok.inj (hrun.symm.trans ht')
    exact hiff.mpr (hfits stage s hfound)
  induction h with
  | method => exact Nat.zero_le _
  | trimSpaces hfound hrun _ ih => exact hstep hfound ih hrun
  | path hfound hrun ih => exact hstep hfound ih hrun
  | protocol hfound hrun _ ih => exact hstep hfound ih hrun
  | headers hfound hrun _ ih => exact hstep hfound ih hrun

/-- An accepted request has gone through all stages. -/
theorem finds_of_accepted (h : httpParseRequest (Parse.start b.mem) b.received = .ok (1, t)) :
    ∃ s, Finds b .headers s ∧ ParseStage.headers.run s b.received = .ok t := by
  obtain ⟨⟨accepted, u⟩, hline, h⟩ := bind_eq_ok.mp h
  cases accepted with
  | false => cases h
  | true =>
      obtain ⟨⟨r, v⟩, hheaders, h⟩ := bind_eq_ok.mp h
      cases h
      refine ⟨u, ?_, map_snd_eq_ok.mpr ⟨r, hheaders⟩⟩
      obtain ⟨⟨r₁, s₁⟩, h₁, hline⟩ := bind_eq_ok.mp hline
      by_cases hmethod : s₁.req.method = 0
      · simp [hmethod, pure, Except.pure] at hline
      simp only [if_neg hmethod] at hline
      obtain ⟨s₂, h₂, hline⟩ := bind_eq_ok.mp hline
      obtain ⟨⟨r₃, s₃⟩, h₃, hline⟩ := bind_eq_ok.mp hline
      by_cases hpath : s₃.req.path = none
      · simp [hpath, pure, Except.pure] at hline
      simp only [if_neg hpath] at hline
      obtain ⟨⟨r₄, s₄⟩, h₄, hline⟩ := bind_eq_ok.mp hline
      by_cases hprotocol : s₄.req.protocol = none
      · simp [hprotocol, pure, Except.pure] at hline
      simp only [if_neg hprotocol] at hline
      cases hline
      have hfound₁ : Finds b .trimSpaces s₁ :=
        .trimSpaces .method (map_snd_eq_ok.mpr ⟨r₁, h₁⟩) hmethod
      have hfound₃ : Finds b .protocol s₃ :=
        .protocol (.path hfound₁ h₂) (map_snd_eq_ok.mpr ⟨r₃, h₃⟩) hpath
      exact .headers hfound₃ (map_snd_eq_ok.mpr ⟨r₄, h₄⟩) hprotocol

/-- A stage that finds the cursor within the received bytes leaves it there just when
the bytes are what the stage needs. Where all stages get what they need, no stage finds
it elsewhere, the differences in the length checks do not wrap, and the one left over
behind the headers is not negative. -/
theorem httpParseRequest_cursor_iff (b : RecvBuf) :
    (∀ stage s, Finds b stage s → s.ppbuf ≤ b.received →
      ∃ t, stage.run s b.received = .ok t ∧
        (t.ppbuf ≤ b.received ↔ stage.Fits s b.received)) ∧
    ((∀ stage s, Finds b stage s → stage.Fits s b.received) →
      (∀ stage s, Finds b stage s → s.ppbuf ≤ b.received ∧
        sizeSub b.received s.ppbuf = b.received - s.ppbuf) ∧
      ∀ t, httpParseRequest (Parse.start b.mem) b.received = .ok (1, t) →
        0 ≤ (b.received : Int) - t.ppbuf) := by
  refine ⟨fun stage s h hle => h.cursor hle, fun hfits => ⟨fun stage s h => ?_, fun t ht => ?_⟩⟩
  · have hle := h.cursor_le hfits
    exact ⟨hle, sizeSub_of_le hle b.received_lt_word⟩
  · obtain ⟨s, hs, hrun⟩ := finds_of_accepted ht
    obtain ⟨t', ht', hiff⟩ := hs.cursor (hs.cursor_le hfits)
    obtain rfl := Except.ok.inj (hrun.symm.trans ht')
    have := hiff.mpr (hfits .headers s hs)
    omega

/-- Four bytes of a longer method. -/
def methodCut : RecvBuf := textExample "DELE" (by decide) (by decide)

/-- Nothing is received behind the CR of a header line. -/
def headerCut : RecvBuf :=
  textExample "GET / HTTP/1.1\r\nHost: x\r" (by decide) (by decide)

/-- The method stage leaves the cursor behind the received bytes, and the length check
of the path wraps; or the cursor ends behind them in an accepted request. -/
theorem httpParseRequest_cursor_past :
    (∃ s t, Finds methodCut .method s ∧ s.ppbuf ≤ methodCut.received ∧
      ParseStage.method.run s methodCut.received = .ok t ∧ ¬ t.ppbuf ≤ methodCut.received ∧
      sizeSub methodCut.received t.ppbuf = 2 ^ 64 - 2) ∧
    ∃ t, httpParseRequest (Parse.start headerCut.mem) headerCut.received = .ok (1, t) ∧
      (headerCut.received : Int) - t.ppbuf = -1 := by
  constructor
  · obtain ⟨t, ht, hview⟩ := exists_of_map_toOption (f := fun t : Parse => t.ppbuf)
      (x := ParseStage.method.run (Parse.start methodCut.mem) methodCut.received) (b := 6)
      (by decide +kernel)
    have hreceived : methodCut.received = 4 := by decide
    refine ⟨_, t, .method, Nat.zero_le _, ht, ?_, ?_⟩
    · omega
    · rw [hreceived, hview]
      decide
  · obtain ⟨⟨ret, t⟩, ht, hview⟩ := exists_of_map_toOption
      (f := fun r : Int × Parse => (r.1, r.2.ppbuf))
      (x := httpParseRequest (Parse.start headerCut.mem) headerCut.received) (b := (1, 25))
      (by decide +kernel)
    obtain rfl : ret = 1 := (Prod.mk.inj hview).1
    have hcursor : t.ppbuf = 25 := (Prod.mk.inj hview).2
    have hreceived : headerCut.received = 24 := by decide
    exact ⟨t, ht, by omega⟩

end L4Server
