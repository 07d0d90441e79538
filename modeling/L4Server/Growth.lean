import L4Server.Handler

/-!
Responses that fit the strings they are built in. While no `string_append` has
to grow its string, the strings of a coroutine keep the capacities that
`string_init` gave them.
-/
namespace L4Server
open CMemory

/-! Appends. -/

theorem stringAppend_within {realloc : Option (List UInt8)} {str out : StringT}
    {buf : List UInt8} {buflen : Nat} {ok : Bool} (hcapacity : str.capacity ≤ 2 ^ 64)
    (hfit : str.len + buflen < str.capacity)
    (h : stringAppend realloc str buf buflen = .ok (ok, out)) :
    out.capacity = str.capacity ∧ out.len = str.len + buflen := by
  have hadd : sizeAdd str.len buflen = str.len + buflen :=
    Nat.mod_eq_of_lt (Nat.lt_of_lt_of_le hfit hcapacity)
  have hkeep : str.needsGrowth buflen = false := by
    simpa [StringT.needsGrowth, hadd] using hfit
  have hreserve : str.reserve realloc buflen = some str := by
    simp only [StringT.reserve, hkeep, Bool.false_eq_true, if_false]
  rcases stringAppend_eq_ok h with ⟨hnone, -, -⟩ | ⟨s, hs, -, hkept, hlen⟩
  · cases hreserve.symm.trans hnone
  · cases hreserve.symm.trans hs
    exact ⟨hkept, hlen.trans hadd⟩

/-- What a routed handler appends to the body. -/
def ResponseOp.bodyLength : ResponseOp → Nat
  | .body _ buflen _ => buflen
  | _ => 0

def bodyLengths (ops : List ResponseOp) : Nat := (ops.map ResponseOp.bodyLength).sum

/-- The parts of a response that its owner relies on between sessions. -/
structure HttpResponse.Sized (res : HttpResponse) (capacity : Nat) : Prop where
  headers : res.headers.Provided
  str : res.str.capacity = capacity

theorem HttpResponse.apply_sized {capacity : Nat} (hcapacity : capacity ≤ 2 ^ 64)
    {res res' : HttpResponse} {op : ResponseOp} (hs : res.Sized capacity)
    (hfit : res.str.len + op.bodyLength < capacity) (h : res.apply op = .ok res') :
    res'.Sized capacity ∧ res'.str.len = res.str.len + op.bodyLength := by
  cases op with
  | header key value =>
      cases h
      exact ⟨⟨hs.headers.set true key value, hs.str⟩, rfl⟩
  | body buf buflen realloc =>
      obtain ⟨⟨ok, str⟩, hstr, hres⟩ := bind_eq_ok.mp h
      cases hres
      rw [← hs.str] at hcapacity hfit
      obtain ⟨hkeep, hlen⟩ := stringAppend_within hcapacity hfit hstr
      exact ⟨⟨hs.headers, hkeep.trans hs.str⟩, hlen⟩
  | _ =>
      cases h
      exact ⟨⟨hs.headers, hs.str⟩, rfl⟩

theorem HttpResponse.applyAll_sized {capacity : Nat} (hcapacity : capacity ≤ 2 ^ 64)
    {ops : List ResponseOp} {res res' : HttpResponse} (hs : res.Sized capacity)
    (hfit : res.str.len + bodyLengths ops < capacity) (h : applyAll ops res = .ok res') :
    res'.Sized capacity := by
  induction ops generalizing res with
  | nil =>
      cases h
      exact hs
  | cons op ops ih =>
      obtain ⟨res₁, hop, hrest⟩ := bind_eq_ok.mp h
      simp only [bodyLengths, List.map_cons, List.sum_cons] at hfit
      obtain ⟨hs₁, hlen⟩ := HttpResponse.apply_sized hcapacity hs (by omega) hop
      exact ih hs₁ (by simp only [bodyLengths]; omega) hrest

/-! Composing. -/

def headersLength (ps : List (Option (KvPair CText))) : Nat :=
  (ps.map fun p => (p.map fun p => (headerLine p).length).getD 0).sum

/-- The number in the line that announces the body. -/
def HttpResponse.announced (res : HttpResponse) : Nat :=
  if res.file.isSome || res.fileFd != 0 then res.fileSz else res.str.len

/-- The body as far as it is composed. -/
def HttpResponse.bodyLength (res : HttpResponse) : Nat :=
  if res.file.isSome then res.fileSz else if res.fileFd ≠ 0 then 0 else res.str.len

/-- The length of a response to a request with the given protocol text. -/
def HttpResponse.composedLength (res : HttpResponse) (protocol : List UInt8) : Nat :=
  (statusLine protocol res.status).length + headersLength res.headers.stored +
    (contentLength res.announced).length + 1 + res.bodyLength

/-- From `c` to `d` at most `n` bytes have been appended within the capacity. -/
structure Compose.Grown (c d : Compose) (n : Nat) : Prop where
  capacity : d.final.capacity = c.final.capacity
  len : d.final.len ≤ c.final.len + n

theorem Compose.Grown.trans {c d e : Compose} {n m : Nat} (h : c.Grown d n) (k : d.Grown e m) :
    c.Grown e (n + m) :=
  ⟨k.capacity.trans h.capacity, by have := h.len; have := k.len; omega⟩

variable {grow : Nat → Option (List UInt8)} {c d : Compose} {n : Nat}

theorem Compose.append_grown {buf : List UInt8} (hcapacity : c.final.capacity ≤ 2 ^ 64)
    (hfit : c.final.len + n < c.final.capacity) (h : c.append grow buf n = .ok d) :
    c.Grown d n := by
  obtain ⟨⟨ok, final⟩, hfinal, hd⟩ := bind_eq_ok.mp h
  cases hd
  obtain ⟨hkeep, hlen⟩ := stringAppend_within hcapacity hfit hfinal
  exact ⟨hkeep, Nat.le_of_eq hlen⟩

theorem cString_length_le (text rest : List UInt8) :
    (cString (text ++ 0 :: rest) 0).length ≤ text.length := by
  unfold cString
  rw [List.drop_zero]
  induction text with
  | nil => simp
  | cons b text ih =>
      rw [List.cons_append, List.takeWhile_cons]
      split
      · simpa using ih
      · simp

theorem Compose.line_grown {text : List UInt8} (hcapacity : c.final.capacity ≤ 2 ^ 64)
    (hfit : c.final.len + text.length < c.final.capacity) (h : c.line grow text = .ok d) :
    c.Grown d text.length := by
  obtain ⟨tmp, htmp, hd⟩ := bind_eq_ok.mp h
  have hshort : (cString tmp 0).length ≤ text.length := by
    unfold sprintf at htmp
    split at htmp
    · cases htmp
      exact cString_length_le _ _
    · cases htmp
  have hgrown := Compose.append_grown (c := { c with tmp := tmp }) hcapacity (by simp only; omega) hd
  exact ⟨hgrown.capacity, Nat.le_trans hgrown.len (Nat.add_le_add_left hshort _)⟩

theorem composeHeaders_grown {ps : List (Option (KvPair CText))}
    (hcapacity : c.final.capacity ≤ 2 ^ 64)
    (hfit : c.final.len + headersLength ps < c.final.capacity)
    (h : composeHeaders grow ps c = .ok d) : c.Grown d (headersLength ps) := by
  induction ps generalizing c with
  | nil =>
      cases h
      exact ⟨rfl, Nat.le_refl _⟩
  | cons p ps ih =>
      cases p with
      | none => cases h
      | some p =>
          obtain ⟨e, he, hd⟩ := bind_eq_ok.mp h
          have hsum : headersLength (some p :: ps) = (headerLine p).length + headersLength ps := rfl
          rw [hsum] at hfit ⊢
          have hline := Compose.line_grown hcapacity (by omega) he
          have hlen := hline.len
          exact hline.trans (ih (hline.capacity ▸ hcapacity) (by rw [hline.capacity]; omega) hd)

theorem Compose.Grown.append {m : Nat} {e : Compose} {buf : List UInt8} (h : c.Grown d m)
    (hcapacity : c.final.capacity ≤ 2 ^ 64) (hfit : c.final.len + (m + n) < c.final.capacity)
    (he : d.append grow buf n = .ok e) : c.Grown e (m + n) := by
  have hlen := h.len
  exact h.trans (Compose.append_grown (h.capacity ▸ hcapacity) (by rw [h.capacity]; omega) he)

/-- The length line, the empty line and a body. -/
theorem composeText_grown {lengthLine buf : List UInt8} {c₁ c₂ : Compose}
    (hcapacity : c.final.capacity ≤ 2 ^ 64)
    (hfit : c.final.len + (lengthLine.length + 1 + n) < c.final.capacity)
    (h₁ : c.line grow lengthLine = .ok c₁)
    (h₂ : c₁.append grow (ascii "\n" ++ [0]) 1 = .ok c₂) (h₃ : c₂.append grow buf n = .ok d) :
    c.Grown d (lengthLine.length + 1 + n) := by
  have hline := Compose.line_grown hcapacity (by omega) h₁
  exact (hline.append hcapacity (by omega) h₂).append hcapacity hfit h₃

theorem composeBody_grown {res : HttpResponse} (hcapacity : c.final.capacity ≤ 2 ^ 64)
    (hfit : c.final.len + ((contentLength res.announced).length + 1 + res.bodyLength) <
      c.final.capacity)
    (h : composeBody grow res c = .ok d) :
    c.Grown d ((contentLength res.announced).length + 1 + res.bodyLength) := by
  unfold composeBody at h
  split at h
  · next file hfile =>
    have hannounced : res.announced = res.fileSz := by simp [HttpResponse.announced, hfile]
    have hbody : res.bodyLength = res.fileSz := by simp [HttpResponse.bodyLength, hfile]
    obtain ⟨c₁, h₁, h⟩ := bind_eq_ok.mp h
    obtain ⟨c₂, h₂, h₃⟩ := bind_eq_ok.mp h
    rw [← hannounced] at h₁
    rw [← hbody] at h₃
    exact composeText_grown hcapacity hfit h₁ h₂ h₃
  · next hfile =>
    split at h
    · next hfd =>
      have hannounced : res.announced = res.fileSz := by simp [HttpResponse.announced, hfd]
      have hbody : res.bodyLength = 0 := by simp [HttpResponse.bodyLength, hfile, hfd]
      obtain ⟨c₁, h₁, h₂⟩ := bind_eq_ok.mp h
      rw [← hannounced] at h₁
      rw [hbody, Nat.add_zero]
      exact (Compose.line_grown hcapacity (by omega) h₁).append hcapacity (by omega) h₂
    · next hfd =>
      have hzero : res.fileFd = 0 := by simpa using hfd
      have hannounced : res.announced = res.str.len := by
        simp [HttpResponse.announced, hfile, hzero]
      have hbody : res.bodyLength = res.str.len := by
        simp [HttpResponse.bodyLength, hfile, hzero]
      obtain ⟨c₁, h₁, h⟩ := bind_eq_ok.mp h
      obtain ⟨c₂, h₂, h₃⟩ := bind_eq_ok.mp h
      rw [← hannounced] at h₁
      rw [← hbody] at h₃
      exact composeText_grown hcapacity hfit h₁ h₂ h₃

/-- A response that fits the final string is composed without growing it. -/
theorem httpComposeResponse_capacity {mem : List UInt8} {req : HttpRequest}
    {res : HttpResponse} {final final' : StringT} {ok : Bool}
    (hcapacity : final.capacity ≤ 2 ^ 64)
    (hfit : ∀ protocol, req.protocol = some protocol →
      final.len + res.composedLength (cString mem protocol) < final.capacity)
    (h : httpComposeResponse grow mem req res final = .ok (ok, final')) :
    final'.capacity = final.capacity := by
  unfold httpComposeResponse at h
  split at h
  · cases h
    rfl
  · next protocol hprotocol =>
    have hfit := hfit protocol hprotocol
    unfold HttpResponse.composedLength at hfit
    obtain ⟨c₁, h₁, h⟩ := bind_eq_ok.mp h
    obtain ⟨c₂, h₂, h⟩ := bind_eq_ok.mp h
    obtain ⟨c₃, h₃, h⟩ := bind_eq_ok.mp h
    cases h
    have g₁ := Compose.line_grown (c := ⟨final, List.replicate 1024 0, 0⟩) hcapacity
      (by simp only; omega) h₁
    have l₁ := g₁.len
    have k₁ : c₁.final.capacity = final.capacity := g₁.capacity
    simp only at l₁
    have g₂ := composeHeaders_grown (k₁ ▸ hcapacity) (by omega) h₂
    have l₂ := g₂.len
    have k₂ := g₂.capacity.trans k₁
    have g₃ := composeBody_grown (k₂ ▸ hcapacity) (by omega) h₃
    exact g₃.capacity.trans k₂

end L4Server
