import L4Server.Accounting

/-!
The replies of the build with `WATCH_STATIC_FILES`, as the kernel carries them
out: a chain of linked entries for each connection, and one pipe for all. The
chains advance in any order, each by its first entry; a transfer that fails or
falls short ends its chain. The handler never closes the files it opens, so a
descriptor stands for one file.
-/
namespace L4Server
open CMemory

/-- A connection that has been replied to: its socket, the file behind its response,
what the kernel has not carried out of its chain, and the bytes spliced to its socket. -/
structure Client where
  fd : Nat
  file : List UInt8
  chain : List Sqe
  delivered : List UInt8

structure PipeState where
  clients : List Client
  pipe : List UInt8

/-- The handler queues a reply; the kernel carries out the next entry of a
client, with a count or with an error. -/
inductive PipeEvent
  | reply (out : Outcomes) (l : Locals) (c : Ctx) (reply : Reply)
  | execute (client : Nat) (count : Nat)
  | fail (client : Nat)

/-- The length an operation asks for. -/
def Op.asked : Op → Nat
  | .accept _ => 0
  | .recv _ len => len
  | .send _ data _ => data.length
  | .splice _ _ _ _ len => len

/-- The socket or the end of the pipe that an operation writes to. -/
def Op.target : Op → Option Int
  | .accept _ | .recv _ _ => none
  | .send fd _ _ => some fd
  | .splice _ _ fdOut _ _ => some fdOut

/-- Whether the operation moves bytes into the pipe. -/
def Op.fills (cfg : Config) : Op → Bool
  | .splice _ _ fdOut _ _ => fdOut == cfg.pipefds.2
  | _ => false

/-- What `count` transferred bytes do: the pipe behind them, and what of it has gone
to the target. The pipe is first in, first out. -/
def Op.transfer (cfg : Config) (files : Int → List UInt8) (pipe : List UInt8) (count : Nat) :
    Op → Option (List UInt8 × List UInt8)
  | .splice fdIn offIn fdOut _ _ =>
      if fdOut = cfg.pipefds.2 then
        let bytes := (files fdIn).drop offIn.toNat
        if count ≤ bytes.length then some (pipe ++ bytes.take count, []) else none
      else if fdIn = cfg.pipefds.1 then
        if count ≤ pipe.length then some (pipe.drop count, pipe.take count) else none
      else none
  | _ => some (pipe, [])

/-- What is left of a chain when its first entry has transferred `count` bytes. -/
def chainAfter (sqe : Sqe) (rest : List Sqe) (count : Nat) : List Sqe :=
  if sqe.link && count != sqe.op.asked then [] else rest

def PipeState.setClient (s : PipeState) (i : Nat) (client : Client) : PipeState :=
  { s with clients := s.clients.set i client }

/-- The client that reads from the socket an entry of client `i` names: client `i` if
the socket is its own, else the last that has been replied to on it. -/
def PipeState.reader (s : PipeState) (i : Nat) (fd : Int) : Option Nat :=
  let reads (j : Nat) : Bool := s.clients[j]?.any fun client => (client.fd : Int) == fd
  if reads i then some i else ((List.range s.clients.length).filter reads).getLast?

def Client.receive (bytes : List UInt8) (client : Client) : Client :=
  { client with delivered := client.delivered ++ bytes }

/-- The bytes reach the socket that the operation names. -/
def PipeState.deliver (s : PipeState) (i : Nat) (op : Op) (bytes : List UInt8) : PipeState :=
  match op.target.bind (s.reader i) with
  | none => s
  | some j => { s with clients := s.clients.modify j (Client.receive bytes) }

/-- The socket of a reply is not the end of the pipe that is written to. -/
def pipeStep (cfg : Config) (files : Int → List UInt8) (s : PipeState) :
    PipeEvent → Except Halt PipeState
  | .reply out l c reply =>
      if (c.conn.fd : Int) = cfg.pipefds.2 then .error .disabled
      else do
        let d ← pushReply cfg out l c reply
        return { s with
          clients := s.clients ++
            [⟨c.conn.fd, files l.res.fileFd, d.sq.drop c.sq.length, []⟩] }
  | .execute i count =>
      match s.clients[i]? with
      | none => .error .disabled
      | some client =>
          match client.chain with
          | [] => .error .disabled
          | sqe :: rest =>
              if count ≤ sqe.op.asked then
                match sqe.op.transfer cfg files s.pipe count with
                | none => .error .disabled
                | some (pipe, bytes) =>
                    let client := { client with chain := chainAfter sqe rest count }
                    .ok (PipeState.deliver { s.setClient i client with pipe := pipe } i sqe.op
                      bytes)
              else .error .disabled
  | .fail i =>
      match s.clients[i]? with
      | none => .error .disabled
      | some client =>
          match client.chain with
          | [] => .error .disabled
          | sqe :: rest =>
              .ok (s.setClient i { client with chain := if sqe.link then [] else rest })

def splicePipe (cfg : Config) (files : Int → List UInt8) :
    Automaton.Machine PipeState PipeEvent Halt where
  start := fun s => s = ⟨[], []⟩
  step := pipeStep cfg files

/-- Every socket has been given a prefix of the file its connection asked for. -/
def Isolated (s : PipeState) : Prop :=
  ∀ client ∈ s.clients, client.delivered <+: client.file

/-- No file is spliced into a pipe that still holds bytes. -/
def FillsEmpty (cfg : Config) (s : PipeState) : PipeEvent → Prop
  | .execute i _ => ∀ client ∈ s.clients[i]?, ∀ sqe ∈ client.chain.head?,
      sqe.op.fills cfg = true → s.pipe = []
  | _ => True

instance (cfg : Config) (s : PipeState) : (e : PipeEvent) → Decidable (FillsEmpty cfg s e)
  | .execute i _ => inferInstanceAs (Decidable (∀ client ∈ s.clients[i]?,
      ∀ sqe ∈ client.chain.head?, sqe.op.fills cfg = true → s.pipe = []))
  | .reply .. | .fail _ => .isTrue trivial

/-! The stages of a reply. -/

/-- The entry that brings `len` bytes of `file` into the pipe. -/
def Sqe.Fills (cfg : Config) (files : Int → List UInt8) (file : List UInt8) (len : Nat)
    (sqe : Sqe) : Prop :=
  ∃ fdIn, sqe.op = .splice fdIn 0 cfg.pipefds.2 (-1) len ∧ files fdIn = file ∧ sqe.link = true

/-- The entry that takes `len` bytes out of the pipe, for the socket `fd`. -/
def Sqe.Drains (cfg : Config) (fd len : Nat) (sqe : Sqe) : Prop :=
  sqe.op = .splice cfg.pipefds.1 (-1) fd (-1) len ∧ (fd : Int) ≠ cfg.pipefds.2

def Sqe.Sends (sqe : Sqe) : Prop :=
  ∃ fd text more, sqe.op = .send fd text more

inductive Stage (cfg : Config) (files : Int → List UInt8) (fd : Nat) (file : List UInt8) :
    List Sqe → Prop
  | over : Stage cfg files fd file []
  | line {send : Sqe} : send.Sends → Stage cfg files fd file [send]
  | head {send fill drain : Sqe} {len : Nat} : send.Sends → fill.Fills cfg files file len →
      drain.Drains cfg fd len → Stage cfg files fd file [send, fill, drain]
  | filling {fill drain : Sqe} {len : Nat} : fill.Fills cfg files file len →
      drain.Drains cfg fd len → Stage cfg files fd file [fill, drain]
  | draining {drain : Sqe} {len : Nat} : drain.Drains cfg fd len →
      Stage cfg files fd file [drain]

/-- The bytes a client is about to take out of the pipe. -/
def awaited (cfg : Config) : List Sqe → Nat
  | [sqe] =>
      match sqe.op with
      | .splice fdIn _ fdOut _ len =>
          if fdIn = cfg.pipefds.1 ∧ fdOut ≠ cfg.pipefds.2 then len else 0
      | _ => 0
  | _ => 0

theorem Sqe.Drains.awaited {cfg : Config} {fd len : Nat} {sqe : Sqe}
    (h : sqe.Drains cfg fd len) : awaited cfg [sqe] = len := by
  obtain ⟨hop, hne⟩ := h
  simp [L4Server.awaited, hop, hne]

variable {cfg : Config} {files : Int → List UInt8} {s t : PipeState}

/-- The chain of a reply begins at its head. -/
theorem pushReply_stage (files : Int → List UInt8) {out : Outcomes} {l : Locals} {c d : Ctx}
    {reply : Reply} (hfd : (c.conn.fd : Int) ≠ cfg.pipefds.2)
    (h : pushReply cfg out l c reply = .ok d) :
    Stage cfg files c.conn.fd (files l.res.fileFd) (d.sq.drop c.sq.length) ∧
      awaited cfg (d.sq.drop c.sq.length) = 0 := by
  rw [(pushReply_queued h).sq, List.drop_left]
  unfold replySqes
  split
  · exact ⟨.head ⟨_, _, _, rfl⟩ ⟨_, rfl, rfl, rfl⟩ ⟨rfl, hfd⟩, rfl⟩
  · exact ⟨.line ⟨_, _, _, rfl⟩, rfl⟩

/-! Steps. -/

/-- The cases of a step. -/
inductive PipeTurn (cfg : Config) (files : Int → List UInt8) (s : PipeState) :
    PipeEvent → PipeState → Prop
  | replied {out : Outcomes} {l : Locals} {c d : Ctx} {reply : Reply} :
      (c.conn.fd : Int) ≠ cfg.pipefds.2 → pushReply cfg out l c reply = .ok d →
      PipeTurn cfg files s (.reply out l c reply) { s with
        clients := s.clients ++
          [⟨c.conn.fd, files l.res.fileFd, d.sq.drop c.sq.length, []⟩] }
  | executed {i count : Nat} {client : Client} {sqe : Sqe} {rest : List Sqe}
      {pipe bytes : List UInt8} :
      s.clients[i]? = some client → client.chain = sqe :: rest → count ≤ sqe.op.asked →
      sqe.op.transfer cfg files s.pipe count = some (pipe, bytes) →
      PipeTurn cfg files s (.execute i count) (PipeState.deliver
        { s.setClient i { client with chain := chainAfter sqe rest count } with pipe := pipe } i
        sqe.op bytes)
  | failed {i : Nat} {client : Client} {sqe : Sqe} {rest : List Sqe} :
      s.clients[i]? = some client → client.chain = sqe :: rest →
      PipeTurn cfg files s (.fail i)
        (s.setClient i { client with chain := if sqe.link then [] else rest })

theorem pipeStep_turn {e : PipeEvent} (h : pipeStep cfg files s e = .ok t) :
    PipeTurn cfg files s e t := by
  cases e with
  | reply out l c reply =>
      simp only [pipeStep] at h
      split at h
      · cases h
      · next hfd =>
        obtain ⟨d, hpush, ht⟩ := bind_eq_ok.mp h
        cases ht
        exact .replied hfd hpush
  | execute i count =>
      simp only [pipeStep] at h
      split at h
      · cases h
      next client hget =>
      split at h
      · cases h
      next sqe rest hchain =>
      split at h
      case isFalse => cases h
      next hcount =>
      split at h
      · cases h
      next pipe bytes htransfer =>
      cases h
      exact .executed hget hchain hcount htransfer
  | fail i =>
      simp only [pipeStep] at h
      split at h
      · cases h
      next client hget =>
      split at h
      · cases h
      next sqe rest hchain =>
      cases h
      exact .failed hget hchain

/-- What goes to a client's own socket reaches the client. -/
theorem PipeState.deliver_own {i : Nat} {client : Client} {op : Op} {bytes : List UInt8}
    (hget : s.clients[i]? = some client)
    (htarget : bytes ≠ [] → op.target = some (client.fd : Int)) :
    s.deliver i op bytes =
      s.setClient i { client with delivered := client.delivered ++ bytes } := by
  by_cases hbytes : bytes = []
  · have hid : Client.receive [] = id := by
      funext client
      simp [Client.receive]
    have hsame : s.setClient i client = s := by
      obtain ⟨hlt, rfl⟩ := List.getElem?_eq_some_iff.mp hget
      rw [setClient, List.set_getElem_self]
    subst hbytes
    rw [List.append_nil, hsame]
    unfold deliver
    split
    · rfl
    · rw [hid, List.modify_id]
  · have hreader : s.reader i client.fd = some i := by simp [reader, hget]
    have hlt := (List.getElem?_eq_some_iff.mp hget).1
    rw [deliver, htarget hbytes, Option.bind_some, hreader]
    simp [setClient, List.modify_eq_set_getElem?, hget, Client.receive]

theorem PipeState.deliver_entry {i : Nat} {client : Client} {op : Op} {bytes : List UInt8}
    (hget : s.clients[i]? = some client)
    (htarget : bytes ≠ [] → op.target = some (client.fd : Int)) (chain : List Sqe)
    (pipe : List UInt8) :
    PipeState.deliver { s.setClient i { client with chain := chain } with pipe := pipe } i op
        bytes =
      { s.setClient i { client with
        chain := chain
        delivered := client.delivered ++ bytes } with pipe := pipe } := by
  have hlt := (List.getElem?_eq_some_iff.mp hget).1
  have hmoved : ({ s.setClient i { client with chain := chain } with
      pipe := pipe } : PipeState).clients[i]? = some { client with chain := chain } := by
    simp [setClient, hlt]
  rw [deliver_own hmoved htarget]
  simp [setClient]

/-- The entries of a reply name its own socket, or bring bytes into the pipe. -/
theorem Stage.target {fd : Nat} {file : List UInt8} {sqe : Sqe} {rest : List Sqe}
    {pipe pipe' bytes : List UInt8} {count : Nat} (h : Stage cfg files fd file (sqe :: rest))
    (htransfer : sqe.op.transfer cfg files pipe count = some (pipe', bytes))
    (hbytes : bytes ≠ []) : sqe.op.target = some (fd : Int) := by
  cases h with
  | line hsend | head hsend _ _ =>
      obtain ⟨_, _, _, hop⟩ := hsend
      rw [hop] at htransfer
      cases htransfer
      exact absurd rfl hbytes
  | filling hfill _ =>
      obtain ⟨_, hop, -, -⟩ := hfill
      simp only [hop, Op.transfer, if_true, Option.ite_none_right_eq_some] at htransfer
      cases htransfer.2
      exact absurd rfl hbytes
  | draining hdrain => rw [hdrain.1, Op.target]

structure Client.Good (cfg : Config) (files : Int → List UInt8) (client : Client) : Prop where
  stage : Stage cfg files client.fd client.file client.chain
  fresh : client.chain ≠ [] → client.delivered = []
  delivered : client.delivered <+: client.file

/-- What is in the pipe belongs to the one client that is about to take it. -/
structure PipeInv (cfg : Config) (files : Int → List UInt8) (s : PipeState) : Prop where
  good : ∀ (i : Nat) (client : Client), s.clients[i]? = some client → client.Good cfg files
  owner : ∀ (i : Nat) (client : Client), s.clients[i]? = some client →
    awaited cfg client.chain ≠ 0 →
    s.pipe = client.file.take (awaited cfg client.chain) ∧
      s.pipe.length = awaited cfg client.chain
  unique : ∀ (i j : Nat) (client other : Client), s.clients[i]? = some client →
    s.clients[j]? = some other → awaited cfg client.chain ≠ 0 →
    awaited cfg other.chain ≠ 0 → i = j

theorem PipeInv.isolated (hs : PipeInv cfg files s) : Isolated s := by
  intro client hmem
  obtain ⟨i, hget⟩ := List.mem_iff_getElem?.mp hmem
  exact (hs.good i client hget).delivered

theorem getElem?_set_cases {α : Type} {l : List α} {i j : Nat} {a b : α}
    (h : (l.set i a)[j]? = some b) : (j = i ∧ b = a) ∨ (j ≠ i ∧ l[j]? = some b) := by
  by_cases hij : j = i
  · subst hij
    rw [List.getElem?_set, if_pos rfl] at h
    split at h
    · exact .inl ⟨rfl, (Option.some.inj h).symm⟩
    · cases h
  · rw [List.getElem?_set_ne (Ne.symm hij)] at h
    exact .inr ⟨hij, h⟩

/-- One client moves on. Either it awaits nothing and the pipe is as it was, or
no other client awaits anything. -/
theorem PipeInv.setClient (hs : PipeInv cfg files s) {i : Nat} {client : Client}
    {pipe : List UInt8} (hgood : client.Good cfg files)
    (hpipe : (awaited cfg client.chain = 0 ∧ pipe = s.pipe) ∨
      ((∀ (j : Nat) (other : Client), j ≠ i → s.clients[j]? = some other →
          awaited cfg other.chain = 0) ∧
        (awaited cfg client.chain ≠ 0 → pipe = client.file.take (awaited cfg client.chain) ∧
          pipe.length = awaited cfg client.chain))) :
    PipeInv cfg files { s.setClient i client with pipe := pipe } := by
  have hthis (hawaits : awaited cfg client.chain ≠ 0) :
      ∀ (j : Nat) (other : Client), j ≠ i → s.clients[j]? = some other →
        awaited cfg other.chain = 0 :=
    (hpipe.resolve_left fun h => hawaits h.1).1
  constructor
  · intro j other hget
    rcases getElem?_set_cases hget with ⟨-, rfl⟩ | ⟨-, hold⟩
    · exact hgood
    · exact hs.good j other hold
  · intro j other hget hawaits
    rcases getElem?_set_cases hget with ⟨-, rfl⟩ | ⟨hne, hold⟩
    · exact (hpipe.resolve_left fun h => hawaits h.1).2 hawaits
    · rcases hpipe with ⟨-, rfl⟩ | ⟨hothers, -⟩
      · exact hs.owner j other hold hawaits
      · exact absurd (hothers j other hne hold) hawaits
  · intro j k other other' hget hget' hawaits hawaits'
    rcases getElem?_set_cases hget with ⟨rfl, rfl⟩ | ⟨hne, hold⟩
    · rcases getElem?_set_cases hget' with ⟨rfl, -⟩ | ⟨hne', hold'⟩
      · rfl
      · exact absurd (hthis hawaits k other' hne' hold') hawaits'
    · rcases getElem?_set_cases hget' with ⟨rfl, rfl⟩ | ⟨-, hold'⟩
      · exact absurd (hthis hawaits' j other hne hold) hawaits
      · exact hs.unique j k other other' hold hold' hawaits hawaits'

/-- With an empty pipe nobody awaits anything. -/
theorem PipeInv.quiet (hs : PipeInv cfg files s) (hpipe : s.pipe = []) (i : Nat)
    (client : Client) (hget : s.clients[i]? = some client) : awaited cfg client.chain = 0 := by
  by_contra hawaits
  obtain ⟨-, hlen⟩ := hs.owner i client hget hawaits
  rw [hpipe] at hlen
  exact hawaits hlen.symm

/-- A chain that is over, with what its client has been given. -/
theorem Client.good_over {fd : Nat} {file delivered : List UInt8} (h : delivered <+: file) :
    Client.Good cfg files ⟨fd, file, [], delivered⟩ :=
  ⟨.over, fun hne => absurd rfl hne, h⟩

theorem Client.good_begun {fd : Nat} {file : List UInt8} {chain : List Sqe}
    (h : Stage cfg files fd file chain) : Client.Good cfg files ⟨fd, file, chain, []⟩ :=
  ⟨h, fun _ => rfl, List.nil_prefix⟩

theorem chainAfter_nil (sqe : Sqe) (count : Nat) : chainAfter sqe [] count = [] := by
  unfold chainAfter
  split <;> rfl

theorem chainAfter_cases (sqe : Sqe) (rest : List Sqe) (count : Nat) :
    chainAfter sqe rest count = [] ∨
      chainAfter sqe rest count = rest ∧ (sqe.link = true → count = sqe.op.asked) := by
  unfold chainAfter
  split
  · exact .inl rfl
  · next h =>
    refine .inr ⟨rfl, fun hlink => ?_⟩
    simpa [hlink] using h

theorem Sqe.Sends.transfer {sqe : Sqe} (h : sqe.Sends) (pipe : List UInt8) (count : Nat) :
    sqe.op.transfer cfg files pipe count = some (pipe, []) := by
  obtain ⟨fd, text, more, hop⟩ := h
  rw [hop]
  rfl

theorem PipeInv.execute (hs : PipeInv cfg files s) {i : Nat} {client : Client} {sqe : Sqe}
    {rest : List Sqe} {count : Nat} {pipe bytes : List UInt8}
    (hget : s.clients[i]? = some client) (hchain : client.chain = sqe :: rest)
    (hclear : sqe.op.fills cfg = true → s.pipe = []) (hcount : count ≤ sqe.op.asked)
    (htransfer : sqe.op.transfer cfg files s.pipe count = some (pipe, bytes)) :
    PipeInv cfg files { s.setClient i { client with
      chain := chainAfter sqe rest count
      delivered := client.delivered ++ bytes } with pipe := pipe } := by
  obtain ⟨hstage, hfresh, -⟩ := hs.good i client hget
  have hnothing := hfresh (by simp [hchain])
  rw [hnothing, List.nil_append]
  rw [hchain] at hstage
  cases hstage with
  | line hsend =>
      rw [hsend.transfer] at htransfer
      cases htransfer
      rw [chainAfter_nil]
      exact hs.setClient (Client.good_over List.nil_prefix) (.inl ⟨rfl, rfl⟩)
  | head hsend hfill hdrain =>
      rw [hsend.transfer] at htransfer
      cases htransfer
      rcases chainAfter_cases sqe _ count with h | ⟨h, -⟩
      · rw [h]
        exact hs.setClient (Client.good_over List.nil_prefix) (.inl ⟨rfl, rfl⟩)
      · rw [h]
        exact hs.setClient (Client.good_begun (.filling hfill hdrain)) (.inl ⟨rfl, rfl⟩)
  | @filling _ drain len hfill hdrain =>
      obtain ⟨fdIn, hop, hfile, hlink⟩ := hfill
      have hempty := hclear (by simp [hop, Op.fills])
      have hquiet (j : Nat) (other : Client) (_ : j ≠ i) := hs.quiet hempty j other
      simp only [hop, Op.transfer, if_true, hempty, hfile, Int.toNat_zero, List.drop_zero,
        List.nil_append] at htransfer
      split at htransfer
      · next hle =>
        cases htransfer
        rcases chainAfter_cases sqe [drain] count with h | ⟨h, hfull⟩
        · rw [h]
          exact hs.setClient (Client.good_over List.nil_prefix) (.inr ⟨hquiet, fun h => absurd rfl h⟩)
        · rw [h]
          refine hs.setClient (Client.good_begun (.draining hdrain)) (.inr ⟨hquiet, fun _ => ?_⟩)
          have hlen : count = len := by simpa [hop, Op.asked] using hfull hlink
          rw [hdrain.awaited, ← hlen, List.length_take]
          exact ⟨rfl, Nat.min_eq_left hle⟩
      · cases htransfer
  | @draining _ len hdrain =>
      have hawaited := hdrain.awaited
      obtain ⟨hop, hne⟩ := hdrain
      simp only [hop, Op.transfer, if_neg hne, if_true] at htransfer
      split at htransfer
      · next hle =>
        cases htransfer
        rw [chainAfter_nil]
        by_cases hzero : len = 0
        · have hnone : count = 0 := by
            simp only [hop, Op.asked] at hcount
            omega
          subst hnone
          exact hs.setClient (Client.good_over List.nil_prefix) (.inl ⟨rfl, rfl⟩)
        · have hawaits : awaited cfg client.chain ≠ 0 := by rwa [hchain, hawaited]
          obtain ⟨hpipe, -⟩ := hs.owner i client hget hawaits
          have hown : s.pipe <+: client.file := hpipe ▸ List.take_prefix _ _
          refine hs.setClient (Client.good_over ((List.take_prefix _ _).trans hown))
            (.inr ⟨fun j other hne hother => ?_, fun h => absurd rfl h⟩)
          by_contra hother'
          exact hne (hs.unique j i other client hother hget hother' hawaits)
      · cases htransfer

/-- An entry that fails ends its chain, or is the last one of it. -/
theorem PipeInv.fail (hs : PipeInv cfg files s) {i : Nat} {client : Client} {sqe : Sqe}
    {rest : List Sqe} (hget : s.clients[i]? = some client) (hchain : client.chain = sqe :: rest) :
    PipeInv cfg files (s.setClient i { client with chain := if sqe.link then [] else rest }) := by
  obtain ⟨hstage, hfresh, -⟩ := hs.good i client hget
  rw [hfresh (by simp [hchain])]
  have hover : PipeInv cfg files (s.setClient i ⟨client.fd, client.file, [], []⟩) :=
    hs.setClient (Client.good_over List.nil_prefix) (.inl ⟨rfl, rfl⟩)
  rw [hchain] at hstage
  cases hstage with
  | line _ => simpa using hover
  | draining _ => simpa using hover
  | filling hfill _ =>
      obtain ⟨-, -, -, hlink⟩ := hfill
      simpa [hlink] using hover
  | head _ hfill hdrain =>
      split
      · exact hover
      · exact hs.setClient (Client.good_begun (.filling hfill hdrain)) (.inl ⟨rfl, rfl⟩)

/-- A new client awaits nothing. -/
theorem PipeInv.reply (hs : PipeInv cfg files s) {client : Client} (hgood : client.Good cfg files)
    (hawaited : awaited cfg client.chain = 0) :
    PipeInv cfg files { s with clients := s.clients ++ [client] } := by
  have hcases {j : Nat} {other : Client} (h : (s.clients ++ [client])[j]? = some other) :
      other = client ∨ s.clients[j]? = some other := by
    rw [List.getElem?_append] at h
    split at h
    · exact .inr h
    · exact .inl (List.mem_singleton.mp (List.mem_of_getElem? h))
  constructor
  · intro j other hget
    rcases hcases hget with rfl | hold
    · exact hgood
    · exact hs.good j other hold
  · intro j other hget hawaits
    rcases hcases hget with rfl | hold
    · exact absurd hawaited hawaits
    · exact hs.owner j other hold hawaits
  · intro j k other other' hget hget' hawaits hawaits'
    rcases hcases hget with rfl | hold
    · exact absurd hawaited hawaits
    · rcases hcases hget' with rfl | hold'
      · exact absurd hawaited hawaits'
      · exact hs.unique j k other other' hold hold' hawaits hawaits'

/-- What an entry takes out of the pipe is for the client whose entry it is. -/
theorem PipeInv.target (hs : PipeInv cfg files s) {i : Nat} {client : Client} {sqe : Sqe}
    {rest : List Sqe} {count : Nat} {pipe bytes : List UInt8}
    (hget : s.clients[i]? = some client) (hchain : client.chain = sqe :: rest)
    (htransfer : sqe.op.transfer cfg files s.pipe count = some (pipe, bytes))
    (hbytes : bytes ≠ []) : sqe.op.target = some (client.fd : Int) := by
  have hstage := (hs.good i client hget).stage
  rw [hchain] at hstage
  exact hstage.target htransfer hbytes

theorem PipeInv.step (hs : PipeInv cfg files s) {e : PipeEvent} (hclear : FillsEmpty cfg s e)
    (h : pipeStep cfg files s e = .ok t) : PipeInv cfg files t := by
  cases pipeStep_turn h with
  | replied hfd hpush =>
      obtain ⟨hstage, hawaited⟩ := pushReply_stage files hfd hpush
      exact hs.reply (Client.good_begun hstage) hawaited
  | executed hget hchain hcount htransfer =>
      rw [PipeState.deliver_entry hget (hs.target hget hchain htransfer)]
      exact hs.execute hget hchain (hclear _ hget _ (by simp [hchain])) hcount htransfer
  | failed hget hchain => exact hs.fail hget hchain

/-- While files go into an empty pipe only, every socket gets its own file. -/
theorem splicePipe_isolates (cfg : Config) (files : Int → List UInt8) (s : PipeState)
    (hs : Automaton.Reach (splicePipe cfg files) (FillsEmpty cfg) s) : Isolated s := by
  refine (hs.invariant (P := PipeInv cfg files) ?_ fun _ _ _ h hclear ht => h.step hclear ht).isolated
  rintro s rfl
  exact ⟨by simp, by simp, by simp⟩

/-! Runs of two clients. -/

def pipeConfig : Config := { bareConfig with watch := true }

/-- The files behind descriptors 10 and 11. -/
def pipeFiles (fd : Int) : List UInt8 := if fd = 10 then ascii "AA" else ascii "BB"

/-- The reply to the client on `fd`, with the two bytes of a file. -/
def fileReply (fd : Nat) (fileFd : Int) : PipeEvent :=
  .reply .granted
    ⟨.cleared, { responseExample with fileFd := fileFd, fileSz := 2 }, responseExample.str⟩
    ⟨{ ServerConnection.zero with fd := fd, svr := true }, fd, []⟩ .composed

/-- Both clients have been sent the head of their response. -/
def headEvents : List PipeEvent :=
  [fileReply 7 10, fileReply 8 11, .execute 0 0, .execute 1 0]

/-- What each client asked for and what it has been given. -/
def PipeState.received (s : PipeState) : List (List UInt8 × List UInt8) :=
  s.clients.map fun client => (client.file, client.delivered)

theorem exists_pipeRun (es : List PipeEvent) {b : List (List UInt8 × List UInt8)}
    (h : ((Automaton.run (splicePipe pipeConfig pipeFiles) (headEvents ++ es) ⟨[], []⟩).toOption.map
      PipeState.received) = some b) :
    ∃ s, Automaton.run (splicePipe pipeConfig pipeFiles) (headEvents ++ es) ⟨[], []⟩ = .ok s ∧
      s.received = b :=
  exists_of_map_toOption h

/-- The second file waits for the first to be gone; its transfer is cut short. -/
theorem splicePipe_isolates_turns :
    ∃ s : PipeState, s.received = [(ascii "AA", ascii "AA"), (ascii "BB", ascii "B")] ∧
      Isolated s := by
  obtain ⟨s, hs, hview⟩ := exists_pipeRun
    [.execute 0 2, .execute 0 2, .execute 1 2, .execute 1 1]
    (b := [(ascii "AA", ascii "AA"), (ascii "BB", ascii "B")]) (by decide +kernel)
  refine ⟨s, hview, splicePipe_isolates pipeConfig pipeFiles s ?_⟩
  exact Automaton.reach_of_run (.start rfl) (by decide +kernel) hs

/-- Both files are in the pipe when the second client's splice takes the first
one's bytes. -/
theorem splicePipe_not_isolates :
    ∃ s, Automaton.Reachable (splicePipe pipeConfig pipeFiles) s ∧ ¬ Isolated s := by
  obtain ⟨s, hs, hview⟩ := exists_pipeRun [.execute 0 2, .execute 1 2, .execute 1 2]
    (b := [(ascii "AA", []), (ascii "BB", ascii "AA")]) (by decide +kernel)
  refine ⟨s, Automaton.reachable_of_run rfl hs, fun hisolated => ?_⟩
  have hmem : (ascii "BB", ascii "AA") ∈ s.received := by
    rw [hview]
    decide
  obtain ⟨client, hclient, heq⟩ := List.mem_map.mp hmem
  obtain ⟨hfile, hdelivered⟩ := Prod.mk.inj heq
  have hprefix := hisolated client hclient
  rw [hfile, hdelivered] at hprefix
  revert hprefix
  decide

end L4Server
