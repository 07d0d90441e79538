import L4Server.SplicePipe

/-!
Whole files through the pipe. Where the files go in one after the other, a client
whose own transfers neither fail nor fall short has its file when its chain is over,
if an `unsigned int` can measure the file.
-/
namespace L4Server
open CMemory Automaton

/-- The reply of client `i` is a composed one with the size of its file, and what the
kernel carries out of it it carries out whole. -/
def Smooth (files : Int → List UInt8) (i : Nat) (s : PipeState) : PipeEvent → Prop
  | .reply _ l _ reply => s.clients.length = i →
      reply = .composed ∧ l.res.fileSz = (files l.res.fileFd).length
  | .execute j count => j = i →
      ∀ client ∈ s.clients[i]?, ∀ sqe ∈ client.chain.head?, count = sqe.op.asked
  | .fail j => j ≠ i

instance (files : Int → List UInt8) (i : Nat) (s : PipeState) :
    (e : PipeEvent) → Decidable (Smooth files i s e)
  | .reply _ l _ reply => inferInstanceAs (Decidable (s.clients.length = i →
      reply = .composed ∧ l.res.fileSz = (files l.res.fileFd).length))
  | .execute j count => inferInstanceAs (Decidable (j = i → ∀ client ∈ s.clients[i]?,
      ∀ sqe ∈ client.chain.head?, count = sqe.op.asked))
  | .fail j => inferInstanceAs (Decidable (j ≠ i))

/-- Files go in one after the other, and that of client `i` whole. -/
def OneByOne (cfg : Config) (files : Int → List UInt8) (i : Nat) (s : PipeState)
    (e : PipeEvent) : Prop :=
  FillsEmpty cfg s e ∧ Smooth files i s e

instance (cfg : Config) (files : Int → List UInt8) (i : Nat) (s : PipeState) (e : PipeEvent) :
    Decidable (OneByOne cfg files i s e) :=
  inferInstanceAs (Decidable (_ ∧ _))

/-- What `unsigned int len` makes of the size of a file. -/
def spliced (file : List UInt8) : Nat := file.length % 2 ^ 32

/-- A chain on its way, or over with the file delivered. -/
inductive Serving (cfg : Config) (files : Int → List UInt8) (fd : Nat) (file : List UInt8) :
    List Sqe → List UInt8 → Prop
  | head {send fill drain : Sqe} : send.Sends → fill.Fills cfg files file (spliced file) →
      drain.Drains cfg fd (spliced file) → Serving cfg files fd file [send, fill, drain] []
  | filling {fill drain : Sqe} : fill.Fills cfg files file (spliced file) →
      drain.Drains cfg fd (spliced file) → Serving cfg files fd file [fill, drain] []
  | draining {drain : Sqe} : drain.Drains cfg fd (spliced file) →
      Serving cfg files fd file [drain] []
  | done : Serving cfg files fd file [] (file.take (spliced file))

variable {cfg : Config} {files : Int → List UInt8} {s t : PipeState}

theorem Serving.over {fd : Nat} {file delivered : List UInt8}
    (h : Serving cfg files fd file [] delivered) : delivered = file.take (spliced file) := by
  cases h
  rfl

/-- Client `i` is being served, or not there yet. -/
def ServedInTurn (cfg : Config) (files : Int → List UInt8) (i : Nat) (s : PipeState) : Prop :=
  ∀ client, s.clients[i]? = some client →
    Serving cfg files client.fd client.file client.chain client.delivered

theorem chainAfter_asked (sqe : Sqe) (rest : List Sqe) :
    chainAfter sqe rest sqe.op.asked = rest := by
  simp [chainAfter]

theorem pushReply_serving (hwatch : cfg.watch = true) {out : Outcomes} {l : Locals} {c d : Ctx}
    (hfd : (c.conn.fd : Int) ≠ cfg.pipefds.2) (hsize : l.res.fileSz = (files l.res.fileFd).length)
    (h : pushReply cfg out l c .composed = .ok d) :
    Serving cfg files c.conn.fd (files l.res.fileFd) (d.sq.drop c.sq.length) [] := by
  rw [(pushReply_queued h).sq, List.drop_left, replySqes, if_pos ⟨hwatch, rfl⟩, hsize]
  exact .head ⟨_, _, _, rfl⟩ ⟨_, rfl, rfl, rfl⟩ ⟨rfl, hfd⟩

/-- The next entry of a chain, carried out whole. -/
theorem PipeInv.serving (hs : PipeInv cfg files s) {i : Nat} {client : Client} {sqe : Sqe}
    {rest : List Sqe} {pipe bytes : List UInt8} (hget : s.clients[i]? = some client)
    (hchain : client.chain = sqe :: rest)
    (hserving : Serving cfg files client.fd client.file client.chain client.delivered)
    (htransfer : sqe.op.transfer cfg files s.pipe sqe.op.asked = some (pipe, bytes)) :
    Serving cfg files client.fd client.file (chainAfter sqe rest sqe.op.asked)
      (client.delivered ++ bytes) := by
  rw [chainAfter_asked]
  have howner := hs.owner i client hget
  rw [hchain] at hserving howner
  generalize client.delivered = delivered at *
  cases hserving with
  | head hsend hfill hdrain =>
      rw [hsend.transfer] at htransfer
      cases htransfer
      exact .filling hfill hdrain
  | filling hfill hdrain =>
      obtain ⟨fdIn, hop, -, -⟩ := hfill
      simp only [hop, Op.transfer, if_true] at htransfer
      split at htransfer
      · cases htransfer
        exact .draining hdrain
      · cases htransfer
  | draining hdrain =>
      rw [hdrain.awaited] at howner
      obtain ⟨hop, hne⟩ := hdrain
      simp only [hop, Op.transfer, Op.asked, if_neg hne, if_true] at htransfer
      split at htransfer
      · cases htransfer
        have htaken : s.pipe.take (spliced client.file) =
            client.file.take (spliced client.file) := by
          by_cases hzero : spliced client.file = 0
          · rw [hzero, List.take_zero, List.take_zero]
          · obtain ⟨hpipe, hlength⟩ := howner hzero
            rw [List.take_of_length_le (Nat.le_of_eq hlength), hpipe]
        rw [List.nil_append, htaken]
        exact .done
      · cases htransfer

/-- What happens to another client is none of client `i`'s business. -/
theorem ServedInTurn.setClient {i j : Nat} (hserved : ServedInTurn cfg files i s) {client : Client}
    (h : j = i → Serving cfg files client.fd client.file client.chain client.delivered)
    (pipe : List UInt8) :
    ServedInTurn cfg files i { s.setClient j client with pipe := pipe } := by
  intro other hget
  rcases getElem?_set_cases hget with ⟨heq, rfl⟩ | ⟨-, hold⟩
  · exact h heq.symm
  · exact hserved other hold

theorem ServedInTurn.step {i : Nat} (hserved : ServedInTurn cfg files i s)
    (hs : PipeInv cfg files s) (hwatch : cfg.watch = true) {e : PipeEvent}
    (hsmooth : Smooth files i s e) (h : pipeStep cfg files s e = .ok t) :
    ServedInTurn cfg files i t := by
  cases pipeStep_turn h with
  | @replied out l c d reply hfd hpush =>
      intro client hget
      rcases Nat.lt_trichotomy i s.clients.length with hlt | rfl | hgt
      · rw [List.getElem?_append_left hlt] at hget
        exact hserved client hget
      · obtain ⟨rfl, hsize⟩ := hsmooth rfl
        rw [List.getElem?_concat_length] at hget
        cases hget
        exact pushReply_serving hwatch hfd hsize hpush
      · rw [List.getElem?_eq_none (by simp; omega)] at hget
        cases hget
  | @executed j count client sqe rest pipe bytes hget hchain hcount htransfer =>
      rw [PipeState.deliver_entry hget (hs.target hget hchain htransfer)]
      refine hserved.setClient (fun heq => ?_) pipe
      subst heq
      obtain rfl : count = sqe.op.asked := hsmooth rfl client hget sqe (by simp [hchain])
      exact hs.serving hget hchain (hserved client hget) htransfer
  | failed hget hchain => exact hserved.setClient (fun heq => absurd heq hsmooth) s.pipe

theorem servedInTurn_reach (hwatch : cfg.watch = true) {i : Nat}
    (hs : Reach (splicePipe cfg files) (OneByOne cfg files i) s) :
    PipeInv cfg files s ∧ ServedInTurn cfg files i s := by
  refine hs.invariant (P := fun s => PipeInv cfg files s ∧ ServedInTurn cfg files i s) ?_ ?_
  · rintro s rfl
    exact ⟨⟨by simp, by simp, by simp⟩, by simp [ServedInTurn]⟩
  · intro s e t h hg ht
    exact ⟨h.1.step hg.1 ht, h.2.step h.1 hwatch hg.2 ht⟩

/-- A client whose chain is over has the whole file if it is shorter than 4 GiB,
and else not, whatever becomes of the others' transfers. -/
theorem splicePipe_delivers (cfg : Config) (files : Int → List UInt8) (hwatch : cfg.watch = true)
    (i : Nat) (s : PipeState) (hs : Reach (splicePipe cfg files) (OneByOne cfg files i) s)
    (client : Client) (hget : s.clients[i]? = some client) (hdone : client.chain = []) :
    client.delivered = client.file ↔ client.file.length < 2 ^ 32 := by
  have hserving := (servedInTurn_reach hwatch hs).2 client hget
  rw [hdone] at hserving
  rw [hserving.over, spliced]
  constructor
  · intro hwhole
    have hlength := congrArg List.length hwhole
    rw [List.length_take] at hlength
    omega
  · intro hlt
    rw [Nat.mod_eq_of_lt hlt, List.take_length]

/-- The first client's splice fails; the second one is served whole. -/
theorem splicePipe_delivers_second :
    ∃ (s : PipeState) (client : Client),
      s.received = [(ascii "AA", []), (ascii "BB", ascii "BB")] ∧
      s.clients[1]? = some client ∧ client.chain = [] ∧ client.delivered = client.file := by
  obtain ⟨s, hs, hview⟩ := exists_of_map_toOption
    (x := run (splicePipe pipeConfig pipeFiles)
      (headEvents ++ [.fail 0, .execute 1 2, .execute 1 2]) ⟨[], []⟩)
    (f := fun s : PipeState => (s.received, s.clients[1]?.map fun client =>
      (client.chain, client.file.length)))
    (b := ([(ascii "AA", []), (ascii "BB", ascii "BB")], some ([], 2))) (by decide +kernel)
  obtain ⟨hreceived, hclient⟩ := Prod.mk.inj hview
  obtain ⟨client, hget, hview⟩ := Option.map_eq_some_iff.mp hclient
  obtain ⟨hdone, hlength⟩ := Prod.mk.inj hview
  refine ⟨s, client, hreceived, hget, hdone, ?_⟩
  refine (splicePipe_delivers pipeConfig pipeFiles rfl 1 s ?_ client hget hdone).mpr (by omega)
  exact reach_of_run (.start rfl) (by decide +kernel) hs

end L4Server
