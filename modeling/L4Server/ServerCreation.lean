import Mathlib.Algebra.Order.Ring.Int
import Mathlib.Tactic.Common

/-!
`create_server` and `create_listening_socket` on everything the calls in them
may return. The descriptors that the two have opened and not closed are
threaded through as a list.
-/
namespace L4Server

/-- What a raw system call returns: a value of at least zero, or a negated errno. -/
structure SyscallRet where
  val : Int
  ge : -4095 ≤ val
  lt : val < 2 ^ 31
  deriving DecidableEq

/-- The result of `fscanf(file, "%lu", ..)`: a number has been read; nothing
matched; the file had ended. -/
inductive Scanned
  | number (value : BitVec 64)
  | mismatch
  | eof
  deriving DecidableEq

/-- The results of the calls, made or not. `malloc` is given the size, `fopen`
the descriptor of its stream; `pipefds` is what a successful `pipe2` stores. -/
structure CreateCalls where
  getrlimit : SyscallRet
  rlimMax : BitVec 64
  setrlimit : SyscallRet
  malloc : Nat → Bool
  socket : SyscallRet
  inetAton : Bool
  bind : SyscallRet
  fopen : Option Nat
  fscanf : Scanned
  listen : SyscallRet
  pipe2 : SyscallRet
  pipefds : Nat × Nat

/-- The descriptors that successful calls return. -/
def CreateCalls.descriptors (calls : CreateCalls) : List Nat :=
  (if 0 ≤ calls.socket.val then [calls.socket.val.toNat] else []) ++ calls.fopen.toList ++
    if 0 ≤ calls.pipe2.val then [calls.pipefds.1, calls.pipefds.2] else []

/-- A descriptor that is open is not returned once more. -/
structure CreateOutcomes extends CreateCalls where
  distinct : toCreateCalls.descriptors.Nodup

/-! The functions. -/

def getNofileLimit (o : CreateOutcomes) : Int :=
  if o.getrlimit.val < 0 then -1
  else if o.setrlimit.val < 0 then -1
  else o.rlimMax.toInt

/-- `get_somaxconn`; the stream it opens stays open. -/
def getSomaxconn (o : CreateOutcomes) (fds : List Nat) : BitVec 64 × List Nat :=
  match o.fopen with
  | none => (0, fds)
  | some file =>
      match o.fscanf with
      | .number value => (value, file :: fds)
      | .mismatch | .eof => (0, file :: fds)

/-- `__close` -/
def closeFd (fd : Nat) (fds : List Nat) : List Nat := fds.filter (· ≠ fd)

/-- The conversion of `get_somaxconn()` to the `int` it is kept in. -/
def toBacklog (somaxconn : BitVec 64) : Int := (somaxconn.setWidth 32).toInt

def createListeningSocket (o : CreateOutcomes) (fds : List Nat) : Int × List Nat :=
  if o.socket.val < 0 then (-1, fds)
  else
    let fd := o.socket.val.toNat
    let fds := fd :: fds
    if !o.inetAton then (-1, closeFd fd fds)
    else if o.bind.val = -1 then (-1, closeFd fd fds)
    else
      let (somaxconn, fds) := getSomaxconn o fds
      if toBacklog somaxconn = 0 then (-1, closeFd fd fds)
      else if o.listen.val = -1 then (-1, closeFd fd fds)
      else (fd, fds)

/-- `struct server_info` as it is returned; the slots are all clear. -/
structure ServerInfo where
  listenFd : Int
  pipefds : Option (Nat × Nat)
  slots : Int
  deriving DecidableEq

/-- `sizeof(struct server_info) + sizeof(struct server_connection) * nfds` -/
def svrLen (watch : Bool) (nfds : Int) : Nat :=
  (((if watch then 24 else 16) + 40 * nfds) % 2 ^ 64).toNat

/-- `watch` says whether `WATCH_STATIC_FILES` is defined. -/
def createServer (watch : Bool) (o : CreateOutcomes) : Option ServerInfo × List Nat :=
  let nfds := getNofileLimit o
  if nfds < 0 then (none, [])
  else if !o.malloc (svrLen watch nfds) then (none, [])
  else
    let (listenFd, fds) := createListeningSocket o []
    if listenFd < 0 then (none, fds)
    else if watch then
      if o.pipe2.val < 0 then (none, fds)
      else (some ⟨listenFd, some o.pipefds, nfds⟩, o.pipefds.2 :: o.pipefds.1 :: fds)
    else (some ⟨listenFd, none, nfds⟩, fds)

/-! What is asked of them. -/

/-- The file has been opened and a number read from it. -/
def CreateCalls.ReadsSomaxconn (calls : CreateCalls) : Prop :=
  calls.fopen.isSome = true ∧ ∃ value, calls.fscanf = .number value

/-- Every step has succeeded. -/
structure CreateOutcomes.Succeeds (watch : Bool) (o : CreateOutcomes) : Prop where
  getrlimit : 0 ≤ o.getrlimit.val
  setrlimit : 0 ≤ o.setrlimit.val
  malloc : o.malloc (svrLen watch (getNofileLimit o)) = true
  socket : 0 ≤ o.socket.val
  inetAton : o.inetAton = true
  bind : 0 ≤ o.bind.val
  somaxconn : o.ReadsSomaxconn
  listen : 0 ≤ o.listen.val
  pipe2 : watch = true → 0 ≤ o.pipe2.val

/-- A server is returned only where every step has succeeded, and where none is,
no descriptor is left open. -/
def Accountable (watch : Bool) (o : CreateOutcomes) : Prop :=
  ((createServer watch o).1.isSome = true → o.Succeeds watch) ∧
    ((createServer watch o).1 = none → (createServer watch o).2 = [])

/-- A step that is checked as it should be fails before the file is opened. -/
def CreateOutcomes.FailsEarly (watch : Bool) (o : CreateOutcomes) : Prop :=
  o.getrlimit.val < 0 ∨ o.setrlimit.val < 0 ∨ o.rlimMax.toInt < 0 ∨
    o.malloc (svrLen watch o.rlimMax.toInt) = false ∨ o.socket.val < 0 ∨ o.inetAton = false ∨
    o.bind.val = -1 ∨ o.fopen = none

/-- From `bind` on every step succeeds, the value read being no multiple of 2^32. -/
structure CreateOutcomes.Finishes (watch : Bool) (o : CreateOutcomes) : Prop where
  bind : 0 ≤ o.bind.val
  somaxconn : ∃ value, o.fscanf = .number value ∧ toBacklog value ≠ 0
  listen : 0 ≤ o.listen.val
  pipe2 : watch = true → 0 ≤ o.pipe2.val

/-! The listening socket. -/

variable {o : CreateOutcomes} {watch : Bool}

theorem closeFd_self (fd : Nat) : closeFd fd [fd] = [] := by simp [closeFd]

/-- The stream is not the socket. -/
theorem closeFd_file {file : Nat} (hfile : o.fopen = some file) (hsocket : 0 ≤ o.socket.val) :
    closeFd o.socket.val.toNat [file, o.socket.val.toNat] = [file] := by
  have hdistinct := o.distinct
  rw [CreateCalls.descriptors, if_pos hsocket, hfile, List.append_assoc] at hdistinct
  have hne : file ≠ o.socket.val.toNat := by
    intro h
    simp [h] at hdistinct
  simp [closeFd, hne]

/-- The failures before the file is opened are seen, and the socket is closed. -/
theorem createListeningSocket_early
    (h : o.socket.val < 0 ∨ o.inetAton = false ∨ o.bind.val = -1 ∨ o.fopen = none) :
    createListeningSocket o [] = (-1, []) := by
  unfold createListeningSocket
  by_cases hsocket : o.socket.val < 0
  · rw [if_pos hsocket]
  rw [if_neg hsocket]
  simp only [closeFd_self]
  by_cases hinet : o.inetAton = false
  · rw [hinet]
    rfl
  by_cases hbind : o.bind.val = -1
  · simp [hinet, hbind]
  have hfopen : o.fopen = none := by tauto
  have hzero : toBacklog 0#64 = 0 := by decide
  simp [hinet, hbind, getSomaxconn, hfopen, hzero, closeFd_self]

/-- What `get_somaxconn` returns of the file. -/
def Scanned.somaxconn : Scanned → BitVec 64
  | .number value => value
  | .mismatch | .eof => 0

theorem getSomaxconn_opened {file : Nat} (hfile : o.fopen = some file) (fds : List Nat) :
    getSomaxconn o fds = (o.fscanf.somaxconn, file :: fds) := by
  unfold getSomaxconn
  rw [hfile]
  cases o.fscanf <;> rfl

/-- Once the file is open it stays open. -/
theorem createListeningSocket_opened {file : Nat} (hfile : o.fopen = some file)
    (hsocket : 0 ≤ o.socket.val) (hinet : o.inetAton = true) (hbind : o.bind.val ≠ -1) :
    createListeningSocket o [] =
      if toBacklog o.fscanf.somaxconn = 0 ∨ o.listen.val = -1 then (-1, [file])
      else (o.socket.val, [file, o.socket.val.toNat]) := by
  unfold createListeningSocket
  rw [if_neg (by omega)]
  simp only [hinet, hbind, getSomaxconn_opened hfile, closeFd_file hfile hsocket, Bool.not_true,
    Bool.false_eq_true, if_false, Int.toNat_of_nonneg hsocket]
  by_cases hbacklog : toBacklog o.fscanf.somaxconn = 0
  · rw [if_pos hbacklog, if_pos (.inl hbacklog)]
  · rw [if_neg hbacklog]
    by_cases hlisten : o.listen.val = -1
    · rw [if_pos hlisten, if_pos (.inr hlisten)]
    · rw [if_neg hlisten, if_neg (not_or.mpr ⟨hbacklog, hlisten⟩)]

/-! The server. -/

theorem getNofileLimit_eq (hget : 0 ≤ o.getrlimit.val) (hset : 0 ≤ o.setrlimit.val) :
    getNofileLimit o = o.rlimMax.toInt := by
  rw [getNofileLimit, if_neg (by omega), if_neg (by omega)]

theorem getNofileLimit_neg (h : o.getrlimit.val < 0 ∨ o.setrlimit.val < 0) :
    getNofileLimit o = -1 := by
  unfold getNofileLimit
  by_cases hget : o.getrlimit.val < 0
  · rw [if_pos hget]
  · rw [if_neg hget, if_pos (h.resolve_left hget)]

/-- Behind the limit and the allocation the creation is that of the socket. -/
theorem createServer_allocated (hget : 0 ≤ o.getrlimit.val) (hset : 0 ≤ o.setrlimit.val)
    (hmax : 0 ≤ o.rlimMax.toInt) (hmalloc : o.malloc (svrLen watch o.rlimMax.toInt) = true) :
    createServer watch o =
      let (listenFd, fds) := createListeningSocket o []
      if listenFd < 0 then (none, fds)
      else if watch then
        if o.pipe2.val < 0 then (none, fds)
        else (some ⟨listenFd, some o.pipefds, o.rlimMax.toInt⟩,
          o.pipefds.2 :: o.pipefds.1 :: fds)
      else (some ⟨listenFd, none, o.rlimMax.toInt⟩, fds) := by
  unfold createServer
  simp only [getNofileLimit_eq hget hset, hmalloc]
  rw [if_neg (by omega), if_neg (by simp)]

theorem createServer_early (h : o.FailsEarly watch) : createServer watch o = (none, []) := by
  by_cases hlimit : o.getrlimit.val < 0 ∨ o.setrlimit.val < 0
  · unfold createServer
    simp only [getNofileLimit_neg hlimit]
    rfl
  simp only [not_or, Int.not_lt] at hlimit
  by_cases hmax : o.rlimMax.toInt < 0
  · unfold createServer
    simp only [getNofileLimit_eq hlimit.1 hlimit.2]
    rw [if_pos hmax]
  by_cases hmalloc : o.malloc (svrLen watch o.rlimMax.toInt) = false
  · unfold createServer
    simp only [getNofileLimit_eq hlimit.1 hlimit.2, hmalloc]
    rw [if_neg hmax]
    rfl
  rw [createServer_allocated hlimit.1 hlimit.2 (by omega) (by simpa using hmalloc)]
  have hsocket : o.socket.val < 0 ∨ o.inetAton = false ∨ o.bind.val = -1 ∨ o.fopen = none := by
    rcases h with h | h | h | h | h
    · omega
    · omega
    · exact absurd h hmax
    · exact absurd h hmalloc
    · exact h
  rw [createListeningSocket_early hsocket]
  rfl

theorem somaxconn_number (h : toBacklog o.fscanf.somaxconn ≠ 0) :
    ∃ value, o.fscanf = .number value ∧ toBacklog value ≠ 0 := by
  cases hscanned : o.fscanf with
  | number value => exact ⟨value, rfl, by simpa [hscanned, Scanned.somaxconn] using h⟩
  | mismatch | eof =>
      rw [hscanned] at h
      exact absurd (by decide) h

theorem CreateOutcomes.Finishes.backlog (h : o.Finishes watch) :
    toBacklog o.fscanf.somaxconn ≠ 0 := by
  obtain ⟨value, hscanned, hvalue⟩ := h.somaxconn
  rwa [hscanned]

/-- A server is accounted for by its steps, and no server by no descriptors. -/
theorem accountable_some {info : ServerInfo} {fds : List Nat}
    (h : createServer watch o = (some info, fds)) : Accountable watch o ↔ o.Succeeds watch := by
  simp [Accountable, h]

theorem accountable_none {fds : List Nat} (h : createServer watch o = (none, fds)) :
    Accountable watch o ↔ fds = [] := by
  simp [Accountable, h]

/-- Creation is accountable exactly if it fails at a checked step before the
file with `somaxconn` is opened, or succeeds in everything behind it. -/
theorem createServer_accountable_iff (watch : Bool) (o : CreateOutcomes) :
    Accountable watch o ↔ o.FailsEarly watch ∨ o.Finishes watch := by
  by_cases hearly : o.FailsEarly watch
  · refine iff_of_true ?_ (.inl hearly)
    simp [Accountable, createServer_early hearly]
  rw [or_iff_right hearly]
  simp only [CreateOutcomes.FailsEarly, not_or, Int.not_lt, Bool.not_eq_false] at hearly
  obtain ⟨hget, hset, hmax, hmalloc, hsocket, hinet, hbind, hfopen⟩ := hearly
  obtain ⟨file, hfile⟩ := Option.ne_none_iff_exists'.mp hfopen
  have hcreated := @createServer_allocated o watch hget hset hmax hmalloc
  rw [createListeningSocket_opened hfile hsocket hinet hbind] at hcreated
  by_cases hstop : toBacklog o.fscanf.somaxconn = 0 ∨ o.listen.val = -1
  · rw [if_pos hstop] at hcreated
    refine iff_of_false (fun h => ?_) fun h => ?_
    · exact absurd ((accountable_none hcreated).mp h) (by simp)
    · rcases hstop with hbacklog | hlisten
      · exact h.backlog hbacklog
      · have := h.listen
        omega
  rw [if_neg hstop] at hcreated
  simp only [if_neg (Int.not_lt.mpr hsocket)] at hcreated
  obtain ⟨hbacklog, -⟩ := not_or.mp hstop
  by_cases hpipe : watch = true ∧ o.pipe2.val < 0
  · rw [if_pos hpipe.1, if_pos hpipe.2] at hcreated
    refine iff_of_false (fun h => ?_) fun h => ?_
    · exact absurd ((accountable_none hcreated).mp h) (by simp)
    · have := h.pipe2 hpipe.1
      omega
  -- a server is returned, whatever `bind` and `listen` have said
  obtain ⟨info, fds, hsome⟩ : ∃ info fds, createServer watch o = (some info, fds) := by
    rw [hcreated]
    by_cases hwatch : watch = true
    · rw [if_pos hwatch, if_neg fun h => hpipe ⟨hwatch, h⟩]
      exact ⟨_, _, rfl⟩
    · rw [if_neg hwatch]
      exact ⟨_, _, rfl⟩
  rw [accountable_some hsome]
  constructor
  · intro h
    exact ⟨h.bind, somaxconn_number hbacklog, h.listen, h.pipe2⟩
  · intro h
    obtain ⟨value, hscanned, -⟩ := h.somaxconn
    exact ⟨hget, hset, by rwa [getNofileLimit_eq hget hset], hsocket, hinet, h.bind,
      ⟨by rw [hfile]; rfl, value, hscanned⟩, h.listen, h.pipe2⟩

def SyscallRet.zero : SyscallRet := ⟨0, by decide, by decide⟩

/-- The address is in use: `bind` fails with `EADDRINUSE`, and all else succeeds. -/
def addressInUse : CreateOutcomes where
  getrlimit := .zero
  rlimMax := 1024
  setrlimit := .zero
  malloc := fun _ => true
  socket := ⟨3, by decide, by decide⟩
  inetAton := true
  bind := ⟨-98, by decide, by decide⟩
  fopen := some 4
  fscanf := .number 4096
  listen := .zero
  pipe2 := .zero
  pipefds := (5, 6)
  distinct := by decide

/-- A server is returned all the same. -/
theorem createServer_not_accountable :
    (createServer false addressInUse).1.isSome = true ∧ ¬ Accountable false addressInUse := by
  have hcreated : createServer false addressInUse = (some ⟨3, none, 1024⟩, [4, 3]) := by decide
  refine ⟨by rw [hcreated]; rfl, fun h => ?_⟩
  exact absurd ((accountable_some hcreated).mp h).bind (by decide)

end L4Server
