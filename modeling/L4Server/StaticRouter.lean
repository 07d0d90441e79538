import L4Server.Response

/-!
`global_static_router`, in both builds. Without `WATCH_STATIC_FILES` the mapping
is kept in a static variable shared by all routes, and the jump to `STORE_BUF`
passes over the calls that set the size and the MIME type.
-/
namespace L4Server
open CMemory

def handlerErrSuccess : Int := 0
def handlerErrGeneral : Int := -(1 <<< 1)
def handlerErrFileNotFound : Int := -(1 <<< 3)

/-- `"Content-Type"`, the key of `SET_RES_MIME`. -/
def contentType : CText := ⟨ascii "Content-Type", by decide⟩

/-- What the calls on one file return: `open` (a descriptor or a failure),
`fstat` (the size), `magic_descriptor` and `mmap`. -/
structure StaticCalls where
  openFile : Option Int
  fstat : Option Nat
  magicDescriptor : Option CText
  mmap : Option (List UInt8)

/-- `MAP_FAILED`: a pointer that is not NULL and has no readable byte. -/
def mapFailed : List UInt8 := []

/-- What the stack happens to hold in `filestat.st_size` and `mime_str` where
their initialisers have been jumped over. -/
structure Uninitialised where
  stSize : Nat
  mimeStr : CText

/-- `response->file_sz`, the status and `SET_RES_MIME`. -/
def HttpResponse.describe (response : HttpResponse) (stSize : Nat) (mimeStr : CText) :
    HttpResponse :=
  { response with
    fileSz := stSize
    status := 200
    headers := (kvSetKeyValue true response.headers contentType mimeStr).2 }

/-- `global_static_router`; `data` is the static variable. -/
def globalStaticRouter (watch : Bool) (calls : StaticCalls) (junk : Uninitialised)
    (data : Option (List UInt8)) (response : HttpResponse) :
    Int × HttpResponse × Option (List UInt8) :=
  match watch, data with
  | false, some file =>
      (handlerErrSuccess,
        { response with file := some file }.describe junk.stSize junk.mimeStr, some file)
  | _, _ =>
      match calls.openFile with
      | none => (handlerErrFileNotFound, response, data)
      | some fd =>
          match calls.fstat with
          | none => (handlerErrGeneral, response, data)
          | some stSize =>
              match calls.magicDescriptor with
              | none => (handlerErrGeneral, response, data)
              | some mimeStr =>
                  if watch then
                    (handlerErrSuccess,
                      { response with fileFd := fd }.describe stSize mimeStr, data)
                  else
                    match calls.mmap with
                    | none => (handlerErrGeneral, response, some mapFailed)
                    | some file =>
                        (handlerErrSuccess,
                          { response with file := some file }.describe stSize mimeStr, some file)

/-- Requests to static routes one after the other, each answered from a cleared
response; `junk` is asked for the stack contents by the number of the request. -/
def serveStatic {π : Type} (watch : Bool) (calls : π → StaticCalls) (junk : Nat → Uninitialised)
    (str : StringT) : Nat → Option (List UInt8) → List π → List HttpResponse
  | _, _, [] => []
  | k, data, filepath :: rest =>
      let (_, response, data) :=
        globalStaticRouter watch (calls filepath) (junk k) data (.cleared str)
      response :: serveStatic watch calls junk str (k + 1) data rest

/-! Files that exist and stay as they are. -/

/-- The files behind the paths, and what `libmagic` says of their contents. -/
structure StaticFiles (π : Type) where
  contents : π → List UInt8
  mime : List UInt8 → CText
  fd : π → Int

variable {π : Type} (files : StaticFiles π)

/-- All calls succeed. -/
def StaticFiles.calls (filepath : π) : StaticCalls where
  openFile := some (files.fd filepath)
  fstat := some (files.contents filepath).length
  magicDescriptor := some (files.mime (files.contents filepath))
  mmap := some (files.contents filepath)

/-- The size and type of a response are those of the file. -/
def StaticFiles.Describes (filepath : π) (response : HttpResponse) : Prop :=
  response.fileSz = (files.contents filepath).length ∧
    response.headers.stored = [some ⟨contentType, files.mime (files.contents filepath)⟩]

/-- The response carries the file of the path. -/
def StaticFiles.Carries (filepath : π) (response : HttpResponse) : Prop :=
  response.file = some (files.contents filepath) ∧ files.Describes filepath response

theorem describe_describes (filepath : π) {response : HttpResponse}
    (h : response.headers = kvInitWithBuf (List.replicate 20 none)) :
    files.Describes filepath (response.describe (files.contents filepath).length
      (files.mime (files.contents filepath))) := by
  refine ⟨rfl, ?_⟩
  rw [HttpResponse.describe, h]
  exact (kvSetKeyValue_provided true _ _ _ rfl).1

/-- The build that watches its files opens the route's own file each time. -/
theorem serveStatic_watch (junk : Nat → Uninitialised) (str : StringT) (k : Nat)
    (data : Option (List UInt8)) (paths : List π) :
    List.Forall₂ (fun filepath response =>
        response.fileFd = files.fd filepath ∧ files.Describes filepath response)
      paths (serveStatic true files.calls junk str k data paths) := by
  induction paths generalizing k with
  | nil => exact .nil
  | cons filepath rest ih =>
      exact .cons ⟨rfl, describe_describes files filepath rfl⟩ (ih (k + 1))

/-- The other build fills in the first response from its file. -/
theorem globalStaticRouter_first (junk : Uninitialised) (str : StringT) (filepath : π) :
    files.Carries filepath
      (globalStaticRouter false (files.calls filepath) junk none (.cleared str)).2.1 :=
  ⟨rfl, describe_describes files filepath rfl⟩

/-- Later ones get the cached file, and a size from the stack. -/
theorem globalStaticRouter_cached (calls : StaticCalls) (junk : Uninitialised)
    (file : List UInt8) (response : HttpResponse) :
    (globalStaticRouter false calls junk (some file) response).2.1.file = some file ∧
      (globalStaticRouter false calls junk (some file) response).2.1.fileSz = junk.stSize :=
  ⟨rfl, rfl⟩

/-- Every response is right whatever the stack holds exactly when there is one
request at most. -/
theorem serveStatic_carries_iff {π : Type} (routes : List π) (files : StaticFiles π)
    (str : StringT) (reqs : List (Fin routes.length)) :
    (∀ junk, List.Forall₂ files.Carries (reqs.map routes.get)
        (serveStatic false files.calls junk str 0 none (reqs.map routes.get))) ↔
      reqs.length ≤ 1 := by
  constructor
  · intro h
    match reqs, h with
    | [], _ => exact Nat.zero_le _
    | [_], _ => exact Nat.le_refl _
    | first :: second :: rest, h =>
        let size := (files.contents (routes.get second)).length + 1
        have hall := h fun _ => ⟨size, contentType⟩
        cases hall with
        | cons _ hall =>
            cases hall with
            | cons hsecond _ =>
                have hcached := (globalStaticRouter_cached (files.calls (routes.get second))
                  ⟨size, contentType⟩ (files.contents (routes.get first)) (.cleared str)).2
                exact absurd (hcached.symm.trans hsecond.2.1) (Nat.succ_ne_self _)
  · intro hlen junk
    match reqs, hlen with
    | [], _ => exact .nil
    | [first], _ =>
        exact .cons (globalStaticRouter_first files (junk 0) str (routes.get first)) .nil

/-- Two routes with files of different contents. -/
def twoFiles : StaticFiles Bool where
  contents := fun png => if png then ascii "PNG" else ascii "<html>"
  mime := fun contents => if contents = ascii "PNG" then ⟨ascii "image/png", by decide⟩
    else ⟨ascii "text/html", by decide⟩
  fd := fun _ => 7

/-- The second route answers with the first one's file. -/
theorem serveStatic_not_carries :
    ¬ ∀ junk, List.Forall₂ twoFiles.Carries
      ([⟨0, Nat.zero_lt_two⟩, ⟨1, Nat.one_lt_two⟩].map [false, true].get)
      (serveStatic false twoFiles.calls junk responseExample.str 0 none
        ([⟨0, Nat.zero_lt_two⟩, ⟨1, Nat.one_lt_two⟩].map [false, true].get)) := by
  intro h
  have hall := h fun _ => ⟨0, contentType⟩
  cases hall with
  | cons _ hall =>
      cases hall with
      | cons hsecond _ => exact absurd hsecond.1 (by decide)

end L4Server
