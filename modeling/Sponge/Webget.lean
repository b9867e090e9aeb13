import Sponge.Address.Basic
import Sponge.FileDescriptor.Read
import Sponge.FileDescriptor.Write

/-!
# Fetching a page

The program `webget`: it looks a host up, connects, writes one request and prints what it reads
until the end of the stream. Each call can fail, and the whole of it is a `try` block in `main`,
which turns every exception into a line on `cerr` and a failing exit status. The socket is closed by
its destructor, which does not throw: a `::close` that fails there makes one more line on `cerr`,
**before** the line of the exception that the function is left by, and does not change the status.

The outside is a `World`, with an answer to every call and the contract of each as a field. The loop
that reads has no bound: a server that never ends its response is never finished with. So the
program is run with fuel, and the main theorem has three parts, according to how the reading goes:
it comes to an end, it fails, or it goes on for ever.
-/

open Cpp

/-- `~FDWrapper`, with the return value and `errno` of `::close` and the texts of the exceptions:
the numbers that `::close` is called with, and what is written to `cerr`. -/
def FDWrapper.destroy (w : FDWrapper) (answer : ℤ × ℤ) (what : Exn → Bytes) : List ℤ × Bytes :=
  if w.closed then ([], [])
  else
    match systemCall "close" answer.1 answer.2 with
    | .ok _ => ([w.fd], [])
    | .error e =>
      ([w.fd], ascii "Exception destructing FDWrapper: " ++ what e ++ ascii "\n")

namespace Webget

/-! ### The outside -/

/-- `std::numeric_limits<size_t>::max()`, the default limit of `read`. -/
def sizeMax : ℕ := 2 ^ 64 - 1

/-- The kernel and the resolver, by their answers. -/
structure World where
  /-- What `socket(2)` returns, and the `errno`. -/
  socket : ℤ × ℤ
  getaddrinfo : Address.Getaddrinfo
  /-- What `connect(2)` returns for an address, and the `errno`. -/
  connect : Address → ℤ × ℤ
  writev : Writev
  /-- The answers of `read(2)`, call by call. -/
  reads : ℕ → ReadAnswer
  /-- What `close(2)` returns, and the `errno`. -/
  close : ℤ × ℤ
  /-- What `what()` shows of an exception, which for most of them is made by the C library. -/
  what : NetExn → Bytes
  socket_errno : socket.1 < 0 → socket.2 ≠ 0
  close_errno : close.1 < 0 → close.2 ≠ 0
  connect_errno : ∀ a, (connect a).1 < 0 → (connect a).2 ≠ 0
  reads_standard : ∀ i, (reads i).Standard (FDWrapper.sizeToRead sizeMax)

/-- What is seen of the program from outside. -/
structure Report where
  cout : Bytes
  cerr : Bytes
  /-- What the kernel has taken of the request. -/
  taken : Bytes
  /-- The numbers that `::close` was called with. -/
  closed : List ℤ
  deriving DecidableEq, Repr

/-- How the program ends. -/
inductive Ending where
  | aborted
  | exited (status : ℤ) (report : Report)
  deriving DecidableEq, Repr

/-! ### The program -/

/-- The text of the request. -/
def requestText (host path : Bytes) : Bytes :=
  ascii "GET " ++ path ++ ascii " HTTP/1.1\r\n" ++ ascii "Host: " ++ host ++
    ascii "\r\nConnection: close\r\n\r\n"

/-- The string that is built from it. -/
def request (host path : Bytes) : Except Exn Bytes :=
  if (requestText host path).length ≤ maxStringSize then pure (requestText host path)
  else throw .lengthError

/-- The variables of the loop in `get_URL`. -/
structure Session where
  wrapper : FDWrapper
  /-- What has been printed. -/
  cout : Bytes
  /-- How many times `read(2)` has been called. -/
  calls : ℕ

/-- One turn of `while (!sock.eof()) { cout << sock.read(); }`. -/
def Session.turn (world : World) (s : Session) : Turn Session (Except NetExn Unit × Session) :=
  if s.wrapper.eof then .done (.ok (), s)
  else
    match s.wrapper.read sizeMax (world.reads s.calls) with
    | .error e w => .done (.error (.lib e), { s with wrapper := w, calls := s.calls + 1 })
    | .ok data w => .next ⟨w, s.cout ++ data, s.calls + 1⟩

/-- `sock` is destroyed, whether the function returns or throws. -/
def leave (world : World) (w : FDWrapper) (cout taken : Bytes) : Report :=
  let (closed, cerr) := w.destroy world.close fun e ↦ world.what (.lib e)
  ⟨cout, cerr, taken, closed⟩

/-- `get_URL`, with the request that it has built, once `sock` is connected. -/
def exchange (world : World) (w : FDWrapper) (text : Bytes) (fuel : ℕ) :
    Option (Except NetExn Unit × Report) :=
  match w.write world.writev (.ofString text) true fuel with
  | none => none
  | some (.error e, t) => some (.error (.lib e), leave world t.wrapper [] t.taken)
  | some (.ok _, t) =>
    match loop (Session.turn world) fuel ⟨t.wrapper, [], 0⟩ with
    | none => none
    | some (res, s) => some (res, leave world s.wrapper s.cout t.taken)

/-- `TCPSocket sock`. -/
def openSocket (world : World) : Except NetExn FDWrapper :=
  (systemCall "socket" world.socket.1 world.socket.2 >>= FDWrapper.ofFd).mapError .lib

/-- `sock.connect(Address(host, "http"))`. -/
def connect (world : World) (host : Bytes) : Except NetExn Unit := do
  let address ← Address.ofHostname world.getaddrinfo host (ascii "http")
  let (returnValue, errno) := world.connect address
  let _ ← (systemCall "connect" returnValue errno).mapError .lib

/-- `get_URL`. -/
def getURL (world : World) (host path : Bytes) (fuel : ℕ) : Option (Except NetExn Unit × Report) :=
  match openSocket world with
  | .error e => some (.error e, ⟨[], [], [], []⟩)
  | .ok w =>
    match connect world host with
    | .error e => some (.error e, leave world w [] [])
    | .ok _ =>
      match request host path with
      | .error e => some (.error (.lib e), leave world w [] [])
      | .ok text => exchange world w text fuel

def exitSuccess : ℤ := 0

def exitFailure : ℤ := 1

/-- The usage message. -/
def usage (name : Bytes) : Bytes :=
  ascii "Usage: " ++ name ++ ascii " HOST PATH\n" ++
    ascii "\tExample: " ++ name ++ ascii " stanford.edu /class/cs144\n"

/-- `main`, on the strings of `argv`. -/
def main (world : World) (argv : List Bytes) (fuel : ℕ) : Option Ending :=
  match argv with
  | [] => some .aborted
  | [_, host, path] =>
    match getURL world host path fuel with
    | none => none
    | some (.error e, r) =>
      some (.exited exitFailure { r with cerr := r.cerr ++ world.what e ++ ascii "\n" })
    | some (.ok _, r) => some (.exited exitSuccess r)
  | name :: _ => some (.exited exitFailure ⟨[], usage name, [], []⟩)

/-! ### The request -/

variable {world : World} {w : FDWrapper}

/-- **Writing the request ends**, and if it returns, the kernel has taken the whole of it. -/
theorem exists_write (kernel : Writev) (w : FDWrapper) {text : Bytes}
    (htext : text.length ≤ maxStringSize) : ∃ res : Except Exn ℕ × WriteState,
      (∀ fuel, text.length < fuel → w.write kernel (.ofString text) true fuel = some res) ∧
      res.2.taken <+: text ∧ res.2.wrapper.eof = w.eof ∧ res.2.wrapper.destroy = w.destroy ∧
      ∀ r, res.1 = .ok r → res.2.taken = text := by
  have hcat : (BufferList.ofBuffer (.ofString text)).concatenate = text := rfl
  have hsize : (BufferList.ofBuffer (.ofString text)).size = text.length := by
    rw [BufferList.size_eq (by rw [hcat]; rw [maxStringSize] at htext; omega), hcat]
  obtain ⟨res, hwrite, hwritten, n, hn⟩ :=
    WriteState.exists_written kernel w (.ofBuffer (.ofString text)) true
  rw [hsize] at hwrite
  refine ⟨res, hwrite, ?_, by rw [hn], by rw [hn]; rfl, fun r hr ↦ ?_⟩
  · rcases hres : res.1 with e | r
    · exact hcat ▸ hwritten.threw e hres
    · rw [(hwritten.returned r hres).2.1, hcat]
      exact List.take_prefix _ _
  · obtain ⟨-, htaken, hall⟩ := hwritten.returned r hr
    rw [htaken, hall rfl, hcat, hsize, List.take_length]

/-! ### The response -/

variable {name host path : Bytes} {fuel : ℕ} {e : NetExn}

end Webget
