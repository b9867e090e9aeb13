import Sponge.Lib.BigEndian
import Sponge.Util

/-!
# Socket addresses

`Address` is a size and 128 bytes of storage. Whatever way an address is made, the bytes beyond its
size are zero: every constructor copies into storage that is zero to begin with, and assignment
copies the whole storage. The type carries this, together with the size being within the storage.

Looking a name up is the resolver's business. Its answer to a query is an argument, and what the
constructor makes of it is modelled: the check of the return value, of the list being empty, and of
the size.
-/

/-- The exceptions of code that resolves names. -/
inductive NetExn where
  /-- One of the library's own. -/
  | lib (e : Exn)
  /-- A `tagged_error` of the category for `getaddrinfo` and `getnameinfo`. -/
  | gai (attempt : Bytes) (returnValue : ℤ)
  /-- `std::invalid_argument`, thrown by `stoi`. -/
  | invalidArgument (what : String)
  deriving DecidableEq, Repr

/-- `sizeof(sockaddr_storage)`. -/
def storageSize : ℕ := 128

/-- An address. -/
structure Address where
  size : ℕ
  storage : Bytes
  length_storage : storage.length = storageSize
  size_le : size ≤ storageSize
  /-- Nothing is stored beyond the size. -/
  drop_size : storage.drop size = List.replicate (storageSize - size) 0

namespace Address

/-! ### Construction -/

/-- The storage after `size` bytes have been copied to its beginning. -/
def ofBytes (addr : Bytes) (h : addr.length ≤ storageSize) : Address where
  size := addr.length
  storage := addr ++ List.replicate (storageSize - addr.length) 0
  length_storage := by
    rw [List.length_append, List.length_replicate]
    omega
  size_le := h
  drop_size := List.drop_left

/-- `Address(const sockaddr *addr, const size_t size)`. There must be `size` bytes at `addr`, unless
the size is refused. -/
def ofSockaddr (addr : Bytes) (size : ℕ) (haddr : size ≤ storageSize → size ≤ addr.length) :
    Except Exn Address :=
  if h : size > storageSize then throw (.runtimeError "invalid sockaddr size")
  else pure (ofBytes (addr.take size) (by
    rw [List.length_take_of_le (haddr (Nat.le_of_not_gt h))]
    exact Nat.le_of_not_gt h))

/-- The bytes of the address itself. -/
def bytes (a : Address) : Bytes := a.storage.take a.size

theorem length_bytes (a : Address) : a.bytes.length = a.size := by
  rw [bytes, List.length_take_of_le (by rw [a.length_storage]; exact a.size_le)]

theorem bytes_append (a : Address) :
    a.bytes ++ List.replicate (storageSize - a.size) 0 = a.storage := by
  rw [bytes, ← a.drop_size, List.take_append_drop]

@[simp] theorem bytes_ofBytes (addr : Bytes) (h : addr.length ≤ storageSize) :
    (ofBytes addr h).bytes = addr :=
  List.take_left

/-- **An address is the bytes within its size.** -/
theorem ext_bytes {a b : Address} (h : a.bytes = b.bytes) : a = b := by
  have hsize : a.size = b.size := by rw [← a.length_bytes, h, b.length_bytes]
  have hstorage : a.storage = b.storage := by rw [← a.bytes_append, h, hsize, b.bytes_append]
  cases a
  cases b
  obtain rfl := hsize
  obtain rfl := hstorage
  rfl

theorem ofSockaddr_eq {addr : Bytes} (h : addr.length ≤ storageSize) :
    ofSockaddr addr addr.length (fun _ ↦ le_rfl) = pure (ofBytes addr h) := by
  rw [ofSockaddr, dif_neg (Nat.not_lt.2 h)]
  congr 1
  exact ext_bytes (by rw [bytes_ofBytes, bytes_ofBytes, List.take_length])

/-! ### Resolving names -/

/-- The criteria passed to the resolver. -/
structure Hints where
  aiFlags : ℤ
  aiFamily : ℤ
  deriving DecidableEq, Repr

/-- `AI_ALL`. -/
def aiAll : ℤ := 0x10

/-- `AI_NUMERICHOST | AI_NUMERICSERV`. -/
def aiNumeric : ℤ := 0x404

/-- `make_hints`. -/
def makeHints (aiFlags aiFamily : ℤ) : Hints := ⟨aiFlags, aiFamily⟩

/-- What `getaddrinfo` answers: its return value, and the address of the first entry of the list. -/
structure GaiAnswer where
  returnValue : ℤ
  resolved : Option Bytes
  deriving DecidableEq, Repr

/-- `getaddrinfo`, on C strings. -/
abbrev Getaddrinfo := Bytes → Bytes → Hints → GaiAnswer

/-- `Address(node, service, hints)`. -/
def resolve (getaddrinfo : Getaddrinfo) (node service : Bytes) (hints : Hints) :
    Except NetExn Address :=
  let answer := getaddrinfo (cStr node) (cStr service) hints
  if answer.returnValue ≠ 0 then
    throw (.gai (ascii "getaddrinfo(" ++ node ++ ascii ", " ++ service ++ ascii ")")
      answer.returnValue)
  else
    match answer.resolved with
    | none => throw (.lib (.runtimeError "getaddrinfo returned successfully but with no results"))
    | some addr => (ofSockaddr addr addr.length fun _ ↦ le_rfl).mapError .lib

/-- `Address(hostname, service)`. -/
def ofHostname (getaddrinfo : Getaddrinfo) (hostname service : Bytes) : Except NetExn Address :=
  resolve getaddrinfo hostname service (makeHints aiAll afInet)

end Address
