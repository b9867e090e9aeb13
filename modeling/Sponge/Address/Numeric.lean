import Mathlib.Data.List.TakeWhile
import Sponge.Address.Basic
import Sponge.Lib.Arith
import Sponge.Lib.Digits

/-!
# Numeric addresses

An IPv4 address can be had from a dotted quad and a port, from a 32-bit number, or back from the
kernel, and it can be shown as each of these. The texts are made and read by `getnameinfo` and
`getaddrinfo`, asked for numbers only; the bytes of the number are handled here.

With a resolver that reads the numeric texts it writes, **all these ways agree**: an address is
shown as what it was made from, two addresses are equal if and only if they are shown alike, and the
number of an address is that of its quad. `operator==` compares the bytes within the size, which is
all there is to an address.
-/

namespace Address

/-! ### Comparison -/

/-- `operator==`. -/
def beq (a b : Address) : Bool :=
  if a.size ≠ b.size then false else a.storage.take a.size = b.storage.take a.size

theorem beq_iff {a b : Address} : a.beq b = true ↔ a = b := by
  rw [beq]
  split
  · rename_i hsize
    exact ⟨fun h ↦ absurd h (by simp), fun h ↦ absurd (congrArg size h) hsize⟩
  · rename_i hsize
    rw [not_not] at hsize
    rw [decide_eq_true_eq]
    exact ⟨fun h ↦ ext_bytes (by rw [bytes, bytes, ← hsize, h]), fun h ↦ h ▸ rfl⟩

/-! ### Numbers -/

/-- `ss_family`, in the order of the host. -/
def family (a : Address) : ℕ :=
  (a.storage.getD 0 0).toNat + 256 * (a.storage.getD 1 0).toNat

/-- `ipv4_numeric`. -/
def ipv4Numeric (a : Address) : Except Exn UInt32 :=
  if (a.family : ℤ) ≠ afInet ∨ a.size ≠ 16 then
    throw (.runtimeError "ipv4_numeric called on non-IPV4 address")
  else pure (UInt32.ofNat (BigEndian.ofBytes ((a.bytes.drop 4).take 4)))

/-- A `sockaddr_in`: the family in the order of the host, the port and the address in that of the
network. -/
def sockaddrIn (port : UInt16) (ip : UInt32) : Bytes :=
  [2, 0] ++ BigEndian.toBytes 2 port.toNat ++ BigEndian.toBytes 4 ip.toNat ++ List.replicate 8 0

@[simp] theorem length_sockaddrIn (port : UInt16) (ip : UInt32) :
    (sockaddrIn port ip).length = 16 := by
  simp [sockaddrIn]

/-- `from_ipv4_numeric`. -/
def fromIpv4Numeric (ipAddress : UInt32) : Except Exn Address :=
  ofSockaddr (sockaddrIn 0 ipAddress) 16 fun _ ↦ (length_sockaddrIn 0 ipAddress).ge

/-! ### Texts -/

/-- What `getnameinfo` answers: its return value, and the texts that it writes. -/
structure GniAnswer where
  returnValue : ℤ
  host : Bytes
  service : Bytes
  deriving DecidableEq, Repr

/-- `NI_NUMERICHOST | NI_NUMERICSERV`. -/
def niNumeric : ℤ := 0x3

/-- `getnameinfo`, on the bytes of an address. -/
abbrev Getnameinfo := Bytes → ℤ → GniAnswer

/-- `isspace`, in the default locale. -/
def isspace (c : UInt8) : Bool := c == 32 || (9 ≤ c && c ≤ 13)

/-- The sign that `stoi` accepts, and what follows it. -/
def sign : Bytes → ℤ × Bytes
  | 45 :: rest => (-1, rest)
  | 43 :: rest => (1, rest)
  | s => (1, s)

/-- `stoi`: blanks, a sign, and as many digits as there are. -/
def stoi (s : Bytes) : Except NetExn ℤ :=
  let (factor, rest) := sign (s.dropWhile isspace)
  let digits := rest.takeWhile fun c ↦ 48 ≤ c && c ≤ 57
  match digits, Digits.parse 10 digits with
  | _ :: _, some n =>
    if Cpp.InInt (factor * n) then pure (factor * n) else throw (.lib (.outOfRange "stoi"))
  | _, _ => throw (.invalidArgument "stoi")

/-- `ip_port`. The `int` is narrowed to sixteen bits. -/
def ipPort (getnameinfo : Getnameinfo) (a : Address) : Except NetExn (Bytes × UInt16) := do
  let answer := getnameinfo a.bytes niNumeric
  if answer.returnValue ≠ 0 then throw (.gai (ascii "getnameinfo") answer.returnValue)
  let port ← stoi (cStr answer.service)
  pure (cStr answer.host, UInt16.ofNat (port % 2 ^ 16).toNat)

/-- `to_string`. -/
def toString (getnameinfo : Getnameinfo) (a : Address) : Except NetExn Bytes := do
  let (ip, port) ← a.ipPort getnameinfo
  pure (ip ++ ascii ":" ++ Digits.text 10 port.toNat)

/-- `Address(ip, port)`. -/
def ofIpPort (getaddrinfo : Getaddrinfo) (ip : Bytes) (port : UInt16) : Except NetExn Address :=
  resolve getaddrinfo ip (Digits.text 10 port.toNat) (makeHints aiNumeric afInet)

/-! ### Addresses of sockets -/

/-- What `getsockname` and `getpeername` answer: the return value with `errno`, and the address,
which may be longer than there is room for. -/
structure NameAnswer where
  returnValue : ℤ
  errno : ℤ
  address : Bytes
  deriving DecidableEq, Repr

/-- The storage that such a call has written to, and the size that it reports. A call that fails
writes nothing. -/
def NameAnswer.written (answer : NameAnswer) : Bytes × ℕ :=
  if answer.returnValue < 0 then (List.replicate storageSize 0, storageSize)
  else (answer.address.take storageSize ++
    List.replicate (storageSize - answer.address.length) 0, answer.address.length)

theorem NameAnswer.length_written (answer : NameAnswer) :
    answer.written.1.length = storageSize := by
  rw [written]
  split
  · rw [List.length_replicate]
  · rw [List.length_append, List.length_take, List.length_replicate]
    omega

/-- `Socket::get_address`. -/
def getAddress (nameOfFunction : String) (answer : NameAnswer) : Except Exn Address := do
  let _ ← systemCall nameOfFunction answer.returnValue answer.errno
  ofSockaddr answer.written.1 answer.written.2 fun h ↦ answer.length_written ▸ h

/-- `Socket::local_address`. -/
def localAddress (answer : NameAnswer) : Except Exn Address := getAddress "getsockname" answer

/-- `Socket::peer_address`. -/
def peerAddress (answer : NameAnswer) : Except Exn Address := getAddress "getpeername" answer

/-! ### Numbers and their texts -/

theorem digit_of_mem_text {n : ℕ} {c : UInt8} (hc : c ∈ Digits.text 10 n) :
    (48 ≤ c && c ≤ 57) = true := by
  obtain ⟨d, hd, rfl⟩ := Digits.exists_of_mem_text (by decide) hc
  have hall : ∀ d < 10, (48 ≤ Digits.char d && Digits.char d ≤ 57) = true := by decide
  exact hall d hd

/-- A digit is neither blank nor a sign, and it does not end a string. -/
theorem ne_of_digit {c : UInt8} (hc : (48 ≤ c && c ≤ 57) = true) :
    isspace c = false ∧ c ≠ 45 ∧ c ≠ 43 ∧ c ≠ 0 := by
  have hle : 48 ≤ c := of_decide_eq_true (Bool.and_eq_true_iff.1 hc).1
  have hne (d : UInt8) (hd : d < 48) : c ≠ d := fun h ↦ absurd (h ▸ hle) (UInt8.not_le.2 hd)
  refine ⟨?_, hne 45 (by decide), hne 43 (by decide), hne 0 (by decide)⟩
  have hlt : ¬c ≤ 13 := fun h ↦ absurd (UInt8.le_trans hle h) (by decide)
  simp [isspace, hne 32 (by decide), hlt]

theorem sign_text (n : ℕ) :
    sign ((Digits.text 10 n).dropWhile isspace) = (1, Digits.text 10 n) := by
  rcases htext : Digits.text 10 n with - | ⟨c, rest⟩
  · exact absurd htext (Digits.text_ne_nil n)
  · obtain ⟨hspace, hminus, hplus, -⟩ :=
      ne_of_digit (digit_of_mem_text (n := n) (htext ▸ List.mem_cons_self))
    rw [List.dropWhile_cons, if_neg (by rw [hspace]; simp), sign]
    · exact fun _ h ↦ hminus (List.cons.inj h).1
    · exact fun _ h ↦ hplus (List.cons.inj h).1

theorem stoi_text {n : ℕ} (h : n < 2 ^ 31) : stoi (Digits.text 10 n) = pure (n : ℤ) := by
  have htake : (Digits.text 10 n).takeWhile (fun c ↦ 48 ≤ c && c ≤ 57) = Digits.text 10 n :=
    List.takeWhile_eq_self_iff.2 fun c hc ↦ digit_of_mem_text hc
  have hrange : Cpp.InInt (1 * (n : ℤ)) := ⟨by omega, by omega⟩
  rw [stoi, sign_text]
  dsimp only
  rw [htake, Digits.parse_text (by decide) (by decide)]
  rcases htext : Digits.text 10 n with - | ⟨c, rest⟩
  · exact absurd htext (Digits.text_ne_nil n)
  · dsimp only
    rw [if_pos hrange, Int.one_mul]

theorem cStr_text (n : ℕ) : cStr (Digits.text 10 n) = Digits.text 10 n := by
  refine List.takeWhile_eq_self_iff.2 fun c hc ↦ ?_
  simpa using (ne_of_digit (digit_of_mem_text hc)).2.2.2

/-- A dotted quad. -/
def dotted (ip : UInt32) : Bytes :=
  [46].intercalate ((BigEndian.toBytes 4 ip.toNat).map fun b ↦ Digits.text 10 b.toNat)

theorem mem_intercalate_dot {ls : List Bytes} {c : UInt8} (hc : c ∈ [46].intercalate ls) :
    c = 46 ∨ ∃ l ∈ ls, c ∈ l := by
  induction ls with
  | nil => exact absurd hc List.not_mem_nil
  | cons l ls ih =>
    rcases eq_or_ne ls [] with rfl | hne
    · rw [List.intercalate_singleton] at hc
      exact Or.inr ⟨l, List.mem_cons_self, hc⟩
    · rw [List.intercalate_cons_of_ne_nil hne, List.mem_append, List.mem_append,
        List.mem_singleton] at hc
      rcases hc with (hc | rfl) | hc
      · exact Or.inr ⟨l, List.mem_cons_self, hc⟩
      · exact Or.inl rfl
      · rcases ih hc with rfl | ⟨l', hl', hc⟩
        exacts [Or.inl rfl, Or.inr ⟨l', List.mem_cons_of_mem _ hl', hc⟩]

theorem cStr_dotted (ip : UInt32) : cStr (dotted ip) = dotted ip := by
  refine List.takeWhile_eq_self_iff.2 fun c hc ↦ ?_
  rcases mem_intercalate_dot hc with rfl | ⟨l, hl, hc⟩
  · rfl
  · obtain ⟨b, -, rfl⟩ := List.mem_map.1 hl
    simpa using (ne_of_digit (digit_of_mem_text hc)).2.2.2

theorem ofBytes_port (port : UInt16) :
    BigEndian.ofBytes (BigEndian.toBytes 2 port.toNat) = port.toNat :=
  (BigEndian.ofBytes_toBytes 2 _).trans (Nat.mod_eq_of_lt port.toNat_lt)

theorem ofBytes_ip (ip : UInt32) : BigEndian.ofBytes (BigEndian.toBytes 4 ip.toNat) = ip.toNat :=
  (BigEndian.ofBytes_toBytes 4 _).trans (Nat.mod_eq_of_lt ip.toNat_lt)

theorem sockaddrIn_inj {port port' : UInt16} {ip ip' : UInt32}
    (h : sockaddrIn port ip = sockaddrIn port' ip') : port = port' ∧ ip = ip' := by
  obtain ⟨h, -⟩ := List.append_inj h (by simp)
  obtain ⟨h, hip⟩ := List.append_inj h (by simp)
  obtain ⟨-, hport⟩ := List.append_inj h (by simp)
  have hport' := congrArg BigEndian.ofBytes hport
  have hip' := congrArg BigEndian.ofBytes hip
  rw [ofBytes_port, ofBytes_port] at hport'
  rw [ofBytes_ip, ofBytes_ip] at hip'
  exact ⟨UInt16.toNat_inj.1 hport', UInt32.toNat_inj.1 hip'⟩

theorem drop_sockaddrIn (port : UInt16) (ip : UInt32) :
    ((sockaddrIn port ip).drop 4).take 4 = BigEndian.toBytes 4 ip.toNat := by
  have hfront : ([2, 0] ++ BigEndian.toBytes 2 port.toNat : Bytes).length = 4 := by simp
  rw [sockaddrIn, List.append_assoc, List.drop_left' hfront,
    List.take_left' (BigEndian.length_toBytes 4 _)]

theorem ipv4Numeric_eq {a : Address} {port : UInt16} {ip : UInt32}
    (h : a.bytes = sockaddrIn port ip) : a.ipv4Numeric = pure ip := by
  have hsize : a.size = 16 := by rw [← a.length_bytes, h, length_sockaddrIn]
  have hfamily : a.family = 2 := by
    rw [family, ← a.bytes_append, h, sockaddrIn]
    rfl
  rw [ipv4Numeric, if_neg (by rw [hfamily, hsize]; decide), h, drop_sockaddrIn, ofBytes_ip,
    UInt32.ofNat_toNat]

/-! ### All ways agree -/

/-- What is asked of the resolver: it reads a dotted quad and the numeral of a port, and it writes
them, without looking anything up. -/
structure Numeric (getaddrinfo : Getaddrinfo) (getnameinfo : Getnameinfo) : Prop where
  reads : ∀ (ip : UInt32) (port : UInt16),
    getaddrinfo (dotted ip) (Digits.text 10 port.toNat) (makeHints aiNumeric afInet) =
      ⟨0, some (sockaddrIn port ip)⟩
  writes : ∀ (ip : UInt32) (port : UInt16),
    getnameinfo (sockaddrIn port ip) niNumeric = ⟨0, dotted ip, Digits.text 10 port.toNat⟩

/-- The address of a port. -/
def ofQuad (ip : UInt32) (port : UInt16) : Address :=
  ofBytes (sockaddrIn port ip) ((length_sockaddrIn port ip).le.trans (by decide))

section Agree

variable {getaddrinfo : Getaddrinfo} {getnameinfo : Getnameinfo}

theorem ofIpPort_dotted (h : Numeric getaddrinfo getnameinfo) (ip : UInt32) (port : UInt16) :
    ofIpPort getaddrinfo (dotted ip) port = .ok (ofQuad ip port) := by
  have hle : (sockaddrIn port ip).length ≤ storageSize :=
    (length_sockaddrIn port ip).le.trans (by decide)
  rw [ofIpPort, resolve, cStr_dotted, cStr_text, h.reads]
  dsimp only
  rw [if_neg (fun h ↦ h rfl), ofSockaddr_eq hle]
  rfl

theorem ipPort_ofQuad (h : Numeric getaddrinfo getnameinfo) (ip : UInt32) (port : UInt16) :
    (ofQuad ip port).ipPort getnameinfo = .ok (dotted ip, port) := by
  have hlt := port.toNat_lt
  have hport : UInt16.ofNat (((port.toNat : ℕ) : ℤ) % 2 ^ 16).toNat = port := by
    have hcast : (((port.toNat : ℕ) : ℤ) % 2 ^ 16).toNat = port.toNat := by omega
    rw [hcast, UInt16.ofNat_toNat]
  rw [ipPort, ofQuad, bytes_ofBytes, h.writes]
  dsimp only
  rw [if_neg (fun h ↦ h rfl), cStr_text, stoi_text (by omega), cStr_dotted]
  simp only [pure_bind, hport]
  rfl

theorem ofSockaddr_eq_ok {addr : Bytes} {size : ℕ} {haddr : size ≤ storageSize → size ≤ addr.length}
    {a : Address} (hsize : size ≤ storageSize) (hbytes : addr.take size = a.bytes) :
    ofSockaddr addr size haddr = .ok a := by
  rw [ofSockaddr, dif_neg (Nat.not_lt.2 hsize)]
  exact congrArg Except.ok (ext_bytes (by rw [bytes_ofBytes, hbytes]))

theorem fromIpv4Numeric_eq (ip : UInt32) : fromIpv4Numeric ip = .ok (ofQuad ip 0) := by
  refine ofSockaddr_eq_ok (by decide) ?_
  rw [ofQuad, bytes_ofBytes, List.take_of_length_le (length_sockaddrIn 0 ip).le]

/-- **What the kernel gives back of an address is that address.** -/
theorem getAddress_bytes (nameOfFunction : String) (errno : ℤ) (a : Address) :
    getAddress nameOfFunction ⟨0, errno, a.bytes⟩ = .ok a := by
  have hsize : a.bytes.length ≤ storageSize := a.length_bytes.trans_le a.size_le
  have hwritten : (NameAnswer.mk 0 errno a.bytes).written =
      (a.bytes.take storageSize ++ List.replicate (storageSize - a.bytes.length) 0,
        a.bytes.length) := if_neg (Int.lt_irrefl 0)
  rw [getAddress, systemCall_of_nonneg _ _ le_rfl, pure_bind]
  refine ofSockaddr_eq_ok (by rw [hwritten]; exact hsize) ?_
  rw [hwritten, List.take_of_length_le hsize, List.take_left]

/-- **All ways to a numeric address agree.** The address made from a dotted quad and a port is shown
as these, its number is that of the quad, the kernel gives it back as it is, and it is equal to
another address exactly if the two are shown alike; and the address made from the number is the one
of port zero. -/
theorem numeric_agrees (h : Numeric getaddrinfo getnameinfo) (ip : UInt32) (port : UInt16) :
    ∃ a, ofIpPort getaddrinfo (dotted ip) port = .ok a ∧
      a.ipPort getnameinfo = .ok (dotted ip, port) ∧
      a.toString getnameinfo = .ok (dotted ip ++ ascii ":" ++ Digits.text 10 port.toNat) ∧
      a.ipv4Numeric = .ok ip ∧
      (∀ errno, localAddress ⟨0, errno, a.bytes⟩ = .ok a ∧
        peerAddress ⟨0, errno, a.bytes⟩ = .ok a) ∧
      (∀ ip' port' b, ofIpPort getaddrinfo (dotted ip') port' = .ok b →
        (a.beq b = true ↔ ip = ip' ∧ port = port')) ∧
      ∃ b, fromIpv4Numeric ip = .ok b ∧ b.ipv4Numeric = .ok ip ∧
        b.ipPort getnameinfo = .ok (dotted ip, 0) ∧ (b.beq a = true ↔ port = 0) := by
  have hnumeric (port : UInt16) : (ofQuad ip port).ipv4Numeric = .ok ip :=
    ipv4Numeric_eq (bytes_ofBytes _ _)
  have hinj {ip ip' : UInt32} {port port' : UInt16} :
      (ofQuad ip port).beq (ofQuad ip' port') = true ↔ ip = ip' ∧ port = port' := by
    refine beq_iff.trans ⟨fun heq ↦ ?_, fun ⟨hip, hport⟩ ↦ hip ▸ hport ▸ rfl⟩
    have hbytes := congrArg bytes heq
    rw [ofQuad, ofQuad, bytes_ofBytes, bytes_ofBytes] at hbytes
    exact (sockaddrIn_inj hbytes).symm
  refine ⟨ofQuad ip port, ofIpPort_dotted h ip port, ipPort_ofQuad h ip port, ?_, hnumeric port,
    fun errno ↦ ⟨getAddress_bytes _ errno _, getAddress_bytes _ errno _⟩, fun ip' port' b hb ↦ ?_,
    ofQuad ip 0, fromIpv4Numeric_eq ip, hnumeric 0, ipPort_ofQuad h ip 0, ?_⟩
  · rw [toString, ipPort_ofQuad h]
    rfl
  · obtain rfl := Except.ok.inj ((ofIpPort_dotted h ip' port').symm.trans hb)
    exact hinj
  · rw [hinj]
    exact ⟨fun heq ↦ heq.2.symm, fun heq ↦ ⟨rfl, heq.symm⟩⟩

/-- The texts read and written here, as a resolver. -/
def readNumeric : Getaddrinfo := fun node service _ ↦
  match (node.splitOn 46).mapM (Digits.parse 10), Digits.parse 10 service with
  | some quad, some port =>
    ⟨0, some (sockaddrIn (UInt16.ofNat port)
      (UInt32.ofNat (BigEndian.ofBytes (quad.map UInt8.ofNat))))⟩
  | _, _ => ⟨-2, none⟩

def writeNumeric : Getnameinfo := fun address _ ↦
  ⟨0, dotted (UInt32.ofNat (BigEndian.ofBytes ((address.drop 4).take 4))),
    Digits.text 10 (BigEndian.ofBytes ((address.drop 2).take 2))⟩

theorem mapM_parse_text (bytes : Bytes) :
    (bytes.map fun b ↦ Digits.text 10 b.toNat).mapM (Digits.parse 10) =
      some (bytes.map UInt8.toNat) := by
  induction bytes with
  | nil => rfl
  | cons b bytes ih =>
    rw [List.map_cons, List.mapM_cons, Digits.parse_text (by decide) (by decide), ih]
    rfl

theorem splitOn_dotted (ip : UInt32) :
    (dotted ip).splitOn 46 = (BigEndian.toBytes 4 ip.toNat).map fun b ↦ Digits.text 10 b.toNat := by
  refine List.splitOn_intercalate 46 (fun l hl hdot ↦ ?_) ?_
  · obtain ⟨b, -, rfl⟩ := List.mem_map.1 hl
    exact absurd (digit_of_mem_text hdot) (by decide)
  · simp [BigEndian.toBytes]

theorem numeric_readNumeric : Numeric readNumeric writeNumeric where
  reads ip port := by
    have hbytes (bytes : Bytes) : (bytes.map UInt8.toNat).map UInt8.ofNat = bytes := by
      rw [List.map_map]
      exact List.map_id'' (fun b ↦ UInt8.ofNat_toNat) bytes
    rw [readNumeric, splitOn_dotted, mapM_parse_text, Digits.parse_text (by decide) (by decide)]
    dsimp only
    rw [hbytes, ofBytes_ip, UInt32.ofNat_toNat, UInt16.ofNat_toNat]
  writes ip port := by
    have hport : ((sockaddrIn port ip).drop 2).take 2 = BigEndian.toBytes 2 port.toNat := by
      rw [sockaddrIn, List.append_assoc, List.append_assoc]
      exact List.take_left' (BigEndian.length_toBytes 2 _)
    rw [writeNumeric, drop_sockaddrIn, hport, ofBytes_ip, ofBytes_port, UInt32.ofNat_toNat]

theorem numeric_agrees_loopback : ∃ a, ofIpPort readNumeric (ascii "127.0.0.1") 53 = .ok a ∧
    a.toString writeNumeric = .ok (ascii "127.0.0.1:53") := by
  obtain ⟨a, ha, -, hstring, -⟩ := numeric_agrees numeric_readNumeric 0x7f000001 53
  have hdotted : dotted 0x7f000001 = ascii "127.0.0.1" := by decide
  rw [hdotted] at ha hstring
  exact ⟨a, ha, hstring⟩

end Agree

end Address
