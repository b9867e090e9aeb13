import Mathlib.Logic.Function.Basic
import Sponge.Address.Basic
import Sponge.Buffer.Views
import Sponge.FileDescriptor.Read
import Sponge.Lib.Machine

/-!
# Datagrams

`UDPSocket`: a datagram is sent by one call of `sendmsg(2)` and received by one call of
`recvfrom(2)`, or not at all. The receiver asks with `MSG_TRUNC`, so that the kernel returns the
length of the datagram also if it is more than there is room for; a datagram that does not fit is
an exception and **never a shorter datagram**. The counters are advanced only by calls that have
gone well.

The network between the sockets may lose datagrams, repeat them and reorder them: a datagram that
has been accepted is delivered to the socket with its destination address any number of times, at
any time. What it must not do is change them. Then whatever a program receives, some program has
sent, to this address and from the address that it is told.
-/

open Cpp Machine

/-- `received_datagram`. -/
structure ReceivedDatagram where
  sourceAddress : Address
  payload : Bytes

/-! ### Receiving -/

/-- What a call of `recvfrom` answers. -/
inductive RecvAnswer where
  /-- The call returns `-1` and sets `errno`. -/
  | failed (errno : ℤ)
  /-- The call takes a datagram, with the address it came from. -/
  | datagram (source payload : Bytes)
  deriving DecidableEq, Repr

namespace RecvAnswer

/-- With `MSG_TRUNC`, the length of the datagram. -/
def returnValue : RecvAnswer → ℤ
  | failed _ => -1
  | datagram _ payload => payload.length

def errno : RecvAnswer → ℤ
  | failed e => e
  | datagram _ _ => 0

/-- What is stored in a buffer of `size` bytes. -/
def data (size : ℕ) : RecvAnswer → Bytes
  | failed _ => []
  | datagram _ payload => payload.take size

/-- The raw address after the call: what fits of the source, in storage that was zero. -/
def rawAddress : RecvAnswer → Bytes
  | failed _ => List.replicate storageSize 0
  | datagram source _ => stored (source.take storageSize) (List.replicate storageSize 0)

/-- `fromlen` after the call: the true length of the source. -/
def fromlen : RecvAnswer → ℕ
  | failed _ => storageSize
  | datagram source _ => source.length

theorem fromlen_le (answer : RecvAnswer) :
    answer.fromlen ≤ storageSize → answer.fromlen ≤ answer.rawAddress.length := by
  cases answer with
  | failed e => simp [fromlen, rawAddress]
  | datagram source payload =>
    intro h
    rw [rawAddress, length_stored (by simp [List.length_take]), List.length_replicate]
    exact h

end RecvAnswer

namespace FDWrapper

/-- The rest of `recv`, once `recvfrom` has returned `recvLen`. The wrapper and the datagram are
what it changes, also if it throws. -/
def acceptDatagram (w : FDWrapper) (d : ReceivedDatagram) (mtu : ℕ) (answer : RecvAnswer)
    (recvLen : ℤ) : EStateM.Result Exn (FDWrapper × ReceivedDatagram) Unit :=
  if recvLen > toSSizeT mtu then
    .error (.runtimeError "recvfrom (oversized datagram)") (w, d)
  else
    let w := w.registerRead
    match Address.ofSockaddr answer.rawAddress answer.fromlen answer.fromlen_le with
    | .error e => .error e (w, d)
    | .ok sourceAddress =>
      match resize d.payload (toSizeT recvLen) with
      | .error e => .error e (w, { d with sourceAddress })
      | .ok payload => .ok () (w, ⟨sourceAddress, payload⟩)

/-- `UDPSocket::recv(received_datagram &datagram, const size_t mtu)`. -/
def recvInto (w : FDWrapper) (d : ReceivedDatagram) (mtu : ℕ) (answer : RecvAnswer) :
    EStateM.Result Exn (FDWrapper × ReceivedDatagram) Unit :=
  match resize d.payload mtu with
  | .error e => .error e (w, d)
  | .ok room =>
    match systemCall "recvfrom" (narrowInt answer.returnValue) answer.errno with
    | .error e => .error e (w, { d with payload := stored (answer.data mtu) room })
    | .ok recvLen =>
      w.acceptDatagram { d with payload := stored (answer.data mtu) room } mtu answer recvLen

/-- `UDPSocket::recv(const size_t mtu)`: into a new datagram, which is returned. -/
def recv (w : FDWrapper) (mtu : ℕ) (answer : RecvAnswer) :
    EStateM.Result Exn FDWrapper ReceivedDatagram :=
  match w.recvInto ⟨Address.ofBytes [] (Nat.zero_le _), []⟩ mtu answer with
  | .error e (w, _) => .error e w
  | .ok _ (w, d) => .ok d w

end FDWrapper

/-! ### Sending -/

/-- What a call of `sendmsg` answers. -/
inductive SendAnswer where
  /-- The call returns `-1` and sets `errno`. -/
  | failed (errno : ℤ)
  /-- The call sends the datagram, and returns its length. -/
  | accepted
  deriving DecidableEq, Repr

namespace SendAnswer

def returnValue (iovecs : List Iovec) : SendAnswer → ℤ
  | failed _ => -1
  | accepted => (iovecBytes iovecs).length

def errno : SendAnswer → ℤ
  | failed e => e
  | accepted => 0

end SendAnswer

/-- `sendmsg_helper`. -/
def sendmsgHelper (payload : BufferViewList) (answer : SendAnswer) : Except Exn Unit :=
  match systemCall "sendmsg" (narrowInt (answer.returnValue payload.asIovecs)) answer.errno with
  | .error e => throw e
  | .ok bytesSent =>
    if toSizeT bytesSent ≠ payload.size then
      throw (.runtimeError "datagram payload too big for sendmsg()")
    else pure ()

/-- `UDPSocket::sendto` and `UDPSocket::send`, which differ in the address that the kernel is
given. -/
def FDWrapper.sendDatagram (w : FDWrapper) (payload : BufferViewList) (answer : SendAnswer) :
    EStateM.Result Exn FDWrapper Unit :=
  match sendmsgHelper payload answer with
  | .error e => .error e w
  | .ok _ => .ok () w.registerWrite

/-! ### What the calls do -/

namespace FDWrapper

variable {w : FDWrapper} {mtu : ℕ}

/-- The address that the kernel reports is the address of the sender. -/
theorem ofSockaddr_datagram (a : Address) (payload : Bytes) :
    Address.ofSockaddr (RecvAnswer.datagram a.bytes payload).rawAddress
      (RecvAnswer.datagram a.bytes payload).fromlen (RecvAnswer.fromlen_le _) = .ok a := by
  have hsize : a.bytes.length ≤ storageSize := a.length_bytes ▸ a.size_le
  have htake : (RecvAnswer.datagram a.bytes payload).rawAddress.take a.bytes.length = a.bytes := by
    rw [RecvAnswer.rawAddress, List.take_of_length_le hsize, take_stored]
  have hfromlen : (RecvAnswer.datagram a.bytes payload).fromlen = a.bytes.length := rfl
  have hnot : ¬ (RecvAnswer.datagram a.bytes payload).fromlen > storageSize := Nat.not_lt.2 hsize
  rw [Address.ofSockaddr, dif_neg hnot]
  refine congrArg Except.ok (Address.ext_bytes ?_)
  rw [Address.bytes_ofBytes, hfromlen, htake]

/-- The call of `recvfrom`, if there is room for `mtu` bytes. -/
theorem systemCall_datagram {source payload : Bytes} (h : payload.length < 2 ^ 31) :
    systemCall "recvfrom" (narrowInt (RecvAnswer.datagram source payload).returnValue)
      (RecvAnswer.datagram source payload).errno = .ok (payload.length : ℤ) := by
  rw [RecvAnswer.returnValue, narrowInt_eq ⟨by omega, by omega⟩]
  exact systemCall_of_nonneg _ _ (by omega)

theorem toSSizeT_eq (hmtu : mtu ≤ maxStringSize) : toSSizeT mtu = mtu := by
  rw [maxStringSize] at hmtu
  rw [toSSizeT]
  omega

theorem acceptDatagram_of_le {d : ReceivedDatagram} {room : Bytes} (hmtu : mtu ≤ maxStringSize)
    (a : Address) {payload : Bytes} (h : payload.length ≤ mtu) (hlen : payload.length < 2 ^ 31)
    (hroom : room.length = mtu) (hd : d.payload = stored payload room) :
    w.acceptDatagram d mtu (.datagram a.bytes payload) payload.length =
      .ok () (w.registerRead, ⟨a, payload⟩) := by
  have hnot : ¬ (payload.length : ℤ) > toSSizeT mtu := by
    rw [toSSizeT_eq hmtu]
    omega
  rw [acceptDatagram, if_neg hnot, ofSockaddr_datagram, hd,
    toSizeT_natCast (show payload.length < 2 ^ 64 by omega),
    resize_stored (hroom ▸ h) (h.trans hmtu)]

/-- **A datagram that fits** is received whole, from its sender. -/
theorem recvInto_of_fits (d : ReceivedDatagram) (hmtu : mtu ≤ maxStringSize) (a : Address)
    {payload : Bytes} (h : payload.length ≤ mtu) (hlen : payload.length < 2 ^ 31) :
    w.recvInto d mtu (.datagram a.bytes payload) = .ok () (w.registerRead, ⟨a, payload⟩) := by
  obtain ⟨room, hroom, hlength⟩ := exists_room d.payload hmtu
  have hstored : (RecvAnswer.datagram a.bytes payload).data mtu = payload :=
    List.take_of_length_le h
  rw [recvInto, systemCall_datagram hlen, hroom, hstored]
  exact acceptDatagram_of_le hmtu a h hlen hlength rfl

theorem recv_of_fits (hmtu : mtu ≤ maxStringSize) (a : Address) {payload : Bytes}
    (h : payload.length ≤ mtu) (hlen : payload.length < 2 ^ 31) :
    w.recv mtu (.datagram a.bytes payload) = .ok ⟨a, payload⟩ w.registerRead := by
  rw [recv, recvInto_of_fits _ hmtu a h hlen]

/-- **A datagram that does not fit** is an exception. -/
theorem recvInto_of_oversized (d : ReceivedDatagram) (hmtu : mtu ≤ maxStringSize)
    {source payload : Bytes} (h : mtu < payload.length) (hlen : payload.length < 2 ^ 31) :
    ∃ d', w.recvInto d mtu (.datagram source payload) =
      .error (.runtimeError "recvfrom (oversized datagram)") (w, d') := by
  obtain ⟨room, hroom, -⟩ := exists_room d.payload hmtu
  have hmore : (payload.length : ℤ) > toSSizeT mtu := by
    rw [toSSizeT_eq hmtu]
    omega
  refine ⟨⟨d.sourceAddress, stored ((RecvAnswer.datagram source payload).data mtu) room⟩, ?_⟩
  rw [recvInto, systemCall_datagram hlen, hroom]
  exact if_pos hmore

theorem recv_of_oversized (hmtu : mtu ≤ maxStringSize) {source payload : Bytes}
    (h : mtu < payload.length) (hlen : payload.length < 2 ^ 31) :
    w.recv mtu (.datagram source payload) =
      .error (.runtimeError "recvfrom (oversized datagram)") w := by
  obtain ⟨d', hd'⟩ := recvInto_of_oversized ⟨Address.ofBytes [] (Nat.zero_le _), []⟩ hmtu h hlen
  rw [recv, hd']

theorem recv_of_failed (hmtu : mtu ≤ maxStringSize) {e : ℤ} (he : e ≠ 0) :
    w.recv mtu (.failed e) = .error (.unixError "recvfrom" e) w := by
  obtain ⟨room, hroom, -⟩ := exists_room [] hmtu
  have hcall : systemCall "recvfrom" (narrowInt (RecvAnswer.failed e).returnValue)
      (RecvAnswer.failed e).errno = .error (.unixError "recvfrom" e) :=
    systemCall_of_neg _ (show narrowInt (-1) < 0 by decide) he
  rw [recv, recvInto, hcall, hroom]

theorem recv_of_gt (hmtu : maxStringSize < mtu) (answer : RecvAnswer) :
    w.recv mtu answer = .error .lengthError w := by
  have hroom : resize [] mtu = .error .lengthError := if_neg (Nat.not_le.2 hmtu)
  rw [recv, recvInto, hroom]

/-- **Sending returns** if and only if the kernel has taken the datagram, which is then the whole
payload. -/
theorem sendDatagram_of_accepted {payload : BufferViewList}
    (h : payload.contents.length < 2 ^ 31) :
    w.sendDatagram payload .accepted = .ok () w.registerWrite := by
  have hbytes := payload.iovecBytes_asIovecs
  have hcall : systemCall "sendmsg" (narrowInt (SendAnswer.accepted.returnValue payload.asIovecs))
      SendAnswer.accepted.errno = .ok (payload.contents.length : ℤ) := by
    rw [SendAnswer.returnValue, hbytes, narrowInt_eq ⟨by omega, by omega⟩]
    exact systemCall_of_nonneg _ _ (by omega)
  have hsize : payload.size = payload.contents.length := by
    rw [payload.size_eq_mod]
    omega
  have hsent : sendmsgHelper payload .accepted = .ok () := by
    rw [sendmsgHelper, hcall]
    refine if_neg (not_not_intro ?_)
    rw [hsize, toSizeT_natCast (show payload.contents.length < 2 ^ 64 by omega)]
  rw [sendDatagram, hsent]

theorem sendDatagram_of_failed (payload : BufferViewList) {e : ℤ} (he : e ≠ 0) :
    w.sendDatagram payload (.failed e) = .error (.unixError "sendmsg" e) w := by
  have hcall : systemCall "sendmsg" (narrowInt ((SendAnswer.failed e).returnValue
      payload.asIovecs)) (SendAnswer.failed e).errno = .error (.unixError "sendmsg" e) :=
    systemCall_of_neg _ (show narrowInt (-1) < 0 by decide) he
  have hsent : sendmsgHelper payload (.failed e) = .error (.unixError "sendmsg" e) := by
    rw [sendmsgHelper, hcall]
    rfl
  rw [sendDatagram, hsent]

end FDWrapper

/-! ### The network -/

/-- A datagram on its way. -/
structure Packet where
  source : Address
  destination : Address
  data : Bytes

/-- A socket: the program's part and the kernel's. -/
structure UDPEnd where
  /-- The local address. -/
  address : Address
  wrapper : FDWrapper
  /-- The address it is connected to. -/
  peer : Option Address
  /-- What has been delivered and not been received. -/
  inbox : List (Address × Bytes)
  /-- What `recv` has returned, with the `mtu` it was called with. -/
  got : List (ℕ × ReceivedDatagram)
  /-- The calls of `sendto` and `send` that have returned. -/
  sent : List (Address × BufferList)

/-- The sockets, and everything that the kernel has accepted. -/
structure Network where
  ends : ℕ → UDPEnd
  medium : List Packet

namespace Network

/-- The longest payload of a UDP datagram. -/
def maxDatagram : ℕ := 65507

/-- What can happen. Each call comes with the answer of the kernel; `report` is an `errno`, if the
kernel reports one. -/
inductive Op where
  | sendto (i : ℕ) (destination : Address) (payload : BufferList) (answer : SendAnswer)
  | send (i : ℕ) (payload : BufferList) (answer : SendAnswer)
  | connect (i : ℕ) (address : Address) (report : Option ℤ)
  | recv (i : ℕ) (mtu : ℕ) (report : Option ℤ)
  /-- The `k`-th datagram that was ever accepted comes to the `j`-th socket. -/
  | deliver (k j : ℕ)

def setEnd (s : Network) (i : ℕ) (e : UDPEnd) : Network :=
  { s with ends := Function.update s.ends i e }

/-- A call of `sendto` or `send` on the `i`-th socket. The kernel sends the datagram whole, if it is
not too long and there is a destination. -/
def transmit (s : Network) (i : ℕ) (destination : Option Address) (payload : BufferList)
    (answer : SendAnswer) : Option Network :=
  let e := s.ends i
  match answer, destination with
  | .failed errno, _ =>
    if errno = 0 then none
    else
      match e.wrapper.sendDatagram (.ofBufferList payload) (.failed errno) with
      | .error _ w => some (s.setEnd i { e with wrapper := w })
      | .ok _ w => some (s.setEnd i { e with wrapper := w })
  | .accepted, none => none
  | .accepted, some destination =>
    if payload.concatenate.length > maxDatagram then none
    else
      let packet : Packet := ⟨e.address, destination, payload.concatenate⟩
      let s := { s with medium := s.medium ++ [packet] }
      match e.wrapper.sendDatagram (.ofBufferList payload) .accepted with
      | .error _ w => some (s.setEnd i { e with wrapper := w })
      | .ok _ w =>
        some (s.setEnd i { e with wrapper := w, sent := e.sent ++ [(destination, payload)] })

/-- A call of `recv` that the kernel answers. The datagram is taken out of the queue, also if it
does not fit; if there is no room to be had for `mtu` bytes, the kernel is not called. -/
def receive (e : UDPEnd) (mtu : ℕ) (answer : RecvAnswer) (rest : List (Address × Bytes)) : UDPEnd :=
  let e := { e with inbox := if mtu ≤ maxStringSize then rest else e.inbox }
  match e.wrapper.recv mtu answer with
  | .error _ w => { e with wrapper := w }
  | .ok d w => { e with wrapper := w, got := e.got ++ [(mtu, d)] }

/-- One step; `none` if it cannot be taken. -/
def step (s : Network) : Op → Option Network
  | .sendto i destination payload answer => s.transmit i (some destination) payload answer
  | .send i payload answer => s.transmit i (s.ends i).peer payload answer
  | .connect i address report =>
    if report = some 0 then none
    else
      let (returnValue, errno) := statusAnswer report
      match systemCall "connect" returnValue errno with
      | .error _ => some s
      | .ok _ => some (s.setEnd i { s.ends i with peer := some address })
  | .recv i mtu (some errno) =>
    if errno = 0 then none
    else some (s.setEnd i (receive (s.ends i) mtu (.failed errno) (s.ends i).inbox))
  | .recv i mtu none =>
    match (s.ends i).inbox with
    | [] => none
    | (source, data) :: rest =>
      some (s.setEnd i (receive (s.ends i) mtu (.datagram source.bytes data) rest))
  | .deliver k j =>
    match s.medium[k]? with
    | none => none
    | some p =>
      let e := s.ends j
      if p.destination.bytes = e.address.bytes then
        some (s.setEnd j { e with inbox := e.inbox ++ [(p.source, p.data)] })
      else none

/-! ### What a step does -/

variable {s s' : Network} {op : Op}

/-- The socket after a call that has sent. -/
def afterSend (e : UDPEnd) (destination : Address) (payload : BufferList) : UDPEnd :=
  { e with
    wrapper := e.wrapper.registerWrite
    sent := e.sent ++ [(destination, payload)] }

/-- The socket after a call that has received. -/
def afterRecv (e : UDPEnd) (mtu : ℕ) (d : ReceivedDatagram) (rest : List (Address × Bytes)) :
    UDPEnd :=
  { e with wrapper := e.wrapper.registerRead, inbox := rest, got := e.got ++ [(mtu, d)] }

theorem transmit_cases {i : ℕ} {destination : Option Address} {payload : BufferList}
    {answer : SendAnswer} (h : s.transmit i destination payload answer = some s') :
    s' = s.setEnd i (s.ends i) ∨
    ∃ d, payload.concatenate.length ≤ maxDatagram ∧ s' = setEnd
      { s with medium := s.medium ++ [⟨(s.ends i).address, d, payload.concatenate⟩] } i
      (afterSend (s.ends i) d payload) := by
  cases answer with
  | failed errno =>
    rw [transmit] at h
    split at h
    · exact absurd h (by simp)
    · rename_i he
      rw [FDWrapper.sendDatagram_of_failed _ he] at h
      exact Or.inl (Option.some.inj h).symm
  | accepted =>
    cases destination with
    | none => exact absurd h (by simp [transmit])
    | some d =>
      rw [transmit] at h
      split at h
      · exact absurd h (by simp)
      · rename_i hlen
        have hlen' : payload.concatenate.length ≤ maxDatagram := Nat.not_lt.1 hlen
        have hsmall : (BufferViewList.ofBufferList payload).contents.length < 2 ^ 31 := by
          rw [BufferViewList.contents_ofBufferList]
          rw [maxDatagram] at hlen'
          omega
        rw [FDWrapper.sendDatagram_of_accepted hsmall] at h
        exact Or.inr ⟨d, hlen', (Option.some.inj h).symm⟩

theorem receive_of_failed {e : UDPEnd} {mtu : ℕ} {errno : ℤ} (he : errno ≠ 0) :
    receive e mtu (.failed errno) e.inbox = e := by
  rw [receive, ite_self]
  rcases Nat.lt_or_ge maxStringSize mtu with hmtu | hmtu
  · rw [FDWrapper.recv_of_gt hmtu]
  · rw [FDWrapper.recv_of_failed hmtu he]

/-- A call that is answered with a datagram: there is no room for any; it does not fit, and is gone;
or it is received. -/
theorem receive_cases {e : UDPEnd} (mtu : ℕ) (a : Address) {data : Bytes}
    (rest : List (Address × Bytes)) (hlen : data.length < 2 ^ 31) :
    receive e mtu (.datagram a.bytes data) rest = e ∨
    receive e mtu (.datagram a.bytes data) rest = { e with inbox := rest } ∨
    (data.length ≤ mtu ∧
      receive e mtu (.datagram a.bytes data) rest = afterRecv e mtu ⟨a, data⟩ rest) := by
  rw [receive]
  rcases Nat.lt_or_ge maxStringSize mtu with hmtu | hmtu
  · rw [if_neg (Nat.not_le.2 hmtu), FDWrapper.recv_of_gt hmtu]
    exact Or.inl rfl
  rw [if_pos hmtu]
  rcases Nat.lt_or_ge mtu data.length with hmore | hle
  · rw [FDWrapper.recv_of_oversized hmtu hmore hlen]
    exact Or.inr (Or.inl rfl)
  · rw [FDWrapper.recv_of_fits hmtu a hle hlen]
    exact Or.inr (Or.inr ⟨hle, rfl⟩)

/-! ### What holds of the sockets -/

/-- **The invariant** of a socket, with what has been accepted so far. -/
structure Fair (medium : List Packet) (e : UDPEnd) : Prop where
  inbox : ∀ d ∈ e.inbox, ∃ p ∈ medium, p.source = d.1 ∧ p.destination = e.address ∧ p.data = d.2
  /-- Whatever is received was accepted, and it is all there. -/
  got : ∀ r ∈ e.got, r.2.payload.length ≤ r.1 ∧ ∃ p ∈ medium,
    p.source = r.2.sourceAddress ∧ p.destination = e.address ∧ p.data = r.2.payload
  readCount_eq : e.wrapper.readCount = UInt32.ofNat e.got.length
  writeCount_eq : e.wrapper.writeCount = UInt32.ofNat e.sent.length

/-- The datagram was sent by a call that has returned. -/
def Traced (s : Network) (p : Packet) : Prop :=
  ∃ i, (s.ends i).address = p.source ∧
    ∃ c ∈ (s.ends i).sent, c.1 = p.destination ∧ c.2.concatenate = p.data

structure Inv (s : Network) : Prop where
  fair : ∀ i, Fair s.medium (s.ends i)
  length_le : ∀ p ∈ s.medium, p.data.length ≤ maxDatagram
  traced : ∀ p ∈ s.medium, s.Traced p

theorem Fair.mono {medium : List Packet} {e : UDPEnd} (h : Fair medium e) (p : Packet) :
    Fair (medium ++ [p]) e where
  inbox d hd := by
    obtain ⟨q, hq, hrest⟩ := h.inbox d hd
    exact ⟨q, List.mem_append_left _ hq, hrest⟩
  got r hr := by
    obtain ⟨hle, q, hq, hrest⟩ := h.got r hr
    exact ⟨hle, q, List.mem_append_left _ hq, hrest⟩
  readCount_eq := h.readCount_eq
  writeCount_eq := h.writeCount_eq

theorem ofNat_succ (n : ℕ) : UInt32.ofNat n + 1 = UInt32.ofNat (n + 1) := by
  rw [UInt32.ofNat_add]
  rfl

theorem setEnd_self (s : Network) (i : ℕ) (e : UDPEnd) : (s.setEnd i e).ends i = e :=
  Function.update_self _ _ _

theorem setEnd_of_ne (s : Network) {i j : ℕ} (hne : j ≠ i) (e : UDPEnd) :
    (s.setEnd i e).ends j = s.ends j :=
  Function.update_of_ne hne _ _

theorem setEnd_ends (s : Network) (i : ℕ) : s.setEnd i (s.ends i) = s := by
  rw [setEnd, Function.update_eq_self]

/-- A datagram stays traced. -/
theorem Traced.setEnd {p : Packet} (h : s.Traced p) {i : ℕ} {e : UDPEnd}
    (haddress : e.address = (s.ends i).address) (hsent : ∀ c ∈ (s.ends i).sent, c ∈ e.sent) :
    (s.setEnd i e).Traced p := by
  obtain ⟨j, hj, c, hc, hrest⟩ := h
  refine ⟨j, ?_⟩
  rcases eq_or_ne j i with rfl | hne
  · rw [setEnd_self]
    exact ⟨haddress.trans hj, c, hsent c hc, hrest⟩
  · rw [setEnd_of_ne s hne]
    exact ⟨hj, c, hc, hrest⟩

/-- A step that changes one socket, and not what it has sent. -/
theorem Inv.setEnd (h : s.Inv) {i : ℕ} {e : UDPEnd} (haddress : e.address = (s.ends i).address)
    (hsent : e.sent = (s.ends i).sent) (he : Fair s.medium e) : (s.setEnd i e).Inv where
  fair j := by
    rcases eq_or_ne j i with rfl | hne
    · rw [setEnd_self]
      exact he
    · rw [setEnd_of_ne s hne]
      exact h.fair j
  length_le := h.length_le
  traced p hp := (h.traced p hp).setEnd haddress fun c hc ↦ hsent ▸ hc

/-- A call that sends. -/
theorem Inv.send (h : s.Inv) (i : ℕ) (d : Address) {payload : BufferList}
    (hlen : payload.concatenate.length ≤ maxDatagram) :
    (Network.setEnd
      { s with medium := s.medium ++ [⟨(s.ends i).address, d, payload.concatenate⟩] } i
      (afterSend (s.ends i) d payload)).Inv where
  fair j := by
    rcases eq_or_ne j i with rfl | hne
    · rw [setEnd_self]
      have hfair := (h.fair j).mono ⟨(s.ends j).address, d, payload.concatenate⟩
      refine ⟨hfair.inbox, hfair.got, hfair.readCount_eq, ?_⟩
      show (s.ends j).wrapper.writeCount + 1 = UInt32.ofNat ((s.ends j).sent ++ [_]).length
      rw [hfair.writeCount_eq, ofNat_succ, List.length_append]
      rfl
    · rw [setEnd_of_ne _ hne]
      exact (h.fair j).mono _
  length_le p hp := by
    rcases List.mem_append.1 hp with hp | hp
    · exact h.length_le p hp
    · obtain rfl := List.mem_singleton.1 hp
      exact hlen
  traced p hp := by
    rcases List.mem_append.1 hp with hp | hp
    · exact Traced.setEnd (h.traced p hp) rfl fun c hc ↦ List.mem_append_left _ hc
    · obtain rfl := List.mem_singleton.1 hp
      refine ⟨i, ?_⟩
      rw [setEnd_self]
      exact ⟨rfl, _, List.mem_append_right _ List.mem_cons_self, rfl, rfl⟩

/-- A call of `recv` that is answered with the first datagram of the queue. -/
theorem Inv.receive (h : s.Inv) {i mtu : ℕ} {a : Address} {data : Bytes}
    {rest : List (Address × Bytes)} (hinbox : (s.ends i).inbox = (a, data) :: rest) :
    (s.setEnd i (receive (s.ends i) mtu (.datagram a.bytes data) rest)).Inv := by
  have hfair := h.fair i
  obtain ⟨p, hp, hsource, hdestination, hdata⟩ :=
    hfair.inbox (a, data) (hinbox ▸ List.mem_cons_self)
  have hrest : ∀ d ∈ rest, ∃ p ∈ s.medium, p.source = d.1 ∧ p.destination = (s.ends i).address ∧
      p.data = d.2 := fun d hd ↦ hfair.inbox d (hinbox ▸ List.mem_cons_of_mem _ hd)
  have hlen : data.length < 2 ^ 31 := by
    have hle := h.length_le p hp
    rw [hdata, maxDatagram] at hle
    exact Nat.lt_of_le_of_lt hle (by decide)
  rcases receive_cases mtu a rest hlen with heq | heq | ⟨hle, heq⟩
  · rw [heq, setEnd_ends]
    exact h
  · rw [heq]
    exact h.setEnd rfl rfl ⟨hrest, hfair.got, hfair.readCount_eq, hfair.writeCount_eq⟩
  · rw [heq]
    refine h.setEnd rfl rfl ⟨hrest, fun r hr ↦ ?_, ?_, hfair.writeCount_eq⟩
    · rcases List.mem_append.1 hr with hr | hr
      · exact hfair.got r hr
      · obtain rfl := List.mem_singleton.1 hr
        exact ⟨hle, p, hp, hsource, hdestination, hdata⟩
    · show (s.ends i).wrapper.readCount + 1 = UInt32.ofNat ((s.ends i).got ++ [_]).length
      rw [hfair.readCount_eq, ofNat_succ, List.length_append]
      rfl

theorem Inv.transmit (h : s.Inv) {i : ℕ} {destination : Option Address} {payload : BufferList}
    {answer : SendAnswer} (hstep : s.transmit i destination payload answer = some s') : s'.Inv := by
  rcases transmit_cases hstep with rfl | ⟨d, hlen, rfl⟩
  · rw [setEnd_ends]
    exact h
  · exact h.send i d hlen

/-- **The invariant survives a step.** -/
theorem Inv.step (h : s.Inv) (hstep : s.step op = some s') : s'.Inv := by
  cases op with
  | sendto i destination payload answer => exact h.transmit hstep
  | send i payload answer => exact h.transmit hstep
  | connect i address report =>
    have hfair := h.fair i
    rw [Network.step] at hstep
    split at hstep
    · exact absurd hstep (by simp)
    dsimp only at hstep
    split at hstep
    · obtain rfl := Option.some.inj hstep
      exact h
    · obtain rfl := Option.some.inj hstep
      exact h.setEnd rfl rfl
        ⟨hfair.inbox, hfair.got, hfair.readCount_eq, hfair.writeCount_eq⟩
  | recv i mtu report =>
    cases report with
    | some errno =>
      rw [Network.step] at hstep
      split at hstep
      · exact absurd hstep (by simp)
      · rename_i he
        obtain rfl := Option.some.inj hstep
        rw [receive_of_failed he, setEnd_ends]
        exact h
    | none =>
      rw [Network.step] at hstep
      split at hstep
      · exact absurd hstep (by simp)
      · rename_i a data rest hinbox
        obtain rfl := Option.some.inj hstep
        exact h.receive hinbox
  | deliver k j =>
    have hfair := h.fair j
    rw [Network.step] at hstep
    split at hstep
    · exact absurd hstep (by simp)
    rename_i p hp
    dsimp only at hstep
    split at hstep
    · rename_i hdestination
      obtain rfl := Option.some.inj hstep
      refine h.setEnd rfl rfl ⟨fun d hd ↦ ?_, hfair.got, hfair.readCount_eq, hfair.writeCount_eq⟩
      rcases List.mem_append.1 hd with hd | hd
      · exact hfair.inbox d hd
      · obtain rfl := List.mem_singleton.1 hd
        exact ⟨p, List.mem_of_getElem? hp, rfl, Address.ext_bytes hdestination, rfl⟩
    · exact absurd hstep (by simp)

/-! ### Runs -/

/-- Sockets that have just been bound. -/
def start (addresses : ℕ → Address) (fds : ℕ → ℤ) : Network where
  ends i := ⟨addresses i, ⟨fds i, false, false, 0, 0⟩, none, [], [], []⟩
  medium := []

/-- **A datagram arrives whole or not at all.** Whatever the programs do and however the network
loses, repeats and reorders datagrams: whatever `recv` has returned at a socket is not longer than
was asked for, and it is the whole payload of a call of `sendto` or `send` that has returned, to the
address of this socket and by a socket whose address is the source that `recv` says. And the
counters of a socket are those of the calls that have returned. -/
theorem run_whole (addresses : ℕ → Address) (fds : ℕ → ℤ) (ops : List Op) (s : Network)
    (h : exec step ops (start addresses fds) = some s) (i : ℕ) :
    (∀ r ∈ (s.ends i).got, r.2.payload.length ≤ r.1 ∧
      ∃ j, (s.ends j).address = r.2.sourceAddress ∧ ∃ c ∈ (s.ends j).sent,
        c.1 = (s.ends i).address ∧ c.2.concatenate = r.2.payload) ∧
    (s.ends i).wrapper.readCount = UInt32.ofNat (s.ends i).got.length ∧
    (s.ends i).wrapper.writeCount = UInt32.ofNat (s.ends i).sent.length := by
  have hstart : (start addresses fds).Inv :=
    ⟨fun _ ↦ ⟨fun _ hd ↦ absurd hd List.not_mem_nil, fun _ hr ↦ absurd hr List.not_mem_nil, rfl,
      rfl⟩, fun _ hp ↦ absurd hp List.not_mem_nil, fun _ hp ↦ absurd hp List.not_mem_nil⟩
  have hs : s.Inv := exec_inv (fun _ _ _ hinv hstep ↦ hinv.step hstep) hstart h
  have hfair := hs.fair i
  refine ⟨fun r hr ↦ ?_, hfair.readCount_eq, hfair.writeCount_eq⟩
  obtain ⟨hle, p, hp, hsource, hdestination, hdata⟩ := hfair.got r hr
  obtain ⟨j, hj, c, hc, hcdest, hcdata⟩ := hs.traced p hp
  exact ⟨hle, j, hj.trans hsource, c, hc, hcdest.trans hdestination, hcdata.trans hdata⟩

/-- A datagram that is delivered twice: the first time there is not enough room for it. -/
theorem run_whole_repeated :
    let a : ℕ → Address := fun i ↦
      Address.ofBytes [UInt8.ofNat i] (Nat.succ_le_succ (Nat.zero_le 127))
    let ops : List Op := [.sendto 0 (a 1) ⟨[.ofString [1, 2], .ofString [3]]⟩ .accepted,
      .deliver 0 1, .deliver 0 1, .recv 1 2 none, .recv 1 10 none]
    ∃ s, exec step ops (start a fun _ ↦ 5) = some s ∧
      (s.ends 1).got.map (fun r ↦ r.2.payload) = [[1, 2, 3]] ∧
      (s.ends 1).wrapper.readCount = UInt32.ofNat (s.ends 1).got.length := by
  intro a ops
  obtain ⟨s, hs, hgot⟩ : ∃ s, exec step ops (start a fun _ ↦ 5) = some s ∧
      (s.ends 1).got.map (fun r ↦ r.2.payload) = [[1, 2, 3]] := by
    have hrun : (exec step ops (start a fun _ ↦ 5)).map
        (fun s ↦ (s.ends 1).got.map fun r ↦ r.2.payload) = some [[1, 2, 3]] := by
      decide +kernel
    exact Option.map_eq_some_iff.1 hrun
  exact ⟨s, hs, hgot, (run_whole a (fun _ ↦ 5) ops s hs 1).2.1⟩

end Network
