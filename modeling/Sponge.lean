import Sponge.Lib.Arith
import Sponge.Lib.BigEndian
import Sponge.Lib.Digits
import Sponge.Lib.Lifetime
import Sponge.Lib.Loop
import Sponge.Lib.Machine
import Sponge.Lib.OnesComplement
import Sponge.Lib.Ring
import Sponge.Lib.Segments
import Sponge.Lib.Shared
import Sponge.Util
import Sponge.ByteStream.Basic
import Sponge.ByteStream.Fifo
import Sponge.ByteStream.Refinement
import Sponge.ByteStream.History
import Sponge.ByteStream.EndOfInput
import Sponge.ByteStream.Capacity
import Sponge.ByteStream.Indices
import Sponge.Buffer.Basic
import Sponge.Buffer.Faithful
import Sponge.Buffer.Views
import Sponge.Parser.Basic
import Sponge.Parser.RoundTrip
import Sponge.Checksum.Basic
import Sponge.Checksum.Correct
import Sponge.Checksum.Verify
import Sponge.FileDescriptor.Basic
import Sponge.FileDescriptor.Write
import Sponge.FileDescriptor.Ownership
import Sponge.EventLoop.Basic
import Sponge.EventLoop.Turns
import Sponge.EventLoop.Replay
import Sponge.EventLoop.Pass
import Sponge.EventLoop.Polling
import Sponge.EventLoop.Schedule
import Sponge.EventLoop.Interference
import Sponge.EventLoop.Run
import Sponge.Parser.Errors
import Sponge.FileDescriptor.Read
import Sponge.Socket.Pair
import Sponge.Address.Basic
import Sponge.Webget
import Sponge.FileDescriptor.Handles
import Sponge.EventLoop.Clients
import Sponge.EventLoop.Drain
import Sponge.Socket.Datagrams
import Sponge.Hexdump
import Sponge.ByteStream.Harness
import Sponge.Address.Numeric
import Sponge.Buffer.Sharing
import Sponge.Relay.Link
import Sponge.Relay.Rules
import Sponge.Relay.Run
