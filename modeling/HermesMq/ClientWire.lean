import HermesMq.ClientProtocol
import HermesMq.Frame
import HermesMq.Wire

/-!
# Client messages on the wire

The encoding of every request and response of the client protocol: a
protobuf message with one field, the kind, which is a message itself. A
field with its default value is left out.
-/

namespace HermesMq

open Wire

def textField (field : Nat) (s : String) : Bytes := bytesField field (utf8Bytes s)

def boolField (field : Nat) (b : Bool) : Bytes := uintField field b.toNat

theorem length_varint_u64 {n : Nat} (h : n ≤ u64Max) : (varint n).length ≤ 10 := by
  have hlt : u64Max < 128 ^ (9 + 1) := by decide
  exact length_varint_le (h.trans_lt hlt)

theorem length_uintField_u64 {field n : Nat} (hfield : field < 16) (h : n ≤ u64Max) :
    (uintField field n).length ≤ 11 := by
  have hle := length_uintField_le hfield n
  have hlen := length_varint_u64 h
  omega

/-! ## Requests -/

def ProduceFrame.encode (p : ProduceFrame) : Bytes :=
  textField 1 p.topic ++ uintField 2 p.priority ++ uintField 3 p.contentType ++
    bytesField 4 p.payload ++ textField 5 p.producerId ++ uintField 6 p.seq

def PollFrame.encode (p : PollFrame) : Bytes :=
  textField 1 p.topic ++ textField 2 p.group ++ uintField 3 p.max ++
    uintField 4 p.visibilityTimeoutMs ++ textField 5 p.ackMode ++ uintField 6 p.waitMs

def SubscribeFrame.encode (s : SubscribeFrame) : Bytes :=
  textField 1 s.topic ++ textField 2 s.group ++ uintField 3 s.prefetch ++
    uintField 4 s.visibilityTimeoutMs ++ textField 5 s.ackMode

def NodeFrame.encode (n : NodeFrame) : Bytes := uintField 1 n.id ++ textField 2 n.peerAddr

def RequestKind.encode : RequestKind → Bytes
  | .produce p => messageField 1 p.encode
  | .poll p => messageField 2 p.encode
  | .ack topic group leaseId =>
      messageField 3 (textField 1 topic ++ textField 2 group ++ uintField 3 leaseId)
  | .nack topic group leaseId =>
      messageField 4 (textField 1 topic ++ textField 2 group ++ uintField 3 leaseId)
  | .commit topic group offset =>
      messageField 5 (textField 1 topic ++ textField 2 group ++ uintField 3 offset)
  | .createTopic topic => messageField 6 (textField 1 topic)
  | .deleteTopic topic => messageField 7 (textField 1 topic)
  | .stats => messageField 8 []
  | .bootstrap nodes => messageField 9 (nodes.flatMap fun n => messageField 1 n.encode)
  | .setRateLimit topic ratePerSec burst =>
      messageField 10 (textField 1 topic ++ doubleField 2 ratePerSec ++ uintField 3 burst)
  | .setRetention topic maxMessages maxAgeMs =>
      messageField 11 (textField 1 topic ++ uintField 2 maxMessages ++ uintField 3 maxAgeMs)
  | .subscribe sub => messageField 12 sub.encode
  | .auth token => messageField 13 (textField 1 token)

/-- The request fits a client frame: no frame that decodes to it is shorter
than its encoding. -/
def RequestKind.Fits (kind : RequestKind) : Prop := kind.encode.length ≤ maxClientFrame

/-! ## Responses -/

def ctToU32 : ContentType → Nat
  | .raw => 0
  | .text => 1
  | .json => 2
  | .msgPack => 3

def Delivered.encode (d : Delivered) : Bytes :=
  uintField 1 d.leaseId ++ uintField 2 d.offset ++ uintField 3 d.priority.val ++
    uintField 4 (ctToU32 d.contentType) ++ bytesField 5 d.payload ++ uintField 6 d.tsMs

def StatsResult.encode (s : StatsResult) : Bytes :=
  uintField 1 s.lastApplied ++ uintField 2 s.currentLeader ++ uintField 3 s.currentTerm ++
    uintField 4 s.lastLogIndex ++ boolField 5 s.isLeader ++ uintField 6 s.topics ++
    uintField 7 s.messages ++ uintField 8 s.inFlight

def Response.encode : Response → Bytes
  | .produced offset => messageField 1 (uintField 1 offset)
  | .polled items => messageField 2 (items.flatMap fun d => messageField 1 d.encode)
  | .ok => messageField 3 []
  | .error code message leaderAddr retryAfterMs =>
      messageField 4 (textField 1 code ++ textField 2 message ++ textField 3 leaderAddr ++
        uintField 4 retryAfterMs)
  | .stats result => messageField 5 result.encode

end HermesMq
