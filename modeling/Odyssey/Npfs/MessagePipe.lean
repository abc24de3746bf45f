import Odyssey.Lib.Messages
import Odyssey.Npfs.ByteStream

/-! Named pipes of message type: the branches of `NpfsRead` and `NpfsWrite` for them, on the buffer
of one end of a connection. Pointers are offsets from `Data`. Each action is what a thread does
while it holds `DataListLock`; a write that waits for quota, or has waited, is recorded, and a read
that waits for data comes again. The logs `accepted` and `returned` are ghost state. -/
namespace Odyssey.Npfs
open ByteMem

def lengthSize : Nat := 4

structure Writer where
  buffer : Mem
  length : Nat

structure MessagePipe where
  mem : Mem
  maxDataLength : Nat
  readPtr : Nat
  writePtr : Nat
  readDataAvailable : Nat
  writeQuotaAvailable : Nat
  writeEvent : Bool
  /-- The writes that wait for `WriteEvent`. -/
  waiting : List Writer
  /-- The writes whose wait is over and that have not gone on yet. -/
  released : List Writer
  /-- The messages put into the buffer. -/
  accepted : List (List (BitVec 8))
  /-- What the reads came back with. -/
  returned : List (ReadMode × List (BitVec 8))

namespace MessagePipe
variable (p : MessagePipe)

/-- A write waits for `WriteEvent`. -/
def waitForQuota (w : Writer) : MessagePipe :=
  if p.writeEvent then { p with released := p.released++[w] }
  else { p with waiting := p.waiting++[w] }

/-- `KeSetEvent` on `WriteEvent`, a notification event: every write that waits is released, also
if the event is reset before it goes on. -/
def setWriteEvent : MessagePipe :=
  { p with writeEvent := true, waiting := [], released := p.released++p.waiting }

/-- The message branch of the loop; `none` if it copies to memory outside the buffer. A round that
copies nothing leaves no quota (`ulongSub_quota`), so the write waits then. -/
def writeMessage (w : Writer) : Option MessagePipe :=
  let copyLength := min w.length (ulongSub p.writeQuotaAvailable lengthSize)
  if p.writePtr+lengthSize+copyLength≤p.maxDataLength then
    let p := { p with
      mem := copy (write32 p.mem p.writePtr (BitVec.ofNat 32 copyLength)) (p.writePtr+lengthSize)
        w.buffer 0 copyLength
      writePtr := p.writePtr+lengthSize+copyLength
      readDataAvailable := ulong (p.readDataAvailable+copyLength)
      writeQuotaAvailable := ulongSub p.writeQuotaAvailable (copyLength+lengthSize)
      accepted := p.accepted++[bytes w.buffer 0 copyLength] }
    some (if copyLength≠0 then { p with writeEvent := false } else p.waitForQuota w)
  else none

def npfsWrite (w : Writer) : Option MessagePipe :=
  if p.writeQuotaAvailable=0 then some (p.waitForQuota w) else p.writeMessage w

def resumeWrite (i : Nat) : Option MessagePipe :=
  match p.released[i]? with
  | none => some p
  | some w => { p with released := p.released.eraseIdx i }.writeMessage w

/-- The messages move to the start of the buffer if the quota is used up. Like the functions below
it is `none` if it touches memory outside the buffer. -/
def compact : Option MessagePipe :=
  if p.writeQuotaAvailable=0 ∧ 0<p.readPtr then
    if p.readPtr≤p.writePtr ∧ p.writePtr≤p.maxDataLength then
      some { p with
        mem := copy p.mem 0 p.mem p.readPtr (p.writePtr-p.readPtr)
        writeQuotaAvailable := ulong (p.writeQuotaAvailable+p.readPtr)
        writePtr := p.writePtr-p.readPtr
        readPtr := 0 }
    else none
  else some p

def advance (next copyLength : Nat) : Option MessagePipe :=
  if p.readDataAvailable > copyLength then
    some (if copyLength<next then
      { p with
        mem := write32 p.mem (p.readPtr+copyLength) (BitVec.ofNat 32 (next-copyLength))
        readPtr := p.readPtr+copyLength }
    else { p with readPtr := p.readPtr+copyLength+lengthSize })
  else if next+lengthSize≤p.maxDataLength then
    some { p with
      mem := fill p.mem 0 (next+lengthSize) 0
      writeQuotaAvailable := p.maxDataLength
      writePtr := 0
      readPtr := 0 }
  else none

def takePiece (length : Nat) : Option (MessagePipe × List (BitVec 8)) :=
  let next := (read32 p.mem p.readPtr).toNat
  let copyLength := min next length
  if p.readPtr+lengthSize+copyLength≤p.maxDataLength then
    (p.advance next copyLength).map fun p' =>
      ({ p' with readDataAvailable := ulongSub p.readDataAvailable copyLength },
        bytes p.mem (p.readPtr+lengthSize) copyLength)
  else none

def readMessage (length : Nat) : Option (MessagePipe × List (BitVec 8)) :=
  p.compact.bind fun p => if p.readDataAvailable=0 then some (p, []) else p.takePiece length

def endRead (mode : ReadMode) (data : List (BitVec 8)) : MessagePipe :=
  let p := { p with returned := p.returned++[(mode, data)] }
  if 0<p.writeQuotaAvailable then p.setWriteEvent else p

def serveRead (mode : ReadMode) :
    Nat → Bool → MessagePipe → Nat → List (BitVec 8) → Option MessagePipe
  | 0, _, _, _, _ => none
  | fuel+1, resumed, p, length, data =>
    if p.readDataAvailable=0 ∧ resumed=false then some p.setWriteEvent
    else
      match p.readMessage length with
      | none => none
      | some (p, piece) =>
        if data++piece=[] then serveRead mode fuel false p length []
        else if mode = .byteStream ∧ p.readDataAvailable≠0 ∧ piece.length<length then
          serveRead mode fuel false p (length-piece.length) (data++piece)
        else some (p.endRead mode (data++piece))

def npfsRead (mode : ReadMode) (resumed : Bool) (length : Nat) : Option MessagePipe :=
  serveRead mode (p.maxDataLength+2) resumed p length []

inductive Action
  | write (w : Writer)
  /-- A released write goes on. -/
  | wake (i : Nat)
  /-- The wait of a write ends because of an APC. -/
  | alert (i : Nat)
  | read (mode : ReadMode) (resumed : Bool) (length : Nat)

def step : Action → Option MessagePipe
  | .write w => p.npfsWrite w
  | .wake i => p.resumeWrite i
  | .alert i => some { p with waiting := p.waiting.eraseIdx i }
  | .read mode resumed length => p.npfsRead mode resumed length

end MessagePipe

end Odyssey.Npfs
