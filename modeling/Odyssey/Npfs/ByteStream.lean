import Odyssey.Lib.Bytes
import Odyssey.Lib.RingBuffer

/-! Named pipes of byte-stream type: `NpfsRead` and `NpfsWrite` on the two ends of one connection.
Each function below is what a thread does while it holds `DataListLock`; a thread that waits is
recorded in its IRP, and the run goes on with any action that is possible. The logs `returned` and
`accepted` are ghost state. -/
namespace Odyssey.Npfs

open ByteMem RingBuffer

inductive PipeEnd
  | client
  | server
  deriving DecidableEq, Repr

def PipeEnd.other : PipeEnd → PipeEnd
  | .client => .server
  | .server => .client

inductive PipeState
  | disconnected
  | listening
  | connected
  | closing
  deriving DecidableEq, Repr

inductive ReadMode
  | byteStream
  | message
  deriving DecidableEq, Repr

inductive Status
  | success
  | pending
  | cancelled
  | pipeBroken
  | pipeListening
  | pipeDisconnected
  | noMemory
  | unsuccessful
  deriving DecidableEq, Repr

inductive MajorFunction
  | read
  | write
  deriving DecidableEq, Repr

inductive Wait
  | nothing
  /-- A synchronous read behind other reads, on an event of its own. -/
  | turn
  /-- A synchronous read, on `ReadEvent`. -/
  | readEvent
  /-- An asynchronous read that `NpfsWaiterThread` waits for, on `ReadEvent`. -/
  | waiterThread
  /-- An asynchronous read behind other reads. -/
  | queue
  /-- A write, on `WriteEvent`. -/
  | writeEvent
  deriving DecidableEq, Repr

def ulong (n : Nat) : Nat := n%2^32

def ulongSub (m n : Nat) : Nat := (m+2^32-n)%2^32

structure Ccb where
  /-- 0 is `NULL`: nothing can be sent to this end. -/
  data : Nat
  maxDataLength : Nat
  readPtr : Nat
  writePtr : Nat
  readDataAvailable : Nat
  writeQuotaAvailable : Nat
  pipeState : PipeState
  /-- The pointer to the other end is not `NULL`. -/
  otherSide : Bool
  readMode : ReadMode
  readEvent : Bool
  writeEvent : Bool
  /-- The IRPs on `ReadRequestListHead`. -/
  readRequests : List Nat

structure Irp where
  majorFunction : MajorFunction
  pipeEnd : PipeEnd
  synchronous : Bool
  cancel : Bool
  length : Nat
  buffer : Mem
  information : Nat
  /-- `none` until the driver is called with the IRP. -/
  status : Option Status
  wait : Wait
  /-- The event of a synchronous read that waits for its turn. -/
  event : Bool

structure Connection where
  mem : Mem
  ccb : PipeEnd → Ccb
  irps : Nat → Irp
  /-- The bytes of the reads completed on an end. -/
  returned : PipeEnd → List (BitVec 8)
  /-- The bytes taken for an end, each with the IRP of its write. -/
  accepted : PipeEnd → List (Nat × BitVec 8)

/-- The local variables of the copy loops; `Buffer` is `buffer` from offset `information` on. -/
structure Transfer where
  mem : Mem
  ccb : Ccb
  buffer : Mem
  length : Nat
  information : Nat

def readChunk (t : Transfer) : Transfer :=
  let copyLength := min t.ccb.readDataAvailable t.length
  let stop := ulong (t.ccb.data+t.ccb.maxDataLength)
  let tempLength := ulongSub stop t.ccb.readPtr
  let straight := decide (ulong (t.ccb.readPtr+copyLength)≤ stop)
  { t with
    buffer :=
      if straight then copy t.buffer t.information t.mem t.ccb.readPtr copyLength
      else
        copy (copy t.buffer t.information t.mem t.ccb.readPtr tempLength)
          (t.information+tempLength) t.mem t.ccb.data (ulongSub copyLength tempLength)
    ccb := { t.ccb with
      readPtr :=
        if straight then
          if ulong (t.ccb.readPtr+copyLength)=stop then t.ccb.data
          else ulong (t.ccb.readPtr+copyLength)
        else ulongSub (ulong (t.ccb.data+copyLength)) tempLength
      readDataAvailable := t.ccb.readDataAvailable-copyLength
      writeQuotaAvailable := ulong (t.ccb.writeQuotaAvailable+copyLength) }
    length := t.length-copyLength
    information := t.information+copyLength }

def writeChunk (t : Transfer) : Transfer :=
  let copyLength := min t.length t.ccb.writeQuotaAvailable
  let stop := ulong (t.ccb.data+t.ccb.maxDataLength)
  let tempLength := ulongSub stop t.ccb.writePtr
  let straight := decide (ulong (t.ccb.writePtr+copyLength)≤ stop)
  { t with
    mem :=
      if straight then copy t.mem t.ccb.writePtr t.buffer t.information copyLength
      else
        copy (copy t.mem t.ccb.writePtr t.buffer t.information tempLength)
          t.ccb.data t.buffer (t.information+tempLength) (ulongSub copyLength tempLength)
    ccb := { t.ccb with
      writePtr :=
        if straight then
          if ulong (t.ccb.writePtr+copyLength)=stop then t.ccb.data
          else ulong (t.ccb.writePtr+copyLength)
        else ulongSub (ulong (t.ccb.data+copyLength)) tempLength
      readDataAvailable := ulong (t.ccb.readDataAvailable+copyLength)
      writeQuotaAvailable := t.ccb.writeQuotaAvailable-copyLength }
    length := t.length-copyLength
    information := t.information+copyLength }

def readLoop : Nat → Transfer → Transfer
  | 0, t => t
  | fuel+1, t =>
    if 0<t.length ∧ 0<t.ccb.readDataAvailable then readLoop fuel (readChunk t) else t

def writeLoop : Nat → Transfer → Transfer
  | 0, t => t
  | fuel+1, t =>
    if 0<t.length ∧ 0<t.ccb.writeQuotaAvailable then writeLoop fuel (writeChunk t) else t

namespace Connection

variable (c : Connection)

def modifyCcb (e : PipeEnd) (f : Ccb → Ccb) : Connection :=
  { c with ccb := Function.update c.ccb e (f (c.ccb e)) }

def modifyIrp (i : Nat) (f : Irp → Irp) : Connection :=
  { c with irps := Function.update c.irps i (f (c.irps i)) }

def wakeWriter (e : PipeEnd) : Connection :=
  if (c.ccb e).pipeState = .connected ∧ (c.ccb e).otherSide then
    c.modifyCcb e.other fun ccb => { ccb with writeEvent := true }
  else c

def waitFor (i : Nat) (wait : Wait) : Connection :=
  c.modifyIrp i fun irp => { irp with wait, status := some .pending }

def complete (i : Nat) (status : Status) : Connection :=
  c.modifyIrp i fun irp => { irp with wait := .nothing, status := some status }

def fail (i : Nat) (status : Status) : Connection :=
  (c.modifyIrp i fun irp => { irp with information := 0 }).complete i status

def insertTailList (i : Nat) : Connection :=
  c.modifyCcb (c.irps i).pipeEnd fun ccb => { ccb with readRequests := ccb.readRequests++[i] }

def removeEntryList (i : Nat) : Connection :=
  c.modifyCcb (c.irps i).pipeEnd fun ccb => { ccb with readRequests := ccb.readRequests.erase i }

def readByteStream (i : Nat) : Connection :=
  let irp := c.irps i
  let e := irp.pipeEnd
  let t := readLoop irp.length
    { mem := c.mem, ccb := c.ccb e, buffer := irp.buffer
      length := irp.length-irp.information, information := irp.information }
  let c := (c.modifyCcb e fun _ => t.ccb).modifyIrp i fun irp =>
    { irp with buffer := t.buffer, information := t.information }
  if t.length=0 ∨ t.ccb.readDataAvailable=0 then
    (c.wakeWriter e).modifyCcb e fun ccb => { ccb with readEvent := false }
  else c

def endRead (i : Nat) (status : Status) : Connection × Option Nat :=
  let irp := c.irps i
  let e := irp.pipeEnd
  let c := (c.complete i status).removeEntryList i
  let c := { c with
    returned := Function.update c.returned e
      (c.returned e++stretch irp.buffer 0 irp.information) }
  match (c.ccb e).readRequests with
  | [] => (c, none)
  | j::_ =>
    if irp.synchronous then
      if (c.irps j).synchronous then (c.modifyIrp j fun irp => { irp with event := true }, none)
      else (c.modifyCcb e fun ccb => { ccb with readEvent := true }, none)
    else if (c.irps j).cancel then
      ((c.removeEntryList j).complete j .cancelled, none)
    else (c, some j)

def serveRead (waiter : Nat → Bool) : Nat → Connection → Nat → Connection
  | 0, c, _ => c
  | fuel+1, c, i =>
    let e := (c.irps i).pipeEnd
    let next := fun (r : Connection × Option Nat) =>
      match r.2 with
      | none => r.1
      | some j => serveRead waiter fuel r.1 j
    if (c.ccb e).readDataAvailable=0 then
      let c := c.wakeWriter e
      if 0<(c.irps i).information ∧
          ((c.ccb e).readMode ≠ .byteStream ∨ (c.ccb e).pipeState ≠ .connected) then
        next (c.endRead i .success)
      else if (c.ccb e).pipeState ≠ .connected ∨ (c.ccb e).otherSide=false then
        next (c.endRead i .pipeBroken)
      else if (c.irps i).synchronous then c.waitFor i .readEvent
      else if waiter i=false then next (c.endRead i .noMemory)
      else if (c.irps i).cancel then c.complete i .cancelled
      else c.waitFor i .waiterThread
    else next ((c.readByteStream i).endRead i .success)

def serve (waiter : Nat → Bool) (c : Connection) (i : Nat) : Connection :=
  serveRead waiter ((c.ccb (c.irps i).pipeEnd).readRequests.length+1) c i

def npfsRead (waiter : Nat → Bool) (i : Nat) : Connection :=
  let irp := c.irps i
  let e := irp.pipeEnd
  let ccb := c.ccb e
  if ccb.otherSide ∧ (c.ccb e.other).pipeState = .disconnected ∧ ccb.pipeState = .disconnected then
    c.fail i .pipeDisconnected
  else if ccb.otherSide=false ∧ ccb.readDataAvailable=0 then
    c.fail i (match ccb.pipeState with
      | .connected => .pipeBroken
      | .listening => .pipeListening
      | .disconnected => .pipeDisconnected
      | .closing => .unsuccessful)
  else if ccb.data=0 then c.fail i .unsuccessful
  else if irp.synchronous then
    let c := c.insertTailList i
    if (c.ccb e).readRequests.head?=some i then
      serve waiter (c.modifyIrp i fun irp => { irp with information := 0 }) i
    else c.waitFor i .turn
  else if ccb.readRequests.head?=some i then serve waiter c i
  else
    let c := (c.modifyIrp i fun irp => { irp with information := 0 }).insertTailList i
    if (c.ccb e).readRequests.head?=some i then serve waiter c i
    else if irp.cancel then (c.removeEntryList i).complete i .cancelled
    else c.waitFor i .queue

def writeWait (i : Nat) : Connection :=
  let e := (c.irps i).pipeEnd
  if (c.ccb e).pipeState ≠ .connected ∨ (c.ccb e).otherSide=false then c.complete i .pipeBroken
  else (c.modifyCcb e.other fun ccb => { ccb with readEvent := true }).waitFor i .writeEvent

def writeByteStream (i : Nat) : Connection :=
  let irp := c.irps i
  let r := irp.pipeEnd.other
  let t := writeLoop irp.length
    { mem := c.mem, ccb := c.ccb r, buffer := irp.buffer
      length := irp.length-irp.information, information := irp.information }
  let taken := stretch irp.buffer irp.information (t.information-irp.information)
  let c := { c with
    mem := t.mem
    accepted := Function.update c.accepted r (c.accepted r++taken.map fun b => (i, b)) }
  let c := (c.modifyCcb r fun _ => t.ccb).modifyIrp i fun irp =>
    { irp with information := t.information }
  if t.length=0 then
    ((c.modifyCcb r fun ccb => { ccb with readEvent := true }).modifyCcb irp.pipeEnd fun ccb =>
      { ccb with writeEvent := false }).complete i .success
  else c.writeWait i

def npfsWrite (i : Nat) : Connection :=
  let e := (c.irps i).pipeEnd
  let ccb := c.ccb e
  if ccb.otherSide=false ∨ ccb.pipeState ≠ .connected then
    c.fail i (match ccb.pipeState with
      | .listening => .pipeListening
      | .disconnected => .pipeDisconnected
      | .connected | .closing => .unsuccessful)
  else if (c.ccb e.other).data=0 then c.fail i .unsuccessful
  else if (c.ccb e.other).writeQuotaAvailable=0 then c.writeWait i
  else c.writeByteStream i

def resumeWrite (i : Nat) : Connection :=
  let e := (c.irps i).pipeEnd
  if (c.ccb e).pipeState ≠ .connected ∨ (c.ccb e).otherSide=false then c.complete i .pipeBroken
  else if (c.ccb e.other).pipeState ≠ .connected ∨ (c.ccb e.other).otherSide=false then
    c.complete i .pipeBroken
  else c.writeByteStream i

/-- What can happen next, each while the thread holds the lock. -/
inductive Action
  /-- The driver is called with a new IRP. -/
  | call (i : Nat) (waiter : Nat → Bool)
  /-- The wait of the thread or of the waiter thread for `i` ends. -/
  | wake (i : Nat) (waiter : Nat → Bool)
  /-- `KeWaitForSingleObject` returns because of an APC. -/
  | alert (i : Nat)
  /-- `IoCancelIrp`, with the cancel routine where one is set. -/
  | cancel (i : Nat)

def wake (waiter : Nat → Bool) (i : Nat) : Connection :=
  let irp := c.irps i
  let ccb := c.ccb irp.pipeEnd
  match irp.wait with
  | .turn =>
    if irp.event then
      serve waiter (c.modifyIrp i fun irp => { irp with event := false, information := 0 }) i
    else c
  | .readEvent =>
    if ccb.readEvent then
      match (c.readByteStream i).endRead i .success with
      | (c, none) => c
      | (c, some j) => serve waiter c j
    else c
  | .waiterThread => if ccb.readEvent then c.npfsRead waiter i else c
  -- `WriteEvent` is a notification event: `KeSetEvent` releases every write that waits, and one of
  -- them can reset the event before another goes on, so the flag says nothing here
  | .writeEvent => c.resumeWrite i
  | .queue | .nothing => c

def alert (i : Nat) : Connection :=
  match (c.irps i).wait with
  | .turn | .readEvent | .writeEvent => c.complete i .cancelled
  | .waiterThread | .queue | .nothing => c

def cancel (i : Nat) : Connection :=
  let irp := c.irps i
  let c := c.modifyIrp i fun irp => { irp with cancel := true }
  match irp.wait with
  | .waiterThread | .queue => (c.removeEntryList i).fail i .cancelled
  | .turn | .readEvent | .writeEvent | .nothing => c

def step (a : Action) : Connection :=
  match a with
  | .call i waiter =>
    if (c.irps i).status=none then
      let c := c.modifyIrp i fun irp => { irp with status := some .pending }
      match (c.irps i).majorFunction with
      | .read => c.npfsRead waiter i
      | .write => c.npfsWrite i
    else c
  | .wake i waiter => c.wake waiter i
  | .alert i => c.alert i
  | .cancel i => c.cancel i

def run (actions : List Action) : Connection := actions.foldl step c

end Connection

def pageSize : Nat := 4096

def pageRoundUp (n : Nat) : Nat :=
  if n%pageSize≠0 then ulong (n/pageSize*pageSize+pageSize) else n

def quota (requested : Nat) : Nat :=
  if requested=0 then 8*pageSize
  else if pageRoundUp requested<pageSize then pageSize
  else if pageRoundUp requested > 64*pageSize then 64*pageSize
  else pageRoundUp requested

def nonPagedPoolEnd : Nat := 0xFFBE0000

/-- The buffer of a CCB as `NpfsCreate` and `NpfsCreateNamedPipe` leave it. -/
structure Ccb.Created (ccb : Ccb) : Prop where
  readPtr : ccb.readPtr=ccb.data
  writePtr : ccb.writePtr=ccb.data
  readDataAvailable : ccb.readDataAvailable=0
  writeQuotaAvailable : ccb.writeQuotaAvailable=ccb.maxDataLength
  readRequests : ccb.readRequests=[]
  /-- A buffer is not empty, and two of its size would still fit behind its start. -/
  size : ccb.data≠0 → 0<ccb.maxDataLength ∧ ccb.data+2*ccb.maxDataLength≤2^32

/-- The sizes of the buffers that the driver allocates are as `Ccb.Created` asks. -/
theorem quota_fits {data requested : Nat} (h : data+quota requested≤nonPagedPoolEnd) :
    0<quota requested ∧ data+2*quota requested≤2^32 := by
  have hquota : 0<quota requested ∧ quota requested≤64*pageSize := by
    unfold quota pageSize
    split_ifs
    all_goals omega
  unfold nonPagedPoolEnd at h
  unfold pageSize at hquota
  omega

/-- A connection before its first request; the buffers of the ends are separate allocations. -/
structure Connection.Created (c : Connection) : Prop where
  ccb : ∀ e, (c.ccb e).Created
  apart : ∀ e, (c.ccb e).data≠0 → (c.ccb e.other).data≠0 →
    (c.ccb e).data+(c.ccb e).maxDataLength≤(c.ccb e.other).data ∨
      (c.ccb e.other).data+(c.ccb e.other).maxDataLength≤(c.ccb e).data
  irps : ∀ i, (c.irps i).status=none ∧ (c.irps i).wait = .nothing ∧ (c.irps i).event=false ∧
    (c.irps i).information=0
  returned : ∀ e, c.returned e=[]
  accepted : ∀ e, c.accepted e=[]

end Odyssey.Npfs
