import Odyssey.Cm.BaseBlock
import Odyssey.Rtl.Bitmap

/-! The cells of a registry hive: `lib/cmlib/hivecell.c` and `hivebin.c` over the data of
`hivedata.h`, for hives that are neither flat nor read-only.

A `ULONG` is a number below `2 ^ 32` and its arithmetic wraps explicitly. The literals are
those of the headers: 4096 is `HV_BLOCK_SIZE`, 32 is `sizeof(HBIN)`, 4 is `sizeof(HCELL)`.
A step that would leave its buffer, fail an `ASSERT` or never end gives a `Fault`. -/
namespace Odyssey.Cm
open ByteMem Rtl

variable {α β : Type}

inductive Fault where
  | bounds | assertion | diverges
  deriving DecidableEq, Repr

inductive StorageType where
  | stable | volatile
  deriving DecidableEq, Repr

structure Ptr where
  buf : Nat
  off : Nat
  deriving DecidableEq, Repr

def Ptr.add (p : Ptr) (n : Nat) : Ptr := ⟨p.buf,p.off+n⟩

structure Buffer where
  size : Nat
  bytes : Mem

structure MapEntry where
  blockAddress : Ptr
  binAddress : Nat
  deriving DecidableEq, Repr

structure Dual where
  length : Nat
  blockList : Nat → MapEntry
  freeDisplay : Nat → Nat

/-- The part of `HHIVE` that the cell and file routines use, with the heap its buffers are
in. `baseBlock` is the image of the `HBASE_BLOCK`. -/
structure Hive where
  heap : Nat → Buffer
  nextBuffer : Nat
  storage : StorageType → Dual
  dirtyVector : Bitmap
  baseBlock : Mem

abbrev HiveM := Except Fault

@[simp] theorem HiveM.ok_bind (a : α) (f : α → HiveM β) : ((Except.ok a : HiveM α) >>= f)=f a := rfl

def HiveM.fault {α : Type} : HiveM α → Option Fault
  | .ok _ => none
  | .error f => some f

theorem HiveM.fault_eq_some {x : HiveM α} {f : Fault} : x.fault=some f ↔ x = .error f := by
  cases x with
  | ok a => simp [HiveM.fault]
  | error g => simp [HiveM.fault]

theorem HiveM.bind_eq_ok {x : HiveM α} {f : α → HiveM β} {b : β}
    (h : x >>= f = .ok b) : ∃ a, x = .ok a ∧ f a = .ok b := by
  cases x with
  | ok a => exact ⟨a,rfl,h⟩
  | error g => exact absurd h (by simp [bind,Except.bind])

def HiveM.holds {α : Type} (p : α → Bool) : HiveM α → Bool
  | .ok a => p a
  | .error _ => false

theorem HiveM.exists_of_holds {p : α → Bool} {x : HiveM α} (h : x.holds p) :
    ∃ a, x = .ok a ∧ p a=true := by
  cases x with
  | ok a => exact ⟨a,rfl,h⟩
  | error f => exact absurd h Bool.false_ne_true

@[simp] theorem HiveM.pure_eq (a : α) : (pure a : HiveM α) = .ok a := rfl

namespace Hive

def load (h : Hive) (p : Ptr) : HiveM (BitVec 32) :=
  if p.off+4≤(h.heap p.buf).size then .ok (read32 (h.heap p.buf).bytes p.off)
  else .error .bounds

def setBytes (h : Hive) (buf : Nat) (bytes : Mem) : Hive :=
  { h with heap := Function.update h.heap buf { h.heap buf with bytes } }

def store (h : Hive) (p : Ptr) (w : BitVec 32) : HiveM Hive :=
  if p.off+4≤(h.heap p.buf).size then
    .ok (h.setBytes p.buf (write32 (h.heap p.buf).bytes p.off w))
  else .error .bounds

def fillMemory (h : Hive) (p : Ptr) (n : Nat) (v : BitVec 8) : HiveM Hive :=
  if p.off+n≤(h.heap p.buf).size then
    .ok (h.setBytes p.buf (fill (h.heap p.buf).bytes p.off n v))
  else .error .bounds

def copyMemory (h : Hive) (dst src : Ptr) (n : Nat) : HiveM Hive :=
  if dst.off+n≤(h.heap dst.buf).size ∧ src.off+n≤(h.heap src.buf).size then
    .ok (h.setBytes dst.buf
      (copy (h.heap dst.buf).bytes dst.off (h.heap src.buf).bytes src.off n))
  else .error .bounds

def newBuffer (h : Hive) (size : Nat) (bytes : Mem) : Hive :=
  { h with
    heap := Function.update h.heap h.nextBuffer ⟨size,bytes⟩
    nextBuffer := h.nextBuffer+1 }

def setStorage (h : Hive) (s : StorageType) (d : Dual) : Hive :=
  { h with storage := Function.update h.storage s d }

def setFreeDisplay (h : Hive) (s : StorageType) (index cell : Nat) : Hive :=
  h.setStorage s
    { h.storage s with freeDisplay := Function.update (h.storage s).freeDisplay index cell }

end Hive

def roundUp (a b : Nat) : Nat := (a+b-1)%2^32/b*b

def hcellNil : Nat := 2^32-1

def hvBinSignature : BitVec 32 := 0x6e696268

def cellType (cellIndex : Nat) : StorageType :=
  if cellIndex/2^31%2=0 then .stable else .volatile

def cellBlock (cellIndex : Nat) : Nat := cellIndex/4096%2^19

def cellOffset (cellIndex : Nat) : Nat := cellIndex%4096

def orType (s : StorageType) (cellIndex : Nat) : Nat :=
  if s = .volatile ∧ cellIndex/2^31%2=0 then cellIndex+2^31 else cellIndex

def findFirstSet : List Nat :=
  List.replicate 2 0++List.replicate 2 1++List.replicate 4 2++List.replicate 8 3 ++
    List.replicate 16 4++List.replicate 32 5++List.replicate 64 6++List.replicate 128 7

def hvpComputeFreeListIndex (size : Nat) : Nat :=
  let index := (size/8+2^32-1)%2^32
  if index ≥ 16 then
    if index > 255 then 23 else findFirstSet.getD index 0+7
  else index

namespace Hive

def hvpGetCellHeader (h : Hive) (cellIndex : Nat) : HiveM Ptr :=
  if cellIndex≠hcellNil ∧ cellBlock cellIndex<(h.storage (cellType cellIndex)).length then
    .ok (((h.storage (cellType cellIndex)).blockList (cellBlock cellIndex)).blockAddress.add
      (cellOffset cellIndex))
  else .error .assertion

def hvGetCell (h : Hive) (cellIndex : Nat) : HiveM Ptr := do
  let header ← h.hvpGetCellHeader cellIndex
  return header.add 4

def writeCell (h : Hive) (cellIndex offset : Nat) (v : BitVec 8) : HiveM Hive := do
  let cell ← h.hvGetCell cellIndex
  h.fillMemory (cell.add offset) 1 v

def hvGetCellSize (h : Hive) (header : Ptr) : HiveM Int := do
  let size ← h.load header
  return (-size-4).toInt

def setDirtyBits (h : Hive) (first count : BitVec 32) : HiveM Hive :=
  if first+count≤h.dirtyVector.sizeOfBitMap then
    .ok { h with dirtyVector := rtlSetBits h.dirtyVector first count }
  else .error .assertion

def hvMarkCellDirty (h : Hive) (cellIndex : Nat) : HiveM Hive :=
  if cellType cellIndex ≠ .stable then .ok h
  else
    let first := BitVec.ofNat 32 (cellBlock cellIndex)
    let last := BitVec.ofNat 32 (cellBlock ((cellIndex+4096-1)%2^32))
    h.setDirtyBits first (last-first)

def markIfStable (h : Hive) (s : StorageType) (cellIndex : Nat) : HiveM Hive :=
  if s = .stable then h.hvMarkCellDirty cellIndex else .ok h

def hvpAddFree (h : Hive) (freeBlock : Ptr) (freeIndex : Nat) : HiveM Hive := do
  let storage := cellType freeIndex
  let size ← h.load freeBlock
  let index := hvpComputeFreeListIndex size.toNat
  let h ← h.store (freeBlock.add 4) (BitVec.ofNat 32 ((h.storage storage).freeDisplay index))
  return h.setFreeDisplay storage index freeIndex

end Hive

/-- Where `pFreeCellOffset` points: into the `FreeDisplay` or at the data of a free cell. -/
inductive Slot where
  | freeDisplay (index : Nat)
  | cellData (p : Ptr)

namespace Hive

def readSlot (h : Hive) (s : StorageType) : Slot → HiveM Nat
  | .freeDisplay index => .ok ((h.storage s).freeDisplay index)
  | .cellData p => do
    let w ← h.load p
    return w.toNat

def writeSlot (h : Hive) (s : StorageType) (cell : Nat) : Slot → HiveM Hive
  | .freeDisplay index => .ok (h.setFreeDisplay s index cell)
  | .cellData p => h.store p (BitVec.ofNat 32 cell)

def unlinkFirst (h : Hive) (s : StorageType) (test : Nat → Ptr → HiveM Bool) :
    Nat → Slot → HiveM (Option (Nat × Hive))
  | 0, _ => .error .diverges
  | fuel+1, slot => do
    let cell ← h.readSlot s slot
    if cell=hcellNil then .ok none
    else do
      let header ← h.hvpGetCellHeader cell
      let found ← test cell header
      if found then do
        let next ← h.load (header.add 4)
        let h ← h.writeSlot s next.toNat slot
        .ok (some (cell, h))
      else unlinkFirst h s test fuel (.cellData (header.add 4))

def fuel (h : Hive) (s : StorageType) : Nat := (h.storage s).length*4096+1

def hvpRemoveFree (h : Hive) (cellBlock : Ptr) (cellIndex : Nat) : HiveM Hive := do
  let storage := cellType cellIndex
  let size ← h.load cellBlock
  let index := hvpComputeFreeListIndex size.toNat
  match ← h.unlinkFirst storage (fun cell _ => .ok (cell=cellIndex)) (h.fuel storage)
      (.freeDisplay index) with
  | some (_, h) => return h
  | none => .error .assertion

def largeEnough (h : Hive) (size : Nat) (header : Ptr) : HiveM Bool := do
  let cellSize ← h.load header
  return cellSize.toNat ≥ size

def findFreeFrom (h : Hive) (size : Nat) (s : StorageType) : Nat → HiveM (Option (Nat × Hive))
  | 0 => .ok none
  | n+1 => do
    match ← h.unlinkFirst s (fun _ header => h.largeEnough size header) (h.fuel s)
        (.freeDisplay (24-(n+1))) with
    | some r => return r
    | none => findFreeFrom h size s n

def hvpFindFree (h : Hive) (size : Nat) (s : StorageType) : HiveM (Option (Nat × Hive)) :=
  h.findFreeFrom size s (24-hvpComputeFreeListIndex size)

end Hive

/-- Which of the three calls of `Allocate` in `HvpAddBin` succeed. -/
structure AllocResults where
  bin : Bool
  blockList : Bool
  bitmap : Bool

def AllocResults.succeed : AllocResults := ⟨true,true,true⟩

def firstBytes (buffer : Nat → BitVec 32) (n : Nat) : Nat → BitVec 32 := fun i =>
  buffer i &&& ~~~(BitVec.allOnes 32 <<< (8*(n-4*i)))

namespace Hive

def growDirtyVector (h : Hive) (allocated : Bool) : HiveM Hive :=
  let bitmapSize := roundUp (h.storage .stable).length 32/8
  let size := h.dirtyVector.sizeOfBitMap.toNat
  if bitmapSize > size/8 then
    if allocated then
      .ok { h with
        dirtyVector := rtlInitializeBitMap (firstBytes h.dirtyVector.buffer (size/8))
          (BitVec.ofNat 32 (bitmapSize*8)) }
    else .error .bounds
  else .ok h

def extendBlockList (d : Dual) (bin blockCount : Nat) : Dual :=
  { d with
    length := (d.length+blockCount)%2^32
    blockList := fun i =>
      if d.length ≤ i ∧ i<d.length+blockCount then ⟨⟨bin,(i-d.length)*4096⟩,bin⟩
      else d.blockList i }

/-- `HvpAddBin` gives the buffer of the new bin, or `none` for NULL. -/
def hvpAddBin (h : Hive) (alloc : AllocResults) (size : Nat) (s : StorageType) :
    HiveM (Option (Nat × Hive)) := do
  let binSize := roundUp ((size+32)%2^32) 4096
  let blockCount := binSize/4096
  if alloc.bin=false then return none
  else do
    let bin := h.nextBuffer
    let length := (h.storage s).length
    let fileOffset := length*4096%2^32
    let h := h.newBuffer binSize (fun _ => 0)
    let h ← h.store ⟨bin,0⟩ hvBinSignature
    let h ← h.store ⟨bin,4⟩ (BitVec.ofNat 32 fileOffset)
    let h ← h.store ⟨bin,8⟩ (BitVec.ofNat 32 binSize)
    if alloc.blockList=false then return none
    else do
      let h := h.setStorage s (extendBlockList (h.storage s) bin blockCount)
      let h ← h.store ⟨bin,32⟩ (BitVec.ofNat 32 ((binSize+2^32-32)%2^32))
      if s = .stable then do
        let h ← h.growDirtyVector alloc.bitmap
        let h ← h.setDirtyBits (BitVec.ofNat 32 (fileOffset/4096)) (BitVec.ofNat 32 blockCount)
        return some (bin, h)
      else return some (bin, h)

def splitCell (h : Hive) (s : StorageType) (size freeCellOffset : Nat) (freeCell : Ptr) :
    HiveM Hive := do
  let cellSize ← h.load freeCell
  if cellSize.toNat > (size+16)%2^32 then do
    let newCell := freeCell.add size
    let h ← h.store newCell (cellSize-BitVec.ofNat 32 size)
    let h ← h.store freeCell (BitVec.ofNat 32 size)
    let newIndex := (freeCellOffset+size)%2^32
    let h ← h.hvpAddFree newCell newIndex
    h.markIfStable s newIndex
  else .ok h

def claimCell (h : Hive) (s : StorageType) (size freeCellOffset : Nat) (freeCell : Ptr) :
    HiveM Hive := do
  let h ← h.markIfStable s freeCellOffset
  let cellSize ← h.load freeCell
  let h ← h.store freeCell (-cellSize)
  h.fillMemory (freeCell.add 4) ((size+2^32-4)%2^32) 0

def takeCell (h : Hive) (s : StorageType) (size freeCellOffset : Nat) : HiveM Hive := do
  let freeCell ← h.hvpGetCellHeader freeCellOffset
  let h ← h.splitCell s size freeCellOffset freeCell
  h.claimCell s size freeCellOffset freeCell

def hvAllocateCell (h : Hive) (alloc : AllocResults) (size : Nat) (s : StorageType) :
    HiveM (Nat × Hive) := do
  let size := roundUp ((size+4)%2^32) 16
  match ← h.hvpFindFree size s with
  | some (freeCellOffset, h) =>
    let h ← h.takeCell s size freeCellOffset
    return (freeCellOffset, h)
  | none =>
    match ← h.hvpAddBin alloc size s with
    | none => return (hcellNil, h)
    | some (bin, h) =>
      let fileOffset ← h.load ⟨bin,4⟩
      let freeCellOffset := orType s ((fileOffset.toNat+32)%2^32)
      let h ← h.takeCell s size freeCellOffset
      return (freeCellOffset, h)

def mergeNext (h : Hive) (cellIndex fileOffset binSize : Nat) (free : Ptr) : HiveM Hive := do
  let size ← h.load free
  if (cellIndex%2^31+size.toNat)%2^32<(fileOffset+binSize)%2^32 then do
    let neighbor := free.add size.toNat
    let neighborSize ← h.load neighbor
    if neighborSize.toInt > 0 then do
      let h ← h.hvpRemoveFree neighbor
        (orType (cellType cellIndex) ((neighbor.off+fileOffset)%2^32))
      h.store free (size+neighborSize)
    else .ok h
  else .ok h

def findPrevious (h : Hive) (free : Ptr) : Nat → Ptr → HiveM (Option Ptr)
  | 0, _ => .error .diverges
  | fuel+1, neighbor =>
    if neighbor.off<free.off then do
      let size ← h.load neighbor
      if size.toInt > 0 then
        if neighbor.off+size.toNat=free.off then .ok (some neighbor)
        else findPrevious h free fuel (neighbor.add size.toNat)
      else findPrevious h free fuel (neighbor.add (-size.toInt).toNat)
    else .ok none

def mergePrevious (h : Hive) (neighbor free : Ptr) (neighborIndex : Nat) : HiveM Hive := do
  let size ← h.load free
  let neighborSize ← h.load neighbor
  if hvpComputeFreeListIndex neighborSize.toNat ≠
      hvpComputeFreeListIndex (neighborSize+size).toNat then do
    let h ← h.hvpRemoveFree neighbor neighborIndex
    let h ← h.store neighbor (neighborSize+size)
    h.hvpAddFree neighbor neighborIndex
  else h.store neighbor (neighborSize+size)

def settleCell (h : Hive) (cellIndex fileOffset : Nat) (free : Ptr) : Option Ptr → HiveM Hive
  | some neighbor => do
    let neighborIndex := orType (cellType cellIndex) ((neighbor.off+fileOffset)%2^32)
    let h ← h.mergePrevious neighbor free neighborIndex
    h.markIfStable (cellType cellIndex) neighborIndex
  | none => do
    let h ← h.hvpAddFree free cellIndex
    h.markIfStable (cellType cellIndex) cellIndex

def hvFreeCell (h : Hive) (cellIndex : Nat) : HiveM Hive := do
  let free ← h.hvpGetCellHeader cellIndex
  let size ← h.load free
  if ¬size.toInt<0 then .error .assertion
  else do
    let h ← h.store free (-size)
    let bin := ((h.storage (cellType cellIndex)).blockList (cellBlock cellIndex)).binAddress
    let fileOffset ← h.load ⟨bin,4⟩
    let binSize ← h.load ⟨bin,8⟩
    let h ← h.mergeNext cellIndex fileOffset.toNat binSize.toNat free
    let previous ← h.findPrevious free (free.off+1) ⟨bin,32⟩
    h.settleCell cellIndex fileOffset.toNat free previous

def hvReallocateCell (h : Hive) (alloc : AllocResults) (cellIndex size : Nat) :
    HiveM (Nat × Hive) := do
  let oldCell ← h.hvpGetCellHeader cellIndex
  let oldCellSize ← h.hvGetCellSize oldCell
  if ¬oldCellSize > 0 then .error .assertion
  else if size > oldCellSize.toNat then do
    let (newCellIndex, h) ← h.hvAllocateCell alloc size (cellType cellIndex)
    if newCellIndex=hcellNil then return (hcellNil, h)
    else do
      let newCell ← h.hvpGetCellHeader newCellIndex
      let h ← h.copyMemory (newCell.add 4) (oldCell.add 4) oldCellSize.toNat
      let h ← h.hvFreeCell cellIndex
      return (newCellIndex, h)
  else return (cellIndex, h)

end Hive

def hvpCreateHive : Hive where
  heap := fun _ => ⟨0,fun _ => 0⟩
  nextBuffer := 0
  storage := fun _ =>
    { length := 0
      blockList := fun _ => ⟨⟨0,0⟩,0⟩
      freeDisplay := fun _ => hcellNil }
  dirtyVector := rtlInitializeBitMap (fun _ => 0) 0
  baseBlock := createBaseBlock

end Odyssey.Cm
