import Odyssey.Cm.HiveWrite

/-! Loading a hive from memory: `HvpInitializeMemoryHive` of `hiveinit.c` and
`HvpCreateHiveFreeCellList` of `hivecell.c`. -/
namespace Odyssey.Cm
open ByteMem Tiling Rtl

/-- A chunk of memory. It lies in system space, the upper 2 GB of the address space. -/
structure Chunk where
  size : Nat
  bytes : Mem
  small : size<2^31

inductive Status where
  | success | registryCorrupt | noMemory
  deriving DecidableEq, Repr

namespace Chunk

def load (c : Chunk) (o : Nat) : HiveM (BitVec 32) :=
  if o+4≤c.size then .ok (read32 c.bytes o) else .error .bounds

def setLength (c : Chunk) (v : BitVec 32) : Chunk := { c with bytes := setField c.bytes .length v }

def check (c : Chunk) (f : Field) (p : BitVec 32 → Bool) (next : HiveM Bool) : HiveM Bool := do
  let v ← c.load (4*f.index)
  if p v then next else return false

def hvpHiveHeaderChecksum (c : Chunk) : HiveM (BitVec 32) :=
  if 508≤c.size then .ok (Cm.hvpHiveHeaderChecksum c.bytes) else .error .bounds

def hvpVerifyHiveHeader (c : Chunk) : HiveM Bool :=
  c.check .signature (· = hvSignature) <|
  c.check .major (· = 1) <|
  c.check .minor (fun v => !(v<3)) <|
  c.check .type (· = 0) <|
  c.check .format (· = 1) <|
  c.check .cluster (· = 1) <| do
    let sequence1 ← c.load (4*Field.sequence1.index)
    let sequence2 ← c.load (4*Field.sequence2.index)
    if sequence1≠sequence2 then return false
    else do
      let sum ← c.hvpHiveHeaderChecksum
      let checkSum ← c.load (4*Field.checkSum.index)
      return sum=checkSum

end Chunk

def clearedHive : Hive where
  heap := fun _ => ⟨0,fun _ => 0⟩
  nextBuffer := 0
  storage := fun _ => { length := 0, blockList := fun _ => ⟨⟨0,0⟩,0⟩, freeDisplay := fun _ => 0 }
  dirtyVector := rtlInitializeBitMap (fun _ => 0) 0
  baseBlock := fun _ => 0

namespace Hive

def setBlock (h : Hive) (i : Nat) (e : MapEntry) : HiveM Hive :=
  if i<(h.storage .stable).length then
    .ok (h.setStorage .stable { h.storage .stable with
      blockList := Function.update (h.storage .stable).blockList i e })
  else .error .bounds

def setBlocks (h : Hive) (blockIndex newBin : Nat) : Nat → Nat → HiveM Hive
  | 0, _ => .ok h
  | count+1, i => do
    let h ← h.setBlock (blockIndex+i) ⟨⟨newBin,i*4096⟩,newBin⟩
    h.setBlocks blockIndex newBin count (i+1)

def copyChunk (h : Hive) (buf : Nat) (c : Chunk) (o n : Nat) : HiveM Hive :=
  if o+n≤c.size ∧ n≤(h.heap buf).size then .ok (h.setBytes buf (slice c.bytes o n))
  else .error .bounds

def storeBin (h : Hive) (c : Chunk) (blockIndex size : Nat) : HiveM Hive := do
  let newBin := h.nextBuffer
  let h := h.newBuffer size fun _ => 0
  let h ← h.setBlock blockIndex ⟨⟨newBin,0⟩,newBin⟩
  let h ← h.copyChunk newBin c ((blockIndex+1)*4096) size
  h.setBlocks blockIndex newBin (size/4096-1) 1

def loadBins (c : Chunk) (alloc : Nat → Bool) : Nat → Nat → Hive → HiveM (Status × Hive)
  | 0, _, _ => .error .diverges
  | fuel+1, blockIndex, h =>
    if blockIndex<(h.storage .stable).length then do
      let bin := (blockIndex+1)*4096
      let signature ← c.load bin
      if signature≠hvBinSignature then return (.registryCorrupt, h)
      else do
        let size ← c.load (bin+8)
        if size.toNat%4096≠0 then return (.registryCorrupt, h)
        else if ¬alloc (2+h.nextBuffer) then return (.noMemory, h)
        else do
          let h ← h.storeBin c blockIndex size.toNat
          loadBins c alloc fuel (blockIndex+size.toNat/4096) h
    else .ok (.success, h)

def addFreeCells (bin : Nat) : Nat → Nat → Hive → HiveM Hive
  | 0, _, _ => .error .diverges
  | fuel+1, freeOffset, h => do
    let binSize ← h.load ⟨bin,8⟩
    if freeOffset<binSize.toNat then do
      let size ← h.load ⟨bin,freeOffset⟩
      if size.toInt > 0 then do
        let fileOffset ← h.load ⟨bin,4⟩
        let h ← h.hvpAddFree ⟨bin,freeOffset⟩ ((fileOffset.toNat+freeOffset)%2^32)
        addFreeCells bin fuel ((freeOffset+size.toNat)%2^32) h
      else addFreeCells bin fuel ((freeOffset+2^32-size.toNat)%2^32) h
    else .ok h

def addFreeBins : Nat → Nat → Hive → HiveM Hive
  | 0, _, _ => .error .diverges
  | fuel+1, blockIndex, h =>
    if blockIndex<(h.storage .stable).length then do
      let bin := ((h.storage .stable).blockList blockIndex).binAddress
      let h ← addFreeCells bin ((h.heap bin).size+1) 32 h
      let binSize ← h.load ⟨bin,8⟩
      addFreeBins fuel (blockIndex+binSize.toNat/4096) h
    else .ok h

def clearFreeDisplay (h : Hive) : Hive :=
  { h with storage := fun s => { h.storage s with freeDisplay := fun _ => hcellNil } }

def hvpCreateHiveFreeCellList (h : Hive) : HiveM Hive :=
  addFreeBins ((h.storage .stable).length+1) 0 h.clearFreeDisplay

def initDirtyVector (h : Hive) : Hive :=
  let bitmapSize := roundUp (h.storage .stable).length 32/8
  { h with dirtyVector :=
      rtlClearAllBits (rtlInitializeBitMap (fun _ => 0) (BitVec.ofNat 32 (bitmapSize*8))) }

end Hive

/-- The length that the header of the chunk claims is replaced before the header is verified. -/
def hvpInitializeMemoryHive (c : Chunk) (alloc : Nat → Bool) : HiveM (Status × Hive) := do
  let chunkSize ← c.load (4*Field.length.index)
  let c := c.setLength 4096
  if chunkSize.toNat<4096 then return (.registryCorrupt, clearedHive)
  else do
    let valid ← c.hvpVerifyHiveHeader
    if ¬valid then return (.registryCorrupt, clearedHive)
    else if ¬alloc 0 then return (.noMemory, clearedHive)
    else if c.size<4096 then .error .bounds
    else
      let h := clearedHive.setBaseBlock (slice c.bytes 0 4096)
      let h := h.setStorage .stable
        { h.storage .stable with length := chunkSize.toNat/4096-1 }
      if ¬alloc 1 then return (.noMemory, h)
      else do
        let (status, h) ← Hive.loadBins c alloc ((h.storage .stable).length+1) 0 h
        if status ≠ .success then return (status, h)
        else do
          let h ← h.hvpCreateHiveFreeCellList
          if ¬alloc (2+h.nextBuffer) then return (.noMemory, h)
          else return (.success, h.initDirtyVector)

end Odyssey.Cm
