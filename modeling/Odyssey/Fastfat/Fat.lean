import Odyssey.Lib.Bytes
import Odyssey.Lib.ChunkedScan

/-! The file allocation table (drivers/filesystems/fastfat/fat.c): reading, writing and searching
the entries of FAT12, FAT16 and FAT32 tables. The table is the contents of the FAT file as the cache
manager maps it; the calls of the cache manager succeed. The offsets of entries are `ULONG`s. -/
namespace Odyssey.Fastfat

open ByteMem Function ChunkedScan

def roundDown (n align : Nat) : Nat :=
  (BitVec.ofNat 32 n &&& ~~~(BitVec.ofNat 32 align-1#32)).toNat

inductive FatType where
  | fat12
  | fat16
  | fat32
deriving DecidableEq

inductive Status where
  | success
  | diskFull
  | invalidParameter
  | userMappedFile
  | unsuccessful
deriving DecidableEq

def read16 (f : Mem) (o : Nat) : BitVec 16 := f (o+1)++f o

def write16 (f : Mem) (o : Nat) (v : BitVec 16) : Mem :=
  update (update f o (v.extractLsb' 0 8)) (o+1) (v.extractLsb' 8 8)

/-- What the driver takes for the end of a chain, in any table. -/
def endMark : Nat := 0xffffffff

def fat12Entry (f : Mem) (cluster : Nat) : Nat :=
  let word := read16 f (cluster*12/8)
  if cluster%2=0 then (word &&& 0x0fff#16).toNat else (word >>> 4).toNat

def fat12GetNextCluster (f : Mem) (currentCluster : Nat) : Nat :=
  let entry := fat12Entry f currentCluster
  if 0xff8≤entry ∧ entry≤0xfff then endMark else entry

def fat12WriteCluster (f : Mem) (clusterToWrite newValue : Nat) : Mem × Nat :=
  let fatOffset := clusterToWrite*12/8
  let value := BitVec.ofNat 32 newValue
  let low := f fatOffset
  let high := f (fatOffset+1)
  if clusterToWrite%2=0 then
    (update (update f fatOffset (value.setWidth 8)) (fatOffset+1)
        ((high &&& 0xf0#8) ||| ((value &&& 0xf00#32) >>> 8).setWidth 8),
      low.toNat+(high &&& 0x0f#8).toNat <<< 8)
  else
    (update
        (update f fatOffset ((low &&& 0x0f#8) ||| ((value &&& 0xf#32) <<< 4).setWidth 8))
        (fatOffset+1) ((value >>> 4).setWidth 8),
      (low >>> 4).toNat+high.toNat <<< 4)

def fat12Mark (f : Mem) (cluster : Nat) : Mem :=
  let offset := cluster*12/8
  let word := read16 f offset
  if cluster%2=0 then write16 f offset ((word &&& 0xf000#16) ||| 0xfff#16)
  else write16 f offset ((word &&& 0xf#16) ||| 0xfff0#16)

def fat16Word (f : Mem) (offset : Nat) : Nat := (read16 f offset).toNat

def fat16Offset (cluster : Nat) : Nat := cluster*2%2^32

def fat16Entry (f : Mem) (cluster : Nat) : Nat := fat16Word f (fat16Offset cluster)

def fat16GetNextCluster (f : Mem) (currentCluster : Nat) : Nat :=
  let entry := fat16Entry f currentCluster
  if 0xfff8≤entry ∧ entry≤0xffff then endMark else entry

def fat16WriteCluster (f : Mem) (clusterToWrite newValue : Nat) : Mem × Nat :=
  (write16 f (fat16Offset clusterToWrite) (BitVec.ofNat 16 newValue), fat16Entry f clusterToWrite)

def fat16Mark (f : Mem) (cluster : Nat) : Mem := write16 f (fat16Offset cluster) 0xffff#16

/-! FAT32 has a double word for each entry, and keeps its four high bits. -/

def fat32Word (f : Mem) (offset : Nat) : Nat := (read32 f offset &&& 0x0fffffff#32).toNat

def fat32Offset (cluster : Nat) : Nat := cluster*4%2^32

def fat32Entry (f : Mem) (cluster : Nat) : Nat := fat32Word f (fat32Offset cluster)

def fat32GetNextCluster (f : Mem) (currentCluster : Nat) : Nat :=
  let entry := fat32Entry f currentCluster
  if 0xffffff8≤entry ∧ entry≤0xfffffff then endMark else entry

def fat32WriteCluster (f : Mem) (clusterToWrite newValue : Nat) : Mem × Nat :=
  let offset := fat32Offset clusterToWrite
  (write32 f offset ((read32 f offset &&& 0xf0000000#32) |||
      (BitVec.ofNat 32 newValue &&& 0x0fffffff#32)),
    fat32Entry f clusterToWrite)

def fat32Mark (f : Mem) (cluster : Nat) : Mem := write32 f (fat32Offset cluster) 0x0fffffff#32

structure FatInfo where
  fatType : FatType
  bytesPerSector : Nat
  sectorsPerCluster : Nat
  bytesPerCluster : Nat
  numberOfClusters : Nat
  fatStart : Nat
  fatCount : Nat
  rootDirectorySectors : Nat
  rootStart : Nat
  dataStart : Nat

structure DeviceExt where
  fatInfo : FatInfo
  fat : Mem
  lastAvailableCluster : Nat
  availableClusters : BitVec 32
  availableClustersValid : Bool

namespace DeviceExt

def readNext (d : DeviceExt) (currentCluster : Nat) : Nat :=
  match d.fatInfo.fatType with
  | .fat12 => fat12GetNextCluster d.fat currentCluster
  | .fat16 => fat16GetNextCluster d.fat currentCluster
  | .fat32 => fat32GetNextCluster d.fat currentCluster

def entry (d : DeviceExt) (cluster : Nat) : Nat :=
  match d.fatInfo.fatType with
  | .fat12 => fat12Entry d.fat cluster
  | .fat16 => fat16Entry d.fat cluster
  | .fat32 => fat32Entry d.fat cluster

def writeEntry (d : DeviceExt) (clusterToWrite newValue : Nat) : Mem × Nat :=
  match d.fatInfo.fatType with
  | .fat12 => fat12WriteCluster d.fat clusterToWrite newValue
  | .fat16 => fat16WriteCluster d.fat clusterToWrite newValue
  | .fat32 => fat32WriteCluster d.fat clusterToWrite newValue

def mark (d : DeviceExt) (cluster : Nat) : Mem :=
  match d.fatInfo.fatType with
  | .fat12 => fat12Mark d.fat cluster
  | .fat16 => fat16Mark d.fat cluster
  | .fat32 => fat32Mark d.fat cluster

def fatLength (d : DeviceExt) : Nat := d.fatInfo.numberOfClusters+2

/-- `CACHEPAGESIZE`: how much of the table is mapped at a time. -/
def chunkSize (d : DeviceExt) : Nat :=
  if d.fatInfo.bytesPerCluster > 4096 then d.fatInfo.bytesPerCluster else 4096

/-- A loop of the FAT16 and FAT32 routines over the clusters below `limit`. -/
def overChunks {σ ρ : Type} (d : DeviceExt) (offset : Nat → Nat) (width : Nat)
    (visit : Nat → Nat → σ → Except ρ σ) (limit start : Nat) (s : σ) : Except ρ σ :=
  scanChunks visit (roundDown · d.chunkSize) offset width d.chunkSize limit limit start s

/-- A search ends with the cluster whose entry is zero. -/
def findVisit (word : Nat → Nat) (offset i : Nat) (_ : Unit) : Except Nat Unit :=
  if word offset=0 then .error i else .ok ()

def countVisit (word : Nat → Nat) (offset _ : Nat) (count : BitVec 32) :
    Except Empty (BitVec 32) :=
  .ok (if word offset=0 then count+1 else count)

def foundBy : Except Nat Unit → Option Nat
  | .error i => some i
  | .ok _ => none

def countedBy : Except Empty (BitVec 32) → BitVec 32
  | .ok count => count

/-- The loop of `FAT12FindAndMarkAvailableCluster`, which maps the whole table. -/
def findAvailable (d : DeviceExt) : Nat → Nat → Option Nat
  | _, 0 => none
  | i, n+1 => if d.entry i=0 then some i else d.findAvailable (i+1) n

def findBetween (d : DeviceExt) (start limit : Nat) : Option Nat :=
  match d.fatInfo.fatType with
  | .fat12 => d.findAvailable start (limit-start)
  | .fat16 => foundBy (d.overChunks fat16Offset 2 (findVisit (fat16Word d.fat)) limit start ())
  | .fat32 => foundBy (d.overChunks fat32Offset 4 (findVisit (fat32Word d.fat)) limit start ())

/-- The volume after a search that has found a cluster. -/
def taking (d : DeviceExt) (i : Nat) : DeviceExt :=
  { d with
    lastAvailableCluster := i
    fat := d.mark i
    availableClusters :=
      if d.availableClustersValid then d.availableClusters-1 else d.availableClusters }

/-- `FAT12FindAndMarkAvailableCluster`, `FAT16FindAndMarkAvailableCluster` and
`FAT32FindAndMarkAvailableCluster`: a search from the last cluster found to the end of the table,
then from its start. -/
def findAndMarkAvailableCluster (d : DeviceExt) : Status × Nat × DeviceExt :=
  let startCluster := d.lastAvailableCluster
  match (d.findBetween startCluster d.fatLength).or (d.findBetween 2 startCluster) with
  | none => (.diskFull, 0, d)
  | some i => (.success, i, d.taking i)

def countLoop (d : DeviceExt) : Nat → Nat → BitVec 32 → BitVec 32
  | _, 0, count => count
  | i, n+1, count => d.countLoop (i+1) n (if d.entry i=0 then count+1 else count)

def count (d : DeviceExt) : BitVec 32 :=
  match d.fatInfo.fatType with
  | .fat12 => d.countLoop 2 (d.fatLength-2) 0
  | .fat16 => countedBy (d.overChunks fat16Offset 2 (countVisit (fat16Word d.fat)) d.fatLength 2 0)
  | .fat32 => countedBy (d.overChunks fat32Offset 4 (countVisit (fat32Word d.fat)) d.fatLength 2 0)

def countAvailableClusters (d : DeviceExt) : DeviceExt :=
  if d.availableClustersValid then d
  else { d with availableClusters := d.count, availableClustersValid := true }

def writeCluster (d : DeviceExt) (clusterToWrite newValue : Nat) : DeviceExt :=
  let written := d.writeEntry clusterToWrite newValue
  let oldValue := written.2
  let availableClusters :=
    if oldValue≠0 ∧ newValue=0 then d.availableClusters+1
    else if oldValue=0 ∧ newValue≠0 then d.availableClusters-1
    else d.availableClusters
  { d with
    fat := written.1
    availableClusters :=
      if d.availableClustersValid then availableClusters else d.availableClusters }

def getNextCluster (d : DeviceExt) (currentCluster nextCluster : Nat) : Status × Nat :=
  if currentCluster=0 then (.invalidParameter, nextCluster)
  else (.success, d.readNext currentCluster)

/-- `GetNextClusterExtend`, with the value its out-parameter has before the call. -/
def getNextClusterExtend (d : DeviceExt) (currentCluster nextCluster : Nat) :
    Status × Nat × DeviceExt :=
  if currentCluster=0 then
    match d.findAndMarkAvailableCluster with
    | (.success, newCluster, d) => (.success, newCluster, d)
    | (status, _, d) => (status, nextCluster, d)
  else
    let next := d.readNext currentCluster
    if next=endMark then
      match d.findAndMarkAvailableCluster with
      | (.success, newCluster, d) =>
        (.success, newCluster, d.writeCluster currentCluster newCluster)
      | (status, _, d) => (status, next, d)
    else (.success, next, d)

def clusterToSector (d : DeviceExt) (cluster : Nat) : Nat :=
  d.fatInfo.dataStart+(cluster+2^32-2)%2^32*d.fatInfo.sectorsPerCluster

end DeviceExt

end Odyssey.Fastfat
