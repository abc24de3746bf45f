import Odyssey.Fastfat.FatTable
import Odyssey.Lib.Chain

/-! Reading and writing the data of a file (drivers/filesystems/fastfat/rw.c). The routines turn a
range of the file into transfers between the buffer of the request and the disk; the transfers
succeed. -/
namespace Odyssey.Fastfat

structure Fcb where
  isFat : Bool
  isVolume : Bool
  firstCluster : BitVec 16
  firstClusterHigh : BitVec 16
  fileSize : Nat
  allocationSize : Nat
  lastCluster : Nat
  lastOffset : Nat

structure Transfer where
  diskOffset : Nat
  length : Nat
  bufferOffset : Nat
deriving DecidableEq

def lowPart (q : Nat) : Nat := q%2^32

def setLowPart (q low : Nat) : Nat := q/2^32*2^32+low%2^32

namespace DeviceExt

def vfatDirEntryGetFirstCluster (d : DeviceExt) (fcb : Fcb) : Nat :=
  match d.fatInfo.fatType with
  | .fat32 => (fcb.firstClusterHigh++fcb.firstCluster).toNat
  | _ => fcb.firstCluster.toNat

def nextCluster (d : DeviceExt) (firstCluster currentCluster : Nat) (extend : Bool) :
    Status × Nat × DeviceExt :=
  if firstCluster=1 then (.success, currentCluster+d.fatInfo.sectorsPerCluster, d)
  else if extend then d.getNextClusterExtend currentCluster currentCluster
  else
    let next := d.getNextCluster currentCluster currentCluster
    (next.1, next.2, d)

def followChain (d : DeviceExt) (extend : Bool) (currentCluster : Nat) :
    Nat → Status × Nat × DeviceExt
  | 0 => (.success, currentCluster, d)
  | n+1 =>
    let next :=
      if extend then d.getNextClusterExtend currentCluster currentCluster
      else
        let next := d.getNextCluster currentCluster currentCluster
        (next.1, next.2, d)
    if next.1 = .success then next.2.2.followChain extend next.2.1 n else next

def offsetToCluster (d : DeviceExt) (firstCluster fileOffset : Nat) (extend : Bool) :
    Status × Nat × DeviceExt :=
  if firstCluster=1 then
    (.success, d.fatInfo.rootStart +
      fileOffset/d.fatInfo.bytesPerCluster*d.fatInfo.sectorsPerCluster, d)
  else d.followChain extend firstCluster (fileOffset/d.fatInfo.bytesPerCluster)

structure ClusterRun where
  clusterCount : Nat
  bytesDone : Nat
  startOffset : Nat
  currentCluster : Nat

def mergeOnce (d : DeviceExt) (firstCluster length offset : Nat) (first : Bool) (r : ClusterRun) :
    ClusterRun :=
  let bytesPerCluster := d.fatInfo.bytesPerCluster
  { clusterCount := r.clusterCount+1
    bytesDone :=
      if first then min length (bytesPerCluster-offset%bytesPerCluster)
      else if bytesPerCluster<length-r.bytesDone then r.bytesDone+bytesPerCluster
      else length
    startOffset := if first then r.startOffset+offset%bytesPerCluster else r.startOffset
    currentCluster := (d.nextCluster firstCluster r.currentCluster false).2.1 }

def mergeLoop (d : DeviceExt) (firstCluster startCluster length offset : Nat) :
    Nat → Bool → ClusterRun → ClusterRun
  | 0, _, r => r
  | fuel+1, first, r =>
    let status := (d.nextCluster firstCluster r.currentCluster false).1
    let r' := d.mergeOnce firstCluster length offset first r
    if startCluster+r'.clusterCount=r'.currentCluster ∧ status = .success ∧
        r'.bytesDone<length then
      d.mergeLoop firstCluster startCluster length offset fuel false r'
    else r'

structure FileIo where
  first : Bool
  length : Nat
  offset : Nat
  bufferOffset : Nat
  currentCluster : Nat
  fcb : Fcb
  transfers : List Transfer

def transferRun (d : DeviceExt) (firstCluster : Nat) (s : FileIo) : FileIo :=
  let startCluster := s.currentCluster
  let r := d.mergeLoop firstCluster startCluster s.length s.offset s.length s.first
    { clusterCount := 0
      bytesDone := 0
      startOffset := d.clusterToSector startCluster*d.fatInfo.bytesPerSector
      currentCluster := startCluster }
  { first := false
    length := s.length-r.bytesDone
    offset := (s.offset+r.bytesDone)%2^32
    bufferOffset := s.bufferOffset+r.bytesDone
    currentCluster := r.currentCluster
    fcb :=
      { s.fcb with
        lastCluster := startCluster+(r.clusterCount-1)
        lastOffset := roundDown s.offset d.fatInfo.bytesPerCluster +
          (r.clusterCount-1)*d.fatInfo.bytesPerCluster }
    transfers := s.transfers++[⟨r.startOffset,r.bytesDone,s.bufferOffset⟩] }

def transferLoop (d : DeviceExt) (firstCluster : Nat) : Nat → FileIo → FileIo
  | 0, s => s
  | fuel+1, s =>
    if 0<s.length ∧ s.currentCluster≠endMark then
      d.transferLoop firstCluster fuel (d.transferRun firstCluster s)
    else s

structure FileIoResult where
  status : Status
  lengthDone : Nat
  fcb : Fcb
  transfers : List Transfer

def findCluster (d : DeviceExt) (fcb : Fcb) (firstCluster offset : Nat) :
    Status × Nat × DeviceExt :=
  let bytesPerCluster := d.fatInfo.bytesPerCluster
  if 0<fcb.lastCluster ∧ fcb.lastOffset≤offset then
    d.offsetToCluster fcb.lastCluster (roundDown offset bytesPerCluster-fcb.lastOffset) false
  else d.offsetToCluster firstCluster (roundDown offset bytesPerCluster) false

def transferClusters (d : DeviceExt) (fcb : Fcb) (firstCluster length offset : Nat) :
    FileIoResult :=
  let found := d.findCluster fcb firstCluster offset
  if found.1 = .success then
    let s := d.transferLoop firstCluster length
      { first := true
        length := length
        offset := offset
        bufferOffset := 0
        currentCluster := found.2.1
        fcb :=
          { fcb with
            lastCluster := found.2.1
            lastOffset := roundDown offset d.fatInfo.bytesPerCluster }
        transfers := [] }
    { status := if 0<s.length then .unsuccessful else .success
      lengthDone := s.bufferOffset
      fcb := s.fcb
      transfers := s.transfers }
  else { status := found.1, lengthDone := 0, fcb := fcb, transfers := [] }

def vfatReadFileData (d : DeviceExt) (fcb : Fcb) (length readOffset : Nat) : FileIoResult :=
  let bytesPerSector := d.fatInfo.bytesPerSector
  if fcb.isFat then
    ⟨.success,length,fcb,[⟨readOffset+d.fatInfo.fatStart*bytesPerSector,length,0⟩]⟩
  else if fcb.isVolume then ⟨.success,length,fcb,[⟨readOffset,length,0⟩]⟩
  else
    let firstCluster := d.vfatDirEntryGetFirstCluster fcb
    if firstCluster=1 then
      let rootLength := d.fatInfo.rootDirectorySectors*bytesPerSector
      let length :=
        if rootLength<lowPart (lowPart readOffset+length) then
          lowPart (rootLength+2^32-lowPart readOffset)
        else length
      let diskOffset :=
        setLowPart readOffset (lowPart readOffset+d.fatInfo.rootStart*bytesPerSector)
      ⟨.success,length,fcb,[⟨diskOffset,length,0⟩]⟩
    else d.transferClusters fcb firstCluster length (lowPart readOffset)

def writeFatLoop (fcb : Fcb) (length : Nat) : Nat → Nat → List Transfer
  | 0, _ => []
  | n+1, writeOffset =>
    ⟨writeOffset,length,0⟩ ::
      writeFatLoop fcb length n
        (setLowPart writeOffset (lowPart writeOffset+lowPart fcb.fileSize))

def vfatWriteFileData (d : DeviceExt) (fcb : Fcb) (length writeOffset : Nat) : FileIoResult :=
  let bytesPerSector := d.fatInfo.bytesPerSector
  if fcb.isVolume then ⟨.success,length,fcb,[⟨writeOffset,length,0⟩]⟩
  else if fcb.isFat then
    let fatOffset := setLowPart writeOffset (lowPart writeOffset+d.fatInfo.fatStart*bytesPerSector)
    ⟨.success,length,fcb,writeFatLoop fcb length d.fatInfo.fatCount fatOffset⟩
  else
    let firstCluster := d.vfatDirEntryGetFirstCluster fcb
    if firstCluster=1 then
      let diskOffset :=
        setLowPart writeOffset (lowPart writeOffset+d.fatInfo.rootStart*bytesPerSector)
      ⟨.success,length,fcb,[⟨diskOffset,length,0⟩]⟩
    else d.transferClusters fcb firstCluster length (lowPart writeOffset)

end DeviceExt

end Odyssey.Fastfat
