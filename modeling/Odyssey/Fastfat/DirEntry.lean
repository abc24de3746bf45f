import Odyssey.Fastfat.FileData
import Odyssey.Lib.CheckedBuffer

/-! Reading the next entry of a FAT directory (drivers/filesystems/fastfat/direntry.c and
`vfat8Dot3ToString` of create.c). The directory is the contents of its file as the cache manager
maps it, page by page; the accesses to the name buffers of the caller are checked. -/
namespace Odyssey.Fastfat

open ByteMem CheckedBuffer

abbrev DirEntry := Nat → BitVec 8

namespace DirEntry

def isDeleted (e : DirEntry) : Bool := e 0 == 0xe5#8

def isEnd (e : DirEntry) : Bool := e 0 == 0#8

def isLong (e : DirEntry) : Bool := (e 11 &&& 0x3f#8) == 0x0f#8

def isVolume (e : DirEntry) : Bool := (e 11 &&& 0x1f#8) == 0x08#8

def lCase (e : DirEntry) : BitVec 8 := e 12

def id (e : DirEntry) : BitVec 8 := e 0

def aliasChecksum (e : DirEntry) : BitVec 8 := e 13

def chars (e : DirEntry) (offset count : Nat) : List (BitVec 16) :=
  (List.range count).map fun i => e (offset+2*i+1)++e (offset+2*i)

def name0To4 (e : DirEntry) : List (BitVec 16) := e.chars 1 5

def name5To10 (e : DirEntry) : List (BitVec 16) := e.chars 14 6

def name11To12 (e : DirEntry) : List (BitVec 16) := e.chars 28 2

def shortName (e : DirEntry) : List (BitVec 8) := (List.range 11).map e

def shortCheckSum (e : DirEntry) : BitVec 8 :=
  e.shortName.foldl (fun sum b => (((sum &&& 1#8) <<< 7) ||| ((sum &&& 0xfe#8) >>> 1))+b) 0

end DirEntry

/-- A directory as the cache manager maps it. `fileSize` stands for `FileSize.u.LowPart`; nothing
here asks that it is a `ULONG`. -/
structure Directory where
  content : Mem
  fileSize : Nat

def pageSize : Nat := 4096

def entriesPerPage : Nat := 128

def Directory.entry (dir : Directory) (page dirIndex : Nat) : DirEntry :=
  fun i => dir.content (page+dirIndex%entriesPerPage*32+i)

structure UnicodeString where
  buffer : List (BitVec 16)
  length : Nat

/-- The tables of the code page. A conversion gives at most one character for each byte. -/
structure Nls where
  unicodeSize : List (BitVec 8) → Nat
  oemToUnicode : List (BitVec 8) → List (BitVec 16)
  downcase : BitVec 16 → BitVec 16
  unicodeSize_le : ∀ s, unicodeSize s≤ s.length

def oemStringToUnicodeString (nls : Nls) (buffer : List (BitVec 16)) (pos maximumLength : Nat)
    (source : List (BitVec 8)) : Except Fault (List (BitVec 16) × Nat) := do
  let length := 2*nls.unicodeSize source
  if maximumLength≤length then
    return (buffer, length)
  else
    let buffer ← store buffer pos ((nls.oemToUnicode source).take (nls.unicodeSize source)++[0])
    return (buffer, length)

def downcaseUnicodeString (nls : Nls) (buffer : List (BitVec 16)) (pos maximumLength length : Nat) :
    Except Fault (List (BitVec 16)) :=
  if maximumLength<length then .ok buffer
  else store buffer pos (((buffer.drop pos).take (length/2)).map nls.downcase)

def untilBlank (s : List (BitVec 8)) : List (BitVec 8) := s.takeWhile (· ≠ 0x20#8)

def appendExtension (nls : Nls) (entry : DirEntry) (ext : List (BitVec 8)) (maximumLength : Nat)
    (buffer : List (BitVec 16)) (length : Nat) : Except Fault (List (BitVec 16) × Nat) := do
  let pos := length/2
  let (buffer, pos, length) ←
    (if entry.isVolume then pure (buffer, pos, length)
    else do
      let buffer ← store buffer pos [0x2e]
      pure (buffer, pos+1, length+2))
  let (buffer, extLength) ← oemStringToUnicodeString nls buffer pos (maximumLength-length) ext
  let buffer ←
    (if entry.lCase &&& 16#8≠0 then
      downcaseUnicodeString nls buffer pos (maximumLength-length) extLength
    else pure buffer)
  return (buffer, extLength+length)

def vfat8Dot3ToString (nls : Nls) (entry : DirEntry) (name : UnicodeString) :
    Except Fault UnicodeString := do
  let maximumLength := 2*name.buffer.length
  let first := if entry 0=0x05#8 then 0xe5#8 else entry 0
  let cString := first::entry.shortName.tail
  let (buffer, length) ←
    oemStringToUnicodeString nls name.buffer 0 maximumLength (untilBlank (cString.take 8))
  let buffer ←
    (if entry.lCase &&& 8#8≠0 then downcaseUnicodeString nls buffer 0 maximumLength length
    else pure buffer)
  let (buffer, length) ←
    (if entry 8≠0x20#8 then
      appendExtension nls entry (untilBlank (cString.drop 8)) maximumLength buffer length
    else pure (buffer, length))
  let buffer ← store buffer (length/2) [0]
  return ⟨buffer,length⟩

def copyUnicodeString (destination source : UnicodeString) : Except Fault UnicodeString := do
  let length := min (2*destination.buffer.length) source.length
  let buffer ← store destination.buffer 0 (source.buffer.take (length/2))
  let buffer ←
    (if length<2*destination.buffer.length then store buffer (length/2) [0] else pure buffer)
  return ⟨buffer,length⟩

structure DirContext where
  startIndex : Nat
  dirIndex : Nat
  longName : UnicodeString
  shortName : UnicodeString
  dirEntry : DirEntry

structure Cursor where
  dirIndex : Nat
  fileOffset : Nat
  page : Nat
deriving DecidableEq

namespace Directory

def entryAt (dir : Directory) (c : Cursor) : DirEntry := dir.entry c.page c.dirIndex

def mapPage (dir : Directory) (dirIndex fileOffset : Nat) : Option Cursor :=
  if dir.fileSize≤fileOffset then none else some ⟨dirIndex,fileOffset,fileOffset⟩

def advance (dir : Directory) (c : Cursor) : Option Cursor :=
  let dirIndex := (c.dirIndex+1)%2^32
  if dirIndex%entriesPerPage=0 then dir.mapPage dirIndex ((c.fileOffset+pageSize)%2^32)
  else some { c with dirIndex := dirIndex }

def goesBack (e : DirEntry) (back : Bool) : Bool :=
  !e.isEnd && !e.isDeleted && ((!e.isLong && !back) || (e.isLong && (e.id &&& 0x40#8) == 0#8))

def backLoop (dir : Directory) (fileOffset page : Nat) (back : Bool) :
    Nat → Option (Cursor × Bool)
  | 0 => some (⟨0,fileOffset,page⟩, back)
  | dirIndex+1 =>
    if goesBack (dir.entry page (dirIndex+1)) back then
      if dirIndex%entriesPerPage=entriesPerPage-1 then
        let fileOffset := (fileOffset+2^32-pageSize)%2^32
        if dir.fileSize≤fileOffset then none
        else dir.backLoop fileOffset fileOffset true dirIndex
      else dir.backLoop fileOffset page true dirIndex
    else some (⟨dirIndex+1,fileOffset,page⟩, back)

def realStart (dir : Directory) (c : Cursor) : Option Cursor :=
  match dir.backLoop c.fileOffset c.page false c.dirIndex with
  | none => none
  | some (c, back) =>
    let e := dir.entryAt c
    if back && !e.isEnd && (e.isDeleted || !e.isLong) then dir.advance c else some c

structure Scan where
  startIndex : Nat
  dirMap : BitVec 32
  checkSum : BitVec 8
  valid : Bool
  longName : List (BitVec 16)

def copySlot (e : DirEntry) (s : Scan) : Except Fault Scan := do
  let s := if s.dirMap=0 then
      { s with
        longName := List.replicate s.longName.length 0
        checkSum := e.aliasChecksum
        valid := true }
    else s
  let index := (e.id &&& 0x1f#8).setWidth 32-1#32
  let pName := (13#32*index).toNat
  let longName ← store s.longName pName e.name0To4
  let longName ← store longName (pName+5) e.name5To10
  let longName ← store longName (pName+11) e.name11To12
  return { s with
    dirMap := s.dirMap ||| (1#32 <<< (index.toNat%32))
    longName := longName
    valid := s.valid && s.checkSum == e.aliasChecksum }

def dropName (c : Cursor) (s : Scan) : Except Fault Scan := do
  let longName ← store s.longName 0 [0]
  return { s with
    dirMap := 0
    longName := longName
    startIndex := (c.dirIndex+1)%2^32 }

def checkName (e : DirEntry) (s : Scan) : Except Fault (List (BitVec 16)) := do
  let longName ←
    (if e.shortCheckSum≠s.checkSum ∧ s.longName.head?≠some 0 then store s.longName 0 [0]
    else pure s.longName)
  if s.valid then pure longName else store longName 0 [0]

structure Found where
  cursor : Cursor
  startIndex : Nat
  longName : List (BitVec 16)
  dirEntry : DirEntry

inductive Turn where
  | noMore
  | found (result : Found)
  | next (c : Cursor) (s : Scan)

def turn (dir : Directory) (c : Cursor) (s : Scan) : Except Fault Turn := do
  let e := dir.entryAt c
  if e.isEnd then return .noMore
  else if !e.isDeleted && !e.isLong then
    let longName ← checkName e s
    return .found ⟨c,s.startIndex,longName,e⟩
  else
    let s ←
      (if e.isDeleted then dropName c s else copySlot e s)
    match dir.advance c with
    | none => return .noMore
    | some c => return .next c s

/-- The loop over the entries: `none` when it has not ended after `fuel` turns. -/
def scanLoop (dir : Directory) : Nat → Cursor → Scan → Option (Except Fault (Option Found))
  | 0, _, _ => none
  | fuel+1, c, s =>
    match dir.turn c s with
    | .error fault => some (.error fault)
    | .ok .noMore => some (.ok none)
    | .ok (.found result) => some (.ok (some result))
    | .ok (.next c s) => dir.scanLoop fuel c s

def nameFound (nls : Nls) (ctx : DirContext) (r : Found) : Except Fault DirContext := do
  let length ← lengthTo 0 r.longName
  let longName : UnicodeString := ⟨r.longName,2*length⟩
  let shortName ← vfat8Dot3ToString nls r.dirEntry ctx.shortName
  let longName ← (if length=0 then copyUnicodeString longName shortName else pure longName)
  return {
    startIndex := r.startIndex
    dirIndex := r.cursor.dirIndex
    longName := longName
    shortName := shortName
    dirEntry := r.dirEntry }

def startPage (dir : Directory) (context : Option Nat) (dirIndex : Nat) : Option Cursor :=
  let fileOffset := roundDown (dirIndex*32%2^32) pageSize
  match context with
  | none => dir.mapPage dirIndex fileOffset
  | some page =>
    if dirIndex%entriesPerPage=0 then dir.mapPage dirIndex fileOffset
    else some ⟨dirIndex,fileOffset,page⟩

def startCursor (dir : Directory) (context : Option Nat) (dirIndex : Nat) (first : Bool) :
    Option Cursor :=
  match dir.startPage context dirIndex with
  | none => none
  | some c => if first then dir.realStart c else some c

/-- `FATGetNextDirEntry`: `none` when it has not returned after `fuel` turns; otherwise a fault, the
status `STATUS_NO_MORE_ENTRIES`, or the context and the mapped page after a success. -/
def fatGetNextDirEntry (nls : Nls) (dir : Directory) (fuel : Nat) (context : Option Nat)
    (ctx : DirContext) (first : Bool) : Option (Except Fault (Option (DirContext × Nat))) :=
  match store ctx.longName.buffer 0 [0] with
  | .error fault => some (.error fault)
  | .ok longName =>
    match dir.startCursor context ctx.dirIndex first with
    | none => some (.ok none)
    | some c =>
      match dir.scanLoop fuel c ⟨c.dirIndex,0,0,true,longName⟩ with
      | none => none
      | some (.error fault) => some (.error fault)
      | some (.ok none) => some (.ok none)
      | some (.ok (some r)) =>
        some ((nameFound nls ctx r).map fun ctx => some (ctx, r.cursor.page))

end Directory

end Odyssey.Fastfat
