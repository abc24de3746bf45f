import Odyssey.Lib.Bytes

/-! Reassembly of IPv4 datagrams (`lib/drivers/ip/network/receive.c`). -/
namespace Odyssey.Ip
open ByteMem

abbrev Packet := Mem

def ipv4FragOfsMask : Nat := 0x1FFF

def ipv4MfMask : Nat := 0x2000

def ipv4MaxHeaderSize : Nat := 60

/-- `sizeof(IP_HEADER)`, the union of an IPv4 and an IPv6 header. -/
def ipHeaderSize : Nat := 40

def infinity : Nat := 65536

def uint (n : Nat) : Nat := n%4294967296

def poolSize : Nat := 2147483648

section Header
variable (p : Packet)

def networkShort (o : Nat) : Nat := (p o).toNat*256+(p (o+1)).toNat

def verIhl : Nat := (p 0).toNat

def headerSize : Nat := (verIhl p &&& 0x0F) <<< 2

def totalLength : Nat := networkShort p 2

def packetId : Nat := networkShort p 4

def flagsFragOfs : Nat := networkShort p 6

def protocol : BitVec 8 := p 9

def srcAddr : BitVec 32 := read32 p 12

def dstAddr : BitVec 32 := read32 p 16

def fragFirst : Nat := (flagsFragOfs p &&& ipv4FragOfsMask) <<< 3%65536

def fragLast : Nat := (fragFirst p+totalLength p)%65536

def moreFragments : Bool := flagsFragOfs p &&& ipv4MfMask > 0

def fragmentSize : Nat := uint (totalLength p+4294967296-headerSize p)

end Header

structure Fragment where
  data : Mem
  offset : Nat
  size : Nat

/-- `IPDATAGRAM_HOLE`; both ends belong to the hole. -/
structure Hole where
  first : Nat
  last : Nat
deriving DecidableEq

structure Ipdr where
  dataSize : Nat
  srcAddr : BitVec 32
  dstAddr : BitVec 32
  protocol : BitVec 8
  id : Nat
  header : Mem
  headerSize : Nat
  fragments : List Fragment
  holes : List Hole
  timeoutCount : Nat

/-- What the allocations of one call give: the memory of a new `IPDR` with what is in it, the holes,
the fragment with its data, and the buffer of the datagram with what is in it. -/
structure Resources where
  ipdr : Option Ipdr
  firstHole : Bool
  leftHole : Bool
  rightHole : Bool
  fragment : Bool
  data : Bool
  buffer : Option Mem

/-- A datagram for `IPDispatchProtocol`, with the copies that have filled its buffer: where each
starts and its size. -/
structure Datagram where
  totalSize : Nat
  headerSize : Nat
  copies : List (Nat × Nat)
  bytes : Mem

/-- What a call does besides changing the list: the size of the copy to the saved header, and the
datagram. -/
structure Trace where
  headerCopy : Option Nat
  datagram : Option Datagram

def Trace.empty : Trace := ⟨none,none⟩

def Ipdr.matches (ipdr : Ipdr) (p : Packet) : Bool :=
  Ip.srcAddr p=ipdr.srcAddr ∧ packetId p=ipdr.id ∧ Ip.protocol p=ipdr.protocol ∧
    Ip.dstAddr p=ipdr.dstAddr

def getReassemblyInfo (list : List Ipdr) (p : Packet) : Option Ipdr := list.find? (·.matches p)

def newIpdr (stale : Ipdr) (p : Packet) : Ipdr :=
  { stale with
    srcAddr := srcAddr p, dstAddr := dstAddr p, id := packetId p, protocol := protocol p
    timeoutCount := 0, fragments := [], holes := [⟨0,infinity⟩] }

def Hole.overlaps (p : Packet) (hole : Hole) : Bool :=
  ¬(fragFirst p > hole.last ∨ fragLast p<hole.first)

def Hole.leftOver (p : Packet) (hole : Hole) : List Hole :=
  (if fragFirst p > hole.first then [⟨hole.first,fragFirst p-1⟩] else []) ++
    if fragLast p<hole.last ∧ moreFragments p then [⟨fragLast p+1,hole.last⟩] else []

def Ipdr.saveHeader (ipdr : Ipdr) (p : Packet) : Ipdr :=
  if fragFirst p=0 then
    { ipdr with header := slice p 0 (Ip.headerSize p), headerSize := Ip.headerSize p }
  else ipdr

def Ipdr.addFragment (ipdr : Ipdr) (p : Packet) : Ipdr :=
  { ipdr with
    fragments := ipdr.fragments++[⟨slice p (Ip.headerSize p) (fragmentSize p),fragFirst p,
      fragmentSize p⟩]
    dataSize := if moreFragments p then ipdr.dataSize else uint (fragFirst p+fragmentSize p) }

/-- The loop over the holes and what follows it in the loop: the first hole that the fragment
overlaps is replaced. `none` if the structure is freed because an allocation fails. -/
def fillHole (res : Resources) (ipdr : Ipdr) (p : Packet) : Option Ipdr × Option Nat :=
  match ipdr.holes.find? (Hole.overlaps p) with
  | none => (some ipdr, none)
  | some hole =>
    if fragFirst p > hole.first ∧ ¬res.leftHole then (none, none)
    else if (fragLast p<hole.last ∧ moreFragments p) ∧ ¬res.rightHole then (none, none)
    else
      let holes := ipdr.holes.eraseP (Hole.overlaps p)++hole.leftOver p
      let copied := if fragFirst p=0 then some (headerSize p) else none
      if ¬res.fragment then (none, copied)
      else if ¬(res.data ∧ fragmentSize p<poolSize) then (none, copied)
      else (some { (ipdr.saveHeader p).addFragment p with holes }, copied)

def Ipdr.assemble (ipdr : Ipdr) (buffer : Mem) : Mem :=
  ipdr.fragments.foldl (fun m f => copy m (ipdr.headerSize+f.offset) f.data 0 f.size)
    (copy buffer 0 ipdr.header 0 ipdr.headerSize)

def reassembleDatagram (ipdr : Ipdr) (buffer : Mem) : Datagram where
  totalSize := uint (ipdr.headerSize+ipdr.dataSize)
  headerSize := ipdr.headerSize
  copies := (0, ipdr.headerSize) ::
    ipdr.fragments.map fun f => (ipdr.headerSize+f.offset, f.size)
  bytes := ipdr.assemble buffer

def putIpdr (p : Packet) (ipdr : Ipdr) : List Ipdr → List Ipdr
  | [] => [ipdr]
  | x::list => if x.matches p then ipdr::list else x::putIpdr p ipdr list

def removeIpdr (p : Packet) (list : List Ipdr) : List Ipdr := list.eraseP (·.matches p)

def continueAssembly (res : Resources) (list : List Ipdr) (ipdr : Ipdr) (p : Packet) :
    List Ipdr × Trace :=
  match fillHole res ipdr p with
  | (none, copied) => (removeIpdr p list, ⟨copied,none⟩)
  | (some ipdr, copied) =>
    if ipdr.holes.isEmpty then
      (removeIpdr p list, ⟨copied,res.buffer.map (reassembleDatagram ipdr)⟩)
    else (putIpdr p ipdr list, ⟨copied,none⟩)

def processFragment (res : Resources) (list : List Ipdr) (p : Packet) : List Ipdr × Trace :=
  match getReassemblyInfo list p with
  | some ipdr => continueAssembly res list { ipdr with timeoutCount := 0 } p
  | none =>
    match res.ipdr with
    | none => (list, .empty)
    | some stale =>
      if res.firstHole then continueAssembly res list (newIpdr stale p) p else (list, .empty)

/-- `IPv4Receive`, with the test of the header checksum. -/
def ipv4Receive (correctChecksum : Packet → Nat → Bool) (res : Resources) (list : List Ipdr)
    (p : Packet) : List Ipdr × Trace :=
  if headerSize p > ipv4MaxHeaderSize then (list, .empty)
  else if ¬correctChecksum p (headerSize p) then (list, .empty)
  else processFragment res list p

def receiveAll (correctChecksum : Packet → Nat → Bool) :
    List Ipdr → List (Resources × Packet) → List Ipdr × List Trace
  | list, [] => (list, [])
  | list, (res, p)::packets =>
    let (list, trace) := ipv4Receive correctChecksum res list p
    let (list, traces) := receiveAll correctChecksum list packets
    (list, trace::traces)

end Odyssey.Ip
