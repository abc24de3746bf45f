import Odyssey.Ip.Reassembly

/-! The copies of the reassembly stay in their buffers as long as no fragment reaches behind the end
of its datagram. -/
namespace Odyssey.Ip
open ByteMem List

theorem find?_eraseP {α : Type*} {l : List α} {q : α → Bool} {a : α} (h : l.find? q=some a) :
    ∃ l₁ l₂, l=l₁++a::l₂ ∧ l.eraseP q=l₁++l₂ ∧ (∀ b∈l₁, q b=false) ∧ q a := by
  obtain ⟨ha,l₁,l₂,rfl,hl₁⟩ := find?_eq_some_iff_append.mp h
  refine ⟨l₁,l₂,rfl,?_,by simpa using hl₁,ha⟩
  rw [eraseP_append_right,eraseP_cons_of_pos ha]
  simpa using hl₁

/-- The copies of one call stay in the saved header and in the buffer of the datagram. -/
def Trace.Safe (t : Trace) : Prop :=
  (∀ n, t.headerCopy=some n → n ≤ ipHeaderSize) ∧
    ∀ d, t.datagram=some d → ∀ c∈d.copies, c.1+c.2≤d.totalSize

def Ipdr.ended (x : Ipdr) : Prop := ∀ h∈x.holes, h.last≠infinity

/-- The packet does not reach behind the end of its datagram, and no fragment reaches behind the end
that the packet gives. -/
def Ipdr.Fits (x : Ipdr) (p : Packet) : Prop :=
  (moreFragments p → x.ended → fragFirst p+fragmentSize p≤x.dataSize) ∧
    (moreFragments p=false →
      ∀ f∈x.fragments, f.offset+f.size≤fragFirst p+fragmentSize p)

/-- The header of a first fragment is not above the size of the saved one, and the packet fits. -/
def Fits (list : List Ipdr) (p : Packet) : Prop :=
  (fragFirst p=0 → headerSize p ≤ ipHeaderSize) ∧
    ∀ x, getReassemblyInfo list p=some x → x.Fits p

/-- Every packet that is accepted fits when it comes. -/
def FitsAll (correctChecksum : Packet → Nat → Bool) : List Ipdr → List (Resources × Packet) → Prop
  | _, [] => True
  | list, (res, p)::packets =>
    (correctChecksum p (headerSize p) → Fits list p) ∧
      FitsAll correctChecksum (ipv4Receive correctChecksum res list p).1 packets

structure Ipdr.Ok (x : Ipdr) : Prop where
  header : (∃ h∈x.holes, h.first=0) ∨ x.headerSize ≤ ipHeaderSize
  bound : x.ended → x.dataSize<poolSize+infinity
  final : x.ended → ∀ f∈x.fragments, f.offset+f.size≤x.dataSize

section Fill
variable {x : Ipdr} {p : Packet} {res : Resources} {hole : Hole}

theorem fragFirst_lt (p : Packet) : fragFirst p < infinity := Nat.mod_lt _ (by decide)

theorem fragLast_lt (p : Packet) : fragLast p < infinity := Nat.mod_lt _ (by decide)

def Ipdr.store (x : Ipdr) (p : Packet) (hole : Hole) : Ipdr :=
  { (x.saveHeader p).addFragment p with
    holes := x.holes.eraseP (Hole.overlaps p)++hole.leftOver p }

theorem saveHeader_fragments (x : Ipdr) (p : Packet) : (x.saveHeader p).fragments=x.fragments := by
  rw [Ipdr.saveHeader]
  split
  · rfl
  · rfl

theorem saveHeader_dataSize (x : Ipdr) (p : Packet) : (x.saveHeader p).dataSize=x.dataSize := by
  rw [Ipdr.saveHeader]
  split
  · rfl
  · rfl

/-- What the loop over the holes does. -/
theorem fillHole_cases (res : Resources) (x : Ipdr) (p : Packet) :
    (x.holes.find? (Hole.overlaps p)=none ∧ fillHole res x p=(some x, none)) ∨
      (∃ hole, x.holes.find? (Hole.overlaps p)=some hole ∧ fragmentSize p<poolSize ∧
        fillHole res x p =
          (some (x.store p hole), if fragFirst p=0 then some (headerSize p) else none)) ∨
      ∃ copied, fillHole res x p=(none, copied) ∧
        ∀ n, copied=some n → fragFirst p=0 ∧ n=headerSize p := by
  have hcopied : ∀ n, (if fragFirst p=0 then some (headerSize p) else none)=some n →
      fragFirst p=0 ∧ n=headerSize p := by
    intro n hn
    split at hn
    · next h0 => exact ⟨h0,(Option.some.inj hn).symm⟩
    · exact absurd hn (by simp)
  rw [fillHole]
  cases hfind : x.holes.find? (Hole.overlaps p) with
  | none => exact .inl ⟨rfl,rfl⟩
  | some hole =>
    dsimp only
    split
    · exact .inr (.inr ⟨none,rfl,by simp⟩)
    · split
      · exact .inr (.inr ⟨none,rfl,by simp⟩)
      · split
        · exact .inr (.inr ⟨_,rfl,hcopied⟩)
        · split
          · exact .inr (.inr ⟨_,rfl,hcopied⟩)
          · next hdata =>
            have hsize : fragmentSize p<poolSize := (not_not.mp hdata).2
            exact .inr (.inl ⟨hole,rfl,hsize,rfl⟩)

theorem Ipdr.Ok.store (hx : x.Ok) (hfits : x.Fits p)
    (hheader : fragFirst p=0 → Ip.headerSize p ≤ ipHeaderSize)
    (hfind : x.holes.find? (Hole.overlaps p)=some hole) (hsize : fragmentSize p<poolSize) :
    (x.store p hole).Ok := by
  have hfirst := fragFirst_lt p
  have hlast := fragLast_lt p
  obtain ⟨l₁,l₂,hl,herase,-,-⟩ := find?_eraseP hfind
  have hholes : (x.store p hole).holes=l₁++l₂++hole.leftOver p := by
    rw [Ipdr.store,herase]
  -- a hole is the one that is filled, or it stays
  have hstays : ∀ h∈x.holes, h=hole ∨ h∈(x.store p hole).holes := by
    intro h hh
    rw [hl] at hh
    rw [hholes]
    simp only [mem_append,mem_cons] at hh ⊢
    tauto
  have hdata : (x.store p hole).dataSize =
      if moreFragments p then x.dataSize else fragFirst p+fragmentSize p := by
    have huint : uint (fragFirst p+fragmentSize p)=fragFirst p+fragmentSize p := by
      rw [infinity] at hfirst
      rw [poolSize] at hsize
      exact Nat.mod_eq_of_lt (by omega)
    change (if moreFragments p then (x.saveHeader p).dataSize else
      uint (fragFirst p+fragmentSize p))=_
    rw [saveHeader_dataSize,huint]
  have hfrags : (x.store p hole).fragments=x.fragments ++
      [⟨slice p (Ip.headerSize p) (fragmentSize p),fragFirst p,fragmentSize p⟩] := by
    change (x.saveHeader p).fragments++_=_
    rw [saveHeader_fragments]
  -- a fragment with more to come leaves the hole without an end
  have hended : (x.store p hole).ended → moreFragments p → x.ended := by
    intro hend hmore h hh hinf
    obtain rfl | hin := hstays h hh
    · refine hend ⟨fragLast p+1,h.last⟩ ?_ hinf
      rw [hholes]
      have hlt : fragLast p<h.last := by rw [hinf]; exact hlast
      simp [Hole.leftOver,hlt,hmore]
    · exact hend h hin hinf
  refine ⟨?_,fun hend => ?_,fun hend f hf => ?_⟩
  · by_cases h0 : fragFirst p=0
    · refine .inr ?_
      change (x.saveHeader p).headerSize≤_
      rw [Ipdr.saveHeader,if_pos h0]
      exact hheader h0
    · obtain ⟨h,hh,hh0⟩ | hsaved := hx.header
      · refine .inl ?_
        obtain rfl | hin := hstays h hh
        · refine ⟨⟨h.first,fragFirst p-1⟩,?_,hh0⟩
          rw [hholes]
          have hlt : fragFirst p > h.first := by omega
          simp [Hole.leftOver,hlt]
        · exact ⟨h,hin,hh0⟩
      · refine .inr ?_
        change (x.saveHeader p).headerSize≤_
        rw [Ipdr.saveHeader,if_neg h0]
        exact hsaved
  · rw [hdata]
    split
    · next hmore => exact hx.bound (hended hend hmore)
    · omega
  · rw [hfrags] at hf
    rw [hdata]
    by_cases hmore : moreFragments p
    · rw [if_pos hmore]
      have hxend := hended hend hmore
      obtain hf | hf := mem_append.mp hf
      · exact hx.final hxend f hf
      · rw [mem_singleton.mp hf]
        exact hfits.1 hmore hxend
    · rw [if_neg hmore]
      obtain hf | hf := mem_append.mp hf
      · exact hfits.2 (by simpa using hmore) f hf
      · rw [mem_singleton.mp hf]

/-- A structure without holes is copied to a buffer that is large enough. -/
theorem Ipdr.Ok.reassemble (hx : x.Ok) (hempty : x.holes=[]) (buffer : Mem) :
    ∀ c∈(reassembleDatagram x buffer).copies, c.1+c.2≤(reassembleDatagram x buffer).totalSize := by
  have hend : x.ended := by simp [Ipdr.ended,hempty]
  have hbound := hx.bound hend
  have hheader : x.headerSize ≤ ipHeaderSize := by
    refine hx.header.resolve_left ?_
    simp [hempty]
  have htotal : (reassembleDatagram x buffer).totalSize=x.headerSize+x.dataSize := by
    rw [poolSize,infinity] at hbound
    rw [ipHeaderSize] at hheader
    exact Nat.mod_eq_of_lt (by omega)
  rw [htotal]
  intro c hc
  obtain rfl | hc := mem_cons.mp hc
  · simp
  · obtain ⟨f,hf,rfl⟩ := mem_map.mp hc
    have := hx.final hend f hf
    omega

end Fill

section Run
variable {list : List Ipdr} {x : Ipdr} {p : Packet}

theorem getReassemblyInfo_mem (h : getReassemblyInfo list p=some x) : x∈list :=
  mem_of_find?_eq_some h

theorem mem_putIpdr {y : Ipdr} (h : y∈putIpdr p x list) : y=x ∨ y∈list := by
  induction list with
  | nil => exact .inl (mem_singleton.mp h)
  | cons z list ih =>
    rw [putIpdr] at h
    split at h
    · obtain hy | hy := mem_cons.mp h
      · exact .inl hy
      · exact .inr (mem_cons_of_mem z hy)
    · obtain hy | hy := mem_cons.mp h
      · exact .inr (hy ▸ mem_cons_self)
      · exact (ih hy).imp_right (mem_cons_of_mem z)

theorem continueAssembly_safe (res : Resources) (hlist : ∀ y∈list, y.Ok) (hx : x.Ok)
    (hfits : x.Fits p) (hheader : fragFirst p=0 → headerSize p ≤ ipHeaderSize) :
    (∀ y∈(continueAssembly res list x p).1, y.Ok) ∧ (continueAssembly res list x p).2.Safe := by
  have hremove : ∀ y∈removeIpdr p list, y.Ok := fun y hy => hlist y (mem_of_mem_eraseP hy)
  have hcopied : ∀ copied : Option Nat, (∀ n, copied=some n → fragFirst p=0 ∧ n=headerSize p) →
      ∀ n, copied=some n → n ≤ ipHeaderSize := by
    intro copied hcopied n hn
    obtain ⟨h0,hn'⟩ := hcopied n hn
    rw [hn']
    exact hheader h0
  -- the structure after the loop is whole again
  have hdone : ∀ y copied, fillHole res x p=(some y, copied) → y.Ok →
      (∀ n, copied=some n → n ≤ ipHeaderSize) →
      (∀ z∈(continueAssembly res list x p).1, z.Ok) ∧
        (continueAssembly res list x p).2.Safe := by
    intro y copied hfill hy hsafe
    rw [continueAssembly,hfill]
    dsimp only
    split
    · next hempty =>
      refine ⟨hremove,hsafe,fun d hd => ?_⟩
      obtain ⟨buffer,-,rfl⟩ := Option.map_eq_some_iff.mp hd
      exact hy.reassemble (isEmpty_iff.mp hempty) buffer
    · refine ⟨fun z hz => ?_,hsafe,by simp⟩
      obtain rfl | hz := mem_putIpdr hz
      · exact hy
      · exact hlist z hz
  obtain ⟨-,hfill⟩ | ⟨hole,hfind,hsize,hfill⟩ | ⟨copied,hfill,hc⟩ := fillHole_cases res x p
  · exact hdone x none hfill hx (by simp)
  · refine hdone _ _ hfill (hx.store hfits hheader hfind hsize) (hcopied _ fun n hn => ?_)
    split at hn
    · next h0 => exact ⟨h0,(Option.some.inj hn).symm⟩
    · exact absurd hn (by simp)
  · rw [continueAssembly,hfill]
    exact ⟨hremove,hcopied copied hc,by simp⟩

theorem newIpdr_ok (stale : Ipdr) (p : Packet) : (newIpdr stale p).Ok where
  header := .inl ⟨⟨0,infinity⟩,by simp [newIpdr],rfl⟩
  bound hend := absurd rfl (hend ⟨0,infinity⟩ (by simp [newIpdr]))
  final hend := absurd rfl (hend ⟨0,infinity⟩ (by simp [newIpdr]))

theorem newIpdr_fits (stale : Ipdr) (p : Packet) : (newIpdr stale p).Fits p :=
  ⟨fun _ hend => absurd rfl (hend ⟨0,infinity⟩ (by simp [newIpdr])),by simp [newIpdr]⟩

theorem trace_empty_safe : Trace.empty.Safe := ⟨by simp [Trace.empty],by simp [Trace.empty]⟩

theorem ipv4Receive_safe (correctChecksum : Packet → Nat → Bool) (res : Resources)
    (hlist : ∀ y∈list, y.Ok) (hfits : correctChecksum p (headerSize p) → Fits list p) :
    (∀ y∈(ipv4Receive correctChecksum res list p).1, y.Ok) ∧
      (ipv4Receive correctChecksum res list p).2.Safe := by
  have hskip : (∀ y∈((list, Trace.empty) : List Ipdr × Trace).1, y.Ok) ∧
      ((list, Trace.empty) : List Ipdr × Trace).2.Safe := ⟨hlist,trace_empty_safe⟩
  rw [ipv4Receive]
  split
  · exact hskip
  · split
    · exact hskip
    · next haccepted =>
      have hfits := hfits (by simpa using haccepted)
      rw [processFragment]
      cases hget : getReassemblyInfo list p with
      | some x =>
        have hx := hlist x (getReassemblyInfo_mem hget)
        exact continueAssembly_safe res hlist ⟨hx.header,hx.bound,hx.final⟩ (hfits.2 x hget) hfits.1
      | none =>
        cases res.ipdr with
        | none => exact hskip
        | some stale =>
          dsimp only
          split
          · exact continueAssembly_safe res hlist (newIpdr_ok stale p)
              (newIpdr_fits stale p) hfits.1
          · exact hskip

theorem receiveAll_safe (correctChecksum : Packet → Nat → Bool)
    (packets : List (Resources × Packet))
    (hlist : ∀ y∈list, y.Ok) (hfits : FitsAll correctChecksum list packets) :
    ∀ t∈(receiveAll correctChecksum list packets).2, t.Safe := by
  induction packets generalizing list with
  | nil => simp [receiveAll]
  | cons head packets ih =>
    obtain ⟨res,p⟩ := head
    obtain ⟨hfit,hrest⟩ := hfits
    obtain ⟨hok,hsafe⟩ := ipv4Receive_safe correctChecksum res hlist hfit
    intro t ht
    obtain rfl | ht := mem_cons.mp ht
    · exact hsafe
    · exact ih hok hrest t ht

/-- In every run from an empty list in which each packet fits its datagram and has no header above
the saved one, all copies stay in their buffers. -/
theorem reassembly_in_bounds (correctChecksum : Packet → Nat → Bool)
    (packets : List (Resources × Packet)) (hfits : FitsAll correctChecksum [] packets) :
    ∀ t∈(receiveAll correctChecksum [] packets).2, t.Safe :=
  receiveAll_safe correctChecksum packets (by simp) hfits

end Run

def smallPacket (high low payload : BitVec 8) : Packet := fun o =>
  if o<20 then
    [0x45,0,0,28,0,1,high,low,64,17,0,0,10,0,0,1,10,0,0,2].getD o 0
  else payload

def ampleResources : Resources where
  ipdr := some ⟨0,0,0,0,0,fun _ => 0,0,[],[],0⟩
  firstHole := true
  leftHole := true
  rightHole := true
  fragment := true
  data := true
  buffer := some fun _ => 0

def twoPackets : List (Resources × Packet) :=
  [(ampleResources, smallPacket 0x20 0 1),(ampleResources, smallPacket 0 1 2)]

theorem fitsAll_twoPackets : FitsAll (fun _ _ => true) [] twoPackets := by
  refine ⟨fun _ => ⟨by decide,by simp [getReassemblyInfo]⟩,
    fun _ => ⟨by decide,fun x hx => ⟨fun hmore => absurd hmore (by decide),fun _ f hf => ?_⟩⟩,
    trivial⟩
  have hfrags : (getReassemblyInfo (ipv4Receive (fun _ _ => true) ampleResources []
      (smallPacket 0x20 0 1)).1 (smallPacket 0 1 2)).map
        (fun x => x.fragments.map fun f => f.offset+f.size)=some [8] := by decide
  rw [hx] at hfrags
  have hends : x.fragments.map (fun f => f.offset+f.size)=[8] := Option.some.inj hfrags
  have hmem := mem_map_of_mem (f := fun f : Fragment => f.offset+f.size) hf
  rw [hends,mem_singleton] at hmem
  rw [hmem]
  decide

theorem reassembly_in_bounds_two : FitsAll (fun _ _ => true) [] twoPackets ∧
    ∀ t∈(receiveAll (fun _ _ => true) [] twoPackets).2, t.Safe :=
  ⟨fitsAll_twoPackets,reassembly_in_bounds _ twoPackets fitsAll_twoPackets⟩

def twoFinalPackets : List (Resources × Packet) :=
  [(ampleResources, smallPacket 0 1 1),(ampleResources, smallPacket 0 0 2)]

/-- The buffer of the datagram has 28 bytes, and eight bytes are copied to offset 28. -/
theorem twoFinalPackets_outside :
    ∃ t∈(receiveAll (fun _ _ => true) [] twoFinalPackets).2, ¬t.Safe := by
  have htrace : ((receiveAll (fun _ _ => true) [] twoFinalPackets).2.map fun t =>
      t.datagram.map fun d => (d.totalSize, d.copies)) =
      [none,some (28, [(0, 20),(28, 8),(20, 8)])] := by decide
  have hmem : some (28, [(0, 20),(28, 8),(20, 8)]) ∈
      (receiveAll (fun _ _ => true) [] twoFinalPackets).2.map fun t =>
        t.datagram.map fun d => (d.totalSize, d.copies) := by rw [htrace]; simp
  obtain ⟨t,ht,hdatagram⟩ := mem_map.mp hmem
  obtain ⟨d,hd,hpair⟩ := Option.map_eq_some_iff.mp hdatagram
  refine ⟨t,ht,fun hsafe => ?_⟩
  have hcopy := hsafe.2 d hd (28, 8) (by rw [(Prod.mk.inj hpair).2]; simp)
  rw [(Prod.mk.inj hpair).1] at hcopy
  exact absurd hcopy (by decide)

end Odyssey.Ip
