import Odyssey.Ip.ReassemblyHoles

/-! Runs of the reassembly with the fragments of one datagram. -/
namespace Odyssey.Ip
open ByteMem List

structure Resources.Ample (res : Resources) : Prop where
  ipdr : res.ipdr.isSome
  firstHole : res.firstHole=true
  leftHole : res.leftHole=true
  rightHole : res.rightHole=true
  fragment : res.fragment=true
  data : res.data=true
  buffer : res.buffer.isSome

def Fragment.IsOf (f : Fragment) (p : Packet) : Prop :=
  f.offset=fragFirst p ∧ f.size=fragmentSize p ∧ ∀ i<f.size, f.data i=p (headerSize p+i)

structure Tracks (key : Packet) (h n : Nat) (ps : List Packet) (x : Ipdr) : Prop where
  src : x.srcAddr=srcAddr key
  dst : x.dstAddr=dstAddr key
  id : x.id=packetId key
  protocol : x.protocol=protocol key
  holes : HolesTrack h n ps x.holes
  received : ∀ y, Received ps y → ∃ f∈x.fragments, f.offset≤y ∧ y<f.offset+f.size
  fragments : ∀ f∈x.fragments, ∃ p∈ps, f.IsOf p
  header : Missing n ps 0 ∨ x.headerSize=h
  dataSize : Ended ps → x.dataSize=n

section Step
variable {key p : Packet} {h n : Nat} {ps : List Packet} {x : Ipdr} {res : Resources}

theorem Tracks.matches (ht : Tracks key h n ps x) (hp : WellFormed key n p) : x.matches p := by
  simp [Ipdr.matches,ht.src,ht.dst,ht.id,ht.protocol,hp.src,hp.dst,hp.id,hp.protocol]

theorem newIpdr_tracks (stale : Ipdr) (hp : WellFormed key n p) :
    Tracks key h n [] (newIpdr stale p) where
  src := hp.src
  dst := hp.dst
  id := hp.id
  protocol := hp.protocol
  holes := by
    have hmissing : ∀ x, Missing n [] x ↔ x ≤ infinity := by
      simp [Missing,Received,Ended]
    refine ⟨[⟨0,infinity⟩],rfl,⟨fun x => ?_,by simp,by simp,?_,pairwise_singleton _ _⟩,
      by simp⟩
    · rw [hmissing]
      simp [Hole.Has]
    · intro g hg
      obtain rfl := mem_singleton.mp hg
      rw [hmissing]
      simp
  received := by simp [Received]
  fragments := by simp [newIpdr]
  header := .inl (by simp [Missing,Received,Ended])
  dataSize := by simp [Ended]

theorem fillHole_eq (hres : res.Ample) (hp : WellFormed key n p) {hole : Hole}
    (hfind : x.holes.find? (Hole.overlaps p)=some hole) :
    (fillHole res x p).1=some (x.store p hole) := by
  have hsize : fragmentSize p<poolSize := by
    have h1 := hp.end_le
    have h2 := hp.total
    rw [poolSize]
    omega
  simp [fillHole,hfind,hres.leftHole,hres.rightHole,hres.fragment,hres.data,hsize,Ipdr.store]

theorem Tracks.step (ht : Tracks key h n ps x) (hps : ∀ p∈ps, WellFormed key n p)
    (hp : WellFormed key n p) (hh : headerSize p=h) (hclean : Clean h n ps p) (hres : res.Ample) :
    ∃ y, (fillHole res x p).1=some y ∧ Tracks key h n (ps++[p]) y := by
  have hmono : ∀ f : Fragment, (∃ p∈ps, f.IsOf p) → ∃ q∈ps++[p], f.IsOf q := by
    rintro f ⟨q,hq,hf⟩
    exact ⟨q,mem_append_left _ hq,hf⟩
  obtain ⟨hfind,hnone,hholes⟩ | ⟨hole,hfind,hholes⟩ := ht.holes.step hps hp hh hclean
  · have hcarried : ∀ y, Carries p y → Received ps y := by
      intro y hy
      by_contra hno
      have h1 := hp.end_le
      have h2 := hp.total
      have hlt := hy.2
      exact hnone y hy ⟨hno,by rw [infinity]; omega,fun _ => by omega⟩
    refine ⟨x,by simp [fillHole,hfind],ht.src,ht.dst,ht.id,ht.protocol,hholes,fun y hy => ?_,
      fun f hf => hmono f (ht.fragments f hf),?_,fun hend => ?_⟩
    · obtain hy | hy := received_append.mp hy
      · exact ht.received y hy
      · exact ht.received y (hcarried y hy)
    · rw [missing_append_of_carried hps hp hnone]
      exact ht.header
    · refine ht.dataSize ?_
      by_contra hend'
      have hinf := hp.total
      have hmissing := missing_of_not_ended hps hend' (x := n) (by omega) (by rw [infinity]; omega)
      have hlt := ((missing_append_of_carried hps hp hnone n).mpr hmissing).2.2 hend
      omega
  · refine ⟨x.store p hole,fillHole_eq hres hp hfind,?_⟩
    have hfrags : (x.store p hole).fragments=x.fragments ++
        [⟨slice p (headerSize p) (fragmentSize p),fragFirst p,fragmentSize p⟩] := by
      change (x.saveHeader p).fragments++_=_
      rw [saveHeader_fragments]
    have hkey : (x.store p hole).srcAddr=x.srcAddr ∧ (x.store p hole).dstAddr=x.dstAddr ∧
        (x.store p hole).id=x.id ∧ (x.store p hole).protocol=x.protocol := by
      simp only [Ipdr.store,Ipdr.addFragment,Ipdr.saveHeader]
      split
      · exact ⟨rfl,rfl,rfl,rfl⟩
      · exact ⟨rfl,rfl,rfl,rfl⟩
    refine ⟨hkey.1.trans ht.src,hkey.2.1.trans ht.dst,hkey.2.2.1.trans ht.id,
      hkey.2.2.2.trans ht.protocol,hholes,fun y hy => ?_,fun f hf => ?_,?_,fun hend => ?_⟩
    · rw [hfrags]
      obtain hy | hy := received_append.mp hy
      · obtain ⟨f,hf,hfy⟩ := ht.received y hy
        exact ⟨f,mem_append_left _ hf,hfy⟩
      · exact ⟨_,mem_append_right _ (mem_singleton_self _),hy⟩
    · rw [hfrags] at hf
      obtain hf | hf := mem_append.mp hf
      · exact hmono f (ht.fragments f hf)
      · obtain rfl := mem_singleton.mp hf
        exact ⟨p,by simp,rfl,rfl,fun i hi => slice_of_lt p _ hi⟩
    · by_cases h0 : fragFirst p=0
      · refine .inr ?_
        change (x.saveHeader p).headerSize=h
        rw [Ipdr.saveHeader,if_pos h0]
        exact hh
      · obtain hmissing | hsaved := ht.header
        · refine .inl ?_
          cases hm : moreFragments p with
          | true =>
            exact (missing_append_of_more hm 0).mpr
              ⟨hmissing,fun hc => h0 (by have := hc.1; omega)⟩
          | false => exact (missing_append_of_last hp hm 0).mpr ⟨hmissing,by omega⟩
        · refine .inr ?_
          change (x.saveHeader p).headerSize=h
          rw [Ipdr.saveHeader,if_neg h0]
          exact hsaved
    · change (if moreFragments p then (x.saveHeader p).dataSize else
        uint (fragFirst p+fragmentSize p))=n
      rw [saveHeader_dataSize]
      cases hm : moreFragments p with
      | true =>
        exact ht.dataSize ((ended_append.mp hend).resolve_right (by simp [hm]))
      | false =>
        have htotal := hp.total
        rw [hp.last hm]
        exact Nat.mod_eq_of_lt (by omega)

/-- The structure has no hole exactly when the payload is covered. -/
theorem Tracks.holes_eq_nil (ht : Tracks key h n ps x) (hps : ∀ p∈ps, WellFormed key n p)
    (hn : n < infinity) : x.holes=[] ↔ Covered n ps := by
  obtain ⟨gaps,hmap,hgaps,-⟩ := ht.holes
  rw [covered_iff hps hn,hmap,map_eq_nil_iff]
  constructor
  · rintro rfl x hx
    obtain ⟨g,hg,-⟩ := (hgaps.mem x).mp hx
    exact absurd hg not_mem_nil
  · intro hnone
    cases gaps with
    | nil => rfl
    | cons g gaps =>
      have hg : g∈g::gaps := mem_cons_self
      exact absurd ((hgaps.mem g.first).mpr ⟨g,hg,le_rfl,hgaps.ordered g hg⟩) (hnone g.first)

/-- A byte of the buffer is that of the last fragment copied over it. -/
theorem foldl_copy (frags : List Fragment) (o y : Nat) (m : Mem) :
    (∃ f∈frags, (f.offset≤y ∧ y<f.offset+f.size) ∧
        frags.foldl (fun m f => copy m (o+f.offset) f.data 0 f.size) m (o+y) =
          f.data (y-f.offset)) ∨
      (∀ f∈frags, ¬(f.offset≤y ∧ y<f.offset+f.size)) ∧
        frags.foldl (fun m f => copy m (o+f.offset) f.data 0 f.size) m (o+y)=m (o+y) := by
  induction frags generalizing m with
  | nil => exact .inr ⟨by simp,rfl⟩
  | cons f frags ih =>
    rw [foldl_cons]
    obtain ⟨f',hf',hcover,hbyte⟩ | ⟨hnone,hbyte⟩ :=
      ih (copy m (o+f.offset) f.data 0 f.size)
    · exact .inl ⟨f',mem_cons_of_mem f hf',hcover,hbyte⟩
    · by_cases hcover : f.offset≤y ∧ y<f.offset+f.size
      · refine .inl ⟨f,mem_cons_self,hcover,?_⟩
        rw [hbyte,copy_of_mem _ _ (by omega) (by omega)]
        congr 1
        omega
      · refine .inr ⟨?_,?_⟩
        · intro f' hf'
          obtain rfl | hf' := mem_cons.mp hf'
          · exact hcover
          · exact hnone f' hf'
        · rw [hbyte,copy_of_lt _ _ (by omega)]

/-- The datagram has the bytes that the fragments have carried. -/
theorem Tracks.datagram (ht : Tracks key h n ps x) (hcovered : Covered n ps) (hlt : h+n<65536)
    (hn : 0<n) (buffer : Mem) :
    (reassembleDatagram x buffer).headerSize=h ∧ (reassembleDatagram x buffer).totalSize=h+n ∧
      ∀ y<n, ∃ q∈ps, Carries q y ∧
        (reassembleDatagram x buffer).bytes (h+y)=q (headerSize q+(y-fragFirst q)) := by
  have hheader : x.headerSize=h :=
    ht.header.resolve_left fun hmissing => hmissing.1 (hcovered.2 0 hn)
  refine ⟨hheader,?_,fun y hy => ?_⟩
  · change uint (x.headerSize+x.dataSize)=h+n
    rw [hheader,ht.dataSize hcovered.1]
    exact Nat.mod_eq_of_lt (by omega)
  · change ∃ q∈ps, Carries q y ∧ x.assemble buffer (h+y)=_
    rw [Ipdr.assemble,hheader]
    obtain ⟨f,hf,hcover,hbyte⟩ | ⟨hnone,-⟩ :=
      foldl_copy x.fragments h y (copy buffer 0 x.header 0 h)
    · obtain ⟨q,hq,hoffset,hsize,hdata⟩ := ht.fragments f hf
      refine ⟨q,hq,⟨by omega,by omega⟩,?_⟩
      rw [hbyte,hdata _ (by omega),hoffset]
    · obtain ⟨f,hf,hcover⟩ := ht.received y (hcovered.2 y hy)
      exact absurd hcover (hnone f hf)

end Step

/-- Fragments of one datagram with headers of `h` bytes that pass the checksum, in an order in which
each is clean when it comes and none comes after the one that completes the payload, with all the
memory they need. -/
structure CleanRun (correctChecksum : Packet → Nat → Bool) (key : Packet) (h n : Nat)
    (packets : List (Resources × Packet)) : Prop where
  wellFormed : ∀ q∈packets, WellFormed key n q.2
  header : ∀ q∈packets, headerSize q.2=h
  ample : ∀ q∈packets, q.1.Ample
  checksum : ∀ q∈packets, correctChecksum q.2 (headerSize q.2)
  clean : ∀ a q b, packets.map Prod.snd=a++q::b → ¬Covered n a ∧ Clean h n a q

section Run
variable {correctChecksum : Packet → Nat → Bool} {key p : Packet} {h n : Nat} {ps : List Packet}
  {list : List Ipdr} {res : Resources} {packets : List (Resources × Packet)}

def Assembling (key : Packet) (h n : Nat) (ps : List Packet) (list : List Ipdr) : Prop :=
  (ps=[] ∧ list=[]) ∨ ∃ x, list=[x] ∧ Tracks key h n ps x

theorem headerSize_le (p : Packet) : headerSize p ≤ ipv4MaxHeaderSize := by
  have hand : verIhl p &&& 0x0F≤15 := Nat.and_le_right
  rw [headerSize,ipv4MaxHeaderSize]
  omega

/-- One fragment: it completes the datagram, or the structure takes it in. -/
theorem Assembling.step (hlist : Assembling key h n ps list) (hps : ∀ p∈ps, WellFormed key n p)
    (hp : WellFormed key n p) (hh : headerSize p=h) (hclean : Clean h n ps p) (hres : res.Ample)
    (hsum : correctChecksum p (headerSize p)) :
    (Covered n (ps++[p]) ∧ ∃ y buffer, Tracks key h n (ps++[p]) y ∧
        (ipv4Receive correctChecksum res list p).2.datagram=some (reassembleDatagram y buffer)) ∨
      ¬Covered n (ps++[p]) ∧ (ipv4Receive correctChecksum res list p).2.datagram=none ∧
        Assembling key h n (ps++[p]) (ipv4Receive correctChecksum res list p).1 := by
  have hps' : ∀ q∈ps++[p], WellFormed key n q := by
    intro q hq
    obtain hq | hq := mem_append.mp hq
    · exact hps q hq
    · exact mem_singleton.mp hq ▸ hp
  have hn : n < infinity := by
    have := hp.total
    rw [infinity]
    omega
  obtain ⟨buffer,hbuffer⟩ := Option.isSome_iff_exists.mp hres.buffer
  -- with a structure that has the fragments so far
  have hgo : ∀ x list', Tracks key h n ps x → (list'=[] ∨ ∃ z : Ipdr, list'=[z] ∧ z.matches p) →
      (Covered n (ps++[p]) ∧ ∃ y buffer, Tracks key h n (ps++[p]) y ∧
          (continueAssembly res list' x p).2.datagram=some (reassembleDatagram y buffer)) ∨
        ¬Covered n (ps++[p]) ∧ (continueAssembly res list' x p).2.datagram=none ∧
          Assembling key h n (ps++[p]) (continueAssembly res list' x p).1 := by
    intro x list' ht hlist'
    obtain ⟨y,hfill,hy⟩ := ht.step hps hp hh hclean hres
    have hput : putIpdr p y list'=[y] := by
      obtain rfl | ⟨z,rfl,hz⟩ := hlist'
      · rfl
      · rw [putIpdr,if_pos hz]
    rw [continueAssembly,show fillHole res x p=(some y, (fillHole res x p).2) by rw [← hfill]]
    dsimp only
    by_cases hempty : y.holes=[]
    · rw [if_pos (isEmpty_iff.mpr hempty),hbuffer]
      exact .inl ⟨(hy.holes_eq_nil hps' hn).mp hempty,y,buffer,hy,rfl⟩
    · rw [if_neg (fun he => hempty (isEmpty_iff.mp he)),hput]
      exact .inr ⟨fun hc => hempty ((hy.holes_eq_nil hps' hn).mpr hc),rfl,.inr ⟨y,rfl,hy⟩⟩
  have hreceive : ipv4Receive correctChecksum res list p=processFragment res list p := by
    have hle := headerSize_le p
    rw [ipv4Receive,if_neg (by omega),if_neg (by simp [hsum])]
  rw [hreceive,processFragment]
  obtain ⟨rfl,rfl⟩ | ⟨x,rfl,ht⟩ := hlist
  · obtain ⟨stale,hstale⟩ := Option.isSome_iff_exists.mp hres.ipdr
    rw [hstale]
    dsimp only
    rw [if_pos hres.firstHole]
    exact hgo _ [] (newIpdr_tracks stale hp) (.inl rfl)
  · have hmatch := ht.matches hp
    have hfound : getReassemblyInfo [x] p=some x := by
      simp [getReassemblyInfo,hmatch]
    rw [hfound]
    exact hgo _ [x] ⟨ht.src,ht.dst,ht.id,ht.protocol,ht.holes,ht.received,ht.fragments,
      ht.header,ht.dataSize⟩ (.inr ⟨x,rfl,hmatch⟩)

theorem covered_mono {a b : List Packet} (h : Covered n a) : Covered n (a++b) := by
  obtain ⟨⟨p,hp,hm⟩,hall⟩ := h
  refine ⟨⟨p,mem_append_left _ hp,hm⟩,fun x hx => ?_⟩
  obtain ⟨q,hq,hc⟩ := hall x hx
  exact ⟨q,mem_append_left _ hq,hc⟩

theorem receiveAll_append (list : List Ipdr) (a b : List (Resources × Packet)) :
    receiveAll correctChecksum list (a++b) =
      ((receiveAll correctChecksum (receiveAll correctChecksum list a).1 b).1,
        (receiveAll correctChecksum list a).2 ++
          (receiveAll correctChecksum (receiveAll correctChecksum list a).1 b).2) := by
  induction a generalizing list with
  | nil => rfl
  | cons q a ih =>
    simp [receiveAll,ih]

theorem CleanRun.left {a b : List (Resources × Packet)}
    (hrun : CleanRun correctChecksum key h n (a++b)) : CleanRun correctChecksum key h n a where
  wellFormed q hq := hrun.wellFormed q (mem_append_left b hq)
  header q hq := hrun.header q (mem_append_left b hq)
  ample q hq := hrun.ample q (mem_append_left b hq)
  checksum q hq := hrun.checksum q (mem_append_left b hq)
  clean l q r heq := hrun.clean l q (r++b.map Prod.snd) (by rw [map_append,heq]; simp)

/-- As long as the payload is not covered, nothing is delivered and the structure has all
fragments. -/
theorem CleanRun.assembling (hrun : CleanRun correctChecksum key h n packets)
    (hnot : ¬Covered n (packets.map Prod.snd)) :
    (∀ t∈(receiveAll correctChecksum [] packets).2, t.datagram=none) ∧
      Assembling key h n (packets.map Prod.snd) (receiveAll correctChecksum [] packets).1 := by
  induction packets using List.reverseRecOn with
  | nil => exact ⟨by simp [receiveAll],.inl ⟨rfl,rfl⟩⟩
  | append_singleton packets q ih =>
    obtain ⟨res,p⟩ := q
    rw [map_append] at hnot
    obtain ⟨htraces,hlist⟩ := ih hrun.left fun hc => hnot (covered_mono hc)
    have hmem : (res, p)∈packets++[(res, p)] := by simp
    have hps : ∀ p∈packets.map Prod.snd, WellFormed key n p := by
      intro p hp
      obtain ⟨q,hq,rfl⟩ := mem_map.mp hp
      exact hrun.wellFormed q (mem_append_left _ hq)
    have hclean : Clean h n (packets.map Prod.snd) p :=
      (hrun.clean _ p [] (by rw [map_append]; rfl)).2
    obtain ⟨hc,-⟩ | ⟨-,hnone,hlist'⟩ := hlist.step hps (hrun.wellFormed _ hmem)
      (hrun.header _ hmem) hclean (hrun.ample _ hmem) (hrun.checksum _ hmem)
    · exact absurd hc hnot
    · rw [receiveAll_append,map_append]
      refine ⟨fun t ht => ?_,hlist'⟩
      obtain ht | ht := mem_append.mp ht
      · exact htraces t ht
      · rw [mem_singleton.mp ht]
        exact hnone

/-- In a clean run the datagram is delivered exactly with the first fragment that makes the payload
covered, with the bytes that the fragments have carried. -/
theorem reassembly_exact (hrun : CleanRun correctChecksum key h n (packets++[(res, p)])) :
    (∀ t∈(receiveAll correctChecksum [] packets).2, t.datagram=none) ∧
      ((ipv4Receive correctChecksum res
        (receiveAll correctChecksum [] packets).1 p).2.datagram.isSome ↔
        Covered n (packets.map Prod.snd++[p])) ∧
      ∀ d, (ipv4Receive correctChecksum res
        (receiveAll correctChecksum [] packets).1 p).2.datagram =
          some d → d.headerSize=h ∧ d.totalSize=h+n ∧
        ∀ y<n, ∃ q∈packets.map Prod.snd++[p], Carries q y ∧
          d.bytes (h+y)=q (headerSize q+(y-fragFirst q)) := by
  obtain ⟨hnot,hclean⟩ := hrun.clean (packets.map Prod.snd) p [] (by rw [map_append]; rfl)
  obtain ⟨htraces,hlist⟩ := hrun.left.assembling hnot
  have hmem : (res, p)∈packets++[(res, p)] := by simp
  have hp := hrun.wellFormed _ hmem
  have hps : ∀ p∈packets.map Prod.snd, WellFormed key n p := by
    intro p hp
    obtain ⟨q,hq,rfl⟩ := mem_map.mp hp
    exact hrun.wellFormed q (mem_append_left _ hq)
  refine ⟨htraces,?_⟩
  obtain ⟨hc,y,buffer,hy,hdatagram⟩ | ⟨hc,hnone,-⟩ := hlist.step hps hp (hrun.header _ hmem)
    hclean (hrun.ample _ hmem) (hrun.checksum _ hmem)
  · rw [hdatagram]
    refine ⟨by simp [hc],fun d hd => ?_⟩
    obtain rfl := Option.some.inj hd
    have htotal := hp.total
    rw [hrun.header _ hmem] at htotal
    have hpos := hp.fragmentSize_pos
    have hend := hp.end_le
    exact hy.datagram hc (by omega) (by omega) buffer
  · rw [hnone]
    exact ⟨by simp [hc],by simp⟩

end Run

theorem ampleResources_ample : ampleResources.Ample := ⟨rfl,rfl,rfl,rfl,rfl,rfl,rfl⟩

theorem carries_smallPacket (high low payload : BitVec 8) (x : Nat) :
    Carries (smallPacket high low payload) x ↔
      fragFirst (smallPacket high low payload)≤x ∧
        x<fragFirst (smallPacket high low payload)+8 := by
  have htotal : totalLength (smallPacket high low payload)=28 := by
    simp [totalLength,networkShort,smallPacket]
  have hheader : headerSize (smallPacket high low payload)=20 := by
    simp [headerSize,verIhl,smallPacket]
  have hsize : fragmentSize (smallPacket high low payload)=8 := by
    rw [fragmentSize,htotal,hheader]
    decide
  rw [Carries,hsize]

/-- The two halves of a datagram in order. -/
theorem twoPackets_clean :
    CleanRun (fun _ _ => true) (smallPacket 0x20 0 1) 20 16 twoPackets := by
  have hfirst : ∀ x, Carries (smallPacket 0x20 0 1) x ↔ x<8 := by
    intro x
    rw [carries_smallPacket,show fragFirst (smallPacket 0x20 0 1)=0 by decide]
    omega
  have hempty : ∀ x, Missing 16 [] x ↔ x ≤ infinity := by
    simp [Missing,Received,Ended]
  have hend : ¬Ended [smallPacket 0x20 0 1] := by
    rintro ⟨p,hp,hm⟩
    obtain rfl := mem_singleton.mp hp
    exact absurd hm (by decide)
  have hmissing : ∀ x, Missing 16 [smallPacket 0x20 0 1] x ↔ 8≤x ∧ x ≤ infinity := by
    intro x
    have hreceived : Received [smallPacket 0x20 0 1] x ↔ x<8 := by
      simp only [Received,mem_singleton,exists_eq_left,hfirst]
    simp only [Missing,hreceived,hend,false_implies,and_true,not_lt]
  refine ⟨?_,?_,?_,by simp,fun a q b hsplit => ?_⟩
  · intro q hq
    simp only [twoPackets,mem_cons,not_mem_nil,or_false] at hq
    obtain rfl | rfl := hq
    · constructor
      all_goals decide
    · constructor
      all_goals decide
  · intro q hq
    simp only [twoPackets,mem_cons,not_mem_nil,or_false] at hq
    obtain rfl | rfl := hq
    · decide
    · decide
  · intro q hq
    simp only [twoPackets,mem_cons,not_mem_nil,or_false] at hq
    obtain rfl | rfl := hq
    · exact ampleResources_ample
    · exact ampleResources_ample
  · have hsplit' : [smallPacket 0x20 0 1,smallPacket 0 1 2]=a++q::b := hsplit
    obtain _ | ⟨_,_ | ⟨_,a⟩⟩ := a
    · obtain rfl := (List.cons.inj hsplit').1
      refine ⟨fun hc => by simpa [Ended] using hc.1,fun _ => ?_⟩
      refine ⟨fun x y z _ _ _ hy _ hzy => ?_,fun _ _ i hi => ?_,fun f hf => ?_⟩
      · rw [hempty] at hy ⊢
        omega
      · rw [hempty,show fragFirst (smallPacket 0x20 0 1)+fragmentSize (smallPacket 0x20 0 1)=8 by
          decide,infinity]
        omega
      · rw [show fragFirst (smallPacket 0x20 0 1)=0 by decide] at hf
        omega
    · obtain ⟨rfl,htail⟩ := List.cons.inj hsplit'
      obtain rfl := (List.cons.inj htail).1
      refine ⟨fun hc => hend hc.1,fun _ => ?_⟩
      refine ⟨fun x y z _ _ hx hy hxz hzy => ?_,fun hm => ?_,fun f hf hmf => ?_⟩
      · rw [hmissing] at hx hy ⊢
        omega
      · exact absurd hm (by decide)
      · rw [show fragFirst (smallPacket 0 1 2)=8 by decide] at hf
        rw [hmissing] at hmf
        omega
    · exact absurd (List.cons.inj (List.cons.inj hsplit').2).2 (by simp)

theorem reassembly_exact_two : (ipv4Receive (fun _ _ => true) ampleResources
    (receiveAll (fun _ _ => true) [] [(ampleResources, smallPacket 0x20 0 1)]).1
      (smallPacket 0 1 2)).2.datagram.isSome := by
  refine (reassembly_exact twoPackets_clean).2.1.mpr
    ⟨⟨smallPacket 0 1 2,by simp,by decide⟩,fun x hx => ?_⟩
  by_cases h8 : x<8
  · refine ⟨smallPacket 0x20 0 1,by simp,(carries_smallPacket _ _ _ x).mpr ?_⟩
    rw [show fragFirst (smallPacket 0x20 0 1)=0 by decide]
    omega
  · refine ⟨smallPacket 0 1 2,by simp,(carries_smallPacket _ _ _ x).mpr ?_⟩
    rw [show fragFirst (smallPacket 0 1 2)=8 by decide]
    omega

/-- The datagram is delivered although the second one of its three fragments has not come. -/
theorem early_delivery :
    (WellFormed (smallPacket 0x20 0 1) 24 (smallPacket 0x20 0 1) ∧
      WellFormed (smallPacket 0x20 0 1) 24 (smallPacket 0 2 3)) ∧
    ¬((ipv4Receive (fun _ _ => true) ampleResources
        (receiveAll (fun _ _ => true) [] [(ampleResources, smallPacket 0x20 0 1)]).1
          (smallPacket 0 2 3)).2.datagram.isSome ↔
      Covered 24 [smallPacket 0x20 0 1,smallPacket 0 2 3]) := by
  refine ⟨⟨?_,?_⟩,fun hiff => ?_⟩
  · constructor
    all_goals decide
  · constructor
    all_goals decide
  · obtain ⟨p,hp,hc⟩ := (hiff.mp (by decide)).2 8 (by decide)
    simp only [mem_cons,not_mem_nil,or_false] at hp
    obtain rfl | rfl := hp
    · exact absurd hc.2 (by decide)
    · exact absurd hc.1 (by decide)

end Odyssey.Ip
