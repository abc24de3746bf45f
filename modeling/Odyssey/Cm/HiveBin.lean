import Odyssey.Cm.HiveInvariant

/-! `HvpAddBin`: a storage grows by a bin with one free cell, which is in no list. -/
namespace Odyssey.Cm
open ByteMem Tiling Rtl Function BitVec Layout Hive

def Layout.addBin (l : Layout) (s : StorageType) (b : Nat) : Layout where
  bins := update l.bins s (l.bins s++[b])
  cells := update l.cells s (update (l.cells s) b [b+32])

def newBinBytes (b n : Nat) : Mem :=
  write32 (write32 (write32 (write32 (fun _ => 0) 0 hvBinSignature) 4 (BitVec.ofNat 32 b)) 8
    (BitVec.ofNat 32 n)) 32 (BitVec.ofNat 32 (n-32))

structure Extended (h h' : Hive) (s : StorageType) (n : Nat) : Prop where
  heap : h'.heap=update h.heap h.nextBuffer ⟨n,newBinBytes (h.shape.extent s) n⟩
  next : h'.nextBuffer=h.nextBuffer+1
  storage : h'.storage=update h.storage s
    (extendBlockList (h.storage s) h.nextBuffer (n/4096))
  dirty : ∀ i, h'.dirtyVector.bit i=true ↔ h.dirtyVector.bit i=true ∨
    s = .stable ∧ h.shape.length s ≤ i ∧ i<h.shape.length s+n/4096
  dirtyOk : DirtyOk h'
  base : h'.baseBlock=h.baseBlock

section Extend

variable {h h' : Hive} {l : Layout} {s t : StorageType} {b n o : Nat} {c : Nat}

structure BinFits (h : Hive) (s : StorageType) (n : Nat) : Prop where
  blocks : n%4096=0
  pos : 0<n
  bound : h.shape.extent s+n<2^31

section

variable (e : Extended h h' s n) {i : Nat}
include e

theorem Extended.shape_length (hn : BinFits h s n) : h'.shape.length s=h.shape.length s+n/4096 := by
  have hb := hn.bound
  have hx : h.shape.extent s=(h.storage s).length*4096 := rfl
  simp only [shape,e.storage,update_self,extendBlockList]
  omega

theorem Extended.extent (hn : BinFits h s n) : h'.shape.extent s=h.shape.extent s+n := by
  have := hn.blocks
  rw [Shape.extent,e.shape_length hn,Shape.extent]
  omega

theorem Extended.storage_other (ht : t≠s) : h'.storage t=h.storage t := by
  rw [e.storage,update_of_ne ht]

theorem Extended.blockList_old (hi : i<h.shape.length t) :
    h'.shape.blockList t i=h.shape.blockList t i := by
  by_cases hts : t=s
  · subst hts
    have hlen : i<(h.storage t).length := hi
    simp only [shape,e.storage,update_self,extendBlockList]
    rw [if_neg (by omega)]
  · simp only [shape,e.storage_other hts]

theorem Extended.blockList_new (hi : i<n/4096) :
    h'.shape.blockList s (h.shape.length s+i)=⟨⟨h.nextBuffer,i*4096⟩,h.nextBuffer⟩ := by
  simp only [shape,e.storage,update_self,extendBlockList]
  rw [if_pos (by omega)]
  simp

theorem Extended.size_old (hi : i<h.nextBuffer) : h'.shape.size i=h.shape.size i := by
  simp only [shape,e.heap,update_of_ne hi.ne]

/-- An old bin keeps its buffer and its size. -/
theorem Extended.binAt_old (hm : Mapped h.shape l.bins) (hb : b∈l.bins t) :
    h'.shape.binAt t b=h.shape.binAt t b ∧ h'.shape.binSize t b=h.shape.binSize t b := by
  have h1 := (hm.cover t).bounds hb
  have hlt : b/4096<h.shape.length t := by
    have : b+h.shape.binSize t b≤h.shape.length t*4096 := h1.2.2
    omega
  have hat : h'.shape.binAt t b=h.shape.binAt t b := by
    rw [Shape.binAt,Shape.binAt,e.blockList_old hlt]
  rw [Shape.binSize,hat]
  exact ⟨rfl,e.size_old (hm.fresh t b hb)⟩

theorem Extended.binAt_new (hn : BinFits h s n) :
    h'.shape.binAt s (h.shape.extent s)=h.nextBuffer ∧
      h'.shape.binSize s (h.shape.extent s)=n := by
  have hp := hn.pos
  have hb := hn.blocks
  have hat : h'.shape.binAt s (h.shape.extent s)=h.nextBuffer := by
    have := e.blockList_new (i := 0) (by omega)
    rw [Nat.add_zero] at this
    rw [Shape.binAt,Shape.extent,Nat.mul_div_cancel _ (by decide),this]
  refine ⟨hat,?_⟩
  rw [Shape.binSize,hat]
  simp [shape,e.heap]

end

@[simp] theorem Layout.bins_addBin_same : (l.addBin s b).bins s=l.bins s++[b] := by
  simp [addBin]

theorem Layout.bins_addBin_of_ne (l : Layout) (b : Nat) (ht : t≠s) :
    (l.addBin s b).bins t=l.bins t := by
  simp [addBin,ht]

@[simp] theorem Layout.cells_addBin_same : (l.addBin s b).cells s b=[b+32] := by
  simp [addBin]

theorem Layout.cells_addBin_of_ne (l : Layout) (hc : c≠b) :
    (l.addBin s b).cells s c=l.cells s c := by
  simp [addBin,hc]

theorem Layout.cells_addBin_other (l : Layout) (b : Nat) (ht : t≠s) :
    (l.addBin s b).cells t=l.cells t := by
  simp [addBin,ht]

theorem Layout.mem_addBin : c∈(l.addBin s b).bins t ↔ c∈l.bins t ∨ t=s ∧ c=b := by
  by_cases hts : t=s
  · subst hts
    simp [addBin]
  · simp [addBin,hts]

section
variable (e : Extended h h' s n) (hn : BinFits h s n) (hm : Mapped h.shape l.bins)
include e hn hm

theorem Extended.mapped :
    Mapped h'.shape (l.addBin s (h.shape.extent s)).bins where
  cover t := by
    have hold : Tiles (h'.shape.binSize t) 0 (h.shape.extent t) (l.bins t) :=
      (hm.cover t).congr fun b hb => (e.binAt_old hm hb).2
    by_cases hts : t=s
    · subst hts
      rw [e.extent hn,bins_addBin_same]
      refine tiles_append.mpr ⟨_,hold,rfl,?_⟩
      rw [(e.binAt_new hn).2]
      exact ⟨hn.pos,rfl⟩
    · have hext : h'.shape.extent t=h.shape.extent t := by
        simp only [Shape.extent,shape,e.storage_other hts]
      rwa [hext,l.bins_addBin_of_ne _ hts]
  aligned t b hb := by
    obtain hb | ⟨rfl,rfl⟩ := mem_addBin.mp hb
    · rw [(e.binAt_old hm hb).2]
      exact hm.aligned t b hb
    · rw [(e.binAt_new hn).2]
      exact ⟨Nat.mul_mod_left _ _,hn.blocks⟩
  entry t b hb i hi := by
    obtain hb | ⟨rfl,rfl⟩ := mem_addBin.mp hb
    · obtain ⟨hat,hsize⟩ := e.binAt_old hm hb
      rw [hsize] at hi
      have h1 := ((hm.cover t).bounds hb).2.2
      have h3 : b+h.shape.binSize t b≤h.shape.length t*4096 := h1
      rw [hat,e.blockList_old (by omega)]
      exact hm.entry t b hb i hi
    · obtain ⟨hat,hsize⟩ := e.binAt_new hn
      have hb := hn.blocks
      rw [hat,Shape.extent,Nat.mul_div_cancel _ (by decide)]
      exact e.blockList_new (by omega)
  fresh t b hb := by
    have hnext : h'.shape.nextBuffer=h.nextBuffer+1 := e.next
    obtain hb | ⟨rfl,rfl⟩ := mem_addBin.mp hb
    · rw [(e.binAt_old hm hb).1,hnext]
      exact Nat.lt_succ_of_lt (hm.fresh t b hb)
    · rw [(e.binAt_new hn).1,hnext]
      exact Nat.lt_succ_self _
  inj t u b c hb hc heq := by
    obtain hb' | ⟨rfl,rfl⟩ := mem_addBin.mp hb
    · obtain hc' | ⟨rfl,rfl⟩ := mem_addBin.mp hc
      · rw [(e.binAt_old hm hb').1,(e.binAt_old hm hc').1] at heq
        exact hm.inj t u b c hb' hc' heq
      · rw [(e.binAt_old hm hb').1,(e.binAt_new hn).1] at heq
        exact absurd heq (hm.fresh t b hb').ne
    · obtain hc' | ⟨rfl,rfl⟩ := mem_addBin.mp hc
      · rw [(e.binAt_new hn).1,(e.binAt_old hm hc').1] at heq
        exact absurd heq.symm (hm.fresh u c hc').ne
      · exact ⟨rfl,rfl⟩
  bound t := by
    by_cases hts : t=s
    · subst hts
      rw [e.extent hn]
      exact hn.bound
    · have hext : h'.shape.extent t=h.shape.extent t := by
        simp only [Shape.extent,shape,e.storage_other hts]
      rw [hext]
      exact hm.bound t

/-- The image of a storage keeps its old bytes. -/
theorem Extended.image_old (ho : o<h.shape.extent t) : h'.image t o=h.image t o := by
  obtain ⟨b,hb⟩ := hm.exists_bin ho
  obtain ⟨hat,hsize⟩ := e.binAt_old hm hb.mem
  have hb' : InBin h'.shape (l.addBin s (h.shape.extent s)).bins t b o 1 :=
    ⟨mem_addBin.mpr (.inl hb.mem),hb.le,by rw [hsize]; exact hb.fits⟩
  have hfresh : h.shape.binAt t b<h.nextBuffer := hm.fresh t b hb.mem
  rw [hm.image_apply hb Nat.one_pos,(e.mapped hn hm).image_apply hb' Nat.one_pos,hat,e.heap,
    update_of_ne hfresh.ne]

theorem Extended.image_new (ho : o<n) :
    h'.image s (h.shape.extent s+o)=newBinBytes (h.shape.extent s) n o := by
  obtain ⟨hat,hsize⟩ := e.binAt_new hn
  have hb' : InBin h'.shape (l.addBin s (h.shape.extent s)).bins s (h.shape.extent s)
      (h.shape.extent s+o) 1 :=
    ⟨mem_addBin.mpr (.inr ⟨rfl,rfl⟩),by omega,by rw [hsize]; omega⟩
  rw [(e.mapped hn hm).image_apply hb' Nat.one_pos,hat,e.heap,update_self,Nat.add_sub_cancel_left]

end

/-- The words of a new bin. -/
theorem newBinBytes_words (b n : Nat) :
    read32 (newBinBytes b n) 0=hvBinSignature ∧
      read32 (newBinBytes b n) 4=BitVec.ofNat 32 b ∧
      read32 (newBinBytes b n) 8=BitVec.ofNat 32 n ∧
      read32 (newBinBytes b n) 32=BitVec.ofNat 32 (n-32) := by
  unfold newBinBytes
  refine ⟨?_,?_,?_,?_⟩
  · rw [read32_write32_of_disjoint _ _ (by omega),read32_write32_of_disjoint _ _ (by omega),
      read32_write32_of_disjoint _ _ (by omega),read32_write32]
  · rw [read32_write32_of_disjoint _ _ (by omega),read32_write32_of_disjoint _ _ (by omega),
      read32_write32]
  · rw [read32_write32_of_disjoint _ _ (by omega),read32_write32]
  · rw [read32_write32]

theorem Extended.read32_new (e : Extended h h' s n) (hn : BinFits h s n)
    (hm : Mapped h.shape l.bins)
    (ho : o+4≤n) :
    read32 (h'.image s) (h.shape.extent s+o)=read32 (newBinBytes (h.shape.extent s) n) o :=
  read32_congr fun i hi => by rw [Nat.add_assoc]; exact e.image_new hn hm (by omega)

theorem Extended.read32_old (e : Extended h h' s n) (hn : BinFits h s n)
    (hm : Mapped h.shape l.bins)
    (ho : o+4≤h.shape.extent t) : read32 (h'.image t) o=read32 (h.image t) o :=
  read32_congr fun i hi => e.image_old hn hm (by omega)

/-- An old cell is not a new one. -/
theorem Layout.isCell_addBin (hm : Mapped h.shape l.bins) :
    (l.addBin s (h.shape.extent s)).isCell t c ↔
      l.isCell t c ∨ t=s ∧ c=h.shape.extent s+32 := by
  have hne : ∀ b∈l.bins s, b≠h.shape.extent s := by
    intro b hb hbe
    have := (hm.cover s).bounds hb
    omega
  by_cases hts : t=s
  · subst hts
    constructor
    · rintro ⟨b,hb,hc⟩
      obtain hb | ⟨-,rfl⟩ := mem_addBin.mp hb
      · rw [l.cells_addBin_of_ne (hne b hb)] at hc
        exact .inl ⟨b,hb,hc⟩
      · rw [cells_addBin_same] at hc
        exact .inr ⟨rfl,by simpa using hc⟩
    · rintro (⟨b,hb,hc⟩ | ⟨-,rfl⟩)
      · refine ⟨b,mem_addBin.mpr (.inl hb),?_⟩
        rwa [l.cells_addBin_of_ne (hne b hb)]
      · exact ⟨_,mem_addBin.mpr (.inr ⟨rfl,rfl⟩),by simp⟩
  · simp [isCell,l.bins_addBin_of_ne _ hts,l.cells_addBin_other _ hts,hts]

theorem Extended.header_new (e : Extended h h' s n) (hn : BinFits h s n)
    (hm : Mapped h.shape l.bins) :
    (read32 (h'.image s) (h.shape.extent s+32)).toInt=(n : Int)-32 := by
  have h1 := hn.bound
  have h2 := hn.blocks
  have h3 := hn.pos
  rw [e.read32_new hn hm (by omega),(newBinBytes_words _ n).2.2.2,
    toInt_eq_toNat_of_lt (by rw [toNat_ofNat]; omega),toNat_ofNat]
  omega

theorem Extended.tiled (e : Extended h h' s n) (hn : BinFits h s n) (hm : Mapped h.shape l.bins)
    (ht : Tiled h l t) : Tiled h' (l.addBin s (h.shape.extent s)) t := by
  have h1 := hn.bound
  have h2 := hn.blocks
  have h3 := hn.pos
  have hcell : ∀ c, l.isCell t c → read32 (h'.image t) c=read32 (h.image t) c := by
    rintro c ⟨b,hb,hc⟩
    have h4 := (ht.inBin hb hc).lt_extent hm
    have h5 := (ht.bounds hb hc).2.1
    exact e.read32_old hn hm (by omega)
  refine ⟨fun b hb => ?_,fun b hb => ?_,fun c hc => ?_⟩
  · obtain hb' | ⟨rfl,rfl⟩ := mem_addBin.mp hb
    · have h4 := ((hm.cover t).bounds hb').2
      have h5 := hm.aligned t b hb'
      rw [e.read32_old hn hm (by omega),e.read32_old hn hm (by omega),e.read32_old hn hm (by omega),
        (e.binAt_old hm hb').2]
      exact ht.header b hb'
    · obtain ⟨w0,w4,w8,-⟩ := newBinBytes_words (h.shape.extent t) n
      have hz := e.read32_new (o := 0) hn hm (by omega)
      rw [Nat.add_zero] at hz
      rw [hz,e.read32_new hn hm (by omega),e.read32_new hn hm (by omega),w0,w4,w8,
        (e.binAt_new hn).2,toNat_ofNat,toNat_ofNat]
      exact ⟨rfl,by omega,by omega⟩
  · obtain hb' | ⟨rfl,rfl⟩ := mem_addBin.mp hb
    · rw [(e.binAt_old hm hb').2]
      have hcells : (l.addBin s (h.shape.extent s)).cells t b=l.cells t b := by
        by_cases hts : t=s
        · subst hts
          have := (hm.cover t).bounds hb'
          exact l.cells_addBin_of_ne (by omega)
        · rw [l.cells_addBin_other _ hts]
      rw [hcells]
      refine (ht.tiles b hb').congr fun c hc => ?_
      rw [cellSize,cellSize,hcell c ⟨b,hb',hc⟩]
    · rw [(e.binAt_new hn).2,cells_addBin_same]
      have hsize : cellSize (h'.image t) (h.shape.extent t+32)=n-32 := by
        rw [cellSize,e.header_new hn hm]
        omega
      refine ⟨rfl,by omega,?_⟩
      rw [hsize]
      exact (by omega : h.shape.extent t+32+(n-32)=h.shape.extent t+n)
  · obtain hc | ⟨rfl,rfl⟩ := (isCell_addBin hm).mp hc
    · rw [cellSize,hcell c hc]
      exact ht.room c hc
    · rw [cellSize,e.header_new hn hm]
      omega

theorem Extended.freeDisplay (e : Extended h h' s n) :
    (h'.storage t).freeDisplay=(h.storage t).freeDisplay := by
  by_cases hts : t=s
  · subst hts
    simp [e.storage,extendBlockList]
  · rw [e.storage_other hts]

/-- After `HvpAddBin` the cell of the new bin is in hand. -/
theorem Extended.inHand (e : Extended h h' s n) (hn : BinFits h s n) (hv : HiveInv h l) :
    InHand h' (l.addBin s (h.shape.extent s)) s (· = h.shape.extent s+32) := by
  have hm := hv.mapped
  refine ⟨e.mapped hn hm,fun t => e.tiled hn hm (hv.tiled t),fun t => ?_,e.dirtyOk⟩
  have hold : ∀ c, l.isCell t c → read32 (h'.image t) c=read32 (h.image t) c ∧
      read32 (h'.image t) (c+4)=read32 (h.image t) (c+4) ∧ c+8≤h.shape.extent t := by
    rintro c ⟨b,hb,hc⟩
    have h4 := ((hv.tiled t).inBin hb hc).lt_extent hm
    have h5 := ((hv.tiled t).bounds hb hc).2.1
    exact ⟨e.read32_old hn hm (by omega),e.read32_old hn hm (by omega),by omega⟩
  have hl : FreeLists (h'.image t) (h'.storage t).freeDisplay t (FreeCell h l t) := by
    rw [e.freeDisplay]
    refine (hv.lists t).congr fun i c hc => ?_
    rw [nextOf,nextOf,(hold c hc.1).2.1]
  refine hl.iff fun i c => ?_
  simp only [FreeCell,isCell_addBin hm]
  by_cases hc : l.isCell t c
  · obtain ⟨hw,-,hlt⟩ := hold c hc
    have hnew : ¬(t=s ∧ c=h.shape.extent s+32) := by
      rintro ⟨rfl,rfl⟩
      omega
    simp [hc,hnew,hw]
  · by_cases hnew : t=s ∧ c=h.shape.extent s+32
    · exact ⟨fun hf => absurd hf.1 hc,fun hf => absurd hnew hf.2⟩
    · simp [hc,hnew]

end Extend

section Dirty

variable {h : Hive} {s : StorageType}

/-- The bits of the first bytes of a buffer. -/
theorem wordsBit_firstBytes (buffer : Nat → BitVec 32) (n i : Nat) :
    wordsBit (firstBytes buffer n) i=(wordsBit buffer i && decide (i<8*n)) := by
  unfold wordsBit firstBytes
  rw [getLsbD_and,getLsbD_not,getLsbD_shiftLeft,getLsbD_allOnes]
  congr 1
  rw [Bool.eq_iff_iff]
  simp only [Bool.and_eq_true,Bool.not_eq_true',decide_eq_true_eq,Bool.and_eq_false_iff,
    decide_eq_false_iff_not,Bool.not_eq_false']
  omega

/-- The dirty vector after a call of `HvpAddBin` for a storage that has grown from `k` blocks
still marks the same blocks and covers the new ones. -/
theorem growDirtyVector_spec {k : Nat} (hwords : h.dirtyVector.sizeOfBitMap.toNat%32=0)
    (hsmall : h.dirtyVector.sizeOfBitMap.toNat≤2^20) (hk : k≤h.shape.length .stable)
    (hcov : k≤h.dirtyVector.sizeOfBitMap.toNat) (hclear : ∀ i, k ≤ i → h.dirtyVector.bit i=false)
    (hlen : h.shape.length .stable<2^19) :
    ∃ v : Bitmap, h.growDirtyVector true = .ok { h with dirtyVector := v } ∧
      (∀ i, v.bit i=h.dirtyVector.bit i) ∧ DirtyOk { h with dirtyVector := v } := by
  have hround : roundUp (h.storage .stable).length 32 =
      ((h.storage .stable).length+31)/32*32 := by
    have : (h.storage .stable).length<2^19 := hlen
    rw [roundUp]
    omega
  have hl : (h.storage .stable).length=h.shape.length .stable := rfl
  rw [hl] at hround
  unfold growDirtyVector
  rw [hl,hround]
  by_cases hgrow : (h.shape.length .stable+31)/32*32/8 > h.dirtyVector.sizeOfBitMap.toNat/8
  · rw [if_pos hgrow]
    have hbit : ∀ i, (rtlInitializeBitMap (firstBytes h.dirtyVector.buffer
        (h.dirtyVector.sizeOfBitMap.toNat/8)) (BitVec.ofNat 32
          ((h.shape.length .stable+31)/32*32/8*8))).bit i=h.dirtyVector.bit i := by
      intro i
      simp only [rtlInitializeBitMap,Bitmap.bit]
      rw [wordsBit_firstBytes]
      by_cases hi : i<8*(h.dirtyVector.sizeOfBitMap.toNat/8)
      · simp [hi]
      · have := hclear i (by omega)
        rw [Bitmap.bit] at this
        simp [this]
    have hsize : (BitVec.ofNat 32 ((h.shape.length .stable+31)/32*32/8*8)).toNat =
        (h.shape.length .stable+31)/32*32 := by
      rw [toNat_ofNat]
      omega
    refine ⟨_,rfl,hbit,?_,?_,?_,fun i hi => ?_⟩
    · change (BitVec.ofNat 32 _).toNat%32=0
      omega
    · change h.shape.length .stable≤(BitVec.ofNat 32 _).toNat
      omega
    · change (BitVec.ofNat 32 _).toNat≤2^20
      omega
    · exact (hbit i).trans (hclear i (hk.trans hi))
  · rw [if_neg hgrow]
    refine ⟨h.dirtyVector,rfl,fun _ => rfl,hwords,?_,hsmall,fun i hi => hclear i (hk.trans hi)⟩
    change h.shape.length .stable≤h.dirtyVector.sizeOfBitMap.toNat
    omega

end Dirty

section AddBin

variable {h : Hive} {s : StorageType} {n o : Nat} {size : Nat} {l : Layout}

def withBuffer (h : Hive) (d : StorageType → Dual) (n : Nat) (m : Mem) : Hive :=
  { h.newBuffer n m with storage := d }

/-- A store into a buffer that was just allocated. -/
theorem store_withBuffer (d : StorageType → Dual) (m : Mem) (w : BitVec 32) (ho : o+4≤n) :
    (withBuffer h d n m).store ⟨h.nextBuffer,o⟩ w = .ok (withBuffer h d n (write32 m o w)) := by
  simp [store,withBuffer,newBuffer,setBytes,ho]

def binAdded (h : Hive) (s : StorageType) (n : Nat) : Hive :=
  withBuffer h (update h.storage s
    (extendBlockList (h.storage s) h.nextBuffer (n/4096))) n
    (newBinBytes (h.shape.extent s) n)

/-- The first part of `HvpAddBin` fills in the bin and the block list. -/
theorem hvpAddBin_eq (alloc : AllocResults) (hn : BinFits h s (roundUp ((size+32)%2^32) 4096)) :
    h.hvpAddBin alloc size s =
      if alloc.bin=false ∨ alloc.blockList=false then .ok none
      else if s = .stable then do
        let h' ← (binAdded h s (roundUp ((size+32)%2^32) 4096)).growDirtyVector alloc.bitmap
        let h' ← h'.setDirtyBits (BitVec.ofNat 32 (h.shape.length s))
          (BitVec.ofNat 32 (roundUp ((size+32)%2^32) 4096/4096))
        .ok (some (h.nextBuffer, h'))
      else .ok (some (h.nextBuffer, binAdded h s (roundUp ((size+32)%2^32) 4096))) := by
  obtain ⟨hblocks,hpos,hbound⟩ := hn
  unfold hvpAddBin
  dsimp only
  generalize roundUp ((size+32)%2^32) 4096=n at hblocks hpos hbound ⊢
  have hfile : (h.storage s).length*4096%2^32=h.shape.extent s := by
    have : (h.storage s).length*4096=h.shape.extent s := rfl
    omega
  have hfirst : h.shape.extent s/4096=h.shape.length s := Nat.mul_div_cancel _ (by decide)
  have hrest : (n+2^32-32)%2^32=n-32 := by omega
  have hset : ∀ m, (withBuffer h h.storage n m).setStorage s (extendBlockList
      ((withBuffer h h.storage n m).storage s) h.nextBuffer (n/4096)) =
        withBuffer h (update h.storage s
          (extendBlockList (h.storage s) h.nextBuffer (n/4096))) n m := fun _ => rfl
  rw [hfile,hfirst,hrest]
  by_cases hbin : alloc.bin=false
  · simp [hbin]
  · rw [if_neg hbin,show h.newBuffer n (fun _ => 0)=withBuffer h h.storage n (fun _ => 0) from rfl,
      store_withBuffer _ _ _ (by omega),HiveM.ok_bind,store_withBuffer _ _ _ (by omega),
      HiveM.ok_bind,store_withBuffer _ _ _ (by omega),HiveM.ok_bind]
    by_cases hlist : alloc.blockList=false
    · simp [hlist]
    · rw [if_neg hlist,if_neg (by simp [hbin,hlist]),hset,store_withBuffer _ _ _ (by omega)]
      rfl

theorem growDirtyVector_cases (h : Hive) (allocated : Bool) :
    h.growDirtyVector allocated=h.growDirtyVector true ∨
      allocated=false ∧ h.growDirtyVector allocated = .error .bounds := by
  cases allocated with
  | true => exact .inl rfl
  | false =>
    by_cases hgrow : roundUp (h.storage .stable).length 32/8 > h.dirtyVector.sizeOfBitMap.toNat/8
    · exact .inr ⟨rfl,by simp [growDirtyVector,hgrow]⟩
    · exact .inl (by simp [growDirtyVector,hgrow])

/-- For the Stable storage the dirty vector is extended and the new blocks are marked. -/
theorem binAdded_dirty (hv : HiveInv h l) (hn : BinFits h .stable n) :
    ∃ h', ((binAdded h .stable n).growDirtyVector true >>= fun h' =>
        h'.setDirtyBits (BitVec.ofNat 32 (h.shape.length .stable)) (BitVec.ofNat 32 (n/4096))) =
          .ok h' ∧ Extended h h' .stable n := by
  obtain ⟨hblocks,hpos,hbound⟩ := hn
  have hext := h.shape.extent_eq .stable
  have hlen : (binAdded h .stable n).shape.length .stable=h.shape.length .stable+n/4096 := by
    simp only [binAdded,withBuffer,shape,update_self,extendBlockList]
    have : h.shape.extent .stable=(h.storage .stable).length*4096 := rfl
    omega
  obtain ⟨v,hr,hbit,hok⟩ := growDirtyVector_spec (h := binAdded h .stable n)
    hv.dirty.words hv.dirty.small (by omega) hv.dirty.covers
    hv.dirty.clear (by omega)
  have hfirst : (BitVec.ofNat 32 (h.shape.length .stable)).toNat=h.shape.length .stable := by
    rw [toNat_ofNat]
    omega
  have hcount : (BitVec.ofNat 32 (n/4096)).toNat=n/4096 := by
    rw [toNat_ofNat]
    omega
  obtain ⟨v',hr',e,hok'⟩ := setDirtyBits_spec hok .stable
    (BitVec.ofNat 32 (h.shape.length .stable)) (BitVec.ofNat 32 (n/4096)) (by
      rw [hfirst,hcount]
      exact le_of_eq hlen.symm)
  refine ⟨_,by rw [hr,HiveM.ok_bind,hr'],rfl,rfl,rfl,fun i => ?_,hok',rfl⟩
  have hd := e.dirty i
  rw [hfirst,hcount] at hd
  exact hd.trans (or_congr (iff_of_eq (congrArg (· = true) (hbit i))) (by simp))

/-- `HvpAddBin` extends the storage; it gives NULL if one of the first two allocations fails
and faults if the third one does. -/
theorem hvpAddBin_spec (hv : HiveInv h l) (alloc : AllocResults)
    (hn : BinFits h s (roundUp ((size+32)%2^32) 4096)) :
    (alloc.bin=false ∨ alloc.blockList=false) ∧ h.hvpAddBin alloc size s = .ok none ∨
      (∃ h', h.hvpAddBin alloc size s = .ok (some (h.nextBuffer, h')) ∧
        Extended h h' s (roundUp ((size+32)%2^32) 4096)) ∨
      alloc.bitmap=false ∧ h.hvpAddBin alloc size s = .error .bounds := by
  rw [hvpAddBin_eq alloc hn]
  by_cases hfail : alloc.bin=false ∨ alloc.blockList=false
  · exact .inl ⟨hfail,if_pos hfail⟩
  · rw [if_neg hfail]
    cases s with
    | stable =>
      obtain ⟨h',hr,e⟩ := binAdded_dirty hv hn
      obtain hg | ⟨hb,hg⟩ := growDirtyVector_cases
        (binAdded h .stable (roundUp ((size+32)%2^32) 4096)) alloc.bitmap
      · rw [hg,← bind_assoc,hr]
        exact .inr (.inl ⟨h',rfl,e⟩)
      · rw [hg]
        exact .inr (.inr ⟨hb,rfl⟩)
    | volatile =>
      refine .inr (.inl ⟨_,rfl,rfl,rfl,rfl,fun i => by simp [binAdded,withBuffer,newBuffer],
        ?_,rfl⟩)
      obtain ⟨h1,h2,h3,h4⟩ := hv.dirty
      have hlen : (binAdded h .volatile (roundUp ((size+32)%2^32) 4096)).shape.length .stable =
          h.shape.length .stable := by
        simp [binAdded,withBuffer,shape]
      exact ⟨h1,hlen ▸ h2,h3,hlen ▸ h4⟩

end AddBin

end Odyssey.Cm
