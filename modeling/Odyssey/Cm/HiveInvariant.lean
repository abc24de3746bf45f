import Odyssey.Cm.HiveFreeList

/-! The invariant of the cell allocator and how single steps keep it. A layout names the bins
of each storage and the cells of each bin. During an operation some cells are in hand: they
have a positive size but are in no free list. -/
namespace Odyssey.Cm
open ByteMem Tiling

structure Layout where
  bins : StorageType → List Nat
  cells : StorageType → Nat → List Nat

def Layout.isCell (l : Layout) (s : StorageType) (c : Nat) : Prop :=
  ∃ b∈l.bins s, c∈l.cells s b

def Layout.setCells (l : Layout) (s : StorageType) (b : Nat) (cs : List Nat) : Layout :=
  { l with cells := Function.update l.cells s (Function.update (l.cells s) b cs) }

def cellSize (m : Mem) (c : Nat) : Nat := (read32 m c).toInt.natAbs

def FreeCell (h : Hive) (l : Layout) (s : StorageType) (i c : Nat) : Prop :=
  l.isCell s c ∧ 0<(read32 (h.image s) c).toInt ∧
    hvpComputeFreeListIndex (read32 (h.image s) c).toNat=i

/-- The bins of a storage have correct headers and are tiled by their cells, each with room
for a header and a link. -/
structure Tiled (h : Hive) (l : Layout) (s : StorageType) : Prop where
  header : ∀ b∈l.bins s, read32 (h.image s) b=hvBinSignature ∧
    (read32 (h.image s) (b+4)).toNat=b ∧
    (read32 (h.image s) (b+8)).toNat=h.shape.binSize s b
  tiles : ∀ b∈l.bins s,
    Tiles (cellSize (h.image s)) (b+32) (b+h.shape.binSize s b) (l.cells s b)
  room : ∀ c, l.isCell s c → 8≤cellSize (h.image s) c

/-- The dirty vector is made of whole words, covers the Stable storage and marks no block
behind it. -/
structure DirtyOk (h : Hive) : Prop where
  words : h.dirtyVector.sizeOfBitMap.toNat%32=0
  covers : h.shape.length .stable≤h.dirtyVector.sizeOfBitMap.toNat
  small : h.dirtyVector.sizeOfBitMap.toNat≤2^20
  clear : ∀ i, h.shape.length .stable ≤ i → h.dirtyVector.bit i=false

/-- The invariant while the cells `X` of storage `s` are in hand. -/
structure InHand (h : Hive) (l : Layout) (s : StorageType) (X : Nat → Prop) : Prop where
  mapped : Mapped h.shape l.bins
  tiled : ∀ t, Tiled h l t
  lists : ∀ t, h.freeLists t fun i c => FreeCell h l t i c ∧ ¬(t=s ∧ X c)
  dirty : DirtyOk h

def Listed (h : Hive) (l : Layout) (s : StorageType) (X : Nat → Prop) (c : Nat) : Prop :=
  l.isCell s c ∧ 0<(read32 (h.image s) c).toInt ∧ ¬X c

def Allocated (h : Hive) (l : Layout) (s : StorageType) (c : Nat) : Prop :=
  l.isCell s c ∧ (read32 (h.image s) c).toInt<0

structure HiveInv (h : Hive) (l : Layout) : Prop where
  mapped : Mapped h.shape l.bins
  tiled : ∀ t, Tiled h l t
  lists : ∀ t, h.freeLists t (FreeCell h l t)
  dirty : DirtyOk h

section Kit

variable {h h' : Hive} {l : Layout} {s t : StorageType} {X : Nat → Prop} {b c d : Nat}

theorem HiveInv.inHand (hv : HiveInv h l) (s : StorageType) : InHand h l s (fun _ => False) :=
  ⟨hv.mapped,hv.tiled,fun t => (hv.lists t).iff fun _ _ => by simp,hv.dirty⟩

theorem InHand.hiveInv (hv : InHand h l s X) (hX : ∀ c, ¬X c) : HiveInv h l :=
  ⟨hv.mapped,hv.tiled,fun t => (hv.lists t).iff fun _ _ => by simp [hX],hv.dirty⟩

theorem InHand.congr {Y : Nat → Prop} (hv : InHand h l s X) (hX : ∀ c, X c ↔ Y c) :
    InHand h l s Y :=
  ⟨hv.mapped,hv.tiled,fun t => (hv.lists t).iff fun _ c => by rw [hX],hv.dirty⟩

theorem FreeCell.one {i j : Nat} (hi : FreeCell h l s i c) (hj : FreeCell h l s j c) : i=j :=
  hi.2.2.symm.trans hj.2.2

theorem Tiled.bounds (ht : Tiled h l s) (hb : b∈l.bins s) (hc : c∈l.cells s b) :
    b+32≤c ∧ 8≤cellSize (h.image s) c ∧
      c+cellSize (h.image s) c≤b+h.shape.binSize s b := by
  obtain ⟨h1,-,h3⟩ := (ht.tiles b hb).bounds hc
  exact ⟨h1,ht.room c ⟨b,hb,hc⟩,h3⟩

theorem Tiled.inBin (ht : Tiled h l s) (hb : b∈l.bins s) (hc : c∈l.cells s b) :
    InBin h.shape l.bins s b c (cellSize (h.image s) c) := by
  obtain ⟨h1,h2,h3⟩ := ht.bounds hb hc
  exact ⟨hb,by omega,h3⟩

section
variable (hm : Mapped h.shape l.bins) (ht : Tiled h l s)
include hm ht

/-- Two cells of a storage do not overlap, in whichever bins they are. -/
theorem Tiled.disjoint (hc : l.isCell s c) (hd : l.isCell s d) (hne : c≠d) :
    c+cellSize (h.image s) c≤d ∨ d+cellSize (h.image s) d≤c := by
  obtain ⟨b,hb,hcb⟩ := hc
  obtain ⟨b',hb',hdb⟩ := hd
  obtain h1 := ht.bounds hb hcb
  obtain h2 := ht.bounds hb' hdb
  by_cases hbb : b=b'
  · subst hbb
    exact (ht.tiles b hb).disjoint hcb hdb hne
  · obtain h3 | h3 := (hm.cover s).disjoint hb hb' hbb
    · exact .inl (by omega)
    · exact .inr (by omega)

/-- A cell does not overlap the header of a bin. -/
theorem Tiled.disjoint_header (hc : l.isCell s c) (hb : b∈l.bins s) :
    c+cellSize (h.image s) c≤b ∨ b+32≤c := by
  obtain ⟨b',hb',hcb⟩ := hc
  have h2 := ht.bounds hb' hcb
  by_cases hbb : b=b'
  · subst hbb
    exact .inr h2.1
  · have h3 := hm.aligned s b hb
    obtain h5 | h5 := (hm.cover s).disjoint hb hb' hbb
    · exact .inr (by omega)
    · exact .inl (by omega)

theorem Tiled.heads :
    Heads h.shape l.bins s (l.isCell s) where
  inBin := by
    rintro c ⟨b,hb,hc⟩
    have h1 := ht.bounds hb hc
    exact ⟨b,hb,by omega,by omega⟩
  apart c d hc hd hne := by
    have h1 := ht.room c hc
    have h2 := ht.room d hd
    obtain h3 | h3 := ht.disjoint hm hc hd hne
    · exact .inl (by omega)
    · exact .inr (by omega)

end

theorem InHand.classes (s : StorageType) (Y : Nat → Prop) :
    Classes (l.isCell s) fun i c => FreeCell h l s i c ∧ ¬(s=t ∧ Y c) where
  sub _ _ hc := hc.1.1
  one _ _ _ hi hj := hi.1.one hj.1

theorem toNat_of_pos {w : BitVec 32} (hw : 0<w.toInt) : w.toInt.natAbs=w.toNat ∧ w.toNat<2^31 := by
  rw [BitVec.toInt_eq_toNat_cond] at hw ⊢
  by_cases h2 : 2*w.toNat<2^32
  · rw [if_pos h2] at hw ⊢
    omega
  · rw [if_neg h2] at hw
    omega

theorem cellSize_of_pos {m : Mem} (hc : 0<(read32 m c).toInt) : cellSize m c=(read32 m c).toNat :=
  (toNat_of_pos hc).1

end Kit

section Rewrite

variable {h h' : Hive} {l : Layout} {s t : StorageType} {X Y W D : Nat → Prop} {b c : Nat}
  {cs : List Nat} {b' : Nat} {l' : Layout}

@[simp] theorem Layout.cells_setCells_same : (l.setCells s b cs).cells s b=cs := by
  simp [setCells]

theorem Layout.cells_setCells_of_ne (hb : b'≠b) : (l.setCells s b cs).cells s b'=l.cells s b' := by
  simp [setCells,hb]

theorem Layout.cells_setCells_other (l : Layout) (b : Nat) (cs : List Nat) (ht : t≠s) :
    (l.setCells s b cs).cells t=l.cells t := by
  simp [setCells,ht]

@[simp] theorem Layout.setCells_self : l.setCells s b (l.cells s b)=l := by
  simp [setCells]

theorem Layout.isCell_iff (hb : b∈l.bins s) :
    l.isCell s c ↔ c∈l.cells s b ∨ ∃ b'∈l.bins s, b'≠b ∧ c∈l.cells s b' := by
  constructor
  · rintro ⟨b',hb',hc⟩
    by_cases hbb : b'=b
    · exact .inl (hbb ▸ hc)
    · exact .inr ⟨b',hb',hbb,hc⟩
  · rintro (hc | ⟨b',hb',-,hc⟩)
    · exact ⟨b,hb,hc⟩
    · exact ⟨b',hb',hc⟩

theorem Layout.isCell_setCells (hb : b∈l.bins s) :
    (l.setCells s b cs).isCell s c ↔
      c∈cs ∨ ∃ b'∈l.bins s, b'≠b ∧ c∈l.cells s b' := by
  rw [Layout.isCell_iff (l := l.setCells s b cs) hb,cells_setCells_same]
  refine or_congr_right (exists_congr fun b' => and_congr_right fun _ => and_congr_right
    fun hne => ?_)
  rw [cells_setCells_of_ne hne]

/-- Taking one cell out of the list of a bin leaves every other cell. -/
theorem Layout.isCell_erase {A B : List Nat} {p d : Nat} (hcells : l.cells s b=A++p::c::B)
    (hd : l.isCell t d) (hne : t=s → d≠c) : (l.setCells s b (A++p::B)).isCell t d := by
  obtain ⟨b',hb',hdb⟩ := hd
  refine ⟨b',hb',?_⟩
  by_cases hts : t=s
  · subst hts
    by_cases hbb : b'=b
    · subst hbb
      rw [hcells] at hdb
      simpa [hne] using hdb
    · rwa [cells_setCells_of_ne hbb]
  · rwa [cells_setCells_other l b _ hts]

section
variable (hm : Mapped h.shape l.bins)
include hm

theorem Tiled.outside (ht : Tiled h l s) (hb : b∈l.bins s)
    (hb' : b'∈l.bins s) (hne : b'≠b) (hc : c∈l.cells s b') :
    c+cellSize (h.image s) c≤b ∨ b+h.shape.binSize s b≤c := by
  have h1 := ht.bounds hb' hc
  obtain h2 | h2 := (hm.cover s).disjoint hb' hb hne
  · exact .inl (by omega)
  · exact .inr (by omega)

/-- Cells of other bins keep their headers under writes inside the cells of one bin. -/
theorem Tiled.read32_outside (ht : Tiled h l s) (e : Effect h h' s W D) (hb : b∈l.bins s)
    (hW : ∀ o, W o → b+32≤o ∧ o<b+h.shape.binSize s b) (hb' : b'∈l.bins s)
    (hne : b'≠b) (hc : c∈l.cells s b') :
    read32 (h'.image s) c=read32 (h.image s) c := by
  have h1 := ht.outside hm hb hb' hne hc
  exact e.read32 fun k hk hw => by have := hW _ hw; omega

/-- So do the bins. -/
theorem Mapped.read32_header (e : Effect h h' s W D)
    (hb : b∈l.bins s) (hW : ∀ o, W o → b+32≤o ∧ o<b+h.shape.binSize s b) {b' k : Nat}
    (hb' : b'∈l.bins s) (hk : k≤8) :
    read32 (h'.image s) (b'+k)=read32 (h.image s) (b'+k) := by
  refine e.read32 fun j hj hw => ?_
  have h1 := hW _ hw
  by_cases hbb : b'=b
  · omega
  · have h2 := hm.aligned s b' hb'
    have h4 := (hm.cover s).disjoint hb' hb hbb
    omega

theorem Tiled.rewrite (ht : Tiled h l s) (e : Effect h h' s W D)
    (hb : b∈l.bins s) (hW : ∀ o, W o → b+32≤o ∧ o<b+h.shape.binSize s b)
    (htiles : Tiles (cellSize (h'.image s)) (b+32) (b+h.shape.binSize s b) cs)
    (hroom : ∀ c∈cs, 8≤cellSize (h'.image s) c) : Tiled h' (l.setCells s b cs) s where
  header b' hb' := by
    have h0 := hm.read32_header e hb hW hb' (Nat.zero_le 8)
    rw [Nat.add_zero] at h0
    rw [h0,hm.read32_header e hb hW hb' (by decide),hm.read32_header e hb hW hb' (by decide),
      e.shape]
    exact ht.header b' hb'
  tiles b' hb' := by
    rw [e.shape]
    by_cases hbb : b'=b
    · subst hbb
      rwa [Layout.cells_setCells_same]
    · rw [Layout.cells_setCells_of_ne hbb]
      refine (ht.tiles b' hb').congr fun c hc => ?_
      rw [cellSize,cellSize,ht.read32_outside hm e hb hW hb' hbb hc]
  room c hc := by
    obtain hc | ⟨b',hb',hne,hc⟩ := (Layout.isCell_setCells hb).mp hc
    · exact hroom c hc
    · rw [cellSize,ht.read32_outside hm e hb hW hb' hne hc]
      exact ht.room c ⟨b',hb',hc⟩

end

theorem Tiled.other (ht : Tiled h l t) (e : Effect h h' s W D) (hts : t≠s)
    (hbins : l'.bins t=l.bins t) (hcells : l'.cells t=l.cells t) : Tiled h' l' t := by
  have himg := (e.other t hts).1
  obtain ⟨h1,h2,h3⟩ := ht
  refine ⟨?_,?_,?_⟩
  · rwa [himg,e.shape,hbins]
  · rwa [himg,e.shape,hbins,hcells]
  · unfold Layout.isCell
    rwa [himg,hbins,hcells]

theorem FreeLists.other (hl : h.freeLists t fun i c => FreeCell h l t i c ∧ ¬(t=s ∧ X c))
    (e : Effect h h' s W D) (hts : t≠s) (hbins : l'.bins t=l.bins t)
    (hcells : l'.cells t=l.cells t) :
    h'.freeLists t fun i c => FreeCell h' l' t i c ∧ ¬(t=s ∧ Y c) := by
  have himg := e.other t hts
  unfold Hive.freeLists
  rw [himg.1,himg.2]
  refine FreeLists.iff hl fun i c => ?_
  simp [FreeCell,Layout.isCell,hbins,hcells,hts,himg.1]

/-- Writes inside the cells of one bin that re-cut it into the cells `cs`, while the cells in
the free lists keep their links and stay in the same lists. -/
theorem InHand.rewrite (hv : InHand h l s X) (e : Effect h h' s W D)
    (hdisp : h'.storage s=h.storage s) (hdirty : DirtyOk h') (hb : b∈l.bins s)
    (htiles : Tiles (cellSize (h'.image s)) (b+32) (b+h.shape.binSize s b) cs)
    (hroom : ∀ c∈cs, 8≤cellSize (h'.image s) c)
    (hW : ∀ o, W o → b+32≤o ∧ o<b+h.shape.binSize s b)
    (hlinks : ∀ i c, FreeCell h l s i c → ¬X c → ∀ o, c+4≤o → o<c+8 → ¬W o)
    (hX : ∀ c, X c → c∈l.cells s b) (hY : ∀ c, Y c → c∈cs)
    (hfree : ∀ i c, (c∈cs ∧ 0<(read32 (h'.image s) c).toInt ∧
        hvpComputeFreeListIndex (read32 (h'.image s) c).toNat=i) ∧ ¬Y c ↔
      (c∈l.cells s b ∧ 0<(read32 (h.image s) c).toInt ∧
        hvpComputeFreeListIndex (read32 (h.image s) c).toNat=i) ∧ ¬X c) :
    InHand h' (l.setCells s b cs) s Y ∧
      ∀ c, Listed h' (l.setCells s b cs) s Y c ↔ Listed h l s X c := by
  have hm := hv.mapped
  have ht := hv.tiled s
  have hcells : ∀ i c, FreeCell h' (l.setCells s b cs) s i c ∧ ¬Y c ↔ FreeCell h l s i c ∧
    ¬X c := by
    intro i c
    simp only [FreeCell,Layout.isCell_iff hb,Layout.isCell_setCells hb]
    by_cases hcb : ∃ b'∈l.bins s, b'≠b ∧ c∈l.cells s b'
    · obtain ⟨b',hb',hne,hc⟩ := hcb
      have h1 := ht.outside hm hb hb' hne hc
      have hnX : ¬X c := fun hx => by
        have := ht.bounds hb (hX c hx)
        omega
      have hnY : ¬Y c := fun hy => by
        have := htiles.bounds (hY c hy)
        omega
      rw [ht.read32_outside hm e hb hW hb' hne hc]
      simp only [hnX,hnY,not_false_eq_true,and_true]
      exact ⟨fun hf => ⟨.inr ⟨b',hb',hne,hc⟩,hf.2⟩,fun hf => ⟨.inr ⟨b',hb',hne,hc⟩,hf.2⟩⟩
    · simp only [hcb,or_false]
      exact hfree i c
  refine ⟨⟨e.mapped hm,fun t => ?_,fun t => ?_,hdirty⟩,fun c => ?_⟩
  · by_cases hts : t=s
    · subst hts
      exact ht.rewrite hm e hb hW htiles hroom
    · exact (hv.tiled t).other e hts rfl (l.cells_setCells_other b cs hts)
  · by_cases hts : t=s
    · subst hts
      have hl : FreeLists (h'.image t) (h'.storage t).freeDisplay t
          fun i c => FreeCell h l t i c ∧ ¬(t=t ∧ X c) := by
        rw [hdisp]
        refine (hv.lists t).congr fun i c hc => ?_
        rw [nextOf,nextOf,e.read32 fun k hk =>
          hlinks i c hc.1 (fun hx => hc.2 ⟨rfl,hx⟩) _ (by omega) (by omega)]
      refine hl.iff fun i c => ?_
      simpa using (hcells i c).symm
    · exact FreeLists.other (hv.lists t) e hts rfl (l.cells_setCells_other b cs hts)
  · constructor
    · rintro ⟨h1,h2,h3⟩
      obtain ⟨⟨h4,h5,-⟩,h6⟩ := (hcells _ c).mp ⟨⟨h1,h2,rfl⟩,h3⟩
      exact ⟨h4,h5,h6⟩
    · rintro ⟨h1,h2,h3⟩
      obtain ⟨⟨h4,h5,-⟩,h6⟩ := (hcells _ c).mpr ⟨⟨h1,h2,rfl⟩,h3⟩
      exact ⟨h4,h5,h6⟩

def LinkBytes (S : Nat → Prop) (o : Nat) : Prop := ∃ d, S d ∧ d+4≤o ∧ o<d+8

section
variable (hm : Mapped h.shape l.bins) (ht : Tiled h l s) (e : Effect h h' s W D)
  (hW : ∀ o, W o → LinkBytes (l.isCell s) o)
include hm ht e hW

/-- Headers of cells and bins are not links. -/
theorem Tiled.read32_cell (hc : l.isCell s c) : read32 (h'.image s) c=read32 (h.image s) c := by
  refine e.read32 fun k hk hw => ?_
  obtain ⟨d,hd,h1,h2⟩ := hW _ hw
  by_cases hcd : d=c
  · omega
  · have h3 := ht.room c hc
    have h4 := ht.room d hd
    have h5 := ht.disjoint hm hd hc hcd
    omega

theorem Tiled.read32_bin (hb : b∈l.bins s) {k : Nat} (hk : k≤8) :
    read32 (h'.image s) (b+k)=read32 (h.image s) (b+k) := by
  refine e.read32 fun j hj hw => ?_
  obtain ⟨d,hd,h1,h2⟩ := hW _ hw
  have h3 := ht.room d hd
  have h4 := ht.disjoint_header hm hd hb
  omega

end

/-- Writes to links only. -/
theorem InHand.relinked (hv : InHand h l s X) (e : Effect h h' s W D) (hdirty : DirtyOk h')
    (hW : ∀ o, W o → LinkBytes (l.isCell s) o)
    (hl : h'.freeLists s fun i c => FreeCell h l s i c ∧ ¬Y c) :
    InHand h' l s Y ∧ ∀ c, l.isCell s c → read32 (h'.image s) c=read32 (h.image s) c := by
  have hm := hv.mapped
  have ht := hv.tiled s
  have hcell : ∀ c, l.isCell s c → read32 (h'.image s) c=read32 (h.image s) c :=
    fun c hc => ht.read32_cell hm e hW hc
  refine ⟨⟨e.mapped hm,fun t => ?_,fun t => ?_,hdirty⟩,hcell⟩
  · by_cases hts : t=s
    · subst hts
      refine ⟨fun b hb => ?_,fun b hb => ?_,fun c hc => ?_⟩
      · have h0 := ht.read32_bin hm e hW hb (Nat.zero_le 8)
        rw [Nat.add_zero] at h0
        rw [h0,ht.read32_bin hm e hW hb (by decide),ht.read32_bin hm e hW hb (by decide),e.shape]
        exact ht.header b hb
      · rw [e.shape]
        exact (ht.tiles b hb).congr fun c hc => by rw [cellSize,cellSize,hcell c ⟨b,hb,hc⟩]
      · rw [cellSize,hcell c hc]
        exact ht.room c hc
    · exact (hv.tiled t).other e hts rfl rfl
  · by_cases hts : t=s
    · subst hts
      refine FreeLists.iff hl fun i c => ?_
      simp only [FreeCell,true_and]
      constructor
      · rintro ⟨⟨hc,hf⟩,hy⟩
        rw [hcell c hc]
        exact ⟨⟨hc,hf⟩,hy⟩
      · rintro ⟨⟨hc,hf⟩,hy⟩
        rw [hcell c hc] at hf
        exact ⟨⟨hc,hf⟩,hy⟩
    · exact FreeLists.other (hv.lists t) e hts rfl rfl

end Rewrite

section Dirty

variable {h h' : Hive} {l : Layout} {s : StorageType} {X W D : Nat → Prop} {c : Nat}

theorem Effect.dirtyOk (e : Effect h h' s W D) (hd : DirtyOk h)
    (hD : ∀ i, D i → i<h.shape.length .stable) : DirtyOk h' where
  words := by rw [e.size]; exact hd.words
  covers := by rw [e.size,e.shape]; exact hd.covers
  small := by rw [e.size]; exact hd.small
  clear i hi := by
    rw [e.shape] at hi
    rw [← Bool.not_eq_true,e.dirty,not_or,Bool.not_eq_true]
    exact ⟨hd.clear i hi,fun hDi => absurd (hD i hDi) (by omega)⟩

def Marks (s : StorageType) (c i : Nat) : Prop := s = .stable ∧ c%4096≠0 ∧ i=c/4096

theorem setDirtyBits_spec (hd : DirtyOk h) (s : StorageType) (first count : BitVec 32)
    (hle : first.toNat+count.toNat≤h.shape.length .stable) :
    ∃ v, h.setDirtyBits first count = .ok { h with dirtyVector := v } ∧
      Effect h { h with dirtyVector := v } s (fun _ => False)
        (fun i => first.toNat ≤ i ∧ i<first.toNat+count.toNat) ∧
      DirtyOk { h with dirtyVector := v } := by
  have hcov := hd.covers
  have hin : first+count≤h.dirtyVector.sizeOfBitMap := by
    rw [BitVec.le_def,BitVec.toNat_add]
    omega
  have e : Effect h { h with dirtyVector := Rtl.rtlSetBits h.dirtyVector first count } s
      (fun _ => False) (fun i => first.toNat ≤ i ∧ i<first.toNat+count.toNat) :=
    ⟨rfl,fun _ _ => rfl,fun _ _ => ⟨rfl,rfl⟩,Rtl.sizeOfBitMap_rtlSetBits _ _ _,
      fun i => by rw [Rtl.rtlSetBits_bit,Bool.or_eq_true,decide_eq_true_eq],rfl⟩
  refine ⟨_,if_pos hin,e,e.dirtyOk hd fun i hi => ?_⟩
  omega

theorem markIfStable_spec (hm : Mapped h.shape l.bins) (hd : DirtyOk h) (hc : c<h.shape.extent s) :
    ∃ h', h.markIfStable s (indexOf s c) = .ok h' ∧
      Effect h h' s (fun _ => False) (Marks s c) ∧ h'.storage=h.storage ∧ DirtyOk h' := by
  cases s with
  | volatile =>
    exact ⟨h,by simp [Hive.markIfStable],(Effect.refl h _).mono (by simp) (by simp [Marks]),rfl,hd⟩
  | stable =>
    have hext := h.shape.extent_eq .stable
    have hb := hm.bound .stable
    have hc31 : c<2^31 := by omega
    have hlast : cellBlock ((indexOf .stable c+4096-1)%2^32)=(c+4095)/4096 := by
      simp only [indexOf,cellBlock]
      omega
    have hfirst : (BitVec.ofNat 32 (c/4096)).toNat=c/4096 := by
      rw [BitVec.toNat_ofNat]
      omega
    have hcount : (BitVec.ofNat 32 ((c+4095)/4096)-BitVec.ofNat 32 (c/4096)).toNat =
        (c+4095)/4096-c/4096 := by
      simp only [BitVec.toNat_sub,BitVec.toNat_ofNat]
      omega
    obtain ⟨v,hr,e,hd'⟩ := setDirtyBits_spec hd .stable (BitVec.ofNat 32 (c/4096))
      (BitVec.ofNat 32 ((c+4095)/4096)-BitVec.ofNat 32 (c/4096))
      (by rw [hfirst,hcount]; omega)
    refine ⟨_,?_,e.mono (fun _ => id) fun i => ?_,rfl,hd'⟩
    · rw [Hive.markIfStable,if_pos rfl,Hive.hvMarkCellDirty,cellType_indexOf hc31,hlast,
        cellBlock_indexOf hc31]
      exact hr
    · rw [hcount]
      simp only [Marks,true_and]
      omega

end Dirty

end Odyssey.Cm
