import Odyssey.Cm.Hive
import Odyssey.Lib.Tiling

/-! A storage of a hive as one image. The bins of a storage are separate buffers, but the
block list puts them behind each other: an offset below the length of the storage has an
address. `Mapped` says that the block list does this consistently; then loads and stores
through addresses are reads and writes of the image. -/
namespace Odyssey.Cm
open ByteMem Tiling Hive

variable {c src : Nat} {k : Nat}

structure Shape where
  length : StorageType → Nat
  blockList : StorageType → Nat → MapEntry
  size : Nat → Nat
  nextBuffer : Nat

def Hive.shape (h : Hive) : Shape where
  length s := (h.storage s).length
  blockList s := (h.storage s).blockList
  size i := (h.heap i).size
  nextBuffer := h.nextBuffer

namespace Shape

def extent (g : Shape) (s : StorageType) : Nat := g.length s*4096

theorem extent_eq (g : Shape) (s : StorageType) : g.extent s=g.length s*4096 := rfl

def address (g : Shape) (s : StorageType) (o : Nat) : Ptr :=
  (g.blockList s (o/4096)).blockAddress.add (o%4096)

def binAt (g : Shape) (s : StorageType) (b : Nat) : Nat := (g.blockList s (b/4096)).binAddress

def binSize (g : Shape) (s : StorageType) (b : Nat) : Nat := g.size (g.binAt s b)

end Shape

/-- The block list of a storage cuts its image into the bins that start at the offsets
`bins s`, every bin in a buffer of its own. -/
structure Mapped (g : Shape) (bins : StorageType → List Nat) : Prop where
  cover : ∀ s, Tiles (g.binSize s) 0 (g.extent s) (bins s)
  aligned : ∀ s, ∀ b∈bins s, b%4096=0 ∧ g.binSize s b%4096=0
  entry : ∀ s, ∀ b∈bins s, ∀ i, i*4096<g.binSize s b →
    g.blockList s (b/4096+i)=⟨⟨g.binAt s b,i*4096⟩,g.binAt s b⟩
  fresh : ∀ s, ∀ b∈bins s, g.binAt s b<g.nextBuffer
  inj : ∀ s t b c, b∈bins s → c∈bins t → g.binAt s b=g.binAt t c → s=t ∧ b=c
  bound : ∀ s, g.extent s<2^31

def Hive.image (h : Hive) (s : StorageType) : Mem := fun o =>
  if o<h.shape.extent s then
    (h.heap (h.shape.address s o).buf).bytes (h.shape.address s o).off
  else 0

structure InBin (g : Shape) (bins : StorageType → List Nat) (s : StorageType) (b o n : Nat) :
    Prop where
  mem : b∈bins s
  le : b≤o
  fits : o+n≤b+g.binSize s b

section Address

variable {g : Shape} {bins : StorageType → List Nat} {s t : StorageType} {b o n : Nat}

section
variable (hm : Mapped g bins)
include hm

theorem Mapped.address (hi : InBin g bins s b o n) (hn : 0<n) :
    g.address s o=⟨g.binAt s b,o-b⟩ := by
  obtain ⟨hb,hle,hfits⟩ := hi
  have ha := (hm.aligned s b hb).1
  have he := hm.entry s b hb ((o-b)/4096) (by omega)
  have hidx : b/4096+(o-b)/4096=o/4096 := by omega
  rw [hidx] at he
  simp only [Shape.address,he,Ptr.add,Ptr.mk.injEq,true_and]
  omega

theorem Mapped.binAddress (hi : InBin g bins s b o n) (hn : 0<n) :
    (g.blockList s (o/4096)).binAddress=g.binAt s b := by
  obtain ⟨hb,hle,hfits⟩ := hi
  have ha := (hm.aligned s b hb).1
  have he := hm.entry s b hb ((o-b)/4096) (by omega)
  rw [show b/4096+(o-b)/4096=o/4096 by omega] at he
  rw [he]

theorem InBin.lt_extent (hi : InBin g bins s b o n) : o+n≤g.extent s :=
  hi.fits.trans ((hm.cover s).bounds hi.mem).2.2

theorem Mapped.exists_bin (ho : o<g.extent s) : ∃ b, InBin g bins s b o 1 := by
  obtain ⟨b,hb,hle,hlt⟩ := (hm.cover s).exists_mem (Nat.zero_le o) ho
  exact ⟨b,hb,hle,hlt⟩

theorem Mapped.address_add (hi : InBin g bins s b o n) (hk : k<n) :
    (g.address s o).add k=g.address s (o+k) := by
  have hi' : InBin g bins s b (o+k) (n-k) :=
    ⟨hi.mem,Nat.le_add_right_of_le hi.le,by have := hi.fits; omega⟩
  rw [hm.address hi (by omega),hm.address hi' (by omega)]
  have := hi.le
  simp only [Ptr.add,Ptr.mk.injEq,true_and]
  omega

theorem InBin.unique {n' : Nat} (hi : InBin g bins s b o n) (hn : 0<n)
    (hc : InBin g bins s c o n') (hn' : 0<n') : b=c := by
  by_contra hne
  have hd := (hm.cover s).disjoint hi.mem hc.mem hne
  have h1 := hi.fits
  have h2 := hc.fits
  have h3 := hi.le
  have h4 := hc.le
  omega

end

end Address

namespace Hive

def poke (h : Hive) (s : StorageType) (o : Nat) (w : BitVec 32) : Hive :=
  h.setBytes (h.shape.address s o).buf
    (write32 (h.heap (h.shape.address s o).buf).bytes (h.shape.address s o).off w)

def fillAt (h : Hive) (s : StorageType) (o n : Nat) (v : BitVec 8) : Hive :=
  h.setBytes (h.shape.address s o).buf
    (fill (h.heap (h.shape.address s o).buf).bytes (h.shape.address s o).off n v)

def copyAt (h : Hive) (s : StorageType) (o src n : Nat) : Hive :=
  h.setBytes (h.shape.address s o).buf
    (copy (h.heap (h.shape.address s o).buf).bytes (h.shape.address s o).off
      (h.heap (h.shape.address s src).buf).bytes (h.shape.address s src).off n)

section
variable (h : Hive) (buf : Nat) (m : Mem)

@[simp] theorem shape_setBytes : (h.setBytes buf m).shape=h.shape := by
  simp only [shape,setBytes,Shape.mk.injEq,true_and,and_true]
  funext i
  by_cases hi : i=buf
  · subst hi
    simp
  · simp [hi]

@[simp] theorem storage_setBytes : (h.setBytes buf m).storage=h.storage := rfl

@[simp] theorem dirtyVector_setBytes : (h.setBytes buf m).dirtyVector=h.dirtyVector := rfl

@[simp] theorem baseBlock_setBytes : (h.setBytes buf m).baseBlock=h.baseBlock := rfl

end

section
variable (h : Hive) (s : StorageType) (i c : Nat)

@[simp] theorem shape_setFreeDisplay : (h.setFreeDisplay s i c).shape=h.shape := by
  simp only [shape,setFreeDisplay,setStorage,Shape.mk.injEq,and_true]
  constructor <;> funext t <;> by_cases ht : t=s
  · subst ht
    simp
  · simp [ht]
  · subst ht
    simp
  · simp [ht]

@[simp] theorem dirtyVector_setFreeDisplay :
    (h.setFreeDisplay s i c).dirtyVector=h.dirtyVector := rfl

@[simp] theorem baseBlock_setFreeDisplay : (h.setFreeDisplay s i c).baseBlock=h.baseBlock := rfl

@[simp] theorem freeDisplay_setFreeDisplay_same :
    ((h.setFreeDisplay s i c).storage s).freeDisplay =
      Function.update (h.storage s).freeDisplay i c := by
  simp [setFreeDisplay,setStorage]

end

theorem storage_setFreeDisplay_of_ne (h : Hive) {s t : StorageType} (ht : t≠s) (i c : Nat) :
    (h.setFreeDisplay s i c).storage t=h.storage t := by
  simp [setFreeDisplay,setStorage,ht]

@[simp] theorem image_setFreeDisplay (h : Hive) (s t : StorageType) (i c : Nat) :
    (h.setFreeDisplay s i c).image t=h.image t := by
  unfold image
  rw [shape_setFreeDisplay]
  rfl

end Hive

section Image

variable {h : Hive} {bins : StorageType → List Nat} {s t : StorageType} {b o n : Nat}

section

variable (hm : Mapped h.shape bins)
include hm

theorem Mapped.image_apply (hi : InBin h.shape bins s b o n) (hn : 0<n) :
    h.image s o=(h.heap (h.shape.binAt s b)).bytes (o-b) := by
  have := hi.lt_extent hm
  rw [Hive.image,if_pos (by omega),hm.address hi hn]

/-- New bytes for one bin are new bytes in its part of the image. -/
theorem Mapped.image_setBytes (hb : b∈bins s) (m : Mem) :
    (h.setBytes (h.shape.binAt s b) m).image s =
      fun o => if b≤o ∧ o<b+h.shape.binSize s b then m (o-b) else h.image s o := by
  have hm' : Mapped (h.setBytes (h.shape.binAt s b) m).shape bins := by rwa [shape_setBytes]
  funext o
  by_cases ho : o<h.shape.extent s
  · obtain ⟨c,hc⟩ := hm.exists_bin ho
    have hc' : InBin (h.setBytes (h.shape.binAt s b) m).shape bins s c o 1 := by
      rwa [shape_setBytes]
    rw [hm'.image_apply hc' Nat.one_pos,shape_setBytes]
    by_cases hbc : c=b
    · subst hbc
      rw [if_pos ⟨hc.le,hc.fits⟩]
      simp [Hive.setBytes]
    · have hne : h.shape.binAt s c≠h.shape.binAt s b :=
        fun he => hbc (hm.inj s s c b hc.mem hb he).2
      have hout : ¬(b≤o ∧ o<b+h.shape.binSize s b) :=
        fun hin => hbc (hc.unique hm Nat.one_pos
          ⟨hb,hin.1,hin.2⟩ Nat.one_pos)
      rw [if_neg hout,hm.image_apply hc Nat.one_pos]
      simp [Hive.setBytes,hne]
  · have hle := ((hm.cover s).bounds hb).2.2
    rw [if_neg (by omega),Hive.image,Hive.image,shape_setBytes,if_neg ho,if_neg ho]

theorem Mapped.image_setBytes_of_ne (hb : b∈bins s) (ht : t≠s) (m : Mem) :
    (h.setBytes (h.shape.binAt s b) m).image t=h.image t := by
  have hm' : Mapped (h.setBytes (h.shape.binAt s b) m).shape bins := by rwa [shape_setBytes]
  funext o
  by_cases ho : o<h.shape.extent t
  · obtain ⟨c,hc⟩ := hm.exists_bin ho
    have hc' : InBin (h.setBytes (h.shape.binAt s b) m).shape bins t c o 1 := by
      rwa [shape_setBytes]
    have hne : h.shape.binAt t c≠h.shape.binAt s b :=
      fun he => ht (hm.inj t s c b hc.mem hb he).1
    rw [hm'.image_apply hc' Nat.one_pos,hm.image_apply hc Nat.one_pos,shape_setBytes]
    simp [Hive.setBytes,hne]
  · rw [Hive.image,Hive.image,shape_setBytes,if_neg ho,if_neg ho]

/-- A run of bytes read through an address is that run of the image. -/
theorem Mapped.image_run (hi : InBin h.shape bins s b o n) (hk : k<n) :
    (h.heap (h.shape.address s o).buf).bytes ((h.shape.address s o).off+k) =
      h.image s (o+k) := by
  have hi' : InBin h.shape bins s b (o+k) (n-k) :=
    ⟨hi.mem,Nat.le_add_right_of_le hi.le,by have := hi.fits; omega⟩
  have hle := hi.le
  rw [hm.image_apply hi' (by omega),hm.address hi (by omega)]
  dsimp only
  congr 1
  omega

theorem Mapped.fits (hi : InBin h.shape bins s b o n) (hn : 0<n) :
    (h.shape.address s o).off+n≤(h.heap (h.shape.address s o).buf).size := by
  have hle := hi.le
  have hfit : o+n≤b+(h.heap (h.shape.binAt s b)).size := hi.fits
  rw [hm.address hi hn]
  dsimp only
  omega

theorem Mapped.load (hi : InBin h.shape bins s b o 4) :
    h.load (h.shape.address s o) = .ok (read32 (h.image s) o) := by
  rw [Hive.load,if_pos (hm.fits hi (by decide))]
  congr 1
  exact read32_congr fun k hk => hm.image_run hi hk

theorem Mapped.store (hi : InBin h.shape bins s b o 4) (w : BitVec 32) :
    h.store (h.shape.address s o) w = .ok (h.poke s o w) := by
  rw [Hive.store,if_pos (hm.fits hi (by decide)),Hive.poke]

theorem Mapped.fillMemory (hi : InBin h.shape bins s b o n) (hn : 0<n) (v : BitVec 8) :
    h.fillMemory (h.shape.address s o) n v = .ok (h.fillAt s o n v) := by
  rw [Hive.fillMemory,if_pos (hm.fits hi hn),Hive.fillAt]

theorem Mapped.copyMemory (hi : InBin h.shape bins s b o n)
    (hsrc : InBin h.shape bins s c src n) (hn : 0<n) :
    h.copyMemory (h.shape.address s o) (h.shape.address s src) n = .ok (h.copyAt s o src n) := by
  rw [Hive.copyMemory,if_pos ⟨hm.fits hi hn,hm.fits hsrc hn⟩,Hive.copyAt]

/-- New bytes that differ from the old ones on `n` bytes only. -/
theorem Mapped.image_edit (hi : InBin h.shape bins s b o n) {m f : Mem}
    (hin : ∀ k<n, m (o-b+k)=f (o+k))
    (hout : ∀ i, i<o-b ∨ o-b+n ≤ i → m i=(h.heap (h.shape.binAt s b)).bytes i)
    (hf : ∀ i, i<o ∨ o+n ≤ i → f i=h.image s i) :
    (h.setBytes (h.shape.binAt s b) m).image s=f := by
  have hle := hi.le
  have hfits := hi.fits
  rw [hm.image_setBytes hi.mem]
  funext i
  by_cases hb : b ≤ i ∧ i<b+h.shape.binSize s b
  · rw [if_pos hb]
    by_cases hw : o ≤ i ∧ i<o+n
    · have := hin (i-o) (by omega)
      rwa [show o-b+(i-o)=i-b by omega,show o+(i-o)=i by omega] at this
    · have hii : InBin h.shape bins s b i 1 := ⟨hi.mem,hb.1,hb.2⟩
      rw [hout _ (by omega),hf _ (by omega),hm.image_apply hii Nat.one_pos]
  · rw [if_neg hb,hf _ (by omega)]

theorem Mapped.image_poke (hi : InBin h.shape bins s b o 4) (w : BitVec 32) :
    (h.poke s o w).image s=write32 (h.image s) o w := by
  rw [poke,hm.address hi (by decide)]
  exact hm.image_edit hi (fun k hk => by simp [write32,hk]) (fun i hi => write32_of_lt _ _ hi)
    fun i hi => write32_of_lt _ _ hi

theorem Mapped.image_fillAt (hi : InBin h.shape bins s b o n) (hn : 0<n) (v : BitVec 8) :
    (h.fillAt s o n v).image s=fill (h.image s) o n v := by
  rw [fillAt,hm.address hi hn]
  exact hm.image_edit hi (fun k hk => by simp [fill,hk]) (fun i hi => fill_of_lt _ _ hi)
    fun i hi => fill_of_lt _ _ hi

theorem Mapped.image_copyAt (hi : InBin h.shape bins s b o n)
    (hsrc : InBin h.shape bins s c src n) (hn : 0<n) :
    (h.copyAt s o src n).image s=copy (h.image s) o (h.image s) src n := by
  rw [copyAt,hm.address hi hn]
  refine hm.image_edit hi (fun k hk => ?_) (fun i hi => copy_of_lt _ _ hi)
    fun i hi => copy_of_lt _ _ hi
  dsimp only
  rw [copy_of_mem _ _ (by omega) (by omega),copy_of_mem _ _ (by omega) (by omega),
    Nat.add_sub_cancel_left,Nat.add_sub_cancel_left,hm.image_run hsrc hk]

theorem Mapped.image_poke_of_ne (hi : InBin h.shape bins s b o 4) (ht : t≠s) (w : BitVec 32) :
    (h.poke s o w).image t=h.image t := by
  rw [poke,hm.address hi (by decide)]
  exact hm.image_setBytes_of_ne hi.mem ht _

theorem Mapped.image_fillAt_of_ne (hi : InBin h.shape bins s b o n)
    (hn : 0<n) (v : BitVec 8) (ht : t≠s) : (h.fillAt s o n v).image t=h.image t := by
  rw [fillAt,hm.address hi hn]
  exact hm.image_setBytes_of_ne hi.mem ht _

theorem Mapped.image_copyAt_of_ne (src : Nat)
    (hi : InBin h.shape bins s b o n) (hn : 0<n) (ht : t≠s) :
    (h.copyAt s o src n).image t=h.image t := by
  rw [copyAt,hm.address hi hn]
  exact hm.image_setBytes_of_ne hi.mem ht _

end

end Image

structure Effect (h h' : Hive) (s : StorageType) (W D : Nat → Prop) : Prop where
  shape : h'.shape=h.shape
  image : ∀ o, ¬W o → h'.image s o=h.image s o
  other : ∀ t, t≠s → h'.image t=h.image t ∧ h'.storage t=h.storage t
  size : h'.dirtyVector.sizeOfBitMap=h.dirtyVector.sizeOfBitMap
  dirty : ∀ i, h'.dirtyVector.bit i=true ↔ h.dirtyVector.bit i=true ∨ D i
  base : h'.baseBlock=h.baseBlock

section Effect

variable {h h' h'' : Hive} {bins : StorageType → List Nat} {s : StorageType} {b o n : Nat}
  {W W' D D' : Nat → Prop}

theorem Effect.refl (h : Hive) (s : StorageType) :
    Effect h h s (fun _ => False) (fun _ => False) :=
  ⟨rfl,fun _ _ => rfl,fun _ _ => ⟨rfl,rfl⟩,rfl,fun _ => by simp,rfl⟩

section
variable (e : Effect h h' s W D)
include e

theorem Effect.trans (e' : Effect h' h'' s W' D') :
    Effect h h'' s (fun o => W o ∨ W' o) (fun i => D i ∨ D' i) where
  shape := e'.shape.trans e.shape
  image o ho := (e'.image o fun hw => ho (.inr hw)).trans (e.image o fun hw => ho (.inl hw))
  other t ht := ⟨(e'.other t ht).1.trans (e.other t ht).1,(e'.other t ht).2.trans (e.other t ht).2⟩
  size := e'.size.trans e.size
  dirty i := by rw [e'.dirty,e.dirty,or_assoc]
  base := e'.base.trans e.base

theorem Effect.mono (hw : ∀ o, W o → W' o) (hd : ∀ i, D i ↔ D' i) : Effect h h' s W' D' :=
  ⟨e.shape,fun o ho => e.image o fun h => ho (hw o h),e.other,e.size,
    fun i => by rw [e.dirty,hd],e.base⟩

theorem Effect.mapped (hm : Mapped h.shape bins) : Mapped h'.shape bins := by
  rwa [e.shape]

theorem Effect.inBin {t : StorageType} (hi : InBin h.shape bins t b o n) :
    InBin h'.shape bins t b o n := by
  rwa [e.shape]

theorem Effect.read32 (hw : ∀ k<4, ¬W (o+k)) :
    ByteMem.read32 (h'.image s) o=ByteMem.read32 (h.image s) o :=
  read32_congr fun k hk => e.image _ (hw k hk)

end

theorem Effect.poke (hm : Mapped h.shape bins) (hi : InBin h.shape bins s b o 4) (w : BitVec 32) :
    Effect h (h.poke s o w) s (fun i => o ≤ i ∧ i<o+4) (fun _ => False) where
  shape := h.shape_setBytes _ _
  image i hn := by rw [hm.image_poke hi,write32_of_lt _ _ (by omega)]
  other t ht := ⟨hm.image_poke_of_ne hi ht w,rfl⟩
  size := rfl
  dirty := by simp [Hive.poke]
  base := rfl

theorem Effect.fillAt (hm : Mapped h.shape bins) (hi : InBin h.shape bins s b o n) (hn : 0<n)
    (v : BitVec 8) :
    Effect h (h.fillAt s o n v) s (fun i => o ≤ i ∧ i<o+n) (fun _ => False) where
  shape := h.shape_setBytes _ _
  image i hw := by rw [hm.image_fillAt hi hn,fill_of_lt _ _ (by omega)]
  other t ht := ⟨hm.image_fillAt_of_ne hi hn v ht,rfl⟩
  size := rfl
  dirty := by simp [Hive.fillAt]
  base := rfl

theorem Effect.copyAt (hm : Mapped h.shape bins) (hi : InBin h.shape bins s b o n)
    (hsrc : InBin h.shape bins s c src n) (hn : 0<n) :
    Effect h (h.copyAt s o src n) s (fun i => o ≤ i ∧ i<o+n) (fun _ => False) where
  shape := h.shape_setBytes _ _
  image i hw := by rw [hm.image_copyAt hi hsrc hn,copy_of_lt _ _ (by omega)]
  other t ht := ⟨hm.image_copyAt_of_ne src hi hn ht,rfl⟩
  size := rfl
  dirty := by simp [Hive.copyAt]
  base := rfl

theorem Effect.setFreeDisplay (h : Hive) (s : StorageType) (i c : Nat) :
    Effect h (h.setFreeDisplay s i c) s (fun _ => False) (fun _ => False) where
  shape := h.shape_setFreeDisplay s i c
  image o _ := by rw [h.image_setFreeDisplay]
  other t ht := ⟨h.image_setFreeDisplay s t i c,h.storage_setFreeDisplay_of_ne ht i c⟩
  size := rfl
  dirty := by simp
  base := rfl

end Effect

def indexOf (s : StorageType) (c : Nat) : Nat :=
  match s with
  | .stable => c
  | .volatile => c+2^31

section Index

variable {s : StorageType}

theorem indexOf_injective (s : StorageType) : Function.Injective (indexOf s) := by
  intro c d h
  cases s with
  | stable => exact h
  | volatile => exact Nat.add_right_cancel h

theorem indexOf_lt (hc : c<2^31) : indexOf s c<2^32 := by
  cases s <;> simp only [indexOf] <;> omega

theorem cellType_indexOf (hc : c<2^31) : cellType (indexOf s c)=s := by
  cases s with
  | stable => exact if_pos (by simp only [indexOf]; omega)
  | volatile => exact if_neg (by simp only [indexOf]; omega)

theorem cellBlock_indexOf (hc : c<2^31) : cellBlock (indexOf s c)=c/4096 := by
  cases s <;> simp only [indexOf,cellBlock] <;> omega

theorem cellOffset_indexOf : cellOffset (indexOf s c)=c%4096 := by
  cases s with
  | stable => rfl
  | volatile => simp only [indexOf,cellOffset]; omega

theorem indexOf_mod (hc : c<2^31) : indexOf s c%2^31=c := by
  cases s <;> simp only [indexOf] <;> omega

theorem orType_eq_indexOf (hc : c<2^31) : orType s c=indexOf s c := by
  cases s with
  | stable => simp [orType,indexOf]
  | volatile =>
    rw [orType,if_pos ⟨rfl,by omega⟩]
    rfl

theorem indexOf_add (hk : c+k<2^31) : (indexOf s c+k)%2^32=indexOf s (c+k) := by
  cases s <;> simp only [indexOf] <;> omega

theorem indexOf_ne_nil (hc : c+1<2^31) : indexOf s c≠hcellNil := by
  cases s <;> simp only [indexOf,hcellNil] <;> omega

/-- The header of a cell is at the address of its offset. -/
theorem Mapped.hvpGetCellHeader {h : Hive} {bins : StorageType → List Nat} {b n : Nat}
    (hm : Mapped h.shape bins) (hi : InBin h.shape bins s b c n) (hn : 2≤n) :
    h.hvpGetCellHeader (indexOf s c) = .ok (h.shape.address s c) := by
  have hb := hm.bound s
  have hle := hi.lt_extent hm
  have hc : c<2^31 := by omega
  have hlen : c/4096<(h.storage s).length := by
    have : c+n≤(h.storage s).length*4096 := hle
    omega
  rw [Hive.hvpGetCellHeader,cellType_indexOf hc,cellBlock_indexOf hc,cellOffset_indexOf,
    if_pos ⟨indexOf_ne_nil (by omega),hlen⟩]
  rfl

end Index

end Odyssey.Cm
