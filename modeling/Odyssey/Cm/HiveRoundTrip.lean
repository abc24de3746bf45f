import Odyssey.Cm.HiveCrash
import Odyssey.Cm.HiveLoad

/-! A hive that `HvWriteHive` has written is loaded again by `HvpInitializeMemoryHive`. -/
namespace Odyssey.Cm
open ByteMem FileWrites Tiling Rtl Hive HiveM

variable {x : Nat} {o : Nat}

def Hive.setDirty (h : Hive) (v : Bitmap) : Hive := { h with dirtyVector := v }

section Lists

variable {h : Hive} {v : Bitmap} {l : Layout} {X : Nat → Prop} {b : Nat} {cs : List Nat}
  {S S' : Nat → Prop} {fuel : Nat} {h' : Hive}

theorem hvpAddFree_of_setDirty {p : Ptr} {cell : Nat}
    (hrun : (h.setDirty v).hvpAddFree p cell = .ok h') :
    ∃ h₀, h.hvpAddFree p cell = .ok h₀ ∧ h'=h₀.setDirty v := by
  obtain ⟨w,hload,hrun⟩ := bind_eq_ok hrun
  obtain ⟨h₁,hstore,hrun⟩ := bind_eq_ok hrun
  have hload' : h.load p = .ok w := hload
  unfold store at hstore
  by_cases hle : (p.add 4).off+4≤(h.heap (p.add 4).buf).size
  · rw [if_pos (by exact hle)] at hstore
    obtain rfl := Except.ok.inj hstore
    have hadd : h.hvpAddFree p cell = .ok ((h.setBytes (p.add 4).buf
        (write32 (h.heap (p.add 4).buf).bytes (p.add 4).off (BitVec.ofNat 32
          ((h.storage (cellType cell)).freeDisplay
            (hvpComputeFreeListIndex w.toNat))))).setFreeDisplay
        (cellType cell) (hvpComputeFreeListIndex w.toNat) cell) := by
      rw [hvpAddFree,hload',ok_bind]
      dsimp only
      rw [store,if_pos hle]
      rfl
    exact ⟨_,hadd,(Except.ok.inj hrun).symm⟩
  · rw [if_neg (by exact hle)] at hstore
    cases hstore

/-- A cell that is not free need not be kept in hand. -/
theorem InHand.drop (hv : InHand h l .stable X) (hx : ¬0<(read32 (h.image .stable) x).toInt) :
    InHand h l .stable (fun c => X c ∧ c≠x) := by
  refine ⟨hv.mapped,hv.tiled,fun t => (hv.lists t).iff fun i c => ?_,hv.dirty⟩
  refine and_congr_right fun hc => not_congr (and_congr_right fun hts => ?_)
  subst hts
  have hne : c≠x := fun hcx => hx (hcx ▸ hc.2.1)
  simp [hne]

def FreeLinks (h : Hive) (S : Nat → Prop) (o : Nat) : Prop :=
  ∃ c, S c ∧ 0<(read32 (h.image .stable) c).toInt ∧ c+4≤o ∧ o<c+8

structure Added (h h' : Hive) (l : Layout) (X S : Nat → Prop) : Prop where
  inHand : InHand h' l .stable (fun c => X c ∧ ¬S c)
  effect : Effect h h' .stable (FreeLinks h S) (fun _ => False)
  cells : ∀ c, l.isCell .stable c → read32 (h'.image .stable) c=read32 (h.image .stable) c

theorem Added.trans {h₁ h₂ : Hive} (a : Added h h₁ l X S)
    (hS' : ∀ c, S' c → l.isCell .stable c) (a' : Added h₁ h₂ l (fun c => X c ∧ ¬S c) S') :
      Added h h₂ l X (fun c => S c ∨ S' c) := by
  refine ⟨a'.inHand.congr fun c => by tauto,(a.effect.trans a'.effect).mono ?_ (by simp),
    fun c hc => (a'.cells c hc).trans (a.cells c hc)⟩
  rintro o (⟨c,hc,hpos,ho⟩ | ⟨c,hc,hpos,ho⟩)
  · exact ⟨c,.inl hc,hpos,ho⟩
  · rw [a.cells c (hS' c hc)] at hpos
    exact ⟨c,.inr hc,hpos,ho⟩

theorem Added.refl (hv : InHand h l .stable X) : Added h h l X (fun _ => False) :=
  ⟨hv.congr fun c => by simp,(Effect.refl h .stable).mono (by simp) (by simp),fun _ _ => rfl⟩

theorem Added.iff (a : Added h h' l X S) (hS : ∀ c, S c ↔ S' c) : Added h h' l X S' := by
  obtain rfl : S=S' := funext fun c => propext (hS c)
  exact a

/-- One turn of the loop over the cells. -/
theorem InHand.addFreeCell (hv : InHand (h.setDirty v) l .stable X)
    (hb : b∈l.bins .stable) (hx : x∈l.cells .stable b) (hX : X x)
    (hpos : 0<(read32 (h.image .stable) x).toInt) :
    ∃ h', h.hvpAddFree (h.shape.address .stable x) x = .ok h' ∧
      Added (h.setDirty v) (h'.setDirty v) l X (· = x) := by
  obtain ⟨g,hrun,hv',e,hcell⟩ := hv.add ⟨b,hb,hx⟩ hpos hX
  obtain ⟨h',hrun',rfl⟩ := hvpAddFree_of_setDirty hrun
  refine ⟨h',hrun',hv',e.mono (fun o ho => ⟨x,rfl,hpos,ho⟩) (by simp),hcell⟩

/-- A word of a bin is read at its offset in the bin. -/
theorem Mapped.load_bin {bins : StorageType → List Nat} {s : StorageType}
    (hm : Mapped h.shape bins) (hi : InBin h.shape bins s b o 4) :
    h.load ⟨h.shape.binAt s b,o-b⟩ = .ok (read32 (h.image s) o) := by
  rw [← hm.address hi (by decide),hm.load hi]

theorem InHand.binState (hv : InHand (h.setDirty v) l .stable X) (hb : b∈l.bins .stable) :
    BinState h (h.shape.binAt .stable b) (h.shape.binSize .stable b) b
      (h.heap (h.shape.binAt .stable b)).bytes h.heads := by
  have hm : Mapped h.shape l.bins := hv.mapped
  obtain ⟨-,hoffset,hsize⟩ := (hv.tiled .stable).header b hb
  have hbound := hm.bound .stable
  have hfit := (hm.cover .stable).bounds hb
  have hal := hm.aligned .stable b hb
  have hword : ∀ k, k+4≤h.shape.binSize .stable b →
      read32 (h.heap (h.shape.binAt .stable b)).bytes k=read32 (h.image .stable) (b+k) := by
    intro k hk
    refine (read32_congr fun j hj => ?_).symm
    rw [hm.image_apply (n := 1) ⟨hb,by omega,by omega⟩ (by decide)]
    congr 1
    omega
  refine ⟨rfl,?_,?_,rfl,by omega,by omega⟩
  · rw [hword 8 (by omega)]
    exact hsize
  · rw [hword 4 (by omega)]
    exact hoffset

/-- The loop over the cells puts the free cells of a bin in their lists. -/
theorem InHand.addFreeCells (hv : InHand (h.setDirty v) l .stable X)
    (hb : b∈l.bins .stable) (hsub : ∀ c∈cs, c∈l.cells .stable b)
    (ht : Tiles (cellSize (h.image .stable)) o (b+h.shape.binSize .stable b) cs) (ho : b+32≤o)
    (hX : ∀ c∈cs, X c) (hf : cs.length<fuel) :
    ∃ h', addFreeCells (h.shape.binAt .stable b) fuel (o-b) h = .ok h' ∧
      Added (h.setDirty v) (h'.setDirty v) l X (· ∈ cs) := by
  induction cs generalizing h X o fuel with
  | nil =>
    obtain ⟨n,rfl⟩ := Nat.exists_eq_succ_of_ne_zero (by omega : fuel≠0)
    have hend : o=b+h.shape.binSize .stable b := ht
    refine ⟨h,?_,(Added.refl hv).iff (by simp)⟩
    rw [addFreeCells_succ (hv.binState hb),if_neg (by omega)]
  | cons x cs ih =>
    obtain ⟨n,rfl⟩ := Nat.exists_eq_succ_of_ne_zero (by omega : fuel≠0)
    obtain ⟨rfl,hpos,ht⟩ := ht
    have hm : Mapped h.shape l.bins := hv.mapped
    have hx := hsub x (by simp)
    obtain ⟨-,h8,hend⟩ := (hv.tiled .stable).bounds hb hx
    change 8≤cellSize (h.image .stable) x at h8
    change x+cellSize (h.image .stable) x≤b+h.shape.binSize .stable b at hend
    have hfit := ((hm.cover .stable).bounds hb).2.2
    have hbound := hm.bound .stable
    have hin : InBin h.shape l.bins .stable b x 4 := ⟨hb,by omega,by omega⟩
    have hnot : x∉cs := fun hmem => by
      have := (ht.bounds hmem).1
      omega
    have hnext : x-b+cellSize (h.image .stable) x=x+cellSize (h.image .stable) x-b := by
      omega
    -- the rest of the loop, from the hive in which the first cell has been looked at
    have hrest : ∀ h₁ : Hive, Added (h.setDirty v) (h₁.setDirty v) l X (· = x) →
        ∃ h', addFreeCells (h.shape.binAt .stable b) n
            (x+cellSize (h.image .stable) x-b) h₁ = .ok h' ∧
          Added (h.setDirty v) (h'.setDirty v) l X (· ∈ x::cs) := by
      intro h₁ a
      have hshape : h₁.shape=h.shape := a.effect.shape
      have ht₁ : Tiles (cellSize (h₁.image .stable)) (x+cellSize (h.image .stable) x)
          (b+h₁.shape.binSize .stable b) cs := by
        rw [hshape]
        refine ht.congr fun c hc => ?_
        exact congrArg (fun w : BitVec 32 => w.toInt.natAbs)
          (a.cells c ⟨b,hb,hsub c (by simp [hc])⟩)
      obtain ⟨h',hrun,a'⟩ := ih a.inHand (fun c hc => hsub c (by simp [hc])) ht₁ (by omega)
        (fun c hc => ⟨hX c (by simp [hc]),fun hcx => hnot (hcx ▸ hc)⟩)
        (show cs.length<n by simpa using hf)
      rw [hshape] at hrun
      refine ⟨h',hrun,(a.trans (fun c hc => ⟨b,hb,hsub c (by simp [hc])⟩) a').iff fun c => ?_⟩
      rw [List.mem_cons]
    have hload := hm.load_bin hin
    rw [addFreeCells_succ (hv.binState hb),if_pos (by omega),hload,ok_bind]
    by_cases hfree : 0<(read32 (h.image .stable) x).toInt
    · obtain ⟨h₁,hadd,a⟩ := hv.addFreeCell hb hx (hX x (by simp)) hfree
      obtain ⟨h',hrun,a'⟩ := hrest h₁ a
      rw [hm.address hin (by decide)] at hadd
      refine ⟨h',?_,a'⟩
      rw [if_pos hfree,show (b+(x-b))%2^32=x by omega,hadd,ok_bind,next_of_pos hfree (by omega)]
      exact hnext ▸ hrun
    · have hneg : (read32 (h.image .stable) x).toInt<0 := by
        rw [cellSize] at hpos
        omega
      obtain ⟨h',hrun,a'⟩ := hrest h ⟨hv.drop hfree,
        (Effect.refl _ _).mono (by simp) (by simp),fun _ _ => rfl⟩
      refine ⟨h',?_,a'⟩
      rw [if_neg hfree,next_of_neg hneg (by omega)]
      exact hnext ▸ hrun

/-- The loop over the bins. -/
theorem InHand.addFreeBins {L : List Nat} (hv : InHand (h.setDirty v) l .stable X)
    (hsub : ∀ b∈L, b∈l.bins .stable)
    (ht : Tiles (h.shape.binSize .stable) b (h.shape.extent .stable) L)
    (hX : ∀ b∈L, ∀ c∈l.cells .stable b, X c) (hf : h.shape.length .stable-b/4096<fuel) :
    ∃ h', addFreeBins fuel (b/4096) h = .ok h' ∧
      Added (h.setDirty v) (h'.setDirty v) l X (fun c => ∃ b∈L, c∈l.cells .stable b) := by
  have hext := h.shape.extent_eq .stable
  induction L generalizing h X b fuel with
  | nil =>
    obtain ⟨n,rfl⟩ := Nat.exists_eq_succ_of_ne_zero (by omega : fuel≠0)
    have hend : b=h.shape.length .stable*4096 := ht
    refine ⟨h,?_,(Added.refl hv).iff (by simp)⟩
    rw [addFreeBins,if_neg (by rw [hend,Nat.mul_div_cancel _ (by decide)]; exact lt_irrefl _)]
  | cons x L ih =>
    obtain ⟨n,rfl⟩ := Nat.exists_eq_succ_of_ne_zero (by omega : fuel≠0)
    obtain ⟨rfl,hpos,ht⟩ := ht
    have hx := hsub x (by simp)
    have hm : Mapped h.shape l.bins := hv.mapped
    have hal := hm.aligned .stable x hx
    have hend := ((hm.cover .stable).bounds hx).2.2
    have hlt : x/4096<(h.storage .stable).length :=
      show x/4096<h.shape.length .stable by omega
    have hbs := hv.binState hx
    have hcells := (hv.tiled .stable).tiles x hx
    have hlen : (l.cells .stable x).length<h.shape.binSize .stable x+1 := by
      have h1 := hcells.length_le
      have h2 : (h.setDirty v).shape.binSize .stable x=h.shape.binSize .stable x := rfl
      omega
    obtain ⟨h₁,hrun,a⟩ :=
      hv.addFreeCells hx (fun c hc => hc) hcells le_rfl (hX x (by simp)) hlen
    rw [Nat.add_sub_cancel_left] at hrun
    have hshape : h₁.shape=h.shape := a.effect.shape
    have hbs₁ := a.inHand.binState hx
    rw [hshape] at hbs₁
    obtain ⟨h',hrest,a'⟩ := ih a.inHand (fun c hc => hsub c (by simp [hc]))
      (by rw [hshape]; exact ht)
      (fun y hy c hc => ⟨hX y (by simp [hy]) c hc,fun hcx => by
        have h1 := ((hv.tiled .stable).bounds (hsub y (by simp [hy])) hc).1
        have h2 := (hv.tiled .stable).bounds hx hcx
        have h3 := (ht.bounds hy).1
        have h4 : (h.setDirty v).shape.binSize .stable x=h.shape.binSize .stable x := rfl
        omega⟩)
      (show _<n by rw [hshape]; omega) (by rw [hshape]; exact hext)
    refine ⟨h',?_,(a.trans (fun c hc => ?_) a').iff fun c => ?_⟩
    · have hbin : ((h.storage .stable).blockList (x/4096)).binAddress =
          h.shape.binAt .stable x := rfl
      have hsize : (h.heap (h.shape.binAt .stable x)).size=h.shape.binSize .stable x := rfl
      have hload := hbs₁.load (show 8+4≤_ by have := hbs.small; omega)
      rw [addFreeBins,if_pos hlt]
      dsimp only
      rw [hbin,hsize,hrun,ok_bind,hload,ok_bind,hbs₁.sizeField,
        show x/4096+h.shape.binSize .stable x/4096=(x+h.shape.binSize .stable x)/4096 by
          omega]
      exact hrest
    · obtain ⟨y,hy,hc⟩ := hc
      exact ⟨y,hsub y (by simp [hy]),hc⟩
    · simp

end Lists

def Layout.stableOnly (l : Layout) : Layout where
  bins := loadedBins (l.bins .stable)
  cells := fun s b => match s with
    | .stable => l.cells .stable b
    | .volatile => []

structure Chunk.Saved (c : Chunk) (h : Hive) : Prop where
  size : c.size=4096+h.shape.extent .stable
  image : ∀ o<h.shape.extent .stable, c.bytes (4096+o)=h.image .stable o

section Saved

variable {h h₁ : Hive} {l : Layout} {c : Chunk} {b n : Nat} {L : List Nat}

theorem Chunk.Saved.read32 (hc : c.Saved h) (ho : o+4≤h.shape.extent .stable) :
    ByteMem.read32 c.bytes (4096+o)=ByteMem.read32 (h.image .stable) o := by
  refine read32_congr fun k hk => ?_
  rw [Nat.add_assoc,hc.image (o+k) (by omega)]

theorem Chunk.Saved.binSize (hc : c.Saved h) (hv : HiveInv h l) (hb : b∈l.bins .stable) :
    c.binSize b=h.shape.binSize .stable b := by
  have hend := ((hv.mapped.cover .stable).bounds hb).2
  have hal := hv.mapped.aligned .stable b hb
  rw [Chunk.binSize,Nat.add_assoc,hc.read32 (by omega)]
  exact ((hv.tiled .stable).header b hb).2.2

theorem Chunk.Saved.goodBin (hc : c.Saved h) (hv : HiveInv h l) (hb : b∈l.bins .stable) :
    c.GoodBin (h.shape.extent .stable) b := by
  have hend := ((hv.mapped.cover .stable).bounds hb).2
  have hal := hv.mapped.aligned .stable b hb
  have hsize := hc.size
  refine ⟨?_,?_,?_,?_,?_⟩
  · rw [hc.read32 (by omega)]
    exact ((hv.tiled .stable).header b hb).1
  all_goals
    rw [hc.binSize hv hb]
    omega

theorem Chunk.bins_of_tiles {hi : Nat} (ht : Tiles c.binSize b hi L)
    (hgood : ∀ x∈L, c.GoodBin hi x) : c.Bins hi b L true := by
  induction L generalizing b with
  | nil =>
    obtain rfl : b=hi := ht
    exact .done
  | cons x L ih =>
    obtain ⟨rfl,-,ht⟩ := ht
    exact .bin x L true (hgood x (by simp)) (ih ht fun y hy => hgood y (by simp [hy]))

theorem Chunk.Saved.bins (hc : c.Saved h) (hv : HiveInv h l) :
    c.Bins (h.shape.extent .stable) 0 (l.bins .stable) true :=
  Chunk.bins_of_tiles ((hv.mapped.cover .stable).congr fun _ hb => hc.binSize hv hb)
    fun _ hb => hc.goodBin hv hb

/-- A loaded bin has the size it had. -/
theorem Loaded.binSize_eq (hL : Loaded c n b (l.bins .stable) h₁) (hc : c.Saved h)
    (hv : HiveInv h l) (hx : x∈l.bins .stable) :
    h₁.shape.binSize .stable x=h.shape.binSize .stable x := by
  obtain ⟨k,hk⟩ := List.getElem?_of_mem hx
  have hgood := (hL.good x hx).1
  have hentry := congrArg MapEntry.binAddress (hL.entry k x hk 0 (by have := hgood.pos; omega))
  have hbin : h₁.shape.binAt .stable x=k := hentry
  rw [← hc.binSize hv hx,Shape.binSize,hbin]
  exact congrArg Buffer.size (hL.heap k x hk)

/-- The loaded storage has the same bytes. -/
theorem Loaded.image_eq (hL : Loaded c (h.shape.length .stable) (h.shape.extent .stable)
    (l.bins .stable) h₁) (hc : c.Saved h) (hv : HiveInv h l) :
    h₁.image .stable=h.image .stable := by
  have hm : Mapped h₁.shape (loadedBins (l.bins .stable)) := Loaded.mapped hL
  have hext : h₁.shape.extent .stable=h.shape.extent .stable :=
    congrArg (· * 4096) hL.length
  funext o
  by_cases ho : o<h.shape.extent .stable
  · obtain ⟨x,hx⟩ := hv.mapped.exists_bin ho
    have hle := hx.le
    have hfits := hx.fits
    have hsize := hL.binSize_eq hc hv hx.mem
    obtain ⟨k,hk⟩ := List.getElem?_of_mem hx.mem
    have hgood := (hL.good x hx.mem).1
    have hentry := congrArg MapEntry.binAddress (hL.entry k x hk 0 (by have := hgood.pos; omega))
    have hbin : h₁.shape.binAt .stable x=k := hentry
    have hin : InBin h₁.shape (loadedBins (l.bins .stable)) .stable x o 1 :=
      ⟨hx.mem,hle,by rw [hsize]; exact hfits⟩
    have hlt : o-x<c.binSize x := by
      rw [hc.binSize hv hx.mem]
      omega
    rw [hm.image_apply hin (by decide),hbin,hL.heap k x hk,← hc.image o ho]
    exact (slice_of_lt _ _ hlt).trans (congrArg c.bytes (by omega))
  · rw [Hive.image,Hive.image,if_neg (by rw [hext]; exact ho),if_neg ho]

def loadedDirty (n : Nat) : Bitmap :=
  rtlClearAllBits (rtlInitializeBitMap (fun _ => 0) (BitVec.ofNat 32 (roundUp n 32/8*8)))

theorem dirtyOk_setDirty (hn : (h.storage .stable).length=n) (hsmall : n<2^19) :
    DirtyOk (h.setDirty (loadedDirty n)) := by
  have hround : roundUp n 32/8*8=(n+31)/32*32 := by
    have hmod : (n+32-1)%2^32=n+31 := by omega
    rw [roundUp]
    omega
  have hbits : (loadedDirty n).sizeOfBitMap.toNat=(n+31)/32*32 := by
    have hsize : (loadedDirty n).sizeOfBitMap=BitVec.ofNat 32 (roundUp n 32/8*8) := rfl
    rw [hsize,BitVec.toNat_ofNat]
    omega
  refine ⟨?_,?_,?_,fun i _ => ?_⟩
  · exact (congrArg (· % 32) hbits).trans (Nat.mul_mod_left _ _)
  · refine le_of_eq_of_le hn (le_of_le_of_eq ?_ hbits.symm)
    omega
  · refine le_of_eq_of_le hbits ?_
    omega
  · rw [← Bool.not_eq_true]
    intro hbit
    have := bit_of_rtlClearAllBits hbit
    simp [rtlInitializeBitMap,Bitmap.bit,wordsBit] at this

/-- After the bins are loaded all cells are in hand. -/
theorem Loaded.inHand (hL : Loaded c (h.shape.length .stable) (h.shape.extent .stable)
    (l.bins .stable) h₁) (hc : c.Saved h) (hv : HiveInv h l) :
    InHand (h₁.clearFreeDisplay.setDirty (loadedDirty (h.shape.length .stable))) l.stableOnly
      .stable (fun _ => True) := by
  have himg := hL.image_eq hc hv
  have hbound := hv.mapped.bound .stable
  have hext := h.shape.extent_eq .stable
  have ht := hv.tiled .stable
  have hm : Mapped h₁.shape (loadedBins (l.bins .stable)) := Loaded.mapped hL
  refine ⟨hm,fun t => ?_,fun t i hi => ⟨[],rfl,List.nodup_nil,fun x => ?_⟩,
    dirtyOk_setDirty hL.length (by omega)⟩
  · cases t with
    | volatile =>
      refine ⟨fun b hb => ?_,fun b hb => ?_,fun x hx => ?_⟩
      · cases hb
      · cases hb
      · obtain ⟨b,hb,-⟩ := hx
        cases hb
    | stable =>
      have himg' : (h₁.clearFreeDisplay.setDirty (loadedDirty (h.shape.length .stable))).image
        .stable =
          h.image .stable := himg
      refine ⟨fun b hb => ?_,fun b hb => ?_,fun x hx => ?_⟩
      · have hsize := hL.binSize_eq hc hv hb
        have := ht.header b hb
        rw [← hsize] at this
        rw [himg']
        exact this
      · have hsize := hL.binSize_eq hc hv hb
        have := ht.tiles b hb
        rw [← hsize] at this
        rw [himg']
        exact this
      · rw [himg']
        exact ht.room x hx
  · refine ⟨fun hx => absurd hx List.not_mem_nil,?_⟩
    rintro ⟨⟨⟨b,hb,-⟩,-⟩,hx⟩
    cases t with
    | stable => exact absurd ⟨rfl,trivial⟩ hx
    | volatile => cases hb

/-- The Stable storage of `h'` is that of `h`: the same blocks and bins, the same cells with
the same sizes and states, the same bodies of the allocated cells and the same free cells in
the free lists. -/
structure Restored (h : Hive) (l : Layout) (h' : Hive) : Prop where
  inv : HiveInv h' l.stableOnly
  length : (h'.storage .stable).length=(h.storage .stable).length
  binSize : ∀ b∈l.bins .stable, h'.shape.binSize .stable b=h.shape.binSize .stable b
  header : ∀ x, l.isCell .stable x → read32 (h'.image .stable) x=read32 (h.image .stable) x
  body : ∀ x, Allocated h l .stable x → ∀ k<cellSize (h.image .stable) x,
    h'.image .stable (x+k)=h.image .stable (x+k)
  lists : h'.freeLists .stable (FreeCell h l .stable)

theorem Loaded.restored (hL : Loaded c (h.shape.length .stable) (h.shape.extent .stable)
    (l.bins .stable) h₁) (hc : c.Saved h) (hv : HiveInv h l) :
    ∃ h₂, h₁.hvpCreateHiveFreeCellList = .ok h₂ ∧ Restored h l h₂.initDirtyVector := by
  have himg := hL.image_eq hc hv
  have hlen : (h₁.storage .stable).length=h.shape.length .stable := hL.length
  have hI := hL.inHand hc hv
  have hm : Mapped h₁.shape (loadedBins (l.bins .stable)) := Loaded.mapped hL
  have hfuel : h₁.shape.length .stable-0/4096<(h₁.storage .stable).length+1 :=
    Nat.lt_succ_of_le (Nat.sub_le _ _)
  obtain ⟨h₂,hrun,a⟩ := hI.addFreeBins (fun b hb => hb) (hm.cover .stable)
    (fun _ _ _ _ => trivial) hfuel
  have hlen₂ : (h₂.storage .stable).length=h.shape.length .stable :=
    (congrArg (fun g => g.length .stable) a.effect.shape).trans hlen
  have hinit : h₂.initDirtyVector=h₂.setDirty (loadedDirty (h.shape.length .stable)) := by
    rw [← hlen₂]
    rfl
  -- every cell has been looked at
  have hall : ∀ t i x, (FreeCell (h₂.setDirty (loadedDirty (h.shape.length .stable))) l.stableOnly
    t i x ∧
      ¬(t = .stable ∧ True ∧ ¬∃ b∈l.bins .stable, x∈l.stableOnly.cells .stable b)) ↔
      FreeCell (h₂.setDirty (loadedDirty (h.shape.length .stable))) l.stableOnly t i x := by
    intro t i x
    refine and_iff_left_of_imp fun hx hnot => ?_
    obtain ⟨rfl,-,hnot⟩ := hnot
    obtain ⟨b,hb,hxb⟩ := hx.1
    exact hnot ⟨b,hb,hxb⟩
  have hinv : HiveInv (h₂.setDirty (loadedDirty (h.shape.length .stable))) l.stableOnly :=
    ⟨a.inHand.mapped,a.inHand.tiled,fun t => (a.inHand.lists t).iff (hall t),a.inHand.dirty⟩
  have hheader : ∀ x, l.isCell .stable x →
      read32 (h₂.image .stable) x=read32 (h.image .stable) x := by
    intro x hx
    rw [← himg]
    exact a.cells x hx
  refine ⟨h₂,hrun,?_⟩
  rw [hinit]
  refine ⟨hinv,hlen₂,fun b hb => ?_,hheader,fun x hx k hk => ?_,
    (hinv.lists .stable).iff fun i x => ?_⟩
  · rw [← hL.binSize_eq hc hv hb]
    exact congrArg (fun g => g.binSize .stable b) a.effect.shape
  · rw [← himg]
    refine a.effect.image (x+k) ?_
    rintro ⟨y,⟨b,hb,hyb⟩,hpos,hle,hlt⟩
    have hpos' : 0<(read32 (h.image .stable) y).toInt := by
      rw [← himg]
      exact hpos
    have hne : x≠y := by
      rintro rfl
      have := hx.2
      omega
    have hy : l.isCell .stable y := ⟨b,hb,hyb⟩
    have h8 := (hv.tiled .stable).room y hy
    have := (hv.tiled .stable).disjoint hv.mapped hx.1 hy hne
    omega
  · constructor
    · rintro ⟨hx,hrest⟩
      have := hheader x hx
      exact ⟨hx,this ▸ hrest⟩
    · rintro ⟨hx,hrest⟩
      have := (hheader x hx).symm
      exact ⟨hx,this ▸ hrest⟩

end Saved

section RoundTrip

variable {h h' : Hive} {l : Layout} {c : Chunk}

theorem getField_endHeader {b : Mem} {f : Field} (hf : f ≠ .type) (h1 : f ≠ .sequence1)
    (h2 : f ≠ .sequence2) (h3 : f ≠ .checkSum) :
    getField (endHeader (beginHeader b)) f=getField b f := by
  rw [endHeader,updateCheckSum,getField_setField_of_ne (Ne.symm h3),
    getField_setField_of_ne (Ne.symm h2),beginHeader,updateCheckSum,
    getField_setField_of_ne (Ne.symm h3),getField_setField_of_ne (Ne.symm h1),
    getField_setField_of_ne (Ne.symm hf)]

theorem headerFormat_stamp (h : Hive) (time : BitVec 64) :
    headerFormat (h.stamp time).baseBlock=headerFormat h.baseBlock := by
  simp only [headerFormat,getField_stamp (f := .signature) (by decide) (by decide),
    getField_stamp (f := .major) (by decide) (by decide),
    getField_stamp (f := .minor) (by decide) (by decide),
    getField_stamp (f := .format) (by decide) (by decide),
    getField_stamp (f := .cluster) (by decide) (by decide)]

/-- The chunk holds the file `f` with its length stored in the header, as `HvLoadHive` and
`CmpInitializeSystemHive` do. -/
structure Chunk.Patched (c : Chunk) (f : Mem) : Prop where
  bytes : ∀ o<c.size, c.bytes o=setField f .length (BitVec.ofNat 32 c.size) o

theorem Chunk.Patched.claimed {f : Mem} (hc : c.Patched f) (hsize : 44≤c.size) :
    c.claimed=c.size := by
  have hword : getField c.bytes .length=BitVec.ofNat 32 c.size := by
    rw [← getField_setField (f := .length) (v := BitVec.ofNat 32 c.size)]
    refine read32_congr fun k hk => hc.bytes _ ?_
    simp only [Field.index]
    omega
  have hsmall := c.small
  rw [Chunk.claimed,hword,BitVec.toNat_ofNat]
  omega

/-- When the loader has put the length back, the header is the one that was written. -/
theorem Chunk.Patched.header {f b : Mem} (hc : c.Patched f) (hsize : 4096≤c.size)
    (hf : ∀ o<4096, f o=b o) (hlen : getField b .length=4096) (ho : o<4096) :
    (c.setLength 4096).bytes o=b o := by
  have hset : setField b .length 4096=b := by
    rw [← hlen]
    exact write32_read32 b _
  have h1 : (c.setLength 4096).bytes o=setField (setField f .length (BitVec.ofNat 32 c.size))
      .length 4096 o := write32_congr _ _ (hc.bytes o (by omega))
  have h2 : setField (setField f .length (BitVec.ofNat 32 c.size)) .length 4096 o =
      setField f .length 4096 o := congrFun (write32_write32 _ _ _ _) o
  have h3 : setField f .length 4096 o=setField b .length 4096 o := write32_congr _ _ (hf o ho)
  rw [h1,h2,h3,hset]

theorem Chunk.Patched.storage {f : Mem} (hc : c.Patched f) (ho : 4096+o<c.size) :
    (c.setLength 4096).bytes (4096+o)=f (4096+o) := by
  have hout : ∀ (m : Mem) v, setField m .length v (4096+o)=m (4096+o) := fun m v =>
    write32_of_lt _ _ (.inr (by simp only [Field.index]; omega))
  exact (hout _ _).trans ((hc.bytes _ ho).trans (hout _ _))

/-- The file that `HvWriteHive` leaves has a valid header and the image of the storage. -/
theorem hvWriteHive_file {time : BitVec 64} {results : Nat → Bool} {ws : List Write}
    (hv : HiveInv h l) (hrun : h.hvWriteHive time results = .ok (true, h', ws)) (file : Mem) :
    hvpVerifyHiveHeader (endHeader (beginHeader (h.stamp time).baseBlock)) =
        headerFormat h.baseBlock ∧
      (∀ o<4096, applyAll ws file o =
        endHeader (beginHeader (h.stamp time).baseBlock) o) ∧
      ∀ o<h.shape.extent .stable, applyAll ws file (4096+o)=h.image .stable o := by
  have hv' : HiveInv (h.stamp time) l := hv.setBaseBlock _
  rw [hvWriteHive] at hrun
  obtain ⟨-,hrun'⟩ | ⟨hseq,r,b,vs,hrun',hw⟩ :=
    hvpWriteHive_spec hv'.mapped hv'.dirty false results
  · rw [hrun'] at hrun
    cases hrun
  · obtain ⟨rfl,-,rfl⟩ : r=true ∧ (h.stamp time).setBaseBlock b=h' ∧ vs=ws := by
      simpa [hrun'] using hrun
    obtain ⟨hheader,hblocks⟩ := applyAll_hiveWrites (h.stamp time) false file
    rw [(hw.full rfl).1]
    refine ⟨?_,hheader,fun o ho => ?_⟩
    · rw [hvpVerifyHiveHeader_endHeader hseq,headerFormat_stamp]
    · have hext := h.shape.extent_eq .stable
      have hlt : o/4096<h.shape.length .stable := by omega
      rw [hblocks,if_pos ⟨hlt,.inl rfl⟩]
      rfl

/-- A hive that has been written, with its length stored in the header, is loaded with the
same Stable storage. -/
theorem hive_round_trip (hv : HiveInv h l) (hfmt : headerFormat h.baseBlock=true)
    (hlen : getField h.baseBlock .length=4096) {time : BitVec 64} {results : Nat → Bool}
    {ws : List Write} (hrun : h.hvWriteHive time results = .ok (true, h', ws)) (file : Mem)
    (hsize : c.size=4096+h.shape.extent .stable) (hc : c.Patched (applyAll ws file)) :
    ∃ h'', hvpInitializeMemoryHive c (fun _ => true) = .ok (.success, h'') ∧ Restored h l h'' := by
  obtain ⟨hverify,hheader,hblocks⟩ := hvWriteHive_file hv hrun file
  have hext := h.shape.extent_eq .stable
  have hlen' : getField (endHeader (beginHeader (h.stamp time).baseBlock)) .length=4096 := by
    rw [getField_endHeader (by decide) (by decide) (by decide) (by decide),
      getField_stamp (by decide) (by decide),hlen]
  have hclaimed : (getField c.bytes .length).toNat=c.size := hc.claimed (by omega)
  have hvalid : hvpVerifyHiveHeader (c.setLength 4096).bytes=true := by
    rw [← hfmt,← hverify]
    exact hvpVerifyHiveHeader_congr fun o ho => hc.header (by omega) hheader hlen' ho
  have hsaved : (c.setLength 4096).Saved h := by
    refine ⟨hsize,fun o ho => ?_⟩
    rw [hc.storage (by omega),hblocks o ho]
  have hfits : (c.setLength 4096).HeaderFits := by
    have : 4096≤(c.setLength 4096).size := hsize ▸ Nat.le_add_right _ _
    exact ⟨fun _ => by omega,fun _ _ => by omega⟩
  have h44 : 44≤(c.setLength 4096).size := by
    have : (c.setLength 4096).size=c.size := rfl
    omega
  obtain ⟨st,h₁,hload,hok,hall⟩ := loadBins_of_bins (hext ▸ hsaved.bins hv)
    (Nat.zero_mul _).symm (loaded_startHive (c.setLength 4096) (h.shape.length .stable))
    (show h.shape.length .stable-0<h.shape.length .stable+1 by omega) fun _ => true
  obtain rfl := hall (fun _ => rfl) rfl
  obtain ⟨h₂,hfree,hres⟩ := Loaded.restored (hok rfl).2 hsaved hv
  refine ⟨h₂.initDirtyVector,?_,hres⟩
  have hblocks : c.size/4096-1=h.shape.length .stable := by omega
  rw [hvpInitializeMemoryHive_eq,Chunk.load_field (by simp only [Field.index]; omega),
    ok_bind,hclaimed,if_neg (by omega),Chunk.hvpVerifyHiveHeader_of_fits h44 hfits,
    ok_bind,hvalid,if_neg (by simp),if_neg (by simp),if_neg (by omega),Chunk.loadStorage,hblocks,
      hload,ok_bind]
  dsimp only
  rw [hfree,if_neg (by simp)]
  rfl

end RoundTrip

def oneBin : HiveM Hive := do
  let (_, h) ← hvpCreateHive.hvAllocateCell .succeed 100 .stable
  return h

theorem hive_round_trip_oneBin :
    ∃ (h h' : Hive) (l : Layout) (ws : List Write) (c : Chunk) (h'' : Hive), oneBin = .ok h ∧
      HiveInv h l ∧ h.hvWriteHive 0 (fun _ => true) = .ok (true, h', ws) ∧
      c.Patched (applyAll ws fun _ => 0) ∧
      hvpInitializeMemoryHive c (fun _ => true) = .ok (.success, h'') ∧ Restored h l h'' := by
  obtain ⟨h,hone,hp⟩ := exists_of_holds (x := oneBin)
    (p := fun h : Hive => decide (headerFormat h.baseBlock=true ∧
      getField h.baseBlock .length=4096 ∧ h.shape.extent .stable=4096 ∧
      getField (h.stamp 0).baseBlock .sequence1=getField (h.stamp 0).baseBlock .sequence2))
    (by decide +kernel)
  obtain ⟨hfmt,hlen,hext,hseq⟩ := of_decide_eq_true hp
  obtain ⟨⟨i,h₀⟩,halloc,hret⟩ := bind_eq_ok hone
  obtain rfl : h₀=h := Except.ok.inj hret
  have hroom : HasRoom hvpCreateHive .stable 100 := by decide
  obtain ⟨h₁,l,halloc',hO⟩ := hvpCreateHive_allocate hroom
  obtain ⟨-,rfl⟩ := Prod.mk.inj (Except.ok.inj (halloc.symm.trans halloc'))
  have hv := hO.inv
  have hv' : HiveInv (h₀.stamp 0) l := hv.setBaseBlock _
  obtain ⟨hne,-⟩ | ⟨-,r,b,ws,hrun,hw⟩ :=
    hvpWriteHive_spec hv'.mapped hv'.dirty false fun _ => true
  · exact absurd hseq hne
  obtain rfl := hw.result.mpr fun _ _ => rfl
  let c : Chunk := ⟨8192,setField (applyAll ws fun _ => 0) .length (BitVec.ofNat 32 8192),by decide⟩
  have hc : c.Patched (applyAll ws fun _ => 0) := ⟨fun _ _ => rfl⟩
  obtain ⟨h'',hload,hres⟩ := hive_round_trip hv hfmt hlen hrun _
    (by rw [hext]) hc
  exact ⟨h₀,_,l,ws,c,h'',hone,hv,hrun,hc,hload,hres⟩

/-- Without the length stored in the header, the written file is loaded as an empty hive. -/
theorem hive_round_trip_unpatched :
    ∃ (h h' h'' : Hive) (ws : List Write) (c : Chunk), oneBin = .ok h ∧
      h.hvWriteHive 0 (fun _ => true) = .ok (true, h', ws) ∧ c.size=8192 ∧
      c.bytes=applyAll ws (fun _ => 0) ∧
      hvpInitializeMemoryHive c (fun _ => true) = .ok (.success, h'') ∧
      (h.storage .stable).length=1 ∧ (h''.storage .stable).length=0 := by
  obtain ⟨⟨h,⟨r,h',ws⟩,st,h''⟩,hx,hp⟩ := exists_of_holds
    (x := do
      let h ← oneBin
      let r ← h.hvWriteHive 0 fun _ => true
      let r' ← hvpInitializeMemoryHive ⟨8192,applyAll r.2.2 fun _ => 0,by decide⟩ fun _ => true
      return (h, r, r'))
    (p := fun x : Hive × (Bool × Hive × List Write) × Status × Hive => decide (x.2.1.1=true ∧
      x.2.2.1 = .success ∧ (x.1.storage .stable).length=1 ∧
      (x.2.2.2.storage .stable).length=0))
    (by decide +kernel)
  obtain ⟨rfl,rfl,hlen,hlen'⟩ : r=true ∧ st = .success ∧ (h.storage .stable).length=1 ∧
    (h''.storage .stable).length=0 := of_decide_eq_true hp
  obtain ⟨h₀,hone,hx⟩ := bind_eq_ok hx
  obtain ⟨r₀,hwrite,hx⟩ := bind_eq_ok hx
  obtain ⟨r₁,hload,hx⟩ := bind_eq_ok hx
  obtain ⟨rfl,hpair⟩ := Prod.mk.inj (Except.ok.inj hx)
  obtain ⟨rfl,rfl⟩ := Prod.mk.inj hpair
  exact ⟨h₀,h',h'',ws,_,hone,hwrite,rfl,rfl,hload,hlen,hlen'⟩

end Odyssey.Cm
