import Odyssey.Cm.HiveInit

/-! When loading a hive from an untrusted chunk is safe. -/
namespace Odyssey.Cm
open ByteMem Tiling Rtl Function List HiveM Nat

variable {v : BitVec 32} {c : Chunk}

section Header

variable {p : BitVec 32 → Bool} {f : Field} {next : HiveM Bool}

theorem Chunk.load_of_le {o : Nat} (h : o+4≤c.size) : c.load o = .ok (read32 c.bytes o) :=
  if_pos h

theorem Chunk.load_field (h : 4*f.index+4≤c.size) : c.load (4*f.index) = .ok (getField c.bytes f) :=
  if_pos h

theorem Chunk.load_eq_ok {o : Nat} (h : c.load o = .ok v) : o+4≤c.size ∧ v=read32 c.bytes o := by
  unfold Chunk.load at h
  by_cases hle : o+4≤c.size
  · rw [if_pos hle] at h
    exact ⟨hle,(Except.ok.inj h).symm⟩
  · rw [if_neg hle] at h
    cases h

def startFormat (b : Mem) : Bool :=
  getField b .signature=hvSignature && getField b .major=1 && !(getField b .minor<3) &&
    getField b .type=0 && getField b .format=1

def restFormat (b : Mem) : Bool :=
  getField b .cluster=1 && getField b .sequence1=getField b .sequence2

/-- The header has room for the fields that are tested, in the order of the tests. -/
structure Chunk.HeaderFits (c : Chunk) : Prop where
  cluster : startFormat c.bytes → 48≤c.size
  checkSum : startFormat c.bytes → restFormat c.bytes → 512≤c.size

theorem Chunk.check_of_le
    (h : 4*f.index+4≤c.size) :
    c.check f p next=if p (getField c.bytes f) then next else .ok false := by
  rw [check,load_of_le h]
  rfl

theorem Chunk.check_eq_ok {v : Bool} (h : c.check f p next = .ok v) : 4*f.index+4≤c.size := by
  obtain ⟨w,hw,-⟩ := bind_eq_ok h
  exact (load_eq_ok hw).1

def Chunk.verifyRest (c : Chunk) : HiveM Bool :=
  c.check .cluster (· = 1) <| do
    let sequence1 ← c.load (4*Field.sequence1.index)
    let sequence2 ← c.load (4*Field.sequence2.index)
    if sequence1≠sequence2 then return false
    else do
      let sum ← c.hvpHiveHeaderChecksum
      let checkSum ← c.load (4*Field.checkSum.index)
      return sum=checkSum

theorem Chunk.hvpVerifyHiveHeader_eq (h44 : 44≤c.size) :
    c.hvpVerifyHiveHeader=if startFormat c.bytes then c.verifyRest else .ok false := by
  rw [hvpVerifyHiveHeader,check_of_le (by simp only [Field.index]; omega),
    check_of_le (by simp only [Field.index]; omega),check_of_le (by simp only [Field.index]; omega),
    check_of_le (by simp only [Field.index]; omega),check_of_le (by simp only [Field.index]; omega)]
  simp only [startFormat,Bool.and_eq_true,decide_eq_true_eq]
  split_ifs <;> simp_all [verifyRest]

theorem hvpVerifyHiveHeader_split (b : Mem) :
    hvpVerifyHiveHeader b=(startFormat b && restFormat b &&
      decide (hvpHiveHeaderChecksum b=getField b .checkSum)) := by
  rw [Bool.eq_iff_iff]
  simp only [hvpVerifyHiveHeader,startFormat,restFormat,Bool.not_eq_true',Bool.or_eq_false_iff,
    bne_eq_false_iff_eq,Bool.and_eq_true,decide_eq_true_eq,decide_eq_false_iff_not]
  tauto

theorem Chunk.verifyRest_of_fits (h48 : 48≤c.size) (h512 : restFormat c.bytes → 512≤c.size) :
    c.verifyRest = .ok (restFormat c.bytes &&
      decide (Cm.hvpHiveHeaderChecksum c.bytes=getField c.bytes .checkSum)) := by
  rw [verifyRest,check_of_le (by simp only [Field.index]; omega),
    load_field (by simp only [Field.index]; omega),ok_bind,
    load_field (by simp only [Field.index]; omega),ok_bind]
  by_cases hcl : getField c.bytes .cluster=1
  · by_cases hseq : getField c.bytes .sequence1=getField c.bytes .sequence2
    · have hsize := h512 (by simp [restFormat,hcl,hseq])
      rw [if_pos (by simpa using hcl),if_neg (not_not.mpr hseq),hvpHiveHeaderChecksum,
        if_pos (by omega),load_field (by simp only [Field.index]; omega)]
      simp only [restFormat,hcl,hseq,decide_true,Bool.and_true,Bool.true_and]
      rfl
    · rw [if_pos (by simpa using hcl),if_pos hseq,restFormat,decide_eq_false hseq,Bool.and_false]
      rfl
  · rw [restFormat,decide_eq_false hcl]
    rfl

theorem Chunk.fits_of_verifyRest {v : Bool} (h : c.verifyRest = .ok v) :
    48≤c.size ∧ (restFormat c.bytes → 512≤c.size) := by
  have h48 : 48≤c.size := check_eq_ok h
  refine ⟨h48,fun hrest => ?_⟩
  simp only [restFormat,Bool.and_eq_true,decide_eq_true_eq] at hrest
  rw [verifyRest,check_of_le (by simp only [Field.index]; omega),
    load_field (by simp only [Field.index]; omega),ok_bind,
    load_field (by simp only [Field.index]; omega),ok_bind,
    if_pos (by simpa using hrest.1),if_neg (not_not.mpr hrest.2)] at h
  obtain ⟨sum,-,h⟩ := bind_eq_ok h
  obtain ⟨w,hw,-⟩ := bind_eq_ok h
  exact (load_eq_ok hw).1

/-- On a chunk with room for the fields that are tested, the tests are those of the header. -/
theorem Chunk.hvpVerifyHiveHeader_of_fits (h44 : 44≤c.size) (hfit : c.HeaderFits) :
    c.hvpVerifyHiveHeader = .ok (Cm.hvpVerifyHiveHeader c.bytes) := by
  rw [hvpVerifyHiveHeader_eq h44,hvpVerifyHiveHeader_split]
  by_cases hs : startFormat c.bytes=true
  · rw [if_pos hs,verifyRest_of_fits (hfit.cluster hs) (hfit.checkSum hs),hs,Bool.true_and]
  · rw [Bool.eq_false_of_not_eq_true hs]
    rfl

theorem Chunk.fits_of_hvpVerifyHiveHeader (h44 : 44≤c.size) {v : Bool}
    (h : c.hvpVerifyHiveHeader = .ok v) : c.HeaderFits := by
  rw [hvpVerifyHiveHeader_eq h44] at h
  by_cases hs : startFormat c.bytes=true
  · rw [if_pos hs] at h
    obtain ⟨h48,h512⟩ := fits_of_verifyRest h
    exact ⟨fun _ => h48,fun _ => h512⟩
  · exact ⟨fun h => absurd h hs,fun h => absurd h hs⟩

end Header

/-- `Bin->Size` and `Bin->FileOffset` of the bin at offset `b` behind the header. -/
def Chunk.binSize (c : Chunk) (b : Nat) : Nat := (read32 c.bytes (4096+b+8)).toNat

def Chunk.binOffset (c : Chunk) (b : Nat) : Nat := (read32 c.bytes (4096+b+4)).toNat

structure Chunk.GoodBin (c : Chunk) (hi b : Nat) : Prop where
  signature : read32 c.bytes (4096+b)=hvBinSignature
  blocks : c.binSize b%4096=0
  pos : 0<c.binSize b
  inside : 4096+b+c.binSize b≤c.size
  fits : b+c.binSize b≤hi

def Chunk.BadBin (c : Chunk) (b : Nat) : Prop :=
  4096+b+4≤c.size ∧ (read32 c.bytes (4096+b)≠hvBinSignature ∨
    4096+b+12≤c.size ∧ c.binSize b%4096≠0)

inductive Chunk.Bins (c : Chunk) (hi : Nat) : Nat → List Nat → Bool → Prop where
  | done : Bins c hi hi [] true
  | bad (b : Nat) (hlt : b<hi) (hbad : c.BadBin b) : Bins c hi b [] false
  | bin (b : Nat) (L : List Nat) (r : Bool) (hgood : c.GoodBin hi b)
      (rest : Bins c hi (b+c.binSize b) L r) : Bins c hi b (b::L) r

section Blocks

variable {h h' : Hive} {blockIndex newBin : Nat} {count i : Nat}

def Hive.withBlocks (h : Hive) (blockIndex newBin lo hi : Nat) : Hive :=
  h.setStorage .stable { h.storage .stable with
    blockList := fun j => if lo≤j ∧ j<hi then ⟨⟨newBin,(j-blockIndex)*4096⟩,newBin⟩
      else (h.storage .stable).blockList j }

theorem setBlock_eq (hlt : blockIndex<(h.storage .stable).length) (newBin i : Nat)
    (hi : i≤blockIndex) :
    h.setBlock blockIndex ⟨⟨newBin,(blockIndex-i)*4096⟩,newBin⟩ =
      .ok (h.withBlocks i newBin blockIndex (blockIndex+1)) := by
  rw [Hive.setBlock,if_pos hlt]
  congr 2
  simp only [Dual.mk.injEq,true_and,and_true]
  funext j
  by_cases hj : j=blockIndex
  · subst hj
    simp
  · rw [update_of_ne hj,if_neg (by omega)]

theorem withBlocks_withBlocks {lo mid hi : Nat} (h1 : lo≤ mid) (h2 : mid≤hi) :
    (h.withBlocks blockIndex newBin lo mid).withBlocks blockIndex newBin mid hi =
      h.withBlocks blockIndex newBin lo hi := by
  simp only [Hive.withBlocks,Hive.setStorage,update_self,update_idem]
  congr 2
  simp only [Dual.mk.injEq,true_and,and_true]
  funext j
  by_cases hj : mid≤j ∧ j<hi
  · rw [if_pos hj,if_pos (by omega)]
  · rw [if_neg hj]
    by_cases hj' : lo≤j ∧ j< mid
    · rw [if_pos hj',if_pos (by omega)]
    · rw [if_neg hj',if_neg (by omega)]

theorem withBlocks_empty {lo : Nat} : h.withBlocks blockIndex newBin lo lo=h := by
  have : ∀ j, ¬(lo≤j ∧ j<lo) := fun j => by omega
  simp [Hive.withBlocks,Hive.setStorage,this]

theorem length_withBlocks (lo hi : Nat) :
    ((h.withBlocks blockIndex newBin lo hi).storage .stable).length =
      (h.storage .stable).length := by
  simp [Hive.withBlocks,Hive.setStorage]

theorem setBlocks_eq (hle : blockIndex+i+count≤(h.storage .stable).length) :
    h.setBlocks blockIndex newBin count i =
      .ok (h.withBlocks blockIndex newBin (blockIndex+i) (blockIndex+i+count)) := by
  induction count generalizing h i with
  | zero => rw [Hive.setBlocks,add_zero,withBlocks_empty]
  | succ count ih =>
    have hset := setBlock_eq (show blockIndex+i<(h.storage .stable).length by omega)
      newBin blockIndex (Nat.le_add_right _ _)
    rw [Nat.add_sub_cancel_left] at hset
    rw [Hive.setBlocks,hset,ok_bind,ih (by rw [length_withBlocks]; omega),
      show blockIndex+(i+1)=blockIndex+i+1 by omega,
      withBlocks_withBlocks (by omega) (by omega)]
    congr 2
    omega

theorem le_of_setBlocks (hrun : h.setBlocks blockIndex newBin count i = .ok h') :
    count=0 ∨ blockIndex+i+count≤(h.storage .stable).length := by
  induction count generalizing h i with
  | zero => exact .inl rfl
  | succ count ih =>
    refine .inr ?_
    obtain ⟨h₁,hset,hrun⟩ := bind_eq_ok hrun
    have hlt : blockIndex+i<(h.storage .stable).length := by
      by_contra hge
      rw [Hive.setBlock,if_neg hge] at hset
      cases hset
    have hset' := setBlock_eq hlt newBin blockIndex (Nat.le_add_right _ _)
    rw [Nat.add_sub_cancel_left,hset] at hset'
    obtain rfl := Except.ok.inj hset'
    have := ih hrun
    rw [length_withBlocks] at this
    omega

end Blocks

section Bins

variable {alloc : Nat → Bool} {h h' : Hive} {n i : Nat}

def Hive.loadBin (h : Hive) (c : Chunk) (i : Nat) : Hive :=
  (h.newBuffer (c.binSize (i*4096))
    (slice c.bytes (4096+i*4096) (c.binSize (i*4096)))).withBlocks i h.nextBuffer i
    (i+c.binSize (i*4096)/4096)

theorem length_loadBin : ((h.loadBin c i).storage .stable).length=(h.storage .stable).length := by
  rfl

/-- The bytes of a new buffer can be stored after the entries of its bin. -/
theorem setBytes_withBlocks_newBuffer (size : Nat) (m m' : Mem) (lo hi : Nat) :
    ((h.newBuffer size m).withBlocks i h.nextBuffer lo hi).setBytes h.nextBuffer m' =
      (h.newBuffer size m').withBlocks i h.nextBuffer lo hi := by
  simp [Hive.withBlocks,Hive.setStorage,Hive.newBuffer,Hive.setBytes]

/-- The stores of one turn. -/
theorem storeBin_eq (hpos : 0<c.binSize (i*4096)/4096)
    (hinside : 4096+i*4096+c.binSize (i*4096)≤c.size)
    (hfits : i+c.binSize (i*4096)/4096≤(h.storage .stable).length) :
    h.storeBin c i (c.binSize (i*4096)) = .ok (h.loadBin c i) := by
  unfold Hive.storeBin
  generalize hsize : c.binSize (i*4096)=size at *
  have hset := setBlock_eq (h := h.newBuffer size fun _ => 0)
    (show i<_ by exact lt_of_lt_of_le (Nat.lt_add_of_pos_right hpos) hfits) h.nextBuffer i le_rfl
  rw [Nat.sub_self] at hset
  have hbuf : size≤(((h.newBuffer size fun _ => 0).withBlocks i h.nextBuffer i (i+1)).heap
      h.nextBuffer).size := by
    simp [Hive.withBlocks,Hive.setStorage,Hive.newBuffer]
  have hlen : ((h.newBuffer size (slice c.bytes ((i+1)*4096) size)).storage .stable).length =
      (h.storage .stable).length := rfl
  dsimp only
  rw [hset,ok_bind,Hive.copyChunk,if_pos ⟨by omega,hbuf⟩,ok_bind,
    setBytes_withBlocks_newBuffer,setBlocks_eq (by rw [length_withBlocks]; omega),
    withBlocks_withBlocks (by omega) (by omega),Hive.loadBin,hsize,
    show i+1+(size/4096-1)=i+size/4096 by omega,
    show (i+1)*4096=4096+i*4096 by omega]

theorem storeBin_eq_ok {size : Nat} (hrun : h.storeBin c i size = .ok h') :
    (h'.storage .stable).length=(h.storage .stable).length ∧
      i<(h.storage .stable).length ∧ 4096+i*4096+size≤c.size ∧
      i+size/4096≤(h.storage .stable).length := by
  obtain ⟨h₁,hset,hrest⟩ := bind_eq_ok hrun
  obtain ⟨h₂,hcopy,hblocks⟩ := bind_eq_ok hrest
  have hlt : i<(h.storage .stable).length := by
    by_contra hge
    have hge' : ¬i<((h.newBuffer size fun _ => 0).storage .stable).length := hge
    rw [Hive.setBlock,if_neg hge'] at hset
    cases hset
  have hset' := setBlock_eq (h := h.newBuffer size fun _ => 0) hlt h.nextBuffer i le_rfl
  rw [Nat.sub_self,hset] at hset'
  obtain rfl := Except.ok.inj hset'
  have hin : (i+1)*4096+size≤c.size := by
    by_contra hge
    rw [Hive.copyChunk,if_neg fun hle => hge hle.1] at hcopy
    cases hcopy
  have hlen₂ : (h₂.storage .stable).length=(h.storage .stable).length := by
    unfold Hive.copyChunk at hcopy
    split_ifs at hcopy
    obtain rfl := Except.ok.inj hcopy
    exact length_withBlocks i (i+1)
  have hle := le_of_setBlocks hblocks
  rw [hlen₂] at hle
  refine ⟨?_,hlt,by omega,by omega⟩
  rw [← hlen₂]
  obtain hzero | hle := hle
  · rw [hzero] at hblocks
    obtain rfl := Except.ok.inj hblocks
    rfl
  · rw [setBlocks_eq (by rw [hlen₂]; exact hle)] at hblocks
    obtain rfl := Except.ok.inj hblocks
    exact length_withBlocks _ _

variable {fuel : Nat} {st : Status}

/-- What a turn of the loop over the bins can do. -/
theorem loadBins_succ (hi : i<(h.storage .stable).length)
    (hrun : Hive.loadBins c alloc (fuel+1) i h = .ok (st, h')) :
    c.BadBin (i*4096) ∧ st = .registryCorrupt ∨ alloc (2+h.nextBuffer)=false ∧ st = .noMemory ∨
      read32 c.bytes (4096+i*4096)=hvBinSignature ∧ c.binSize (i*4096)%4096=0 ∧
        ∃ h₁, h.storeBin c i (c.binSize (i*4096)) = .ok h₁ ∧
          Hive.loadBins c alloc fuel (i+c.binSize (i*4096)/4096) h₁ = .ok (st, h') := by
  have hoff : (i+1)*4096=4096+i*4096 := by omega
  rw [Hive.loadBins,if_pos hi,hoff] at hrun
  obtain ⟨signature,hload,hrun⟩ := bind_eq_ok hrun
  obtain ⟨hin,rfl⟩ := Chunk.load_eq_ok hload
  by_cases hsig : read32 c.bytes (4096+i*4096)≠hvBinSignature
  · rw [if_pos hsig] at hrun
    exact .inl ⟨⟨hin,.inl hsig⟩,(Prod.mk.inj (Except.ok.inj hrun)).1.symm⟩
  rw [if_neg hsig] at hrun
  obtain ⟨size,hload,hrun⟩ := bind_eq_ok hrun
  obtain ⟨hin',rfl⟩ := Chunk.load_eq_ok hload
  by_cases hmod : (read32 c.bytes (4096+i*4096+8)).toNat%4096≠0
  · rw [if_pos hmod] at hrun
    exact .inl ⟨⟨hin,.inr ⟨hin',hmod⟩⟩,(Prod.mk.inj (Except.ok.inj hrun)).1.symm⟩
  rw [if_neg hmod] at hrun
  by_cases hal : alloc (2+h.nextBuffer)=true
  · rw [if_neg (not_not.mpr hal)] at hrun
    obtain ⟨h₁,hstore,hrun⟩ := bind_eq_ok hrun
    exact .inr (.inr ⟨not_not.mp hsig,not_not.mp hmod,h₁,hstore,hrun⟩)
  · rw [if_pos hal] at hrun
    exact .inr (.inl ⟨Bool.eq_false_of_not_eq_true hal,
      (Prod.mk.inj (Except.ok.inj hrun)).1.symm⟩)

/-- The loop does not get past a bin of size 0. -/
theorem loadBins_stuck (hi : i<(h.storage .stable).length) (hal : ∀ n, alloc n=true)
    (hsig : read32 c.bytes (4096+i*4096)=hvBinSignature) (hzero : c.binSize (i*4096)=0) :
    Hive.loadBins c alloc fuel i h ≠ .ok (st, h') := by
  induction fuel generalizing h with
  | zero => simp [Hive.loadBins]
  | succ fuel ih =>
    intro hrun
    obtain ⟨⟨-,hbad | hbad⟩,-⟩ | ⟨hfail,-⟩ | ⟨-,-,h₁,hstore,hrun⟩ := loadBins_succ hi hrun
    · exact hbad hsig
    · rw [hzero] at hbad
      exact hbad.2 rfl
    · rw [hal] at hfail
      exact absurd hfail (by simp)
    · rw [hzero,Nat.add_zero] at hrun
      exact ih (by rw [(storeBin_eq_ok hstore).1]; exact hi) hrun

/-- If the loop ends, its bins are in order up to the end or to a corrupt one. -/
theorem bins_of_loadBins (hal : ∀ n, alloc n=true) (hlen : (h.storage .stable).length=n)
    (hi : i≤n) (hrun : Hive.loadBins c alloc fuel i h = .ok (st, h')) :
    ∃ L r, c.Bins (n*4096) (i*4096) L r := by
  induction fuel generalizing h i with
  | zero => simp [Hive.loadBins] at hrun
  | succ fuel ih =>
    by_cases hlt : i<(h.storage .stable).length
    · obtain ⟨hbad,-⟩ | ⟨hfail,-⟩ | ⟨hsig,hmod,h₁,hstore,hrest⟩ := loadBins_succ hlt hrun
      · exact ⟨[],false,.bad _ (by omega) hbad⟩
      · rw [hal] at hfail
        exact absurd hfail (by simp)
      · obtain ⟨hlen₁,-,hinside,hfits⟩ := storeBin_eq_ok hstore
        have hpos : 0<c.binSize (i*4096) := by
          by_contra hzero
          exact loadBins_stuck hlt hal hsig (by omega) hrun
        obtain ⟨L,r,hbins⟩ := ih (hlen₁.trans hlen) (by omega) hrest
        rw [show (i+c.binSize (i*4096)/4096)*4096=i*4096+c.binSize (i*4096) by
          omega] at hbins
        exact ⟨_,r,.bin _ L r ⟨hsig,hmod,hpos,hinside,by omega⟩ hbins⟩
    · obtain rfl : i=n := by omega
      exact ⟨[],true,.done⟩

structure Loaded (c : Chunk) (n b : Nat) (L : List Nat) (h : Hive) : Prop where
  length : (h.storage .stable).length=n
  other : (h.storage .volatile).length=0
  next : h.nextBuffer=L.length
  tiles : Tiles c.binSize 0 b L
  good : ∀ x∈L, c.GoodBin (n*4096) x ∧ x%4096=0
  entry : ∀ k x, L[k]?=some x → ∀ j, j*4096<c.binSize x →
    (h.storage .stable).blockList (x/4096+j)=⟨⟨k,j*4096⟩,k⟩
  heap : ∀ k x, L[k]?=some x →
    h.heap k=⟨c.binSize x,slice c.bytes (4096+x) (c.binSize x)⟩

theorem Loaded.loadBin {L : List Nat} (hL : Loaded c n (i*4096) L h)
    (hgood : c.GoodBin (n*4096) (i*4096)) :
    Loaded c n (i*4096+c.binSize (i*4096)) (L++[i*4096]) (h.loadBin c i) := by
  have hblocks := hgood.blocks
  have hget : ∀ k x, (L++[i*4096])[k]?=some x →
      L[k]?=some x ∧ x∈L ∧ k<L.length ∨ k=L.length ∧ x=i*4096 := by
    intro k x hx
    by_cases hk : k<L.length
    · rw [getElem?_append_left hk] at hx
      exact .inl ⟨hx,mem_of_getElem? hx,hk⟩
    · rw [getElem?_append_right (by omega),getElem?_singleton] at hx
      split_ifs at hx with h0
      exact .inr ⟨by omega,(Option.some.inj hx).symm⟩
  refine ⟨length_loadBin.trans hL.length,hL.other,?_,?_,?_,fun k x hx j hj => ?_,
    fun k x hx => ?_⟩
  · simp [Hive.loadBin,Hive.withBlocks,Hive.setStorage,Hive.newBuffer,hL.next]
  · exact tiles_append.mpr ⟨_,hL.tiles,rfl,hgood.pos,rfl⟩
  · intro x hx
    obtain hx | hx := mem_append.mp hx
    · exact hL.good x hx
    · obtain rfl := mem_singleton.mp hx
      exact ⟨hgood,mul_mod_left _ _⟩
  · have hnew : ∀ m, ((h.loadBin c i).storage .stable).blockList m =
        if i≤ m ∧ m < i+c.binSize (i*4096)/4096 then
          ⟨⟨h.nextBuffer,(m-i)*4096⟩,h.nextBuffer⟩
        else (h.storage .stable).blockList m := by
      simp [Hive.loadBin,Hive.withBlocks,Hive.setStorage,Hive.newBuffer]
    rw [hnew]
    obtain ⟨hx,hmem,-⟩ | ⟨rfl,rfl⟩ := hget k x hx
    · have hb := hL.tiles.bounds hmem
      rw [if_neg (by omega),hL.entry k x hx j hj]
    · rw [Nat.mul_div_cancel _ (by decide),if_pos (by omega),hL.next,Nat.add_sub_cancel_left]
  · obtain ⟨hx,-,hk⟩ | ⟨rfl,rfl⟩ := hget k x hx
    · have hne : k≠h.nextBuffer := by
        rw [hL.next]
        omega
      have := hL.heap k x hx
      simpa [Hive.loadBin,Hive.withBlocks,Hive.setStorage,Hive.newBuffer,hne] using this
    · simp [Hive.loadBin,Hive.withBlocks,Hive.setStorage,Hive.newBuffer,hL.next]

/-- Bins that are in order are loaded, if the allocations succeed. -/
theorem loadBins_of_bins {b fuel : Nat} {L L₀ : List Nat} {r : Bool}
    (hbins : c.Bins (n*4096) b L r) (hb : b=i*4096) (hL : Loaded c n b L₀ h)
    (hf : n-i<fuel) (alloc : Nat → Bool) :
    ∃ st h', Hive.loadBins c alloc fuel i h = .ok (st, h') ∧
      (st = .success → r=true ∧ Loaded c n (n*4096) (L₀++L) h') ∧
      ((∀ k, alloc k=true) → r=true → st = .success) := by
  induction hbins generalizing i h L₀ fuel with
  | done =>
    obtain _ | fuel := fuel
    · omega
    have hlen := hL.length
    refine ⟨.success,h,?_,fun _ => ⟨rfl,by simpa using hL⟩,fun _ _ => rfl⟩
    rw [Hive.loadBins,if_neg (by omega)]
  | bad b hlt hbad =>
    obtain _ | fuel := fuel
    · omega
    subst hb
    have hlen := hL.length
    have hoff : (i+1)*4096=4096+i*4096 := by omega
    obtain ⟨hin,hbad⟩ := hbad
    refine ⟨.registryCorrupt,h,?_,by simp,by simp⟩
    rw [Hive.loadBins,if_pos (by omega),hoff]
    dsimp only
    rw [Chunk.load_of_le hin,ok_bind]
    by_cases hsig : read32 c.bytes (4096+i*4096)≠hvBinSignature
    · rw [if_pos hsig]
      rfl
    · obtain ⟨hin',hmod⟩ := hbad.resolve_left hsig
      have hsize : (read32 c.bytes (4096+i*4096+8)).toNat=c.binSize (i*4096) := rfl
      rw [if_neg hsig,Chunk.load_of_le (by omega),ok_bind,hsize,if_pos hmod]
      rfl
  | bin b L r hgood rest ih =>
    obtain _ | fuel := fuel
    · omega
    subst hb
    have hlen := hL.length
    have hpos := hgood.pos
    have hblocks := hgood.blocks
    have hinside := hgood.inside
    have hfits := hgood.fits
    have hoff : (i+1)*4096=4096+i*4096 := by omega
    have hsize : (read32 c.bytes (4096+i*4096+8)).toNat=c.binSize (i*4096) := rfl
    rw [Hive.loadBins,if_pos (by omega),hoff]
    dsimp only
    rw [Chunk.load_of_le (by omega),ok_bind,
      if_neg (not_not.mpr hgood.signature),Chunk.load_of_le (by omega),ok_bind,hsize,
      if_neg (not_not.mpr hblocks)]
    by_cases hal : alloc (2+h.nextBuffer)=true
    · rw [if_neg (not_not.mpr hal),storeBin_eq (by omega) hinside (by omega)]
      obtain ⟨st,h',hrun,hok,hall⟩ := ih (i := i+c.binSize (i*4096)/4096) (by omega)
        (hL.loadBin hgood) (show _<fuel by omega)
      refine ⟨st,h',hrun,fun hst => ?_,hall⟩
      rw [← append_cons] at hok
      exact hok hst
    · rw [if_pos hal]
      exact ⟨.noMemory,h,rfl,by simp,fun hall => absurd (hall _) hal⟩

end Bins

abbrev Displays := StorageType → Nat → Nat

def Hive.heads (h : Hive) : Displays := fun s => (h.storage s).freeDisplay

def Displays.push (d : Displays) (cell size : Nat) : Displays :=
  update d (cellType cell)
    (update (d (cellType cell)) (hvpComputeFreeListIndex size) cell)

inductive Scan (size fileOffset : Nat) : Mem → Displays → Nat → Displays → Prop where
  | done (m : Mem) (d : Displays) (o : Nat) (hend : size≤o) : Scan size fileOffset m d o d
  | used (m : Mem) (d d' : Displays) (o : Nat) (hfits : o+4≤ size) (hneg : (read32 m o).toInt<0)
      (rest : Scan size fileOffset m d (o+(read32 m o).toInt.natAbs) d') :
      Scan size fileOffset m d o d'
  | free (m : Mem) (d d' : Displays) (o : Nat) (hfits : o+8≤ size) (hpos : 0<(read32 m o).toInt)
      (rest : Scan size fileOffset
        (write32 m (o+4) (BitVec.ofNat 32 (d (cellType ((fileOffset+o)%2^32))
          (hvpComputeFreeListIndex (read32 m o).toNat))))
        (d.push ((fileOffset+o)%2^32) (read32 m o).toNat)
        (o+(read32 m o).toInt.natAbs) d') : Scan size fileOffset m d o d'

section Cells

variable {h h' : Hive} {bin size fileOffset o : Nat} {m : Mem} {d d' : Displays}

structure BinState (h : Hive) (bin size fileOffset : Nat) (m : Mem) (d : Displays) : Prop where
  heap : h.heap bin=⟨size,m⟩
  sizeField : (read32 m 8).toNat=size
  offsetField : (read32 m 4).toNat=fileOffset
  heads : h.heads=d
  small : 32≤ size ∧ size<2^31

structure OnlyBin (h h' : Hive) (bin : Nat) : Prop where
  shape : h'.shape=h.shape
  heap : ∀ k, k≠bin → h'.heap k=h.heap k
  dirty : h'.dirtyVector=h.dirtyVector

theorem OnlyBin.refl (h : Hive) (bin : Nat) : OnlyBin h h bin := ⟨rfl,fun _ _ => rfl,rfl⟩

theorem OnlyBin.trans {h₁ : Hive} (e : OnlyBin h h₁ bin) (e' : OnlyBin h₁ h' bin) :
    OnlyBin h h' bin :=
  ⟨e'.shape.trans e.shape,fun k hk => (e'.heap k hk).trans (e.heap k hk),e'.dirty.trans e.dirty⟩

section

variable (hb : BinState h bin size fileOffset m d)
include hb

theorem BinState.load (ho : o+4≤ size) : h.load ⟨bin,o⟩ = .ok (read32 m o) := by
  simp only [Hive.load,hb.heap]
  rw [if_pos ho]

theorem BinState.load_eq_ok (hload : h.load ⟨bin,o⟩ = .ok v) : o+4≤ size ∧ v=read32 m o := by
  simp only [Hive.load,hb.heap] at hload
  split_ifs at hload with hle
  exact ⟨hle,(Except.ok.inj hload).symm⟩

/-- A cell behind the header of the bin gets its link. -/
theorem BinState.hvpAddFree (ho : 32≤o) (hfits : o+8≤ size) (cell : Nat) :
    ∃ h', h.hvpAddFree ⟨bin,o⟩ cell = .ok h' ∧ OnlyBin h h' bin ∧
      BinState h' bin size fileOffset
        (write32 m (o+4) (BitVec.ofNat 32 (d (cellType cell)
          (hvpComputeFreeListIndex (read32 m o).toNat)))) (d.push cell (read32 m o).toNat) := by
  have hhead : (h.storage (cellType cell)).freeDisplay=d (cellType cell) := by
    rw [← hb.heads]
    rfl
  have hst : ∀ w, h.store ((⟨bin,o⟩ : Ptr).add 4) w = .ok (h.setBytes bin (write32 m (o+4) w)) := by
    intro w
    simp only [Hive.store,Ptr.add,hb.heap]
    rw [if_pos (by omega)]
  refine ⟨_,by rw [Hive.hvpAddFree,hb.load (by omega),ok_bind]; dsimp only; rw [hst]; rfl,?_,?_⟩
  · refine ⟨by simp,fun k hk => ?_,rfl⟩
    simp [Hive.setFreeDisplay,Hive.setStorage,Hive.setBytes,hk]
  · refine ⟨?_,?_,?_,?_,hb.small⟩
    · simp [Hive.setFreeDisplay,Hive.setStorage,Hive.setBytes,hb.heap,hhead]
    · rw [read32_write32_of_disjoint _ _ (by omega)]
      exact hb.sizeField
    · rw [read32_write32_of_disjoint _ _ (by omega)]
      exact hb.offsetField
    · funext s
      by_cases hs : s=cellType cell
      · subst hs
        simp [Hive.heads,Displays.push,Hive.setFreeDisplay,Hive.setStorage,Hive.setBytes,hhead]
      · have := congrFun hb.heads s
        simpa [Hive.heads,Displays.push,Hive.setFreeDisplay,Hive.setStorage,Hive.setBytes,hs]
          using this

theorem BinState.le_of_hvpAddFree {cell : Nat} (hadd : h.hvpAddFree ⟨bin,o⟩ cell = .ok h') :
    o+8≤ size := by
  obtain ⟨v,-,hstore⟩ := bind_eq_ok hadd
  obtain ⟨h₁,hst,-⟩ := bind_eq_ok hstore
  simp only [Hive.store,Ptr.add,hb.heap] at hst
  split_ifs at hst with hle
  omega

theorem addFreeCells_succ (fuel o : Nat) :
    Hive.addFreeCells bin (fuel+1) o h =
      if o<size then do
        let v ← h.load ⟨bin,o⟩
        if v.toInt > 0 then do
          let h ← h.hvpAddFree ⟨bin,o⟩ ((fileOffset+o)%2^32)
          Hive.addFreeCells bin fuel ((o+v.toNat)%2^32) h
        else Hive.addFreeCells bin fuel ((o+2^32-v.toNat)%2^32) h
      else .ok h := by
  have hsmall := hb.small
  have hoffset : h.load ⟨bin,4⟩ = .ok (read32 m 4) := hb.load (by omega)
  rw [Hive.addFreeCells,hb.load (by omega),ok_bind,hb.sizeField]
  simp [hoffset,hb.offsetField]

end

/-- The next offset does not wrap, since the bin is shorter than 2 GB. -/
theorem next_of_pos (hv : 0<v.toInt) (ho : o<2^31) : (o+v.toNat)%2^32=o+v.toInt.natAbs := by
  rw [BitVec.toInt_eq_toNat_cond] at hv ⊢
  split_ifs at hv ⊢ <;> omega

theorem next_of_neg (hv : v.toInt<0) (ho : o<2^31) : (o+2^32-v.toNat)%2^32=o+v.toInt.natAbs := by
  rw [BitVec.toInt_eq_toNat_cond] at hv ⊢
  split_ifs at hv ⊢ <;> omega

theorem addFreeCells_of_scan (hs : Scan size fileOffset m d o d') :
    ∀ {h : Hive} {fuel : Nat}, BinState h bin size fileOffset m d → 32≤o → size-o<fuel →
      ∃ (h' : Hive) (m' : Mem), Hive.addFreeCells bin fuel o h = .ok h' ∧ OnlyBin h h' bin ∧
        BinState h' bin size fileOffset m' d' := by
  induction hs with
  | done m d o hend =>
    intro h fuel hb ho hfuel
    obtain ⟨n,rfl⟩ := exists_eq_succ_of_ne_zero (by omega : fuel≠0)
    refine ⟨h,m,?_,OnlyBin.refl h bin,hb⟩
    rw [addFreeCells_succ hb,if_neg (by omega)]
  | used m d d' o hfits hneg rest ih =>
    intro h fuel hb ho hfuel
    obtain ⟨n,rfl⟩ := exists_eq_succ_of_ne_zero (by omega : fuel≠0)
    have hsmall := hb.small
    obtain ⟨h',m',hrun,hrest⟩ := ih hb (by omega) (show _<n by omega)
    refine ⟨h',m',?_,hrest⟩
    rw [addFreeCells_succ hb,if_pos (by omega),hb.load hfits,ok_bind,
      if_neg (by omega),next_of_neg hneg (by omega)]
    exact hrun
  | free m d d' o hfits hpos rest ih =>
    intro h fuel hb ho hfuel
    obtain ⟨n,rfl⟩ := exists_eq_succ_of_ne_zero (by omega : fuel≠0)
    have hsmall := hb.small
    obtain ⟨h₁,hadd,honly,hb₁⟩ := hb.hvpAddFree ho hfits ((fileOffset+o)%2^32)
    obtain ⟨h',m',hrun,honly',hb'⟩ := ih hb₁ (by omega) (show _<n by omega)
    refine ⟨h',m',?_,honly.trans honly',hb'⟩
    rw [addFreeCells_succ hb,if_pos (by omega),hb.load (by omega),ok_bind,
      if_pos hpos,hadd,next_of_pos hpos (by omega)]
    exact hrun

/-- The converse. A cell of size 0 only uses up the steps that are left. -/
theorem scan_of_addFreeCells :
    ∀ {h h' : Hive} {m : Mem} {d : Displays} {o : Nat}, BinState h bin size fileOffset m d →
      32≤o → Hive.addFreeCells bin fuel o h = .ok h' → ∃ d', Scan size fileOffset m d o d' := by
  induction fuel with
  | zero =>
    intro h h' m d o hb ho hrun
    cases hrun
  | succ n ih =>
    intro h h' m d o hb ho hrun
    have hsmall := hb.small
    rw [addFreeCells_succ hb] at hrun
    by_cases hlt : o<size
    · rw [if_pos hlt] at hrun
      obtain ⟨v,hload,hrun⟩ := bind_eq_ok hrun
      obtain ⟨hfits,rfl⟩ := hb.load_eq_ok hload
      by_cases hpos : 0<(read32 m o).toInt
      · rw [if_pos hpos] at hrun
        obtain ⟨h₁,hadd,hrun⟩ := bind_eq_ok hrun
        have hfits := hb.le_of_hvpAddFree hadd
        obtain ⟨h₂,hadd',honly,hb₁⟩ := hb.hvpAddFree ho hfits ((fileOffset+o)%2^32)
        obtain rfl : h₁=h₂ := Except.ok.inj (hadd.symm.trans hadd')
        rw [next_of_pos hpos (by omega)] at hrun
        obtain ⟨d',hs⟩ := ih hb₁ (by omega) hrun
        exact ⟨d',.free m d d' o hfits hpos hs⟩
      · rw [if_neg hpos] at hrun
        by_cases hneg : (read32 m o).toInt<0
        · rw [next_of_neg hneg (by omega)] at hrun
          obtain ⟨d',hs⟩ := ih hb (by omega) hrun
          exact ⟨d',.used m d d' o hfits hneg hs⟩
        · have hzero : read32 m o=0 := by
            rw [← BitVec.toInt_inj]
            simp only [BitVec.ofNat_eq_ofNat,BitVec.toInt_zero]
            omega
          rw [hzero] at hrun
          have hstay : (o+2^32-(0 : BitVec 32).toNat)%2^32=o := by
            simp only [BitVec.ofNat_eq_ofNat,BitVec.toNat_ofNat]
            omega
          rw [hstay] at hrun
          exact ih hb ho hrun
    · exact ⟨d,.done m d o (by omega)⟩

end Cells

def Chunk.ScanBins (c : Chunk) : List Nat → Displays → Prop
  | [], _ => True
  | b::L, d => ∃ d', Scan (c.binSize b) (c.binOffset b) (slice c.bytes (4096+b) (c.binSize b))
      d 32 d' ∧ c.ScanBins L d'

section FreeLists

variable {n b : Nat} {L L₁ : List Nat} {d : Displays} {h h' : Hive}

structure Walked (c : Chunk) (n k : Nat) (L : List Nat) (d : Displays) (h : Hive) : Prop where
  length : (h.storage .stable).length=n
  good : ∀ x∈L, c.GoodBin (n*4096) x
  entry : ∀ j x, L[j]?=some x →
    ((h.storage .stable).blockList (x/4096)).binAddress=j
  heap : ∀ j x, k≤j → L[j]?=some x →
    h.heap j=⟨c.binSize x,slice c.bytes (4096+x) (c.binSize x)⟩
  heads : h.heads=d

theorem Walked.next {x : Nat} (hw : Walked c n L₁.length (L₁++x::L) d h)
    (honly : OnlyBin h h' L₁.length) : Walked c n (L₁++[x]).length (L₁++[x]++L) h'.heads h' := by
  have hlength := congrArg (fun g => g.length .stable) honly.shape
  have hblocks := congrArg (fun g => g.blockList .stable) honly.shape
  rw [append_assoc,singleton_append,length_append,length_singleton]
  refine ⟨hlength.trans hw.length,hw.good,fun j x hx => ?_,fun j x hj hx => ?_,rfl⟩
  · rw [← hw.entry j x hx]
    exact congrArg _ (congrFun hblocks _)
  · rw [honly.heap j (by omega)]
    exact hw.heap j x (by omega) hx

theorem read32_slice (m : Mem) (o : Nat) {size i : Nat} (hi : i+4≤ size) :
    read32 (slice m o size) i=read32 m (o+i) := by
  refine read32_congr fun j hj => ?_
  rw [slice_of_lt m o (by omega),add_assoc]

theorem Walked.binState (hw : Walked c n L₁.length (L₁++b::L) d h) :
    BinState h L₁.length (c.binSize b) (c.binOffset b)
      (slice c.bytes (4096+b) (c.binSize b)) d := by
  have hget : (L₁++b::L)[L₁.length]?=some b := by simp
  have hgood := hw.good b (by simp)
  have hblocks := hgood.blocks
  have hpos := hgood.pos
  have hinside := hgood.inside
  have hsmall := c.small
  refine ⟨hw.heap _ b le_rfl hget,?_,?_,hw.heads,by omega,by omega⟩
  · rw [read32_slice _ _ (by omega)]
    rfl
  · rw [read32_slice _ _ (by omega)]
    rfl

theorem addFreeBins_succ (hw : Walked c n L₁.length (L₁++b::L) d h) (fuel : Nat) :
    Hive.addFreeBins (fuel+1) (b/4096) h=(do
      let h ← Hive.addFreeCells L₁.length (c.binSize b+1) 32 h
      let binSize ← h.load ⟨L₁.length,8⟩
      Hive.addFreeBins fuel (b/4096+binSize.toNat/4096) h) := by
  have hgood := hw.good b (by simp)
  have hfits := hgood.fits
  have hpos := hgood.pos
  have hlen := hw.length
  have hbin := hw.entry L₁.length b (by simp)
  have hsize := congrArg Buffer.size hw.binState.heap
  rw [Hive.addFreeBins,if_pos (by omega)]
  dsimp only
  rw [hbin,hsize]

theorem addFreeBins_of_scanBins (hw : Walked c n L₁.length (L₁++L) d h)
    (ht : Tiles c.binSize b (n*4096) L) (hs : c.ScanBins L d) (hf : n-b/4096<fuel) :
    ∃ h', Hive.addFreeBins fuel (b/4096) h = .ok h' ∧ h'.shape=h.shape := by
  induction L generalizing L₁ d h b fuel with
  | nil =>
    obtain ⟨m,rfl⟩ := exists_eq_succ_of_ne_zero (by omega : fuel≠0)
    obtain rfl : b=n*4096 := ht
    have hlen := hw.length
    exact ⟨h,by rw [Hive.addFreeBins,if_neg (by omega)],rfl⟩
  | cons x L ih =>
    obtain ⟨m,rfl⟩ := exists_eq_succ_of_ne_zero (by omega : fuel≠0)
    obtain ⟨rfl,hpos,ht⟩ := ht
    obtain ⟨d',hscan,hs⟩ := hs
    have hgood := hw.good x (by simp)
    have hblocks := hgood.blocks
    have hb := hw.binState
    obtain ⟨h₁,m',hrun,honly,hb₁⟩ :=
      addFreeCells_of_scan hscan hb le_rfl (show _<c.binSize x+1 by omega)
    have hw₁ := hw.next honly
    rw [hb₁.heads] at hw₁
    have hnext : x/4096+c.binSize x/4096=(x+c.binSize x)/4096 := by omega
    obtain ⟨h',hrest,hshape⟩ := ih hw₁ ht hs (show _< m by have := hgood.fits; omega)
    refine ⟨h',?_,hshape.trans honly.shape⟩
    have hload := hb₁.load (show 8+4≤_ by have := hb.small; omega)
    rw [addFreeBins_succ hw,hrun,ok_bind,hload,ok_bind,hb₁.sizeField,hnext]
    exact hrest

theorem scanBins_of_addFreeBins (hw : Walked c n L₁.length (L₁++L) d h)
    (ht : Tiles c.binSize b (n*4096) L) (hrun : Hive.addFreeBins fuel (b/4096) h = .ok h') :
    c.ScanBins L d := by
  induction L generalizing L₁ d h b fuel with
  | nil => trivial
  | cons x L ih =>
    obtain _ | m := fuel
    · cases hrun
    obtain ⟨rfl,hpos,ht⟩ := ht
    have hgood := hw.good x (by simp)
    have hblocks := hgood.blocks
    have hb := hw.binState
    rw [addFreeBins_succ hw] at hrun
    obtain ⟨h₁,hcells,hrun⟩ := bind_eq_ok hrun
    obtain ⟨size,hsize,hrun⟩ := bind_eq_ok hrun
    obtain ⟨d',hscan⟩ := scan_of_addFreeCells hb le_rfl hcells
    obtain ⟨h₂,m',hcells',honly,hb₁⟩ :=
      addFreeCells_of_scan hscan hb le_rfl (show _<c.binSize x+1 by omega)
    obtain rfl : h₁=h₂ := Except.ok.inj (hcells.symm.trans hcells')
    obtain ⟨-,rfl⟩ := hb₁.load_eq_ok hsize
    have hw₁ := hw.next honly
    rw [hb₁.heads] at hw₁
    have hnext : x/4096+c.binSize x/4096=(x+c.binSize x)/4096 := by omega
    rw [hb₁.sizeField,hnext] at hrun
    exact ⟨d',hscan,ih hw₁ ht hrun⟩

end FreeLists

section Memory

variable {n : Nat} {L : List Nat} {h h' : Hive}

theorem Loaded.walked (hL : Loaded c n (n*4096) L h) :
    Walked c n 0 L (fun _ _ => hcellNil) h.clearFreeDisplay := by
  refine ⟨hL.length,fun x hx => (hL.good x hx).1,fun j x hx => ?_,fun j x _ hx => ?_,rfl⟩
  · have hpos := (hL.good x (mem_of_getElem? hx)).1.pos
    have hentry := hL.entry j x hx 0 (by omega)
    exact congrArg MapEntry.binAddress hentry
  · exact hL.heap j x hx

def loadedBins (L : List Nat) : StorageType → List Nat
  | .stable => L
  | .volatile => []

/-- The loaded bins cover the block list. -/
theorem Loaded.mapped (hL : Loaded c n (n*4096) L h) : Mapped h.shape (loadedBins L) := by
  have hentry : ∀ k x, L[k]?=some x → ∀ j, j*4096<c.binSize x →
      h.shape.blockList .stable (x/4096+j)=⟨⟨k,j*4096⟩,k⟩ := hL.entry
  have hbin : ∀ k x, L[k]?=some x → h.shape.binAt .stable x=k := by
    intro k x hx
    have hpos := (hL.good x (mem_of_getElem? hx)).1.pos
    have := hentry k x hx 0 (by omega)
    exact congrArg MapEntry.binAddress this
  have hsize : ∀ x∈L, h.shape.binSize .stable x=c.binSize x := by
    intro x hx
    obtain ⟨k,hk⟩ := getElem?_of_mem hx
    rw [Shape.binSize,hbin k x hk]
    exact congrArg Buffer.size (hL.heap k x hk)
  have hextent : h.shape.extent .stable=n*4096 := by
    exact congrArg (· * 4096) hL.length
  have hother : h.shape.extent .volatile=0 := by
    exact (congrArg (· * 4096) hL.other).trans (zero_mul _)
  refine ⟨?_,?_,?_,?_,?_,?_⟩
  · intro s
    cases s with
    | stable =>
      rw [hextent]
      exact hL.tiles.congr hsize
    | volatile => exact hother.symm
  · intro s b hb
    cases s with
    | stable => exact ⟨(hL.good b hb).2,by rw [hsize b hb]; exact (hL.good b hb).1.blocks⟩
    | volatile => cases hb
  · intro s b hb i hi
    cases s with
    | stable =>
      obtain ⟨k,hk⟩ := getElem?_of_mem hb
      rw [hbin k b hk]
      exact hentry k b hk i (by rw [← hsize b hb]; exact hi)
    | volatile => cases hb
  · intro s b hb
    cases s with
    | stable =>
      obtain ⟨k,hk⟩ := getElem?_of_mem hb
      rw [hbin k b hk]
      have hlt := (List.getElem?_eq_some_iff.mp hk).1
      exact lt_of_lt_of_eq hlt hL.next.symm
    | volatile => cases hb
  · intro s t b x hb hx heq
    cases s with
    | volatile => cases hb
    | stable =>
      cases t with
      | volatile => cases hx
      | stable =>
        obtain ⟨k,hk⟩ := getElem?_of_mem hb
        obtain ⟨k',hk'⟩ := getElem?_of_mem hx
        rw [hbin k b hk,hbin k' x hk'] at heq
        subst heq
        exact ⟨rfl,Option.some.inj (hk.symm.trans hk')⟩
  · intro s
    cases s with
    | volatile =>
      rw [hother]
      decide
    | stable =>
      by_cases hz : n*4096=0
      · omega
      · obtain ⟨x,hx,hle,hlt⟩ := hL.tiles.exists_mem (o := n*4096-1) (by omega) (by omega)
        have hinside := (hL.good x hx).1.inside
        have hsmall := c.small
        omega

def Chunk.startHive (c : Chunk) (n : Nat) : Hive :=
  (clearedHive.setBaseBlock (slice c.bytes 0 4096)).setStorage .stable
    { clearedHive.storage .stable with length := n }

theorem loaded_startHive (c : Chunk) (n : Nat) : Loaded c n 0 [] (c.startHive n) := by
  refine ⟨by simp [Chunk.startHive,Hive.setStorage],rfl,rfl,rfl,by simp,by simp,by simp⟩

def Chunk.loadStorage (c : Chunk) (alloc : Nat → Bool) (n : Nat) : HiveM (Status × Hive) := do
  let (status, h) ← Hive.loadBins c alloc (n+1) 0 (c.startHive n)
  if status ≠ .success then return (status, h)
  else do
    let h ← h.hvpCreateHiveFreeCellList
    if ¬alloc (2+h.nextBuffer) then return (.noMemory, h)
    else return (.success, h.initDirtyVector)

theorem hvpInitializeMemoryHive_eq (c : Chunk) (alloc : Nat → Bool) :
    hvpInitializeMemoryHive c alloc=(do
      let chunkSize ← c.load (4*Field.length.index)
      if chunkSize.toNat<4096 then return (.registryCorrupt, clearedHive)
      else do
        let valid ← (c.setLength 4096).hvpVerifyHiveHeader
        if ¬valid then return (.registryCorrupt, clearedHive)
        else if ¬alloc 0 then return (.noMemory, clearedHive)
        else if c.size<4096 then .error .bounds
        else if ¬alloc 1 then
          return (.noMemory, (c.setLength 4096).startHive (chunkSize.toNat/4096-1))
        else (c.setLength 4096).loadStorage alloc (chunkSize.toNat/4096-1)) := rfl

/-- Behind a valid header: the bins cover the storage or end at a corrupt one, and in the
first case the cells of every bin can be walked. -/
def Chunk.StorageFits (c : Chunk) (n : Nat) : Prop :=
  ∃ L r, c.Bins (n*4096) 0 L r ∧ (r=true → c.ScanBins L fun _ _ => hcellNil)

theorem Loaded.hvpCreateHiveFreeCellList (hL : Loaded c n (n*4096) L h)
    (hs : c.ScanBins L fun _ _ => hcellNil) :
    ∃ h', h.hvpCreateHiveFreeCellList = .ok h' ∧ h'.shape=h.shape := by
  have hlen := hL.length
  have hw : Walked c n ([] : List Nat).length ([]++L) (fun _ _ => hcellNil) h.clearFreeDisplay :=
    hL.walked
  exact addFreeBins_of_scanBins hw hL.tiles hs (by omega)

theorem loadStorage_of_fits (hfits : c.StorageFits n) (alloc : Nat → Bool) :
    ∃ st h, c.loadStorage alloc n = .ok (st, h) ∧
      (st = .success → ∃ bins, Mapped h.shape bins) := by
  obtain ⟨L,r,hbins,hscan⟩ := hfits
  obtain ⟨st,h,hload,hok,-⟩ := loadBins_of_bins hbins (zero_mul _).symm
    (loaded_startHive c n) (show _<n+1 by omega) alloc
  rw [Chunk.loadStorage,hload,ok_bind]
  dsimp only
  by_cases hst : st = .success
  · obtain ⟨hr,hL⟩ := hok hst
    obtain ⟨h',hfree,hshape⟩ := hL.hvpCreateHiveFreeCellList (hscan hr)
    rw [if_neg (not_not.mpr hst),hfree,ok_bind]
    by_cases hal : alloc (2+h'.nextBuffer)=true
    · rw [if_neg (not_not.mpr hal)]
      refine ⟨.success,h'.initDirtyVector,rfl,fun _ => ⟨loadedBins L,?_⟩⟩
      have hsame : h'.initDirtyVector.shape=h'.shape := rfl
      rw [hsame,hshape]
      exact hL.mapped
    · rw [if_pos hal]
      exact ⟨.noMemory,h',rfl,by simp⟩
  · rw [if_pos hst]
    exact ⟨st,h,rfl,fun hs => absurd hs hst⟩

theorem fits_of_loadStorage (hrun : c.loadStorage (fun _ => true) n = .ok (st, h)) :
    c.StorageFits n := by
  obtain ⟨⟨st₁,h₁⟩,hload,hrest⟩ := bind_eq_ok hrun
  obtain ⟨L,r,hbins⟩ := bins_of_loadBins (fun _ => rfl) (loaded_startHive c n).length
    (zero_le n) hload
  refine ⟨L,r,hbins,fun hr => ?_⟩
  obtain ⟨st₂,h₂,hload',hok,hall⟩ := loadBins_of_bins hbins (Nat.zero_mul _).symm
    (loaded_startHive c n) (show _<n+1 by omega) fun _ => true
  obtain ⟨rfl,rfl⟩ := Prod.mk.inj (Except.ok.inj (hload.symm.trans hload'))
  have hst := hall (fun _ => rfl) hr
  obtain ⟨-,hL⟩ := hok hst
  dsimp only at hrest
  rw [if_neg (not_not.mpr hst)] at hrest
  obtain ⟨h₃,hfree,-⟩ := bind_eq_ok hrest
  have hw : Walked c n ([] : List Nat).length ([]++L) (fun _ _ => hcellNil) h₁.clearFreeDisplay :=
    hL.walked
  exact scanBins_of_addFreeBins hw hL.tiles hfree

end Memory

def Chunk.claimed (c : Chunk) : Nat := (getField c.bytes .length).toNat

/-- Chunks on which the loader reads and writes in bounds and terminates: the header is there
as far as it is looked at, and, if it is valid, so is the storage behind it. -/
structure Chunk.Fits (c : Chunk) : Prop where
  length : 44≤c.size
  header : 4096≤c.claimed → (c.setLength 4096).HeaderFits
  storage : 4096≤c.claimed → Cm.hvpVerifyHiveHeader (c.setLength 4096).bytes=true →
    4096≤c.size ∧ (c.setLength 4096).StorageFits (c.claimed/4096-1)

/-- The loader is safe on a chunk, however its allocations end: it terminates without an access
out of bounds, and if it succeeds the bins cover the block list. -/
def Chunk.LoadsSafely (c : Chunk) : Prop :=
  ∀ alloc, ∃ st h, hvpInitializeMemoryHive c alloc = .ok (st, h) ∧
    (st = .success → ∃ bins, Mapped h.shape bins)

theorem Chunk.Fits.loadsSafely (hc : c.Fits) : c.LoadsSafely := by
  intro alloc
  have h44 := hc.length
  have hclaimed : (getField c.bytes .length).toNat=c.claimed := rfl
  rw [hvpInitializeMemoryHive_eq,Chunk.load_field (by simp only [Field.index]; omega),
    ok_bind,hclaimed]
  by_cases hclaim : c.claimed<4096
  · rw [if_pos hclaim]
    exact ⟨_,_,rfl,by simp⟩
  rw [if_neg hclaim]
  have hge : 4096≤c.claimed := by omega
  have h44' : 44≤(c.setLength 4096).size := h44
  rw [Chunk.hvpVerifyHiveHeader_of_fits h44' (hc.header hge),ok_bind]
  by_cases hvalid : Cm.hvpVerifyHiveHeader (c.setLength 4096).bytes=true
  · rw [if_neg (not_not.mpr hvalid)]
    obtain ⟨hsize,hstorage⟩ := hc.storage hge hvalid
    by_cases hal : alloc 0=true
    · rw [if_neg (not_not.mpr hal),if_neg (by omega)]
      by_cases hal' : alloc 1=true
      · rw [if_neg (not_not.mpr hal')]
        exact loadStorage_of_fits hstorage alloc
      · rw [if_pos hal']
        exact ⟨_,_,rfl,by simp⟩
    · rw [if_pos hal]
      exact ⟨_,_,rfl,by simp⟩
  · rw [if_pos hvalid]
    exact ⟨_,_,rfl,by simp⟩

theorem Chunk.fits_of_loadsSafely (hc : c.LoadsSafely) : c.Fits := by
  obtain ⟨st,h,hrun,-⟩ := hc fun _ => true
  rw [hvpInitializeMemoryHive_eq] at hrun
  obtain ⟨v,hload,hrun⟩ := bind_eq_ok hrun
  obtain ⟨h44,rfl⟩ := Chunk.load_eq_ok hload
  have hclaimed : (read32 c.bytes (4*Field.length.index)).toNat=c.claimed := rfl
  simp only [Field.index] at h44
  rw [hclaimed] at hrun
  by_cases hclaim : c.claimed<4096
  · exact ⟨by omega,fun hge => by omega,fun hge => by omega⟩
  rw [if_neg hclaim] at hrun
  obtain ⟨valid,hverify,hrun⟩ := bind_eq_ok hrun
  have hfits := Chunk.fits_of_hvpVerifyHiveHeader (by exact h44) hverify
  refine ⟨by omega,fun _ => hfits,fun _ hvalid => ?_⟩
  rw [Chunk.hvpVerifyHiveHeader_of_fits (by exact h44) hfits,hvalid] at hverify
  obtain rfl := Except.ok.inj hverify
  by_cases hsize : c.size<4096
  · rw [if_pos hsize] at hrun
    cases hrun
  rw [if_neg hsize] at hrun
  exact ⟨by omega,fits_of_loadStorage hrun⟩

def zeroBinChunk : Chunk where
  size := 8192
  bytes := write32 (setField createBaseBlock .length 8192) 4096 hvBinSignature
  small := by decide

/-- Loading an untrusted chunk is safe exactly on the chunks whose sizes fit. -/
theorem hvpInitializeMemoryHive_safe (c : Chunk) : c.LoadsSafely ↔ c.Fits :=
  ⟨Chunk.fits_of_loadsSafely,Chunk.Fits.loadsSafely⟩

/-- The loop over the bins does not get past a bin of size 0. -/
theorem hvpInitializeMemoryHive_zeroBin : ¬zeroBinChunk.LoadsSafely := by
  intro hsafe
  obtain ⟨st,h,hrun,-⟩ := hsafe fun _ => true
  have hloop : hvpInitializeMemoryHive zeroBinChunk (fun _ => true) = .error .diverges :=
    fault_eq_some.mp (by decide +kernel)
  rw [hloop] at hrun
  cases hrun

end Odyssey.Cm
