import Odyssey.Lib.FileWrites
import Odyssey.Rtl.BitmapSearch
import Odyssey.Cm.HiveInvariant

/-! Writing a hive to its primary file (`hivewrt.c`). A routine gives its result, the hive and
the `FileWrite` calls it has made; `results n` is what the `n`-th of these calls returns. -/
namespace Odyssey.Cm
open ByteMem FileWrites Rtl List

namespace Hive

def setBaseBlock (h : Hive) (b : Mem) : Hive := { h with baseBlock := b }

def clearDirty (h : Hive) : Hive := { h with dirtyVector := rtlClearAllBits h.dirtyVector }

def blockPtr (h : Hive) (i : Nat) : HiveM Mem :=
  let p := ((h.storage .stable).blockList i).blockAddress
  if p.off+4096≤(h.heap p.buf).size then .ok (slice (h.heap p.buf).bytes p.off 4096)
  else .error .bounds

def nextBlock (h : Hive) (onlyDirty : Bool) (blockIndex : BitVec 32) : Option (BitVec 32) :=
  if onlyDirty then
    let found := rtlFindSetBits h.dirtyVector 1 blockIndex
    if found=BitVec.allOnes 32 ∨ found<blockIndex then none else some found
  else some blockIndex

def writeBlocks (h : Hive) (onlyDirty : Bool) (results : Nat → Bool) :
    Nat → BitVec 32 → List Write → HiveM (Bool × List Write)
  | 0, _, _ => .error .diverges
  | fuel+1, blockIndex, ws =>
    if blockIndex.toNat<(h.storage .stable).length then
      match h.nextBlock onlyDirty blockIndex with
      | none => .ok (true, ws)
      | some i => do
        let block ← h.blockPtr i.toNat
        let ws' := ws++[⟨(i.toNat+1)*4096%2^32,block,4096⟩]
        if results ws.length then writeBlocks h onlyDirty results fuel (i+1) ws'
        else .ok (false, ws')
    else .ok (true, ws)

def beginHeader (b : Mem) : Mem :=
  let b := setField b .type 0
  updateCheckSum (setField b .sequence1 (getField b .sequence1+1))

def endHeader (b : Mem) : Mem :=
  updateCheckSum (setField b .sequence2 (getField b .sequence2+1))

def hvpWriteHive (h : Hive) (onlyDirty : Bool) (results : Nat → Bool) :
    HiveM (Bool × Hive × List Write) :=
  if getField h.baseBlock .sequence1≠getField h.baseBlock .sequence2 then .ok (false, h, [])
  else
    let h := h.setBaseBlock (beginHeader h.baseBlock)
    let ws := [⟨0,h.baseBlock,4096⟩]
    if ¬results 0 then .ok (false, h, ws)
    else do
      let (success, ws) ← h.writeBlocks onlyDirty results ((h.storage .stable).length+1) 0 ws
      if ¬success then return (false, h, ws)
      else
        -- the results of FileFlush are not used
        let h := h.setBaseBlock (endHeader h.baseBlock)
        return (results ws.length, h, ws++[⟨0,h.baseBlock,4096⟩])

def stamp (h : Hive) (time : BitVec 64) : Hive :=
  h.setBaseBlock (setField (setField h.baseBlock .timeStampLow (time.extractLsb' 0 32))
    .timeStampHigh (time.extractLsb' 32 32))

/-- `HvpWriteLog` is not implemented and returns TRUE. -/
def hvSyncHive (h : Hive) (time : BitVec 64) (results : Nat → Bool) :
    HiveM (Bool × Hive × List Write) :=
  if rtlFindSetBits h.dirtyVector 1 0=BitVec.allOnes 32 then .ok (true, h, [])
  else do
    let (success, h, ws) ← (h.stamp time).hvpWriteHive true results
    if ¬success then return (false, h, ws)
    else return (true, h.clearDirty, ws)

def hvWriteHive (h : Hive) (time : BitVec 64) (results : Nat → Bool) :
    HiveM (Bool × Hive × List Write) :=
  (h.stamp time).hvpWriteHive false results

end Hive

section Write

variable {h : Hive} {l : Layout} {js : List Nat} {file : Mem} {i o j : Nat}

def blocksFrom (h : Hive) (onlyDirty : Bool) (i : Nat) : List Nat :=
  (List.range' i (h.shape.length .stable-i)).filter fun j =>
    !onlyDirty || h.dirtyVector.bit j

def blockWrite (h : Hive) (i : Nat) : Write :=
  ⟨(i+1)*4096,slice (h.image .stable) (i*4096) 4096,4096⟩

variable {onlyDirty : Bool}

theorem mem_blocksFrom :
    j∈blocksFrom h onlyDirty i ↔
      i≤j ∧ j<h.shape.length .stable ∧ (onlyDirty=false ∨ h.dirtyVector.bit j=true) := by
  simp only [blocksFrom,mem_filter,mem_range'_1,Bool.or_eq_true,Bool.not_eq_true']
  constructor
  · rintro ⟨⟨h1,h2⟩,h3⟩
    exact ⟨h1,by omega,h3⟩
  · rintro ⟨h1,h2,h3⟩
    exact ⟨⟨h1,by omega⟩,h3⟩

theorem blocksFrom_eq_cons (hij : i≤j)
    (hj : j<h.shape.length .stable) (hw : onlyDirty=false ∨ h.dirtyVector.bit j=true)
    (hskip : ∀ k, i≤k → k<j → onlyDirty=true ∧ h.dirtyVector.bit k=false) :
    blocksFrom h onlyDirty i=j::blocksFrom h onlyDirty (j+1) := by
  have hrange : List.range' i (h.shape.length .stable-i) =
      List.range' i (j-i)++j::List.range' (j+1) (h.shape.length .stable-(j+1)) := by
    obtain ⟨d,rfl⟩ : ∃ d, j=i+1*d := ⟨j-i,by omega⟩
    rw [← List.range'_succ,show i+1*d-i=d by omega,List.range'_append]
    congr 1
    omega
  have hnil : (List.range' i (j-i)).filter (fun k => !onlyDirty || h.dirtyVector.bit k)=[] := by
    refine filter_eq_nil_iff.mpr fun k hk => ?_
    rw [mem_range'_1] at hk
    have := hskip k hk.1 (by omega)
    simp [this]
  rw [blocksFrom,hrange,filter_append,hnil,nil_append,filter_cons_of_pos,blocksFrom]
  simpa using hw

theorem blocksFrom_eq_nil {i : Nat}
    (hskip : ∀ k, i≤k → k<h.shape.length .stable → onlyDirty=true ∧ h.dirtyVector.bit k=false) :
    blocksFrom h onlyDirty i=[] := by
  refine filter_eq_nil_iff.mpr fun k hk => ?_
  rw [mem_range'_1] at hk
  have := hskip k hk.1 (by omega)
  simp [this]

theorem nextBlock_spec (hd : DirtyOk h) (onlyDirty : Bool) (i : BitVec 32)
    (hi : i.toNat<h.shape.length .stable) :
    h.nextBlock onlyDirty i=none ∧ blocksFrom h onlyDirty i.toNat=[] ∨
      ∃ j, h.nextBlock onlyDirty i=some j ∧ i.toNat≤j.toNat ∧
        j.toNat<h.shape.length .stable ∧
        blocksFrom h onlyDirty i.toNat=j.toNat::blocksFrom h onlyDirty (j.toNat+1) := by
  have hcov := hd.covers
  have hsmall := hd.small
  cases onlyDirty with
  | false =>
    refine .inr ⟨i,rfl,le_rfl,hi,blocksFrom_eq_cons le_rfl hi (.inl rfl) fun k h1 h2 => ?_⟩
    omega
  | true =>
    rw [Hive.nextBlock]
    obtain ⟨hat,hfirst⟩ | ⟨hend,hclear⟩ :=
      rtlFindSetBits_one h.dirtyVector i (by omega) (by omega)
    · generalize rtlFindSetBits h.dirtyVector 1 i=j at *
      obtain ⟨hle,hlt,hbit⟩ := mem_setRuns_one.mp hat
      have hj : j.toNat<h.shape.length .stable := by
        by_contra hge
        rw [hd.clear j.toNat (by omega)] at hbit
        exact Bool.false_ne_true hbit
      have hne : ¬(j=BitVec.allOnes 32 ∨ j < i) := by
        rintro (rfl | hji)
        · have : (BitVec.allOnes 32).toNat=4294967295 := rfl
          omega
        · rw [BitVec.lt_def] at hji
          omega
      rw [if_neg hne]
      refine .inr ⟨j,rfl,hle,hj,blocksFrom_eq_cons hle hj (.inr hbit) fun k h1 h2 => ⟨rfl,?_⟩⟩
      by_contra hset
      have := hfirst (mem_setRuns_one.mpr ⟨h1,by omega,by simpa using hset⟩)
      omega
    · dsimp only
      rw [if_pos (hend.imp id BitVec.lt_def.mpr)]
      exact .inl ⟨rfl,blocksFrom_eq_nil fun k h1 h2 => ⟨rfl,hclear k h1 (by omega)⟩⟩

theorem blockPtr_spec (hm : Mapped h.shape l.bins) {i : Nat} (hi : i<h.shape.length .stable) :
    h.blockPtr i = .ok (slice (h.image .stable) (i*4096) 4096) := by
  have hext := h.shape.extent_eq .stable
  have hlt : i*4096<h.shape.extent .stable := by omega
  obtain ⟨b,hb⟩ := hm.exists_bin hlt
  obtain ⟨hba,hbs⟩ := hm.aligned .stable b hb.mem
  have hle := hb.le
  have hfits := hb.fits
  have hend : i*4096+4096≤b+h.shape.binSize .stable b := by
    obtain ⟨x,hx⟩ := Nat.dvd_of_mod_eq_zero hba
    obtain ⟨y,hy⟩ := Nat.dvd_of_mod_eq_zero hbs
    have hlt : 4096*i<4096*(x+y) := by omega
    calc
      i*4096+4096=4096*(i+1) := by ring
      _≤4096*(x+y) := Nat.mul_le_mul_left _ (Nat.lt_of_mul_lt_mul_left hlt)
      _=b+h.shape.binSize .stable b := by rw [hy,hx,Nat.mul_add]
  have hin : InBin h.shape l.bins .stable b (i*4096) 4096 := ⟨hb.mem,hle,hend⟩
  have hptr : ((h.storage .stable).blockList i).blockAddress=h.shape.address .stable (i*4096) := by
    rw [Shape.address,Nat.mul_div_cancel _ (show 0<4096 by decide),Nat.mul_mod_left,Ptr.add]
    rfl
  rw [Hive.blockPtr,hptr]
  rw [if_pos (hm.fits hin (by decide))]
  refine congrArg Except.ok (slice_congr fun k hk => ?_)
  exact hm.image_run hin hk

/-- The loop writes blocks from `i` on, all of them unless a write fails. -/
theorem writeBlocks_spec (hm : Mapped h.shape l.bins) (hd : DirtyOk h) (onlyDirty : Bool)
    (results : Nat → Bool) (fuel : Nat) (i : BitVec 32) (ws : List Write)
    (hi : i.toNat≤h.shape.length .stable) (hf : h.shape.length .stable-i.toNat<fuel) :
    ∃ r vs, h.writeBlocks onlyDirty results fuel i ws = .ok (r, ws++vs) ∧
      vs <+: (blocksFrom h onlyDirty i.toNat).map (blockWrite h) ∧
      (r=true → vs=(blocksFrom h onlyDirty i.toNat).map (blockWrite h)) ∧
      (r=true ↔ ∀ n, ws.length≤n → n<ws.length+vs.length → results n=true) := by
  have hb := hm.bound .stable
  have hext := h.shape.extent_eq .stable
  induction fuel generalizing i ws with
  | zero => omega
  | succ fuel ih =>
    rw [Hive.writeBlocks]
    by_cases hlt : i.toNat<(h.storage .stable).length
    · rw [if_pos hlt]
      obtain ⟨hnext,hnil⟩ | ⟨j,hnext,hij,hj,hcons⟩ := nextBlock_spec hd onlyDirty i hlt
      · rw [hnext,hnil]
        exact ⟨true,[],by simp,by simp,by simp,by simp; omega⟩
      · rw [hnext,hcons]
        dsimp only
        rw [blockPtr_spec hm hj,HiveM.ok_bind]
        have hoff : (⟨(j.toNat+1)*4096%2^32,slice (h.image .stable) (j.toNat*4096) 4096,
            4096⟩ : Write)=blockWrite h j.toNat := by
          rw [blockWrite,Nat.mod_eq_of_lt (by omega)]
        have hsucc : (j+1).toNat=j.toNat+1 := by
          rw [BitVec.toNat_add]
          have : (1 : BitVec 32).toNat=1 := rfl
          omega
        rw [hoff]
        cases hres : results ws.length with
        | false =>
          refine ⟨false,[blockWrite h j.toNat],rfl,?_,by simp,by simp,fun hall => ?_⟩
          · exact cons_prefix_cons.mpr ⟨rfl,_,rfl⟩
          · rw [hall _ le_rfl (by simp)] at hres
            exact hres.symm
        | true =>
          obtain ⟨r,vs,hrun,hpre,hfull,hok⟩ :=
            ih (j+1) (ws++[blockWrite h j.toNat]) (by omega) (by omega)
          rw [hsucc] at hpre hfull
          refine ⟨r,blockWrite h j.toNat::vs,?_,?_,fun hr => ?_,hok.trans ?_⟩
          · rw [if_pos rfl,hrun,append_assoc]
            rfl
          · exact cons_prefix_cons.mpr ⟨rfl,hpre⟩
          · rw [hfull hr]
            rfl
          · simp only [length_append,length_cons,length_nil]
            refine forall_congr' fun n =>
              ⟨fun hn h1 h2 => ?_,fun hn h1 h2 => hn (by omega) (by omega)⟩
            obtain rfl | hlt := Nat.eq_or_lt_of_le h1
            · exact hres
            · exact hn (by omega) (by omega)
    · rw [if_neg hlt]
      have hnil : blocksFrom h onlyDirty i.toNat=[] :=
        blocksFrom_eq_nil fun k h1 (h2 : k<(h.storage .stable).length) => by omega
      rw [hnil]
      exact ⟨true,[],by simp,by simp,by simp,by simp; omega⟩

theorem writeBlocks_dirty (hm : Mapped h.shape l.bins) (hd : DirtyOk h) {results : Nat → Bool}
    (hres : ∀ n, results n=true) (ws : List Write) :
    h.writeBlocks true results (h.shape.length .stable+1) 0 ws =
      .ok (true, ws++(blocksFrom h true 0).map (blockWrite h)) := by
  obtain ⟨r,vs,hrun,-,hfull,hok⟩ := writeBlocks_spec hm hd true results
    (h.shape.length .stable+1) 0 ws (Nat.zero_le _) (Nat.lt_succ_self _)
  obtain rfl := hok.mpr fun n _ _ => hres n
  rw [hrun,hfull rfl]
  rfl

theorem mem_blocksFrom_dirty (hd : DirtyOk h) (j : Nat) :
    j∈blocksFrom h true 0 ↔ h.dirtyVector.bit j=true := by
  rw [mem_blocksFrom]
  refine ⟨fun hj => hj.2.2.resolve_left nofun,fun hj => ?_⟩
  refine ⟨Nat.zero_le j,not_le.mp fun hge => ?_,.inr hj⟩
  rw [hd.clear j hge] at hj
  cases hj

/-- `RtlFindSetBits` gives the run it is described to give exactly where its sums do not wrap,
unless it scans a map of almost `2 ^ 32` bits. The hive writer visits every set bit once. -/
theorem rtlFindSetBits_correct (b : Bitmap) (n hint : BitVec 32) (hn : 0<n.toNat)
    (hle : n≤b.sizeOfBitMap) (hhint : hint<b.sizeOfBitMap) :
    (SearchOk b.bit b.sizeOfBitMap.toNat n.toNat 0 hint.toNat → FindsFirstSet b n hint) ∧
      (b.sizeOfBitMap.toNat+31<2^32 → FindsFirstSet b n hint →
        SearchOk b.bit b.sizeOfBitMap.toNat n.toNat 0 hint.toNat) ∧
      ∀ (h : Hive) (l : Layout) (results : Nat → Bool) (ws : List Write), Mapped h.shape l.bins →
        DirtyOk h → (∀ n, results n=true) →
        h.writeBlocks true results (h.shape.length .stable+1) 0 ws =
            .ok (true, ws++(blocksFrom h true 0).map (blockWrite h)) ∧
          (blocksFrom h true 0).Nodup ∧
          ∀ j, j∈blocksFrom h true 0 ↔ h.dirtyVector.bit j=true := by
  refine ⟨findsFirstSet_of_ok hn hle,fun hb hfinds => ?_,fun h l results ws hm hd hres => ?_⟩
  · obtain ⟨⟨turns,hr⟩,-⟩ := hfinds
    rw [BitVec.lt_def] at hhint
    exact (searchOk_of_findBits (fun _ => scans_set) hn hle hb (by omega) hr).1
  · exact ⟨writeBlocks_dirty hm hd hres ws,Nodup.filter _ nodup_range',mem_blocksFrom_dirty hd⟩

theorem rtlFindSetBits_correct_four_bits : FindsFirstSet ⟨4,fun _ => 4⟩ 1 0 :=
  (rtlFindSetBits_correct ⟨4,fun _ => 4⟩ 1 0 (by decide) (by decide) (by decide)).1
    (.inl ⟨by decide,ends_of_lt (by decide) (by decide) (by decide)⟩)

/-- In a map of `2 ^ 31` clear bits a search for as many set ones never ends. -/
theorem not_findsFirstSet_half : ¬FindsFirstSet ⟨0x80000000,fun _ => 0⟩ 0x80000000 0 := by
  rintro ⟨⟨turns,hr⟩,-⟩
  have hclear : ∀ i, Bitmap.bit ⟨0x80000000,fun _ => 0⟩ i≠true := by simp [Bitmap.bit,wordsBit]
  have hok := (searchOk_of_findBits (fun _ => scans_set) (by decide) (by decide) (by decide)
    (by decide) hr).1
  obtain ⟨-,⟨q,-,-,hset⟩ | ⟨⟨e,he,hout,hwrap⟩,-⟩⟩ | ⟨hhint,-⟩ := hok
  · exact hclear q (hset q le_rfl (Nat.lt_add_of_pos_right (by decide)))
  · obtain rfl | ⟨-,rfl | ⟨-,hset,-⟩⟩ := he
    · exact absurd hout (by decide)
    · exact absurd hwrap (by decide)
    · exact hclear _ hset
  · exact absurd hhint (by decide)

theorem HiveInv.setBaseBlock (hv : HiveInv h l) (b : Mem) : HiveInv (h.setBaseBlock b) l :=
  ⟨hv.mapped,fun t => ⟨(hv.tiled t).header,(hv.tiled t).tiles,(hv.tiled t).room⟩,hv.lists,
    ⟨hv.dirty.words,hv.dirty.covers,hv.dirty.small,hv.dirty.clear⟩⟩

def hiveWrites (h : Hive) (onlyDirty : Bool) : List Write :=
  ⟨0,Hive.beginHeader h.baseBlock,4096⟩::((blocksFrom h onlyDirty 0).map (blockWrite h) ++
    [⟨0,Hive.endHeader (Hive.beginHeader h.baseBlock),4096⟩])

structure Written (h : Hive) (onlyDirty : Bool) (results : Nat → Bool) (r : Bool) (b : Mem)
    (ws : List Write) : Prop where
  calls : ws=hiveWrites h onlyDirty ∧ b=Hive.endHeader (Hive.beginHeader h.baseBlock) ∧
      (∀ n, n+1<ws.length → results n=true) ∨
    r=false ∧ b=Hive.beginHeader h.baseBlock ∧
      ∃ us, us <+: (blocksFrom h onlyDirty 0).map (blockWrite h) ∧
        ws=⟨0,Hive.beginHeader h.baseBlock,4096⟩::us
  result : r=true ↔ ∀ n<ws.length, results n=true

/-- `HvpWriteHive` makes no call if the sequence numbers differ. Otherwise it changes the
header in memory only. -/
theorem hvpWriteHive_spec (hm : Mapped h.shape l.bins) (hd : DirtyOk h) (onlyDirty : Bool)
    (results : Nat → Bool) :
    getField h.baseBlock .sequence1≠getField h.baseBlock .sequence2 ∧
        h.hvpWriteHive onlyDirty results = .ok (false, h, []) ∨
      getField h.baseBlock .sequence1=getField h.baseBlock .sequence2 ∧
        ∃ r b ws, h.hvpWriteHive onlyDirty results = .ok (r, h.setBaseBlock b, ws) ∧
          Written h onlyDirty results r b ws := by
  unfold Hive.hvpWriteHive
  by_cases hseq : getField h.baseBlock .sequence1≠getField h.baseBlock .sequence2
  · rw [if_pos hseq]
    exact .inl ⟨hseq,rfl⟩
  rw [if_neg hseq]
  refine .inr ⟨not_not.mp hseq,?_⟩
  dsimp only
  generalize hh₁ : h.setBaseBlock (Hive.beginHeader h.baseBlock)=h₁
  have hbase : h₁.baseBlock=Hive.beginHeader h.baseBlock := hh₁ ▸ rfl
  rw [hbase]
  cases hres : results 0 with
  | false =>
    refine ⟨false,Hive.beginHeader h.baseBlock,[⟨0,Hive.beginHeader h.baseBlock,4096⟩],?_,
      Or.inr ⟨rfl,rfl,[],⟨_,rfl⟩,rfl⟩,?_⟩
    · rw [if_pos (by simp),← hh₁]
    · simp [hres]
  | true =>
    have hblocks : blocksFrom h₁ onlyDirty 0=blocksFrom h onlyDirty 0 := by
      rw [← hh₁]
      rfl
    have hwrite : blockWrite h₁=blockWrite h := by
      rw [← hh₁]
      rfl
    have hm₁ : Mapped h₁.shape l.bins := by rw [← hh₁]; exact hm
    have hd₁ : DirtyOk h₁ := by rw [← hh₁]; exact ⟨hd.words,hd.covers,hd.small,hd.clear⟩
    obtain ⟨r,vs,hrun,hpre,hfull,hok⟩ := writeBlocks_spec hm₁ hd₁ onlyDirty results
      ((h₁.storage .stable).length+1) 0 [⟨0,Hive.beginHeader h.baseBlock,4096⟩] (Nat.zero_le _)
      (by simp [Hive.shape])
    have hzero : (0 : BitVec 32).toNat=0 := rfl
    rw [hzero,hblocks,hwrite] at hpre hfull
    rw [if_neg (by simp),hrun,HiveM.ok_bind]
    -- the results of the calls so far, of which the first one is known
    have hall : (∀ n<vs.length+1, results n=true) ↔ r=true := by
      rw [hok,length_singleton]
      refine forall_congr' fun n => ⟨fun hn _ h2 => hn (by omega),fun hn h2 => ?_⟩
      cases n with
      | zero => exact hres
      | succ n => exact hn (by omega) (by omega)
    cases r with
    | false =>
      refine ⟨false,Hive.beginHeader h.baseBlock,⟨0,Hive.beginHeader h.baseBlock,4096⟩::vs,
        ?_,.inr ⟨rfl,rfl,vs,hpre,rfl⟩,hall.symm⟩
      rw [if_pos (by simp),hh₁]
      rfl
    | true =>
      obtain rfl := hfull rfl
      refine ⟨results (((blocksFrom h onlyDirty 0).map (blockWrite h)).length+1),
        Hive.endHeader (Hive.beginHeader h.baseBlock),hiveWrites h onlyDirty,?_,
        Or.inl ⟨rfl,rfl,fun n hn => hall.mpr rfl n ?_⟩,?_⟩
      · rw [if_neg (by simp),← hh₁]
        rfl
      · rwa [hiveWrites,length_cons,length_append,length_singleton,Nat.add_lt_add_iff_right] at hn
      · rw [hiveWrites,length_cons,length_append,length_singleton]
        refine ⟨fun hlast n hn => ?_,fun hn => hn _ (Nat.lt_succ_self _)⟩
        obtain hn | rfl := Nat.lt_succ_iff_lt_or_eq.mp hn
        · exact hall.mpr rfl n hn
        · exact hlast

section Written

variable {results : Nat → Bool} {r : Bool} {b : Mem} {ws : List Write}

theorem Written.full (hw : Written h onlyDirty results r b ws) (hr : r=true) :
    ws=hiveWrites h onlyDirty ∧ b=Hive.endHeader (Hive.beginHeader h.baseBlock) := by
  obtain hfull | ⟨hfalse,-⟩ := hw.calls
  · exact ⟨hfull.1,hfull.2.1⟩
  · rw [hr] at hfalse
    cases hfalse

/-- A part at the start of the calls is empty, has the first header and some blocks, or is
everything. -/
theorem Written.crash (hw : Written h onlyDirty results r b ws) {vs : List Write} (hv : vs <+: ws) :
    vs=[] ∨ vs=hiveWrites h onlyDirty ∨
      ∃ us, us <+: (blocksFrom h onlyDirty 0).map (blockWrite h) ∧
        vs=⟨0,Hive.beginHeader h.baseBlock,4096⟩::us := by
  cases vs with
  | nil => exact .inl rfl
  | cons v vs =>
    refine .inr ?_
    obtain ⟨rfl,-⟩ | ⟨-,-,us,hus,rfl⟩ := hw.calls
    · obtain ⟨rfl,hvs⟩ := cons_prefix_cons.mp hv
      obtain rfl | hvs := prefix_concat_iff.mp hvs
      · exact .inl rfl
      · exact .inr ⟨vs,hvs,rfl⟩
    · obtain ⟨rfl,hvs⟩ := cons_prefix_cons.mp hv
      exact .inr ⟨vs,hvs.trans hus,rfl⟩

end Written

theorem covers_blockWrite : (blockWrite h i).Covers (4096+o) ↔ i=o/4096 := by
  unfold Write.Covers blockWrite
  dsimp only
  omega

theorem blockWrite_above (ho : o<4096) : ¬(blockWrite h i).Covers o := by
  unfold Write.Covers blockWrite
  dsimp only
  omega

theorem applyAll_blocks_header {us : List Write} {o : Nat}
    (hus : us <+: js.map (blockWrite h)) (ho : o<4096) : applyAll us file o=file o := by
  refine applyAll_of_outside fun w hw => ?_
  obtain ⟨i,-,rfl⟩ := mem_map.mp (hus.subset hw)
  exact blockWrite_above ho

/-- Some blocks of the image are written. -/
theorem applyAll_blocks {o : Nat} :
    applyAll (js.map (blockWrite h)) file (4096+o) =
      if o/4096∈js then h.image .stable o else file (4096+o) := by
  by_cases hmem : o/4096∈js
  · rw [if_pos hmem]
    refine applyAll_of_covered (fun w hw hc => ?_)
      ⟨_,mem_map_of_mem hmem,covers_blockWrite.mpr rfl⟩
    obtain ⟨i,-,rfl⟩ := mem_map.mp hw
    obtain rfl := covers_blockWrite.mp hc
    simp only [blockWrite]
    rw [slice_of_lt _ _ (by omega)]
    congr 1
    omega
  · rw [if_neg hmem]
    refine applyAll_of_outside fun w hw hc => hmem ?_
    obtain ⟨i,hi,rfl⟩ := mem_map.mp hw
    exact covers_blockWrite.mp hc ▸ hi

/-- The file after all calls of `HvpWriteHive`. -/
theorem applyAll_hiveWrites (h : Hive) (onlyDirty : Bool) (file : Mem) :
    (∀ o<4096, applyAll (hiveWrites h onlyDirty) file o =
        Hive.endHeader (Hive.beginHeader h.baseBlock) o) ∧
      ∀ o, applyAll (hiveWrites h onlyDirty) file (4096+o) =
        if o/4096<h.shape.length .stable ∧
          (onlyDirty=false ∨ h.dirtyVector.bit (o/4096)=true)
        then h.image .stable o else file (4096+o) := by
  have hheader : ∀ (b : Mem) (f : Mem) o, (⟨0,b,4096⟩ : Write).apply f o =
      if o<4096 then b o else f o := by
    simp [Write.apply,copy]
  constructor
  · intro o ho
    rw [hiveWrites,applyAll_cons,applyAll_append,applyAll_cons,applyAll_nil,hheader,if_pos ho]
  · intro o
    rw [hiveWrites,applyAll_cons,applyAll_append,applyAll_cons,applyAll_nil,hheader,
      applyAll_blocks,hheader]
    simp [mem_blocksFrom]

end Write

end Odyssey.Cm
