import Odyssey.Fastfat.FileData

/-! The transfers of a file reach its own sectors: every byte of the range is transferred once, to
or from its place in its cluster, and the cached cluster stays the cluster at the cached offset. -/
namespace Odyssey.Fastfat

open LinkedList List Nat DeviceExt

variable {f : FatInfo}

/-- The geometry of a volume that `VfatHasFileSystem` accepts. -/
structure FatInfo.Mountable (f : FatInfo) : Prop where
  bytesPerSector : f.bytesPerSector∈[512,1024,2048,4096]
  sectorsPerCluster : f.sectorsPerCluster∈[1,2,4,8,16,32,64,128]
  bytesPerCluster : f.bytesPerCluster=f.bytesPerSector*f.sectorsPerCluster

theorem FatInfo.Mountable.pow (h : f.Mountable) : ∃ k<32, f.bytesPerCluster=2^k := by
  have hbytes : ∀ n∈[512,1024,2048,4096], ∃ k<13, n=2^k := by decide
  have hsectors : ∀ n∈[1,2,4,8,16,32,64,128], ∃ k<8, n=2^k := by decide
  obtain ⟨j,hj,hbytes⟩ := hbytes _ h.bytesPerSector
  obtain ⟨k,hk,hsectors⟩ := hsectors _ h.sectorsPerCluster
  refine ⟨j+k,by omega,?_⟩
  rw [h.bytesPerCluster,hbytes,hsectors,pow_add]

variable {k : Nat}

/-- `ROUND_DOWN` to a power of two. -/
theorem roundDown_two_pow (n : Nat) (hk : k<32) : roundDown n (2^k)=lowPart n/2^k*2^k := by
  have hpow : 2^k<2^32 := Nat.pow_lt_pow_right (by omega) hk
  have hmask : BitVec.ofNat 32 (2^k)-1#32=BitVec.ofNat 32 (2^k-1) := by
    rw [BitVec.ofNat_sub_ofNat_of_le _ _ (by omega) Nat.one_le_two_pow]
  have hshift : BitVec.ofNat 32 n &&& ~~~(BitVec.ofNat 32 (2^k-1)) =
      (BitVec.ofNat 32 n >>> k) <<< k := by
    ext i hi
    have hbit : (BitVec.ofNat 32 (2^k-1))[i]=decide (i<k) := by
      rw [BitVec.getElem_eq_testBit_toNat,BitVec.toNat_ofNat,mod_eq_of_lt (by omega),
        testBit_two_pow_sub_one]
    by_cases hik : i<k
    · simp [hik,hbit]
    · simp [hik,hi,hbit,Nat.add_sub_cancel' (Nat.le_of_not_lt hik)]
  rw [roundDown,hmask,hshift,BitVec.toNat_shiftLeft,BitVec.toNat_ushiftRight,
    Nat.shiftRight_eq_div_pow,Nat.shiftLeft_eq]
  refine mod_eq_of_lt ?_
  calc n%2^32/2^k*2^k≤n%2^32 := div_mul_le_self _ _
    _<2^32 := mod_lt _ (by omega)

theorem FatInfo.Mountable.pos (h : f.Mountable) : 0<f.bytesPerCluster := by
  obtain ⟨k,-,hpow⟩ := h.pow
  rw [hpow]
  exact Nat.two_pow_pos k

theorem FatInfo.Mountable.roundDown (h : f.Mountable) {n : Nat} (hn : n<2^32) :
    Fastfat.roundDown n f.bytesPerCluster=n/f.bytesPerCluster*f.bytesPerCluster := by
  obtain ⟨k,hk,hpow⟩ := h.pow
  rw [hpow,roundDown_two_pow n hk,lowPart,mod_eq_of_lt hn]

def clusterAt (chain : List Nat) (k : Nat) : Nat := chain.getD k endMark

variable {chain : List Nat}

theorem clusterAt_eq_get (hk : k<chain.length) : chain[k]?=some (clusterAt chain k) := by
  simp [clusterAt,hk]

theorem clusterAt_mem (hk : k<chain.length) : clusterAt chain k∈chain := by
  simp [clusterAt,hk]

structure ClusterChain (d : DeviceExt) (chain : List Nat) : Prop where
  next : ∀ k<chain.length, d.readNext (clusterAt chain k)=clusterAt chain (k+1)
  two_le : ∀ k<chain.length, 2≤clusterAt chain k
  lt_end : ∀ k<chain.length, clusterAt chain k<endMark

variable {d : DeviceExt} {first : Nat}

theorem clusterAt_zero_of_chain (h : Chain endMark id d.readNext first chain) :
    first=clusterAt chain 0 := by
  cases chain with
  | nil => exact h
  | cons c chain => exact h.1

theorem readNext_clusterAt (h : Chain endMark id d.readNext first chain) (hk : k<chain.length) :
    d.readNext (clusterAt chain k)=clusterAt chain (k+1) := by
  induction chain generalizing first k with
  | nil => exact absurd hk (by simp)
  | cons c chain ih =>
    cases k with
    | zero =>
      have hnext := clusterAt_zero_of_chain h.2.2
      simpa [clusterAt] using hnext
    | succ k =>
      have hrest := ih h.2.2 (lt_of_succ_lt_succ hk)
      simpa [clusterAt] using hrest

theorem DeviceExt.readNext_le (d : DeviceExt) (c : Nat) : d.readNext c≤endMark := by
  have hbits : 2^d.fatInfo.fatType.bits≤2^28 := by
    cases d.fatInfo.fatType with
    | fat12 => decide
    | fat16 => decide
    | fat32 => decide
  have hend : endMark=2^32-1 := rfl
  rw [readNext_eq]
  split
  · exact le_refl _
  · omega

theorem le_endMark_of_chain
    (h : Chain endMark id d.readNext first chain) (hfirst : first≤endMark) :
    ∀ c∈chain, c<endMark := by
  induction chain generalizing first with
  | nil => simp
  | cons c chain ih =>
    obtain ⟨rfl,hne,hrest⟩ := h
    intro e he
    obtain rfl | he := mem_cons.mp he
    · exact lt_of_le_of_ne hfirst hne
    · exact ih hrest (d.readNext_le _) e he

theorem ClusterChain.of_chain (h : Chain endMark id d.readNext first chain)
    (hfirst : first≤endMark) (htwo : ∀ c∈chain, 2≤c) : ClusterChain d chain :=
  ⟨fun _ hk => readNext_clusterAt h hk,fun _ hk => htwo _ (clusterAt_mem hk),
    fun _ hk => le_endMark_of_chain h hfirst _ (clusterAt_mem hk)⟩

namespace ClusterChain
section
variable (h : ClusterChain d chain) {n : Nat}
include h

theorem getNextCluster (hk : k<chain.length) (next : Nat) :
    d.getNextCluster (clusterAt chain k) next=(.success, clusterAt chain (k+1)) := by
  have htwo := h.two_le k hk
  have hne : clusterAt chain k≠0 := by omega
  rw [DeviceExt.getNextCluster,if_neg hne,h.next k hk]

theorem nextCluster {k first : Nat} (hk : k<chain.length) (hfirst : first≠1) :
    d.nextCluster first (clusterAt chain k) false=(.success, clusterAt chain (k+1), d) := by
  simp [DeviceExt.nextCluster,hfirst,h.getNextCluster hk]

theorem followChain (hk : k+n≤chain.length) :
    d.followChain false (clusterAt chain k) n=(.success, clusterAt chain (k+n), d) := by
  induction n generalizing k with
  | zero => rfl
  | succ n ih =>
    have hrest := ih (k := k+1) (by omega)
    rw [DeviceExt.followChain]
    simp only [Bool.false_eq_true,if_false,h.getNextCluster (show k<chain.length by omega),
      if_true,hrest]
    rw [add_assoc,add_comm 1]

theorem offsetToCluster (hk : k+n≤chain.length)
    (hlt : k<chain.length) (hpos : 0<d.fatInfo.bytesPerCluster) :
    d.offsetToCluster (clusterAt chain k) (n*d.fatInfo.bytesPerCluster) false =
      (.success, clusterAt chain (k+n), d) := by
  have htwo := h.two_le k hlt
  have hne : clusterAt chain k≠1 := by omega
  rw [DeviceExt.offsetToCluster,if_neg hne,Nat.mul_div_cancel _ hpos,h.followChain hk]

end

end ClusterChain

def diskPosition (d : DeviceExt) (chain : List Nat) (o : Nat) : Nat :=
  d.clusterToSector (clusterAt chain (o/d.fatInfo.bytesPerCluster))*d.fatInfo.bytesPerSector +
    o%d.fatInfo.bytesPerCluster

structure RunOf (d : DeviceExt) (chain : List Nat) (startCluster length offset startOffset : Nat)
    (r : DeviceExt.ClusterRun) : Prop where
  count_pos : 0<r.clusterCount
  consecutive : ∀ i<r.clusterCount,
    clusterAt chain (offset/d.fatInfo.bytesPerCluster+i)=startCluster+i
  current : r.currentCluster =
    clusterAt chain (offset/d.fatInfo.bytesPerCluster+r.clusterCount)
  done : r.bytesDone =
    min length (r.clusterCount*d.fatInfo.bytesPerCluster-offset%d.fatInfo.bytesPerCluster)
  used : (r.clusterCount-1)*d.fatInfo.bytesPerCluster <
    offset%d.fatInfo.bytesPerCluster+r.bytesDone
  start : r.startOffset=startOffset+offset%d.fatInfo.bytesPerCluster

section Runs
variable {length offset startCluster base : Nat}

/-- The clusters before the end of the range are clusters of the chain. -/
theorem index_lt (hin : offset+length≤chain.length*d.fatInfo.bytesPerCluster) {n : Nat}
    (hn : n*d.fatInfo.bytesPerCluster<offset%d.fatInfo.bytesPerCluster+length) :
    offset/d.fatInfo.bytesPerCluster+n<chain.length := by
  have hdiv := div_add_mod offset d.fatInfo.bytesPerCluster
  have hlt : (offset/d.fatInfo.bytesPerCluster+n)*d.fatInfo.bytesPerCluster <
      chain.length*d.fatInfo.bytesPerCluster := by
    rw [add_mul,mul_comm]
    omega
  exact Nat.lt_of_mul_lt_mul_right hlt

variable {r : DeviceExt.ClusterRun}

theorem RunOf.bytesDone_le
    (h : RunOf d chain startCluster length offset base r) : r.bytesDone≤length := by
  rw [h.done]
  exact min_le_left _ _

theorem RunOf.bytesDone_pos (hpos : 0<d.fatInfo.bytesPerCluster) (hlen : 0<length)
    (h : RunOf d chain startCluster length offset base r) : 0<r.bytesDone := by
  have hmod := mod_lt offset hpos
  have hle : d.fatInfo.bytesPerCluster≤r.clusterCount*d.fatInfo.bytesPerCluster :=
    Nat.le_mul_of_pos_left _ h.count_pos
  rw [h.done]
  omega

section
variable (hc : ClusterChain d chain) (hfirst : first≠1)
  (hin : offset+length≤chain.length*d.fatInfo.bytesPerCluster)
  (hpos : 0<d.fatInfo.bytesPerCluster) {isFirst : Bool}
include hc hfirst hin hpos

/-- The next cluster of a run. -/
theorem RunOf.mergeOnce
    (h : RunOf d chain startCluster length offset base r)
    (hnext : startCluster+r.clusterCount=r.currentCluster) (hlt : r.bytesDone<length) :
    RunOf d chain startCluster length offset base (d.mergeOnce first length offset false r) ∧
      r.bytesDone<(d.mergeOnce first length offset false r).bytesDone := by
  have hdone := h.done
  have hmod := mod_lt offset hpos
  have hpred : (r.clusterCount-1)*d.fatInfo.bytesPerCluster+d.fatInfo.bytesPerCluster =
      r.clusterCount*d.fatInfo.bytesPerCluster := by
    rw [← Nat.succ_mul,Nat.succ_eq_add_one,Nat.sub_add_cancel h.count_pos]
  have hsucc : (r.clusterCount+1)*d.fatInfo.bytesPerCluster =
      r.clusterCount*d.fatInfo.bytesPerCluster+d.fatInfo.bytesPerCluster := Nat.succ_mul _ _
  have hindex := index_lt (n := r.clusterCount) hin (by omega)
  have hstep := hc.nextCluster hindex hfirst
  rw [← h.current] at hstep
  refine ⟨⟨succ_pos _,?_,?_,?_,?_,h.start⟩,?_⟩
  · intro i hi
    by_cases hlast : i=r.clusterCount
    · rw [hlast,← h.current,hnext]
    · exact h.consecutive i (lt_of_le_of_ne (le_of_lt_succ hi) hlast)
  · simp only [DeviceExt.mergeOnce,hstep]
    rfl
  · simp only [DeviceExt.mergeOnce,Bool.false_eq_true,if_false]
    split <;> omega
  · simp only [DeviceExt.mergeOnce,Bool.false_eq_true,if_false,Nat.add_sub_cancel]
    split <;> omega
  · simp only [DeviceExt.mergeOnce,Bool.false_eq_true,if_false]
    split <;> omega

/-- The first cluster of a run. Behind the first run, runs start with a cluster. -/
theorem runOf_mergeOnce (hlen : 0<length)
    (hstart : isFirst=false → offset%d.fatInfo.bytesPerCluster=0) (base : Nat) :
    RunOf d chain (clusterAt chain (offset/d.fatInfo.bytesPerCluster)) length offset base
      (d.mergeOnce first length offset isFirst
        ⟨0,0,base,clusterAt chain (offset/d.fatInfo.bytesPerCluster)⟩) := by
  have hindex := index_lt (n := 0) hin (by omega)
  have hstep := hc.nextCluster hindex hfirst
  rw [add_zero] at hstep
  refine ⟨succ_pos _,?_,?_,?_,?_,?_⟩
  · intro i hi
    have hi : i=0 := lt_one_iff.mp hi
    rw [hi,add_zero,add_zero]
  · simp [mergeOnce,hstep]
  · cases isFirst with
    | true => simp [mergeOnce]
    | false =>
      have hzero := hstart rfl
      simp only [mergeOnce,Bool.false_eq_true,if_false,hzero,zero_add,one_mul]
      split <;> omega
  · cases isFirst with
    | true =>
      simp only [mergeOnce,if_true,zero_add]
      omega
    | false =>
      simp only [mergeOnce,Bool.false_eq_true,if_false,zero_add]
      split <;> omega
  · cases isFirst with
    | true => rfl
    | false => simp [mergeOnce,hstart]

theorem RunOf.mergeLoop {startCluster base fuel : Nat}
    (h : RunOf d chain startCluster length offset base r)
    (hnext : startCluster+r.clusterCount=r.currentCluster) (hlt : r.bytesDone<length)
    (hfuel : length-r.bytesDone≤fuel) :
    RunOf d chain startCluster length offset base
      (d.mergeLoop first startCluster length offset fuel false r) := by
  induction fuel generalizing r with
  | zero => omega
  | succ fuel ih =>
    obtain ⟨hrun,hmore⟩ := h.mergeOnce hc hfirst hin hpos hnext hlt
    rw [mergeLoop]
    split
    · rename_i hagain
      exact ih hrun hagain.1 hagain.2.2 (by omega)
    · exact hrun

/-- The inner loop as it is called. -/
theorem runOf_mergeLoop (hlen : 0<length)
    (hstart : isFirst=false → offset%d.fatInfo.bytesPerCluster=0) (base : Nat) :
    RunOf d chain (clusterAt chain (offset/d.fatInfo.bytesPerCluster)) length offset base
      (d.mergeLoop first (clusterAt chain (offset/d.fatInfo.bytesPerCluster)) length offset length
        isFirst ⟨0,0,base,clusterAt chain (offset/d.fatInfo.bytesPerCluster)⟩) := by
  have hrun := runOf_mergeOnce hc hfirst hin hpos hlen hstart base
  have hmore := hrun.bytesDone_pos hpos hlen
  obtain ⟨fuel,rfl⟩ : ∃ fuel, length=fuel+1 := ⟨length-1,by omega⟩
  rw [mergeLoop]
  split
  · rename_i hagain
    exact hrun.mergeLoop hc hfirst hin hpos hagain.1 hagain.2.2 (by omega)
  · exact hrun

end

end Runs

def Transfer.moves (t : Transfer) : List (Nat × Nat) :=
  (List.range t.length).map fun i => (t.bufferOffset+i, t.diskOffset+i)

def fileMoves (d : DeviceExt) (chain : List Nat) (length offset bufferOffset : Nat) :
    List (Nat × Nat) :=
  (List.range length).map fun i => (bufferOffset+i, diskPosition d chain (offset+i))

theorem fileMoves_add (d : DeviceExt) (chain : List Nat) (m n offset bufferOffset : Nat) :
    fileMoves d chain (m+n) offset bufferOffset =
      fileMoves d chain m offset bufferOffset ++
        fileMoves d chain n (offset+m) (bufferOffset+m) := by
  simp [fileMoves,range_add,add_assoc]

theorem DeviceExt.clusterToSector_add {c i : Nat} (hc : 2≤c) (hlt : c+i<endMark) :
    d.clusterToSector (c+i) =
      d.clusterToSector c+i*d.fatInfo.sectorsPerCluster := by
  have hend : endMark<2^32 := by decide
  have hwrap : ∀ e, 2≤e → e<2^32 → (e+2^32-2)%2^32=e-2 := by
    omega
  rw [clusterToSector,clusterToSector,hwrap _ (by omega) (by omega),add_assoc,← add_mul]
  congr 2
  omega

/-- A run connects the buffer with the places of its range. -/
theorem RunOf.moves {startCluster length offset : Nat}
    (hinfo : d.fatInfo.Mountable) (hc : ClusterChain d chain)
    (hpos : 0<d.fatInfo.bytesPerCluster)
    (hin : offset+length≤chain.length*d.fatInfo.bytesPerCluster)
    (h : RunOf d chain startCluster length offset
      (d.clusterToSector startCluster*d.fatInfo.bytesPerSector) r) (bufferOffset : Nat) :
    Transfer.moves ⟨r.startOffset,r.bytesDone,bufferOffset⟩ =
      fileMoves d chain r.bytesDone offset bufferOffset := by
  refine map_congr_left fun i hi => ?_
  have hi : i<r.bytesDone := mem_range.mp hi
  have hdone := h.done
  -- the cluster of the byte within the run
  obtain ⟨n,hn⟩ : ∃ n, (offset%d.fatInfo.bytesPerCluster+i)/d.fatInfo.bytesPerCluster=n :=
    ⟨_,rfl⟩
  have hsplit := div_add_mod (offset%d.fatInfo.bytesPerCluster+i) d.fatInfo.bytesPerCluster
  rw [hn] at hsplit
  have hcount : n<r.clusterCount := by
    refine Nat.lt_of_mul_lt_mul_right (a := d.fatInfo.bytesPerCluster) ?_
    rw [Nat.mul_comm]
    omega
  have hindex : (offset+i)/d.fatInfo.bytesPerCluster =
      offset/d.fatInfo.bytesPerCluster+n := by
    conv_lhs => rw [← div_add_mod offset d.fatInfo.bytesPerCluster,add_assoc]
    rw [mul_add_div hpos,hn]
  have hmod : (offset+i)%d.fatInfo.bytesPerCluster =
      (offset%d.fatInfo.bytesPerCluster+i)%d.fatInfo.bytesPerCluster := by
    rw [mod_add_mod]
  have hlt : startCluster+n<endMark := by
    rw [← h.consecutive n hcount]
    refine hc.lt_end _ (index_lt hin ?_)
    rw [mul_comm]
    omega
  have hstart : 2≤ startCluster := by
    have hfirst := h.consecutive 0 h.count_pos
    rw [add_zero,add_zero] at hfirst
    rw [← hfirst]
    refine hc.two_le _ (index_lt (n := 0) hin ?_)
    omega
  have hbytes : n*d.fatInfo.sectorsPerCluster*d.fatInfo.bytesPerSector =
      d.fatInfo.bytesPerCluster*n := by
    rw [hinfo.bytesPerCluster]
    ring
  rw [diskPosition,hindex,h.consecutive n hcount,clusterToSector_add hstart hlt,
    h.start,add_mul]
  dsimp only
  congr 1
  omega

structure Cached (d : DeviceExt) (chain : List Nat) (fcb : Fcb) : Prop where
  aligned : fcb.lastOffset%d.fatInfo.bytesPerCluster=0
  index : fcb.lastOffset/d.fatInfo.bytesPerCluster<chain.length
  cluster : fcb.lastCluster=clusterAt chain (fcb.lastOffset/d.fatInfo.bytesPerCluster)

section Loops
variable {s : DeviceExt.FileIo}

structure At (d : DeviceExt) (chain : List Nat) (s : DeviceExt.FileIo) : Prop where
  current : 0<s.length → s.currentCluster=clusterAt chain (s.offset/d.fatInfo.bytesPerCluster)
  inside : 0<s.length → s.offset+s.length≤chain.length*d.fatInfo.bytesPerCluster
  low : 0<s.length → s.offset+s.length≤2^32
  aligned : 0<s.length → s.first=false → s.offset%d.fatInfo.bytesPerCluster=0

theorem At.transferRun (hinfo : d.fatInfo.Mountable)
    (hc : ClusterChain d chain) (hfirst : first≠1) (h : At d chain s) (hlen : 0<s.length) :
    ∃ n, 0<n ∧ n≤ s.length ∧
      (d.transferRun first s).length=s.length-n ∧
      (d.transferRun first s).bufferOffset=s.bufferOffset+n ∧
      (d.transferRun first s).transfers.flatMap Transfer.moves =
        s.transfers.flatMap Transfer.moves++fileMoves d chain n s.offset s.bufferOffset ∧
      (n<s.length → (d.transferRun first s).offset=s.offset+n) ∧
      At d chain (d.transferRun first s) ∧
      Cached d chain (d.transferRun first s).fcb := by
  have hpos := hinfo.pos
  have hin := h.inside hlen
  have hlow := h.low hlen
  have hmod := mod_lt s.offset hpos
  have hdiv := div_add_mod s.offset d.fatInfo.bytesPerCluster
  have hrun := runOf_mergeLoop hc hfirst hin hpos hlen (h.aligned hlen)
    (d.clusterToSector (clusterAt chain (s.offset/d.fatInfo.bytesPerCluster)) *
      d.fatInfo.bytesPerSector)
  rw [← h.current hlen] at hrun
  rw [DeviceExt.transferRun]
  generalize d.mergeLoop first s.currentCluster s.length s.offset s.length s.first
    ⟨0,0,d.clusterToSector s.currentCluster*d.fatInfo.bytesPerSector,s.currentCluster⟩=r at hrun ⊢
  have hle := hrun.bytesDone_le
  have hdone := hrun.done
  have hused := hrun.used
  have hround := hinfo.roundDown (n := s.offset) (by omega)
  -- what is left starts with a cluster
  have hnext : 0<s.length-r.bytesDone → (s.offset+r.bytesDone)%2^32 =
      (s.offset/d.fatInfo.bytesPerCluster+r.clusterCount)*d.fatInfo.bytesPerCluster := by
    intro hmore
    have hlarge : d.fatInfo.bytesPerCluster≤r.clusterCount*d.fatInfo.bytesPerCluster :=
      Nat.le_mul_of_pos_left _ hrun.count_pos
    rw [Nat.mod_eq_of_lt (by omega),Nat.add_mul,Nat.mul_comm]
    omega
  have hlast : roundDown s.offset d.fatInfo.bytesPerCluster +
      (r.clusterCount-1)*d.fatInfo.bytesPerCluster =
      (s.offset/d.fatInfo.bytesPerCluster+(r.clusterCount-1))*d.fatInfo.bytesPerCluster := by
    rw [hround,add_mul]
  refine ⟨r.bytesDone,hrun.bytesDone_pos hpos hlen,hle,rfl,rfl,?_,?_,⟨?_,?_,?_,?_⟩,?_⟩
  · rw [flatMap_append,flatMap_singleton,hrun.moves hinfo hc hpos hin]
  · intro hlt
    exact mod_eq_of_lt (by omega)
  · intro hmore
    rw [hnext hmore,Nat.mul_div_cancel _ hpos,hrun.current]
  · intro hmore
    dsimp only at hmore ⊢
    omega
  · intro hmore
    dsimp only at hmore ⊢
    omega
  · intro hmore _
    rw [hnext hmore,mul_mod_left]
  · refine ⟨?_,?_,?_⟩
    · dsimp only
      rw [hlast,mul_mod_left]
    · dsimp only
      rw [hlast,Nat.mul_div_cancel _ hpos]
      exact index_lt hin (by omega)
    · dsimp only
      rw [hlast,Nat.mul_div_cancel _ hpos]
      exact (hrun.consecutive _ (Nat.sub_lt hrun.count_pos Nat.one_pos)).symm

/-- The outer loop transfers all of its range. -/
theorem At.transferLoop (hinfo : d.fatInfo.Mountable) (hc : ClusterChain d chain)
    (hfirst : first≠1) {fuel : Nat} (h : At d chain s)
    (hfuel : s.length≤fuel) (hcached : Cached d chain s.fcb) :
    (d.transferLoop first fuel s).length=0 ∧
      (d.transferLoop first fuel s).bufferOffset=s.bufferOffset+s.length ∧
      (d.transferLoop first fuel s).transfers.flatMap Transfer.moves =
        s.transfers.flatMap Transfer.moves++fileMoves d chain s.length s.offset s.bufferOffset ∧
      Cached d chain (d.transferLoop first fuel s).fcb := by
  induction fuel generalizing s with
  | zero =>
    have hzero : s.length=0 := by omega
    simp [DeviceExt.transferLoop,hzero,hcached,fileMoves]
  | succ fuel ih =>
    rw [DeviceExt.transferLoop]
    by_cases hlen : 0<s.length
    · have hindex : s.offset/d.fatInfo.bytesPerCluster<chain.length :=
        index_lt (n := 0) (h.inside hlen) (by omega)
      have hcurrent : s.currentCluster≠endMark := by
        rw [h.current hlen]
        exact Nat.ne_of_lt (hc.lt_end _ hindex)
      rw [if_pos ⟨hlen,hcurrent⟩]
      obtain ⟨n,hn,hle,hlength,hbuffer,hmoves,hoffset,hat,hcached⟩ :=
        h.transferRun hinfo hc hfirst hlen
      obtain ⟨hdone,hbuffer',hmoves',hcached'⟩ := ih hat (by omega) hcached
      refine ⟨hdone,by omega,?_,hcached'⟩
      have hrest : fileMoves d chain (s.length-n) (d.transferRun first s).offset
          (s.bufferOffset+n) =
          fileMoves d chain (s.length-n) (s.offset+n) (s.bufferOffset+n) := by
        by_cases hlt : n<s.length
        · rw [hoffset hlt]
        · have hnone : s.length-n=0 := by omega
          simp [hnone,fileMoves]
      have hadd := fileMoves_add d chain n (s.length-n) s.offset s.bufferOffset
      rw [Nat.add_sub_cancel' hle] at hadd
      rw [hmoves',hmoves,hlength,hbuffer,hrest,append_assoc,← hadd]
    · have hzero : s.length=0 := by omega
      simp [hzero,hcached,fileMoves]

end Loops

/-- The outer loop changes the cached pair of the control block alone. -/
theorem DeviceExt.transferLoop_fcb (d : DeviceExt) (first fuel : Nat) (s : DeviceExt.FileIo) :
    ∃ cluster offset, (d.transferLoop first fuel s).fcb =
      { s.fcb with lastCluster := cluster, lastOffset := offset } := by
  induction fuel generalizing s with
  | zero => exact ⟨s.fcb.lastCluster,s.fcb.lastOffset,rfl⟩
  | succ fuel ih =>
    rw [transferLoop]
    split
    · obtain ⟨cluster,offset,heq⟩ := ih (d.transferRun first s)
      exact ⟨cluster,offset,heq⟩
    · exact ⟨s.fcb.lastCluster,s.fcb.lastOffset,rfl⟩

/-- A file with data: its chain starts at the first cluster of its entry and holds its allocation,
which is a rounded `ULONG`. -/
structure FileOf (d : DeviceExt) (chain : List Nat) (fcb : Fcb) : Prop where
  not_fat : fcb.isFat=false
  not_volume : fcb.isVolume=false
  linked : Chain endMark id d.readNext (d.vfatDirEntryGetFirstCluster fcb) chain
  ne_nil : chain≠[]
  two_le : ∀ c∈chain, 2≤c
  allocated : fcb.allocationSize≤chain.length*d.fatInfo.bytesPerCluster
  low : fcb.allocationSize≤2^32

theorem DeviceExt.firstCluster_le (d : DeviceExt) (fcb : Fcb) :
    d.vfatDirEntryGetFirstCluster fcb≤endMark := by
  have hend : endMark=2^32-1 := rfl
  rw [vfatDirEntryGetFirstCluster]
  split
  · omega
  · omega

namespace FileOf
variable {fcb : Fcb}

theorem clusterChain (h : FileOf d chain fcb) : ClusterChain d chain :=
  .of_chain h.linked (d.firstCluster_le fcb) h.two_le

theorem first_ne_one (h : FileOf d chain fcb) : d.vfatDirEntryGetFirstCluster fcb≠1 := by
  have hlen : 0<chain.length := length_pos_iff.mpr h.ne_nil
  have htwo := h.clusterChain.two_le 0 hlen
  rw [clusterAt_zero_of_chain h.linked]
  omega

theorem findCluster (h : FileOf d chain fcb) (hinfo : d.fatInfo.Mountable)
    (hcached : fcb.lastCluster=0 ∨ Cached d chain fcb) {offset : Nat}
    (hoffset : offset<fcb.allocationSize) :
    d.findCluster fcb (d.vfatDirEntryGetFirstCluster fcb) offset =
      (.success, clusterAt chain (offset/d.fatInfo.bytesPerCluster), d) := by
  have hpos := hinfo.pos
  have hlow := h.low
  have halloc := h.allocated
  have hround := hinfo.roundDown (n := offset) (by omega)
  have hindex : offset/d.fatInfo.bytesPerCluster<chain.length := by
    refine Nat.div_lt_of_lt_mul ?_
    rw [Nat.mul_comm]
    omega
  rw [DeviceExt.findCluster]
  simp only [hround]
  split
  · rename_i hcase
    obtain hzero | hcached := hcached
    · exact absurd hzero (ne_of_gt hcase.1)
    · have hsplit := div_add_mod fcb.lastOffset d.fatInfo.bytesPerCluster
      rw [hcached.aligned,add_zero,mul_comm] at hsplit
      have hle : fcb.lastOffset/d.fatInfo.bytesPerCluster≤offset/d.fatInfo.bytesPerCluster :=
        Nat.div_le_div_right hcase.2
      have hdiff : offset/d.fatInfo.bytesPerCluster*d.fatInfo.bytesPerCluster-fcb.lastOffset =
          (offset/d.fatInfo.bytesPerCluster-fcb.lastOffset/d.fatInfo.bytesPerCluster) *
            d.fatInfo.bytesPerCluster := by
        rw [Nat.sub_mul,hsplit]
      rw [hdiff,hcached.cluster,h.clusterChain.offsetToCluster (by omega) hcached.index hpos,
        Nat.add_sub_cancel' hle]
  · have hle : 0+offset/d.fatInfo.bytesPerCluster≤chain.length := by omega
    rw [clusterAt_zero_of_chain h.linked,
      h.clusterChain.offsetToCluster hle (zero_lt_of_lt hindex) hpos,zero_add]

structure Inside (fcb : Fcb) (length offset : Nat) : Prop where
  offset_lt : offset<fcb.allocationSize
  end_le : offset+length≤fcb.allocationSize

theorem transferClusters (h : FileOf d chain fcb) (hinfo : d.fatInfo.Mountable)
    (hcached : fcb.lastCluster=0 ∨ Cached d chain fcb) {length offset : Nat}
    (hin : Inside fcb length offset) :
    let r := d.transferClusters fcb (d.vfatDirEntryGetFirstCluster fcb) length offset
    r.status = .success ∧ r.lengthDone=length ∧
      r.transfers.flatMap Transfer.moves=fileMoves d chain length offset 0 ∧
      Cached d chain r.fcb := by
  dsimp only
  have hpos := hinfo.pos
  have hlow := h.low
  have halloc := h.allocated
  have hoffset := hin.offset_lt
  have hend := hin.end_le
  have hround := hinfo.roundDown (n := offset) (by omega)
  have hindex : offset/d.fatInfo.bytesPerCluster<chain.length := by
    refine Nat.div_lt_of_lt_mul ?_
    rw [Nat.mul_comm]
    omega
  have hfound := h.findCluster hinfo hcached hoffset
  rw [DeviceExt.transferClusters]
  simp only [hfound,if_true]
  have hat : At d chain
      { first := true
        length := length
        offset := offset
        bufferOffset := 0
        currentCluster := clusterAt chain (offset/d.fatInfo.bytesPerCluster)
        fcb :=
          { fcb with
            lastCluster := clusterAt chain (offset/d.fatInfo.bytesPerCluster)
            lastOffset := roundDown offset d.fatInfo.bytesPerCluster }
        transfers := [] } := by
    refine ⟨fun _ => rfl,fun _ => ?_,fun _ => ?_,fun _ h => absurd h (by simp)⟩
    · exact hend.trans halloc
    · exact hend.trans hlow
  have hstart : Cached d chain
      { fcb with
        lastCluster := clusterAt chain (offset/d.fatInfo.bytesPerCluster)
        lastOffset := roundDown offset d.fatInfo.bytesPerCluster } := by
    refine ⟨?_,?_,?_⟩
    · dsimp only
      rw [hround,mul_mod_left]
    · dsimp only
      rwa [hround,Nat.mul_div_cancel _ hpos]
    · dsimp only
      rw [hround,Nat.mul_div_cancel _ hpos]
  obtain ⟨hlength,hbuffer,hmoves,hlast⟩ :=
    hat.transferLoop hinfo h.clusterChain h.first_ne_one (Nat.le_refl length) hstart
  refine ⟨?_,?_,?_,hlast⟩
  · rw [hlength]
    rfl
  · rw [hbuffer]
    exact zero_add length
  · rw [hmoves]
    rfl


end FileOf

inductive FileCall where
  | read (length offset : Nat)
  | write (length offset : Nat)

def FileCall.length : FileCall → Nat
  | .read length _ => length
  | .write length _ => length

def FileCall.offset : FileCall → Nat
  | .read _ offset => offset
  | .write _ offset => offset

namespace DeviceExt

def fileCall (d : DeviceExt) (fcb : Fcb) : FileCall → FileIoResult
  | .read length offset => d.vfatReadFileData fcb length offset
  | .write length offset => d.vfatWriteFileData fcb length offset

def fileCalls (d : DeviceExt) (fcb : Fcb) (calls : List FileCall) : Fcb :=
  calls.foldl (fun fcb call => (d.fileCall fcb call).fcb) fcb

theorem transferClusters_fcb (d : DeviceExt) (fcb : Fcb) (first length offset : Nat) :
    ∃ cluster start, (d.transferClusters fcb first length offset).fcb =
      { fcb with lastCluster := cluster, lastOffset := start } := by
  rw [transferClusters]
  split
  · exact d.transferLoop_fcb first length _
  · exact ⟨fcb.lastCluster,fcb.lastOffset,rfl⟩

end DeviceExt

namespace FileOf
variable {fcb : Fcb} {call : FileCall} {size : Nat}

/-- Both routines come to the clusters of the file. -/
theorem fileCall (h : FileOf d chain fcb) (hin : Inside fcb call.length call.offset) :
    d.fileCall fcb call =
      d.transferClusters fcb (d.vfatDirEntryGetFirstCluster fcb) call.length call.offset := by
  have hlow := h.low
  have hoffset := hin.offset_lt
  have hlowPart : lowPart call.offset=call.offset := mod_eq_of_lt (by omega)
  cases call with
  | read length offset =>
    simp only [FileCall.offset] at hlowPart
    simp [DeviceExt.fileCall,vfatReadFileData,h.not_fat,h.not_volume,h.first_ne_one,hlowPart,
      FileCall.length,FileCall.offset]
  | write length offset =>
    simp only [FileCall.offset] at hlowPart
    simp [DeviceExt.fileCall,vfatWriteFileData,h.not_fat,h.not_volume,h.first_ne_one,hlowPart,
      FileCall.length,FileCall.offset]

structure Ready (d : DeviceExt) (chain : List Nat) (size : Nat) (fcb : Fcb) : Prop where
  file : FileOf d chain fcb
  cached : fcb.lastCluster=0 ∨ Cached d chain fcb
  size_eq : fcb.allocationSize=size

theorem Ready.fileCall (hinfo : d.fatInfo.Mountable) (h : Ready d chain size fcb)
    (hin : Inside fcb call.length call.offset) :
    Ready d chain size (d.fileCall fcb call).fcb := by
  have hafter := h.file.transferClusters hinfo h.cached hin
  rw [h.file.fileCall hin]
  obtain ⟨cluster,start,heq⟩ := d.transferClusters_fcb fcb (d.vfatDirEntryGetFirstCluster fcb)
    call.length call.offset
  have hcached := hafter.2.2.2
  rw [heq] at hcached ⊢
  refine ⟨⟨h.file.not_fat,h.file.not_volume,?_,h.file.ne_nil,h.file.two_le,h.file.allocated,
    h.file.low⟩,.inr hcached,h.size_eq⟩
  exact h.file.linked

theorem Ready.fileCalls (hinfo : d.fatInfo.Mountable) (h : Ready d chain size fcb)
    {calls : List FileCall} (hin : ∀ call∈calls, call.offset<size ∧ call.offset+call.length≤ size) :
    Ready d chain size (d.fileCalls fcb calls) := by
  induction calls generalizing fcb with
  | nil => exact h
  | cons call calls ih =>
    obtain ⟨hoffset,hend⟩ := hin call (by simp)
    rw [← h.size_eq] at hoffset hend
    exact ih (h.fileCall hinfo ⟨hoffset,hend⟩) fun c hc => hin c (by simp [hc])

end FileOf

/-- After any requests inside the allocation, a request inside the allocation transfers each byte of
its range once, between its place in the buffer and its place in its cluster, and leaves the cluster
of the chain at the cached offset in the cache. -/
theorem file_data_transfers (d : DeviceExt) (chain : List Nat) (fcb : Fcb) (calls : List FileCall)
    (call : FileCall) (hinfo : d.fatInfo.Mountable) (hfile : FileOf d chain fcb)
    (hcached : fcb.lastCluster=0 ∨ Cached d chain fcb)
    (hcalls : ∀ c∈call::calls, c.offset<fcb.allocationSize ∧ c.offset+c.length≤fcb.allocationSize) :
    (d.fileCall (d.fileCalls fcb calls) call).status = .success ∧
    (d.fileCall (d.fileCalls fcb calls) call).transfers.flatMap Transfer.moves =
      (List.range call.length).map (fun i => (i, diskPosition d chain (call.offset+i))) ∧
    chain[(d.fileCall (d.fileCalls fcb calls) call).fcb.lastOffset/d.fatInfo.bytesPerCluster]? =
      some (d.fileCall (d.fileCalls fcb calls) call).fcb.lastCluster := by
  have hready : FileOf.Ready d chain fcb.allocationSize (d.fileCalls fcb calls) :=
    FileOf.Ready.fileCalls hinfo ⟨hfile,hcached,rfl⟩ fun c hc => hcalls c (by simp [hc])
  have hin : FileOf.Inside (d.fileCalls fcb calls) call.length call.offset := by
    obtain ⟨hoffset,hend⟩ := hcalls call (by simp)
    rw [← hready.size_eq] at hoffset hend
    exact ⟨hoffset,hend⟩
  obtain ⟨hstatus,-,hmoves,hlast⟩ := hready.file.transferClusters hinfo hready.cached hin
  rw [hready.file.fileCall hin]
  refine ⟨hstatus,?_,?_⟩
  · rw [hmoves,fileMoves]
    simp
  · rw [hlast.cluster]
    exact clusterAt_eq_get hlast.index

def threeClusters : DeviceExt where
  fatInfo := ⟨.fat16,512,1,512,4,1,1,1,2,3⟩
  fat := fun a => if a=4 then 3 else if a=6 then 5 else if a=10 ∨ a=11 then 0xff else 0
  lastAvailableCluster := 2
  availableClusters := 0
  availableClustersValid := false

def threeClustersFile : Fcb := ⟨false,false,2,0,1400,1536,0,0⟩

theorem file_data_transfers_threeClusters :
    (threeClusters.fileCall
      (threeClusters.fileCalls threeClustersFile [.read 512 512,.write 1024 512])
      (.read 1536 0)).transfers.flatMap Transfer.moves =
      (List.range 1536).map fun i => (i, diskPosition threeClusters [2,3,5] (0+i)) := by
  have hend : threeClusters.readNext 5=endMark := by decide
  refine (file_data_transfers threeClusters [2,3,5] threeClustersFile
    [.read 512 512,.write 1024 512] (.read 1536 0) ⟨by decide,by decide,rfl⟩ ?_ (.inl rfl)
    ?_).2.1
  · exact ⟨rfl,rfl,⟨by decide,by decide,by decide,by decide,by decide,by decide,hend⟩,
      by decide,by decide,by decide,by decide⟩
  · decide

end Odyssey.Fastfat
