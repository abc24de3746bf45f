import Mathlib.Algebra.BigOperators.Intervals
import Odyssey.Fastfat.FileTransfers
import Odyssey.Lib.GuardedRuns

/-! The free clusters of a volume: the search finds one whenever there is one, and the count of the
available clusters is right whenever it is valid, if every write was to a cluster of the volume or
left its entry free or in use. -/
namespace Odyssey.Fastfat
open Finset ChunkedScan GuardedRuns

variable {d : DeviceExt}

namespace DeviceExt

/-! The loops over the mapped chunks are plain loops over the clusters. -/

theorem chunkSize_pow (h : d.fatInfo.Mountable) : ∃ k<32, d.chunkSize=2^k := by
  unfold chunkSize
  split
  · exact h.pow
  · exact ⟨12,by decide,rfl⟩

theorem add_lt_of_mod_add_lt {x k width : Nat} (hk : k<32) (hx : x<2^32)
    (h : x%2^k+width<2^k) : x+width<2^32 := by
  have hpow : 2^k*2^(32-k)=2^32 := by rw [← pow_add,Nat.add_sub_cancel' hk.le]
  have hchunk : x/2^k<2^(32-k) := Nat.div_lt_of_lt_mul (hx.trans_eq hpow.symm)
  calc x+width=2^k*(x/2^k)+(x%2^k+width) := by rw [← Nat.add_assoc,Nat.div_add_mod]
    _ < 2^k*(x/2^k)+2^k := by omega
    _ = 2^k*(x/2^k+1) := rfl
    _ ≤ 2^k*2^(32-k) := Nat.mul_le_mul_left _ hchunk
    _ = 2^32 := hpow

theorem overChunks_eq {σ ρ : Type} {offset : Nat → Nat} {width limit : Nat}
    {visit : Nat → Nat → σ → Except ρ σ} (h : d.fatInfo.Mountable)
    (hoffset : ∀ i, offset i=i*width%2^32) (start : Nat) (s : σ) :
    d.overChunks offset width visit limit start s =
      scan visit offset (limit-start) start s := by
  obtain ⟨k,hk,hsize⟩ := chunkSize_pow h
  have hlt : ∀ i, offset i<2^32 := fun i => by
    rw [hoffset]
    exact Nat.mod_lt _ (by decide)
  refine scanChunks_eq ?_ (by rw [hsize]; exact Nat.two_pow_pos k) ?_ (Nat.sub_le _ _)
  · -- an entry that is not the last of its chunk is not the last of the table
    intro i hnext
    rw [hsize] at hnext
    have hbound := add_lt_of_mod_add_lt hk (hlt i) hnext
    rw [hoffset] at hbound ⊢
    rw [hoffset,Nat.add_mul,Nat.one_mul,← Nat.mod_add_mod,Nat.mod_eq_of_lt hbound]
  · intro i
    rw [hsize,roundDown_two_pow _ hk,lowPart,Nat.mod_eq_of_lt (hlt i)]
    exact ⟨Nat.div_add_mod' _ _,Nat.mul_mod_left _ _⟩

theorem foundBy_scan {word : Nat → Nat} {offset : Nat → Nat}
    (hentry : ∀ i, d.entry i=word (offset i)) (n i : Nat) :
    foundBy (scan (findVisit word) offset n i ())=d.findAvailable i n := by
  induction n generalizing i with
  | zero => rfl
  | succ n ih =>
    rw [scan,findVisit,findAvailable,hentry]
    split
    · rfl
    · exact ih (i+1)

theorem countedBy_scan {word : Nat → Nat} {offset : Nat → Nat}
    (hentry : ∀ i, d.entry i=word (offset i)) (n i : Nat) (count : BitVec 32) :
    countedBy (scan (countVisit word) offset n i count)=d.countLoop i n count := by
  induction n generalizing i count with
  | zero => rfl
  | succ n ih =>
    rw [countLoop,hentry]
    exact ih (i+1) _

/-- The entries of a table of words or double words. -/
theorem entry_eq_word (i : Nat) :
    match d.fatInfo.fatType with
    | .fat12 => True
    | .fat16 => d.entry i=fat16Word d.fat (fat16Offset i)
    | .fat32 => d.entry i=fat32Word d.fat (fat32Offset i) := by
  unfold entry
  cases d.fatInfo.fatType <;> trivial

theorem findBetween_eq (h : d.fatInfo.Mountable) (start limit : Nat) :
    d.findBetween start limit=d.findAvailable start (limit-start) := by
  have hentry := d.entry_eq_word
  unfold findBetween
  cases htype : d.fatInfo.fatType with
  | fat12 => rfl
  | fat16 | fat32 =>
    rw [htype] at hentry
    refine Eq.trans ?_ (foundBy_scan hentry _ _)
    exact congrArg foundBy (overChunks_eq h (fun _ => rfl) start ())

theorem count_eq (h : d.fatInfo.Mountable) : d.count=d.countLoop 2 (d.fatLength-2) 0 := by
  have hentry := d.entry_eq_word
  unfold count
  cases htype : d.fatInfo.fatType with
  | fat12 => rfl
  | fat16 | fat32 =>
    rw [htype] at hentry
    exact (congrArg countedBy (overChunks_eq h (fun _ => rfl) 2 0)).trans
      (countedBy_scan hentry _ _ _)

def InVolume (d : DeviceExt) (c : Nat) : Prop := 2≤c ∧ c<d.fatInfo.numberOfClusters+2

instance (d : DeviceExt) (c : Nat) : Decidable (d.InVolume c) :=
  inferInstanceAs (Decidable (_ ∧ _))

def freeClusters (d : DeviceExt) : Finset Nat :=
  (Finset.Ico 2 d.fatLength).filter fun c => d.entry c=0

theorem mem_freeClusters {c : Nat} : c∈d.freeClusters ↔ d.InVolume c ∧ d.entry c=0 := by
  simp [freeClusters,fatLength,InVolume]

theorem findAvailable_some {start n i : Nat}
    (h : d.findAvailable start n=some i) : start ≤ i ∧ i<start+n ∧ d.entry i=0 := by
  induction n generalizing start with
  | zero => simp [findAvailable] at h
  | succ n ih =>
    unfold findAvailable at h
    split at h
    · rename_i hzero
      rw [Option.some.injEq] at h
      subst h
      exact ⟨Nat.le_refl _,by omega,hzero⟩
    · obtain ⟨h1,h2,h3⟩ := ih h
      exact ⟨by omega,by omega,h3⟩

theorem findAvailable_none {start n : Nat} (h : d.findAvailable start n=none)
    {i : Nat} (hi : start ≤ i) (hn : i<start+n) : d.entry i≠0 := by
  induction n generalizing start with
  | zero => omega
  | succ n ih =>
    unfold findAvailable at h
    split at h
    · simp at h
    · rename_i hzero
      by_cases heq : i=start
      · rw [heq]
        exact hzero
      · exact ih h (by omega) (by omega)

section
variable (d : DeviceExt)

theorem countLoop_eq (i n : Nat) (count : BitVec 32) :
    d.countLoop i n count=count +
      BitVec.ofNat 32 ((Finset.Ico i (i+n)).filter fun c => d.entry c=0).card := by
  induction n generalizing i count with
  | zero => simp [countLoop]
  | succ n ih =>
    have hsum : ((Finset.Ico i (i+(n+1))).filter fun c => d.entry c=0).card =
        (if d.entry i=0 then 1 else 0) +
          ((Finset.Ico (i+1) (i+1+n)).filter fun c => d.entry c=0).card := by
      rw [card_filter,card_filter,sum_eq_sum_Ico_succ_bot (by omega)]
      congr 3
      omega
    rw [countLoop,ih,hsum,BitVec.ofNat_add]
    split
    · rw [BitVec.add_assoc]
      rfl
    · simp

theorem freeClusters_card_le : d.freeClusters.card≤d.fatInfo.numberOfClusters := by
  have hle := card_filter_le (Finset.Ico 2 d.fatLength) fun c => d.entry c=0
  rw [Nat.card_Ico] at hle
  unfold freeClusters
  have hlen : d.fatLength-2=d.fatInfo.numberOfClusters := Nat.add_sub_cancel _ _
  omega

/-- One entry is written. -/
theorem freeClusters_update (d' : DeviceExt) {c x : Nat} (hinfo : d'.fatInfo=d.fatInfo)
    (hentry : ∀ e<d.fatInfo.numberOfClusters+2, d'.entry e=if e=c then x else d.entry e) :
    (x=0 ∧ d.InVolume c → d'.freeClusters=insert c d.freeClusters) ∧
    (¬(x=0 ∧ d.InVolume c) → d'.freeClusters=d.freeClusters.erase c) := by
  have hmem : ∀ e, e∈d'.freeClusters ↔ d.InVolume e ∧ (if e=c then x else d.entry e)=0 := by
    intro e
    rw [mem_freeClusters,InVolume,hinfo]
    exact and_congr_right fun he => by rw [hentry e he.2]
  refine ⟨fun hfree => ?_,fun hused => ?_⟩
  · ext e
    rw [hmem,mem_insert,mem_freeClusters]
    by_cases he : e=c
    · simp [he,hfree]
    · simp [he]
  · ext e
    rw [hmem,mem_erase,mem_freeClusters]
    by_cases he : e=c
    · simpa [he,and_comm] using hused
    · simp [he]

end

/-- A mounted volume whose entries a `ULONG` can address, with the hint of the search. -/
structure Hinted (d : DeviceExt) : Prop where
  mountable : d.fatInfo.Mountable
  addressable : d.Addressable (d.fatInfo.numberOfClusters+1)
  last_ge : 2≤d.lastAvailableCluster
  last_le : d.lastAvailableCluster≤d.fatInfo.numberOfClusters+2

structure Accounted (d : DeviceExt) : Prop extends Hinted d where
  count : d.availableClustersValid=true → d.availableClusters.toNat=d.freeClusters.card

theorem Hinted.entry_addressable (h : d.Hinted) {c : Nat} (hc : c<d.fatInfo.numberOfClusters+2) :
    d.Addressable c :=
  (Nat.mul_le_mul_right _ (Nat.le_of_lt_succ hc)).trans_lt h.addressable

theorem Hinted.numberOfClusters_lt (h : d.Hinted) : d.fatInfo.numberOfClusters+1<2^31 := by
  have haddress := h.addressable
  unfold Addressable at haddress
  generalize d.fatInfo.fatType=fatType at haddress
  cases fatType <;> simp only [FatType.stride] at haddress <;> omega

theorem Hinted.freeClusters_mark (h : d.Hinted) {c : Nat} (hc : d.InVolume c) :
    { d with fat := d.mark c }.freeClusters=d.freeClusters.erase c := by
  have hbits : 2^d.fatInfo.fatType.bits-1≠0 := by
    cases d.fatInfo.fatType <;> decide
  have hmark := d.freeClusters_update { d with fat := d.mark c } rfl fun e he =>
    d.entry_mark (h.entry_addressable hc.2) (h.entry_addressable he)
  exact hmark.2 fun hzero => hbits hzero.1

/-- What the search does: it takes a free cluster, or there is none. -/
theorem Hinted.findAndMark_cases (h : d.Hinted) :
    (∃ c∈d.freeClusters, d.findAndMarkAvailableCluster=(.success, c, d.taking c)) ∨
    d.freeClusters = ∅ ∧ d.findAndMarkAvailableCluster=(.diskFull, 0, d) := by
  unfold findAndMarkAvailableCluster
  dsimp only
  rw [findBetween_eq h.mountable,findBetween_eq h.mountable]
  have hge := h.last_ge
  have hle := h.last_le
  have hlen : d.fatLength=d.fatInfo.numberOfClusters+2 := rfl
  cases hfind : (d.findAvailable d.lastAvailableCluster
      (d.fatLength-d.lastAvailableCluster)).or
      (d.findAvailable 2 (d.lastAvailableCluster-2)) with
  | some c =>
    refine .inl ⟨c,?_,rfl⟩
    rw [mem_freeClusters]
    obtain hc | ⟨-,hc⟩ := Option.or_eq_some_iff.mp hfind
    · obtain ⟨h1,h2,h3⟩ := findAvailable_some hc
      exact ⟨⟨by omega,by omega⟩,h3⟩
    · obtain ⟨h1,h2,h3⟩ := findAvailable_some hc
      exact ⟨⟨by omega,by omega⟩,h3⟩
  | none =>
    obtain ⟨hnone,hnone'⟩ := Option.or_eq_none_iff.mp hfind
    refine .inr ⟨?_,rfl⟩
    rw [eq_empty_iff_forall_notMem]
    intro c hc
    obtain ⟨⟨h1,h2⟩,h3⟩ := mem_freeClusters.mp hc
    by_cases hstart : d.lastAvailableCluster≤c
    · exact findAvailable_none hnone hstart (by omega) h3
    · exact findAvailable_none hnone' h1 (by omega) h3

theorem freeClusters_congr {d d' : DeviceExt} (hinfo : d'.fatInfo=d.fatInfo)
    (hfat : d'.fat=d.fat) : d'.freeClusters=d.freeClusters := by
  have hentry : ∀ c, d'.entry c=d.entry c := by
    intro c
    unfold entry
    rw [hinfo,hfat]
  simp only [freeClusters,fatLength,hinfo,hentry]

theorem toNat_pred {x : BitVec 32} {n : Nat} (h : x.toNat=n) (hn : 0<n) : (x-1).toNat=n-1 := by
  have hone : (1 : BitVec 32).toNat=1 := rfl
  rw [BitVec.toNat_sub]
  omega

theorem toNat_succ {x : BitVec 32} {n : Nat} (h : x.toNat=n) (hn : n+1<2^32) : (x+1).toNat=n+1 := by
  have hone : (1 : BitVec 32).toNat=1 := rfl
  rw [BitVec.toNat_add]
  omega

theorem Hinted.findAndMark (h : d.Hinted) : d.findAndMarkAvailableCluster.2.2.Hinted := by
  obtain ⟨c,hc,heq⟩ | ⟨-,heq⟩ := h.findAndMark_cases
  · rw [heq]
    obtain ⟨⟨hc2,hclt⟩,-⟩ := mem_freeClusters.mp hc
    exact ⟨h.mountable,h.addressable,hc2,hclt.le⟩
  · rw [heq]
    exact h

theorem Hinted.countAvailableClusters (h : d.Hinted) : d.countAvailableClusters.Hinted := by
  unfold DeviceExt.countAvailableClusters
  split
  · exact h
  · exact ⟨h.mountable,h.addressable,h.last_ge,h.last_le⟩

theorem Accounted.findAndMark (h : d.Accounted) : d.findAndMarkAvailableCluster.2.2.Accounted := by
  have hhint := h.toHinted.findAndMark
  obtain ⟨c,hc,heq⟩ | ⟨-,heq⟩ := h.findAndMark_cases
  · rw [heq] at hhint ⊢
    refine ⟨hhint,?_⟩
    intro hvalid
    have hvalid' : d.availableClustersValid=true := hvalid
    have hpos : 0<d.freeClusters.card := card_pos.mpr ⟨c,hc⟩
    have hfree : (d.taking c).freeClusters=d.freeClusters.erase c :=
      (freeClusters_congr rfl rfl).trans (h.freeClusters_mark (mem_freeClusters.mp hc).1)
    rw [hfree,card_erase_of_mem hc]
    simp only [taking,hvalid',if_true]
    exact toNat_pred (h.count hvalid') hpos
  · rw [heq]
    exact h

theorem Accounted.countAvailableClusters (h : d.Accounted) :
    d.countAvailableClusters.Accounted := by
  unfold DeviceExt.countAvailableClusters
  split
  · exact h
  · refine ⟨⟨h.mountable,h.addressable,h.last_ge,h.last_le⟩,fun _ => ?_⟩
    have hle := d.freeClusters_card_le
    have hlen := h.numberOfClusters_lt
    have hsum : 2+(d.fatLength-2)=d.fatLength := by
      unfold fatLength
      omega
    have hfree : freeClusters { d with
        availableClusters := d.count
        availableClustersValid := true }=d.freeClusters := freeClusters_congr rfl rfl
    have hcard : ((Finset.Ico 2 d.fatLength).filter fun c => d.entry c=0).card =
        d.freeClusters.card := rfl
    have hzero : ∀ x : BitVec 32, 0+x=x := BitVec.zero_add
    rw [hfree]
    simp only [count_eq h.mountable,countLoop_eq,hsum,hcard,hzero]
    exact (BitVec.toNat_ofNat _ _).trans (Nat.mod_eq_of_lt (by omega))

/-- The count stays right when the entry of a cluster of the volume is written, or another one that
is as free, or as much in use, after the write as before it; a value is not cut to zero. -/
def Counts (d : DeviceExt) (c v : Nat) : Prop :=
  (v=0 ∨ v%2^d.fatInfo.fatType.bits≠0) ∧ d.Addressable c ∧ (d.InVolume c ∨ (d.entry c=0 ↔ v=0))

theorem Accounted.writeCluster (h : d.Accounted) {c v : Nat}
    (hcounts : d.availableClustersValid=true → d.Counts c v) : (d.writeCluster c v).Accounted := by
  refine ⟨⟨h.mountable,h.addressable,h.last_ge,h.last_le⟩,?_⟩
  intro hvalid
  have hvalid' : d.availableClustersValid=true := hvalid
  have hcount := h.count hvalid'
  obtain ⟨hv,hc,hwhere⟩ := hcounts hvalid'
  have hcut : v%2^d.fatInfo.fatType.bits=0 ↔ v=0 := by
    refine ⟨fun hzero => hv.resolve_right fun hne => hne hzero,fun hzero => ?_⟩
    rw [hzero,Nat.zero_mod]
  obtain ⟨hfree,hused⟩ := d.freeClusters_update (d.writeCluster c v) rfl fun e he =>
    d.entry_writeEntry hc (h.entry_addressable he) v
  rw [hcut] at hfree hused
  have hnext : (d.writeCluster c v).availableClusters =
      if d.entry c≠0 ∧ v=0 then d.availableClusters+1
      else if d.entry c=0 ∧ v≠0 then d.availableClusters-1 else d.availableClusters := by
    unfold DeviceExt.writeCluster
    simp [hvalid',writeEntry_old]
  rw [hnext]
  by_cases hrange : d.InVolume c
  · have hmem : c∈d.freeClusters ↔ d.entry c=0 := by
      rw [mem_freeClusters,and_iff_right hrange]
    by_cases hold : d.entry c=0
    · have hin := hmem.mpr hold
      by_cases hzero : v=0
      · rw [hfree ⟨hzero,hrange⟩,insert_eq_of_mem hin]
        simpa [hold,hzero] using hcount
      · rw [hused fun h => hzero h.1,card_erase_of_mem hin]
        simp only [hold,hzero,ne_eq,not_true,not_false_iff,and_self,if_false,if_true]
        exact toNat_pred hcount (card_pos.mpr ⟨c,hin⟩)
    · have hout : c∉d.freeClusters := fun hin => hold (hmem.mp hin)
      by_cases hzero : v=0
      · have hle := d.freeClusters_card_le
        have hlen := h.numberOfClusters_lt
        rw [hfree ⟨hzero,hrange⟩,card_insert_of_notMem hout]
        simp only [hold,hzero,ne_eq,not_false_iff,and_self,if_true]
        exact toNat_succ hcount (by omega)
      · rw [hused fun h => hzero h.1,erase_eq_of_notMem hout]
        simpa [hold,hzero] using hcount
  · have hout : c∉d.freeClusters := fun hin => hrange (mem_freeClusters.mp hin).1
    have hiff := hwhere.resolve_left hrange
    rw [hused fun h => hrange h.2,erase_eq_of_notMem hout]
    simpa [hiff] using hcount

end DeviceExt

inductive FatAction where
  | findAndMark
  | writeCluster (clusterToWrite newValue : Nat)
  | countAvailableClusters

namespace DeviceExt

def step (d : DeviceExt) : FatAction → DeviceExt
  | .findAndMark => d.findAndMarkAvailableCluster.2.2
  | .writeCluster c v => d.writeCluster c v
  | .countAvailableClusters => d.countAvailableClusters

def run (d : DeviceExt) (actions : List FatAction) : DeviceExt := actions.foldl step d

def Admits (d : DeviceExt) : FatAction → Prop
  | .writeCluster c v => d.availableClustersValid=true → d.Counts c v
  | _ => True

instance (d : DeviceExt) (c v : Nat) : Decidable (d.Counts c v) :=
  inferInstanceAs (Decidable (_ ∧ d.Addressable c ∧ _))

instance (d : DeviceExt) : DecidablePred d.Admits
  | .writeCluster c v => inferInstanceAs (Decidable (_ → d.Counts c v))
  | .findAndMark => isTrue trivial
  | .countAvailableClusters => isTrue trivial

/-- Each write of a run is one that the count follows, where it is made. -/
def AdmitsRun : DeviceExt → List FatAction → Prop :=
  Throughout (fun d a => some (d.step a)) Admits

instance (d : DeviceExt) (actions : List FatAction) : Decidable (d.AdmitsRun actions) :=
  decidableThroughout _ Admits d actions

theorem step_fatInfo (d : DeviceExt) (a : FatAction) : (d.step a).fatInfo=d.fatInfo := by
  cases a with
  | findAndMark =>
    have hstep : d.step .findAndMark=d.findAndMarkAvailableCluster.2.2 := rfl
    rw [hstep,findAndMarkAvailableCluster]
    split
    · rfl
    · rfl
  | writeCluster c v => rfl
  | countAvailableClusters =>
    have hstep : d.step .countAvailableClusters=d.countAvailableClusters := rfl
    rw [hstep,DeviceExt.countAvailableClusters]
    split
    · rfl
    · rfl

theorem Hinted.step (h : d.Hinted) (a : FatAction) : (d.step a).Hinted := by
  cases a with
  | findAndMark => exact h.findAndMark
  | writeCluster c v => exact ⟨h.mountable,h.addressable,h.last_ge,h.last_le⟩
  | countAvailableClusters => exact h.countAvailableClusters

theorem Accounted.step (h : d.Accounted) {a : FatAction} (ha : d.Admits a) :
    (d.step a).Accounted := by
  cases a with
  | findAndMark => exact h.findAndMark
  | writeCluster c v => exact h.writeCluster ha
  | countAvailableClusters => exact h.countAvailableClusters

theorem run_fatInfo (d : DeviceExt) (actions : List FatAction) :
    (d.run actions).fatInfo=d.fatInfo := by
  induction actions generalizing d with
  | nil => rfl
  | cons a actions ih => exact (ih (d.step a)).trans (d.step_fatInfo a)

theorem Hinted.run (h : d.Hinted) (actions : List FatAction) : (d.run actions).Hinted := by
  induction actions generalizing d with
  | nil => exact h
  | cons a actions ih => exact ih (h.step a)

theorem Accounted.run (h : d.Accounted) {actions : List FatAction}
    (ha : d.AdmitsRun actions) : (d.run actions).Accounted := by
  induction actions generalizing d with
  | nil => exact h
  | cons a actions ih => exact ih (h.step ha.1) (ha.2 _ rfl)

/-- The search takes a free cluster of the volume and changes its entry alone, to an end mark, or
fails, and that exactly when there is none. -/
def SearchesExactly (d : DeviceExt) : Prop :=
  ((∃ c, d.InVolume c ∧ d.entry c=0 ∧ d.findAndMarkAvailableCluster.1 = .success ∧
      d.findAndMarkAvailableCluster.2.1=c ∧
      d.findAndMarkAvailableCluster.2.2.readNext c=0xffffffff ∧
      ∀ e, d.Addressable e → e≠c → d.findAndMarkAvailableCluster.2.2.entry e=d.entry e) ∨
    d.findAndMarkAvailableCluster=(.diskFull, 0, d)) ∧
  (d.findAndMarkAvailableCluster.1 = .diskFull ↔ ∀ c, d.InVolume c → d.entry c≠0)

theorem Hinted.searchesExactly (h : d.Hinted) : d.SearchesExactly := by
  rw [SearchesExactly]
  obtain ⟨c,hc,heq⟩ | ⟨hempty,heq⟩ := h.findAndMark_cases
  · obtain ⟨hrange,hzero⟩ := mem_freeClusters.mp hc
    have haddress := h.entry_addressable hrange.2
    rw [heq]
    refine ⟨.inl ⟨c,hrange,hzero,rfl,rfl,?_,fun e haddress' he => ?_⟩,nofun,
      fun hall => absurd hzero (hall c hrange)⟩
    · rw [readNext_eq]
      have hentry := d.entry_mark haddress haddress
      rw [if_pos rfl] at hentry
      have hge : 2^d.fatInfo.fatType.bits-8≤2^d.fatInfo.fatType.bits-1 := by omega
      exact if_pos (hge.trans_eq hentry.symm)
    · have hentry := d.entry_mark haddress haddress'
      rw [if_neg he] at hentry
      exact hentry
  · rw [heq]
    refine ⟨.inr rfl,fun _ c hrange hzero => ?_,fun _ => rfl⟩
    have hin : c∈d.freeClusters := mem_freeClusters.mpr ⟨hrange,hzero⟩
    rw [hempty] at hin
    exact absurd hin (by simp)

/-- In every state that is reached from a mounted volume whose entries a `ULONG` can address, the
search is exact; and a valid count is the number of free clusters, if it followed every write. -/
theorem free_cluster_accounting (d : DeviceExt) (actions : List FatAction)
    (hinfo : d.fatInfo.Mountable) (hsize : d.Addressable (d.fatInfo.numberOfClusters+1))
    (hlast : d.lastAvailableCluster=2) (hvalid : d.availableClustersValid=false) :
    (d.run actions).fatInfo=d.fatInfo ∧ (d.run actions).SearchesExactly ∧
    (d.AdmitsRun actions → (d.run actions).availableClustersValid=true →
      (d.run actions).availableClusters.toNat =
        ((Finset.Ico 2 (d.fatInfo.numberOfClusters+2)).filter
          fun c => (d.run actions).entry c=0).card) := by
  have hinit : d.Hinted := ⟨hinfo,hsize,by omega,by omega⟩
  have hsame := d.run_fatInfo actions
  refine ⟨hsame,(hinit.run actions).searchesExactly,fun hactions hv => ?_⟩
  have hacc : d.Accounted := ⟨hinit,by simp [hvalid]⟩
  rw [(hacc.run hactions).count hv,freeClusters,fatLength,hsame]

/-- The smallest FAT16 volume; only entry 1 is not zero, and has the flag of a clean shutdown. -/
def cleanVolume : DeviceExt where
  fatInfo := ⟨.fat16,512,1,512,4085,1,1,1,2,3⟩
  fat := fun o => if o=3 then 0x80 else 0
  lastAvailableCluster := 2
  availableClusters := 0
  availableClustersValid := false

/-- What a mount, a search and writes do: the flag is cleared before the count. -/
def mountCalls : List FatAction :=
  [.writeCluster 1 0,.countAvailableClusters,.findAndMark,.writeCluster 3 0xffffffff,
    .writeCluster 2 0]

theorem free_cluster_accounting_cleanVolume :
    (cleanVolume.run mountCalls).availableClusters.toNat =
      ((Finset.Ico 2 4087).filter fun c => (cleanVolume.run mountCalls).entry c=0).card :=
  (free_cluster_accounting cleanVolume mountCalls ⟨by decide,by decide,rfl⟩ (by decide) rfl rfl).2.2
    (by decide +kernel) (by decide +kernel)

def shutdownCalls : List FatAction :=
  [.writeCluster 1 0,.countAvailableClusters,.writeCluster 1 0x8000]

/-- A shutdown sets the flag of entry 1 again, and the count follows it. -/
theorem shutdown_miscounts :
    (cleanVolume.run shutdownCalls).availableClustersValid=true ∧
    (cleanVolume.run shutdownCalls).availableClusters=4084#32 ∧
    ((Finset.Ico 2 4087).filter fun c => (cleanVolume.run shutdownCalls).entry c=0).card=4085 := by
  decide +kernel

end DeviceExt

end Odyssey.Fastfat
