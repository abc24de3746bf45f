import Odyssey.Lib.Extent
import Odyssey.Lib.GuardedRuns

/-! The descriptors of uncommitted ranges of a heap (`RtlpCreateUnCommittedRange` and
`RtlpDestroyUnCommittedRange` of `lib/rtl/heap.c`), with the sizes of a 32-bit system. -/
namespace Odyssey.Rtl
open List

def pageSize : Nat := 4096

def ucrDescriptorSize : Nat := 24

def ucrSegmentSize : Nat := 16

def ucrReserveSize : Nat := 16*pageSize

def numUCRs : Nat := 8

structure UcrSegment where
  base : Nat
  reservedSize : Nat
  committedSize : Nat

/-- The addresses of the unused descriptors, the segments, and the descriptors that callers hold. -/
structure UcrHeap where
  ucrList : List Nat
  ucrSegments : List UcrSegment
  inUse : List Nat

/-- What `ZwAllocateVirtualMemory` says: the address of a new reservation, and whether a page can be
committed. -/
structure MemoryReply where
  reserve : Option Nat
  commit : Bool

def carveLoop (limit : Nat) : Nat → Nat → List Nat → List Nat
  | 0, _, l => l
  | fuel+1, ucrDescriptor, l =>
    if ucrDescriptor<limit then
      carveLoop limit fuel (ucrDescriptor+ucrDescriptorSize) (l++[ucrDescriptor])
    else l

inductive Refill where
  | filled (h : UcrHeap)
  | null
  | undefined

namespace UcrHeap

def insertNew (h : UcrHeap) (ucrDescriptor limit : Nat) : List Nat :=
  carveLoop limit (limit-ucrDescriptor) ucrDescriptor h.ucrList

def newSegment (h : UcrHeap) (r : MemoryReply) : Refill :=
  match r.reserve with
  | none => .null
  | some base =>
    if r.commit then
      .filled { h with
        ucrSegments := ⟨base,ucrReserveSize,pageSize⟩::h.ucrSegments
        ucrList := h.insertNew (base+ucrSegmentSize) (base+pageSize) }
    else .undefined

def extendSegment (h : UcrHeap) (r : MemoryReply) (segment : UcrSegment) (rest : List UcrSegment) :
    Refill :=
  if r.commit then
    .filled { h with
      ucrSegments := { segment with committedSize := segment.committedSize+pageSize }::rest
      ucrList := h.insertNew (segment.base+segment.committedSize)
        (segment.base+(segment.committedSize+pageSize)) }
  else .null

def refill (h : UcrHeap) (r : MemoryReply) : Refill :=
  match h.ucrSegments with
  | [] => h.newSegment r
  | segment::rest =>
    if segment.reservedSize=segment.committedSize then h.newSegment r
    else h.extendSegment r segment rest

def removeHead (h : UcrHeap) : Option UcrHeap :=
  match h.ucrList with
  | [] => none
  | d::l => some { h with ucrList := l, inUse := d::h.inUse }

/-- `RtlpCreateUnCommittedRange`; `none` if its behaviour is undefined. A caller that gets `NULL`
holds no new descriptor. -/
def rtlpCreateUnCommittedRange (h : UcrHeap) (r : MemoryReply) : Option UcrHeap :=
  if h.ucrList=[] then
    match h.refill r with
    | .filled h' => h'.removeHead
    | .null => some h
    | .undefined => none
  else h.removeHead

def rtlpDestroyUnCommittedRange (h : UcrHeap) (ucrDescriptor : Nat) : UcrHeap :=
  { h with ucrList := ucrDescriptor::h.ucrList, inUse := h.inUse.erase ucrDescriptor }

end UcrHeap

def descriptors (start n : Nat) : List Nat := (List.range n).map fun i => start+ucrDescriptorSize*i

def initialUcrHeap (heap heapSize : Nat) : UcrHeap := ⟨descriptors (heap+heapSize) numUCRs,[],[]⟩

inductive UcrCall where
  | create (r : MemoryReply)
  | destroy (ucrDescriptor : Nat)

namespace UcrCall

def step (h : UcrHeap) : UcrCall → Option UcrHeap
  | .create r => h.rtlpCreateUnCommittedRange r
  | .destroy d => some (h.rtlpDestroyUnCommittedRange d)

/-- A new reservation is apart from the first page of the heap and from the other segments, and a
caller gives back what it holds. -/
def Admitted (heap : Nat) (h : UcrHeap) : UcrCall → Prop
  | .create r => ∀ base∈r.reserve, Extent.Disjoint ⟨heap,pageSize⟩ ⟨base,ucrReserveSize⟩ ∧
      ∀ s∈h.ucrSegments, Extent.Disjoint ⟨s.base,s.reservedSize⟩ ⟨base,ucrReserveSize⟩
  | .destroy d => d∈h.inUse

end UcrCall

def ucrExtent (d : Nat) : Extent := ⟨d,ucrDescriptorSize⟩

section Descriptors
variable {start n d limit : Nat}

theorem mem_descriptors : d∈descriptors start n ↔ ∃ i<n, d=start+ucrDescriptorSize*i := by
  simp [descriptors,eq_comm]

theorem bounds_of_mem_descriptors (h : d∈descriptors start n) :
    start≤d ∧ d+ucrDescriptorSize≤ start+ucrDescriptorSize*n := by
  obtain ⟨i,hi,rfl⟩ := mem_descriptors.mp h
  rw [ucrDescriptorSize]
  omega

@[simp] theorem length_descriptors (start n : Nat) : (descriptors start n).length=n := by
  simp [descriptors]

theorem descriptors_succ (start n : Nat) :
    descriptors start (n+1)=descriptors start n++[start+ucrDescriptorSize*n] := by
  simp [descriptors,range_succ]

theorem descriptors_succ_left (start n : Nat) :
    descriptors start (n+1)=start::descriptors (start+ucrDescriptorSize) n := by
  simp only [descriptors,range_succ_eq_map,map_cons,map_map,Nat.mul_zero,
    Nat.add_zero,Function.comp_def,Nat.succ_eq_add_one,Nat.mul_add,Nat.mul_one]
  refine congrArg (start :: ·) (map_congr_left fun i _ => ?_)
  omega

theorem pairwise_descriptors (start n : Nat) :
    (descriptors start n).Pairwise fun d e => (ucrExtent d).Disjoint (ucrExtent e) := by
  rw [descriptors,pairwise_map]
  refine pairwise_lt_range.imp fun {i j} hij => .inl ?_
  simp only [ucrExtent,ucrDescriptorSize]
  omega

/-- The loop carves descriptors as long as they start before the limit. -/
theorem carveLoop_eq {fuel : Nat} {l : List Nat} (hlt : ∀ i<n, start+ucrDescriptorSize*i<limit)
    (hge : limit≤ start+ucrDescriptorSize*n) (hfuel : n≤fuel) :
    carveLoop limit fuel start l=l++descriptors start n := by
  induction n generalizing start fuel l with
  | zero =>
    cases fuel with
    | zero => simp [carveLoop,descriptors]
    | succ fuel =>
      rw [carveLoop,if_neg (by omega)]
      simp [descriptors]
  | succ n ih =>
    obtain ⟨fuel,rfl⟩ : ∃ k, fuel=k+1 := ⟨fuel-1,by omega⟩
    have hstart := hlt 0 (by omega)
    rw [carveLoop,if_pos (by omega),descriptors_succ_left,ih _ _ (by omega),append_assoc]
    · rfl
    · intro i hi
      have hnext := hlt (i+1) (by omega)
      rw [Nat.mul_add] at hnext
      omega
    · rw [Nat.mul_add] at hge
      omega

end Descriptors

namespace UcrHeap

/-- The descriptors in use are disjoint and lie in the committed part of the heap's first page or of
a segment. -/
structure Lawful (heap : Nat) (h : UcrHeap) : Prop where
  disjoint : h.inUse.Pairwise fun d e => (ucrExtent d).Disjoint (ucrExtent e)
  inside : ∀ d∈h.inUse, (heap≤d ∧ d+ucrDescriptorSize≤heap+pageSize) ∨
    ∃ s∈h.ucrSegments, s.base≤d ∧ d+ucrDescriptorSize≤ s.base+s.committedSize

end UcrHeap

inductive UcrPhase where
  | header
  | first (base : Nat)
  | second (base : Nat)

namespace UcrPhase

def segments : UcrPhase → List UcrSegment
  | header => []
  | first base => [⟨base,ucrReserveSize,pageSize⟩]
  | second base => [⟨base,ucrReserveSize,pageSize+pageSize⟩]

def whole (heap heapSize : Nat) : UcrPhase → List Nat
  | header => descriptors (heap+heapSize) numUCRs
  | first base => descriptors (heap+heapSize) numUCRs++descriptors (base+ucrSegmentSize) 170
  | second base => descriptors (heap+heapSize) numUCRs ++
      (descriptors (base+ucrSegmentSize) 170++descriptors (base+pageSize) 170)

def broken : UcrPhase → List Nat
  | header => []
  | first _ => []
  | second base => [base+pageSize+ucrDescriptorSize*170]

def Fresh (heap : Nat) : UcrPhase → Prop
  | header => True
  | first base => Extent.Disjoint ⟨heap,pageSize⟩ ⟨base,ucrReserveSize⟩
  | second base => Extent.Disjoint ⟨heap,pageSize⟩ ⟨base,ucrReserveSize⟩

section Bounds
variable {heap heapSize base d : Nat} {p : UcrPhase}

theorem header_bounds (hheap : heapSize+numUCRs*ucrDescriptorSize≤pageSize)
    (h : d∈descriptors (heap+heapSize) numUCRs) :
    heap≤d ∧ d+ucrDescriptorSize≤heap+pageSize := by
  have hbounds := bounds_of_mem_descriptors h
  rw [Nat.mul_comm] at hbounds
  omega

theorem first_bounds (h : d∈descriptors (base+ucrSegmentSize) 170) :
    base≤d ∧ d+ucrDescriptorSize≤base+pageSize := by
  have hbounds := bounds_of_mem_descriptors h
  simp only [ucrSegmentSize,ucrDescriptorSize,pageSize] at hbounds ⊢
  omega

theorem second_bounds (h : d∈descriptors (base+pageSize) 170) :
    base+pageSize≤d ∧ d+ucrDescriptorSize≤base+(pageSize+pageSize) := by
  have hbounds := bounds_of_mem_descriptors h
  simp only [ucrDescriptorSize,pageSize] at hbounds ⊢
  omega

theorem disjoint_of_bounds {lo hi lo' hi' e : Nat} (hd : lo≤d ∧ d+ucrDescriptorSize≤hi)
    (he : lo'≤e ∧ e+ucrDescriptorSize≤hi') (h : hi≤lo' ∨ hi'≤lo) :
    (ucrExtent d).Disjoint (ucrExtent e) := by
  simp only [Extent.Disjoint,ucrExtent]
  omega

theorem reserve_pages : ucrReserveSize=pageSize+pageSize+14*pageSize := rfl

theorem pairwise_whole (hp : p.Fresh heap) (hheap : heapSize+numUCRs*ucrDescriptorSize≤pageSize) :
    (p.whole heap heapSize).Pairwise fun d e => (ucrExtent d).Disjoint (ucrExtent e) := by
  have hreserve := reserve_pages
  cases p with
  | header => exact pairwise_descriptors _ _
  | first base =>
    simp only [Fresh,Extent.Disjoint] at hp
    refine pairwise_append.mpr ⟨pairwise_descriptors _ _,pairwise_descriptors _ _,
      fun d hd e he => ?_⟩
    exact disjoint_of_bounds (header_bounds hheap hd) (first_bounds he) (by omega)
  | second base =>
    simp only [Fresh,Extent.Disjoint] at hp
    refine pairwise_append.mpr ⟨pairwise_descriptors _ _,pairwise_append.mpr
      ⟨pairwise_descriptors _ _,pairwise_descriptors _ _,fun d hd e he => ?_⟩,fun d hd e he => ?_⟩
    · exact disjoint_of_bounds (first_bounds hd) (second_bounds he) (.inl (Nat.le_refl _))
    · obtain he | he := mem_append.mp he
      · exact disjoint_of_bounds (header_bounds hheap hd) (first_bounds he) (by omega)
      · exact disjoint_of_bounds (header_bounds hheap hd) (second_bounds he) (by omega)

theorem inside_of_mem_whole (hheap : heapSize+numUCRs*ucrDescriptorSize≤pageSize)
    (h : d∈p.whole heap heapSize) : (heap≤d ∧ d+ucrDescriptorSize≤heap+pageSize) ∨
      ∃ s∈p.segments, s.base≤d ∧ d+ucrDescriptorSize≤ s.base+s.committedSize := by
  cases p with
  | header => exact .inl (header_bounds hheap h)
  | first base =>
    obtain h | h := mem_append.mp h
    · exact .inl (header_bounds hheap h)
    · exact .inr ⟨_,mem_singleton_self _,first_bounds h⟩
  | second base =>
    obtain h | h := mem_append.mp h
    · exact .inl (header_bounds hheap h)
    refine .inr ⟨_,mem_singleton_self _,?_⟩
    obtain h | h := mem_append.mp h
    · have hbounds := first_bounds h
      dsimp only
      omega
    · have hbounds := second_bounds h
      dsimp only
      omega

end Bounds

end UcrPhase

section Invariant
variable {heap heapSize : Nat} {h h' : UcrHeap} {p : UcrPhase} {c : UcrCall} {r : MemoryReply}

structure UcrInv (heap heapSize : Nat) (h : UcrHeap) (p : UcrPhase) : Prop where
  segments : h.ucrSegments=p.segments
  fresh : p.Fresh heap
  unused : ∃ l, h.ucrList=l++p.broken ∧ (l++h.inUse).Perm (p.whole heap heapSize)

theorem UcrInv.lawful (hi : UcrInv heap heapSize h p)
    (hheap : heapSize+numUCRs*ucrDescriptorSize≤pageSize) : h.Lawful heap := by
  obtain ⟨l,-,hperm⟩ := hi.unused
  have hpairwise := (hperm.pairwise_iff fun hd => hd.symm).mpr (p.pairwise_whole hi.fresh hheap)
  refine ⟨(pairwise_append.mp hpairwise).2.1,fun d hd => ?_⟩
  rw [hi.segments]
  exact UcrPhase.inside_of_mem_whole hheap (hperm.subset (mem_append_right l hd))

theorem ucrInv_initial (heap heapSize : Nat) :
    UcrInv heap heapSize (initialUcrHeap heap heapSize) .header :=
  ⟨rfl,trivial,_,(append_nil _).symm,by simp [initialUcrHeap,UcrPhase.whole]⟩

/-- The head of the list goes to the caller, unless only the broken descriptor is left. -/
theorem UcrInv.removeHead (hi : UcrInv heap heapSize h p) (hne : h.ucrList≠p.broken) :
    ∃ h', h.removeHead=some h' ∧ UcrInv heap heapSize h' p := by
  obtain ⟨l,hl,hperm⟩ := hi.unused
  cases l with
  | nil => exact absurd hl hne
  | cons d l =>
    refine ⟨{ h with ucrList := l++p.broken, inUse := d::h.inUse },?_,hi.segments,hi.fresh,l,rfl,?_⟩
    · rw [UcrHeap.removeHead,hl]
      rfl
    · exact perm_middle.trans hperm

theorem UcrInv.destroy (hi : UcrInv heap heapSize h p) {d : Nat} (hd : d∈h.inUse) :
    UcrInv heap heapSize (h.rtlpDestroyUnCommittedRange d) p := by
  obtain ⟨l,hl,hperm⟩ := hi.unused
  refine ⟨hi.segments,hi.fresh,d::l,by rw [UcrHeap.rtlpDestroyUnCommittedRange,hl]; rfl,?_⟩
  refine List.Perm.trans ?_ hperm
  exact perm_middle.symm.trans ((perm_cons_erase hd).symm.append_left l)

variable {base : Nat}

/-- With no descriptor left, a new segment gives those of its first page. -/
theorem UcrInv.newSegment (hi : UcrInv heap heapSize h .header) (hlist : h.ucrList=[])
    (hfresh : Extent.Disjoint ⟨heap,pageSize⟩ ⟨base,ucrReserveSize⟩)
    (hreserve : r.reserve=some base) (hcommit : r.commit=true) :
    ∃ h', h.newSegment r = .filled h' ∧ h'.ucrList≠(UcrPhase.first base).broken ∧
      UcrInv heap heapSize h' (.first base) := by
  obtain ⟨l,hl,hperm⟩ := hi.unused
  obtain rfl : l=[] := by simpa [hlist,UcrPhase.broken] using hl.symm
  have hcarve : h.insertNew (base+ucrSegmentSize) (base+pageSize) =
      descriptors (base+ucrSegmentSize) 170 := by
    rw [UcrHeap.insertNew,hlist]
    refine (carveLoop_eq (fun i hi => ?_) ?_ ?_).trans (nil_append _)
    all_goals
      simp only [ucrSegmentSize,ucrDescriptorSize,pageSize]
      omega
  have hfilled : h.newSegment r = .filled { h with
      ucrSegments := (UcrPhase.first base).segments
      ucrList := descriptors (base+ucrSegmentSize) 170 } := by
    rw [UcrHeap.newSegment,hreserve]
    dsimp only
    rw [if_pos hcommit,hcarve,hi.segments]
    rfl
  refine ⟨_,hfilled,?_,rfl,hfresh,_,(append_nil _).symm,?_⟩
  · rw [descriptors_succ_left]
    exact cons_ne_nil _ _
  · exact perm_append_comm.trans (hperm.append_right _)

/-- With none left after that, the second page gives its own and the broken one. -/
theorem UcrInv.extendSegment (hi : UcrInv heap heapSize h (.first base))
    (hlist : h.ucrList=[]) (hcommit : r.commit=true) :
    ∃ h', h.extendSegment r ⟨base,ucrReserveSize,pageSize⟩ [] = .filled h' ∧
      h'.ucrList≠(UcrPhase.second base).broken ∧ UcrInv heap heapSize h' (.second base) := by
  obtain ⟨l,hl,hperm⟩ := hi.unused
  obtain rfl : l=[] := by simpa [hlist,UcrPhase.broken] using hl.symm
  have hcarve : h.insertNew (base+pageSize) (base+(pageSize+pageSize)) =
      descriptors (base+pageSize) 170++(UcrPhase.second base).broken := by
    rw [UcrPhase.broken,← descriptors_succ,UcrHeap.insertNew,hlist]
    refine (carveLoop_eq (fun i hi => ?_) ?_ ?_).trans (nil_append _)
    all_goals
      simp only [ucrDescriptorSize,pageSize]
      omega
  have hfilled : h.extendSegment r ⟨base,ucrReserveSize,pageSize⟩ [] = .filled { h with
      ucrSegments := (UcrPhase.second base).segments
      ucrList := descriptors (base+pageSize) 170++(UcrPhase.second base).broken } := by
    rw [UcrHeap.extendSegment,if_pos hcommit,hcarve]
    rfl
  refine ⟨_,hfilled,?_,rfl,hi.fresh,_,rfl,?_⟩
  · rw [descriptors_succ_left]
    exact fun hnil => absurd (congrArg List.length hnil) (by simp [UcrPhase.broken])
  · rw [UcrPhase.whole]
    exact perm_append_comm.trans (hperm.append_right _)

/-- All descriptors but the broken one are in use if only that one is left. -/
theorem UcrInv.length_inUse (hi : UcrInv heap heapSize h (.second base)) :
    h.ucrList=(UcrPhase.second base).broken ↔ h.inUse.length=numUCRs+(170+170) := by
  obtain ⟨l,hl,hperm⟩ := hi.unused
  have hlength := hperm.length_eq
  simp only [UcrPhase.whole,length_append,length_descriptors] at hlength
  have hl' : h.ucrList=(UcrPhase.second base).broken ↔ l=[] := by
    rw [hl]
    exact append_left_eq_self
  rw [hl',← length_eq_zero_iff]
  omega

theorem UcrInv.length_le (hi : UcrInv heap heapSize h p) :
    h.inUse.length≤(p.whole heap heapSize).length := by
  obtain ⟨l,-,hperm⟩ := hi.unused
  rw [← hperm.length_eq,length_append]
  exact Nat.le_add_left _ _

end Invariant

def UcrHeap.Exhausted (h : UcrHeap) : Prop :=
  ∀ s∈h.ucrSegments.head?, s.reservedSize=s.committedSize

/-- Fewer descriptors are in use than the header and two pages hold, and no new segment comes
without its first page. -/
def UcrCall.Harmless (h : UcrHeap) : UcrCall → Prop
  | .create r => h.inUse.length<numUCRs+(170+170) ∧
      (h.ucrList=[] → h.Exhausted → r.reserve≠none → r.commit=true)
  | .destroy _ => True

section Steps
variable {heap heapSize : Nat} {h h' : UcrHeap} {p : UcrPhase} {c : UcrCall} {r : MemoryReply}

theorem UcrInv.refill (hi : UcrInv heap heapSize h p) (hlist : h.ucrList=[])
    (hadmitted : (UcrCall.create r).Admitted heap h) (hharmless : (UcrCall.create r).Harmless h) :
    h.refill r = .null ∨ ∃ h' q, h.refill r = .filled h' ∧ h'.ucrList≠q.broken ∧
      UcrInv heap heapSize h' q := by
  have hsegments := hi.segments
  cases p with
  | header =>
    have hnew : h.refill r=h.newSegment r := by
      rw [UcrHeap.refill,hsegments]
      rfl
    rw [hnew]
    cases hreserve : r.reserve with
    | none => exact .inl (by rw [UcrHeap.newSegment,hreserve])
    | some base =>
      have hexhausted : h.Exhausted := by
        rw [UcrHeap.Exhausted,hsegments]
        simp [UcrPhase.segments]
      have hcommit := hharmless.2 hlist hexhausted (by simp [hreserve])
      obtain ⟨h',hfilled,hne,hi'⟩ :=
        hi.newSegment hlist (hadmitted base hreserve).1 hreserve hcommit
      exact .inr ⟨h',_,hfilled,hne,hi'⟩
  | first base =>
    have hextend : h.refill r=h.extendSegment r ⟨base,ucrReserveSize,pageSize⟩ [] := by
      rw [UcrHeap.refill,hsegments]
      exact if_neg (by decide : ucrReserveSize≠pageSize)
    rw [hextend]
    by_cases hcommit : r.commit=true
    · obtain ⟨h',hfilled,hne,hi'⟩ := hi.extendSegment hlist hcommit
      exact .inr ⟨h',_,hfilled,hne,hi'⟩
    · exact .inl (if_neg hcommit)
  | second base =>
    obtain ⟨l,hl,-⟩ := hi.unused
    rw [hlist] at hl
    exact absurd hl.symm (by simp [UcrPhase.broken])

theorem UcrInv.step (hi : UcrInv heap heapSize h p) (hadmitted : c.Admitted heap h)
    (hharmless : c.Harmless h) : ∃ h', c.step h=some h' ∧ ∃ q, UcrInv heap heapSize h' q := by
  cases c with
  | create r =>
    rw [UcrCall.step,UcrHeap.rtlpCreateUnCommittedRange]
    by_cases hlist : h.ucrList=[]
    · rw [if_pos hlist]
      obtain hnull | ⟨h',q,hfilled,hne,hi'⟩ := hi.refill hlist hadmitted hharmless
      · rw [hnull]
        exact ⟨h,rfl,p,hi⟩
      · obtain ⟨h'',hremove,hi''⟩ := hi'.removeHead hne
        rw [hfilled]
        exact ⟨h'',hremove,q,hi''⟩
    · rw [if_neg hlist]
      have hne : h.ucrList≠p.broken := by
        cases p with
        | header => exact hlist
        | first base => exact hlist
        | second base =>
          intro hbroken
          have hlength := hi.length_inUse.mp hbroken
          exact absurd hharmless.1 (by omega)
      obtain ⟨h',hremove,hi'⟩ := hi.removeHead hne
      exact ⟨h',hremove,p,hi'⟩
  | destroy d => exact ⟨_,rfl,p,hi.destroy hadmitted⟩

/-- The broken descriptor is not inside the committed memory. -/
theorem UcrInv.not_lawful_broken (hi : UcrInv heap heapSize h (.second base))
    (hbroken : h.ucrList=(UcrPhase.second base).broken) (hremove : h.removeHead=some h') :
    ¬h'.Lawful heap := by
  intro hlawful
  rw [UcrHeap.removeHead,hbroken] at hremove
  obtain rfl := Option.some.inj hremove
  have hfresh := hi.fresh
  have hinside := hlawful.inside _ mem_cons_self
  simp only [hi.segments,UcrPhase.segments,mem_singleton,exists_eq_left] at hinside
  simp only [UcrPhase.Fresh,Extent.Disjoint,ucrReserveSize,pageSize] at hfresh
  simp only [ucrDescriptorSize,pageSize] at hinside
  omega

theorem UcrHeap.refill_of_exhausted (hexhausted : h.Exhausted) : h.refill r=h.newSegment r := by
  rw [UcrHeap.refill]
  split
  · rfl
  · rename_i segment rest hsegments
    refine if_pos (hexhausted segment ?_)
    rw [hsegments]
    rfl

theorem UcrInv.not_lawful (hi : UcrInv heap heapSize h p) (hharmless : ¬c.Harmless h)
    (hstep : c.step h=some h') : ¬h'.Lawful heap := by
  cases c with
  | create r =>
    rw [UcrCall.step,UcrHeap.rtlpCreateUnCommittedRange] at hstep
    by_cases hcount : h.inUse.length<numUCRs+(170+170)
    · have hsegment : ¬(h.ucrList=[] → h.Exhausted → r.reserve≠none → r.commit=true) :=
        fun hcommit => hharmless ⟨hcount,hcommit⟩
      simp only [not_forall] at hsegment
      obtain ⟨hlist,hexhausted,hreserve,hcommit⟩ := hsegment
      obtain ⟨base,hbase⟩ := Option.ne_none_iff_exists'.mp hreserve
      have hundefined : h.newSegment r = .undefined := by
        rw [UcrHeap.newSegment,hbase]
        exact if_neg hcommit
      rw [if_pos hlist,UcrHeap.refill_of_exhausted hexhausted,hundefined] at hstep
      exact absurd hstep (by simp)
    · have hlength := hi.length_le
      cases p with
      | header =>
        rw [UcrPhase.whole,length_descriptors] at hlength
        omega
      | first base =>
        rw [UcrPhase.whole,length_append,length_descriptors,length_descriptors] at hlength
        omega
      | second base =>
        simp only [UcrPhase.whole,length_append,length_descriptors] at hlength
        have hbroken := hi.length_inUse.mpr (by omega)
        rw [if_neg (by rw [hbroken]; exact cons_ne_nil _ _)] at hstep
        exact hi.not_lawful_broken hbroken hstep
  | destroy d => exact absurd trivial hharmless

end Steps

namespace UcrCall

instance (heap : Nat) (h : UcrHeap) : DecidablePred (Admitted heap h)
  | .create r => inferInstanceAs (Decidable (∀ base∈r.reserve,
      (heap+pageSize≤base ∨ base+ucrReserveSize≤heap) ∧
      ∀ s∈h.ucrSegments, s.base+s.reservedSize≤base ∨ base+ucrReserveSize≤ s.base))
  | .destroy d => inferInstanceAs (Decidable (d∈h.inUse))

instance (h : UcrHeap) : DecidablePred (Harmless h)
  | .create r => inferInstanceAs (Decidable (h.inUse.length<numUCRs+(170+170) ∧
      (h.ucrList=[] → (∀ s∈h.ucrSegments.head?, s.reservedSize=s.committedSize) →
        r.reserve≠none → r.commit=true)))
  | .destroy _ => inferInstanceAs (Decidable True)

end UcrCall

section Runs
open UcrCall GuardedRuns

theorem throughout_harmless {heap heapSize : Nat} {calls : List UcrCall}
    (hadmitted : Throughout step (Admitted heap) (initialUcrHeap heap heapSize) calls)
    (h : Always step (UcrHeap.Lawful heap) (initialUcrHeap heap heapSize) calls) :
    Throughout step Harmless (initialUcrHeap heap heapSize) calls :=
  h.throughout (I := fun h => ∃ p, UcrInv heap heapSize h p)
    (fun _ _ ⟨_,hi⟩ hadmitted hharmless => hi.step hadmitted hharmless)
    (fun _ _ _ ⟨_,hi⟩ _ hharmless hstep => hi.not_lawful hharmless hstep)
    ⟨.header,ucrInv_initial heap heapSize⟩ hadmitted

/-- The descriptors that callers hold are disjoint and inside the committed memory in every state of
a run exactly if all calls of the run are harmless. -/
theorem ucr_lawful_iff (heap heapSize : Nat) (calls : List UcrCall)
    (hheap : heapSize+numUCRs*ucrDescriptorSize≤pageSize)
    (hadmitted : Throughout step (Admitted heap) (initialUcrHeap heap heapSize) calls) :
    Always step (UcrHeap.Lawful heap) (initialUcrHeap heap heapSize) calls ↔
      Throughout step Harmless (initialUcrHeap heap heapSize) calls := by
  refine ⟨throughout_harmless hadmitted,fun h => ?_⟩
  exact h.always (I := fun h => ∃ p, UcrInv heap heapSize h p) (fun _ ⟨_,hi⟩ => hi.lawful hheap)
    (fun _ _ ⟨_,hi⟩ hadmitted hharmless => hi.step hadmitted hharmless)
    ⟨.header,ucrInv_initial heap heapSize⟩ hadmitted

/-- The descriptors of the heap's own page are handed out, then those of a new segment, of which one
is given back. -/
def segmentCalls : List UcrCall :=
  List.replicate 8 (.create ⟨none,true⟩)++[.create ⟨some 0x20000,true⟩,.create ⟨none,true⟩,
    .destroy 0x20010,.create ⟨none,true⟩]

theorem ucr_lawful_segmentCalls :
    Always step (UcrHeap.Lawful 0x10000) (initialUcrHeap 0x10000 1416) segmentCalls :=
  (ucr_lawful_iff 0x10000 1416 segmentCalls (by decide) (by decide +kernel)).mpr (by decide +kernel)

def ucrCalls : List UcrCall :=
  List.replicate 8 (.create ⟨none,true⟩)++[.create ⟨some 0x20000,true⟩] ++
    List.replicate 340 (.create ⟨none,true⟩)

/-- The last of these calls hands out the broken descriptor. -/
theorem ucr_not_lawful_ucrCalls :
    Throughout step (Admitted 0x10000) (initialUcrHeap 0x10000 1416) ucrCalls ∧
      ¬Always step (UcrHeap.Lawful 0x10000) (initialUcrHeap 0x10000 1416) ucrCalls := by
  have hadmitted : Throughout step (Admitted 0x10000) (initialUcrHeap 0x10000 1416) ucrCalls := by
    decide +kernel
  refine ⟨hadmitted,fun h => ?_⟩
  exact absurd (throughout_harmless hadmitted h) (by decide +kernel)

end Runs

end Odyssey.Rtl
