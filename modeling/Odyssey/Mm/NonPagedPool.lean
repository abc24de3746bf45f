import Odyssey.Lib.Extent
import Odyssey.Lib.ListEntry

/-! Initial nonpaged pool (`ntoskrnl/mm/ARM3/pool.c`).

Pages are counted from `MmNonPagedPoolStart`. Their page frames are consecutive, so the bits of a
PFN entry are kept under the page. Freed pool is not protected (`MmProtectFreedNonPagedPool` is
false). -/
namespace Odyssey.Mm
open ListEntry Extent Function List

def miMaxFreePageLists : Nat := 4

def pageShift : Nat := 12

/-- A `LIST_ENTRY` of the pool: the head of a free list, or the header on a page. -/
inductive PoolLink where
  | head (i : Fin miMaxFreePageLists)
  | page (p : Nat)
deriving DecidableEq

/-- The pages as `MMFREE_POOL_ENTRY`, and the bits of their PFN entries. -/
structure NonPagedPool where
  links : Links PoolLink
  size : Nat → Nat
  owner : Nat → Nat
  signature : Nat → Nat
  startOfAllocation : Nat → Bool
  endOfAllocation : Nat → Bool
  verifierAllocation : Nat → Bool
  pages : Nat

def mmFreePoolSignature : Nat := 0x334D5241

def bytesToPages (size : Nat) : Nat :=
  (size >>> pageShift)+(if size%2^pageShift≠0 then 1 else 0)

def lastFreeList : Fin miMaxFreePageLists := ⟨miMaxFreePageLists-1,by decide⟩

/-- The free list of a size: `i = Size - 1`, and the last list for all larger `i`. -/
def freeListIndex (size : Nat) : Fin miMaxFreePageLists :=
  -- `Size - 1` is the largest `ULONG` for no pages
  if h : size≠0 ∧ size-1< miMaxFreePageLists then ⟨size-1,h.2⟩ else lastFreeList

namespace NonPagedPool
variable (s : NonPagedPool)

def setSize (p n : Nat) : NonPagedPool := { s with size := update s.size p n }

def removeEntry (p : Nat) : NonPagedPool := { s with links := s.links.removeEntryList (.page p) }

def insertTail (i : Fin miMaxFreePageLists) (p : Nat) : NonPagedPool :=
  { s with links := s.links.insertTailList (.head i) (.page p) }

def setStart (p : Nat) (b : Bool) : NonPagedPool :=
  { s with startOfAllocation := update s.startOfAllocation p b }

def setEnd (p : Nat) (b : Bool) : NonPagedPool :=
  { s with endOfAllocation := update s.endOfAllocation p b }

def setVerifier (p : Nat) (b : Bool) : NonPagedPool :=
  { s with verifierAllocation := update s.verifierAllocation p b }

def setOwner (p owner : Nat) : NonPagedPool :=
  { s with
    owner := update s.owner p owner
    signature := update s.signature p mmFreePoolSignature }

def linkPages (s : NonPagedPool) (first owner : Nat) : Nat → NonPagedPool
  | 0 => s
  | n+1 => (s.setOwner first owner).linkPages (first+1) owner n

def initializeListHeads (s : NonPagedPool) : NonPagedPool :=
  let links := (List.finRange miMaxFreePageLists).foldl
    (fun links i => links.initializeListHead (.head i)) s.links
  { s with links }

def miInitializeNonPagedPool (s : NonPagedPool) (mmSizeOfNonPagedPoolInBytes : Nat) :
    NonPagedPool :=
  let poolPages := bytesToPages mmSizeOfNonPagedPoolInBytes
  let s := { s.initializeListHeads with pages := poolPages }
  let s := (s.setSize 0 poolPages).setOwner 0 0
  let s := { s with links := s.links.insertHeadList (.head lastFreeList) (.page 0) }
  s.linkPages 1 0 (poolPages-1)

def findEntry (s : NonPagedPool) (sizeInPages : Nat) : Nat → PoolLink → Option Nat
  | 0, _ => none
  | _+1, .head _ => none
  | fuel+1, .page p =>
    if sizeInPages≤ s.size p then some p
    else s.findEntry sizeInPages fuel (s.links.flink (.page p))

def findFree (sizeInPages : Nat) : Option Nat :=
  ((List.finRange miMaxFreePageLists).drop (freeListIndex sizeInPages)).findSome? fun i =>
    s.findEntry sizeInPages (s.pages+1) (s.links.flink (.head i))

def takePages (poolType sizeInPages p : Nat) : Nat × NonPagedPool :=
  let size := s.size p-sizeInPages
  let s := s.setSize p size
  let base := p+size
  let s := s.removeEntry p
  let s := if size≠0 then s.insertTail (freeListIndex size) p else s
  let s := s.setStart base true
  let s := if poolType.testBit 6 then s.setVerifier base true else s
  (base, s.setEnd (base+sizeInPages-1) true)

/-- `MiAllocatePoolPages` for nonpaged pool, up to the point where the expansion is tried. -/
def miAllocatePoolPages (poolType sizeInBytes : Nat) : Option Nat × NonPagedPool :=
  let sizeInPages := bytesToPages sizeInBytes
  match s.findFree sizeInPages with
  | none => (none, s)
  | some p =>
    let (base, s) := s.takePages poolType sizeInPages p
    (some base, s)

def findEnd (s : NonPagedPool) : Nat → Nat → Nat
  | 0, p => p
  | fuel+1, p => if s.endOfAllocation p then p else s.findEnd fuel (p+1)

def mergeNext (startingVa numberOfPages : Nat) : Nat × NonPagedPool :=
  let next := startingVa+numberOfPages
  -- the last page of the initial pool has no page behind it
  if next-1≠s.pages-1 ∧ ¬s.startOfAllocation next then
    (numberOfPages+s.size next, s.removeEntry next)
  else (numberOfPages, s)

def mergePrevious (startingVa freePages : Nat) : Nat × NonPagedPool :=
  if startingVa≠0 ∧ ¬s.endOfAllocation (startingVa-1) then
    let freeEntry := s.owner (startingVa-1)
    let size := s.size freeEntry+freePages
    if s.size freeEntry< miMaxFreePageLists-1 then
      (freeEntry, ((s.removeEntry freeEntry).setSize freeEntry size).insertTail
        (freeListIndex size) freeEntry)
    else (freeEntry, s.setSize freeEntry size)
  else (startingVa, s)

def fileEntry (startingVa freePages freeEntry : Nat) : NonPagedPool :=
  if freeEntry=startingVa then
    (s.setSize startingVa freePages).insertTail (freeListIndex freePages) startingVa
  else s

def miFreePoolPages (startingVa : Nat) : Nat × NonPagedPool :=
  let last := s.findEnd s.pages startingVa
  let numberOfPages := last-startingVa+1
  let s := (s.setStart startingVa false).setEnd last false
  let (freePages, s) := s.mergeNext startingVa numberOfPages
  let (freeEntry, s) := s.mergePrevious startingVa freePages
  let s := s.fileEntry startingVa freePages freeEntry
  (numberOfPages, s.linkPages startingVa freeEntry freePages)

end NonPagedPool

theorem bytesToPages_pos {n : Nat} (hn : 0<n) : 1≤bytesToPages n := by
  rw [bytesToPages]
  split
  · simp only [pageShift] at *
    omega
  · simp only [pageShift] at *
    omega

theorem freeListIndex_val {n : Nat} (hn : 1≤n) :
    (freeListIndex n).val=min n miMaxFreePageLists-1 := by
  by_cases h : n≠0 ∧ n-1< miMaxFreePageLists
  · have hindex : freeListIndex n=⟨n-1,h.2⟩ := dif_pos h
    rw [hindex]
    dsimp only
    omega
  · have hindex : freeListIndex n=lastFreeList := dif_neg h
    rw [hindex,lastFreeList]
    dsimp only
    omega

def Runs (free : Fin miMaxFreePageLists → List Extent) (r : Extent) : Prop := ∃ i, r∈free i

/-- Each run is in the list of its size, by the header on its first page. -/
structure Filed (links : Links PoolLink) (free : Fin miMaxFreePageLists → List Extent) : Prop where
  list : ∀ i, IsList links (.head i) ((free i).map fun r => .page r.first)
  index : ∀ i, ∀ r∈free i, i.val=min r.size miMaxFreePageLists-1
  first_ne : ∀ i j, i≠j → ∀ r∈free i, ∀ x∈free j, r.first≠x.first

section Filed
variable {links : Links PoolLink} {free : Fin miMaxFreePageLists → List Extent} {r x : Extent}

section
variable (h : Filed links free)
include h

theorem Filed.eq_of_first (hr : Runs free r) (hx : Runs free x) (hrx : r.first=x.first) : r=x := by
  obtain ⟨i,hr⟩ := hr
  obtain ⟨j,hx⟩ := hx
  have hij : i=j := by_contra fun hij => h.first_ne i j hij r hr x hx hrx
  subst hij
  have hnodup := (nodup_cons.mp (h.list i).nodup).2
  exact inj_on_of_nodup_map hnodup hr hx (by rw [hrx])

/-- The members of a list are not members of another. -/
theorem Filed.not_mem {i j : Fin miMaxFreePageLists} (hij : i≠j) :
    ∀ x∈PoolLink.head i::(free i).map (fun r => PoolLink.page r.first),
      x∉PoolLink.head j::(free j).map fun r => PoolLink.page r.first := by
  intro x hx hxj
  obtain rfl | hx := mem_cons.mp hx
  · simp [hij] at hxj
  · obtain ⟨r,hr,rfl⟩ := mem_map.mp hx
    obtain ⟨y,hy,hry⟩ : ∃ y∈free j, y.first=r.first := by simpa using hxj
    exact h.first_ne i j hij r hr y hy hry.symm

/-- A run is taken from its list. -/
theorem Filed.remove (hr : Runs free r) :
    ∃ free', Filed (links.removeEntryList (.page r.first)) free' ∧
      ∀ x, Runs free' x ↔ Runs free x ∧ x≠r := by
  obtain ⟨i,hri⟩ := hr
  obtain ⟨A,B,hAB⟩ := append_of_mem hri
  have hlist := h.list i
  rw [hAB,map_append] at hlist
  have hmem : ∀ j, ∀ x∈update free i (A++B) j, x∈free j ∧ x≠r := by
    intro j x hx
    by_cases hji : j=i
    · subst hji
      rw [update_self] at hx
      refine ⟨by rw [hAB]; simpa using Or.imp_right .inr (mem_append.mp hx),?_⟩
      rintro rfl
      have hnodup := (nodup_cons.mp hlist.nodup).2
      refine (nodup_cons.mp (nodup_middle.mp hnodup)).1 ?_
      rw [← map_append]
      exact mem_map_of_mem hx
    · rw [update_of_ne hji] at hx
      exact ⟨hx,fun hxr => h.first_ne j i hji x hx r hri (by rw [hxr])⟩
  refine ⟨update free i (A++B),⟨fun j => ?_,fun j x hx => h.index j x (hmem j x hx).1,
    fun j k hjk x hx y hy => h.first_ne j k hjk x (hmem j x hx).1 y (hmem k y hy).1⟩,fun x => ?_⟩
  · by_cases hji : j=i
    · subst hji
      rw [update_self,map_append]
      exact hlist.remove
    · rw [update_of_ne hji]
      refine (h.list j).remove_other hlist fun x hx => h.not_mem (Ne.symm hji) x ?_
      rw [hAB,map_append]
      simp only [mem_cons,mem_append] at hx ⊢
      tauto
  · constructor
    · rintro ⟨j,hx⟩
      exact ⟨⟨j,(hmem j x hx).1⟩,(hmem j x hx).2⟩
    · rintro ⟨⟨j,hx⟩,hxr⟩
      refine ⟨j,?_⟩
      by_cases hji : j=i
      · subst hji
        rw [hAB] at hx
        simpa [hxr] using hx
      · rw [update_of_ne hji]
        exact hx

/-- A run is put at the end of the list of its size. -/
theorem Filed.insert (hr : 1≤r.size) (hne : ∀ x, Runs free x → x.first≠r.first) :
    ∃ free', Filed (links.insertTailList (.head (freeListIndex r.size)) (.page r.first)) free' ∧
      ∀ x, Runs free' x ↔ Runs free x ∨ x=r := by
  obtain ⟨i,hi⟩ : ∃ i, i=freeListIndex r.size := ⟨_,rfl⟩
  rw [← hi]
  have hmem : ∀ j x, x∈update free i (free i++[r]) j ↔
      x∈free j ∨ (j=i ∧ x=r) := by
    intro j x
    by_cases hji : j=i
    · subst hji
      simp
    · simp [hji]
  have hnot : ∀ j, PoolLink.page r.first ∉
      PoolLink.head j::(free j).map fun r => PoolLink.page r.first := by
    intro j hj
    obtain ⟨x,hx,hxr⟩ : ∃ x∈free j, x.first=r.first := by simpa using hj
    exact hne x ⟨j,hx⟩ hxr
  refine ⟨update free i (free i++[r]),⟨fun j => ?_,fun j x hx => ?_,
    fun j k hjk x hx y hy => ?_⟩,fun x => ?_⟩
  · by_cases hji : j=i
    · subst hji
      rw [update_self,map_append]
      exact (h.list _).insertTail (hnot _)
    · rw [update_of_ne hji]
      exact (h.list j).insertTail_other (h.list i) (hnot j) (h.not_mem (Ne.symm hji))
  · obtain hx | ⟨rfl,rfl⟩ := (hmem j x).mp hx
    · exact h.index j x hx
    · rw [hi]
      exact freeListIndex_val hr
  · obtain hxj | ⟨rfl,rfl⟩ := (hmem j x).mp hx
    · obtain hyk | ⟨-,rfl⟩ := (hmem k y).mp hy
      · exact h.first_ne j k hjk x hxj y hyk
      · exact hne x ⟨j,hxj⟩
    · obtain hyk | ⟨hk,-⟩ := (hmem k y).mp hy
      · exact (hne y ⟨k,hyk⟩).symm
      · exact absurd hk.symm hjk
  · constructor
    · rintro ⟨j,hx⟩
      obtain hx | ⟨-,rfl⟩ := (hmem j x).mp hx
      · exact .inl ⟨j,hx⟩
      · exact .inr rfl
    · rintro (⟨j,hx⟩ | rfl)
      · exact ⟨j,(hmem j x).mpr (.inl hx)⟩
      · exact ⟨i,(hmem i x).mpr (.inr ⟨rfl,rfl⟩)⟩

/-- A run of the last list grows in its place. -/
theorem Filed.grow (hr : Runs free r) (h4 : miMaxFreePageLists≤r.size) (n : Nat) :
    ∃ free', Filed links free' ∧
      ∀ x, Runs free' x ↔ (Runs free x ∧ x≠r) ∨ x=⟨r.first,r.size+n⟩ := by
  let g : Extent → Extent := fun x => if x=r then ⟨r.first,r.size+n⟩ else x
  have hg : ∀ x, (g x).first=x.first := by
    intro x
    by_cases hx : x=r
    · simp [g,hx]
    · simp [g,hx]
  refine ⟨fun i => (free i).map g,⟨fun i => ?_,fun i x hx => ?_,fun i j hij x hx y hy => ?_⟩,
    fun x => ?_⟩
  · rw [map_map]
    simpa only [comp_def,hg] using h.list i
  · obtain ⟨y,hy,rfl⟩ := mem_map.mp hx
    have hindex := h.index i y hy
    by_cases hyr : y=r
    · subst hyr
      simp only [g,if_pos,hindex]
      omega
    · simpa [g,hyr] using hindex
  · obtain ⟨x',hx',rfl⟩ := mem_map.mp hx
    obtain ⟨y',hy',rfl⟩ := mem_map.mp hy
    rw [hg,hg]
    exact h.first_ne i j hij x' hx' y' hy'
  · constructor
    · rintro ⟨i,hx⟩
      obtain ⟨y,hy,rfl⟩ := mem_map.mp hx
      by_cases hyr : y=r
      · exact .inr (by simp [g,hyr])
      · exact .inl (by simpa [g,hyr] using ⟨i,hy⟩)
    · rintro (⟨⟨i,hx⟩,hxr⟩ | rfl)
      · exact ⟨i,mem_map.mpr ⟨x,hx,by simp [g,hxr]⟩⟩
      · obtain ⟨i,hr⟩ := hr
        exact ⟨i,mem_map.mpr ⟨r,hr,by simp [g]⟩⟩

end

end Filed

end Odyssey.Mm
