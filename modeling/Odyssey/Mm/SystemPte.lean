import Odyssey.Lib.Chain
import Odyssey.Lib.Extent

/-! The system PTE allocator (`mm/ARM3/syspte.c`). The free PTEs are in clusters, which are
linked through their own PTEs and ordered by size. -/
namespace Odyssey.Mm
open LinkedList Extent Function List

/-- `MMPTE` in its list format; the other eleven bits are in `rest`. -/
structure Pte where
  oneEntry : Bool
  nextEntry : BitVec 20
  rest : BitVec 11
deriving DecidableEq

def Pte.zero : Pte := ⟨false,0,0⟩

def mmEmptyList : BitVec 20 := 0xFFFFF

inductive PtePoolType where
  | systemPteSpace
  | nonPagedPoolExpansion
deriving DecidableEq

inductive PtePtr where
  | head
  | pte (i : Nat)

variable {q : PtePtr}

structure SystemPtes where
  ptes : Nat → Pte
  firstFree : PtePoolType → Pte
  start : PtePoolType → Nat
  last : PtePoolType → Nat
  totalFree : PtePoolType → Nat

namespace SystemPtes
variable (s : SystemPtes) (space : PtePoolType)

def get : PtePtr → Pte
  | .head => s.firstFree space
  | .pte i => s.ptes i

def setPte (i : Nat) (p : Pte) : SystemPtes := { s with ptes := update s.ptes i p }

def set (q : PtePtr) (p : Pte) : SystemPtes :=
  match q with
  | .head => { s with firstFree := update s.firstFree space p }
  | .pte i => s.setPte i p

def setNextEntry (q : PtePtr) (n : BitVec 20) : SystemPtes :=
  s.set space q { s.get space q with nextEntry := n }

def setOneEntry (i : Nat) (b : Bool) : SystemPtes := s.setPte i { s.ptes i with oneEntry := b }

def setTotal (n : Nat) : SystemPtes :=
  { s with totalFree := update s.totalFree space n }

def zeroPtes : Nat → Nat → SystemPtes → SystemPtes
  | _, 0, s => s
  | i, n+1, s => zeroPtes (i+1) n (s.setPte i .zero)

def clusterSize (i : Nat) : Nat :=
  if (s.ptes i).oneEntry then 1 else (s.ptes (i+1)).nextEntry.toNat

def findLoop (n : Nat) : Nat → PtePtr → Option PtePtr
  | 0, _ => none
  | fuel+1, previous =>
    let next := (s.get space previous).nextEntry
    if next=mmEmptyList then some previous
    else if n≤ s.clusterSize next.toNat then some previous
    else findLoop n fuel (.pte next.toNat)

def zeroCluster (i : Nat) : SystemPtes :=
  if (s.ptes i).oneEntry then s.setPte i .zero else (s.setPte i .zero).setPte (i+1) .zero

def fuel : Nat := 2^20

def putBack (next clusterSize : Nat) : Option SystemPtes := do
  let s := if clusterSize=1 then (s.setOneEntry next true).setPte (next+clusterSize) .zero
    else s.setNextEntry space (.pte (next+1)) (BitVec.ofNat 20 clusterSize)
  let previous ← s.findLoop space clusterSize fuel .head
  let s := s.setNextEntry space (.pte next) (s.get space previous).nextEntry
  some (s.setNextEntry space previous (BitVec.ofNat 20 next))

def miReserveAlignedSystemPtes (numberOfPtes : Nat) : Option (SystemPtes × Option Nat) := do
  let previous ← s.findLoop space numberOfPtes fuel .head
  if (s.get space previous).nextEntry=mmEmptyList then some (s, none)
  else
    let next := (s.get space previous).nextEntry.toNat
    let clusterSize := s.clusterSize next
    let s := s.setNextEntry space previous (s.ptes next).nextEntry
    if clusterSize=numberOfPtes then
      let s := s.zeroCluster next
      some (s.setTotal space (s.totalFree space-numberOfPtes), some next)
    else
      let s ← s.putBack space next (clusterSize-numberOfPtes)
      some (s.setTotal space (s.totalFree space-numberOfPtes),
        some (next+(clusterSize-numberOfPtes)))

def miReserveSystemPtes (numberOfPtes : Nat) : Option (SystemPtes × Option Nat) :=
  s.miReserveAlignedSystemPtes space numberOfPtes

def releaseLoop (space : PtePoolType) : Nat → SystemPtes → PtePtr → Nat → Nat → Option PtePtr →
    Option (SystemPtes × PtePtr × Nat × Nat)
  | 0, _, _, _, _, _ => none
  | fuel+1, s, previous, startingPte, numberOfPtes, insert =>
    let next := (s.get space previous).nextEntry
    if next=mmEmptyList then some (s, insert.getD previous, startingPte, numberOfPtes)
    else
      let nextPte := next.toNat
      let clusterSize := s.clusterSize nextPte
      if nextPte+clusterSize=startingPte ∨ startingPte+numberOfPtes=nextPte then
        let s := s.setNextEntry space previous (s.ptes nextPte).nextEntry
        releaseLoop space fuel (s.zeroCluster nextPte) previous
          (if nextPte<startingPte then nextPte else startingPte) (numberOfPtes+clusterSize) none
      else
        releaseLoop space fuel s (.pte nextPte) startingPte numberOfPtes
          (if insert.isNone ∧ numberOfPtes≤clusterSize then some previous else insert)

def linkCluster (insert : PtePtr) (startingPte numberOfPtes : Nat) : SystemPtes :=
  let s := if numberOfPtes≠1 then
      (s.setOneEntry startingPte false).setNextEntry space (.pte (startingPte+1))
        (BitVec.ofNat 20 numberOfPtes)
    else s.setOneEntry startingPte true
  let s := s.setNextEntry space (.pte startingPte) (s.get space insert).nextEntry
  s.setNextEntry space insert (BitVec.ofNat 20 startingPte)

def miReleaseSystemPtes (startingPte numberOfPtes : Nat) : Option SystemPtes :=
  if numberOfPtes≠0 ∧ s.start space≤ startingPte ∧
      startingPte+numberOfPtes-1≤ s.last space then do
    let s := zeroPtes startingPte numberOfPtes s
    let s := s.setTotal space (s.totalFree space+numberOfPtes)
    let (s, insert, startingPte, numberOfPtes) ←
      releaseLoop space fuel s .head startingPte numberOfPtes none
    some (s.linkCluster space insert startingPte numberOfPtes)
  else none

def miInitializeSystemPtes (startingPte numberOfPtes : Nat) : Option SystemPtes :=
  if numberOfPtes ≥ 1 then
    let s : SystemPtes := { s with
      start := update s.start space startingPte
      last := update s.last space (startingPte+numberOfPtes-1) }
    let s := zeroPtes startingPte numberOfPtes s
    let s := s.setNextEntry space (.pte startingPte) mmEmptyList
    let s := s.set space .head { Pte.zero with nextEntry := BitVec.ofNat 20 startingPte }
    let s := s.setPte (startingPte+1) { Pte.zero with nextEntry := BitVec.ofNat 20 numberOfPtes }
    some (s.setTotal space numberOfPtes)
  else none

end SystemPtes

def clusterRef (c : Extent) : BitVec 20 := BitVec.ofNat 20 c.first

def Sized (s : SystemPtes) (c : Extent) : Prop :=
  if c.size=1 then (s.ptes c.first).oneEntry=true
  else (s.ptes c.first).oneEntry=false ∧ (s.ptes (c.first+1)).nextEntry=BitVec.ofNat 20 c.size

structure Listed (s : SystemPtes) (space : PtePoolType) (L : List Extent) : Prop where
  chain : Chain mmEmptyList clusterRef (fun c => (s.ptes c.first).nextEntry)
    (s.firstFree space).nextEntry L
  sized : ∀ c∈L, Sized s c

def cursor : PtePtr → List Extent → PtePtr
  | p, [] => p
  | _, c::A => cursor (.pte c.first) A

section Setters
variable {s : SystemPtes} {space other : PtePoolType} {i j lo hi : Nat} {p : Pte} {n : BitVec 20}
  {c d : Extent} {L : List Extent} {s' : SystemPtes}

@[simp] theorem ptes_setPte : (s.setPte i p).ptes j=if j=i then p else s.ptes j := by
  simp [SystemPtes.setPte,update_apply]

@[simp] theorem ptes_setNextEntry_pte :
    (s.setNextEntry space (.pte i) n).ptes j =
      if j=i then { s.ptes i with nextEntry := n } else s.ptes j := by
  simp [SystemPtes.setNextEntry,SystemPtes.set,SystemPtes.get]

@[simp] theorem nextEntry_setNextEntry_head :
    ((s.setNextEntry space .head n).firstFree space).nextEntry=n := by
  simp [SystemPtes.setNextEntry,SystemPtes.set]

@[simp] theorem totalFree_setNextEntry : (s.setNextEntry space q n).totalFree=s.totalFree := by
  cases q with
  | head => rfl
  | pte i => rfl

theorem cursor_concat (q : PtePtr) (A : List Extent) (c : Extent) :
    cursor q (A++[c]) = .pte c.first := by
  induction A generalizing q with
  | nil => rfl
  | cons d A ih => exact ih _

theorem Sized.clusterSize (h : Sized s c) (hc : c.Within lo hi) (hhi : hi≤0xFFFFF) :
    s.clusterSize c.first=c.size := by
  obtain ⟨-,h1,h2⟩ := hc
  unfold Sized at h
  unfold SystemPtes.clusterSize
  by_cases hone : c.size=1
  · rw [if_pos hone] at h
    rw [if_pos h,hone]
  · rw [if_neg hone] at h
    rw [if_neg (by rw [h.1]; decide),h.2,BitVec.toNat_ofNat,Nat.mod_eq_of_lt (by omega)]

/-- Storing links does not change sizes. -/
theorem Sized.setNextEntry (h : Sized s c) (hi : c.size=1 ∨ i≠c.first+1) :
    Sized (s.setNextEntry space (.pte i) n) c := by
  unfold Sized at h ⊢
  simp only [ptes_setNextEntry_pte]
  by_cases hone : c.size=1
  · rw [if_pos hone] at h ⊢
    by_cases hci : c.first=i
    · rw [if_pos hci,← hci]
      exact h
    · rw [if_neg hci]
      exact h
  · rw [if_neg hone] at h ⊢
    have hne : c.first+1≠i := fun he => (hi.resolve_left hone) he.symm
    rw [if_neg hne]
    by_cases hci : c.first=i
    · rw [if_pos hci,← hci]
      exact h
    · rw [if_neg hci]
      exact h

theorem Sized.congr (h : Sized s c) (h1 : s'.ptes c.first=s.ptes c.first)
    (h2 : c.size≠1 → s'.ptes (c.first+1)=s.ptes (c.first+1)) : Sized s' c := by
  unfold Sized at h ⊢
  by_cases hone : c.size=1
  · rw [if_pos hone] at h ⊢
    rw [h1]
    exact h
  · rw [if_neg hone] at h ⊢
    rw [h1,h2 hone]
    exact h

/-- The list only depends on the PTEs of its clusters. -/
theorem Listed.congr (h : Listed s space L) (hw : ∀ c∈L, c.Within lo hi)
    (hp : ∀ c∈L, ∀ i, c.first ≤ i → i<c.first+c.size → s'.ptes i=s.ptes i)
    (hf : s'.firstFree space=s.firstFree space) : Listed s' space L where
  chain := by
    rw [hf]
    refine h.chain.congr fun c hc => ?_
    have := (hw c hc).2.1
    rw [hp c hc c.first le_rfl (by omega)]
  sized := by
    intro c hc
    have := (hw c hc).2.1
    refine (h.sized c hc).congr (hp c hc _ le_rfl (by omega)) fun hone => ?_
    exact hp c hc _ (by omega) (by omega)

theorem ref_toNat (hc : c.Within lo hi) (hhi : hi≤0xFFFFF) : (clusterRef c).toNat=c.first := by
  obtain ⟨-,h1,h2⟩ := hc
  rw [clusterRef,BitVec.toNat_ofNat,Nat.mod_eq_of_lt (by omega)]

theorem ref_ne_empty (hc : c.Within lo hi) (hhi : hi≤0xFFFFF) : clusterRef c≠mmEmptyList := by
  intro he
  have h1 := ref_toNat hc hhi
  rw [he] at h1
  obtain ⟨-,h2,h3⟩ := hc
  have : mmEmptyList.toNat=0xFFFFF := by decide
  omega

end Setters

section Walks
variable {s : SystemPtes} {space : PtePoolType} {lo hi : Nat} {c : Extent} {A B L : List Extent}

/-- What follows a point of the list. -/
theorem Listed.chain_cursor (h : Listed s space (A++B)) :
    Chain mmEmptyList clusterRef (fun c => (s.ptes c.first).nextEntry)
      (s.get space (cursor .head A)).nextEntry B := by
  induction A using List.reverseRecOn with
  | nil => exact h.chain
  | append_singleton A a _ =>
    rw [cursor_concat]
    have hchain := h.chain
    rw [append_assoc] at hchain
    exact hchain.rest

/-- The walk stops before the first cluster with enough PTEs. -/
theorem findLoop_stop {n fuel : Nat} (hhi : hi≤0xFFFFF)
    (hc : Chain mmEmptyList clusterRef (fun c => (s.ptes c.first).nextEntry)
      (s.get space q).nextEntry B)
    (hw : ∀ c∈B, c.Within lo hi) (hs : ∀ c∈B, Sized s c) (hf : B.length<fuel) :
    ∃ A' B', B=A'++B' ∧ s.findLoop space n fuel q=some (cursor q A') ∧
      (∀ c∈A', c.size<n) ∧ ∀ c∈B'.head?, n≤c.size := by
  induction B generalizing q fuel with
  | nil =>
    obtain ⟨m,rfl⟩ := Nat.exists_eq_succ_of_ne_zero (by omega : fuel≠0)
    have hnil : (s.get space q).nextEntry=mmEmptyList := hc
    exact ⟨[],[],rfl,by simp [SystemPtes.findLoop,hnil,cursor],by simp,by simp⟩
  | cons c B ih =>
    obtain ⟨m,rfl⟩ := Nat.exists_eq_succ_of_ne_zero (by omega : fuel≠0)
    obtain ⟨href,hne,hrest⟩ := hc
    have hcw := hw c (by simp)
    have hnat : (s.get space q).nextEntry.toNat=c.first := by rw [href,ref_toNat hcw hhi]
    have hsize := (hs c (by simp)).clusterSize hcw hhi
    have hne' : (s.get space q).nextEntry≠mmEmptyList := by rwa [href]
    by_cases hn : n≤c.size
    · refine ⟨[],c::B,rfl,?_,by simp,by simpa using hn⟩
      simp [SystemPtes.findLoop,hne',hnat,hsize,hn,cursor]
    · obtain ⟨A',B',rfl,hrun,hA,hB⟩ := ih (q := .pte c.first) hrest
        (fun d hd => hw d (by simp [hd])) (fun d hd => hs d (by simp [hd]))
        (Nat.lt_of_succ_lt_succ hf)
      refine ⟨c::A',B',rfl,?_,?_,hB⟩
      · simp only [SystemPtes.findLoop,if_neg hne',hnat,hsize,if_neg hn]
        exact hrun
      · intro d hd
        obtain rfl | hd := mem_cons.mp hd
        · omega
        · exact hA d hd

/-- A store of a link at a point of the list: the clusters before and behind it keep their
sizes, and those before it stay linked. -/
theorem Listed.redirect {B' : List Extent} {n : BitVec 20} (h : Listed s space (A++B))
    (hw : ∀ c∈A++B', c.Within lo hi) (hd : (A++B').Pairwise Extent.Disjoint)
    (hB : Chain mmEmptyList clusterRef (fun c => (s.ptes c.first).nextEntry) n B')
    (hs : ∀ c∈B', Sized s c) :
    Listed (s.setNextEntry space (cursor .head A) n) space (A++B') := by
  induction A using List.reverseRecOn with
  | nil =>
    refine ⟨?_,hs⟩
    rw [cursor,nextEntry_setNextEntry_head]
    exact hB
  | append_singleton A a _ =>
    rw [cursor_concat]
    have hpa : ∀ c∈A++B', a.Disjoint c := by
      intro c hc
      have hpair := pairwise_append.mp hd
      obtain hc | hc := mem_append.mp hc
      · exact ((pairwise_append.mp hpair.1).2.2 c hc a (by simp)).symm
      · exact hpair.2.2 a (by simp) c hc
    have hwa : 1≤a.size := (hw a (by simp)).2.1
    have hkeep : ∀ c∈A++B', ((s.setNextEntry space (.pte a.first) n).ptes c.first).nextEntry =
        (s.ptes c.first).nextEntry := by
      intro c hc
      have hcw : c.Within lo hi := hw c (by
        obtain hc | hc := mem_append.mp hc
        · simp [hc]
        · simp [hc])
      rw [ptes_setNextEntry_pte,if_neg ((hpa c hc).first_ne hwa hcw.2.1).symm]
    constructor
    · have hchain := h.chain
      rw [append_assoc] at hchain ⊢
      refine hchain.splice (fun c hc => hkeep c (by simp [hc])) ?_
      rw [ptes_setNextEntry_pte,if_pos rfl]
      exact hB.congr fun c hc => hkeep c (by simp [hc])
    · intro c hc
      by_cases hca : c=a
      · have hsa : Sized s a := h.sized a (by simp)
        rw [hca]
        exact hsa.setNextEntry (.inr (by omega))
      · have hc' : c∈A++B' := by
          simp only [mem_append,mem_singleton] at hc ⊢
          tauto
        have hsc : Sized s c := by
          obtain hcA | hcB := mem_append.mp hc'
          · exact h.sized c (by simp [hcA])
          · exact hs c hcB
        exact hsc.setNextEntry ((hpa c hc').second_ne hwa (hw c hc).2.1)

/-- A cluster is taken out of the list. -/
theorem Listed.unlink (h : Listed s space (A++c::B)) (hw : ∀ d∈A++c::B, d.Within lo hi)
    (hd : (A++c::B).Pairwise Extent.Disjoint) :
    Listed (s.setNextEntry space (cursor .head A) (s.ptes c.first).nextEntry) space (A++B) := by
  have hsub : (A++B).Sublist (A++c::B) :=
    (List.Sublist.refl A).append (sublist_cons_self c B)
  refine h.redirect (fun d hdm => hw d (hsub.subset hdm)) (hd.sublist hsub) ?_
    fun d hdm => h.sized d (by simp [hdm])
  exact h.chain_cursor.2.2

/-- A cluster is put into the list. -/
theorem Listed.insert (h : Listed s space (A++B)) (hhi : hi≤0xFFFFF)
    (hw : ∀ d∈A++c::B, d.Within lo hi)
    (hd : (A++c::B).Pairwise Extent.Disjoint) (hc : Sized s c) :
    Listed ((s.setNextEntry space (.pte c.first)
      (s.get space (cursor .head A)).nextEntry).setNextEntry space (cursor .head A) (clusterRef c))
        space
        (A++c::B) := by
  have hcw := hw c (by simp)
  have hother : ∀ d∈A++B, c.Disjoint d := by
    intro d hdm
    have hpair := pairwise_append.mp hd
    obtain hdm | hdm := mem_append.mp hdm
    · exact (hpair.2.2 d hdm c (by simp)).symm
    · exact (pairwise_cons.mp hpair.2.1).1 d hdm
  have hkeep : Listed (s.setNextEntry space (.pte c.first)
      (s.get space (cursor .head A)).nextEntry) space (A++B) := by
    have hwAB : ∀ d∈A++B, d.Within lo hi := fun d hdm =>
      hw d (perm_middle.mem_iff.mpr (mem_cons_of_mem _ hdm))
    refine h.congr hwAB (fun d hdm i h1 h2 => ?_) rfl
    rw [ptes_setNextEntry_pte,if_neg]
    have hdc := hother d hdm
    have hc1 := hcw.2.1
    obtain hdc | hdc := hdc
    · omega
    · omega
  refine hkeep.redirect hw hd ⟨rfl,ref_ne_empty hcw hhi,?_⟩ fun d hdm => ?_
  · dsimp only
    rw [ptes_setNextEntry_pte,if_pos rfl]
    refine h.chain_cursor.congr fun d hdm => ?_
    have hdw : d.Within lo hi := hw d (by simp [hdm])
    rw [ptes_setNextEntry_pte,if_neg ((hother d (by simp [hdm])).first_ne hcw.2.1 hdw.2.1).symm]
  · obtain rfl | hdm := mem_cons.mp hdm
    · exact hc.setNextEntry (.inr (by omega))
    · exact hkeep.sized d (by simp [hdm])

end Walks

structure Outside (s s' : SystemPtes) (space : PtePoolType) (lo hi : Nat) : Prop where
  ptes : ∀ i, i<lo ∨ hi ≤ i → s'.ptes i=s.ptes i
  firstFree : ∀ other, other≠space → s'.firstFree other=s.firstFree other
  totalFree : ∀ other, other≠space → s'.totalFree other=s.totalFree other
  start : ∀ other, other≠space → s'.start other=s.start other
  last : ∀ other, other≠space → s'.last other=s.last other

structure Local (s s' : SystemPtes) (space : PtePoolType) (lo hi : Nat) : Prop where
  outside : Outside s s' space lo hi
  start : s'.start=s.start
  last : s'.last=s.last

/-- The invariant of a space: its free clusters `L` and its reservations `R`. -/
structure SpaceInv (s : SystemPtes) (space : PtePoolType) (lo hi : Nat) (L R : List Extent) :
    Prop where
  listed : Listed s space L
  within : ∀ c∈L++R, c.Within lo hi
  sorted : L.Pairwise fun c d => c.size≤d.size
  apart : L.Pairwise Extent.Apart
  disjoint : (L++R).Pairwise Extent.Disjoint
  total : s.totalFree space=(L.map Extent.size).sum
  start : s.start space=lo
  last : s.last space+1=hi

section Locality
variable {s s' s'' : SystemPtes} {space other : PtePoolType} {lo hi i : Nat} {c : Extent}
  {A B L R : List Extent}

theorem Local.refl (s : SystemPtes) (space : PtePoolType) (lo hi : Nat) : Local s s space lo hi :=
  ⟨⟨fun _ _ => rfl,fun _ _ => rfl,fun _ _ => rfl,fun _ _ => rfl,fun _ _ => rfl⟩,rfl,rfl⟩

theorem Outside.trans (h : Outside s s' space lo hi) (h' : Outside s' s'' space lo hi) :
    Outside s s'' space lo hi where
  ptes i hi := (h'.ptes i hi).trans (h.ptes i hi)
  firstFree o ho := (h'.firstFree o ho).trans (h.firstFree o ho)
  totalFree o ho := (h'.totalFree o ho).trans (h.totalFree o ho)
  start o ho := (h'.start o ho).trans (h.start o ho)
  last o ho := (h'.last o ho).trans (h.last o ho)

section
variable (h : Local s s' space lo hi)
include h

theorem Local.trans (h' : Local s' s'' space lo hi) : Local s s'' space lo hi :=
  ⟨h.outside.trans h'.outside,h'.start.trans h.start,h'.last.trans h.last⟩

theorem Local.setPte (hlo : lo ≤ i) (hhi : i<hi) (p : Pte) : Local s (s'.setPte i p) space lo hi :=
  h.trans ⟨⟨fun j hj => by rw [ptes_setPte,if_neg (by omega)],fun _ _ => rfl,fun _ _ => rfl,
    fun _ _ => rfl,fun _ _ => rfl⟩,rfl,rfl⟩

theorem Local.setNextEntry (hq : ∀ i, q = .pte i → lo ≤ i ∧ i<hi) (n : BitVec 20) :
    Local s (s'.setNextEntry space q n) space lo hi := by
  cases q with
  | head =>
    refine h.trans ⟨⟨fun _ _ => rfl,fun o ho => ?_,fun _ _ => rfl,fun _ _ => rfl,
      fun _ _ => rfl⟩,rfl,rfl⟩
    exact update_of_ne ho _ _
  | pte i => exact h.setPte (hq i rfl).1 (hq i rfl).2 _

theorem Local.setTotal (n : Nat) : Local s (s'.setTotal space n) space lo hi :=
  h.trans ⟨⟨fun _ _ => rfl,fun _ _ => rfl,fun _ ho => update_of_ne ho _ _,
    fun _ _ => rfl,fun _ _ => rfl⟩,rfl,rfl⟩

end

theorem cursor_within (hw : ∀ c∈A, c.Within lo hi) :
    ∀ i, cursor .head A = .pte i → lo ≤ i ∧ i<hi := by
  induction A using List.reverseRecOn with
  | nil =>
    intro i hi
    cases hi
  | append_singleton A a _ =>
    intro i hi
    rw [cursor_concat] at hi
    obtain ⟨h1,h2,h3⟩ := hw a (by simp)
    cases hi
    omega

theorem Local.zeroCluster (h : Local s s' space lo hi) (hc : c.Within lo hi) (hs : Sized s' c) :
    Local s (s'.zeroCluster c.first) space lo hi := by
  obtain ⟨h1,h2,h3⟩ := hc
  unfold Sized at hs
  unfold SystemPtes.zeroCluster
  by_cases hone : c.size=1
  · rw [if_pos hone] at hs
    rw [if_pos hs]
    exact h.setPte h1 (by omega) _
  · rw [if_neg hone] at hs
    rw [if_neg (by rw [hs.1]; decide)]
    exact (h.setPte h1 (by omega) _).setPte (by omega) (by omega) _

theorem ptes_zeroCluster (hs : Sized s c) (hpos : 1≤c.size) (hi : i<c.first ∨ c.first+c.size ≤ i) :
    (s.zeroCluster c.first).ptes i=s.ptes i := by
  unfold Sized at hs
  unfold SystemPtes.zeroCluster
  by_cases hone : c.size=1
  · rw [if_pos hone] at hs
    rw [if_pos hs,ptes_setPte,if_neg (by omega)]
  · rw [if_neg hone] at hs
    rw [if_neg (by rw [hs.1]; decide),ptes_setPte,if_neg (by omega),ptes_setPte,if_neg (by omega)]

theorem zeroCluster_eq (s : SystemPtes) (i : Nat) :
    ∃ ptes, s.zeroCluster i={ s with ptes } := by
  unfold SystemPtes.zeroCluster
  by_cases hone : (s.ptes i).oneEntry
  · rw [if_pos hone]
    exact ⟨_,rfl⟩
  · rw [if_neg hone]
    exact ⟨_,rfl⟩

theorem firstFree_zeroCluster : (s.zeroCluster i).firstFree=s.firstFree := by
  obtain ⟨ptes,he⟩ := zeroCluster_eq s i
  rw [he]

theorem totalFree_zeroCluster : (s.zeroCluster i).totalFree=s.totalFree := by
  obtain ⟨ptes,he⟩ := zeroCluster_eq s i
  rw [he]

@[simp] theorem totalFree_setTotal {n : Nat} : (s.setTotal space n).totalFree space=n := by
  simp [SystemPtes.setTotal]

/-- A step on one space keeps the invariant of a disjoint one. -/
theorem SpaceInv.of_outside {lo' hi' : Nat} (h : SpaceInv s other lo' hi' L R)
    (hl : Outside s s' space lo hi) (ho : other≠space) (hd : hi≤lo' ∨ hi'≤lo) :
    SpaceInv s' other lo' hi' L R where
  listed := by
    refine h.listed.congr (fun c hc => h.within c (by simp [hc])) (fun c hc i h1 h2 => ?_)
      (hl.firstFree other ho)
    obtain ⟨h3,h4,h5⟩ := h.within c (by simp [hc])
    exact hl.ptes i (by omega)
  within := h.within
  sorted := h.sorted
  apart := h.apart
  disjoint := h.disjoint
  total := by rw [hl.totalFree other ho,h.total]
  start := by rw [hl.start other ho,h.start]
  last := by rw [hl.last other ho,h.last]

/-- `RtlZeroMemory` changes the PTEs of its range only. -/
theorem zeroPtes_spec (n : Nat) : ∃ ptes, SystemPtes.zeroPtes i n s={ s with ptes } ∧
    (∀ j, j < i ∨ i+n≤j → ptes j=s.ptes j) ∧ ∀ j, i≤j → j < i+n → ptes j = .zero := by
  induction n generalizing i s with
  | zero => exact ⟨s.ptes,rfl,fun _ _ => rfl,fun j h1 h2 => by omega⟩
  | succ n ih =>
    obtain ⟨ptes,he,hp,hz⟩ := ih (s := s.setPte i .zero)
    refine ⟨ptes,he,fun j hj => ?_,fun j h1 h2 => ?_⟩
    · rw [hp j (by omega),ptes_setPte,if_neg (by omega)]
    · by_cases hji : j=i
      · rw [hp j (by omega),ptes_setPte,if_pos hji]
      · exact hz j (by omega) (by omega)

theorem Local.zeroPtes (h : Local s s' space lo hi) (hc : c.Within lo hi) :
    Local s (SystemPtes.zeroPtes c.first c.size s') space lo hi := by
  obtain ⟨ptes,he,hp,-⟩ := zeroPtes_spec (s := s') c.size
  obtain ⟨h1,h2,h3⟩ := hc
  rw [he]
  exact h.trans ⟨⟨fun j hj => hp j (by omega),fun _ _ => rfl,fun _ _ => rfl,fun _ _ => rfl,
    fun _ _ => rfl⟩,rfl,rfl⟩

theorem Listed.zeroPtes (h : Listed s space L) (hw : ∀ d∈L, d.Within lo hi)
    (hd : ∀ d∈L, c.Disjoint d) : Listed (SystemPtes.zeroPtes c.first c.size s) space L := by
  obtain ⟨ptes,he,hp,-⟩ := zeroPtes_spec (s := s) c.size
  rw [he]
  refine h.congr hw (fun d hdm j h1 h2 => hp j ?_) rfl
  obtain hdc | hdc := hd d hdm
  · omega
  · omega

/-- Distinct clusters start at distinct PTEs, so there are fewer than the walks allow. -/
theorem SpaceInv.length_lt (h : SpaceInv s space lo hi L R) (hhi : hi≤0xFFFFF) :
    L.length<SystemPtes.fuel := by
  have hpos : ∀ c∈L, 1≤c.size := fun c hc => (h.within c (by simp [hc])).2.1
  have hnodup : (L.map Extent.first).Nodup := by
    refine pairwise_map.mpr (h.apart.imp_of_mem fun hc hd hcd => ?_)
    exact hcd.disjoint.first_ne (hpos _ hc) (hpos _ hd)
  have hle := length_le hnodup fun c hc => h.within c (by simp [hc])
  have : SystemPtes.fuel=0x100000 := by decide
  omega

end Locality

end Odyssey.Mm
