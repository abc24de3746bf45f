import Odyssey.Mm.SystemPte

/-! Runs of the system PTE allocator. -/
namespace Odyssey.Mm
open LinkedList Extent Function List SystemPtes

section Reserve
variable {s : SystemPtes} {space : PtePoolType} {lo hi n : Nat} {c : Extent}
  {A B L R : List Extent} {L' : List Extent}

/-- Storing the link at a point of the list does not change the size of another cluster. -/
theorem Sized.setCursor (h : Sized s c) (hpos : 1≤c.size) (hw : ∀ a∈A, a.Within lo hi)
    (hd : ∀ a∈A, a.Disjoint c) (n : BitVec 20) :
    Sized (s.setNextEntry space (cursor .head A) n) c := by
  induction A using List.reverseRecOn with
  | nil => exact h.congr rfl fun _ => rfl
  | append_singleton A a _ =>
    rw [cursor_concat]
    exact h.setNextEntry ((hd a (by simp)).second_ne (hw a (by simp)).2.1 hpos)

/-- The description of a cluster that has become smaller. -/
theorem Listed.shrink {k : Nat} (h : Listed s space L) (hw : ∀ d∈L, d.Within lo hi)
    (hc : Sized s c) (hcw : c.Within lo hi) (hd : ∀ d∈L, c.Disjoint d) (hk : 1≤k)
    (hkc : k<c.size) :
    ∃ s', (if k=1 then (s.setOneEntry c.first true).setPte (c.first+k) .zero
        else s.setNextEntry space (.pte (c.first+1)) (BitVec.ofNat 20 k))=s' ∧
      Listed s' space L ∧ Sized s' ⟨c.first,k⟩ ∧ Local s s' space lo hi ∧
      s'.totalFree=s.totalFree := by
  obtain ⟨h1,h2,h3⟩ := hcw
  have hout : ∀ d∈L, ∀ i, d.first ≤ i → i<d.first+d.size →
      i≠c.first ∧ i≠c.first+1 := by
    intro d hdm i hi1 hi2
    obtain hdc | hdc := hd d hdm
    · omega
    · omega
  by_cases hk1 : k=1
  · rw [if_pos hk1]
    refine ⟨_,rfl,?_,?_,?_,rfl⟩
    · refine h.congr hw (fun d hdm i hi1 hi2 => ?_) rfl
      obtain ⟨hi3,hi4⟩ := hout d hdm i hi1 hi2
      rw [ptes_setPte,if_neg (by omega),setOneEntry,ptes_setPte,if_neg hi3]
    · rw [Sized,if_pos hk1,ptes_setPte,if_neg (by simp; omega),setOneEntry,ptes_setPte,if_pos rfl]
    · exact ((Local.refl s space lo hi).setPte h1 (by omega) _).setPte (by omega) (by omega) _
  · rw [if_neg hk1]
    refine ⟨_,rfl,?_,?_,?_,rfl⟩
    · refine h.congr hw (fun d hdm i hi1 hi2 => ?_) rfl
      obtain ⟨hi3,hi4⟩ := hout d hdm i hi1 hi2
      rw [ptes_setNextEntry_pte,if_neg hi4]
    · unfold Sized at hc ⊢
      rw [if_neg (by omega)] at hc
      rw [if_neg hk1]
      simp only [ptes_setNextEntry_pte]
      rw [if_neg (by omega)]
      exact ⟨hc.1,rfl⟩
    · exact (Local.refl s space lo hi).setPte (by omega) (by omega) _

/-- What remains of a cluster goes back into the list. -/
theorem Listed.putBack {k : Nat} (h : Listed s space L) (hhi : hi≤0xFFFFF)
    (hw : ∀ d∈L, d.Within lo hi) (hlen : L.length<SystemPtes.fuel) (hc : Sized s c)
    (hcw : c.Within lo hi) (hd : ∀ d∈L, c.Disjoint d)
    (hpair : L.Pairwise Extent.Disjoint) (hk : 1≤k) (hkc : k<c.size) :
    ∃ s' A B, L=A++B ∧ s.putBack space c.first k=some s' ∧
      Listed s' space (A++⟨c.first,k⟩::B) ∧ Local s s' space lo hi ∧
      s'.totalFree=s.totalFree ∧ (∀ d∈A, d.size<k) ∧ ∀ d∈B.head?, k≤d.size := by
  obtain ⟨s₁,hs₁,hl₁,hsized₁,hloc₁,htot₁⟩ := h.shrink hw hc hcw hd hk hkc
  obtain ⟨h1,h2,h3⟩ := hcw
  obtain ⟨A,B,rfl,hfind,hA,hB⟩ := findLoop_stop (n := k) (q := .head) hhi hl₁.chain hw hl₁.sized
    hlen
  have hw' : ∀ d∈A++⟨c.first,k⟩::B, d.Within lo hi := by
    intro d hdm
    obtain rfl | hdm := mem_cons.mp (perm_middle.mem_iff.mp hdm)
    · exact ⟨h1,hk,by show c.first+k≤hi; omega⟩
    · exact hw d hdm
  have hd' : (A++⟨c.first,k⟩::B).Pairwise Extent.Disjoint := by
    refine perm_middle.symm.pairwise (pairwise_cons.mpr ⟨fun d hdm => ?_,hpair⟩)
      Extent.Disjoint.symm
    exact (hd d hdm).part le_rfl (by show c.first+k≤_; omega)
  have hwA : ∀ d∈A, d.Within lo hi := fun d hdm => hw d (by simp [hdm])
  refine ⟨_,A,B,rfl,?_,hl₁.insert hhi hw' hd' hsized₁,?_,?_,hA,hB⟩
  · unfold putBack
    dsimp only
    rw [hs₁,hfind]
    rfl
  · refine Local.setNextEntry (hloc₁.setPte h1 (by omega) _) (cursor_within hwA) _
  · rw [totalFree_setNextEntry,totalFree_setNextEntry,htot₁]

/-- A cluster that has been taken out of the list still has its description. -/
theorem Listed.sized_unlink (h : Listed s space (A++c::B))
    (hw : ∀ d∈A++c::B, d.Within lo hi) (hd : (A++c::B).Pairwise Extent.Disjoint)
    (n : BitVec 20) : Sized (s.setNextEntry space (cursor .head A) n) c :=
  (h.sized c (by simp)).setCursor (hw c (by simp)).2.1 (fun a ha => hw a (by simp [ha]))
    (fun a ha => (disjoint_middle hd a (by simp [ha])).symm) n

/-- The PTEs of a cluster out of the list can be zeroed. -/
theorem Listed.zeroCluster (h : Listed s space L) (hw : ∀ d∈L, d.Within lo hi)
    (hc : Sized s c) (hpos : 1≤c.size) (hd : ∀ d∈L, c.Disjoint d) :
    Listed (s.zeroCluster c.first) space L := by
  refine h.congr hw (fun d hdm i hi1 hi2 => ptes_zeroCluster hc hpos ?_)
    (congrFun firstFree_zeroCluster space)
  obtain hdc | hdc := hd d hdm
  · omega
  · omega

/-- The assembly of the invariant behind a step. -/
theorem SpaceInv.step {s' : SystemPtes} {L' R' : List Extent} (h : SpaceInv s space lo hi L R)
    (hloc : Local s s' space lo hi) (hl : Listed s' space L')
    (hw : ∀ c∈L'++R', c.Within lo hi) (hs : L'.Pairwise fun c d => c.size≤d.size)
    (ha : L'.Pairwise Extent.Apart) (hd : (L'++R').Pairwise Extent.Disjoint)
    (ht : s'.totalFree space=(L'.map Extent.size).sum) : SpaceInv s' space lo hi L' R' :=
  ⟨hl,hw,hs,ha,hd,ht,by rw [hloc.start,h.start],by rw [hloc.last,h.last]⟩

/-- `n` PTEs from `a` on are the tail of a cluster of `L`, and `L'` has what is left. -/
def TakesTail (L L' : List Extent) (a n : Nat) : Prop :=
  ∃ c rest, L.Perm (c::rest) ∧ n≤c.size ∧ a+n=c.first+c.size ∧
    (a=c.first ∧ L'.Perm rest ∨ L'.Perm (⟨c.first,a-c.first⟩::rest))

/-- Reserving PTEs. Without a cluster that is large enough nothing changes. -/
theorem SpaceInv.reserve (h : SpaceInv s space lo hi L R) (hhi : hi≤0xFFFFF) (hn : 1≤n) :
    (s.miReserveSystemPtes space n=some (s, none) ∧ ∀ c∈L, c.size<n) ∨
    ∃ s' L' a, s.miReserveSystemPtes space n=some (s', some a) ∧
      SpaceInv s' space lo hi L' (⟨a,n⟩::R) ∧ Local s s' space lo hi ∧ TakesTail L L' a n := by
  have hwL : ∀ c∈L, c.Within lo hi := fun c hc => h.within c (by simp [hc])
  obtain ⟨A,B,rfl,hfind,hA,hB⟩ := findLoop_stop (n := n) (q := .head) hhi h.listed.chain hwL
    h.listed.sized (h.length_lt hhi)
  unfold miReserveSystemPtes miReserveAlignedSystemPtes
  simp only [hfind,Option.bind_eq_bind,Option.bind_some]
  cases B with
  | nil =>
    have hnil : (s.get space (cursor .head A)).nextEntry=mmEmptyList := h.listed.chain_cursor
    rw [if_pos hnil]
    exact .inl ⟨rfl,by simpa using hA⟩
  | cons c B =>
    obtain ⟨href,hne,-⟩ := h.listed.chain_cursor
    have hcw := hwL c (by simp)
    have hnat : (s.get space (cursor .head A)).nextEntry.toNat=c.first := by
      rw [href,ref_toNat hcw hhi]
    have hsize := (h.listed.sized c (by simp)).clusterSize hcw hhi
    have hnc : n≤c.size := hB c rfl
    rw [if_neg (by rwa [href]),hnat,hsize]
    refine .inr ?_
    have hpair := (pairwise_append.mp h.disjoint).1
    have hdc := disjoint_middle hpair
    have hwA : ∀ d∈A, d.Within lo hi := fun d hd => hwL d (by simp [hd])
    have hwAB : ∀ d∈A++B, d.Within lo hi := fun d hd =>
      hwL d (perm_middle.mem_iff.mpr (mem_cons_of_mem _ hd))
    have hl₁ := h.listed.unlink hwL hpair
    have hs₁ := h.listed.sized_unlink hwL hpair (s.ptes c.first).nextEntry
    have hloc₁ := (Local.refl s space lo hi).setNextEntry (cursor_within hwA)
      (s.ptes c.first).nextEntry
    have htot₁ : (s.setNextEntry space (cursor .head A) (s.ptes c.first).nextEntry).totalFree =
      s.totalFree := totalFree_setNextEntry
    generalize s.setNextEntry space (cursor .head A) (s.ptes c.first).nextEntry=s₁ at *
    have hsub : (A++B).Sublist (A++c::B) :=
      (List.Sublist.refl A).append (sublist_cons_self c B)
    have htotal := h.total
    rw [sum_size_insert] at htotal
    by_cases hcn : c.size=n
    · rw [if_pos hcn]
      have hloc₂ := (hloc₁.zeroCluster hcw hs₁).setTotal
        ((s₁.zeroCluster c.first).totalFree space-n)
      have hl₂ := hl₁.zeroCluster hwAB hs₁ hcw.2.1 hdc
      have hcR : (⟨c.first,n⟩ : Extent)=c := by rw [← hcn]
      refine ⟨_,A++B,c.first,rfl,?_,hloc₂,c,A++B,perm_middle,hnc,by omega,.inl ⟨rfl,.rfl⟩⟩
      rw [hcR]
      refine h.step hloc₂ ⟨hl₂.chain,hl₂.sized⟩ ?_ (h.sorted.sublist hsub) (h.apart.sublist hsub)
        ((perm_take A B R c).pairwise h.disjoint Extent.Disjoint.symm) ?_
      · intro d hd
        exact h.within d ((perm_take A B R c).mem_iff.mpr hd)
      · rw [totalFree_setTotal,totalFree_zeroCluster,htot₁]
        omega
    · rw [if_neg hcn]
      have hlen : (A++B).length<SystemPtes.fuel := by
        have := h.length_lt hhi
        have := hsub.length_le
        omega
      obtain ⟨s₂,A',B',hAB,hput,hl₂,hloc₂,htot₂,hA',hB'⟩ := hl₁.putBack hhi hwAB hlen hs₁ hcw
        hdc (hpair.sublist hsub) (k := c.size-n) (by omega) (by omega)
      have hsum := sum_size_insert A' B' ⟨c.first,c.size-n⟩
      have hloc₃ := (hloc₁.trans hloc₂).setTotal (s₂.totalFree space-n)
      rw [← hAB] at hsum
      refine ⟨_,A'++⟨c.first,c.size-n⟩::B',c.first+(c.size-n),by rw [hput]; rfl,?_,hloc₃,
        c,A++B,perm_middle,hnc,by omega,.inr ?_⟩
      refine h.step hloc₃ ⟨hl₂.chain,hl₂.sized⟩ ?_
        (sorted_insert (hAB ▸ h.sorted.sublist hsub) hA' hB')
        ?_ ?_ ?_
      · intro x hx
        have hperm := (perm_first A' B' (⟨c.first+(c.size-n),n⟩::R)
          ⟨c.first,c.size-n⟩).trans (perm_middle.cons _)
        have hcc := hcw
        obtain ⟨hc1,hc2,hc3⟩ := hcc
        obtain rfl | hx := mem_cons.mp (hperm.mem_iff.mp hx)
        · exact ⟨hc1,by show 1≤c.size-n; omega,by show c.first+(c.size-n)≤hi; omega⟩
        · obtain rfl | hx := mem_cons.mp hx
          · exact ⟨by show lo≤c.first+_; omega,hn,by show c.first+(c.size-n)+n≤hi; omega⟩
          · rw [← hAB] at hx
            exact h.within x ((perm_first A B R c).mem_iff.mpr (mem_cons_of_mem _ hx))
      · obtain ⟨hac,hrest⟩ :=
          pairwise_cons.mp (perm_middle.pairwise h.apart Extent.Apart.symm)
        rw [hAB] at hac hrest
        refine perm_middle.symm.pairwise (pairwise_cons.mpr ⟨fun x hx => ?_,hrest⟩)
          Extent.Apart.symm
        exact (hac x hx).part le_rfl (by show c.first+(c.size-n)≤_; omega)
      · exact disjoint_split h.disjoint hAB rfl rfl (by show c.size-n+n=c.size; omega)
      · rw [totalFree_setTotal,htot₂,htot₁,hsum]
        show _=c.size-n+_
        omega
      · rw [Nat.add_sub_cancel_left,hAB]
        exact perm_middle

def FreePte (L : List Extent) (i : Nat) : Prop := ∃ c∈L, c.Contains i

def Room (L : List Extent) (a n : Nat) : Prop := ∀ i, Contains ⟨a,n⟩ i → FreePte L i

theorem freePte_cons {i : Nat} : FreePte (c::L) i ↔ c.Contains i ∨ FreePte L i := by
  simp [FreePte]

theorem FreePte.perm (h : L.Perm L') {i : Nat} : FreePte L i ↔ FreePte L' i :=
  exists_congr fun _ => and_congr_left fun _ => h.mem_iff

theorem TakesTail.freePte {a : Nat} (h : TakesTail L L' a n)
    (hd : L.Pairwise Extent.Disjoint) : Room L a n ∧
      ∀ i, FreePte L' i ↔ FreePte L i ∧ ¬Contains ⟨a,n⟩ i := by
  obtain ⟨c,rest,hL,hn,ha,hL'⟩ := h
  have hrest := (pairwise_cons.mp (hL.pairwise hd Extent.Disjoint.symm)).1
  have hout : ∀ i, FreePte rest i → ¬c.Contains i := fun i ⟨d,hdm,hdi⟩ =>
    (hrest d hdm).symm.not_contains hdi
  have hleft : ∀ i, FreePte L' i ↔ Contains ⟨c.first,a-c.first⟩ i ∨ FreePte rest i := by
    intro i
    obtain ⟨rfl,hL'⟩ | hL' := hL'
    · rw [FreePte.perm hL']
      simp [Contains]
    · rw [FreePte.perm hL',freePte_cons]
  refine ⟨fun i hi => (FreePte.perm hL).mpr (freePte_cons.mpr (.inl ?_)),fun i => ?_⟩
  · simp only [Contains] at hi ⊢
    omega
  · have hi := hout i
    rw [FreePte.perm hL,freePte_cons,hleft]
    simp only [Contains] at hi ⊢
    by_cases hf : FreePte rest i
    · have := hi hf
      simp only [hf,or_true,true_and,true_iff]
      omega
    · simp only [hf,or_false]
      omega

/-- Free PTEs that follow each other are in one cluster. -/
theorem Room.exists_cluster {a : Nat} (h : Room L a n) (hn : 1≤n)
    (ha : L.Pairwise Extent.Apart) : ∃ c∈L, n≤c.size := by
  obtain ⟨c,hc,hca⟩ := h a ⟨le_rfl,by simp; omega⟩
  have hall : ∀ k<n, c.Contains (a+k) := by
    intro k hk
    induction k with
    | zero => exact hca
    | succ k ih =>
      obtain ⟨d,hd,hdk⟩ := h (a+(k+1)) ⟨by simp,by simp; omega⟩
      by_cases hcd : c=d
      · exact hcd ▸ hdk
      · have hapart := ha.forall hc hd hcd
        simp only [Contains,Apart] at *
        omega
  have hlast := hall (n-1) (by omega)
  refine ⟨c,hc,?_⟩
  simp only [Contains] at hca hlast
  omega

/-- A reservation fails exactly without enough free PTEs in a row, and takes some otherwise. -/
theorem miReserveSystemPtes_exact (h : SpaceInv s space lo hi L R) (hhi : hi≤0xFFFFF)
    (hn : 1≤n) : ∃ s' r, s.miReserveSystemPtes space n=some (s', r) ∧
      (r=none ↔ ¬∃ a, Room L a n) ∧ (r=none → s'=s) ∧
      ∀ a, r=some a → Room L a n ∧ ∃ L', SpaceInv s' space lo hi L' (⟨a,n⟩::R) ∧
        ∀ i, FreePte L' i ↔ FreePte L i ∧ ¬Contains ⟨a,n⟩ i := by
  obtain ⟨hrun,hsmall⟩ | ⟨s',L',a,hrun,hi',-,htakes⟩ := h.reserve hhi hn
  · refine ⟨s,none,hrun,iff_of_true rfl fun ⟨a,ha⟩ => ?_,fun _ => rfl,fun a ha => by cases ha⟩
    obtain ⟨c,hc,hle⟩ := ha.exists_cluster hn h.apart
    exact absurd (hsmall c hc) (by omega)
  · obtain ⟨hroom,hfree⟩ := htakes.freePte (pairwise_append.mp h.disjoint).1
    refine ⟨s',some a,hrun,iff_of_false (by simp) fun hno => hno ⟨a,hroom⟩,fun hr => (by cases hr),
      fun b hb => ?_⟩
    cases hb
    exact ⟨hroom,L',hi',hfree⟩

end Reserve

section Release
variable {s : SystemPtes} {space : PtePoolType} {lo hi : Nat} {c r : Extent}
  {A B L R : List Extent} {insert : Option PtePtr}

def InsertAt (A : List Extent) (r : Extent) : Option PtePtr → Prop
  | none => ∀ c∈A, c.size<r.size
  | some q => ∃ A₁ A₂, A=A₁++A₂ ∧ q=cursor .head A₁ ∧ (∀ c∈A₁, c.size<r.size) ∧
      A₂≠[] ∧ ∀ c∈A₂.head?, r.size≤c.size

structure Releasing (s : SystemPtes) (space : PtePoolType) (lo hi : Nat) (A B R : List Extent)
    (r : Extent) : Prop where
  listed : Listed s space (A++B)
  within : ∀ c∈r::(A++B++R), c.Within lo hi
  sorted : (A++B).Pairwise fun c d => c.size≤d.size
  apart : (A++B).Pairwise Extent.Apart
  disjoint : (r::(A++B++R)).Pairwise Extent.Disjoint
  passed : ∀ c∈A, r.Apart c

/-- An adjacent cluster is taken out of the list. -/
theorem Releasing.join (h : Releasing s space lo hi A (c::B) R r) (hadj : Adjacent c r) :
    Releasing ((s.setNextEntry space (cursor .head A) (s.ptes c.first).nextEntry).zeroCluster
      c.first)
        space lo hi A B R (joined c r) ∧
      Local s ((s.setNextEntry space (cursor .head A) (s.ptes c.first).nextEntry).zeroCluster
        c.first)
        space lo hi ∧ InsertAt A (joined c r) none := by
  have hsub : (A++B).Sublist (A++c::B) :=
    (List.Sublist.refl A).append (sublist_cons_self c B)
  obtain ⟨hr,hrest⟩ := pairwise_cons.mp h.disjoint
  have hpair := (pairwise_append.mp hrest).1
  obtain ⟨hc,hrest'⟩ :=
    pairwise_cons.mp ((perm_first A B R c).pairwise hrest Extent.Disjoint.symm)
  have hold : ∀ x∈A++B++R, x∈A++c::B++R := fun x hx =>
    (perm_first A B R c).mem_iff.mpr (mem_cons_of_mem _ hx)
  have hw : ∀ x∈A++c::B, x.Within lo hi := fun x hx =>
    h.within x (mem_cons_of_mem _ (mem_append_left _ hx))
  have hcw := hw c (by simp)
  have hrw := h.within r (by simp)
  have hwAB : ∀ x∈A++B, x.Within lo hi := fun x hx => hw x (hsub.subset hx)
  have hl₁ := h.listed.unlink hw hpair
  have hs₁ := h.listed.sized_unlink hw hpair (s.ptes c.first).nextEntry
  have hdc := disjoint_middle hpair
  have hwA : ∀ x∈A, x.Within lo hi := fun x hx => hw x (mem_append_left _ hx)
  have hloc₁ := (Local.refl s space lo hi).setNextEntry (cursor_within hwA)
    (s.ptes c.first).nextEntry
  have hca := (pairwise_cons.mp (perm_middle.pairwise h.apart Extent.Apart.symm)).1
  refine ⟨⟨hl₁.zeroCluster hwAB hs₁ hcw.2.1 hdc,?_,h.sorted.sublist hsub,h.apart.sublist hsub,
    ?_,?_⟩,hloc₁.zeroCluster hcw hs₁,?_⟩
  · intro x hx
    obtain rfl | hx := mem_cons.mp hx
    · exact hadj.within hcw hrw
    · exact h.within x (mem_cons_of_mem _ (hold x hx))
  · refine pairwise_cons.mpr ⟨fun x hx => ?_,hrest'⟩
    have hxw := h.within x (mem_cons_of_mem _ (hold x hx))
    exact hadj.disjoint hrw.2.1 (hc x hx) (hr x (hold x hx)) hxw.2.1
  · intro x hx
    exact hadj.apart hrw.2.1 (hca x (by simp [hx])) (h.passed x hx) (hwAB x (by simp [hx])).2.1
  · intro x hx
    have hxc := (pairwise_append.mp h.sorted).2.2 x hx c (by simp)
    have := hrw.2.1
    show x.size<r.size+c.size
    omega

/-- Another cluster is passed. -/
theorem Releasing.pass (h : Releasing s space lo hi A (c::B) R r) (hadj : ¬Adjacent c r)
    (hins : InsertAt A r insert) :
    Releasing s space lo hi (A++[c]) B R r ∧
      InsertAt (A++[c]) r
        (if insert.isNone ∧ r.size≤c.size then some (cursor .head A) else insert) := by
  have happ : A++[c]++B=A++c::B := by simp
  have hrc : r.Disjoint c := (pairwise_cons.mp h.disjoint).1 c (by simp)
  refine ⟨⟨by rw [happ]; exact h.listed,by rw [happ]; exact h.within,by rw [happ]; exact h.sorted,
    by rw [happ]; exact h.apart,by rw [happ]; exact h.disjoint,?_⟩,?_⟩
  · intro x hx
    obtain hx | hx := mem_append.mp hx
    · exact h.passed x hx
    · obtain rfl := mem_singleton.mp hx
      simp only [Extent.Disjoint,Extent.Apart,Adjacent] at *
      omega
  · cases insert with
    | none =>
      by_cases hle : r.size≤c.size
      · rw [if_pos ⟨rfl,hle⟩]
        exact ⟨A,[c],rfl,rfl,hins,by simp,by simpa using hle⟩
      · rw [if_neg (fun hc => hle hc.2)]
        intro x hx
        obtain hx | hx := mem_append.mp hx
        · exact hins x hx
        · obtain rfl := mem_singleton.mp hx
          omega
    | some q =>
      obtain ⟨A₁,A₂,rfl,rfl,h1,h2,h3⟩ := hins
      refine ⟨A₁,A₂++[c],by simp,rfl,h1,by simp,?_⟩
      cases A₂ with
      | nil => exact absurd rfl h2
      | cons a A₂ => exact h3

/-- The walk ends with the whole list passed, all adjacent clusters added to the PTEs and a
place for them. -/
theorem Releasing.releaseLoop {fuel : Nat} (h : Releasing s space lo hi A B R r)
    (hhi : hi≤0xFFFFF) (hins : InsertAt A r insert) (hf : B.length<fuel) :
    ∃ s' A₁ A₂ r', releaseLoop space fuel s (cursor .head A) r.first r.size insert =
        some (s', cursor .head A₁, r'.first, r'.size) ∧
      Releasing s' space lo hi (A₁++A₂) [] R r' ∧ Local s s' space lo hi ∧
      (∀ c∈A₁, c.size<r'.size) ∧ (∀ c∈A₂.head?, r'.size≤c.size) ∧
      s'.totalFree=s.totalFree ∧
      ((A₁++A₂).map Extent.size).sum+r'.size=((A++B).map Extent.size).sum+r.size := by
  induction B generalizing s A r insert fuel with
  | nil =>
    obtain ⟨m,rfl⟩ := Nat.exists_eq_succ_of_ne_zero (by omega : fuel≠0)
    have hnil : (s.get space (cursor .head A)).nextEntry=mmEmptyList := h.listed.chain_cursor
    cases insert with
    | none =>
      refine ⟨s,A,[],r,?_,by rw [append_nil]; exact h,Local.refl s space lo hi,hins,by simp,rfl,rfl⟩
      simp [releaseLoop,hnil]
    | some q =>
      obtain ⟨A₁,A₂,rfl,rfl,h1,-,h3⟩ := hins
      refine ⟨s,A₁,A₂,r,?_,h,Local.refl s space lo hi,h1,h3,rfl,by rw [append_nil]⟩
      simp [releaseLoop,hnil]
  | cons c B ih =>
    obtain ⟨m,rfl⟩ := Nat.exists_eq_succ_of_ne_zero (by omega : fuel≠0)
    obtain ⟨href,hne,-⟩ := h.listed.chain_cursor
    have hcw : c.Within lo hi := h.within c (by simp)
    have hnat : (s.get space (cursor .head A)).nextEntry.toNat=c.first := by
      rw [href,ref_toNat hcw hhi]
    have hsize := (h.listed.sized c (by simp)).clusterSize hcw hhi
    have hne' : (s.get space (cursor .head A)).nextEntry≠mmEmptyList := by rwa [href]
    have hf' : B.length< m := Nat.lt_of_succ_lt_succ hf
    by_cases hadj : Adjacent c r
    · obtain ⟨h₁,hloc,hins₁⟩ := h.join hadj
      obtain ⟨s',A₁,A₂,r',hrun,hrel,hloc',h1,h2,htot,hsum⟩ := ih h₁ hins₁ hf'
      refine ⟨s',A₁,A₂,r',?_,hrel,hloc.trans hloc',h1,h2,?_,?_⟩
      · rw [releaseLoop]
        simp only [if_neg hne',hnat,hsize]
        exact (if_pos hadj).trans hrun
      · rw [htot,totalFree_zeroCluster,totalFree_setNextEntry]
      · rw [hsum,sum_size_insert]
        show _+(r.size+c.size)=_
        omega
    · obtain ⟨h₁,hins₁⟩ := h.pass hadj hins
      obtain ⟨s',A₁,A₂,r',hrun,hrel,hloc',h1,h2,htot,hsum⟩ := ih h₁ hins₁ hf'
      rw [cursor_concat] at hrun
      refine ⟨s',A₁,A₂,r',?_,hrel,hloc',h1,h2,htot,?_⟩
      · rw [releaseLoop]
        simp only [if_neg hne',hnat,hsize]
        exact (if_neg hadj).trans hrun
      · rw [hsum]
        simp

/-- The description of a new cluster. -/
theorem Listed.describe (h : Listed s space L) (hw : ∀ d∈L, d.Within lo hi)
    (hr : r.Within lo hi) (hd : ∀ d∈L, r.Disjoint d) :
    ∃ s', (if r.size≠1 then (s.setOneEntry r.first false).setNextEntry space (.pte (r.first+1))
        (BitVec.ofNat 20 r.size) else s.setOneEntry r.first true)=s' ∧
      Listed s' space L ∧ Sized s' r ∧ Local s s' space lo hi ∧ s'.totalFree=s.totalFree := by
  obtain ⟨h1,h2,h3⟩ := hr
  by_cases hone : r.size=1
  · rw [if_neg (not_not.mpr hone)]
    refine ⟨_,rfl,?_,?_,(Local.refl s space lo hi).setPte h1 (by omega) _,rfl⟩
    · refine h.congr hw (fun d hdm i hi1 hi2 => ?_) rfl
      rw [setOneEntry,ptes_setPte,if_neg]
      obtain hdr | hdr := hd d hdm
      · omega
      · omega
    · rw [Sized,if_pos hone,setOneEntry,ptes_setPte,if_pos rfl]
  · rw [if_pos hone]
    refine ⟨_,rfl,?_,?_,?_,rfl⟩
    · refine h.congr hw (fun d hdm i hi1 hi2 => ?_) rfl
      have hout : i≠r.first ∧ i≠r.first+1 := by
        obtain hdr | hdr := hd d hdm
        · omega
        · omega
      rw [ptes_setNextEntry_pte,if_neg hout.2,setOneEntry,ptes_setPte,if_neg hout.1]
    · rw [Sized,if_neg hone]
      simp [setOneEntry]
    · exact ((Local.refl s space lo hi).setPte h1 (by omega) _).setPte (by omega) (by omega) _

/-- The new cluster is linked at its place. -/
theorem Releasing.linkCluster (h : Releasing s space lo hi (A++B) [] R r) (hhi : hi≤0xFFFFF) :
    Listed (s.linkCluster space (cursor .head A) r.first r.size) space (A++r::B) ∧
      Local s (s.linkCluster space (cursor .head A) r.first r.size) space lo hi ∧
      (s.linkCluster space (cursor .head A) r.first r.size).totalFree=s.totalFree := by
  have hlist := h.listed
  have hwithin := h.within
  have hdisj := h.disjoint
  rw [append_nil] at hlist hwithin hdisj
  have hrw : r.Within lo hi := hwithin r (by simp)
  have hw : ∀ d∈A++B, d.Within lo hi := fun d hd =>
    hwithin d (mem_cons_of_mem _ (mem_append_left _ hd))
  obtain ⟨hrd,hrest⟩ := pairwise_cons.mp hdisj
  have hd : ∀ d∈A++B, r.Disjoint d := fun d hdm => hrd d (mem_append_left _ hdm)
  obtain ⟨s₁,hs₁,hl₁,hsized,hloc,htot⟩ := hlist.describe hw hrw hd
  have hw' : ∀ d∈A++r::B, d.Within lo hi := by
    intro d hdm
    obtain rfl | hdm := mem_cons.mp (perm_middle.mem_iff.mp hdm)
    · exact hrw
    · exact hw d hdm
  have hd' : (A++r::B).Pairwise Extent.Disjoint :=
    perm_middle.symm.pairwise
      (pairwise_cons.mpr ⟨hd,(pairwise_append.mp hrest).1⟩) Extent.Disjoint.symm
  have hwA : ∀ d∈A, d.Within lo hi := fun d hdm => hw d (by simp [hdm])
  have hrun : s.linkCluster space (cursor .head A) r.first r.size =
      (s₁.setNextEntry space (.pte r.first) (s₁.get space (cursor .head A)).nextEntry).setNextEntry
        space (cursor .head A) (clusterRef r) := by
    unfold SystemPtes.linkCluster
    rw [hs₁]
    rfl
  rw [hrun]
  obtain ⟨h1,h2,h3⟩ := hrw
  refine ⟨hl₁.insert hhi hw' hd' hsized,?_,?_⟩
  · exact (hloc.setPte h1 (by omega) _).setNextEntry (cursor_within hwA) _
  · rw [totalFree_setNextEntry,totalFree_setNextEntry,htot]

/-- Releasing a reservation. -/
theorem SpaceInv.release (h : SpaceInv s space lo hi L R) (hhi : hi≤0xFFFFF) (hr : r∈R) :
    ∃ s' L', s.miReleaseSystemPtes space r.first r.size=some s' ∧
      SpaceInv s' space lo hi L' (R.erase r) ∧ Local s s' space lo hi := by
  have hrw : r.Within lo hi := h.within r (by simp [hr])
  have hwL : ∀ d∈L, d.Within lo hi := fun d hd => h.within d (by simp [hd])
  have hperm : (L++R).Perm (r::(L++R.erase r)) :=
    ((perm_cons_erase hr).append_left L).trans perm_middle
  have hdisj := hperm.pairwise h.disjoint Extent.Disjoint.symm
  have hdL : ∀ d∈L, r.Disjoint d := fun d hd =>
    (pairwise_cons.mp hdisj).1 d (mem_append_left _ hd)
  have hchecks : r.size≠0 ∧ s.start space≤r.first ∧ r.first+r.size-1≤ s.last space := by
    obtain ⟨h1,h2,h3⟩ := hrw
    have := h.start
    have := h.last
    omega
  obtain ⟨ptes,hzero,-⟩ := zeroPtes_spec (s := s) r.size
  have hloc₁ := ((Local.refl s space lo hi).zeroPtes hrw).setTotal
    ((zeroPtes r.first r.size s).totalFree space+r.size)
  have hl₁ := h.listed.zeroPtes hwL hdL
  have htot₁ : (zeroPtes r.first r.size s).totalFree=s.totalFree := by rw [hzero]
  generalize hs₁ : zeroPtes r.first r.size s=s₁ at hzero hloc₁ hl₁ htot₁
  have hrel : Releasing (s₁.setTotal space (s₁.totalFree space+r.size)) space lo hi [] L (R.erase r)
      r :=
    ⟨⟨hl₁.chain,hl₁.sized⟩,fun c hc => h.within c (hperm.mem_iff.mpr hc),h.sorted,h.apart,hdisj,
      by simp⟩
  have hins : InsertAt [] r none := by simp [InsertAt]
  obtain ⟨s₂,A₁,A₂,r',hloop,hrel₂,hloc₂,hA₁,hA₂,htot₂,hsum⟩ :=
    hrel.releaseLoop hhi hins (h.length_lt hhi)
  obtain ⟨hl₃,hloc₃,htot₃⟩ := hrel₂.linkCluster hhi
  have hloc := (hloc₁.trans hloc₂).trans hloc₃
  have hwithin := hrel₂.within
  have hsorted := hrel₂.sorted
  have hapart := hrel₂.apart
  have hdisjoint := hrel₂.disjoint
  rw [append_nil] at hwithin hsorted hapart hdisjoint
  have hperm' := perm_first A₁ A₂ (R.erase r) r'
  refine ⟨_,A₁++r'::A₂,?_,h.step hloc hl₃ ?_ (sorted_insert hsorted hA₁ hA₂) ?_ ?_ ?_,hloc⟩
  · unfold miReleaseSystemPtes
    rw [if_pos hchecks,hs₁]
    rw [cursor] at hloop
    simp [hloop]
  · intro c hc
    exact hwithin c (hperm'.mem_iff.mp hc)
  · exact perm_middle.symm.pairwise (pairwise_cons.mpr ⟨hrel₂.passed,hapart⟩)
      Extent.Apart.symm
  · exact hperm'.symm.pairwise hdisjoint Extent.Disjoint.symm
  · have htotal := h.total
    rw [htot₃,htot₂,totalFree_setTotal,htot₁,sum_size_insert]
    simp only [nil_append] at hsum
    omega

end Release

section Initialize
variable {s : SystemPtes} {space : PtePoolType} {first n : Nat}

/-- A new space is one cluster. It needs two PTEs, since the size is written to the second. -/
theorem miInitializeSystemPtes_spec (s : SystemPtes) (space : PtePoolType) (hn : 2≤n)
    (hhi : first+n≤0xFFFFF) :
    ∃ s', s.miInitializeSystemPtes space first n=some s' ∧
      SpaceInv s' space first (first+n) [⟨first,n⟩] [] ∧ Outside s s' space first (first+n) := by
  obtain ⟨ptes,hzero,hp,hz⟩ := zeroPtes_spec (s := { s with
    start := update s.start space first
    last := update s.last space (first+n-1) }) n
  unfold miInitializeSystemPtes
  rw [if_pos (by omega)]
  dsimp only at hzero hp hz ⊢
  rw [hzero]
  have hfirst : (ptes first).oneEntry=false := by rw [hz first le_rfl (by omega)]; rfl
  have hcw : Extent.Within first (first+n) ⟨first,n⟩ := ⟨le_rfl,by show 1≤n; omega,le_rfl⟩
  refine ⟨_,rfl,⟨⟨⟨?_,ref_ne_empty hcw hhi,?_⟩,?_⟩,by simpa using hcw,by simp,by simp,by simp,
    by simp,?_,?_⟩,⟨?_,?_,?_,?_,?_⟩⟩
  · simp [setTotal,setPte,SystemPtes.set,clusterRef]
  · show _=mmEmptyList
    simp [setTotal,setPte,SystemPtes.set,setNextEntry]
  · intro c hc
    obtain rfl := mem_singleton.mp hc
    rw [Sized,if_neg (by show ¬n=1; omega)]
    simp [setTotal,setPte,SystemPtes.set,setNextEntry,SystemPtes.get,hfirst]
  · simp [setTotal,setPte,SystemPtes.set,setNextEntry]
  · simp [setTotal,setPte,SystemPtes.set,setNextEntry]
    omega
  · intro j hj
    have h1 : j≠first := by omega
    have h2 : j≠first+1 := by omega
    simp [setTotal,setPte,SystemPtes.set,setNextEntry,update_of_ne h1,update_of_ne h2,hp j hj]
  · intro other ho
    exact update_of_ne ho _ _
  · intro other ho
    exact update_of_ne ho _ _
  · intro other ho
    exact update_of_ne ho _ _
  · intro other ho
    exact update_of_ne ho _ _

end Initialize

/-- The PTEs with the reservations that have not been released. -/
structure Reserved where
  ptes : SystemPtes
  live : PtePoolType → List Extent

/-- What the callers do. The owner of a reservation writes its PTEs. -/
inductive PteCall where
  | reserve (space : PtePoolType) (numberOfPtes : Nat)
  | release (space : PtePoolType) (c : Extent)
  | write (i : Nat) (p : Pte)

namespace Reserved

def call (s : Reserved) : PteCall → Option Reserved
  | .reserve space n => do
    let (ptes, a) ← s.ptes.miReserveSystemPtes space n
    match a with
    | none => some ⟨ptes,s.live⟩
    | some a => some ⟨ptes,update s.live space (⟨a,n⟩::s.live space)⟩
  | .release space c => do
    let ptes ← s.ptes.miReleaseSystemPtes space c.first c.size
    some ⟨ptes,update s.live space ((s.live space).erase c)⟩
  | .write i p => some ⟨s.ptes.setPte i p,s.live⟩

/-- A reservation is of one PTE at least, what is released has been reserved, and only reserved
PTEs are written. -/
def legal (s : Reserved) : PteCall → Bool
  | .reserve _ n => 1≤n
  | .release space c => c∈s.live space
  | .write i _ => (s.live .systemPteSpace++s.live .nonPagedPoolExpansion).any fun c =>
      c.first ≤ i ∧ i<c.first+c.size

def run (s : Reserved) : List PteCall → Option Reserved
  | [] => some s
  | c::calls => (s.call c).bind fun s' => s'.run calls

def legalRun (s : Reserved) : List PteCall → Bool
  | [] => true
  | c::calls => s.legal c && (s.call c).all fun s' => s'.legalRun calls

end Reserved

structure Spaces (lo hi : PtePoolType → Nat) : Prop where
  hi_le : ∀ space, hi space≤0xFFFFF
  disjoint : ∀ space other, other≠space → hi space≤lo other ∨ hi other≤lo space

def Reserved.Inv (lo hi : PtePoolType → Nat) (s : Reserved) : Prop :=
  ∀ space, ∃ L, SpaceInv s.ptes space (lo space) (hi space) L (s.live space)

section Runs
variable {lo hi : PtePoolType → Nat} {s : Reserved} {space : PtePoolType} {L R : List Extent}

/-- A step on one space keeps the other. -/
theorem Reserved.Inv.of_step (h : s.Inv lo hi) (hs : Spaces lo hi) {ptes : SystemPtes}
    (hi' : SpaceInv ptes space (lo space) (hi space) L R)
    (hl : Local s.ptes ptes space (lo space) (hi space)) :
    Reserved.Inv lo hi ⟨ptes,update s.live space R⟩ := by
  intro other
  by_cases ho : other=space
  · subst ho
    refine ⟨L,?_⟩
    show SpaceInv ptes other _ _ L (update s.live other R other)
    rw [update_self]
    exact hi'
  · obtain ⟨L',h'⟩ := h other
    refine ⟨L',?_⟩
    show SpaceInv ptes other _ _ L' (update s.live space R other)
    rw [update_of_ne ho]
    exact h'.of_outside hl.outside ho (hs.disjoint space other ho)

/-- The PTEs of a reservation may have any contents. -/
theorem SpaceInv.write {t : SystemPtes} {lo hi i : Nat} {c : Extent}
    (h : SpaceInv t space lo hi L R) (hc : ∀ d∈L, d.Within lo hi → c.Disjoint d)
    (h1 : c.first ≤ i) (h2 : i<c.first+c.size) (p : Pte) :
    SpaceInv (t.setPte i p) space lo hi L R := by
  have hw : ∀ d∈L, d.Within lo hi := fun d hd => h.within d (by simp [hd])
  refine ⟨h.listed.congr hw (fun d hd j h3 h4 => ?_) rfl,h.within,h.sorted,h.apart,h.disjoint,
    h.total,h.start,h.last⟩
  rw [ptes_setPte,if_neg]
  obtain hdc | hdc := hc d hd (hw d hd)
  · omega
  · omega

theorem Reserved.Inv.call (h : s.Inv lo hi) (hs : Spaces lo hi) {c : PteCall} (hl : s.legal c) :
    ∃ s', s.call c=some s' ∧ s'.Inv lo hi := by
  cases c with
  | reserve space n =>
    obtain ⟨L,hi'⟩ := h space
    obtain ⟨hrun,-⟩ | ⟨ptes,L',a,hrun,hi'',hloc,-⟩ :=
      hi'.reserve (hs.hi_le space) (of_decide_eq_true hl)
    · exact ⟨s,by simp [Reserved.call,hrun],h⟩
    · exact ⟨_,by simp [Reserved.call,hrun],h.of_step hs hi'' hloc⟩
  | release space c =>
    obtain ⟨L,hi'⟩ := h space
    obtain ⟨ptes,L',hrun,hi'',hloc⟩ := hi'.release (hs.hi_le space) (of_decide_eq_true hl)
    exact ⟨_,by simp [Reserved.call,hrun],h.of_step hs hi'' hloc⟩
  | write i p =>
    refine ⟨_,rfl,fun space => ?_⟩
    obtain ⟨c,hc,hci⟩ := any_eq_true.mp hl
    obtain ⟨h1,h2⟩ := of_decide_eq_true hci
    obtain ⟨owner,hco⟩ : ∃ owner, c∈s.live owner := by
      obtain hc | hc := mem_append.mp hc
      · exact ⟨_,hc⟩
      · exact ⟨_,hc⟩
    obtain ⟨L,hL⟩ := h space
    obtain ⟨L',hL'⟩ := h owner
    refine ⟨L,hL.write (fun d hd hdw => ?_) h1 h2 p⟩
    by_cases ho : owner=space
    · subst ho
      exact ((pairwise_append.mp hL.disjoint).2.2 d hd c hco).symm
    · obtain ⟨h3,h4,h5⟩ := hL'.within c (by simp [hco])
      obtain ⟨h6,h7,h8⟩ := hdw
      obtain hdis | hdis := hs.disjoint space owner ho
      · exact .inr (by omega)
      · exact .inl (by omega)

theorem Reserved.Inv.run (h : s.Inv lo hi) (hs : Spaces lo hi) {calls : List PteCall}
    (hl : s.legalRun calls) : ∃ s', s.run calls=some s' ∧ s'.Inv lo hi := by
  induction calls generalizing s with
  | nil => exact ⟨s,rfl,h⟩
  | cons c calls ih =>
    obtain ⟨hl1,hl2⟩ := Bool.and_eq_true_iff.mp hl
    obtain ⟨s₁,hcall,h₁⟩ := h.call hs hl1
    rw [hcall] at hl2
    obtain ⟨s',hrun,h'⟩ := ih h₁ (by simpa using hl2)
    exact ⟨s',by rw [Reserved.run,hcall]; exact hrun,h'⟩

def initializeSpaces (s : SystemPtes) (lo size : PtePoolType → Nat) : Option SystemPtes := do
  let s ← s.miInitializeSystemPtes .nonPagedPoolExpansion (lo .nonPagedPoolExpansion)
    (size .nonPagedPoolExpansion)
  s.miInitializeSystemPtes .systemPteSpace (lo .systemPteSpace) (size .systemPteSpace)

theorem initializeSpaces_inv (s : SystemPtes) {size : PtePoolType → Nat}
    (hsize : ∀ space, 2≤ size space) (hs : Spaces lo fun space => lo space+size space) :
    ∃ s', initializeSpaces s lo size=some s' ∧
      Reserved.Inv lo (fun space => lo space+size space) ⟨s',fun _ => []⟩ := by
  obtain ⟨s₁,hrun₁,h₁,-⟩ := miInitializeSystemPtes_spec s .nonPagedPoolExpansion
    (hsize .nonPagedPoolExpansion) (hs.hi_le .nonPagedPoolExpansion)
  obtain ⟨s₂,hrun₂,h₂,hout⟩ := miInitializeSystemPtes_spec s₁ .systemPteSpace
    (hsize .systemPteSpace) (hs.hi_le .systemPteSpace)
  refine ⟨s₂,by rw [initializeSpaces,hrun₁]; exact hrun₂,fun space => ?_⟩
  cases space with
  | systemPteSpace => exact ⟨_,h₂⟩
  | nonPagedPoolExpansion =>
    exact ⟨_,h₁.of_outside hout (by decide) (hs.disjoint .systemPteSpace _ (by decide))⟩

/-- Spaces of two PTEs at least keep the invariant of their free lists in every run of
reservations and releases. -/
theorem system_pte_clusters (s : SystemPtes) {size : PtePoolType → Nat}
    (hsize : ∀ space, 2≤ size space) (hs : Spaces lo fun space => lo space+size space) :
    ∃ s₀, initializeSpaces s lo size=some s₀ ∧
      ∀ calls, Reserved.legalRun ⟨s₀,fun _ => []⟩ calls →
        ∃ t, Reserved.run ⟨s₀,fun _ => []⟩ calls=some t ∧
          ∀ space, ∃ L, SpaceInv t.ptes space (lo space) (lo space+size space) L
            (t.live space) := by
  obtain ⟨s₀,hinit,h⟩ := initializeSpaces_inv s hsize hs
  exact ⟨s₀,hinit,fun calls hl => h.run hs hl⟩

def clearPtes : SystemPtes := ⟨fun _ => .zero,fun _ => .zero,fun _ => 0,fun _ => 0,fun _ => 0⟩

def someStart : PtePoolType → Nat
  | .systemPteSpace => 0x100
  | .nonPagedPoolExpansion => 0x200

def somePteCalls : List PteCall :=
  [.reserve .systemPteSpace 3,.reserve .systemPteSpace 4,.reserve .nonPagedPoolExpansion 8,
    .release .systemPteSpace ⟨0x105,3⟩,.reserve .systemPteSpace 2,.write 0x201 .zero,
    .release .systemPteSpace ⟨0x101,4⟩]

theorem system_pte_clusters_calls :
    ∃ s₀ t, initializeSpaces clearPtes someStart (fun _ => 8)=some s₀ ∧
      Reserved.run ⟨s₀,fun _ => []⟩ somePteCalls=some t ∧
      ∀ space, ∃ L, SpaceInv t.ptes space (someStart space) (someStart space+8) L
        (t.live space) := by
  have hs : Spaces someStart fun space => someStart space+8 := by
    constructor
    · intro space
      cases space with
      | systemPteSpace => decide
      | nonPagedPoolExpansion => decide
    · intro space other ho
      cases space with
      | systemPteSpace =>
        cases other with
        | systemPteSpace => exact absurd rfl ho
        | nonPagedPoolExpansion => decide
      | nonPagedPoolExpansion =>
        cases other with
        | systemPteSpace => decide
        | nonPagedPoolExpansion => exact absurd rfl ho
  obtain ⟨s₀,hinit,hall⟩ := system_pte_clusters clearPtes (fun _ => by decide) hs
  have hl : (initializeSpaces clearPtes someStart fun _ => 8).all fun s₀ =>
      Reserved.legalRun ⟨s₀,fun _ => []⟩ somePteCalls := by decide +kernel
  rw [hinit] at hl
  obtain ⟨t,hrun,ht⟩ := hall somePteCalls (by simpa using hl)
  exact ⟨s₀,t,hinit,hrun,ht⟩

/-- A space of one PTE is accepted, but its cluster is not marked with `OneEntry`: the size is
written behind the space. -/
theorem miInitializeSystemPtes_one :
    ∃ s, clearPtes.miInitializeSystemPtes .systemPteSpace 0x100 1=some s ∧
      ¬∃ lo hi L, SpaceInv s .systemPteSpace lo hi L [] := by
  refine ⟨_,rfl,?_⟩
  rintro ⟨lo,hi,L,h⟩
  have hlo : 0x100=lo := h.start
  have hhi : 0x100+1=hi := h.last
  have htotal : 1=(L.map Extent.size).sum := h.total
  cases L with
  | nil => simp at htotal
  | cons c L =>
    obtain ⟨h1,h2,h3⟩ := h.within c (by simp)
    have hfirst : c.first=0x100 := by omega
    have hsize : c.size=1 := by omega
    have hsized := h.listed.sized c (by simp)
    rw [Sized,if_pos hsize,hfirst] at hsized
    exact absurd hsized (by decide)

end Runs

theorem miReserveSystemPtes_three :
    ∃ s, clearPtes.miInitializeSystemPtes .systemPteSpace 0x100 8=some s ∧
      ∃ s' r, s.miReserveSystemPtes .systemPteSpace 3=some (s', r) ∧
        (r=none ↔ ¬∃ a, Room [⟨0x100,8⟩] a 3) := by
  obtain ⟨s,hinit,hi,-⟩ := miInitializeSystemPtes_spec clearPtes .systemPteSpace (n := 8)
    (by decide) (show 0x100+8≤0xFFFFF by decide)
  obtain ⟨s',r,hrun,hr,-⟩ := miReserveSystemPtes_exact hi (by decide) (n := 3) (by decide)
  exact ⟨s,hinit,s',r,hrun,hr⟩

end Odyssey.Mm
