import Odyssey.Mm.NonPagedPoolLayout

/-! The free runs of the initial nonpaged pool, over all sequences of calls. -/
namespace Odyssey.Mm
open ListEntry Extent Function List

structure PoolInv (s : NonPagedPool) (live : List Extent)
    (free : Fin miMaxFreePageLists → List Extent) : Prop where
  filed : Filed s.links free
  layout : Layout s 0 s.pages (· ∈ live) (Runs free)

namespace NonPagedPool
variable {s : NonPagedPool} {live : List Extent} {free : Fin miMaxFreePageLists → List Extent}
  {n : Nat}

theorem findEntry_eq {i : Fin miMaxFreePageLists} {A B : List Extent} {q : PoolLink}
    {Q : List PoolLink} (h : IsList s.links (.head i) ((A++B).map fun r => .page r.first))
    (hq : B.map (fun r => PoolLink.page r.first)++[.head i]=q::Q) {fuel : Nat}
    (hfuel : B.length<fuel) :
    s.findEntry n fuel q=(B.find? fun r => n≤ s.size r.first).map first := by
  induction B generalizing A q Q fuel with
  | nil =>
    obtain ⟨rfl,-⟩ : PoolLink.head i=q ∧ []=Q := by simpa using hq
    obtain ⟨fuel,rfl⟩ := Nat.exists_eq_succ_of_ne_zero hfuel.ne'
    rfl
  | cons r B ih =>
    obtain ⟨rfl,-⟩ : PoolLink.page r.first=q ∧ _=Q := by simpa using hq
    obtain ⟨fuel,rfl⟩ := Nat.exists_eq_succ_of_ne_zero (Nat.ne_zero_of_lt hfuel)
    rw [findEntry,find?_cons]
    by_cases hn : n≤ s.size r.first
    · simp [hn]
    · obtain ⟨P,p,q',Q',hp,hq'⟩ := exists_neighbours (PoolLink.head i)
        (A.map fun r => .page r.first) (B.map fun r => .page r.first)
      have hlist := h
      rw [map_append] at hlist
      obtain ⟨-,hflink,-,-⟩ := hlist.neighbours hp hq'
      have hfuel' : B.length<fuel := by simpa using hfuel
      have hrest := ih (A := A++[r]) (by simpa using h) hq' hfuel'
      simp only [hn,if_false,decide_false,hflink]
      exact hrest

end NonPagedPool

section Pool
variable {s s' : NonPagedPool} {live : List Extent} {free : Fin miMaxFreePageLists → List Extent}
  {n : Nat} {r a : Extent}

section
variable (h : PoolInv s live free)
include h

theorem PoolInv.length_le (i : Fin miMaxFreePageLists) : (free i).length≤ s.pages := by
  have hnodup : (((free i).map first).map PoolLink.page).Nodup := by
    rw [map_map]
    exact (nodup_cons.mp (h.filed.list i).nodup).2
  exact Extent.length_le (List.Nodup.of_map _ hnodup) fun r hr => h.layout.within r ⟨i,hr⟩

theorem PoolInv.findEntry (i : Fin miMaxFreePageLists) :
    s.findEntry n (s.pages+1) (s.links.flink (.head i)) =
      ((free i).find? fun r => n≤r.size).map first := by
  obtain ⟨Q,hQ⟩ := (h.filed.list i).flink_head
  rw [NonPagedPool.findEntry_eq (A := []) (h.filed.list i) hQ (Nat.lt_succ_of_le (h.length_le i))]
  congr 1
  refine find?_congr fun r hr => ?_
  rw [h.layout.size r ⟨i,hr⟩]

/-- The search fails only if no free run has enough pages. -/
theorem PoolInv.findFree_none (hn : 1≤n) (hs : s.findFree n=none) (hr : Runs free r) :
    r.size<n := by
  obtain ⟨i,hr⟩ := hr
  have hindex := h.filed.index i r hr
  have hval := freeListIndex_val hn
  by_contra hle
  have hdrop : ∀ k j : Fin miMaxFreePageLists, k≤j →
      j∈(List.finRange miMaxFreePageLists).drop k := by decide
  have hmem := hdrop (freeListIndex n) i (Fin.le_def.mpr (by omega))
  have hnone := findSome?_eq_none_iff.mp hs i hmem
  rw [h.findEntry,Option.map_eq_none_iff,find?_eq_none] at hnone
  exact hnone r hr (by simpa using hle)

theorem PoolInv.findFree_some {p : Nat} (hs : s.findFree n=some p) :
    ∃ r, Runs free r ∧ r.first=p ∧ n≤r.size := by
  obtain ⟨i,-,hi⟩ := exists_of_findSome?_eq_some hs
  rw [h.findEntry,Option.map_eq_some_iff] at hi
  obtain ⟨r,hr,rfl⟩ := hi
  exact ⟨r,⟨i,mem_of_find?_eq_some hr⟩,rfl,by simpa using find?_some hr⟩

/-- What is left of a free run goes to the list of its size. -/
theorem PoolInv.refile (hr : Runs free r) (n : Nat) :
    ∃ free', Filed (if r.size-n≠0 then (s.links.removeEntryList (.page r.first)).insertTailList
        (.head (freeListIndex (r.size-n))) (.page r.first)
      else s.links.removeEntryList (.page r.first)) free' ∧
      ∀ x, Runs free' x ↔ (Runs free x ∧ x≠r) ∨
        (r.first<r.first+(r.size-n) ∧ x=⟨r.first,r.size-n⟩) := by
  obtain ⟨free₁,hfiled₁,hruns₁⟩ := h.filed.remove hr
  by_cases hz : r.size-n=0
  · rw [if_neg (not_not.mpr hz)]
    refine ⟨free₁,hfiled₁,fun x => ?_⟩
    simp [hruns₁,hz]
  · rw [if_pos hz]
    have hne : ∀ x, Runs free₁ x → x.first≠r.first := by
      intro x hx hxr
      obtain ⟨hx,hne⟩ := (hruns₁ x).mp hx
      exact hne (h.filed.eq_of_first hx hr hxr)
    obtain ⟨free₂,hfiled₂,hruns₂⟩ := hfiled₁.insert (r := ⟨r.first,r.size-n⟩)
      (Nat.pos_of_ne_zero hz) hne
    refine ⟨free₂,hfiled₂,fun x => ?_⟩
    have hlt : r.first<r.first+(r.size-n) := by omega
    rw [hruns₂,hruns₁]
    simp [hlt]

end

theorem takePages_fields (s : NonPagedPool) (poolType n p : Nat) :
    let t := s.takePages poolType n p
    t.1=p+(s.size p-n) ∧ t.2.links =
      (if s.size p-n≠0 then (s.links.removeEntryList (.page p)).insertTailList
        (.head (freeListIndex (s.size p-n))) (.page p)
      else s.links.removeEntryList (.page p)) ∧
    t.2.size=update s.size p (s.size p-n) ∧ t.2.owner=s.owner ∧ t.2.signature=s.signature ∧
    t.2.startOfAllocation=update s.startOfAllocation (p+(s.size p-n)) true ∧
    t.2.endOfAllocation=update s.endOfAllocation (p+(s.size p-n)+n-1) true ∧
    t.2.pages=s.pages := by
  by_cases hb : poolType.testBit 6 <;> by_cases hz : s.size p-n=0 <;>
    simp [NonPagedPool.takePages,NonPagedPool.setSize,NonPagedPool.removeEntry,
      NonPagedPool.insertTail,NonPagedPool.setStart,NonPagedPool.setEnd,NonPagedPool.setVerifier,
      hb,hz]

/-- How a call files the pages that are freed: in the run before them, or as a run of their own. -/
def MergesPrevious (s s' : NonPagedPool) (free free₁ : Fin miMaxFreePageLists → List Extent)
    (a : Extent) (k : Nat) : Prop :=
  ∃ e t links free', s'.mergePrevious a.first k=(e, t) ∧
    t.fileEntry a.first k e={ s' with links, size := update s.size e (a.first-e+k) } ∧
    Left (Runs free) a e ∧ Filed links free' ∧
    ∀ x, Runs free' x ↔ (Runs free₁ x ∧ x.first+x.size≠a.first) ∨ x=⟨e,a.first-e+k⟩

section
variable (h : PoolInv s live free)
include h

/-- The last pages of a free run are taken. -/
theorem PoolInv.takePages (hr : Runs free r) (hn : 1≤n) (hle : n≤r.size) (poolType : Nat) :
    (s.takePages poolType n r.first).1=r.first+(r.size-n) ∧
      ∃ free', PoolInv (s.takePages poolType n r.first).2 (⟨r.first+(r.size-n),n⟩::live)
        free' := by
  obtain ⟨hbase,hlinks,hsize,howner,hsig,hstart,hend,hpages⟩ :=
    takePages_fields s poolType n r.first
  rw [h.layout.size r hr] at hbase hlinks hsize hstart hend
  obtain ⟨free',hfiled,hruns⟩ := h.refile hr n
  have hcarve := h.layout.carve (a := ⟨r.first+(r.size-n),n⟩) hr hn (Nat.le_add_right _ _)
    (by simp only; omega) (by rw [hsize]; simp) howner hsig hstart hend
  refine ⟨hbase,free',by rw [hlinks]; exact hfiled,?_⟩
  rw [hpages]
  refine hcarve.congr (fun x => ?_) fun x => ?_
  · rw [mem_cons,or_comm]
  · rw [hruns]
    simp

theorem PoolInv.miAllocatePoolPages {bytes : Nat} (hpos : 0<bytes) (poolType : Nat) :
    (s.miAllocatePoolPages poolType bytes=(none, s) ∧
      ∀ r, Runs free r → r.size<bytesToPages bytes) ∨
    ∃ base s' free', s.miAllocatePoolPages poolType bytes=(some base, s') ∧
      PoolInv s' (⟨base,bytesToPages bytes⟩::live) free' := by
  have hn := bytesToPages_pos hpos
  cases hfind : s.findFree (bytesToPages bytes) with
  | none =>
    have hcall : s.miAllocatePoolPages poolType bytes=(none, s) := by
      simp only [NonPagedPool.miAllocatePoolPages,hfind]
    have hall : ∀ r, Runs free r → r.size<bytesToPages bytes := by
      intro r hr
      exact h.findFree_none hn hfind hr
    exact .inl ⟨hcall,hall⟩
  | some p =>
    obtain ⟨r,hr,rfl,hle⟩ := h.findFree_some hfind
    obtain ⟨hbase,free',hinv⟩ := h.takePages hr hn hle poolType
    have hcall : s.miAllocatePoolPages poolType bytes =
        (some (r.first+(r.size-bytesToPages bytes)),
          (s.takePages poolType (bytesToPages bytes) r.first).2) := by
      simp only [NonPagedPool.miAllocatePoolPages,hfind,hbase]
    exact .inr ⟨_,_,free',hcall,hinv⟩

/-- The run behind an allocation is taken from its list. -/
theorem PoolInv.mergeNext (ha : a∈live)
    (hs' : s'=(s.setStart a.first false).setEnd (a.first+a.size-1) false) :
    ∃ k links free', s'.mergeNext a.first a.size=(k, { s' with links }) ∧
      Right (Runs free) a (a.first+k) ∧ Filed links free' ∧
      ∀ x, Runs free' x ↔ Runs free x ∧ x.first≠a.first+a.size := by
  obtain ⟨ha1,ha2,ha3⟩ := h.layout.live_within a ha
  have hpages : s'.pages=s.pages := by rw [hs']; rfl
  have hlinks : s'.links=s.links := by rw [hs']; rfl
  have hsize : s'.size=s.size := by rw [hs']; rfl
  have hstart : s'.startOfAllocation (a.first+a.size) =
      s.startOfAllocation (a.first+a.size) := by
    rw [hs']
    exact update_of_ne (by omega) _ _
  by_cases hend : a.first+a.size=s.pages
  · -- the allocation ends the pool
    have hno : ∀ x, Runs free x → x.first≠a.first+a.size := by
      intro x hx hxa
      obtain ⟨h1,h2,h3⟩ := h.layout.within x hx
      omega
    refine ⟨a.size,s'.links,free,?_,.inl ⟨rfl,hno⟩,by rw [hlinks]; exact h.filed,fun x => ?_⟩
    · rw [NonPagedPool.mergeNext,if_neg (fun hc => hc.1 (by rw [hend,hpages]))]
    · exact ⟨fun hx => ⟨hx,hno x hx⟩,And.left⟩
  · have hne : a.first+a.size-1≠s'.pages-1 := by omega
    obtain ⟨hb,hno⟩ | ⟨hb,y,hy,hya⟩ := h.layout.next ha (lt_of_le_of_ne ha3 hend)
    · refine ⟨a.size,s'.links,free,?_,.inl ⟨rfl,hno⟩,by rw [hlinks]; exact h.filed,
        fun x => ?_⟩
      · rw [NonPagedPool.mergeNext,if_neg (fun hc => hc.2 (by rw [hstart,hb]))]
      · exact ⟨fun hx => ⟨hx,hno x hx⟩,And.left⟩
    · obtain ⟨free',hfiled,hruns⟩ := h.filed.remove hy
      refine ⟨a.size+y.size,s'.links.removeEntryList (.page y.first),free',?_,?_,?_,
        fun x => ?_⟩
      · have hysize : s'.size (a.first+a.size)=y.size := by
          rw [hsize,← hya,h.layout.size y hy]
        rw [NonPagedPool.mergeNext,if_pos ⟨hne,by rw [hstart,hb]; simp⟩,hysize,← hya]
        rfl
      · exact .inr ⟨y,hy,hya,by omega⟩
      · rw [hlinks]
        exact hfiled
      · rw [hruns]
        refine and_congr_right fun hx => not_congr ⟨fun hxy => by rw [hxy,hya],fun hxa => ?_⟩
        exact h.filed.eq_of_first hx hy (hxa.trans hya.symm)

theorem PoolInv.mergePrevious (ha : a∈live) {k : Nat}
    {free₁ : Fin miMaxFreePageLists → List Extent} (hk : a.size≤k)
    (hthree : ∀ x, Runs free x → x.first+x.size=a.first → x.size≠3)
    (hfiled₁ : Filed s'.links free₁)
    (hruns₁ : ∀ x, Runs free₁ x ↔ Runs free x ∧ x.first≠a.first+a.size)
    (hsize : s'.size=s.size) (howner : s'.owner=s.owner)
    (hend : a.first≠0 → s'.endOfAllocation (a.first-1)=s.endOfAllocation (a.first-1)) :
    MergesPrevious s s' free free₁ a k := by
  obtain ⟨ha1,ha2,ha3⟩ := h.layout.live_within a ha
  -- no run before the allocation
  have halone (hno : ∀ x, Runs free x → x.first+x.size≠a.first)
      (hmerge : s'.mergePrevious a.first k=(a.first, s')) :
      MergesPrevious s s' free free₁ a k := by
    have hfresh : ∀ x, Runs free₁ x → x.first≠a.first := by
      intro x hx hxa
      have hx' := ((hruns₁ x).mp hx).1
      exact (h.layout.disjoint x hx' a ha).first_ne (h.layout.within x hx').2.1 ha2 hxa
    obtain ⟨free',hfiled,hruns⟩ := hfiled₁.insert (r := ⟨a.first,k⟩) (ha2.trans hk) hfresh
    refine ⟨a.first,s',_,free',hmerge,?_,.inl ⟨rfl,hno⟩,hfiled,fun x => ?_⟩
    · rw [NonPagedPool.fileEntry,if_pos rfl,Nat.sub_self,Nat.zero_add,← hsize]
      rfl
    · rw [hruns,Nat.sub_self,Nat.zero_add]
      refine or_congr_left ⟨fun hx => ⟨hx,hno x ((hruns₁ x).mp hx).1⟩,And.left⟩
  by_cases hzero : a.first=0
  · refine halone (fun x hx => ?_) ?_
    · have := (h.layout.within x hx).2.1
      omega
    · rw [NonPagedPool.mergePrevious,if_neg (fun hc => hc.1 hzero)]
  · have hend := hend hzero
    obtain ⟨hb,hno⟩ | ⟨hb,y,hy,hya,hown⟩ := h.layout.previous ha (Nat.pos_of_ne_zero hzero)
    · refine halone hno ?_
      rw [NonPagedPool.mergePrevious,if_neg (fun hc => hc.2 (by rw [hend,hb]))]
    · obtain ⟨hy1,hy2,hy3⟩ := h.layout.within y hy
      have hy₁ : Runs free₁ y := (hruns₁ y).mpr ⟨hy,by omega⟩
      have hcond : a.first≠0 ∧ ¬s'.endOfAllocation (a.first-1)=true :=
        ⟨hzero,by rw [hend,hb]; simp⟩
      have hysize : s'.size y.first=y.size := by rw [hsize,h.layout.size y hy]
      have hown' : s'.owner (a.first-1)=y.first := by rw [howner,hown]
      have hsum : a.first-y.first+k=y.size+k := by omega
      have hne : y.first≠a.first := by omega
      have hiff : ∀ x, Runs free₁ x → (x≠y ↔ x.first+x.size≠a.first) := by
        intro x hx
        refine not_congr ⟨fun hxy => by rw [hxy,hya],fun hxa => ?_⟩
        exact h.layout.eq_of_last ((hruns₁ x).mp hx).1 hy (hxa.trans hya.symm)
      have hbranch : s'.mergePrevious a.first k=if y.size<3 then
          (y.first, ((s'.removeEntry y.first).setSize y.first (y.size+k)).insertTail
            (freeListIndex (y.size+k)) y.first)
          else (y.first, s'.setSize y.first (y.size+k)) := by
        simp only [NonPagedPool.mergePrevious,if_pos hcond,hown',hysize]
        rfl
      by_cases hsmall : y.size<3
      · obtain ⟨free₂,hfiled₂,hruns₂⟩ := hfiled₁.remove hy₁
        have hfresh : ∀ x, Runs free₂ x → x.first≠y.first := by
          intro x hx hxy
          obtain ⟨hx,hne⟩ := (hruns₂ x).mp hx
          exact hne (hfiled₁.eq_of_first hx hy₁ hxy)
        obtain ⟨free',hfiled,hruns⟩ := hfiled₂.insert (r := ⟨y.first,y.size+k⟩)
          (by simp only; omega) hfresh
        refine ⟨y.first,_,_,free',hbranch.trans (if_pos hsmall),?_,.inr ⟨y,hy,rfl,hya⟩,
          hfiled,fun x => ?_⟩
        · rw [NonPagedPool.fileEntry,if_neg hne,hsum,← hsize]
          rfl
        · rw [hruns,hruns₂,hsum]
          exact or_congr_left (and_congr_right fun hx => hiff x hx)
      · have hfour : miMaxFreePageLists≤y.size := by
          have := hthree y hy hya
          simp only [miMaxFreePageLists]
          omega
        obtain ⟨free',hfiled,hruns⟩ := hfiled₁.grow hy₁ hfour k
        refine ⟨y.first,_,_,free',hbranch.trans (if_neg hsmall),?_,.inr ⟨y,hy,rfl,hya⟩,
          hfiled,fun x => ?_⟩
        · rw [NonPagedPool.fileEntry,if_neg hne,hsum,← hsize]
          rfl
        · rw [hruns,hsum]
          exact or_congr_left (and_congr_right fun hx => hiff x hx)

end

theorem linkPages_eq (s : NonPagedPool) (first owner n : Nat) :
    s.linkPages first owner n={ s with
      owner := fun p => if first≤p ∧ p<first+n then owner else s.owner p
      signature := fun p =>
        if first≤p ∧ p<first+n then mmFreePoolSignature else s.signature p } := by
  induction n generalizing s first with
  | zero =>
    have hno : ∀ p, ¬(first≤p ∧ p<first+0) := fun p hp => by omega
    simp only [NonPagedPool.linkPages,hno,if_false]
  | succ n ih =>
    have hpage : ∀ p x y : Nat, (if first+1≤p ∧ p<first+1+n then x else
        (if p=first then x else y))=if first≤p ∧ p<first+(n+1) then x else y := by
      intro p x y
      by_cases hp : p=first
      · subst hp
        simp
      · rw [if_neg hp]
        exact if_congr (by omega) rfl rfl
    rw [NonPagedPool.linkPages,ih]
    simp only [NonPagedPool.setOwner,update_apply,hpage]

/-- An allocation is freed that has no free run of three pages before it. -/
theorem PoolInv.miFreePoolPages (h : PoolInv s live free) (ha : a∈live)
    (hthree : ∀ x, Runs free x → x.first+x.size=a.first → x.size≠3) :
    ∃ s' free', s.miFreePoolPages a.first=(a.size, s') ∧
      PoolInv s' (live.filter (· ≠ a)) free' := by
  obtain ⟨ha1,ha2,ha3⟩ := h.layout.live_within a ha
  have hend : s.findEnd s.pages a.first=a.first+a.size-1 :=
    h.layout.findEnd (k := a.size-1) ha (by omega) le_rfl (by omega)
  have hnumber : a.first+a.size-1-a.first+1=a.size := by omega
  obtain ⟨s₁,hs₁⟩ : ∃ s₁, s₁=(s.setStart a.first false).setEnd (a.first+a.size-1) false :=
    ⟨_,rfl⟩
  obtain ⟨k,links₁,free₁,hnext,hright,hfiled₁,hruns₁⟩ := h.mergeNext ha hs₁
  have hk : a.size≤k := by
    obtain ⟨hk,-⟩ | ⟨x,hx,hxa,hxk⟩ := hright
    · omega
    · omega
  have hbit : a.first≠0 →
      s₁.endOfAllocation (a.first-1)=s.endOfAllocation (a.first-1) := by
    intro hzero
    rw [hs₁]
    exact update_of_ne (by omega) _ _
  obtain ⟨s₂,hs₂⟩ : ∃ s₂, s₂={ s₁ with links := links₁ } := ⟨_,rfl⟩
  rw [← hs₂] at hnext
  have hfiled₁' : Filed s₂.links free₁ := by rw [hs₂]; exact hfiled₁
  obtain ⟨e,t,links₂,free₂,hprev,hfile,hleft,hfiled₂,hruns₂⟩ :=
    h.mergePrevious ha hk hthree hfiled₁' hruns₁ (by rw [hs₂,hs₁]; rfl) (by rw [hs₂,hs₁]; rfl)
      (by rw [hs₂]; exact hbit)
  have he : e≤a.first := (h.layout.left ha hleft).2.1
  obtain ⟨s₃,hs₃⟩ : ∃ s₃, s₃=NonPagedPool.linkPages { s₂ with
      links := links₂, size := update s.size e (a.first-e+k) } a.first e k := ⟨_,rfl⟩
  have hcall : s.miFreePoolPages a.first=(a.size, s₃) := by
    simp only [NonPagedPool.miFreePoolPages,hend,hnumber,← hs₁,hnext,hprev,hfile,hs₃]
  rw [linkPages_eq,hs₂,hs₁] at hs₃
  have hsum : e+(a.first-e+k)=a.first+k := by omega
  have hright' : Right (Runs free) a (e+(a.first-e+k)) := by rw [hsum]; exact hright
  have hmerge : Layout s₃ 0 s.pages _ _ := h.layout.merge (w := ⟨e,a.first-e+k⟩) ha hleft
    hright' (by rw [hs₃]) (fun p => by rw [hs₃,hsum]; rfl) (fun p => by rw [hs₃,hsum]; rfl)
    (by rw [hs₃]; rfl) (by rw [hs₃]; rfl)
  have hpages : s₃.pages=s.pages := by rw [hs₃]; rfl
  refine ⟨s₃,free₂,hcall,by rw [hs₃]; exact hfiled₂,?_⟩
  rw [hpages]
  refine hmerge.congr (fun x => by simp) fun x => ?_
  rw [hruns₂,hruns₁,and_assoc]
  exact or_congr_left (and_congr_right fun hx =>
    (h.layout.disjoint_iff ha hleft hright' hx).symm)

end Pool

theorem miInitializeNonPagedPool_fields (s : NonPagedPool) (bytes : Nat) :
    let t := s.miInitializeNonPagedPool bytes
    t.links=s.initializeListHeads.links.insertHeadList (.head lastFreeList) (.page 0) ∧
    t.size=update s.size 0 (bytesToPages bytes) ∧
    (∀ p, t.owner p=if 1≤p ∧ p<1+(bytesToPages bytes-1) then 0 else update s.owner 0 0 p) ∧
    (∀ p, t.signature p=if 1≤p ∧ p<1+(bytesToPages bytes-1) then mmFreePoolSignature
      else update s.signature 0 mmFreePoolSignature p) ∧
    t.startOfAllocation=s.startOfAllocation ∧ t.endOfAllocation=s.endOfAllocation ∧
    t.pages=bytesToPages bytes := by
  rw [NonPagedPool.miInitializeNonPagedPool,linkPages_eq]
  exact ⟨rfl,rfl,fun p => rfl,fun p => rfl,rfl,rfl,rfl⟩

/-- A pool of four pages at least is one free run in the last list. -/
theorem miInitializeNonPagedPool_spec (s : NonPagedPool) {bytes : Nat}
    (hclear : ∀ p, s.startOfAllocation p=false ∧ s.endOfAllocation p=false)
    (hbytes : miMaxFreePageLists≤bytesToPages bytes) :
    ∃ free, PoolInv (s.miInitializeNonPagedPool bytes) [] free := by
  have hfour : miMaxFreePageLists=4 := rfl
  have hempty : ∀ i, IsList s.initializeListHeads.links (.head i) [] := by
    intro i
    have hfold := isList_foldl_initializeListHead (m := s.links)
      ((List.finRange miMaxFreePageLists).map PoolLink.head)
      (.inl (mem_map_of_mem (mem_finRange i)))
    exact hfold
  have hfiled : Filed s.initializeListHeads.links fun _ => [] :=
    ⟨hempty,by simp,by simp⟩
  have hindex : freeListIndex (bytesToPages bytes)=lastFreeList := by
    have hval := freeListIndex_val (n := bytesToPages bytes) (by omega)
    have hlast : lastFreeList.val=miMaxFreePageLists-1 := rfl
    exact Fin.ext (by omega)
  obtain ⟨free,hfiled',hruns⟩ := hfiled.insert (r := ⟨0,bytesToPages bytes⟩)
    (by simp only; omega) (by simp [Runs])
  obtain ⟨hlinks,hsize,howner,hsig,hstart,hend,hpages⟩ :=
    miInitializeNonPagedPool_fields s bytes
  refine ⟨free,?_,?_⟩
  · rw [hindex] at hfiled'
    rw [hlinks]
    exact hfiled'
  · have hrun : Layout (s.miInitializeNonPagedPool bytes) 0 (0+bytesToPages bytes)
        (fun _ => False) (· = ⟨0,bytesToPages bytes⟩) := by
      refine layout_run (r := ⟨0,bytesToPages bytes⟩) (by simp only; omega) ?_ (fun p hp => ?_)
        fun p _ => ?_
      · rw [hsize,update_self]
      · have hp2 : p<0+bytesToPages bytes := hp.2
        rw [howner,hsig]
        by_cases hp0 : p=0
        · simp [hp0]
        · have hin : 1≤p ∧ p<1+(bytesToPages bytes-1) := by omega
          simp [hin]
      · rw [hstart,hend]
        exact hclear p
    rw [hpages,← Nat.zero_add (bytesToPages bytes)]
    exact hrun.congr (by simp) fun x => by rw [hruns]; simp [Runs]

structure AllocatedPool where
  pool : NonPagedPool
  live : List Extent

/-- What the callers do. The owner of an allocation writes its pages. -/
inductive PoolCall where
  | allocate (poolType sizeInBytes : Nat)
  | free (a : Extent)
  | write (p : Nat) (flink blink : PoolLink) (size owner signature : Nat)

namespace NonPagedPool

def writePage (s : NonPagedPool) (p : Nat) (flink blink : PoolLink) (size owner signature : Nat) :
    NonPagedPool :=
  { s with
    links := (s.links.setFlink (.page p) flink).setBlink (.page p) blink
    size := update s.size p size
    owner := update s.owner p owner
    signature := update s.signature p signature }

end NonPagedPool

namespace AllocatedPool

def call (s : AllocatedPool) : PoolCall → AllocatedPool
  | .allocate poolType sizeInBytes =>
    match s.pool.miAllocatePoolPages poolType sizeInBytes with
    | (none, pool) => ⟨pool,s.live⟩
    | (some base, pool) => ⟨pool,⟨base,bytesToPages sizeInBytes⟩::s.live⟩
  | .free a => ⟨(s.pool.miFreePoolPages a.first).2,s.live.filter (· ≠ a)⟩
  | .write p flink blink size owner signature =>
    ⟨s.pool.writePage p flink blink size owner signature,s.live⟩

def threePagesBefore (s : AllocatedPool) (p : Nat) : Bool :=
  p≠0 && !s.pool.endOfAllocation (p-1) && s.pool.size (s.pool.owner (p-1)) == 3

/-- An allocation has a size, what is freed has been allocated and has no free run of three pages
before it, and only allocated pages are written. -/
def legal (s : AllocatedPool) : PoolCall → Bool
  | .allocate _ sizeInBytes => 0<sizeInBytes
  | .free a => a∈s.live ∧ ¬s.threePagesBefore a.first
  | .write p .. => s.live.any fun a => a.first≤p ∧ p<a.first+a.size

def run (s : AllocatedPool) (calls : List PoolCall) : AllocatedPool := calls.foldl call s

def legalRun (s : AllocatedPool) : List PoolCall → Bool
  | [] => true
  | c::calls => s.legal c && (s.call c).legalRun calls

end AllocatedPool

section Calls
variable {s : AllocatedPool} {free : Fin miMaxFreePageLists → List Extent}

/-- The contents of allocated pages do not matter. -/
theorem PoolInv.writePage {s : NonPagedPool} {live : List Extent} (h : PoolInv s live free)
    {a : Extent} (ha : a∈live) {p : Nat} (hp : a.Contains p) (flink blink : PoolLink)
    (size owner signature : Nat) :
    PoolInv (s.writePage p flink blink size owner signature) live free := by
  have hno : ∀ x, Runs free x → ∀ q, x.Contains q → q≠p := by
    rintro x hx q hq rfl
    exact (h.layout.disjoint x hx a ha).not_contains hq hp
  have hfirst : ∀ x, Runs free x → x.first≠p := fun x hx =>
    hno x hx _ (contains_first (h.layout.within x hx).2.1)
  have hlink : ∀ i, ∀ x∈PoolLink.head i::(free i).map (fun r => PoolLink.page r.first),
      x ≠ .page p := by
    rintro i x hx rfl
    obtain ⟨r,hr,hrp⟩ : ∃ r∈free i, r.first=p := by simpa using hx
    exact hfirst r ⟨i,hr⟩ hrp
  refine ⟨⟨fun i => (h.filed.list i).congr (fun x hx => ?_) fun x hx => ?_,h.filed.index,
    h.filed.first_ne⟩,?_⟩
  · exact update_of_ne (hlink i x hx) _ _
  · exact update_of_ne (hlink i x hx) _ _
  · have hl := h.layout
    refine { hl with size := fun x hx => ?_, owner := fun x hx q hq => ?_,
                     signature := fun x hx q hq => ?_ }
    · exact (update_of_ne (hfirst x hx) _ _).trans (hl.size x hx)
    · exact (update_of_ne (hno x hx q hq) _ _).trans (hl.owner x hx q hq)
    · exact (update_of_ne (hno x hx q hq) _ _).trans (hl.signature x hx q hq)

theorem PoolInv.call (h : PoolInv s.pool s.live free) {c : PoolCall} (hl : s.legal c) :
    ∃ free', PoolInv (s.call c).pool (s.call c).live free' := by
  cases c with
  | allocate poolType bytes =>
    obtain ⟨hcall,-⟩ | ⟨base,pool,free',hcall,hinv⟩ :=
      h.miAllocatePoolPages (of_decide_eq_true hl) poolType
    · exact ⟨free,by simpa only [AllocatedPool.call,hcall] using h⟩
    · exact ⟨free',by simpa only [AllocatedPool.call,hcall] using hinv⟩
  | free a =>
    obtain ⟨ha,hthree⟩ := of_decide_eq_true hl
    have hthree' : ∀ x, Runs free x → x.first+x.size=a.first → x.size≠3 := by
      intro x hx hxa hx3
      have hpos : 0<a.first := by omega
      obtain ⟨-,hno⟩ | ⟨hb,y,hy,hya,hown⟩ := h.layout.previous ha hpos
      · exact hno x hx hxa
      · obtain rfl : x=y := h.layout.eq_of_last hx hy (hxa.trans hya.symm)
        refine hthree ?_
        simp [AllocatedPool.threePagesBefore,hpos.ne',hb,hown,h.layout.size x hx,hx3]
    obtain ⟨pool,free',hcall,hinv⟩ := h.miFreePoolPages ha hthree'
    exact ⟨free',by simpa only [AllocatedPool.call,hcall] using hinv⟩
  | write p flink blink size owner signature =>
    obtain ⟨a,ha,hp⟩ := any_eq_true.mp hl
    obtain ⟨h1,h2⟩ := of_decide_eq_true hp
    exact ⟨free,h.writePage ha ⟨h1,h2⟩ flink blink size owner signature⟩

theorem PoolInv.run (h : PoolInv s.pool s.live free) {calls : List PoolCall}
    (hl : s.legalRun calls) : ∃ free', PoolInv (s.run calls).pool (s.run calls).live free' := by
  induction calls generalizing s free with
  | nil => exact ⟨free,h⟩
  | cons c calls ih =>
    obtain ⟨hl1,hl2⟩ := Bool.and_eq_true_iff.mp hl
    obtain ⟨free',h'⟩ := h.call hl1
    exact ih h' hl2

/-- If no allocation is freed behind a free run of exactly three pages, the free runs are
recorded and filed by their sizes in every state reached, and an allocation fails only if no run
has enough pages. -/
theorem nonpaged_pool_runs (s : NonPagedPool) {bytes : Nat}
    (hclear : ∀ p, s.startOfAllocation p=false ∧ s.endOfAllocation p=false)
    (hbytes : miMaxFreePageLists≤bytesToPages bytes) {calls : List PoolCall}
    (hl : AllocatedPool.legalRun ⟨s.miInitializeNonPagedPool bytes,[]⟩ calls) :
    ∃ t, AllocatedPool.run ⟨s.miInitializeNonPagedPool bytes,[]⟩ calls=t ∧
      ∃ free, Filed t.pool.links free ∧
        Layout t.pool 0 t.pool.pages (· ∈ t.live) (Runs free) ∧
        ∀ poolType sizeInBytes, 0<sizeInBytes →
          (t.pool.miAllocatePoolPages poolType sizeInBytes).1=none →
          ∀ r, Runs free r → r.size<bytesToPages sizeInBytes := by
  obtain ⟨free₀,h₀⟩ := miInitializeNonPagedPool_spec s hclear hbytes
  generalize s.miInitializeNonPagedPool bytes=s₀ at h₀ hl ⊢
  obtain ⟨free,h⟩ := PoolInv.run h₀ hl
  refine ⟨_,rfl,free,h.filed,h.layout,fun poolType sizeInBytes hpos hnone => ?_⟩
  obtain ⟨-,hall⟩ | ⟨base,pool,free',hcall,-⟩ := h.miAllocatePoolPages hpos poolType
  · exact hall
  · rw [hcall] at hnone
    exact absurd hnone (by simp)

def clearPool : NonPagedPool :=
  ⟨⟨fun x => x,fun x => x⟩,fun _ => 0,fun _ => 0,fun _ => 0,fun _ => false,fun _ => false,
    fun _ => false,0⟩

def somePoolCalls : List PoolCall :=
  [.allocate 0 0x3C000,.allocate 0 0x1000,.allocate 0 0x1800,.free ⟨3,1⟩,
    .write 2 (.page 7) (.head lastFreeList) 9 9 9,.free ⟨1,2⟩,.free ⟨4,60⟩,.allocate 64 0x2000]

theorem nonpaged_pool_runs_calls :
    ∃ t, AllocatedPool.run ⟨clearPool.miInitializeNonPagedPool 0x40000,[]⟩ somePoolCalls=t ∧
      ∃ free, Filed t.pool.links free ∧
        Layout t.pool 0 t.pool.pages (· ∈ t.live) (Runs free) ∧
        ∀ poolType sizeInBytes, 0<sizeInBytes →
          (t.pool.miAllocatePoolPages poolType sizeInBytes).1=none →
          ∀ r, Runs free r → r.size<bytesToPages sizeInBytes :=
  nonpaged_pool_runs clearPool (fun _ => ⟨rfl,rfl⟩) (by decide) (by decide +kernel)

/-- A page is freed behind a free run of three pages: the run has four pages then, but is still
in the list of three, where an allocation of four pages does not look. -/
theorem miFreePoolPages_three :
    ∃ t, AllocatedPool.run ⟨clearPool.miInitializeNonPagedPool 0x40000,[]⟩
        [.allocate 0 0x3C000,.allocate 0 0x1000,.free ⟨3,1⟩]=t ∧
      t.live=[⟨4,60⟩] ∧ t.pool.size 0=4 ∧
      t.pool.links.flink (.head (freeListIndex 3)) = .page 0 ∧
      (t.pool.miAllocatePoolPages 0 0x4000).1=none ∧ ¬∃ free, PoolInv t.pool t.live free := by
  obtain ⟨t,ht⟩ : ∃ t, AllocatedPool.run ⟨clearPool.miInitializeNonPagedPool 0x40000,[]⟩
      [.allocate 0 0x3C000,.allocate 0 0x1000,.free ⟨3,1⟩]=t := ⟨_,rfl⟩
  have hlive : t.live=[⟨4,60⟩] := by rw [← ht]; decide +kernel
  have hsize : t.pool.size 0=4 := by rw [← ht]; decide +kernel
  have hlink : t.pool.links.flink (.head (freeListIndex 3)) = .page 0 := by
    rw [← ht]; decide +kernel
  have hpages : 0<t.pool.pages := by rw [← ht]; decide +kernel
  have hnone : (t.pool.miAllocatePoolPages 0 0x4000).1=none := by rw [← ht]; decide +kernel
  refine ⟨t,ht,hlive,hsize,hlink,hnone,?_⟩
  rintro ⟨free,h⟩
  obtain ⟨-,hall⟩ | ⟨base,pool,free',hcall,-⟩ := h.miAllocatePoolPages (show 0<0x4000 by decide) 0
  · obtain ⟨x,hx | hx,hx0⟩ := h.layout.cover 0 le_rfl hpages
    · have hfirst : x.first=0 := Nat.le_zero.mp hx0.1
      have hxsize := h.layout.size x hx
      rw [hfirst,hsize] at hxsize
      have hlt := hall x hx
      rw [← hxsize] at hlt
      exact absurd hlt (by decide)
    · rw [hlive,mem_singleton] at hx
      subst hx
      exact absurd hx0.1 (by decide)
  · rw [hcall] at hnone
    exact absurd hnone (by simp)

end Calls

end Odyssey.Mm
