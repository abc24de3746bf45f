import Odyssey.Cm.HiveImage
import Odyssey.Lib.Chain

/-! The free lists of a hive. The lists are threaded through the data of the free cells, so
every change of a list is a change of the image; what the routines below do to the lists is
said for any set `F i c` of cells `c` in the lists `i`. -/
namespace Odyssey.Cm
open ByteMem LinkedList Function List Hive

def nextOf (m : Mem) (c : Nat) : Nat := (read32 m (c+4)).toNat

structure Heads (g : Shape) (bins : StorageType → List Nat) (s : StorageType) (P : Nat → Prop) :
    Prop where
  inBin : ∀ c, P c → ∃ b, InBin g bins s b c 8
  apart : ∀ c d, P c → P d → c≠d → c+8≤d ∨ d+8≤c

structure Classes (P : Nat → Prop) (F : Nat → Nat → Prop) : Prop where
  sub : ∀ i c, F i c → P c
  one : ∀ i j c, F i c → F j c → i=j

def FreeLists (m : Mem) (display : Nat → Nat) (s : StorageType) (F : Nat → Nat → Prop) : Prop :=
  ∀ i<24, ∃ L : List Nat, Chain hcellNil (indexOf s) (nextOf m) (display i) L ∧ L.Nodup ∧
    ∀ c, c∈L ↔ F i c

def Hive.freeLists (h : Hive) (s : StorageType) (F : Nat → Nat → Prop) : Prop :=
  FreeLists (h.image s) (h.storage s).freeDisplay s F

def Links (F : Nat → Nat → Prop) (o : Nat) : Prop := ∃ i c, F i c ∧ c+4≤o ∧ o<c+8

theorem hvpComputeFreeListIndex_lt (size : Nat) : hvpComputeFreeListIndex size<24 := by
  have htable : ∀ i<256, findFirstSet.getD i 0+7<24 := by decide +kernel
  unfold hvpComputeFreeListIndex
  by_cases h16 : (size/8+2^32-1)%2^32 ≥ 16
  · rw [if_pos h16]
    by_cases h255 : (size/8+2^32-1)%2^32 > 255
    · rw [if_pos h255]
      decide
    · rw [if_neg h255]
      exact htable _ (by omega)
  · rw [if_neg h16]
    omega

section Lists

variable {h : Hive} {bins : StorageType → List Nat} {s : StorageType} {F : Nat → Nat → Prop}
  {P : Nat → Prop} {display : Nat → Nat} {c : Nat} {p : Nat → Bool} {L : List Nat}

theorem FreeLists.congr {m m' : Mem} (hl : FreeLists m display s F)
    (hm : ∀ i c, F i c → nextOf m' c=nextOf m c) : FreeLists m' display s F := by
  intro i hi
  obtain ⟨L,hc,hn,hmem⟩ := hl i hi
  exact ⟨L,hc.congr fun c hcL => hm i c ((hmem c).mp hcL),hn,hmem⟩

theorem FreeLists.iff {m : Mem} {F' : Nat → Nat → Prop}
    (hl : FreeLists m display s F) (hF : ∀ i c, F i c ↔ F' i c) : FreeLists m display s F' := by
  intro i hi
  obtain ⟨L,hc,hn,hmem⟩ := hl i hi
  exact ⟨L,hc,hn,fun c => (hmem c).trans (hF i c)⟩

def Hive.relink (h : Hive) (s : StorageType) (i v : Nat) : Option Nat → Hive
  | none => h.setFreeDisplay s i v
  | some a => h.poke s (a+4) (BitVec.ofNat 32 v)

def slotOf (g : Shape) (s : StorageType) (i : Nat) : Option Nat → Slot
  | none => .freeDisplay i
  | some a => .cellData (g.address s (a+4))

theorem Heads.link (hP : Heads h.shape bins s P) (hc : P c) :
    ∃ b, InBin h.shape bins s b (c+4) 4 := by
  obtain ⟨b,hb⟩ := hP.inBin c hc
  exact ⟨b,hb.mem,Nat.le_add_right_of_le hb.le,hb.fits⟩

theorem Heads.header (hP : Heads h.shape bins s P) (hc : P c) :
    ∃ b, InBin h.shape bins s b c 4 := by
  obtain ⟨b,hb⟩ := hP.inBin c hc
  exact ⟨b,hb.mem,hb.le,by have := hb.fits; omega⟩

/-- The walk along a free list stops at the first cell that passes the test. -/
theorem unlinkFirst_spec (hm : Mapped h.shape bins) (hP : Heads h.shape bins s P)
    {test : Nat → Ptr → HiveM Bool} {i : Nat} (hL : ∀ c∈L, P c)
    (ht : ∀ c∈L, test (indexOf s c) (h.shape.address s c) = .ok (p c)) {prev : Option Nat}
    (hprev : ∀ a, prev=some a → P a) {head : Nat}
    (hslot : h.readSlot s (slotOf h.shape s i prev) = .ok head)
    (hc : Chain hcellNil (indexOf s) (nextOf (h.image s)) head L) {f : Nat} (hf : L.length<f) :
    (∀ c∈L, p c=false) ∧
        h.unlinkFirst s test f (slotOf h.shape s i prev) = .ok none ∨
      ∃ A x B, L=A++x::B ∧ (∀ c∈A, p c=false) ∧ p x=true ∧
        h.unlinkFirst s test f (slotOf h.shape s i prev) =
          .ok (some (indexOf s x,
            h.relink s i (nextOf (h.image s) x) (A.foldl (fun _ c => some c) prev))) := by
  induction L generalizing prev head f with
  | nil =>
    obtain ⟨f,rfl⟩ : ∃ k, f=k+1 := ⟨f-1,by simp at hf; omega⟩
    have hnil : head=hcellNil := hc
    refine .inl ⟨by simp,?_⟩
    simp [unlinkFirst,hslot,hnil]
  | cons x L ih =>
    obtain ⟨f,rfl⟩ : ∃ k, f=k+1 := ⟨f-1,by simp at hf; omega⟩
    obtain ⟨rfl,hne,htail⟩ := hc
    have hx := hL x (by simp)
    obtain ⟨b,hb⟩ := hP.inBin x hx
    have hhead := hm.hvpGetCellHeader hb (by decide)
    have hdata := hm.address_add hb (k := 4) (by decide)
    obtain ⟨b',hlink⟩ := hP.link hx
    have hload := hm.load hlink
    have hstep : h.unlinkFirst s test (f+1) (slotOf h.shape s i prev) =
        if p x then
          h.writeSlot s (nextOf (h.image s) x) (slotOf h.shape s i prev) >>= fun h' =>
            .ok (some (indexOf s x, h'))
        else h.unlinkFirst s test f (slotOf h.shape s i (some x)) := by
      rw [show slotOf h.shape s i (some x) = .cellData (h.shape.address s (x+4)) from rfl]
      cases hpx : p x <;>
        simp [unlinkFirst,hslot,hne,hhead,ht x (by simp),hpx,hdata,hload,nextOf]
    by_cases hpx : p x=true
    · refine Or.inr ⟨[],x,L,rfl,by simp,hpx,?_⟩
      rw [hstep,if_pos hpx]
      cases prev with
      | none => rfl
      | some a =>
        obtain ⟨c,hc⟩ := hP.link (hprev a rfl)
        simp [writeSlot,slotOf,hm.store hc,relink]
    · rw [hstep,if_neg hpx]
      have hslot' : h.readSlot s (slotOf h.shape s i (some x)) = .ok (nextOf (h.image s) x) := by
        simp [readSlot,slotOf,hload,nextOf]
      obtain ⟨hall,hr⟩ | ⟨A,y,B,rfl,hA,hy,hr⟩ :=
        ih (fun c hc => hL c (by simp [hc])) (fun c hc => ht c (by simp [hc]))
          (by rintro a ⟨⟩; exact hx) hslot' htail (f := f) (by simpa using hf)
      · exact .inl ⟨by simpa [hpx] using hall,hr⟩
      · exact .inr ⟨x::A,y,B,rfl,by simpa [hpx] using hA,hy,by simpa using hr⟩

def without (F : Nat → Nat → Prop) (i x : Nat) : Nat → Nat → Prop :=
  fun j c => F j c ∧ ¬(j=i ∧ c=x)

section

variable (hm : Mapped h.shape bins)
include hm

section
variable (hP : Heads h.shape bins s P)
include hP

theorem nextOf_poke {a c : Nat} (ha : P a) (hc : P c) (w : BitVec 32) :
    nextOf ((h.poke s (a+4) w).image s) c=if c=a then w.toNat else nextOf (h.image s) c := by
  obtain ⟨b,hb⟩ := hP.link ha
  unfold nextOf
  rw [hm.image_poke hb]
  by_cases hca : c=a
  · subst hca
    rw [if_pos rfl,read32_write32]
  · have := hP.apart c a hc ha hca
    rw [if_neg hca,read32_write32_of_disjoint _ _ (by omega)]

/-- Taking a cell out of its list writes the link of its predecessor, which stays free. -/
theorem relink_spec (hF : Classes P F) (hl : h.freeLists s F) {i x : Nat} {A B : List Nat}
    (hc : Chain hcellNil (indexOf s) (nextOf (h.image s)) ((h.storage s).freeDisplay i) (A++x ::
      B)) (hn : (A++x::B).Nodup) (hmem : ∀ c, c∈A++x::B ↔ F i c) :
    (h.relink s i (nextOf (h.image s) x) (A.foldl (fun _ c => some c) none)).freeLists s
        (without F i x) ∧
      Effect h (h.relink s i (nextOf (h.image s) x) (A.foldl (fun _ c => some c) none)) s
        (Links (without F i x)) (fun _ => False) := by
  have hxB : ∀ c, c∈A++B ↔ F i c ∧ c≠x := by
    intro c
    have hmid : (x::(A++B)).Nodup := (perm_middle.nodup_iff).mp hn
    have hx := (nodup_cons.mp hmid).1
    rw [← hmem,mem_append,mem_append,mem_cons]
    constructor
    · intro hcm
      refine ⟨by tauto,fun hcx => hx ?_⟩
      rw [← hcx,mem_append]
      exact hcm
    · tauto
  have hnd : (A++B).Nodup := (nodup_cons.mp ((perm_middle.nodup_iff).mp hn)).2
  have hother : ∀ j, j≠i → ∀ c, without F i x j c ↔ F j c := by
    intro j hj c
    simp [without,hj]
  have hsame : ∀ c, without F i x i c ↔ F i c ∧ c≠x := by
    simp [without]
  obtain rfl | ⟨A,a,rfl⟩ := A.eq_nil_or_concat'
  · refine ⟨fun j hj => ?_,(Effect.setFreeDisplay h s i _).mono (by simp) (by simp)⟩
    simp only [foldl_nil,relink,image_setFreeDisplay,freeDisplay_setFreeDisplay_same]
    by_cases hji : j=i
    · subst hji
      rw [update_self]
      exact ⟨B,hc.2.2,hnd,fun c => (hxB c).trans (hsame c).symm⟩
    · obtain ⟨L,hL,hLn,hLm⟩ := hl j hj
      rw [update_of_ne hji]
      exact ⟨L,hL,hLn,fun c => (hLm c).trans (hother j hji c).symm⟩
  · have haF : F i a := (hmem a).mp (by simp)
    have hax : a≠x := fun hax => by
      subst hax
      simp [nodup_append] at hn
    have ha := hF.sub i a haF
    obtain ⟨b,hb⟩ := hP.link ha
    have hlink : ∀ j c, F j c → c≠a →
        nextOf ((h.poke s (a+4) (BitVec.ofNat 32 (nextOf (h.image s) x))).image s) c =
          nextOf (h.image s) c := by
      intro j c hcF hca
      rw [nextOf_poke hm hP ha (hF.sub j c hcF),if_neg hca]
    have hself : nextOf ((h.poke s (a+4) (BitVec.ofNat 32 (nextOf (h.image s) x))).image s) a =
        nextOf (h.image s) x := by
      rw [nextOf_poke hm hP ha ha]
      simp [nextOf]
    simp only [foldl_append,foldl_cons,foldl_nil,relink]
    refine ⟨fun j hj => ?_,(Effect.poke hm hb _).mono ?_ (by simp)⟩
    · obtain ⟨L,hL,hLn,hLm⟩ := hl j hj
      by_cases hji : j=i
      · subst hji
        refine ⟨(A++[a])++B,?_,hnd,fun c => (hxB c).trans (hsame c).symm⟩
        rw [append_assoc]
        rw [append_assoc] at hc hnd
        refine Chain.unlink hc hself fun y hy => hlink j y ((hmem y).mp ?_) ?_
        · simp only [mem_append,mem_cons] at hy ⊢
          tauto
        · rintro rfl
          simp only [singleton_append,perm_middle.nodup_iff,nodup_cons] at hnd
          exact hnd.1 hy
      · -- the lists of other indexes do not hold the predecessor
        have haL : ∀ c∈L, c≠a := fun c hcL hca =>
          hji (hF.one j i a ((hLm a).mp (hca ▸ hcL)) haF)
        exact ⟨L,hL.congr fun c hcL => hlink j c ((hLm c).mp hcL) (haL c hcL),hLn,
          fun c => (hLm c).trans (hother j hji c).symm⟩
    · intro o ho
      exact ⟨i,a,⟨haF,by simp [hax]⟩,ho.1,by omega⟩

/-- A list without repetitions is shorter than the bound on the turns of a walk. -/
theorem length_lt_fuel (hn : L.Nodup) (hL : ∀ c∈L, P c) : L.length<h.fuel s := by
  have hsub : L ⊆ List.range (h.shape.extent s) := by
    intro c hc
    obtain ⟨b,hb⟩ := hP.inBin c (hL c hc)
    have := hb.lt_extent hm
    exact mem_range.mpr (by omega)
  have hle := (hn.subperm hsub).length_le
  rw [length_range] at hle
  exact Nat.lt_succ_of_le hle

/-- The walk along list `i` of the display, in terms of the cells of `F`. -/
theorem unlinkFirst_display (hF : Classes P F) (hl : h.freeLists s F) {i : Nat} (hi : i<24)
    {t : Nat → Ptr → HiveM Bool}
    (ht : ∀ c, P c → t (indexOf s c) (h.shape.address s c) = .ok (p c)) :
    (∀ c, F i c → p c=false) ∧
        h.unlinkFirst s t (h.fuel s) (.freeDisplay i) = .ok none ∨
      ∃ x h', F i x ∧ p x=true ∧
        h.unlinkFirst s t (h.fuel s) (.freeDisplay i) = .ok (some (indexOf s x, h')) ∧
        h'.freeLists s (without F i x) ∧ Effect h h' s (Links (without F i x))
          (fun _ => False) := by
  obtain ⟨L,hc,hn,hmem⟩ := hl i hi
  have hL : ∀ c∈L, P c := fun c hcL => hF.sub i c ((hmem c).mp hcL)
  obtain ⟨hall,hr⟩ | ⟨A,x,B,rfl,-,hx,hr⟩ :=
    unlinkFirst_spec hm hP hL (fun c hcL => ht c (hL c hcL)) (by simp)
      (show h.readSlot s (slotOf h.shape s i none)=_ from rfl) hc (length_lt_fuel hm hP hn hL)
  · exact .inl ⟨fun c hcF => hall c ((hmem c).mpr hcF),hr⟩
  · obtain ⟨hlists,heff⟩ := relink_spec hm hP hF hl hc hn hmem
    exact .inr ⟨x,_,(hmem x).mp (by simp),hx,hr,hlists,heff⟩

theorem hvpRemoveFree_spec (hF : Classes P F) (hl : h.freeLists s F) {x : Nat}
    (hx : F (hvpComputeFreeListIndex (read32 (h.image s) x).toNat) x) :
    ∃ h', h.hvpRemoveFree (h.shape.address s x) (indexOf s x) = .ok h' ∧
      h'.freeLists s (without F (hvpComputeFreeListIndex (read32 (h.image s) x).toNat) x) ∧
      Effect h h' s (Links (without F (hvpComputeFreeListIndex (read32 (h.image s) x).toNat) x))
        (fun _ => False) := by
  obtain ⟨b,hb⟩ := hP.header (hF.sub _ x hx)
  have hlt := hb.lt_extent hm
  have hbound := hm.bound s
  obtain ⟨hall,-⟩ | ⟨y,h',-,hy,hr,hlists,heff⟩ :=
    unlinkFirst_display hm hP hF hl (hvpComputeFreeListIndex_lt (read32 (h.image s) x).toNat)
      (t := fun cell _ => .ok (cell=indexOf s x)) (p := fun c => c=x)
      (fun c _ => by simp [(indexOf_injective s).eq_iff])
  · simpa using hall x hx
  · obtain rfl : y=x := by simpa using hy
    refine ⟨h',?_,hlists,heff⟩
    simp [hvpRemoveFree,cellType_indexOf (show y<2^31 by omega),hm.load hb,hr]

theorem largeEnough_spec (hc : P c) (size : Nat) :
    h.largeEnough size (h.shape.address s c) =
      .ok (decide ((read32 (h.image s) c).toNat ≥ size)) := by
  obtain ⟨b,hb⟩ := hP.header hc
  simp [largeEnough,hm.load hb]

theorem findFreeFrom_spec
    (hF : Classes P F) (hl : h.freeLists s F) (size : Nat) {n : Nat} (hn : n≤24) :
    h.findFreeFrom size s n = .ok none ∧
        (∀ i c, 24 ≤ i+n → i<24 → F i c → (read32 (h.image s) c).toNat<size) ∨
      ∃ i x h', F i x ∧ size≤(read32 (h.image s) x).toNat ∧
        h.findFreeFrom size s n = .ok (some (indexOf s x, h')) ∧
        h'.freeLists s (without F i x) ∧ Effect h h' s (Links (without F i x))
          (fun _ => False) := by
  induction n with
  | zero => exact .inl ⟨rfl,fun i c h1 h2 => by omega⟩
  | succ n ih =>
    obtain ⟨hsmall,hr⟩ | ⟨x,h',hx,hsize,hr,hlists,heff⟩ :=
      unlinkFirst_display hm hP hF hl (show 24-(n+1)<24 by omega)
        (t := fun _ header => h.largeEnough size header) fun c hc => largeEnough_spec hm hP hc size
    · have hstep : h.findFreeFrom size s (n+1)=h.findFreeFrom size s n := by
        rw [findFreeFrom,hr]
        rfl
      rw [hstep]
      refine (ih (by omega)).imp_left fun ⟨hnone,hrest⟩ => ⟨hnone,fun i c h1 h2 hc => ?_⟩
      by_cases hi : i=24-(n+1)
      · subst hi
        simpa using hsmall c hc
      · exact hrest i c (by omega) h2 hc
    · refine .inr ⟨_,x,h',hx,by simpa using hsize,?_,hlists,heff⟩
      rw [findFreeFrom,hr]
      rfl

/-- `HvpFindFree` takes a cell that is large enough out of its list, or finds none in the lists
from that of the size on. -/
theorem hvpFindFree_spec (hF : Classes P F) (hl : h.freeLists s F) (size : Nat) :
    h.hvpFindFree size s = .ok none ∧
        (∀ i c, hvpComputeFreeListIndex size ≤ i → i<24 → F i c →
          (read32 (h.image s) c).toNat<size) ∨
      ∃ i x h', F i x ∧ size≤(read32 (h.image s) x).toNat ∧
        h.hvpFindFree size s = .ok (some (indexOf s x, h')) ∧
        h'.freeLists s (without F i x) ∧
        Effect h h' s (Links (without F i x)) (fun _ => False) := by
  refine (findFreeFrom_spec hm hP hF hl size (Nat.sub_le _ _)).imp_left fun ⟨hnone,hsmall⟩ => ?_
  exact ⟨hnone,fun i c hi => hsmall i c (by omega)⟩

/-- `HvpAddFree` puts a cell in front of the list of its size. -/
theorem hvpAddFree_spec
    (hF : Classes P F) (hl : h.freeLists s F) {x : Nat} (hx : P x) (hnew : ∀ j, ¬F j x) :
    ∃ h', h.hvpAddFree (h.shape.address s x) (indexOf s x) = .ok h' ∧
      h'.freeLists s (fun j c => F j c ∨
        j=hvpComputeFreeListIndex (read32 (h.image s) x).toNat ∧ c=x) ∧
      Effect h h' s (fun o => x+4≤o ∧ o<x+8) (fun _ => False) := by
  obtain ⟨b,hb⟩ := hP.header hx
  obtain ⟨b',hlink⟩ := hP.link hx
  have hlt := hlink.lt_extent hm
  have hbound := hm.bound s
  have hadd : (h.shape.address s x).add 4=h.shape.address s (x+4) := by
    obtain ⟨c,hc⟩ := hP.inBin x hx
    exact hm.address_add hc (by decide)
  generalize hi : hvpComputeFreeListIndex (read32 (h.image s) x).toNat=i
  have hi24 : i<24 := hi ▸ hvpComputeFreeListIndex_lt _
  obtain ⟨L,hc,hn,hmem⟩ := hl i hi24
  have hdisp : (h.storage s).freeDisplay i<2^32 := by
    cases L with
    | nil =>
      have hnil : (h.storage s).freeDisplay i=hcellNil := hc
      rw [hnil]
      decide
    | cons y L =>
      obtain ⟨c,hcy⟩ := hP.inBin y (hF.sub i y ((hmem y).mp (by simp)))
      have := hcy.lt_extent hm
      rw [hc.1]
      exact indexOf_lt (by omega)
  refine ⟨(h.poke s (x+4) (BitVec.ofNat 32 ((h.storage s).freeDisplay i))).setFreeDisplay s i
    (indexOf s x),?_,?_,?_⟩
  · simp [hvpAddFree,cellType_indexOf (show x<2^31 by omega),hm.load hb,hadd,hm.store hlink,hi]
  · intro j hj
    have hself : nextOf ((h.poke s (x+4) (BitVec.ofNat 32
        ((h.storage s).freeDisplay i))).image s) x=(h.storage s).freeDisplay i := by
      rw [nextOf_poke hm hP hx hx,if_pos rfl,BitVec.toNat_ofNat,Nat.mod_eq_of_lt hdisp]
    have hkeep : ∀ k c, F k c → nextOf ((h.poke s (x+4) (BitVec.ofNat 32
        ((h.storage s).freeDisplay i))).image s) c=nextOf (h.image s) c := by
      intro k c hcF
      rw [nextOf_poke hm hP hx (hF.sub k c hcF),
        if_neg (show ¬c=x from fun hcx => hnew k (hcx ▸ hcF))]
    simp only [image_setFreeDisplay,freeDisplay_setFreeDisplay_same]
    by_cases hji : j=i
    · subst hji
      rw [update_self]
      refine ⟨x::L,hc.push (indexOf_ne_nil (by omega)) hself fun y hy => hkeep j y ((hmem y).mp hy),
        nodup_cons.mpr ⟨fun hxL => hnew j ((hmem x).mp hxL),hn⟩,fun c => ?_⟩
      rw [mem_cons,hmem c]
      simp [or_comm]
    · obtain ⟨L',hc',hn',hmem'⟩ := hl j hj
      rw [update_of_ne hji]
      refine ⟨L',hc'.congr fun y hy => hkeep j y ((hmem' y).mp hy),hn',fun c => ?_⟩
      rw [hmem']
      simp [hji]
  · exact ((Effect.poke hm hlink _).trans (Effect.setFreeDisplay _ s i _)).mono
      (fun o ho => by simpa [Nat.add_assoc] using ho) (by simp)

end

end

end Lists

end Odyssey.Cm
