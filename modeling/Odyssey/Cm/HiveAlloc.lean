import Odyssey.Cm.HiveBin

/-! `HvAllocateCell`: a free cell is taken from a list or from a new bin, cut to size and
cleared. -/
namespace Odyssey.Cm
open ByteMem Tiling List

section Lists

variable {h : Hive} {l : Layout} {s : StorageType} {X : Nat → Prop} {x : Nat}

theorem Listed.free (hx : Listed h l s X x) :
    FreeCell h l s (hvpComputeFreeListIndex (read32 (h.image s) x).toNat) x ∧ ¬X x :=
  ⟨⟨hx.1,hx.2.1,rfl⟩,hx.2.2⟩

/-- Taking cell `x` out of the list of its size puts it in hand. -/
theorem without_iff {i j c : Nat} (hi : hvpComputeFreeListIndex (read32 (h.image s) x).toNat=i) :
    without (fun i c => FreeCell h l s i c ∧ ¬(s=s ∧ X c)) i x j c ↔
      FreeCell h l s j c ∧ ¬(X c ∨ c=x) := by
  simp only [without,true_and,not_or,not_and]
  constructor
  · rintro ⟨⟨hf,hX⟩,hne⟩
    refine ⟨hf,hX,?_⟩
    rintro rfl
    exact hne (hf.2.2.symm.trans hi) rfl
  · rintro ⟨hf,hX,hne⟩
    exact ⟨⟨hf,hX⟩,fun _ => hne⟩

theorem LinkBytes.mono {S T : Nat → Prop} {o : Nat} (h : LinkBytes S o) (hST : ∀ c, S c → T c) :
    LinkBytes T o := by
  obtain ⟨d,hd,h1⟩ := h
  exact ⟨d,hST d hd,h1⟩

theorem linkBytes_without {i o : Nat} (hi : hvpComputeFreeListIndex (read32 (h.image s) x).toNat=i)
    (ho : Links (without (fun i c => FreeCell h l s i c ∧ ¬(s=s ∧ X c)) i x) o) :
    LinkBytes (Listed h l s fun c => X c ∨ c=x) o := by
  obtain ⟨j,d,hd,h1⟩ := ho
  obtain ⟨⟨hc,hp,-⟩,hX⟩ := (without_iff hi).mp hd
  exact ⟨d,⟨hc,hp,hX⟩,h1⟩

theorem InHand.remove (hv : InHand h l s X) (hx : Listed h l s X x) :
    ∃ h', h.hvpRemoveFree (h.shape.address s x) (indexOf s x) = .ok h' ∧
      InHand h' l s (fun c => X c ∨ c=x) ∧
      Effect h h' s (LinkBytes (Listed h l s fun c => X c ∨ c=x)) (fun _ => False) ∧
      ∀ c, l.isCell s c → read32 (h'.image s) c=read32 (h.image s) c := by
  obtain ⟨h',hr,hl,e⟩ := hvpRemoveFree_spec hv.mapped ((hv.tiled s).heads hv.mapped)
    (InHand.classes s X) (hv.lists s) (x := x) ⟨hx.free.1,fun hX => hx.2.2 hX.2⟩
  have e' := e.mono (fun o => linkBytes_without rfl) (fun _ => Iff.rfl)
  obtain ⟨hv',hcell⟩ := hv.relinked e' (e.dirtyOk hv.dirty (by simp))
    (fun o ho => ho.mono fun c hc => hc.1) (hl.iff fun j c => without_iff rfl)
  exact ⟨h',hr,hv',e',hcell⟩

theorem InHand.find (hv : InHand h l s X) (size : Nat) :
    h.hvpFindFree size s = .ok none ∧
        (∀ c, Listed h l s X c →
          hvpComputeFreeListIndex size≤hvpComputeFreeListIndex (read32 (h.image s) c).toNat →
          (read32 (h.image s) c).toNat<size) ∨
      ∃ x h', Listed h l s X x ∧ size≤(read32 (h.image s) x).toNat ∧
        h.hvpFindFree size s = .ok (some (indexOf s x, h')) ∧
        InHand h' l s (fun c => X c ∨ c=x) ∧
        Effect h h' s (LinkBytes (Listed h l s fun c => X c ∨ c=x)) (fun _ => False) ∧
        ∀ c, l.isCell s c → read32 (h'.image s) c=read32 (h.image s) c := by
  obtain ⟨hr,hsmall⟩ | ⟨i,x,h',hx,hsize,hr,hl,e⟩ := hvpFindFree_spec hv.mapped
    ((hv.tiled s).heads hv.mapped) (InHand.classes s X) (hv.lists s) size
  · refine .inl ⟨hr,fun c hc hi => hsmall _ c hi (hvpComputeFreeListIndex_lt _) ?_⟩
    exact ⟨hc.free.1,fun hX => hc.2.2 hX.2⟩
  · have hi := hx.1.2.2
    have e' := e.mono (fun o => linkBytes_without hi) (fun _ => Iff.rfl)
    obtain ⟨hv',hcell⟩ := hv.relinked e' (e.dirtyOk hv.dirty (by simp))
      (fun o ho => ho.mono fun c hc => hc.1) (hl.iff fun j c => without_iff hi)
    exact .inr ⟨x,h',⟨hx.1.1,hx.1.2.1,fun hX => hx.2 ⟨rfl,hX⟩⟩,hsize,hr,hv',e',hcell⟩

/-- Putting a cell that is in hand into the list of its size. -/
theorem InHand.add (hv : InHand h l s X) (hc : l.isCell s x) (hp : 0<(read32 (h.image s) x).toInt)
    (hX : X x) :
    ∃ h', h.hvpAddFree (h.shape.address s x) (indexOf s x) = .ok h' ∧
      InHand h' l s (fun c => X c ∧ c≠x) ∧
      Effect h h' s (fun o => x+4≤o ∧ o<x+8) (fun _ => False) ∧
      ∀ c, l.isCell s c → read32 (h'.image s) c=read32 (h.image s) c := by
  obtain ⟨h',hr,hl,e⟩ := hvpAddFree_spec hv.mapped ((hv.tiled s).heads hv.mapped)
    (InHand.classes s X) (hv.lists s) hc fun j hj => hj.2 ⟨rfl,hX⟩
  obtain ⟨hv',hcell⟩ := hv.relinked (Y := fun c => X c ∧ c≠x) e (e.dirtyOk hv.dirty (by simp))
    (fun o ho => ⟨x,hc,ho⟩) (hl.iff fun j c => by
      simp only [true_and,not_and,not_not]
      constructor
      · rintro (⟨hf,hX'⟩ | ⟨hj,hcx⟩)
        · exact ⟨hf,fun hX'' => absurd hX'' hX'⟩
        · rw [hcx]
          exact ⟨⟨hc,hp,hj.symm⟩,fun _ => rfl⟩
      · rintro ⟨hf,hX'⟩
        by_cases hXc : X c
        · obtain rfl := hX' hXc
          exact .inr ⟨hf.2.2.symm,rfl⟩
        · exact .inl ⟨hf,hXc⟩)
  exact ⟨h',hr,hv',e,hcell⟩

/-- Marking a cell dirty changes the dirty vector only. -/
theorem InHand.mark (hv : InHand h l s X) (hx : x<h.shape.extent s) :
    ∃ h', h.markIfStable s (indexOf s x) = .ok h' ∧
      InHand h' l s X ∧ Effect h h' s (fun _ => False) (Marks s x) := by
  obtain ⟨h',hr,e,hst,hd⟩ := markIfStable_spec hv.mapped hv.dirty hx
  have himg : h'.image s=h.image s := funext fun o => e.image o id
  obtain ⟨hv',-⟩ := hv.relinked (Y := X) e hd (by simp) (by
    unfold Hive.freeLists
    rw [himg,hst]
    exact FreeLists.iff (hv.lists s) fun _ _ => by simp)
  exact ⟨h',hr,hv',e⟩

end Lists

section Split

variable {h h' : Hive} {l : Layout} {s : StorageType} {b f size : Nat} {w : BitVec 32}

/-- Every other cell of the storage ends before `f` or starts behind it. -/
theorem InHand.apart {X : Nat → Prop} (hv : InHand h l s X) (hf : l.isCell s f) {c : Nat}
    (hc : l.isCell s c) (hne : c≠f) :
    c+8≤f ∨ f+cellSize (h.image s) f≤c := by
  have h1 := (hv.tiled s).room c hc
  have h2 := (hv.tiled s).disjoint hv.mapped hc hf hne
  omega

/-- Cutting a cell in hand in two leaves both parts in hand. -/
theorem InHand.cut {W D : Nat → Prop} (hv : InHand h l s (· = f)) (e : Effect h h' s W D)
    (hdisp : h'.storage s=h.storage s) (hd : DirtyOk h') (hb : b∈l.bins s) {A B : List Nat}
    (hcells : l.cells s b=A++f::B) (hW : ∀ o, W o → f≤o ∧ o<f+cellSize (h.image s) f)
    (hfirst : cellSize (h'.image s) f=size) (hsize : 8≤ size)
    (hrest : cellSize (h'.image s) (f+size)=cellSize (h.image s) f-size)
    (hlt : size+8≤cellSize (h.image s) f) :
    InHand h' (l.setCells s b (A++f::(f+size)::B)) s (fun c => c=f ∨ c=f+size) ∧
      ∀ c, Listed h' (l.setCells s b (A++f::(f+size)::B)) s (fun c => c=f ∨ c=f+size) c ↔
        Listed h l s (· = f) c := by
  have hfb : f∈l.cells s b := by simp [hcells]
  have hbounds := (hv.tiled s).bounds hb hfb
  have hkeep : ∀ c, l.isCell s c → c≠f → read32 (h'.image s) c=read32 (h.image s) c := by
    intro c hc hne
    have h1 := hv.apart ⟨b,hb,hfb⟩ hc hne
    exact e.read32 fun k hk hw => by have := hW _ hw; omega
  have htiles := (hv.tiled s).tiles b hb
  rw [hcells] at htiles
  have hnd := htiles.nodup
  have hne : ∀ c∈A++B, c≠f := by
    intro c hc hcf
    subst hcf
    exact (nodup_cons.mp (perm_middle.nodup_iff.mp hnd)).1 hc
  have hmemAB : ∀ c∈A++B, c∈l.cells s b := by
    intro c hc
    rw [hcells]
    simp only [mem_append,mem_cons] at hc ⊢
    tauto
  have hsz : ∀ c∈A++B, cellSize (h'.image s) c=cellSize (h.image s) c := by
    intro c hc
    rw [cellSize,cellSize,hkeep c ⟨b,hb,hmemAB c hc⟩ (hne c hc)]
  have hmid : f+size∉l.cells s b := by
    intro hc
    have := hv.apart ⟨b,hb,hfb⟩ ⟨b,hb,hc⟩ (by omega)
    omega
  refine hv.rewrite e hdisp hd hb ?_ ?_ ?_ ?_ ?_ ?_ ?_
  · have := htiles.split (by omega)
      (by rw [hfirst]; omega) (by rw [hfirst]; omega) hsz
    rwa [hfirst] at this
  · intro c hc
    simp only [mem_append,mem_cons] at hc
    by_cases hcf : c=f
    · rw [hcf,hfirst]
      exact hsize
    · by_cases hcr : c=f+size
      · rw [hcr]
        omega
      · have hcAB : c∈A++B := by
          simp only [mem_append]
          tauto
        rw [hsz c hcAB]
        exact (hv.tiled s).room c ⟨b,hb,hmemAB c hcAB⟩
  · intro o ho
    have := hW o ho
    omega
  · intro i c hc hcf o h1 h2 hw
    have h3 := hv.apart ⟨b,hb,hfb⟩ hc.1 hcf
    have h4 := hW o hw
    omega
  · rintro c rfl
    exact hfb
  · rintro c (rfl | rfl)
    · simp
    · simp
  · intro i c
    by_cases hcf : c=f
    · simp [hcf]
    · by_cases hcr : c=f+size
      · subst hcr
        simp [hmid]
      · have hmem : c∈A++f::(f+size)::B ↔ c∈l.cells s b := by
          rw [hcells]
          simp [hcf,hcr]
        by_cases hcb : c∈l.cells s b
        · rw [hkeep c ⟨b,hb,hcb⟩ hcf]
          simp [hmem,hcf,hcr]
        · simp [hmem,hcb]

def Layout.IsCut (l l' : Layout) (s : StorageType) (b f size : Nat) : Prop :=
  ∃ A B, l.cells s b=A++f::B ∧ l'=l.setCells s b (A++f::(f+size)::B)

theorem Layout.IsCut.isCell {l l' : Layout} (hc : l.IsCut l' s b f size) (hb : b∈l.bins s)
    {c : Nat} :
    l'.isCell s c ↔ l.isCell s c ∨ c=f+size := by
  obtain ⟨A,B,hcells,rfl⟩ := hc
  rw [Layout.isCell_setCells hb,Layout.isCell_iff hb,hcells]
  by_cases hcr : c=f+size <;> simp [hcr]

/-- A word minus a smaller one. -/
theorem toInt_sub_ofNat {n : Nat} (hw : 0<w.toInt) (hn : n<w.toNat) :
    (w-BitVec.ofNat 32 n).toInt=(w.toNat : Int)-n := by
  obtain ⟨-,hlt⟩ := toNat_of_pos hw
  have hnat : (w-BitVec.ofNat 32 n).toNat=w.toNat-n := by
    rw [BitVec.toNat_sub,BitVec.toNat_ofNat]
    omega
  rw [BitVec.toInt_eq_toNat_of_lt (by omega)]
  omega

theorem toInt_ofNat_small {n : Nat} (hn : n<2^31) : (BitVec.ofNat 32 n).toInt=n := by
  rw [BitVec.toInt_eq_toNat_of_lt (by rw [BitVec.toNat_ofNat]; omega),BitVec.toNat_ofNat]
  omega

/-- A free cell in hand that is large enough is split, and the rest goes into its list. -/
theorem splitCell_spec (hv : InHand h l s (· = f)) (hb : b∈l.bins s) (hf : f∈l.cells s b)
    (hp : 0<(read32 (h.image s) f).toInt) (hsize : 8≤ size)
    (hgt : size+16<(read32 (h.image s) f).toNat) :
    ∃ h' l', h.splitCell s size (indexOf s f) (h.shape.address s f) = .ok h' ∧
      InHand h' l' s (· = f) ∧ l.IsCut l' s b f size ∧
      read32 (h'.image s) f=BitVec.ofNat 32 size ∧
      (read32 (h'.image s) (f+size)).toInt=(read32 (h.image s) f).toNat-size ∧
      (∀ c, Listed h' l' s (· = f) c ↔ Listed h l s (· = f) c ∨ c=f+size) ∧
      Effect h h' s (fun o => f≤o ∧ o<f+4 ∨ f+size≤o ∧ o<f+size+8)
        (Marks s (f+size)) := by
  obtain ⟨A,B,hcells⟩ := append_of_mem hf
  obtain ⟨hb32,h8,hend⟩ := (hv.tiled s).bounds hb hf
  have hz := cellSize_of_pos hp
  have hm := hv.mapped
  have hbound := hm.bound s
  have hcell := (hv.tiled s).inBin hb hf
  have hin : ∀ k n, k+n≤cellSize (h.image s) f → InBin h.shape l.bins s b (f+k) n := by
    intro k n hk
    exact ⟨hb,by omega,by omega⟩
  have hext := hcell.lt_extent hm
  have hadd := hm.address_add hcell (k := size) (by omega)
  -- the two headers
  have e₁ := Effect.poke hm (hin size 4 (by omega)) (read32 (h.image s) f-BitVec.ofNat 32 size)
  have hm₁ := e₁.mapped hm
  have hi₁ := e₁.inBin (hin 0 4 (by omega))
  have e₂ := Effect.poke hm₁ hi₁ (BitVec.ofNat 32 size)
  rw [Nat.add_zero] at hi₁ e₂
  generalize hh₁ : h.poke s (f+size) (read32 (h.image s) f-BitVec.ofNat 32 size)=h₁ at *
  generalize hh₂ : h₁.poke s f (BitVec.ofNat 32 size)=h₂ at *
  have himg₁ : h₁.image s =
      write32 (h.image s) (f+size) (read32 (h.image s) f-BitVec.ofNat 32 size) := by
    rw [← hh₁]
    exact hm.image_poke (hin size 4 (by omega)) _
  have himg₂ : h₂.image s=write32 (h₁.image s) f (BitVec.ofNat 32 size) := by
    rw [← hh₂]
    exact hm₁.image_poke hi₁ _
  have hfirst : read32 (h₂.image s) f=BitVec.ofNat 32 size := by
    rw [himg₂,read32_write32]
  have hrest : read32 (h₂.image s) (f+size)=read32 (h.image s) f-BitVec.ofNat 32 size := by
    rw [himg₂,read32_write32_of_disjoint _ _ (by omega),himg₁,read32_write32]
  have hrestInt := toInt_sub_ofNat hp (show size<(read32 (h.image s) f).toNat by omega)
  have e₁₂ := e₁.trans e₂
  have ⟨hv₂,hlist₂⟩ : InHand h₂ (l.setCells s b (A++f::(f+size)::B)) s
      (fun c => c=f ∨ c=f+size) ∧
      ∀ c, Listed h₂ (l.setCells s b (A++f::(f+size)::B)) s (fun c => c=f ∨ c=f+size) c ↔
        Listed h l s (· = f) c := by
    refine hv.cut e₁₂ ?_ (e₁₂.dirtyOk hv.dirty (by simp)) hb hcells ?_ ?_ hsize ?_ (by omega)
    · rw [← hh₂,← hh₁]
      rfl
    · rintro o (ho | ho)
      · omega
      · omega
    · rw [cellSize,hfirst,toInt_ofNat_small (by omega)]
      rfl
    · rw [cellSize,hrest,hrestInt,hz]
      omega
  have hnew : (l.setCells s b (A++f::(f+size)::B)).isCell s (f+size) :=
    ⟨b,hb,by simp⟩
  have hfc : (l.setCells s b (A++f::(f+size)::B)).isCell s f := ⟨b,hb,by simp⟩
  obtain ⟨h₃,hr₃,hv₃,e₃,hcell₃⟩ := hv₂.add hnew (by rw [hrest,hrestInt]; omega) (.inr rfl)
  have e₁₃ := e₁₂.trans e₃
  obtain ⟨h₄,hr₄,hv₄,e₄⟩ := hv₃.mark (x := f+size) (by rw [e₁₃.shape]; omega)
  have himg₄ : h₄.image s=h₃.image s := funext fun o => e₄.image o id
  have hpos : 0<(read32 (h₄.image s) (f+size)).toInt := by
    rw [himg₄,hcell₃ _ hnew,hrest,hrestInt]
    omega
  refine ⟨h₄,_,?_,hv₄.congr fun c => ?_,⟨A,B,hcells,rfl⟩,?_,?_,fun c => ?_,?_⟩
  · have hload := hm.load (hin 0 4 (by omega))
    have hst₁ := hm.store (hin size 4 (by omega)) (read32 (h.image s) f-BitVec.ofNat 32 size)
    have hst₂ := hm₁.store hi₁ (BitVec.ofNat 32 size)
    rw [Nat.add_zero] at hload
    rw [hh₁] at hst₁
    rw [e₁.shape,hh₂] at hst₂
    rw [e₁₂.shape] at hr₃
    have hidx := indexOf_add (s := s) (show f+size<2^31 by omega)
    simp only [Hive.splitCell,hload,HiveM.ok_bind]
    rw [if_pos (by omega),hadd,hst₁,hidx]
    simp [hst₂,hr₃,hr₄]
  · by_cases hcr : c=f+size
    · subst hcr
      omega
    · simp [hcr]
  · rw [himg₄,hcell₃ f hfc,hfirst]
  · rw [himg₄,hcell₃ _ hnew,hrest,hrestInt]
  · rw [← hlist₂ c]
    by_cases hcr : c=f+size
    · subst hcr
      simp only [or_true,iff_true]
      exact ⟨hnew,hpos,by omega⟩
    · by_cases hc : (l.setCells s b (A++f::(f+size)::B)).isCell s c
      · simp [Listed,hc,hcr,himg₄,hcell₃]
      · simp [Listed,hc,hcr]
  · refine (e₁₃.trans e₄).mono (fun o ho => ?_) fun i => by simp
    obtain ((ho | ho) | ho) | ho := ho
    · exact Or.inr (by omega)
    · exact .inl ho
    · exact Or.inr (by omega)
    · exact ho.elim

theorem toInt_neg_of_pos (hw : 0<w.toInt) : (-w).toInt = -w.toInt := by
  refine BitVec.toInt_neg_of_ne_intMin ?_
  rintro rfl
  exact absurd hw (by decide)

/-- A free cell in hand becomes an allocated one, and `size` bytes of it are cleared. -/
theorem claimCell_spec (hv : InHand h l s (· = f)) (hb : b∈l.bins s) (hf : f∈l.cells s b)
    (hp : 0<(read32 (h.image s) f).toInt) (hsize : 8≤ size)
    (hle : size≤(read32 (h.image s) f).toNat) :
    ∃ h', h.claimCell s size (indexOf s f) (h.shape.address s f) = .ok h' ∧ HiveInv h' l ∧
      read32 (h'.image s) f = -read32 (h.image s) f ∧
      (∀ o, f+4≤o → o<f+size → h'.image s o=0) ∧
      (∀ c, Listed h' l s (fun _ => False) c ↔ Listed h l s (· = f) c) ∧
      Effect h h' s (fun o => f≤o ∧ o<f+size) (Marks s f) := by
  obtain ⟨hb32,h8,hend⟩ := (hv.tiled s).bounds hb hf
  have hz := cellSize_of_pos hp
  have hext := ((hv.tiled s).inBin hb hf).lt_extent hv.mapped
  obtain ⟨h₁,hr₁,hv₁,e₁⟩ := hv.mark (x := f) (by omega)
  have himg₁ : h₁.image s=h.image s := funext fun o => e₁.image o id
  have hm₁ := hv₁.mapped
  have hin : ∀ k n, k+n≤cellSize (h.image s) f → InBin h₁.shape l.bins s b (f+k) n := by
    intro k n hk
    rw [e₁.shape]
    exact ⟨hb,by omega,by omega⟩
  have hi₀ := hin 0 4 (by omega)
  have hadd := hm₁.address_add (hin 0 8 (by omega)) (k := 4) (by decide)
  rw [Nat.add_zero] at hi₀ hadd
  have e₂ := Effect.poke hm₁ hi₀ (-read32 (h.image s) f)
  have hst₂ := hm₁.store hi₀ (-read32 (h.image s) f)
  have himg₂ := hm₁.image_poke hi₀ (-read32 (h.image s) f)
  have hdisp₂ : (h₁.poke s f (-read32 (h.image s) f)).storage s=h₁.storage s := rfl
  generalize h₁.poke s f (-read32 (h.image s) f)=h₂ at e₂ hst₂ himg₂ hdisp₂
  have hm₂ := e₂.mapped hm₁
  have hi₂ := e₂.inBin (hin 4 (size-4) (by omega))
  have e₃ := Effect.fillAt hm₂ hi₂ (by omega) 0
  have hst₃ := hm₂.fillMemory hi₂ (by omega) 0
  have himg₃ := hm₂.image_fillAt hi₂ (by omega) 0
  have hdisp₃ : (h₂.fillAt s (f+4) (size-4) 0).storage s=h₂.storage s := rfl
  generalize h₂.fillAt s (f+4) (size-4) 0=h₃ at e₃ hst₃ himg₃ hdisp₃
  have hhead : read32 (h₃.image s) f = -read32 (h.image s) f := by
    rw [himg₃,read32_fill_of_disjoint _ _ (by omega),himg₂,read32_write32]
  have e₂₃ : Effect h₁ h₃ s (fun o => f≤o ∧ o<f+size) (fun _ => False) := by
    refine (e₂.trans e₃).mono (fun o ho => ?_) (by simp)
    obtain ho | ho := ho
    · omega
    · omega
  have hapart : ∀ c, l.isCell s c → c≠f → c+8≤f ∨ f+cellSize (h.image s) f≤c :=
    fun c hc hne => hv.apart ⟨b,hb,hf⟩ hc hne
  have hkeep : ∀ c, l.isCell s c → c≠f → read32 (h₃.image s) c=read32 (h₁.image s) c := by
    intro c hc hne
    have := hapart c hc hne
    exact e₂₃.read32 fun k hk hw => by omega
  have hneg : (read32 (h₃.image s) f).toInt = -(read32 (h.image s) f).toInt := by
    rw [hhead,toInt_neg_of_pos hp]
  have hsz : ∀ c∈l.cells s b, cellSize (h₃.image s) c=cellSize (h₁.image s) c := by
    intro c hc
    by_cases hcf : c=f
    · rw [hcf,cellSize,cellSize,hneg,himg₁,Int.natAbs_neg]
    · rw [cellSize,cellSize,hkeep c ⟨b,hb,hc⟩ hcf]
  obtain ⟨hv₃,hlist₃⟩ : InHand h₃ (l.setCells s b (l.cells s b)) s (fun _ => False) ∧
      ∀ c, Listed h₃ (l.setCells s b (l.cells s b)) s (fun _ => False) c ↔
        Listed h₁ l s (· = f) c := by
    refine hv₁.rewrite e₂₃ (hdisp₃.trans hdisp₂) (e₂₃.dirtyOk hv₁.dirty (by simp)) hb
      (((hv₁.tiled s).tiles b hb).congr hsz) (fun c hc => ?_) (fun o ho => ?_)
      (fun i c hc hcf o h1 h2 hw => ?_) (fun c hc => hc ▸ hf) (by simp) fun i c => ?_
    · rw [hsz c hc]
      exact (hv₁.tiled s).room c ⟨b,hb,hc⟩
    · rw [e₁.shape]
      omega
    · have := hapart c hc.1 hcf
      omega
    · by_cases hcf : c=f
      · rw [hcf]
        simp only [not_true_eq_false,and_false,iff_false,not_and]
        omega
      · by_cases hcb : c∈l.cells s b
        · rw [hkeep c ⟨b,hb,hcb⟩ hcf]
          simp [hcf]
        · simp [hcb]
  rw [Layout.setCells_self] at hv₃ hlist₃
  refine ⟨h₃,?_,hv₃.hiveInv (by simp),hhead,fun o h1 h2 => ?_,fun c => ?_,?_⟩
  · have hload := hm₁.load hi₀
    rw [himg₁] at hload
    rw [e₁.shape] at hload hst₂ hadd
    rw [e₂.shape,e₁.shape] at hst₃
    have hlen : (size+2^32-4)%2^32=size-4 := by omega
    simp only [Hive.claimCell,hr₁,HiveM.ok_bind,hload,hst₂,hadd,hlen,hst₃]
  · rw [himg₃,fill_of_mem _ _ h1 (by omega)]
  · rw [hlist₃,Listed,Listed,himg₁]
  · exact (e₁.trans e₂₃).mono (fun o ho => ho.resolve_left id) fun i => by simp

structure Taken (h : Hive) (l : Layout) (h' : Hive) (l' : Layout) (s : StorageType)
    (f size z : Nat) : Prop where
  inv : HiveInv h' l'
  bins : l'.bins=l.bins
  other : ∀ t, t≠s → l'.cells t=l.cells t
  cells : ∀ c, l'.isCell s c ↔ l.isCell s c ∨ size+16<z ∧ c=f+size
  header : (read32 (h'.image s) f).toInt = -(if size+16<z then size else z : Nat)
  rest : size+16<z → 0<(read32 (h'.image s) (f+size)).toInt
  zero : ∀ o, f+4≤o → o<f+size → h'.image s o=0
  listed : ∀ c, Listed h' l' s (fun _ => False) c ↔
    Listed h l s (· = f) c ∨ size+16<z ∧ c=f+size
  effect : Effect h h' s
    (fun o => f≤o ∧ o<f+size ∨ size+16<z ∧ f+size≤o ∧ o<f+size+8)
    (fun i => Marks s f i ∨ size+16<z ∧ Marks s (f+size) i)

theorem takeCell_spec (hv : InHand h l s (· = f)) (hb : b∈l.bins s) (hf : f∈l.cells s b)
    (hp : 0<(read32 (h.image s) f).toInt) (hsize : 8≤ size)
    (hle : size≤(read32 (h.image s) f).toNat) :
    ∃ h' l', h.takeCell s size (indexOf s f) = .ok h' ∧
      Taken h l h' l' s f size (read32 (h.image s) f).toNat := by
  have hz := cellSize_of_pos hp
  have hz31 := (toNat_of_pos hp).2
  have hcell := (hv.tiled s).inBin hb hf
  have hhead := hv.mapped.hvpGetCellHeader hcell (by omega)
  by_cases hgt : size+16<(read32 (h.image s) f).toNat
  · obtain ⟨h₁,l',hr₁,hv₁,hcut,hfirst,hrest,hlist₁,e₁⟩ := splitCell_spec hv hb hf hp hsize hgt
    have hcells : f∈l'.cells s b := by
      obtain ⟨A,B,-,rfl⟩ := hcut
      simp
    have hbins : l'.bins=l.bins := by
      obtain ⟨A,B,-,rfl⟩ := hcut
      rfl
    have hsizeInt : (read32 (h₁.image s) f).toInt=size := by
      rw [hfirst,toInt_ofNat_small (by omega)]
    have hsizeNat : (read32 (h₁.image s) f).toNat=size := by
      rw [hfirst,BitVec.toNat_ofNat]
      omega
    obtain ⟨h₂,hr₂,hv₂,hneg,hzero,hlist₂,e₂⟩ := claimCell_spec hv₁ (hbins ▸ hb) hcells
      (by rw [hsizeInt]; omega) hsize (by rw [hsizeNat])
    refine ⟨h₂,l',?_,hv₂,hbins,?_,?_,?_,?_,hzero,fun c => ?_,?_⟩
    · rw [e₁.shape] at hr₂
      simp [Hive.takeCell,hhead,hr₁,hr₂]
    · obtain ⟨A,B,-,rfl⟩ := hcut
      exact fun t ht => l.cells_setCells_other b _ ht
    · intro c
      rw [hcut.isCell hb]
      simp [hgt]
    · rw [hneg,toInt_neg_of_pos (by rw [hsizeInt]; omega),hsizeInt,if_pos hgt]
    · intro _
      rw [e₂.read32 (fun k hk hw => by omega),hrest]
      omega
    · rw [hlist₂ c,hlist₁ c]
      simp [hgt]
    · refine (e₁.trans e₂).mono (fun o ho => ?_) fun i => ?_
      · omega
      · simp only [hgt,true_and]
        exact or_comm
  · have hload := hv.mapped.load ⟨hb,hcell.le,by have := hcell.fits; omega⟩
    have hr₁ : h.splitCell s size (indexOf s f) (h.shape.address s f) = .ok h := by
      simp only [Hive.splitCell,hload,HiveM.ok_bind]
      rw [if_neg (by omega)]
    obtain ⟨h₂,hr₂,hv₂,hneg,hzero,hlist₂,e₂⟩ := claimCell_spec hv hb hf hp hsize hle
    refine ⟨h₂,l,?_,hv₂,rfl,fun _ _ => rfl,?_,?_,fun h => absurd h hgt,hzero,fun c => ?_,?_⟩
    · simp [Hive.takeCell,hhead,hr₁,hr₂]
    · simp [hgt]
    · rw [hneg,toInt_neg_of_pos hp,if_neg hgt,BitVec.toInt_eq_toNat_of_lt (by omega)]
    · rw [hlist₂]
      simp [hgt]
    · refine e₂.mono (fun o ho => .inl ho) fun i => ?_
      simp [hgt]

end Split

section Allocate

variable {h : Hive} {l : Layout} {s : StorageType} {size : Nat}

/-- The size of the cell for a request of `size` bytes, and of the bin for that cell. -/
def neededCell (size : Nat) : Nat := (size+19)/16*16

def neededBin (size : Nat) : Nat := (neededCell size+4127)/4096*4096

def HasRoom (h : Hive) (s : StorageType) (size : Nat) : Prop :=
  h.shape.extent s+neededBin size<2^31

instance (h : Hive) (s : StorageType) (size : Nat) : Decidable (HasRoom h s size) :=
  inferInstanceAs (Decidable (_<_))

theorem neededCell_le (size : Nat) : size+4≤neededCell size ∧ 16≤neededCell size := by
  unfold neededCell
  omega

theorem HasRoom.roundUp (hr : HasRoom h s size) :
    roundUp ((size+4)%2^32) 16=neededCell size ∧
      Cm.roundUp ((neededCell size+32)%2^32) 4096=neededBin size := by
  unfold HasRoom at hr
  unfold Cm.roundUp
  unfold neededBin neededCell at *
  omega

theorem HasRoom.binFits (hr : HasRoom h s size) : BinFits h s (neededBin size) := by
  refine ⟨?_,?_,hr⟩
  · unfold neededBin
    omega
  · unfold neededBin
    omega

structure FromList (h : Hive) (l : Layout) (h' : Hive) (l' : Layout) (s : StorageType)
    (f size : Nat) : Prop where
  free : Listed h l s (fun _ => False) f
  large : neededCell size≤(read32 (h.image s) f).toNat
  step : ∃ h₁, Effect h h₁ s (LinkBytes (Listed h l s (· = f))) (fun _ => False) ∧
    (∀ c, l.isCell s c → read32 (h₁.image s) c=read32 (h.image s) c) ∧
    Taken h₁ l h' l' s f (neededCell size) (read32 (h.image s) f).toNat

structure FromBin (h : Hive) (l : Layout) (h' : Hive) (l' : Layout) (s : StorageType)
    (f size : Nat) : Prop where
  start : f=h.shape.extent s+32
  step : ∃ h₁, Extended h h₁ s (neededBin size) ∧
    Taken h₁ (l.addBin s (h.shape.extent s)) h' l' s f (neededCell size) (neededBin size-32)

/-- `HvAllocateCell` uses a free cell or a new bin. It gives NIL if the bin or its block list
cannot be allocated, and faults if the dirty vector cannot. -/
theorem hvAllocateCell_spec (hv : HiveInv h l) (alloc : AllocResults) (hr : HasRoom h s size) :
    (∃ f h' l', h.hvAllocateCell alloc size s = .ok (indexOf s f, h') ∧
        (FromList h l h' l' s f size ∨ FromBin h l h' l' s f size)) ∨
      (alloc.bin=false ∨ alloc.blockList=false) ∧
        h.hvAllocateCell alloc size s = .ok (hcellNil, h) ∨
      alloc.bitmap=false ∧ h.hvAllocateCell alloc size s = .error .bounds := by
  obtain ⟨hcell,hbin⟩ := hr.roundUp
  have hneed := neededCell_le size
  unfold Hive.hvAllocateCell
  rw [hcell]
  obtain ⟨hnone,-⟩ | ⟨f,h₁,hf,hlarge,hfind,hv₁,e₁,hkeep⟩ :=
    (hv.inHand s).find (neededCell size)
  · simp only [hnone,HiveM.ok_bind]
    have hn := hr.binFits
    have hadd := hvpAddBin_spec hv alloc (show BinFits h s
      (Cm.roundUp ((neededCell size+32)%2^32) 4096) by rw [hbin]; exact hn)
    rw [hbin] at hadd
    obtain ⟨hfail,hadd⟩ | ⟨h₁,hadd,e⟩ | ⟨hfail,hadd⟩ := hadd
    · exact .inr (.inl ⟨hfail,by simp [hadd]⟩)
    · have hv₁ := e.inHand hn hv
      have hhead := e.header_new hn hv.mapped
      have hnb : neededCell size+32≤neededBin size := by
        unfold neededBin
        omega
      have hlt := hn.bound
      have hpos : 0<(read32 (h₁.image s) (h.shape.extent s+32)).toInt := by
        omega
      have hz : (read32 (h₁.image s) (h.shape.extent s+32)).toNat=neededBin size-32 := by
        have := BitVec.toInt_eq_toNat_of_lt (x := read32 (h₁.image s) (h.shape.extent s+32))
          (by have := (toNat_of_pos hpos).2; omega)
        omega
      obtain ⟨h',l',htake,hT⟩ := takeCell_spec hv₁
        (Layout.mem_addBin.mpr (.inr ⟨rfl,rfl⟩)) (by simp) hpos
        (show 8≤neededCell size by omega) (by rw [hz]; omega)
      rw [hz] at hT
      refine .inl ⟨_,h',l',?_,.inr ⟨rfl,h₁,e,hT⟩⟩
      have hoff : h₁.load ⟨h.nextBuffer,4⟩ = .ok (BitVec.ofNat 32 (h.shape.extent s)) := by
        have hsz : (h₁.heap h.nextBuffer).size=neededBin size := by
          rw [e.heap,Function.update_self]
        rw [Hive.load,if_pos (by dsimp only; omega),e.heap]
        simp [(newBinBytes_words (h.shape.extent s) (neededBin size)).2.1]
      have hidx : ((BitVec.ofNat 32 (h.shape.extent s)).toNat+32)%2^32 =
          h.shape.extent s+32 := by
        rw [BitVec.toNat_ofNat]
        omega
      simp only [hadd,HiveM.ok_bind,hoff,hidx,
        orType_eq_indexOf (show h.shape.extent s+32<2^31 by omega),htake]
      rfl
    · exact .inr (.inr ⟨hfail,by rw [hadd]; rfl⟩)
  · have hv₁' := hv₁.congr (Y := (· = f)) fun c => by simp
    obtain ⟨b,hb,hfb⟩ := hf.1
    have hhead := hkeep f hf.1
    obtain ⟨h',l',htake,hT⟩ := takeCell_spec hv₁' hb hfb (by rw [hhead]; exact hf.2.1)
      (show 8≤neededCell size by omega) (by rw [hhead]; exact hlarge)
    rw [hhead] at hT
    refine .inl ⟨f,h',l',?_,.inl ⟨hf,hlarge,h₁,?_,hkeep,hT⟩⟩
    · simp only [hfind,HiveM.ok_bind,htake]
      rfl
    · exact e₁.mono (fun o ho => ho.mono fun c hc => ⟨hc.1,hc.2.1,fun hcf => hc.2.2 (.inr hcf)⟩)
        fun _ => Iff.rfl

end Allocate

end Odyssey.Cm
