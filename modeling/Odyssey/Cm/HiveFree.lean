import Odyssey.Cm.HiveAlloc

/-! `HvFreeCell`: the freed cell takes in a free cell behind it, and is taken in by a free
cell in front of it. -/
namespace Odyssey.Cm
open ByteMem Tiling List HiveM

section Join

variable {h h' : Hive} {l : Layout} {s : StorageType} {X Y W D : Nat → Prop} {b c p : Nat}
  {A B : List Nat}

/-- Two neighbouring cells become one when the header of the first says so; the second one
must be in hand. -/
theorem InHand.join (hv : InHand h l s X) (e : Effect h h' s W D)
    (hdisp : h'.storage s=h.storage s) (hd : DirtyOk h') (hb : b∈l.bins s)
    (hcells : l.cells s b=A++p::c::B) (hW : ∀ o, W o → p≤o ∧ o<p+4)
    (hsize : cellSize (h'.image s) p=cellSize (h.image s) p+cellSize (h.image s) c)
    (hX : ∀ x, X x → x=p ∨ x=c) (hXc : X c) (hY : ∀ y, Y y → y=p)
    (hfree : ∀ i, (0<(read32 (h'.image s) p).toInt ∧
        hvpComputeFreeListIndex (read32 (h'.image s) p).toNat=i) ∧ ¬Y p ↔
      (0<(read32 (h.image s) p).toInt ∧
        hvpComputeFreeListIndex (read32 (h.image s) p).toNat=i) ∧ ¬X p) :
    InHand h' (l.setCells s b (A++p::B)) s Y ∧
      ∀ d, Listed h' (l.setCells s b (A++p::B)) s Y d ↔ Listed h l s X d := by
  have hpb : p∈l.cells s b := by simp [hcells]
  have hcb : c∈l.cells s b := by simp [hcells]
  have hbounds := (hv.tiled s).bounds hb hpb
  have hkeep : ∀ d, l.isCell s d → d≠p → read32 (h'.image s) d=read32 (h.image s) d := by
    intro d hdc hne
    have h1 := hv.apart ⟨b,hb,hpb⟩ hdc hne
    exact e.read32 fun k hk hw => by have := hW _ hw; omega
  have htiles := (hv.tiled s).tiles b hb
  rw [hcells] at htiles
  have hnd := nodup_cons.mp (perm_middle.nodup_iff.mp htiles.nodup)
  have hnd' := nodup_cons.mp (perm_middle.nodup_iff.mp hnd.2)
  have hcp : c≠p := by
    rintro rfl
    exact hnd.1 (by simp)
  have hmem : ∀ d, d≠c → (d∈A++p::B ↔ d∈l.cells s b) := by
    intro d hdc
    rw [hcells]
    simp [hdc]
  have hcAB : c∉A++p::B := by
    have := hnd'.1
    simp only [mem_append,mem_cons] at this ⊢
    tauto
  refine hv.rewrite e hdisp hd hb ?_ ?_ ?_ ?_ ?_ ?_ ?_
  · refine htiles.merge hsize fun d hdAB => ?_
    have hdp : d≠p := by
      rintro rfl
      simp only [mem_append,mem_cons] at hnd hdAB
      tauto
    have hdb : d∈l.cells s b := by
      rw [hcells]
      simp only [mem_append,mem_cons] at hdAB ⊢
      tauto
    rw [cellSize,cellSize,hkeep d ⟨b,hb,hdb⟩ hdp]
  · intro d hdm
    have hdc : d≠c := fun hdc => hcAB (hdc ▸ hdm)
    have hdb := (hmem d hdc).mp hdm
    by_cases hdp : d=p
    · rw [hdp]
      omega
    · rw [cellSize,hkeep d ⟨b,hb,hdb⟩ hdp]
      exact (hv.tiled s).room d ⟨b,hb,hdb⟩
  · intro o ho
    have := hW o ho
    omega
  · intro i d hdf _ o h1 h2 hw
    have h3 := hW o hw
    by_cases hdp : d=p
    · omega
    · have := hv.apart ⟨b,hb,hpb⟩ hdf.1 hdp
      omega
  · intro x hx
    obtain rfl | rfl := hX x hx
    · exact hpb
    · exact hcb
  · intro y hy
    rw [hY y hy]
    simp
  · intro i d
    by_cases hdc : d=c
    · subst hdc
      exact ⟨fun hf => absurd hf.1.1 hcAB,fun hf => absurd hXc hf.2⟩
    · rw [hmem d hdc]
      by_cases hdp : d=p
      · subst hdp
        simp only [hpb,true_and]
        exact hfree i
      · have hXd : ¬X d := fun hx => (hX d hx).elim hdp hdc
        have hYd : ¬Y d := fun hy => hdp (hY d hy)
        by_cases hdb : d∈l.cells s b
        · rw [hkeep d ⟨b,hb,hdb⟩ hdp]
          simp [hXd,hYd]
        · simp [hdb]

/-- The sum of two positive sizes that fit into a bin. -/
theorem add_sizes {v w : BitVec 32} (hv : 0<v.toInt) (hsum : v.toNat+w.toNat<2^31) :
    (v+w).toNat=v.toNat+w.toNat ∧ 0<(v+w).toInt := by
  have hnat : (v+w).toNat=v.toNat+w.toNat := by
    rw [BitVec.toNat_add]
    omega
  have h1 := toNat_of_pos hv
  refine ⟨hnat,?_⟩
  rw [BitVec.toInt_eq_toNat_of_lt (by omega)]
  omega

/-- A positive cell takes in the positive cell behind it, which is in hand. The first cell
stays in hand, or it stays in the same list. -/
theorem InHand.absorb (hv : InHand h l s X) (hb : b∈l.bins s)
    (hcells : l.cells s b=A++p::c::B) (hp : 0<(read32 (h.image s) p).toInt)
    (hc : 0<(read32 (h.image s) c).toInt) (hX : ∀ x, X x → x=p ∨ x=c) (hXc : X c)
    (hY : ∀ y, Y y → y=p)
    (hlist : X p ∧ Y p ∨ ¬X p ∧ ¬Y p ∧ hvpComputeFreeListIndex (read32 (h.image s) p).toNat =
      hvpComputeFreeListIndex (read32 (h.image s) p+read32 (h.image s) c).toNat) :
    ∃ h', h.store (h.shape.address s p) (read32 (h.image s) p+read32 (h.image s) c) = .ok h' ∧
      InHand h' (l.setCells s b (A++p::B)) s Y ∧
      (∀ d, Listed h' (l.setCells s b (A++p::B)) s Y d ↔ Listed h l s X d) ∧
      0<(read32 (h'.image s) p).toInt ∧
      Effect h h' s (fun o => p≤o ∧ o<p+4) (fun _ => False) := by
  have hpb : p∈l.cells s b := by simp [hcells]
  have hcb : c∈l.cells s b := by simp [hcells]
  obtain ⟨hp32,hp8,hpend⟩ := (hv.tiled s).bounds hb hpb
  have hpc : c=p+cellSize (h.image s) p := by
    have htiles := (hv.tiled s).tiles b hb
    rw [hcells] at htiles
    exact htiles.next
  have hpz := cellSize_of_pos hp
  have hcz := cellSize_of_pos hc
  have hext := ((hv.tiled s).inBin hb hcb).lt_extent hv.mapped
  have hbound := hv.mapped.bound s
  have hsum := add_sizes (w := read32 (h.image s) c) hp (by omega)
  have hi : InBin h.shape l.bins s b p 4 := ⟨hb,by omega,by omega⟩
  have e := Effect.poke hv.mapped hi (read32 (h.image s) p+read32 (h.image s) c)
  have hhead : read32 ((h.poke s p (read32 (h.image s) p+read32 (h.image s) c)).image s) p =
      read32 (h.image s) p+read32 (h.image s) c := by
    rw [hv.mapped.image_poke hi,read32_write32]
  have hsz : cellSize ((h.poke s p (read32 (h.image s) p+read32 (h.image s) c)).image s) p =
      cellSize (h.image s) p+cellSize (h.image s) c := by
    rw [cellSize_of_pos (by rw [hhead]; exact hsum.2),hhead]
    omega
  obtain ⟨hv',hlist'⟩ := hv.join e rfl (e.dirtyOk hv.dirty (by simp)) hb hcells
    (fun o ho => ho) hsz hX hXc hY (fun i => by
      rw [hhead]
      obtain ⟨h1,h2⟩ | ⟨h1,h2,h3⟩ := hlist
      · simp [h1,h2]
      · simp only [h1,h2,h3,hp,hsum.2])
  exact ⟨_,hv.mapped.store hi _,hv',hlist',by rw [hhead]; exact hsum.2,e⟩

end Join

section Next

variable {h : Hive} {l : Layout} {s : StorageType} {b c : Nat} {A B : List Nat}

/-- The cell behind a cell that does not end its bin. -/
theorem Tiled.next (ht : Tiled h l s) (hb : b∈l.bins s) (hcells : l.cells s b=A++c::B)
    (hlt : c+cellSize (h.image s) c<b+h.shape.binSize s b) :
    ∃ B', B=(c+cellSize (h.image s) c)::B' := by
  have htiles := ht.tiles b hb
  rw [hcells] at htiles
  obtain ⟨mid,-,rfl,-,h2⟩ := tiles_append.mp htiles
  cases B with
  | nil =>
    have : c+cellSize (h.image s) c=b+h.shape.binSize s b := h2
    omega
  | cons n B' =>
    obtain ⟨rfl,-⟩ := h2
    exact ⟨B',rfl⟩

theorem Tiled.no_next (hm : Mapped h.shape l.bins) (ht : Tiled h l s) (hb : b∈l.bins s) :
    ¬l.isCell s (b+h.shape.binSize s b) := by
  rintro ⟨b',hb',hc⟩
  have h1 := ht.bounds hb' hc
  by_cases hbb : b=b'
  · subst hbb
    omega
  · have := (hm.cover s).disjoint hb hb' hbb
    omega

structure NextMerged (h : Hive) (l : Layout) (h' : Hive) (l' : Layout) (s : StorageType)
    (b c : Nat) (A : List Nat) : Prop where
  inHand : InHand h' l' s (· = c)
  bins : l'.bins=l.bins
  cells : ∃ B, l'.cells s b=A++c::B
  pos : 0<(read32 (h'.image s) c).toInt
  kept : ∀ t d, l.isCell t d → (t=s → ¬Listed h l s (· = c) d) → l'.isCell t d
  listed : ∀ d, Listed h' l' s (· = c) d ↔
    Listed h l s (· = c) d ∧ d≠c+cellSize (h.image s) c
  effect : Effect h h' s
    (fun o => c≤o ∧ o<c+4 ∨ LinkBytes (Listed h' l' s (· = c)) o) (fun _ => False)

theorem NextMerged.refl (hv : InHand h l s (· = c)) (hcells : l.cells s b=A++c::B)
    (hp : 0<(read32 (h.image s) c).toInt)
    (hnext : ¬Listed h l s (· = c) (c+cellSize (h.image s) c)) :
    NextMerged h l h l s b c A where
  inHand := hv
  bins := rfl
  cells := ⟨B,hcells⟩
  pos := hp
  kept _ _ hd _ := hd
  listed d := by
    refine ⟨fun hd => ⟨hd,?_⟩,And.left⟩
    rintro rfl
    exact hnext hd
  effect := (Effect.refl h s).mono (by simp) fun _ => Iff.rfl

theorem mergeNext_spec (hv : InHand h l s (· = c)) (hb : b∈l.bins s)
    (hcells : l.cells s b=A++c::B) (hp : 0<(read32 (h.image s) c).toInt) :
    ∃ h' l', h.mergeNext (indexOf s c) b (h.shape.binSize s b) (h.shape.address s c) = .ok h' ∧
      NextMerged h l h' l' s b c A := by
  have hm := hv.mapped
  have hcb : c∈l.cells s b := by simp [hcells]
  obtain ⟨hb32,h8,hend⟩ := (hv.tiled s).bounds hb hcb
  have hz := cellSize_of_pos hp
  have hbin : InBin h.shape l.bins s b c (b+h.shape.binSize s b-c) := ⟨hb,by omega,by omega⟩
  have hext := hbin.lt_extent hm
  have hbound := hm.bound s
  have hload := hm.load (⟨hb,by omega,by omega⟩ : InBin h.shape l.bins s b c 4)
  have hmod := indexOf_mod (s := s) (show c<2^31 by omega)
  unfold Hive.mergeNext
  rw [hload,ok_bind,hmod,← hz,Nat.mod_eq_of_lt (by omega),Nat.mod_eq_of_lt (by omega)]
  by_cases hlt : c+cellSize (h.image s) c<b+h.shape.binSize s b
  · obtain ⟨B',rfl⟩ := (hv.tiled s).next hb hcells hlt
    have hnb : c+cellSize (h.image s) c∈l.cells s b := by simp [hcells]
    have hadd := hm.address_add hbin (k := cellSize (h.image s) c) (by omega)
    obtain ⟨-,hn8,hnend⟩ := (hv.tiled s).bounds hb hnb
    have hin : InBin h.shape l.bins s b (c+cellSize (h.image s) c) 4 := ⟨hb,by omega,by omega⟩
    have hoff : (h.shape.address s (c+cellSize (h.image s) c)).off =
        c+cellSize (h.image s) c-b := by rw [hm.address hin (by decide)]
    rw [if_pos hlt,hadd]
    dsimp only
    rw [hm.load hin,ok_bind,hoff,
      show (c+cellSize (h.image s) c-b+b)%2^32=c+cellSize (h.image s) c by omega,
      cellType_indexOf (show c<2^31 by omega),orType_eq_indexOf (by omega)]
    by_cases hpos : (read32 (h.image s) (c+cellSize (h.image s) c)).toInt > 0
    · rw [if_pos hpos]
      generalize hnn : c+cellSize (h.image s) c=n at *
      have hn : Listed h l s (· = c) n := ⟨⟨b,hb,hnb⟩,hpos,by omega⟩
      obtain ⟨h₁,hr₁,hv₁,e₁,hkeep⟩ := hv.remove hn
      obtain ⟨h₂,hst,hv₂,hlist₂,hpos₂,e₂⟩ := hv₁.absorb (Y := (· = c)) hb hcells
        (by rwa [hkeep c ⟨b,hb,hcb⟩]) (by rwa [hkeep n ⟨b,hb,hnb⟩]) (by simp) (.inr rfl)
        (by simp) (by simp)
      rw [hkeep c ⟨b,hb,hcb⟩,hkeep n ⟨b,hb,hnb⟩] at hst
      have hlisted : ∀ d, Listed h₂ (l.setCells s b (A++c::B')) s (· = c) d ↔
          Listed h l s (· = c) d ∧ d≠n := by
        intro d
        rw [hlist₂]
        simp only [Listed,not_or]
        constructor
        · rintro ⟨h1,h2,h3,h4⟩
          rw [hkeep d h1] at h2
          exact ⟨⟨h1,h2,h3⟩,h4⟩
        · rintro ⟨⟨h1,h2,h3⟩,h4⟩
          rw [← hkeep d h1] at h2
          exact ⟨h1,h2,h3,h4⟩
      refine ⟨h₂,l.setCells s b (A++c::B'),?_,hv₂,rfl,⟨B',by simp⟩,hpos₂,
        fun t d hd hnl => Layout.isCell_erase hcells hd ?_,?_,?_⟩
      · rw [hr₁,ok_bind,← e₁.shape,hst]
      · rintro hts rfl
        exact hnl hts hn
      · rw [hnn]
        exact hlisted
      · refine (e₁.trans e₂).mono (fun o ho => ?_) (by simp)
        obtain ho | ho := ho
        · refine Or.inr (ho.mono fun d hd => (hlisted d).mpr ⟨⟨hd.1,hd.2.1,?_⟩,?_⟩)
          · exact fun hdc => hd.2.2 (Or.inl hdc)
          · exact fun hdn => hd.2.2 (Or.inr hdn)
        · exact .inl ho
    · rw [if_neg hpos]
      exact ⟨h,l,rfl,.refl hv hcells hp fun hl => hpos hl.2.1⟩
  · rw [if_neg hlt]
    have heq : c+cellSize (h.image s) c=b+h.shape.binSize s b := by omega
    exact ⟨h,l,rfl,.refl hv hcells hp fun hl => (hv.tiled s).no_next hm hb (heq ▸ hl.1)⟩

end Next

section Previous

variable {h : Hive} {l : Layout} {s : StorageType} {b c : Nat} {A B : List Nat}

section
variable (hm : Mapped h.shape l.bins) (ht : Tiled h l s) (hb : b∈l.bins s)
include hm ht hb

/-- The scan from offset `o` over the cells `A` in front of `c` finds the last of them if it
is free. -/
theorem findPrevious_scan (hc : c∈l.cells s b) {o f : Nat} (ho : b≤o)
    (hA : ∀ a∈A, l.isCell s a) (htiles : Tiles (cellSize (h.image s)) o c A) (hf : A.length<f) :
    h.findPrevious (h.shape.address s c) f (h.shape.address s o) =
      .ok ((A.getLast?.filter fun p => 0<(read32 (h.image s) p).toInt).map
        (h.shape.address s)) := by
  obtain ⟨hb32,h8,hend⟩ := ht.bounds hb hc
  have hoff : ∀ o, b≤o → o≤c → (h.shape.address s o).off=o-b := by
    intro o h1 h2
    rw [hm.address ⟨hb,h1,by omega⟩ Nat.one_pos]
  induction A generalizing o f with
  | nil =>
    obtain ⟨f,rfl⟩ : ∃ k, f=k+1 := ⟨f-1,by simp at hf; omega⟩
    obtain rfl : o=c := htiles
    simp [Hive.findPrevious]
  | cons a A ih =>
    obtain ⟨f,rfl⟩ : ∃ k, f=k+1 := ⟨f-1,by simp at hf; omega⟩
    obtain ⟨rfl,hpos,htail⟩ := htiles
    have hle := htail.le
    have hstep : (h.shape.address s a).add (cellSize (h.image s) a) =
        h.shape.address s (a+cellSize (h.image s) a) :=
      hm.address_add (⟨hb,ho,by omega⟩ : InBin h.shape l.bins s b a (c+8-a)) (by omega)
    have hload := hm.load (⟨hb,ho,by
      omega⟩ : InBin h.shape l.bins s b a 4)
    have ih' := ih (o := a+cellSize (h.image s) a) (f := f) (by omega)
      (fun x hx => hA x (by simp [hx])) htail (by simpa using hf)
    rw [Hive.findPrevious,hoff a ho (by omega),hoff c (by omega) le_rfl,if_pos (by omega),hload,
      ok_bind]
    by_cases hw : (read32 (h.image s) a).toInt > 0
    · rw [if_pos hw,← cellSize_of_pos hw,hstep,ih']
      by_cases hlast : a-b+cellSize (h.image s) a=c-b
      · rw [if_pos hlast]
        cases A with
        | nil => simp [hw]
        | cons q A =>
          have := (htail.bounds (a := q) (by simp))
          omega
      · rw [if_neg hlast]
        cases A with
        | nil =>
          have : a+cellSize (h.image s) a=c := htail
          omega
        | cons q A => rw [getLast?_cons_cons]
    · have hsize : (-(read32 (h.image s) a).toInt).toNat=cellSize (h.image s) a := by
        rw [cellSize]
        omega
      rw [if_neg hw,hsize,hstep,ih']
      cases A with
      | nil => simpa using hw
      | cons q A => rw [getLast?_cons_cons]

/-- The scan of `HvFreeCell` from the start of the bin. -/
theorem findPrevious_spec (hcells : l.cells s b=A++c::B) :
    h.findPrevious (h.shape.address s c) ((h.shape.address s c).off+1) (h.shape.address s (b+32)) =
      .ok ((A.getLast?.filter fun p => 0<(read32 (h.image s) p).toInt).map
        (h.shape.address s)) := by
  have hcb : c∈l.cells s b := by simp [hcells]
  obtain ⟨hb32,h8,hend⟩ := ht.bounds hb hcb
  have htiles := ht.tiles b hb
  rw [hcells] at htiles
  obtain ⟨mid,hA,rfl,-⟩ := tiles_append.mp htiles
  have hlen := hA.length_le
  refine findPrevious_scan hm ht hb hcb (by omega) (fun a ha => ⟨b,hb,by simp [hcells,ha]⟩) hA ?_
  rw [hm.address ⟨hb,by omega,by omega⟩ Nat.one_pos]
  dsimp only
  omega

/-- The cell in front of another one is the one that ends there. -/
theorem Tiled.getLast?_iff (hcells : l.cells s b=A++c::B) {p : Nat} :
    A.getLast?=some p ↔ l.isCell s p ∧ p+cellSize (h.image s) p=c := by
  have hcb : c∈l.cells s b := by simp [hcells]
  have htiles := ht.tiles b hb
  rw [hcells] at htiles
  have hlast : ∀ q, A.getLast?=some q → q∈l.cells s b ∧ q+cellSize (h.image s) q=c := by
    intro q hq
    obtain ⟨A',rfl⟩ := getLast?_eq_some_iff.mp hq
    rw [append_assoc] at htiles
    exact ⟨by simp [hcells],htiles.next.symm⟩
  constructor
  · intro hq
    obtain ⟨h1,h2⟩ := hlast p hq
    exact ⟨⟨b,hb,h1⟩,h2⟩
  · rintro ⟨hp,hpc⟩
    have hpos := ht.room p hp
    cases hq : A.getLast? with
    | none =>
      rw [getLast?_eq_none_iff] at hq
      subst hq
      obtain ⟨rfl,-⟩ := htiles
      have := ht.disjoint_header hm hp hb
      omega
    | some q =>
      obtain ⟨h1,h2⟩ := hlast q hq
      have hq8 := ht.room q ⟨b,hb,h1⟩
      by_contra hne
      have hqp : q≠p := fun h => hne (by rw [h])
      have := ht.disjoint hm ⟨b,hb,h1⟩ hp hqp
      omega

end

/-- The cell in hand goes into the free cell in front of it. -/
theorem mergePrevious_spec {p : Nat} (hv : InHand h l s (· = c)) (hb : b∈l.bins s)
    (hcells : l.cells s b=A++p::c::B) (hp : 0<(read32 (h.image s) p).toInt)
    (hc : 0<(read32 (h.image s) c).toInt) :
    ∃ h' l', h.mergePrevious (h.shape.address s p) (h.shape.address s c) (indexOf s p) = .ok h' ∧
      InHand h' l' s (fun _ => False) ∧ l'.bins=l.bins ∧
      (∀ t d, l.isCell t d → (t=s → d≠c) → l'.isCell t d) ∧
      (∀ d, Listed h' l' s (fun _ => False) d ↔ Listed h l s (· = c) d) ∧
      Effect h h' s (fun o => p≤o ∧ o<p+4 ∨ LinkBytes (Listed h' l' s fun _ => False) o)
        (fun _ => False) := by
  have hpb : p∈l.cells s b := by simp [hcells]
  have hcb : c∈l.cells s b := by simp [hcells]
  have hm := hv.mapped
  obtain ⟨hp32,hp8,hpend⟩ := (hv.tiled s).bounds hb hpb
  obtain ⟨hc32,hc8,hcend⟩ := (hv.tiled s).bounds hb hcb
  have hpload := hm.load (⟨hb,by omega,by omega⟩ : InBin h.shape l.bins s b p 4)
  have hcload := hm.load (⟨hb,by omega,by omega⟩ : InBin h.shape l.bins s b c 4)
  have hpne : p≠c := by
    have htiles := (hv.tiled s).tiles b hb
    rw [hcells] at htiles
    have := htiles.next
    omega
  have hpl : Listed h l s (· = c) p := ⟨⟨b,hb,hpb⟩,hp,hpne⟩
  unfold Hive.mergePrevious
  rw [hcload,ok_bind,hpload,ok_bind]
  by_cases hclass : hvpComputeFreeListIndex (read32 (h.image s) p).toNat ≠
      hvpComputeFreeListIndex (read32 (h.image s) p+read32 (h.image s) c).toNat
  · rw [if_pos hclass]
    obtain ⟨h₁,hr₁,hv₁,e₁,hkeep⟩ := hv.remove hpl
    obtain ⟨h₂,hst,hv₂,hlist₂,hpos₂,e₂⟩ := hv₁.absorb (Y := (· = p)) hb hcells
      (by rwa [hkeep p ⟨b,hb,hpb⟩]) (by rwa [hkeep c ⟨b,hb,hcb⟩]) (fun x hx => hx.symm)
      (.inl rfl) (by simp) (by simp)
    rw [hkeep p ⟨b,hb,hpb⟩,hkeep c ⟨b,hb,hcb⟩] at hst
    have hpc₂ : (l.setCells s b (A++p::B)).isCell s p := ⟨b,hb,by simp⟩
    obtain ⟨h₃,hr₃,hv₃,e₃,hkeep₃⟩ := hv₂.add hpc₂ hpos₂ rfl
    have hlisted : ∀ d, Listed h₃ (l.setCells s b (A++p::B)) s (fun _ => False) d ↔
        Listed h l s (· = c) d := by
      intro d
      by_cases hdp : d=p
      · subst hdp
        exact ⟨fun _ => hpl,fun _ => ⟨hpc₂,by rwa [hkeep₃ d hpc₂],id⟩⟩
      · have h1 := hlist₂ d
        simp only [Listed,hdp,not_false_eq_true,and_true,or_false] at h1 ⊢
        constructor
        · rintro ⟨hd1,hd2⟩
          rw [hkeep₃ d hd1] at hd2
          obtain ⟨h2,h3,h4⟩ := h1.mp ⟨hd1,hd2⟩
          exact ⟨h2,hkeep d h2 ▸ h3,h4⟩
        · rintro ⟨hd1,hd2,hd3⟩
          obtain ⟨h2,h3⟩ := h1.mpr ⟨hd1,(hkeep d hd1).symm ▸ hd2,hd3⟩
          exact ⟨h2,by rw [hkeep₃ d h2]; exact h3⟩
    refine ⟨h₃,l.setCells s b (A++p::B),?_,hv₃.congr fun d => by simp,rfl,
      fun t d => Layout.isCell_erase hcells,hlisted,?_⟩
    · rw [e₂.shape] at hr₃
      rw [hr₁,ok_bind,← e₁.shape,hst,ok_bind,hr₃]
    · refine ((e₁.trans e₂).trans e₃).mono (fun o ho => ?_) (by simp)
      obtain (ho | ho) | ho := ho
      · refine .inr (ho.mono fun d hd => (hlisted d).mpr ⟨hd.1,hd.2.1,fun hdc => ?_⟩)
        exact hd.2.2 (.inl hdc)
      · exact .inl ho
      · exact .inr ⟨p,(hlisted p).mpr hpl,ho⟩
  · rw [if_neg hclass]
    obtain ⟨h₁,hst,hv₁,hlist₁,-,e⟩ := hv.absorb (Y := fun _ => False) hb hcells hp hc
      (fun x hx => .inr hx) rfl (by simp) (.inr ⟨hpne,id,not_not.mp hclass⟩)
    exact ⟨h₁,_,hst,hv₁,rfl,fun t d => Layout.isCell_erase hcells,hlist₁,
      e.mono (fun o ho => Or.inl ho) (by simp)⟩

end Previous

section Free

variable {h : Hive} {l : Layout} {s : StorageType} {b c : Nat}

/-- Making the size of an allocated cell positive puts the cell in hand. -/
theorem HiveInv.hold (hv : HiveInv h l) (hb : b∈l.bins s) (hcb : c∈l.cells s b)
    (hneg : (read32 (h.image s) c).toInt<0) :
    ∃ h', h.store (h.shape.address s c) (-read32 (h.image s) c) = .ok h' ∧
      InHand h' l s (· = c) ∧ 0<(read32 (h'.image s) c).toInt ∧
      (∀ d, l.isCell s d → cellSize (h'.image s) d=cellSize (h.image s) d) ∧
      (∀ d, Listed h' l s (· = c) d ↔ Listed h l s (fun _ => False) d) ∧
      Effect h h' s (fun o => c≤o ∧ o<c+4) (fun _ => False) := by
  have hm := hv.mapped
  obtain ⟨hb32,h8,hend⟩ := (hv.tiled s).bounds hb hcb
  have hi : InBin h.shape l.bins s b c 4 := ⟨hb,by omega,by omega⟩
  have hext := ((hv.tiled s).inBin hb hcb).lt_extent hm
  have hbound := hm.bound s
  have e := Effect.poke hm hi (-read32 (h.image s) c)
  have himg := hm.image_poke hi (-read32 (h.image s) c)
  have hdisp : (h.poke s c (-read32 (h.image s) c)).storage s=h.storage s := rfl
  have hst := hm.store hi (-read32 (h.image s) c)
  generalize h.poke s c (-read32 (h.image s) c)=h' at e himg hdisp hst
  have hhead : (read32 (h'.image s) c).toInt = -(read32 (h.image s) c).toInt := by
    rw [himg,read32_write32]
    refine BitVec.toInt_neg_of_ne_intMin fun hmin => ?_
    have hsz : cellSize (h.image s) c=2^31 := by
      rw [cellSize,hmin]
      decide
    omega
  have hkeep : ∀ d, l.isCell s d → d≠c → read32 (h'.image s) d=read32 (h.image s) d := by
    intro d hd hne
    have := (hv.inHand s).apart ⟨b,hb,hcb⟩ hd hne
    exact e.read32 fun k hk hw => by omega
  have hsz : ∀ d, l.isCell s d → cellSize (h'.image s) d=cellSize (h.image s) d := by
    intro d hd
    by_cases hdc : d=c
    · rw [hdc,cellSize,cellSize,hhead,Int.natAbs_neg]
    · rw [cellSize,cellSize,hkeep d hd hdc]
  obtain ⟨hv',hlist⟩ : InHand h' (l.setCells s b (l.cells s b)) s (· = c) ∧
      ∀ d, Listed h' (l.setCells s b (l.cells s b)) s (· = c) d ↔
        Listed h l s (fun _ => False) d := by
    refine (hv.inHand s).rewrite e hdisp (e.dirtyOk hv.dirty (by simp)) hb
      (((hv.tiled s).tiles b hb).congr fun d hd => hsz d ⟨b,hb,hd⟩) (fun d hd => ?_)
      (fun o ho => by omega) (fun i d hd _ o h1 h2 hw => ?_) (by simp) (fun d hd => hd ▸ hcb)
      fun i d => ?_
    · rw [hsz d ⟨b,hb,hd⟩]
      exact (hv.tiled s).room d ⟨b,hb,hd⟩
    · by_cases hdc : d=c
      · omega
      · have := (hv.inHand s).apart ⟨b,hb,hcb⟩ hd.1 hdc
        omega
    · by_cases hdc : d=c
      · rw [hdc]
        simp only [not_true_eq_false,and_false,not_false_eq_true,and_true,false_iff]
        omega
      · by_cases hdb : d∈l.cells s b
        · rw [hkeep d ⟨b,hb,hdb⟩ hdc]
          simp [hdc]
        · simp [hdb]
  rw [Layout.setCells_self] at hv' hlist
  exact ⟨h',hst,hv',by omega,hsz,hlist,e⟩

def FreeBefore (h : Hive) (l : Layout) (s : StorageType) (c p : Nat) : Prop :=
  Listed h l s (fun _ => False) p ∧ p+cellSize (h.image s) p=c

structure Freed (h : Hive) (l : Layout) (h' : Hive) (l' : Layout) (s : StorageType) (c : Nat) :
    Prop where
  inv : HiveInv h' l'
  bins : l'.bins=l.bins
  kept : ∀ t d, Allocated h l t d → (t=s → d≠c) → l'.isCell t d
  listed : ∀ d, Listed h' l' s (fun _ => False) d ↔
    Listed h l s (fun _ => False) d ∧ d≠c+cellSize (h.image s) c ∨
      d=c ∧ ¬∃ p, FreeBefore h l s c p
  effect : Effect h h' s
    (fun o => c≤o ∧ o<c+4 ∨ (∃ p, FreeBefore h l s c p ∧ p≤o ∧ o<p+4) ∨
      LinkBytes (Listed h' l' s fun _ => False) o)
    (fun i => (∃ p, FreeBefore h l s c p ∧ Marks s p i) ∨
      (¬∃ p, FreeBefore h l s c p) ∧ Marks s c i)

/-- The first part of `HvFreeCell`, up to the scan for a free cell in front. -/
theorem hvFreeCell_eq (hv : HiveInv h l) (hb : b∈l.bins s) (hcb : c∈l.cells s b)
    (hneg : (read32 (h.image s) c).toInt<0) {h₁ h₂ : Hive}
    (hst : h.store (h.shape.address s c) (-read32 (h.image s) c) = .ok h₁)
    (e₁ : Effect h h₁ s (fun o => c≤o ∧ o<c+4) (fun _ => False))
    (hnext : h₁.mergeNext (indexOf s c) b (h.shape.binSize s b) (h.shape.address s c) = .ok h₂) :
    h.hvFreeCell (indexOf s c) =
      h₂.findPrevious (h.shape.address s c) ((h.shape.address s c).off+1)
          (h.shape.address s (b+32)) >>=
        h₂.settleCell (indexOf s c) b (h.shape.address s c) := by
  have hm := hv.mapped
  obtain ⟨hb32,h8,hend⟩ := (hv.tiled s).bounds hb hcb
  have hcell := (hv.tiled s).inBin hb hcb
  have hext := hcell.lt_extent hm
  have hc31 : c<2^31 := by
    have := hm.bound s
    omega
  have hheader := hm.hvpGetCellHeader hcell (by omega)
  have hload := hm.load (⟨hb,by omega,by omega⟩ : InBin h.shape l.bins s b c 4)
  have hm₁ := e₁.mapped hm
  -- the bin of the cell and the fields of its header
  have hbinAt : ((h₁.storage s).blockList (c/4096)).binAddress=h.shape.binAt s b := by
    have h1 : ((h₁.storage s).blockList (c/4096)).binAddress=h₁.shape.binAt s b :=
      hm₁.binAddress (e₁.inBin hcell) (by omega)
    rw [h1,e₁.shape]
  have hfield : ∀ k, 4≤k → k≤8 → h₁.load ⟨h.shape.binAt s b,k⟩ =
      .ok (read32 (h.image s) (b+k)) := by
    intro k hk hk'
    have hk4 : InBin h₁.shape l.bins s b (b+k) 4 := by
      rw [e₁.shape]
      exact ⟨hb,by omega,by omega⟩
    have h1 := hm₁.load hk4
    rw [hm₁.address hk4 (by decide),Nat.add_sub_cancel_left,e₁.shape] at h1
    rw [h1,e₁.read32 fun j hj hw => by omega]
  obtain ⟨-,hoff,hsize⟩ := (hv.tiled s).header b hb
  have hfirst : (⟨h.shape.binAt s b,32⟩ : Ptr)=h.shape.address s (b+32) := by
    rw [hm.address ⟨hb,by omega,by omega⟩ Nat.one_pos,
      Nat.add_sub_cancel_left]
  unfold Hive.hvFreeCell
  simp [hheader,hload,hst,hneg,cellType_indexOf hc31,cellBlock_indexOf hc31,hbinAt,
    hfield,hoff,hsize,hnext,hfirst]

/-- `HvFreeCell` on an allocated cell. -/
theorem hvFreeCell_spec (hv : HiveInv h l) (hc : Allocated h l s c) :
    ∃ h' l', h.hvFreeCell (indexOf s c) = .ok h' ∧ Freed h l h' l' s c := by
  obtain ⟨⟨b,hb,hcb⟩,hneg⟩ := hc
  obtain ⟨A,B,hcells⟩ := append_of_mem hcb
  obtain ⟨hb32,h8,hend⟩ := (hv.tiled s).bounds hb hcb
  have hext := ((hv.tiled s).inBin hb hcb).lt_extent hv.mapped
  have hbound := hv.mapped.bound s
  obtain ⟨h₁,hst₁,hv₁,hpos₁,hsz₁,hlist₁,e₁⟩ := hv.hold hb hcb hneg
  obtain ⟨h₂,l₂,hr₂,N⟩ := mergeNext_spec hv₁ hb hcells hpos₁
  have e₂ := N.effect
  rw [e₁.shape] at hr₂
  have hr := hvFreeCell_eq hv hb hcb hneg hst₁ e₁ hr₂
  obtain ⟨B₂,hcells₂⟩ := N.cells
  have hb₂ : b∈l₂.bins s := N.bins ▸ hb
  have hm₂ := N.inHand.mapped
  have hscan := findPrevious_spec hm₂ (N.inHand.tiled s) hb₂ hcells₂
  have hshape : h₂.shape=h.shape := e₂.shape.trans e₁.shape
  rw [hshape] at hscan
  rw [hr,hscan]
  have hlist₂ : ∀ d, Listed h₂ l₂ s (· = c) d ↔
      Listed h l s (fun _ => False) d ∧ d≠c+cellSize (h.image s) c := by
    intro d
    rw [N.listed,hlist₁,hsz₁ c ⟨b,hb,hcb⟩]
  have hkept₂ : ∀ t d, Allocated h l t d → l₂.isCell t d := by
    refine fun t d hd => N.kept t d hd.1 ?_
    rintro rfl hl
    have := ((hlist₁ d).mp hl).2.1
    have := hd.2
    omega
  have hbefore : ∀ p, FreeBefore h l s c p ↔
      A.getLast?=some p ∧ 0<(read32 (h₂.image s) p).toInt := by
    intro p
    have hlast := (hv.tiled s).getLast?_iff hv.mapped hb hcells (p := p)
    have hlast₂ := (N.inHand.tiled s).getLast?_iff hm₂ hb₂ hcells₂ (p := p)
    constructor
    · rintro ⟨hp,hpc⟩
      exact ⟨hlast.mpr ⟨hp.1,hpc⟩,((hlist₂ p).mpr ⟨hp,by omega⟩).2.1⟩
    · rintro ⟨hA,hp⟩
      obtain ⟨hp₂,hpc₂⟩ := hlast₂.mp hA
      have hp8 := (N.inHand.tiled s).room p hp₂
      exact ⟨((hlist₂ p).mp ⟨hp₂,hp,by omega⟩).1,(hlast.mp hA).2⟩
  cases hprev : A.getLast?.filter fun p => 0<(read32 (h₂.image s) p).toInt with
  | some p =>
    obtain ⟨hA,hp⟩ := Option.filter_eq_some_iff.mp hprev
    have hp := of_decide_eq_true hp
    have hpB := (hbefore p).mpr ⟨hA,hp⟩
    have hpuniq : ∀ q, FreeBefore h l s c q ↔ q=p := by
      intro q
      rw [hbefore,hA]
      constructor
      · rintro ⟨hq,-⟩
        exact (Option.some.inj hq).symm
      · rintro rfl
        exact ⟨rfl,hp⟩
    obtain ⟨A',rfl⟩ := getLast?_eq_some_iff.mp hA
    rw [append_assoc] at hcells₂
    obtain ⟨h₃,l₃,hr₃,hv₃,hbins₃,hkept₃,hlist₃,e₃⟩ :=
      mergePrevious_spec N.inHand hb₂ hcells₂ hp N.pos
    obtain ⟨h₄,hr₄,hv₄,e₄⟩ := hv₃.mark (x := p) (by
      rw [e₃.shape,hshape]
      have := hpB.2
      omega)
    have himg₄ : h₄.image s=h₃.image s := funext fun o => e₄.image o id
    have hlist₄ : ∀ d, Listed h₄ l₃ s (fun _ => False) d ↔ Listed h₃ l₃ s (fun _ => False) d := by
      intro d
      rw [Listed,Listed,himg₄]
    refine ⟨h₄,l₃,?_,hv₄.hiveInv (by simp),hbins₃.trans N.bins,
      fun t d hd hne => hkept₃ t d (hkept₂ t d hd) hne,fun d => ?_,?_⟩
    · have hpb := (hv.tiled s).bounds hb (show p∈l.cells s b by simp [hcells])
      have hpc := hpB.2
      have hoff : (h.shape.address s p).off=p-b := by
        rw [hv.mapped.address (⟨hb,by omega,by omega⟩ : InBin h.shape l.bins s b p 8) (by decide)]
      have hidx : orType s (((h.shape.address s p).off+b)%2^32)=indexOf s p := by
        rw [hoff,show (p-b+b)%2^32=p by omega,orType_eq_indexOf (by omega)]
      rw [hshape] at hr₃
      simp only [Option.map_some,Hive.settleCell,cellType_indexOf (show c<2^31 by omega),hidx,
        hr₃,ok_bind,hr₄]
    · rw [hlist₄,hlist₃,hlist₂]
      simp [hpuniq]
    · refine (((e₁.trans e₂).trans e₃).trans e₄).mono (fun o ho => ?_) fun i => by simp [hpuniq]
      obtain ((ho | ho | ho) | ho | ho) | ho := ho
      · exact .inl ho
      · exact .inl ho
      · exact .inr (.inr (ho.mono fun d hd => (hlist₄ d).mpr ((hlist₃ d).mpr hd)))
      · exact .inr (.inl ⟨p,hpB,ho⟩)
      · exact .inr (.inr (ho.mono fun d hd => (hlist₄ d).mpr hd))
      · exact ho.elim
  | none =>
    have hno : ¬∃ p, FreeBefore h l s c p := by
      rintro ⟨p,hp⟩
      obtain ⟨hA,hpos⟩ := (hbefore p).mp hp
      rw [hA,Option.filter_some,decide_eq_true hpos] at hprev
      simp at hprev
    have hc₂ : l₂.isCell s c := ⟨b,hb₂,by simp [hcells₂]⟩
    obtain ⟨h₃,hr₃,hv₃,e₃,hkeep₃⟩ := N.inHand.add hc₂ N.pos rfl
    obtain ⟨h₄,hr₄,hv₄,e₄⟩ := hv₃.mark (x := c) (by
      rw [e₃.shape,hshape]
      omega)
    have himg₄ : h₄.image s=h₃.image s := funext fun o => e₄.image o id
    have hlist₄ : ∀ d, Listed h₄ l₂ s (fun _ => False) d ↔ Listed h₂ l₂ s (· = c) d ∨ d=c := by
      intro d
      by_cases hd : l₂.isCell s d
      · by_cases hdc : d=c
        · subst hdc
          simp [Listed,hd,himg₄,hkeep₃,N.pos]
        · simp [Listed,hd,himg₄,hkeep₃,hdc]
      · have hdc : d≠c := fun hdc => hd (hdc ▸ hc₂)
        simp [Listed,hd,hdc]
    refine ⟨h₄,l₂,?_,hv₄.hiveInv (by simp),N.bins,fun t d hd _ => hkept₂ t d hd,fun d => ?_,?_⟩
    · rw [hshape] at hr₃
      have hc31 : c<2^31 := by omega
      simp [Hive.settleCell,hr₃,cellType_indexOf hc31,hr₄]
    · rw [hlist₄,hlist₂]
      simp [hno]
    · refine (((e₁.trans e₂).trans e₃).trans e₄).mono (fun o ho => ?_) fun i => ?_
      · obtain ((ho | ho | ho) | ho) | ho := ho
        · exact .inl ho
        · exact .inl ho
        · exact .inr (.inr (ho.mono fun d hd => (hlist₄ d).mpr (.inl hd)))
        · exact .inr (.inr ⟨c,(hlist₄ c).mpr (.inr rfl),ho⟩)
        · exact ho.elim
      · have hno' : ∀ p, ¬FreeBefore h l s c p := not_exists.mp hno
        simp [hno']

end Free

end Odyssey.Cm
