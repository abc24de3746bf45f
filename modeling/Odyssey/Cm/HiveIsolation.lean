import Odyssey.Cm.HiveFree

/-! What the cell operations do to the bytes of a storage: they write into free cells, into
their argument and into new bins only. -/
namespace Odyssey.Cm
open ByteMem Tiling HiveM

def InFree (h : Hive) (l : Layout) (s : StorageType) (o : Nat) : Prop :=
  ∃ d, Listed h l s (fun _ => False) d ∧ d≤o ∧ o<d+cellSize (h.image s) d

section Frame

variable {h h' : Hive} {l l' : Layout} {s t : StorageType} {c f o size : Nat} {W D : Nat → Prop}

theorem HiveInv.free_room (hv : HiveInv h l) (hf : Listed h l s (fun _ => False) f) :
    8≤cellSize (h.image s) f :=
  (hv.tiled s).room f hf.1

theorem HiveInv.not_inFree (hv : HiveInv h l) (hc : Allocated h l s c) (h1 : c≤o)
    (h2 : o<c+cellSize (h.image s) c) : ¬InFree h l s o := by
  rintro ⟨d,hd,h3,h4⟩
  have hne : c≠d := by
    rintro rfl
    have := hc.2
    have := hd.2.1
    omega
  have := (hv.tiled s).disjoint hv.mapped hc.1 hd.1 hne
  omega

theorem HiveInv.linkBytes_inFree (hv : HiveInv h l)
    (ho : LinkBytes (Listed h l s fun _ => False) o) : InFree h l s o := by
  obtain ⟨d,hd,h1,h2⟩ := ho
  have := hv.free_room hd
  exact ⟨d,hd,by omega,by omega⟩

theorem HiveInv.lt_extent (hv : HiveInv h l) (hc : l.isCell s c) :
    c+cellSize (h.image s) c≤h.shape.extent s ∧ 8≤cellSize (h.image s) c := by
  obtain ⟨b,hb,hcb⟩ := hc
  exact ⟨((hv.tiled s).inBin hb hcb).lt_extent hv.mapped,(hv.tiled s).room c ⟨b,hb,hcb⟩⟩

theorem Allocated.ne_nil (hc : Allocated h l s c) (hv : HiveInv h l) : indexOf s c≠hcellNil := by
  have := hv.lt_extent hc.1
  have := hv.mapped.bound s
  exact indexOf_ne_nil (by omega)

structure Unchanged (h h' : Hive) (l' : Layout) (t : StorageType) (d : Nat) : Prop where
  allocated : Allocated h' l' t d
  size : cellSize (h'.image t) d=cellSize (h.image t) d
  bytes : ∀ o, d≤o → o<d+cellSize (h.image t) d → h'.image t o=h.image t o

theorem HiveInv.unchanged (hv : HiveInv h l) (hc : Allocated h l t c) (hcell : l'.isCell t c)
    (hbytes : ∀ o, c≤o → o<c+cellSize (h.image t) c → h'.image t o=h.image t o) :
    Unchanged h h' l' t c := by
  have h8 := (hv.lt_extent hc.1).2
  have hhead : read32 (h'.image t) c=read32 (h.image t) c :=
    read32_congr fun k hk => hbytes _ (by omega) (by omega)
  exact ⟨⟨hcell,by rw [hhead]; exact hc.2⟩,by rw [cellSize,cellSize,hhead],hbytes⟩

theorem Unchanged.trans {h₁ : Hive} {l₁ : Layout} (u : Unchanged h h₁ l₁ t c)
    (u' : Unchanged h₁ h' l' t c) : Unchanged h h' l' t c where
  allocated := u'.allocated
  size := u'.size.trans u.size
  bytes o h1 h2 := (u'.bytes o h1 (by rw [u.size]; exact h2)).trans (u.bytes o h1 h2)

structure Obtained (h : Hive) (l : Layout) (h' : Hive) (l' : Layout) (s : StorageType)
    (f size : Nat) : Prop where
  inv : HiveInv h' l'
  allocated : Allocated h' l' s f
  new : ¬Allocated h l s f
  large : neededCell size≤cellSize (h'.image s) f
  zero : ∀ o, f+4≤o → o<f+neededCell size → h'.image s o=0
  extent : ∀ t, h.shape.extent t≤h'.shape.extent t
  address : ∀ t o, o<h.shape.extent t → h'.shape.address t o=h.shape.address t o
  cells : ∀ t c, l.isCell t c → l'.isCell t c
  frame : ∀ t o, o<h.shape.extent t → (t=s → ¬InFree h l s o) → h'.image t o=h.image t o

theorem FromList.obtained (hv : HiveInv h l) (hF : FromList h l h' l' s f size) :
    Obtained h l h' l' s f size := by
  obtain ⟨hfree,hlarge,h₁,e₁,hkeep,hT⟩ := hF
  have hneed := neededCell_le size
  have hz := cellSize_of_pos hfree.2.1
  have hshape := hT.effect.shape.trans e₁.shape
  have hhead := hT.header
  have hneg : (read32 (h'.image s) f).toInt<0 := by
    rw [hhead]
    split_ifs <;> omega
  refine ⟨hT.inv,⟨(hT.cells f).mpr (.inl hfree.1),hneg⟩,fun ha => ?_,?_,hT.zero,
    fun t => by rw [hshape],fun t o _ => by rw [hshape],fun t c hc => ?_,fun t o _ ho => ?_⟩
  · have := ha.2
    have := hfree.2.1
    omega
  · rw [cellSize,hhead]
    split_ifs <;> omega
  · by_cases hts : t=s
    · subst hts
      exact (hT.cells c).mpr (.inl hc)
    · simpa [Layout.isCell,hT.bins,hT.other t hts] using hc
  · by_cases hts : t=s
    · subst hts
      have ho := ho rfl
      rw [hT.effect.image o fun hw => ho ⟨f,hfree,?_⟩,e₁.image o fun hw => ho ?_]
      · exact hv.linkBytes_inFree (hw.mono fun d hd => ⟨hd.1,hd.2.1,id⟩)
      · omega
    · rw [(hT.effect.other t hts).1,(e₁.other t hts).1]

theorem Extended.address_old {n : Nat} (e : Extended h h' s n) (ho : o<h.shape.extent t) :
    h'.shape.address t o=h.shape.address t o := by
  have : o<h.shape.length t*4096 := ho
  rw [Shape.address,Shape.address,e.blockList_old (by omega)]

theorem FromBin.obtained (hv : HiveInv h l) (hr : HasRoom h s size)
    (hF : FromBin h l h' l' s f size) : Obtained h l h' l' s f size := by
  obtain ⟨rfl,h₁,e,hT⟩ := hF
  have hn := hr.binFits
  have hneed := neededCell_le size
  have hnb : neededCell size+32≤neededBin size := by
    unfold neededBin
    omega
  have hshape := hT.effect.shape
  have hhead := hT.header
  have hneg : (read32 (h'.image s) (h.shape.extent s+32)).toInt<0 := by
    rw [hhead]
    split_ifs <;> omega
  refine ⟨hT.inv,⟨(hT.cells _).mpr (.inl ((Layout.isCell_addBin hv.mapped).mpr
    (.inr ⟨rfl,rfl⟩))),hneg⟩,fun ha => ?_,?_,hT.zero,fun t => ?_,fun t o ho => ?_,
    fun t c hc => ?_,fun t o ho _ => ?_⟩
  · have := (hv.lt_extent ha.1).1
    omega
  · rw [cellSize,hhead]
    split_ifs <;> omega
  · rw [hshape]
    by_cases hts : t=s
    · subst hts
      rw [e.extent hn]
      omega
    · exact le_of_eq (by simp only [Shape.extent,Hive.shape,e.storage_other hts])
  · rw [hshape,e.address_old ho]
  · have hc' := (Layout.isCell_addBin (s := s) hv.mapped).mpr (.inl hc)
    by_cases hts : t=s
    · subst hts
      exact (hT.cells c).mpr (.inl hc')
    · simpa [Layout.isCell,hT.bins,hT.other t hts] using hc'
  · by_cases hts : t=s
    · subst hts
      rw [hT.effect.image o (fun hw => by omega),e.image_old hn hv.mapped ho]
    · rw [(hT.effect.other t hts).1,e.image_old hn hv.mapped ho]

theorem Obtained.unchanged (hO : Obtained h l h' l' s f size) (hv : HiveInv h l)
    (hc : Allocated h l t c) : Unchanged h h' l' t c := by
  have hlt := (hv.lt_extent hc.1).1
  refine hv.unchanged hc (hO.cells t c hc.1) fun o h1 h2 => hO.frame t o (by omega) ?_
  rintro rfl
  exact hv.not_inFree hc h1 h2

/-- A write into the body of an allocated cell keeps the invariant. -/
theorem HiveInv.writeBody (hv : HiveInv h l) (hc : Allocated h l s c)
    (e : Effect h h' s W D) (hst : h'.storage s=h.storage s) (hd : DirtyOk h')
    (hW : ∀ o, W o → c+4≤o ∧ o<c+cellSize (h.image s) c) :
    HiveInv h' l ∧ (∀ d, l.isCell s d → read32 (h'.image s) d=read32 (h.image s) d) := by
  obtain ⟨b,hb,hcb⟩ := hc.1
  obtain ⟨hb32,h8,hend⟩ := (hv.tiled s).bounds hb hcb
  have hkeep : ∀ d, l.isCell s d → read32 (h'.image s) d=read32 (h.image s) d := by
    intro d hdc
    refine e.read32 fun k hk hw => ?_
    have h1 := hW _ hw
    by_cases hdcc : d=c
    · omega
    · have := (hv.tiled s).disjoint hv.mapped hdc hc.1 hdcc
      omega
  have hsz : ∀ d∈l.cells s b, cellSize (h'.image s) d=cellSize (h.image s) d := fun d hd => by
    rw [cellSize,cellSize,hkeep d ⟨b,hb,hd⟩]
  obtain ⟨hv',-⟩ : InHand h' (l.setCells s b (l.cells s b)) s (fun _ => False) ∧
      ∀ d, Listed h' (l.setCells s b (l.cells s b)) s (fun _ => False) d ↔
        Listed h l s (fun _ => False) d := by
    refine (hv.inHand s).rewrite e hst hd hb (((hv.tiled s).tiles b hb).congr hsz)
      (fun d hd => ?_) (fun o ho => ?_) (fun i d hdf _ o h1 h2 hw => ?_) (by simp) (by simp)
      fun i d => ?_
    · rw [hsz d hd]
      exact (hv.tiled s).room d ⟨b,hb,hd⟩
    · have := hW o ho
      omega
    · have h3 := hW o hw
      refine hv.not_inFree hc (by omega) h3.2 ⟨d,⟨hdf.1,hdf.2.1,id⟩,by omega,?_⟩
      have := (hv.tiled s).room d hdf.1
      omega
    · by_cases hdb : d∈l.cells s b
      · rw [hkeep d ⟨b,hb,hdb⟩]
      · simp [hdb]
  rw [Layout.setCells_self] at hv'
  exact ⟨hv'.hiveInv (by simp),hkeep⟩

/-- Such a write changes no other cell. -/
theorem HiveInv.writeBody_unchanged {d : Nat} (hv : HiveInv h l)
    (hc : Allocated h l s c) (e : Effect h h' s W D)
    (hW : ∀ o, W o → c+4≤o ∧ o<c+cellSize (h.image s) c) (hd : Allocated h l t d)
    (hne : t=s → d≠c) : Unchanged h h' l t d := by
  refine hv.unchanged hd hd.1 fun o h1 h2 => ?_
  by_cases hts : t=s
  · subst hts
    have := (hv.tiled t).disjoint hv.mapped hd.1 hc.1 (hne rfl)
    exact e.image o fun hw => by have := hW o hw; omega
  · rw [(e.other t hts).1]

theorem Freed.unchanged {d : Nat} (hF : Freed h l h' l' s c) (hv : HiveInv h l)
    (hc : Allocated h l s c) (hd : Allocated h l t d) (hne : t=s → d≠c) :
    Unchanged h h' l' t d := by
  refine hv.unchanged hd (hF.kept t d hd hne) fun o h1 h2 => ?_
  by_cases hts : t=s
  · subst hts
    have hfree := hv.not_inFree hd h1 h2
    have hdc := (hv.tiled t).disjoint hv.mapped hd.1 hc.1 (hne rfl)
    have hc8 := (hv.tiled t).room c hc.1
    refine hF.effect.image o fun hw => ?_
    obtain hw | ⟨p,hp,hw⟩ | ⟨e,he,hw⟩ := hw
    · omega
    · have := hv.free_room hp.1
      exact hfree ⟨p,hp.1,by omega,by omega⟩
    · obtain ⟨he,-⟩ | ⟨rfl,-⟩ := (hF.listed e).mp he
      · exact hfree (hv.linkBytes_inFree ⟨e,he,hw⟩)
      · omega
  · rw [(hF.effect.other t hts).1]

end Frame

section Write

variable {h : Hive} {l : Layout} {s : StorageType} {c offset : Nat}

/-- A client may change every byte of the body of an allocated cell. -/
theorem writeCell_spec (hv : HiveInv h l) (hc : Allocated h l s c)
    (ho : offset+4<cellSize (h.image s) c) (v : BitVec 8) :
    ∃ h', h.writeCell (indexOf s c) offset v = .ok h' ∧ HiveInv h' l ∧ Allocated h' l s c ∧
      (∀ d, l.isCell s d → read32 (h'.image s) d=read32 (h.image s) d) ∧
      h'.image s=fill (h.image s) (c+4+offset) 1 v ∧
      Effect h h' s (fun o => c+4+offset≤o ∧ o<c+4+offset+1) (fun _ => False) := by
  have hm := hv.mapped
  obtain ⟨b,hb,hcb⟩ := hc.1
  obtain ⟨hb32,h8,hend⟩ := (hv.tiled s).bounds hb hcb
  have hcell := (hv.tiled s).inBin hb hcb
  have hi : InBin h.shape l.bins s b (c+4+offset) 1 := ⟨hb,by omega,by omega⟩
  have hadd : ((h.shape.address s c).add 4).add offset=h.shape.address s (c+4+offset) := by
    rw [hm.address_add hcell (by omega),
      hm.address_add (⟨hb,by omega,by omega⟩ :
        InBin h.shape l.bins s b (c+4) (cellSize (h.image s) c-4)) (by omega)]
  have hrun := hm.fillMemory hi Nat.one_pos v
  have e := Effect.fillAt hm hi Nat.one_pos v
  have himg := hm.image_fillAt hi Nat.one_pos v
  have hst : (h.fillAt s (c+4+offset) 1 v).storage s=h.storage s := rfl
  generalize h.fillAt s (c+4+offset) 1 v=h' at hrun e himg hst
  obtain ⟨hv',hkeep⟩ := hv.writeBody hc e hst (e.dirtyOk hv.dirty (by simp)) fun o ho => by omega
  refine ⟨h',?_,hv',⟨hc.1,?_⟩,hkeep,himg,e⟩
  · rw [Hive.writeCell,Hive.hvGetCell,hm.hvpGetCellHeader hcell (by omega),ok_bind,
      pure_eq,ok_bind,hadd,hrun]
  · rw [hkeep c hc.1]
    exact hc.2

end Write

section Reallocate

variable {h : Hive} {l : Layout} {s : StorageType} {c size : Nat}

/-- `HvAllocateCell`, without the way in which the cell is found. -/
theorem hvAllocateCell_obtained (hv : HiveInv h l) (alloc : AllocResults) (hr : HasRoom h s size) :
    (∃ f h' l', h.hvAllocateCell alloc size s = .ok (indexOf s f, h') ∧
        Obtained h l h' l' s f size) ∨
      (alloc.bin=false ∨ alloc.blockList=false) ∧
        h.hvAllocateCell alloc size s = .ok (hcellNil, h) ∨
      alloc.bitmap=false ∧ h.hvAllocateCell alloc size s = .error .bounds := by
  obtain ⟨f,h',l',hrun,hF | hF⟩ | hnil | herr := hvAllocateCell_spec hv alloc hr
  · exact .inl ⟨f,h',l',hrun,hF.obtained hv⟩
  · exact .inl ⟨f,h',l',hrun,hF.obtained hv hr⟩
  · exact .inr (.inl hnil)
  · exact .inr (.inr herr)

structure Moved (h : Hive) (l : Layout) (h' : Hive) (l' : Layout) (s : StorageType)
    (c f size : Nat) : Prop where
  inv : HiveInv h' l'
  allocated : Allocated h' l' s f
  large : size+4≤cellSize (h'.image s) f
  body : ∀ k, k+4<cellSize (h.image s) c → h'.image s (f+4+k)=h.image s (c+4+k)
  unchanged : ∀ t d, Allocated h l t d → (t=s → d≠c) → Unchanged h h' l' t d ∧ (t=s → d≠f)

theorem hvGetCellSize_spec (hv : HiveInv h l) (hc : Allocated h l s c) :
    h.hvpGetCellHeader (indexOf s c) = .ok (h.shape.address s c) ∧
      h.hvGetCellSize (h.shape.address s c) = .ok (cellSize (h.image s) c-4 : Int) := by
  obtain ⟨⟨b,hb,hcb⟩,hneg⟩ := hc
  have hcell := (hv.tiled s).inBin hb hcb
  obtain ⟨hb32,h8,hend⟩ := (hv.tiled s).bounds hb hcb
  have hbound := hv.mapped.bound s
  have hext := hcell.lt_extent hv.mapped
  refine ⟨hv.mapped.hvpGetCellHeader hcell (by omega),?_⟩
  rw [Hive.hvGetCellSize,hv.mapped.load ⟨hb,by omega,by omega⟩,
    ok_bind]
  have hsize : ((read32 (h.image s) c).toInt.natAbs : Int)=cellSize (h.image s) c := rfl
  generalize read32 (h.image s) c=w at *
  have : (-w-4).toInt=cellSize (h.image s) c-4 := by
    rw [BitVec.toInt_sub,BitVec.toInt_neg_of_ne_intMin]
    · have : (4 : BitVec 32).toInt=4 := rfl
      rw [Int.bmod_eq_of_le] <;> omega
    · rintro rfl
      have : (BitVec.intMin 32).toInt = -2147483648 := rfl
      omega
  rw [this]
  rfl

/-- The body of the old cell is copied into the new one, and the old cell is freed. -/
theorem Obtained.moved {h₁ : Hive} {l₁ : Layout} {f : Nat} (hO : Obtained h l h₁ l₁ s f size)
    (hv : HiveInv h l) (hc : Allocated h l s c) (hlt : cellSize (h.image s) c<size+4) :
    ∃ h₂ h' l', h₁.copyMemory ((h₁.shape.address s f).add 4) ((h.shape.address s c).add 4)
        (cellSize (h.image s) c-4) = .ok h₂ ∧
      h₂.hvFreeCell (indexOf s c) = .ok h' ∧ Moved h l h' l' s c f size := by
  have hv₁ := hO.inv
  have hm₁ := hv₁.mapped
  have hU := hO.unchanged hv hc
  have hne : f≠c := fun hfc => hO.new (hfc ▸ hc)
  obtain ⟨hext,h8⟩ := hv.lt_extent hc.1
  have hlarge := hO.large
  have hneed := neededCell_le size
  obtain ⟨b,hb,hfb⟩ := hO.allocated.1
  obtain ⟨d,hd,hcd⟩ := hU.allocated.1
  have hfb' := (hv₁.tiled s).bounds hb hfb
  have hcd' := (hv₁.tiled s).bounds hd hcd
  rw [hU.size] at hcd'
  have hi : InBin h₁.shape l₁.bins s b (f+4) (cellSize (h.image s) c-4) :=
    ⟨hb,by omega,by omega⟩
  have hsrc : InBin h₁.shape l₁.bins s d (c+4) (cellSize (h.image s) c-4) :=
    ⟨hd,by omega,by omega⟩
  have hdst : (h₁.shape.address s f).add 4=h₁.shape.address s (f+4) :=
    hm₁.address_add (⟨hb,by omega,by omega⟩ : InBin h₁.shape l₁.bins s b f 8) (by decide)
  have hold : (h.shape.address s c).add 4=h₁.shape.address s (c+4) := by
    rw [← hO.address s c (by omega)]
    exact hm₁.address_add (⟨hd,by omega,by omega⟩ : InBin h₁.shape l₁.bins s d c 8) (by decide)
  have hpos : 0<cellSize (h.image s) c-4 := by omega
  have hrun := hm₁.copyMemory hi hsrc hpos
  have e := Effect.copyAt hm₁ hi hsrc hpos
  have himg := hm₁.image_copyAt hi hsrc hpos
  have hst : (h₁.copyAt s (f+4) (c+4) (cellSize (h.image s) c-4)).storage s=h₁.storage s := rfl
  generalize h₁.copyAt s (f+4) (c+4) (cellSize (h.image s) c-4)=h₂ at hrun e himg hst
  have hW : ∀ o, f+4≤o ∧ o<f+4+(cellSize (h.image s) c-4) →
      f+4≤o ∧ o<f+cellSize (h₁.image s) f := fun o ho => by omega
  obtain ⟨hv₂,hkeep⟩ := hv₁.writeBody hO.allocated e hst (e.dirtyOk hv₁.dirty (by simp)) hW
  have hU₂ : ∀ t x, Allocated h₁ l₁ t x → (t=s → x≠f) → Unchanged h₁ h₂ l₁ t x :=
    fun t x hx hxf => hv₁.writeBody_unchanged hO.allocated e hW hx hxf
  have hc₂ := (hU₂ s c hU.allocated fun _ => hne.symm).allocated
  have hf₂ : Allocated h₂ l₁ s f :=
    ⟨⟨b,hb,hfb⟩,by rw [hkeep f ⟨b,hb,hfb⟩]; exact hO.allocated.2⟩
  obtain ⟨h',l',hfree,hF⟩ := hvFreeCell_spec hv₂ hc₂
  have hUf := hF.unchanged hv₂ hc₂ hf₂ fun _ => hne
  have hsize₂ : cellSize (h₂.image s) f=cellSize (h₁.image s) f := by
    rw [cellSize,cellSize,hkeep f ⟨b,hb,hfb⟩]
  refine ⟨h₂,h',l',by rw [hdst,hold,hrun],hfree,hF.inv,hUf.allocated,?_,fun k hk => ?_,
    fun t x hx hxc => ?_⟩
  · rw [hUf.size]
    omega
  · rw [hUf.bytes _ (by omega) (by omega),himg,copy_of_mem _ _ (by omega) (by omega),
      Nat.add_sub_cancel_left,hU.bytes _ (by omega) (by omega)]
  · have hxf : t=s → x≠f := by
      rintro rfl rfl
      exact hO.new hx
    have h1 := hO.unchanged hv hx
    have h2 := hU₂ t x h1.allocated hxf
    exact ⟨(h1.trans h2).trans (hF.unchanged hv₂ hc₂ h2.allocated hxc),hxf⟩

theorem hvReallocateCell_spec (hv : HiveInv h l) (hc : Allocated h l s c) (alloc : AllocResults)
    (hr : cellSize (h.image s) c<size+4 → HasRoom h s size) :
    size+4≤cellSize (h.image s) c ∧
        h.hvReallocateCell alloc (indexOf s c) size = .ok (indexOf s c, h) ∨
      (∃ f h' l', h.hvReallocateCell alloc (indexOf s c) size = .ok (indexOf s f, h') ∧
        Moved h l h' l' s c f size) ∨
      (alloc.bin=false ∨ alloc.blockList=false) ∧
        h.hvReallocateCell alloc (indexOf s c) size = .ok (hcellNil, h) ∨
      alloc.bitmap=false ∧ h.hvReallocateCell alloc (indexOf s c) size = .error .bounds := by
  obtain ⟨hhead,hsize⟩ := hvGetCellSize_spec hv hc
  obtain ⟨hext,h8⟩ := hv.lt_extent hc.1
  have hbound := hv.mapped.bound s
  have hn : (cellSize (h.image s) c-4 : Int).toNat=cellSize (h.image s) c-4 := by omega
  unfold Hive.hvReallocateCell
  rw [hhead,ok_bind,hsize,ok_bind,if_neg (by omega),hn,cellType_indexOf (show c<2^31 by omega)]
  by_cases hle : size+4≤cellSize (h.image s) c
  · rw [if_neg (by omega)]
    exact .inl ⟨hle,rfl⟩
  rw [if_pos (by omega)]
  obtain ⟨f,h₁,l₁,hrun,hO⟩ | ⟨hfail,hrun⟩ | ⟨hfail,hrun⟩ :=
    hvAllocateCell_obtained hv alloc (hr (by omega))
  · obtain ⟨h₂,h',l',hcopy,hfree,hM⟩ := hO.moved hv hc (by omega)
    obtain ⟨b,hb,hfb⟩ := hO.allocated.1
    have hcell := (hO.inv.tiled s).inBin hb hfb
    have hf8 := (hO.inv.lt_extent hO.allocated.1).2
    have hnew := hO.inv.mapped.hvpGetCellHeader hcell (by omega)
    refine .inr (.inl ⟨f,h',l',?_,hM⟩)
    rw [hrun,ok_bind]
    dsimp only
    rw [if_neg (hO.allocated.ne_nil hO.inv),hnew,ok_bind,hcopy,ok_bind,hfree]
    rfl
  · refine .inr (.inr (.inl ⟨hfail,?_⟩))
    rw [hrun,ok_bind]
    exact if_pos rfl
  · refine .inr (.inr (.inr ⟨hfail,?_⟩))
    rw [hrun]
    rfl

end Reallocate

end Odyssey.Cm
