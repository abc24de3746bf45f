import Odyssey.Cm.HiveRuns
import Odyssey.Cm.HiveWrite

/-! A hive and its primary file. `HvSyncHive` writes the blocks that are marked dirty; a block
that is not marked must be in the file already. -/
namespace Odyssey.Cm
open ByteMem FileWrites Tiling Rtl

section Unique

variable {h h' : Hive} {l l' : Layout} {s : StorageType} {c : Nat}

section
variable (hv : HiveInv h l) (hv' : HiveInv h' l') (hext : h'.shape.extent s=h.shape.extent s)
  (hbin : ∀ b∈l.bins s, h'.shape.binSize s b=h.shape.binSize s b)
  (himg : h'.image s=h.image s)
include hv hv' hext hbin himg

/-- The cells of a storage are determined by its bins and its bytes. -/
theorem HiveInv.isCell_iff : l'.isCell s c ↔ l.isCell s c := by
  have hbins : l'.bins s=l.bins s := by
    refine (hv'.mapped.cover s).unique ?_
    rw [hext]
    exact (hv.mapped.cover s).congr hbin
  have hcells : ∀ b∈l.bins s, l'.cells s b=l.cells s b := by
    intro b hb
    have ht := (hv'.tiled s).tiles b (hbins ▸ hb)
    rw [himg,hbin b hb] at ht
    exact ht.unique ((hv.tiled s).tiles b hb)
  unfold Layout.isCell
  rw [hbins]
  refine exists_congr fun b => and_congr_right fun hb => ?_
  rw [hcells b hb]

theorem HiveInv.listed_iff :
    Listed h' l' s (fun _ => False) c ↔ Listed h l s (fun _ => False) c := by
  rw [Listed,Listed,hv.isCell_iff hv' hext hbin himg,himg]

end

end Unique

structure Tracks (h : Hive) (l : Layout) (file : Mem) : Prop where
  inv : HiveInv h l
  bytes : ∀ o<h.shape.extent .stable, h.dirtyVector.bit (o/4096)=false →
    LinkBytes (Listed h l .stable fun _ => False) o ∨ file (4096+o)=h.image .stable o

/-- The block of the byte at `o` is dirty, or is the block that `HvMarkCellDirty` marks for
the cell at `m`: the one of its first byte, if the cell does not start on a block boundary. -/
def Covered (h : Hive) (m o : Nat) : Prop :=
  h.dirtyVector.bit (o/4096)=true ∨ m%4096≠0 ∧ o/4096=m/4096

section Steps

variable {h h' : Hive} {l l' : Layout} {file : Mem} {c offset size : Nat} {W D : Nat → Prop}
  {f : Nat}

/-- A step on existing bins keeps track if every byte that it writes, and every link that it
forgets, is a link afterwards or in a dirty block. -/
theorem Tracks.step (hT : Tracks h l file) (hv' : HiveInv h' l') (e : Effect h h' .stable W D)
    (hsafe : ∀ o, W o ∨ LinkBytes (Listed h l .stable fun _ => False) o →
      LinkBytes (Listed h' l' .stable fun _ => False) o ∨ h'.dirtyVector.bit (o/4096)=true) :
    Tracks h' l' file := by
  refine ⟨hv',fun o ho hclean => ?_⟩
  rw [e.shape] at ho
  have hclean₀ : h.dirtyVector.bit (o/4096)=false := by
    rw [← Bool.not_eq_true] at hclean ⊢
    exact fun hb => hclean ((e.dirty _).mpr (.inl hb))
  have hlink : ∀ {p : Prop}, W o ∨ LinkBytes (Listed h l .stable fun _ => False) o →
      LinkBytes (Listed h' l' .stable fun _ => False) o ∨ p := fun hw =>
    (hsafe o hw).imp id fun hd => absurd (hclean.symm.trans hd) (by simp)
  by_cases hw : W o
  · exact hlink (.inl hw)
  · obtain hl | heq := hT.bytes o ho hclean₀
    · exact hlink (.inr hl)
    · exact .inr (by rw [heq,e.image o hw])

/-- A step that leaves the Stable storage alone. -/
theorem Tracks.other (hT : Tracks h l file) (hv' : HiveInv h' l')
    (hext : h'.shape.extent .stable=h.shape.extent .stable)
    (hbin : ∀ b∈l.bins .stable, h'.shape.binSize .stable b=h.shape.binSize .stable b)
    (himg : h'.image .stable=h.image .stable)
    (hd : ∀ i, h'.dirtyVector.bit i=false → h.dirtyVector.bit i=false) : Tracks h' l' file := by
  refine ⟨hv',fun o ho hclean => ?_⟩
  rw [hext] at ho
  rw [himg]
  refine (hT.bytes o ho (hd _ hclean)).imp ?_ id
  exact fun hl => hl.mono fun d hd => (hT.inv.listed_iff hv' hext hbin himg).mpr hd

def AllocCovered (h : Hive) (l : Layout) (size : Nat) : Prop :=
  ∀ f, Listed h l .stable (fun _ => False) f → neededCell size≤cellSize (h.image .stable) f →
    ∀ o, f≤o → (o<f+neededCell size ∨
        neededCell size+16<cellSize (h.image .stable) f ∧ o<f+neededCell size+4) →
      Covered h f o ∨
        neededCell size+16<cellSize (h.image .stable) f ∧ Covered h (f+neededCell size) o

theorem Covered.dirty {m o : Nat} (hc : Covered h m o)
    (e : Effect h h' .stable W D) (hD : ∀ i, Marks .stable m i → D i) :
    h'.dirtyVector.bit (o/4096)=true := by
  rw [e.dirty]
  obtain hb | ⟨hm,ho⟩ := hc
  · exact .inl hb
  · exact .inr (hD _ ⟨rfl,hm,ho⟩)

theorem Tracks.fromList (hT : Tracks h l file) (hcov : AllocCovered h l size)
    (hF : FromList h l h' l' .stable f size) : Tracks h' l' file := by
  obtain ⟨hfree,hlarge,h₁,e₁,hkeep,hK⟩ := hF
  have hz := cellSize_of_pos hfree.2.1
  have hneed := neededCell_le size
  rw [← hz] at hlarge hK
  have e := e₁.trans hK.effect
  have hstill : ∀ d, Listed h l .stable (· = f) d → Listed h' l' .stable (fun _ => False) d := by
    refine fun d hd => (hK.listed d).mpr (.inl ⟨hd.1,?_,hd.2.2⟩)
    rw [hkeep d hd.1]
    exact hd.2.1
  refine hT.step hK.inv e fun o ho => ?_
  by_cases hin : f≤o ∧ (o<f+neededCell size ∨
      neededCell size+16<cellSize (h.image .stable) f ∧ o<f+neededCell size+4)
  · refine .inr ?_
    obtain hc | ⟨hcut,hc⟩ := hcov f hfree hlarge o hin.1 hin.2
    · exact hc.dirty e fun i hi => .inr (.inl hi)
    · exact hc.dirty e fun i hi => .inr (.inr ⟨hcut,hi⟩)
  · refine .inl ?_
    obtain (ho | ho) | ⟨d,hd,h1,h2⟩ := ho
    · exact ho.mono hstill
    · -- only the link of the rest is left
      exact ⟨f+neededCell size,(hK.listed _).mpr (.inr ⟨by omega,rfl⟩),by omega,by omega⟩
    · have hdf : d≠f := by
        rintro rfl
        omega
      exact ⟨d,hstill d ⟨hd.1,hd.2.1,hdf⟩,h1,h2⟩

theorem Tracks.fromBin (hT : Tracks h l file) (hr : HasRoom h .stable size)
    (hF : FromBin h l h' l' .stable f size) : Tracks h' l' file := by
  obtain ⟨rfl,h₁,e,hK⟩ := hF
  have hn := hr.binFits
  have hm := hT.inv.mapped
  have hlen := e.extent hn
  have hblocks := hn.blocks
  have hext := h.shape.extent_eq .stable
  refine ⟨hK.inv,fun o ho hclean => ?_⟩
  rw [hK.effect.shape] at ho
  have hclean₁ : h₁.dirtyVector.bit (o/4096)=false := by
    rw [← Bool.not_eq_true] at hclean ⊢
    exact fun hb => hclean ((hK.effect.dirty _).mpr (.inl hb))
  have hnew : ¬(h.dirtyVector.bit (o/4096)=true ∨ (StorageType.stable = .stable ∧
      h.shape.length .stable≤o/4096 ∧
      o/4096<h.shape.length .stable+neededBin size/4096)) := by
    rw [← e.dirty,hclean₁]
    simp
  simp only [not_or,not_and,true_implies,Bool.not_eq_true] at hnew
  have hold : o<h.shape.extent .stable := by
    by_contra hge
    omega
  rw [hK.effect.image o (by omega),e.image_old hn hm hold]
  refine (hT.bytes o hold hnew.1).imp (fun hl => hl.mono fun d hd => ?_) id
  have hlt := hT.inv.lt_extent hd.1
  refine (hK.listed d).mpr (.inl ⟨(Layout.isCell_addBin hm).mpr (.inl hd.1),?_,by omega⟩)
  rw [e.read32_old hn hm (by omega)]
  exact hd.2.1

def FreeCovered (h : Hive) (l : Layout) (c : Nat) : Prop :=
  ∀ m, (FreeBefore h l .stable c m ∨ (¬∃ p, FreeBefore h l .stable c p) ∧ m=c) →
    ∀ o, (m≤o ∧ o< m+4 ∨ c≤o ∧ o<c+4 ∨
        Listed h l .stable (fun _ => False) (c+cellSize (h.image .stable) c) ∧
          c+cellSize (h.image .stable) c+4≤o ∧ o<c+cellSize (h.image .stable) c+8) →
      Covered h m o

theorem Tracks.freed (hT : Tracks h l file) (hcov : FreeCovered h l c)
    (hF : Freed h l h' l' .stable c) : Tracks h' l' file := by
  obtain ⟨m,hm⟩ : ∃ m, FreeBefore h l .stable c m ∨ (¬∃ p, FreeBefore h l .stable c p) ∧ m=c := by
    by_cases hp : ∃ p, FreeBefore h l .stable c p
    · exact hp.imp fun _ => .inl
    · exact ⟨c,.inr ⟨hp,rfl⟩⟩
  have hmarks : ∀ i, Marks .stable m i → (∃ p, FreeBefore h l .stable c p ∧ Marks .stable p i) ∨
      (¬∃ p, FreeBefore h l .stable c p) ∧ Marks .stable c i := by
    intro i hi
    obtain hp | ⟨hno,rfl⟩ := hm
    · exact .inl ⟨m,hp,hi⟩
    · exact .inr ⟨hno,hi⟩
  refine hT.step hF.inv hF.effect fun o ho => ?_
  obtain (ho | ⟨p,hp,ho⟩ | ho) | ⟨d,hd,h1,h2⟩ := ho
  · exact .inr ((hcov m hm o (.inr (.inl ho))).dirty hF.effect hmarks)
  · refine .inr ((hcov p (.inl hp) o (.inl ho)).dirty hF.effect fun i hi => ?_)
    exact .inl ⟨p,hp,hi⟩
  · exact .inl ho
  · by_cases hnext : d=c+cellSize (h.image .stable) c
    · subst hnext
      exact .inr ((hcov m hm o (.inr (.inr ⟨hd,h1,h2⟩))).dirty hF.effect hmarks)
    · exact .inl ⟨d,(hF.listed d).mpr (.inl ⟨hd,hnext⟩),h1,h2⟩

/-- A step on the bins of the Volatile storage. -/
theorem Tracks.effect_volatile (hT : Tracks h l file) (hv' : HiveInv h' l')
    (e : Effect h h' .volatile W D) : Tracks h' l' file := by
  refine hT.other hv' (by rw [e.shape]) (fun b _ => by rw [e.shape]) (e.other .stable (by decide)).1
    fun i hi => ?_
  rw [← Bool.not_eq_true] at hi ⊢
  exact fun hb => hi ((e.dirty i).mpr (.inl hb))

/-- A new bin of the Volatile storage, and then a step on its bins. -/
theorem Tracks.extended_volatile {n : Nat} {h₁ : Hive} (hT : Tracks h l file)
    (hv' : HiveInv h' l') (e : Extended h h₁ .volatile n) (hn : BinFits h .volatile n)
    (e' : Effect h₁ h' .volatile W D) : Tracks h' l' file := by
  have hm := hT.inv.mapped
  have hext : h₁.shape.extent .stable=h.shape.extent .stable := by
    simp only [Shape.extent,Hive.shape,e.storage_other (t := .stable) (by decide)]
  have himg : h₁.image .stable=h.image .stable := by
    funext o
    by_cases ho : o<h.shape.extent .stable
    · exact e.image_old hn hm ho
    · rw [Hive.image,Hive.image,if_neg ho,if_neg (by rw [hext]; exact ho)]
  refine hT.other hv' (by rw [e'.shape,hext]) (fun b hb => ?_)
    ((e'.other .stable (by decide)).1.trans himg) fun i hi => ?_
  · rw [e'.shape,(e.binAt_old hm hb).2]
  · rw [← Bool.not_eq_true] at hi ⊢
    exact fun hb => hi ((e'.dirty i).mpr (.inl ((e.dirty i).mpr (.inl hb))))

theorem Tracks.allocated {s : StorageType} (hT : Tracks h l file) (hr : HasRoom h s size)
    (hcov : s = .stable → AllocCovered h l size)
    (hF : FromList h l h' l' s f size ∨ FromBin h l h' l' s f size) : Tracks h' l' file := by
  cases s with
  | stable =>
    obtain hF | hF := hF
    · exact hT.fromList (hcov rfl) hF
    · exact hT.fromBin hr hF
  | volatile =>
    obtain ⟨-,-,h₁,e₁,-,hK⟩ | ⟨rfl,h₁,e,hK⟩ := hF
    · exact hT.effect_volatile hK.inv (e₁.trans hK.effect)
    · exact hT.extended_volatile hK.inv e hr.binFits hK.effect

/-- A client marks a cell and then changes a byte of its body. -/
theorem Tracks.write (hT : Tracks h l file) (hc : Allocated h l .stable c)
    (ho : offset+4<cellSize (h.image .stable) c) (hcov : Covered h c (c+4+offset))
    (v : BitVec 8) :
    ∃ h₁ h', h.hvMarkCellDirty (indexOf .stable c) = .ok h₁ ∧
      h₁.writeCell (indexOf .stable c) offset v = .ok h' ∧ Tracks h' l file := by
  have hlt := hT.inv.lt_extent hc.1
  obtain ⟨h₁,hmark,hv₁,e₁⟩ := (hT.inv.inHand .stable).mark (x := c) (by omega)
  have himg₁ : h₁.image .stable=h.image .stable := funext fun o => e₁.image o id
  have hc₁ : Allocated h₁ l .stable c := ⟨hc.1,by rw [himg₁]; exact hc.2⟩
  obtain ⟨h',hwrite,hv',-,hkeep,-,e₂⟩ :=
    writeCell_spec (hv₁.hiveInv (by simp)) hc₁ (by rw [himg₁]; exact ho) v
  have e := e₁.trans e₂
  refine ⟨h₁,h',hmark,hwrite,hT.step hv' e fun o ho => ?_⟩
  obtain (ho | ho) | ho := ho
  · exact ho.elim
  · obtain rfl : o=c+4+offset := by omega
    exact .inr (hcov.dirty e fun i hi => .inl hi)
  · refine .inl (ho.mono fun d hd => ⟨hd.1,?_,id⟩)
    rw [hkeep d hd.1,himg₁]
    exact hd.2.1

/-- `HvSyncHive` writes nothing if no block is dirty. -/
theorem clean_of_find (hd : DirtyOk h) (hfind : rtlFindSetBits h.dirtyVector 1 0=BitVec.allOnes 32)
    {i : Nat} (hi : i<h.shape.length .stable) : h.dirtyVector.bit i=false := by
  have hcov := hd.covers
  have hsmall := hd.small
  have hzero : (0 : BitVec 32).toNat=0 := rfl
  obtain ⟨⟨-,hlt,-⟩,-⟩ | ⟨-,hclear⟩ := rtlFindSetBits_one h.dirtyVector 0 (by omega) (by omega)
  · have hall : (BitVec.allOnes 32).toNat=4294967295 := rfl
    rw [hfind] at hlt
    omega
  · exact hclear i (Nat.zero_le _) (by omega)

theorem HiveInv.clearDirty (hv : HiveInv h l) : HiveInv h.clearDirty l where
  mapped := hv.mapped
  tiled t := ⟨(hv.tiled t).header,(hv.tiled t).tiles,(hv.tiled t).room⟩
  lists := hv.lists
  dirty := by
    refine ⟨hv.dirty.words,hv.dirty.covers,hv.dirty.small,fun i hi => ?_⟩
    rw [← Bool.not_eq_true]
    intro hb
    have hclear := hv.dirty.clear i hi
    rw [bit_of_rtlClearAllBits hb] at hclear
    simp at hclear

theorem HiveInv.clearDirty_bit (hv : HiveInv h l) {i : Nat} (hi : i<h.shape.length .stable) :
    h.clearDirty.dirtyVector.bit i=false := by
  have hcov := hv.dirty.covers
  have hsmall := hv.dirty.small
  exact bit_rtlClearAllBits h.dirtyVector (by omega) i (by omega)

theorem Tracks.stamp (hT : Tracks h l file) (b : Mem) : Tracks (h.setBaseBlock b) l file :=
  ⟨hT.inv.setBaseBlock b,hT.bytes⟩

/-- `HvSyncHive` brings the file up to date with all that is tracked. -/
theorem Tracks.sync (hT : Tracks h l file) (time : BitVec 64) :
    ∃ r h' ws, h.hvSyncHive time (fun _ => true) = .ok (r, h', ws) ∧
      Tracks h' l (applyAll ws file) ∧
      (r=true → ∀ i<h'.shape.length .stable, h'.dirtyVector.bit i=false) := by
  have hd := hT.inv.dirty
  unfold Hive.hvSyncHive
  by_cases hfind : rtlFindSetBits h.dirtyVector 1 0=BitVec.allOnes 32
  · rw [if_pos hfind]
    exact ⟨true,h,[],rfl,hT,fun _ i hi => clean_of_find hd hfind hi⟩
  rw [if_neg hfind]
  have hT₁ : Tracks (h.stamp time) l file := hT.stamp _
  generalize h.stamp time=h₁ at hT₁
  obtain ⟨-,hrun⟩ | ⟨-,r,b,ws,hrun,hw⟩ :=
    hvpWriteHive_spec hT₁.inv.mapped hT₁.inv.dirty true fun _ => true
  · exact ⟨false,h₁,[],by rw [hrun]; rfl,hT₁,by simp⟩
  · obtain rfl := hw.result.mpr fun _ _ => rfl
    obtain ⟨rfl,rfl⟩ := hw.full rfl
    have hv₂ := hT₁.inv.setBaseBlock (Hive.endHeader (Hive.beginHeader h₁.baseBlock))
    refine ⟨true,Hive.clearDirty _,hiveWrites h₁ true,by rw [hrun]; rfl,
      ⟨hv₂.clearDirty,fun o ho _ => ?_⟩,fun _ i hi => hv₂.clearDirty_bit hi⟩
    have ho : o<h₁.shape.length .stable*4096 := ho
    rw [(applyAll_hiveWrites h₁ true file).2 o]
    by_cases hbit : h₁.dirtyVector.bit (o/4096)=true
    · rw [if_pos ⟨by omega,.inr hbit⟩]
      exact .inr rfl
    · rw [if_neg (by simp [hbit])]
      exact hT₁.bytes o ho (Bool.eq_false_of_not_eq_true hbit)

end Steps

structure Disk where
  hive : Hive
  file : Mem

/-- What happens to a hive: cells are allocated and freed, clients mark a Stable cell and store
a byte into its body, and the hive is synchronised, with no `FileWrite` failing. -/
inductive Action where
  | allocate (size : Nat) (s : StorageType)
  | free (cellIndex : Nat)
  | write (cellIndex offset : Nat) (v : BitVec 8)
  | sync (time : BitVec 64)

namespace Disk

def act (d : Disk) : Action → HiveM Disk
  | .allocate size s => do
    let (_, h) ← d.hive.hvAllocateCell .succeed size s
    return ⟨h,d.file⟩
  | .free cellIndex => do
    let h ← d.hive.hvFreeCell cellIndex
    return ⟨h,d.file⟩
  | .write cellIndex offset v => do
    let h ← d.hive.hvMarkCellDirty cellIndex
    let h ← h.writeCell cellIndex offset v
    return ⟨h,d.file⟩
  | .sync time => do
    let (_, h, ws) ← d.hive.hvSyncHive time fun _ => true
    return ⟨h,applyAll ws d.file⟩

def run (d : Disk) : List Action → HiveM Disk
  | [] => .ok d
  | a::as => do
    let d ← d.act a
    d.run as

end Disk

def Action.Legal (h : Hive) (l : Layout) : Action → Prop
  | .allocate _ _ => True
  | .free cellIndex => ∃ s c, cellIndex=indexOf s c ∧ Allocated h l s c
  | .write cellIndex offset _ => Allocated h l .stable cellIndex ∧
    offset+4<cellSize (h.image .stable) cellIndex
  | .sync _ => True

/-- An allocation leaves the storage below 2 GB, and the blocks that are written are those
that are marked. -/
def Action.Safe (h : Hive) (l : Layout) : Action → Prop
  | .allocate size s => HasRoom h s size ∧ (s = .stable → AllocCovered h l size)
  | .free cellIndex => cellType cellIndex = .stable → FreeCovered h l cellIndex
  | .write cellIndex offset _ => Covered h cellIndex (cellIndex+4+offset)
  | .sync _ => True

def Disk.Conforms (d : Disk) : List Action → Prop
  | [] => True
  | a::as => (∀ l, HiveInv d.hive l → a.Legal d.hive l ∧ a.Safe d.hive l) ∧
    ∀ d', d.act a = .ok d' → Conforms d' as

theorem Disk.act_tracks {d : Disk} {l : Layout} {a : Action} (hT : Tracks d.hive l d.file)
    (hl : a.Legal d.hive l) (hs : a.Safe d.hive l) :
    ∃ d' l', d.act a = .ok d' ∧ Tracks d'.hive l' d'.file := by
  cases a with
  | allocate size s =>
    obtain ⟨hr,hcov⟩ := hs
    obtain ⟨f,h',l',hrun,hF⟩ | ⟨hfail,-⟩ | ⟨hfail,-⟩ := hvAllocateCell_spec hT.inv .succeed hr
    · exact ⟨⟨h',d.file⟩,l',by rw [Disk.act,hrun]; rfl,hT.allocated hr hcov hF⟩
    · simp [AllocResults.succeed] at hfail
    · simp [AllocResults.succeed] at hfail
  | free cellIndex =>
    obtain ⟨s,c,rfl,hc⟩ := hl
    obtain ⟨h',l',hrun,hF⟩ := hvFreeCell_spec hT.inv hc
    refine ⟨⟨h',d.file⟩,l',by rw [Disk.act,hrun]; rfl,?_⟩
    cases s with
    | stable =>
      have := hT.inv.lt_extent hc.1
      have := hT.inv.mapped.bound .stable
      exact hT.freed (hs (cellType_indexOf (by omega))) hF
    | volatile => exact hT.effect_volatile hF.inv hF.effect
  | write cellIndex offset v =>
    obtain ⟨h₁,h',hmark,hwrite,hT'⟩ := hT.write hl.1 hl.2 hs v
    refine ⟨⟨h',d.file⟩,l,?_,hT'⟩
    have hi : indexOf .stable cellIndex=cellIndex := rfl
    rw [hi] at hmark hwrite
    rw [Disk.act,hmark,HiveM.ok_bind,hwrite]
    rfl
  | sync time =>
    obtain ⟨r,h',ws,hrun,hT',-⟩ := hT.sync time
    exact ⟨⟨h',applyAll ws d.file⟩,l,by rw [Disk.act,hrun]; rfl,hT'⟩

/-- Dirty tracking. If the primary file holds the Stable storage, then after any actions that
are legal and safe, and a successful `HvSyncHive`, the file holds the Stable storage again,
except for links of free cells. -/
theorem dirty_tracking {d : Disk} {l : Layout} (hv : HiveInv d.hive l)
    (hfile : ∀ o<d.hive.shape.extent .stable, d.file (4096+o)=d.hive.image .stable o)
    (as : List Action) (hc : d.Conforms as) (time : BitVec 64) :
    ∃ d' l', d.run as = .ok d' ∧ HiveInv d'.hive l' ∧
      ∃ r h' ws, d'.hive.hvSyncHive time (fun _ => true) = .ok (r, h', ws) ∧ HiveInv h' l' ∧
        (r=true → ∀ o<h'.shape.extent .stable,
          LinkBytes (Listed h' l' .stable fun _ => False) o ∨
            applyAll ws d'.file (4096+o)=h'.image .stable o) := by
  have hT : Tracks d.hive l d.file := ⟨hv,fun o ho _ => .inr (hfile o ho)⟩
  clear hv hfile
  induction as generalizing d l with
  | nil =>
    obtain ⟨r,h',ws,hrun,hT',hclean⟩ := hT.sync time
    refine ⟨d,l,rfl,hT.inv,r,h',ws,hrun,hT'.inv,fun hr o ho => hT'.bytes o ho (hclean hr _ ?_)⟩
    have : o<h'.shape.length .stable*4096 := ho
    omega
  | cons a as ih =>
    obtain ⟨hsafe,hrest⟩ := hc
    obtain ⟨hl,hs⟩ := hsafe l hT.inv
    obtain ⟨d₁,l₁,hact,hT₁⟩ := Disk.act_tracks hT hl hs
    obtain ⟨d',l',hrun,hrest'⟩ := ih (hrest d₁ hact) hT₁
    exact ⟨d',l',by rw [Disk.run,hact,HiveM.ok_bind,hrun],hrest'⟩

def emptyDisk : Disk := ⟨hvpCreateHive,fun _ => 0⟩

theorem dirty_tracking_written :
    ∃ d' l', emptyDisk.run [.allocate 100 .stable,.write 32 0 0xAB] = .ok d' ∧
      HiveInv d'.hive l' := by
  have hroom : HasRoom hvpCreateHive .stable 100 := by decide
  have hempty : hvpCreateHive.shape.extent .stable=0 := by
    simp [Shape.extent,Hive.shape,hvpCreateHive]
  obtain ⟨h₁,l₁,halloc,hO⟩ := hvpCreateHive_allocate hroom
  have hdirty : h₁.dirtyVector.bit 0=true := by
    obtain ⟨x,hx,hbit⟩ := HiveM.exists_of_holds
      (x := hvpCreateHive.hvAllocateCell .succeed 100 .stable) (p := fun x => x.2.dirtyVector.bit 0)
      (by decide +kernel)
    obtain rfl := Except.ok.inj (halloc.symm.trans hx)
    exact hbit
  have hlarge : 112≤cellSize (h₁.image .stable) 32 := hO.large
  have hc : emptyDisk.Conforms [.allocate 100 .stable,.write 32 0 0xAB] := by
    refine ⟨fun l hl => ⟨trivial,hroom,fun _ f hf => ?_⟩,
      fun d' hact => ⟨fun l hl => ?_,fun _ _ => trivial⟩⟩
    · have hlt := hl.lt_extent hf.1
      rw [emptyDisk,hempty] at hlt
      omega
    · rw [Disk.act,emptyDisk,halloc] at hact
      obtain rfl := Except.ok.inj hact
      refine ⟨⟨⟨?_,hO.allocated.2⟩,by simp only; omega⟩,.inl hdirty⟩
      exact (hO.inv.isCell_iff hl rfl (fun _ _ => rfl) rfl).mpr hO.allocated.1
  obtain ⟨d',l',hrun,hv',-⟩ := dirty_tracking hvpCreateHive_inv
    (fun o ho => by rw [emptyDisk,hempty] at ho; omega) _ hc 0
  exact ⟨d',l',hrun,hv'⟩

def lostWrite : List Action :=
  [.allocate 8192 .stable,.sync 0,.write 32 5000 0xAB]

/-- `HvMarkCellDirty` has marked the first block of the cell only, and the change is not
written. -/
theorem dirty_tracking_lost :
    ∃ (d : Disk) (h' : Hive) (ws : List Write), emptyDisk.run lostWrite = .ok d ∧
      d.hive.hvSyncHive 0 (fun _ => true) = .ok (true, h', ws) ∧
      (read32 (h'.image .stable) 32).toInt = -8208 ∧
      h'.image .stable 5036=0xAB ∧ applyAll ws d.file (4096+5036)=0 := by
  obtain ⟨⟨d,r,h',ws⟩,hx,hp⟩ := HiveM.exists_of_holds
    (x := do
      let d ← emptyDisk.run lostWrite
      let r ← d.hive.hvSyncHive 0 fun _ => true
      return (d, r))
    (p := fun x : Disk × Bool × Hive × List Write => decide (x.2.1=true ∧
      (read32 (x.2.2.1.image .stable) 32).toInt = -8208 ∧ x.2.2.1.image .stable 5036=0xAB ∧
        applyAll x.2.2.2 x.1.file (4096+5036)=0))
    (by decide +kernel)
  obtain ⟨d',hrun,hx⟩ := HiveM.bind_eq_ok hx
  obtain ⟨r',hsync,hx⟩ := HiveM.bind_eq_ok hx
  obtain ⟨rfl,rfl⟩ := Prod.mk.inj (Except.ok.inj hx)
  obtain ⟨rfl,hcell,hmem,hfile⟩ := of_decide_eq_true hp
  exact ⟨d',h',ws,hrun,hsync,hcell,hmem,hfile⟩

end Odyssey.Cm
