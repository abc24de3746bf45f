import Odyssey.Cm.HiveSync

/-! What a crash in the middle of `HvpWriteHive` leaves in the primary file. -/
namespace Odyssey.Cm
open ByteMem FileWrites Rtl List Hive HiveM

section Headers

variable {b : Mem}

theorem getField_beginHeader_sequence1 :
    getField (beginHeader b) .sequence1=getField b .sequence1+1 := by
  rw [beginHeader,updateCheckSum,getField_setField_of_ne (by decide),getField_setField,
    getField_setField_of_ne (by decide)]

theorem getField_beginHeader_sequence2 :
    getField (beginHeader b) .sequence2=getField b .sequence2 := by
  rw [beginHeader,updateCheckSum,getField_setField_of_ne (by decide),
    getField_setField_of_ne (by decide),getField_setField_of_ne (by decide)]

theorem getField_endHeader_sequence1 : getField (endHeader b) .sequence1=getField b .sequence1 := by
  rw [endHeader,updateCheckSum,getField_setField_of_ne (by decide),
    getField_setField_of_ne (by decide)]

section

variable (hseq : getField b .sequence1=getField b .sequence2)
include hseq

theorem beginHeader_sequence_ne :
    getField (beginHeader b) .sequence1≠getField (beginHeader b) .sequence2 := by
  rw [getField_beginHeader_sequence1,getField_beginHeader_sequence2]
  bv_omega

/-- While a hive is being written its header is not accepted. -/
theorem hvpVerifyHiveHeader_beginHeader : hvpVerifyHiveHeader (beginHeader b)=false := by
  simp [hvpVerifyHiveHeader,beginHeader_sequence_ne hseq]

theorem hvpVerifyHiveHeader_endHeader :
    hvpVerifyHiveHeader (endHeader (beginHeader b))=headerFormat b := by
  have hfmt : headerFormat (setField (beginHeader b) .sequence2
      (getField (beginHeader b) .sequence2+1))=headerFormat b := by
    rw [headerFormat_setField (by simp),beginHeader,updateCheckSum,
      headerFormat_setField (by simp),headerFormat_setField (by simp),
        headerFormat_setField (by simp)]
  have htype : getField (beginHeader b) .type=0 := by
    rw [beginHeader,updateCheckSum,getField_setField_of_ne (by decide),
      getField_setField_of_ne (by decide),getField_setField]
  rw [endHeader,hvpVerifyHiveHeader_updateCheckSum,hfmt,getField_setField_of_ne (by decide),
    getField_setField_of_ne (by decide),htype,
    getField_beginHeader_sequence2,getField_beginHeader_sequence1,hseq]
  simp

end

end Headers

def newImage (h : Hive) : Mem := fun o =>
  if o<4096 then endHeader (beginHeader h.baseBlock) o else h.image .stable (o-4096)

/-- A file that is rejected, the one before the write, or the complete new image. -/
def Consistent (h : Hive) (before after : Mem) : Prop :=
  hvpVerifyHiveHeader after=false ∨ after=before ∨
    ∀ o<4096+h.shape.extent .stable, after o=newImage h o

def InFile (h : Hive) (file : Mem) : Prop :=
  (∀ o<4096, file o=h.baseBlock o) ∧
    ∀ o<h.shape.extent .stable, file (4096+o)=h.image .stable o

/-- A synchronisation in which no call fails returns TRUE and leaves the hive in the file. -/
def Recovers (h : Hive) (file : Mem) (time : BitVec 64) : Prop :=
  ∃ h' ws, h.hvSyncHive time (fun _ => true) = .ok (true, h', ws) ∧ InFile h' (applyAll ws file)

section Recovery

variable {h : Hive} {l : Layout} {file : Mem}

theorem getField_stamp {time : BitVec 64} {f : Field} (hl : f ≠ .timeStampLow)
    (hh : f ≠ .timeStampHigh) : getField (h.stamp time).baseBlock f=getField h.baseBlock f :=
  (getField_setField_of_ne (Ne.symm hh)).trans (getField_setField_of_ne (Ne.symm hl))

theorem stamp_sequence (h : Hive) (time : BitVec 64) :
    getField (h.stamp time).baseBlock .sequence1=getField (h.stamp time).baseBlock .sequence2 ↔
      getField h.baseBlock .sequence1=getField h.baseBlock .sequence2 := by
  rw [getField_stamp (by decide) (by decide),getField_stamp (by decide) (by decide)]

/-- Whether a dirty hive recovers is up to its sequence numbers. -/
theorem recovers_iff (hv : HiveInv h l)
    (hdirty : rtlFindSetBits h.dirtyVector 1 0≠BitVec.allOnes 32)
    (hfile : ∀ o<h.shape.extent .stable, h.dirtyVector.bit (o/4096)=false →
      file (4096+o)=h.image .stable o) (time : BitVec 64) :
    Recovers h file time ↔ getField h.baseBlock .sequence1=getField h.baseBlock .sequence2 := by
  have hv₁ : HiveInv (h.stamp time) l := hv.setBaseBlock _
  unfold Recovers hvSyncHive
  rw [if_neg hdirty]
  obtain ⟨hne,hrun⟩ | ⟨heq,r,b,ws,hrun,hw⟩ :=
    hvpWriteHive_spec hv₁.mapped hv₁.dirty true fun _ => true
  · rw [ne_eq] at hne
    refine ⟨fun ⟨h',ws,hsync,_⟩ => ?_,fun heq => absurd heq hne⟩
    rw [hrun] at hsync
    cases hsync
  · rw [stamp_sequence] at heq
    obtain rfl := hw.result.mpr fun _ _ => rfl
    obtain ⟨rfl,rfl⟩ := hw.full rfl
    obtain ⟨hheader,hblock⟩ := applyAll_hiveWrites (h.stamp time) true file
    refine ⟨fun _ => heq,fun _ => ⟨_,_,by rw [hrun]; rfl,hheader,fun o ho => ?_⟩⟩
    have ho : o<h.shape.length .stable*4096 := ho
    rw [hblock]
    by_cases hbit : h.dirtyVector.bit (o/4096)=true
    · rw [if_pos ⟨show o/4096<h.shape.length .stable by omega,.inr hbit⟩]
      rfl
    · rw [if_neg fun hw => hbit (hw.2.resolve_left (by simp))]
      exact hfile o ho (Bool.eq_false_of_not_eq_true hbit)

end Recovery

section Crash

variable {h : Hive} {l : Layout} {onlyDirty : Bool} {file : Mem}

/-- A file with the first header is rejected, whichever blocks have been written. -/
theorem hvpVerifyHiveHeader_interrupted {us : List Write}
    (hseq : getField h.baseBlock .sequence1=getField h.baseBlock .sequence2)
    (hus : us <+: (blocksFrom h onlyDirty 0).map (blockWrite h)) :
    hvpVerifyHiveHeader
      (applyAll (⟨0,beginHeader h.baseBlock,4096⟩::us) file)=false := by
  rw [← hvpVerifyHiveHeader_beginHeader hseq]
  refine hvpVerifyHiveHeader_congr fun o ho => ?_
  rw [applyAll_cons,applyAll_blocks_header hus ho,Write.apply_of_covers]
  · rfl
  · exact ⟨Nat.zero_le _,by simpa using ho⟩

/-- After all calls the file is accepted if the fixed fields of the header are right. -/
theorem hvpVerifyHiveHeader_complete
    (hseq : getField h.baseBlock .sequence1=getField h.baseBlock .sequence2) :
    hvpVerifyHiveHeader (applyAll (hiveWrites h onlyDirty) file)=headerFormat h.baseBlock := by
  rw [← hvpVerifyHiveHeader_endHeader hseq]
  exact hvpVerifyHiveHeader_congr (applyAll_hiveWrites h onlyDirty file).1

/-- After all calls the file is the new image iff it held the blocks that are not written. -/
theorem complete_iff :
    (∀ o<4096+h.shape.extent .stable, applyAll (hiveWrites h onlyDirty) file o=newImage h o) ↔
      onlyDirty=false ∨ ∀ o<h.shape.extent .stable, h.dirtyVector.bit (o/4096)=false →
        file (4096+o)=h.image .stable o := by
  obtain ⟨hheader,hblock⟩ := applyAll_hiveWrites h onlyDirty file
  have hext := h.shape.extent_eq .stable
  have hnew : ∀ o, newImage h (4096+o)=h.image .stable o := fun o => by
    rw [newImage,if_neg (by omega),Nat.add_sub_cancel_left]
  constructor
  · intro hall
    cases onlyDirty with
    | false => exact .inl rfl
    | true =>
      refine .inr fun o ho hclean => ?_
      have := hall (4096+o) (by omega)
      rwa [hblock,if_neg (by simp [hclean]),hnew] at this
  · intro hcond o ho
    by_cases ho' : o<4096
    · rw [hheader o ho',newImage,if_pos ho']
    · obtain ⟨k,rfl⟩ := Nat.exists_eq_add_of_le (Nat.le_of_not_lt ho')
      rw [hblock,hnew]
      by_cases hw : onlyDirty=false ∨ h.dirtyVector.bit (k/4096)=true
      · rw [if_pos ⟨by omega,hw⟩]
      · rw [if_neg (fun hw' => hw hw'.2)]
        rw [not_or,Bool.not_eq_true] at hw
        exact hcond.resolve_left hw.1 k (by omega) hw.2

/-- Crash consistency. The file holds an earlier image, so that its sequence number is not yet
the next one. A crash of `HvpWriteHive` at any point leaves a file that is rejected, the old
one or the complete new one iff no call is made, the result is not accepted, all blocks are
written or the blocks that are not dirty are in the file already. -/
theorem crash_consistency (hv : HiveInv h l) (onlyDirty : Bool) (file : Mem)
    (hold : getField file .sequence1≠getField h.baseBlock .sequence1+1) :
    (∀ results, ∃ r h' ws, h.hvpWriteHive onlyDirty results = .ok (r, h', ws)) ∧
      ((∀ results r h' ws, h.hvpWriteHive onlyDirty results = .ok (r, h', ws) →
          ∀ vs, vs <+: ws → Consistent h file (applyAll vs file)) ↔
        getField h.baseBlock .sequence1≠getField h.baseBlock .sequence2 ∨
          headerFormat h.baseBlock=false ∨ onlyDirty=false ∨
          ∀ o<h.shape.extent .stable, h.dirtyVector.bit (o/4096)=false →
            file (4096+o)=h.image .stable o) := by
  have hspec := hvpWriteHive_spec hv.mapped hv.dirty onlyDirty
  refine ⟨fun results => ?_,fun hall => ?_,fun hcond results r h' ws hrun vs hvs => ?_⟩
  · obtain ⟨-,hrun⟩ | ⟨-,r,b,ws,hrun,-⟩ := hspec results
    · exact ⟨_,_,_,hrun⟩
    · exact ⟨_,_,_,hrun⟩
  · obtain ⟨hseq,-⟩ | ⟨hseq,r,b,ws,hrun,hw⟩ := hspec fun _ => true
    · exact .inl hseq
    obtain ⟨rfl,-⟩ := hw.full (hw.result.mpr fun _ _ => rfl)
    obtain hrej | hsame | hnew := hall _ _ _ _ hrun _ prefix_rfl
    · rw [hvpVerifyHiveHeader_complete hseq] at hrej
      exact .inr (.inl hrej)
    · -- the sequence number has changed
      have hseq' := getField_congr (applyAll_hiveWrites h onlyDirty file).1 .sequence1
      rw [hsame,getField_endHeader_sequence1,getField_beginHeader_sequence1] at hseq'
      exact absurd hseq' hold
    · exact .inr (.inr (complete_iff.mp hnew))
  · obtain ⟨-,hrun'⟩ | ⟨hseq,r',b,ws',hrun',hw⟩ := hspec results
    · obtain ⟨-,-,rfl⟩ : r=false ∧ h'=h ∧ ws=[] := by simpa [hrun'] using hrun.symm
      obtain rfl := prefix_nil.mp hvs
      exact .inr (.inl rfl)
    · obtain ⟨-,-,rfl⟩ : r=r' ∧ h'=h.setBaseBlock b ∧ ws=ws' := by
        simpa [hrun'] using hrun.symm
      obtain rfl | rfl | ⟨us,hus,rfl⟩ := hw.crash hvs
      · exact .inr (.inl rfl)
      · obtain hne | hfmt | hcond := hcond
        · exact absurd hseq hne
        · exact .inl (by rw [hvpVerifyHiveHeader_complete hseq,hfmt])
        · exact .inr (.inr (complete_iff.mpr hcond))
      · exact .inl (hvpVerifyHiveHeader_interrupted hseq hus)

end Crash

def secondWrite : List Action := [.sync 0,.write 32 0 0xAB]

/-- The first of three blocks has been changed since the file was written. -/
theorem crash_consistency_secondWrite :
    ∃ (h₁ : Hive) (d : Disk) (l : Layout),
      hvpCreateHive.hvAllocateCell .succeed 8192 .stable = .ok (32, h₁) ∧
      (⟨h₁,fun _ => 0⟩ : Disk).run secondWrite = .ok d ∧ HiveInv d.hive l ∧
      hvpVerifyHiveHeader d.file=true ∧ d.hive.shape.extent .stable=3*4096 ∧
      d.hive.dirtyVector.bit 0=true ∧ d.hive.dirtyVector.bit 1=false ∧
      d.file (4096+36)≠d.hive.image .stable 36 ∧
      ∀ results r h' ws, d.hive.hvpWriteHive true results = .ok (r, h', ws) →
        ∀ vs, vs <+: ws → Consistent d.hive d.file (applyAll vs d.file) := by
  obtain ⟨h₁,l,halloc,hO⟩ := hvpCreateHive_allocate
    (show HasRoom hvpCreateHive .stable 8192 by decide)
  obtain ⟨⟨a,⟨r,h₂,ws⟩,d⟩,hx,hp⟩ := exists_of_holds
    (x := do
      let a ← hvpCreateHive.hvAllocateCell .succeed 8192 .stable
      let x ← a.2.hvSyncHive 0 fun _ => true
      let d ← (⟨a.2,fun _ => 0⟩ : Disk).run secondWrite
      return (a, x, d))
    (p := fun x : (Nat × Hive) × (Bool × Hive × List Write) × Disk => decide
      (x.1.2.shape.extent .stable=3*4096 ∧ (range 3).all x.1.2.dirtyVector.bit ∧
      rtlFindSetBits x.1.2.dirtyVector 1 0≠BitVec.allOnes 32 ∧
      getField x.1.2.baseBlock .sequence1=getField x.1.2.baseBlock .sequence2) && decide
      ((read32 (x.2.1.2.1.image .stable) 32).toInt = -8208 ∧
      hvpVerifyHiveHeader x.2.2.file=true ∧ x.2.2.hive.shape.extent .stable=3*4096 ∧
      x.2.2.hive.dirtyVector.bit 0=true ∧ x.2.2.hive.dirtyVector.bit 1=false ∧
      x.2.2.file (4096+36)≠x.2.2.hive.image .stable 36))
    (by decide +kernel)
  obtain ⟨a',halloc',hx⟩ := bind_eq_ok hx
  obtain ⟨x',hsync,hx⟩ := bind_eq_ok hx
  obtain ⟨d',hrun,hx⟩ := bind_eq_ok hx
  cases hx
  obtain rfl := Except.ok.inj (halloc.symm.trans halloc')
  obtain ⟨hp₁,hp₂⟩ := Bool.and_eq_true_iff.mp hp
  obtain ⟨hext,hbits,hfind,hseq⟩ := of_decide_eq_true hp₁
  obtain ⟨hcell,hverify,hext',hdirty,hclean,hnew⟩ := of_decide_eq_true hp₂
  dsimp only at hext hbits hfind hseq hcell hsync hrun
  have hall : ∀ o<h₁.shape.extent .stable, h₁.dirtyVector.bit (o/4096)=false →
      (fun _ => 0 : Mem) (4096+o)=h₁.image .stable o := by
    intro o ho hbit
    rw [all_eq_true.mp hbits (o/4096) (mem_range.mpr (by omega))] at hbit
    cases hbit
  have hT : Tracks h₁ l fun _ => 0 := ⟨hO.inv,fun o ho hbit => .inr (hall o ho hbit)⟩
  obtain ⟨_,_,_,hsync',hT₂,-⟩ := hT.sync 0
  cases hsync.symm.trans hsync'
  obtain ⟨_,_,hsync',hheader,hblocks⟩ : Recovers h₁ (fun _ => 0) 0 :=
    (recovers_iff hO.inv hfind hall 0).mpr hseq
  cases hsync.symm.trans hsync'
  -- the mark and the store change the first block only
  have hc : Allocated h₂ l .stable 32 := ⟨hO.allocated.1,by omega⟩
  have hsize : cellSize (h₂.image .stable) 32=8208 := by
    rw [cellSize,hcell]
    rfl
  obtain ⟨h₃,hmark,hv₃,e₁⟩ := (hT₂.inv.inHand .stable).mark (x := 32)
    (by have := hT₂.inv.lt_extent hc.1; omega)
  have himg₃ : h₃.image .stable=h₂.image .stable := funext fun o => e₁.image o id
  obtain ⟨h₄,hwrite,hv₄,-,-,-,e₂⟩ := writeCell_spec (hv₃.hiveInv (by simp))
    (⟨hc.1,by rw [himg₃]; exact hc.2⟩ : Allocated h₃ l .stable 32)
    (show 0+4<_ by rw [himg₃]; omega) 0xAB
  have e := e₁.trans e₂
  have hmark : h₂.hvMarkCellDirty 32 = .ok h₃ := hmark
  have hwrite : h₃.writeCell 32 0 0xAB = .ok h₄ := hwrite
  have hd : (⟨h₁,fun _ => 0⟩ : Disk).run secondWrite = .ok ⟨h₄,applyAll ws fun _ => 0⟩ := by
    simp only [secondWrite,Disk.run,Disk.act,hsync,hmark,hwrite,ok_bind,pure_eq]
  cases hrun.symm.trans hd
  have hbase : h₄.baseBlock=h₂.baseBlock := e.base
  have hold : getField (applyAll ws fun _ => 0) .sequence1≠getField h₄.baseBlock .sequence1+1 := by
    rw [getField_congr hheader,hbase]
    bv_omega
  refine ⟨h₁,_,l,halloc,hrun,hv₄,hverify,hext',hdirty,hclean,hnew,
    (crash_consistency hv₄ true _ hold).2.mpr (.inr (.inr (.inr fun o ho hbit => ?_)))⟩
  have hne : o/4096≠0 := by
    intro hzero
    rw [hzero,hdirty] at hbit
    cases hbit
  rw [hblocks o (by rw [← e.shape]; exact ho),e.image o]
  rintro (h | h)
  · exact h
  · omega

/-- After a change that `HvMarkCellDirty` has not covered, the header and the first block of
the file are new, the second block is old, and the file is accepted. -/
theorem crash_consistency_mixed :
    ∃ (d : Disk) (r : Bool) (h' : Hive) (ws : List Write), emptyDisk.run lostWrite = .ok d ∧
      d.hive.hvpWriteHive true (fun _ => true) = .ok (r, h', ws) ∧
      hvpVerifyHiveHeader d.file=true ∧ hvpVerifyHiveHeader (applyAll ws d.file)=true ∧
      applyAll ws d.file 4≠d.file 4 ∧
      applyAll ws d.file (4096+5036)≠newImage d.hive (4096+5036) := by
  obtain ⟨⟨d,r,h',ws⟩,hx,hp⟩ := exists_of_holds
    (x := do
      let d ← emptyDisk.run lostWrite
      let r ← d.hive.hvpWriteHive true fun _ => true
      return (d, r))
    (p := fun x : Disk × Bool × Hive × List Write => decide (hvpVerifyHiveHeader x.1.file=true ∧
      hvpVerifyHiveHeader (applyAll x.2.2.2 x.1.file)=true ∧
      applyAll x.2.2.2 x.1.file 4≠x.1.file 4 ∧
      applyAll x.2.2.2 x.1.file (4096+5036)≠newImage x.1.hive (4096+5036)))
    (by decide +kernel)
  obtain ⟨d',hrun,hx⟩ := bind_eq_ok hx
  obtain ⟨r',hwrite,hx⟩ := bind_eq_ok hx
  obtain ⟨rfl,rfl⟩ := Prod.mk.inj (Except.ok.inj hx)
  exact ⟨d',r,h',ws,hrun,hwrite,of_decide_eq_true hp⟩

section Recovery

variable {h : Hive} {l : Layout} {file : Mem}

end Recovery

end Odyssey.Cm
