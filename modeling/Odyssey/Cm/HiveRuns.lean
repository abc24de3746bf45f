import Odyssey.Cm.HiveIsolation

/-! Runs of cell operations on a hive. -/
namespace Odyssey.Cm
open ByteMem Tiling Rtl AllocResults Hive

/-- What clients do: calls, in which every call of `Allocate` succeeds, and stores into the
bodies of cells. -/
inductive Call where
  | allocate (size : Nat) (s : StorageType)
  | reallocate (cellIndex size : Nat)
  | free (cellIndex : Nat)
  | write (cellIndex offset : Nat) (v : BitVec 8)

def Hive.call (h : Hive) : Call → HiveM Hive
  | .allocate size s => do
    let (_, h) ← h.hvAllocateCell .succeed size s
    return h
  | .reallocate cellIndex size => do
    let (_, h) ← h.hvReallocateCell .succeed cellIndex size
    return h
  | .free cellIndex => h.hvFreeCell cellIndex
  | .write cellIndex offset v => h.writeCell cellIndex offset v

def Hive.calls (h : Hive) : List Call → HiveM Hive
  | [] => .ok h
  | c::cs => do
    let h ← h.call c
    h.calls cs

def Hive.Sound (h : Hive) : Prop := ∃ l, HiveInv h l

def Hive.IsAllocated (h : Hive) (cellIndex offset : Nat) : Prop :=
  ∃ l s c, HiveInv h l ∧ Allocated h l s c ∧ cellIndex=indexOf s c ∧
    offset+4<cellSize (h.image s) c

def Call.Legal (h : Hive) : Call → Prop
  | .allocate _ _ => True
  | .reallocate cellIndex _ => h.IsAllocated cellIndex 0
  | .free cellIndex => h.IsAllocated cellIndex 0
  | .write cellIndex offset _ => h.IsAllocated cellIndex offset

def Call.Fits (h : Hive) : Call → Prop
  | .allocate size s => HasRoom h s size
  | .reallocate cellIndex size =>
    cellSize (h.image (cellType cellIndex)) (cellIndex%2^31)<size+4 →
      HasRoom h (cellType cellIndex) size
  | .free _ => True
  | .write _ _ _ => True

def Conforms (h : Hive) : List Call → Prop
  | [] => True
  | c::cs => c.Legal h ∧ c.Fits h ∧ ∀ h', h.call c = .ok h' → Conforms h' cs

theorem Hive.call_sound {h : Hive} {c : Call} (hv : h.Sound) (hl : c.Legal h) (hf : c.Fits h) :
    ∃ h', h.call c = .ok h' ∧ h'.Sound := by
  cases c with
  | allocate size s =>
    obtain ⟨l,hv⟩ := hv
    obtain ⟨f,h',l',hrun,hO⟩ | ⟨hfail,-⟩ | ⟨hfail,-⟩ := hvAllocateCell_obtained hv .succeed hf
    · exact ⟨h',by rw [call,hrun]; rfl,l',hO.inv⟩
    · simp [succeed] at hfail
    · simp [succeed] at hfail
  | reallocate cellIndex size =>
    obtain ⟨l,s,c,hv,hc,rfl,-⟩ := hl
    have hext := hv.lt_extent hc.1
    have hbound := hv.mapped.bound s
    have hc31 : c<2^31 := by omega
    rw [Call.Fits,cellType_indexOf hc31,indexOf_mod hc31] at hf
    obtain ⟨-,hrun⟩ | ⟨f,h',l',hrun,hM⟩ | ⟨hfail,-⟩ | ⟨hfail,-⟩ :=
      hvReallocateCell_spec hv hc .succeed hf
    · exact ⟨h,by rw [call,hrun]; rfl,l,hv⟩
    · exact ⟨h',by rw [call,hrun]; rfl,l',hM.inv⟩
    · simp [succeed] at hfail
    · simp [succeed] at hfail
  | free cellIndex =>
    obtain ⟨l,s,c,hv,hc,rfl,-⟩ := hl
    obtain ⟨h',l',hrun,hF⟩ := hvFreeCell_spec hv hc
    exact ⟨h',hrun,l',hF.inv⟩
  | write cellIndex offset v =>
    obtain ⟨l,s,c,hv,hc,rfl,ho⟩ := hl
    obtain ⟨h',hrun,hv',-⟩ := writeCell_spec hv hc ho v
    exact ⟨h',hrun,l,hv'⟩

/-- Starting from a hive that satisfies the allocator invariant, every sequence of legal
calls that leave the storages below 2 GB runs without a fault and ends in such a hive. -/
theorem allocator_run_sound {h : Hive} (hv : h.Sound) (cs : List Call) (hc : Conforms h cs) :
    ∃ h', h.calls cs = .ok h' ∧ h'.Sound := by
  induction cs generalizing h with
  | nil => exact ⟨h,rfl,hv⟩
  | cons c cs ih =>
    obtain ⟨hl,hf,hrest⟩ := hc
    obtain ⟨h₁,hrun,hv₁⟩ := call_sound hv hl hf
    obtain ⟨h',hruns,hv'⟩ := ih hv₁ (hrest h₁ hrun)
    exact ⟨h',by rw [calls,hrun,HiveM.ok_bind,hruns],hv'⟩

def emptyLayout : Layout := ⟨fun _ => [],fun _ _ => []⟩

theorem hvpCreateHive_inv : HiveInv hvpCreateHive emptyLayout where
  mapped := by
    refine ⟨fun s => ?_,?_,?_,?_,?_,fun s => ?_⟩
    all_goals simp [emptyLayout,Tiles,Shape.extent,shape,hvpCreateHive]
  tiled t := by
    refine ⟨?_,?_,?_⟩
    all_goals simp [emptyLayout,Layout.isCell]
  lists t i _ := by
    refine ⟨[],rfl,List.nodup_nil,fun c => ?_⟩
    simp [FreeCell,Layout.isCell,emptyLayout]
  dirty := by
    refine ⟨rfl,Nat.zero_le _,by decide,fun i _ => ?_⟩
    simp [hvpCreateHive,rtlInitializeBitMap,Bitmap.bit,wordsBit]

/-- The first cell of an empty hive is the first one of a new bin. -/
theorem hvpCreateHive_allocate {size : Nat} {s : StorageType} (hr : HasRoom hvpCreateHive s size) :
    ∃ h l, hvpCreateHive.hvAllocateCell .succeed size s = .ok (indexOf s 32, h) ∧
      Obtained hvpCreateHive emptyLayout h l s 32 size := by
  obtain ⟨f,h,l,hrun,hF | hF⟩ | ⟨hfail,-⟩ | ⟨hfail,-⟩ :=
    hvAllocateCell_spec hvpCreateHive_inv .succeed hr
  · obtain ⟨b,hb,-⟩ := hF.free.1
    simp [emptyLayout] at hb
  · have hempty : hvpCreateHive.shape.extent s=0 := by
      simp [Shape.extent,shape,hvpCreateHive]
    obtain rfl : f=32 := by rw [hF.start,hempty]
    exact ⟨h,l,hrun,hF.obtained hvpCreateHive_inv hr⟩
  · simp [succeed] at hfail
  · simp [succeed] at hfail

theorem allocator_run_sound_freed :
    ∃ h', hvpCreateHive.calls [.allocate 100 .stable,.free (indexOf .stable 32)] = .ok h' ∧
      h'.Sound := by
  have hroom : HasRoom hvpCreateHive .stable 100 := by decide
  refine allocator_run_sound ⟨emptyLayout,hvpCreateHive_inv⟩ _
    ⟨trivial,hroom,fun h' hrun => ⟨?_,trivial,fun _ _ => trivial⟩⟩
  obtain ⟨h,l,halloc,hO⟩ := hvpCreateHive_allocate hroom
  rw [call,halloc] at hrun
  obtain rfl := Except.ok.inj hrun
  have h8 := (hO.inv.lt_extent hO.allocated.1).2
  exact ⟨l,.stable,32,hO.inv,hO.allocated,rfl,by omega⟩

/-- After a request for 2 GB, which `NtSetValueKey` lets through, the rest of the new bin has an
index with the type bit and is put into the lists of the volatile storage. A size for which
`ROUND_UP(Size + sizeof(HCELL), 16)` wraps around to 0 makes `HvAllocateCell` clear memory far
behind the bin it has added. -/
theorem allocator_run_wraps :
    hvpCreateHive.Sound ∧
      hvpCreateHive.calls [.allocate 0x80000000 .stable,.allocate 100 .volatile] =
        .error .assertion ∧
      hvpCreateHive.calls [.allocate 0xFFFFFFF0 .stable] = .error .bounds :=
  ⟨⟨emptyLayout,hvpCreateHive_inv⟩,HiveM.fault_eq_some.mp (by decide +kernel),
    HiveM.fault_eq_some.mp (by decide +kernel)⟩

/-- Cell isolation. No call changes an allocated cell other than its argument; a cell that
`HvAllocateCell` returns is disjoint from all allocated cells, has room for the request, and
the bytes up to the rounded size of the request are zero; `HvReallocateCell` keeps the old
body, and neither changes anything when it returns NIL. -/
theorem cell_isolation {h : Hive} {l : Layout} (hv : HiveInv h l) (alloc : AllocResults)
    (hb : alloc.bitmap=true) :
    (∀ size s, HasRoom h s size → ∃ i h', h.hvAllocateCell alloc size s = .ok (i, h') ∧
      (i=hcellNil ∧ h'=h ∨ ∃ f l', i=indexOf s f ∧ i≠hcellNil ∧ HiveInv h' l' ∧
        Allocated h' l' s f ∧ size+4≤cellSize (h'.image s) f ∧
        (∀ o, f+4≤o → o<f+neededCell size → h'.image s o=0) ∧
        (∀ t d, Allocated h l t d → Unchanged h h' l' t d) ∧
        ∀ d, Allocated h l s d →
          d+cellSize (h.image s) d≤f ∨ f+cellSize (h'.image s) f≤d)) ∧
    (∀ s c, Allocated h l s c → ∃ h' l', h.hvFreeCell (indexOf s c) = .ok h' ∧ HiveInv h' l' ∧
      ∀ t d, Allocated h l t d → (t=s → d≠c) → Unchanged h h' l' t d) ∧
    ∀ s c size, Allocated h l s c → (cellSize (h.image s) c<size+4 → HasRoom h s size) →
      ∃ i h', h.hvReallocateCell alloc (indexOf s c) size = .ok (i, h') ∧
        (i=hcellNil ∧ h'=h ∨ ∃ f l', i=indexOf s f ∧ i≠hcellNil ∧ HiveInv h' l' ∧
          Allocated h' l' s f ∧ size+4≤cellSize (h'.image s) f ∧
          (∀ k<size, k+4<cellSize (h.image s) c →
            h'.image s (f+4+k)=h.image s (c+4+k)) ∧
          ∀ t d, Allocated h l t d → (t=s → d≠c) → Unchanged h h' l' t d) := by
  refine ⟨fun size s hr => ?_,fun s c hc => ?_,fun s c size hc hr => ?_⟩
  · obtain ⟨f,h',l',hrun,hO⟩ | ⟨-,hrun⟩ | ⟨hfail,-⟩ := hvAllocateCell_obtained hv alloc hr
    · have hlarge := hO.large
      have hneed := neededCell_le size
      refine ⟨_,h',hrun,.inr ⟨f,l',rfl,hO.allocated.ne_nil hO.inv,hO.inv,hO.allocated,
        by omega,hO.zero,fun t d hd => hO.unchanged hv hd,fun d hd => ?_⟩⟩
      have hU := hO.unchanged hv hd
      have hdf : d≠f := fun hdf => hO.new (hdf ▸ hd)
      rw [← hU.size]
      exact (hO.inv.tiled s).disjoint hO.inv.mapped hU.allocated.1 hO.allocated.1 hdf
    · exact ⟨_,h,hrun,.inl ⟨rfl,rfl⟩⟩
    · simp [hb] at hfail
  · obtain ⟨h',l',hrun,hF⟩ := hvFreeCell_spec hv hc
    exact ⟨h',l',hrun,hF.inv,fun t d hd hne => hF.unchanged hv hc hd hne⟩
  · obtain ⟨hle,hrun⟩ | ⟨f,h',l',hrun,hM⟩ | ⟨-,hrun⟩ | ⟨hfail,-⟩ :=
      hvReallocateCell_spec hv hc alloc hr
    · exact ⟨_,h,hrun,.inr ⟨c,l,rfl,hc.ne_nil hv,hv,hc,hle,fun _ _ _ => rfl,
        fun t d hd _ => hv.unchanged hd hd.1 fun _ _ _ => rfl⟩⟩
    · exact ⟨_,h',hrun,.inr ⟨f,l',rfl,hM.allocated.ne_nil hM.inv,hM.inv,hM.allocated,
        hM.large,fun k _ hk => hM.body k hk,fun t d hd hne => (hM.unchanged t d hd hne).1⟩⟩
    · exact ⟨_,h,hrun,.inl ⟨rfl,rfl⟩⟩
    · simp [hb] at hfail

def twoCellCalls : List Call := [.allocate 44 .stable,.allocate 100 .stable]

theorem twoCellCalls_spec : ∃ h l f, hvpCreateHive.calls twoCellCalls = .ok h ∧ HiveInv h l ∧
    Allocated h l .stable 32 ∧ Allocated h l .stable f ∧ f≠32 ∧
    48≤cellSize (h.image .stable) 32 ∧ HasRoom h .stable 200 := by
  obtain ⟨h₁,l₁,hr₁,hO₁⟩ :=
    hvpCreateHive_allocate (show HasRoom hvpCreateHive .stable 44 by decide)
  have hroom : HasRoom h₁ .stable 100 := by
    obtain ⟨x,hx,hroom⟩ := HiveM.exists_of_holds (x := hvpCreateHive.hvAllocateCell .succeed 44
      .stable) (p := fun x => decide (HasRoom x.2 .stable 100)) (by decide +kernel)
    obtain rfl := Except.ok.inj (hr₁.symm.trans hx)
    exact of_decide_eq_true hroom
  obtain ⟨f,h₂,l₂,hr₂,hO₂⟩ | ⟨hfail,-⟩ | ⟨hfail,-⟩ :=
    hvAllocateCell_obtained hO₁.inv .succeed hroom
  · have hU := hO₂.unchanged hO₁.inv hO₁.allocated
    have hlarge : 48≤cellSize (h₁.image .stable) 32 := hO₁.large
    have hrun : hvpCreateHive.calls twoCellCalls = .ok h₂ := by
      simp only [twoCellCalls,calls,call,hr₁,hr₂,HiveM.ok_bind,HiveM.pure_eq]
    obtain ⟨x,hx,hroom⟩ := HiveM.exists_of_holds (x := hvpCreateHive.calls twoCellCalls)
      (p := fun x => decide (HasRoom x .stable 200)) (by decide +kernel)
    obtain rfl := Except.ok.inj (hrun.symm.trans hx)
    refine ⟨h₂,l₂,f,hrun,hO₂.inv,hU.allocated,hO₂.allocated,fun hf => ?_,by rwa [hU.size],
      of_decide_eq_true hroom⟩
    exact hO₂.new (hf ▸ hO₁.allocated)
  · simp [succeed] at hfail
  · simp [succeed] at hfail

/-- In a hive with two cells, neither is changed by freeing or reallocating the other. -/
theorem cell_isolation_two_cells :
    ∃ h l f, hvpCreateHive.calls twoCellCalls = .ok h ∧ HiveInv h l ∧
      Allocated h l .stable 32 ∧ Allocated h l .stable f ∧ f≠32 ∧
      (∃ h' l', h.hvFreeCell (indexOf .stable 32) = .ok h' ∧ Unchanged h h' l' .stable f) ∧
      ∃ i h', h.hvReallocateCell .succeed (indexOf .stable f) 200 = .ok (i, h') ∧
        (i=hcellNil ∧ h'=h ∨ ∃ l', Unchanged h h' l' .stable 32) := by
  obtain ⟨h,l,f,hrun,hv,h32,hf,hne,-,hroom⟩ := twoCellCalls_spec
  obtain ⟨-,hfree,hrealloc⟩ := cell_isolation hv .succeed rfl
  obtain ⟨h₁,l₁,hrun₁,-,hsame₁⟩ := hfree .stable 32 h32
  obtain ⟨i,h₂,hrun₂,hcase⟩ := hrealloc .stable f 200 hf fun _ => hroom
  refine ⟨h,l,f,hrun,hv,h32,hf,hne,⟨h₁,l₁,hrun₁,hsame₁ _ _ hf fun _ => hne⟩,i,h₂,hrun₂,?_⟩
  obtain hnil | ⟨_,l₂,-,-,-,-,-,-,hsame₂⟩ := hcase
  · exact .inl hnil
  · exact .inr ⟨l₂,hsame₂ _ _ h32 fun _ => hne.symm⟩

def staleCalls : List Call := [.write 32 40 0xAB,.free 32]

theorem staleCalls_sound :
    ∃ h, (hvpCreateHive.calls twoCellCalls >>= (calls · staleCalls)) = .ok h ∧ h.Sound := by
  obtain ⟨h₂,l₂,f,hr₂,hv₂,h32,-,-,hlarge,-⟩ := twoCellCalls_spec
  obtain ⟨h₃,hr₃,hv₃,hc₃,-⟩ := writeCell_spec hv₂ h32 (show 40+4<_ by omega) 0xAB
  obtain ⟨h₄,l₄,hr₄,hF⟩ := hvFreeCell_spec hv₃ hc₃
  refine ⟨h₄,?_,l₄,hF.inv⟩
  have hi : indexOf .stable 32=32 := by decide +kernel
  rw [hi] at hr₃ hr₄
  simp only [staleCalls,calls,call,hr₂,hr₃,hr₄,HiveM.ok_bind]

/-- A free cell that is up to 16 bytes too large is not cut, and its last bytes are not
cleared. -/
theorem cell_isolation_stale :
    ∃ h h' : Hive, h.Sound ∧ h.hvAllocateCell .succeed 28 .stable = .ok (32, h') ∧
      cellSize (h'.image .stable) 32=48 ∧ h'.image .stable 76=0xAB := by
  obtain ⟨h,hrun,hv⟩ := staleCalls_sound
  obtain ⟨⟨i,h'⟩,hx,hp⟩ := HiveM.exists_of_holds
    (x := (hvpCreateHive.calls twoCellCalls >>= (calls · staleCalls)) >>=
      fun h => h.hvAllocateCell .succeed 28 .stable)
    (p := fun x : Nat × Hive => decide (x.1=32 ∧ cellSize (x.2.image .stable) 32=48 ∧
      x.2.image .stable 76=0xAB)) (by decide +kernel)
  rw [hrun,HiveM.ok_bind] at hx
  obtain ⟨rfl,hsize,hbyte⟩ := of_decide_eq_true hp
  exact ⟨h,h',hv,hx,hsize,hbyte⟩

end Odyssey.Cm
