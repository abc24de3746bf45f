import Odyssey.Npfs.ByteStream

/-! What the copy loops of `NpfsRead` and `NpfsWrite` do to a buffer. -/
namespace Odyssey.Npfs

open ByteMem RingBuffer

structure Ccb.Ring (ccb : Ccb) : Prop where
  low : ccb.data≤ccb.readPtr
  high : ccb.readPtr<ccb.data+ccb.maxDataLength
  total : ccb.readDataAvailable+ccb.writeQuotaAvailable=ccb.maxDataLength
  writePtr : ccb.writePtr =
    cell ccb.data ccb.maxDataLength ccb.readPtr ccb.readDataAvailable
  fits : ccb.data+2*ccb.maxDataLength≤2^32

variable {n data size ptr src fuel : Nat}

theorem ulong_of_lt (h : n<2^32) : ulong n=n := Nat.mod_eq_of_lt h

theorem ulongSub_of_le {m n : Nat} (h : n≤ m) (hm : m<2^32) : ulongSub m n=m-n := by
  unfold ulongSub
  omega

theorem stretch_copy_append (f g : Mem) (o src n : Nat) :
    stretch (copy f o g src n) 0 (o+n)=stretch f 0 o++stretch g src n := by
  rw [stretch_add]
  refine congrArg₂ _ (stretch_congr fun k hk => copy_of_lt f g (by omega))
    (stretch_congr fun k hk => ?_)
  rw [copy_of_mem f g (by omega) (by omega)]
  congr 1
  omega

def Ccb.taken (ccb : Ccb) (n : Nat) : Ccb :=
  { ccb with
    readPtr := cell ccb.data ccb.maxDataLength ccb.readPtr n
    readDataAvailable := ccb.readDataAvailable-n
    writeQuotaAvailable := ccb.writeQuotaAvailable+n }

def Ccb.added (ccb : Ccb) (n : Nat) : Ccb :=
  { ccb with
    writePtr := cell ccb.data ccb.maxDataLength ccb.writePtr n
    readDataAvailable := ccb.readDataAvailable+n
    writeQuotaAvailable := ccb.writeQuotaAvailable-n }

/-- The sums of a chunk do not wrap, and its pointer goes on to the next cell. -/
theorem chunk_sums {data size ptr : Nat} (hlow : data≤ptr) (hhigh : ptr<data+size)
    (hfits : data+2*size≤2^32) (hn : n≤ size) :
    ulong (data+size)=data+size ∧ ulong (ptr+n)=ptr+n ∧
      ulongSub (data+size) ptr=data+size-ptr ∧
      (if decide (ptr+n≤data+size)=true then
        if ptr+n=data+size then data else ptr+n
        else ulongSub (ulong (data+n)) (data+size-ptr))=cell data size ptr n := by
  refine ⟨ulong_of_lt (by omega),ulong_of_lt (by omega),ulongSub_of_le (by omega) (by omega),?_⟩
  by_cases hs : ptr+n≤data+size
  · rw [if_pos (by simpa using hs),cell]
    split_ifs
    all_goals omega
  · rw [if_neg (by simpa using hs),ulong_of_lt (by omega),ulongSub_of_le (by omega) (by omega),
      cell,if_neg (by omega)]
    omega

variable {t : Transfer}

/-- The loops have one turn: a chunk leaves nothing to copy or nowhere to copy from. -/
theorem loop_once {σ : Type*} {go : σ → Prop} [DecidablePred go] {b : σ → σ}
    {f : Nat → σ → σ} (hzero : ∀ t, f 0 t=t)
    (hsucc : ∀ fuel t, f (fuel+1) t=if go t then f fuel (b t) else t) {t : σ}
    (hfuel : go t → 0<fuel) (hstop : go t → ¬go (b t)) :
    f fuel t=if go t then b t else t := by
  cases fuel with
  | zero => rw [hzero,if_neg fun hgo => absurd (hfuel hgo) (by omega)]
  | succ fuel =>
    rw [hsucc]
    by_cases hgo : go t
    · rw [if_pos hgo,if_pos hgo]
      cases fuel with
      | zero => exact hzero _
      | succ fuel => rw [hsucc,if_neg (hstop hgo)]
    · rw [if_neg hgo,if_neg hgo]

def ReadsTo (t t' : Transfer) (n : Nat) : Prop :=
  t'.ccb=t.ccb.taken n ∧ t'.length=t.length-n ∧ t'.information=t.information+n ∧
    stretch t'.buffer 0 (t.information+n)=stretch t.buffer 0 t.information ++
      contents t.mem t.ccb.data t.ccb.maxDataLength t.ccb.readPtr n

theorem readChunk_spec (h : t.ccb.Ring) (hn : n=min t.ccb.readDataAvailable t.length) :
    ReadsTo t (readChunk t) n := by
  obtain ⟨hlow,hhigh,htotal,-,hfits⟩ := h
  obtain ⟨hstop,hptr,htemp,hcell⟩ := chunk_sums hlow hhigh hfits (n := n) (by omega)
  have hquota : ulong (t.ccb.writeQuotaAvailable+n)=t.ccb.writeQuotaAvailable+n :=
    ulong_of_lt (by omega)
  refine ⟨?_,by rw [readChunk,hn],by rw [readChunk,hn],?_⟩
  · simp only [readChunk,← hn,hstop,hptr,hquota,htemp,hcell,Ccb.taken]
  · simp only [readChunk,← hn,hstop,hptr,htemp]
    by_cases hs : t.ccb.readPtr+n≤t.ccb.data+t.ccb.maxDataLength
    · rw [if_pos (by simpa using hs),stretch_copy_append,contents_eq_stretch _ hs]
    · rw [if_neg (by simpa using hs),ulongSub_of_le (by omega) (by omega),
        contents_eq_stretches _ hhigh (by omega) (by omega),← List.append_assoc,
        ← stretch_copy_append,← stretch_copy_append]
      congr 1
      omega

/-- The copy loop of a read takes what there is, up to the length of the request. -/
theorem readLoop_spec (h : t.ccb.Ring) (hfuel : t.length≤fuel)
    (hn : n=min t.ccb.readDataAvailable t.length) : ReadsTo t (readLoop fuel t) n := by
  have hspec := readChunk_spec h hn
  rw [loop_once (f := readLoop) (fun _ => rfl) (fun _ _ => rfl)
    (fun hgo => by omega)]
  · split
    · exact hspec
    · obtain rfl : n=0 := by omega
      simp [ReadsTo,Ccb.taken,cell_zero h.high]
  · rw [hspec.2.1,hspec.1]
    simp only [Ccb.taken]
    omega

structure Stored (mem mem' : Mem) (data size ptr : Nat) (buffer : Mem) (src n : Nat) : Prop where
  inside : ∀ k<n, mem' (cell data size ptr k)=buffer (src+k)
  outside : ∀ a, (∀ k<n, a≠cell data size ptr k) → mem' a=mem a

theorem stored_straight (mem buffer : Mem) (h : ptr+n≤data+size) :
    Stored mem (copy mem ptr buffer src n) data size ptr buffer src n := by
  refine ⟨fun k hk => ?_,fun a ha => ?_⟩
  · rw [cell,if_pos (by omega),copy_of_mem _ _ (by omega) (by omega),Nat.add_sub_cancel_left]
  · refine copy_of_lt _ _ ?_
    by_contra hin
    have hne := ha (a-ptr) (by omega)
    rw [cell,if_pos (by omega)] at hne
    omega

theorem stored_wrapped (mem buffer : Mem)
    (hhigh : ptr<data+size) (hn : n≤ size) (h : data+size<ptr+n) :
    Stored mem
      (copy (copy mem ptr buffer src (data+size-ptr)) data buffer (src+(data+size-ptr))
        (n-(data+size-ptr))) data size ptr buffer src n := by
  refine ⟨fun k hk => ?_,fun a ha => ?_⟩
  · by_cases hk' : ptr+k<data+size
    · rw [cell,if_pos hk',copy_of_lt _ _ (by omega),copy_of_mem _ _ (by omega) (by omega),
        Nat.add_sub_cancel_left]
    · rw [cell,if_neg hk',copy_of_mem _ _ (by omega) (by omega)]
      congr 1
      omega
  · have hfirst : a<ptr ∨ data+size≤a := by
      by_contra hin
      have hne := ha (a-ptr) (by omega)
      rw [cell,if_pos (by omega)] at hne
      omega
    have hsecond : a<data ∨ data+(n-(data+size-ptr))≤a := by
      by_contra hin
      have hne := ha (a-data+(data+size-ptr)) (by omega)
      rw [cell,if_neg (by omega)] at hne
      omega
    rw [copy_of_lt _ _ (by omega),copy_of_lt _ _ (by omega)]

variable {ccb : Ccb}

theorem Ccb.Ring.writePtr_mem (h : ccb.Ring) :
    ccb.data≤ccb.writePtr ∧ ccb.writePtr<ccb.data+ccb.maxDataLength := by
  rw [h.writePtr]
  exact cell_mem h.low h.high (by have := h.total; omega)

def WritesTo (t t' : Transfer) (n : Nat) : Prop :=
  t'.ccb=t.ccb.added n ∧ t'.length=t.length-n ∧ t'.information=t.information+n ∧
    Stored t.mem t'.mem t.ccb.data t.ccb.maxDataLength t.ccb.writePtr t.buffer t.information n

theorem writeChunk_spec (h : t.ccb.Ring) (hn : n=min t.length t.ccb.writeQuotaAvailable) :
    WritesTo t (writeChunk t) n := by
  obtain ⟨hlow,hhigh⟩ := h.writePtr_mem
  obtain ⟨-,-,htotal,-,hfits⟩ := h
  obtain ⟨hstop,hptr,htemp,hcell⟩ := chunk_sums hlow hhigh hfits (n := n) (by omega)
  have havail : ulong (t.ccb.readDataAvailable+n)=t.ccb.readDataAvailable+n :=
    ulong_of_lt (by omega)
  refine ⟨?_,by rw [writeChunk,hn],by rw [writeChunk,hn],?_⟩
  · simp only [writeChunk,← hn,hstop,hptr,havail,htemp,hcell,Ccb.added]
  · simp only [writeChunk,← hn,hstop,hptr,htemp]
    by_cases hs : t.ccb.writePtr+n≤t.ccb.data+t.ccb.maxDataLength
    · rw [if_pos (by simpa using hs)]
      exact stored_straight _ _ hs
    · rw [if_neg (by simpa using hs),ulongSub_of_le (by omega) (by omega)]
      exact stored_wrapped _ _ hhigh (by omega) (by omega)

/-- The copy loop of a write puts as much into the buffer as there is room for. -/
theorem writeLoop_spec (h : t.ccb.Ring) (hfuel : t.length≤fuel)
    (hn : n=min t.length t.ccb.writeQuotaAvailable) : WritesTo t (writeLoop fuel t) n := by
  have hspec := writeChunk_spec h hn
  rw [loop_once (f := writeLoop) (fun _ => rfl) (fun _ _ => rfl)
    (fun hgo => by omega)]
  · split
    · exact hspec
    · obtain rfl : n=0 := by omega
      refine ⟨?_,rfl,rfl,⟨fun k hk => absurd hk (by omega),fun a _ => rfl⟩⟩
      simp [Ccb.added,cell_zero h.writePtr_mem.2]
  · rw [hspec.2.1,hspec.1]
    simp only [Ccb.added]
    omega

theorem Ccb.Ring.taken (h : ccb.Ring) (hn : n≤ccb.readDataAvailable) : (ccb.taken n).Ring := by
  have htotal := h.total
  have hcell := cell_mem h.low h.high (k := n) (by omega)
  refine ⟨hcell.1,hcell.2,?_,?_,h.fits⟩
  · simp only [Ccb.taken]
    omega
  · simp only [Ccb.taken]
    rw [cell_cell h.high (by omega),h.writePtr,Nat.add_sub_cancel' hn]

theorem Ccb.Ring.added (h : ccb.Ring) (hn : n≤ccb.writeQuotaAvailable) : (ccb.added n).Ring := by
  have htotal := h.total
  refine ⟨h.low,h.high,?_,?_,h.fits⟩
  · simp only [Ccb.added]
    omega
  · simp only [Ccb.added]
    rw [h.writePtr,cell_cell h.high (by omega)]

/-- The bytes in the buffer after a copy into it. -/
theorem Ccb.Ring.contents_added (h : ccb.Ring) {mem mem' buffer : Mem} {src n : Nat}
    (hn : n≤ccb.writeQuotaAvailable)
    (hs : Stored mem mem' ccb.data ccb.maxDataLength ccb.writePtr buffer src n) :
    contents mem' ccb.data ccb.maxDataLength ccb.readPtr (ccb.readDataAvailable+n) =
      contents mem ccb.data ccb.maxDataLength ccb.readPtr ccb.readDataAvailable ++
        stretch buffer src n := by
  have htotal := h.total
  have hcell : ∀ k<n, cell ccb.data ccb.maxDataLength ccb.writePtr k =
      cell ccb.data ccb.maxDataLength ccb.readPtr (ccb.readDataAvailable+k) := by
    intro k hk
    rw [h.writePtr,cell_cell h.high (by omega)]
  refine contents_append (length_stretch _ _ _) (fun k hk => hs.outside _ fun l hl => ?_)
    fun k hk => ?_
  · rw [hcell l hl]
    exact cell_ne (by omega) (by omega)
  · have hk' : k<n := by simpa using hk
    rw [← hcell k hk',hs.inside k hk']
    simp [stretch]

end Odyssey.Npfs
