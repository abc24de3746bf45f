import Odyssey.Fastfat.DirEntry
import Odyssey.Fastfat.FileTransfers

/-! When reading the next entry of a directory stays inside of the name buffers: exactly when every
slot of a long name has a sequence number whose characters have a place in the long name buffer, and
the directory ends. -/
namespace Odyssey.Fastfat

open CheckedBuffer List Nat

/-! The short name has a place for the base, the dot, the extension and the terminator. -/

variable {buffer : List (BitVec 16)} {dirIndex : Nat} {pos length : Nat}

theorem yields_oemStringToUnicodeString (nls : Nls) {pos : Nat} (maximumLength : Nat)
    {source : List (BitVec 8)} (h : pos+source.length+1≤buffer.length) :
    Yields (oemStringToUnicodeString nls buffer pos maximumLength source) fun r =>
      r.1.length=buffer.length ∧ r.2=2*nls.unicodeSize source := by
  have hsize := nls.unicodeSize_le source
  have hlen : pos+((nls.oemToUnicode source).take (nls.unicodeSize source)++[0]).length ≤
      buffer.length := by
    simp only [length_append,length_take,length_singleton]
    omega
  refine Yields.ite (fun _ => yields_pure ⟨rfl,rfl⟩) fun _ => ?_
  exact (yields_store hlen).bind fun b hb => yields_pure ⟨hb.1,rfl⟩

theorem yields_downcaseUnicodeString (nls : Nls)
    (maximumLength : Nat) (h : pos+length/2≤buffer.length) :
    Yields (downcaseUnicodeString nls buffer pos maximumLength length)
      (·.length=buffer.length) := by
  have hlen : pos+(((buffer.drop pos).take (length/2)).map nls.downcase).length ≤
      buffer.length := by
    simp only [length_map,length_take,length_drop]
    omega
  refine Yields.ite (fun _ => yields_pure rfl) fun _ => ?_
  exact (yields_store hlen).mono fun b hb => hb.1

/-- The case of a name is changed in place or left. -/
theorem yields_ite_downcase (nls : Nls)
    (maximumLength : Nat) (c : Prop) [Decidable c] (h : pos+length/2≤buffer.length) :
    Yields (if c then downcaseUnicodeString nls buffer pos maximumLength length else pure buffer)
      (·.length=buffer.length) :=
  Yields.ite (fun _ => yields_downcaseUnicodeString nls maximumLength h) fun _ => yields_pure rfl

theorem untilBlank_length_le (s : List (BitVec 8)) : (untilBlank s).length≤ s.length :=
  (takeWhile_sublist _).length_le

variable {n : Nat}

theorem yields_appendExtension (nls : Nls) (entry : DirEntry) {ext : List (BitVec 8)}
    (maximumLength : Nat) (hext : ext.length≤3) (hn : n≤8) (hbuffer : buffer.length=13) :
    Yields (appendExtension nls entry ext maximumLength buffer (2*n)) fun r =>
      r.1.length=13 ∧ r.2≤24 := by
  have hsize := nls.unicodeSize_le ext
  have hdot : Yields
      (if entry.isVolume then pure (buffer, 2*n/2, 2*n)
      else do
        let buffer ← store buffer (2*n/2) [0x2e]
        pure (buffer, 2*n/2+1, 2*n+2)) fun r : List (BitVec 16) × Nat × Nat =>
      r.1.length=13 ∧ r.2.1≤9 ∧ r.2.2=2*r.2.1 := by
    refine Yields.ite (fun _ => yields_pure ⟨hbuffer,?_,?_⟩) fun _ => ?_
    · dsimp only
      omega
    · dsimp only
      omega
    · have hlen : 2*n/2+[(0x2e : BitVec 16)].length≤buffer.length := by
        simp only [length_singleton]
        omega
      refine (yields_store hlen).bind fun b hb => yields_pure ⟨hb.1.trans hbuffer,?_,?_⟩
      · dsimp only
        omega
      · dsimp only
        omega
  refine hdot.bind fun ⟨buffer,pos,length⟩ ⟨hbuffer,hpos,hlength⟩ => ?_
  dsimp only at hbuffer hpos hlength ⊢
  refine (yields_oemStringToUnicodeString nls _ (by omega)).bind fun ⟨b,m⟩ ⟨hb,hm⟩ => ?_
  refine (yields_ite_downcase nls _ _ (by omega)).bind fun b' hb' => yields_pure ⟨?_,?_⟩
  · dsimp only
    omega
  · dsimp only
    omega

theorem yields_vfat8Dot3ToString (nls : Nls) (entry : DirEntry) {name : UnicodeString}
    (h : name.buffer.length=13) :
    Yields (vfat8Dot3ToString nls entry name) fun s => s.buffer.length=13 ∧ s.length≤24 := by
  unfold vfat8Dot3ToString
  dsimp only
  generalize hc : (if entry 0=0x05#8 then 0xe5#8 else entry 0)::entry.shortName.tail=cString
  have hlen : cString.length=11 := by
    rw [← hc]
    rfl
  have hbase : (untilBlank (cString.take 8)).length≤8 := by
    refine (untilBlank_length_le _).trans ?_
    simp [hlen]
  have hext : (untilBlank (cString.drop 8)).length≤3 := by
    refine (untilBlank_length_le _).trans ?_
    simp [hlen]
  have hsize := nls.unicodeSize_le (untilBlank (cString.take 8))
  refine (yields_oemStringToUnicodeString nls _ (by omega)).bind fun ⟨b,m⟩ ⟨hb,hm⟩ => ?_
  dsimp only at hb hm ⊢
  rw [hm]
  have hcase : 0+2*nls.unicodeSize (untilBlank (cString.take 8))/2≤b.length := by omega
  refine (yields_ite_downcase nls _ _ hcase).bind fun b' hb' => ?_
  have hname : Yields
      (if entry 8≠0x20#8 then
        appendExtension nls entry (untilBlank (cString.drop 8)) (2*name.buffer.length) b'
          (2*nls.unicodeSize (untilBlank (cString.take 8)))
      else pure (b', 2*nls.unicodeSize (untilBlank (cString.take 8)))) fun r =>
      r.1.length=13 ∧ r.2≤24 := by
    refine Yields.ite (fun _ => yields_appendExtension nls entry _ hext (by omega) (by omega))
      fun _ => yields_pure ⟨?_,?_⟩
    · dsimp only
      omega
    · dsimp only
      omega
  refine hname.bind fun ⟨b₂,n⟩ ⟨hb₂,hn⟩ => ?_
  dsimp only at hb₂ hn ⊢
  have hfit : n/2+[(0 : BitVec 16)].length≤b₂.length := by
    simp only [length_singleton]
    omega
  exact (yields_store hfit).bind fun b₃ hb₃ => yields_pure ⟨hb₃.1.trans hb₂,hn⟩

theorem yields_copyUnicodeString {destination source : UnicodeString}
    (h : source.length≤2*destination.buffer.length) :
    Yields (copyUnicodeString destination source) fun s =>
      s.buffer.length=destination.buffer.length := by
  unfold copyUnicodeString
  rw [min_eq_right h]
  have hfit : 0+(source.buffer.take (source.length/2)).length≤destination.buffer.length := by
    rw [length_take]
    omega
  refine (yields_store hfit).bind fun b hb => ?_
  have hend : Yields
      (if source.length<2*destination.buffer.length then store b (source.length/2) [0]
      else pure b) (·.length=destination.buffer.length) := by
    refine Yields.ite (fun hlt => ?_) fun _ => yields_pure hb.1
    have hfit : source.length/2+[(0 : BitVec 16)].length≤b.length := by
      simp only [length_singleton]
      omega
    exact (yields_store hfit).mono fun b' hb' => hb'.1.trans hb.1
  exact hend.bind fun b' hb' => yields_pure hb'

namespace Directory
variable {dir : Directory} {context : Option Nat} {c c' : Cursor} {e : DirEntry}

/-! Offsets are 32-bit numbers, so that the indices of entries are taken modulo `2 ^ 27`. -/

def pageOffset (n : Nat) : Nat := n/128%2^20*4096

theorem pageOffset_mod (n : Nat) : pageOffset (n%2^32)=pageOffset n := by
  have hdiv : n%2^32/128=n/128%2^25 := mod_mul_right_div_self n 128 (2^25)
  have hdvd : n/128%2^25%2^20=n/128%2^20 :=
    mod_mod_of_dvd _ (pow_dvd_pow 2 (by omega))
  rw [pageOffset,pageOffset,hdiv,hdvd]

theorem pageOffset_slot (n : Nat) : pageOffset (n%2^27)=pageOffset n := by
  have hdiv : n%2^27/128=n/128%2^20 := mod_mul_right_div_self n 128 (2^20)
  rw [pageOffset,pageOffset,hdiv,mod_mod]

theorem pageOffset_succ (h : (n+1)%128≠0) : pageOffset (n+1)=pageOffset n := by
  have hdiv : (n+1)/128=n/128 := by omega
  rw [pageOffset,pageOffset,hdiv]

theorem pageOffset_succ_of_mod (h : (n+1)%128=0) : pageOffset (n+1)=(pageOffset n+4096)%2^32 := by
  have hdiv : (n+1)/128=n/128+1 := by omega
  rw [pageOffset,pageOffset,hdiv]
  omega

theorem pageOffset_pred (h : n%128=127) : pageOffset n=(pageOffset (n+1)+2^32-4096)%2^32 := by
  have hdiv : (n+1)/128=n/128+1 := by omega
  rw [pageOffset,pageOffset,hdiv]
  omega

theorem pageOffset_add (n : Nat) : pageOffset n+n%128*32=32*(n%2^27) := by
  have hdiv : n%2^27/128=n/128%2^20 := mod_mul_right_div_self n 128 (2^20)
  have hmod : n%2^27%128=n%128 := mod_mod_of_dvd n (by decide)
  rw [pageOffset,← hdiv,← hmod]
  omega

theorem roundDown_pageOffset (n : Nat) : roundDown (n*32%2^32) pageSize=pageOffset n := by
  have hround := roundDown_two_pow (n*32%2^32) (k := 12) (by omega)
  have hlow : lowPart (n*32%2^32)=n%2^27*32 := by
    rw [lowPart]
    omega
  have hdiv : n%2^27/128=n/128%2^20 := mod_mul_right_div_self n 128 (2^20)
  have hpage : pageSize=2^12 := rfl
  rw [hpage,hround,pageOffset]
  omega

def slot (dir : Directory) (k : Nat) : DirEntry := fun i => dir.content (32*k+i)

structure OnPage (dir : Directory) (c : Cursor) : Prop where
  page_eq : c.page=c.fileOffset
  offset_eq : c.fileOffset=pageOffset c.dirIndex
  inside : c.fileOffset<dir.fileSize

theorem OnPage.entryAt (h : dir.OnPage c) : dir.entryAt c=dir.slot (c.dirIndex%2^27) := by
  funext i
  have hadd := pageOffset_add c.dirIndex
  rw [← h.offset_eq,← h.page_eq] at hadd
  exact congrArg (fun o => dir.content (o+i)) hadd

theorem onPage_of_mapPage {dirIndex fileOffset : Nat} (hoffset : fileOffset=pageOffset dirIndex)
    (h : dir.mapPage dirIndex fileOffset=some c) : dir.OnPage c ∧ c.dirIndex=dirIndex := by
  unfold mapPage at h
  split at h
  · exact absurd h (by simp)
  · rename_i hlt
    obtain rfl := Option.some.inj h
    exact ⟨⟨rfl,hoffset,Nat.lt_of_not_le hlt⟩,rfl⟩

theorem OnPage.advance (h : dir.OnPage c) (hnext : dir.advance c=some c') :
    dir.OnPage c' ∧ c'.dirIndex=(c.dirIndex+1)%2^32 := by
  have hmod : (c.dirIndex+1)%2^32%128=(c.dirIndex+1)%128 :=
    mod_mod_of_dvd _ (by decide)
  unfold Directory.advance at hnext
  simp only [entriesPerPage,hmod] at hnext
  split at hnext
  · rename_i hpage
    refine onPage_of_mapPage ?_ hnext
    rw [pageOffset_mod,pageOffset_succ_of_mod hpage,h.offset_eq]
    rfl
  · rename_i hpage
    obtain rfl := Option.some.inj hnext
    refine ⟨⟨h.page_eq,?_,h.inside⟩,rfl⟩
    exact h.offset_eq.trans ((pageOffset_succ hpage).symm.trans (pageOffset_mod _).symm)

theorem onPage_backLoop {fileOffset page dirIndex : Nat} {back : Bool} {r : Cursor × Bool}
    (h : dir.OnPage ⟨dirIndex,fileOffset,page⟩)
    (hr : dir.backLoop fileOffset page back dirIndex=some r) : dir.OnPage r.1 := by
  induction dirIndex generalizing fileOffset page back with
  | zero =>
    obtain rfl := Option.some.inj hr
    exact h
  | succ dirIndex ih =>
    have hoffset : fileOffset=pageOffset (dirIndex+1) := h.offset_eq
    rw [backLoop] at hr
    split at hr
    · split at hr
      · rename_i hpage
        dsimp only at hr
        split at hr
        · exact absurd hr (by simp)
        · rename_i hlt
          refine ih ⟨rfl,?_,Nat.lt_of_not_le hlt⟩ hr
          rw [hoffset]
          exact (pageOffset_pred hpage).symm
      · rename_i hpage
        simp only [entriesPerPage] at hpage
        refine ih ⟨h.page_eq,?_,h.inside⟩ hr
        exact hoffset.trans (pageOffset_succ (by omega))
    · obtain rfl := Option.some.inj hr
      exact h

theorem OnPage.realStart (h : dir.OnPage c) (hr : dir.realStart c=some c') : dir.OnPage c' := by
  unfold Directory.realStart at hr
  cases hback : dir.backLoop c.fileOffset c.page false c.dirIndex with
  | none =>
    rw [hback] at hr
    exact absurd hr (by simp)
  | some r =>
    rw [hback] at hr
    have hpage := onPage_backLoop h hback
    dsimp only at hr
    split at hr
    · exact (hpage.advance hr).1
    · obtain rfl := Option.some.inj hr
      exact hpage

def MappedFor (dir : Directory) (context : Option Nat) (dirIndex : Nat) : Prop :=
  ∀ page∈context, dirIndex%128≠0 → page=pageOffset dirIndex ∧ page<dir.fileSize

theorem onPage_startPage
    (hmap : dir.MappedFor context dirIndex) (h : dir.startPage context dirIndex=some c) :
    dir.OnPage c ∧ c.dirIndex=dirIndex := by
  unfold startPage at h
  rw [roundDown_pageOffset] at h
  cases context with
  | none => exact onPage_of_mapPage rfl h
  | some page =>
    dsimp only at h
    split at h
    · exact onPage_of_mapPage rfl h
    · rename_i hne
      obtain ⟨hpage,hlt⟩ := hmap page rfl hne
      obtain rfl := Option.some.inj h
      exact ⟨⟨hpage,rfl,hpage ▸ hlt⟩,rfl⟩

theorem onPage_startCursor {first : Bool}
    (hmap : dir.MappedFor context dirIndex) (h : dir.startCursor context dirIndex first=some c) :
    dir.OnPage c := by
  unfold startCursor at h
  cases hpage : dir.startPage context dirIndex with
  | none =>
    rw [hpage] at h
    exact absurd h (by simp)
  | some c₀ =>
    rw [hpage] at h
    have hc₀ := (onPage_startPage hmap hpage).1
    dsimp only at h
    split at h
    · exact hc₀.realStart h
    · obtain rfl := Option.some.inj h
      exact hc₀

def sequence (e : DirEntry) : Nat := (e.id &&& 0x1f#8).toNat

theorem sequence_le (e : DirEntry) : sequence e≤31 := by
  have hand : sequence e=e.id.toNat%2^5 := by
    exact and_two_pow_sub_one_eq_mod _ 5
  omega

/-- The index of a slot, with the number zero in front of all others. -/
theorem slotIndex_toNat (e : DirEntry) : ((e.id &&& 0x1f#8).setWidth 32-1#32).toNat =
    if sequence e=0 then 2^32-1 else sequence e-1 := by
  have hle := sequence_le e
  have hwide : ((e.id &&& 0x1f#8).setWidth 32).toNat=sequence e := by
    rw [BitVec.toNat_setWidth,← sequence]
    omega
  have hone : (1#32).toNat=1 := rfl
  rw [BitVec.toNat_sub,hone]
  split
  · omega
  · omega

theorem slotPlace_toNat (e : DirEntry) :
    (13#32*((e.id &&& 0x1f#8).setWidth 32-1#32)).toNat =
      if sequence e=0 then 2^32-13 else 13*(sequence e-1) := by
  have hle := sequence_le e
  have hthirteen : (13#32).toNat=13 := rfl
  rw [BitVec.toNat_mul,slotIndex_toNat,hthirteen]
  split
  · omega
  · omega

structure NameInv (s : Scan) : Prop where
  length : s.longName.length=257
  empty : s.dirMap=0 → s.longName[0]?=some 0
  ended : s.dirMap≠0 → s.longName[247]?=some 0

variable {s : Scan}

theorem NameInv.zero_mem (h : NameInv s) : (0 : BitVec 16)∈s.longName := by
  by_cases hmap : s.dirMap=0
  · exact mem_of_getElem? (h.empty hmap)
  · exact mem_of_getElem? (h.ended hmap)

theorem yields_dropName (c : Cursor) (h : NameInv s) : Yields (dropName c s) NameInv := by
  have hfit : 0+[(0 : BitVec 16)].length≤ s.longName.length := by
    rw [h.length]
    decide
  refine (yields_store hfit).bind fun b ⟨hlen,_,hnew⟩ => yields_pure ⟨hlen.trans h.length,?_,?_⟩
  · intro _
    exact hnew 0 (by decide)
  · intro hne
    exact absurd rfl hne

theorem shift_ne_zero (hn : n<32) (m : BitVec 32) : m ||| (1#32 <<< (n%32))≠0 := by
  intro hzero
  have hbit := congrArg (fun x : BitVec 32 => x.getLsbD n) hzero
  simp [mod_eq_of_lt,hn] at hbit

theorem yields_copySlot (h : NameInv s) (hpos : 1≤ sequence e)
    (hle : sequence e≤19) : Yields (copySlot e s) NameInv := by
  have hne : sequence e≠0 := by omega
  have hplace := slotPlace_toNat e
  rw [if_neg hne] at hplace
  have hindex := slotIndex_toNat e
  rw [if_neg hne] at hindex
  unfold copySlot
  dsimp only
  generalize hs' : (if s.dirMap=0 then
      { s with
        longName := List.replicate s.longName.length 0
        checkSum := e.aliasChecksum
        valid := true }
    else s)=s'
  have hlen : s'.longName.length=257 := by
    rw [← hs']
    split
    · exact (length_replicate).trans h.length
    · exact h.length
  have hlast : s'.longName[247]?=some 0 := by
    rw [← hs']
    split
    · rw [h.length]
      rfl
    · rename_i hmap
      exact h.ended hmap
  have h5 : e.name0To4.length=5 := rfl
  have h6 : e.name5To10.length=6 := rfl
  have h2 : e.name11To12.length=2 := rfl
  refine (yields_store (by omega)).bind fun b₁ ⟨hlen₁,hkeep₁,_⟩ => ?_
  refine (yields_store (by omega)).bind fun b₂ ⟨hlen₂,hkeep₂,_⟩ => ?_
  refine (yields_store (by omega)).bind fun b₃ ⟨hlen₃,hkeep₃,_⟩ => ?_
  refine yields_pure ⟨(hlen₃.trans hlen₂).trans (hlen₁.trans hlen),?_,?_⟩
  · intro hzero
    exact absurd hzero (shift_ne_zero (by omega) _)
  · intro _
    rw [hkeep₃ 247 (.inr (by omega)),hkeep₂ 247 (.inr (by omega)),hkeep₁ 247 (.inr (by omega)),
      hlast]

/-- A slot without a place in the buffer. -/
theorem copySlot_error (h : s.longName.length=257)
    (hbad : sequence e=0 ∨ 20≤ sequence e) : copySlot e s = .error .writeOutside := by
  have hplace := slotPlace_toNat e
  unfold copySlot
  dsimp only
  generalize hs' : (if s.dirMap=0 then
      { s with
        longName := List.replicate s.longName.length 0
        checkSum := e.aliasChecksum
        valid := true }
    else s)=s'
  have hlen : s'.longName.length=257 := by
    rw [← hs']
    split
    · exact (length_replicate).trans h
    · exact h
  have h6 : e.name5To10.length=6 := rfl
  generalize (13#32*((e.id &&& 0x1f#8).setWidth 32-1#32)).toNat=place at hplace
  by_cases hfirst : s'.longName.length<place+e.name0To4.length
  · rw [store_of_lt hfirst]
    rfl
  · obtain ⟨b,hstore,hb,-⟩ := yields_store (Nat.le_of_not_lt hfirst)
    have hsecond : b.length<place+5+e.name5To10.length := by
      split at hplace
      · omega
      · omega
    rw [hstore]
    simp only [bind,Except.bind,store_of_lt hsecond]

def isSlot (e : DirEntry) : Bool := !e.isEnd && !e.isDeleted && e.isLong

def endsLoop (e : DirEntry) : Bool := e.isEnd || (!e.isDeleted && !e.isLong)

/-- The slots of long names have their places in a buffer of 257 characters, and the directory has
an end: its pages are numbered by 32 bits, or there is an entry that ends the loop. -/
structure WellFormed (dir : Directory) : Prop where
  slots : ∀ k<2^27, pageOffset k<dir.fileSize → isSlot (dir.slot k) →
    1≤ sequence (dir.slot k) ∧ sequence (dir.slot k)≤19
  ends : dir.fileSize≤2^32-4096 ∨ ∃ k<2^27, endsLoop (dir.slot k)

theorem yields_checkName (e : DirEntry) (h : NameInv s) :
    Yields (checkName e s) fun b => b.length=257 ∧ (0 : BitVec 16)∈b := by
  have hclear : ∀ b : List (BitVec 16), b.length=257 →
      Yields (store b 0 [0]) fun b' => b'.length=257 ∧ (0 : BitVec 16)∈b' := by
    intro b hb
    have hfit : 0+[(0 : BitVec 16)].length≤b.length := by
      rw [hb]
      decide
    refine (yields_store hfit).mono fun b' hb' => ⟨hb'.1.trans hb,?_⟩
    exact mem_of_getElem? (hb'.2.2 0 (by decide))
  have hsum : Yields
      (if e.shortCheckSum≠s.checkSum ∧ s.longName.head?≠some 0 then store s.longName 0 [0]
      else pure s.longName) fun b => b.length=257 ∧ (0 : BitVec 16)∈b :=
    Yields.ite (fun _ => hclear _ h.length) fun _ => yields_pure ⟨h.length,h.zero_mem⟩
  refine hsum.bind fun b hb => ?_
  exact Yields.ite (fun _ => yields_pure hb) fun _ => hclear b hb.1

def TurnOk (dir : Directory) (c : Cursor) : Turn → Prop
  | .noMore => True
  | .found r => r.longName.length=257 ∧ (0 : BitVec 16)∈r.longName
  | .next c' s' => dir.OnPage c' ∧ c'.dirIndex=(c.dirIndex+1)%2^32 ∧ NameInv s' ∧
      endsLoop (dir.slot (c.dirIndex%2^27))=false

theorem yields_turn (hdir : dir.WellFormed) (hc : dir.OnPage c) (hs : NameInv s) :
    Yields (dir.turn c s) (TurnOk dir c) := by
  unfold turn
  rw [hc.entryAt]
  have hslots := hdir.slots (c.dirIndex%2^27) (mod_lt _ (by omega))
  rw [pageOffset_slot,← hc.offset_eq] at hslots
  have hslots := hslots hc.inside
  generalize hent : dir.slot (c.dirIndex%2^27)=e at hslots
  refine Yields.ite (fun _ => yields_pure trivial) fun hend => ?_
  refine Yields.ite (fun _ => ?_) fun hother => ?_
  · exact (yields_checkName e hs).bind fun b hb => yields_pure hb
  · have hscan : Yields (if e.isDeleted then dropName c s else copySlot e s) NameInv := by
      refine Yields.ite (fun _ => yields_dropName c hs) fun hdel => ?_
      have hslot : isSlot e := by
        simp only [isSlot,hend,hdel,Bool.not_false,Bool.true_and]
        simpa [hdel] using hother
      exact yields_copySlot hs (hslots hslot).1 (hslots hslot).2
    refine hscan.bind fun s' hs' => ?_
    cases hnext : dir.advance c with
    | none => exact yields_pure trivial
    | some c' =>
      obtain ⟨hc',hindex⟩ := hc.advance hnext
      refine yields_pure ⟨hc',hindex,hs',?_⟩
      rw [hent,endsLoop]
      simp [hend,hother]

def Stop (dir : Directory) (k : Nat) : Prop :=
  dir.fileSize≤pageOffset k ∨ endsLoop (dir.slot (k%2^27))=true

/-- The loop comes to an end within the entries up to the next stop. -/
theorem scanLoop_ok (hdir : dir.WellFormed) (hc : dir.OnPage c)
    (hs : NameInv s) (hstop : dir.Stop (c.dirIndex+n)) :
    ∃ r, dir.scanLoop (n+1) c s=some (.ok r) ∧
      ∀ f∈r, f.longName.length=257 ∧ (0 : BitVec 16)∈f.longName := by
  induction n generalizing c s with
  | zero =>
    obtain ⟨t,ht,hok⟩ := yields_turn hdir hc hs
    rw [scanLoop,ht]
    cases t with
    | noMore => exact ⟨none,rfl,by simp⟩
    | found f => exact ⟨some f,rfl,fun g hg => Option.some.inj hg ▸ hok⟩
    | next c' s' =>
      obtain hpage | hend := hstop
      · rw [add_zero,← hc.offset_eq] at hpage
        exact absurd hc.inside (not_lt_of_ge hpage)
      · rw [add_zero] at hend
        rw [hok.2.2.2] at hend
        exact absurd hend (by simp)
  | succ n ih =>
    obtain ⟨t,ht,hok⟩ := yields_turn hdir hc hs
    rw [scanLoop,ht]
    cases t with
    | noMore => exact ⟨none,rfl,by simp⟩
    | found f => exact ⟨some f,rfl,fun g hg => Option.some.inj hg ▸ hok⟩
    | next c' s' =>
      obtain ⟨hc',hindex,hs',-⟩ := hok
      refine ih hc' hs' ?_
      have hpage : pageOffset (c'.dirIndex+n)=pageOffset (c.dirIndex+(n+1)) := by
        rw [hindex,← pageOffset_mod,mod_add_mod,pageOffset_mod]
        congr 1
        omega
      have hslot : (c'.dirIndex+n)%2^27=(c.dirIndex+(n+1))%2^27 := by
        omega
      rw [Stop,hpage,hslot]
      exact hstop

/-- There is a stop behind every entry. -/
theorem WellFormed.exists_stop (h : dir.WellFormed) (k : Nat) : ∃ n, dir.Stop (k+n) := by
  have hreach : ∀ m<2^27, ∃ n, (k+n)%2^27=m := by
    intro m hm
    refine ⟨m+2^27-k%2^27,?_⟩
    omega
  obtain hsize | ⟨m,hm,hend⟩ := h.ends
  · obtain ⟨n,hn⟩ := hreach (2^27-128) (by omega)
    refine ⟨n,.inl ?_⟩
    rw [← pageOffset_slot,hn]
    exact hsize
  · obtain ⟨n,hn⟩ := hreach m hm
    refine ⟨n,.inr ?_⟩
    rw [hn]
    exact hend

theorem yields_nameFound (nls : Nls) {ctx : DirContext} {f : Found}
    (hshort : ctx.shortName.buffer.length=13) (hlen : f.longName.length=257)
    (hzero : (0 : BitVec 16)∈f.longName) :
    Yields (nameFound nls ctx f) fun ctx' =>
      ctx'.longName.buffer.length=257 ∧ ctx'.shortName.buffer.length=13 := by
  refine (yields_lengthTo hzero).bind fun n hn => ?_
  refine (yields_vfat8Dot3ToString nls f.dirEntry hshort).bind fun short hs => ?_
  have hcopy : Yields
      (if n=0 then copyUnicodeString ⟨f.longName,2*n⟩ short
      else pure ⟨f.longName,2*n⟩) fun long => long.buffer.length=257 := by
    refine Yields.ite (fun _ => ?_) fun _ => yields_pure hlen
    have hle : short.length≤2*f.longName.length := by omega
    exact (yields_copyUnicodeString hle).mono fun long h => h.trans hlen
  exact hcopy.bind fun long hl => yields_pure ⟨hl,hs.1⟩

def longNameMaxLength : Nat := 256

/-- A call as in the query and the lookup of directories: the buffers have `LONGNAME_MAX_LENGTH + 1`
and 13 characters, and a page that is still mapped is the one of the index. -/
structure Callable (dir : Directory) (context : Option Nat) (ctx : DirContext) : Prop where
  index : ctx.dirIndex<2^32
  longName : ctx.longName.buffer.length=longNameMaxLength+1
  shortName : ctx.shortName.buffer.length=13
  mapped : dir.MappedFor context ctx.dirIndex

def Safe (nls : Nls) (dir : Directory) : Prop :=
  ∀ context ctx first, dir.Callable context ctx →
    ∃ fuel r, dir.fatGetNextDirEntry nls fuel context ctx first=some (.ok r)

theorem WellFormed.safe (nls : Nls) (h : dir.WellFormed) : dir.Safe nls := by
  intro context ctx first hcall
  have hlong : ctx.longName.buffer.length=257 := hcall.longName
  have hfit : 0+[(0 : BitVec 16)].length≤ctx.longName.buffer.length := by
    rw [hlong]
    decide
  obtain ⟨longName,hstore,hlen,-,hnew⟩ := yields_store hfit
  unfold fatGetNextDirEntry
  rw [hstore]
  cases hstart : dir.startCursor context ctx.dirIndex first with
  | none => exact ⟨0,none,rfl⟩
  | some c =>
    have hc := onPage_startCursor hcall.mapped hstart
    have hs : NameInv ⟨c.dirIndex,0,0,true,longName⟩ :=
      ⟨hlen.trans hlong,fun _ => hnew 0 (by decide),fun hne => absurd rfl hne⟩
    obtain ⟨n,hstop⟩ := h.exists_stop c.dirIndex
    obtain ⟨r,hr,hfound⟩ := scanLoop_ok h hc hs hstop
    refine ⟨n+1,?_⟩
    dsimp only
    rw [hr]
    cases r with
    | none => exact ⟨none,rfl⟩
    | some f =>
      obtain ⟨hf,hzero⟩ := hfound f rfl
      obtain ⟨ctx',hctx,-⟩ := yields_nameFound nls hcall.shortName hf hzero
      exact ⟨some (ctx', f.cursor.page),by simp only [hctx]; rfl⟩

def freshContext (dirIndex : Nat) : DirContext where
  startIndex := 0
  dirIndex := dirIndex
  longName := ⟨List.replicate 257 0,0⟩
  shortName := ⟨List.replicate 13 0,0⟩
  dirEntry := fun _ => 0

theorem callable_freshContext (h : dirIndex<2^32) : dir.Callable none (freshContext dirIndex) :=
  ⟨h,length_replicate,length_replicate,fun _ hpage => absurd hpage (by simp)⟩

/-- A call for an index of the directory that is not the first one returns what the loop returns. -/
theorem scanLoop_of_safe {nls : Nls} (h : dir.Safe nls) {k : Nat} (hk : k<2^32)
    (hpage : pageOffset k<dir.fileSize) :
    ∃ s c, dir.OnPage c ∧ c.dirIndex=k ∧ s.longName.length=257 ∧
      ∃ fuel r, dir.scanLoop fuel c s=some (.ok r) := by
  obtain ⟨fuel,r,hr⟩ := h none (freshContext k) false (callable_freshContext hk)
  have hstart : dir.startCursor none k false=some ⟨k,pageOffset k,pageOffset k⟩ := by
    rw [startCursor,startPage,roundDown_pageOffset]
    simp only [mapPage,if_neg (not_le_of_gt hpage)]
    rfl
  have hlong : (freshContext k).longName.buffer.length=257 := length_replicate
  have hfit : 0+[(0 : BitVec 16)].length≤(freshContext k).longName.buffer.length := by
    rw [hlong]
    decide
  obtain ⟨longName,hstore,hlen,-⟩ := yields_store hfit
  have hindex : (freshContext k).dirIndex=k := rfl
  rw [fatGetNextDirEntry,hstore,hindex] at hr
  rw [hstart] at hr
  dsimp only at hr
  refine ⟨⟨k,0,0,true,longName⟩,⟨k,pageOffset k,pageOffset k⟩,⟨rfl,rfl,hpage⟩,rfl,
    hlen.trans hlong,fuel,?_⟩
  split at hr
  · exact absurd hr (by simp)
  · exact absurd hr (by simp)
  · rename_i hloop
    exact ⟨none,hloop⟩
  · rename_i f hloop
    exact ⟨some f,hloop⟩

/-- A slot without a place stops the loop with a fault. -/
theorem scanLoop_fault (hc : dir.OnPage c) (hs : s.longName.length=257)
    (hslot : isSlot (dir.slot (c.dirIndex%2^27)))
    (hbad : sequence (dir.slot (c.dirIndex%2^27))=0 ∨
      20≤ sequence (dir.slot (c.dirIndex%2^27))) (fuel : Nat) (r : Option Found) :
    dir.scanLoop fuel c s≠some (.ok r) := by
  cases fuel with
  | zero => simp [scanLoop]
  | succ fuel =>
    have hturn : dir.turn c s = .error .writeOutside := by
      unfold turn
      rw [hc.entryAt]
      generalize dir.slot (c.dirIndex%2^27)=e at hslot hbad
      simp only [isSlot,Bool.and_eq_true,Bool.not_eq_true'] at hslot
      simp [hslot.1.1,hslot.1.2,hslot.2,copySlot_error hs hbad,bind,Except.bind]
    rw [scanLoop,hturn]
    simp

theorem pageOffset_le (n : Nat) : pageOffset n≤2^32-4096 := by
  rw [pageOffset]
  omega

theorem OnPage.exists_advance (hsize : 2^32-4096<dir.fileSize) (hc : dir.OnPage c) :
    ∃ c', dir.advance c=some c' := by
  have hmod : (c.dirIndex+1)%2^32%128=(c.dirIndex+1)%128 :=
    mod_mod_of_dvd _ (by decide)
  unfold Directory.advance
  simp only [entriesPerPage,hmod]
  split
  · rename_i hpage
    have hle := pageOffset_le (c.dirIndex+1)
    rw [pageOffset_succ_of_mod hpage,← hc.offset_eq] at hle
    have hlt : ¬dir.fileSize≤(c.fileOffset+pageSize)%2^32 :=
      not_le_of_gt (lt_of_le_of_lt hle hsize)
    rw [mapPage,if_neg hlt]
    exact ⟨_,rfl⟩
  · exact ⟨_,rfl⟩

/-- Without an end the loop does not return. -/
theorem scanLoop_endless (hends : ∀ k<2^27, endsLoop (dir.slot k)=false)
    (hsize : 2^32-4096<dir.fileSize) (hc : dir.OnPage c) (s : Scan) (fuel : Nat)
    (r : Option Found) : dir.scanLoop fuel c s≠some (.ok r) := by
  induction fuel generalizing c s with
  | zero => simp [scanLoop]
  | succ fuel ih =>
    have hend := hends (c.dirIndex%2^27) (mod_lt _ (by omega))
    obtain ⟨c',hnext⟩ := hc.exists_advance hsize
    have hturn : (∃ fault, dir.turn c s = .error fault) ∨ ∃ s', dir.turn c s =
      .ok (.next c' s') := by
      unfold turn
      rw [hc.entryAt]
      generalize dir.slot (c.dirIndex%2^27)=e at hend
      simp only [endsLoop,Bool.or_eq_false_iff] at hend
      simp only [hend.1,hend.2,Bool.false_eq_true,if_false,hnext]
      cases (if e.isDeleted=true then dropName c s else copySlot e s) with
      | error fault => exact .inl ⟨fault,rfl⟩
      | ok s' => exact .inr ⟨s',rfl⟩
    rw [scanLoop]
    obtain ⟨fault,hturn⟩ | ⟨s',hturn⟩ := hturn
    · rw [hturn]
      simp
    · rw [hturn]
      exact ih (hc.advance hnext).1 s'

/-- The calls for the entries of a directory are safe exactly for a well-formed directory. -/
theorem safe_iff_wellFormed (nls : Nls) (dir : Directory) : dir.Safe nls ↔ dir.WellFormed := by
  refine ⟨fun h => ⟨?_,?_⟩,fun h => h.safe nls⟩
  · intro k hk hpage hslot
    obtain ⟨s,c,hc,hindex,hs,fuel,r,hloop⟩ := scanLoop_of_safe h (by omega) hpage
    have hk' : c.dirIndex%2^27=k := by
      rw [hindex,mod_eq_of_lt hk]
    by_contra hbad
    refine scanLoop_fault hc hs ?_ ?_ fuel r hloop
    · rw [hk']
      exact hslot
    · rw [hk']
      omega
  · by_contra hends
    rw [not_or] at hends
    obtain ⟨hsize,hnone⟩ := hends
    have hlarge : 2^32-4096<dir.fileSize := Nat.lt_of_not_le hsize
    have hpage : pageOffset 0<dir.fileSize := Nat.lt_of_le_of_lt (pageOffset_le 0) hlarge
    obtain ⟨s,c,hc,-,-,fuel,r,hloop⟩ := scanLoop_of_safe h (by omega) hpage
    refine scanLoop_endless (fun k hk => ?_) hlarge hc s fuel r hloop
    by_contra hend
    exact hnone ⟨k,hk,by simpa using hend⟩

def singleByte : Nls where
  unicodeSize := List.length
  oemToUnicode := List.map (BitVec.setWidth 16)
  downcase := fun c => c
  unicodeSize_le := fun _ => le_refl _

def longestName : Directory where
  content := fun a => if a=0 then 0x54 else if a=11 then 0x0f else if a<32 then 0x61 else 0
  fileSize := 4096

theorem longestName_not_safe :
    isSlot (longestName.slot 0) ∧ sequence (longestName.slot 0)=20 ∧
      ¬longestName.Safe singleByte := by
  refine ⟨by decide,by decide,fun h => ?_⟩
  obtain ⟨s,c,hc,hindex,hs,fuel,r,hloop⟩ := scanLoop_of_safe h (k := 0) (by omega) (by decide)
  have hzero : c.dirIndex%2^27=0 := by
    rw [hindex,zero_mod]
  refine scanLoop_fault hc hs ?_ ?_ fuel r hloop
  · rw [hzero]
    decide
  · rw [hzero]
    decide

end Directory

end Odyssey.Fastfat
