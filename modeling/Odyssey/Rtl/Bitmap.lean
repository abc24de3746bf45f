import Mathlib.Tactic

/-! The bitmap routines of `lib/rtl/bitmap.c`, on 32-bit words and with 32-bit arithmetic. -/
namespace Odyssey.Rtl
open BitVec Bool List

structure Bitmap where
  sizeOfBitMap : BitVec 32
  buffer : Nat → BitVec 32

def wordsBit (buffer : Nat → BitVec 32) (i : Nat) : Bool := (buffer (i/32)).getLsbD (i%32)

def Bitmap.bit (b : Bitmap) (i : Nat) : Bool := wordsBit b.buffer i

def rtlInitializeBitMap (buffer : Nat → BitVec 32) (size : BitVec 32) : Bitmap := ⟨size,buffer⟩

def fillWords (buffer : Nat → BitVec 32) (w : Nat) (length fill : BitVec 32) : Nat → BitVec 32 :=
  fun i => if w ≤ i ∧ i<w+(length/4).toNat then fill else buffer i

def orWord (buffer : Nat → BitVec 32) (w : Nat) (mask : BitVec 32) : Nat → BitVec 32 :=
  Function.update buffer w (buffer w ||| mask)

def rtlClearAllBits (b : Bitmap) : Bitmap :=
  let lengthInUlongs := (b.sizeOfBitMap+31) >>> 5
  { b with buffer := fillWords b.buffer 0 (lengthInUlongs <<< 2) 0 }

def setFullWords (buffer : Nat → BitVec 32) (w : Nat) (numberToSet : BitVec 32) : Nat → BitVec 32 :=
  let buffer := fillWords buffer w (numberToSet >>> 3) (allOnes 32)
  let w := w+(numberToSet >>> 5).toNat
  let mask := allOnes 32 <<< (numberToSet &&& 31)
  orWord buffer w (~~~mask)

def rtlSetBits (b : Bitmap) (startingIndex numberToSet : BitVec 32) : Bitmap :=
  let w := (startingIndex >>> 5).toNat
  let bits := startingIndex &&& 31
  if bits≠0 then
    let mask := allOnes 32 <<< bits
    let left := 32-bits
    if numberToSet<left then
      let rest := left-numberToSet
      { b with buffer := orWord b.buffer w (mask <<< rest >>> rest) }
    else
      { b with buffer := setFullWords (orWord b.buffer w mask) (w+1) (numberToSet-left) }
  else { b with buffer := setFullWords b.buffer w numberToSet }

def andWord (buffer : Nat → BitVec 32) (w : Nat) (mask : BitVec 32) : Nat → BitVec 32 :=
  Function.update buffer w (buffer w &&& mask)

def clearFullWords (buffer : Nat → BitVec 32) (w : Nat) (numberToClear : BitVec 32) :
    Nat → BitVec 32 :=
  let buffer := fillWords buffer w (numberToClear >>> 3) 0
  let w := w+(numberToClear >>> 5).toNat
  andWord buffer w (allOnes 32 <<< (numberToClear &&& 31))

def rtlClearBits (b : Bitmap) (startingIndex numberToClear : BitVec 32) : Bitmap :=
  let w := (startingIndex >>> 5).toNat
  let bits := startingIndex &&& 31
  if bits≠0 then
    let mask := allOnes 32 <<< bits
    let left := 32-bits
    if numberToClear<left then
      let rest := left-numberToClear
      { b with buffer := andWord b.buffer w (~~~(mask <<< rest >>> rest)) }
    else
      { b with buffer := clearFullWords (andWord b.buffer w (~~~mask)) (w+1) (numberToClear-left) }
  else { b with buffer := clearFullWords b.buffer w numberToClear }

def bitScanForward (value : BitVec 32) : Nat :=
  ((List.range 32).find? fun i => value.getLsbD i).getD 0

def skipWords (word : Nat → BitVec 32) : Nat → BitVec 32 → Nat → BitVec 32 × Nat
  | 0, value, next => (value, next)
  | n+1, value, next => if value=0 then skipWords word n (word next) (next+1) else (value, next)

def lengthOfRun (view : BitVec 32 → BitVec 32) (b : Bitmap) (startingIndex maxLength : BitVec 32) :
    BitVec 32 :=
  let w := (startingIndex/32).toNat
  let bitPos := startingIndex &&& 31
  let rest := b.sizeOfBitMap-startingIndex
  let maxLength := if maxLength<rest then maxLength else rest
  let maxBuffer := w+((bitPos+maxLength+31)/32).toNat
  let first := view (b.buffer w) >>> bitPos <<< bitPos
  let (value, next) := skipWords (fun i => view (b.buffer i)) (maxBuffer-(w+1)) first (w+1)
  if value=0 then maxLength
  else
    let length := BitVec.ofNat 32 next*32-startingIndex+(BitVec.ofNat 32 (bitScanForward value)-32)
    if rest<length then rest else length

def rtlpGetLengthOfRunClear : Bitmap → BitVec 32 → BitVec 32 → BitVec 32 := lengthOfRun id

def rtlpGetLengthOfRunSet : Bitmap → BitVec 32 → BitVec 32 → BitVec 32 := lengthOfRun (~~~ ·)

section SetBits

variable {buffer : Nat → BitVec 32} {i w : Nat}

theorem toNat_and_31 (n : BitVec 32) : (n &&& 31).toNat=n.toNat%32 := by
  exact Nat.and_two_pow_sub_one_eq_mod n.toNat 5

theorem wordsBit_fillWords (n : BitVec 32) :
    wordsBit (fillWords buffer w (n >>> 3) (allOnes 32)) i =
      (wordsBit buffer i || decide (w ≤ i/32 ∧ i/32<w+n.toNat/32)) := by
  have hn : (n >>> 3/4).toNat=n.toNat/32 := by
    simp [toNat_udiv,Nat.shiftRight_eq_div_pow,Nat.div_div_eq_div_mul]
  unfold wordsBit fillWords
  rw [hn]
  by_cases h : w ≤ i/32 ∧ i/32<w+n.toNat/32
  · rw [if_pos h,getLsbD_allOnes]
    simp [h,Nat.mod_lt]
  · simp [h]

theorem wordsBit_orWord (mask : BitVec 32) :
    wordsBit (orWord buffer w mask) i =
      (wordsBit buffer i || (decide (i/32=w) && mask.getLsbD (i%32))) := by
  unfold wordsBit orWord
  by_cases h : i/32=w
  · simp [h]
  · simp [h]

theorem getLsbD_highMask (n : BitVec 32) (r : Nat) (hr : r<32) :
    (allOnes 32 <<< n).getLsbD r=decide (n.toNat≤r) := by
  rw [shiftLeft_eq',getLsbD_shiftLeft,getLsbD_allOnes,Bool.eq_iff_iff]
  simp only [Bool.and_eq_true,Bool.not_eq_true',decide_eq_true_eq,decide_eq_false_iff_not]
  omega

theorem getLsbD_lowMask (n : BitVec 32) (r : Nat) (hr : r<32) :
    (~~~(allOnes 32 <<< n)).getLsbD r=decide (r<n.toNat) := by
  rw [getLsbD_not,getLsbD_highMask n r hr,decide_eq_true hr,← decide_not]
  simp

theorem wordsBit_setFullWords (n : BitVec 32) :
    wordsBit (setFullWords buffer w n) i =
      (wordsBit buffer i || decide (32*w ≤ i ∧ i<32*w+n.toNat)) := by
  have hw : (n >>> 5).toNat=n.toNat/32 := by
    simp [Nat.shiftRight_eq_div_pow]
  unfold setFullWords
  rw [wordsBit_orWord,wordsBit_fillWords,getLsbD_lowMask _ _ (Nat.mod_lt _ (by decide)),
    toNat_and_31,Bool.or_assoc]
  congr 1
  rw [Bool.eq_iff_iff]
  simp only [or_eq_true,and_eq_true,decide_eq_true_eq]
  omega

/-- The mask of the short case: the `n` bits from bit `k` on, when they end below bit 32. -/
theorem getLsbD_midMask (k n : BitVec 32) (r : Nat) (hr : r<32) (h : k.toNat+n.toNat<32) :
    ((allOnes 32 <<< k) <<< (32-k-n) >>> (32-k-n)).getLsbD r =
      decide (k.toNat≤r ∧ r<k.toNat+n.toNat) := by
  have hd : (32-k-n).toNat=32-k.toNat-n.toNat := by
    rw [toNat_sub_of_le] <;> bv_omega
  rw [ushiftRight_eq',getLsbD_ushiftRight,shiftLeft_eq',getLsbD_shiftLeft,hd,Bool.eq_iff_iff]
  by_cases hlt : r<k.toNat+n.toNat
  · rw [show 32-k.toNat-n.toNat+r-(32-k.toNat-n.toNat)=r by omega,getLsbD_highMask k r hr]
    simp only [and_eq_true,not_eq_true',decide_eq_true_eq,decide_eq_false_iff_not]
    omega
  · simp only [and_eq_true,not_eq_true',decide_eq_true_eq,decide_eq_false_iff_not]
    omega

end SetBits

@[simp] theorem sizeOfBitMap_rtlSetBits (b : Bitmap) (startingIndex numberToSet : BitVec 32) :
    (rtlSetBits b startingIndex numberToSet).sizeOfBitMap=b.sizeOfBitMap := by
  unfold rtlSetBits
  dsimp only
  split_ifs <;> rfl

/-- `RtlSetBits` sets the bits of its range and no other bit. -/
theorem rtlSetBits_bit (b : Bitmap) (startingIndex numberToSet : BitVec 32) (i : Nat) :
    (rtlSetBits b startingIndex numberToSet).bit i =
      (b.bit i || decide (startingIndex.toNat ≤ i ∧ i<startingIndex.toNat+numberToSet.toNat)) := by
  have hw : (startingIndex >>> 5).toNat=startingIndex.toNat/32 := by
    simp [Nat.shiftRight_eq_div_pow]
  have hk := toNat_and_31 startingIndex
  have hr : i%32<32 := Nat.mod_lt _ (by decide)
  have hleft : (32-(startingIndex &&& 31)).toNat=32-startingIndex.toNat%32 := by
    rw [toNat_sub_of_le (by bv_omega),hk]
    rfl
  unfold rtlSetBits
  by_cases hbits : startingIndex &&& 31≠0
  · rw [if_pos hbits]
    by_cases hlt : numberToSet<32-(startingIndex &&& 31)
    · rw [if_pos hlt]
      rw [lt_def] at hlt
      simp only [Bitmap.bit]
      rw [wordsBit_orWord,getLsbD_midMask _ _ _ hr (by omega),hk]
      congr 1
      rw [Bool.eq_iff_iff]
      simp only [Bool.and_eq_true,decide_eq_true_eq]
      omega
    · rw [if_neg hlt]
      rw [lt_def] at hlt
      simp only [Bitmap.bit]
      rw [wordsBit_setFullWords,wordsBit_orWord,getLsbD_highMask _ _ hr,hk,
        toNat_sub_of_le (by rw [le_def]; omega),Bool.or_assoc]
      congr 1
      rw [Bool.eq_iff_iff]
      simp only [or_eq_true,and_eq_true,decide_eq_true_eq]
      omega
  · rw [if_neg hbits]
    have hzero : startingIndex.toNat%32=0 := by
      rw [← hk,not_not.mp hbits]
      rfl
    simp only [Bitmap.bit]
    rw [wordsBit_setFullWords,hw,show 32*(startingIndex.toNat/32)=startingIndex.toNat by omega]

section ClearBits
variable {buffer : Nat → BitVec 32} {w : Nat}

theorem not_orWord (mask : BitVec 32) :
    (fun i => ~~~orWord buffer w mask i)=andWord (fun i => ~~~buffer i) w (~~~mask) := by
  funext i
  by_cases h : i=w <;> simp [orWord,andWord,h,BitVec.not_or]

theorem not_setFullWords (n : BitVec 32) :
    (fun i => ~~~setFullWords buffer w n i)=clearFullWords (fun i => ~~~buffer i) w n := by
  have hfill : (fun i => ~~~fillWords buffer w (n >>> 3) (allOnes 32) i) =
      fillWords (fun i => ~~~buffer i) w (n >>> 3) 0 := by
    funext i
    simp [fillWords,apply_ite (~~~ ·)]
  rw [setFullWords,not_orWord,hfill,BitVec.not_not]
  rfl

end ClearBits

/-- Clearing bits is setting them in the complement of the map. -/
theorem rtlClearBits_eq (b : Bitmap) (s n : BitVec 32) :
    rtlClearBits b s n =
      ⟨b.sizeOfBitMap,fun i =>
        ~~~(rtlSetBits ⟨b.sizeOfBitMap,fun i => ~~~b.buffer i⟩ s n).buffer i⟩ := by
  unfold rtlClearBits rtlSetBits
  dsimp only
  split_ifs
  · simp [not_orWord]
  · simp [not_setFullWords,not_orWord]
  · simp [not_setFullWords]

theorem bit_not (size : BitVec 32) (f : Nat → BitVec 32) (i : Nat) :
    Bitmap.bit ⟨size,fun i => ~~~f i⟩ i = !wordsBit f i := by
  simp [Bitmap.bit,wordsBit,Nat.mod_lt]

/-- The two routines change the bits of their range and no other bit. -/
theorem bit_range_writes (b : Bitmap) (s n : BitVec 32) (i : Nat) :
    (rtlSetBits b s n).bit i=(if s.toNat ≤ i ∧ i<s.toNat+n.toNat then true else b.bit i) ∧
      (rtlClearBits b s n).bit i=(if s.toNat ≤ i ∧ i<s.toNat+n.toNat then false else b.bit i) := by
  rw [rtlClearBits_eq,bit_not,← Bitmap.bit,rtlSetBits_bit,rtlSetBits_bit,bit_not]
  by_cases h : s.toNat ≤ i ∧ i<s.toNat+n.toNat
  · simp [h]
  · simp [h,Bitmap.bit]

theorem bit_rtlClearAllBits (b : Bitmap) (hb : b.sizeOfBitMap.toNat≤2^31) (i : Nat)
    (hi : i<b.sizeOfBitMap.toNat) : (rtlClearAllBits b).bit i=false := by
  have hn : ((b.sizeOfBitMap+31) >>> 5 <<< 2/4).toNat=(b.sizeOfBitMap.toNat+31)/32 := by
    simp [toNat_udiv,Nat.shiftRight_eq_div_pow,Nat.shiftLeft_eq]
    omega
  have hw : 0 ≤ i/32 ∧ i/32<0+(b.sizeOfBitMap.toNat+31)/32 := by omega
  simp only [rtlClearAllBits,Bitmap.bit,wordsBit,fillWords]
  rw [hn,if_pos hw]
  simp

theorem bit_of_rtlClearAllBits {b : Bitmap} {i : Nat} (h : (rtlClearAllBits b).bit i=true) :
    b.bit i=true := by
  simp only [rtlClearAllBits,Bitmap.bit,wordsBit,fillWords] at h ⊢
  split_ifs at h with hw
  · simp at h
  · exact h

section Runs

theorem bitScanForward_spec {value : BitVec 32} (h : value≠0) :
    bitScanForward value<32 ∧ value.getLsbD (bitScanForward value)=true ∧
      ∀ j<bitScanForward value, value.getLsbD j=false := by
  unfold bitScanForward
  cases hf : (List.range 32).find? value.getLsbD with
  | none =>
    refine absurd (eq_of_getLsbD_eq fun i hi => ?_) h
    have := List.find?_eq_none.mp hf i (mem_range.mpr hi)
    simpa using this
  | some k =>
    obtain ⟨hk,hlt,hmin⟩ := List.find?_range_eq_some.mp hf
    exact ⟨mem_range.mp hlt,hk,by simpa using hmin⟩

def wordsFrom (word : Nat → BitVec 32) (value : BitVec 32) (next : Nat) : Nat → BitVec 32
  | 0 => value
  | k+1 => word (next+k)

/-- The skip loop stops at the first word that is not zero, or after `n` words. -/
theorem skipWords_spec (word : Nat → BitVec 32) (n : Nat) (value : BitVec 32) (next : Nat) :
    ∃ k≤n, skipWords word n value next=(wordsFrom word value next k, next+k) ∧
      (∀ i<k, wordsFrom word value next i=0) ∧
      (wordsFrom word value next k≠0 ∨ k=n) := by
  induction n generalizing value next with
  | zero => exact ⟨0,le_rfl,rfl,by simp,.inr rfl⟩
  | succ n ih =>
    by_cases hv : value=0
    · obtain ⟨k,hk,hr,hz,hstop⟩ := ih (word next) (next+1)
      have hshift : ∀ i, wordsFrom word value next (i+1) =
          wordsFrom word (word next) (next+1) i := by
        intro i
        cases i with
        | zero => rfl
        | succ i => simp only [wordsFrom,Nat.add_right_comm,Nat.add_assoc]
      refine ⟨k+1,Nat.succ_le_succ hk,?_,?_,?_⟩
      · rw [skipWords,if_pos hv,hr,hshift,Nat.add_assoc,Nat.add_comm 1]
      · intro i hi
        cases i with
        | zero => exact hv
        | succ i => exact (hshift i).trans (hz i (Nat.lt_of_succ_lt_succ hi))
      · rw [hshift]
        exact hstop.imp_right (congrArg (· + 1))
    · exact ⟨0,Nat.zero_le _,by rw [skipWords,if_neg hv]; rfl,by simp,.inl hv⟩

variable {v : BitVec 32 → BitVec 32} {b : Bitmap}

structure IsRun (viewBit : Nat → Bool) (size s m r : Nat) : Prop where
  le : s+r≤ size
  clear : ∀ j, s≤j → j<s+r → viewBit j=false
  stop : min m (size-s)≤r ∨ viewBit (s+r)=true

def Bitmap.viewBit (v : BitVec 32 → BitVec 32) (b : Bitmap) : Nat → Bool :=
  wordsBit fun i => v (b.buffer i)

/-- The words the loop looks at, seen as bits: those before the starting index are masked. -/
theorem getLsbD_wordsFrom (s : BitVec 32) (k r : Nat) (hr : r<32) :
    (wordsFrom (fun i => v (b.buffer i))
        (v (b.buffer (s/32).toNat) >>> (s &&& 31) <<< (s &&& 31)) ((s/32).toNat+1) k).getLsbD r =
      (decide (s.toNat≤32*(s.toNat/32+k)+r) &&
        b.viewBit v (32*(s.toNat/32+k)+r)) := by
  have hbit : b.viewBit v (32*(s.toNat/32+k)+r) =
      (v (b.buffer (s.toNat/32+k))).getLsbD r := by
    unfold Bitmap.viewBit wordsBit
    rw [show (32*(s.toNat/32+k)+r)/32=s.toNat/32+k by omega,
      show (32*(s.toNat/32+k)+r)%32=r by omega]
  rw [hbit]
  cases k with
  | zero =>
    simp only [wordsFrom,Nat.add_zero]
    rw [shiftLeft_eq',ushiftRight_eq',getLsbD_shiftLeft,
      getLsbD_ushiftRight,toNat_and_31,decide_eq_true hr]
    by_cases h : r<s.toNat%32
    · rw [decide_eq_true h,decide_eq_false (by omega)]
      rfl
    · rw [decide_eq_false h,decide_eq_true (by omega),
        show s.toNat%32+(r-s.toNat%32)=r by omega]
      rfl
  | succ k =>
    rw [decide_eq_true (by omega),← Nat.add_assoc,Nat.add_right_comm]
    rfl

/-- The length up to the bit that was found, computed without wrapping. -/
theorem toNat_runLength {s : BitVec 32} {k p : Nat} (hs : s.toNat<2^32)
    (hk : 32*(s.toNat/32+k)<2^32) (hp : p<32)
    (hle : s.toNat≤32*(s.toNat/32+k)+p) :
    (BitVec.ofNat 32 (s.toNat/32+1+k)*32-s+(BitVec.ofNat 32 p-32)).toNat =
      32*(s.toNat/32+k)+p-s.toNat := by
  have h32 : (32 : BitVec 32).toNat=32 := rfl
  simp only [toNat_add,toNat_sub,toNat_mul,toNat_ofNat,h32]
  omega

/-- The sum that bounds the scan wraps only for a map of almost `2 ^ 32` bits, from its first word
on. -/
theorem lengthOfRun_spec (s m : BitVec 32) (hs : s.toNat≤b.sizeOfBitMap.toNat)
    (hb : b.sizeOfBitMap.toNat+31<2^32 ∨ 32≤ s.toNat) :
    IsRun (b.viewBit v) b.sizeOfBitMap.toNat s.toNat m.toNat (lengthOfRun v b s m).toNat := by
  have hrest : (b.sizeOfBitMap-s).toNat=b.sizeOfBitMap.toNat-s.toNat :=
    toNat_sub_of_le (le_def.mpr hs)
  have hw : (s/32).toNat=s.toNat/32 := toNat_udiv
  have hk31 := toNat_and_31 s
  unfold lengthOfRun
  dsimp only
  generalize hM : (if m<b.sizeOfBitMap-s then m else b.sizeOfBitMap-s)=M
  have hMn : M.toNat=min m.toNat (b.sizeOfBitMap.toNat-s.toNat) := by
    rw [← hM]
    by_cases h : m<b.sizeOfBitMap-s
    · rw [if_pos h]
      rw [lt_def] at h
      omega
    · rw [if_neg h]
      rw [lt_def] at h
      omega
  have hmax : (((s &&& 31)+M+31)/32).toNat=(s.toNat%32+M.toNat+31)/32 := by
    have h31 : (31 : BitVec 32).toNat=31 := rfl
    have h32 : (32 : BitVec 32).toNat=32 := rfl
    rw [toNat_udiv,toNat_add,toNat_add,h31,h32]
    omega
  obtain ⟨k,hk,hr,hzero,hstop⟩ := skipWords_spec (fun i => v (b.buffer i))
    ((s/32).toNat+(((s &&& 31)+M+31)/32).toNat-((s/32).toNat+1))
    (v (b.buffer (s/32).toNat) >>> (s &&& 31) <<< (s &&& 31)) ((s/32).toNat+1)
  rw [hr]
  generalize hword : wordsFrom (fun i => v (b.buffer i))
    (v (b.buffer (s/32).toNat) >>> (s &&& 31) <<< (s &&& 31)) ((s/32).toNat+1)=word at hzero hstop ⊢
  have hbit : ∀ j, s.toNat≤j →
      (word (j/32-s.toNat/32)).getLsbD (j%32)=b.viewBit v j := by
    intro j hj
    rw [← hword,getLsbD_wordsFrom _ _ _ (Nat.mod_lt _ (by decide)),
      show 32*(s.toNat/32+(j/32-s.toNat/32))+j%32=j by omega,decide_eq_true hj,
      Bool.true_and]
  -- the words that were skipped are clear, and so are the first bits of the last one
  have hclear : ∀ n≤32, (∀ r<n, (word k).getLsbD r=false) →
      ∀ j, s.toNat≤j → j<32*(s.toNat/32+k)+n → b.viewBit v j=false := by
    intro n hn hlow j hj hlt
    rw [← hbit j hj]
    by_cases hj' : j/32-s.toNat/32<k
    · rw [hzero _ hj']
      exact getLsbD_zero
    · rw [show j/32-s.toNat/32=k by omega]
      exact hlow _ (by omega)
  by_cases hv : word k=0
  · rw [if_pos hv]
    have hkn := hstop.resolve_left (not_not.mpr hv)
    refine ⟨by omega,fun j hj hlt => ?_,.inl (by omega)⟩
    exact hclear 32 le_rfl (fun r _ => by rw [hv]; exact getLsbD_zero) j hj (by omega)
  · rw [if_neg hv]
    obtain ⟨hlt,hset,hlow⟩ := bitScanForward_spec hv
    generalize bitScanForward _=p at hlt hset hlow ⊢
    have hclear := hclear p hlt.le hlow
    rw [← hword,getLsbD_wordsFrom s k p hlt,and_eq_true,decide_eq_true_eq] at hset
    generalize hL : BitVec.ofNat 32 ((s/32).toNat+1+k)*32-s+(BitVec.ofNat 32 p-32)=L
    have hLn : L.toNat=32*(s.toNat/32+k)+p-s.toNat := by
      have hbound : 32*(s.toNat/32+k)<2^32 := by omega
      rw [← hL,hw]
      exact toNat_runLength s.isLt hbound hlt hset.1
    by_cases hle : b.sizeOfBitMap-s<L
    · rw [if_pos hle,hrest]
      rw [lt_def,hrest,hLn] at hle
      exact ⟨by omega,fun j hj hlt' => hclear j hj (by omega),.inl (by omega)⟩
    · rw [if_neg hle,hLn]
      rw [lt_def,hrest,hLn] at hle
      refine ⟨by omega,fun j hj hlt' => hclear j hj (by omega),.inr ?_⟩
      rw [show s.toNat+(32*(s.toNat/32+k)+p-s.toNat)=32*(s.toNat/32+k)+p by omega]
      exact hset.2

theorem viewBit_not : b.viewBit (~~~ ·)=fun i => !b.bit i := by
  funext i
  simp [Bitmap.viewBit,Bitmap.bit,wordsBit,Nat.mod_lt]

variable {s : BitVec 32} (hs : s.toNat≤b.sizeOfBitMap.toNat)
  (hb : b.sizeOfBitMap.toNat+31<2^32 ∨ 32≤ s.toNat) (m : BitVec 32)
include hs hb

theorem rtlpGetLengthOfRunClear_spec : IsRun b.bit b.sizeOfBitMap.toNat s.toNat m.toNat
    (rtlpGetLengthOfRunClear b s m).toNat :=
  lengthOfRun_spec (v := id) s m hs hb

theorem rtlpGetLengthOfRunSet_spec : IsRun (fun i => !b.bit i) b.sizeOfBitMap.toNat s.toNat m.toNat
    (rtlpGetLengthOfRunSet b s m).toNat := by
  rw [← viewBit_not]
  exact lengthOfRun_spec s m hs hb

end Runs

/-- `BitCountTable`: the row of a high digit is the first row, with the digit's bits added. -/
def bitCountTable : List Nat :=
  let row := [0,1,1,2,1,2,2,3,1,2,2,3,2,3,3,4]
  row.flatMap fun k => row.map (k + ·)

def Bitmap.byte (b : Bitmap) (k : Nat) : BitVec 8 := (b.buffer (k/4)).extractLsb' (8*(k%4)) 8

/-- The loop tests `Byte <= MaxByte` after it has advanced; `left` is the distance. -/
def countLoop (b : Bitmap) : Nat → Nat → BitVec 32 → BitVec 32
  | left, byte, bitCount =>
    let bitCount := bitCount+BitVec.ofNat 32 (bitCountTable.getD (b.byte byte).toNat 0)
    match left with
    | 0 => bitCount
    | left+1 => countLoop b left (byte+1) bitCount

def rtlNumberOfSetBits (b : Bitmap) : BitVec 32 := countLoop b ((b.sizeOfBitMap+7)/8).toNat 0 0

def rtlNumberOfClearBits (b : Bitmap) : BitVec 32 := b.sizeOfBitMap-rtlNumberOfSetBits b

def setBitsBelow (b : Bitmap) (n : Nat) : Nat := (List.range n).countP b.bit

def CountsExactly (b : Bitmap) : Prop :=
  rtlNumberOfSetBits b=BitVec.ofNat 32 (setBitsBelow b b.sizeOfBitMap.toNat) ∧
    rtlNumberOfClearBits b =
      b.sizeOfBitMap-BitVec.ofNat 32 (setBitsBelow b b.sizeOfBitMap.toNat)
deriving Decidable

section Count
variable {b : Bitmap}

theorem bitCountTable_getD (v : BitVec 8) :
    bitCountTable.getD v.toNat 0=(List.range 8).countP v.getLsbD := by
  have h : ∀ n<256, bitCountTable.getD n 0=(List.range 8).countP (BitVec.ofNat 8 n).getLsbD := by
    decide +kernel
  simpa using h v.toNat v.isLt

theorem getLsbD_byte {k j : Nat} (hj : j<8) : (b.byte k).getLsbD j=b.bit (8*k+j) := by
  rw [Bitmap.byte,getLsbD_extractLsb',decide_eq_true hj,Bool.true_and,Bitmap.bit,wordsBit,
    show (8*k+j)/32=k/4 by omega,show (8*k+j)%32=8*(k%4)+j by omega]

theorem setBitsBelow_add (n k : Nat) :
    setBitsBelow b (n+k)=setBitsBelow b n+(List.range k).countP fun j => b.bit (n+j) := by
  rw [setBitsBelow,range_add,countP_append,countP_map]
  rfl

theorem setBitsBelow_byte (k : Nat) :
    setBitsBelow b (8*(k+1))=setBitsBelow b (8*k)+bitCountTable.getD (b.byte k).toNat 0 := by
  rw [Nat.mul_succ,setBitsBelow_add,bitCountTable_getD]
  congr 1
  refine countP_congr fun j hj => ?_
  rw [getLsbD_byte (mem_range.mp hj)]

theorem countLoop_eq (left byte : Nat) :
    countLoop b left byte (BitVec.ofNat 32 (setBitsBelow b (8*byte))) =
      BitVec.ofNat 32 (setBitsBelow b (8*(byte+left+1))) := by
  induction left generalizing byte with
  | zero => rw [countLoop,← ofNat_add,← setBitsBelow_byte]
  | succ left ih =>
    rw [countLoop,← ofNat_add,← setBitsBelow_byte,ih,Nat.add_right_comm byte,Nat.add_assoc byte]

theorem ofNat_setBitsBelow_iff {m n : Nat} (hmn : m≤n) (hn : n-m<2^32) :
    BitVec.ofNat 32 (setBitsBelow b m)=BitVec.ofNat 32 (setBitsBelow b n) ↔
      ∀ i, b.bit i=true → (i< m ↔ i<n) := by
  obtain ⟨k,rfl⟩ := Nat.exists_eq_add_of_le hmn
  have hle : ((List.range k).countP fun j => b.bit (m+j))≤k :=
    countP_le_length.trans_eq length_range
  rw [setBitsBelow_add,← toNat_inj,toNat_ofNat,toNat_ofNat]
  trans ((List.range k).countP fun j => b.bit (m+j))=0
  · omega
  rw [countP_eq_zero]
  constructor
  · intro h i hi
    refine ⟨fun hlt => by omega,fun hlt => not_le.mp fun hge => ?_⟩
    have := h (i-m) (mem_range.mpr (by omega))
    rw [Nat.add_sub_cancel' hge] at this
    exact this hi
  · intro h j hj hbit
    have := (h (m+j) hbit).mpr (Nat.add_lt_add_left (mem_range.mp hj) m)
    omega

end Count

/-- The counts are exact if and only if the bits of the bytes that are read are those of the map:
the loop reads one byte more than the map has, and all bits of its last byte. -/
theorem countsExactly_iff (b : Bitmap) :
    CountsExactly b ↔ ∀ i, b.bit i=true →
      (i<b.sizeOfBitMap.toNat ↔ i<8*(((b.sizeOfBitMap+7)/8).toNat+1)) := by
  have hcount : rtlNumberOfSetBits b =
      BitVec.ofNat 32 (setBitsBelow b (8*(((b.sizeOfBitMap+7)/8).toNat+1))) := by
    rw [rtlNumberOfSetBits,← Nat.zero_add ((b.sizeOfBitMap+7)/8).toNat,← countLoop_eq,Nat.zero_add]
    rfl
  have hread : ((b.sizeOfBitMap+7)/8).toNat=(b.sizeOfBitMap.toNat+7)%2^32/8 := by
    rfl
  have hclear : CountsExactly b ↔
      rtlNumberOfSetBits b=BitVec.ofNat 32 (setBitsBelow b b.sizeOfBitMap.toNat) :=
    ⟨And.left,fun h => ⟨h,by rw [rtlNumberOfClearBits,h]⟩⟩
  rw [hclear,hcount,hread]
  obtain hle | hle := le_total b.sizeOfBitMap.toNat (8*((b.sizeOfBitMap.toNat+7)%2^32/8+1))
  · rw [eq_comm,ofNat_setBitsBelow_iff hle (by omega)]
  · rw [ofNat_setBitsBelow_iff hle (by omega)]
    exact forall_congr' fun i => imp_congr_right fun _ => Iff.comm

/-- A bit behind the map, in a byte of its last word. -/
theorem not_countsExactly_slack : ¬CountsExactly ⟨8,fun _ => 0x100⟩ := by decide +kernel

end Odyssey.Rtl
