import Odyssey.Fastfat.Fat

/-! The tables are arrays of entries: writing an entry changes that entry alone. -/
namespace Odyssey.Fastfat

open ByteMem Function BitVec

theorem read16_toNat (f : Mem) (o : Nat) : (read16 f o).toNat=(f o).toNat+256*(f (o+1)).toNat := by
  have hlow := (f o).isLt
  rw [read16,toNat_append,← Nat.shiftLeft_add_eq_or_of_lt hlow,Nat.shiftLeft_eq]
  omega

theorem toNat_and_low (b : BitVec 8) : (b &&& 0x0f#8).toNat=b.toNat%16 := by
  exact Nat.and_two_pow_sub_one_eq_mod b.toNat 4

/-- Replacing the low half of a byte. -/
theorem toNat_or_low (b x : BitVec 8) (hx : x.toNat<16) :
    ((b &&& 0xf0#8) ||| x).toNat=b.toNat/16*16+x.toNat := by
  have hhigh : b &&& 0xf0#8=(b >>> 4) <<< 4 := by
    revert b
    decide
  have hshift : ((b >>> 4) <<< 4).toNat=(b.toNat/16) <<< 4 := by
    rw [toNat_shiftLeft,toNat_ushiftRight,Nat.shiftRight_eq_div_pow,Nat.shiftLeft_eq]
    omega
  rw [hhigh,toNat_or,hshift,← Nat.shiftLeft_add_eq_or_of_lt hx,Nat.shiftLeft_eq]

/-- Replacing the high half of a byte. -/
theorem toNat_or_high (b : BitVec 8) {x : BitVec 8} {n : Nat} (hx : x.toNat=n*16) :
    ((b &&& 0x0f#8) ||| x).toNat=b.toNat%16+n*16 := by
  have hlow : b.toNat%16<2^4 := Nat.mod_lt _ (by decide)
  have hshift : n*16=n <<< 4 := by
    rw [Nat.shiftLeft_eq]
  rw [toNat_or,toNat_and_low,hx,hshift,Nat.or_comm,
    ← Nat.shiftLeft_add_eq_or_of_lt hlow,Nat.add_comm]

theorem fat12Entry_even (f : Mem) (k : Nat) :
    fat12Entry f (2*k)=(f (3*k)).toNat+256*((f (3*k+1)).toNat%16) := by
  have hoff : 2*k*12/8=3*k := by omega
  have hand : (read16 f (3*k) &&& 0x0fff#16).toNat=(read16 f (3*k)).toNat%2^12 := by
    exact Nat.and_two_pow_sub_one_eq_mod _ 12
  rw [fat12Entry,if_pos (by omega),hoff,hand,read16_toNat]
  omega

theorem fat12Entry_odd (f : Mem) (k : Nat) :
    fat12Entry f (2*k+1)=(f (3*k+1)).toNat/16+16*(f (3*k+2)).toNat := by
  have hoff : (2*k+1)*12/8=3*k+1 := by omega
  have hnext : 3*k+1+1=3*k+2 := rfl
  rw [fat12Entry,if_neg (by omega),hoff,toNat_ushiftRight,Nat.shiftRight_eq_div_pow,
    read16_toNat,hnext]
  omega

theorem fat12Entry_lt (f : Mem) (c : Nat) : fat12Entry f c<2^12 := by
  obtain ⟨k,rfl | rfl⟩ : ∃ k, c=2*k ∨ c=2*k+1 := ⟨c/2,by omega⟩
  · have hlow := (f (3*k)).isLt
    rw [fat12Entry_even]
    omega
  · have hmid := (f (3*k+1)).isLt
    rw [fat12Entry_odd]
    omega

/-- The bytes of a write to an even cluster. -/
theorem fat12WriteCluster_even (f : Mem) (k v : Nat) :
    ∃ low mid : BitVec 8, low.toNat=v%256 ∧
      mid.toNat=(f (3*k+1)).toNat/16*16+v/256%16 ∧
      (fat12WriteCluster f (2*k) v).1 =
        update (update f (3*k) low) (3*k+1) mid := by
  have hoff : 2*k*12/8=3*k := by omega
  set x : BitVec 8 := ((BitVec.ofNat 32 v &&& 0xf00#32) >>> 8).setWidth 8 with hx
  have hxv : x.toNat=v/256%16 := by
    have hand : ((BitVec.ofNat 32 v &&& 0xf00#32) >>> 8)=(BitVec.ofNat 32 v >>> 8) &&& 0xf#32 := by
      rw [ushiftRight_and_distrib]
      rfl
    have hmask : ((BitVec.ofNat 32 v >>> 8) &&& 0xf#32).toNat =
        (BitVec.ofNat 32 v >>> 8).toNat%2^4 := by
      exact Nat.and_two_pow_sub_one_eq_mod _ 4
    rw [hx,toNat_setWidth,hand,hmask,toNat_ushiftRight,toNat_ofNat,Nat.shiftRight_eq_div_pow]
    omega
  have hmid := toNat_or_low (f (3*k+1)) x (by omega)
  refine ⟨(BitVec.ofNat 32 v).setWidth 8,(f (3*k+1) &&& 0xf0#8) ||| x,?_,by rw [hmid,hxv],?_⟩
  · rw [toNat_setWidth,toNat_ofNat]
    omega
  · rw [fat12WriteCluster,if_pos (by omega),hoff,hx]

/-- The bytes of a write to an odd cluster. -/
theorem fat12WriteCluster_odd (f : Mem) (k v : Nat) :
    ∃ mid high : BitVec 8, mid.toNat=(f (3*k+1)).toNat%16+v%16*16 ∧
      high.toNat=v/16%256 ∧
      (fat12WriteCluster f (2*k+1) v).1 =
        update (update f (3*k+1) mid) (3*k+2) high := by
  have hoff : (2*k+1)*12/8=3*k+1 := by omega
  set x : BitVec 8 := ((BitVec.ofNat 32 v &&& 0xf#32) <<< 4).setWidth 8 with hx
  have hxv : x.toNat=v%16*16 := by
    have hmask : (BitVec.ofNat 32 v &&& 0xf#32).toNat=(BitVec.ofNat 32 v).toNat%2^4 := by
      exact Nat.and_two_pow_sub_one_eq_mod _ 4
    rw [hx,toNat_setWidth,toNat_shiftLeft,hmask,toNat_ofNat,Nat.shiftLeft_eq]
    omega
  have hmid := toNat_or_high (f (3*k+1)) hxv
  refine ⟨(f (3*k+1) &&& 0x0f#8) ||| x,(BitVec.ofNat 32 v >>> 4).setWidth 8,hmid,?_,?_⟩
  · rw [toNat_setWidth,toNat_ushiftRight,toNat_ofNat,Nat.shiftRight_eq_div_pow]
    omega
  · rw [fat12WriteCluster,if_neg (by omega),hoff,hx]

/-- A write returns the entry that was there. -/
theorem fat12WriteCluster_old (f : Mem) (c v : Nat) :
    (fat12WriteCluster f c v).2=fat12Entry f c := by
  obtain ⟨k,rfl | rfl⟩ : ∃ k, c=2*k ∨ c=2*k+1 := ⟨c/2,by omega⟩
  · have hoff : 2*k*12/8=3*k := by omega
    rw [fat12WriteCluster,if_pos (by omega),hoff,fat12Entry_even,toNat_and_low,Nat.shiftLeft_eq]
    omega
  · have hoff : (2*k+1)*12/8=3*k+1 := by omega
    have hnext : 3*k+1+1=3*k+2 := rfl
    rw [fat12WriteCluster,if_neg (by omega),hoff,fat12Entry_odd,hnext,
      toNat_ushiftRight,Nat.shiftRight_eq_div_pow,Nat.shiftLeft_eq]
    omega

/-- A write changes the entry of its cluster alone. -/
theorem fat12Entry_write (f : Mem) (c v d : Nat) :
    fat12Entry (fat12WriteCluster f c v).1 d=if d=c then v%2^12 else fat12Entry f d := by
  obtain ⟨k,hk⟩ : ∃ k, c=2*k ∨ c=2*k+1 := ⟨c/2,by omega⟩
  obtain ⟨j,hj⟩ : ∃ j, d=2*j ∨ d=2*j+1 := ⟨d/2,by omega⟩
  obtain rfl | rfl := hk
  · obtain ⟨low,mid,hlow,hmid,h⟩ := fat12WriteCluster_even f k v
    rw [h]
    obtain rfl | rfl := hj
    · rw [fat12Entry_even,fat12Entry_even]
      by_cases hkj : j=k
      · subst hkj
        rw [if_pos rfl,update_self,update_of_ne (by omega),update_self,hlow,hmid]
        omega
      · rw [if_neg (by omega),update_of_ne (by omega),update_of_ne (by omega),
          update_of_ne (by omega),update_of_ne (by omega)]
    · rw [if_neg (by omega),fat12Entry_odd,fat12Entry_odd]
      by_cases hkj : j=k
      · subst hkj
        rw [update_self,update_of_ne (by omega),update_of_ne (by omega),hmid]
        omega
      · rw [update_of_ne (by omega),update_of_ne (by omega),
          update_of_ne (by omega),update_of_ne (by omega)]
  · obtain ⟨mid,high,hmid,hhigh,h⟩ := fat12WriteCluster_odd f k v
    rw [h]
    obtain rfl | rfl := hj
    · rw [if_neg (by omega),fat12Entry_even,fat12Entry_even]
      by_cases hkj : j=k
      · subst hkj
        rw [update_of_ne (by omega),update_of_ne (by omega),
          update_of_ne (by omega),update_self,hmid]
        omega
      · rw [update_of_ne (by omega),update_of_ne (by omega),
          update_of_ne (by omega),update_of_ne (by omega)]
    · rw [fat12Entry_odd,fat12Entry_odd]
      by_cases hkj : j=k
      · subst hkj
        rw [if_pos rfl,update_self,update_of_ne (by omega),update_self,hmid,hhigh]
        omega
      · rw [if_neg (by omega),update_of_ne (by omega),update_of_ne (by omega),
          update_of_ne (by omega),update_of_ne (by omega)]

/-- The mark of the search is a write of the last value. -/
theorem fat12Mark_eq (f : Mem) (c : Nat) : fat12Mark f c=(fat12WriteCluster f c 0xfff).1 := by
  unfold fat12Mark fat12WriteCluster write16 read16
  dsimp only
  split
  · congr 1
    · congr 1
      rw [extractLsb'_or,extractLsb'_and,extractLsb'_append_eq_right]
      simp
    · rw [extractLsb'_or,extractLsb'_and,extractLsb'_append_eq_left]
      rfl
  · congr 1
    · congr 1
      rw [extractLsb'_or,extractLsb'_and,extractLsb'_append_eq_right]
      rfl
    · rw [extractLsb'_or,extractLsb'_and,extractLsb'_append_eq_left]
      simp

/-- The packed entries obey the laws of an array, and the mark of the search is a write. -/
theorem fat12_array_laws (f : Mem) (c d v : Nat) (hv : v<0x1000) :
    fat12GetNextCluster (fat12WriteCluster f c v).1 c=(if 0xff8≤v then 0xffffffff else v) ∧
    (d≠c → fat12GetNextCluster (fat12WriteCluster f c v).1 d=fat12GetNextCluster f d) ∧
    (fat12WriteCluster f c v).2=fat12Entry f c ∧
    fat12Mark f c=(fat12WriteCluster f c 0xfff).1 := by
  refine ⟨?_,?_,fat12WriteCluster_old f c v,fat12Mark_eq f c⟩
  · have hmod : v%2^12=v := Nat.mod_eq_of_lt hv
    rw [fat12GetNextCluster,fat12Entry_write,if_pos rfl,hmod]
    by_cases h : 0xff8≤v
    · rw [if_pos ⟨h,by omega⟩,if_pos h,endMark]
    · rw [if_neg (fun h' => h h'.1),if_neg h]
  · intro h
    rw [fat12GetNextCluster,fat12Entry_write,if_neg h,fat12GetNextCluster]

/-- The entry between two others, in a table of bytes `0xA5`. -/
theorem fat12_array_laws_between :
    fat12GetNextCluster (fat12WriteCluster (fun _ => 0xA5) 3 0x123).1 3=0x123 ∧
    fat12GetNextCluster (fat12WriteCluster (fun _ => 0xA5) 3 0x123).1 2=0x5A5 ∧
    fat12GetNextCluster (fat12WriteCluster (fun _ => 0xA5) 3 0x123).1 4=0x5A5 ∧
    (fat12WriteCluster (fun _ => 0xA5) 3 0x123).2=0xA5A ∧
    fat12Mark (fun _ => 0xA5) 3=(fat12WriteCluster (fun _ => 0xA5) 3 0xfff).1 := by
  obtain ⟨hself,hbefore,hold,hmark⟩ := fat12_array_laws (fun _ => 0xA5) 3 2 0x123 (by decide)
  have hbehind := (fat12_array_laws (fun _ => 0xA5) 3 4 0x123 (by decide)).2.1 (by decide)
  exact ⟨hself,hbefore (by decide),hbehind,hold,hmark⟩

theorem read16_write16 (f : Mem) (o : Nat) (v : BitVec 16) : read16 (write16 f o v) o=v := by
  rw [read16,write16,update_self,update_of_ne (by omega),
    update_self,extractLsb'_append_extractLsb'_eq_extractLsb' (by omega)]
  simp

theorem read16_write16_of_disjoint (f : Mem) {o p : Nat} (v : BitVec 16)
    (h : p+2≤o ∨ o+2≤p) : read16 (write16 f o v) p=read16 f p := by
  rw [read16,write16,update_of_ne (by omega),update_of_ne (by omega),
    update_of_ne (by omega),update_of_ne (by omega),read16]

theorem fat16Entry_write16 (f : Mem) {c d : Nat} (hc : c*2<2^32) (hd : d*2<2^32) (v : BitVec 16) :
    fat16Entry (write16 f (fat16Offset c) v) d=if d=c then v.toNat else fat16Entry f d := by
  unfold fat16Entry fat16Word fat16Offset
  by_cases h : d=c
  · rw [if_pos h,h,read16_write16]
  · rw [if_neg h,read16_write16_of_disjoint f v (by omega)]

theorem toNat_and_mask28 (v : BitVec 32) : (v &&& 0x0fffffff#32).toNat=v.toNat%2^28 := by
  exact Nat.and_two_pow_sub_one_eq_mod _ 28

theorem fat32Entry_write32 (f : Mem) {c d : Nat} (hc : c*4<2^32) (hd : d*4<2^32) (v : BitVec 32) :
    fat32Entry (write32 f (fat32Offset c) v) d=if d=c then v.toNat%2^28 else fat32Entry f d := by
  unfold fat32Entry fat32Word fat32Offset
  by_cases h : d=c
  · rw [if_pos h,h,read32_write32,toNat_and_mask28]
  · rw [if_neg h,read32_write32_of_disjoint f v (by omega)]

/-- The four high bits are kept and do not belong to the entry. -/
theorem toNat_merge28 (old v : BitVec 32) :
    ((old &&& 0xf0000000#32) ||| (v &&& 0x0fffffff#32)).toNat%2^28=v.toNat%2^28 := by
  have hmerge : ((old &&& 0xf0000000#32) ||| (v &&& 0x0fffffff#32)) &&& 0x0fffffff#32 =
      v &&& 0x0fffffff#32 := by
    rw [and_comm _ 0x0fffffff#32,and_or_distrib_left,and_comm old,
      ← BitVec.and_assoc,BitVec.and_comm v,← BitVec.and_assoc]
    simp
  rw [← toNat_and_mask28,hmerge,toNat_and_mask28]

namespace FatType

def bits : FatType → Nat
  | .fat12 => 12
  | .fat16 => 16
  | .fat32 => 28

/-- The factor of a cluster in the offset of its entry. -/
def stride : FatType → Nat
  | .fat12 => 12
  | .fat16 => 2
  | .fat32 => 4

end FatType

namespace DeviceExt

theorem entry_lt (d : DeviceExt) (c : Nat) : d.entry c<2^d.fatInfo.fatType.bits := by
  unfold entry
  cases d.fatInfo.fatType with
  | fat12 => exact fat12Entry_lt d.fat c
  | fat16 => exact (read16 d.fat (fat16Offset c)).isLt
  | fat32 =>
    simp only [fat32Entry,fat32Word,toNat_and_mask28]
    exact Nat.mod_lt _ (by decide)

/-- A chain ends at one of the eight last values. -/
theorem readNext_eq (d : DeviceExt) (c : Nat) :
    d.readNext c =
      if 2^d.fatInfo.fatType.bits-8≤d.entry c then endMark else d.entry c := by
  have hlt := d.entry_lt c
  unfold readNext entry at *
  cases hT : d.fatInfo.fatType with
  | fat12 =>
    simp only [hT,FatType.bits] at hlt
    simp only [fat12GetNextCluster,FatType.bits]
    congr 1
    rw [eq_iff_iff]
    omega
  | fat16 =>
    simp only [hT,FatType.bits] at hlt
    simp only [fat16GetNextCluster,FatType.bits]
    congr 1
    rw [eq_iff_iff]
    omega
  | fat32 =>
    simp only [hT,FatType.bits] at hlt
    simp only [fat32GetNextCluster,FatType.bits]
    congr 1
    rw [eq_iff_iff]
    omega

theorem writeEntry_old (d : DeviceExt) (c v : Nat) : (d.writeEntry c v).2=d.entry c := by
  unfold writeEntry entry
  cases d.fatInfo.fatType with
  | fat12 => exact fat12WriteCluster_old d.fat c v
  | fat16 => rfl
  | fat32 => rfl

/-- The offset of the entry of a cluster does not wrap. -/
def Addressable (d : DeviceExt) (c : Nat) : Prop := c*d.fatInfo.fatType.stride<2^32

instance (d : DeviceExt) (c : Nat) : Decidable (d.Addressable c) :=
  inferInstanceAs (Decidable (_<_))

section
variable (d : DeviceExt) {c e : Nat} (hc : d.Addressable c) (he : d.Addressable e)
include hc he

/-- A write changes the entry of its cluster alone. -/
theorem entry_writeEntry (v : Nat) :
    { d with fat := (d.writeEntry c v).1 }.entry e =
      if e=c then v%2^d.fatInfo.fatType.bits else d.entry e := by
  unfold Addressable at hc he
  unfold writeEntry entry
  generalize d.fatInfo.fatType=fatType at hc he ⊢
  cases fatType with
  | fat12 => exact fat12Entry_write d.fat c v e
  | fat16 =>
    simp [fat16WriteCluster,fat16Entry_write16 _ hc he,FatType.bits]
  | fat32 =>
    simp only [fat32WriteCluster,fat32Entry_write32 _ hc he,toNat_merge28,toNat_ofNat,FatType.bits]
    congr 1
    omega

/-- The mark of a search is the last value. -/
theorem entry_mark : { d with fat := d.mark c }.entry e =
      if e=c then 2^d.fatInfo.fatType.bits-1 else d.entry e := by
  unfold Addressable at hc he
  unfold mark entry
  generalize d.fatInfo.fatType=fatType at hc he ⊢
  cases fatType with
  | fat12 =>
    simp only [fat12Mark_eq,fat12Entry_write,FatType.bits]
    rfl
  | fat16 =>
    simp only [fat16Mark,fat16Entry_write16 _ hc he,FatType.bits]
    rfl
  | fat32 =>
    simp only [fat32Mark,fat32Entry_write32 _ hc he,FatType.bits]
    rfl

end

end DeviceExt

end Odyssey.Fastfat
