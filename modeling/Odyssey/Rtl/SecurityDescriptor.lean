import Odyssey.Lib.PackedRecords
import Odyssey.Rtl.Acl

/-! Conversions between absolute and self-relative security descriptors (`lib/rtl/sd.c`). Both forms
lie in one memory of 32-bit addresses and have the same layout there; the address zero is `NULL`. -/
namespace Odyssey.Rtl
open ByteMem Function

def sdHeaderSize : Nat := 20

def securityDescriptorRevision1 : BitVec 8 := 1

def seDaclPresent : BitVec 16 := 0x0004

def seSaclPresent : BitVec 16 := 0x0010

def seSelfRelative : BitVec 16 := 0x8000

inductive SdComponent where
  | owner
  | group
  | sacl
  | dacl
  deriving DecidableEq

variable {f g : Mem} {c d : SdComponent} {p q : Nat}

namespace SdComponent

def field : SdComponent → Nat
  | owner => 4
  | group => 8
  | sacl => 12
  | dacl => 16

def IsPresent (control : BitVec 16) : SdComponent → Prop
  | owner => True
  | group => True
  | sacl => control &&& seSaclPresent≠0
  | dacl => control &&& seDaclPresent≠0

instance (control : BitVec 16) : DecidablePred (IsPresent control)
  | owner | group => inferInstanceAs (Decidable True)
  | sacl => inferInstanceAs (Decidable (control &&& seSaclPresent≠0))
  | dacl => inferInstanceAs (Decidable (control &&& seDaclPresent≠0))

end SdComponent

def roundUp4 (n : Nat) : Nat := (n+3)/4*4

def rtlLengthSid (m : Mem) (sid : Nat) : Nat := 8+4*(m (sid+1)).toNat

section Query
variable (m : Mem) (sd : Nat)

def sdControl : BitVec 16 := m (sd+3)++m (sd+2)

def sdField (c : SdComponent) : Nat := (read32 m (sd+c.field)).toNat

def rtlpQuerySecurityDescriptorPointers (c : SdComponent) : Nat :=
  if sdControl m sd &&& seSelfRelative≠0 then
    if c.IsPresent (sdControl m sd) ∧ sdField m sd c≠0 then (sd+sdField m sd c)%2^32 else 0
  else if c.IsPresent (sdControl m sd) then sdField m sd c
  else 0

def dataSize (p : Nat) : SdComponent → Nat
  | .owner => rtlLengthSid m p
  | .group => rtlLengthSid m p
  | .sacl => ushortAt m (p+2)
  | .dacl => ushortAt m (p+2)

def rtlpQuerySecurityDescriptor (c : SdComponent) : Nat :=
  let p := rtlpQuerySecurityDescriptorPointers m sd c
  if p≠0 then roundUp4 (dataSize m p c) else 0

end Query

inductive SdStatus where
  | success
  | bufferTooSmall
  | unknownRevision
  | badDescriptorFormat
  deriving DecidableEq

def writeSdHeader (m : Mem) (sd : Nat) (revision sbz1 : BitVec 8) (control : BitVec 16) : Mem :=
  update (update (update (update m sd revision) (sd+1) sbz1)
    (sd+2) (control.extractLsb' 0 8)) (sd+3) (control.extractLsb' 8 8)

def appendComponent (rel : Nat) (pointer length : SdComponent → Nat) (s : Mem × Nat)
    (c : SdComponent) : Mem × Nat :=
  if length c≠0 then
    (write32 (copy s.1 s.2 s.1 (pointer c) (length c)) (rel+c.field) (BitVec.ofNat 32 (s.2-rel)),
      s.2+length c)
  else s

def totalLength (length : SdComponent → Nat) : Nat :=
  sdHeaderSize+length .owner+length .group+length .sacl+length .dacl

/-- `RtlMakeSelfRelativeSD`: the status, the memory and `*BufferLength`. -/
def rtlMakeSelfRelativeSD (m : Mem) (absoluteSD selfRelativeSD bufferLength : Nat) :
    SdStatus × Mem × Nat :=
  let pointer := rtlpQuerySecurityDescriptorPointers m absoluteSD
  let length := rtlpQuerySecurityDescriptor m absoluteSD
  if bufferLength<totalLength length then (.bufferTooSmall, m, totalLength length)
  else
    let m := fill m selfRelativeSD (totalLength length) 0
    let m := writeSdHeader m selfRelativeSD (m absoluteSD) (m (absoluteSD+1))
      (sdControl m absoluteSD ||| seSelfRelative)
    let s := [SdComponent.sacl,.dacl,.owner,.group].foldl
      (appendComponent selfRelativeSD pointer length) (m, selfRelativeSD+sdHeaderSize)
    (.success, s.1, bufferLength)

def copyComponent (buffer pointer length : SdComponent → Nat) (m : Mem) (c : SdComponent) : Mem :=
  copy m (buffer c) m (pointer c) (length c)

def setPointer (sd : Nat) (buffer : SdComponent → Nat) (m : Mem) (c : SdComponent) : Mem :=
  write32 m (sd+c.field) (BitVec.ofNat 32 (buffer c))

/-- `RtlSelfRelativeToAbsoluteSD` with the buffers and their sizes: the status, the memory and the
sizes. -/
def rtlSelfRelativeToAbsoluteSD (m : Mem) (selfRelativeSD absoluteSD : Nat)
    (buffer size : SdComponent → Nat) : SdStatus × Mem × (SdComponent → Nat) :=
  if m selfRelativeSD≠securityDescriptorRevision1 then (.unknownRevision, m, size)
  else if sdControl m selfRelativeSD &&& seSelfRelative=0 then (.badDescriptorFormat, m, size)
  else
    let pointer := rtlpQuerySecurityDescriptorPointers m selfRelativeSD
    let length := rtlpQuerySecurityDescriptor m selfRelativeSD
    if length .owner > size .owner ∨ length .group > size .group ∨ length .dacl > size .dacl ∨
        length .sacl > size .sacl then (.bufferTooSmall, m, length)
    else
      let m := [SdComponent.owner,.group,.dacl,.sacl].foldl (copyComponent buffer pointer length) m
      let m := writeSdHeader m absoluteSD (m selfRelativeSD) (m (selfRelativeSD+1))
        (sdControl m selfRelativeSD &&& ~~~seSelfRelative)
      let m := [SdComponent.owner,.group,.dacl,.sacl].foldl (setPointer absoluteSD buffer) m
      (.success, m, length)

theorem SdComponent.field_bounds (c : SdComponent) : 4≤c.field ∧ c.field+4≤ sdHeaderSize := by
  cases c <;> decide

theorem SdComponent.field_apart (h : c≠d) : c.field+4≤d.field ∨ d.field+4≤c.field := by
  cases c <;> cases d <;> simp [SdComponent.field] at h ⊢

section Header
variable (m : Mem) (sd : Nat) (revision sbz1 : BitVec 8) (control : BitVec 16)

theorem writeSdHeader_of_lt {i : Nat} (h : i<sd ∨ sd+4 ≤ i) :
    writeSdHeader m sd revision sbz1 control i=m i := by
  rw [writeSdHeader,update_of_ne (by omega),update_of_ne (by omega),
    update_of_ne (by omega),update_of_ne (by omega)]

theorem writeSdHeader_revision : writeSdHeader m sd revision sbz1 control sd=revision := by
  rw [writeSdHeader,update_of_ne (by omega),update_of_ne (by omega),
    update_of_ne (by omega),update_self]

theorem sdControl_writeSdHeader :
    sdControl (writeSdHeader m sd revision sbz1 control) sd=control := by
  rw [sdControl,writeSdHeader,update_self,update_of_ne (by omega),
    update_self,BitVec.extractLsb'_append_extractLsb'_eq_extractLsb' (by omega)]
  simp

end Header

theorem sdControl_congr (h : ∀ i<4, f (p+i)=g (q+i)) : sdControl f p=sdControl g q := by
  rw [sdControl,sdControl,h 3 (by omega),h 2 (by omega)]

theorem sdField_congr (c : SdComponent)
    (h : ∀ i, 4 ≤ i → i<sdHeaderSize → f (p+i)=g (q+i)) : sdField f p c=sdField g q c := by
  obtain ⟨hlow,hhigh⟩ := c.field_bounds
  have hread : read32 f (p+c.field)=read32 g (q+c.field) := by
    refine read32_congr fun i hi => ?_
    rw [Nat.add_assoc,Nat.add_assoc]
    exact h _ (by omega) (by omega)
  rw [sdField,sdField,hread]

theorem sdField_write32_self (m : Mem) (sd : Nat) (c : SdComponent) {v : Nat} (h : v<2^32) :
    sdField (write32 m (sd+c.field) (BitVec.ofNat 32 v)) sd c=v := by
  rw [sdField,read32_write32,BitVec.toNat_ofNat,Nat.mod_eq_of_lt h]

theorem sdField_write32_of_ne (m : Mem) (sd : Nat) (h : d≠c) (v : BitVec 32) :
    sdField (write32 m (sd+c.field) v) sd d=sdField m sd d := by
  have hapart := SdComponent.field_apart h
  rw [sdField,sdField,read32_write32_of_disjoint m v (by omega)]

theorem dataSize_congr {p q n : Nat} (hn : 4≤n) (h : bytes f p n=bytes g q n)
    (c : SdComponent) : dataSize f p c=dataSize g q c := by
  have hget : ∀ i<n, f (p+i)=g (q+i) := by
    intro i hi
    have hi' := congrArg (·[i]?) h
    simpa only [getElem?_bytes _ _ hi,Option.some.injEq] using hi'
  have h1 := hget 1 (by omega)
  have h2 := hget 2 (by omega)
  have h3 := hget 3 (by omega)
  cases c with
  | owner | group => rw [dataSize,dataSize,rtlLengthSid,rtlLengthSid,h1]
  | sacl | dacl => rw [dataSize,dataSize,ushortAt,ushortAt,Nat.add_assoc,h2,h3]

end Odyssey.Rtl
