import Odyssey.Rtl.SecurityDescriptor

/-! An absolute security descriptor through `RtlMakeSelfRelativeSD` and
`RtlSelfRelativeToAbsoluteSD`. -/
namespace Odyssey.Rtl
open ByteMem List

/-- Two regions, each with an address and a length, have no byte in common. -/
def Apart (p n q k : Nat) : Prop := p+n≤q ∨ q+k≤p

section Append
variable {m₀ m : Mem} {rel total current : Nat} {pointer length : SdComponent → Nat}
  {done l : List SdComponent} {c : SdComponent}

structure Laid (m₀ m : Mem) (rel total : Nat) (pointer length : SdComponent → Nat)
    (done : List SdComponent) (current : Nat) : Prop where
  current_eq : current=rel+sdHeaderSize+(done.map length).sum
  outside : ∀ i, i<rel ∨ rel+total ≤ i → m i=m₀ i
  header : ∀ i<4, m (rel+i)=m₀ (rel+i)
  pending : ∀ c∉done, sdField m rel c=0
  missing : ∀ c∈done, length c=0 → sdField m rel c=0
  placed : ∀ c∈done, length c≠0 → sdHeaderSize≤ sdField m rel c ∧
    rel+sdField m rel c+length c≤current ∧
    bytes m (rel+sdField m rel c) (length c)=bytes m₀ (pointer c) (length c)

theorem Laid.append (h : Laid m₀ m rel total pointer length done current) (hc : c∉done)
    (hroom : current+length c≤rel+total) (hbelow : rel+total≤2^32)
    (hsource : length c≠0 → Apart (pointer c) (length c) rel total) :
    Laid m₀ (appendComponent rel pointer length (m, current) c).1 rel total pointer length
      (done++[c]) (appendComponent rel pointer length (m, current) c).2 := by
  have hsum : ((done++[c]).map length).sum=(done.map length).sum+length c := by simp
  have hcurrent := h.current_eq
  rw [appendComponent]
  by_cases hlength : length c=0
  · rw [if_neg (by simpa using hlength)]
    refine ⟨by rw [hsum,hlength]; exact hcurrent,h.outside,h.header,fun d hd => ?_,
      fun d hd hzero => ?_,fun d hd hne => ?_⟩
    · exact h.pending d fun hmem => hd (mem_append_left _ hmem)
    · by_cases hmem : d∈done
      · exact h.missing d hmem hzero
      · exact h.pending d hmem
    · obtain hmem | hmem := mem_append.mp hd
      · exact h.placed d hmem hne
      · exact absurd hlength (mem_singleton.mp hmem ▸ hne)
  · rw [if_pos hlength]
    dsimp only
    obtain ⟨hlow,hhigh⟩ := c.field_bounds
    have hfield : current-rel<2^32 := by omega
    have hself : sdField (write32 (copy m current m (pointer c) (length c)) (rel+c.field)
        (BitVec.ofNat 32 (current-rel))) rel c=current-rel := sdField_write32_self _ _ _ hfield
    have hother : ∀ d, d≠c → sdField (write32 (copy m current m (pointer c) (length c))
        (rel+c.field) (BitVec.ofNat 32 (current-rel))) rel d=sdField m rel d := by
      intro d hd
      rw [sdField_write32_of_ne _ _ hd]
      exact sdField_congr d fun i _ hi => copy_of_lt m m (by omega)
    refine ⟨?_,fun i hi => ?_,fun i hi => ?_,fun d hd => ?_,fun d hd hzero => ?_,
      fun d hd hne => ?_⟩
    · omega
    · rw [write32_of_lt _ _ (by omega),copy_of_lt m m (by omega),h.outside i hi]
    · rw [write32_of_lt _ _ (by omega),copy_of_lt m m (by omega),h.header i hi]
    · rw [hother d fun hdc => hd (by simp [hdc])]
      exact h.pending d fun hmem => hd (mem_append_left _ hmem)
    · have hdc : d≠c := fun hdc => hlength (hdc ▸ hzero)
      have hmem : d∈done := by simpa [hdc] using hd
      rw [hother d hdc]
      exact h.missing d hmem hzero
    · by_cases hdc : d=c
      · subst hdc
        have hstart : rel+(current-rel)=current := by omega
        rw [hself,hstart]
        refine ⟨by omega,Nat.le_refl _,?_⟩
        have hapart := hsource hne
        rw [Apart] at hapart
        calc
          bytes (write32 (copy m current m (pointer d) (length d)) (rel+d.field)
              (BitVec.ofNat 32 (current-rel))) current (length d)
            = bytes (copy m current m (pointer d) (length d)) current (length d) :=
              bytes_congr fun i _ => write32_of_lt _ _ (by omega)
          _=bytes m (pointer d) (length d) := bytes_copy m m current (pointer d) (length d)
          _=bytes m₀ (pointer d) (length d) := bytes_congr fun i hi => h.outside _ (by omega)
      · have hmem : d∈done := by simpa [hdc] using hd
        obtain ⟨hbehind,hbefore,hbytes⟩ := h.placed d hmem hne
        rw [hother d hdc]
        refine ⟨hbehind,by omega,?_⟩
        rw [← hbytes]
        refine bytes_congr fun i hi => ?_
        rw [write32_of_lt _ _ (by omega),copy_of_lt m m (by omega)]

theorem Laid.foldl (h : Laid m₀ m rel total pointer length done current) (hnodup : (done++l).Nodup)
    (hroom : sdHeaderSize+((done++l).map length).sum≤total) (hbelow : rel+total≤2^32)
    (hsource : ∀ c, length c≠0 → Apart (pointer c) (length c) rel total) :
    Laid m₀ (l.foldl (appendComponent rel pointer length) (m, current)).1 rel total pointer length
      (done++l) (l.foldl (appendComponent rel pointer length) (m, current)).2 := by
  induction l generalizing done m current with
  | nil => simpa using h
  | cons c l ih =>
    have hsplit : done++c::l=done++[c]++l := by simp
    have hc : c∉done := by
      intro hmem
      exact disjoint_of_nodup_append hnodup hmem (by simp)
    have hcurrent := h.current_eq
    have hfits : current+length c≤rel+total := by
      simp only [map_append,map_cons,sum_append,sum_cons] at hroom
      omega
    rw [hsplit] at hnodup hroom ⊢
    exact ih (h.append hc hfits hbelow (hsource c)) hnodup hroom

end Append

section Conversion
variable {m m₁ m₂ : Mem} {sd rel target bufferLength : Nat} {buffer size : SdComponent → Nat}
  {c : SdComponent}

/-- An absolute descriptor. Its ACLs contain their headers and are a multiple of four bytes long. -/
structure IsAbsolute (m : Mem) (sd : Nat) : Prop where
  revision : m sd=securityDescriptorRevision1
  absolute : sdControl m sd &&& seSelfRelative=0
  acl : ∀ c, c = .sacl ∨ c = .dacl → rtlpQuerySecurityDescriptorPointers m sd c≠0 →
    aclHeaderSize≤dataSize m (rtlpQuerySecurityDescriptorPointers m sd c) c ∧
    4 ∣ dataSize m (rtlpQuerySecurityDescriptorPointers m sd c) c

theorem IsAbsolute.data (h : IsAbsolute m sd) (hc : rtlpQuerySecurityDescriptorPointers m sd c≠0) :
    aclHeaderSize≤dataSize m (rtlpQuerySecurityDescriptorPointers m sd c) c ∧
    4 ∣ dataSize m (rtlpQuerySecurityDescriptorPointers m sd c) c := by
  have hsid : ∀ p, 8≤rtlLengthSid m p ∧ 4 ∣ rtlLengthSid m p := by
    intro p
    rw [rtlLengthSid]
    omega
  cases c with
  | owner => exact hsid _
  | group => exact hsid _
  | sacl => exact h.acl .sacl (.inl rfl) hc
  | dacl => exact h.acl .dacl (.inr rfl) hc

theorem roundUp4_of_dvd {n : Nat} (h : 4 ∣ n) : roundUp4 n=n := by
  rw [roundUp4]
  omega

theorem IsAbsolute.length_eq (h : IsAbsolute m sd)
    (hc : rtlpQuerySecurityDescriptorPointers m sd c≠0) :
    rtlpQuerySecurityDescriptor m sd c =
      dataSize m (rtlpQuerySecurityDescriptorPointers m sd c) c := by
  rw [rtlpQuerySecurityDescriptor,if_pos hc,roundUp4_of_dvd (h.data hc).2]

theorem length_of_missing (hc : rtlpQuerySecurityDescriptorPointers m sd c=0) :
    rtlpQuerySecurityDescriptor m sd c=0 := by
  rw [rtlpQuerySecurityDescriptor,if_neg (by simpa using hc)]

theorem IsAbsolute.length_eq_zero_iff (h : IsAbsolute m sd) :
    rtlpQuerySecurityDescriptor m sd c=0 ↔ rtlpQuerySecurityDescriptorPointers m sd c=0 := by
  refine ⟨fun hlength => ?_,length_of_missing⟩
  by_contra hc
  have hdata := (h.data hc).1
  rw [← h.length_eq hc,aclHeaderSize] at hdata
  omega

theorem isPresent_of_pointer_ne_zero (hc : rtlpQuerySecurityDescriptorPointers m sd c≠0) :
    c.IsPresent (sdControl m sd) := by
  by_contra hno
  simp [rtlpQuerySecurityDescriptorPointers,hno] at hc

theorem isPresent_or_selfRelative (control : BitVec 16) (c : SdComponent) :
    c.IsPresent (control ||| seSelfRelative) ↔ c.IsPresent control := by
  have hbit : ∀ bit : BitVec 16, seSelfRelative &&& bit=0 →
      (control ||| seSelfRelative) &&& bit=control &&& bit := by
    intro bit hbit
    rw [BitVec.and_comm,BitVec.and_or_distrib_left,BitVec.and_comm bit seSelfRelative,hbit]
    simp [BitVec.and_comm]
  cases c with
  | owner | group => exact Iff.rfl
  | sacl | dacl => rw [SdComponent.IsPresent,SdComponent.IsPresent,hbit _ (by decide)]

structure SelfRelativeOf (m : Mem) (sd : Nat) (m₁ : Mem) (rel : Nat) : Prop where
  revision : m₁ rel=m sd
  control : sdControl m₁ rel=sdControl m sd ||| seSelfRelative
  missing : ∀ c, rtlpQuerySecurityDescriptor m sd c=0 → sdField m₁ rel c=0
  placed : ∀ c, rtlpQuerySecurityDescriptor m sd c≠0 → sdHeaderSize≤ sdField m₁ rel c ∧
    sdField m₁ rel c+rtlpQuerySecurityDescriptor m sd c ≤
      totalLength (rtlpQuerySecurityDescriptor m sd) ∧
    bytes m₁ (rel+sdField m₁ rel c) (rtlpQuerySecurityDescriptor m sd c) =
      bytes m (rtlpQuerySecurityDescriptorPointers m sd c) (rtlpQuerySecurityDescriptor m sd c)

/-- The buffer of the self-relative form is large enough and not in the way. -/
structure RelativeBuffer (m : Mem) (sd rel bufferLength : Nat) : Prop where
  large : totalLength (rtlpQuerySecurityDescriptor m sd)≤bufferLength
  below : rel+totalLength (rtlpQuerySecurityDescriptor m sd)≤2^32
  header : Apart sd sdHeaderSize rel (totalLength (rtlpQuerySecurityDescriptor m sd))
  data : ∀ c, rtlpQuerySecurityDescriptor m sd c≠0 →
    Apart (rtlpQuerySecurityDescriptorPointers m sd c) (rtlpQuerySecurityDescriptor m sd c) rel
      (totalLength (rtlpQuerySecurityDescriptor m sd))

/-- The zeroed buffer with the header in it, before the components go there. -/
theorem laid_header {length : SdComponent → Nat} (pointer : SdComponent → Nat)
    (revision sbz1 : BitVec 8) (control : BitVec 16) (m : Mem) (rel : Nat) :
    Laid (writeSdHeader (fill m rel (totalLength length) 0) rel revision sbz1 control)
      (writeSdHeader (fill m rel (totalLength length) 0) rel revision sbz1 control) rel
      (totalLength length) pointer length [] (rel+sdHeaderSize) := by
  have hle : sdHeaderSize≤totalLength length := by
    rw [totalLength]
    omega
  refine ⟨by simp,fun _ _ => rfl,fun _ _ => rfl,fun c _ => ?_,fun c hc => ?_,fun c hc => ?_⟩
  · refine (sdField_congr (g := fun _ => 0) (q := 0) c fun i hi hi' => ?_).trans
      (by simp [sdField,read32])
    rw [writeSdHeader_of_lt _ _ _ _ _ (by omega),fill_of_mem _ _ (by omega) (by omega)]
  · exact absurd hc (by simp)
  · exact absurd hc (by simp)

theorem rtlMakeSelfRelativeSD_spec (hbuffer : RelativeBuffer m sd rel bufferLength) :
    ∃ m₁, rtlMakeSelfRelativeSD m sd rel bufferLength=(.success, m₁, bufferLength) ∧
      SelfRelativeOf m sd m₁ rel := by
  obtain ⟨hlarge,hbelow,hheader,hdata⟩ := hbuffer
  have hnot : ¬bufferLength<totalLength (rtlpQuerySecurityDescriptor m sd) := by omega
  have htotal : totalLength (rtlpQuerySecurityDescriptor m sd)=sdHeaderSize +
      (([]++[SdComponent.sacl,.dacl,.owner,.group]).map
        (rtlpQuerySecurityDescriptor m sd)).sum := by
    simp only [totalLength,nil_append,map_cons,map_nil,sum_cons,sum_nil]
    omega
  have hsize : sdHeaderSize=20 := rfl
  rw [Apart] at hheader
  have hfill : ∀ i<4, fill m rel (totalLength (rtlpQuerySecurityDescriptor m sd)) 0 (sd+i) =
      m (sd+i) := fun i hi => fill_of_lt m 0 (by omega)
  have hlaid := (laid_header (rtlpQuerySecurityDescriptorPointers m sd) (m sd) (m (sd+1))
    (sdControl m sd ||| seSelfRelative) m rel).foldl (by decide) htotal.ge hbelow hdata
  have hsd : fill m rel (totalLength (rtlpQuerySecurityDescriptor m sd)) 0 sd=m sd :=
    hfill 0 (by omega)
  have hsbz1 : fill m rel (totalLength (rtlpQuerySecurityDescriptor m sd)) 0 (sd+1)=m (sd+1) :=
    hfill 1 (by omega)
  rw [rtlMakeSelfRelativeSD]
  dsimp only
  rw [if_neg hnot,hsd,hsbz1,sdControl_congr hfill]
  have hall : ∀ c : SdComponent, c∈[]++[SdComponent.sacl,.dacl,.owner,.group] := by
    intro c
    cases c <;> simp
  refine ⟨_,rfl,?_,?_,fun c hc => hlaid.missing c (hall c) hc,fun c hc => ?_⟩
  · exact (hlaid.header 0 (by omega)).trans (writeSdHeader_revision _ _ _ _ _)
  · rw [sdControl_congr hlaid.header,sdControl_writeSdHeader]
  · obtain ⟨hbehind,hbefore,hbytes⟩ := hlaid.placed c (hall c) hc
    have hcurrent := hlaid.current_eq
    refine ⟨hbehind,by omega,hbytes.trans (bytes_congr fun i hi => ?_)⟩
    have hapart := hdata c hc
    rw [Apart] at hapart
    rw [writeSdHeader_of_lt _ _ _ _ _ (by omega),fill_of_lt m 0 (by omega)]

namespace SelfRelativeOf

section

variable (h : SelfRelativeOf m sd m₁ rel)
include h

theorem selfRelative : sdControl m₁ rel &&& seSelfRelative≠0 := by
  rw [h.control,BitVec.and_comm,BitVec.and_or_distrib_left]
  intro hzero
  exact absurd (BitVec.or_eq_zero_iff.mp hzero).2 (by decide)

theorem pointer_of_missing (hc : rtlpQuerySecurityDescriptor m sd c=0) :
    rtlpQuerySecurityDescriptorPointers m₁ rel c=0 := by
  rw [rtlpQuerySecurityDescriptorPointers,if_pos h.selfRelative,if_neg]
  exact fun hfield => hfield.2 (h.missing c hc)

theorem pointer_of_placed (hbelow : rel+totalLength (rtlpQuerySecurityDescriptor m sd)≤2^32)
    (hc : rtlpQuerySecurityDescriptor m sd c≠0) :
    rtlpQuerySecurityDescriptorPointers m₁ rel c=rel+sdField m₁ rel c := by
  obtain ⟨hbehind,hbefore,-⟩ := h.placed c hc
  have hsize : sdHeaderSize=20 := rfl
  have hpresent : c.IsPresent (sdControl m₁ rel) := by
    rw [h.control,isPresent_or_selfRelative]
    exact isPresent_of_pointer_ne_zero fun hzero => hc (length_of_missing hzero)
  rw [rtlpQuerySecurityDescriptorPointers,if_pos h.selfRelative,if_pos ⟨hpresent,by omega⟩,
    Nat.mod_eq_of_lt (by omega)]

/-- `RtlpQuerySecurityDescriptor` finds the same lengths in both forms. -/
theorem length_eq (habs : IsAbsolute m sd)
    (hbelow : rel+totalLength (rtlpQuerySecurityDescriptor m sd)≤2^32) :
    rtlpQuerySecurityDescriptor m₁ rel=rtlpQuerySecurityDescriptor m sd := by
  funext c
  by_cases hc : rtlpQuerySecurityDescriptor m sd c=0
  · rw [hc]
    exact length_of_missing (h.pointer_of_missing hc)
  · obtain ⟨hbehind,-,hbytes⟩ := h.placed c hc
    have hpointer : rtlpQuerySecurityDescriptorPointers m sd c≠0 :=
      fun hzero => hc (length_of_missing hzero)
    have hdata := (habs.data hpointer).1
    have hheader : aclHeaderSize=8 := rfl
    have hsize : sdHeaderSize=20 := rfl
    rw [← habs.length_eq hpointer] at hdata
    have hsame := dataSize_congr (by omega) hbytes c
    rw [rtlpQuerySecurityDescriptor,h.pointer_of_placed hbelow hc,if_pos (by omega),hsame,
      rtlpQuerySecurityDescriptor,if_pos hpointer]

end

end SelfRelativeOf

end Conversion

section Copies
variable {m₀ m : Mem} {sd rel total : Nat} {buffer pointer length : SdComponent → Nat}
  {done l : List SdComponent} {c : SdComponent}

structure Copied (m₀ m : Mem) (buffer pointer length : SdComponent → Nat)
    (done : List SdComponent) : Prop where
  outside : ∀ i, (∀ c, length c≠0 → i<buffer c ∨ buffer c+length c ≤ i) → m i=m₀ i
  copied : ∀ c∈done, bytes m (buffer c) (length c)=bytes m₀ (pointer c) (length c)

structure BuffersApart (buffer pointer length : SdComponent → Nat) : Prop where
  buffers : ∀ c d, c≠d → length c≠0 → length d≠0 →
    Apart (buffer c) (length c) (buffer d) (length d)
  data : ∀ c d, length c≠0 → length d≠0 → Apart (pointer c) (length c) (buffer d) (length d)

section
variable (h : Copied m₀ m buffer pointer length done) (happart : BuffersApart buffer pointer length)
include h happart

theorem Copied.copyComponent (hc : c∉done) :
    Copied m₀ (copyComponent buffer pointer length m c) buffer pointer length (done++[c]) := by
  rw [Rtl.copyComponent]
  refine ⟨fun i hi => ?_,fun d hd => ?_⟩
  · by_cases hlength : length c=0
    · rw [copy_of_lt m m (by omega),h.outside i hi]
    · rw [copy_of_lt m m (hi c hlength),h.outside i hi]
  · by_cases hlength : length d=0
    · simp [hlength,bytes]
    by_cases hdc : d=c
    · subst hdc
      rw [bytes_copy]
      refine bytes_congr fun i hi => h.outside _ fun e he => ?_
      have hdata := happart.data d e hlength he
      rw [Apart] at hdata
      omega
    · have hmem : d∈done := by simpa [hdc] using hd
      rw [← h.copied d hmem]
      by_cases hzero : length c=0
      · exact bytes_congr fun i hi => copy_of_lt m m (by omega)
      · exact bytes_copy_of_disjoint m m (happart.buffers d c hdc hlength hzero)

theorem Copied.foldl (hnodup : (done++l).Nodup) :
    Copied m₀ (l.foldl (Rtl.copyComponent buffer pointer length) m) buffer pointer length
      (done++l) := by
  induction l generalizing done m with
  | nil => simpa using h
  | cons c l ih =>
    have hsplit : done++c::l=done++[c]++l := by simp
    have hc : c∉done := fun hmem => disjoint_of_nodup_append hnodup hmem (by simp)
    rw [hsplit] at hnodup ⊢
    exact ih (h.copyComponent happart hc) hnodup

end

theorem foldl_setPointer_of_lt (l : List SdComponent) (m : Mem) {i : Nat}
    (h : i<sd+4 ∨ sd+sdHeaderSize ≤ i) : l.foldl (setPointer sd buffer) m i=m i := by
  induction l generalizing m with
  | nil => rfl
  | cons c l ih =>
    obtain ⟨hlow,hhigh⟩ := c.field_bounds
    rw [foldl_cons,ih,setPointer,write32_of_lt _ _ (by omega)]

theorem sdField_foldl_setPointer (hlt : ∀ c, buffer c<2^32) (l : List SdComponent) (m : Mem)
    (h : c∈l ∨ sdField m sd c=buffer c) :
    sdField (l.foldl (setPointer sd buffer) m) sd c=buffer c := by
  induction l generalizing m with
  | nil => exact h.resolve_left (by simp)
  | cons d l ih =>
    refine ih _ ?_
    by_cases hcd : c=d
    · subst hcd
      exact .inr (sdField_write32_self m sd c (hlt c))
    · refine h.imp (fun hmem => ?_) fun hfield => ?_
      · simpa [hcd] using hmem
      · rw [setPointer,sdField_write32_of_ne m sd hcd,hfield]

end Copies

section RoundTrip
variable {m m₁ : Mem} {sd rel bufferLength target : Nat} {buffer size : SdComponent → Nat}

/-- The buffers for the way back are large enough, are not `NULL` where something goes there and are
not in the way. -/
structure TargetBuffers (rel total : Nat) (length : SdComponent → Nat) (target : Nat)
    (buffer size : SdComponent → Nat) : Prop where
  large : ∀ c, length c≤ size c
  address : ∀ c, buffer c<2^32
  given : ∀ c, length c≠0 → buffer c≠0
  header : Apart target sdHeaderSize rel total
  relative : ∀ c, length c≠0 → Apart (buffer c) (length c) rel total
  buffer_header : ∀ c, length c≠0 → Apart (buffer c) (length c) target sdHeaderSize
  buffers : ∀ c d, c≠d → length c≠0 → length d≠0 →
    Apart (buffer c) (length c) (buffer d) (length d)

/-- The component of one absolute descriptor is the one of another, and `NULL` if there is none. -/
def SameComponent (m : Mem) (sd : Nat) (m₂ : Mem) (target : Nat) (c : SdComponent) : Prop :=
  let p := rtlpQuerySecurityDescriptorPointers m sd c
  if p=0 then sdField m₂ target c=0
  else sdField m₂ target c≠0 ∧
    bytes m₂ (sdField m₂ target c) (dataSize m p c)=bytes m p (dataSize m p c)

/-- Both conversions succeed and lead to the same control bits and components. -/
def RoundTrips (m : Mem) (sd rel bufferLength target : Nat) (buffer size : SdComponent → Nat) :
    Prop :=
  ∃ m₁ n m₂ lengths, rtlMakeSelfRelativeSD m sd rel bufferLength=(.success, m₁, n) ∧
    rtlSelfRelativeToAbsoluteSD m₁ rel target buffer size=(.success, m₂, lengths) ∧
    sdControl m₂ target=sdControl m sd ∧ ∀ c, SameComponent m sd m₂ target c

section
variable (habs : IsAbsolute m sd) (hrel : RelativeBuffer m sd rel bufferLength)
  (htarget : TargetBuffers rel (totalLength (rtlpQuerySecurityDescriptor m sd))
    (rtlpQuerySecurityDescriptor m sd) target buffer size)
include habs hrel htarget

/-- The way back puts the pointers to the caller's buffers into the descriptor, also where there is
nothing in them. -/
theorem rtlSelfRelativeToAbsoluteSD_spec (h : SelfRelativeOf m sd m₁ rel) :
    ∃ m₂, rtlSelfRelativeToAbsoluteSD m₁ rel target buffer size =
        (.success, m₂, rtlpQuerySecurityDescriptor m sd) ∧
      sdControl m₂ target=sdControl m sd ∧ (∀ c, sdField m₂ target c=buffer c) ∧
      ∀ c, rtlpQuerySecurityDescriptor m sd c≠0 →
        bytes m₂ (buffer c) (rtlpQuerySecurityDescriptor m sd c) =
          bytes m (rtlpQuerySecurityDescriptorPointers m sd c)
            (rtlpQuerySecurityDescriptor m sd c) := by
  have hlength := h.length_eq habs hrel.below
  have hlarge := htarget.large
  have hrevision : ¬m₁ rel≠securityDescriptorRevision1 := by
    rw [h.revision,habs.revision]
    simp
  have hfits : ¬(rtlpQuerySecurityDescriptor m sd .owner > size .owner ∨
      rtlpQuerySecurityDescriptor m sd .group > size .group ∨
      rtlpQuerySecurityDescriptor m sd .dacl > size .dacl ∨
      rtlpQuerySecurityDescriptor m sd .sacl > size .sacl) := by
    have howner := hlarge .owner
    have hgroup := hlarge .group
    have hdacl := hlarge .dacl
    have hsacl := hlarge .sacl
    omega
  have happart : BuffersApart buffer (rtlpQuerySecurityDescriptorPointers m₁ rel)
      (rtlpQuerySecurityDescriptor m sd) := by
    refine ⟨htarget.buffers,fun c d hc hd => ?_⟩
    have hrelative := htarget.relative d hd
    obtain ⟨hbehind,hbefore,-⟩ := h.placed c hc
    rw [h.pointer_of_placed hrel.below hc]
    rw [Apart] at hrelative ⊢
    omega
  have hcopied : Copied m₁ ([SdComponent.owner,.group,.dacl,.sacl].foldl (copyComponent buffer
      (rtlpQuerySecurityDescriptorPointers m₁ rel) (rtlpQuerySecurityDescriptor m sd)) m₁) buffer
      (rtlpQuerySecurityDescriptorPointers m₁ rel) (rtlpQuerySecurityDescriptor m sd)
      ([]++[SdComponent.owner,.group,.dacl,.sacl]) :=
    Copied.foldl ⟨fun _ _ => rfl,fun c hc => absurd hc (by simp)⟩ happart (by decide)
  rw [rtlSelfRelativeToAbsoluteSD,if_neg hrevision,if_neg h.selfRelative,hlength]
  rw [if_neg hfits]
  have hall : ∀ c, c∈[SdComponent.owner,.group,.dacl,.sacl] := by
    intro c
    cases c <;> simp
  have hsize : sdHeaderSize=20 := rfl
  have htotal : sdHeaderSize≤totalLength (rtlpQuerySecurityDescriptor m sd) := by
    rw [totalLength]
    omega
  refine ⟨_,rfl,?_,fun c => sdField_foldl_setPointer htarget.address _ _ (.inl (hall c)),
    fun c hc => ?_⟩
  · rw [sdControl_congr fun i hi => foldl_setPointer_of_lt _ _ (by omega),sdControl_writeSdHeader,
      sdControl_congr fun i hi => hcopied.outside (rel+i) fun c hc => ?_,h.control]
    · ext i hi
      have hbit := congrArg (·.getLsbD i) habs.absolute
      grind
    · have hrelative := htarget.relative c hc
      rw [Apart] at hrelative
      omega
  · obtain ⟨-,-,hbytes⟩ := h.placed c hc
    rw [← hbytes,← h.pointer_of_placed hrel.below hc,← hcopied.copied c (hall c)]
    refine bytes_congr fun i hi => ?_
    have hheader := htarget.buffer_header c hc
    rw [Apart] at hheader
    rw [foldl_setPointer_of_lt _ _ (by omega),writeSdHeader_of_lt _ _ _ _ _ (by omega)]

theorem RoundTrips.buffer_eq_zero (h : RoundTrips m sd rel bufferLength target buffer size)
    {c : SdComponent} (hc : rtlpQuerySecurityDescriptorPointers m sd c=0) : buffer c=0 := by
  obtain ⟨m₁,n,m₂,lengths,hmake,hback,-,hsame⟩ := h
  obtain ⟨m₁',hmake',hself⟩ := rtlMakeSelfRelativeSD_spec hrel
  obtain ⟨rfl,-⟩ := Prod.mk.inj (Prod.mk.inj (hmake.symm.trans hmake')).2
  obtain ⟨m₂',hback',-,hfield,-⟩ := rtlSelfRelativeToAbsoluteSD_spec habs hrel htarget hself
  obtain ⟨rfl,-⟩ := Prod.mk.inj (Prod.mk.inj (hback.symm.trans hback')).2
  have hcomponent := hsame c
  rwa [SameComponent,if_pos hc,hfield] at hcomponent

end

/-- An absolute descriptor comes back from its self-relative form exactly if the caller passes
`NULL` for what the descriptor does not have. -/
theorem sd_roundTrips_iff (m : Mem) (sd rel bufferLength target : Nat)
    (buffer size : SdComponent → Nat) (habs : IsAbsolute m sd)
    (hrel : RelativeBuffer m sd rel bufferLength)
    (htarget : TargetBuffers rel (totalLength (rtlpQuerySecurityDescriptor m sd))
      (rtlpQuerySecurityDescriptor m sd) target buffer size) :
    RoundTrips m sd rel bufferLength target buffer size ↔
      ∀ c, rtlpQuerySecurityDescriptorPointers m sd c=0 → buffer c=0 := by
  refine ⟨fun h c hc => h.buffer_eq_zero habs hrel htarget hc,fun h => ?_⟩
  obtain ⟨m₁,hmake,hself⟩ := rtlMakeSelfRelativeSD_spec hrel
  obtain ⟨m₂,hback,hcontrol,hfield,hbytes⟩ :=
    rtlSelfRelativeToAbsoluteSD_spec habs hrel htarget hself
  refine ⟨m₁,_,m₂,_,hmake,hback,hcontrol,fun c => ?_⟩
  rw [SameComponent]
  by_cases hc : rtlpQuerySecurityDescriptorPointers m sd c=0
  · rw [if_pos hc,hfield,h c hc]
  · have hlength : rtlpQuerySecurityDescriptor m sd c≠0 := mt habs.length_eq_zero_iff.mp hc
    rw [if_neg hc,hfield]
    refine ⟨htarget.given c hlength,?_⟩
    rw [← habs.length_eq hc]
    exact hbytes c hlength

def nullDacl : Mem := fun i =>
  ([1,0,4,0,84,0,0,0,0,0,0,0,0,0,0,0,0,0,0,0,
    1,1,0,0,0,0,0,5,18,0,0,0] : List (BitVec 8)).getD (i-64) 0

def nullDaclBuffer (dacl : Nat) : SdComponent → Nat
  | .owner => 160
  | .group => 0
  | .sacl => 0
  | .dacl => dacl

theorem isAbsolute_nullDacl : IsAbsolute nullDacl 64 := by
  refine ⟨by decide,by decide,fun c hc => ?_⟩
  obtain rfl | rfl := hc
  · exact fun hpointer => absurd hpointer (by decide)
  · exact fun hpointer => absurd hpointer (by decide)

theorem relativeBuffer_nullDacl : RelativeBuffer nullDacl 64 100 32 := by
  refine ⟨by decide,by decide,.inl (by decide),fun c => ?_⟩
  cases c with
  | owner => exact fun _ => .inl (by decide)
  | group | sacl | dacl => exact fun hlength => absurd hlength (by decide)

theorem targetBuffers_nullDacl {dacl : Nat} (h : dacl<2^32) :
    TargetBuffers 100 (totalLength (rtlpQuerySecurityDescriptor nullDacl 64))
      (rtlpQuerySecurityDescriptor nullDacl 64) 140 (nullDaclBuffer dacl) fun _ => 12 := by
  have howner : ∀ c, rtlpQuerySecurityDescriptor nullDacl 64 c≠0 → c = .owner := by
    intro c
    cases c <;> decide
  refine ⟨fun c => ?_,fun c => ?_,fun c hc => ?_,.inr (by decide),fun c hc => ?_,fun c hc => ?_,
    fun c d hcd hc hd => ?_⟩
  · cases c <;> decide
  · cases c with
    | owner => exact (by decide : 160<2^32)
    | group | sacl => exact (by decide : 0<2^32)
    | dacl => exact h
  · obtain rfl := howner c hc
    exact (by decide : 160≠0)
  · obtain rfl := howner c hc
    exact .inr (by decide : 100+totalLength (rtlpQuerySecurityDescriptor nullDacl 64)≤160)
  · obtain rfl := howner c hc
    exact .inr (by decide : 140+sdHeaderSize≤160)
  · exact absurd ((howner c hc).trans (howner d hd).symm) hcd

theorem sd_roundTrips_iff_nullDacl :
    RoundTrips nullDacl 64 100 32 140 (nullDaclBuffer 0) fun _ => 12 := by
  refine (sd_roundTrips_iff nullDacl 64 100 32 140 (nullDaclBuffer 0) _ isAbsolute_nullDacl
    relativeBuffer_nullDacl (targetBuffers_nullDacl (by decide))).mpr fun c hc => ?_
  cases c with
  | owner => exact absurd hc (by decide)
  | group | dacl | sacl => rfl

/-- With a buffer for the DACL the `NULL` DACL does not stay `NULL`. -/
theorem not_roundTrips_nullDacl :
    rtlpQuerySecurityDescriptorPointers nullDacl 64 .dacl=0 ∧
      ¬RoundTrips nullDacl 64 100 32 140 (nullDaclBuffer 172) fun _ => 12 := by
  refine ⟨by decide,fun h => ?_⟩
  have hzero := h.buffer_eq_zero isAbsolute_nullDacl relativeBuffer_nullDacl
    (targetBuffers_nullDacl (by decide)) (c := .dacl) (by decide)
  exact absurd hzero (by decide)

end RoundTrip

end Odyssey.Rtl
