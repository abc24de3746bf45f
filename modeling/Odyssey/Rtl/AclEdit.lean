import Odyssey.Lib.PackedRecords
import Odyssey.Rtl.Acl

/-! Inserting ACEs into an access control list and taking one out (`RtlAddAce`, `RtlDeleteAce` and
`RtlQueryInformationAcl` of `lib/rtl/acl.c`). `RtlMoveMemory` may copy between overlapping memory;
`RtlCopyMemory` is `memcpy`, which may not. -/
namespace Odyssey.Rtl
open ByteMem PackedRecords Function List

/-- What an edit comes back with; `outside` if it touches memory that is not in the list,
`undefined` if `RtlCopyMemory` copies between overlapping memory. -/
inductive EditReply where
  | invalidParameter
  | bufferTooSmall
  | outside
  | undefined
  | success (acl : Mem)

def writeUshort (m : Mem) (o v : Nat) : Mem :=
  update (update m o (BitVec.ofNat 8 v)) (o+1) (BitVec.ofNat 8 (v/256))

def setHeader (m : Mem) (count revision : Nat) : Mem :=
  update (writeUshort m 4 count) 0 (BitVec.ofNat 8 revision)

def addedData (m aceList : Mem) (aceListLength ace offset : Nat) : Mem :=
  let moved := if 0<offset then copy m (ace+aceListLength) m ace offset else m
  if aceListLength≠0 then copy moved ace aceList 0 aceListLength else moved

/-- `RtlpAddData`; `none` if the `offset` bytes at `ace` overlap those `aceListLength` bytes on. -/
def rtlpAddData (m aceList : Mem) (aceListLength ace offset : Nat) : Option Mem :=
  if 0<offset ∧ aceListLength<offset then none
  else some (addedData m aceList aceListLength ace offset)

/-- The loop that counts the new ACEs; `none` if it refuses them. It looks at the type of the first
ACE each time. -/
def newAceLoop (aceList : Mem) (aceListLength revision : Nat) : Nat → Nat → Nat → Option Nat
  | 0, _, count => some count
  | fuel+1, current, count =>
    if current<aceListLength then
      if aceType aceList 0=accessAllowedCompoundAceType ∧ revision<aclRevision3 then none
      else newAceLoop aceList aceListLength revision fuel (current+aceSize aceList current)
        (count+1)
    else some count

def rtlAddAce (m : Mem) (revision startingIndex : Nat) (aceList : Mem) (aceListLength : Nat) :
    EditReply :=
  if aclRevision m< minAclRevision ∨ aclRevision m > maxAclRevision then .invalidParameter
  else
    match rtlFirstFreeAce m with
    | none => .invalidParameter
    | some ace =>
      let revision := if aclRevision m≤revision then aclRevision m else revision
      if aceListLength=0 then .invalidParameter
      else
        match newAceLoop aceList aceListLength revision (aceListLength+1) 0 0 with
        | none => .invalidParameter
        | some newAceCount =>
          match ace with
          | none => .bufferTooSmall
          | some ace =>
            if ace+aceListLength > aclSize m then .bufferTooSmall
            else
              let current := aceAfter m (min startingIndex (aceCount m)) aclHeaderSize
              match rtlpAddData m aceList aceListLength current (ace-current) with
              | none => .undefined
              | some m' => .success (setHeader m' (aceCount m+newAceCount) revision)

/-- `RtlpDeleteData`, with the arithmetic of `ULONG`s; `none` if it leaves the list. -/
def rtlpDeleteData (m : Mem) (ace aceSize offset : Nat) : Option Mem :=
  let moved :=
    if aceSize<offset then
      if ace+offset≤aclSize m then some (copy m ace m (ace+aceSize) (offset-aceSize)) else none
    else some m
  moved.map fun moved =>
    if (offset+2^32-aceSize)%2^32<offset then
      fill moved (ace+offset-aceSize) aceSize 0
    else moved

def deleteAt (m : Mem) (current offset : Nat) : EditReply :=
  match rtlpDeleteData m current (aceSize m current) offset with
  | none => .outside
  | some m' => .success (writeUshort m' 4 (aceCount m-1))

def freeOffset (address : Nat) (ace : Option Nat) (current : Nat) : Nat :=
  let aceAddress :=
    match ace with
    | some ace => address+ace
    | none => 0
  (aceAddress+2^32-(address+current))%2^32

def rtlDeleteAce (address : Nat) (m : Mem) (aceIndex : Nat) : EditReply :=
  if aclRevision m< minAclRevision ∨ aclRevision m > maxAclRevision ∨ aceCount m≤aceIndex then
    .invalidParameter
  else
    match rtlFirstFreeAce m with
    | none => .invalidParameter
    | some ace =>
      let current := aceAfter m aceIndex aclHeaderSize
      deleteAt m current (freeOffset address ace current)

/-- `RtlQueryInformationAcl` for `AclSizeInformation`: the bytes in use and free, `none` if it
fails. -/
def rtlQuerySizeInformation (m : Mem) : Option (Nat × Nat) :=
  if aclRevision m< minAclRevision ∨ aclRevision m > maxAclRevision then none
  else
    match rtlFirstFreeAce m with
    | none => none
    | some (some ace) => some (ace, aclSize m-ace)
    | some none => some (aclSize m, 0)

def typeField (a : List (BitVec 8)) : Nat := (a.getD 0 0).toNat

def sizeField (a : List (BitVec 8)) : Nat := (a.getD 3 0).toNat*256+(a.getD 2 0).toNat

/-- An ACE has a header that says its size. -/
structure IsAce (a : List (BitVec 8)) : Prop where
  header : aceHeaderSize≤a.length
  size : sizeField a=a.length

section Aces
variable {m : Mem} {o : Nat} {a : List (BitVec 8)} {l : List (List (BitVec 8))}

theorem getD_of_bytes (h : bytes m o a.length=a) {i : Nat} (hi : i<a.length) :
    a.getD i 0=m (o+i) := by
  have hget := getElem?_bytes m o hi
  rw [h] at hget
  rw [getD_eq_getElem?_getD,hget]
  rfl

theorem IsAce.aceSize_eq (ha : IsAce a) (h : bytes m o a.length=a) : aceSize m o=a.length := by
  have hlen : 4≤a.length := ha.header
  have hsize := ha.size
  rw [sizeField,getD_of_bytes h (by omega),getD_of_bytes h (by omega)] at hsize
  exact hsize

theorem IsAce.isRecord (ha : IsAce a) : IsRecord aceSize a := fun _ _ h => ha.aceSize_eq h

theorem IsAce.aceType_eq (ha : IsAce a) (h : bytes m o a.length=a) : aceType m o=typeField a := by
  have hlen : 4≤a.length := ha.header
  rw [typeField,getD_of_bytes h (by omega)]
  rfl

/-- The type of the first of some ACEs. -/
theorem aceType_of_packed (ha : IsAce a) (h : Packed aceSize m o (a::l)) :
    aceType m o=typeField a := by
  have happend : Packed aceSize m o ([a]++l) := h
  have hfirst := (packed_append.mp happend).1.bytes_eq
  simp only [flatten_cons,flatten_nil,append_nil] at hfirst
  exact ha.aceType_eq hfirst

theorem length_le_of_isAce (h : ∀ a∈l, IsAce a) : 4*l.length≤l.flatten.length := by
  induction l with
  | nil => simp
  | cons a l ih =>
    have ha : 4≤a.length := (h a (by simp)).header
    have hl := ih fun b hb => h b (by simp [hb])
    simp only [length_cons,flatten_cons,length_append]
    omega

theorem aceAfter_eq_walk (m : Mem) (n o : Nat) : aceAfter m n o=walk aceSize m n o := by
  induction n generalizing o with
  | zero => rfl
  | succ n ih => exact ih (o+aceSize m o)

end Aces

def IsCompound (a : List (BitVec 8)) : Prop := typeField a=accessAllowedCompoundAceType

/-- The image of a list holds some ACEs. -/
structure Holds (m : Mem) (l : List (List (BitVec 8))) : Prop where
  count : aceCount m=l.length
  packed : Packed aceSize m aclHeaderSize l
  aces : ∀ a∈l, IsAce a
  fits : aclHeaderSize+l.flatten.length≤aclSize m

/-- The revision of the list is one that allows its ACEs. -/
structure Revised (m : Mem) (l : List (List (BitVec 8))) : Prop where
  ge : minAclRevision≤aclRevision m
  le : aclRevision m≤ maxAclRevision
  compound : ∀ a∈l, IsCompound a → aclRevision3≤aclRevision m

section FirstFree
variable {m : Mem} {l : List (List (BitVec 8))}

theorem firstFreeLoop_packed {o : Nat} (h : Packed aceSize m o l) (haces : ∀ a∈l, IsAce a)
    (hfits : o+l.flatten.length≤aclSize m)
    (hcompound : ∀ a∈l, IsCompound a → aclRevision3≤aclRevision m) :
    firstFreeLoop m l.length o=some (if o+l.flatten.length<aclSize m then
      some (o+l.flatten.length) else none) := by
  induction l generalizing o with
  | nil => simp [firstFreeLoop]
  | cons a l ih =>
    have ha : 4≤a.length := (haces a (by simp)).header
    have htype := aceType_of_packed (haces a (by simp)) h
    have hsize := h.size_eq
    have hlen : (a::l).flatten.length=a.length+l.flatten.length := by simp
    rw [hlen] at hfits ⊢
    have hcheck : ¬(aceType m o=accessAllowedCompoundAceType ∧ aclRevision m<aclRevision3) := by
      intro hold
      rw [htype] at hold
      exact absurd (hcompound a (by simp) hold.1) (Nat.not_le_of_gt hold.2)
    have hrest := ih h.tail (fun b hb => haces b (by simp [hb])) (by omega)
      fun b hb => hcompound b (by simp [hb])
    rw [length_cons,firstFreeLoop,if_neg (by omega),if_neg hcheck,hsize,hrest,Nat.add_assoc]

/-- A compound ACE in a list of an old revision. -/
theorem firstFreeLoop_eq_none {o : Nat} (h : Packed aceSize m o l) (haces : ∀ a∈l, IsAce a)
    {b : List (BitVec 8)} (hb : b∈l) (hcompound : IsCompound b)
    (hold : aclRevision m<aclRevision3) : firstFreeLoop m l.length o=none := by
  induction l generalizing o with
  | nil => exact absurd hb (by simp)
  | cons a l ih =>
    have htype := aceType_of_packed (haces a (by simp)) h
    rw [length_cons,firstFreeLoop]
    split
    · rfl
    · split
      · rfl
      · rename_i hcheck
        rw [h.size_eq]
        obtain rfl | hb := mem_cons.mp hb
        · exact absurd ⟨htype.trans hcompound,hold⟩ hcheck
        · exact ih h.tail (fun c hc => haces c (by simp [hc])) hb

theorem Holds.firstFree (h : Holds m l) (hr : Revised m l) :
    rtlFirstFreeAce m=some (if l=[] ∨ aclHeaderSize+l.flatten.length<aclSize m then
      some (aclHeaderSize+l.flatten.length) else none) := by
  rw [rtlFirstFreeAce,h.count]
  by_cases hl : l=[]
  · simp [hl]
  · rw [firstFreeLoop_packed h.packed h.aces h.fits hr.compound]
    simp [hl]

theorem Revised.checks (hr : Revised m l) :
    ¬(aclRevision m< minAclRevision ∨ aclRevision m > maxAclRevision) := by
  have h1 := hr.ge
  have h2 := hr.le
  omega

theorem Holds.query (h : Holds m l) (hr : Revised m l) :
    ∃ used free, rtlQuerySizeInformation m=some (used, free) ∧ used+free=aclSize m := by
  have hfits := h.fits
  rw [rtlQuerySizeInformation,if_neg hr.checks,h.firstFree hr]
  split
  · rename_i heq
    exact absurd heq (by simp)
  · rename_i ace heq
    refine ⟨ace,aclSize m-ace,rfl,?_⟩
    split at heq
    · obtain rfl := Option.some.inj (Option.some.inj heq)
      omega
    · exact absurd heq (by simp)
  · exact ⟨aclSize m,0,rfl,Nat.add_zero _⟩

/-- The query answers only for a list of a revision that allows its ACEs. -/
theorem Holds.revised_of_query (h : Holds m l) (hq : rtlQuerySizeInformation m≠none) :
    Revised m l := by
  rw [rtlQuerySizeInformation] at hq
  split at hq
  · exact absurd rfl hq
  · rename_i hrevision
    refine ⟨by omega,by omega,fun a ha hcompound => ?_⟩
    by_contra hold
    have hpos : aceCount m≠0 := by
      rw [h.count]
      exact Nat.ne_of_gt (length_pos_of_mem ha)
    have hloop := firstFreeLoop_eq_none h.packed h.aces ha hcompound (Nat.lt_of_not_le hold)
    rw [rtlFirstFreeAce,if_neg hpos,h.count,hloop] at hq
    exact absurd rfl hq

end FirstFree

section Header
variable (m : Mem)

theorem writeUshort_of_ne {o v i : Nat} (h : i≠o ∧ i≠o+1) : writeUshort m o v i=m i := by
  rw [writeUshort,update_of_ne h.2,update_of_ne h.1]

theorem ushortAt_writeUshort (o : Nat) {v : Nat} (hv : v<65536) :
    ushortAt (writeUshort m o v) o=v := by
  have hne : o≠o+1 := by omega
  rw [ushortAt,writeUshort,update_self,update_of_ne hne,update_self,
    BitVec.toNat_ofNat,BitVec.toNat_ofNat]
  omega

theorem aclSize_writeUshort (v : Nat) : aclSize (writeUshort m 4 v)=aclSize m := by
  rw [aclSize,aclSize,ushortAt,ushortAt,writeUshort_of_ne m (by omega),
    writeUshort_of_ne m (by omega)]

theorem aclRevision_writeUshort (v : Nat) : aclRevision (writeUshort m 4 v)=aclRevision m := by
  rw [aclRevision,aclRevision,writeUshort_of_ne m (by omega)]

theorem setHeader_of_ge {count revision i : Nat} (h : 8 ≤ i) :
    setHeader m count revision i=m i := by
  have hne : i≠0 := by omega
  rw [setHeader,update_of_ne hne,writeUshort_of_ne m (by omega)]

theorem aclSize_setHeader (count revision : Nat) :
    aclSize (setHeader m count revision)=aclSize m := by
  have hsize := aclSize_writeUshort m count
  rw [aclSize,ushortAt] at hsize ⊢
  rw [setHeader,update_of_ne (by omega),update_of_ne (by omega),hsize]

theorem aceCount_setHeader {count : Nat} (revision : Nat) (h : count<65536) :
    aceCount (setHeader m count revision)=count := by
  have hcount := ushortAt_writeUshort m 4 h
  rw [ushortAt] at hcount
  rw [aceCount,ushortAt,setHeader,update_of_ne (by omega),update_of_ne (by omega),hcount]

theorem aclRevision_setHeader (count : Nat) {revision : Nat} (h : revision<256) :
    aclRevision (setHeader m count revision)=revision := by
  exact Nat.mod_eq_of_lt h

end Header

section Add
variable {m aceList : Mem} {l new : List (List (BitVec 8))}

theorem newAceLoop_packed {revision o count fuel : Nat} (h : Packed aceSize aceList o new)
    (haces : ∀ a∈new, IsAce a) (hfuel : new.length<fuel)
    (htype : ¬(aceType aceList 0=accessAllowedCompoundAceType ∧ revision<aclRevision3)) :
    newAceLoop aceList (o+new.flatten.length) revision fuel o count=some (count+new.length) := by
  induction new generalizing o count fuel with
  | nil =>
    cases fuel with
    | zero => exact absurd hfuel (by simp)
    | succ fuel => simp [newAceLoop]
  | cons a new ih =>
    cases fuel with
    | zero => exact absurd hfuel (by simp)
    | succ fuel =>
      have ha : 4≤a.length := (haces a (by simp)).header
      have hlen : (a::new).flatten.length=a.length+new.flatten.length := by simp
      have hrest : newAceLoop aceList (o+a.length+new.flatten.length) revision fuel (o+a.length)
          (count+1)=some (count+1+new.length) :=
        ih h.tail (fun b hb => haces b (by simp [hb])) (Nat.lt_of_succ_lt_succ hfuel)
      rw [newAceLoop,hlen,if_pos (by omega),if_neg htype,h.size_eq,← Nat.add_assoc,hrest,
        length_cons]
      congr 1
      omega

/-- The new ACEs lie between the old ones. -/
theorem packed_addedData {o n : Nat} (h : Packed aceSize m o l)
    (hnew : Packed aceSize aceList 0 new) :
    Packed aceSize (addedData m aceList new.flatten.length (o+(l.take n).flatten.length)
      (l.drop n).flatten.length) o (l.take n++new++l.drop n) := by
  have htake := h.take n
  have hdrop := h.drop n
  generalize hp : (l.take n).flatten.length=p at hdrop ⊢
  generalize hq : (l.drop n).flatten.length=q
  generalize hk : new.flatten.length=k
  have hmoved : ∀ m' : Mem, m'=(if 0<q then copy m (o+p+k) m (o+p) q else m) →
      bytes m' o p=bytes m o p ∧ bytes m' (o+p+k) q=bytes m (o+p) q := by
    intro m' hm'
    split at hm'
    · subst hm'
      exact ⟨bytes_copy_of_disjoint _ _ (by omega),bytes_copy _ _ _ _ _⟩
    · have hzero : q=0 := by omega
      subst hm' hzero
      exact ⟨rfl,rfl⟩
  rw [addedData]
  generalize hm' : (if 0<q then copy m (o+p+k) m (o+p) q else m)=m'
  obtain ⟨hfront,hback⟩ := hmoved m' hm'.symm
  have hfinal : ∀ m'' : Mem, m''=(if k≠0 then copy m' (o+p) aceList 0 k else m') →
      bytes m'' o p=bytes m o p ∧ bytes m'' (o+p) k=bytes aceList 0 k ∧
        bytes m'' (o+p+k) q=bytes m (o+p) q := by
    intro m'' hm''
    split at hm''
    · subst hm''
      refine ⟨?_,bytes_copy _ _ _ _ _,?_⟩
      · rw [bytes_copy_of_disjoint _ _ (by omega),hfront]
      · rw [bytes_copy_of_disjoint _ _ (by omega),hback]
    · have hzero : k=0 := by omega
      subst hm'' hzero
      exact ⟨hfront,rfl,hback⟩
  obtain ⟨h1,h2,h3⟩ := hfinal _ rfl
  refine packed_append.mpr ⟨packed_append.mpr ⟨?_,?_⟩,?_⟩
  · refine htake.of_bytes ?_
    rw [hp]
    exact h1
  · refine hnew.of_bytes ?_
    rw [hp,hk]
    exact h2
  · refine hdrop.of_bytes ?_
    rw [flatten_append,length_append,hp,hk,hq,← Nat.add_assoc]
    exact h3

def newRevision (m : Mem) (revision : Nat) : Nat :=
  if aclRevision m≤revision then aclRevision m else revision

theorem Holds.rtlAddAce (h : Holds m l) (hr : Revised m l) (hnew : Packed aceSize aceList 0 new)
    (haces : ∀ a∈new, IsAce a) (hne : new≠[]) (revision i : Nat) :
    rtlAddAce m revision i aceList new.flatten.length =
      if aceType aceList 0=accessAllowedCompoundAceType ∧ newRevision m revision<aclRevision3 then
        .invalidParameter
      else if aclSize m<aclHeaderSize+l.flatten.length+new.flatten.length then .bufferTooSmall
      else if new.flatten.length<(l.drop (min i l.length)).flatten.length then .undefined
      else .success (setHeader
        (addedData m aceList new.flatten.length
          (aclHeaderSize+(l.take (min i l.length)).flatten.length)
          (l.drop (min i l.length)).flatten.length)
        (l.length+new.length) (newRevision m revision)) := by
  have hfour := length_le_of_isAce haces
  have hpos : 0<new.length := length_pos_iff.mpr hne
  have hlen : new.flatten.length≠0 := by omega
  have hcurrent : aceAfter m (min i l.length) aclHeaderSize =
      aclHeaderSize+(l.take (min i l.length)).flatten.length := by
    rw [aceAfter_eq_walk,h.packed.walk (Nat.min_le_right _ _)]
  have hoffset : aclHeaderSize+l.flatten.length -
      (aclHeaderSize+(l.take (min i l.length)).flatten.length) =
      (l.drop (min i l.length)).flatten.length := by
    have hsum := flatten_length_take_add_drop l (min i l.length)
    omega
  rw [Rtl.rtlAddAce,if_neg hr.checks,h.firstFree hr]
  dsimp only
  rw [if_neg hlen,← newRevision]
  by_cases htype : aceType aceList 0=accessAllowedCompoundAceType ∧
      newRevision m revision<aclRevision3
  · have hloop : newAceLoop aceList new.flatten.length (newRevision m revision)
        (new.flatten.length+1) 0 0=none := by
      rw [newAceLoop,if_pos (Nat.pos_of_ne_zero hlen),if_pos htype]
    rw [hloop,if_pos htype]
  · have hloop : newAceLoop aceList (0+new.flatten.length) (newRevision m revision)
        (new.flatten.length+1) 0 0=some (0+new.length) :=
      newAceLoop_packed hnew haces (by omega) htype
    rw [Nat.zero_add,Nat.zero_add] at hloop
    rw [hloop,if_neg htype]
    by_cases hfull : l=[] ∨ aclHeaderSize+l.flatten.length<aclSize m
    · rw [if_pos hfull]
      dsimp only
      rw [h.count,hcurrent,hoffset,rtlpAddData]
      refine if_congr Iff.rfl rfl ?_
      by_cases hover : new.flatten.length<(l.drop (min i l.length)).flatten.length
      · rw [if_pos ⟨by omega,hover⟩,if_pos hover]
      · rw [if_neg fun hboth => hover hboth.2,if_neg hover]
    · rw [if_neg hfull]
      have hsmall : aclSize m<aclHeaderSize+l.flatten.length+new.flatten.length := by omega
      rw [if_pos hsmall]

theorem addedData_of_lt {ace i : Nat} (length offset : Nat) (h : i<ace) :
    addedData m aceList length ace offset i=m i := by
  have hmoved : (if 0<offset then copy m (ace+length) m ace offset else m) i=m i := by
    split
    · exact copy_of_lt _ _ (by omega)
    · rfl
  rw [addedData]
  split
  · rw [copy_of_lt _ _ (by omega),hmoved]
  · exact hmoved

theorem aclSize_congr {m m' : Mem} (h : ∀ i<8, m' i=m i) : aclSize m'=aclSize m := by
  rw [aclSize,aclSize,ushortAt,ushortAt,h 2 (by omega),h (2+1) (by omega)]

/-- The list with the new ACEs. -/
theorem Holds.add (h : Holds m l) (hnew : Packed aceSize aceList 0 new) (haces : ∀ a∈new, IsAce a)
    (hroom : aclHeaderSize+l.flatten.length+new.flatten.length≤aclSize m) (n revision : Nat) :
    Holds (setHeader (addedData m aceList new.flatten.length
        (aclHeaderSize+(l.take n).flatten.length) (l.drop n).flatten.length)
        (l.length+new.length) revision) (l.take n++new++l.drop n) ∧
      aclSize (setHeader (addedData m aceList new.flatten.length
        (aclHeaderSize+(l.take n).flatten.length) (l.drop n).flatten.length)
        (l.length+new.length) revision)=aclSize m := by
  have hpacked := packed_addedData (n := n) h.packed hnew
  have hlow : ∀ i<8, addedData m aceList new.flatten.length
      (aclHeaderSize+(l.take n).flatten.length) (l.drop n).flatten.length i=m i := by
    intro i hi
    refine addedData_of_lt _ _ ?_
    rw [aclHeaderSize]
    omega
  have hsize := aclSize_congr hlow
  have hlen : (l.take n++new++l.drop n).flatten.length =
      l.flatten.length+new.flatten.length := by
    have hsum := flatten_length_take_add_drop l n
    simp only [flatten_append,length_append]
    omega
  have hall : ∀ a∈l.take n++new++l.drop n, IsAce a := by
    intro a ha
    simp only [mem_append] at ha
    obtain (ha | ha) | ha := ha
    · exact h.aces a (mem_of_mem_take ha)
    · exact haces a ha
    · exact h.aces a (mem_of_mem_drop ha)
  have hcount : (l.take n++new++l.drop n).length=l.length+new.length := by
    simp only [length_append,length_take,length_drop]
    omega
  have hfour := length_le_of_isAce hall
  have hlt := aclSize_lt m
  refine ⟨⟨?_,?_,hall,?_⟩,?_⟩
  · rw [aceCount_setHeader _ _ (by omega),hcount]
  · refine hpacked.of_bytes (bytes_congr fun i _ => setHeader_of_ge _ ?_)
    rw [aclHeaderSize]
    omega
  · rw [aclSize_setHeader,hlen]
    omega
  · rw [aclSize_setHeader,hsize]

end Add

section Delete
variable {m : Mem} {l : List (List (BitVec 8))} {i : Nat}

/-- The offset of an ACE and its size. -/
theorem Holds.aceAt (h : Holds m l) (hi : i<l.length) :
    aceAfter m i aclHeaderSize=aclHeaderSize+(l.take i).flatten.length ∧
      aceSize m (aclHeaderSize+(l.take i).flatten.length)=l[i].length ∧
      (l.drop i).flatten.length=l[i].length+(l.drop (i+1)).flatten.length ∧
      4≤l[i].length := by
  have hdrop := h.packed.drop i
  rw [drop_eq_getElem_cons hi] at hdrop
  refine ⟨?_,hdrop.size_eq,?_,(h.aces l[i] (getElem_mem hi)).header⟩
  · rw [aceAfter_eq_walk,h.packed.walk (Nat.le_of_lt hi)]
  · rw [drop_eq_getElem_cons,flatten_cons,length_append]

/-- The ACEs behind the one that is deleted move to its place. -/
theorem rtlpDeleteData_eq {ace size rest : Nat} (hsize : 0<size)
    (hin : ace+(size+rest)≤aclSize m) (hlt : size+rest<2^32) :
    ∃ m', rtlpDeleteData m ace size (size+rest)=some m' ∧
      bytes m' ace rest=bytes m (ace+size) rest ∧ ∀ k<ace, m' k=m k := by
  have hless : (size+rest+2^32-size)%2^32<size+rest := by omega
  rw [rtlpDeleteData]
  by_cases hrest : 0<rest
  · have hmore : size<size+rest := by omega
    have hdiff : size+rest-size=rest := by omega
    simp only [hmore,hin,if_true,hless,Option.map_some,hdiff]
    refine ⟨_,rfl,?_,?_⟩
    · rw [← bytes_copy m m]
      exact bytes_congr fun k hk => fill_of_lt _ _ (by omega)
    · intro k hk
      rw [fill_of_lt _ _ (by omega),copy_of_lt _ _ (by omega)]
  · have hzero : rest=0 := by omega
    subst hzero
    simp only [Nat.add_zero,Nat.lt_irrefl,if_false,Option.map_some]
    rw [Nat.add_zero] at hless
    rw [if_pos hless]
    refine ⟨_,rfl,rfl,?_⟩
    intro k hk
    exact fill_of_lt _ _ (by omega)

theorem aclRevision_congr {m m' : Mem} (h : ∀ i<8, m' i=m i) : aclRevision m'=aclRevision m := by
  rw [aclRevision,aclRevision,h 0 (by omega)]

theorem Holds.checks (h : Holds m l) (hr : Revised m l) (hi : i<l.length) :
    ¬(aclRevision m< minAclRevision ∨ aclRevision m > maxAclRevision ∨ aceCount m ≤ i) := by
  have h1 := hr.checks
  have h2 := h.count
  omega

section
variable (h : Holds m l) (hr : Revised m l) (hi : i<l.length) {address : Nat}
  (haddress : address+aclSize m<2^32)
include h hr hi haddress

/-- In a list with some free bytes, an ACE is taken out. -/
theorem Holds.delete (hfree : aclHeaderSize+l.flatten.length<aclSize m) :
    ∃ m', rtlDeleteAce address m i = .success m' ∧ Holds m' (l.eraseIdx i) ∧
      aclSize m'=aclSize m ∧ aclRevision m'=aclRevision m := by
  obtain ⟨hcurrent,hsize,hlen,hfour⟩ := h.aceAt hi
  have hsum := flatten_length_take_add_drop l i
  have hrevision := h.checks hr hi
  have hfirst := h.firstFree hr
  rw [if_pos (.inr hfree)] at hfirst
  have hoffset : freeOffset address (some (aclHeaderSize+l.flatten.length))
      (aclHeaderSize+(l.take i).flatten.length) =
      l[i].length+(l.drop (i+1)).flatten.length := by
    simp only [freeOffset]
    omega
  have hsizePos : 0<l[i].length := by omega
  have hinside : aclHeaderSize+(l.take i).flatten.length +
      (l[i].length+(l.drop (i+1)).flatten.length)≤aclSize m := by omega
  obtain ⟨m',hdelete,hrest,hlow⟩ := rtlpDeleteData_eq hsizePos hinside (by omega)
  have hlow8 : ∀ k<8, m' k=m k := by
    intro k hk
    refine hlow k ?_
    rw [aclHeaderSize]
    omega
  refine ⟨writeUshort m' 4 (aceCount m-1),?_,⟨?_,?_,?_,?_⟩,?_,?_⟩
  · rw [rtlDeleteAce,if_neg hrevision,hfirst]
    dsimp only
    rw [hcurrent,hoffset,deleteAt,hsize,hdelete]
  · have hlt := aclSize_lt m
    have hall := length_le_of_isAce h.aces
    have hcount := h.count
    rw [aceCount,ushortAt_writeUshort _ _ (by omega),hcount,length_eraseIdx_of_lt hi]
  · rw [eraseIdx_eq_take_drop_succ]
    have hkeep : ∀ o n : Nat, 8≤o → bytes (writeUshort m' 4 (aceCount m-1)) o n=bytes m' o n := by
      intro o n ho
      exact bytes_congr fun k _ => writeUshort_of_ne _ (by omega)
    refine packed_append.mpr ⟨?_,?_⟩
    · refine (h.packed.take i).of_bytes ?_
      rw [hkeep aclHeaderSize _ (Nat.le_refl 8)]
      exact bytes_congr fun k hk => hlow _ (by omega)
    · refine (h.packed.drop (i+1)).of_bytes ?_
      have hnext : aclHeaderSize+(l.take (i+1)).flatten.length =
          aclHeaderSize+(l.take i).flatten.length+l[i].length := by
        rw [take_succ_eq_append_getElem hi,flatten_append,length_append]
        simp only [flatten_cons,flatten_nil,append_nil]
        omega
      rw [hkeep _ _ (by rw [aclHeaderSize]; omega),hrest,hnext]
  · intro a ha
    exact h.aces a (mem_of_mem_eraseIdx ha)
  · have hsize' := aclSize_congr hlow8
    rw [aclSize_writeUshort,eraseIdx_eq_take_drop_succ,flatten_append,length_append]
    omega
  · rw [aclSize_writeUshort,aclSize_congr hlow8]
  · rw [aclRevision_writeUshort,aclRevision_congr hlow8]

/-- In a full list the null pointer for the free ACE makes the move run out of the list. -/
theorem Holds.delete_full (hfull : aclHeaderSize+l.flatten.length=aclSize m) :
    rtlDeleteAce address m i = .outside := by
  obtain ⟨hcurrent,hsize,hlen,hfour⟩ := h.aceAt hi
  have hsum := flatten_length_take_add_drop l i
  have hrevision := h.checks hr hi
  have hne : ¬(l=[] ∨ aclHeaderSize+l.flatten.length<aclSize m) := by
    rintro (hl | hlt)
    · simp [hl] at hi
    · omega
  have hfirst := h.firstFree hr
  rw [if_neg hne] at hfirst
  have hheader : aclHeaderSize=8 := rfl
  obtain ⟨k,hk⟩ : ∃ k, k=2^32-(address+(aclHeaderSize+(l.take i).flatten.length)) :=
    ⟨_,rfl⟩
  have hoffset : freeOffset address none (aclHeaderSize+(l.take i).flatten.length)=k := by
    simp only [freeOffset]
    omega
  have hmore : l[i].length<k := by omega
  have hout : ¬aclHeaderSize+(l.take i).flatten.length+k≤aclSize m := by omega
  have hdelete : rtlpDeleteData m (aclHeaderSize+(l.take i).flatten.length) l[i].length k =
      none := by
    simp only [rtlpDeleteData,hmore,hout,if_true,if_false,Option.map_none]
  rw [rtlDeleteAce,if_neg hrevision,hfirst]
  dsimp only
  rw [hcurrent,hoffset,deleteAt,hsize,hdelete]

end

end Delete

inductive AclEdit where
  | add (revision startingIndex : Nat) (aceList : Mem) (new : List (List (BitVec 8)))
  | delete (aceIndex : Nat)

namespace AclEdit

/-- The ACEs that are added are there, and the one that is deleted is in the list. -/
def WellFormed (l : List (List (BitVec 8))) : AclEdit → Prop
  | .add _ _ aceList new => Packed aceSize aceList 0 new ∧ (∀ a∈new, IsAce a) ∧ new≠[]
  | .delete i => i<l.length

def apply (address : Nat) (m : Mem) : AclEdit → EditReply
  | .add revision startingIndex aceList new =>
    rtlAddAce m revision startingIndex aceList new.flatten.length
  | .delete i => rtlDeleteAce address m i

def result (l : List (List (BitVec 8))) : AclEdit → List (List (BitVec 8))
  | .add _ i _ new => l.take (min i l.length)++new++l.drop (min i l.length)
  | .delete i => l.eraseIdx i

def HasRoom (m : Mem) (l : List (List (BitVec 8))) : AclEdit → Prop
  | .add _ _ _ new => aclHeaderSize+l.flatten.length+new.flatten.length≤aclSize m
  | .delete _ => True

/-- The bytes in use and the free bytes make up the list. -/
def Reports (m : Mem) : Prop :=
  ∃ used free, rtlQuerySizeInformation m=some (used, free) ∧ used+free=aclSize m

/-- With room, the list holds the edited ACEs; without, the edit fails. -/
def Lawful (address : Nat) (m : Mem) (l : List (List (BitVec 8))) (e : AclEdit) : Prop :=
  (e.HasRoom m l → ∃ m', e.apply address m = .success m' ∧ Holds m' (e.result l) ∧
    aclSize m'=aclSize m ∧ Reports m') ∧
  (¬e.HasRoom m l →
    (e.apply address m = .invalidParameter ∨ e.apply address m = .bufferTooSmall) ∧ Reports m)

/-- The revision that is asked for allows the ACEs, the ACEs that have to move are not longer than
the new ones, and nothing is deleted from a full list. -/
def Harmless (m : Mem) (l : List (List (BitVec 8))) : AclEdit → Prop
  | .add revision i aceList new => ¬(AclEdit.add revision i aceList new).HasRoom m l ∨
      minAclRevision≤revision ∧
        (aclRevision3≤ min revision (aclRevision m) ∨ ∀ a∈l++new, ¬IsCompound a) ∧
        (l.drop i).flatten.length≤new.flatten.length
  | .delete _ => aclHeaderSize+l.flatten.length<aclSize m

theorem lawful_add_iff {m aceList : Mem} {l new : List (List (BitVec 8))} (h : Holds m l)
    (hr : Revised m l) (hnew : Packed aceSize aceList 0 new) (haces : ∀ a∈new, IsAce a)
    (hne : new≠[]) (address revision i : Nat) :
    (AclEdit.add revision i aceList new).Lawful address m l ↔
      (AclEdit.add revision i aceList new).Harmless m l := by
  have hequation := h.rtlAddAce hr hnew haces hne revision i
  have hmin : newRevision m revision=min revision (aclRevision m) := by
    rw [newRevision]
    split
    · exact (Nat.min_eq_right ‹_›).symm
    · omega
  have hle := hr.le
  have hge := hr.ge
  have hmax : maxAclRevision=4 := rfl
  by_cases hroom : aclHeaderSize+l.flatten.length+new.flatten.length≤aclSize m
  · obtain ⟨hholds,hsize⟩ := h.add hnew haces hroom (min i l.length) (newRevision m revision)
    have hrevision := aclRevision_setHeader (addedData m aceList new.flatten.length
      (aclHeaderSize+(l.take (min i l.length)).flatten.length)
      (l.drop (min i l.length)).flatten.length) (l.length+new.length)
      (show newRevision m revision<256 by omega)
    have hmem : ∀ a, a∈l.take (min i l.length)++new++l.drop (min i l.length) ↔ a∈l++new := by
      intro a
      conv_rhs => rw [← take_append_drop (min i l.length) l]
      simp only [mem_append]
      tauto
    have hdrop : l.drop (min i l.length)=l.drop i := by
      obtain hi | hi := Nat.le_total i l.length
      · rw [Nat.min_eq_left hi]
      · rw [Nat.min_eq_right hi,drop_length,drop_of_length_le hi]
    rw [if_neg (Nat.not_lt_of_ge hroom)] at hequation
    constructor
    · intro hlawful
      obtain ⟨m',hm',hholds',-,used,free,hquery,-⟩ := hlawful.1 hroom
      refine .inr ?_
      have happly : rtlAddAce m revision i aceList new.flatten.length = .success m' := hm'
      rw [hequation] at happly
      split at happly
      · exact EditReply.noConfusion happly
      split at happly
      · exact EditReply.noConfusion happly
      next hover =>
        obtain rfl := EditReply.success.inj happly
        have hrevised := hholds'.revised_of_query (by rw [hquery]; simp)
        have hlow := hrevised.ge
        rw [hrevision,hmin] at hlow
        rw [hdrop] at hover
        refine ⟨hlow.trans (Nat.min_le_left _ _),?_,Nat.le_of_not_lt hover⟩
        by_cases hthree : aclRevision3≤ min revision (aclRevision m)
        · exact .inl hthree
        · refine .inr fun a ha hcompound => hthree ?_
          have hcheck := hrevised.compound a ((hmem a).mpr ha) hcompound
          rwa [hrevision,hmin] at hcheck
    · intro hharmless
      obtain hno | ⟨hlow,hcompound,hmoved⟩ := hharmless
      · exact absurd hroom hno
      refine ⟨fun _ => ?_,fun hno => absurd hroom hno⟩
      have hrevised : Revised (setHeader (addedData m aceList new.flatten.length
          (aclHeaderSize+(l.take (min i l.length)).flatten.length)
          (l.drop (min i l.length)).flatten.length) (l.length+new.length)
          (newRevision m revision))
          (l.take (min i l.length)++new++l.drop (min i l.length)) := by
        refine ⟨?_,?_,fun a ha hc => ?_⟩
        · rw [hrevision,hmin]
          exact Nat.le_min.mpr ⟨hlow,hge⟩
        · rw [hrevision,hmin]
          exact (Nat.min_le_right _ _).trans hle
        · rw [hrevision,hmin]
          obtain hthree | hnone := hcompound
          · exact hthree
          · exact absurd hc (hnone a ((hmem a).mp ha))
      have htype : ¬(aceType aceList 0=accessAllowedCompoundAceType ∧
          newRevision m revision<aclRevision3) := by
        rintro ⟨hc,hold⟩
        obtain hthree | hnone := hcompound
        · omega
        · obtain ⟨a,rest,rfl⟩ := exists_cons_of_ne_nil hne
          refine hnone a (by simp) ?_
          exact (aceType_of_packed (haces a (by simp)) hnew).symm.trans hc
      rw [← hdrop] at hmoved
      rw [if_neg htype,if_neg (Nat.not_lt_of_ge hmoved)] at hequation
      exact ⟨_,hequation,hholds,hsize,hholds.query hrevised⟩
  · refine ⟨fun _ => .inl hroom,fun _ => ⟨fun hyes => absurd hyes hroom,fun _ => ⟨?_,h.query hr⟩⟩⟩
    rw [if_pos (Nat.lt_of_not_le hroom)] at hequation
    split at hequation
    · exact .inl hequation
    · exact .inr hequation

theorem lawful_delete_iff {m : Mem} {l : List (List (BitVec 8))} (h : Holds m l) (hr : Revised m l)
    {i address : Nat} (hi : i<l.length) (haddress : address+aclSize m<2^32) :
    (AclEdit.delete i).Lawful address m l ↔ (AclEdit.delete i).Harmless m l := by
  constructor
  · intro hlawful
    obtain ⟨m',hm',-⟩ := hlawful.1 trivial
    by_contra hfull
    have hfits := h.fits
    have hout := h.delete_full hr hi haddress (Nat.le_antisymm hfits (Nat.le_of_not_lt hfull))
    exact EditReply.noConfusion (hout.symm.trans hm')
  · intro hfree
    obtain ⟨m',hdelete,hholds,hsize,hrevision⟩ := h.delete hr hi haddress hfree
    have hrevised : Revised m' (l.eraseIdx i) := by
      refine ⟨?_,?_,fun a ha hc => ?_⟩
      · rw [hrevision]
        exact hr.ge
      · rw [hrevision]
        exact hr.le
      · rw [hrevision]
        exact hr.compound a (mem_of_mem_eraseIdx ha) hc
    exact ⟨fun _ => ⟨m',hdelete,hholds,hsize,hholds.query hrevised⟩,absurd trivial⟩

/-- `RtlAddAce` and `RtlDeleteAce` edit the list of ACEs exactly if the edit is harmless. -/
theorem lawful_iff_harmless (address : Nat) (m : Mem) (l : List (List (BitVec 8))) (e : AclEdit)
    (h : Holds m l) (hr : Revised m l) (he : e.WellFormed l)
    (haddress : address+aclSize m<2^32) : e.Lawful address m l ↔ e.Harmless m l := by
  cases e with
  | add revision i aceList new =>
    obtain ⟨hnew,haces,hne⟩ := he
    exact lawful_add_iff h hr hnew haces hne address revision i
  | delete i => exact lawful_delete_iff h hr he haddress

def twoAces : List (List (BitVec 8)) := [[0,0,4,0],[1,0,4,0]]

def twoAcesAcl (size : BitVec 8) : Mem := fun o =>
  ([2,0,size,0,2,0,0,0,0,0,4,0,1,0,4,0] : List (BitVec 8)).getD o 0

theorem isAce_twoAces : ∀ a∈twoAces, IsAce a := by
  intro a ha
  simp only [twoAces,mem_cons,not_mem_nil,or_false] at ha
  obtain rfl | rfl := ha
  · exact ⟨by decide,by decide⟩
  · exact ⟨by decide,by decide⟩

theorem holds_twoAcesAcl {size : BitVec 8} (h : size=16 ∨ size=20) :
    Holds (twoAcesAcl size) twoAces := by
  have hrecords : ∀ a∈twoAces, IsRecord aceSize a := fun a ha => (isAce_twoAces a ha).isRecord
  obtain rfl | rfl := h
  · exact ⟨by decide,⟨hrecords,by decide⟩,isAce_twoAces,by decide⟩
  · exact ⟨by decide,⟨hrecords,by decide⟩,isAce_twoAces,by decide⟩

theorem revised_twoAcesAcl (size : BitVec 8) : Revised (twoAcesAcl size) twoAces := by
  have hrevision : aclRevision (twoAcesAcl size)=2 := rfl
  refine ⟨by rw [hrevision]; decide,by rw [hrevision]; decide,fun a ha hc => ?_⟩
  rw [IsCompound] at hc
  simp only [twoAces,mem_cons,not_mem_nil,or_false] at ha
  obtain rfl | rfl := ha
  · exact absurd hc (by decide)
  · exact absurd hc (by decide)

/-- An ACE put between two others where there is room for it, and one taken out. -/
theorem lawful_iff_harmless_twoAces :
    (AclEdit.add 2 1 (fun o => twoAcesAcl 20 (o+8)) [[0,0,4,0]]).Lawful 4096
      (twoAcesAcl 20) twoAces ∧
      (AclEdit.delete 0).Lawful 4096 (twoAcesAcl 20) twoAces := by
  have hnew : ∀ a∈[[0,0,4,0]], IsAce a := fun a ha => isAce_twoAces a (by
    rw [mem_singleton.mp ha]
    exact mem_cons_self)
  have hpacked : Packed aceSize (fun o => twoAcesAcl 20 (o+8)) 0 [[0,0,4,0]] :=
    ⟨fun a ha => (hnew a ha).isRecord,by decide⟩
  have hplain : ∀ a∈twoAces++[[0,0,4,0]], ¬IsCompound a := by
    intro a ha
    rw [IsCompound]
    simp only [twoAces,cons_append,nil_append,mem_cons,not_mem_nil,or_false] at ha
    obtain rfl | rfl | rfl := ha
    · decide
    · decide
    · decide
  constructor
  · exact (lawful_iff_harmless 4096 _ _ (.add 2 1 _ [[0,0,4,0]]) (holds_twoAcesAcl (.inr rfl))
      (revised_twoAcesAcl 20) ⟨hpacked,hnew,by simp⟩ (by decide)).mpr
      (.inr ⟨by decide,.inr hplain,by decide⟩)
  · exact (lawful_iff_harmless 4096 _ _ (.delete 0) (holds_twoAcesAcl (.inr rfl))
      (revised_twoAcesAcl 20) Nat.two_pos (by decide)).mpr (show 16<20 by decide)

/-- Deleting from the list that its two ACEs fill. -/
theorem twoAcesAcl_not_lawful :
    rtlDeleteAce 4096 (twoAcesAcl 16) 0 = .outside ∧
      ¬(AclEdit.delete 0).Lawful 4096 (twoAcesAcl 16) twoAces := by
  have hout : rtlDeleteAce 4096 (twoAcesAcl 16) 0 = .outside :=
    (holds_twoAcesAcl (.inl rfl)).delete_full (revised_twoAcesAcl 16) (by decide) (by decide)
      (by decide)
  refine ⟨hout,fun h => ?_⟩
  obtain ⟨m',hm',-⟩ := h.1 trivial
  exact EditReply.noConfusion (hout.symm.trans hm')

end AclEdit

end Odyssey.Rtl
