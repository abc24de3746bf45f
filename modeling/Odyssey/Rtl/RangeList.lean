import Mathlib.Tactic

/-! Range lists (`lib/rtl/rangelist.c`). -/
namespace Odyssey.Rtl.RangeList
open List

def rtlRangeShared : BitVec 8 := 1

def rtlRangeListAddShared : BitVec 32 := 2

/-- `RTL_RANGE`, as `RtlAddRange` makes it. -/
@[ext] structure Range where
  start : BitVec 64
  stop : BitVec 64
  userData : BitVec 32
  owner : BitVec 32
  attributes : BitVec 8
  flags : BitVec 8
  start_le : start≤ stop
  flags_eq : flags=0 ∨ flags=rtlRangeShared
deriving DecidableEq

/-- `RTL_RANGE_LIST`; `Count` goes up with every entry that is linked in. -/
structure RtlRangeList where
  ranges : List Range
  flags : BitVec 32
  stamp : BitVec 32

def RtlRangeList.count (list : RtlRangeList) : Nat := list.ranges.length

inductive NtStatus where
  | success | invalidParameter | insufficientResources
deriving DecidableEq

def rtlInitializeRangeList : RtlRangeList := ⟨[],0,0⟩

def insertRange (e : Range) : List Range → List Range
  | [] => [e]
  | current::rest =>
    if current.start > e.stop then e::current::rest else current::insertRange e rest

def newFlags (flags : BitVec 32) : BitVec 8 :=
  if flags &&& rtlRangeListAddShared≠0 then rtlRangeShared else 0

theorem newFlags_eq (flags : BitVec 32) : newFlags flags=0 ∨ newFlags flags=rtlRangeShared := by
  rw [newFlags]
  split
  · exact .inr rfl
  · exact .inl rfl

/-- `pool n` says whether there is memory for one more entry when the list has `n` of them. -/
def rtlAddRange (pool : Nat → Bool) (list : RtlRangeList) (start stop : BitVec 64)
    (attributes : BitVec 8) (flags userData owner : BitVec 32) : NtStatus × RtlRangeList :=
  if h : start≤ stop then
    if pool list.count then
      let e : Range := ⟨start,stop,userData,owner,attributes,newFlags flags,h,newFlags_eq flags⟩
      (.success, { list with
        ranges := if list.count=0 then list.ranges++[e] else insertRange e list.ranges
        stamp := list.stamp+1 })
    else (.insufficientResources, list)
  else (.invalidParameter, list)

def sizeofListEntry : Nat := 8

def sizeofRange : Nat := 32

def sizeofRangeEntry : Nat := sizeofListEntry+sizeofRange

/-- `RtlCopyMemory` to the range of a new entry, behind its links, has the size of a whole entry.
The loop is `none` if it writes behind the entry. -/
def copyLoop (pool : Nat → Bool) : RtlRangeList → List Range → Option (NtStatus × RtlRangeList)
  | copy, [] => some (.success, { copy with stamp := copy.stamp+1 })
  | copy, current::rest =>
    if pool copy.count then
      if sizeofListEntry+sizeofRangeEntry≤ sizeofRangeEntry then
        copyLoop pool { copy with ranges := copy.ranges++[current] } rest
      else none
    else some (.insufficientResources, copy)

def rtlCopyRangeList (pool : Nat → Bool) (copy list : RtlRangeList) :
    Option (NtStatus × RtlRangeList) :=
  copyLoop pool { copy with flags := list.flags } list.ranges

def mergeLoop (pool : Nat → Bool) (flags : BitVec 32) :
    RtlRangeList → List Range → NtStatus × RtlRangeList
  | merged, [] => (.success, merged)
  | merged, r::rest =>
    match rtlAddRange pool merged r.start r.stop r.attributes (r.flags.setWidth 32 ||| flags)
      r.userData r.owner with
    | (.success, merged) => mergeLoop pool flags merged rest
    | failed => failed

def rtlMergeRangeLists (pool : Nat → Bool) (merged list1 list2 : RtlRangeList) (flags : BitVec 32) :
    Option (NtStatus × RtlRangeList) :=
  match rtlCopyRangeList pool merged list1 with
  | some (.success, merged) => some (mergeLoop pool flags merged list2.ranges)
  | failed => failed

/-- The loop and the step behind it; `first` is 0 where the source has no previous range, and the
point behind that range where it has one. -/
def invertLoop (pool : Nat → Bool) :
    RtlRangeList → BitVec 64 → List Range → NtStatus × RtlRangeList
  | inverted, first, [] =>
    if first≠-1 then rtlAddRange pool inverted first (-1) 0 0 0 0 else (.success, inverted)
  | inverted, first, current::rest =>
    if first≠current.start then
      match rtlAddRange pool inverted first (current.start-1) 0 0 0 0 with
      | (.success, inverted) => invertLoop pool inverted (current.stop+1) rest
      | failed => failed
    else invertLoop pool inverted (current.stop+1) rest

def rtlInvertRangeList (pool : Nat → Bool) (inverted list : RtlRangeList) :
    NtStatus × RtlRangeList :=
  match list.ranges with
  | [] => (.success, inverted)
  | l => invertLoop pool inverted 0 l

/-- The test of `RtlIsRangeAvailable`. -/
def conflicts (start stop : BitVec 64) (flags : BitVec 32) (r : Range) : Bool :=
  !(r.start ≥ stop && r.stop > stop || r.start≤ start && r.stop<start &&
    (flags &&& rtlRangeShared.setWidth 32 == 0 || r.flags &&& rtlRangeShared == 0))

def accepts (callback : Option (Range → Bool)) (r : Range) : Bool := callback.elim false (· r)

def availableLoop (start stop : BitVec 64) (flags : BitVec 32) (callback : Option (Range → Bool)) :
    Bool → List Range → Bool
  | available, [] => available
  | available, r::rest =>
    availableLoop start stop flags callback
      (if conflicts start stop flags r then accepts callback r else available) rest

/-- The attribute mask is not used; the callback is taken with its context. -/
def rtlIsRangeAvailable (list : RtlRangeList) (start stop : BitVec 64) (flags : BitVec 32)
    (_attributeAvailableMask : BitVec 8) (callback : Option (Range → Bool)) : NtStatus × Bool :=
  (.success, availableLoop start stop flags callback true list.ranges)

section Available
variable (start stop : BitVec 64) (flags : BitVec 32) (mask : BitVec 8)
  (callback : Option (Range → Bool)) (r : Range)

def Intersects : Prop := r.start≤ stop ∧ start≤r.stop

def BothShared : Prop := flags &&& rtlRangeShared.setWidth 32≠0 ∧ r.flags=rtlRangeShared

/-- A stored range that makes `[start, stop]` unavailable. -/
def Refused : Prop :=
  Intersects start stop r ∧ r.attributes &&& mask=0 ∧ ¬BothShared flags r ∧ ¬accepts callback r

/-- What `RtlIsRangeAvailable` takes for a conflict: a range that only touches the end of the
request and goes on behind it is none, a shared range below a shared request is one. -/
def Counted : Prop :=
  Intersects start stop r ∧ ¬(r.start=stop ∧ stop<r.stop) ∨ r.stop<start ∧ BothShared flags r

instance : DecidablePred (Refused start stop flags mask callback) := fun _ =>
  inferInstanceAs (Decidable ((_ ∧ _) ∧ _ ∧ ¬(_ ∧ _) ∧ ¬_))

instance : DecidablePred (Counted start stop flags) := fun _ =>
  inferInstanceAs (Decidable ((_ ∧ _) ∧ ¬(_ ∧ _) ∨ _ ∧ _ ∧ _))

/-- A range that should not count: its attributes exclude it, or it and the request are shared. -/
def Exempt : Prop := r.attributes &&& mask≠0 ∨ BothShared flags r

/-- A range that should count and does not. -/
def TouchesEnd : Prop := r.start=stop ∧ stop<r.stop

instance : DecidablePred (Exempt flags mask) := fun _ => inferInstanceAs (Decidable (_ ∨ _ ∧ _))

def AvailableExactly (list : RtlRangeList) : Prop :=
  (rtlIsRangeAvailable list start stop flags mask callback).2=true ↔
    ∀ r∈list.ranges, ¬Refused start stop flags mask callback r

variable {start stop flags mask callback} {A B l : List Range} {c : Range}

theorem conflicts_iff (hle : start≤ stop) :
    conflicts start stop flags r=true ↔ Counted start stop flags r := by
  have hr := r.start_le
  have hshared : (r.flags &&& rtlRangeShared == 0)=true ↔ ¬r.flags=rtlRangeShared := by
    obtain h | h := r.flags_eq
    · rw [h]
      decide
    · rw [h]
      decide
  simp only [conflicts,Counted,Intersects,BothShared,Bool.not_eq_true',← Bool.not_eq_true,
    Bool.or_eq_true,Bool.and_eq_true,decide_eq_true_eq,hshared,beq_iff_eq,ne_eq]
  by_cases hf : flags &&& rtlRangeShared.setWidth 32=0
  · simp only [hf,not_true_eq_false,false_and,and_false,or_false,true_or,and_true]
    bv_omega
  · by_cases hs : r.flags=rtlRangeShared
    · simp only [hf,hs,not_false_eq_true,not_true_eq_false,and_self,and_true,or_self,
        and_false,or_false]
      bv_omega
    · simp only [hf,hs,not_false_eq_true,and_false,or_false,or_true,and_true]
      bv_omega

theorem availableLoop_cons (hle : start≤ stop) (b : Bool) (l : List Range) :
    availableLoop start stop flags callback b (r::l) = availableLoop start stop flags callback
      (if Counted start stop flags r then accepts callback r else b) l := by
  simp only [availableLoop,conflicts_iff r hle]

theorem availableLoop_none (hle : start≤ stop) (h : ∀ r∈l, ¬Counted start stop flags r) (b : Bool) :
    availableLoop start stop flags callback b l=b := by
  induction l with
  | nil => rfl
  | cons r l ih =>
    rw [availableLoop_cons r hle,if_neg (h r mem_cons_self)]
    exact ih fun s hs => h s (mem_cons_of_mem r hs)

/-- The last range that counts decides, whatever was found before it. -/
theorem availableLoop_last (hle : start≤ stop) (hc : Counted start stop flags c)
    (hB : ∀ b∈B, ¬Counted start stop flags b) (b : Bool) :
    availableLoop start stop flags callback b (A++c::B)=accepts callback c := by
  induction A generalizing b with
  | nil => rw [nil_append,availableLoop_cons c hle,if_pos hc,availableLoop_none hle hB]
  | cons r A ih =>
    rw [cons_append,availableLoop_cons r hle]
    exact ih _

theorem exists_lastCounted (start stop : BitVec 64) (flags : BitVec 32) (l : List Range) :
    (∀ r∈l, ¬Counted start stop flags r) ∨ ∃ A c B, l=A++c::B ∧ Counted start stop flags c ∧
      ∀ b∈B, ¬Counted start stop flags b := by
  induction l with
  | nil => exact .inl (by simp)
  | cons r l ih =>
    obtain h | ⟨A,c,B,rfl,hc,hB⟩ := ih
    · by_cases hr : Counted start stop flags r
      · exact .inr ⟨[],r,l,rfl,hr,h⟩
      · exact .inl (forall_mem_cons.mpr ⟨hr,h⟩)
    · exact .inr ⟨r::A,c,B,rfl,hc,hB⟩

theorem not_refused_iff : ¬Refused start stop flags mask callback r ↔
    (Intersects start stop r → Exempt flags mask r ∨ accepts callback r) := by
  unfold Refused Exempt
  tauto

theorem TouchesEnd.intersects (hle : start≤ stop) (h : TouchesEnd stop r) :
    Intersects start stop r := ⟨h.1 ▸ BitVec.le_refl _,BitVec.le_trans hle (BitVec.le_of_lt h.2)⟩

theorem touchesEnd_of_not_counted (h : Intersects start stop r) (hr : ¬Counted start stop flags r) :
    TouchesEnd stop r := by
  by_contra ht
  exact hr (.inl ⟨h,ht⟩)

/-- The answer is right exactly in these cases. If no range counts, no range that touches the end of
the request is refused. If the callback accepts the last range that counts, no range in front of it
is refused, and none behind it that touches the end. If the callback does not accept it, or there is
no callback, it does intersect the request and is not exempt, or another range is refused. -/
theorem availableExactly_iff (hle : start≤ stop) (list : RtlRangeList) :
    AvailableExactly start stop flags mask callback list ↔
      ((∀ r∈list.ranges, ¬Counted start stop flags r) →
        ∀ r∈list.ranges, TouchesEnd stop r → Exempt flags mask r ∨ accepts callback r) ∧
      ∀ A c B, list.ranges=A++c::B → Counted start stop flags c →
        (∀ b∈B, ¬Counted start stop flags b) →
        (accepts callback c →
          (∀ r∈A, Intersects start stop r → Exempt flags mask r ∨ accepts callback r) ∧
          ∀ r∈B, TouchesEnd stop r → Exempt flags mask r ∨ accepts callback r) ∧
        (¬accepts callback c → Intersects start stop c ∧ ¬Exempt flags mask c ∨
          ∃ r∈A++B, Refused start stop flags mask callback r) := by
  rw [AvailableExactly,rtlIsRangeAvailable]
  simp only [not_refused_iff]
  constructor
  · refine fun h => ⟨fun hnone r hr ht => ?_,fun A c B hl hc hB => ⟨fun hacc => ?_,fun hacc => ?_⟩⟩
    · exact h.mp (availableLoop_none hle hnone true) r hr (ht.intersects r hle)
    · have hall := h.mp (by rw [hl,availableLoop_last hle hc hB,hacc])
      rw [hl] at hall
      exact ⟨fun r hr => hall r (by simp [hr]),
        fun r hr ht => hall r (by simp [hr]) (ht.intersects r hle)⟩
    · rw [hl,availableLoop_last hle hc hB] at h
      obtain ⟨r,hr,hrefused⟩ : ∃ r∈A++c::B, Refused start stop flags mask callback r := by
        by_contra hcon
        push Not at hcon
        exact hacc (h.mpr fun r hr => (not_refused_iff r).mp (hcon r hr))
      by_cases hrc : r=c
      · subst hrc
        exact .inl ⟨hrefused.1,fun hex => (not_refused_iff r).mpr (fun _ => .inl hex) hrefused⟩
      · exact .inr ⟨r,by simpa [hrc] using hr,hrefused⟩
  · rintro ⟨hnone,hlast⟩
    obtain h | ⟨A,c,B,hl,hc,hB⟩ := exists_lastCounted start stop flags list.ranges
    · refine iff_of_true (availableLoop_none hle h true) fun r hr hi => ?_
      exact hnone h r hr (touchesEnd_of_not_counted r hi (h r hr))
    · obtain ⟨hyes,hno⟩ := hlast A c B hl hc hB
      rw [hl,availableLoop_last hle hc hB]
      by_cases hacc : accepts callback c=true
      · refine iff_of_true hacc fun r hr hi => ?_
        obtain ⟨hA,hBt⟩ := hyes hacc
        obtain hr | hr := mem_append.mp hr
        · exact hA r hr hi
        · obtain rfl | hr := mem_cons.mp hr
          · exact .inr hacc
          · exact hBt r hr (touchesEnd_of_not_counted r hi (hB r hr))
      · refine iff_of_false hacc fun hall => ?_
        obtain ⟨hi,hex⟩ | ⟨r,hr,hrefused⟩ := hno hacc
        · exact (hall c (by simp) hi).elim hex hacc
        · have hmem : r∈A++c::B := by
            obtain hr | hr := mem_append.mp hr
            · simp [hr]
            · simp [hr]
          exact (not_refused_iff r).mpr (hall r hmem) hrefused

end Available

/-- The range from the last point of the request on is refused and does not count. -/
theorem not_availableExactly_touching : ¬AvailableExactly 0 5 0 0 none
    ⟨[⟨5,9,0,0,0,0,by decide,Or.inl rfl⟩],0,0⟩ := by
  unfold AvailableExactly
  decide

def threeRanges : RtlRangeList :=
  ⟨[⟨2,3,0,0,0,0,by decide,Or.inl rfl⟩,⟨12,15,0,0,0,0,by decide,Or.inl rfl⟩,
    ⟨25,30,0,0,0,0,by decide,Or.inl rfl⟩],0,0⟩

/-- The range in the middle intersects the request, and the verdict is that it does. -/
theorem availableExactly_inside : AvailableExactly 10 20 0 0 none threeRanges := by
  have hcounted : ∀ c∈threeRanges.ranges, Counted 10 20 0 c →
      Intersects 10 20 c ∧ ¬Exempt 0 0 c := by
    unfold Intersects
    decide
  refine (availableExactly_iff (by decide) threeRanges).mpr ⟨fun h => ?_,fun A c B hl hc _ =>
    ⟨fun hacc => absurd hacc (by simp [accepts]),fun _ => .inl (hcounted c (by simp [hl]) hc)⟩⟩
  exact absurd h (by decide)

section Add
variable {e : Range} {l : List Range}

theorem insertRange_perm (e : Range) (l : List Range) : (insertRange e l).Perm (e::l) := by
  induction l with
  | nil => exact Perm.refl _
  | cons c l ih =>
    rw [insertRange]
    split
    · exact Perm.refl _
    · exact (ih.cons c).trans (Perm.swap e c l)

/-- A range whose end is not below the start of any other becomes the last one. -/
theorem insertRange_eq_append (h : ∀ c∈l, c.start≤e.stop) : insertRange e l=l++[e] := by
  induction l with
  | nil => rfl
  | cons c l ih =>
    rw [insertRange,if_neg (BitVec.not_lt.mpr (h c mem_cons_self)),
      ih fun x hx => h x (mem_cons_of_mem c hx),cons_append]

def StartsSorted (l : List Range) : Prop := l.Pairwise (·.start ≤ ·.start)

/-- The pool of a machine that does not run out of memory. -/
def ample : Nat → Bool := fun _ => true

theorem rtlAddRange_ample (list : RtlRangeList) {start stop : BitVec 64} (h : start≤ stop)
    (attributes : BitVec 8) (flags userData owner : BitVec 32) :
    rtlAddRange ample list start stop attributes flags userData owner =
      (.success, { list with
        ranges := insertRange ⟨start,stop,userData,owner,attributes,newFlags flags,h,
          newFlags_eq flags⟩
          list.ranges
        stamp := list.stamp+1 }) := by
  have hpool : ample list.count=true := rfl
  rw [rtlAddRange,dif_pos,if_pos hpool]
  by_cases hzero : list.count=0
  · simp only [if_pos hzero,length_eq_zero_iff.mp hzero]
    rfl
  · simp only [if_neg hzero]

end Add

section Merge
variable {list1 list2 : RtlRangeList} {flags : BitVec 32}

/-- Copying a range writes behind the new entry. -/
theorem rtlCopyRangeList_ample (copy list : RtlRangeList) :
    rtlCopyRangeList ample copy list = if list.ranges=[] then
      some (.success, { copy with flags := list.flags, stamp := copy.stamp+1 }) else none := by
  rw [rtlCopyRangeList]
  cases list.ranges with
  | nil => rfl
  | cons r l => rfl

/-- A range of the second list as it is added to the merged one. -/
def addedAgain (flags : BitVec 32) (r : Range) : Range :=
  { r with flags := newFlags (r.flags.setWidth 32 ||| flags), flags_eq := newFlags_eq _ }

theorem addedAgain_flags (flags : BitVec 32) (r : Range) :
    (addedAgain flags r).flags=newFlags flags := by
  have hbit : r.flags.setWidth 32 &&& rtlRangeListAddShared=0#32 := by
    obtain h | h := r.flags_eq
    · rw [h]
      decide
    · rw [h]
      decide
  simp only [addedAgain,newFlags,BitVec.and_or_distrib_right,hbit,BitVec.zero_or]

def insertAll (flags : BitVec 32) (l added : List Range) : List Range :=
  added.foldl (fun l r => insertRange (addedAgain flags r) l) l

theorem mergeLoop_ample (flags : BitVec 32) (l : List Range) (list : RtlRangeList) :
    ∃ merged, mergeLoop ample flags list l=(.success, merged) ∧
      merged.ranges=insertAll flags list.ranges l := by
  induction l generalizing list with
  | nil => exact ⟨_,rfl,rfl⟩
  | cons r l ih =>
    rw [mergeLoop,rtlAddRange_ample]
    exact ih _

theorem insertAll_perm (l added : List Range) :
    (insertAll flags l added).Perm (l++added.map (addedAgain flags)) := by
  induction added generalizing l with
  | nil => simp [insertAll]
  | cons r added ih =>
    refine (ih _).trans ?_
    exact ((insertRange_perm _ l).append_right _).trans perm_middle.symm

/-- Ranges in the order of their starts are appended one by one. -/
theorem insertAll_eq_append {l added : List Range} (h : StartsSorted (l++added)) :
    insertAll flags l added=l++added.map (addedAgain flags) := by
  induction added generalizing l with
  | nil => simp [insertAll]
  | cons r added ih =>
    have hl : ∀ c∈l, c.start≤r.stop := fun c hc =>
      BitVec.le_trans ((pairwise_append.mp h).2.2 c hc r mem_cons_self) r.start_le
    have hstep : insertAll flags l (r::added)=insertAll flags (l++[addedAgain flags r]) added := by
      rw [← insertRange_eq_append (e := addedAgain flags r) hl]
      rfl
    rw [hstep,ih]
    · simp
    · have hstarts : (l++r::added).map Range.start =
          (l++[addedAgain flags r]++added).map Range.start := by simp [addedAgain]
      have h' := pairwise_map.mpr h
      rw [hstarts] at h'
      exact pairwise_map.mp h'

/-- The merged list has the ranges of both lists and is sorted if they are, and a copy has the
ranges of its source in their order. -/
def MergesExactly (list1 list2 : RtlRangeList) (flags : BitVec 32) : Prop :=
  (∃ merged, rtlMergeRangeLists ample rtlInitializeRangeList list1 list2 flags =
    some (.success, merged) ∧
    merged.ranges.Perm (list1.ranges++list2.ranges) ∧
    (StartsSorted list1.ranges → StartsSorted list2.ranges → StartsSorted merged.ranges)) ∧
  ∃ copy, rtlCopyRangeList ample rtlInitializeRangeList list1=some (.success, copy) ∧
    copy.ranges=list1.ranges

theorem map_addedAgain_perm (l : List Range) : (l.map (addedAgain flags)).Perm l ↔
    ∀ r∈l, (r.flags=rtlRangeShared ↔ flags &&& rtlRangeListAddShared≠0) := by
  have hsame (r : Range) : (r.flags=rtlRangeShared ↔ flags &&& rtlRangeListAddShared≠0) ↔
      newFlags flags=r.flags := by
    by_cases hf : flags &&& rtlRangeListAddShared≠0
    · rw [newFlags,if_pos hf,iff_true_right hf,eq_comm]
    · rw [newFlags,if_neg hf,iff_false_right hf]
      obtain h | h := r.flags_eq
      · rw [h]
        decide
      · rw [h]
        decide
  simp only [hsame]
  constructor
  · intro hperm r hr
    obtain ⟨x,-,rfl⟩ := mem_map.mp (hperm.mem_iff.mpr hr)
    rw [addedAgain_flags]
  · intro h
    have heq : l.map (addedAgain flags)=l.map id := map_congr_left fun r hr =>
      Range.ext rfl rfl rfl rfl rfl ((addedAgain_flags flags r).trans (h r hr))
    rw [heq,map_id]

/-- The ranges of the first list cannot be copied, and those of the second keep what they share only
if the flags of the call say the same of all of them. -/
theorem mergesExactly_iff : MergesExactly list1 list2 flags ↔ list1.ranges=[] ∧
    ∀ r∈list2.ranges, (r.flags=rtlRangeShared ↔ flags &&& rtlRangeListAddShared≠0) := by
  have hcopy := rtlCopyRangeList_ample rtlInitializeRangeList list1
  by_cases hnil : list1.ranges=[]
  · rw [if_pos hnil] at hcopy
    obtain ⟨merged,hmerge,hmerged⟩ := mergeLoop_ample flags list2.ranges
      { rtlInitializeRangeList with
        flags := list1.flags, stamp := rtlInitializeRangeList.stamp+1 }
    have hm : rtlMergeRangeLists ample rtlInitializeRangeList list1 list2 flags =
        some (.success, merged) := by
      rw [rtlMergeRangeLists,hcopy]
      exact congrArg some hmerge
    have hperm : merged.ranges.Perm (list2.ranges.map (addedAgain flags)) :=
      hmerged ▸ insertAll_perm [] list2.ranges
    rw [MergesExactly,hm,hcopy,hnil,← map_addedAgain_perm,nil_append]
    constructor
    · rintro ⟨⟨merged',heq,h,-⟩,-⟩
      obtain rfl := (Prod.ext_iff.mp (Option.some.inj heq)).2
      exact ⟨rfl,hperm.symm.trans h⟩
    · rintro ⟨-,h⟩
      refine ⟨⟨merged,rfl,hperm.trans h,fun _ hs => ?_⟩,_,rfl,rfl⟩
      have happend : merged.ranges=list2.ranges.map (addedAgain flags) :=
        hmerged.trans (insertAll_eq_append hs)
      rw [happend]
      exact pairwise_map.mpr hs
  · rw [if_neg hnil] at hcopy
    refine iff_of_false ?_ fun h => hnil h.1
    rintro ⟨-,copy,hsome,-⟩
    rw [hcopy] at hsome
    cases hsome

end Merge

theorem not_mergesExactly_shared : ¬MergesExactly rtlInitializeRangeList
    ⟨[⟨0,0,0,0,0,rtlRangeShared,by decide,Or.inr rfl⟩],0,0⟩ 0 := by
  rintro ⟨⟨merged,hmerged,hperm,-⟩,-⟩
  obtain rfl := (Prod.ext_iff.mp (Option.some.inj hmerged)).2
  revert hperm
  decide

section Invert
variable {l A : List Range} {x first : BitVec 64} {last : Range} {list out : RtlRangeList}

def Covers (l : List Range) (x : BitVec 64) : Prop := ∃ r∈l, r.start≤x ∧ x≤r.stop

/-- The ranges ascend and have no point in common. -/
def NonOverlapping (l : List Range) : Prop := l.Pairwise (·.stop < ·.start)

/-- A call that succeeds and covers the points that were not covered. -/
def Inverts (list : RtlRangeList) : Prop :=
  ∃ inverted, rtlInvertRangeList ample rtlInitializeRangeList list=(.success, inverted) ∧
    ∀ x, Covers inverted.ranges x ↔ ¬Covers list.ranges x

def InvertsTwice (list : RtlRangeList) : Prop :=
  ∃ inverted again, rtlInvertRangeList ample rtlInitializeRangeList list=(.success, inverted) ∧
    rtlInvertRangeList ample rtlInitializeRangeList inverted=(.success, again) ∧
    ∀ x, Covers again.ranges x ↔ Covers list.ranges x

theorem covers_insertRange (e : Range) (l : List Range) :
    Covers (insertRange e l) x ↔ (e.start≤x ∧ x≤e.stop) ∨ Covers l x := by
  simp only [Covers,(insertRange_perm e l).mem_iff,mem_cons,exists_eq_or_imp]

theorem covers_cons (r : Range) (l : List Range) :
    Covers (r::l) x ↔ (r.start≤x ∧ x≤r.stop) ∨ Covers l x := by
  simp only [Covers,mem_cons,exists_eq_or_imp]

/-- Where the step behind the loop starts. -/
def lastPoint (first : BitVec 64) (l : List Range) : BitVec 64 :=
  l.foldl (fun _ r => r.stop+1) first

theorem invertLoop_cons {r : Range} (hle : first≤r.start) (rest : List Range)
    (list : RtlRangeList) : ∃ next, invertLoop ample list first (r::rest) =
      invertLoop ample next (r.stop+1) rest ∧
        ∀ x, Covers next.ranges x ↔ Covers list.ranges x ∨ first≤x ∧ x<r.start := by
  rw [invertLoop]
  by_cases hne : first≠r.start
  · have hlt : first<r.start := by bv_omega
    rw [if_pos hne,rtlAddRange_ample _ (by bv_omega)]
    refine ⟨_,rfl,fun x => ?_⟩
    rw [covers_insertRange,or_comm]
    refine or_congr_right (and_congr_right fun _ => ?_)
    bv_omega
  · rw [if_neg hne]
    refine ⟨_,rfl,fun x => (or_iff_left ?_).symm⟩
    bv_omega

theorem invertLoop_covers (first : BitVec 64) (list : RtlRangeList) (h : NonOverlapping l)
    (hfirst : ∀ r∈l, first≤r.start) :
    ∃ out, invertLoop ample list first l=(.success, out) ∧
      ∀ x, Covers out.ranges x ↔ Covers list.ranges x ∨
        (first≤x ∧ ¬Covers l x ∧ ∃ r∈l, x<r.start) ∨
          lastPoint first l≠-1 ∧ lastPoint first l≤x := by
  induction l generalizing list first with
  | nil =>
    rw [invertLoop]
    by_cases hend : first≠-1
    · rw [if_pos hend,rtlAddRange_ample _ (by bv_omega)]
      refine ⟨_,rfl,fun x => ?_⟩
      have hx : x ≤ -1 := by bv_omega
      simp only [covers_insertRange,lastPoint,foldl_nil,hend,hx,not_mem_nil,false_and,
        exists_false,and_false,and_true,false_or,ne_eq,not_false_eq_true,true_and]
      exact or_comm
    · rw [if_neg hend]
      refine ⟨_,rfl,fun x => ?_⟩
      simp only [lastPoint,foldl_nil,hend,not_mem_nil,false_and,exists_false,and_false,or_false]
  | cons r rest ih =>
    obtain ⟨hr,htail⟩ := pairwise_cons.mp h
    obtain ⟨next,hnext,hcovers⟩ := invertLoop_cons (hfirst r mem_cons_self) rest list
    obtain ⟨out,hout,hih⟩ := ih (r.stop+1) next htail fun s hs => by
      have := hr s hs
      bv_omega
    refine ⟨out,hnext.trans hout,fun x => ?_⟩
    rw [hih,hcovers,covers_cons,or_assoc]
    refine or_congr_right ?_
    rw [← or_assoc]
    refine or_congr_left ?_
    have hrs := r.start_le
    have hle := hfirst r mem_cons_self
    simp only [mem_cons,exists_eq_or_imp,not_or]
    constructor
    · rintro (⟨h1,h2⟩ | ⟨h1,h2,s,hs,h3⟩)
      · refine ⟨h1,⟨by bv_omega,?_⟩,.inl h2⟩
        rintro ⟨s,hs,h3,-⟩
        have := hr s hs
        bv_omega
      · have := hr s hs
        exact ⟨by bv_omega,⟨by bv_omega,h2⟩,.inr ⟨s,hs,h3⟩⟩
    · rintro ⟨h1,⟨h2,h3⟩,h4 | ⟨s,hs,h4⟩⟩
      · exact .inl ⟨h1,h4⟩
      · have := hr s hs
        by_cases hx : x<r.start
        · exact .inl ⟨h1,hx⟩
        · exact .inr ⟨by bv_omega,h3,s,hs,h4⟩

theorem invertLoop_trailing
    (h : invertLoop ample list first l=(.success, out)) (hne : lastPoint first l≠-1) :
    ∃ A e, out.ranges=A++[e] ∧ e.start=lastPoint first l ∧ e.stop = -1 := by
  induction l generalizing list first with
  | nil =>
    have hne' : first≠-1 := hne
    rw [invertLoop,if_pos hne',rtlAddRange_ample _ (by bv_omega)] at h
    obtain rfl := (Prod.ext_iff.mp h).2
    exact ⟨_,_,insertRange_eq_append fun c _ => (by bv_omega),rfl,rfl⟩
  | cons r rest ih =>
    rw [invertLoop] at h
    split at h
    · split at h
      · exact ih h hne
      · rename_i hfail
        exact (hfail _ h).elim
    · exact ih h hne

theorem lastPoint_concat (first : BitVec 64) (A : List Range) (last : Range) :
    lastPoint first (A++[last])=last.stop+1 := by
  rw [lastPoint,foldl_append]
  rfl

/-- One range that has every point is all there is to add if no point is free. -/
theorem invertLoop_full (first : BitVec 64) (list : RtlRangeList) (h : NonOverlapping l)
    (hfirst : ∀ r∈l, first≤r.start) (hne : l≠[]) (hall : ∀ x, first≤x → Covers l x) :
    invertLoop ample list first l=rtlAddRange ample list 0 (-1) 0 0 0 0 := by
  induction l generalizing first with
  | nil => exact absurd rfl hne
  | cons r rest ih =>
    obtain ⟨hr,htail⟩ := pairwise_cons.mp h
    have hrs := r.start_le
    have hle := hfirst r mem_cons_self
    have hstart : first=r.start := by
      obtain ⟨s,hs,h1,-⟩ := hall first (BitVec.le_refl _)
      obtain rfl | hs := mem_cons.mp hs
      · bv_omega
      · have := hr s hs
        bv_omega
    rw [invertLoop,if_neg (not_not.mpr hstart)]
    cases rest with
    | nil =>
      obtain ⟨s,hs,-,h2⟩ := hall (-1) (by bv_omega)
      obtain rfl := mem_singleton.mp hs
      have hstop : s.stop+1=0 := by bv_omega
      rw [hstop,invertLoop,if_pos (by decide)]
    | cons s rest =>
      have hlt := hr s mem_cons_self
      refine ih _ htail (fun u hu => ?_) (cons_ne_nil _ _) fun x hx => ?_
      · have := hr u hu
        bv_omega
      · exact ((covers_cons r _).mp (hall x (by bv_omega))).resolve_left (by bv_omega)

theorem rtlInvertRangeList_eq (list : RtlRangeList) (hne : list.ranges≠[]) :
    rtlInvertRangeList ample rtlInitializeRangeList list =
      invertLoop ample rtlInitializeRangeList 0 list.ranges := by
  rw [rtlInvertRangeList]
  split
  · contradiction
  · rfl

/-- What a list that is not empty is inverted to. -/
theorem rtlInvertRangeList_covers
    (h : NonOverlapping list.ranges) (hlast : list.ranges=A++[last]) :
    ∃ out, rtlInvertRangeList ample rtlInitializeRangeList list=(.success, out) ∧
      ∀ x, Covers out.ranges x ↔ (¬Covers list.ranges x ∧ ∃ r∈list.ranges, x<r.start) ∨
        last.stop+1≠-1 ∧ last.stop+1≤x := by
  obtain ⟨out,hout,hcovers⟩ := invertLoop_covers 0 rtlInitializeRangeList h fun r _ => by bv_omega
  refine ⟨out,(rtlInvertRangeList_eq list (by simp [hlast])).trans hout,fun x => ?_⟩
  have hzero : 0≤x := by bv_omega
  rw [hcovers,hlast,lastPoint_concat,← hlast,and_iff_right hzero]
  exact or_iff_right fun ⟨r,hr,_⟩ => absurd hr not_mem_nil

theorem NonOverlapping.stop_le (h : NonOverlapping (A++[last])) :
    ∀ r∈A++[last], r.stop≤last.stop := by
  intro r hr
  obtain hr | hr := mem_append.mp hr
  · have := (pairwise_append.mp h).2.2 r hr last (mem_singleton.mpr rfl)
    have := last.start_le
    bv_omega
  · rw [mem_singleton.mp hr]
    exact BitVec.le_refl _

theorem inverts_iff_last
    (h : NonOverlapping list.ranges) (hlast : list.ranges=A++[last]) :
    Inverts list ↔ last.stop < -2 := by
  obtain ⟨out,hout,hcovers⟩ := rtlInvertRangeList_covers h hlast
  have hle := (hlast ▸ h).stop_le
  rw [← hlast] at hle
  have hmem : last∈list.ranges := by simp [hlast]
  have hl := last.start_le
  constructor
  · rintro ⟨out',hout',hinv⟩
    obtain rfl : out=out' := (Prod.ext_iff.mp (hout.symm.trans hout')).2
    by_contra hge
    by_cases hmax : last.stop = -1
    · have hcov : Covers list.ranges last.start := ⟨last,hmem,BitVec.le_refl _,hl⟩
      exact (hinv last.start).mp ((hcovers last.start).mpr (.inr (by bv_omega))) hcov
    · have hfree : ¬Covers list.ranges (-1) := by
        rintro ⟨r,hr,-,h2⟩
        have := hle r hr
        bv_omega
      obtain ⟨-,r,-,hlt⟩ | ⟨hne,-⟩ := (hcovers (-1)).mp ((hinv (-1)).mpr hfree)
      · bv_omega
      · bv_omega
  · intro hlt
    refine ⟨out,hout,fun x => (hcovers x).trans ⟨?_,fun hx => ?_⟩⟩
    · rintro (⟨hx,-⟩ | ⟨-,hx⟩)
      · exact hx
      · rintro ⟨r,hr,-,h2⟩
        have := hle r hr
        bv_omega
    · by_cases hbefore : x<last.start
      · exact .inl ⟨hx,last,hmem,hbefore⟩
      · have hbehind : ¬x≤last.stop := fun h2 => hx ⟨last,hmem,by bv_omega,h2⟩
        exact .inr (by bv_omega)

def whole : Range := ⟨0,-1,0,0,0,0,by decide,Or.inl rfl⟩

theorem covers_whole (x : BitVec 64) : Covers [whole] x :=
  ⟨whole,mem_singleton.mpr rfl,(by bv_omega : 0≤x),(by bv_omega : x ≤ -1)⟩

theorem rtlInvertRangeList_full (list : RtlRangeList) (h : NonOverlapping list.ranges)
    (hne : list.ranges≠[]) (hall : ∀ x, Covers list.ranges x) :
    rtlInvertRangeList ample rtlInitializeRangeList list=(.success, ⟨[whole],0,1⟩) := by
  rw [rtlInvertRangeList_eq list hne,
    invertLoop_full 0 _ h (fun r _ => by bv_omega) hne fun x _ => hall x]
  rfl

/-- The last range that the call makes reaches to the last point, unless the step behind the loop
adds none. -/
theorem rtlInvertRangeList_trailing
    (h : rtlInvertRangeList ample rtlInitializeRangeList list=(.success, out))
    (hlast : list.ranges=A++[last]) (hne : last.stop+1≠-1) :
    ∃ B e, out.ranges=B++[e] ∧ e.stop = -1 ∧ ∀ x, last.stop+1≤x → Covers out.ranges x := by
  rw [rtlInvertRangeList_eq list (by simp [hlast])] at h
  have hpoint := lastPoint_concat 0 A last
  rw [← hlast] at hpoint
  obtain ⟨B,e,hranges,hstart,hstop⟩ := invertLoop_trailing h (hpoint ▸ hne)
  refine ⟨B,e,hranges,hstop,fun x hx => ⟨e,by simp [hranges],?_,by bv_omega⟩⟩
  rw [hstart,hpoint]
  exact hx

/-- Inverting the inverted list adds every point, or the last one that was missing before. -/
theorem InvertsTwice.full
    (h : NonOverlapping list.ranges) (hlast : list.ranges=A++[last]) (ht : InvertsTwice list)
    (x : BitVec 64) : Covers list.ranges x := by
  obtain ⟨out,again,hout,hagain,hcovers⟩ := ht
  have hle := (hlast ▸ h).stop_le
  rw [← hlast] at hle
  have hmem : last∈list.ranges := by simp [hlast]
  by_cases hend : last.stop+1 = -1
  · obtain ⟨out',hout',hinv⟩ := rtlInvertRangeList_covers h hlast
    obtain rfl : out=out' := (Prod.ext_iff.mp (hout.symm.trans hout')).2
    rcases eq_nil_or_concat out.ranges with hnil | ⟨B,g,hg⟩
    · rw [rtlInvertRangeList,hnil] at hagain
      obtain rfl := (Prod.ext_iff.mp hagain).2
      obtain ⟨r,hr,-⟩ := (hcovers last.start).mpr ⟨last,hmem,BitVec.le_refl _,last.start_le⟩
      exact absurd hr not_mem_nil
    · rw [concat_eq_append] at hg
      have hcov : Covers out.ranges g.stop := ⟨g,by simp [hg],g.start_le,BitVec.le_refl _⟩
      obtain ⟨-,r,hr,hlt⟩ := ((hinv g.stop).mp hcov).resolve_right fun hadd => hadd.1 hend
      have := hle r hr
      have := r.start_le
      obtain ⟨-,-,-,-,hall⟩ := rtlInvertRangeList_trailing hagain hg (by bv_omega)
      obtain ⟨s,hs,-,h2⟩ := (hcovers (-1)).mp (hall (-1) (by bv_omega))
      have := hle s hs
      bv_omega
  · obtain ⟨B,e,hranges,hstop,-⟩ := rtlInvertRangeList_trailing hout hlast hend
    obtain ⟨-,-,-,-,hall⟩ := rtlInvertRangeList_trailing hagain hranges (by bv_omega)
    exact (hcovers x).mp (hall x (by bv_omega))

/-- The trailing range is right for a list that ends before the last but one point, and inverting
twice gives the points back only where none or all are covered. -/
theorem inverts_iff (list : RtlRangeList) (h : NonOverlapping list.ranges) :
    (Inverts list ↔ ∃ last∈list.ranges.getLast?, last.stop < -2) ∧
      (InvertsTwice list ↔ list.ranges=[] ∨ ∀ x, Covers list.ranges x) := by
  rcases eq_nil_or_concat list.ranges with hnil | ⟨A,last,hlast⟩
  · have hout : rtlInvertRangeList ample rtlInitializeRangeList list =
        (.success, rtlInitializeRangeList) := by
      rw [rtlInvertRangeList,hnil]
    refine ⟨iff_of_false ?_ (by simp [hnil]),iff_of_true ⟨_,_,hout,rfl,?_⟩ (.inl hnil)⟩
    · rintro ⟨out,hout',hinv⟩
      obtain rfl := (Prod.ext_iff.mp (hout.symm.trans hout')).2
      have hnone : ¬Covers [] 0 := fun ⟨r,hr,_⟩ => absurd hr not_mem_nil
      rw [hnil] at hinv
      exact hnone ((hinv 0).mpr hnone)
    · rw [hnil]
      exact fun x => Iff.rfl
  · rw [concat_eq_append] at hlast
    have hne : list.ranges≠[] := by simp [hlast]
    refine ⟨(inverts_iff_last h hlast).trans (by simp [hlast]),fun ht => Or.inr (ht.full h hlast),
      ?_⟩
    rintro (hnil | hall)
    · exact absurd hnil hne
    · have hagain := rtlInvertRangeList_full ⟨[whole],0,1⟩ (pairwise_singleton _ _)
        (cons_ne_nil _ _) covers_whole
      exact ⟨_,_,rtlInvertRangeList_full list h hne hall,hagain,fun x =>
        iff_of_true (covers_whole x) (hall x)⟩

end Invert

/-- The list that covers every point is inverted to itself. -/
theorem not_inverts_whole : ¬Inverts ⟨[whole],0,0⟩ := by
  have hone : NonOverlapping [whole] := pairwise_singleton _ _
  intro h
  exact absurd ((inverts_iff_last (A := []) hone rfl).mp h) (by decide)

def twoRanges : List Range :=
  [⟨3,9,0,0,0,0,by decide,Or.inl rfl⟩,⟨20,30,0,0,0,0,by decide,Or.inl rfl⟩]

theorem inverts_small : NonOverlapping twoRanges ∧ Inverts ⟨twoRanges,0,0⟩ := by
  have hapart : NonOverlapping twoRanges := by
    unfold NonOverlapping
    decide
  exact ⟨hapart,(inverts_iff ⟨twoRanges,0,0⟩ hapart).1.mpr ⟨_,rfl,by decide⟩⟩

end Odyssey.Rtl.RangeList
