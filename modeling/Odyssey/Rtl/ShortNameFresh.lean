import Odyssey.Rtl.ShortName

/-! How long the short names for one long name stay different from each other. -/
namespace Odyssey.Rtl.ShortName
open Function List Counter
variable {cp : CodePage} {name : List WChar} {c : Counter} {p q : Nat}

def Counter.next (name : List WChar) (c : Counter) : Counter :=
  if expectedCheckSum c name=c.checksum ∧ c.lastIndexValue<999 then c.count name else c.restart

/-- The short names of calls for one long name are those of the counters that follow each other. -/
theorem shortNames_eq (n : Nat) (ctx : GenerateNameContext) :
    shortNames cp name n ctx =
      (List.range n).map fun i => shortName cp name
        ((next name)^[i] (nextCounter cp ctx name)) := by
  induction n generalizing ctx with
  | zero => rfl
  | succ n ih =>
    have hnext : nextCounter cp (rtlGenerate8dot3Name cp name ctx).1 name =
        (nextCounter cp ctx name).next name := by
      rw [nextCounter,rtlGenerate8dot3Name]
      simp only [continues_again,Counter.next]
    rw [shortNames,ih,hnext,range_succ_eq_map,map_cons,map_map]
    rfl

def counterAt (name : List WChar) (p : Nat) : Counter :=
  if p<9 then ⟨false,p+1,0⟩ else ⟨true,p-8,rtlpGetCheckSum name⟩

theorem counterAt_plain (name : List WChar) (hp : p<9) : counterAt name p=⟨false,p+1,0⟩ :=
  if_pos hp

theorem counterAt_checked (name : List WChar) (hp : 9≤p) :
    counterAt name p=⟨true,p-8,rtlpGetCheckSum name⟩ :=
  if_neg (by omega)

theorem counterAt_next (hp : p<1007) : (counterAt name p).next name=counterAt name (p+1) := by
  by_cases hplain : p<9
  · rw [counterAt_plain name hplain,Counter.next,if_pos ⟨rfl,(by omega : p+1<999)⟩,Counter.count]
    by_cases hlast : p=8
    · rw [hlast]
      rfl
    · rw [if_neg (by simp only; omega),counterAt_plain name (by omega)]
  · rw [counterAt_checked name (by omega),Counter.next,
      if_pos ⟨rfl,(by omega : p-8<999)⟩,Counter.count,if_neg (by simp),
      counterAt_checked name (by omega)]
    have hindex : p-8+1=p+1-8 := by omega
    rw [hindex]

theorem counterAt_last (name : List WChar) :
    (counterAt name 1007).next name=⟨false,1,rtlpGetCheckSum name⟩ := by
  rw [Counter.next,
    if_neg fun h => absurd h.2 (by decide : ¬ 1007-8<999)]
  rfl

/-- With a checksum in the context the counter starts from one each time. -/
theorem next_restarted {checksum : BitVec 16} (h : checksum≠0) :
    Counter.next name ⟨false,1,checksum⟩=⟨false,1,checksum⟩ := by
  rw [Counter.next,if_neg fun hnext => h hnext.1.symm]
  rfl

theorem iterate_counterAt {i : Nat} (h : p+i≤1007) :
    (next name)^[i] (counterAt name p)=counterAt name (p+i) := by
  induction i with
  | zero => rfl
  | succ i ih =>
    rw [iterate_succ_apply',ih (by omega),counterAt_next (by omega)]
    rfl

def placeAfter (name : List WChar) (p i : Nat) : Nat :=
  if p+i≤1007 then p+i else if rtlpGetCheckSum name=0 then p+i-1008 else 0

/-- The digits of the checksum are the third to the sixth character of the name itself. -/
def Collides (cp : CodePage) (name : List WChar) : Prop :=
  (baseName cp name).drop 2=checkSumDigits (rtlpGetCheckSum name)

instance : Decidable (Collides cp name) := inferInstanceAs (Decidable (_=_))

def Twins (p q : Nat) : Prop := p<9 ∧ q=p+9 ∨ q<9 ∧ p=q+9

theorem shortName_restarted (cp : CodePage) (name : List WChar) (checksum : BitVec 16) :
    shortName cp name ⟨false,1,checksum⟩=shortName cp name (counterAt name 0) := rfl

/-- The last one of a character splits a list in one way. -/
theorem append_cons_inj {α : Type*} {x : α} {s s' d d' : List α} (hd : x∉d) (hd' : x∉d')
    (h : s++x::d=s'++x::d') : s=s' ∧ d=d' := by
  induction s generalizing s' with
  | nil =>
    cases s' with
    | nil => exact ⟨rfl,(List.cons.inj h).2⟩
    | cons y s' =>
      have htail : d=s'++x::d' := (List.cons.inj h).2
      exact absurd (by simp [htail]) hd
  | cons y s ih =>
    cases s' with
    | nil =>
      have htail : s++x::d=d' := (List.cons.inj h).2
      exact absurd (by simp [← htail]) hd'
    | cons z s' =>
      obtain ⟨rfl,hrest⟩ := List.cons.inj h
      obtain ⟨rfl,hd⟩ := ih hrest
      exact ⟨rfl,hd⟩

theorem tilde_notMem_digits (n value : Nat) : tilde∉writeDigits 10 decimalDigit n value := by
  intro h
  obtain ⟨d,hd,heq⟩ := mem_writeDigits (by decide) h
  have hne : ∀ d<10, tilde≠decimalDigit d := by decide
  exact hne d hd heq

theorem lt_pow_indexLength {index : Nat} (h : index≤999) : index<10^rtlpGetIndexLength index := by
  rw [rtlpGetIndexLength_eq h]
  split
  · omega
  · split
    · omega
    · omega

/-- A short name determines its index and what stands before it. -/
theorem shortName_eq_iff {c d : Counter} (hc : c.lastIndexValue≤999) (hd : d.lastIndexValue≤999) :
    shortName cp name c=shortName cp name d ↔
      stem (baseName cp name) c=stem (baseName cp name) d ∧
        c.lastIndexValue=d.lastIndexValue := by
  constructor
  · intro h
    obtain ⟨hstem,hdigits⟩ := append_cons_inj (tilde_notMem_digits _ _) (tilde_notMem_digits _ _)
      (append_cancel_right h)
    refine ⟨hstem,?_⟩
    have hlength := congrArg List.length hdigits
    rw [length_writeDigits,length_writeDigits] at hlength
    rw [hlength] at hdigits
    have hlt := lt_pow_indexLength hc
    rw [hlength] at hlt
    exact writeDigits_inj (by decide) hlt (lt_pow_indexLength hd) hdigits
  · intro h
    rw [shortName,shortName,indexPart,indexPart,h.1,h.2]

theorem stem_plain (cp : CodePage) (name : List WChar) (hp : p<9) :
    stem (baseName cp name) (counterAt name p)=baseName cp name := by
  have hlength := length_baseName_le cp name
  have hindex : rtlpGetIndexLength (p+1)=1 := by
    rw [rtlpGetIndexLength_eq (by omega),if_pos (by omega)]
  rw [counterAt_plain name hp,stem,copyLength]
  simp only [hindex,Bool.false_eq_true,if_false,append_nil]
  exact take_of_length_le (by omega)

theorem stem_checked (cp : CodePage) (name : List WChar) (hp : p<9) :
    stem (baseName cp name) (counterAt name (p+9)) =
      (baseName cp name).take 2++checkSumDigits (rtlpGetCheckSum name) := by
  have hindex : rtlpGetIndexLength (p+9-8)=1 := by
    rw [rtlpGetIndexLength_eq (by omega),if_pos (by omega)]
  have htake : (baseName cp name).take (min (baseName cp name).length 2) =
      (baseName cp name).take 2 := by
    rw [Nat.min_comm,← take_take,take_length]
  rw [counterAt_checked name (by omega),stem,copyLength]
  simp only [hindex,if_true]
  rw [htake]

/-- The two forms of a name with one index are equal if the name has the digits of the checksum. -/
theorem stem_twins (hp : p<9) :
    stem (baseName cp name) (counterAt name p)=stem (baseName cp name) (counterAt name (p+9)) ↔
      Collides cp name := by
  rw [stem_plain cp name hp,stem_checked cp name hp]
  constructor
  · intro h
    nth_rewrite 1 [← take_append_drop 2 (baseName cp name)] at h
    exact append_cancel_left h
  · intro h
    rw [← h,take_append_drop]

theorem index_counterAt (name : List WChar) (p : Nat) :
    (counterAt name p).lastIndexValue=if p<9 then p+1 else p-8 := by
  rw [counterAt]
  split
  · rfl
  · rfl

/-- Different counters give the same short name only if one index comes up without the checksum and
with it, and the checksum does not show. -/
theorem shortName_counterAt_iff (hp : p≤1007) (hq : q≤1007) :
    shortName cp name (counterAt name p)=shortName cp name (counterAt name q) ↔
      p=q ∨ Collides cp name ∧ Twins p q := by
  have hpi := index_counterAt name p
  have hqi := index_counterAt name q
  rw [shortName_eq_iff (by rw [hpi]; split <;> omega) (by rw [hqi]; split <;> omega),hpi,hqi]
  constructor
  · intro h
    obtain ⟨hstem,hindex⟩ := h
    split at hindex
    · rename_i hplain
      split at hindex
      · exact .inl (by omega)
      · obtain rfl : q=p+9 := by omega
        exact .inr ⟨(stem_twins hplain).mp hstem,.inl ⟨hplain,rfl⟩⟩
    · split at hindex
      · rename_i hplain
        obtain rfl : p=q+9 := by omega
        exact .inr ⟨(stem_twins hplain).mp hstem.symm,.inr ⟨hplain,rfl⟩⟩
      · exact .inl (by omega)
  · intro h
    obtain rfl | ⟨hcollides,⟨hplain,rfl⟩ | ⟨hplain,rfl⟩⟩ := h
    · exact ⟨rfl,rfl⟩
    · exact ⟨(stem_twins hplain).mpr hcollides,by rw [if_pos hplain,if_neg (by omega)]; omega⟩
    · exact ⟨((stem_twins hplain).mpr hcollides).symm,by
        rw [if_pos hplain,if_neg (by omega)]; omega⟩

/-- The name of a later call. -/
theorem shortName_iterate (cp : CodePage) (name : List WChar) {i : Nat} (hp : p≤1007) (hi : i<100) :
    shortName cp name ((next name)^[i] (counterAt name p)) =
      shortName cp name (counterAt name (placeAfter name p i)) := by
  rw [placeAfter]
  split
  · rename_i hle
    rw [iterate_counterAt hle]
  · -- the counter has come to the end and has started from one
    obtain ⟨k,rfl⟩ : ∃ k, i=k+(1007-p+1) := ⟨i-(1007-p+1),by omega⟩
    have hlast : p+(1007-p)=1007 := by omega
    have hrestart : (next name)^[1007-p+1] (counterAt name p) =
        ⟨false,1,rtlpGetCheckSum name⟩ := by
      rw [iterate_succ_apply',iterate_counterAt (by omega),hlast,counterAt_last]
    rw [iterate_add_apply,hrestart]
    split
    · rename_i hzero
      have hplace : p+(k+(1007-p+1))-1008=0+k := by omega
      rw [hzero,hplace,← iterate_counterAt (by omega)]
      rfl
    · rename_i hne
      rw [iterate_fixed (next_restarted hne),shortName_restarted]

section Place
variable {i j : Nat}

theorem placeAfter_of_le (name : List WChar) (h : p+i≤1007) : placeAfter name p i=p+i :=
  if_pos h

theorem placeAfter_of_zero (hzero : rtlpGetCheckSum name=0) (h : 1007<p+i) :
    placeAfter name p i=p+i-1008 := by
  rw [placeAfter,if_neg (Nat.not_le.mpr h),if_pos hzero]

theorem placeAfter_of_ne_zero (hne : rtlpGetCheckSum name≠0) (h : 1007<p+i) :
    placeAfter name p i=0 := by
  rw [placeAfter,if_neg (Nat.not_le.mpr h),if_neg hne]

theorem placeAfter_cases (name : List WChar) (p i : Nat) :
    p+i≤1007 ∧ placeAfter name p i=p+i ∨
      1007<p+i ∧ rtlpGetCheckSum name=0 ∧ placeAfter name p i=p+i-1008 ∨
      1007<p+i ∧ rtlpGetCheckSum name≠0 ∧ placeAfter name p i=0 := by
  by_cases hle : p+i≤1007
  · exact .inl ⟨hle,placeAfter_of_le name hle⟩
  · have hlt := Nat.lt_of_not_le hle
    by_cases hzero : rtlpGetCheckSum name=0
    · exact .inr (.inl ⟨hlt,hzero,placeAfter_of_zero hzero hlt⟩)
    · exact .inr (.inr ⟨hlt,hzero,placeAfter_of_ne_zero hzero hlt⟩)

theorem placeAfter_le (name : List WChar) (hp : p≤1007) (hi : i<100) :
    placeAfter name p i≤1007 := by
  obtain ⟨hle,h⟩ | ⟨hlt,-,h⟩ | ⟨hlt,-,h⟩ := placeAfter_cases name p i
  · omega
  · omega
  · omega

theorem placeAfter_inj (hp : p≤1007) (hend : p≤909 ∨ rtlpGetCheckSum name=0) (hi : i<100)
    (hj : j<100) (h : placeAfter name p i=placeAfter name p j) : i=j := by
  obtain ⟨h1,h2⟩ | ⟨h1,-,h2⟩ | ⟨h1,hne,h2⟩ := placeAfter_cases name p i
  · obtain ⟨h3,h4⟩ | ⟨h3,-,h4⟩ | ⟨h3,hne,h4⟩ := placeAfter_cases name p j
    · omega
    · omega
    · have hle := hend.resolve_right hne
      omega
  · obtain ⟨h3,h4⟩ | ⟨h3,-,h4⟩ | ⟨h3,hne,h4⟩ := placeAfter_cases name p j
    · omega
    · omega
    · have hle := hend.resolve_right hne
      omega
  · have hle := hend.resolve_right hne
    obtain ⟨h3,h4⟩ | ⟨h3,hzero,-⟩ | ⟨h3,-,h4⟩ := placeAfter_cases name p j
    · omega
    · exact absurd hzero hne
    · omega

/-- From the first name with a checksum on, no index comes up in both forms before the counter has
been at its end for a while. -/
theorem not_twins_placeAfter (hp : 9≤p) (hend : p≤917) (hi : i<100) (hj : j<100) :
    ¬ Twins (placeAfter name p i) (placeAfter name p j) := by
  have hplace : ∀ k<100, 9≤placeAfter name p k ∧ placeAfter name p k≤1007 ∧
      p≤placeAfter name p k ∨ placeAfter name p k<9 ∧ 909≤p := by
    intro k hk
    obtain ⟨hle,h⟩ | ⟨hlt,-,h⟩ | ⟨hlt,-,h⟩ := placeAfter_cases name p k
    · omega
    · omega
    · omega
  have hpi := hplace i hi
  have hpj := hplace j hj
  rw [Twins]
  omega

end Place

/-- The names from one counter on are different unless the counter comes to its end and stays there,
or the two forms of an index come up and are equal. -/
theorem nodup_iff_of_counterAt (cp : CodePage) (name : List WChar) (hp : p≤1007) :
    ((List.range 100).map fun i =>
        shortName cp name ((next name)^[i] (counterAt name p))).Nodup ↔
      (p≤909 ∨ rtlpGetCheckSum name=0) ∧ (¬ Collides cp name ∨ 9≤p ∧ p≤917) := by
  have heq : ∀ i<100, ∀ j<100,
      (shortName cp name ((next name)^[i] (counterAt name p)) =
        shortName cp name ((next name)^[j] (counterAt name p)) ↔
      placeAfter name p i=placeAfter name p j ∨
        Collides cp name ∧ Twins (placeAfter name p i) (placeAfter name p j)) := by
    intro i hi j hj
    rw [shortName_iterate cp name hp hi,shortName_iterate cp name hp hj]
    exact shortName_counterAt_iff (placeAfter_le name hp hi) (placeAfter_le name hp hj)
  rw [nodup_map_iff_inj_on nodup_range]
  simp only [mem_range]
  constructor
  · intro hinj
    have hend : p≤909 ∨ rtlpGetCheckSum name=0 := by
      by_contra hno
      obtain ⟨hlate,hne⟩ := not_or.mp hno
      have hi := placeAfter_of_ne_zero hne (by omega : 1007<p+(1008-p))
      have hj := placeAfter_of_ne_zero hne (by omega : 1007<p+(1009-p))
      have hsame := hinj (1008-p) (by omega) (1009-p) (by omega)
        ((heq _ (by omega) _ (by omega)).mpr (.inl (hi.trans hj.symm)))
      omega
    refine ⟨hend,or_iff_not_imp_left.mpr fun hcollides => ?_⟩
    have hcollides := not_not.mp hcollides
    by_contra hno
    by_cases hearly : p<9
    · have hi := placeAfter_of_le name (by omega : p+0≤1007)
      have hj := placeAfter_of_le name (by omega : p+9≤1007)
      have hsame := hinj 0 (by omega) 9 (by omega) ((heq _ (by omega) _ (by omega)).mpr
        (.inr ⟨hcollides,.inl (by omega)⟩))
      omega
    · have hzero : rtlpGetCheckSum name=0 := hend.resolve_left (by omega)
      have hi := placeAfter_of_zero hzero (by omega : 1007<p+(1008-p))
      have hj := placeAfter_of_zero hzero (by omega : 1007<p+(1017-p))
      have hsame := hinj (1008-p) (by omega) (1017-p) (by omega)
        ((heq _ (by omega) _ (by omega)).mpr (.inr ⟨hcollides,.inl (by omega)⟩))
      omega
  · intro hcond i hi j hj hij
    obtain hplace | ⟨hcollides,htwins⟩ := (heq i hi j hj).mp hij
    · exact placeAfter_inj hp hcond.1 hi hj hplace
    · have hrange := hcond.2.resolve_left (not_not_intro hcollides)
      exact absurd htwins (not_twins_placeAfter hrange.1 hrange.2 hi hj)

/-- When the next hundred short names for a long name are different. If the context counts on for
this name, its index must not be near the end, and an index without the checksum must not come up
again with it; otherwise there must be no checksum in the context. -/
def FreshAhead (cp : CodePage) (ctx : GenerateNameContext) (name : List WChar) : Prop :=
  if Continues cp ctx name then
    if ctx.checkSumInserted then
      ctx.lastIndexValue≤900 ∨
        rtlpGetCheckSum name=0 ∧ (ctx.lastIndexValue≤908 ∨ ¬ Collides cp name)
    else ctx.lastIndexValue=9 ∨ ¬ Collides cp name
  else ctx.checksum=0 ∧ ¬ Collides cp name

/-- The short names of a hundred calls for one long name. -/
theorem shortNames_nodup_iff (cp : CodePage) (names : List (List WChar)) (name : List WChar) :
    (shortNames cp name 100 (contextAfter cp zeroContext names)).Nodup ↔
      FreshAhead cp (contextAfter cp zeroContext names) name := by
  have hvalid : (contextAfter cp zeroContext names).toCounter.Valid :=
    valid_contextAfter names valid_zeroContext
  generalize contextAfter cp zeroContext names=ctx at hvalid ⊢
  obtain ⟨⟨inserted,index,checksum⟩,nameBuffer,extensionBuffer⟩ := ctx
  rw [shortNames_eq,nextCounter,FreshAhead]
  split
  · rename_i hcontinues
    obtain ⟨-,-,hchecksum,hlt⟩ := hcontinues
    simp only at hchecksum hlt ⊢
    cases inserted with
    | true =>
      -- the context has the checksum of the name already
      have hfirst : Counter.count ⟨true,index,checksum⟩ name=counterAt name (index+9) := by
        rw [← hchecksum]
        rfl
      have hend : index+9≤909 ↔ index≤900 := by omega
      have hforms : 9 ≤ index+9 ∧ index+9≤917 ↔ index≤908 := by omega
      have hle : index≤900 → index≤908 := fun h => by omega
      rw [hfirst,nodup_iff_of_counterAt cp name (by omega),if_pos rfl,hforms]
      tauto
    | false =>
      have hle : index≤9 := hvalid.plain rfl
      have hfirst : Counter.count ⟨false,index,checksum⟩ name=counterAt name index := by
        have hzero : checksum=0 := hchecksum.symm
        by_cases hlast : index=9
        · rw [hlast]
          rfl
        · rw [Counter.count,if_neg (by simp only; omega),counterAt_plain name (by omega),hzero]
      have hend : index≤909 := by omega
      have hforms : 9 ≤ index ∧ index≤917 ↔ index=9 := by omega
      rw [hfirst,nodup_iff_of_counterAt cp name (by omega),if_neg (by simp),hforms]
      tauto
  · by_cases hzero : checksum=0
    · have hfirst : restart ⟨inserted,index,checksum⟩=counterAt name 0 := by
        rw [hzero]
        rfl
      rw [hfirst,nodup_iff_of_counterAt cp name (by omega)]
      simp [hzero]
    · -- the second call starts from one again
      refine iff_of_false (fun hnodup => ?_) fun h => hzero h.1
      rw [nodup_map_iff_inj_on nodup_range] at hnodup
      have hnext : next name (restart ⟨inserted,index,checksum⟩) =
          restart ⟨inserted,index,checksum⟩ := next_restarted hzero
      have hsame := hnodup 0 (by decide) 1 (by decide) (by
        rw [iterate_zero_apply,iterate_one,hnext])
      exact absurd hsame (by decide)

/-- After ten calls for `a` the context has a checksum, and two calls for `b` give the same name. -/
theorem shortNames_not_nodup :
    let ctx := contextAfter asciiCodePage zeroContext (List.replicate 10 [0x61])
    shortNames asciiCodePage [0x62] 2 ctx=[[0x42,0x7E,0x31],[0x42,0x7E,0x31]] ∧
      ¬ (shortNames asciiCodePage [0x62] 100 ctx).Nodup := by
  intro ctx
  have htwo : shortNames asciiCodePage [0x62] 2 ctx=[[0x42,0x7E,0x31],[0x42,0x7E,0x31]] := by
    decide +kernel
  refine ⟨htwo,fun h => ?_⟩
  obtain ⟨hfirst,hrest⟩ := List.cons.inj htwo
  have hsecond := (List.cons.inj hrest).1
  refine (nodup_cons.mp h).1 ?_
  rw [shortNames,hfirst,hsecond]
  exact mem_cons_self

end Odyssey.Rtl.ShortName
