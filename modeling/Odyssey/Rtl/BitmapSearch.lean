import Odyssey.Rtl.Bitmap

/-! The searches of `lib/rtl/bitmap.c` for a run of bits: `RtlFindSetBits` and `RtlFindClearBits`
look from a hint on and then once more from the start. -/
namespace Odyssey.Rtl
open BitVec

variable {b : Bitmap} {turns : Nat}

/-- What the two searches do not share. -/
structure Search where
  fits : BitVec 32 → BitVec 32 → Bool
  skip : BitVec 32 → BitVec 32 → BitVec 32
  take : BitVec 32 → BitVec 32 → BitVec 32

/-- The loop of both searches: `some none` when it ends without a run, `none` when it has not ended
after so many turns. -/
def findLoop (σ : Search) (numberToFind margin : BitVec 32) :
    Nat → BitVec 32 → Option (Option (BitVec 32))
  | 0, _ => none
  | turns+1, currentBit =>
    if σ.fits (currentBit+numberToFind) margin then
      let currentBit := currentBit+σ.skip currentBit (allOnes 32)
      let currentLength := σ.take currentBit numberToFind
      if currentLength ≥ numberToFind then some (some currentBit)
      else findLoop σ numberToFind margin turns (currentBit+currentLength)
    else some none

def findBits (σ : Search) (size : BitVec 32) (turns : Nat) (numberToFind hintIndex : BitVec 32) :
    Option (BitVec 32) :=
  if numberToFind > size then some (allOnes 32)
  else if numberToFind=0 then some hintIndex
  else (findLoop σ numberToFind size turns hintIndex).bind fun
    | some r => some r
    | none =>
      if hintIndex≠0 then
        let margin := if hintIndex+numberToFind<size then hintIndex+numberToFind else size
        (findLoop σ numberToFind margin turns 0).map (·.getD (allOnes 32))
      else some (allOnes 32)

def clearSearch (b : Bitmap) : Search :=
  ⟨fun x margin => x< margin,rtlpGetLengthOfRunSet b,rtlpGetLengthOfRunClear b⟩

def setSearch (b : Bitmap) : Search :=
  ⟨fun x margin => x≤ margin,rtlpGetLengthOfRunClear b,rtlpGetLengthOfRunSet b⟩

def rtlFindClearBits (b : Bitmap) : Nat → BitVec 32 → BitVec 32 → Option (BitVec 32) :=
  findBits (clearSearch b) b.sizeOfBitMap

def rtlFindSetBitsWithin (b : Bitmap) : Nat → BitVec 32 → BitVec 32 → Option (BitVec 32) :=
  findBits (setSearch b) b.sizeOfBitMap

/-- A loop that ends does so before it has made more turns than there are bits. -/
def rtlFindSetBits (b : Bitmap) (numberToFind hintIndex : BitVec 32) : BitVec 32 :=
  (rtlFindSetBitsWithin b (b.sizeOfBitMap.toNat+1) numberToFind hintIndex).getD (allOnes 32)

/-- The places from `c` on whose next `n` bits are in the map and satisfy `p`. -/
def runs (p : Nat → Bool) (size n c : Nat) : Set Nat :=
  {r | c≤r ∧ r+n≤ size ∧ ∀ j, r≤j → j<r+n → p j=true}

/-- Where a search from `c` on looks at its margin: at `c`, behind the runs and at the end. -/
def Stop (p : Nat → Bool) (size c e : Nat) : Prop :=
  e=c ∨ c<e ∧ (e=size ∨ e<size ∧ p (e-1)=true ∧ p e=false)

/-- A search from `c` on meets a place behind which no run fits, and the sum it compares there
does not wrap. -/
def Leaves (p : Nat → Bool) (size n δ margin c : Nat) : Prop :=
  ∃ e, Stop p size c e ∧ margin<e+n+δ ∧ e+n<2^32

/-- The search from the hint on and the one from the start both come to an end. -/
def Ends (p : Nat → Bool) (size n δ hint : Nat) : Prop :=
  (runs p size n hint).Nonempty ∨
    Leaves p size n δ size hint ∧ ((runs p size n 0).Nonempty ∨ Leaves p size n δ size 0)

/-- No sum of the search wraps before it ends; in a map of almost `2 ^ 32` bits those of a scan from
the first word do. -/
def SearchOk (p : Nat → Bool) (size n δ hint : Nat) : Prop :=
  size+31<2^32 ∧ Ends p size n δ hint ∨
    32≤hint ∧ hint+n+δ≤ size ∧ (runs p size n hint).Nonempty

/-- What a loop from `c` on gives. If it ends without a run, it missed only runs that end behind
the margin and, under a strict comparison, one at `c` that ends there. -/
def Outcome (p : Nat → Bool) (size n δ margin c turns : Nat) : Option (Option (BitVec 32)) → Prop
  | some (some r) => c+n+δ≤ margin ∧ IsLeast (runs p size n c) r.toNat
  | some none => Leaves p size n δ margin c ∧
    ∀ q∈runs p size n c, margin<q+n+δ ∧ (c<q → margin<q+n)
  | none => size-c<turns → ¬Leaves p size n δ margin c ∧ runs p size n c = ∅

/-- What a search that ends gives: the first run from the hint on, else the first one of the map,
else `MAXULONG`. Under a strict comparison it misses the run that is the whole map. -/
def Found (p : Nat → Bool) (size n δ hint : Nat) (r : BitVec 32) : Prop :=
  n+δ≤ size ∧ (IsLeast (runs p size n hint) r.toNat ∨
      ((runs p size n hint).Nonempty → 0<δ) ∧ IsLeast (runs p size n 0) r.toNat) ∨
    r=allOnes 32 ∧ ((runs p size n 0).Nonempty → 0<δ ∧ n=size)

/-- What a search needs of the routines it calls, from bit `lo` on. -/
structure Scans (p : Nat → Bool) (size lo δ : Nat) (σ : Search) : Prop where
  size_lt : size<2^32
  le_one : δ≤1
  fits : ∀ x m : BitVec 32, σ.fits x m=true ↔ x.toNat+δ≤ m.toNat
  skip : ∀ s m : BitVec 32, lo≤ s.toNat → s.toNat≤ size →
    IsRun p size s.toNat m.toNat (σ.skip s m).toNat
  take : ∀ s m : BitVec 32, lo≤ s.toNat → s.toNat≤ size →
    IsRun (fun i => !p i) size s.toNat m.toNat (σ.take s m).toNat

section Turn
variable {p : Nat → Bool} {size n q c e : Nat} {δ : Nat}

theorem mem_runs_zero (hq : q∈runs p size n c) : q∈runs p size n 0 := ⟨Nat.zero_le q,hq.2⟩

theorem Stop.le (hs : Stop p size c e) : c≤e := hs.elim Eq.ge fun hlt => hlt.1.le

theorem Leaves.sum_lt {δ margin : Nat} (h : Leaves p size n δ margin c) : c+n<2^32 := by
  obtain ⟨e,he,-,hlt⟩ := h
  exact lt_of_le_of_lt (Nat.add_le_add_right he.le n) hlt

theorem Ends.sum_lt (h : Ends p size n δ c) (hs : size<2^32) : c+n<2^32 := by
  obtain ⟨q,hle,hin,-⟩ | ⟨hleaves,-⟩ := h
  · omega
  · exact hleaves.sum_lt

theorem ends_of_lt (hc : c<size) (hn : 0<n) (hsum : size+n<2^32) : Ends p size n δ c :=
  have hleaves : ∀ x<size, Leaves p size n δ size x := fun _ hx =>
    ⟨size,.inr ⟨hx,.inl rfl⟩,by omega,hsum⟩
  .inr ⟨hleaves c hc,.inr (hleaves 0 (by omega))⟩

/-- One turn of the loop from `c` on: the bits up to `s` are skipped, the run behind them has `r`
bits, or `n` of more. -/
structure Turn (p : Nat → Bool) (size n c s r : Nat) : Prop where
  le : c≤ s
  inside : s+r≤ size
  skipped : ∀ j, c≤j → j<s → p j=false
  first : s<size → p s=true
  run : ∀ j, s≤j → j<s+r → p j=true
  stop : r<n → s+r<size → p (s+r)=false

namespace Turn
variable {s r : Nat} (ht : Turn p size n c s r)
include ht

theorem le_of_mem (hn : 0<n) (hq : q∈runs p size n c) : s≤q := by
  by_contra hlt
  have hset := hq.2.2 q le_rfl (by omega)
  rw [ht.skipped q hq.1 (by omega)] at hset
  cases hset

/-- A run from a bit of the short one on would hold the bit that ends it. -/
theorem past (hn : 0<n) (hr : r<n) (hq : q∈runs p size n c) : s+r<q ∧ q∈runs p size n (s+r) := by
  have hlt : s+r<q := by
    by_contra hge
    have hle := ht.le_of_mem hn hq
    obtain ⟨-,hin,hset⟩ := hq
    have hlast := hset (s+r) (by omega) (by omega)
    rw [ht.stop hr (by omega)] at hlast
    cases hlast
  exact ⟨hlt,hlt.le,hq.2⟩

theorem pos (hr : r<n) (hs : s<size) : 0<r := by
  by_contra hzero
  have hstop := ht.stop hr (by omega)
  rw [show s+r=s by omega,ht.first hs] at hstop
  cases hstop

theorem lt (hr : r<n) (hc : c<size) : c<s+r := by
  have := ht.le
  have := ht.pos hr
  omega

theorem stop_of_next (hr : r<n) (hc : c<size) (he : Stop p size (s+r) e) : Stop p size c e := by
  have hlt := ht.lt hr hc
  obtain rfl | ⟨hlt',he⟩ := he
  · refine .inr ⟨hlt,?_⟩
    have hle := ht.inside
    by_cases hend : s+r<size
    · have := ht.pos hr (by omega)
      exact .inr ⟨hend,ht.run _ (by omega) (by omega),ht.stop hr hend⟩
    · exact .inl (by omega)
  · exact .inr ⟨by omega,he⟩

/-- The loop stands nowhere between `c` and the end of the short run. -/
theorem stop_next (he : Stop p size c e) (hne : e≠c) : Stop p size (s+r) e := by
  obtain ⟨hlt,he⟩ := he.resolve_left hne
  obtain heq | hne' := eq_or_ne e (s+r)
  · exact .inl heq
  refine .inr ⟨?_,he⟩
  have hle := ht.inside
  obtain rfl | ⟨-,hset,hclear⟩ := he
  · omega
  · by_contra hge
    by_cases hes : e≤ s
    · rw [ht.skipped (e-1) (by omega) (by omega)] at hset
      cases hset
    · rw [ht.run e (by omega) (by omega)] at hclear
      cases hclear

end Turn
end Turn

section Loop
variable {p : Nat → Bool} {size lo δ : Nat} {σ : Search} {number margin c : BitVec 32}
  (hS : Scans p size lo δ σ)
include hS

theorem Scans.turn (hlo : lo≤c.toNat) (hc : c.toNat≤ size) {s r : BitVec 32}
    (hs : c+σ.skip c (allOnes 32)=s) (hr : σ.take s number=r) :
    Turn p size number.toNat c.toNat s.toNat r.toNat ∧ (s+r).toNat=s.toNat+r.toNat := by
  have hsize := hS.size_lt
  have hall : (allOnes 32).toNat=2^32-1 := rfl
  obtain ⟨hle,hclear,hstop⟩ := hS.skip c (allOnes 32) hlo hc
  have hsn : s.toNat=c.toNat+(σ.skip c (allOnes 32)).toNat := by
    rw [← hs,toNat_add]
    omega
  obtain ⟨hle',hset,hstop'⟩ := hS.take s number (by omega) (by omega)
  rw [hr] at hle' hset hstop'
  have hsum : (s+r).toNat=s.toNat+r.toNat := by
    rw [toNat_add]
    omega
  refine ⟨⟨by omega,hle',fun j h1 h2 => hclear j h1 (by omega),fun hlt => ?_,
    by simpa using hset,fun h1 h2 => ?_⟩,hsum⟩
  · rw [hsn]
    exact hstop.resolve_left (by omega)
  · simpa using hstop'.resolve_left (by omega)

theorem findLoop_spec (hnumber : 0<number.toNat) (hm : number≤ margin)
    (hmargin : margin.toNat≤ size) (hlo : lo≤c.toNat)
    (hc : size<c.toNat → c.toNat+number.toNat<2^32) (turns : Nat) :
    Outcome p size number.toNat δ margin.toNat c.toNat turns
      (findLoop σ number margin turns c) := by
  have hsize := hS.size_lt
  have hδ := hS.le_one
  rw [le_def] at hm
  induction turns generalizing c with
  | zero => exact fun hlt => absurd hlt (Nat.not_lt_zero _)
  | succ turns ih =>
    have hadd := toNat_add c number
    rw [findLoop]
    by_cases htest : σ.fits (c+number) margin=true
    · rw [if_pos htest]
      rw [hS.fits] at htest
      dsimp only
      obtain ⟨ht,hsr⟩ := hS.turn hlo (by omega) rfl rfl
      generalize c+σ.skip c (allOnes 32)=s at ht hsr ⊢
      generalize σ.take s number=r at ht hsr ⊢
      have hle := ht.le
      have hinside := ht.inside
      by_cases hlong : r ≥ number
      · rw [if_pos hlong]
        rw [ge_iff_le,le_def] at hlong
        exact ⟨by omega,⟨hle,by omega,fun j h1 h2 => ht.run j h1 (by omega)⟩,
          fun q => ht.le_of_mem hnumber⟩
      rw [if_neg hlong]
      rw [ge_iff_le,le_def,not_le] at hlong
      have hnext := ih (c := s+r) (by omega) (by omega)
      rw [hsr] at hnext
      have hpast : ∀ q∈runs p size number.toNat c.toNat, _ := fun q => ht.past hnumber hlong
      cases ho : findLoop σ number margin turns (s+r) with
      | none =>
        rw [ho] at hnext
        intro hturns
        by_cases hwrap : c.toNat+number.toNat<2^32
        · have hlt := ht.lt hlong (by omega)
          obtain ⟨hstay,hnone⟩ := hnext (by omega)
          refine ⟨?_,Set.eq_empty_of_forall_notMem fun q hq => ?_⟩
          · rintro ⟨e,he,hout⟩
            exact hstay ⟨e,ht.stop_next he (by omega),hout⟩
          · exact Set.notMem_empty q (hnone ▸ (hpast q hq).2)
        · -- where the sum wraps the loop goes on for ever
          refine ⟨fun hleaves => hwrap hleaves.sum_lt,Set.eq_empty_of_forall_notMem ?_⟩
          rintro q ⟨hcq,hin,-⟩
          omega
      | some o =>
        rw [ho] at hnext
        cases o with
        | none =>
          obtain ⟨hleaves,hmiss⟩ := hnext
          have hsum := hleaves.sum_lt
          obtain ⟨e,he,hout⟩ := hleaves
          refine ⟨⟨e,ht.stop_of_next hlong (by omega) he,hout⟩,fun q hq => ?_⟩
          have := (hmiss q (hpast q hq).2).2 (hpast q hq).1
          exact ⟨by omega,fun _ => this⟩
        | some o =>
          obtain ⟨hfits,hat,hmin⟩ := hnext
          exact ⟨by omega,⟨by have := hat.1; omega,hat.2⟩,fun q hq => hmin (hpast q hq).2⟩
    · rw [if_neg htest]
      rw [hS.fits,hadd] at htest
      refine ⟨⟨c.toNat,Or.inl rfl,by omega,by omega⟩,?_⟩
      rintro q ⟨hcq,-⟩
      exact ⟨by omega,fun h2 => by omega⟩

end Loop

section Phases
variable {p : Nat → Bool} {lo δ : Nat} {σ : Search} {size number hint : BitVec 32}

theorem toNat_margin (size : BitVec 32) (hsum : hint.toNat+number.toNat<2^32) :
    (if hint+number<size then hint+number else size).toNat =
      min (hint.toNat+number.toNat) size.toNat := by
  have hadd := toNat_add hint number
  simp only [lt_def,hadd]
  split_ifs <;> omega

/-- A search that may not scan the first word has to find its run from the hint on. -/
theorem findBits_spec (hS : Scans p size.toNat lo δ σ) (hnumber : 0<number.toNat)
    (hle : number≤ size) (hlo : lo≤hint.toNat)
    (hfirst : lo=0 ∨ hint.toNat+number.toNat+δ≤ size.toNat ∧
      (runs p size.toNat number.toNat hint.toNat).Nonempty)
    (hhint : size.toNat<hint.toNat → hint.toNat+number.toNat<2^32) (turns : Nat) :
    (∃ r, findBits σ size turns number hint=some r ∧
      Ends p size.toNat number.toNat δ hint.toNat ∧
        Found p size.toNat number.toNat δ hint.toNat r) ∨
      findBits σ size turns number hint=none ∧
        (size.toNat<turns → ¬Ends p size.toNat number.toNat δ hint.toNat) := by
  have hδ := hS.le_one
  have hne : number≠0 := by
    rintro rfl
    exact absurd hnumber (by decide)
  rw [findBits,if_neg (BitVec.not_lt.mpr hle),if_neg hne]
  have hphase := findLoop_spec hS hnumber hle le_rfl hlo hhint turns
  rw [le_def] at hle
  match ho : findLoop σ number size turns hint with
  | none =>
    rw [ho] at hphase
    refine .inr ⟨rfl,fun hturns hends => ?_⟩
    obtain ⟨hstay,hnone⟩ := hphase (by omega)
    obtain hrun | ⟨hleaves,-⟩ := hends
    · exact absurd hrun (hnone ▸ Set.not_nonempty_empty)
    · exact hstay hleaves
  | some (some r) =>
    rw [ho] at hphase
    obtain ⟨hfits,hleast⟩ := hphase
    exact .inl ⟨r,rfl,.inl ⟨_,hleast.1⟩,.inl ⟨by omega,.inl hleast⟩⟩
  | some none =>
    rw [ho] at hphase
    obtain ⟨hleaves,hmiss⟩ := hphase
    have hfrom : ∀ q∈runs p size.toNat number.toNat hint.toNat,
        0<δ ∧ q=hint.toNat ∧ hint.toNat+number.toNat=size.toNat := by
      intro q hq
      have := hmiss q hq
      obtain ⟨hle',hin,-⟩ := hq
      omega
    by_cases hzero : hint=0
    · have hnat : hint.toNat=0 := by rw [hzero]; rfl
      rw [if_neg (not_not.mpr hzero)]
      rw [hnat] at hleaves hfrom ⊢
      refine .inl ⟨_,rfl,.inr ⟨hleaves,.inr hleaves⟩,.inr ⟨rfl,?_⟩⟩
      rintro ⟨q,hq⟩
      have := hfrom q hq
      omega
    obtain rfl : lo=0 := hfirst.resolve_right fun ⟨hfits,q,hq⟩ => by
      have := hfrom q hq
      omega
    have hmargin := toNat_margin size hleaves.sum_lt
    rw [if_pos hzero]
    dsimp only
    generalize (if hint+number<size then hint+number else size)=margin at hmargin ⊢
    have hphase : Outcome p size.toNat number.toNat δ margin.toNat 0 turns
        (findLoop σ number margin turns 0) :=
      findLoop_spec hS hnumber (by rw [le_def]; omega) (by omega) (Nat.zero_le _) (by simp) turns
    match ho : findLoop σ number margin turns 0 with
    | none =>
      rw [ho] at hphase
      refine .inr ⟨rfl,fun hturns hends => ?_⟩
      obtain ⟨hstay,hnone⟩ := hphase (by omega)
      obtain ⟨q,hq⟩ | ⟨-,⟨q,hq⟩ | ⟨e,he,hlt,hlt'⟩⟩ := hends
      · exact Set.notMem_empty q (hnone ▸ mem_runs_zero hq)
      · exact Set.notMem_empty q (hnone ▸ hq)
      · exact hstay ⟨e,he,by omega,hlt'⟩
    | some (some r) =>
      rw [ho] at hphase
      obtain ⟨hfits,hleast⟩ := hphase
      refine .inl ⟨r,rfl,.inr ⟨hleaves,.inl ⟨_,hleast.1⟩⟩,.inl ⟨by omega,?_⟩⟩
      exact .inr ⟨fun ⟨q,hq⟩ => (hfrom q hq).1,hleast⟩
    | some none =>
      rw [ho] at hphase
      obtain ⟨⟨e',he',hout',hwrap'⟩,hmiss'⟩ := hphase
      have hleaves' : Leaves p size.toNat number.toNat δ size.toNat 0 := by
        by_cases hlt : hint.toNat+number.toNat<size.toNat
        · obtain ⟨e,he,hout⟩ := hleaves
          exact ⟨e,.inr ⟨by have := he.le; omega,(he.resolve_left (by omega)).2⟩,hout⟩
        · exact ⟨e',he',by omega,hwrap'⟩
      refine .inl ⟨_,rfl,.inr ⟨hleaves,.inr hleaves'⟩,.inr ⟨rfl,?_⟩⟩
      rintro ⟨q,hq⟩
      have := hmiss' q hq
      have := hq.2.1
      by_cases hhq : hint.toNat≤q
      · have := hfrom q ⟨hhq,hq.2⟩
        omega
      · omega

variable (hS : ∀ lo, size.toNat+31<2^32 ∨ 32≤lo → Scans p size.toNat lo δ σ)
  (hnumber : 0<number.toNat) (hle : number≤ size)
include hS hnumber hle

theorem SearchOk.finds (hok : SearchOk p size.toNat number.toNat δ hint.toNat) :
    ∃ r, findBits σ size (size.toNat+1) number hint=some r ∧
      Found p size.toNat number.toNat δ hint.toNat r := by
  obtain ⟨hb,hends⟩ | ⟨hhint,hrun⟩ := hok
  · obtain ⟨r,hr,-,hfound⟩ | ⟨-,hno⟩ := findBits_spec (hS 0 (.inl hb)) hnumber hle
      (Nat.zero_le _) (.inl rfl) (fun _ => hends.sum_lt size.isLt) (size.toNat+1)
    · exact ⟨r,hr,hfound⟩
    · exact absurd hends (hno (Nat.lt_succ_self _))
  · obtain ⟨r,hr,-,hfound⟩ | ⟨-,hno⟩ := findBits_spec (hS 32 (.inr le_rfl)) hnumber hle
      hhint (.inr hrun) (by omega) (size.toNat+1)
    · exact ⟨r,hr,hfound⟩
    · exact absurd (.inl hrun.2) (hno (Nat.lt_succ_self _))

theorem searchOk_of_findBits (hb : size.toNat+31<2^32)
    (hhint : size.toNat<hint.toNat → hint.toNat+number.toNat<2^32)
    {r : BitVec 32} (hr : findBits σ size turns number hint=some r) :
    SearchOk p size.toNat number.toNat δ hint.toNat ∧
      Found p size.toNat number.toNat δ hint.toNat r := by
  obtain ⟨r',hr',hends,hfound⟩ | ⟨hnone,-⟩ := findBits_spec (hS 0 (.inl hb)) hnumber hle
    (Nat.zero_le _) (.inl rfl) hhint turns
  · obtain rfl := Option.some.inj (hr.symm.trans hr')
    exact ⟨.inl ⟨hb,hends⟩,hfound⟩
  · cases hr.symm.trans hnone

end Phases

section Bits
variable {lo : Nat} (hb : b.sizeOfBitMap.toNat+31<2^32 ∨ 32≤lo)
include hb

theorem scans_set : Scans b.bit b.sizeOfBitMap.toNat lo 0 (setSearch b) where
  size_lt := b.sizeOfBitMap.isLt
  le_one := Nat.zero_le 1
  fits _ _ := decide_eq_true_iff
  skip _ m hlo hs := rtlpGetLengthOfRunClear_spec hs (hb.imp_right hlo.trans') m
  take _ m hlo hs := rtlpGetLengthOfRunSet_spec hs (hb.imp_right hlo.trans') m

theorem scans_clear : Scans (fun i => !b.bit i) b.sizeOfBitMap.toNat lo 1 (clearSearch b) where
  size_lt := b.sizeOfBitMap.isLt
  le_one := le_rfl
  fits _ _ := decide_eq_true_iff
  skip _ m hlo hs := rtlpGetLengthOfRunSet_spec hs (hb.imp_right hlo.trans') m
  take _ m hlo hs := by
    simp only [Bool.not_not]
    exact rtlpGetLengthOfRunClear_spec hs (hb.imp_right hlo.trans') m

end Bits

/-- The clear runs of `n` bits. -/
abbrev clearRuns (b : Bitmap) (n : BitVec 32) : Set Nat :=
  runs (fun i => !b.bit i) b.sizeOfBitMap.toNat n.toNat 0

/-- `RtlFindClearBits` ends, with a clear run if there is one and else with `MAXULONG`. -/
def FindsClear (b : Bitmap) (n hint : BitVec 32) : Prop :=
  ∃ turns r, rtlFindClearBits b turns n hint=some r ∧
    ((clearRuns b n).Nonempty → r.toNat∈clearRuns b n) ∧ (r=allOnes 32 ↔ clearRuns b n = ∅)

def WholeClear (b : Bitmap) (n : BitVec 32) : Prop :=
  n=b.sizeOfBitMap ∧ ∀ i<b.sizeOfBitMap.toNat, b.bit i=false

def FindClearOk (b : Bitmap) (n hint : BitVec 32) : Prop :=
  SearchOk (fun i => !b.bit i) b.sizeOfBitMap.toNat n.toNat 1 hint.toNat ∧ ¬WholeClear b n

theorem wholeClear_iff {n : BitVec 32} (hn : n=b.sizeOfBitMap) :
    WholeClear b n ↔ 0∈clearRuns b n := by
  simp [WholeClear,runs,hn]

theorem findsClear_of_found {n hint r : BitVec 32} (hn : 0<n.toNat)
    (hwhole : ¬WholeClear b n) (hr : rtlFindClearBits b turns n hint=some r)
    (hfound : Found (fun i => !b.bit i) b.sizeOfBitMap.toNat n.toNat 1 hint.toNat r) :
    FindsClear b n hint := by
  have hrun : r.toNat∈clearRuns b n → FindsClear b n hint := by
    intro hat
    refine ⟨turns,r,hr,fun _ => hat,fun hmax => ?_,fun hnone => ?_⟩
    · have := hat.2.1
      have : r.toNat=2^32-1 := by rw [hmax]; rfl
      omega
    · exact absurd hnone (Set.nonempty_iff_ne_empty.mp ⟨_,hat⟩)
  obtain ⟨-,hat | ⟨-,hat⟩⟩ | ⟨rfl,hmiss⟩ := hfound
  · exact hrun (mem_runs_zero hat.1)
  · exact hrun hat.1
  · have hnone : ¬(clearRuns b n).Nonempty := by
      rintro ⟨q,hq⟩
      have hsize := (hmiss ⟨q,hq⟩).2
      obtain rfl : q=0 := by have := hq.2.1; omega
      exact hwhole ((wholeClear_iff (eq_of_toNat_eq hsize)).mpr hq)
    exact ⟨turns,_,hr,fun h => absurd h hnone,fun _ => Set.not_nonempty_iff_eq_empty.mp hnone,
      fun _ => rfl⟩

/-- `RtlFindClearBits` finds a clear run exactly under `FindClearOk`, unless it scans a map of
almost `2 ^ 32` bits or reads behind the map for a hint there. -/
theorem rtlFindClearBits_correct (b : Bitmap) (n hint : BitVec 32) (hn : 0<n.toNat)
    (hle : n≤b.sizeOfBitMap) :
    (FindClearOk b n hint → FindsClear b n hint) ∧
      (b.sizeOfBitMap.toNat+31<2^32 →
        (b.sizeOfBitMap.toNat<hint.toNat → hint.toNat+n.toNat<2^32) →
        FindsClear b n hint → FindClearOk b n hint) := by
  constructor
  · rintro ⟨hok,hwhole⟩
    obtain ⟨r,hr,hfound⟩ := hok.finds (fun _ => scans_clear) hn hle
    exact findsClear_of_found hn hwhole hr hfound
  · rintro hb hhint ⟨turns,r,hr,-,hmax⟩
    obtain ⟨hok,hfound⟩ := searchOk_of_findBits (fun _ => scans_clear) hn hle hb hhint hr
    refine ⟨hok,fun hwhole => ?_⟩
    obtain ⟨rfl,-⟩ := id hwhole
    obtain ⟨hlt,-⟩ | ⟨rfl,-⟩ := hfound
    · omega
    · exact Set.notMem_empty 0 (hmax.mp rfl ▸ (wholeClear_iff rfl).mp hwhole)

theorem rtlFindClearBits_correct_two_bits : FindsClear ⟨2,fun _ => 2⟩ 1 0 :=
  (rtlFindClearBits_correct ⟨2,fun _ => 2⟩ 1 0 (by decide) (by decide)).1
    ⟨Or.inl ⟨by decide,ends_of_lt (by decide) (by decide) (by decide)⟩,
      fun h => absurd h.1 (by decide)⟩

/-- All of an empty map of 8 bits is asked for, and `MAXULONG` comes back. -/
theorem not_findsClear_whole : ¬FindsClear ⟨8,fun _ => 0⟩ 8 0 := by
  rintro ⟨turns,r,hr,hrun,-⟩
  cases turns with
  | zero => cases hr
  | succ turns =>
    obtain rfl : allOnes 32=r := Option.some.inj hr
    exact absurd (hrun ⟨0,(wholeClear_iff rfl).mp ⟨rfl,by decide⟩⟩).2.1 (by decide)

/-- The runs of `n` set bits from bit `c` on. -/
abbrev setRuns (b : Bitmap) (n : BitVec 32) (c : Nat) : Set Nat :=
  runs b.bit b.sizeOfBitMap.toNat n.toNat c

/-- `RtlFindSetBits` ends, with the first run from the hint on, else with the first one of the map
and else with `MAXULONG`. -/
def FindsFirstSet (b : Bitmap) (n hint : BitVec 32) : Prop :=
  (∃ turns, rtlFindSetBitsWithin b turns n hint=some (rtlFindSetBits b n hint)) ∧
    (IsLeast (setRuns b n hint.toNat) (rtlFindSetBits b n hint).toNat ∨
      setRuns b n hint.toNat = ∅ ∧ (IsLeast (setRuns b n 0) (rtlFindSetBits b n hint).toNat ∨
        setRuns b n 0 = ∅ ∧ rtlFindSetBits b n hint=allOnes 32))

theorem findsFirstSet_of_ok {n hint : BitVec 32} (hn : 0<n.toNat)
    (hle : n≤b.sizeOfBitMap) (hok : SearchOk b.bit b.sizeOfBitMap.toNat n.toNat 0 hint.toNat) :
    FindsFirstSet b n hint := by
  obtain ⟨r,hr,hfound⟩ := hok.finds (fun _ => scans_set) hn hle
  have hempty : ∀ {s : Set Nat}, (s.Nonempty → 0<0) → s = ∅ := fun h =>
    Set.not_nonempty_iff_eq_empty.mp fun hs => lt_irrefl 0 (h hs)
  obtain rfl : rtlFindSetBits b n hint=r := by
    rw [rtlFindSetBits,rtlFindSetBitsWithin,hr,Option.getD_some]
  refine ⟨⟨_,hr⟩,?_⟩
  obtain ⟨-,hleast | ⟨hnone,hleast⟩⟩ | ⟨hmax,hnone⟩ := hfound
  · exact .inl hleast
  · exact .inr ⟨hempty hnone,.inl hleast⟩
  · refine .inr ⟨hempty fun ⟨q,hq⟩ => (hnone ⟨q,mem_runs_zero hq⟩).1,.inr ⟨?_,hmax⟩⟩
    exact hempty fun h => (hnone h).1

theorem mem_setRuns_one {c q : Nat} : q∈setRuns b 1 c ↔
    c≤q ∧ q<b.sizeOfBitMap.toNat ∧ b.bit q=true := by
  refine and_congr_right fun _ => and_congr_right fun _ => ⟨fun h => h q le_rfl (by simp),?_⟩
  intro h j h1 h2
  rwa [show j=q from le_antisymm (Nat.lt_succ_iff.mp h2) h1]

/-- `RtlFindSetBits` for one bit gives the first set bit from the hint on; if there is none,
what it gives is `MAXULONG` or lies before the hint. -/
theorem rtlFindSetBits_one (b : Bitmap) (hint : BitVec 32)
    (hh : hint.toNat<b.sizeOfBitMap.toNat) (hb : b.sizeOfBitMap.toNat≤2^31) :
    IsLeast (setRuns b 1 hint.toNat) (rtlFindSetBits b 1 hint).toNat ∨
      (rtlFindSetBits b 1 hint=allOnes 32 ∨ (rtlFindSetBits b 1 hint).toNat<hint.toNat) ∧
        ∀ j, hint.toNat≤j → j<b.sizeOfBitMap.toNat → b.bit j=false := by
  have h1 : (1 : BitVec 32).toNat=1 := rfl
  have hends := ends_of_lt (p := b.bit) (δ := 0) hh Nat.one_pos (by omega)
  obtain ⟨-,hleast | ⟨hnone,hrest⟩⟩ :=
    findsFirstSet_of_ok (n := 1) Nat.one_pos (by rw [le_def]; omega) (.inl ⟨by omega,hends⟩)
  · exact .inl hleast
  · refine .inr ⟨?_,fun j hj hlt => ?_⟩
    · obtain ⟨hat,-⟩ | ⟨-,hmax⟩ := hrest
      · refine .inr (not_le.mp fun hge => ?_)
        exact absurd hnone (Set.nonempty_iff_ne_empty.mp ⟨_,hge,hat.2⟩)
      · exact .inl hmax
    · by_contra hbit
      exact Set.notMem_empty j (hnone ▸ mem_setRuns_one.mpr ⟨hj,hlt,by simpa using hbit⟩)

def rtlFindClearBitsAndSet (b : Bitmap) (turns : Nat) (numberToFind hintIndex : BitVec 32) :
    Option (Bitmap × BitVec 32) :=
  (rtlFindClearBits b turns numberToFind hintIndex).map fun position =>
    (if position≠allOnes 32 then rtlSetBits b position numberToFind else b, position)

/-- The map after searches that set what they find, with the ranges found and not cleared since. -/
inductive InUse (b : Bitmap) : Bitmap → List (BitVec 32 × BitVec 32) → Prop
  | start : InUse b b []
  | found {m m' l n r} (turns hint) : InUse b m l → 0<n.toNat → n≤ m.sizeOfBitMap →
    hint≤ m.sizeOfBitMap → rtlFindClearBitsAndSet m turns n hint=some (m', r) → r≠allOnes 32 →
    InUse b m' ((r, n)::l)
  | cleared {m l r n} : InUse b m l → (r, n)∈l → InUse b (rtlClearBits m r n) (l.erase (r, n))

def holds (i : Nat) (r : BitVec 32 × BitVec 32) : Bool := r.1.toNat≤ i ∧ i<r.1.toNat+r.2.toNat

/-- A bit is set by the map at the start or by one range, and by no two of them. -/
structure Exclusive (b m : Bitmap) (l : List (BitVec 32 × BitVec 32)) : Prop where
  size : m.sizeOfBitMap=b.sizeOfBitMap
  fits : ∀ r∈l, r.1.toNat+r.2.toNat≤b.sizeOfBitMap.toNat
  bits : ∀ i, (m.bit i).toNat=(b.bit i).toNat+l.countP (holds i)

theorem inUse_exclusive {b m : Bitmap} {l : List (BitVec 32 × BitVec 32)} (h : InUse b m l)
    (hb : b.sizeOfBitMap.toNat+31<2^32) : Exclusive b m l := by
  induction h with
  | start => exact ⟨rfl,by simp,by simp⟩
  | @found m m' l n r turns hint _ hn hle hhint hfind hr ih =>
    rw [← ih.size] at hb
    obtain ⟨r,hr',heq⟩ := Option.map_eq_some_iff.mp hfind
    obtain ⟨rfl,rfl⟩ := Prod.mk.inj heq
    obtain ⟨-,hin,hclear⟩ : r.toNat∈clearRuns m n := by
      obtain ⟨-,hat | ⟨-,hat⟩⟩ | ⟨hmax,-⟩ := (searchOk_of_findBits (fun _ => scans_clear) hn hle hb
        (fun hlt => absurd hhint (BitVec.not_le.mpr hlt)) hr').2
      · exact mem_runs_zero hat.1
      · exact hat.1
      · exact absurd hmax hr
    rw [if_pos hr]
    refine ⟨by simp [ih.size],List.forall_mem_cons.mpr ⟨ih.size ▸ hin,ih.fits⟩,fun i => ?_⟩
    rw [rtlSetBits_bit,List.countP_cons,← add_assoc,← ih.bits i]
    change (m.bit i || holds i (r, n)).toNat=_
    cases hi : holds i (r, n) with
    | false => simp
    | true =>
      -- the run that was found was clear
      have hset := of_decide_eq_true hi
      simpa using hclear i hset.1 hset.2
  | @cleared m l r n _ hmem ih =>
    refine ⟨by rw [rtlClearBits_eq]; exact ih.size,
      fun x hx => ih.fits x (List.mem_of_mem_erase hx),fun i => ?_⟩
    have hbits := ih.bits i
    rw [(List.perm_cons_erase hmem).countP_eq,List.countP_cons] at hbits
    rw [rtlClearBits_eq,bit_not,← Bitmap.bit,rtlSetBits_bit,bit_not]
    change (!(!m.bit i || holds i (r, n))).toNat=_
    cases hi : holds i (r, n) with
    | false => simpa [hi] using hbits
    | true =>
      have hone := (m.bit i).toNat_le
      simp only [hi,if_true] at hbits
      simp only [Bool.or_true,Bool.not_true,Bool.toNat_false]
      omega

/-- Two ranges are found behind a bit that is in use, and the first is cleared. -/
theorem inUse_exclusive_eight : ∃ m, Exclusive ⟨8,fun _ => 1⟩ m [(3, 3)] := by
  have hfirst := InUse.found 9 0 (.start (b := ⟨8,fun _ => 1⟩)) (n := 2) (by decide) (by decide)
    (by decide) rfl (by decide)
  have hsecond := InUse.found 9 0 hfirst (n := 3) (by decide) (by decide) (by decide) rfl
    (by decide)
  exact ⟨_,inUse_exclusive (hsecond.cleared (r := 1) (n := 2) (by decide)) (by decide)⟩

end Odyssey.Rtl
