import Odyssey.Lib.ComponentKeys
import Odyssey.Rtl.PrefixTable

/-! The order behind the comparisons of a prefix table: lexicographic on upcased names, with the
backslash in front of all other characters. -/
namespace Odyssey.Rtl.PrefixTable
open ComponentKeys List
variable (u : UpcaseTable) {index : Nat}

def rank (c : WChar) : Nat := if c=backslash then 0 else (u.upcase c).toNat+1

def key (name : List WChar) : List Nat := name.map (rank u)

variable {u} {p s : List WChar} {c d : WChar}

theorem rank_eq_zero : rank u c=0 ↔ c=backslash := by
  rw [rank]
  split <;> simp_all

theorem rank_eq_rank : rank u c=rank u d ↔ u.upcase c=u.upcase d := by
  have hc := u.upcase_eq_backslash (c := c)
  have hd := u.upcase_eq_backslash (c := d)
  simp only [rank]
  split
  next h =>
    split
    next h' => simp [h,h']
    next h' =>
      rw [hc.mpr h]
      exact iff_of_false (by omega) fun heq => h' (hd.mp heq.symm)
  next h =>
    split
    next h' =>
      rw [hd.mpr h']
      exact iff_of_false (by omega) fun heq => h (hc.mp heq)
    next h' =>
      rw [Nat.add_right_cancel_iff]
      exact BitVec.toNat_inj

/-- Two characters that differ are ordered by their ranks. -/
theorem mismatchResult_cases (h : u.upcase c≠u.upcase d) :
    (mismatchResult (u.upcase c) (u.upcase d) = .lessThan ∧ rank u c<rank u d) ∨
      (mismatchResult (u.upcase c) (u.upcase d) = .greaterThan ∧ rank u d<rank u c) := by
  rw [mismatchResult]
  simp only [u.upcase_eq_backslash]
  split
  next hc =>
    have hd : d≠backslash := fun hd => h (by rw [hc,hd])
    exact .inl ⟨rfl,by simp [rank,hc,hd]⟩
  next hc =>
    split
    next hd => exact .inr ⟨rfl,by simp [rank,hc,hd]⟩
    next hd =>
      have hne : (u.upcase c).toNat≠(u.upcase d).toNat := fun heq => h (BitVec.eq_of_toNat_eq heq)
      have hrank : ∀ x, x≠backslash → rank u x=(u.upcase x).toNat+1 := fun x hx => if_neg hx
      rw [hrank c hc,hrank d hd]
      split
      next hlt =>
        have : (u.upcase c).toNat<(u.upcase d).toNat := hlt
        exact .inl ⟨rfl,by omega⟩
      next hlt =>
        have : ¬(u.upcase c).toNat<(u.upcase d).toNat := hlt
        exact .inr ⟨rfl,by omega⟩

@[simp] theorem key_nil : key u []=[] := rfl

@[simp] theorem key_cons : key u (c::p)=rank u c::key u p := rfl

@[simp] theorem length_key (p : List WChar) : (key u p).length=p.length := length_map _

theorem key_ne (h : p.length≠s.length) : key u p≠key u s := fun heq =>
  h (by simpa using congrArg List.length heq)

theorem key_eq_nil : key u p=[] ↔ p=[] := map_eq_nil_iff

theorem key_eq_zero : key u p=[0] ↔ p=[backslash] := by
  cases p with
  | nil => simp
  | cons c p => simp [rank_eq_zero,key_eq_nil]

theorem getElem?_key {i : Nat} : (key u s)[i]?=some 0 ↔ s[i]?=some backslash := by
  simp [key,rank_eq_zero]

theorem firstMismatch_eq_none :
    firstMismatch u.upcase p s=none ↔ key u p <+: key u s ∨ key u s <+: key u p := by
  induction p generalizing s with
  | nil => simp [firstMismatch]
  | cons c p ih =>
    cases s with
    | nil => simp [firstMismatch]
    | cons d s =>
      rw [firstMismatch,key_cons,key_cons, cons_prefix_cons]
      split
      next h =>
        have hrank : rank u c=rank u d := rank_eq_rank.mpr h
        simp [ih,hrank]
      next h =>
        have hrank : rank u c≠rank u d := fun heq => h (rank_eq_rank.mp heq)
        simp [hrank,Ne.symm]

theorem firstMismatch_eq_some {x y : WChar} (h : firstMismatch u.upcase p s=some (x, y)) :
    (mismatchResult x y = .lessThan ∧ key u p<key u s) ∨
      (mismatchResult x y = .greaterThan ∧ key u s<key u p) := by
  induction p generalizing s with
  | nil => simp [firstMismatch] at h
  | cons c p ih =>
    cases s with
    | nil => simp [firstMismatch] at h
    | cons d s =>
      rw [firstMismatch] at h
      simp only [key_cons,cons_lt_cons_iff]
      split at h
      next heq =>
        have hrank : rank u c=rank u d := rank_eq_rank.mpr heq
        simpa [hrank] using ih h
      next hne =>
        cases h
        obtain ⟨hres,hlt⟩ | ⟨hres,hlt⟩ := mismatchResult_cases hne
        · exact .inl ⟨hres,.inl hlt⟩
        · exact .inr ⟨hres,.inl hlt⟩

theorem computeUnicodeNameLength_eq (p : List WChar) :
    computeUnicodeNameLength p=components (key u p) := by
  have hcount : ∀ l : List WChar, (l.map (rank u)).count 0=l.count backslash := by
    intro l
    rw [count_eq_countP,countP_map]
    exact countP_congr fun c _ => by simp [rank_eq_zero]
  rw [computeUnicodeNameLength,components,key,← map_dropLast,hcount]

/-- The comparison that ignores case. -/
theorem compare_zero_cases (u : UpcaseTable) (p s : List WChar) :
    (compareUnicodeStrings u p s 0 = .equal ∧ key u p=key u s) ∨
      (compareUnicodeStrings u p s 0 = .greaterThan ∧ key u s<key u p) ∨
      (compareUnicodeStrings u p s 0 = .properPrefix ∧ key u p<key u s ∧
        Boundary (key u p) (key u s)) ∨
      (compareUnicodeStrings u p s 0 = .lessThan ∧ key u p<key u s ∧
        ¬Boundary (key u p) (key u s)) := by
  rw [compareUnicodeStrings]
  split
  next h =>
    -- the table of the root directory, asked for a longer name
    obtain ⟨rfl,hlen,hhead⟩ := h
    obtain ⟨r,hs⟩ := head?_eq_some_iff.mp hhead
    have hkey : key u [backslash]=[0] := key_eq_zero.mpr rfl
    have hpre : key u [backslash] <+: key u s := ⟨key u r,by simp [hs]⟩
    have hne : key u [backslash]≠key u s := key_ne (by simpa using hlen.ne)
    exact .inr (.inr (.inl ⟨rfl,lt_of_isPrefix hpre hne,hpre,.inr (.inr hkey)⟩))
  next h =>
    simp only [Nat.zero_min,take_zero,firstMismatch,Option.none_or,drop_zero]
    split
    next x y hfound =>
      have hnone : ¬(key u p <+: key u s ∨ key u s <+: key u p) := by
        intro hpre
        simp [firstMismatch_eq_none.mpr hpre] at hfound
      obtain ⟨hres,hlt⟩ | ⟨hres,hlt⟩ := firstMismatch_eq_some hfound
      · exact .inr (.inr (.inr ⟨hres,hlt,fun hb => hnone (.inl hb.1)⟩))
      · exact .inr (.inl ⟨hres,hlt⟩)
    next hfound =>
      have hpre := firstMismatch_eq_none.mp hfound
      split
      next hlen =>
        have hps : key u p <+: key u s := by
          refine hpre.resolve_right fun hsp => ?_
          have := hsp.length_le
          simp only [length_key] at this
          omega
        have hne : key u p≠key u s := key_ne hlen.ne
        split
        next hsep =>
          have hzero : (key u s)[(key u p).length]?=some 0 := by
            rw [length_key]
            exact getElem?_key.mpr hsep
          exact .inr (.inr (.inl ⟨rfl,lt_of_isPrefix hps hne,hps,.inr (.inl hzero)⟩))
        next hsep =>
          refine .inr (.inr (.inr ⟨rfl,lt_of_isPrefix hps hne,?_⟩))
          intro hb
          obtain heq | hzero | hroot := hb.2
          · exact hne heq
          · rw [length_key] at hzero
            exact hsep (getElem?_key.mp hzero)
          · have hp := key_eq_zero.mp hroot
            cases s with
            | nil => simp at hlen
            | cons c s =>
              rw [hroot,key_cons, cons_prefix_cons] at hps
              refine h ⟨hp,by simpa [hp] using hlen,?_⟩
              rw [head?_cons,rank_eq_zero.mp hps.1.symm]
      next hlen =>
        have hsp : key u s <+: key u p := by
          refine hpre.elim (fun hps => ?_) id
          rw [hps.eq_of_length_le (by simpa using hlen)]
        split
        next hlt =>
          exact .inr (.inl ⟨rfl,lt_of_isPrefix hsp (key_ne hlt.ne)⟩)
        next hlt => exact .inl ⟨rfl,(hsp.eq_of_length_le (by simpa using hlt)).symm⟩

theorem firstMismatch_id {a b : List WChar} (hlen : a.length=b.length) :
    firstMismatch id a b=none ↔ a=b := by
  induction a generalizing b with
  | nil => simp [firstMismatch,length_eq_zero_iff.mp hlen.symm]
  | cons c a ih =>
    cases b with
    | nil => simp at hlen
    | cons d b =>
      simp only [length_cons,Nat.add_right_cancel_iff] at hlen
      rw [firstMismatch]
      split
      next h => simp [ih hlen,show c=d from h]
      next h => simpa using fun heq => absurd heq h

theorem mismatchResult_ne (c d : WChar) :
    mismatchResult c d = .lessThan ∨ mismatchResult c d = .greaterThan := by
  rw [mismatchResult]
  split_ifs <;> simp

/-- The comparison takes a name whose first characters, as many as the index says, are those of the
string, and the others up to case. -/
theorem caseSensitiveMatch_iff {e : Entry}
    (hroot : ¬(e.name=[backslash] ∧ 1<s.length ∧ s.head?=some backslash)) :
    caseSensitiveMatch u s index e=true ↔ e.name.length≤ s.length ∧
      e.name.take index=s.take (min index e.name.length) ∧
      firstMismatch u.upcase (e.name.drop (min index e.name.length))
        (s.drop (min index e.name.length))=none ∧
      (e.name.length<s.length → s[e.name.length]?=some backslash) := by
  rw [caseSensitiveMatch,compareUnicodeStrings,if_neg hroot]
  by_cases hlen : e.name.length≤ s.length
  · have hmin : min index (min s.length e.name.length)=min index e.name.length := by omega
    have hid := firstMismatch_id (a := e.name.take (min index e.name.length))
      (b := s.take (min index e.name.length)) (by simp only [length_take]; omega)
    rw [take_eq_take_min (l := e.name)]
    simp only [hmin,hlen,true_and]
    cases hfound : firstMismatch id (e.name.take (min index e.name.length))
        (s.take (min index e.name.length)) with
    | some found =>
      have hne := mt hid.mpr (by simp [hfound])
      obtain hres | hres := mismatchResult_ne found.1 found.2 <;> simp [hres,hne]
    | none =>
      rw [Option.none_or]
      cases hrest : firstMismatch u.upcase (e.name.drop (min index e.name.length))
          (s.drop (min index e.name.length)) with
      | some found =>
        obtain hres | hres := mismatchResult_ne found.1 found.2 <;> simp [hres]
      | none =>
        simp only [hid.mp hfound,true_and]
        rw [if_neg (show ¬s.length<e.name.length by omega)]
        by_cases hlt : e.name.length<s.length
        · by_cases hsep : s[e.name.length]?=some backslash
          · simp only [if_pos hlt,hsep,if_true,implies_true]
          · simp only [if_pos hlt,if_neg hsep,Bool.false_eq_true,false_iff]
            exact fun h => hsep (h hlt)
        · simp only [hlt,if_false,false_implies]
  · dsimp only
    generalize (firstMismatch id _ _).or (firstMismatch u.upcase _ _)=found
    cases found with
    | some found => obtain hres | hres := mismatchResult_ne found.1 found.2 <;> simp [hres,hlen]
    | none => simp [hlen,show ¬e.name.length<s.length by omega,show s.length<e.name.length by omega]

theorem firstMismatch_self (s : List WChar) : firstMismatch u.upcase s s=none :=
  firstMismatch_eq_none.mpr (.inl (prefix_refl _))

theorem caseSensitiveMatch_self (index : Nat) (e : Entry) :
    caseSensitiveMatch u e.name index e=true := by
  refine (caseSensitiveMatch_iff ?_).mpr ⟨le_rfl,take_eq_take_min,firstMismatch_self _,by simp⟩
  rintro ⟨hname,hlen,-⟩
  simp [hname] at hlen

/-- Of two names that differ in case only, a comparison that takes one takes the other exactly if
the case of the first characters is the same. -/
theorem caseSensitiveMatch_congr {e f : Entry} (hkey : key u e.name=key u f.name)
    (hf : caseSensitiveMatch u s index f=true) :
    caseSensitiveMatch u s index e=true ↔ e.name.take index=f.name.take index := by
  have hlen : e.name.length=f.name.length := by simpa using congrArg List.length hkey
  by_cases hname : f.name=[backslash]
  · have hsame : e.name=f.name := by
      rw [hname]
      exact key_eq_zero.mp (hkey.trans (key_eq_zero.mpr hname))
    rw [caseSensitiveMatch,hsame]
    exact iff_of_true hf rfl
  have hname' : e.name≠[backslash] := fun heq =>
    hname (key_eq_zero.mp (hkey.symm.trans (key_eq_zero.mpr heq)))
  rw [caseSensitiveMatch_iff fun h => hname h.1] at hf
  obtain ⟨hle,htake,hrest,hsep⟩ := hf
  have hrest' : firstMismatch u.upcase (e.name.drop (min index f.name.length))
      (s.drop (min index f.name.length))=none := by
    have hdrop : key u (e.name.drop (min index f.name.length)) =
        key u (f.name.drop (min index f.name.length)) := by
      rw [key,key,map_drop,map_drop]
      exact congrArg (drop _) hkey
    rw [firstMismatch_eq_none] at hrest ⊢
    rw [hdrop]
    exact hrest
  rw [caseSensitiveMatch_iff fun h => hname' h.1,hlen,htake]
  exact ⟨fun h => h.2.1,fun h => ⟨hle,h,hrest',hsep⟩⟩

/-- The check of an insertion for a prefix that is there already. -/
theorem compare_exact (hlen : p.length=s.length) (hindex : s.length ≤ index) :
    compareUnicodeStrings u p s index = .equal ↔ p=s := by
  rw [compareUnicodeStrings,if_neg]
  · have hmin : min index (min s.length p.length)=p.length := by omega
    have hnil : firstMismatch u.upcase [] []=none := rfl
    simp only [hmin,take_length,drop_length]
    rw [hlen,take_length,drop_length,hnil]
    cases hfound : firstMismatch id p s with
    | none => simp [(firstMismatch_id hlen).mp hfound]
    | some found =>
      have hne : p≠s := fun heq => by
        rw [(firstMismatch_id hlen).mpr heq] at hfound
        simp at hfound
      refine iff_of_false ?_ hne
      obtain h | h := mismatchResult_ne found.1 found.2 <;> simp [h]
  · intro hroot
    obtain ⟨rfl,hlt,-⟩ := hroot
    simp only [length_singleton] at hlen
    omega

/-- A stored name matches a longer one at the boundary between two components. -/
def Matches (u : UpcaseTable) (p s : List WChar) : Prop :=
  key u p <+: key u s ∧
    (p.length=s.length ∨ s[p.length]?=some backslash ∨ p.getLast?=some backslash)

theorem plain_key : Plain (key u p) ↔ (p.getLast?=some backslash → p=[backslash]) := by
  rw [Plain]
  simp [key,rank_eq_zero]

theorem matches_iff (hp : Plain (key u p)) : Matches u p s ↔ Boundary (key u p) (key u s) := by
  refine and_congr_right fun hpre => ?_
  rw [length_key,getElem?_key,key_eq_zero]
  refine or_congr ?_ (or_congr_right ⟨plain_key.mp hp,fun h => by simp [h]⟩)
  constructor
  · intro h
    exact hpre.eq_of_length_le (by simp [h])
  · intro h
    simpa using congrArg List.length h

end Odyssey.Rtl.PrefixTable
