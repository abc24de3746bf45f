import Mathlib.Tactic

/-! Strings of components over the numbers, with `0` as the separator, in lexicographic order: which
of them end at a boundary of a longer one, and where they stand among the others. -/
namespace ComponentKeys
open List

def Boundary (k s : List Nat) : Prop :=
  k <+: s ∧ (k=s ∨ s[k.length]?=some 0 ∨ k=[0])

/-- No separator stands last, except alone. -/
def Plain (k : List Nat) : Prop := k.getLast?=some 0 → k=[0]

def components (k : List Nat) : Nat := 1+k.dropLast.count 0

variable {k m s y : List Nat}

theorem lt_append (hy : y≠[]) : k<k++y := by
  induction k with
  | nil =>
    cases y with
    | nil => exact absurd rfl hy
    | cons a y => exact nil_lt_cons a y
  | cons a k ih => exact cons_lt_cons_iff.mpr (.inr ⟨rfl,ih⟩)

theorem lt_of_isPrefix (h : k <+: s) (hne : k≠s) : k<s := by
  obtain ⟨y,rfl⟩ := h
  refine lt_append fun hy => hne ?_
  rw [hy,append_nil]

theorem append_lt_append {x : List Nat} (h : m++y< m++x) : y<x := by
  induction m with
  | nil => exact h
  | cons a m ih =>
    cases cons_lt_cons_iff.mp h with
    | inl h => exact absurd h (Nat.lt_irrefl a)
    | inr h => exact ih h.2

/-- Between a string and one that it starts, there are only strings that it starts. -/
theorem isPrefix_of_between (h : m <+: s) (hmk : m<k) (hks : k<s) : m <+: k := by
  induction m generalizing k s with
  | nil => exact nil_prefix
  | cons a m ih =>
    obtain ⟨y,rfl⟩ := h
    cases k with
    | nil => exact absurd hmk (not_lt_nil _)
    | cons b k =>
      obtain hab | ⟨hab,hlt⟩ := cons_lt_cons_iff.mp hmk
      · obtain hba | ⟨hba,-⟩ := cons_lt_cons_iff.mp hks <;> omega
      · obtain hba | ⟨-,hlt'⟩ := cons_lt_cons_iff.mp hks
        · omega
        · subst hab
          exact cons_prefix_cons.mpr ⟨rfl,ih (prefix_append m y) hlt hlt'⟩

theorem components_append_zero (hy : y≠[]) : components m<components (m++0::y) := by
  have hlast : (m++0::y).dropLast=m++0::y.dropLast := by
    rw [dropLast_append_of_ne_nil (by simp),dropLast_cons_of_ne_nil hy]
  have hle : m.dropLast.count 0≤ m.count 0 := (dropLast_sublist m).count_le 0
  rw [components,components,hlast]
  simp only [count_append,count_cons_self]
  omega

theorem components_le_of_isPrefix (h : k <+: s) : components k≤components s := by
  have hsub : k.dropLast.Sublist s.dropLast := by
    obtain ⟨y,rfl⟩ := h
    by_cases hy : y=[]
    · simp [hy]
    · rw [dropLast_append_of_ne_nil hy]
      exact (dropLast_sublist k).trans (sublist_append_left k _)
  have hle := hsub.count_le 0
  simp only [components]
  omega

/-- A longer key of the same number of components that `m` starts and that the separator follows can
only end in the separator. -/
theorem Plain.not_append_zero (hk : Plain k) (hm : m≠[]) (hcount : components k=components m)
    (h : k=m++0::y) : False := by
  by_cases hy : y=[]
  · have hlast := hk (by simp [h,hy])
    rw [h] at hlast
    have hlen := congrArg List.length hlast
    have hpos := length_pos_iff.mpr hm
    simp only [length_append,length_cons,length_nil] at hlen
    omega
  · have hlt := components_append_zero (m := m) hy
    rw [← h] at hlt
    omega

/-- Nothing but the separator itself starts with it and has one component. -/
theorem not_zero_append (hcount : components k=components [0]) (hy : y≠[]) (h : k=[0]++y) :
    False := by
  have hlt := components_append_zero (m := []) hy
  rw [h] at hcount
  simp only [components,nil_append,singleton_append,dropLast_nil,dropLast_singleton] at hlt hcount
  omega

/-- Of the keys with one number of components, one at most ends at a boundary of `s`. -/
theorem Boundary.eq_of_isPrefix (hk : Boundary k s) (hm : Boundary m s) (hplain : Plain m)
    (hne : k≠[]) (hcount : components m=components k) (h : k <+: m) : k=m := by
  by_contra hkm
  obtain ⟨y,rfl⟩ := h
  have hy : y≠[] := fun hy => hkm (by simp [hy])
  obtain ⟨-,rfl | hzero | rfl⟩ := hk
  · exact hkm (hm.1.eq_of_length_le (by simp)).symm
  · cases y with
    | nil => exact hy rfl
    | cons a y =>
      obtain ⟨x,rfl⟩ := hm.1
      have ha : a=0 := by simpa using hzero
      exact hplain.not_append_zero hne hcount (by rw [ha])
  · exact not_zero_append hcount hy rfl

theorem Boundary.unique (hk : Boundary k s) (hm : Boundary m s) (hpk : Plain k) (hpm : Plain m)
    (hk0 : k≠[]) (hm0 : m≠[]) (hcount : components k=components m) : k=m := by
  obtain h | h := prefix_or_prefix_of_prefix hk.1 hm.1
  · exact hk.eq_of_isPrefix hm hpm hk0 hcount.symm h
  · exact (hm.eq_of_isPrefix hk hpk hm0 hcount h).symm

/-- A key less than `s` that ends at no boundary is less than the one that does. -/
theorem Boundary.lt (hm : Boundary m s) (hk : ¬Boundary k s) (hks : k<s) (hplain : Plain k)
    (hm0 : m≠[]) (hcount : components k=components m) : k< m := by
  by_contra hlt
  have hne : m≠k := fun h => hk (h ▸ hm)
  have hmk : m<k := lt_of_le_of_ne (not_lt.mp hlt) hne
  obtain ⟨y,rfl⟩ := isPrefix_of_between hm.1 hmk hks
  have hy : y≠[] := fun hy => hne (by simp [hy])
  obtain ⟨⟨x,rfl⟩,heq | hzero | rfl⟩ := hm
  · rw [← heq] at hks
    exact lt_asymm hmk hks
  · cases y with
    | nil => exact hy rfl
    | cons a y =>
      cases x with
      | nil => simp at hzero
      | cons b x =>
        have hb : b=0 := by simpa using hzero
        have ha : a=0 := by
          obtain h | h := cons_lt_cons_iff.mp (append_lt_append hks)
          · omega
          · omega
        exact hplain.not_append_zero hm0 hcount (by rw [ha])
  · exact not_zero_append hcount hy rfl

end ComponentKeys
