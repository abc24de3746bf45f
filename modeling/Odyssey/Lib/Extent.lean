import Mathlib.Tactic

/-! Extents: runs of consecutive natural numbers, such as pages, given by the first and their
number. -/

structure Extent where
  first : Nat
  size : Nat
deriving DecidableEq

namespace Extent
open List
variable {c d r x : Extent} {A B R : List Extent} {lo hi : Nat} {n : Nat}

def Disjoint (c d : Extent) : Prop := c.first+c.size≤d.first ∨ d.first+d.size≤c.first

def Apart (c d : Extent) : Prop := c.first+c.size<d.first ∨ d.first+d.size<c.first

def Adjacent (c d : Extent) : Prop := c.first+c.size=d.first ∨ d.first+d.size=c.first

def Within (lo hi : Nat) (c : Extent) : Prop := lo≤c.first ∧ 1≤c.size ∧ c.first+c.size≤hi

def Contains (c : Extent) (n : Nat) : Prop := c.first≤n ∧ n<c.first+c.size

def joined (c d : Extent) : Extent :=
  ⟨if c.first<d.first then c.first else d.first,d.size+c.size⟩

theorem Disjoint.symm (h : c.Disjoint d) : d.Disjoint c := Or.symm h

instance : Std.Symm Disjoint := ⟨fun _ _ h => h.symm⟩

theorem Apart.symm (h : c.Apart d) : d.Apart c := Or.symm h

instance : Std.Symm Apart := ⟨fun _ _ h => h.symm⟩

theorem Apart.disjoint (h : c.Apart d) : c.Disjoint d := by
  obtain h | h := h
  · exact .inl h.le
  · exact .inr h.le

theorem Disjoint.not_contains (h : c.Disjoint d) (hc : c.Contains n) : ¬d.Contains n := by
  simp only [Disjoint,Contains] at *
  omega

theorem contains_first (h : 1≤c.size) : c.Contains c.first := ⟨le_rfl,by omega⟩

theorem contains_last (h : 1≤c.size) (hn : c.first+c.size=n+1) : c.Contains n :=
  ⟨by omega,by omega⟩

theorem Within.contains (h : c.Within d.first (d.first+d.size)) (hc : c.Contains n) :
    d.Contains n :=
  ⟨h.1.trans hc.1,hc.2.trans_le h.2.2⟩

theorem Disjoint.first_ne (h : c.Disjoint d) (hc : 1≤c.size) (hd : 1≤d.size) : c.first≠d.first := by
  obtain h | h := h
  · omega
  · omega

theorem Disjoint.second_ne (h : c.Disjoint d) (hc : 1≤c.size) (hd : 1≤d.size) :
    d.size=1 ∨ c.first≠d.first+1 := by
  obtain h | h := h
  · omega
  · omega

theorem Disjoint.part (h : c.Disjoint x) (h1 : c.first≤d.first)
    (h2 : d.first+d.size≤c.first+c.size) : d.Disjoint x := by
  obtain h | h := h
  · exact .inl (by omega)
  · exact .inr (by omega)

theorem Apart.part (h : c.Apart x) (h1 : c.first≤d.first)
    (h2 : d.first+d.size≤c.first+c.size) : d.Apart x := by
  obtain h | h := h
  · exact .inl (by omega)
  · exact .inr (by omega)

theorem Adjacent.disjoint (h : c.Adjacent r) (hpos : 1≤r.size) (hc : c.Disjoint x)
    (hr : r.Disjoint x) (hx : 1≤x.size) : (c.joined r).Disjoint x := by
  simp only [Disjoint,joined,Adjacent] at *
  split
  · omega
  · omega

theorem Adjacent.apart (h : c.Adjacent r) (hpos : 1≤r.size) (hc : c.Apart x)
    (hr : r.Apart x) (hx : 1≤x.size) : (c.joined r).Apart x := by
  simp only [Apart,joined,Adjacent] at *
  split
  · omega
  · omega

theorem Adjacent.within (h : c.Adjacent r) (hc : c.Within lo hi) (hr : r.Within lo hi) :
    (c.joined r).Within lo hi := by
  simp only [Within,joined,Adjacent] at *
  split
  · omega
  · omega

theorem perm_take (A B R : List Extent) (c : Extent) : (A++c::B++R).Perm (A++B++c::R) :=
  (perm_middle.append_right R).trans perm_middle.symm

theorem perm_first (A B R : List Extent) (c : Extent) : (A++c::B++R).Perm (c::(A++B++R)) :=
  perm_middle.append_right R

theorem disjoint_middle (hd : (A++c::B).Pairwise Disjoint) : ∀ d∈A++B, c.Disjoint d :=
  (pairwise_cons.mp (perm_middle.pairwise hd Disjoint.symm)).1

/-- An extent is divided into the parts `d` and `r`. -/
theorem disjoint_split (hd : (A++c::B++R).Pairwise Disjoint) {A' B' : List Extent}
    (hAB : A++B=A'++B') (h1 : d.first=c.first) (h2 : r.first=d.first+d.size)
    (h3 : d.size+r.size=c.size) : (A'++d::B'++r::R).Pairwise Disjoint := by
  obtain ⟨hc,hrest⟩ := pairwise_cons.mp ((perm_first A B R c).pairwise hd Disjoint.symm)
  rw [hAB] at hc hrest
  have hperm : (A'++d::B'++r::R).Perm (d::r::(A'++B'++R)) :=
    (perm_first A' B' (r::R) d).trans (perm_middle.cons d)
  refine hperm.symm.pairwise (pairwise_cons.mpr ⟨fun x hx => ?_,
    pairwise_cons.mpr ⟨fun x hx => ?_,hrest⟩⟩) Disjoint.symm
  · obtain rfl | hx := mem_cons.mp hx
    · exact .inl (by omega)
    · exact (hc x hx).part (by omega) (by omega)
  · exact (hc x hx).part (by omega) (by omega)

/-- In a list ordered by size, an extent is put before the first that is not smaller. -/
theorem sorted_insert (h : (A++B).Pairwise fun c d => c.size≤d.size)
    (hA : ∀ c∈A, c.size<d.size) (hB : ∀ c∈B.head?, d.size≤c.size) :
    (A++d::B).Pairwise fun c d => c.size≤d.size := by
  obtain ⟨h1,h2,h3⟩ := pairwise_append.mp h
  have hdB : ∀ c∈B, d.size≤c.size := by
    cases B with
    | nil => simp
    | cons b B =>
      have hb : d.size≤b.size := hB b rfl
      intro c hc
      obtain rfl | hc := mem_cons.mp hc
      · exact hb
      · exact hb.trans ((pairwise_cons.mp h2).1 c hc)
  refine pairwise_append.mpr ⟨h1,pairwise_cons.mpr ⟨hdB,h2⟩,fun a ha b hb => ?_⟩
  obtain rfl | hb := mem_cons.mp hb
  · exact (hA a ha).le
  · exact h3 a ha b hb

theorem sum_size_insert (A B : List Extent) (c : Extent) :
    ((A++c::B).map size).sum=c.size+((A++B).map size).sum := by
  simp only [map_append,map_cons,sum_append,sum_cons]
  omega

theorem length_le (hnodup : (A.map first).Nodup) (h : ∀ c∈A, c.Within lo hi) : A.length≤hi := by
  have hsub : A.map first ⊆ List.range hi := by
    intro n hn
    obtain ⟨c,hc,rfl⟩ := mem_map.mp hn
    obtain ⟨h1,h2,h3⟩ := h c hc
    exact mem_range.mpr (by omega)
  simpa using (hnodup.subperm hsub).length_le

end Extent
