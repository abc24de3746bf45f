import Mathlib.Data.List.TakeWhile
import Mathlib.Tactic

/-! Finite ordered maps. An element has a place where it is stored; the elements of a map are
in the order of a comparison, and no two of them are equal for it. -/
namespace OrderedMap
open List

structure OrdMap (ι : Type*) {α : Type*} (cmp : α → α → Ordering) where
  entries : List (ι × α)
  sorted : entries.Pairwise fun x y => cmp x.2 y.2 = .lt

namespace OrdMap
variable {ι α : Type*} {cmp : α → α → Ordering}

def empty : OrdMap ι cmp := ⟨[],List.Pairwise.nil⟩

def lookup (m : OrdMap ι cmp) (x : α) : Option (ι × α) :=
  m.entries.find? fun e => cmp x e.2 = .eq

def erase (m : OrdMap ι cmp) (x : α) : OrdMap ι cmp :=
  ⟨m.entries.eraseP fun e => cmp x e.2 = .eq,m.sorted.sublist eraseP_sublist⟩

variable {A B : List (ι × α)} {x : α}

/-- The place of `x` separates smaller from larger elements. -/
theorem sorted_between [Std.TransCmp cmp] {i : ι}
    (hs : (A++B).Pairwise fun x y => cmp x.2 y.2 = .lt) (hA : ∀ e∈A, cmp e.2 x = .lt)
    (hB : ∀ e∈B, cmp x e.2 = .lt) :
    (A++(i, x)::B).Pairwise fun x y => cmp x.2 y.2 = .lt := by
  obtain ⟨h1,h2,h3⟩ := pairwise_append.mp hs
  refine pairwise_append.mpr ⟨h1,pairwise_cons.mpr ⟨hB,h2⟩,fun a ha b hb => ?_⟩
  obtain rfl | hb := mem_cons.mp hb
  · exact hA a ha
  · exact h3 a ha b hb

/-- The elements that are smaller than `x`, and those that are larger if none is equal. -/
theorem split_lookup [Std.TransCmp cmp] (m : OrdMap ι cmp) (h : m.lookup x=none) :
    (∀ e∈m.entries.takeWhile fun e => cmp e.2 x = .lt, cmp e.2 x = .lt) ∧
      ∀ e∈m.entries.dropWhile fun e => cmp e.2 x = .lt, cmp x e.2 = .lt := by
  refine ⟨fun e he => by simpa using mem_takeWhile_imp he,?_⟩
  have hs := m.sorted
  have hne : ∀ e∈m.entries, cmp x e.2 ≠ .eq := by
    simpa [lookup] using h
  generalize m.entries=l at hs hne
  induction l with
  | nil => simp
  | cons a l ih =>
    rw [dropWhile_cons]
    by_cases ha : cmp a.2 x = .lt
    · rw [if_pos (by simpa using ha)]
      exact ih (pairwise_cons.mp hs).2 fun e he => hne e (by simp [he])
    · rw [if_neg (by simpa using ha)]
      have hgt : cmp x a.2 = .lt := by
        cases hc : cmp x a.2 with
        | lt => rfl
        | eq => exact absurd hc (hne a (by simp))
        | gt => exact absurd (Std.OrientedCmp.lt_of_gt hc) ha
      intro e he
      obtain rfl | he := mem_cons.mp he
      · exact hgt
      · exact Std.TransCmp.lt_trans hgt ((pairwise_cons.mp hs).1 e he)

def insert [Std.TransCmp cmp] (m : OrdMap ι cmp) (x : α) (i : ι) (h : m.lookup x=none) :
    OrdMap ι cmp where
  entries := (m.entries.takeWhile fun e => cmp e.2 x = .lt)++(i, x) ::
    m.entries.dropWhile fun e => cmp e.2 x = .lt
  sorted := sorted_between (by rw [takeWhile_append_dropWhile]; exact m.sorted)
    (m.split_lookup h).1 (m.split_lookup h).2

variable {m : OrdMap ι cmp}

theorem lookup_eq_none [Std.TransCmp cmp]
    (hm : m.entries=A++B) (hA : ∀ e∈A, cmp e.2 x = .lt) (hB : ∀ e∈B, cmp x e.2 = .lt) :
    m.lookup x=none := by
  rw [lookup,hm,find?_eq_none]
  intro e he
  obtain he | he := mem_append.mp he
  · simp [Std.OrientedCmp.gt_of_lt (hA e he)]
  · simp [hB e he]

theorem entries_insert [Std.TransCmp cmp] (i : ι) (hm : m.entries=A++B)
    (hA : ∀ e∈A, cmp e.2 x = .lt) (hB : ∀ e∈B, cmp x e.2 = .lt) (h : m.lookup x=none) :
      (m.insert x i h).entries=A++(i, x)::B := by
  have hstop : ∀ e∈B, cmp e.2 x ≠ .lt := fun e he => by
    simp [Std.OrientedCmp.gt_of_lt (hB e he)]
  have hdrop : B.takeWhile (fun e => cmp e.2 x = .lt)=[] ∧
      B.dropWhile (fun e => cmp e.2 x = .lt)=B := by
    cases B with
    | nil => exact ⟨rfl,rfl⟩
    | cons b B =>
      have := hstop b (by simp)
      simp [this]
  have hall : ∀ e∈A, decide (cmp e.2 x = .lt)=true := fun e he => by simpa using hA e he
  simp only [insert,hm]
  rw [takeWhile_append_of_pos hall,dropWhile_append_of_pos hall,hdrop.1,hdrop.2,append_nil]

section
variable [Std.TransCmp cmp] {e : ι × α} (hm : m.entries=A++e::B) (hx : cmp x e.2 = .eq)
include hm hx

theorem ne_of_before : ∀ a∈A, cmp x a.2 ≠ .eq := by
  intro a ha heq
  have hs := m.sorted
  rw [hm] at hs
  have hlt := (pairwise_append.mp hs).2.2 a ha e (by simp)
  have heq' : cmp a.2 e.2 = .eq := Std.TransCmp.eq_trans (Std.OrientedCmp.eq_symm heq) hx
  rw [hlt] at heq'
  cases heq'

theorem lookup_eq_some : m.lookup x=some e := by
  rw [lookup,hm,find?_append,find?_eq_none.mpr]
  · simp [hx]
  · simpa using ne_of_before hm hx

theorem entries_erase : (m.erase x).entries=A++B := by
  have hA := ne_of_before hm hx
  simp only [erase,hm]
  rw [eraseP_append_right _ (by simpa using hA),eraseP_cons_of_pos (by simpa using hx)]

end

end OrdMap

end OrderedMap
